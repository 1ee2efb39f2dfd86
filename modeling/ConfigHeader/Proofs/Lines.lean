import ConfigHeader.Bytes

/-! Contents as lines. A content is a sequence of lines, each with the newline that ends it, and a
rest behind the last newline; what is said of passes over a content is proved line by line. -/
namespace ConfigHeader

/-- Induction over the parts of a list that a separator ends, and what stands behind the last one. -/
theorem separatorInduction {α : Type} (separator : α) {motive : List α → Prop}
    (rest : ∀ rest, separator ∉ rest → motive rest)
    (part : ∀ part rest, separator ∉ part → motive rest → motive (part ++ separator :: rest))
    (items : List α) : motive items := by
  by_cases inside : separator ∈ items
  · obtain ⟨first, later, same, fresh⟩ := List.eq_append_cons_of_mem inside
    have shorter : later.length < items.length := by simp [same]; omega
    rw [same]
    exact part first later fresh (separatorInduction separator rest part later)
  · exact rest items inside
termination_by items.length

namespace Bytes

/-- The content is empty or ends with a newline, so that what follows it begins a line. -/
def Closed (content : Bytes) : Prop :=
  content = [] ∨ content.endsWithNewline = true

/-- The content holds nothing but blanks and newlines. -/
def Hollow (content : Bytes) : Prop :=
  ∀ byte ∈ content, byte = Byte.newline ∨ Byte.isBlank byte = true

/-- Some line that ends with a newline is, together with all that follows that newline, as
`holds` says. -/
def HasLine (holds : Bytes → Bytes → Prop) (content : Bytes) : Prop :=
  ∃ before line after, content = before ++ line ++ Byte.newline :: after ∧ before.Closed ∧
    Byte.newline ∉ line ∧ holds line after

theorem endsWithNewline_iff {content : Bytes} :
    content.endsWithNewline = true ↔ ∃ body, content = body ++ [Byte.newline] := by
  rw [endsWithNewline, beq_iff_eq, List.getLast?_eq_some_iff]

@[simp] theorem endsWithNewline_nil : endsWithNewline [] = false := rfl

/-- Whether a content ends with a newline is decided by any part that is not empty at its end. -/
theorem endsWithNewline_append {first second : Bytes} (filled : second ≠ []) :
    (first ++ second).endsWithNewline = second.endsWithNewline := by
  simp only [endsWithNewline, List.getLast?_append, List.getLast?_eq_some_getLast filled,
    Option.some_or]

theorem endsWithNewline_newline_cons (first rest : Bytes) :
    (first ++ Byte.newline :: rest).endsWithNewline = (rest.endsWithNewline || rest.isEmpty) := by
  cases rest with
  | nil => simp [endsWithNewline]
  | cons byte rest =>
    rw [List.append_cons, endsWithNewline_append (by simp)]
    simp

theorem not_endsWithNewline {rest : Bytes} (inside : Byte.newline ∉ rest) :
    rest.endsWithNewline = false := by
  cases ends : rest.endsWithNewline with
  | false => rfl
  | true =>
    obtain ⟨body, same⟩ := endsWithNewline_iff.mp ends
    simp [same] at inside

theorem closed_nil : Closed [] := .inl rfl

theorem closed_newline (line : Bytes) : Closed (line ++ [Byte.newline]) :=
  .inr (endsWithNewline_iff.mpr ⟨line, rfl⟩)

theorem Closed.append {first second : Bytes} (left : first.Closed) (right : second.Closed) :
    (first ++ second).Closed := by
  rcases right with empty | ends
  · simpa [empty] using left
  · obtain ⟨body, same⟩ := endsWithNewline_iff.mp ends
    exact .inr (endsWithNewline_iff.mpr ⟨first ++ body, by simp [same]⟩)

/-- A content without newlines is closed only if it is empty. -/
theorem Closed.eq_nil {rest : Bytes} (closed : rest.Closed) (inside : Byte.newline ∉ rest) :
    rest = [] := by
  rcases closed with empty | ends
  · exact empty
  · simp [not_endsWithNewline inside] at ends

theorem Closed.endsWithNewline {content : Bytes} (closed : content.Closed)
    (filled : content ≠ []) : content.endsWithNewline = true :=
  closed.resolve_left filled

/-- What follows the first line of a closed content is closed. -/
theorem Closed.tail {line rest : Bytes} (closed : (line ++ Byte.newline :: rest).Closed) :
    rest.Closed := by
  have ends := closed.endsWithNewline (by simp)
  rw [endsWithNewline_newline_cons] at ends
  rcases Bool.or_eq_true_iff.mp ends with later | empty
  · exact .inr later
  · exact .inl (List.isEmpty_iff.mp empty)

theorem Closed.line (line : Bytes) {rest : Bytes} (closed : rest.Closed) :
    (line ++ Byte.newline :: rest).Closed := by
  rw [List.append_cons]
  exact (closed_newline line).append closed

/-- Induction over the lines of a content, the last one without its newline. -/
@[elab_as_elim]
theorem lineInduction {motive : Bytes → Prop}
    (rest : ∀ rest, Byte.newline ∉ rest → motive rest)
    (line : ∀ line rest, Byte.newline ∉ line → motive rest →
      motive (line ++ Byte.newline :: rest))
    (content : Bytes) : motive content :=
  separatorInduction Byte.newline rest line content

/-- The first line of a content and what follows it are unique. -/
theorem firstLine_inj {line line' rest rest' : Bytes} (inside : Byte.newline ∉ line)
    (inside' : Byte.newline ∉ line') :
    line ++ Byte.newline :: rest = line' ++ Byte.newline :: rest' ↔
      line = line' ∧ rest = rest' := by
  constructor
  · intro same
    rcases List.append_eq_append_iff.mp same with ⟨more, extended, later⟩ | ⟨more, extended, later⟩
    · cases more with
      | nil => simpa [extended] using later
      | cons byte more =>
        have first := (List.cons.inj later).1
        simp [extended, ← first] at inside'
    · cases more with
      | nil => simpa [extended, eq_comm] using later
      | cons byte more =>
        have first := (List.cons.inj later).1
        simp [extended, ← first] at inside
  · rintro ⟨rfl, rfl⟩
    rfl

theorem not_hasLine {holds : Bytes → Bytes → Prop} {rest : Bytes}
    (inside : Byte.newline ∉ rest) : ¬ HasLine holds rest := by
  rintro ⟨before, line, after, same, -⟩
  simp [same] at inside

/-- A line of a content is its first one or a line of what follows that. -/
theorem hasLine_cons {holds : Bytes → Bytes → Prop} {first rest : Bytes}
    (inside : Byte.newline ∉ first) :
    HasLine holds (first ++ Byte.newline :: rest) ↔ holds first rest ∨ HasLine holds rest := by
  constructor
  · rintro ⟨before, line, after, same, closed, fresh, held⟩
    by_cases outside : Byte.newline ∈ before
    · obtain ⟨head, more, parts, early⟩ := List.eq_append_cons_of_mem outside
      subst parts
      have aligned : first ++ Byte.newline :: rest =
          head ++ Byte.newline :: (more ++ line ++ Byte.newline :: after) := by simpa using same
      obtain ⟨-, later⟩ := (firstLine_inj inside early).mp aligned
      exact .inr ⟨more, line, after, later, closed.tail, fresh, held⟩
    · have empty := closed.eq_nil outside
      subst empty
      obtain ⟨rfl, rfl⟩ := (firstLine_inj inside fresh).mp (by simpa using same)
      exact .inl held
  · rintro (held | ⟨before, line, after, same, closed, fresh, held⟩)
    · exact ⟨[], first, rest, by simp, closed_nil, inside, held⟩
    · refine ⟨first ++ [Byte.newline] ++ before, line, after, by simp [same], ?_, fresh, held⟩
      exact (closed_newline first).append closed

theorem hasLine_congr {holds holds' : Bytes → Bytes → Prop} {content : Bytes}
    (same : ∀ line after, Byte.newline ∉ line → (holds line after ↔ holds' line after)) :
    HasLine holds content ↔ HasLine holds' content := by
  induction content using lineInduction with
  | rest rest inside => exact iff_of_false (not_hasLine inside) (not_hasLine inside)
  | line line rest inside ih => rw [hasLine_cons inside, hasLine_cons inside, same _ _ inside, ih]

/-- A content is made of lines that are ended and of what stands on its last line. -/
theorem exists_closed_append (content : Bytes) :
    ∃ before rest, content = before ++ rest ∧ before.Closed ∧ Byte.newline ∉ rest := by
  induction content using lineInduction with
  | rest rest inside => exact ⟨[], rest, rfl, closed_nil, inside⟩
  | line line rest inside ih =>
    obtain ⟨before, last, rfl, closed, fresh⟩ := ih
    exact ⟨line ++ Byte.newline :: before, last, by simp, closed.line line, fresh⟩

/-- The pass makes a line of each line, and what remains behind the last one stays there. -/
structure Linewise (pass step : Bytes → Bytes) : Prop where
  line : ∀ line rest, Byte.newline ∉ line →
    pass (line ++ Byte.newline :: rest) = step line ++ Byte.newline :: pass rest
  step : ∀ line, Byte.newline ∉ line → Byte.newline ∉ step line
  rest : ∀ rest, Byte.newline ∉ rest → Byte.newline ∉ pass rest

namespace Linewise

variable {pass step later laterStep : Bytes → Bytes}

theorem id : Linewise (fun content => content) fun line => line :=
  ⟨fun _ _ _ => rfl, fun _ inside => inside, fun _ inside => inside⟩

theorem comp (outer : Linewise later laterStep) (inner : Linewise pass step) :
    Linewise (fun content => later (pass content)) fun line => laterStep (step line) where
  line line rest inside := by rw [inner.line _ _ inside, outer.line _ _ (inner.step _ inside)]
  step line inside := outer.step _ (inner.step line inside)
  rest rest inside := outer.rest _ (inner.rest rest inside)

/-- The lines behind the pass are those of the content, each one changed. -/
theorem hasLine_iff (linewise : Linewise pass step) {holds : Bytes → Bytes → Prop}
    {content : Bytes} :
    HasLine holds (pass content) ↔
      HasLine (fun line after => holds (step line) (pass after)) content := by
  induction content using lineInduction with
  | rest rest inside => exact iff_of_false (not_hasLine (linewise.rest rest inside)) (not_hasLine inside)
  | line line rest inside ih =>
    rw [linewise.line _ _ inside, hasLine_cons (linewise.step _ inside), hasLine_cons inside, ih]

theorem count_newline (linewise : Linewise pass step) (content : Bytes) :
    (pass content).count Byte.newline = content.count Byte.newline := by
  induction content using lineInduction with
  | rest rest inside =>
    rw [List.count_eq_zero.mpr (linewise.rest rest inside), List.count_eq_zero.mpr inside]
  | line line rest inside ih =>
    have before := List.count_eq_zero.mpr inside
    have after := List.count_eq_zero.mpr (linewise.step line inside)
    simp only [linewise.line line rest inside, List.count_append, List.count_cons_self, before,
      after, ih]

end Linewise

/-- The pass respects the ends of lines: a cut behind a newline cuts its result there too. -/
structure LineLocal (pass : Bytes → Bytes) : Prop where
  append : ∀ first second, first.Closed → pass (first ++ second) = pass first ++ pass second
  closed : ∀ content, content.Closed → (pass content).Closed

/-- A pass that turns each line into something with a newline behind it is local. -/
theorem LineLocal.of_lines {pass step : Bytes → Bytes} (nil : pass [] = [])
    (line : ∀ line rest, Byte.newline ∉ line →
      pass (line ++ Byte.newline :: rest) = step line ++ Byte.newline :: pass rest) :
    LineLocal pass where
  append first second closed := by
    induction first using lineInduction with
    | rest rest inside => simp [closed.eq_nil inside, nil]
    | line head rest inside ih =>
      rw [List.append_assoc, List.cons_append, line _ _ inside, line _ _ inside, ih closed.tail]
      simp
  closed content closed := by
    induction content using lineInduction with
    | rest rest inside =>
      rw [closed.eq_nil inside, nil]
      exact closed_nil
    | line head rest inside ih =>
      rw [line _ _ inside]
      exact (ih closed.tail).line _

theorem LineLocal.comp {later earlier : Bytes → Bytes} (outer : LineLocal later)
    (inner : LineLocal earlier) : LineLocal fun content => later (earlier content) where
  append first second closed := by
    rw [inner.append first second closed, outer.append _ _ (inner.closed first closed)]
  closed content closed := outer.closed _ (inner.closed content closed)

@[simp] theorem hollow_append {first second : Bytes} :
    (first ++ second).Hollow ↔ first.Hollow ∧ second.Hollow := by
  simp [Hollow, or_imp, forall_and]

@[simp] theorem hollow_newline_cons {rest : Bytes} :
    Hollow (Byte.newline :: rest) ↔ rest.Hollow := by
  simp [Hollow]

theorem not_hollow_of_mem {content : Bytes} {byte : UInt8} (member : byte ∈ content)
    (solid : (byte == Byte.newline || Byte.isBlank byte) = false) : ¬ content.Hollow := by
  intro hollow
  rw [Bool.or_eq_false_iff, beq_eq_false_iff_ne] at solid
  rcases hollow byte member with newline | blank
  · exact solid.1 newline
  · rw [solid.2] at blank
    cases blank

/-- What two passes leave holds only blanks together if it does so line by line. -/
theorem Linewise.hollow_iff {pass step pass' step' : Bytes → Bytes} (left : Linewise pass step)
    (right : Linewise pass' step')
    (lines : ∀ line, Byte.newline ∉ line → ((step line).Hollow ↔ (step' line).Hollow))
    (rests : ∀ rest, Byte.newline ∉ rest → ((pass rest).Hollow ↔ (pass' rest).Hollow))
    (content : Bytes) : (pass content).Hollow ↔ (pass' content).Hollow := by
  induction content using lineInduction with
  | rest rest inside => exact rests rest inside
  | line line rest inside ih =>
    rw [left.line _ _ inside, right.line _ _ inside, hollow_append, hollow_append,
      hollow_newline_cons, hollow_newline_cons, lines line inside, ih]

/-- Where only blanks follow a line, something stands behind neither it nor any line after it. -/
theorem not_hasLine_of_hollow {holds : Bytes → Prop} {line rest : Bytes}
    (inside : Byte.newline ∉ line) (hollow : rest.Hollow) :
    ¬ HasLine (fun line after => holds line ∧ ¬ after.Hollow) (line ++ Byte.newline :: rest) := by
  rw [hasLine_cons inside]
  rintro (⟨-, filled⟩ | ⟨before, later, after, rfl, -, -, -, filled⟩)
  · exact filled hollow
  · rw [hollow_append, hollow_newline_cons] at hollow
    exact filled hollow.2

end Bytes

end ConfigHeader
