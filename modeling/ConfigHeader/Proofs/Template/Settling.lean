import ConfigHeader.Proofs.Template.UndefEndings
import ConfigHeader.Proofs.Template.Unread

/-! The pass over `#undef` lines. It takes the lines one after another and respects the ends of
lines, although the newlines that end one of its lines may run on past any cut. -/
namespace ConfigHeader.Template

open UndefDirective

variable (actions : KeyMap Action) (unlisted : Unlisted)

private theorem settle_scan_skip (skipped : Nat) (content : Bytes) :
    settleUndefs.scan actions unlisted skipped content =
      settleUndefs.scan actions unlisted 0 (content.drop skipped) := by
  induction content generalizing skipped with
  | nil => cases skipped <;> simp [settleUndefs.scan]
  | cons first rest ih =>
    cases skipped with
    | zero => rfl
    | succ skipped => simpa [settleUndefs.scan] using ih skipped

@[simp] theorem settleUndefs_nil : settleUndefs actions unlisted [] = [] := rfl

/-- A line that is read is replaced, and the pass goes on behind it. -/
theorem settleUndefs_text_append {line : UndefDirective} {tail : Bytes}
    (found : read? (line.text ++ tail) = some line) :
    settleUndefs actions unlisted (line.text ++ tail) =
      line.replacement unlisted (actions.find? (nameText line.name)) ++
        settleUndefs actions unlisted tail := by
  obtain ⟨body, parts⟩ : ∃ body, line.text = Byte.hash :: body := ⟨_, rfl⟩
  rw [parts, List.cons_append] at found ⊢
  rw [settleUndefs, settleUndefs.scan, found]
  simp only [parts, List.length_cons, Nat.add_sub_cancel]
  rw [settle_scan_skip, List.drop_left]
  rfl

/-- A byte at which no line begins is copied. -/
theorem settleUndefs_cons {first : UInt8} {rest : Bytes} (unread : read? (first :: rest) = none) :
    settleUndefs actions unlisted (first :: rest) =
      first :: settleUndefs actions unlisted rest := by
  rw [settleUndefs, settleUndefs.scan, unread]
  rfl

/-- Induction over the pass: a byte is copied or a line is replaced. -/
@[elab_as_elim]
theorem settleInduction {motive : Bytes → Prop} (nil : motive [])
    (copied : ∀ first rest, read? (first :: rest) = none → motive rest → motive (first :: rest))
    (settled : ∀ line tail, line.Formed → read? (line.text ++ tail) = some line → motive tail →
      motive (line.text ++ tail))
    (content : Bytes) : motive content := by
  cases content with
  | nil => exact nil
  | cons first rest =>
    cases found : read? (first :: rest) with
    | none => exact copied first rest found (settleInduction nil copied settled rest)
    | some line =>
      obtain ⟨formed, tail, parts, -⟩ := formed_of_read? found
      have shorter : tail.length < rest.length + 1 := by
        have lengths := congrArg List.length parts
        simp [UndefDirective.text] at lengths
        omega
      rw [parts] at found ⊢
      exact settled line tail formed found (settleInduction nil copied settled tail)
termination_by content.length

/-- The newlines of a line stay behind whatever replaces the line. -/
theorem replacement_newlines (line : UndefDirective) (run : Bytes) (action : Option Action) :
    UndefDirective.replacement unlisted { line with newlines := run } action =
      UndefDirective.replacement unlisted { line with newlines := [] } action ++ run := by
  cases action with
  | some action => cases action <;> simp [replacement, defined, commented]
  | none => cases unlisted <;> simp [replacement, commented, text]

/-- A part in which no line stands is copied. -/
theorem settleUndefs_append_of_unread {part rest : Bytes} (unread : Unread part rest) :
    settleUndefs actions unlisted (part ++ rest) = part ++ settleUndefs actions unlisted rest := by
  induction part with
  | nil => rfl
  | cons first part ih =>
    rw [List.cons_append, settleUndefs_cons _ _ unread.head, ih unread.tail, List.cons_append]

theorem settleUndefs_rest {rest : Bytes} (inside : Byte.newline ∉ rest) :
    settleUndefs actions unlisted rest = rest := by
  simpa using settleUndefs_append_of_unread actions unlisted (.of_newline_not_mem inside)

theorem settleUndefs_newlines {run : Bytes} (rest : Bytes)
    (newlines : ∀ byte ∈ run, byte = Byte.newline) :
    settleUndefs actions unlisted (run ++ rest) = run ++ settleUndefs actions unlisted rest := by
  refine settleUndefs_append_of_unread actions unlisted (.of_hash_not_mem fun member => ?_)
  exact absurd (newlines _ member) (by decide)

theorem settleUndefs_newline_cons (rest : Bytes) :
    settleUndefs actions unlisted (Byte.newline :: rest) =
      Byte.newline :: settleUndefs actions unlisted rest :=
  settleUndefs_cons _ _ (read?_cons_of_ne _ (by decide))

/-- The head of a line is replaced and its newlines are copied, however many follow. -/
theorem settleUndefs_head_append {line : UndefDirective} (spelled : line.Spelled) (rest : Bytes) :
    settleUndefs actions unlisted (line.head ++ Byte.newline :: rest) =
      UndefDirective.replacement unlisted { line with newlines := [] }
          (actions.find? (nameText line.name)) ++
        Byte.newline :: settleUndefs actions unlisted rest := by
  have found := read?_head_append spelled rest
  have parts := @List.takeWhile_append_dropWhile _ (· == Byte.newline) (Byte.newline :: rest)
  have newlines : ∀ byte ∈ (Byte.newline :: rest).takeWhile (· == Byte.newline),
      byte = Byte.newline :=
    fun byte member => by simpa using List.mem_takeWhile_imp member
  generalize (Byte.newline :: rest).takeWhile (· == Byte.newline) = run at *
  generalize (Byte.newline :: rest).dropWhile (· == Byte.newline) = tail at *
  rw [← settleUndefs_newline_cons, ← parts, settleUndefs_newlines _ _ _ newlines,
    ← List.append_assoc, ← List.append_assoc, ← replacement_newlines]
  rw [← parts, ← List.append_assoc] at found
  exact @settleUndefs_text_append actions unlisted { line with newlines := run } tail found

/-- The `#` of an `#undef` line is the last one before the newline. -/
theorem settleUndefs_undef_line {before : Bytes} {directive : UndefDirective}
    (spelled : directive.Spelled) (inside : Byte.newline ∉ before) (rest : Bytes) :
    settleUndefs actions unlisted (before ++ directive.head ++ Byte.newline :: rest) =
      before ++ UndefDirective.replacement unlisted { directive with newlines := [] }
          (actions.find? (nameText directive.name)) ++
        Byte.newline :: settleUndefs actions unlisted rest := by
  have unread : Unread before (directive.head ++ Byte.newline :: rest) :=
    (unread_cons_iff (by decide)).mpr (.of_newline_not_mem inside)
  rw [List.append_assoc, settleUndefs_append_of_unread _ _ unread,
    settleUndefs_head_append _ _ spelled, List.append_assoc]

theorem settleUndefs_other_line {line : Bytes} (inside : Byte.newline ∉ line)
    (other : ∀ name, ¬ EndsWithUndef name [] line) (rest : Bytes) :
    settleUndefs actions unlisted (line ++ Byte.newline :: rest) =
      line ++ Byte.newline :: settleUndefs actions unlisted rest := by
  have unread : Unread line (Byte.newline :: rest) := by
    intro front part same _ directive opens
    have fresh : Byte.newline ∉ part := fun member => inside (by simp [same, member])
    obtain ⟨spelled, aligned⟩ := head_of_read? fresh (read?_eq_some_iff.mpr opens)
    exact other directive.name ⟨by simp, front, directive, spelled, rfl, by simp [same, aligned]⟩
  rw [settleUndefs_append_of_unread _ _ unread, settleUndefs_newline_cons]

/-- What becomes of a line, without the newline that ends it. -/
def settledLine (line : Bytes) : Bytes :=
  (settleUndefs actions unlisted (line ++ [Byte.newline])).dropLast

theorem settleUndefs_line {line : Bytes} (inside : Byte.newline ∉ line) (rest : Bytes) :
    settleUndefs actions unlisted (line ++ Byte.newline :: rest) =
      settledLine actions unlisted line ++ Byte.newline :: settleUndefs actions unlisted rest := by
  by_cases undef : ∃ name, EndsWithUndef name [] line
  · obtain ⟨-, -, before, directive, spelled, -, rfl⟩ := undef
    rw [List.append_nil] at inside ⊢
    have fresh : Byte.newline ∉ before := fun member => inside (by simp [member])
    rw [settledLine, settleUndefs_undef_line _ _ spelled fresh,
      settleUndefs_undef_line _ _ spelled fresh]
    simp
  · have other := not_exists.mp undef
    rw [settledLine, settleUndefs_other_line _ _ inside other,
      settleUndefs_other_line _ _ inside other]
    simp

theorem settleUndefs_lineLocal : Bytes.LineLocal (settleUndefs actions unlisted) :=
  .of_lines (settleUndefs_nil _ _) fun _ rest inside => settleUndefs_line _ _ inside rest

end ConfigHeader.Template
