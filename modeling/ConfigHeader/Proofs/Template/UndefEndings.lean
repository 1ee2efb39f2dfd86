import ConfigHeader.Proofs.Template.DirectiveGrammar

namespace ConfigHeader.Template

/-- The line ends with an `#undef` of the name, and with blanks behind the name. -/
def EndsWithUndef (name blanks line : Bytes) : Prop :=
  (∀ byte ∈ blanks, Byte.isBlank byte = true) ∧
    ∃ (before : Bytes) (directive : UndefDirective), directive.Spelled ∧ directive.name = name ∧
      line = before ++ directive.head ++ blanks

theorem UndefDirective.Spelled.endsWithUndef {directive : UndefDirective}
    (spelled : directive.Spelled) (before : Bytes) :
    EndsWithUndef directive.name [] (before ++ directive.head) :=
  ⟨by simp, before, directive, spelled, rfl, by simp⟩

/-- What stands behind the last `#` is unique. -/
theorem lastHash_inj {before before' rest rest' : Bytes} (absent : Byte.hash ∉ rest)
    (absent' : Byte.hash ∉ rest')
    (same : before ++ Byte.hash :: rest = before' ++ Byte.hash :: rest') : rest = rest' := by
  rcases List.append_eq_append_iff.mp same with ⟨more, -, later⟩ | ⟨more, -, later⟩
  · cases more with
    | nil => exact (List.cons.inj later).2
    | cons byte more => simp [(List.cons.inj later).2] at absent
  · cases more with
    | nil => exact (List.cons.inj later).2.symm
    | cons byte more => simp [(List.cons.inj later).2] at absent'

namespace EndsWithUndef

variable {name blanks line : Bytes}

theorem ne_nil (undef : EndsWithUndef name blanks line) : line ≠ [] := by
  obtain ⟨-, before, directive, -, -, rfl⟩ := undef
  simp [UndefDirective.head]

/-- Without blanks behind it, the name ends the line. -/
theorem isNamePart_last (undef : EndsWithUndef name [] line) {last : UInt8}
    (ends : last ∈ line.getLast?) : Byte.isNamePart last = true := by
  obtain ⟨-, before, directive, spelled, -, rfl⟩ := undef
  apply spelled.name.namePart
  simp only [UndefDirective.head, List.append_nil] at ends
  rw [← List.append_assoc, List.getLast?_append_of_ne_nil _ spelled.name.ne_nil] at ends
  exact List.mem_of_getLast? ends

theorem isBlank_last (undef : EndsWithUndef name blanks line) (filled : blanks ≠ [])
    {last : UInt8} (ends : last ∈ line.getLast?) : Byte.isBlank last = true := by
  obtain ⟨inside, before, directive, -, -, rfl⟩ := undef
  rw [List.getLast?_append_of_ne_nil _ filled] at ends
  exact inside last (List.mem_of_getLast? ends)

theorem isNamePart_or_isBlank_last (undef : EndsWithUndef name blanks line) {last : UInt8}
    (ends : last ∈ line.getLast?) : Byte.isNamePart last = true ∨ Byte.isBlank last = true := by
  by_cases filled : blanks = []
  · subst filled
    exact .inl (undef.isNamePart_last ends)
  · exact .inr (undef.isBlank_last filled ends)

/-- A line does not end both with a name and with blanks behind one. -/
theorem blanks_eq_nil {other : Bytes} (bare : EndsWithUndef other [] line)
    (undef : EndsWithUndef name blanks line) : blanks = [] := by
  by_contra filled
  have ends := List.getLast?_eq_some_getLast bare.ne_nil
  have blank := undef.isBlank_last filled ends
  rw [Byte.isBlank_of_isNamePart (bare.isNamePart_last ends)] at blank
  cases blank

/-- Behind the last `#` of the line stand blanks, the keyword and what follows it. -/
theorem lastHash (undef : EndsWithUndef name blanks line) :
    ∃ before spacing rest, line = before ++ Byte.hash :: (spacing ++ UndefDirective.keyword ++ rest) ∧
      (∀ byte ∈ spacing, Byte.isBlank byte = true) ∧
      Byte.hash ∉ spacing ++ UndefDirective.keyword ++ rest := by
  obtain ⟨inside, before, directive, spelled, -, rfl⟩ := undef
  obtain ⟨body, same, absent, -⟩ := spelled.head_eq
  have body_eq : body =
      directive.spacing ++ UndefDirective.keyword ++ (directive.gap ++ directive.name) := by
    simpa [UndefDirective.head] using (List.cons.inj same).2.symm
  refine ⟨before, directive.spacing, directive.gap ++ directive.name ++ blanks, ?_,
    spelled.spacing, ?_⟩
  · simp [UndefDirective.head]
  · have later : Byte.hash ∉ blanks := not_mem_run inside rfl
    rw [body_eq] at absent
    simp only [List.mem_append, not_or] at absent ⊢
    exact ⟨absent.1, absent.2, later⟩

/-- The ending names one name only. -/
theorem name_unique {other : Bytes} (undef : EndsWithUndef name [] line)
    (undef' : EndsWithUndef other [] line) : name = other := by
  obtain ⟨-, before, directive, spelled, rfl, rfl⟩ := undef
  obtain ⟨-, before', directive', spelled', rfl, same⟩ := undef'
  obtain ⟨body, head, absent, -⟩ := spelled.head_eq
  obtain ⟨body', head', absent', -⟩ := spelled'.head_eq
  have heads : directive.head = directive'.head := by
    rw [head, head'] at same ⊢
    rw [lastHash_inj absent absent' (by simpa using same)]
  have found := UndefDirective.read?_head_append spelled []
  rw [heads, UndefDirective.read?_head_append spelled' []] at found
  exact (congrArg UndefDirective.name (Option.some.inj found)).symm

end EndsWithUndef

/-- The word behind the last `#` of a line and blanks is another one than `undef`. -/
theorem not_endsWithUndef_of_define {before spacing rest : Bytes}
    (blank : ∀ byte ∈ spacing, Byte.isBlank byte = true) (absent : Byte.hash ∉ rest)
    (name blanks : Bytes) :
    ¬ EndsWithUndef name blanks
      (before ++ Byte.hash :: (spacing ++ textBytes "define " ++ rest)) := by
  intro undef
  obtain ⟨front, others, tail, same, otherBlank, otherAbsent⟩ := undef.lastHash
  have fresh : Byte.hash ∉ spacing ++ textBytes "define " ++ rest := by
    simp only [List.mem_append, not_or]
    exact ⟨⟨not_mem_run blank rfl, by decide⟩, absent⟩
  have aligned := congrArg (List.dropWhile Byte.isBlank) (lastHash_inj fresh otherAbsent same)
  rw [List.append_assoc, List.append_assoc, List.dropWhile_append_of_pos blank,
    List.dropWhile_append_of_pos otherBlank] at aligned
  have left : textBytes "define " = 0x64 :: textBytes "efine " := by decide
  have right : UndefDirective.keyword = 0x75 :: textBytes "ndef" := by decide
  rw [left, right, List.cons_append, List.cons_append, List.dropWhile_cons_of_neg (by decide),
    List.dropWhile_cons_of_neg (by decide)] at aligned
  exact absurd (List.cons.inj aligned).1 (by decide)

end ConfigHeader.Template
