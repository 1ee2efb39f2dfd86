import ConfigHeader.Template.Replacement
import Mathlib.Data.List.Basic

/-! The occurrences of a search string. Both ways of replacing them, forward by copying and backward
by splicing, come to the same: a search that copies bytes and goes on behind each occurrence. -/
namespace ConfigHeader.Template

variable {needle content rest replacement : Bytes} {first : UInt8}

private theorem occurrences_scan_skip (position skipped : Nat) (content : Bytes) :
    occurrences.scan needle position skipped content =
      occurrences.scan needle (position + skipped) 0 (content.drop skipped) := by
  induction content generalizing position skipped with
  | nil => cases skipped <;> simp [occurrences.scan]
  | cons first rest ih =>
    cases skipped with
    | zero => rfl
    | succ skipped =>
      rw [occurrences.scan, ih, List.drop_succ_cons]
      congr 1
      omega

private theorem occurrences_scan_shift (shift position skipped : Nat) (content : Bytes) :
    occurrences.scan needle (position + shift) skipped content =
      (occurrences.scan needle position skipped content).map (· + shift) := by
  induction content generalizing position skipped with
  | nil => simp [occurrences.scan]
  | cons first rest ih =>
    have later (skipped : Nat) : occurrences.scan needle (position + shift + 1) skipped rest =
        (occurrences.scan needle (position + 1) skipped rest).map (· + shift) := by
      rw [Nat.add_right_comm, ih]
    cases skipped with
    | zero =>
      rw [occurrences.scan, occurrences.scan]
      split
      · rw [later, List.map_cons]
      · exact later 0
    | succ skipped =>
      rw [occurrences.scan, occurrences.scan]
      exact later skipped

@[simp] theorem occurrences_nil : occurrences needle [] = [] := rfl

/-- Where the search string does not begin, its occurrences are those in the rest. -/
theorem occurrences_cons (other : ¬ needle <+: first :: rest) :
    occurrences needle (first :: rest) = (occurrences needle rest).map (· + 1) := by
  have absent : needle.isPrefixOf (first :: rest) = false := by
    simpa [← List.isPrefixOf_iff_prefix] using other
  rw [occurrences, occurrences.scan, absent, if_neg (by simp)]
  exact occurrences_scan_shift 1 0 0 rest

/-- Where the search string begins, the next search begins behind it. -/
theorem occurrences_append (filled : needle ≠ []) (rest : Bytes) :
    occurrences needle (needle ++ rest) =
      0 :: (occurrences needle rest).map (· + needle.length) := by
  obtain ⟨first, others, rfl⟩ := List.exists_cons_of_ne_nil filled
  have here : (first :: others).isPrefixOf (first :: (others ++ rest)) = true :=
    List.isPrefixOf_iff_prefix.mpr ⟨rest, rfl⟩
  rw [List.cons_append, occurrences, occurrences.scan, if_pos here, occurrences_scan_skip,
    List.length_cons, Nat.add_sub_cancel, List.drop_left, occurrences, ← occurrences_scan_shift]
  congr 1
  congr 1
  omega

/-- Induction over a search: the search string does not begin, or the search goes on behind it. -/
@[elab_as_elim]
theorem searchInduction (filled : needle ≠ []) {motive : Bytes → Prop} (nil : motive [])
    (passed : ∀ first rest, ¬ needle <+: first :: rest → motive rest → motive (first :: rest))
    (found : ∀ rest, motive rest → motive (needle ++ rest)) (content : Bytes) :
    motive content := by
  cases content with
  | nil => exact nil
  | cons first rest =>
    by_cases here : needle <+: first :: rest
    · obtain ⟨tail, parts⟩ := here
      have shorter : tail.length < rest.length + 1 := by
        have lengths := congrArg List.length parts
        have positive := List.length_pos_iff.mpr filled
        simp only [List.length_append, List.length_cons] at lengths
        omega
      rw [← parts]
      exact found tail (searchInduction filled nil passed found tail)
    · exact passed first rest here (searchInduction filled nil passed found rest)
termination_by content.length

private theorem copy_shift (shift width copied : Nat) (positions : List Nat) (rest : Bytes) :
    copyReplacing.copy replacement width (copied + shift) (positions.map (· + shift)) rest =
      copyReplacing.copy replacement width copied positions rest := by
  induction positions generalizing copied rest with
  | nil => rfl
  | cons position later ih =>
    rw [List.map_cons, copyReplacing.copy, copyReplacing.copy, Nat.add_sub_add_right,
      Nat.add_right_comm, ih, Nat.add_sub_add_right]

private theorem replaceLiteral_eq_copy : replaceLiteral content needle replacement =
    copyReplacing.copy replacement needle.length 0 (occurrences needle content) content := rfl

@[simp] theorem replaceLiteral_nil : replaceLiteral [] needle replacement = [] := rfl

theorem replaceLiteral_cons (other : ¬ needle <+: first :: rest) :
    replaceLiteral (first :: rest) needle replacement =
      first :: replaceLiteral rest needle replacement := by
  rw [replaceLiteral_eq_copy, occurrences_cons other, replaceLiteral_eq_copy]
  cases occurrences needle rest with
  | nil => rfl
  | cons position later =>
    rw [List.map_cons, copyReplacing.copy, copyReplacing.copy, Nat.add_right_comm, copy_shift]
    simp

theorem replaceLiteral_append (filled : needle ≠ []) (rest : Bytes) :
    replaceLiteral (needle ++ rest) needle replacement =
      replacement ++ replaceLiteral rest needle replacement := by
  rw [replaceLiteral_eq_copy, occurrences_append filled, copyReplacing.copy, copy_shift,
    replaceLiteral_eq_copy]
  simp

theorem splice_cons (width position : Nat) :
    splice replacement width (position + 1) (first :: content) =
      first :: splice replacement width position content := by
  simp [splice, Nat.add_right_comm]

theorem splice_append (width position : Nat) :
    splice replacement width (position + needle.length) (needle ++ content) =
      needle ++ splice replacement width position content := by
  rw [splice, Nat.add_comm position, List.take_length_add_append, Nat.add_assoc,
    List.drop_length_add_append, splice]
  simp

/-- Splicing from the last occurrence to the first gives what copying forward gives. -/
theorem inlineAll_eq_replaceLiteral (filled : needle ≠ []) (content : Bytes) :
    inlineAll content needle replacement = replaceLiteral content needle replacement := by
  induction content using searchInduction filled with
  | nil => rfl
  | passed first rest other ih =>
    have later (positions : List Nat) : (positions.map (· + 1)).foldr
        (splice replacement needle.length) (first :: rest) =
          first :: positions.foldr (splice replacement needle.length) rest := by
      induction positions with
      | nil => rfl
      | cons position positions ih => rw [List.map_cons, List.foldr_cons, ih, splice_cons,
          List.foldr_cons]
    rw [inlineAll, occurrences_cons other, later, replaceLiteral_cons other, ← ih, inlineAll]
  | found rest ih =>
    have later (positions : List Nat) : (positions.map (· + needle.length)).foldr
        (splice replacement needle.length) (needle ++ rest) =
          needle ++ positions.foldr (splice replacement needle.length) rest := by
      induction positions with
      | nil => rfl
      | cons position positions ih => rw [List.map_cons, List.foldr_cons, ih, splice_append,
          List.foldr_cons]
    rw [inlineAll, occurrences_append filled, List.foldr_cons, later,
      replaceLiteral_append filled, ← ih, inlineAll]
    simp [splice]

theorem textBytes_ne_nil {text : String} (filled : text ≠ "") : textBytes text ≠ [] := by
  intro empty
  rw [textBytes, List.flatMap_eq_nil_iff] at empty
  have none : text.toList = [] :=
    List.eq_nil_iff_forall_not_mem.mpr fun char member =>
      String.utf8EncodeChar_ne_nil (empty char member)
  exact filled (String.toList_eq_nil_iff.mp none)

end ConfigHeader.Template
