import ConfigHeader.Proofs.TextBytes

namespace ConfigHeader

private theorem ofNat_lt_iff {low high : Nat} (left : low < 256) (right : high < 256) :
    UInt8.ofNat low < UInt8.ofNat high ↔ low < high := by
  rw [UInt8.lt_iff_toNat_lt, UInt8.toNat_ofNat', UInt8.toNat_ofNat', Nat.mod_eq_of_lt left,
    Nat.mod_eq_of_lt right]

private theorem ofNat_inj_iff {low high : Nat} (left : low < 256) (right : high < 256) :
    UInt8.ofNat low = UInt8.ofNat high ↔ low = high := by
  rw [← UInt8.toNat_inj, UInt8.toNat_ofNat', UInt8.toNat_ofNat', Nat.mod_eq_of_lt left,
    Nat.mod_eq_of_lt right]

/-- Neither of two forms begins the other, so what follows them does not count. -/
theorem utf8EncodeChar_append_lt {left right : Char} (less : left < right) (more others : Bytes) :
    String.utf8EncodeChar left ++ more < String.utf8EncodeChar right ++ others := by
  have values : left.toNat < right.toNat := UInt32.lt_iff_toNat_lt.mp less
  rcases utf8EncodeChar_cases left with
    ⟨bound, form⟩ | ⟨bound, limit, form⟩ | ⟨bound, limit, form⟩ | ⟨bound, limit, form⟩ <;>
  rcases utf8EncodeChar_cases right with
    ⟨bound', form'⟩ | ⟨bound', limit', form'⟩ | ⟨bound', limit', form'⟩ | ⟨bound', limit', form'⟩ <;>
  rw [form, form'] <;>
  simp (disch := omega) only [List.cons_append, List.nil_append, List.cons_lt_cons_iff,
    ofNat_lt_iff, ofNat_inj_iff] <;>
  omega

private theorem flatMap_utf8EncodeChar_lt {left right : List Char} (less : left < right) :
    left.flatMap String.utf8EncodeChar < right.flatMap String.utf8EncodeChar := by
  induction left generalizing right with
  | nil =>
    cases right with
    | nil => exact absurd less (List.lt_irrefl _)
    | cons char rest =>
      obtain ⟨byte, bytes, form⟩ := List.exists_cons_of_ne_nil (@String.utf8EncodeChar_ne_nil char)
      rw [List.flatMap_nil, List.flatMap_cons, form]
      exact .nil
  | cons first later ih =>
    cases right with
    | nil => cases less
    | cons char rest =>
      rw [List.flatMap_cons, List.flatMap_cons]
      rcases List.cons_lt_cons_iff.mp less with before | ⟨same, after⟩
      · exact utf8EncodeChar_append_lt before _ _
      · rw [same]
        exact List.append_left_lt (ih after)

/-- The order of texts is the order of their bytes. -/
theorem textBytes_lt_iff {left right : String} : textBytes left < textBytes right ↔ left < right := by
  constructor
  · intro bytes
    rcases Std.lt_trichotomy left right with less | same | greater
    · exact less
    · exact absurd bytes (same ▸ List.lt_irrefl _)
    · exact absurd (flatMap_utf8EncodeChar_lt (String.lt_iff.mp greater))
        (List.lt_asymm bytes)
  · intro less
    exact flatMap_utf8EncodeChar_lt (String.lt_iff.mp less)

theorem nodup_of_ordered {texts : List String}
    (ordered : texts.Pairwise fun left right => textBytes left < textBytes right) :
    texts.Nodup := by
  apply ordered.imp
  intro left right before same
  exact List.lt_irrefl _ (same ▸ before)

end ConfigHeader
