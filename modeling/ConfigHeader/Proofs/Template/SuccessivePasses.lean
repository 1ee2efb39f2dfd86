import ConfigHeader.Proofs.KeyMapLookup
import ConfigHeader.Proofs.Template.Residue

namespace ConfigHeader.Template

variable {actions first second : KeyMap Action} {entries : List (String × Action)}

/-- Two passes act as one, in which the actions of the first pass come before those of the second. -/
theorem settleUndefs_settleUndefs (definitions : BeginDefinitions first)
    (both : ∀ key, actions.find? key = (first.find? key).or (second.find? key))
    (unlisted : Unlisted) (content : Bytes) :
    settleUndefs second unlisted (settleUndefs first .keep content) =
      settleUndefs actions unlisted content := by
  obtain ⟨cutting, cut⟩ := Cutting.exists_isOf content
  rw [cut.settleUndefs_eq, cut.exact.settleUndefs_withLines (settles_replacement definitions),
    cut.settleUndefs_eq]
  refine Cutting.withLines_congr fun line _ => ?_
  rw [both]
  cases found : first.find? (nameText line.name) with
  | none => simp [stays, found]
  | some action => cases action <;> simp [stays, found, UndefDirective.replacement]

/-- The passes for each of the entries alone, one after another. -/
def settleInTurn (entries : List (String × Action)) (content : Bytes) : Bytes :=
  entries.foldl (fun content entry => settleUndefs (KeyMap.ofList [entry]) .keep content) content

/-- The first entry of a name counts, since it leaves no line of the name to the others. -/
theorem settleInTurn_eq
    (definitions : ∀ entry ∈ entries, ∀ text, entry.2 = .define text → BeginsDefinition text)
    (content : Bytes) :
    settleInTurn entries content = settleUndefs (KeyMap.ofList entries.reverse) .keep content := by
  induction entries using List.reverseRecOn with
  | nil =>
    refine (settleUndefs_eq_self fun line _ => ?_).symm
    rfl
  | append_singleton entries entry ih =>
    have earlier := ih fun other member => definitions other (List.mem_append_left _ member)
    have single : settleInTurn (entries ++ [entry]) content =
        settleUndefs (KeyMap.ofList [entry]) .keep (settleInTurn entries content) := by
      simp [settleInTurn]
    have known : BeginDefinitions (KeyMap.ofList entries.reverse) :=
      beginDefinitions_ofList fun other member =>
        definitions other (List.mem_append_left _ (List.mem_reverse.mp member))
    rw [single, earlier, List.reverse_append, List.reverse_singleton]
    exact settleUndefs_settleUndefs known (fun key => KeyMap.find?_ofList_append key [entry] _) _ _

theorem ofList_reverse_eq
    (listed : ∀ key action, (key, action) ∈ entries ↔ actions.find? key = some action) :
    KeyMap.ofList entries.reverse = actions := by
  refine KeyMap.ext_find? fun key => Option.ext fun action => ?_
  rw [KeyMap.find?_ofList_eq_some_iff_of_unique, List.mem_reverse, listed]
  intro left right leftMember rightMember
  have found := (listed key left).mp (List.mem_reverse.mp leftMember)
  rw [(listed key right).mp (List.mem_reverse.mp rightMember)] at found
  exact (Option.some.inj found).symm

/-- One pass settles the lines of all names as passes for one name each do, in whatever order they
come; what is left then is commented by one more pass. -/
theorem settleUndefs_one_name_at_a_time (actions : KeyMap Action)
    (definitions : BeginDefinitions actions) (entries : List (String × Action))
    (listed : ∀ key action, (key, action) ∈ entries ↔ actions.find? key = some action)
    (content : Bytes) :
    settleInTurn entries content = settleUndefs actions .keep content ∧
      settleUndefs ∅ .comment (settleInTurn entries content) =
        settleUndefs actions .comment content := by
  have turns : settleInTurn entries content = settleUndefs actions .keep content := by
    rw [settleInTurn_eq, ofList_reverse_eq listed]
    rintro ⟨key, action⟩ member text rfl
    exact definitions key text ((listed key _).mp member)
  refine ⟨turns, ?_⟩
  rw [turns]
  exact settleUndefs_settleUndefs definitions (fun key => by simp) .comment content

theorem settleUndefs_one_name_at_a_time_backwards :
    settleInTurn definedAndHidden.reverse (textBytes "##undef A\n#undef B\n#undef C\n") =
        textBytes "##define A 1\n/* #undef B */\n#undef C\n" ∧
      settleUndefs ∅ .comment
          (settleInTurn definedAndHidden.reverse (textBytes "##undef A\n#undef B\n#undef C\n")) =
        textBytes "##define A 1\n/* #undef B */\n/* #undef C */\n" := by
  have listed : ∀ key action, (key, action) ∈ definedAndHidden.reverse ↔
      (KeyMap.ofList definedAndHidden).find? key = some action := by
    intro key action
    rw [List.mem_reverse, KeyMap.find?_ofList_eq_some_iff (by decide)]
  obtain ⟨turns, commented⟩ := settleUndefs_one_name_at_a_time _
    (beginDefinitions_ofList beginsDefinition_of_definedAndHidden) _ listed
    (textBytes "##undef A\n#undef B\n#undef C\n")
  exact ⟨turns.trans (by decide), commented.trans (by decide)⟩

end ConfigHeader.Template
