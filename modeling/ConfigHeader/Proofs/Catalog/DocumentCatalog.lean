import ConfigHeader.Proofs.Catalog.Merging
import ConfigHeader.Proofs.Check.DocumentResults

namespace ConfigHeader

namespace Catalog

variable {role : Role} {checks : List Check}

/-- Results whose keys do not repeat are all taken in. -/
theorem insertAll_empty (source : Path) (distinct : (checks.map role.key).Nodup) :
    ∃ catalog, (∅ : Catalog role).insertAll checks source = .ok catalog ∧
      catalog.entries = checks.map fun check => ⟨check, source⟩ := by
  let entries : List Entry := checks.map fun check => ⟨check, source⟩
  have keys : (entries.map fun entry => role.key entry.check).Nodup := by
    simpa [entries, Function.comp_def] using distinct
  rw [insertAll_eq]
  rcases addAll_cases role entries with ⟨-, catalog, added, held⟩ | ⟨first, second, clash, -⟩
  · exact ⟨catalog, added, held.trans (firstEntries_of_nodup keys)⟩
  · refine absurd ?_ clash.not_agreeOn
    intro left leftMember right rightMember same
    rw [List.inj_on_of_nodup_map keys leftMember rightMember same]

end Catalog

namespace Check

/-- A text of a results file is read exactly if it is readable. How its reading ends is told by the
text: with the results in their order, or with the file and the least flawed key. A catalog that is
keyed by the names of checks takes in all results of a text. -/
theorem documents_read_in_order (path : Path) (text : String) :
    ((∃ checks, (ofDocument text).mapError (Fault.malformedResults path) = .ok checks) ↔
      Readable text) ∧
    (∀ outcome, (ofDocument text).mapError (Fault.malformedResults path) = outcome ↔
      DocumentEnds path text outcome) ∧
    ∀ checks source, (ofDocument text).mapError (Fault.malformedResults path) = .ok checks →
      ∃ catalog, (∅ : Catalog .cache).insertAll checks source = .ok catalog ∧
        catalog.entries = checks.map fun check => ⟨check, source⟩ := by
  have ends := ofDocument_ends path text
  refine ⟨⟨?_, ?_⟩, fun outcome => ⟨?_, DocumentEnds.eq⟩, ?_⟩
  · intro accepted
    obtain ⟨checks, read⟩ := accepted
    rw [read] at ends
    exact ends.readable
  · intro readable
    obtain ⟨checks, results⟩ := readable.exists_results path
    exact ⟨checks, results.eq⟩
  · intro same
    exact same ▸ ends
  · intro checks source read
    rw [read] at ends
    apply Catalog.insertAll_empty
    cases ends with
    | blank blank => exact List.nodup_nil
    | noObject solid found other => exact List.nodup_nil
    | results object results => exact results.nodup_names

theorem documents_read_in_order_of_repeated_key :
    ∃ checks catalog,
      (ofDocument
          "\x7b\"b\":1,\"a\":\x7b\"success\":false\x7d,\"b\":\x7b\"success\":true\x7d\x7d").mapError
            (Fault.malformedResults ⟨"r.json"⟩) = .ok checks ∧
      checks.map (fun check => (check.name, check.success)) = [("a", false), ("b", true)] ∧
      (∅ : Catalog .cache).insertAll checks ⟨"r.json"⟩ = .ok catalog ∧
      catalog.entries = checks.map fun check => ⟨check, ⟨"r.json"⟩⟩ := by
  have read : (ofDocument
      "\x7b\"b\":1,\"a\":\x7b\"success\":false\x7d,\"b\":\x7b\"success\":true\x7d\x7d").mapError
        (Fault.malformedResults ⟨"r.json"⟩) =
      .ok [⟨"a", none, none, none, false, false, false, .define, false⟩,
        ⟨"b", none, none, none, true, false, false, .define, false⟩] := by
    rfl
  obtain ⟨catalog, inserted, held⟩ := (documents_read_in_order ⟨"r.json"⟩ _).2.2 _ ⟨"r.json"⟩ read
  exact ⟨_, catalog, read, rfl, inserted, held⟩

end Check

end ConfigHeader
