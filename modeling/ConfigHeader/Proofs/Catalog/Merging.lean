import ConfigHeader.Catalog.Findings
import ConfigHeader.Proofs.Actions
import ConfigHeader.Proofs.Catalog.Insertion
import ConfigHeader.Proofs.Check.RoundTrip
import ConfigHeader.Proofs.FileTree.Reading
import ConfigHeader.Proofs.TextOrder

namespace ConfigHeader

namespace Catalog

variable {role : Role} {catalog : Catalog role} {entry first second : Entry}
  {entries earlier others : List Entry} {key : String}

/-- The results of the files that can be read, in the order of the list and of each file. -/
def recordsOf (read : Path → Except Fault (List Check)) (paths : List Path) : List Entry :=
  paths.flatMap fun path => ((read path).toOption.getD []).map fun check => ⟨check, path⟩

def add (catalog : Catalog role) (entry : Entry) : Except Conflict (Catalog role) :=
  let (outcome, after) := (insert entry.check entry.source).run catalog
  outcome.map fun _ => after

def addAll (role : Role) (entries : List Entry) : Except Conflict (Catalog role) :=
  entries.foldlM add ∅

/-- The second entry is the earliest that does not say the same as the first entry with its key. -/
def FirstClash (role : Role) (entries : List Entry) (first second : Entry) : Prop :=
  ∃ before after, entries = before ++ second :: after ∧
    (∀ earlier ∈ before, ∀ held, firstFor role (role.key earlier.check) entries = some held →
      held.check.verdict = earlier.check.verdict) ∧
    firstFor role (role.key second.check) entries = some first ∧
    first.check.verdict ≠ second.check.verdict

theorem firstFor_append_of_found (found : firstFor role key entries = some first) :
    firstFor role key (entries ++ others) = some first := by
  rw [firstFor_append, found, Option.some_or]

theorem FirstClash.not_agreeOn (clash : FirstClash role entries first second) :
    ¬ AgreeOn role Check.verdict entries := by
  obtain ⟨before, after, parts, -, found, differ⟩ := clash
  intro agree
  have member : second ∈ entries := by simp [parts]
  exact differ (agree first (mem_of_firstFor found) second member (key_of_firstFor found))

theorem FirstClash.append (clash : FirstClash role entries first second) (others : List Entry) :
    FirstClash role (entries ++ others) first second := by
  obtain ⟨before, after, parts, agreeing, found, differ⟩ := clash
  refine ⟨before, after ++ others, by simp [parts], ?_, firstFor_append_of_found found, differ⟩
  intro earlier member held shown
  have inside : earlier ∈ entries := by simp [parts, member]
  obtain ⟨there, here⟩ := exists_firstFor role inside
  rw [firstFor_append_of_found here] at shown
  rw [← Option.some.inj shown]
  exact agreeing earlier member there here

theorem FirstClash.unique {first' second' : Entry} (clash : FirstClash role entries first second)
    (clash' : FirstClash role entries first' second') : first = first' ∧ second = second' := by
  obtain ⟨before, after, parts, agreeing, found, differ⟩ := clash
  obtain ⟨before', after', parts', agreeing', found', differ'⟩ := clash'
  rcases List.append_eq_append_iff.mp (parts.symm.trans parts') with
    ⟨between, extended, rest⟩ | ⟨between, extended, rest⟩
  · cases between with
    | nil =>
      obtain ⟨rfl, -⟩ := List.cons.inj rest
      rw [found] at found'
      exact ⟨Option.some.inj found', rfl⟩
    | cons entry between =>
      obtain ⟨rfl, -⟩ := List.cons.inj rest
      exact absurd (agreeing' second (by simp [extended]) first found) differ
  · cases between with
    | nil =>
      obtain ⟨rfl, -⟩ := List.cons.inj rest
      rw [found] at found'
      exact ⟨Option.some.inj found', rfl⟩
    | cons entry between =>
      obtain ⟨rfl, -⟩ := List.cons.inj rest
      exact absurd (agreeing second' (by simp [extended]) first' found') differ'

/-- The first entry that disagrees with entries that agree among themselves is a clash. -/
theorem AgreeOn.firstClash (agree : AgreeOn role Check.verdict earlier)
    (found : firstFor role (role.key second.check) earlier = some first)
    (differ : first.check.verdict ≠ second.check.verdict) :
    FirstClash role (earlier ++ [second]) first second := by
  refine ⟨earlier, [], rfl, ?_, firstFor_append_of_found found, differ⟩
  intro entry member held shown
  obtain ⟨there, here⟩ := exists_firstFor role member
  rw [firstFor_append_of_found here] at shown
  rw [← Option.some.inj shown]
  exact agree there (mem_of_firstFor here) entry member (key_of_firstFor here)

/-- One more entry agrees with the others if it agrees with the first one of its key. -/
theorem AgreeOn.concat {α : Type} {view : Check → α} (agree : AgreeOn role view earlier)
    (same : ∀ first, firstFor role (role.key entry.check) earlier = some first →
      view first.check = view entry.check) : AgreeOn role view (earlier ++ [entry]) := by
  have last : ∀ left ∈ earlier, role.key left.check = role.key entry.check →
      view left.check = view entry.check := by
    intro left member keyed
    obtain ⟨first, found⟩ := exists_firstFor role member
    rw [← same first (keyed ▸ found)]
    exact agree left member first (mem_of_firstFor found) (key_of_firstFor found).symm
  intro left leftMember right rightMember keyed
  rcases List.mem_append.mp leftMember with leftEarlier | leftLast
  · rcases List.mem_append.mp rightMember with rightEarlier | rightLast
    · exact agree left leftEarlier right rightEarlier keyed
    · obtain rfl := List.mem_singleton.mp rightLast
      exact last left leftEarlier keyed
  · obtain rfl := List.mem_singleton.mp leftLast
    rcases List.mem_append.mp rightMember with rightEarlier | rightLast
    · exact (last right rightEarlier keyed.symm).symm
    · obtain rfl := List.mem_singleton.mp rightLast
      rfl

theorem addAll_concat (earlier : List Entry) (entry : Entry) :
    addAll role (earlier ++ [entry]) = (addAll role earlier).bind fun catalog => catalog.add entry := by
  simp only [addAll, List.foldlM_append, List.foldlM_cons, List.foldlM_nil, bind_pure]
  rfl

/-- After entries that agree, one more is taken in or is the first clash. -/
theorem add_cases (agree : AgreeOn role Check.verdict earlier)
    (held : catalog.entries = firstEntries role earlier) (entry : Entry) :
    (AgreeOn role Check.verdict (earlier ++ [entry]) ∧ ∃ next, catalog.add entry = .ok next ∧
      next.entries = firstEntries role (earlier ++ [entry])) ∨
    ∃ first, FirstClash role (earlier ++ [entry]) first entry ∧
      catalog.add entry = .error (.between role first entry) := by
  have looked : catalog.find? (role.key entry.check) =
      firstFor role (role.key entry.check) earlier := by
    rw [find?_eq_firstFor, held, firstFor_firstEntries]
  rw [firstEntries_concat, add]
  have ends := insert_ends catalog entry.check entry.source
  generalize (insert entry.check entry.source).run catalog = outcome at ends ⊢
  cases ends with
  | added absent entries =>
    have new := looked.symm.trans absent
    refine .inl ⟨agree.concat fun first found => ?_, _, rfl, ?_⟩
    · rw [new] at found
      cases found
    · rw [entries, held, new]
      rfl
  | passed found same =>
    have known := looked.symm.trans found
    refine .inl ⟨agree.concat fun other found => ?_, catalog, rfl, ?_⟩
    · rw [known] at found
      rw [← Option.some.inj found]
      exact same
    · rw [held, known]
      rfl
  | refused found differ =>
    exact .inr ⟨_, agree.firstClash (looked.symm.trans found) differ, rfl⟩

/-- All entries are taken in, or the first clash among them is the conflict. -/
theorem addAll_cases (role : Role) (entries : List Entry) :
    (AgreeOn role Check.verdict entries ∧ ∃ catalog, addAll role entries = .ok catalog ∧
      catalog.entries = firstEntries role entries) ∨
    ∃ first second, FirstClash role entries first second ∧
      addAll role entries = .error (.between role first second) := by
  induction entries using List.reverseRecOn with
  | nil => exact .inl ⟨by simp [AgreeOn], ∅, rfl, rfl⟩
  | append_singleton earlier entry ih =>
    rw [addAll_concat]
    rcases ih with ⟨agree, catalog, added, held⟩ | ⟨first, second, clash, refused⟩
    · rw [added, Except.bind]
      rcases add_cases agree held entry with taken | ⟨first, clash, refused⟩
      · exact .inl taken
      · exact .inr ⟨first, entry, clash, refused⟩
    · refine .inr ⟨first, second, clash.append [entry], ?_⟩
      rw [refused]
      rfl

theorem insertAll_eq (catalog : Catalog role) (checks : List Check) (source : Path) :
    catalog.insertAll checks source =
      (checks.map fun check => (⟨check, source⟩ : Entry)).foldlM add catalog := by
  induction checks generalizing catalog with
  | nil => rfl
  | cons check checks ih =>
    rw [List.map_cons, List.foldlM_cons, insertAll, add, List.forM]
    dsimp only
    rcases ran : (insert check source).run catalog with ⟨conflict | added, after⟩
    · rw [run_bind_of_error (run_bind_of_error ran _)]
      rfl
    · rw [run_bind_of_ok (run_bind_of_ok ran _)]
      exact ih after

section Merge

variable {read : Path → Except Fault (List Check)} {paths permuted : List Path}

private theorem mapError_bind {α β ε ε' : Type} (change : ε → ε') (first : Except ε α)
    (next : α → Except ε β) :
    (first.mapError change).bind (fun result => (next result).mapError change) =
      (first.bind next).mapError change := by
  cases first <;> rfl

/-- If every file can be read, their results are added one after another. -/
theorem merge_eq (loaded : ∀ path ∈ paths, ∃ checks, read path = .ok checks) :
    merge read role paths =
      (addAll role (recordsOf read paths)).mapError Fault.conflictingResults := by
  rw [merge, addAll]
  generalize (∅ : Catalog role) = catalog
  induction paths generalizing catalog with
  | nil => rfl
  | cons path paths ih =>
    obtain ⟨checks, found⟩ := loaded path (by simp)
    have records : recordsOf read (path :: paths) =
        (checks.map fun check => ⟨check, path⟩) ++ recordsOf read paths := by
      rw [recordsOf, List.flatMap_cons, found]
      rfl
    have later := ih fun path member => loaded path (List.mem_cons_of_mem _ member)
    rw [List.foldlM_cons, records, List.foldlM_append, found]
    exact (congrArg _ (funext later)).trans
      (insertAll_eq catalog checks path ▸ mapError_bind _ _ _)

theorem merge_cases (role : Role) (loaded : ∀ path ∈ paths, ∃ checks, read path = .ok checks) :
    (AgreeOn role Check.verdict (recordsOf read paths) ∧
      ∃ catalog, merge read role paths = .ok catalog ∧
        catalog.entries = firstEntries role (recordsOf read paths)) ∨
    ∃ first second, FirstClash role (recordsOf read paths) first second ∧
      merge read role paths = .error (.conflictingResults (.between role first second)) := by
  rw [merge_eq loaded]
  rcases addAll_cases role (recordsOf read paths) with
    ⟨agree, catalog, added, held⟩ | ⟨first, second, clash, refused⟩
  · exact .inl ⟨agree, catalog, by rw [added, Except.mapError], held⟩
  · exact .inr ⟨first, second, clash, by rw [refused, Except.mapError]⟩

/-- The files are merged exactly if any two results with one key agree. -/
theorem exists_merge_iff (loaded : ∀ path ∈ paths, ∃ checks, read path = .ok checks) :
    (∃ catalog, merge read role paths = .ok catalog) ↔
      AgreeOn role Check.verdict (recordsOf read paths) := by
  rcases merge_cases role loaded with ⟨agree, catalog, merged, -⟩ | ⟨first, second, clash, refused⟩
  · exact iff_of_true ⟨catalog, merged⟩ agree
  · refine iff_of_false ?_ clash.not_agreeOn
    intro exists_merge
    obtain ⟨catalog, merged⟩ := exists_merge
    rw [refused] at merged
    cases merged

theorem entries_of_merge (loaded : ∀ path ∈ paths, ∃ checks, read path = .ok checks)
    (merged : merge read role paths = .ok catalog) :
    catalog.entries = firstEntries role (recordsOf read paths) := by
  rcases merge_cases role loaded with ⟨-, other, accepted, held⟩ | ⟨first, second, -, refused⟩
  · rw [merged, Except.ok.injEq] at accepted
    rw [accepted, held]
  · rw [merged] at refused
    cases refused

/-- What is found under a key after a merge is the first result with it. -/
theorem find?_of_merge (loaded : ∀ path ∈ paths, ∃ checks, read path = .ok checks)
    (merged : merge read role paths = .ok catalog) :
    catalog.find? key = firstFor role key (recordsOf read paths) := by
  rw [find?_eq_firstFor, entries_of_merge loaded merged, firstFor_firstEntries]

theorem merge_eq_error_iff (loaded : ∀ path ∈ paths, ∃ checks, read path = .ok checks)
    {fault : Fault} : merge read role paths = .error fault ↔
      ∃ first second, FirstClash role (recordsOf read paths) first second ∧
        fault = .conflictingResults (.between role first second) := by
  rcases merge_cases role loaded with ⟨agree, catalog, merged, -⟩ | ⟨first, second, clash, refused⟩
  · refine iff_of_false (by simp [merged]) ?_
    intro clashing
    obtain ⟨first, second, clash, -⟩ := clashing
    exact clash.not_agreeOn agree
  · rw [refused, Except.error.injEq]
    constructor
    · intro same
      exact ⟨first, second, clash, same.symm⟩
    · intro clashing
      obtain ⟨other, later, another, rfl⟩ := clashing
      obtain ⟨rfl, rfl⟩ := clash.unique another
      rfl

theorem recordsOf_perm (read : Path → Except Fault (List Check)) (perm : paths.Perm permuted) :
    (recordsOf read paths).Perm (recordsOf read permuted) :=
  perm.flatMap_right _

/-- In another order the files are merged if they are in this one, and each key shows the same. -/
theorem merge_perm (loaded : ∀ path ∈ paths, ∃ checks, read path = .ok checks)
    (perm : paths.Perm permuted) :
    ((∃ catalog, merge read role permuted = .ok catalog) ↔
      ∃ catalog, merge read role paths = .ok catalog) ∧
    ∀ catalog other, merge read role paths = .ok catalog → merge read role permuted = .ok other →
      ∀ key, (catalog.find? key).map (fun entry => entry.check.verdict) =
        (other.find? key).map fun entry => entry.check.verdict := by
  have records := recordsOf_perm read perm
  have permutedLoaded : ∀ path ∈ permuted, ∃ checks, read path = .ok checks :=
    fun path member => loaded path (perm.mem_iff.mpr member)
  constructor
  · rw [exists_merge_iff loaded, exists_merge_iff permutedLoaded]
    exact ⟨fun agree => agree.of_subset records.subset,
      fun agree => agree.of_subset records.symm.subset⟩
  · intro catalog other merged mergedOther key
    have agree := (exists_merge_iff loaded).mp ⟨catalog, merged⟩
    rw [find?_of_merge loaded merged, find?_of_merge permutedLoaded mergedOther]
    exact agree.firstFor_perm records

end Merge

theorem sorted_names_of_ofDocument {text : String} {checks : List Check}
    (read : Check.ofDocument text = .ok checks) :
    checks.Pairwise fun left right => textBytes left.name < textBytes right.name := by
  simp only [textBytes_lt_iff]
  exact Check.sorted_names read

theorem sorted_names_of_inputChecks {tree : FileTree} {path : Path} {checks : List Check}
    (found : tree.inputChecks path = .ok checks) :
    checks.Pairwise fun left right => textBytes left.name < textBytes right.name := by
  have ends := FileTree.inputChecks_ends tree path
  rw [found] at ends
  cases ends with
  | results held read => exact sorted_names_of_ofDocument read

/-- Files that can be read are merged exactly if any two of their results with one key agree. Then
the first result of each key is held, in the order of the files and of the names in each; otherwise
the fault tells of the earliest result that disagrees with the first one of its key. In another
order of the files it is the same, up to which of the agreeing results are held. -/
theorem merge_keeps_first_results (tree : FileTree) (role : Role) (paths : List Path)
    (loaded : ∀ path ∈ paths, ∃ checks, tree.inputChecks path = .ok checks) :
    ((∃ catalog, merge tree.inputChecks role paths = .ok catalog) ↔
      AgreeOn role Check.verdict (recordsOf tree.inputChecks paths)) ∧
    (∀ catalog, merge tree.inputChecks role paths = .ok catalog →
      catalog.entries = firstEntries role (recordsOf tree.inputChecks paths) ∧
        catalog.keys.Nodup ∧
        (∀ key, key ∈ catalog.keys ↔
          ∃ record ∈ recordsOf tree.inputChecks paths, role.key record.check = key) ∧
        ∀ key, catalog.find? key = firstFor role key (recordsOf tree.inputChecks paths)) ∧
    (∀ fault, merge tree.inputChecks role paths = .error fault ↔
      ∃ first second, FirstClash role (recordsOf tree.inputChecks paths) first second ∧
        fault = .conflictingResults (.between role first second)) ∧
    (∀ path ∈ paths, ∀ checks, tree.inputChecks path = .ok checks →
      checks.Pairwise fun left right => textBytes left.name < textBytes right.name) ∧
    ∀ permuted, paths.Perm permuted →
      ((∃ catalog, merge tree.inputChecks role permuted = .ok catalog) ↔
        ∃ catalog, merge tree.inputChecks role paths = .ok catalog) ∧
      ∀ catalog other, merge tree.inputChecks role paths = .ok catalog →
        merge tree.inputChecks role permuted = .ok other → ∀ key,
          (catalog.find? key).map (fun entry => entry.check.verdict) =
            (other.find? key).map fun entry => entry.check.verdict := by
  refine ⟨exists_merge_iff loaded, fun catalog merged => ⟨entries_of_merge loaded merged,
    catalog.nodup_keys, fun key => ?_, fun key => find?_of_merge loaded merged⟩,
    fun fault => merge_eq_error_iff loaded,
    fun path _ checks found => sorted_names_of_inputChecks found,
    fun permuted perm => merge_perm loaded perm⟩
  rw [keys_eq_map, entries_of_merge loaded merged, mem_keys_firstEntries, List.mem_map]

/-- Two results files that disagree about `A`, under names of their own. -/
def disagreeingFiles : FileTree where
  workingDirectory := []
  nodes :=
    [(["a.json"], .file (textBytes "\x7b\"A\":\x7b\"success\":true,\"value\":1\x7d\x7d")),
      (["b.json"], .file (textBytes
        "\x7b\"B\":\x7b\"success\":true,\"define\":\"A\",\"value\":\"1\"\x7d\x7d"))]

theorem merge_of_disagreeing_files :
    (∀ path ∈ [⟨"a.json"⟩, ⟨"b.json"⟩], ∃ checks, disagreeingFiles.inputChecks path = .ok checks) ∧
    merge disagreeingFiles.inputChecks .define [⟨"a.json"⟩, ⟨"b.json"⟩] =
      .error (.conflictingResults
        { role := .define, key := "A"
          first := ⟨true, some "1"⟩, firstSource := ⟨"a.json"⟩
          second := ⟨true, some "\"1\""⟩, secondSource := ⟨"b.json"⟩ }) := by
  have first : disagreeingFiles.inputChecks ⟨"a.json"⟩ =
      .ok [⟨"A", none, none, some "1", true, false, false, .define, false⟩] := rfl
  have second : disagreeingFiles.inputChecks ⟨"b.json"⟩ =
      .ok [⟨"B", some "A", none, some "\"1\"", true, true, false, .define, false⟩] := rfl
  have loaded : ∀ path ∈ [⟨"a.json"⟩, ⟨"b.json"⟩],
      ∃ checks, disagreeingFiles.inputChecks path = .ok checks := by
    simp [first, second]
  have records : recordsOf disagreeingFiles.inputChecks [⟨"a.json"⟩, ⟨"b.json"⟩] =
      [⟨⟨"A", none, none, some "1", true, false, false, .define, false⟩, ⟨"a.json"⟩⟩,
        ⟨⟨"B", some "A", none, some "\"1\"", true, true, false, .define, false⟩, ⟨"b.json"⟩⟩] := by
    simp [recordsOf, first, second, Except.toOption]
  refine ⟨loaded, ((merge_keeps_first_results disagreeingFiles .define _ loaded).2.2.1 _).mpr ?_⟩
  rw [records]
  exact ⟨_, _, ⟨[_], [], rfl, by simp [firstFor], rfl, by decide⟩, rfl⟩

end Catalog

end ConfigHeader
