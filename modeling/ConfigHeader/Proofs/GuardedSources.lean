import ConfigHeader.Guard
import ConfigHeader.Proofs.Catalog.Merging
import ConfigHeader.Proofs.FileTree.Drafts
import ConfigHeader.Proofs.FileTree.Reading
import ConfigHeader.Proofs.KeyMapLookup
import ConfigHeader.Proofs.Lines

namespace ConfigHeader.Guard

open FileTree

variable {paths : List Path} {documents : List (List Check)} {name : String} {check : Check}
  {tree before middle after : FileTree} {source : GuardedSource} {sources : List GuardedSource}

section Results

/-- The results files hold documents of these results, one list for each file. -/
def Loads (tree : FileTree) (paths : List Path) (documents : List (List Check)) : Prop :=
  List.Forall₂ (fun path checks => ∃ text, tree.contentOf path = .ok (textBytes text) ∧
    Check.ofDocument text = .ok checks) paths documents

/-- The result is that of its name in the last document which holds one of that name. -/
def LastResult (documents : List (List Check)) (name : String) (check : Check) : Prop :=
  ∃ earlier checks later, documents = earlier ++ checks :: later ∧
    (check ∈ checks ∧ check.name = name) ∧ ∀ others ∈ later, ∀ other ∈ others, other.name ≠ name

/-- The last result of the name is a success, and its value is neither empty nor zero. -/
def Enabled (documents : List (List Check)) (name : String) : Prop :=
  ∃ check, LastResult documents name check ∧ check.success = true ∧
    Check.substText check.storedValue ≠ "" ∧ Check.substText check.storedValue ≠ "0"

theorem LastResult.mem (last : LastResult documents name check) :
    ∃ checks ∈ documents, check ∈ checks ∧ check.name = name := by
  obtain ⟨earlier, checks, later, rfl, held, -⟩ := last
  exact ⟨checks, by simp, held⟩

/-- The first document counts only where no later one holds the name. -/
theorem lastResult_cons {checks : List Check} :
    LastResult (checks :: documents) name check ↔
      LastResult documents name check ∨
        (check ∈ checks ∧ check.name = name) ∧
          ∀ others ∈ documents, ∀ other ∈ others, other.name ≠ name := by
  constructor
  · rintro ⟨earlier, found, later, parts, held, absent⟩
    cases earlier with
    | nil =>
      obtain ⟨rfl, rfl⟩ := List.cons.inj parts
      exact .inr ⟨held, absent⟩
    | cons first earlier =>
      obtain ⟨-, rfl⟩ := List.cons.inj parts
      exact .inl ⟨earlier, found, later, rfl, held, absent⟩
  · rintro (⟨earlier, found, later, rfl, held, absent⟩ | ⟨held, absent⟩)
    · exact ⟨checks :: earlier, found, later, rfl, held, absent⟩
    · exact ⟨[], checks, documents, rfl, held, absent⟩

/-- The results of some documents under their names, of which the last one counts. -/
def gathered (documents : List (List Check)) : KeyMap Check :=
  .ofList (documents.flatten.map fun check => (check.name, check))

theorem find?_gathered_isSome_iff :
    ((gathered documents).find? name).isSome = true ↔
      ∃ checks ∈ documents, ∃ check ∈ checks, check.name = name := by
  rw [gathered, KeyMap.find?_ofList_isSome_iff]
  simp [List.mem_flatten]

/-- Where no document repeats a name, the last result of a name is the one that is found. -/
theorem find?_gathered_eq_some_iff
    (distinct : ∀ checks ∈ documents, (checks.map Check.name).Nodup) :
    (gathered documents).find? name = some check ↔ LastResult documents name check := by
  induction documents with
  | nil =>
    refine iff_of_false (by simp [gathered, KeyMap.find?_ofList]) fun last => ?_
    obtain ⟨checks, member, -⟩ := last.mem
    cases member
  | cons checks documents ih =>
    have later := ih fun others member => distinct others (List.mem_cons_of_mem _ member)
    have fresh : ((checks.map fun check => (check.name, check)).map Prod.fst).Nodup := by
      rw [List.map_map]
      exact distinct checks List.mem_cons_self
    have found : (gathered (checks :: documents)).find? name =
        ((gathered documents).find? name).or
          ((KeyMap.ofList (checks.map fun check => (check.name, check))).find? name) := by
      rw [gathered, List.flatten_cons, List.map_append, KeyMap.find?_ofList_append, gathered]
    rw [found, lastResult_cons, ← later]
    cases held : (gathered documents).find? name with
    | some other =>
      have present := find?_gathered_isSome_iff.mp (Option.isSome_iff_exists.mpr ⟨other, held⟩)
      obtain ⟨others, member, repeated, inside, named⟩ := present
      rw [Option.some_or, or_iff_left fun first => first.2 others member repeated inside named]
    | none =>
      have absent : ∀ others ∈ documents, ∀ other ∈ others, other.name ≠ name := by
        intro others member other inside named
        have present := find?_gathered_isSome_iff.mpr ⟨others, member, other, inside, named⟩
        rw [held] at present
        cases present
      rw [Option.none_or, KeyMap.find?_ofList_eq_some_iff fresh, List.mem_map]
      simp only [reduceCtorEq, false_or, and_iff_left absent, Prod.mk.injEq]
      constructor
      · rintro ⟨other, inside, named, rfl⟩
        exact ⟨inside, named⟩
      · rintro ⟨inside, named⟩
        exact ⟨check, inside, named, rfl⟩

theorem Loads.nodup_names (loads : Loads tree paths documents) :
    ∀ checks ∈ documents, (checks.map Check.name).Nodup := by
  induction loads with
  | nil => simp
  | cons found _ ih =>
    intro checks member
    obtain ⟨text, -, read⟩ := found
    rcases List.mem_cons.mp member with rfl | later
    · exact nodup_of_ordered (List.pairwise_map.mpr (Catalog.sorted_names_of_ofDocument read))
    · exact ih checks later

/-- A source is enabled by the results that were read if the last result of its name enables it. -/
theorem isEnabled_gathered_iff (loads : Loads tree paths documents) :
    isEnabled (gathered documents) name = true ↔ Enabled documents name := by
  have found (check : Check) := @find?_gathered_eq_some_iff _ name check loads.nodup_names
  simp only [Enabled, ← found, isEnabled, Option.any_eq_true, Check.enables, Bool.and_eq_true,
    bne_iff_ne, and_assoc]

theorem gathered_concat (documents : List (List Check)) (checks : List Check) :
    gathered (documents ++ [checks]) =
      checks.foldl (fun results check => results.insert check.name check) (gathered documents) := by
  simp only [gathered, KeyMap.ofList, List.flatten_append, List.flatten_singleton, List.map_append,
    List.foldl_append, List.foldl_map]

theorem readResults_concat (paths : List Path) (path : Path) (tree : FileTree) :
    readResults (paths ++ [path]) tree = (readResults paths tree).bind fun results =>
      (tree.inputChecks path).bind fun checks =>
        .ok (checks.foldl (fun results check => results.insert check.name check) results) := by
  rw [readResults, List.foldlM_append, ← readResults]
  cases readResults paths tree with
  | error fault => rfl
  | ok results =>
    cases found : tree.inputChecks path with
    | error fault => simp [found, bind, Except.bind]
    | ok checks => simp [found, bind, Except.bind, pure, Except.pure]

/-- How reading the results files ends: all are read, or the first that cannot be read is told. -/
theorem readResults_cases (paths : List Path) (tree : FileTree) :
    (∃ documents, Loads tree paths documents ∧
      readResults paths tree = .ok (gathered documents)) ∨
    ∃ earlier path later fault, paths = earlier ++ path :: later ∧
      (∃ documents, Loads tree earlier documents) ∧ ResultsEnd tree path (.error fault) ∧
        readResults paths tree = .error fault := by
  induction paths using List.reverseRecOn with
  | nil => exact .inl ⟨[], .nil, rfl⟩
  | append_singleton paths path ih =>
    rw [readResults_concat]
    rcases ih with
      ⟨documents, loads, read⟩ | ⟨earlier, failed, later, fault, parts, loads, ends, read⟩
    · rw [read]
      have ends := inputChecks_ends tree path
      generalize tree.inputChecks path = last at ends ⊢
      rcases last with fault | checks
      · exact .inr ⟨paths, path, [], fault, rfl, ⟨documents, loads⟩, ends, rfl⟩
      · cases ends with
        | results held document =>
          refine .inl ⟨documents ++ [checks], List.rel_append loads ?_, ?_⟩
          · exact .cons ⟨_, held, document⟩ .nil
          · rw [gathered_concat]
            rfl
    · refine .inr ⟨earlier, failed, later ++ [path], fault, by simp [parts], loads, ends, ?_⟩
      rw [read]
      rfl

end Results

section Sources

/-- The bytes of a source as they are, or, where it is not enabled, between lines that disable it. -/
inductive Copied (enabled : Prop) (content : Bytes) : Bytes → Prop where
  | whole (holds : enabled) : Copied enabled content content
  | between (fails : ¬ enabled) (closed : content.Closed) :
    Copied enabled content (textBytes "#if 0\n" ++ content ++ textBytes "#endif\n")
  | betweenLines (fails : ¬ enabled) (unclosed : ¬ content.Closed) :
    Copied enabled content (textBytes "#if 0\n" ++ content ++ textBytes "\n#endif\n")

theorem copied_guarded (content : Bytes) (enabled : Bool) :
    Copied (enabled = true) content (guarded content enabled) := by
  cases enabled with
  | true => exact .whole rfl
  | false =>
    by_cases closed : content = [] ∨ content.endsWithNewline = true
    · have same : guarded content false =
          textBytes "#if 0\n" ++ content ++ textBytes "#endif\n" := by
        rw [guarded, if_neg (by simp), if_pos closed, List.append_nil]
      rw [same]
      exact .between (by simp) closed
    · have same : guarded content false =
          textBytes "#if 0\n" ++ content ++ textBytes "\n#endif\n" := by
        have ending : textBytes "\n#endif\n" = Byte.newline :: textBytes "#endif\n" := by decide
        rw [guarded, if_neg (by simp), if_neg closed, ending, List.append_assoc _ [_]]
        rfl
      rw [same]
      exact .betweenLines (by simp) closed

/-- How writing one source ends. -/
inductive SourceEnds (documents : List (List Check)) (source : GuardedSource) (before : FileTree) :
    Except Fault Unit × FileTree → Prop where
  /-- The output holds the copy in full, and no other file is changed. -/
  | written {content text : Bytes} {after : FileTree}
    (held : before.contentOf source.input = .ok content)
    (copied : Copied (Enabled documents source.define) content text)
    (written : Written source.output text before after) :
    SourceEnds documents source before (.ok (), after)
  /-- The source cannot be read, and nothing is changed. -/
  | unreadable {fault : Fault} (failed : ReadEnds before source.input (.error fault)) :
    SourceEnds documents source before (.error fault, before)
  /-- The copy cannot be written, for want of a place or because the disk refuses a step of it.
  Directories may be new, but no file is changed, gone or new. -/
  | unwritable {content text : Bytes} {fault : FileFault} {after : FileTree}
    (held : before.contentOf source.input = .ok content)
    (copied : Copied (Enabled documents source.define) content text)
    (failed : (writeFile source.output text).run before = (.error fault, after))
    (kept : FilesKept before after)
    (cause : before.OffersPlace source.output → before.Refuses fault) :
    SourceEnds documents source before (.error (.outputUnwritable source.output fault), after)

theorem SourceEnds.keepsFiles {fault : Fault}
    (ends : SourceEnds documents source before (.error fault, after)) :
    FilesKept before after := by
  cases ends with
  | unreadable failed => exact .refl before
  | unwritable held copied failed kept cause => exact kept

theorem writeSource_ends {results : KeyMap Check}
    (same : isEnabled results source.define = true ↔ Enabled documents source.define) :
    SourceEnds documents source tree ((writeSource results source).run tree) := by
  rw [writeSource]
  have read := inputBytes_ends tree source.input
  rcases found : tree.inputBytes source.input with fault | content
  · rw [run_bind_of_error (by rw [run_look, found])]
    rw [found] at read
    exact .unreadable read
  · rw [run_bind_of_ok (by rw [run_look, found])]
    rw [found] at read
    cases read with
    | content held =>
      have copied := copied_guarded content (isEnabled results source.define)
      rw [same] at copied
      generalize guarded content (isEnabled results source.define) = text at copied
      have ends := writeFile_ends source.output text tree
      rw [commit, run_adapt]
      generalize ran : (writeFile source.output text).run tree = outcome at ends
      cases ends with
      | written written => exact .written held copied written
      | failed kept cause => exact .unwritable held copied ran kept cause

/-- The sources are written one after another, each read from the tree that the last one left. -/
inductive WrittenInTurn (documents : List (List Check)) :
    List GuardedSource → FileTree → FileTree → Prop where
  | none (tree : FileTree) : WrittenInTurn documents [] tree tree
  | next {source : GuardedSource} {sources : List GuardedSource} {before middle after : FileTree}
    (first : SourceEnds documents source before (.ok (), middle))
    (later : WrittenInTurn documents sources middle after) :
    WrittenInTurn documents (source :: sources) before after

/-- How writing some sources ends. -/
inductive SourcesEnd (documents : List (List Check)) (sources : List GuardedSource)
    (before : FileTree) : Except Fault Unit × FileTree → Prop where
  | written {after : FileTree} (turns : WrittenInTurn documents sources before after) :
    SourcesEnd documents sources before (.ok (), after)
  /-- All sources before one are written, and the files are as they left them. -/
  | stopped {done rest : List GuardedSource} {source : GuardedSource} {fault : Fault}
    {middle after : FileTree} (parts : sources = done ++ source :: rest)
    (turns : WrittenInTurn documents done before middle)
    (failed : SourceEnds documents source middle (.error fault, after))
    (kept : FilesKept middle after) :
    SourcesEnd documents sources before (.error fault, after)

theorem forM_writeSource_ends {results : KeyMap Check}
    (same : ∀ name, isEnabled results name = true ↔ Enabled documents name)
    (sources : List GuardedSource) (tree : FileTree) :
    SourcesEnd documents sources tree ((sources.forM (writeSource results)).run tree) := by
  induction sources generalizing tree with
  | nil => exact .written (.none tree)
  | cons source sources ih =>
    have ends : SourceEnds documents source tree ((writeSource results source).run tree) :=
      writeSource_ends (same source.define)
    rw [List.forM]
    rcases ran : (writeSource results source).run tree with ⟨fault | done, middle⟩
    · rw [run_bind_of_error ran]
      rw [ran] at ends
      exact .stopped (List.nil_append _).symm (.none tree) ends ends.keepsFiles
    · rw [run_bind_of_ok ran]
      rw [ran] at ends
      have rest := ih middle
      generalize (sources.forM (writeSource results)).run middle = outcome at rest
      cases rest with
      | written turns => exact .written (.next ends turns)
      | stopped parts turns failed kept =>
        exact .stopped (by rw [parts]; rfl) (.next ends turns) failed kept

/-- How a run over guarded sources ends. -/
inductive RunEnds (paths : List Path) (sources : List GuardedSource) (before : FileTree) :
    Except Fault Unit × FileTree → Prop where
  | noResults (none : paths = []) :
    RunEnds paths sources before (.error (.invalidArguments .noResults), before)
  /-- The first results file that cannot be read is told, and nothing is changed. -/
  | unreadable {earlier later : List Path} {path : Path} {fault : Fault}
    (parts : paths = earlier ++ path :: later)
    (loaded : ∃ documents, Loads before earlier documents)
    (failed : ResultsEnd before path (.error fault)) :
    RunEnds paths sources before (.error fault, before)
  | ran {documents : List (List Check)} {outcome : Except Fault Unit × FileTree}
    (some : paths ≠ []) (loaded : Loads before paths documents)
    (ends : SourcesEnd documents sources before outcome) :
    RunEnds paths sources before outcome

/-- A run over guarded sources writes them one after another, each from the tree that the last one
left, or stops at the first that fails, with every file as the sources before it left it. Without
results, or if some cannot be read, it writes nothing. -/
theorem write_in_turn (paths : List Path) (sources : List GuardedSource) (tree : FileTree) :
    RunEnds paths sources tree ((write paths sources).run tree) := by
  rw [write]
  cases paths with
  | nil =>
    rw [if_pos List.isEmpty_nil, run_bind_of_error (run_throw _ tree)]
    exact .noResults rfl
  | cons path paths =>
    rw [if_neg (by simp)]
    rcases readResults_cases (path :: paths) tree with
      ⟨documents, loads, read⟩ | ⟨earlier, failed, later, fault, parts, loads, ends, read⟩
    · rw [run_bind_of_ok (by rw [run_look, read])]
      exact .ran (by simp) loads (forM_writeSource_ends (fun _ => isEnabled_gathered_iff loads) _ _)
    · rw [run_bind_of_error (by rw [run_look, read])]
      exact .unreadable parts loads ends

-- the second source is the output of the first, and the third one is missing; where the disk refuses
-- to move the draft of the second, its output is still the first one's
example :
    let left (answers : List (Option Refusal)) :=
      ((write [⟨"r.json"⟩]
          [⟨⟨"a.c"⟩, "A", ⟨"b.c"⟩⟩, ⟨⟨"b.c"⟩, "A", ⟨"b.c"⟩⟩, ⟨⟨"c.c"⟩, "A", ⟨"d.c"⟩⟩]).run
        { workingDirectory := []
          nodes := [(["a.c"], .file (textBytes "x")), (["r.json"], .file [])]
          answers }).2.nodes
    left [] =
      [(["b.c"], .file (textBytes "#if 0\n#if 0\nx\n#endif\n#endif\n")),
        (["a.c"], .file (textBytes "x")), (["r.json"], .file [])] ∧
    left (List.replicate 7 none ++ [some { fault := .other "Read-only file system" }]) =
      [(["b.c"], .file (textBytes "#if 0\nx\n#endif\n")),
        (["a.c"], .file (textBytes "x")), (["r.json"], .file [])] := by decide +kernel

end Sources

end ConfigHeader.Guard
