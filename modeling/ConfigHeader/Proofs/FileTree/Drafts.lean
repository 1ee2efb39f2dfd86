import ConfigHeader.Proofs.FileTree.Changes

/-! Files written by way of drafts. Until the draft is moved nothing but the draft is new, whichever
step the disk refuses; so a file is written in full, or no file is changed. -/
namespace ConfigHeader.FileTree

variable {before middle after tree : FileTree} {location draft : Location} {path : Path}
  {content held : Bytes} {fault : FileFault}

/-- A draft holds the content, at a location where nothing was, and all else is as it was. -/
structure Drafted (draft : Location) (content : Bytes) (before after : FileTree) : Prop where
  workingDirectory : after.workingDirectory = before.workingDirectory
  free : before.node? draft = none
  node : ∀ location, after.node? location =
    if location = draft then some (.file content) else before.node? location
  answers : after.answers <:+ before.answers

namespace Drafted

theorem inner (drafted : Drafted draft content before after) : draft ≠ [] :=
  ne_root_of_free drafted.free

theorem node_of_ne (drafted : Drafted draft content before after) (apart : location ≠ draft) :
    after.node? location = before.node? location := by
  rw [drafted.node, if_neg apart]

theorem ne_of_directory (drafted : Drafted draft content before after)
    (there : before.node? location = some .directory) : location ≠ draft := by
  rintro rfl
  rw [drafted.free] at there
  cases there

theorem directories (drafted : Drafted draft content before after) :
    DirectoriesKept before after where
  workingDirectory := drafted.workingDirectory
  directory location there := by
    rw [drafted.node_of_ne (drafted.ne_of_directory there), there]

theorem refuses (drafted : Drafted draft content before after) (refuses : after.Refuses fault) :
    before.Refuses fault := by
  obtain ⟨refusal, member, rfl⟩ := refuses
  exact ⟨refusal, drafted.answers.mem member, rfl⟩

theorem new (free : tree.node? draft = none) :
    Drafted draft [] tree (tree.answered.put draft (.file [])) where
  workingDirectory := rfl
  free := free
  node location := by rw [node?_put _ (ne_root_of_free free), node?_answered]
  answers := List.tail_suffix _

theorem answered (drafted : Drafted draft content before after) :
    Drafted draft content before after.answered where
  workingDirectory := drafted.workingDirectory
  free := drafted.free
  node := drafted.node
  answers := (List.tail_suffix _).trans drafted.answers

theorem put (drafted : Drafted draft held before after) (content : Bytes) :
    Drafted draft content before (after.put draft (.file content)) where
  workingDirectory := drafted.workingDirectory
  free := drafted.free
  node location := by
    rw [node?_put _ drafted.inner]
    split
    · rfl
    · rename_i apart
      exact drafted.node_of_ne apart
  answers := drafted.answers

/-- Without the draft all is as it was. -/
theorem node_remove (drafted : Drafted draft content before after) (location : Location) :
    (after.remove draft).node? location = before.node? location := by
  rw [node?_remove drafted.inner]
  split
  · rename_i same
    rw [same, drafted.free]
  · rename_i apart
    exact drafted.node_of_ne apart

theorem removed (drafted : Drafted draft content before after) :
    FilesKept before (after.remove draft) where
  workingDirectory := drafted.workingDirectory
  directory location there := (drafted.node_remove location).trans there
  file location bytes := by rw [drafted.node_remove]

/-- A draft beside a file does not take its place away. -/
theorem fileLocation (drafted : Drafted draft content before after)
    (place : before.fileLocation path = .ok location) :
    after.fileLocation path = .ok location := by
  obtain ⟨located, free, named⟩ := fileLocation_eq_ok_iff.mp place
  refine fileLocation_eq_ok_iff.mpr ⟨drafted.directories.locate located, ?_, named⟩
  rw [drafted.node]
  split
  · simp
  · exact free

/-- A draft that is moved is seen at its new location and nowhere else. -/
theorem node_move (drafted : Drafted draft content before after) (inner : location ≠ [])
    (other : Location) : (after.move draft location).node? other =
      if other = location then some (.file content) else before.node? other := by
  rw [move, drafted.node, if_pos rfl]
  dsimp only
  rw [node?_put _ inner, drafted.node_remove]

/-- A complete draft is moved to where the path of the file leads. -/
theorem written (drafted : Drafted draft content before after)
    (place : after.fileLocation path = .ok location) :
    Written path content before (after.move draft location) := by
  obtain ⟨located, free, -⟩ := fileLocation_eq_ok_iff.mp place
  have inner : location ≠ [] := by
    rintro rfl
    exact free (node?_root after)
  have node := drafted.node_move inner
  have directory (other : Location) (there : before.node? other = some .directory) :
      (after.move draft location).node? other = some .directory := by
    have apart : other ≠ location := by
      rintro rfl
      exact free (drafted.directories.directory other there)
    rw [node, if_neg apart, there]
  have directories : DirectoriesKept after (after.move draft location) := by
    refine ⟨workingDirectory_move after draft location, fun other there => directory other ?_⟩
    rw [drafted.node] at there
    split at there
    · cases there
    · exact there
  have still := directories.locate located
  refine ⟨⟨?_, directory⟩, ?_, location, still, fun other apart bytes => ?_⟩
  · exact directories.workingDirectory.trans drafted.workingDirectory
  · exact contentOf_of_file still (by rw [node, if_pos rfl])
  · rw [node, if_neg apart]

end Drafted

theorem free_of_draftLocation {attempts number : Nat}
    (found : tree.draftLocation path attempts number = .ok draft) : tree.node? draft = none := by
  induction attempts generalizing number with
  | zero => cases found
  | succ attempts ih =>
    rw [draftLocation] at found
    obtain ⟨location, -, found⟩ := exists_of_bind found
    split at found
    · exact ih found
    · rename_i free
      obtain rfl := Except.ok.inj found
      exact free

/-- How an action on a draft ends: with what it is for, or with the draft still there, as far as it
was filled. Where all it needs was offered, it is the disk that refuses. -/
inductive DraftEnds (draft : Location) (offered : Prop) (reached : FileTree → Prop)
    (before : FileTree) : Except FileFault Unit × FileTree → Prop where
  | done {after : FileTree} (reaches : reached after) :
    DraftEnds draft offered reached before (.ok (), after)
  | stopped {content : Bytes} {fault : FileFault} {after : FileTree}
    (drafted : Drafted draft content before after) (cause : offered → before.Refuses fault) :
    DraftEnds draft offered reached before (.error fault, after)

section Steps

variable {offered : Prop} {reached : FileTree → Prop}

theorem DraftEnds.bind {first next : FileAction FileFault Unit}
    {between : FileTree → Prop} (ends : DraftEnds draft offered between before (first.run tree))
    (rest : ∀ middle, between middle → DraftEnds draft offered reached before (next.run middle)) :
    DraftEnds draft offered reached before ((first >>= fun _ => next).run tree) := by
  rcases ran : first.run tree with ⟨fault | done, middle⟩
  · rw [run_bind_of_error ran]
    rw [ran] at ends
    cases ends with
    | stopped drafted cause => exact .stopped drafted cause
  · rw [run_bind_of_ok ran]
    rw [ran] at ends
    cases ends with
    | done reaches => exact rest middle reaches

theorem fillDraft_ends (drafted : Drafted draft held before tree) (content : Bytes) :
    DraftEnds draft offered (Drafted draft content before) before
      ((fillDraft draft content).run tree) := by
  rw [fillDraft, run_bind_of_ok (run_nextAnswer tree)]
  cases answer : tree.answers.head?.join with
  | none => exact .done (drafted.answered.put content)
  | some refusal =>
    exact .stopped (drafted.answered.put (content.take refusal.taken))
      fun _ => drafted.refuses (refuses_of_head? answer)

theorem flushDraft_ends (drafted : Drafted draft content before tree) :
    DraftEnds draft offered (Drafted draft content before) before (flushDraft.run tree) := by
  rw [flushDraft]
  rcases change_cases id tree with done | ⟨fault, refuses, refused⟩
  · rw [done]
    exact .done drafted.answered
  · rw [refused]
    exact .stopped drafted.answered fun _ => drafted.refuses refuses

theorem moveDraft_ends (drafted : Drafted draft content before tree) :
    DraftEnds draft (∃ location, before.fileLocation path = .ok location)
      (Written path content before) before ((moveDraft draft path).run tree) := by
  rw [moveDraft]
  cases place : tree.fileLocation path with
  | error fault =>
    rw [run_bind_of_error (by rw [run_look, place])]
    refine .stopped drafted fun offered => ?_
    obtain ⟨location, found⟩ := offered
    rw [drafted.fileLocation found] at place
    cases place
  | ok location =>
    rw [run_bind_of_ok (by rw [run_look, place])]
    rcases change_cases (·.move draft location) tree with moved | ⟨fault, refuses, refused⟩
    · rw [moved]
      exact .done (drafted.answered.written place)
    · rw [refused]
      exact .stopped drafted.answered fun _ => drafted.refuses refuses

theorem completeDraft_ends (drafted : Drafted draft held before tree) (path : Path)
    (content : Bytes) :
    DraftEnds draft (∃ location, before.fileLocation path = .ok location)
      (Written path content before) before ((completeDraft draft path content).run tree) :=
  (fillDraft_ends drafted content).bind fun _ filled =>
    (flushDraft_ends filled).bind fun _ flushed => moveDraft_ends flushed

end Steps

/-- A file can be written at a path as the tree is: the directory is there, a draft fits in beside
the file, and no directory is in its place. -/
structure OffersPlace (tree : FileTree) (path : Path) : Prop where
  directory : tree.holds path.directory = true
  draft : ∃ location, tree.draftLocation path draftAttempts 0 = .ok location
  place : ∃ location, tree.fileLocation path = .ok location

/-- How a write ends: the path holds the content, or no file is changed. Where there is a place for
the file, a write fails only if the disk refuses one of its steps. -/
inductive WriteEnds (path : Path) (content : Bytes) (before : FileTree) :
    Except FileFault Unit × FileTree → Prop where
  | written {after : FileTree} (written : Written path content before after) :
    WriteEnds path content before (.ok (), after)
  | failed {fault : FileFault} {after : FileTree} (kept : FilesKept before after)
    (cause : before.OffersPlace path → before.Refuses fault) :
    WriteEnds path content before (.error fault, after)

theorem WriteEnds.of_kept {outcome : Except FileFault Unit × FileTree}
    (ends : WriteEnds path content middle outcome) (kept : FilesKept before middle)
    (unmoved : before.OffersPlace path → middle = before) :
    WriteEnds path content before outcome := by
  cases ends with
  | written written => exact .written (kept.written written)
  | failed keptAfter cause =>
    refine .failed (kept.trans keptAfter) fun offered => ?_
    rw [unmoved offered] at cause
    exact cause offered

theorem createDraft_cases (path : Path) (tree : FileTree) :
    (∃ draft after, (createDraft path).run tree = (.ok draft, after) ∧
      Drafted draft [] tree after) ∨
    ∃ fault after, (createDraft path).run tree = (.error fault, after) ∧ FilesKept tree after ∧
      (tree.OffersPlace path → tree.Refuses fault) := by
  rw [createDraft]
  cases found : tree.draftLocation path draftAttempts 0 with
  | error fault =>
    refine .inr ⟨fault, tree, run_bind_of_error (by rw [run_look, found]) _, .refl tree, ?_⟩
    intro offered
    obtain ⟨location, free⟩ := offered.draft
    rw [found] at free
    cases free
  | ok draft =>
    rw [run_bind_of_ok (by rw [run_look, found])]
    rcases change_cases (·.put draft (.file [])) tree with made | ⟨fault, refuses, refused⟩
    · rw [run_bind_of_ok made]
      exact .inl ⟨draft, _, rfl, .new (free_of_draftLocation found)⟩
    · rw [run_bind_of_error refused]
      exact .inr ⟨fault, _, rfl, .answered tree, fun _ => refuses⟩

theorem writeByDraft_ends (path : Path) (content : Bytes) (tree : FileTree) :
    WriteEnds path content tree ((writeByDraft path content).run tree) := by
  rw [writeByDraft]
  rcases createDraft_cases path tree with
    ⟨draft, middle, created, drafted⟩ | ⟨fault, middle, refused, kept, cause⟩
  · rw [run_bind_of_ok created]
    have ends := completeDraft_ends drafted path content
    rcases ran : (completeDraft draft path content).run middle with ⟨fault | done, after⟩
    · rw [run_tryCatch_of_error ran]
      rw [ran] at ends
      cases ends with
      | stopped left cause => exact .failed left.removed fun offered => cause offered.place
    · rw [run_tryCatch_of_ok ran]
      rw [ran] at ends
      cases ends with
      | done written => exact .written written
  · rw [run_bind_of_error refused]
    exact .failed kept cause

theorem writeFile_ends (path : Path) (content : Bytes) (tree : FileTree) :
    WriteEnds path content tree ((writeFile path content).run tree) := by
  have kept := keepsFiles_ensureDirectory path.directory tree
  have ready (offered : tree.OffersPlace path) := run_ensureDirectory_of_holds offered.directory
  rw [writeFile]
  rcases ensured : (ensureDirectory path.directory).run tree with ⟨fault | done, middle⟩
  · rw [run_bind_of_error ensured]
    rw [ensured] at kept ready
    exact .failed kept fun offered => by cases ready offered
  · rw [run_bind_of_ok ensured]
    rw [ensured] at kept ready
    -- where the place was there from the start, no directory is made
    exact (writeByDraft_ends path content middle).of_kept kept fun offered =>
      (Prod.mk.inj (ready offered)).2

end ConfigHeader.FileTree
