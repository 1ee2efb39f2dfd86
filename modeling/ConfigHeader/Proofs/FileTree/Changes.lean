import ConfigHeader.FileTree.Commit
import ConfigHeader.Proofs.Actions

/-! Changes of a tree, followed from action to action. What only makes directories keeps every file,
and every path leads where it led before. -/
namespace ConfigHeader.FileTree

variable {before middle after tree : FileTree} {location other start next : Location} {path : Path}
  {content : Bytes}

private theorem lookup_filter (nodes : List (Location × Node)) (location other : Location) :
    (nodes.filter fun entry => entry.1 != location).lookup other =
      if other = location then none else nodes.lookup other := by
  induction nodes with
  | nil => simp
  | cons entry nodes ih =>
    by_cases replaced : entry.1 = location
    · rw [List.filter_cons_of_neg (by simpa using replaced), ih, List.lookup_cons, replaced]
      by_cases same : other = location
      · rw [if_pos same, if_pos same]
      · rw [if_neg same, if_neg same, beq_eq_false_iff_ne.mpr same]
    · rw [List.filter_cons_of_pos (by simpa using replaced), List.lookup_cons, List.lookup_cons, ih]
      by_cases same : other = location
      · have passed : (other == entry.1) = false := by simpa [same] using Ne.symm replaced
        rw [passed, if_pos same]
      · rw [if_neg same, if_neg same]

theorem node?_remove (inner : location ≠ []) (other : Location) :
    (tree.remove location).node? other =
      if other = location then none else tree.node? other := by
  by_cases root : other = []
  · rw [root, if_neg (Ne.symm inner)]
    rfl
  · rw [node?, if_neg root, node?, if_neg root]
    exact lookup_filter tree.nodes location other

/-- A change is seen at its own location and nowhere else. -/
theorem node?_put (node : Node) (inner : location ≠ []) (other : Location) :
    (tree.put location node).node? other = if other = location then some node
      else tree.node? other := by
  by_cases same : other = location
  · rw [if_pos same, same, node?, if_neg inner, put, List.lookup_cons_self]
  · have passed : (other == location) = false := beq_eq_false_iff_ne.mpr same
    have elsewhere : (tree.remove location).node? other = tree.node? other := by
      rw [node?_remove inner, if_neg same]
    rw [if_neg same, ← elsewhere, node?, node?, put, List.lookup_cons, passed]

@[simp] theorem workingDirectory_move (tree : FileTree) (source target : Location) :
    (tree.move source target).workingDirectory = tree.workingDirectory := by
  rw [move]
  split <;> rfl

/-- The tree when the disk has given one more answer. -/
def answered (tree : FileTree) : FileTree :=
  { tree with answers := tree.answers.tail }

@[simp] theorem node?_answered (tree : FileTree) (location : Location) :
    tree.answered.node? location = tree.node? location := rfl

/-- The disk will refuse a change with this fault. -/
def Refuses (tree : FileTree) (fault : FileFault) : Prop :=
  ∃ refusal, some refusal ∈ tree.answers ∧ refusal.fault = fault

@[simp] theorem node?_root (tree : FileTree) : tree.node? [] = some .directory := rfl

theorem ne_root_of_free (free : tree.node? location = none) : location ≠ [] := by
  intro root
  rw [root, node?_root] at free
  cases free

theorem requireDirectory_eq_ok_iff :
    tree.requireDirectory location = .ok () ↔ tree.node? location = some .directory := by
  rw [requireDirectory]
  cases tree.node? location with
  | none => simp
  | some node => cases node <;> simp

/-- Every directory is still there, and relative paths start where they started. -/
structure DirectoriesKept (before after : FileTree) : Prop where
  workingDirectory : after.workingDirectory = before.workingDirectory
  directory : ∀ location, before.node? location = some .directory →
    after.node? location = some .directory

namespace DirectoriesKept

theorem step {piece : String} (kept : DirectoriesKept before after)
    (found : before.step location piece = .ok next) : after.step location piece = .ok next := by
  rw [FileTree.step] at found ⊢
  obtain ⟨done, required, moved⟩ := exists_of_bind found
  have still := kept.directory location (requireDirectory_eq_ok_iff.mp required)
  rw [requireDirectory_eq_ok_iff.mpr still]
  exact moved

theorem follow {pieces : List String} (kept : DirectoriesKept before after)
    (found : before.follow start pieces = .ok location) :
    after.follow start pieces = .ok location := by
  induction pieces generalizing start with
  | nil => exact found
  | cons piece pieces ih =>
    rw [FileTree.follow, List.foldlM_cons] at found ⊢
    obtain ⟨next, moved, followed⟩ := exists_of_bind found
    rw [kept.step moved]
    exact ih followed

/-- A path that leads somewhere leads there still. -/
theorem locate (kept : DirectoriesKept before after) (found : before.locate path = .ok location) :
    after.locate path = .ok location := by
  have same : after.startOf path = before.startOf path := by
    rw [startOf, startOf, kept.workingDirectory]
  rw [FileTree.locate] at found ⊢
  obtain ⟨start, begun, followed⟩ := exists_of_bind found
  rw [same, begun]
  exact kept.follow followed

end DirectoriesKept

/-- No file is changed, none is gone and none is new. -/
structure FilesKept (before after : FileTree) : Prop extends DirectoriesKept before after where
  file : ∀ location content,
    after.node? location = some (.file content) ↔ before.node? location = some (.file content)

namespace FilesKept

@[refl] theorem refl (tree : FileTree) : FilesKept tree tree where
  workingDirectory := rfl
  directory _ found := found
  file _ _ := .rfl

theorem trans (first : FilesKept before middle) (second : FilesKept middle after) :
    FilesKept before after where
  workingDirectory := second.workingDirectory.trans first.workingDirectory
  directory location found := second.directory location (first.directory location found)
  file location content := (second.file location content).trans (first.file location content)

theorem answered (tree : FileTree) : FilesKept tree tree.answered where
  workingDirectory := rfl
  directory _ found := found
  file _ _ := .rfl

/-- A directory where nothing was takes the place of no file. -/
theorem put_directory (free : tree.node? location = none) :
    FilesKept tree (tree.put location .directory) := by
  have inner := ne_root_of_free free
  refine ⟨⟨rfl, fun other found => ?_⟩, fun other content => ?_⟩
  · rw [node?_put _ inner]
    split
    · rfl
    · exact found
  · rw [node?_put _ inner]
    by_cases same : other = location
    · simp [same, free]
    · rw [if_neg same]

end FilesKept

/-- The file that a path leads to holds the content, and no other file is changed, gone or new. -/
structure Written (path : Path) (content : Bytes) (before after : FileTree) : Prop
    extends DirectoriesKept before after where
  content : after.contentOf path = .ok content
  others : ∃ location, after.locate path = .ok location ∧
    ∀ other, other ≠ location → ∀ bytes,
      after.node? other = some (.file bytes) ↔ before.node? other = some (.file bytes)

/-- The location for a file is where its path leads to, if that ends with a name and no directory is
there. -/
theorem fileLocation_eq_ok_iff :
    tree.fileLocation path = .ok location ↔
      tree.locate path = .ok location ∧ tree.node? location ≠ some .directory ∧
        ∃ name, path.pieces.getLast? = some name ∧ Path.isIdle name = false ∧ name ≠ ".." := by
  rw [fileLocation]
  cases tree.locate path with
  | error fault => simp [bind, Except.bind]
  | ok reached =>
    cases path.pieces.getLast? with
    | none => simp [bind, Except.bind]
    | some name =>
      dsimp only [bind, Except.bind]
      by_cases idle : (Path.isIdle name || name == "..") = true
      · rw [if_pos idle]
        refine iff_of_false (by simp) ?_
        rintro ⟨-, -, other, same, named, below⟩
        obtain rfl := Option.some.inj same
        simp [named, below] at idle
      · rw [if_neg idle]
        have last : ∃ other, some name = some other ∧ Path.isIdle other = false ∧ other ≠ ".." :=
          ⟨name, rfl, by simpa using idle⟩
        split
        · rename_i there
          refine iff_of_false (by simp) ?_
          rintro ⟨same, free, -⟩
          obtain rfl := Except.ok.inj same
          exact free there
        · rename_i free
          rw [Except.ok.injEq]
          refine ⟨?_, And.left⟩
          rintro rfl
          exact ⟨rfl, free, last⟩

theorem contentOf_of_file (located : tree.locate path = .ok location)
    (there : tree.node? location = some (.file content)) : tree.contentOf path = .ok content := by
  rw [contentOf, find, located]
  dsimp only [bind, Except.bind]
  rw [there]

/-- What is written after all files were kept is written. -/
theorem FilesKept.written (kept : FilesKept before middle)
    (written : Written path content middle after) : Written path content before after where
  workingDirectory := written.workingDirectory.trans kept.workingDirectory
  directory location found := written.directory location (kept.directory location found)
  content := written.content
  others := by
    obtain ⟨location, located, others⟩ := written.others
    exact ⟨location, located, fun other apart bytes =>
      (others other apart bytes).trans (kept.file other bytes)⟩

section Actions

variable {Fault α β : Type}

@[simp] theorem run_look (view : FileTree → Except Fault α) (tree : FileTree) :
    (look view).run tree = (view tree, tree) := by
  change (look.liftExcept (view tree)).run tree = _
  cases view tree with
  | error fault => rfl
  | ok result => rfl

@[simp] theorem run_nextAnswer (tree : FileTree) :
    nextAnswer.run tree = (.ok tree.answers.head?.join, tree.answered) := rfl

theorem refuses_of_head? {refusal : Refusal} (answer : tree.answers.head?.join = some refusal) :
    tree.Refuses refusal.fault :=
  ⟨refusal, List.mem_of_head? (Option.join_eq_some_iff.mp answer), rfl⟩

/-- The disk makes a change, or it refuses it and nothing is changed. -/
theorem change_cases (alter : FileTree → FileTree) (tree : FileTree) :
    (change alter).run tree = (.ok (), alter tree.answered) ∨
      ∃ fault, tree.Refuses fault ∧ (change alter).run tree = (.error fault, tree.answered) := by
  rw [change, run_bind_of_ok (run_nextAnswer tree)]
  cases answer : tree.answers.head?.join with
  | none => exact .inl rfl
  | some refusal => exact .inr ⟨refusal.fault, refuses_of_head? answer, rfl⟩

/-- The action changes no file, whether it fails or not. -/
def KeepsFiles (action : FileAction Fault α) : Prop :=
  ∀ tree, FilesKept tree (action.run tree).2

namespace KeepsFiles

theorem pure (result : α) : KeepsFiles (pure result : FileAction Fault α) :=
  fun tree => .refl tree

theorem throw (fault : Fault) : KeepsFiles (throw fault : FileAction Fault α) :=
  fun tree => .refl tree

theorem look (view : FileTree → Except Fault α) : KeepsFiles (look view) := by
  intro tree
  rw [run_look]

/-- An action that is chosen by a look at the tree keeps the files if every choice does. -/
theorem get_bind {next : FileTree → FileAction Fault α} (rest : ∀ seen, KeepsFiles (next seen)) :
    KeepsFiles (get >>= next) := by
  intro tree
  rw [run_bind_of_ok (run_get tree)]
  exact rest tree tree

theorem bind {action : FileAction Fault α} {next : α → FileAction Fault β}
    (first : KeepsFiles action) (rest : ∀ result, KeepsFiles (next result)) :
    KeepsFiles (action >>= next) := by
  intro tree
  have kept := first tree
  rcases ran : action.run tree with ⟨fault | result, after⟩
  · rw [run_bind_of_error ran]
    rwa [ran] at kept
  · rw [run_bind_of_ok ran]
    rw [ran] at kept
    exact kept.trans (rest result after)

theorem tryCatch {action : FileAction Fault α} {handle : Fault → FileAction Fault α}
    (first : KeepsFiles action) (rest : ∀ fault, KeepsFiles (handle fault)) :
    KeepsFiles (tryCatch action handle) := by
  intro tree
  have kept := first tree
  rcases ran : action.run tree with ⟨fault | result, after⟩
  · rw [run_tryCatch_of_error ran]
    rw [ran] at kept
    exact kept.trans (rest fault after)
  · rw [run_tryCatch_of_ok ran]
    rwa [ran] at kept

end KeepsFiles

theorem keepsFiles_makeDirectory (path : Path) : KeepsFiles (makeDirectory path) := by
  apply KeepsFiles.bind (.look _)
  intro location tree
  rw [run_bind_of_ok (run_get tree)]
  cases free : tree.node? location with
  | some node => exact .refl tree
  | none =>
    rcases change_cases (·.put location .directory) tree with made | ⟨fault, -, refused⟩
    · rw [made]
      exact (FilesKept.answered tree).trans (.put_directory free)
    · rw [refused]
      exact .answered tree

theorem keepsFiles_accept (path : Path) (fault : FileFault) :
    KeepsFiles (makeDirectories.accept path fault) := by
  apply KeepsFiles.get_bind
  intro seen
  split
  · exact .pure ()
  · exact .throw fault

theorem keepsFiles_makeDirectories (paths : List Path) : KeepsFiles (makeDirectories paths) := by
  induction paths with
  | nil => exact .throw FileFault.notFound
  | cons path above ih =>
    rw [makeDirectories]
    split
    · exact .pure ()
    · apply KeepsFiles.tryCatch (keepsFiles_makeDirectory path)
      intro fault
      split
      · exact ih.bind fun _ =>
          (keepsFiles_makeDirectory path).tryCatch (keepsFiles_accept path)
      · exact keepsFiles_accept path fault

theorem keepsFiles_ensureDirectory (path : Path) : KeepsFiles (ensureDirectory path) := by
  apply KeepsFiles.get_bind
  intro seen
  split
  · exact .pure ()
  · exact keepsFiles_makeDirectories path.ancestors

theorem run_ensureDirectory_of_holds (there : tree.holds path = true) :
    (ensureDirectory path).run tree = (.ok (), tree) := by
  rw [ensureDirectory, run_bind_of_ok (run_get tree)]
  simp only [there, Bool.or_true, if_true, run_pure]

end Actions

end ConfigHeader.FileTree
