import ConfigHeader.FileTree.Exchange
import ConfigHeader.Proofs.Actions
import ConfigHeader.Proofs.Utf8Reading

namespace ConfigHeader.FileTree

variable {tree : FileTree} {path : Path} {content : Bytes} {text : String} {checks : List Check}

/-- How reading a file ends. -/
inductive ReadEnds (tree : FileTree) (path : Path) : Except Fault Bytes → Prop where
  | content {content : Bytes} (held : tree.contentOf path = .ok content) :
    ReadEnds tree path (.ok content)
  /-- The path leads to nothing. -/
  | missing (absent : ∀ node, tree.find path ≠ .ok node) :
    ReadEnds tree path (.error (.inputMissing path))
  | directory (there : tree.find path = .ok .directory) :
    ReadEnds tree path (.error (.inputUnreadable path .isDirectory))

theorem inputBytes_ends (tree : FileTree) (path : Path) :
    ReadEnds tree path (tree.inputBytes path) := by
  rw [inputBytes, holds]
  cases found : tree.find path with
  | error fault =>
    rw [if_neg (by simp)]
    exact .missing (by simp [found])
  | ok node =>
    rw [if_pos rfl]
    cases node with
    | file content =>
      have held : tree.contentOf path = .ok content := by
        rw [contentOf, found]
        rfl
      rw [held]
      exact .content held
    | directory =>
      rw [contentOf, found]
      exact .directory found

/-- A file is read as its content. -/
theorem inputBytes_of_contentOf (found : tree.contentOf path = .ok content) :
    tree.inputBytes path = .ok content := by
  have there : tree.holds path = true := by
    rw [contentOf] at found
    obtain ⟨node, reached, -⟩ := exists_of_bind found
    rw [holds, reached]
  rw [inputBytes, if_pos there, found]
  rfl

/-- How reading a results file ends. -/
inductive ResultsEnd (tree : FileTree) (path : Path) : Except Fault (List Check) → Prop where
  | results {text : String} {checks : List Check}
    (held : tree.contentOf path = .ok (textBytes text))
    (read : Check.ofDocument text = .ok checks) : ResultsEnd tree path (.ok checks)
  | unread {fault : Fault} (failed : ReadEnds tree path (.error fault)) :
    ResultsEnd tree path (.error fault)
  | noText {content : Bytes} {fault : Utf8.Fault} (held : tree.contentOf path = .ok content)
    (undecoded : Utf8.decodeText content = .error fault) :
    ResultsEnd tree path (.error (.inputUnreadable path (.invalidUtf8 fault)))
  | malformed {text : String} {defect : Check.Defect}
    (held : tree.contentOf path = .ok (textBytes text))
    (refused : Check.ofDocument text = .error defect) :
    ResultsEnd tree path (.error (.malformedResults path defect))

theorem inputChecks_ends (tree : FileTree) (path : Path) :
    ResultsEnd tree path (tree.inputChecks path) := by
  have ends := inputBytes_ends tree path
  rw [inputChecks, inputText]
  generalize tree.inputBytes path = read at ends ⊢
  rcases read with fault | content
  · exact .unread ends
  · cases ends with
    | content held =>
      dsimp only [bind, Except.bind]
      cases decoded : Utf8.decodeText content with
      | error fault => exact .noText held decoded
      | ok text =>
        rw [Utf8.decodeText_eq_ok_iff.mp decoded] at held
        dsimp only [Except.mapError]
        cases document : Check.ofDocument text with
        | error defect => exact .malformed held document
        | ok checks => exact .results held document

/-- A file with the bytes of a results document is read as its results. -/
theorem inputChecks_of_contentOf (found : tree.contentOf path = .ok (textBytes text))
    (read : Check.ofDocument text = .ok checks) : tree.inputChecks path = .ok checks := by
  have decoded : Utf8.decodeText (textBytes text) = .ok text := Utf8.decodeText_eq_ok_iff.mpr rfl
  rw [inputChecks, inputText, inputBytes_of_contentOf found]
  dsimp only [bind, Except.bind]
  rw [decoded]
  dsimp only [Except.mapError]
  rw [read]

end ConfigHeader.FileTree
