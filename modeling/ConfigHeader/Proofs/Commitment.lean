import ConfigHeader.Header
import ConfigHeader.KeywordSpelling
import ConfigHeader.Proofs.FileTree.Drafts

namespace ConfigHeader

open FileTree

variable {α : Type}

/-- How a run ends that plans a result and a content and then commits the content. -/
inductive CommitEnds (planned : Except Fault (α × Bytes)) (output : Path) (before : FileTree) :
    Except Fault α × FileTree → Prop where
  /-- There was no plan, and nothing is changed. -/
  | refused {fault : Fault} (unplanned : planned = .error fault) :
    CommitEnds planned output before (.error fault, before)
  /-- The output cannot be written, for want of a place or because the disk refuses a step of it.
  Directories may be new, but no file is changed, gone or new. -/
  | unwritable {result : α} {content : Bytes} {fault : FileFault} {after : FileTree}
    (ready : planned = .ok (result, content)) (kept : FilesKept before after)
    (cause : before.OffersPlace output → before.Refuses fault) :
    CommitEnds planned output before (.error (.outputUnwritable output fault), after)
  /-- The output holds what was planned, and no other file is changed. -/
  | written {result : α} {content : Bytes} {after : FileTree}
    (ready : planned = .ok (result, content)) (written : Written output content before after) :
    CommitEnds planned output before (.ok result, after)

theorem FileTree.commit_ends (output : Path) (content : Bytes) (tree : FileTree) :
    CommitEnds (.ok ((), content)) output tree ((commit output content).run tree) := by
  have ends := writeFile_ends output content tree
  rw [commit, run_adapt]
  generalize (writeFile output content).run tree = ran at ends ⊢
  cases ends with
  | written written => exact .written rfl written
  | failed kept cause => exact .unwritable rfl kept cause

theorem Header.write_ends (header : Header) (tree : FileTree) :
    CommitEnds ((header.render tree).map fun content => ((), content)) header.output tree
      (header.write.run tree) := by
  rw [write]
  cases planned : header.render tree with
  | error fault =>
    rw [run_bind_of_error (by rw [run_look, planned])]
    exact .refused rfl
  | ok content =>
    rw [run_bind_of_ok (by rw [run_look, planned])]
    exact commit_ends header.output content tree

namespace KeywordSpelling

theorem write_ends (files : Probes Path) (output : Path) (tree : FileTree) :
    CommitEnds ((readChoice files tree).map fun choice => (choice, textBytes (document choice)))
      output tree ((write files output).run tree) := by
  rw [write]
  cases planned : readChoice files tree with
  | error fault =>
    rw [run_bind_of_error (by rw [run_look, planned])]
    exact .refused rfl
  | ok choice =>
    rw [run_bind_of_ok (by rw [run_look, planned])]
    dsimp only [Except.map]
    generalize textBytes (document choice) = content
    have ends := commit_ends output content tree
    rcases committed : (commit output content).run tree with ⟨fault | done, after⟩
    · rw [run_bind_of_error committed]
      rw [committed] at ends
      cases ends with
      | refused unplanned => cases unplanned
      | unwritable ready kept cause => exact .unwritable rfl kept cause
    · rw [run_bind_of_ok committed]
      rw [committed] at ends
      cases ends with
      | written ready written =>
        cases ready
        exact .written rfl written

end KeywordSpelling

/-- A header, or the record of a keyword, is written in full, as it is planned from the tree before
the run, or not at all, even where it is written over one of its own inputs. -/
theorem written_in_full_or_not_at_all (header : Header)
    (files : KeywordSpelling.Probes Path) (output : Path) (tree : FileTree) :
    CommitEnds ((header.render tree).map fun content => ((), content)) header.output tree
      (header.write.run tree) ∧
    CommitEnds
      ((KeywordSpelling.readChoice files tree).map fun choice =>
        (choice, textBytes (KeywordSpelling.document choice)))
      output tree ((KeywordSpelling.write files output).run tree) :=
  ⟨header.write_ends tree, KeywordSpelling.write_ends files output tree⟩

-- the disk takes in three bytes of the draft and then is full; neither that nor the draft is left
example :
    let full : FileTree :=
      { workingDirectory := []
        nodes := [(["t.h"], .file (textBytes "#undef A\n"))]
        answers := [none, some { fault := .other "No space left on device", taken := 3 }] }
    let header : Header := { template := ⟨"t.h"⟩, output := ⟨"./t.h"⟩ }
    (header.write.run full).2.nodes = full.nodes ∧
      (header.write.run { full with answers := [] }).2.nodes =
        [(["t.h"], .file (textBytes "/* #undef A */\n"))] := by decide +kernel

end ConfigHeader
