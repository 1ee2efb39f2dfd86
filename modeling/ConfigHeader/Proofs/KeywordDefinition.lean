import ConfigHeader.Proofs.Check.RoundTrip
import ConfigHeader.Proofs.Commitment
import ConfigHeader.Proofs.FileTree.Reading
import ConfigHeader.Proofs.HeaderOrder
import ConfigHeader.Proofs.Json.Indentation
import ConfigHeader.Proofs.Template.LineNumbers

namespace ConfigHeader.KeywordSpelling

open FileTree Template Bytes

variable {tree after : FileTree} {files : Probes Path} {accepted : Probes Bool}
  {choice : Option Spelling} {output template target path : Path} {content : Bytes}

/-- The file holds a result, and its first one tells whether the probe succeeded. -/
def TellsFirst (tree : FileTree) (path : Path) (success : Bool) : Prop :=
  ∃ first others, tree.inputChecks path = .ok (first :: others) ∧ first.success = success

/-- The files of the probes tell which spellings are accepted. -/
structure Answered (tree : FileTree) (files : Probes Path) (accepted : Probes Bool) : Prop where
  native : TellsFirst tree files.native accepted.native
  enclosed : TellsFirst tree files.enclosed accepted.enclosed
  leading : TellsFirst tree files.leading accepted.leading

theorem readProbe_of_first {success : Bool} (tells : TellsFirst tree path success) :
    readProbe tree path = .ok success := by
  obtain ⟨first, others, found, same⟩ := tells
  rw [readProbe, found]
  exact congrArg Except.ok same

theorem readChoice_of_answered (answered : Answered tree files accepted) :
    readChoice files tree = .ok (choose accepted) := by
  rw [readChoice, readProbe_of_first answered.native, readProbe_of_first answered.enclosed,
    readProbe_of_first answered.leading]
  rfl

section Record

open Check Json

/-- The value of a recorded choice. -/
theorem stored_toCheck (choice : Option Spelling) :
    ∃ value, Fits 0 value ∧ (toCheck choice).value = storedOf value := by
  cases choice with
  | none => exact ⟨.string "", trivial, rfl⟩
  | some spelling =>
    cases spelling with
    | native => exact ⟨.null, trivial, rfl⟩
    | enclosed => exact ⟨.string (Spelling.text .enclosed), trivial, rfl⟩
    | leading => exact ⟨.string (Spelling.text .leading), trivial, rfl⟩

/-- The recorded choice is read back as it was written. -/
theorem ofDocument_document (choice : Option Spelling) :
    ofDocument (document choice) = .ok [toCheck choice] := by
  obtain ⟨value, scalar, stored⟩ := stored_toCheck choice
  have fits (depth : ℕ) : Fits depth value := fits_of_scalar scalar
  have again : ofJson? keyword (toCheck choice).toJson = some (toCheck choice) :=
    ofJson?_toJson_of_stored (fits _) stored
  have inside : Fits nestingLimit (toDocument [toCheck choice]) := by
    refine fits_ofFields fun field member => ?_
    obtain rfl := List.mem_singleton.mp member
    refine fits_toJson (fits 125) ?_
    rw [stored, valueJson_storedOf (fits _)]
  have line : IsSpacing "\n".toList := by simp [IsSpacing, isSpace]
  apply ofDocument_of_object
  · rw [document, String.toList_append, indentedText, String.toList_ofList]
    rfl
  · exact ofText?_indentedText 4 inside line
  · intro check member
    obtain rfl := List.mem_singleton.mp member
    exact again

end Record

section Header

/-- The findings that hold a recorded choice and nothing else. -/
def recorded (choice : Option Spelling) (source : Path) : Findings where
  define := (∅ : Catalog .define).append ⟨toCheck choice, source⟩ rfl

theorem merge_record {read : Path → Except Fault (List Check)}
    (found : read output = .ok [toCheck choice]) :
    Findings.merge read { define := [output] } = .ok (recorded choice output) := by
  have merged : Catalog.merge read .define [output] = .ok (recorded choice output).define := by
    rw [Catalog.merge, List.foldlM_cons, found]
    rfl
  rw [Findings.merge, merged]
  rfl

/-- What becomes of the lines for the keyword. -/
def headerAction : Option Spelling → Action
  | some .enclosed => .define "#define restrict __restrict__"
  | some .leading => .define "#define restrict __restrict"
  | some .native | none => .comment

theorem ofCheck_toCheck (choice : Option Spelling) :
    Action.ofCheck (toCheck choice) = headerAction choice := by
  cases choice with
  | none => rfl
  | some spelling => cases spelling <;> rfl

theorem find?_recorded (choice : Option Spelling) (source : Path) :
    (Lookup.ofFindings (recorded choice source)).undefActions.find? keyword =
      some (headerAction choice) := by
  rw [find?_undefActions_eq, ← ofCheck_toCheck]
  rfl

theorem defining_recorded (choice : Option Spelling) (source : Path) :
    Defining (Lookup.ofFindings (recorded choice source)).undefActions := by
  apply defining_of_texts
  intro check member text defined
  obtain rfl : check = toCheck choice := List.mem_singleton.mp member
  rw [ofCheck_toCheck] at defined
  cases choice with
  | none => cases defined
  | some spelling =>
    cases spelling with
    | native => cases defined
    | enclosed =>
      obtain rfl := Action.define.inj defined
      decide
    | leading =>
      obtain rfl := Action.define.inj defined
      decide

/-- A line of a template for the keyword, with these blanks before it. -/
def undefLine (gap : Bytes) : Bytes :=
  textBytes "#undef" ++ gap ++ textBytes keyword

/-- The line of a header that stands in the place of such a line. -/
def headerLine (choice : Option Spelling) : String :=
  match headerAction choice with
  | .define text => text
  | .comment => "/* #undef restrict */"

theorem finishedLine_undefLine {gap : Bytes} (filled : gap ≠ [])
    (blanks : ∀ byte ∈ gap, Byte.isBlank byte = true) (choice : Option Spelling) (source : Path) :
    finishedLine (Lookup.ofFindings (recorded choice source)).undefActions (undefLine gap) =
      textBytes (headerLine choice) := by
  have identifier : IsIdentifier (textBytes keyword) :=
    ⟨0x72, textBytes "estrict", rfl, by decide, by decide +kernel⟩
  have spelled : UndefDirective.Spelled ⟨[], gap, textBytes keyword, []⟩ :=
    ⟨by simp, blanks, filled, identifier⟩
  have named : nameText (textBytes keyword) = keyword := by decide
  have settled : settledLine (Lookup.ofFindings (recorded choice source)).undefActions .comment
      (undefLine gap) = textBytes (headerLine choice) := by
    refine (@settledLine_undef _ _ [] _ spelled List.not_mem_nil).trans ?_
    rw [named, find?_recorded]
    cases choice with
    | none => rfl
    | some spelling => cases spelling <;> rfl
  have tidy : tidyLine (textBytes (headerLine choice)) = textBytes (headerLine choice) := by
    cases choice with
    | none => rfl
    | some spelling => cases spelling <;> rfl
  rw [finishedLine, settled, tidy]

/-- A header made from a recorded choice alone has the line of the choice in the place of every
line for the keyword. -/
theorem render_of_recorded (held : after.inputChecks output = .ok [toCheck choice])
    (found : after.inputBytes template = .ok content) (target : Path) :
    ∃ text, Header.render { sources := { define := [output] }, template, output := target } after =
        .ok text ∧
      ∀ number gap, gap ≠ [] → (∀ byte ∈ gap, Byte.isBlank byte = true) →
        content.EndedLine number (undefLine gap) →
        text.lines[number]? = some (textBytes (headerLine choice)) := by
  have rendered : ∃ text, render after.contentOf (recorded choice output) .defines {} content =
      .ok text := ⟨_, render_without_replacements _ _ _⟩
  obtain ⟨text, rendered⟩ := rendered
  refine ⟨text, ?_, fun number gap filled blanks ended => ?_⟩
  · have merged : Findings.merge after.inputChecks (Header.sources
        { sources := { define := [output] }, template, output := target }) =
          .ok (recorded choice output) := merge_record held
    rw [Header.render_of_merged merged found, rendered]
    rfl
  · have solid : ¬ (undefLine gap).Hollow :=
      not_hollow_of_mem (List.mem_append_left _ (List.mem_append_left _ List.mem_cons_self)) rfl
    rw [← finishedLine_undefLine filled blanks choice output]
    exact render_defines_line (defining_recorded choice output) ended solid rendered

end Header

/-- What was written for a choice is read as its record. -/
theorem inputChecks_of_written
    (written : Written output (textBytes (document choice)) tree after) :
    after.inputChecks output = .ok [toCheck choice] :=
  inputChecks_of_contentOf written.content (ofDocument_document choice)

/-- A run that ends well has recorded the choice that the probes tell. -/
theorem recorded_of_write (answered : Answered tree files accepted)
    (ran : (write files output).run tree = (.ok choice, after)) :
    choice = choose accepted ∧ after.inputChecks output = .ok [toCheck choice] := by
  have ends := write_ends files output tree
  rw [ran, readChoice_of_answered answered] at ends
  cases ends with
  | written ready written =>
    obtain ⟨rfl, rfl⟩ := Prod.mk.inj (Except.ok.inj ready)
    exact ⟨rfl, inputChecks_of_written written⟩

/-- Once the probes are recorded, a header made from the record alone has in the place of each line
for the keyword the definition of the first spelling that is accepted, or a comment if that is the
keyword itself or there is none. -/
theorem keyword_line_of_probes (tree after : FileTree) (files : Probes Path)
    (accepted : Probes Bool) (choice : Option Spelling) (output template target : Path)
    (content : Bytes) (answered : Answered tree files accepted)
    (ran : (write files output).run tree = (.ok choice, after))
    (found : after.inputBytes template = .ok content) :
    ∃ text, Header.render
        { sources := { define := [output] }, template, output := target, mode := .defines } after =
          .ok text ∧
      ∀ number gap, gap ≠ [] → (∀ byte ∈ gap, Byte.isBlank byte = true) →
        content.EndedLine number (textBytes "#undef" ++ gap ++ textBytes "restrict") →
        text.lines[number]? = some (textBytes (
          if accepted.native then "/* #undef restrict */"
          else if accepted.enclosed then "#define restrict __restrict__"
          else if accepted.leading then "#define restrict __restrict"
          else "/* #undef restrict */")) := by
  obtain ⟨rfl, held⟩ := recorded_of_write answered ran
  obtain ⟨text, rendered, lines⟩ := render_of_recorded held found target
  refine ⟨text, rendered, fun number gap filled blanks ended => ?_⟩
  rw [lines number gap filled blanks ended, choose]
  cases accepted.native with
  | true => rfl
  | false =>
    cases accepted.enclosed with
    | true => rfl
    | false => cases accepted.leading <;> rfl

/-- Three probes with these answers, and a template with a line for the keyword. -/
def probeTree (accepted : Probes Bool) : FileTree where
  workingDirectory := []
  nodes :=
    [(["n.json"], .file (probe accepted.native)), (["g.json"], .file (probe accepted.enclosed)),
      (["m.json"], .file (probe accepted.leading)),
      (["t.h.in"], .file (textBytes "#undef restrict\n"))]
where
  probe (success : Bool) : Bytes :=
    if success then textBytes "\x7b\"a\":\x7b\"success\":true\x7d\x7d"
    else textBytes "\x7b\"a\":\x7b\"success\":false\x7d\x7d"

def probePaths : Probes Path :=
  ⟨⟨"n.json"⟩, ⟨"g.json"⟩, ⟨"m.json"⟩⟩

theorem answered_probeTree (accepted : Probes Bool) :
    Answered (probeTree accepted) probePaths accepted := by
  obtain ⟨native, enclosed, leading⟩ := accepted
  constructor
  · cases native <;> exact ⟨_, _, rfl, rfl⟩
  · cases enclosed <;> exact ⟨_, _, rfl, rfl⟩
  · cases leading <;> exact ⟨_, _, rfl, rfl⟩

theorem run_probeTree (accepted : Probes Bool) :
    ∃ after, (write probePaths ⟨"r.json"⟩).run (probeTree accepted) =
        (.ok (choose accepted), after) ∧
      after.inputBytes ⟨"t.h.in"⟩ = .ok (textBytes "#undef restrict\n") := by
  have ends :
      ((write probePaths ⟨"r.json"⟩).run (probeTree accepted)).1 = .ok (choose accepted) ∧
      FileTree.inputBytes ((write probePaths ⟨"r.json"⟩).run (probeTree accepted)).2 ⟨"t.h.in"⟩ =
        .ok (textBytes "#undef restrict\n") := by
    obtain ⟨native, enclosed, leading⟩ := accepted
    cases native <;> cases enclosed <;> cases leading <;> exact ⟨rfl, rfl⟩
  generalize (write probePaths ⟨"r.json"⟩).run (probeTree accepted) = ran at ends ⊢
  obtain ⟨outcome, after⟩ := ran
  obtain ⟨rfl, found⟩ := ends
  exact ⟨after, rfl, found⟩

/-- The header of the recorded probes. -/
def probeHeader : Header where
  sources := { define := [⟨"r.json"⟩] }
  template := ⟨"t.h.in"⟩
  output := ⟨"t.h"⟩
  mode := .defines

theorem keyword_line_of_enclosed :
    ∃ after text,
      (write probePaths ⟨"r.json"⟩).run (probeTree ⟨false, true, true⟩) =
        (.ok (some .enclosed), after) ∧
      probeHeader.render after = .ok text ∧
      text.lines[0]? = some (textBytes "#define restrict __restrict__") := by
  obtain ⟨after, ran, found⟩ := run_probeTree ⟨false, true, true⟩
  obtain ⟨text, rendered, lines⟩ := keyword_line_of_probes _ after _ _ _ _ _ ⟨"t.h"⟩ _
    (answered_probeTree _) ran found
  exact ⟨after, text, ran, rendered, lines 0 [0x20] (by simp) (by simp [Byte.isBlank]) (by decide)⟩

/-- Where no spelling is accepted, the keyword is not defined as empty. -/
theorem keyword_not_defined_without_spelling :
    ∃ after text,
      (write probePaths ⟨"r.json"⟩).run (probeTree ⟨false, false, false⟩) = (.ok none, after) ∧
      probeHeader.render after = .ok text ∧
      text.lines[0]? ≠ some (textBytes "#define restrict ") := by
  obtain ⟨after, ran, found⟩ := run_probeTree ⟨false, false, false⟩
  obtain ⟨-, held⟩ := recorded_of_write (answered_probeTree _) ran
  obtain ⟨text, rendered, lines⟩ := render_of_recorded held found ⟨"t.h"⟩
  refine ⟨after, text, ran, rendered, ?_⟩
  rw [lines 0 [0x20] (by simp) (by simp [Byte.isBlank]) (by decide)]
  decide

end ConfigHeader.KeywordSpelling
