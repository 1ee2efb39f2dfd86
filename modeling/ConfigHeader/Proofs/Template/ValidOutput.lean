import ConfigHeader.Proofs.Template.Concatenation
import ConfigHeader.Proofs.Template.InlinedFiles
import ConfigHeader.Proofs.Template.LayoutLines
import ConfigHeader.Proofs.Template.MarkerFilling
import ConfigHeader.Proofs.Template.Settling
import ConfigHeader.Proofs.Utf8Boundaries
import ConfigHeader.Template.Rendering

namespace ConfigHeader

open Utf8

theorem Byte.ascii_of_isBlank {byte : UInt8} (blank : isBlank byte = true) : byte < 0x80 := by
  rcases (by simpa [isBlank] using blank : byte = 0x20 ∨ byte = 0x09) with rfl | rfl
  · decide
  · decide

theorem Byte.ascii_of_isNamePart {byte : UInt8} (part : isNamePart byte = true) : byte < 0x80 := by
  have limit : (0x80 : UInt8).toNat = 128 := rfl
  simp only [isNamePart, isNameStart, isDigit, Bool.or_eq_true, Bool.and_eq_true,
    decide_eq_true_eq, beq_iff_eq, UInt8.le_iff_toNat_le, ← UInt8.toNat_inj,
    UInt8.reduceToNat] at part
  rw [UInt8.lt_iff_toNat_lt, limit]
  omega

theorem IsIdentifier.valid {name : Bytes} (identifier : IsIdentifier name) : Valid name :=
  valid_of_ascii fun _ member => Byte.ascii_of_isNamePart (identifier.namePart member)

theorem valid_blanks {blanks : Bytes} (inside : ∀ byte ∈ blanks, Byte.isBlank byte = true) :
    Valid blanks :=
  valid_of_ascii fun byte member => Byte.ascii_of_isBlank (inside byte member)

theorem valid_newlines {run : Bytes} (inside : ∀ byte ∈ run, byte = Byte.newline) : Valid run :=
  valid_of_ascii fun byte member => by
    rw [inside byte member]
    decide

namespace Template

variable {content : Bytes}

section Replacements

variable {needle replacement : Bytes}

theorem rewritten_replaceLiteral (filled : needle ≠ []) (valid : Valid needle)
    (validReplacement : Valid replacement) (content : Bytes) :
    Rewritten content (replaceLiteral content needle replacement) := by
  induction content using searchInduction filled with
  | nil => exact .nil
  | passed first rest other ih =>
    rw [replaceLiteral_cons other]
    exact .copied first ih
  | found rest ih =>
    rw [replaceLiteral_append filled]
    exact .replaced valid filled validReplacement ih

theorem valid_substituteBytes {substitutions : KeyMap Bytes}
    (values : ∀ entry ∈ substitutions.entries, entry.1 ≠ "" → Valid entry.2)
    (valid : Valid content) : Valid (substituteBytes substitutions content) := by
  apply substituteBytes_induction valid
  intro entry member filled content valid
  exact (rewritten_replaceLiteral (textBytes_ne_nil filled) (valid_textBytes entry.1)
    (values entry member filled) content).valid valid

theorem valid_substituteTexts (substitutions : KeyMap String) (valid : Valid content) :
    Valid (substituteTexts substitutions content) := by
  rw [substituteTexts_eq]
  apply valid_substituteBytes _ valid
  intro entry member filled
  obtain ⟨text, -, rfl⟩ := List.mem_map.mp member
  exact valid_textBytes text.2

/-- Valid files are inlined into a valid content. -/
theorem valid_inlineFiles {FilePath FileFault : Type} {read : FilePath → Except FileFault Bytes}
    {inlines : KeyMap FilePath}
    (readable : ∀ search path, (search, path) ∈ inlines.entries → search ≠ "" →
      ∃ file, read path = .ok file ∧ Valid file)
    (valid : Valid content) :
    ∃ result, inlineFiles read inlines content = .ok result ∧ Valid result := by
  refine ⟨_, inlineFiles_of_available (fun entry member filled => ?_) content, ?_⟩
  · obtain ⟨file, found, -⟩ := readable entry.1 entry.2 member filled
    exact ⟨file, found⟩
  · apply valid_substituteBytes _ valid
    intro entry member filled
    obtain ⟨inlined, listed, rfl⟩ := List.mem_map.mp member
    obtain ⟨file, found, validFile⟩ := readable inlined.1 inlined.2 listed filled
    rwa [fileBytes, found]

end Replacements

section Markup

open UndefDirective

variable {line : UndefDirective} {values : KeyMap String}

theorem UndefDirective.Formed.valid_text (formed : line.Formed) : Valid line.text := by
  have hash : Valid [Byte.hash] := valid_textBytes "#"
  exact ((((hash.append (valid_blanks formed.spacing)).append (valid_textBytes "undef")).append
    (valid_blanks formed.gap)).append formed.name.valid).append (valid_newlines formed.newlines)

theorem UndefDirective.Formed.valid_commented (formed : line.Formed) : Valid line.commented :=
  (((((valid_textBytes "/* #").append (valid_blanks formed.spacing)).append
    (valid_textBytes "undef ")).append formed.name.valid).append (valid_textBytes " */")).append
      (valid_newlines formed.newlines)

theorem UndefDirective.Formed.valid_defined (formed : line.Formed) {text : Bytes}
    (valid : Valid text) : Valid (line.defined text) := by
  refine Valid.append ?_ (valid_newlines formed.newlines)
  cases text with
  | nil => exact valid_nil
  | cons first rest =>
    by_cases hash : first = Byte.hash
    · have front : Valid [Byte.hash] := valid_textBytes "#"
      have behind : Valid rest := front.of_append (hash ▸ valid)
      simpa [hash] using (front.append (valid_blanks formed.spacing)).append behind
    · simpa [hash] using valid

theorem UndefDirective.Formed.valid_replacement (formed : line.Formed) (unlisted : Unlisted)
    (action : Option Action) : Valid (line.replacement unlisted action) := by
  cases action with
  | none =>
    cases unlisted with
    | comment => exact formed.valid_commented
    | keep => exact formed.valid_text
  | some action =>
    cases action with
    | define text => exact formed.valid_defined (valid_textBytes text)
    | comment => exact formed.valid_commented

theorem rewritten_settleUndefs (actions : KeyMap Action) (unlisted : Unlisted) (content : Bytes) :
    Rewritten content (settleUndefs actions unlisted content) := by
  induction content using settleInduction with
  | nil => exact .nil
  | copied first rest unread ih =>
    rw [settleUndefs_cons actions unlisted unread]
    exact .copied first ih
  | settled line tail formed found ih =>
    rw [settleUndefs_text_append actions unlisted found]
    exact .replaced formed.valid_text (by simp [UndefDirective.text])
      (formed.valid_replacement unlisted _) ih

theorem rewritten_fillMarkers (values : KeyMap String) (content : Bytes) :
    Rewritten content (fillMarkers values content) := by
  induction content using fillInduction values with
  | nil => exact .nil
  | copied first rest unread ih =>
    rw [fillMarkers_cons unread]
    exact .copied first ih
  | filled name value tail identifier present found ih =>
    have atSign : Valid [Byte.atSign] := valid_textBytes "@"
    rw [fillMarkers_marker_append found]
    exact .replaced ((atSign.append identifier.valid).append atSign) (by simp [marker])
      (valid_textBytes value) ih

theorem valid_renderMarkup (findings : Findings) (mode : Mode) (valid : Valid content) :
    Valid (renderMarkup findings mode content) := by
  cases mode with
  | defines => exact (rewritten_settleUndefs _ _ _).valid valid
  | subst =>
    exact (rewritten_settleUndefs _ _ _).valid ((rewritten_fillMarkers _ _).valid valid)
  | all => exact (rewritten_fillMarkers _ _).valid ((rewritten_settleUndefs _ _ _).valid valid)

end Markup

theorem rewritten_tidyLine (line : Bytes) : Rewritten line (tidyLine line) := by
  obtain ⟨blanks, parts, inside⟩ := tidyLine_parts line
  have dropped := Rewritten.of_dropped (tidyLine line) (valid_blanks inside)
  rwa [← parts] at dropped

theorem rewritten_stripTrailingBlanks (content : Bytes) :
    Rewritten content (stripTrailingBlanks content) := by
  induction content using Bytes.lineInduction with
  | rest rest inside =>
    rw [stripTrailingBlanks_rest inside]
    exact rewritten_tidyLine rest
  | line line rest inside ih =>
    rw [stripTrailingBlanks_line inside]
    exact (rewritten_tidyLine line).append (.copied Byte.newline ih)

theorem rewritten_matchFinalNewline (template content : Bytes) :
    Rewritten content (matchFinalNewline template content) := by
  rw [matchFinalNewline]
  split
  · exact .refl content
  · obtain ⟨run, parts, inside⟩ := dropTrailing_parts (· == Byte.newline) content
    have dropped := Rewritten.of_dropped (dropTrailing (· == Byte.newline) content)
      (valid_newlines fun byte member => by simpa using inside byte member)
    rwa [← parts] at dropped

/-- A valid template into which valid files are inlined is rendered to a valid text, whatever the
findings, the mode and the substitutions are. -/
theorem render_valid {FileFault : Type} (read : Path → Except FileFault Bytes) (findings : Findings)
    (mode : Mode) (replacements : Replacements) (template : Bytes) (valid : Valid template)
    (inlines : ∀ search path, (search, path) ∈ replacements.inlines.entries → search ≠ "" →
      ∃ file, read path = .ok file ∧ Valid file) :
    ∃ output, render read findings mode replacements template = .ok output ∧ Valid output := by
  obtain ⟨content, inlined, validContent⟩ :=
    valid_inlineFiles inlines (valid_substituteTexts replacements.substitutions valid)
  refine ⟨matchFinalNewline template (stripTrailingBlanks (renderMarkup findings mode content)),
    by rw [render, inlined]; rfl, ?_⟩
  have markup := valid_renderMarkup findings mode validContent
  have layout := (rewritten_stripTrailingBlanks _).valid markup
  exact (rewritten_matchFinalNewline template _).valid layout

theorem render_valid_of_accents :
    render (fun _ => .ok (textBytes "ü") : Path → Except Unit Bytes) (.ofValues "\"ö\"" "1") .all
        { inlines := KeyMap.ofList [("é", ⟨"u.txt"⟩)]
          substitutions := KeyMap.ofList [("ä", "é é")] } (textBytes "ä @B@ \n#undef A\n") =
      .ok (textBytes "ü ü 1\n#define A ö\n") ∧
    Valid (textBytes "ü ü 1\n#define A ö\n") := by
  have computed : render (fun _ => .ok (textBytes "ü") : Path → Except Unit Bytes)
      (.ofValues "\"ö\"" "1") .all
      { inlines := KeyMap.ofList [("é", ⟨"u.txt"⟩)]
        substitutions := KeyMap.ofList [("ä", "é é")] } (textBytes "ä @B@ \n#undef A\n") =
      .ok (textBytes "ü ü 1\n#define A ö\n") := by decide +kernel
  obtain ⟨output, rendered, valid⟩ := render_valid _ _ _ _ _ (valid_textBytes _)
    fun _ _ _ _ => ⟨_, rfl, valid_textBytes _⟩
  rw [computed] at rendered
  exact ⟨computed, Except.ok.inj rendered ▸ valid⟩

end Template

end ConfigHeader
