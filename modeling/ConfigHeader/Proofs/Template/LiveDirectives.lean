import ConfigHeader.Proofs.Template.Concatenation
import ConfigHeader.Proofs.Template.Definitions

namespace ConfigHeader.Template

open Bytes

variable {findings : Findings} {mode : Mode} {line content : Bytes}

/-- An `#undef` line is read where a line ends with one. -/
theorem exists_read?_iff {holds : Bytes → Prop} :
    (∃ position directive, UndefDirective.read? (content.drop position) = some directive ∧
        holds directive.name) ↔
      HasLine (fun line _ => ∃ name, EndsWithUndef name [] line ∧ holds name) content := by
  constructor
  · rintro ⟨position, directive, found, held⟩
    obtain ⟨formed, tail, same, -⟩ := UndefDirective.formed_of_read? found
    obtain ⟨byte, newlines, parts⟩ := List.exists_cons_of_ne_nil formed.newlines_ne
    obtain rfl := formed.newlines byte (by simp [parts])
    obtain ⟨before, front, taken, closed, fresh⟩ := exists_closed_append (content.take position)
    refine ⟨before, front ++ directive.head, newlines ++ tail, ?_, closed, ?_,
      directive.name, formed.toSpelled.endsWithUndef front, held⟩
    · rw [← List.take_append_drop position content, same, taken,
        UndefDirective.text_eq_head_append, parts]
      simp
    · simp [fresh, formed.newline_not_mem]
  · rintro ⟨before, line, after, same, -, -, name, ⟨-, front, directive, spelled, rfl, parts⟩, held⟩
    have here : content.drop (before ++ front).length =
        directive.head ++ Byte.newline :: after := by
      rw [same, parts, List.append_nil, ← List.append_assoc, List.append_assoc _ directive.head,
        List.drop_left]
    have found := UndefDirective.read?_head_append spelled after
    rw [← here] at found
    exact ⟨_, _, found, held⟩

section All

variable {actions : KeyMap Action} {values : KeyMap String}

theorem atSign_not_mem_replacement {directive : UndefDirective} (spelled : directive.Spelled)
    (plain : ∀ text, actions.find? (nameText directive.name) = some (.define text) →
      ∃ rest, text = "#define " ++ rest ∧ IsPlain rest) :
    Byte.atSign ∉ UndefDirective.replacement .comment { directive with newlines := [] }
      (actions.find? (nameText directive.name)) := by
  have spacing : Byte.atSign ∉ directive.spacing := not_mem_run spelled.spacing rfl
  have commented : Byte.atSign ∉
      ({ directive with newlines := [] } : UndefDirective).commented := by
    simp only [UndefDirective.commented, List.append_nil, List.mem_append, not_or]
    exact ⟨⟨⟨⟨by decide, spacing⟩, by decide⟩, spelled.name.not_mem rfl⟩, by decide⟩
  cases found : actions.find? (nameText directive.name) with
  | none => exact commented
  | some action =>
    cases action with
    | comment => exact commented
    | define text =>
      obtain ⟨rest, rfl, plainRest⟩ := plain text found
      have absent := atSign_not_mem_textBytes fun member => plainRest '@' member (by simp)
      rw [UndefDirective.replacement, directive.defined_definition, List.mem_cons, List.mem_append,
        List.mem_append]
      simp only [not_or]
      exact ⟨by decide, ⟨spacing, by decide⟩, absent⟩

/-- Where definitions come first, markers are filled in the lines that did not end with an
`#undef`, and before what replaced the others. -/
theorem fillMarkers_settledLine_cases
    (plain : ∀ name text, IsIdentifier name → actions.find? (nameText name) = some (.define text) →
      ∃ rest, text = "#define " ++ rest ∧ IsPlain rest)
    (inside : Byte.newline ∉ line) :
    ((∀ name, ¬ EndsWithUndef name [] line) ∧
      fillMarkers values (settledLine actions .comment line) = fillMarkers values line) ∨
    ((∃ name, EndsWithUndef name [] line) ∧ ¬ (fillMarkers values line).Hollow ∧
      ∃ before text, Resolved text ∧
        fillMarkers values (settledLine actions .comment line) = before ++ text) := by
  have defining : Defining actions := fun name text identifier found => by
    obtain ⟨rest, rfl, plainRest⟩ := plain name text identifier found
    exact plainRest.isDefinition
  rcases @settledLine_cases actions .comment line inside with
    ⟨same, kept⟩ | ⟨before, directive, spelled, parts, settled, same⟩
  · exact .inl ⟨fun name undef => by simpa using kept name undef, by rw [same]⟩
  · have resolved := resolved_replacement defining spelled settled
    have absent := atSign_not_mem_replacement spelled fun text => plain _ text spelled.name
    have starts : ∀ byte ∈ (UndefDirective.replacement .comment { directive with newlines := [] }
        (actions.find? (nameText directive.name))).head?, endsMarkers byte = true := by
      obtain ⟨rest, begins | begins⟩ := resolved.first
      · rw [begins]
        simp
        decide
      · rw [begins]
        simp
        decide
    refine .inr ⟨⟨directive.name, parts ▸ spelled.endsWithUndef before⟩, ?_,
      fillMarkers values before, _, resolved, ?_⟩
    · obtain ⟨body, head, -⟩ := spelled.head_eq
      rw [parts, head, fillMarkers_append_cons _ _ _ (by decide), hollow_append]
      exact fun hollow => not_hollow_of_mem List.mem_cons_self rfl hollow.2
    · rw [same, fillMarkers_append_of_absent _ starts absent]

end All

/-- The content with its markers filled, if the mode fills them. -/
def modeMarkers (findings : Findings) (mode : Mode) (content : Bytes) : Bytes :=
  if mode.fillsMarkers then renderMarkers findings (Lookup.ofFindings findings) content else content

/-- What the passes of a mode make of a line. -/
def markedLine (findings : Findings) : Mode → Bytes → Bytes
  | .defines, line => settledLine (Lookup.ofFindings findings).undefActions .comment line
  | .subst, line => settledLine (commentActions findings) .keep
      (renderMarkers findings (Lookup.ofFindings findings) line)
  | .all, line => renderMarkers findings (Lookup.ofFindings findings)
      (settledLine (Lookup.ofFindings findings).undefActions .comment line)

theorem renderMarkers_linewise (plain : PlainFindings findings) :
    Linewise (renderMarkers findings (Lookup.ofFindings findings))
      (renderMarkers findings (Lookup.ofFindings findings)) :=
  fillMarkers_linewise fun _ _ found member => plain.marker_text found '\n' member (by simp)

theorem modeMarkers_linewise (plain : PlainFindings findings) (mode : Mode) :
    Linewise (modeMarkers findings mode) (modeMarkers findings mode) := by
  cases mode with
  | defines => exact .id
  | subst => exact renderMarkers_linewise plain
  | all => exact renderMarkers_linewise plain

theorem renderMarkup_linewise (plain : PlainFindings findings) (mode : Mode) :
    Linewise (renderMarkup findings mode) (markedLine findings mode) := by
  cases mode with
  | defines => exact settleUndefs_linewise plain.defining
  | subst =>
    exact (settleUndefs_linewise defining_commentActions).comp (renderMarkers_linewise plain)
  | all => exact (renderMarkers_linewise plain).comp (settleUndefs_linewise plain.defining)

theorem hollow_markedLine_iff (plain : PlainFindings findings) (inside : Byte.newline ∉ line) :
    (markedLine findings mode line).Hollow ↔ (modeMarkers findings mode line).Hollow := by
  cases mode with
  | defines => exact hollow_settledLine_iff plain.defining inside
  | subst =>
    exact hollow_settledLine_iff defining_commentActions
      ((renderMarkers_linewise plain).step line inside)
  | all =>
    rcases fillMarkers_settledLine_cases (fun _ _ => plain.define_text) inside with
      ⟨-, same⟩ | ⟨-, filled, before, text, resolved, same⟩
    · exact iff_of_eq (congrArg Hollow same)
    · refine iff_of_false (fun hollow => resolved.not_hollow ?_) filled
      rw [markedLine, renderMarkers, same] at hollow
      exact (hollow_append.mp hollow).2

theorem hollow_renderMarkup_iff (plain : PlainFindings findings) (mode : Mode) (content : Bytes) :
    (renderMarkup findings mode content).Hollow ↔ (modeMarkers findings mode content).Hollow := by
  refine (renderMarkup_linewise plain mode).hollow_iff (modeMarkers_linewise plain mode)
    (fun _ => hollow_markedLine_iff plain) (fun rest inside => ?_) content
  cases mode with
  | defines => exact hollow_settleUndefs_iff plain.defining rest
  | subst => exact hollow_settleUndefs_iff defining_commentActions _
  | all =>
    have same : renderMarkup findings .all rest = modeMarkers findings .all rest :=
      congrArg (renderMarkers findings _) (settleUndefs_rest _ _ inside)
    rw [same]

/-- Behind the passes a line ends with an `#undef` of a definition only where markers were filled
in a line that did not end with one before, or where blanks stand behind the name. -/
theorem endsWithUndef_markedLine_iff (plain : PlainFindings findings)
    (inside : Byte.newline ∉ line) {name blanks : Bytes}
    (defined : nameText name ∈ findings.define.keys) :
    EndsWithUndef name blanks (markedLine findings mode line) ↔
      EndsWithUndef name blanks (modeMarkers findings mode line) ∧
        if mode = .all then ∀ name, ¬ EndsWithUndef name [] line else blanks ≠ [] := by
  cases mode with
  | defines =>
    rw [markedLine, endsWithUndef_settledLine_iff plain.defining inside]
    simp [modeMarkers, Mode.fillsMarkers]
  | subst =>
    have fresh := (renderMarkers_linewise plain).step line inside
    rw [markedLine, endsWithUndef_settledLine_iff defining_commentActions fresh,
      find?_commentActions, if_pos defined]
    simp [modeMarkers, Mode.fillsMarkers]
  | all =>
    rw [markedLine, if_pos rfl]
    rcases fillMarkers_settledLine_cases (fun _ _ => plain.define_text) inside with
      ⟨bare, same⟩ | ⟨⟨other, bare⟩, -, before, text, resolved, same⟩
    · rw [renderMarkers, same]
      exact (and_iff_left bare).symm
    · rw [renderMarkers, same]
      exact iff_of_false (resolved.gone _ _ _) fun absent => absent.2 other bare

theorem endsWithUndef_tidied_markedLine_iff (plain : PlainFindings findings)
    (inside : Byte.newline ∉ line) :
    (∃ name, EndsWithUndef name [] (tidyLine (markedLine findings mode line)) ∧
        nameText name ∈ findings.define.keys) ↔
      ∃ name blanks, nameText name ∈ findings.define.keys ∧
        EndsWithUndef name blanks (modeMarkers findings mode line) ∧
          if mode = .all then ∀ name, ¬ EndsWithUndef name [] line else blanks ≠ [] := by
  simp only [endsWithUndef_tidyLine_iff]
  constructor
  · rintro ⟨name, ⟨blanks, undef⟩, defined⟩
    exact ⟨name, blanks, defined, (endsWithUndef_markedLine_iff plain inside defined).mp undef⟩
  · rintro ⟨name, blanks, defined, undef⟩
    exact ⟨name, ⟨blanks, (endsWithUndef_markedLine_iff plain inside defined).mpr undef⟩, defined⟩

variable {FileFault : Type}

/-- A rendering with plain values holds an `#undef` line of a definition exactly where the layout
takes the blanks behind a name, or where filled markers spell a line that was not read before, and
a newline still stands behind the line. -/
theorem live_undef_iff (read : Path → Except FileFault Bytes) (findings : Findings) (mode : Mode)
    (template : Bytes) (plain : PlainFindings findings) :
    ∃ output, render read findings mode {} template = .ok output ∧
      ((∃ position directive,
          UndefDirective.read? (output.drop position) = some directive ∧
            nameText directive.name ∈ findings.define.keys) ↔
        HasLine (fun line after =>
          (∃ name blanks, nameText name ∈ findings.define.keys ∧
            EndsWithUndef name blanks (modeMarkers findings mode line) ∧
              if mode = .all then ∀ name, ¬ EndsWithUndef name [] line else blanks ≠ []) ∧
          (template.endsWithNewline = true ∨ ¬ (modeMarkers findings mode after).Hollow))
          template) := by
  refine ⟨_, render_without_replacements findings mode template, ?_⟩
  have lines (content : Bytes) :=
    @exists_read?_iff content fun name => nameText name ∈ findings.define.keys
  rw [lines]
  have markup := renderMarkup_linewise plain mode
  cases ends : template.endsWithNewline with
  | true =>
    rw [matchFinalNewline, if_pos ends, (stripTrailingBlanks_linewise.comp markup).hasLine_iff]
    refine hasLine_congr fun line after inside => ?_
    rw [endsWithUndef_tidied_markedLine_iff plain inside]
    simp
  | false =>
    rw [matchFinalNewline, if_neg (by simp [ends])]
    have layout := @hasLine_trimmed_iff (renderMarkup findings mode template) fun line =>
      ∃ name, EndsWithUndef name [] line ∧ nameText name ∈ findings.define.keys
    refine layout.trans ?_
    rw [markup.hasLine_iff]
    refine hasLine_congr fun line after inside => ?_
    rw [endsWithUndef_tidied_markedLine_iff plain inside, hollow_renderMarkup_iff plain]
    simp

theorem plainFindings_ofValues {define subst : String} (left : IsPlain (Check.defineText define))
    (right : IsPlain (Check.substText subst)) : PlainFindings (.ofValues define subst) := by
  refine ⟨fun check member => ?_, fun check member => ?_⟩
  · obtain rfl := List.mem_singleton.mp member
    exact left
  · obtain rfl := List.mem_singleton.mp member
    exact right

theorem live_undef_of_marker :
    ∃ output, render (fun _ => .error ()) (.ofValues "1" "\"A\"") .all {}
        (textBytes "#undef @B@\n") = .ok output ∧
      ∃ position directive, UndefDirective.read? (output.drop position) = some directive ∧
        nameText directive.name ∈ (Findings.ofValues "1" "\"A\"").define.keys := by
  have plain : PlainFindings (.ofValues "1" "\"A\"") :=
    plainFindings_ofValues (by decide) (by decide)
  obtain ⟨output, rendered, live⟩ := live_undef_iff (fun _ => .error ()) _ .all
    (textBytes "#undef @B@\n") plain
  refine ⟨output, rendered, live.mpr ?_⟩
  refine ⟨[], textBytes "#undef @B@", [], by decide, closed_nil, by decide, ?_, .inl (by decide)⟩
  refine ⟨textBytes "A", [], by decide, ?_, ?_⟩
  · have identifier : IsIdentifier (textBytes "A") := ⟨0x41, [], by decide, by decide, by simp⟩
    exact ⟨by simp, [], .ofName (textBytes "A"), UndefDirective.spelled_ofName identifier, rfl,
      by decide⟩
  · rw [if_pos rfl]
    intro name undef
    have last : (0x40 : UInt8) ∈ (textBytes "#undef @B@").getLast? := by decide
    exact absurd (undef.isNamePart_last last) (by decide)

/-- With plain values too, an `#undef` line of a definition may stand in the rendering. -/
theorem not_all_undefs_settled :
    ¬ ∀ (findings : Findings) (mode : Mode) (template output : Bytes), PlainFindings findings →
      render (fun _ => .error ()) findings mode {} template = .ok output →
        ∀ position directive, UndefDirective.read? (output.drop position) = some directive →
          nameText directive.name ∉ findings.define.keys := by
  intro settled
  have plain : PlainFindings (.ofValues "1" "b") :=
    plainFindings_ofValues (by decide) (by decide)
  exact settled (.ofValues "1" "b") .defines (textBytes "#undef A \n") (textBytes "#undef A\n") plain
    (by decide) 0 ⟨[], [0x20], textBytes "A", [Byte.newline]⟩ (by decide) (by decide)

end ConfigHeader.Template
