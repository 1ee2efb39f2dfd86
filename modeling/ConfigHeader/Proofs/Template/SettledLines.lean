import ConfigHeader.Proofs.Template.Settling
import ConfigHeader.Proofs.TextBytes

/-! What the pass over `#undef` lines makes of a line, where all its texts define something on one
line. Then the pass works on each line by itself, and of the lines that end with an `#undef` it
leaves only those with blanks behind the name and, if it keeps them, those of unlisted names. -/
namespace ConfigHeader.Template

open Bytes

/-- The text is a `#define` on one line and holds no other `#`. -/
def IsDefinition (text : String) : Prop :=
  ∃ rest, text = "#define " ++ rest ∧ '\n' ∉ rest.toList ∧ '#' ∉ rest.toList

/-- The texts for all identifiers are definitions. -/
def Defining (actions : KeyMap Action) : Prop :=
  ∀ name text, IsIdentifier name → actions.find? (nameText name) = some (.define text) →
    IsDefinition text

namespace UndefDirective

/-- A definition takes over the blanks between `#` and the word behind it. -/
theorem defined_definition (directive : UndefDirective) (rest : String) :
    ({ directive with newlines := [] } : UndefDirective).defined (textBytes ("#define " ++ rest)) =
      Byte.hash :: (directive.spacing ++ textBytes "define " ++ textBytes rest) := by
  have parts : textBytes ("#define " ++ rest) =
      Byte.hash :: (textBytes "define " ++ textBytes rest) := by
    rw [textBytes_append]
    rfl
  simp [defined, parts]

theorem commented_parts (directive : UndefDirective) :
    ({ directive with newlines := [] } : UndefDirective).commented =
      0x2f :: (textBytes "* #" ++ directive.spacing ++ textBytes "undef " ++ directive.name ++
        textBytes " *") ++ [0x2f] := by
  have opening : textBytes "/* #" = 0x2f :: textBytes "* #" := by decide
  have closing : textBytes " */" = textBytes " *" ++ [0x2f] := by decide
  simp [commented, opening, closing]

end UndefDirective

variable {actions : KeyMap Action} {unlisted : Unlisted} {line : Bytes}

theorem settledLine_undef {before : Bytes} {directive : UndefDirective}
    (spelled : directive.Spelled) (inside : Byte.newline ∉ before) :
    settledLine actions unlisted (before ++ directive.head) =
      before ++ UndefDirective.replacement unlisted { directive with newlines := [] }
        (actions.find? (nameText directive.name)) := by
  rw [settledLine, settleUndefs_undef_line _ _ spelled inside]
  simp

theorem settledLine_other (inside : Byte.newline ∉ line)
    (other : ∀ name, ¬ EndsWithUndef name [] line) : settledLine actions unlisted line = line := by
  rw [settledLine, settleUndefs_other_line _ _ inside other]
  simp

/-- The text holds no newline, begins like a comment or a definition, and lines that end with it
do not end with an `#undef`. -/
structure Resolved (text : Bytes) : Prop where
  newline : Byte.newline ∉ text
  first : ∃ rest, text = 0x2f :: rest ∨ text = Byte.hash :: rest
  gone : ∀ before name blanks, ¬ EndsWithUndef name blanks (before ++ text)

theorem Resolved.not_hollow {text : Bytes} (resolved : Resolved text) : ¬ text.Hollow := by
  obtain ⟨rest, rfl | rfl⟩ := resolved.first
  · exact not_hollow_of_mem List.mem_cons_self rfl
  · exact not_hollow_of_mem List.mem_cons_self rfl

theorem UndefDirective.not_hollow_head (directive : UndefDirective) : ¬ directive.head.Hollow :=
  not_hollow_of_mem List.mem_cons_self rfl

theorem resolved_commented {directive : UndefDirective} (spelled : directive.Spelled) :
    Resolved ({ directive with newlines := [] } : UndefDirective).commented := by
  rw [directive.commented_parts]
  refine ⟨?_, ⟨_, .inl rfl⟩, fun before name blanks undef => ?_⟩
  · simp only [List.mem_append, List.mem_cons, not_or]
    exact ⟨⟨by decide, ⟨⟨⟨by decide, not_mem_run spelled.spacing rfl⟩, by decide⟩,
      spelled.name.not_mem rfl⟩, by decide⟩, by decide⟩
  · rw [← List.append_assoc] at undef
    have last := undef.isNamePart_or_isBlank_last (by rw [List.getLast?_concat]; rfl)
    exact absurd last (by decide)

theorem resolved_defined {directive : UndefDirective} (spelled : directive.Spelled) {text : String}
    (definition : IsDefinition text) :
    Resolved (({ directive with newlines := [] } : UndefDirective).defined (textBytes text)) := by
  obtain ⟨rest, rfl, newline, hash⟩ := definition
  rw [directive.defined_definition]
  refine ⟨?_, ⟨_, .inr rfl⟩,
    fun before => not_endsWithUndef_of_define spelled.spacing (hash_not_mem_textBytes hash)⟩
  simp only [List.mem_append, List.mem_cons, not_or]
  exact ⟨by decide, ⟨not_mem_run spelled.spacing rfl, by decide⟩,
    newline_not_mem_textBytes newline⟩

/-- Whatever replaces a line, unless the line is kept, is resolved. -/
theorem resolved_replacement (defining : Defining actions) {directive : UndefDirective}
    (spelled : directive.Spelled)
    (settled : ¬ (unlisted = .keep ∧ actions.find? (nameText directive.name) = none)) :
    Resolved (UndefDirective.replacement unlisted { directive with newlines := [] }
      (actions.find? (nameText directive.name))) := by
  cases found : actions.find? (nameText directive.name) with
  | some action =>
    cases action with
    | define text => exact resolved_defined spelled (defining _ text spelled.name found)
    | comment => exact resolved_commented spelled
  | none =>
    cases unlisted with
    | comment => exact resolved_commented spelled
    | keep => exact absurd ⟨rfl, found⟩ settled

/-- A line either stays as it is or ends with an `#undef`, which is replaced. -/
theorem settledLine_cases (inside : Byte.newline ∉ line) :
    (settledLine actions unlisted line = line ∧ ∀ name, EndsWithUndef name [] line →
      unlisted = .keep ∧ actions.find? (nameText name) = none) ∨
    ∃ (before : Bytes) (directive : UndefDirective), directive.Spelled ∧
      line = before ++ directive.head ∧
      ¬ (unlisted = .keep ∧ actions.find? (nameText directive.name) = none) ∧
      settledLine actions unlisted line =
        before ++ UndefDirective.replacement unlisted { directive with newlines := [] }
          (actions.find? (nameText directive.name)) := by
  by_cases undef : ∃ name, EndsWithUndef name [] line
  · obtain ⟨name, undef⟩ := undef
    obtain ⟨-, before, directive, spelled, rfl, same⟩ := id undef
    rw [List.append_nil] at same
    have fresh : Byte.newline ∉ before := fun member => inside (by simp [same, member])
    have result : settledLine actions unlisted line = _ :=
      same ▸ settledLine_undef spelled fresh
    by_cases kept : unlisted = .keep ∧ actions.find? (nameText directive.name) = none
    · refine .inl ⟨?_, fun other undef' => undef'.name_unique undef ▸ kept⟩
      rw [result, kept.1, kept.2, same, UndefDirective.replacement,
        UndefDirective.text_eq_head_append]
      simp [UndefDirective.head]
    · exact .inr ⟨before, directive, spelled, same, kept, result⟩
  · have other := not_exists.mp undef
    exact .inl ⟨settledLine_other inside other, fun name ends => absurd ends (other name)⟩

theorem newline_not_mem_settledLine (defining : Defining actions) (inside : Byte.newline ∉ line) :
    Byte.newline ∉ settledLine actions unlisted line := by
  rcases settledLine_cases inside with ⟨same, -⟩ | ⟨before, directive, spelled, parts, settled, same⟩
  · rwa [same]
  · rw [same, List.mem_append, not_or]
    exact ⟨fun member => inside (by simp [parts, member]),
      (resolved_replacement defining spelled settled).newline⟩

theorem settleUndefs_linewise (defining : Defining actions) :
    Linewise (settleUndefs actions unlisted) (settledLine actions unlisted) where
  line _ rest inside := settleUndefs_line _ _ inside rest
  step _ inside := newline_not_mem_settledLine defining inside
  rest _ inside := by rwa [settleUndefs_rest _ _ inside]

/-- A line ends with an `#undef` behind the pass if it did before, and with blanks or kept. -/
theorem endsWithUndef_settledLine_iff (defining : Defining actions) (inside : Byte.newline ∉ line)
    {name blanks : Bytes} :
    EndsWithUndef name blanks (settledLine actions unlisted line) ↔
      EndsWithUndef name blanks line ∧
        (blanks = [] → unlisted = .keep ∧ actions.find? (nameText name) = none) := by
  rcases settledLine_cases inside with
    ⟨same, kept⟩ | ⟨before, directive, spelled, parts, settled, same⟩
  · rw [same]
    constructor
    · intro undef
      refine ⟨undef, fun empty => ?_⟩
      subst empty
      exact kept name undef
    · exact And.left
  · have bare := spelled.endsWithUndef before
    rw [← parts] at bare
    rw [same]
    refine iff_of_false ((resolved_replacement defining spelled settled).gone _ _ _) ?_
    rintro ⟨undef, kept⟩
    obtain rfl := bare.blanks_eq_nil undef
    obtain rfl := bare.name_unique undef
    exact settled (kept rfl)

theorem hollow_settledLine_iff (defining : Defining actions) (inside : Byte.newline ∉ line) :
    (settledLine actions unlisted line).Hollow ↔ line.Hollow := by
  rcases settledLine_cases inside with ⟨same, -⟩ | ⟨before, directive, spelled, parts, settled, same⟩
  · rw [same]
  · rw [same, parts]
    have resolved := resolved_replacement defining spelled settled
    exact iff_of_false (fun hollow => resolved.not_hollow (hollow_append.mp hollow).2)
      fun hollow => directive.not_hollow_head (hollow_append.mp hollow).2

theorem hollow_settleUndefs_iff (defining : Defining actions) (content : Bytes) :
    (settleUndefs actions unlisted content).Hollow ↔ content.Hollow :=
  (settleUndefs_linewise defining).hollow_iff .id (fun _ inside => hollow_settledLine_iff defining inside)
    (fun _ inside => by rw [settleUndefs_rest _ _ inside]) content

end ConfigHeader.Template
