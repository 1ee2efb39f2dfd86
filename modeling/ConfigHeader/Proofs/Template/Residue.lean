import ConfigHeader.Proofs.KeyMapLookup
import ConfigHeader.Proofs.Template.Cuttings

/-! What the pass over `#undef` lines leaves. The texts of definitions and comments hold no line and
become no part of one, whatever stands around them, so the lines behind the pass are those that it
keeps. -/
namespace ConfigHeader.Template

open UndefDirective

variable {content part rest : Bytes} {line : UndefDirective} {first : UInt8}

/-- The text holds no line and becomes no part of one, whatever stands around it. -/
structure Inert (text : Bytes) : Prop where
  first : ∃ first rest, text = first :: rest ∧ endsUndefs first = true
  unread : ∀ rest, Unread text rest

theorem inert_commented (formed : line.Formed) : Inert line.commented := by
  have parts : line.commented =
      (textBytes "/* #" ++ line.spacing ++ textBytes "undef " ++ line.name ++ [0x20]) ++
        0x2a :: 0x2f :: line.newlines := by
    have closing : textBytes " */" = [0x20] ++ [0x2a, 0x2f] := by decide
    simp [commented, closing]
  refine ⟨⟨0x2f, _, rfl, by decide⟩, fun rest => ?_⟩
  rw [parts]
  refine Unread.append ((unread_cons_iff (by decide)).mpr (.of_newline_not_mem ?_))
    (.of_hash_not_mem ?_)
  · simp only [List.mem_append, not_or]
    exact ⟨⟨⟨⟨by decide, not_mem_run formed.spacing rfl⟩, by decide⟩, formed.name.not_mem rfl⟩,
      by decide⟩
  · simp only [List.mem_cons, not_or]
    refine ⟨by decide, by decide, fun member => ?_⟩
    exact absurd (formed.newlines _ member) (by decide)

/-- The text begins with `#define` and holds no other `#`. -/
def BeginsDefinition (text : String) : Prop :=
  ∃ rest, text = "#define" ++ rest ∧ '#' ∉ rest.toList

theorem inert_defined (formed : line.Formed) {text : String} (definition : BeginsDefinition text) :
    Inert (line.defined (textBytes text)) := by
  obtain ⟨rest, rfl, absent⟩ := definition
  have parts : line.defined (textBytes ("#define" ++ rest)) =
      Byte.hash ::
        (line.spacing ++ 0x64 :: (textBytes "efine" ++ textBytes rest ++ line.newlines)) := by
    have opening : textBytes ("#define" ++ rest) =
        Byte.hash :: 0x64 :: (textBytes "efine" ++ textBytes rest) := by
      rw [textBytes_append]
      rfl
    simp [defined, opening]
  rw [parts]
  refine ⟨⟨_, _, rfl, by decide⟩, fun after => Unread.cons ?_ (.of_hash_not_mem ?_)⟩
  · -- the word behind the blanks does not begin like the keyword
    have blanks : (line.spacing ++ 0x64 :: (textBytes "efine" ++ textBytes rest ++ line.newlines) ++
        after).dropWhile Byte.isBlank =
          0x64 :: (textBytes "efine" ++ textBytes rest ++ line.newlines ++ after) := by
      rw [List.append_assoc]
      exact dropWhile_run formed.spacing (by simp [Byte.isBlank])
    rw [read?, if_pos rfl, blanks, keyword_eq]
    simp [Bytes.after?, List.isPrefixOf]
  · simp only [List.mem_append, List.mem_cons, not_or]
    refine ⟨not_mem_run formed.spacing rfl, by decide, ⟨by decide, hash_not_mem_textBytes absent⟩,
      fun member => ?_⟩
    exact absurd (formed.newlines _ member) (by decide)

/-- What is put in the place of a line is the line itself, if it is kept, or an inert text. -/
structure Settles (kept : UndefDirective → Bool) (put : UndefDirective → Bytes) : Prop where
  text : ∀ line : UndefDirective, kept line = true → put line = line.text
  inert : ∀ line : UndefDirective, line.Formed → kept line = false → Inert (put line)

/-- The lines that stand in a content, at whatever place, in their order. -/
def directives (content : Bytes) : List UndefDirective :=
  content.tails.filterMap read?

theorem directives_cons_of_none (unread : read? (first :: rest) = none) :
    directives (first :: rest) = directives rest := by
  rw [directives, List.tails, List.filterMap_cons, unread, directives]

theorem Unread.directives_append (unread : Unread part rest) :
    directives (part ++ rest) = directives rest := by
  induction part with
  | nil => rfl
  | cons first part ih =>
    rw [List.cons_append, directives_cons_of_none unread.head, ih unread.tail]

theorem directives_text_append (opens : line.Opens (line.text ++ rest)) :
    directives (line.text ++ rest) = line :: directives rest := by
  obtain ⟨body, shape, inside⟩ := opens.1.text_eq
  have found := read?_eq_some_iff.mpr opens
  have absent : Byte.hash ∉ body := fun member => absurd (inside _ member) (by decide)
  have later : directives (body ++ rest) = directives rest :=
    Unread.directives_append (.of_hash_not_mem absent)
  rw [shape, List.cons_append] at found ⊢
  rw [directives, List.tails, List.filterMap_cons, found]
  exact congrArg (line :: ·) later

namespace Cutting

variable {cutting : Cutting} {kept : UndefDirective → Bool} {put put' : UndefDirective → Bytes}

theorem withLines_congr (same : ∀ line ∈ cutting.lines, put line = put' line) :
    cutting.withLines put = cutting.withLines put' := by
  induction cutting with
  | last plain => rfl
  | next plain directive later ih =>
    rw [withLines, withLines, same directive List.mem_cons_self,
      ih fun line member => same line (List.mem_cons_of_mem _ member)]

/-- What stands behind a line still does not go on with a newline once the later lines are
settled. -/
theorem Exact.head?_withLines (exact : cutting.Exact) (settles : Settles kept put)
    (stop : cutting.text.head? ≠ some Byte.newline) :
    (cutting.withLines put).head? ≠ some Byte.newline := by
  cases cutting with
  | last plain => exact stop
  | next plain directive later =>
    cases plain with
    | cons byte plain => exact stop
    | nil =>
      cases keeps : kept directive with
      | true =>
        rw [withLines, settles.text directive keeps]
        simp [UndefDirective.text]
        decide
      | false =>
        obtain ⟨first, rest, same, ends⟩ := (settles.inert directive exact.2.1.1 keeps).first
        rw [withLines, same]
        simpa using ne_newline_of_endsUndefs ends

variable {plain : Bytes} {directive : UndefDirective} {later : Cutting}

/-- Once the lines are settled, no line stands in the part before the first one, which is there
still if it is kept. -/
theorem Exact.first_settled (exact : (Cutting.next plain directive later).Exact)
    (settles : Settles kept put) :
    Unread plain (put directive ++ later.withLines put) ∧
      (kept directive = true → directive.Opens (directive.text ++ later.withLines put)) := by
  obtain ⟨before, ⟨formed, tail, same, stop⟩, others⟩ := exact
  rw [← List.append_cancel_left same] at stop
  have hash : directive.text = Byte.hash :: directive.text.tail := rfl
  have unread : Unread plain [] := by
    rw [hash, List.cons_append] at before
    exact (unread_cons_iff (by decide)).mp before
  refine ⟨?_, fun _ => ⟨formed, _, rfl, others.head?_withLines settles stop⟩⟩
  cases keeps : kept directive with
  | true =>
    rw [settles.text directive keeps, hash, List.cons_append]
    exact (unread_cons_iff (by decide)).mpr unread
  | false =>
    obtain ⟨first, rest, shape, ends⟩ := (settles.inert directive formed keeps).first
    rw [shape, List.cons_append]
    exact (unread_cons_iff ends).mpr unread

/-- The lines that stand in a content whose lines are settled are those that are kept. -/
theorem Exact.directives_withLines (exact : cutting.Exact) (settles : Settles kept put) :
    directives (cutting.withLines put) = cutting.lines.filter kept := by
  induction cutting with
  | last plain =>
    have none := exact.directives_append
    rwa [List.append_nil] at none
  | next plain directive later ih =>
    obtain ⟨unread, stays⟩ := exact.first_settled settles
    rw [withLines, unread.directives_append, lines]
    cases keeps : kept directive with
    | true =>
      rw [settles.text directive keeps, directives_text_append (stays keeps), ih exact.2.2,
        List.filter_cons_of_pos keeps]
    | false =>
      have inert := settles.inert directive exact.2.1.1 keeps
      rw [(inert.unread _).directives_append, ih exact.2.2,
        List.filter_cons_of_neg (by simp [keeps])]

/-- A later pass replaces the lines that are kept, and no other. -/
theorem Exact.settleUndefs_withLines (exact : cutting.Exact) (settles : Settles kept put)
    (actions : KeyMap Action) (unlisted : Unlisted) :
    settleUndefs actions unlisted (cutting.withLines put) = cutting.withLines fun line =>
      if kept line then line.replacement unlisted (actions.find? (nameText line.name))
      else put line := by
  induction cutting with
  | last plain =>
    have copied := settleUndefs_append_of_unread actions unlisted exact
    rwa [List.append_nil, settleUndefs_nil, List.append_nil] at copied
  | next plain directive later ih =>
    obtain ⟨unread, stays⟩ := exact.first_settled settles
    rw [withLines, settleUndefs_append_of_unread _ _ unread, withLines]
    cases keeps : kept directive with
    | true =>
      have found := read?_eq_some_iff.mpr (stays keeps)
      rw [settles.text directive keeps, settleUndefs_text_append _ _ found, ih exact.2.2,
        if_pos rfl]
    | false =>
      have inert := settles.inert directive exact.2.1.1 keeps
      rw [settleUndefs_append_of_unread _ _ (inert.unread _), ih exact.2.2, if_neg (by simp)]

theorem IsOf.directives_eq (cut : cutting.IsOf content) : directives content = cutting.lines := by
  have all : Settles (fun _ => true) UndefDirective.text :=
    ⟨fun _ _ => rfl, fun _ _ none => by cases none⟩
  obtain ⟨rfl, exact⟩ := cut
  exact (exact.directives_withLines all).trans (List.filter_true _)

end Cutting

/-- A pass that puts every line of a content back leaves the content as it is. -/
theorem settleUndefs_eq_self {actions : KeyMap Action} {unlisted : Unlisted}
    (same : ∀ line ∈ directives content,
      line.replacement unlisted (actions.find? (nameText line.name)) = line.text) :
    settleUndefs actions unlisted content = content := by
  obtain ⟨cutting, cut⟩ := Cutting.exists_isOf content
  rw [cut.directives_eq] at same
  rw [cut.settleUndefs_eq, Cutting.withLines_congr same]
  exact cut.text

section Passes

variable {actions : KeyMap Action} {unlisted : Unlisted}

/-- All texts of the actions begin with `#define` and hold no other `#`. -/
def BeginDefinitions (actions : KeyMap Action) : Prop :=
  ∀ key text, actions.find? key = some (.define text) → BeginsDefinition text

/-- Whether the pass keeps a line: its name is not listed, and such lines are kept. -/
def stays (actions : KeyMap Action) (unlisted : Unlisted) (line : UndefDirective) : Bool :=
  unlisted = .keep && (actions.find? (nameText line.name)).isNone

theorem settles_replacement (definitions : BeginDefinitions actions) :
    Settles (stays actions unlisted) fun line =>
      line.replacement unlisted (actions.find? (nameText line.name)) := by
  refine ⟨fun line keeps => ?_, fun line formed replaced => ?_⟩
  · obtain ⟨rfl, absent⟩ : unlisted = .keep ∧ actions.find? (nameText line.name) = none := by
      simpa [stays] using keeps
    rw [absent]
    rfl
  · cases found : actions.find? (nameText line.name) with
    | some action =>
      cases action with
      | define text => exact inert_defined formed (definitions _ text found)
      | comment => exact inert_commented formed
    | none =>
      cases unlisted with
      | comment => exact inert_commented formed
      | keep => simp [stays, found] at replaced

theorem directives_settleUndefs (definitions : BeginDefinitions actions) (content : Bytes) :
    directives (settleUndefs actions unlisted content) =
      (directives content).filter (stays actions unlisted) := by
  obtain ⟨cutting, cut⟩ := Cutting.exists_isOf content
  rw [cut.settleUndefs_eq, cut.exact.directives_withLines (settles_replacement definitions),
    cut.directives_eq]

/-- Behind the pass stand exactly the lines that it keeps, each as it was: those of names without an
action, or none at all. So a second pass like it changes nothing, and once the lines without an
action are comments no pass at all does. -/
theorem settleUndefs_leaves_kept_lines (actions : KeyMap Action)
    (definitions : BeginDefinitions actions) (content : Bytes) :
    directives (settleUndefs actions .keep content) =
        (directives content).filter (fun line => (actions.find? (nameText line.name)).isNone) ∧
      directives (settleUndefs actions .comment content) = [] ∧
      (∀ unlisted, settleUndefs actions unlisted (settleUndefs actions unlisted content) =
        settleUndefs actions unlisted content) ∧
      ∀ others policy, settleUndefs others policy (settleUndefs actions .comment content) =
        settleUndefs actions .comment content := by
  have residue (unlisted : Unlisted) := @directives_settleUndefs _ unlisted definitions content
  have gone : directives (settleUndefs actions .comment content) = [] := by
    rw [residue, List.filter_eq_nil_iff]
    simp [stays]
  have kept : stays actions .keep =
      fun line => (actions.find? (nameText line.name)).isNone :=
    funext fun line => by simp [stays]
  refine ⟨kept ▸ residue .keep, gone, fun unlisted => ?_, fun others policy => ?_⟩
  · apply settleUndefs_eq_self
    intro line member
    rw [residue] at member
    exact (settles_replacement definitions).text line (List.mem_filter.mp member).2
  · apply settleUndefs_eq_self
    simp [gone]

theorem beginDefinitions_ofList {entries : List (String × Action)}
    (definitions : ∀ entry ∈ entries, ∀ text, entry.2 = .define text → BeginsDefinition text) :
    BeginDefinitions (KeyMap.ofList entries) :=
  fun key text found => definitions (key, .define text) (KeyMap.mem_of_find?_ofList found) text rfl

/-- A name that is defined and one whose lines become comments. -/
def definedAndHidden : List (String × Action) :=
  [("A", .define "#define A 1"), ("B", .comment)]

theorem beginsDefinition_of_definedAndHidden :
    ∀ entry ∈ definedAndHidden, ∀ text, entry.2 = .define text → BeginsDefinition text := by
  intro entry member text defined
  simp only [definedAndHidden, List.mem_cons, List.not_mem_nil, or_false] at member
  rcases member with rfl | rfl
  · exact ⟨" A 1", (Action.define.inj defined).symm, by decide⟩
  · cases defined

/-- The lines of the listed names go, although one stands behind a `#` and one before a kept line. -/
theorem settleUndefs_leaves_line_of_other_name :
    BeginDefinitions (.ofList definedAndHidden) ∧
      directives (settleUndefs (.ofList definedAndHidden) .keep
          (textBytes "##undef A\n#\tundef B\n\n#undef #undef C\n")) =
        [⟨[], [0x20], textBytes "C", [Byte.newline]⟩] := by
  have definitions := beginDefinitions_ofList beginsDefinition_of_definedAndHidden
  have residue := (settleUndefs_leaves_kept_lines _ definitions
    (textBytes "##undef A\n#\tundef B\n\n#undef #undef C\n")).1
  exact ⟨definitions, residue.trans (by decide)⟩

end Passes

end ConfigHeader.Template
