import ConfigHeader.Proofs.Template.Settling
import ConfigHeader.Proofs.TextBytes

/-! Contents cut at their `#undef` lines. The lines of a content do not overlap, so every content is
cut in exactly one way; the pass replaces the lines of the cutting one by one and copies the parts
between them. -/
namespace ConfigHeader.Template

open UndefDirective

variable {content part rest : Bytes} {line : UndefDirective}

/-- A content cut at some lines: parts of the content, with a line between each part and the next. -/
inductive Cutting where
  | last (plain : Bytes)
  | next (plain : Bytes) (directive : UndefDirective) (later : Cutting)

namespace Cutting

variable {cutting other : Cutting}

/-- The parts of a cutting with something put in the place of each line. -/
def withLines (put : UndefDirective → Bytes) : Cutting → Bytes
  | .last plain => plain
  | .next plain directive later => plain ++ (put directive ++ later.withLines put)

def text (cutting : Cutting) : Bytes :=
  cutting.withLines UndefDirective.text

def lines : Cutting → List UndefDirective
  | .last _ => []
  | .next _ directive later => directive :: later.lines

/-- Each line stands where the cutting has it, and no line stands in the parts between them. -/
def Exact : Cutting → Prop
  | .last plain => Unread plain []
  | .next plain directive later =>
    Unread plain (directive.text ++ later.text) ∧
      directive.Opens (directive.text ++ later.text) ∧ later.Exact

/-- The cutting is the content cut at its lines. -/
structure IsOf (cutting : Cutting) (content : Bytes) : Prop where
  text : cutting.text = content
  exact : cutting.Exact

/-- The cutting with one more byte at its front. -/
def cons (first : UInt8) : Cutting → Cutting
  | .last plain => .last (first :: plain)
  | .next plain directive later => .next (first :: plain) directive later

theorem IsOf.cons {first : UInt8} (cut : cutting.IsOf content)
    (unread : read? (first :: content) = none) : (cutting.cons first).IsOf (first :: content) := by
  obtain ⟨rfl, exact⟩ := cut
  cases cutting with
  | last plain =>
    refine ⟨rfl, Unread.cons ?_ exact⟩
    rwa [List.append_nil]
  | next plain directive later =>
    obtain ⟨before, opens, others⟩ := exact
    exact ⟨rfl, before.cons unread, opens, others⟩

theorem IsOf.text_append {tail : Bytes} (cut : cutting.IsOf tail)
    (found : read? (line.text ++ tail) = some line) :
    (Cutting.next [] line cutting).IsOf (line.text ++ tail) := by
  obtain ⟨rfl, exact⟩ := cut
  exact ⟨rfl, .nil _, read?_eq_some_iff.mp found, exact⟩

/-- Every content is cut at its lines. -/
theorem exists_isOf (content : Bytes) : ∃ cutting : Cutting, cutting.IsOf content := by
  induction content using settleInduction with
  | nil => exact ⟨.last [], rfl, .nil []⟩
  | copied first rest unread ih =>
    obtain ⟨cutting, cut⟩ := ih
    exact ⟨cutting.cons first, cut.cons unread⟩
  | settled line tail formed found ih =>
    obtain ⟨cutting, cut⟩ := ih
    exact ⟨.next [] line cutting, cut.text_append found⟩

/-- A part without lines does not reach past the place where a line stands. -/
private theorem prefix_of_unread {front back : Bytes} (unread : Unread part rest)
    (stop : back = [] ∨ ∃ line : UndefDirective, line.Opens back)
    (same : part ++ rest = front ++ back) : part <+: front := by
  rcases List.append_eq_append_iff.mp same with ⟨more, parts, -⟩ | ⟨more, parts, later⟩
  · exact ⟨more, parts.symm⟩
  · by_cases empty : more = []
    · simp [parts, empty]
    · rcases stop with finished | ⟨line, opens⟩
      · rw [finished] at later
        exact absurd (List.append_eq_nil_iff.mp later.symm).1 empty
      · rw [later] at opens
        exact absurd opens (unread front more parts empty line)

/-- The first line of a content, and what stands before it, are unique. -/
private theorem part_inj {front back : Bytes} (unread : Unread part rest)
    (unread' : Unread front back)
    (stop : rest = [] ∨ ∃ line : UndefDirective, line.Opens rest)
    (stop' : back = [] ∨ ∃ line : UndefDirective, line.Opens back)
    (same : part ++ rest = front ++ back) : part = front ∧ rest = back := by
  have shorter := prefix_of_unread unread stop' same
  have longer := prefix_of_unread unread' stop same.symm
  obtain rfl := shorter.eq_of_length_le longer.length_le
  exact ⟨rfl, List.append_cancel_left same⟩

theorem Exact.unique (exact : cutting.Exact) (exact' : other.Exact)
    (same : cutting.text = other.text) : cutting = other := by
  induction cutting generalizing other with
  | last plain =>
    cases other with
    | last plain' => exact congrArg last same
    | next plain' directive' later' =>
      obtain ⟨before', opens', -⟩ := exact'
      have parts := part_inj exact before' (.inl rfl) (.inr ⟨_, opens'⟩)
        ((List.append_nil plain).trans same)
      cases parts.2
  | next plain directive later ih =>
    obtain ⟨before, opens, others⟩ := exact
    cases other with
    | last plain' =>
      have parts := part_inj before exact' (.inr ⟨_, opens⟩) (.inl rfl)
        (same.trans (List.append_nil plain').symm)
      cases parts.2
    | next plain' directive' later' =>
      obtain ⟨before', opens', others'⟩ := exact'
      obtain ⟨rfl, rests⟩ := part_inj before before' (.inr ⟨_, opens⟩) (.inr ⟨_, opens'⟩) same
      have found := read?_eq_some_iff.mpr opens
      rw [rests, read?_eq_some_iff.mpr opens'] at found
      obtain rfl := Option.some.inj found
      rw [ih others others' (List.append_cancel_left rests)]

/-- The pass replaces the lines of the cutting and copies the rest. -/
theorem IsOf.settleUndefs_eq (cut : cutting.IsOf content) (actions : KeyMap Action)
    (unlisted : Unlisted) :
    settleUndefs actions unlisted content = cutting.withLines fun line =>
      line.replacement unlisted (actions.find? (nameText line.name)) := by
  obtain ⟨rfl, exact⟩ := cut
  induction cutting with
  | last plain =>
    have copied := settleUndefs_append_of_unread actions unlisted exact
    rwa [List.append_nil, settleUndefs_nil, List.append_nil] at copied
  | next plain directive later ih =>
    obtain ⟨before, opens, others⟩ := exact
    have found := read?_eq_some_iff.mpr opens
    calc settleUndefs actions unlisted (plain ++ (directive.text ++ later.text))
      _ = plain ++ settleUndefs actions unlisted (directive.text ++ later.text) :=
        settleUndefs_append_of_unread actions unlisted before
      _ = _ := by rw [settleUndefs_text_append actions unlisted found, ih others, withLines]

end Cutting

section Results

variable {actions : KeyMap Action} {unlisted : Unlisted}

/-- What stands in the place of a line. A definition is written with the blanks of the line behind
its `#`; a text that does not begin with `#` is written as it is. -/
inductive Resolves (actions : KeyMap Action) (unlisted : Unlisted) (line : UndefDirective) :
    Bytes → Prop where
  | directive {rest : String}
    (listed : actions.find? (nameText line.name) = some (.define ("#" ++ rest))) :
    Resolves actions unlisted line (textBytes "#" ++ line.spacing ++ textBytes rest ++ line.newlines)
  | verbatim {text : String}
    (listed : actions.find? (nameText line.name) = some (.define text))
    (other : ∀ rest, text ≠ "#" ++ rest) :
    Resolves actions unlisted line (textBytes text ++ line.newlines)
  | comment
    (chosen : actions.find? (nameText line.name) = some .comment ∨
      actions.find? (nameText line.name) = none ∧ unlisted = .comment) :
    Resolves actions unlisted line (textBytes "/* #" ++ line.spacing ++ textBytes "undef " ++
      line.name ++ textBytes " */" ++ line.newlines)
  | kept (chosen : actions.find? (nameText line.name) = none ∧ unlisted = .keep) :
    Resolves actions unlisted line line.text

/-- A text begins with `#` if its bytes do. -/
theorem eq_hash_append_of_textBytes {text : String} {bytes : Bytes}
    (parts : textBytes text = Byte.hash :: bytes) : ∃ rest, text = "#" ++ rest := by
  cases chars : text.toList with
  | nil => simp [textBytes, chars] at parts
  | cons char others =>
    have first : Byte.hash ∈ String.utf8EncodeChar char := by
      obtain ⟨byte, more, form⟩ :=
        List.exists_cons_of_ne_nil (String.utf8EncodeChar_ne_nil (c := char))
      rw [textBytes, chars, List.flatMap_cons, form, List.cons_append] at parts
      rw [form, (List.cons.inj parts).1]
      exact List.mem_cons_self
    have hash : char = '#' := eq_of_mem_utf8EncodeChar first (by decide)
    refine ⟨String.ofList others, String.toList_inj.mp ?_⟩
    simp [chars, hash]

theorem defined_directive (line : UndefDirective) (rest : String) :
    line.defined (textBytes ("#" ++ rest)) =
      textBytes "#" ++ line.spacing ++ textBytes rest ++ line.newlines := by
  rw [textBytes_append]
  rfl

theorem defined_verbatim (line : UndefDirective) {text : String}
    (other : ∀ rest, text ≠ "#" ++ rest) :
    line.defined (textBytes text) = textBytes text ++ line.newlines := by
  cases bytes : textBytes text with
  | nil => rfl
  | cons first rest =>
    have bare : first ≠ Byte.hash := by
      rintro rfl
      obtain ⟨rest, same⟩ := eq_hash_append_of_textBytes bytes
      exact other rest same
    rw [defined, if_neg bare]

theorem resolves_replacement (line : UndefDirective) :
    Resolves actions unlisted line
      (line.replacement unlisted (actions.find? (nameText line.name))) := by
  cases found : actions.find? (nameText line.name) with
  | none =>
    cases unlisted with
    | comment => exact .comment (.inr ⟨found, rfl⟩)
    | keep => exact .kept ⟨found, rfl⟩
  | some action =>
    cases action with
    | comment => exact .comment (.inl found)
    | define text =>
      rw [replacement]
      by_cases hash : ∃ rest, text = "#" ++ rest
      · obtain ⟨rest, rfl⟩ := hash
        rw [defined_directive]
        exact .directive found
      · have other := not_exists.mp hash
        rw [defined_verbatim line other]
        exact .verbatim found other

end Results

/-- A content is cut at its `#undef` lines in exactly one way, and the pass puts in the place of each
line what its name calls for. -/
theorem settleUndefs_by_cutting (content : Bytes) (actions : KeyMap Action) (unlisted : Unlisted) :
    ∃ cutting : Cutting, (∀ other : Cutting, other.IsOf content ↔ other = cutting) ∧
      ∃ put : UndefDirective → Bytes, (∀ line, Resolves actions unlisted line (put line)) ∧
        settleUndefs actions unlisted content = cutting.withLines put := by
  obtain ⟨cutting, cut⟩ := Cutting.exists_isOf content
  refine ⟨cutting, fun other => ⟨fun cut' => ?_, fun same => same ▸ cut⟩, _,
    resolves_replacement, cut.settleUndefs_eq actions unlisted⟩
  exact cut'.exact.unique cut.exact (cut'.text.trans cut.text.symm)

end ConfigHeader.Template
