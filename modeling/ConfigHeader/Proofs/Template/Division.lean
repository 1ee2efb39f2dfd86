import ConfigHeader.Bytes
import Mathlib.Data.List.Basic

/-! Contents divided at the items of a markup. No two items stand at one place, so a content is
divided in exactly one way, and a pass that goes from left to right, takes an item where it finds one
and goes on behind it, is known from the division. -/
namespace ConfigHeader.Template

/-- What is looked for in a content. -/
structure Markup (Item : Type) where
  text : Item → Bytes
  /-- Whether the item stands at the front of the content. -/
  Stands : Item → Bytes → Prop
  leads : ∀ item content, Stands item content → text item <+: content
  filled : ∀ item content, Stands item content → text item ≠ []
  unique : ∀ first second content, Stands first content → Stands second content → first = second

variable {Item : Type} {markup : Markup Item} {content rest : Bytes} {first : UInt8}

namespace Markup

/-- No item stands anywhere in a part of a content, given the rest behind that part. -/
def Absent (markup : Markup Item) (part rest : Bytes) : Prop :=
  ∀ before after, part = before ++ after → after ≠ [] →
    ∀ item, ¬ markup.Stands item (after ++ rest)

theorem absent_nil (markup : Markup Item) (rest : Bytes) : markup.Absent [] rest := by
  intro before after parts filled
  exact absurd (List.append_eq_nil_iff.mp parts.symm).2 filled

theorem absent_cons_iff {part : Bytes} :
    markup.Absent (first :: part) rest ↔
      (∀ item, ¬ markup.Stands item (first :: (part ++ rest))) ∧ markup.Absent part rest := by
  constructor
  · intro absent
    refine ⟨absent [] (first :: part) rfl (List.cons_ne_nil _ _), fun before after parts => ?_⟩
    exact absent (first :: before) after (congrArg (first :: ·) parts)
  · rintro ⟨here, later⟩ before after parts filled
    cases before with
    | nil =>
      rw [List.nil_append] at parts
      rw [← parts]
      exact here
    | cons byte before => exact later before after (List.cons.inj parts).2 filled

/-- A pass from left to right that puts something in the place of each item and copies all other
bytes. -/
structure Replaces (markup : Markup Item) (put : Item → Bytes) (pass : Bytes → Bytes) : Prop where
  nil : pass [] = []
  copied : ∀ first rest, (∀ item, ¬ markup.Stands item (first :: rest)) →
    pass (first :: rest) = first :: pass rest
  replaced : ∀ item rest, markup.Stands item (markup.text item ++ rest) →
    pass (markup.text item ++ rest) = put item ++ pass rest

/-- A part in which no item stands is copied. -/
theorem Replaces.append_of_absent {put : Item → Bytes} {pass : Bytes → Bytes} {part : Bytes}
    (replaces : markup.Replaces put pass) (absent : markup.Absent part rest) :
    pass (part ++ rest) = part ++ pass rest := by
  induction part with
  | nil => rfl
  | cons first part ih =>
    obtain ⟨here, later⟩ := absent_cons_iff.mp absent
    rw [List.cons_append, replaces.copied _ _ here, ih later, List.cons_append]

end Markup

/-- A content divided at some items: parts of the content, with an item between each part and the
next. -/
inductive Division (Item : Type) where
  | last (plain : Bytes)
  | next (plain : Bytes) (item : Item) (later : Division Item)

namespace Division

variable {division other : Division Item} {put : Item → Bytes}

/-- The parts of a division with something put in the place of each item. -/
def withItems (put : Item → Bytes) : Division Item → Bytes
  | .last plain => plain
  | .next plain item later => plain ++ (put item ++ later.withItems put)

def items : Division Item → List Item
  | .last _ => []
  | .next _ item later => item :: later.items

def text (markup : Markup Item) (division : Division Item) : Bytes :=
  division.withItems markup.text

/-- Each item stands where the division has it, and no item stands in the parts between them. -/
def Exact (markup : Markup Item) : Division Item → Prop
  | .last plain => markup.Absent plain []
  | .next plain item later =>
    markup.Absent plain (markup.text item ++ later.text markup) ∧
      markup.Stands item (markup.text item ++ later.text markup) ∧ later.Exact markup

/-- The division is the content divided at its items. -/
structure IsOf (markup : Markup Item) (division : Division Item) (content : Bytes) : Prop where
  text : division.text markup = content
  exact : division.Exact markup

/-- The division with one more byte at its front. -/
def cons (first : UInt8) : Division Item → Division Item
  | .last plain => .last (first :: plain)
  | .next plain item later => .next (first :: plain) item later

/-- Induction over a division byte by byte: it begins with a byte of a part, or with an item. -/
@[elab_as_elim]
theorem bytewise {motive : Division Item → Prop} (nil : motive (.last []))
    (copied : ∀ first division, motive division → motive (division.cons first))
    (replaced : ∀ item division, motive division → motive (.next [] item division))
    (division : Division Item) : motive division := by
  induction division with
  | last plain =>
    induction plain with
    | nil => exact nil
    | cons first plain ih => exact copied first (.last plain) ih
  | next plain item later ih =>
    induction plain with
    | nil => exact replaced item later ih
    | cons first plain ih => exact copied first (.next plain item later) ih

@[simp] theorem withItems_cons (put : Item → Bytes) (first : UInt8) (division : Division Item) :
    (division.cons first).withItems put = first :: division.withItems put := by
  cases division with
  | last plain => rfl
  | next plain item later => rfl

theorem text_cons (first : UInt8) (division : Division Item) :
    (division.cons first).text markup = first :: division.text markup :=
  withItems_cons _ first division

theorem exact_cons_iff :
    (division.cons first).Exact markup ↔
      (∀ item, ¬ markup.Stands item (first :: division.text markup)) ∧ division.Exact markup := by
  cases division with
  | last plain =>
    have parts : plain ++ [] = (last plain).text markup := List.append_nil plain
    rw [cons, Exact, Exact, Markup.absent_cons_iff, parts]
  | next plain item later =>
    rw [cons, Exact, Exact, Markup.absent_cons_iff, and_assoc]
    rfl

theorem exact_next_nil_iff {item : Item} :
    (next [] item division).Exact markup ↔
      markup.Stands item (markup.text item ++ division.text markup) ∧ division.Exact markup :=
  and_iff_right (markup.absent_nil _)

/-- Every content is divided at its items. -/
theorem exists_isOf (markup : Markup Item) (content : Bytes) :
    ∃ division : Division Item, division.IsOf markup content := by
  cases content with
  | nil => exact ⟨.last [], rfl, markup.absent_nil []⟩
  | cons first rest =>
    by_cases stands : ∃ item, markup.Stands item (first :: rest)
    · obtain ⟨item, stands⟩ := stands
      obtain ⟨tail, parts⟩ := markup.leads _ _ stands
      have shorter : tail.length < rest.length + 1 := by
        have lengths := congrArg List.length parts
        have positive := List.length_pos_iff.mpr (markup.filled _ _ stands)
        simp only [List.length_append, List.length_cons] at lengths
        omega
      obtain ⟨division, same, exact⟩ := exists_isOf markup tail
      rw [← parts, ← same] at stands
      rw [← parts, ← same]
      exact ⟨.next [] item division, rfl, exact_next_nil_iff.mpr ⟨stands, exact⟩⟩
    · obtain ⟨division, same, exact⟩ := exists_isOf markup rest
      rw [← same] at stands ⊢
      exact ⟨division.cons first, text_cons first division,
        exact_cons_iff.mpr ⟨not_exists.mp stands, exact⟩⟩
termination_by content.length

/-- Where one division has an item, no other has a byte of a part or another item. -/
theorem Exact.unique (exact : division.Exact markup) (exact' : other.Exact markup)
    (same : division.text markup = other.text markup) : division = other := by
  induction division using bytewise generalizing other with
  | nil =>
    induction other using bytewise with
    | nil => rfl
    | copied first other => cases same.trans (text_cons first other)
    | replaced item other =>
      obtain ⟨stands, -⟩ := exact_next_nil_iff.mp exact'
      have empty := (List.append_eq_nil_iff.mp same.symm).2
      exact absurd (List.append_eq_nil_iff.mp empty).1 (markup.filled _ _ stands)
  | copied first division ih =>
    obtain ⟨unread, later⟩ := exact_cons_iff.mp exact
    rw [text_cons] at same
    induction other using bytewise with
    | nil => cases same
    | copied first' other =>
      obtain ⟨-, later'⟩ := exact_cons_iff.mp exact'
      rw [text_cons] at same
      obtain ⟨rfl, rests⟩ := List.cons.inj same
      rw [ih later later' rests]
    | replaced item other =>
      obtain ⟨stands, -⟩ := exact_next_nil_iff.mp exact'
      rw [same] at unread
      exact absurd stands (unread item)
  | replaced item division ih =>
    obtain ⟨stands, later⟩ := exact_next_nil_iff.mp exact
    induction other using bytewise with
    | nil =>
      have empty := (List.append_eq_nil_iff.mp same).2
      exact absurd (List.append_eq_nil_iff.mp empty).1 (markup.filled _ _ stands)
    | copied first other =>
      obtain ⟨unread, -⟩ := exact_cons_iff.mp exact'
      rw [text_cons] at same
      rw [← same] at unread
      exact absurd stands (unread item)
    | replaced item' other =>
      obtain ⟨stands', later'⟩ := exact_next_nil_iff.mp exact'
      have same : markup.text item ++ division.text markup =
          markup.text item' ++ other.text markup := same
      rw [same] at stands
      obtain rfl := markup.unique _ _ _ stands stands'
      rw [ih later later' (List.append_cancel_left same)]

theorem IsOf.unique (isOf : division.IsOf markup content) (isOf' : other.IsOf markup content) :
    division = other :=
  isOf.exact.unique isOf'.exact (isOf.text.trans isOf'.text.symm)

/-- A pass from left to right replaces the items of the division and copies the rest. -/
theorem IsOf.pass_eq {pass : Bytes → Bytes} (isOf : division.IsOf markup content)
    (replaces : markup.Replaces put pass) : pass content = division.withItems put := by
  obtain ⟨rfl, exact⟩ := isOf
  induction division using bytewise with
  | nil => exact replaces.nil
  | copied first division ih =>
    obtain ⟨unread, later⟩ := exact_cons_iff.mp exact
    rw [text_cons, replaces.copied _ _ unread, ih later, withItems_cons]
  | replaced item division ih =>
    obtain ⟨stands, later⟩ := exact_next_nil_iff.mp exact
    exact (replaces.replaced _ _ stands).trans (congrArg (put item ++ ·) (ih later))

theorem withItems_congr {put' : Item → Bytes} (same : ∀ item ∈ division.items, put item = put' item) :
    division.withItems put = division.withItems put' := by
  induction division with
  | last plain => rfl
  | next plain item later ih =>
    rw [withItems, withItems, same item List.mem_cons_self,
      ih fun other member => same other (List.mem_cons_of_mem _ member)]

/-- Where every item has one number of bytes of a kind more than what is put in its place, the pass
loses that number with every item. -/
theorem count_withItems {put' : Item → Bytes} {byte : UInt8} {lost : Nat}
    (each : ∀ item ∈ division.items, (put item).count byte = (put' item).count byte + lost) :
    (division.withItems put).count byte =
      (division.withItems put').count byte + division.items.length * lost := by
  induction division with
  | last plain => simp [withItems, items]
  | next plain item later ih =>
    have here := each item List.mem_cons_self
    have others := ih fun other member => each other (List.mem_cons_of_mem _ member)
    simp only [withItems, items, List.count_append, List.length_cons, Nat.add_mul, Nat.one_mul]
    omega

/-- Where a content has no items, none stands in it. -/
theorem IsOf.absent (isOf : division.IsOf markup content) (none : division.items = []) :
    markup.Absent content [] := by
  obtain ⟨rfl, exact⟩ := isOf
  cases division with
  | last plain => exact exact
  | next plain item later => cases none

section Append

def prepend (front : Bytes) : Division Item → Division Item
  | .last plain => .last (front ++ plain)
  | .next plain item later => .next (front ++ plain) item later

/-- One division behind another, so that the last part of the one and the first part of the other
become one part. -/
def append : Division Item → Division Item → Division Item
  | .last plain, other => other.prepend plain
  | .next plain item later, other => .next plain item (later.append other)

theorem nil_append (division : Division Item) : (last []).append division = division := by
  cases division with
  | last plain => rfl
  | next plain item later => rfl

theorem cons_append (first : UInt8) (division other : Division Item) :
    (division.cons first).append other = (division.append other).cons first := by
  cases division with
  | last plain =>
    cases other with
    | last plain' => rfl
    | next plain' item later => rfl
  | next plain item later => rfl

@[simp] theorem withItems_append (put : Item → Bytes) (division other : Division Item) :
    (division.append other).withItems put = division.withItems put ++ other.withItems put := by
  induction division using bytewise with
  | nil => rw [nil_append]; rfl
  | copied first division ih => rw [cons_append, withItems_cons, withItems_cons, ih, List.cons_append]
  | replaced item division ih => exact (congrArg (put item ++ ·) ih).trans (List.append_assoc ..).symm

@[simp] theorem items_cons (first : UInt8) (division : Division Item) :
    (division.cons first).items = division.items := by
  cases division with
  | last plain => rfl
  | next plain item later => rfl

@[simp] theorem items_append (division other : Division Item) :
    (division.append other).items = division.items ++ other.items := by
  induction division using bytewise with
  | nil => rw [nil_append]; rfl
  | copied first division ih => rw [cons_append, items_cons, items_cons, ih]
  | replaced item division ih => exact congrArg (item :: ·) ih

theorem Exact.of_append (exact : (division.append other).Exact markup) : other.Exact markup := by
  induction division using bytewise with
  | nil => rwa [nil_append] at exact
  | copied first division ih =>
    rw [cons_append] at exact
    exact ih (exact_cons_iff.mp exact).2
  | replaced item division ih => exact ih (exact_next_nil_iff.mp exact).2

/-- A byte that is put in the place of no item comes from a part of the content. -/
theorem exists_append_cons {byte : UInt8} {before after : Bytes}
    (fresh : ∀ item ∈ division.items, byte ∉ put item)
    (parts : division.withItems put = before ++ byte :: after) :
    ∃ front back : Division Item, division = front.append (back.cons byte) ∧
      front.withItems put = before ∧ back.withItems put = after := by
  induction division using bytewise generalizing before with
  | nil => exact absurd parts.symm (List.append_ne_nil_of_right_ne_nil _ (List.cons_ne_nil _ _))
  | copied first division ih =>
    rw [withItems_cons] at parts
    cases before with
    | nil =>
      obtain ⟨rfl, rfl⟩ := List.cons.inj parts
      exact ⟨.last [], division, (nil_append _).symm, rfl, rfl⟩
    | cons head before =>
      obtain ⟨rfl, later⟩ := List.cons.inj parts
      rw [items_cons] at fresh
      obtain ⟨front, back, rfl, rfl, rfl⟩ := ih fresh later
      exact ⟨front.cons first, back, (cons_append ..).symm, withItems_cons .., rfl⟩
  | replaced item division ih =>
    have here := fresh item List.mem_cons_self
    have others : ∀ other ∈ division.items, byte ∉ put other :=
      fun other member => fresh other (List.mem_cons_of_mem _ member)
    have behind {before : Bytes} (later : division.withItems put = before ++ byte :: after) :
        ∃ front back : Division Item, next [] item division = front.append (back.cons byte) ∧
          front.withItems put = put item ++ before ∧ back.withItems put = after := by
      obtain ⟨front, back, rfl, rfl, rfl⟩ := ih others later
      exact ⟨.next [] item front, back, rfl, rfl, rfl⟩
    have parts : put item ++ division.withItems put = before ++ byte :: after := parts
    rcases List.append_eq_append_iff.mp parts with ⟨more, rfl, later⟩ | ⟨more, text, later⟩
    · exact behind later
    · cases more with
      | nil =>
        rw [List.append_nil] at text
        have later : division.withItems put = [] ++ byte :: after := later.symm
        rw [← text, ← List.append_nil (put item)]
        exact behind later
      | cons head more =>
        have inside : byte ∈ put item := by simp [text, (List.cons.inj later).1]
        exact absurd inside here

end Append

end Division

end ConfigHeader.Template
