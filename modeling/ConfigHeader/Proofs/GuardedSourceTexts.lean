import ConfigHeader.Guard
import ConfigHeader.Proofs.Runs

namespace ConfigHeader

section Cut

variable {mark : Char} {chars front rest : List Char}

theorem cutAt?_append (free : mark ∉ front) :
    cutAt? mark (front ++ mark :: rest) = some (front, rest) := by
  have inside : ∀ char ∈ front, (char != mark) = true := by
    intro char member
    exact bne_iff_ne.mpr fun same => free (same ▸ member)
  have stop : ∀ char ∈ (mark :: rest).head?, (char != mark) = false := by simp
  rw [cutAt?, dropWhile_run inside stop, takeWhile_run inside stop]

theorem cutAt?_of_absent (absent : mark ∉ chars) : cutAt? mark chars = none := by
  have inside : ∀ char ∈ chars, (char != mark) = true := by
    intro char member
    exact bne_iff_ne.mpr fun same => absent (same ▸ member)
  rw [cutAt?, List.dropWhile_eq_nil_iff.mpr inside]

/-- A cut is made at the first mark. -/
theorem cutAt?_eq_some_iff :
    cutAt? mark chars = some (front, rest) ↔ chars = front ++ mark :: rest ∧ mark ∉ front := by
  constructor
  · intro cut
    by_cases present : mark ∈ chars
    · obtain ⟨before, after, rfl, free⟩ := List.eq_append_cons_of_mem present
      rw [cutAt?_append free] at cut
      cases cut
      exact ⟨rfl, free⟩
    · rw [cutAt?_of_absent present] at cut
      cases cut
  · rintro ⟨rfl, free⟩
    exact cutAt?_append free

end Cut

namespace GuardedSource

variable {source other : GuardedSource} {text : String}

/-- No part is empty, and an equals sign is at most in the last one. -/
structure Writable (source : GuardedSource) : Prop where
  input_filled : source.input.text ≠ ""
  define_filled : source.define ≠ ""
  output_filled : source.output.text ≠ ""
  input_free : '=' ∉ source.input.text.toList
  define_free : '=' ∉ source.define.toList

theorem toList_text (source : GuardedSource) :
    source.text.toList =
      source.input.text.toList ++
        '=' :: (source.define.toList ++ '=' :: source.output.text.toList) := by
  simp [GuardedSource.text]

theorem ofText?_text (writable : source.Writable) : ofText? source.text = some source := by
  obtain ⟨input, define, output, inputFree, defineFree⟩ := writable
  simp [ofText?, toList_text, cutAt?_append inputFree, cutAt?_append defineFree, input, define,
    output]

theorem writable_of_ofText? (read : ofText? text = some source) :
    source.Writable ∧ source.text = text := by
  simp only [ofText?, Option.bind_eq_bind, Option.bind_eq_some_iff] at read
  obtain ⟨⟨input, rest⟩, first, ⟨define, output⟩, second, made⟩ := read
  obtain ⟨parts, inputFree⟩ := cutAt?_eq_some_iff.mp first
  obtain ⟨rfl, defineFree⟩ := cutAt?_eq_some_iff.mp second
  split at made
  · cases made
  · rename_i filled
    cases made
    simp only [Bool.or_eq_true, List.isEmpty_iff, not_or] at filled
    obtain ⟨⟨inputFilled, defineFilled⟩, outputFilled⟩ := filled
    constructor
    · constructor <;> simpa
    · apply String.toList_inj.mp
      rw [toList_text, parts]
      simp

theorem ofText?_eq_some_iff :
    ofText? text = some source ↔ source.Writable ∧ source.text = text := by
  constructor
  · exact writable_of_ofText?
  · rintro ⟨writable, rfl⟩
    exact ofText?_text writable

theorem Writable.text_inj (writable : source.Writable) (writable' : other.Writable)
    (same : source.text = other.text) : source = other := by
  have read := ofText?_text writable'
  rw [← same, ofText?_text writable] at read
  exact Option.some.inj read

/-- A text gives exactly the source with fitting parts that it writes out, of which there is at most
one. Where there is none the text is refused, and the refusal quotes it. -/
theorem ofText_by_parts (text : String) :
    (∀ source, ofText text = .ok source ↔ source.Writable ∧ source.text = text) ∧
    (∀ source other : GuardedSource, source.Writable → other.Writable →
      source.text = text → other.text = text → source = other) ∧
    (∀ misuse, ofText text = .error misuse ↔
      (¬ ∃ source : GuardedSource, source.Writable ∧ source.text = text) ∧
        misuse = .badSource text) ∧
    (Fault.invalidArguments (.badSource text)).report.message =
      "--src value must be of the form <in>=<DEFINE>=<out>, got: " ++ text := by
  have written := @ofText?_eq_some_iff
  refine ⟨?_, ?_, ?_, rfl⟩
  · intro source
    rw [← written, ofText]
    cases ofText? text <;> simp
  · intro source other writable writable' same same'
    exact writable.text_inj writable' (same.trans same'.symm)
  · intro misuse
    simp only [← written, ofText]
    cases ofText? text <;> simp [eq_comm]

theorem ofText_by_parts_of_equals_in_output :
    (⟨⟨"a"⟩, "B", ⟨"=c=d"⟩⟩ : GuardedSource).Writable ∧
      ofText "a=B==c=d" = .ok ⟨⟨"a"⟩, "B", ⟨"=c=d"⟩⟩ := by
  have writable : (⟨⟨"a"⟩, "B", ⟨"=c=d"⟩⟩ : GuardedSource).Writable := by
    constructor <;> decide
  obtain ⟨accepted, -⟩ := ofText_by_parts "a=B==c=d"
  exact ⟨writable, (accepted _).mpr ⟨writable, rfl⟩⟩

end GuardedSource

end ConfigHeader
