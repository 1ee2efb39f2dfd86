import ConfigHeader.Template.Layout
import Mathlib.Data.List.DropRight
import Mathlib.Data.List.TakeWhile

/-! Longest runs at the front and at the end of a list. A run ends where its test first fails, so
what is put together from a run and a rest is taken apart in the same place. -/
namespace ConfigHeader

section Front

variable {α : Type} {test : α → Bool} {run rest : List α}

theorem takeWhile_run (inside : ∀ item ∈ run, test item = true)
    (stop : ∀ item ∈ rest.head?, test item = false) : (run ++ rest).takeWhile test = run := by
  rw [List.takeWhile_append_of_pos inside]
  cases rest with
  | nil => simp
  | cons item rest => simp [stop item (by simp)]

theorem dropWhile_run (inside : ∀ item ∈ run, test item = true)
    (stop : ∀ item ∈ rest.head?, test item = false) : (run ++ rest).dropWhile test = rest := by
  rw [List.dropWhile_append_of_pos inside]
  cases rest with
  | nil => simp
  | cons item rest => simp [stop item (by simp)]

theorem head?_dropWhile {items : List α} {item : α}
    (first : item ∈ (items.dropWhile test).head?) : test item = false := by
  have stopped := List.head?_dropWhile_not test items
  rw [Option.mem_def.mp first] at stopped
  simpa using stopped

theorem not_mem_run {item : α} (inside : ∀ item ∈ run, test item = true)
    (fails : test item = false) : item ∉ run := by
  intro member
  rw [inside item member] at fails
  cases fails

end Front

namespace Template

variable {test : UInt8 → Bool} {content : Bytes}

theorem dropTrailing_eq_nil_iff :
    dropTrailing test content = [] ↔ ∀ byte ∈ content, test byte = true :=
  List.rdropWhile_eq_nil_iff

theorem dropTrailing_append (first second : Bytes) :
    dropTrailing test (first ++ second) =
      if second.all test then dropTrailing test first else first ++ dropTrailing test second := by
  have empty : (second.reverse.dropWhile test).isEmpty = second.all test := by
    rw [Bool.eq_iff_iff, List.isEmpty_iff, List.dropWhile_eq_nil_iff]
    simp
  unfold dropTrailing
  rw [List.reverse_append, List.dropWhile_append, empty]
  split
  · rfl
  · simp

/-- A content is what remains of it and a run that passes the test. -/
theorem dropTrailing_parts (test : UInt8 → Bool) (content : Bytes) :
    ∃ dropped, content = dropTrailing test content ++ dropped ∧
      ∀ byte ∈ dropped, test byte = true :=
  ⟨content.rtakeWhile test, List.rdropWhile_append_rtakeWhile.symm,
    fun _ member => List.mem_rtakeWhile_imp member⟩

/-- The last byte that remains fails the test. -/
theorem getLast?_dropTrailing {byte : UInt8}
    (last : byte ∈ (dropTrailing test content).getLast?) : test byte = false := by
  rw [dropTrailing, List.getLast?_reverse] at last
  exact head?_dropWhile last

/-- What stands behind a byte that fails the test is dropped, if it passes the test. -/
theorem dropTrailing_append_run {run : Bytes}
    (stop : ∀ byte ∈ content.getLast?, test byte = false)
    (inside : ∀ byte ∈ run, test byte = true) : dropTrailing test (content ++ run) = content := by
  have whole : content.reverse.dropWhile test = content.reverse :=
    @dropWhile_run _ test [] _ (by simp) (by simpa [List.head?_reverse] using stop)
  rw [dropTrailing_append, if_pos (by simpa using inside), dropTrailing, whole, List.reverse_reverse]

theorem dropTrailing_append_cons {byte : UInt8} (stop : test byte = false) (first rest : Bytes) :
    dropTrailing test (first ++ byte :: rest) = first ++ byte :: dropTrailing test rest := by
  have kept : dropTrailing test (first ++ [byte]) = first ++ [byte] := by
    simpa using @dropTrailing_append_run test (first ++ [byte]) [] (by simpa using stop) (by simp)
  rw [List.append_cons, dropTrailing_append]
  split
  · rename_i dropped
    have empty : dropTrailing test rest = [] :=
      dropTrailing_eq_nil_iff.mpr (List.all_eq_true.mp dropped)
    rw [kept, empty]
  · exact List.append_assoc first [byte] _

end Template

end ConfigHeader
