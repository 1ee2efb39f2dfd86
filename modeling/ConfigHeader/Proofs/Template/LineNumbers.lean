import ConfigHeader.Proofs.Template.Idempotence

namespace ConfigHeader

namespace Bytes

variable {pass step : Bytes → Bytes} {content line head rest : Bytes} {number : Nat}

/-- The lines of a content. The last one is what stands behind the last newline. -/
def lines (content : Bytes) : List Bytes :=
  content.splitOn Byte.newline

/-- The content has a line of this number that ends with a newline. -/
def EndedLine (content : Bytes) (number : Nat) (line : Bytes) : Prop :=
  content.lines[number]? = some line ∧ number + 1 < content.lines.length

instance : Decidable (content.EndedLine number line) :=
  inferInstanceAs (Decidable (_ ∧ _))

theorem lines_rest (inside : Byte.newline ∉ rest) : rest.lines = [rest] :=
  List.splitOn_eq_singleton inside

theorem lines_line (inside : Byte.newline ∉ line) (rest : Bytes) :
    lines (line ++ Byte.newline :: rest) = line :: rest.lines :=
  List.splitOn_append_cons_self_of_not_mem inside rest

theorem not_endedLine_rest (inside : Byte.newline ∉ rest) : ¬ rest.EndedLine number line := by
  rintro ⟨-, ended⟩
  rw [lines_rest inside] at ended
  simp at ended

theorem endedLine_zero (inside : Byte.newline ∉ head)
    (ended : EndedLine (head ++ Byte.newline :: rest) 0 line) : line = head := by
  obtain ⟨found, -⟩ := ended
  rw [lines_line inside] at found
  exact (Option.some.inj found).symm

theorem endedLine_succ (inside : Byte.newline ∉ head)
    (ended : EndedLine (head ++ Byte.newline :: rest) (number + 1) line) :
    rest.EndedLine number line := by
  obtain ⟨found, later⟩ := ended
  rw [lines_line inside] at found later
  exact ⟨found, Nat.lt_of_succ_lt_succ later⟩

theorem EndedLine.hollow (ended : content.EndedLine number line) (hollow : content.Hollow) :
    line.Hollow := by
  induction content using lineInduction generalizing number with
  | rest rest inside => exact absurd ended (not_endedLine_rest inside)
  | line head rest inside ih =>
    obtain ⟨first, later⟩ := hollow_append.mp hollow
    cases number with
    | zero => rwa [endedLine_zero inside ended]
    | succ number => exact ih (endedLine_succ inside ended) (hollow_newline_cons.mp later)

/-- A line keeps its number where every line is made of one line. -/
theorem Linewise.line_of_ended (linewise : Linewise pass step)
    (ended : content.EndedLine number line) : (pass content).lines[number]? = some (step line) := by
  induction content using lineInduction generalizing number with
  | rest rest inside => exact absurd ended (not_endedLine_rest inside)
  | line head rest inside ih =>
    rw [linewise.line head rest inside, lines_line (linewise.step head inside)]
    cases number with
    | zero => rw [endedLine_zero inside ended, List.getElem?_cons_zero]
    | succ number => exact ih (endedLine_succ inside ended)

end Bytes

namespace Template

open Bytes

variable {actions : KeyMap Action} {content line text : Bytes} {number : Nat}

/-- Where the last lines are dropped if they are blank, the others keep their numbers. -/
theorem finishedOpen_line_of_ended (defining : Defining actions)
    (ended : content.EndedLine number line) (solid : ¬ line.Hollow) :
    (finishedOpen actions content).lines[number]? = some (finishedLine actions line) := by
  induction content using lineInduction generalizing number with
  | rest rest inside => exact absurd ended (not_endedLine_rest inside)
  | line head rest inside ih =>
    have fresh := (finished_linewise defining).step head inside
    cases number with
    | zero =>
      rw [endedLine_zero inside ended]
      by_cases hollow : rest.Hollow
      · rw [finishedOpen_line_of_hollow defining inside hollow, lines_rest fresh]
        rfl
      · rw [finishedOpen_line defining inside hollow, lines_line fresh]
        rfl
    | succ number =>
      have later := endedLine_succ inside ended
      have filled : ¬ rest.Hollow := fun hollow => solid (later.hollow hollow)
      rw [finishedOpen_line defining inside filled, lines_line fresh]
      exact ih later

/-- A line that holds more than blanks is finished by itself and keeps its number. -/
theorem render_defines_line {FileFault : Type} {read : Path → Except FileFault Bytes}
    {findings : Findings} (defining : Defining (Lookup.ofFindings findings).undefActions)
    (ended : content.EndedLine number line) (solid : ¬ line.Hollow)
    (rendered : render read findings .defines {} content = .ok text) :
    text.lines[number]? = some (finishedLine (Lookup.ofFindings findings).undefActions line) := by
  cases ends : content.endsWithNewline with
  | true =>
    rw [render_defines_of_closed findings (.inr ends)] at rendered
    rw [← Except.ok.inj rendered]
    exact (finished_linewise defining).line_of_ended ended
  | false =>
    rw [render_defines_of_open findings ends] at rendered
    rw [← Except.ok.inj rendered]
    exact finishedOpen_line_of_ended defining ended solid

end Template

end ConfigHeader
