import ConfigHeader.Header
import ConfigHeader.Proofs.Catalog.FindingsOrder
import ConfigHeader.Proofs.Template.InlinedFiles

namespace ConfigHeader

/-- If every file that is asked for can be read, a template is rendered. -/
theorem Template.exists_render {FileFault : Type} {read : Path → Except FileFault Bytes}
    {replacements : Replacements}
    (readable : ∀ search path, (search, path) ∈ replacements.inlines.entries → search ≠ "" →
      ∃ content, read path = .ok content)
    (findings : Findings) (mode : Mode) (template : Bytes) :
    ∃ content, render read findings mode replacements template = .ok content := by
  have inlined := inlineFiles_of_available (fun entry => readable entry.1 entry.2)
    (substituteTexts replacements.substitutions template)
  rw [render, inlined]
  exact ⟨_, rfl⟩

namespace Header

variable {tree : FileTree} {header : Header} {findings : Findings} {template : Bytes}

/-- Once the files are merged and the template is read, only the inlined files can be at fault. -/
theorem render_of_merged (merged : Findings.merge tree.inputChecks header.sources = .ok findings)
    (found : tree.inputBytes header.template = .ok template) :
    header.render tree =
      (Template.render tree.contentOf findings header.mode header.replacements template).mapError
        fun failure => .inlineUnreadable failure.search failure.path failure.fault := by
  rw [render, merged, found]
  rfl

/-- If definitions that agree are written alike, the order of the files counts for nothing: either
they are in conflict in every order, or every order gives one header and one line for each
definition, by the names of the definitions. -/
theorem same_header_in_any_order (tree : FileTree) (header : Header)
    (loads : header.sources.Loads tree.inputChecks)
    (uniform : header.sources.UniformDefinitions tree.inputChecks)
    (template : ∃ content, tree.inputBytes header.template = .ok content)
    (inlines : ∀ search path, (search, path) ∈ header.replacements.inlines.entries → search ≠ "" →
      ∃ content, tree.contentOf path = .ok content) :
    (∀ permuted, header.sources.Perm permuted → ∃ conflict,
      Findings.merge tree.inputChecks permuted = .error (.conflictingResults conflict)) ∨
    ∃ (content : Bytes) (answers : List (String × Bool)),
      (answers.Pairwise fun left right => textBytes left.1 < textBytes right.1) ∧
      (∀ key success, (key, success) ∈ answers ↔
        ∃ record ∈ Catalog.recordsOf tree.inputChecks header.sources.define,
          record.check.definedName = key ∧ record.check.success = success) ∧
      ∀ permuted, header.sources.Perm permuted → ∃ findings,
        Findings.merge tree.inputChecks permuted = .ok findings ∧
        findings.checkLines = answers.map (fun (key, success) => Findings.checkLine key success) ∧
        { header with sources := permuted }.render tree = .ok content := by
  rcases Findings.merge_perm loads uniform with conflicts | ⟨findings, merged, answered, alike⟩
  · exact .inl conflicts
  · obtain ⟨text, read⟩ := template
    obtain ⟨content, rendered⟩ := Template.exists_render inlines findings header.mode text
    refine .inr ⟨content, findings.answers.entries, ?_, fun key success => ?_, ?_⟩
    · simp only [textBytes_lt_iff]
      exact findings.answers.sorted
    · rw [KeyMap.mem_entries_iff, Findings.find?_answers]
      exact answered key success
    · intro permuted perm
      obtain ⟨other, mergedOther, same⟩ := alike permuted perm
      refine ⟨other, mergedOther, ?_, ?_⟩
      · rw [Findings.checkLines_eq, same.answers]
      · have permutedMerged : Findings.merge tree.inputChecks
          { header with sources := permuted }.sources = .ok other := mergedOther
        rw [render_of_merged permutedMerged read, ← same.render, rendered]
        rfl

/-- Two results files that agree about `A`, one under a name of its own, and a template. -/
def agreeingFiles : FileTree where
  workingDirectory := []
  nodes :=
    [(["a.json"], .file (textBytes "\x7b\"A\":\x7b\"success\":true,\"value\":1\x7d\x7d")),
      (["b.json"], .file (textBytes
        "\x7b\"B\":\x7b\"success\":true,\"define\":\"A\",\"value\":1\x7d\x7d")),
      (["a.h.in"], .file (textBytes "#undef A\n@B@\n"))]

/-- The header of both files. -/
def ofAgreeingFiles : Header where
  sources := { define := [⟨"a.json"⟩, ⟨"b.json"⟩], subst := [⟨"b.json"⟩, ⟨"a.json"⟩] }
  template := ⟨"a.h.in"⟩
  output := ⟨"a.h"⟩
  mode := .all

theorem same_header_of_agreeing_files :
    ofAgreeingFiles.render agreeingFiles = .ok (textBytes "#define A 1\n1\n") ∧
      { ofAgreeingFiles with
        sources := { define := [⟨"b.json"⟩, ⟨"a.json"⟩], subst := [⟨"a.json"⟩, ⟨"b.json"⟩] } }.render
          agreeingFiles = .ok (textBytes "#define A 1\n1\n") := by
  have computed : ofAgreeingFiles.render agreeingFiles = .ok (textBytes "#define A 1\n1\n") := by
    decide +kernel
  have first : agreeingFiles.inputChecks ⟨"a.json"⟩ =
      .ok [⟨"A", none, none, some "1", true, false, false, .define, false⟩] := rfl
  have second : agreeingFiles.inputChecks ⟨"b.json"⟩ =
      .ok [⟨"B", some "A", none, some "1", true, true, false, .define, false⟩] := rfl
  have loads : ofAgreeingFiles.sources.Loads agreeingFiles.inputChecks := by
    simp [Sources.Loads, ofAgreeingFiles, first, second]
  have define : Catalog.recordsOf agreeingFiles.inputChecks ofAgreeingFiles.sources.define =
      [⟨⟨"A", none, none, some "1", true, false, false, .define, false⟩, ⟨"a.json"⟩⟩,
        ⟨⟨"B", some "A", none, some "1", true, true, false, .define, false⟩, ⟨"b.json"⟩⟩] := by
    simp [Catalog.recordsOf, ofAgreeingFiles, first, second, Except.toOption]
  have uniform : ofAgreeingFiles.sources.UniformDefinitions agreeingFiles.inputChecks := by
    simp [Sources.UniformDefinitions, define]
  have inlines : ∀ search path,
      (search, path) ∈ ofAgreeingFiles.replacements.inlines.entries → search ≠ "" →
        ∃ content, agreeingFiles.contentOf path = .ok content := by
    intro search path member
    cases member
  rcases same_header_in_any_order agreeingFiles ofAgreeingFiles loads uniform ⟨_, rfl⟩ inlines with
    conflicts | ⟨content, answers, -, -, same⟩
  · obtain ⟨conflict, refused⟩ := conflicts _ (Sources.Perm.refl _)
    rw [render, refused] at computed
    cases computed
  · obtain ⟨-, -, -, rendered⟩ := same _ (Sources.Perm.refl _)
    obtain ⟨-, -, -, permuted⟩ := same
      { define := [⟨"b.json"⟩, ⟨"a.json"⟩], subst := [⟨"a.json"⟩, ⟨"b.json"⟩] }
      ⟨.refl _, .swap _ _ _, .swap _ _ _⟩
    exact ⟨computed, permuted.trans (rendered.symm.trans computed)⟩

end Header

end ConfigHeader
