import ConfigHeader.CommandLine.Run
import ConfigHeader.Proofs.KeyMapLookup

namespace ConfigHeader

namespace Path

variable {base path : Path}

theorem isAbsolute_iff : path.isAbsolute = true ↔ path.text.toList.head? = some '/' := by
  simp [isAbsolute]

theorem join_of_isAbsolute (absolute : path.isAbsolute = true) : base.join path = path := by
  simp [join, absolute]

/-- From an absolute base every path is absolute. -/
theorem isAbsolute_join (absolute : base.isAbsolute = true) (path : Path) :
    (base.join path).isAbsolute = true := by
  by_cases free : path.isAbsolute = true
  · rwa [join_of_isAbsolute free]
  · rw [isAbsolute_iff] at absolute
    have filled : base.text ≠ "" := by
      intro empty
      simp [empty] at absolute
    rw [isAbsolute_iff]
    unfold join
    split
    · simp_all
    · split <;> simp [List.head?_append, absolute]

/-- A path without a slash is that of a file in the working directory. -/
theorem parent?_of_bare (bare : '/' ∉ path.text.toList) :
    path.parent? = none ∨ path.parent? = some ⟨""⟩ := by
  have relative : path.isAbsolute = false := by
    rw [← Bool.not_eq_true, isAbsolute_iff]
    exact fun first => bare (List.mem_of_mem_head? first)
  have pieces : path.pieces = [path.text] := by
    simp [Path.pieces, List.splitOn_eq_singleton bare]
  by_cases empty : path.text = ""
  · simp [parent?, body, dropIdle, isIdle, pieces, relative, empty]
  · by_cases here : path.text = "."
    · simp [parent?, body, dropIdle, pieces, relative, here]
    · simp [parent?, body, dropIdle, isIdle, withBody, pieces, relative, empty, here]

end Path

namespace Manifest

variable {base : Path}

theorem merge_assoc (first second third : Manifest) :
    (first.merge second).merge third = first.merge (second.merge third) := by
  simp only [merge, List.append_assoc, KeyMap.override_assoc, Option.orElse_eq_orElse,
    Option.orElse_eq_or, Option.or_assoc]

theorem empty_merge (manifest : Manifest) : ({} : Manifest).merge manifest = manifest := by
  simp only [merge, List.nil_append, KeyMap.empty_override, Option.orElse_eq_orElse,
    Option.orElse_eq_or, Option.or_none]

theorem merge_empty (manifest : Manifest) : manifest.merge {} = manifest := by
  simp only [merge, List.append_nil, KeyMap.override_empty, Option.orElse_eq_orElse,
    Option.orElse_eq_or, Option.none_or]

instance : Std.Associative merge := ⟨merge_assoc⟩

instance : Std.LawfulIdentity merge {} where
  left_id := empty_merge
  right_id := merge_empty

/-- Some manifests, each one over those before it. -/
def layered (layers : List Manifest) : Manifest :=
  layers.foldl merge {}

theorem layered_append (lower upper : List Manifest) :
    layered (lower ++ upper) = (layered lower).merge (layered upper) := by
  have above :
      (layered lower).merge (layered upper) = upper.foldl merge ((layered lower).merge {}) :=
    List.foldl_assoc.symm
  rw [above, merge_empty, layered, List.foldl_append, ← layered]

/-- Layers may be merged in any groups. -/
theorem layered_groups (groups : List (List Manifest)) :
    layered (groups.map layered) = layered groups.flatten := by
  induction groups with
  | nil => rfl
  | cons group groups ih =>
    have alone : layered [layered group] = layered group := empty_merge _
    rw [List.map_cons, List.flatten_cons, layered_append, ← ih, ← List.singleton_append,
      layered_append, alone]

theorem seenFrom_merge (base : Path) (first second : Manifest) :
    (first.merge second).seenFrom base = (first.seenFrom base).merge (second.seenFrom base) := by
  simp only [merge, seenFrom, List.map_append, KeyMap.mapValues_override, Option.orElse_eq_orElse,
    Option.orElse_eq_or, Option.map_or]

/-- The paths that a manifest names. -/
def paths (manifest : Manifest) : List Path :=
  manifest.cacheResults ++ manifest.defineResults ++ manifest.substResults ++
    manifest.template.toList ++ manifest.output.toList ++ manifest.inlines.entries.map Prod.snd

theorem paths_seenFrom (base : Path) (manifest : Manifest) :
    (manifest.seenFrom base).paths = manifest.paths.map base.join := by
  simp [paths, seenFrom, KeyMap.mapValues, Option.toList_map]

theorem isAbsolute_of_mem_paths_seenFrom (absolute : base.isAbsolute = true) (manifest : Manifest) :
    ∀ path ∈ (manifest.seenFrom base).paths, path.isAbsolute = true := by
  rw [paths_seenFrom]
  intro path member
  obtain ⟨relative, -, rfl⟩ := List.mem_map.mp member
  exact Path.isAbsolute_join absolute relative

/-- Absolute paths are the same from every base. -/
theorem seenFrom_of_absolute {manifest : Manifest}
    (absolute : ∀ path ∈ manifest.paths, path.isAbsolute = true) (base : Path) :
    manifest.seenFrom base = manifest := by
  have fixed : ∀ path ∈ manifest.paths, base.join path = path :=
    fun path member => Path.join_of_isAbsolute (absolute path member)
  simp only [paths, List.forall_mem_append] at fixed
  obtain ⟨⟨⟨⟨⟨cache, define⟩, subst⟩, template⟩, output⟩, inlines⟩ := fixed
  have list {paths : List Path} (same : ∀ path ∈ paths, base.join path = path) :
      paths.map base.join = paths :=
    (List.map_congr_left same).trans (List.map_id paths)
  have option {path? : Option Path} (same : ∀ path ∈ path?.toList, base.join path = path) :
      path?.map base.join = path? := by
    cases path? with
    | none => rfl
    | some path => exact congrArg some (same path (by simp))
  have values : manifest.inlines.mapValues base.join = manifest.inlines :=
    KeyMap.mapValues_eq_self fun entry member => inlines _ (List.mem_map_of_mem member)
  simp only [seenFrom, list cache, list define, list subst, option template, option output, values]

theorem seenFrom_seenFrom (absolute : base.isAbsolute = true) (manifest : Manifest) :
    (manifest.seenFrom base).seenFrom base = manifest.seenFrom base :=
  seenFrom_of_absolute (isAbsolute_of_mem_paths_seenFrom absolute manifest) base

section Loading

variable {tree : FileTree} {path : Path} {text : String} {manifest : Manifest}

/-- The paths of a manifest that is named without a slash stay as they are written. -/
theorem load_of_bare (bare : '/' ∉ path.text.toList) (read : tree.inputText path = .ok text)
    (parsed : ofText? text = some manifest) : load tree path = .ok manifest := by
  rw [load, read]
  simp only [bind, Except.bind, parsed]
  rcases Path.parent?_of_bare bare with alone | here
  · rw [alone]
  · rw [here]
    rfl

open CommandLine in
theorem headerOf_of_bare (bare : '/' ∉ path.text.toList) (read : tree.inputText path = .ok text)
    (parsed : ofText? text = some manifest) (given : Manifest) :
    headerOf (some path) given tree = headerOf none (manifest.merge given) tree := by
  simp only [headerOf, load_of_bare bare read parsed, bind, Except.bind, empty_merge]

end Loading

open CommandLine in
/-- Merging is associative and the empty manifest is neutral, so that layers may be merged in any
groups, and a run given partly by a manifest whose path has no slash is the one that is given by all
layers on the command line (`./m.toml` would add its `./` to the paths in it). A base may be added
before or after merging, and an absolute one makes every path absolute and changes nothing when it is
added again. -/
theorem merge_in_any_grouping (first second third : Manifest) (groups : List (List Manifest))
    (base : Path) :
    (first.merge second).merge third = first.merge (second.merge third) ∧
    ({} : Manifest).merge first = first ∧ first.merge {} = first ∧
    layered (groups.map layered) = layered groups.flatten ∧
    (∀ (tree : FileTree) (path : Path) (text : String) (lower upper : List Manifest),
      '/' ∉ path.text.toList → tree.inputText path = .ok text →
      ofText? text = some (layered lower) →
        headerOf (some path) (layered upper) tree = headerOf none (layered (lower ++ upper)) tree) ∧
    (first.merge second).seenFrom base = (first.seenFrom base).merge (second.seenFrom base) ∧
    (base.isAbsolute = true →
      (∀ path ∈ (first.seenFrom base).paths, path.isAbsolute = true) ∧
        (first.seenFrom base).seenFrom base = first.seenFrom base) := by
  refine ⟨merge_assoc first second third, empty_merge first, merge_empty first,
    layered_groups groups, ?_, seenFrom_merge base first second, ?_⟩
  · intro tree path text lower upper bare read parsed
    rw [layered_append]
    exact headerOf_of_bare bare read parsed (layered upper)
  · intro absolute
    exact ⟨isAbsolute_of_mem_paths_seenFrom absolute first, seenFrom_seenFrom absolute first⟩

/-- A manifest for the output in the working directory. -/
def outputManifest : FileTree where
  workingDirectory := ["home"]
  nodes :=
    [(["home", "m.toml"], .file (textBytes "output = \"o.h\"\n")), (["home"], .directory)]

open CommandLine in
theorem merge_in_any_grouping_of_output_and_template :
    outputManifest.inputText ⟨"m.toml"⟩ = .ok "output = \"o.h\"\n" ∧
    headerOf (some ⟨"m.toml"⟩) { template := some ⟨"t.h"⟩ } outputManifest =
      headerOf none { output := some ⟨"o.h"⟩, template := some ⟨"t.h"⟩ } outputManifest ∧
    (({ output := some ⟨"o.h"⟩ } : Manifest).seenFrom ⟨"/b"⟩).seenFrom ⟨"/b"⟩ =
      { output := some ⟨"/b/o.h"⟩ } := by
  have read : outputManifest.inputText ⟨"m.toml"⟩ = .ok "output = \"o.h\"\n" := by decide +kernel
  have parsed : ofText? "output = \"o.h\"\n" = some { output := some ⟨"o.h"⟩ } := by rfl
  obtain ⟨-, -, -, -, invocations, -, absolute⟩ :=
    merge_in_any_grouping { output := some ⟨"o.h"⟩ } {} {} [] ⟨"/b"⟩
  have same := invocations outputManifest ⟨"m.toml"⟩ _ [{ output := some ⟨"o.h"⟩ }]
    [{ template := some ⟨"t.h"⟩ }] (by decide) read parsed
  exact ⟨read, same, (absolute rfl).2⟩

end Manifest

end ConfigHeader
