import ConfigHeader.FileTree.Exchange
import ConfigHeader.Template.Mode
import ConfigHeader.Toml.Reader

/-! Manifests: a run written down in a file. Its relative paths count from the directory of the
file, and what is given on the command line is merged over it. -/
namespace ConfigHeader

/-- What a run is made of, as far as it is given. -/
structure Manifest where
  cacheResults : List Path := []
  defineResults : List Path := []
  substResults : List Path := []
  template : Option Path := none
  output : Option Path := none
  mode : Option Mode := none
  inlines : KeyMap Path := ∅
  substitutions : KeyMap String := ∅

namespace Manifest

/-- The manifest with another one over it. Lists are joined, single values of the other one win,
and so do its entries under the same key. -/
def merge (manifest other : Manifest) : Manifest where
  cacheResults := manifest.cacheResults ++ other.cacheResults
  defineResults := manifest.defineResults ++ other.defineResults
  substResults := manifest.substResults ++ other.substResults
  template := other.template <|> manifest.template
  output := other.output <|> manifest.output
  mode := other.mode <|> manifest.mode
  inlines := manifest.inlines.override other.inlines
  substitutions := manifest.substitutions.override other.substitutions

/-- The manifest with its paths seen from a base. -/
def seenFrom (base : Path) (manifest : Manifest) : Manifest :=
  { manifest with
    cacheResults := manifest.cacheResults.map base.join
    defineResults := manifest.defineResults.map base.join
    substResults := manifest.substResults.map base.join
    template := manifest.template.map base.join
    output := manifest.output.map base.join
    inlines := manifest.inlines.mapValues base.join }

def text? : Toml → Option String
  | .string value => some value
  | _ => none

def path? (value : Toml) : Option Path :=
  (text? value).map Path.mk

def paths? : Toml → Option (List Path)
  | .array items => items.mapM path?
  | _ => none

/-- The map that the fields of a value are, if each of theirs is what `value?` reads. -/
def map? {α : Type} (value? : Toml → Option α) (value : Toml) : Option (KeyMap α) := do
  let entries ← (← value.fields?).mapM fun field =>
    (value? field.2).map fun value => (field.1, value)
  return KeyMap.ofList entries

/-- The mode that a value names, either as a text or as a table whose only key it is and whose
only value is empty. -/
def mode? : Toml → Option Mode
  | .string name => Mode.ofName? name
  | .table _ [(name, .table _ [])] => Mode.ofName? name
  | .table _ [(name, .array [])] => Mode.ofName? name
  | _ => none

/-- The manifest with one more field. There are no fields but these. -/
def withField? (manifest : Manifest) : String × Toml → Option Manifest
  | ("cache_results", value) => do return { manifest with cacheResults := ← paths? value }
  | ("define_results", value) => do return { manifest with defineResults := ← paths? value }
  | ("subst_results", value) => do return { manifest with substResults := ← paths? value }
  | ("template", value) => do return { manifest with template := some (← path? value) }
  | ("output", value) => do return { manifest with output := some (← path? value) }
  | ("mode", value) => do return { manifest with mode := some (← mode? value) }
  | ("inlines", value) => do return { manifest with inlines := ← map? path? value }
  | ("substitutions", value) => do return { manifest with substitutions := ← map? text? value }
  | _ => none

def ofText? (text : String) : Option Manifest := do
  (← Toml.ofText? text).foldlM withField? {}

/-- The manifest in a file, with its paths seen from where the file is. -/
def load (tree : FileTree) (path : Path) : Except Fault Manifest := do
  match ofText? (← tree.inputText path) with
  | none => .error (.invalidManifest path "not a manifest")
  | some manifest =>
    match path.parent? with
    | none => .ok manifest
    | some base => .ok (if base.text = "" then manifest else manifest.seenFrom base)

end Manifest

end ConfigHeader
