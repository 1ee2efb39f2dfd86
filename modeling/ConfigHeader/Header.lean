import ConfigHeader.FileTree.Exchange
import ConfigHeader.Manifest
import ConfigHeader.Notice
import ConfigHeader.Template.Rendering

namespace ConfigHeader

/-- What a header is made of. -/
structure Header where
  sources : Sources := {}
  template : Path
  output : Path
  replacements : Template.Replacements := {}
  mode : Mode := .defines

namespace Header

/-- The header that a manifest describes. It must name a template and an output. -/
def ofManifest (manifest : Manifest) : Except Misuse Header := do
  let some template := manifest.template | .error .noTemplate
  let some output := manifest.output | .error .noOutput
  return {
    sources :=
      { cache := manifest.cacheResults
        define := manifest.defineResults
        subst := manifest.substResults }
    template, output
    replacements :=
      { inlines := manifest.inlines
        substitutions := manifest.substitutions }
    mode := manifest.mode.getD .defines }

def paths (header : Header) : List Path :=
  header.sources.cache ++ header.sources.define ++ header.sources.subst ++
    [header.template, header.output] ++ header.replacements.inlines.entries.map Prod.snd

def render (header : Header) (tree : FileTree) : Except Fault Bytes := do
  let findings ← Findings.merge tree.inputChecks header.sources
  let template ← tree.inputBytes header.template
  (Template.render tree.contentOf findings header.mode header.replacements template).mapError
    fun failure => .inlineUnreadable failure.search failure.path failure.fault

/-- Writes the header, when all of it is rendered. -/
def write (header : Header) : FileAction Fault Unit := do
  let content ← FileTree.look header.render
  FileTree.commit header.output content

/-- What is said of search strings that are empty. -/
def replacementNotices (replacements : Template.Replacements) : List Notice :=
  (if replacements.substitutions.contains "" then
    [⟨.warning, "ignoring direct substitution with an empty search string"⟩]
  else []) ++
  (replacements.inlines.find? "").toList.map fun path =>
    ⟨.warning, s!"ignoring inline {path.text} with an empty search string"⟩

/-- What is said while a header is rendered, up to the fault that ends it, if there is one. -/
def notices (header : Header) (tree : FileTree) : List Notice :=
  match Findings.merge tree.inputChecks header.sources with
  | .error _ => []
  | .ok findings =>
    findings.checkLines.map (Notice.mk .info) ++
      match tree.inputBytes header.template with
      | .error _ => []
      | .ok _ => replacementNotices header.replacements

end Header

end ConfigHeader
