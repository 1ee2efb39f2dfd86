import ConfigHeader.Template.Layout
import ConfigHeader.Template.Lookup
import ConfigHeader.Template.Marker
import ConfigHeader.Template.Mode
import ConfigHeader.Template.Replacement

/-! The rendering of a template. Search strings are replaced first, so that all later passes see
what they bring in; then come the `#undef` lines and the markers, as the mode asks, and the layout
last. No pass runs twice. -/
namespace ConfigHeader.Template

structure Replacements where
  inlines : KeyMap Path := ∅
  substitutions : KeyMap String := ∅

/-- Replaces the `#undef` lines of a content; those of unknown names become comments. -/
def renderUndefs (lookup : Lookup) (content : Bytes) : Bytes :=
  settleUndefs lookup.undefActions .comment content

def renderMarkers (findings : Findings) (lookup : Lookup) (content : Bytes) : Bytes :=
  fillMarkers (markerTexts findings lookup) content

/-- Makes comments of the `#undef` lines of known definitions and leaves all others. -/
def hideUndefs (findings : Findings) (content : Bytes) : Bytes :=
  settleUndefs (commentActions findings) .keep content

def renderMarkup (findings : Findings) (mode : Mode) (content : Bytes) : Bytes :=
  let lookup := Lookup.ofFindings findings
  let content := if mode.definesNames then renderUndefs lookup content else content
  let content := if mode.fillsMarkers then renderMarkers findings lookup content else content
  if mode = .subst then hideUndefs findings content else content

/-- The text of a template. It ends with a newline only if the template does. -/
def render {FileFault : Type} (read : Path → Except FileFault Bytes) (findings : Findings)
    (mode : Mode) (replacements : Replacements) (template : Bytes) :
    Except (InlineFailure Path FileFault) Bytes := do
  let content := substituteTexts replacements.substitutions template
  let content ← inlineFiles read replacements.inlines content
  return matchFinalNewline template (stripTrailingBlanks (renderMarkup findings mode content))

end ConfigHeader.Template
