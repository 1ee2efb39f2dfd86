import ConfigHeader.Bytes
import ConfigHeader.KeyMap

/-! Markers of the form `@NAME@`, where the name is a C identifier. The pass replaces the markers
whose name has a value; the closing `@` of a span that has none may open the next one. -/
namespace ConfigHeader.Template

def marker (name : Bytes) : Bytes :=
  Byte.atSign :: name ++ [Byte.atSign]

def markerName? : Bytes → Option Bytes
  | [] => none
  | first :: rest =>
    let name := leadingName rest
    if first = Byte.atSign ∧ name ≠ [] ∧ (rest.drop name.length).head? = some Byte.atSign then
      some name
    else none

/-- The name of the marker at the front of a content, with its value, if it has one. -/
def markerValue? (values : KeyMap String) (content : Bytes) : Option (Bytes × String) :=
  (markerName? content).bind fun name =>
    (values.find? (nameText name)).map fun value => (name, value)

/-- Replaces every marker that has a value, in one pass from left to right. A value is copied and
not searched for markers again. -/
def fillMarkers (values : KeyMap String) (content : Bytes) : Bytes :=
  scan 0 content
where
  /-- The rest of the pass, of which the first `skipped` bytes belong to a marker already
  replaced. -/
  scan : Nat → Bytes → Bytes
    | _, [] => []
    | skipped + 1, _ :: rest => scan skipped rest
    | 0, first :: rest =>
      match markerValue? values (first :: rest) with
      | some (name, value) => textBytes value ++ scan (name.length + 1) rest
      | none => first :: scan 0 rest

end ConfigHeader.Template
