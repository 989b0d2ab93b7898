import PlasmaField.Json
import PlasmaField.Json.Token

/-!
# Reading JSON texts

The tokens of a text are put together by a machine that keeps the open lists and objects on a stack.
A text is one value and nothing after it. Lists and objects inside more than `maxOuter` others are
read to their end, but are out of bounds.
-/

namespace PlasmaField.Json

/-- The greatest number of lists and objects around a list or an object. -/
def maxOuter : Nat := 126

/-- A member whose name may be out of bounds. -/
abbrev Member := Option String × Json Float

/-- An open list, with its items in reverse, or an open object, with its members in reverse and the
name of the member that is being read. -/
inductive Frame where
  | items (read : List (Json Float))
  | members (read : List Member) (name : Option String)

/-- What may follow in a text. -/
inductive Expected where
  /-- A value. -/
  | value (outer : List Frame)
  /-- The first item of a list, or its end. -/
  | listStart (outer : List Frame)
  /-- The first name of an object, or its end. -/
  | objectStart (outer : List Frame)
  /-- A further name of an object. -/
  | memberName (read : List Member) (outer : List Frame)
  /-- The colon after a name. -/
  | memberColon (read : List Member) (name : Option String) (outer : List Frame)
  /-- A comma or the end of the innermost list or object. -/
  | separator (outer : List Frame)
  /-- Nothing. -/
  | nothing (v : Json Float)

namespace Expected

/-- Goes on after a complete value. -/
def deliver (v : Json Float) : List Frame → Expected
  | [] => .nothing v
  | .items read :: outer => .separator (.items (v :: read) :: outer)
  | .members read name :: outer => .separator (.members ((name, v) :: read) name :: outer)

/-- Goes on after a complete list or object, which must not be nested too deep. -/
def deliverNested (v : Json Float) (outer : List Frame) : Expected :=
  deliver (if (outer.drop maxOuter).isEmpty then v else .outOfBounds) outer

/-- The list with the given items, which stand in reverse. -/
def listOf (read : List (Json Float)) : Json Float :=
  .list read.reverse

/-- The object with the given members, which stand in reverse; out of bounds if a name is. -/
def objectOf (read : List Member) : Json Float :=
  match read.reverse.mapM fun (name, v) ↦ name.map (·, v) with
  | some members => .object members
  | none => .outOfBounds

/-- Reads the first token of a value. -/
def beginValue (outer : List Frame) : Token → Option Expected
  | .openObject => some (.objectStart outer)
  | .openList => some (.listStart outer)
  | .null => some (deliver .null outer)
  | .bool b => some (deliver (.bool b) outer)
  | .natural n => some (deliver (.natural n) outer)
  | .number x => some (deliver ((x.map .number).getD .outOfBounds) outer)
  | .text s => some (deliver ((s.map .text).getD .outOfBounds) outer)
  | _ => none

/-- Reads one token. -/
def step : Expected → Token → Option Expected
  | .value outer, t => beginValue outer t
  | .listStart outer, .closeList => some (deliverNested (listOf []) outer)
  | .listStart outer, t => beginValue (.items [] :: outer) t
  | .objectStart outer, .closeObject => some (deliverNested (objectOf []) outer)
  | .objectStart outer, .text name => some (.memberColon [] name outer)
  | .memberName read outer, .text name => some (.memberColon read name outer)
  | .memberColon read name outer, .colon => some (.value (.members read name :: outer))
  | .separator (.items read :: outer), .comma => some (.value (.items read :: outer))
  | .separator (.items read :: outer), .closeList =>
    some (deliverNested (listOf read) outer)
  | .separator (.members read _ :: outer), .comma => some (.memberName read outer)
  | .separator (.members read _ :: outer), .closeObject =>
    some (deliverNested (objectOf read) outer)
  | _, _ => none

end Expected

/-- The value that tokens form. -/
def ofTokens? (tokens : List Token) : Option (Json Float) :=
  match tokens.foldlM Expected.step (.value []) with
  | some (.nothing v) => some v
  | _ => none

/-- The value that a text stands for. -/
def ofText? (text : String) : Option (Json Float) :=
  (tokens? text).bind ofTokens?

end PlasmaField.Json
