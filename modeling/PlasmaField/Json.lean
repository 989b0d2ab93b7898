/-!
# JSON documents

A `Json` value keeps the members of an object in the order in which they stand, repeated names
included. Numbers are split into the natural numbers of 64 bits, which can also serve as counts, and
all others. A part of a document that is well formed but cannot be held is `outOfBounds`;
`withinBounds` says that a document has no such part.
-/

namespace PlasmaField

/-- A JSON value with numbers of type `α`. -/
inductive Json (α : Type) where
  | null
  | bool (b : Bool)
  | natural (n : UInt64)
  | number (x : α)
  | text (s : String)
  | list (items : List (Json α))
  | object (members : List (String × Json α))
  /-- A number beyond the range of numbers, a string with one half of a surrogate pair, an object
  with such a name, or a list or object that is nested too deep. -/
  | outOfBounds

namespace Json

variable {α : Type}

mutual

/-- No part of the value is out of bounds. -/
def withinBounds : Json α → Bool
  | .outOfBounds => false
  | .list items => itemsWithinBounds items
  | .object members => membersWithinBounds members
  | _ => true

/-- No part of the items is out of bounds. -/
def itemsWithinBounds : List (Json α) → Bool
  | [] => true
  | item :: items => item.withinBounds && itemsWithinBounds items

/-- No part of the members is out of bounds. -/
def membersWithinBounds : List (String × Json α) → Bool
  | [] => true
  | (_, value) :: members => value.withinBounds && membersWithinBounds members

end

end Json

end PlasmaField
