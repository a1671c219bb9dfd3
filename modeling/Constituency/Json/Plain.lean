import Constituency.Json.Number
import Constituency.Json.Value

/-!
# Plain data

A document is plain data if nothing in it is broken off, every string has a text, every number is in
the finite range and at most one hundred and twenty-seven arrays and objects are nested. Numbers
that are no integers are then kept as floating-point values, the fields of an object are ordered by
their keys, and of two fields with one key the later one counts.
-/

namespace Constituency.Json

/-- The deepest nesting of arrays and objects in plain data. -/
def maxNesting : Nat := 127

/-- Puts a field into its place among ordered fields, instead of one with the same key. -/
def insertField (key : String) (value : Value) :
    List (Option String × Value) → List (Option String × Value)
  | [] => [(some key, value)]
  | (other, held) :: rest =>
    if other = some key then (some key, value) :: rest
    else if other.any (key < ·) then (some key, value) :: (other, held) :: rest
    else (other, held) :: insertField key value rest

mutual

/-- A value as plain data, with at most `room` arrays and objects nested. -/
def Value.plainWithin? : (room : Nat) → Value → Option Value
  | _, .null => some .null
  | _, .bool value => some (.bool value)
  | _, .number value => value.kept?.map .number
  | _, .string text => text.map fun text => .string (some text)
  | room + 1, .array items true => (plainItems? room items).map (.array · true)
  | room + 1, .object fields true => (plainFields? room [] fields).map (.object · true)
  | _, _ => none

/-- The items of an array as plain data. -/
def Value.plainItems? (room : Nat) : List Value → Option (List Value)
  | [] => some []
  | value :: rest => do
    let plain ← value.plainWithin? room
    let others ← plainItems? room rest
    return plain :: others

/-- The fields of an object as plain data, after the ordered ones. -/
def Value.plainFields? (room : Nat) (ordered : List (Option String × Value)) :
    List (Option String × Value) → Option (List (Option String × Value))
  | [] => some ordered
  | (key, value) :: rest => do
    let text ← key
    let plain ← value.plainWithin? room
    plainFields? room (insertField text plain ordered) rest

end

/-- Reads a text that holds one value of plain data and nothing else. -/
def plain? (text : String) : Option Value :=
  let document := read text
  if document.ended then document.value.bind (Value.plainWithin? maxNesting) else none

/-- The value of a field of plain data. -/
def Value.field? (name : String) : Value → Option Value
  | .object fields _ => fields.lookup (some name)
  | _ => none

end Constituency.Json
