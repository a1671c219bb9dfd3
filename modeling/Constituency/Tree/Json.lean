import Constituency.Json.Plain
import Constituency.Json.Quoted
import Constituency.Tree.Basic

/-!
# Trees as JSON

A node is written as an object with the fields `label` and `children`, in that order and without
blanks; a leaf has no field `children`. A node is read from such an object, whose fields may come in
any order beside unknown ones, or from an array that holds the label and then, possibly, the
children. At most one hundred and twenty-seven arrays and objects may be nested.
-/

namespace Constituency.Tree

mutual

/-- The JSON text of a tree. -/
def json : Tree → String
  | node label [] => "\x7b\"label\":" ++ Json.quoted label ++ "\x7d"
  | node label (child :: rest) =>
    "\x7b\"label\":" ++ Json.quoted label ++ ",\"children\":[" ++ child.json ++ jsonOfAll rest ++
      "]\x7d"

/-- The JSON texts of the further children, each after a comma. -/
def jsonOfAll : List Tree → String
  | [] => ""
  | t :: rest => "," ++ t.json ++ jsonOfAll rest

end

mutual

/-- The tree that a value stands for, with at most `room` further arrays and objects nested. -/
def ofJsonWithin? : (room : Nat) → Json.Value → Option Tree
  | room + 1, .object fields true => ofFields? room none none fields
  | _ + 1, .array [.string (some label)] true => some (leaf label)
  | room + 1, .array [.string (some label), children] true =>
    (childrenOfJson? room children).map (node label)
  | _, _ => none

/-- The tree that the fields of an object stand for, after some have been read; a field that the
node has may not come twice. -/
def ofFields? (room : Nat) (label : Option String) (children : Option (List Tree)) :
    List (Option String × Json.Value) → Option Tree
  | [] => label.map fun label => node label (children.getD [])
  | (none, _) :: _ => none
  | (some key, value) :: rest =>
    if key = "label" then
      match label, value with
      | none, .string (some text) => ofFields? room (some text) children rest
      | _, _ => none
    else if key = "children" then
      match children, childrenOfJson? room value with
      | none, some trees => ofFields? room label (some trees) rest
      | _, _ => none
    else ofFields? room label children rest

/-- The trees of an array. -/
def childrenOfJson? : (room : Nat) → Json.Value → Option (List Tree)
  | room + 1, .array items true => ofJsonAll? room items
  | _, _ => none

/-- The trees of a list of values. -/
def ofJsonAll? (room : Nat) : List Json.Value → Option (List Tree)
  | [] => some []
  | value :: rest => do
    let t ← ofJsonWithin? room value
    let trees ← ofJsonAll? room rest
    return t :: trees

end

/-- Reads a tree from a JSON text that holds nothing else. -/
def ofJsonText? (text : String) : Option Tree :=
  let document := Json.read text
  if document.ended then document.value.bind (ofJsonWithin? Json.maxNesting) else none

end Constituency.Tree
