import Constituency.Json.Token

/-!
# JSON values

A document is read as far as its text goes: an array or an object that the text breaks off keeps
what stands before the break and is marked as not closed. A reader of a certain kind of document
can therefore find the first fault in the order of the text, whether it is a broken text or a
value that the kind does not admit.
-/

namespace Constituency.Json

/-- The values. A string with an unpaired half of a surrogate has no text. -/
inductive Value where
  | null
  | bool (value : Bool)
  | number (value : Number)
  | string (text : Option String)
  | array (items : List Value) (closed : Bool)
  | object (fields : List (Option String × Value)) (closed : Bool)

/-- An array or object that is still open, with its parts last one first. -/
inductive Frame where
  | items (before : List Value)
  | fields (before : List (Option String × Value)) (key : Option String)

/-- What may come next. -/
inductive Awaited where
  | value
  | firstItem
  | firstKey
  | key
  | colon
  | separator

/-- A document: its value, unless the text does not even begin one, and whether the text ends right
after it. -/
structure Document where
  /-- The value, as far as it goes. -/
  value : Option Value
  /-- Nothing stands after the value. -/
  ended : Bool

/-- The state of reading a value: the open frames, innermost first, and what may come next; or the
value that has been completed; or what was read before the text broke off. -/
inductive Reading where
  | open (frames : List Frame) (awaited : Awaited)
  | done (value : Value)
  | broken (value : Option Value)

/-- What the open frames hold, innermost first, when the text breaks off: each stays open, with the
one before as its last part. -/
def abandon (inner : Option Value) : List Frame → Option Value
  | [] => inner
  | .items before :: outer => abandon (some (.array (inner.toList ++ before).reverse false)) outer
  | .fields before key :: outer =>
    abandon (some (.object (inner.toList.map (key, ·) ++ before).reverse false)) outer

namespace Reading

/-- Breaks the reading off. -/
def stop (frames : List Frame) : Reading := .broken (abandon none frames)

/-- Hands a complete value to the innermost frame. -/
def give (value : Value) : List Frame → Reading
  | [] => .done value
  | .items before :: outer => .open (.items (value :: before) :: outer) .separator
  | .fields before key :: outer => .open (.fields ((key, value) :: before) key :: outer) .separator

/-- Closes the innermost frame, if it is of the kind that the token closes. -/
def close (token : Token) (frames : List Frame) : Reading :=
  match token, frames with
  | .closeBracket, .items before :: outer => give (.array before.reverse true) outer
  | .closeBrace, .fields before _ :: outer => give (.object before.reverse true) outer
  | _, _ => stop frames

/-- Takes the first token of a value. -/
def begin (token : Token) (frames : List Frame) : Reading :=
  match token with
  | .null => give .null frames
  | .bool value => give (.bool value) frames
  | .number value => give (.number value) frames
  | .string text => give (.string text) frames
  | .openBracket => .open (.items [] :: frames) .firstItem
  | .openBrace => .open (.fields [] none :: frames) .firstKey
  | _ => stop frames

/-- Takes a key. -/
def key (token : Token) (frames : List Frame) : Reading :=
  match token, frames with
  | .string text, .fields before _ :: outer => .open (.fields before text :: outer) .colon
  | _, _ => stop frames

/-- Takes a comma or the end of the innermost frame. -/
def separator (token : Token) (frames : List Frame) : Reading :=
  match token, frames with
  | .comma, .items _ :: _ => .open frames .value
  | .comma, .fields _ _ :: _ => .open frames .key
  | _, _ => close token frames

/-- One token read while frames are open. -/
def step (frames : List Frame) (awaited : Awaited) (token : Token) : Reading :=
  match awaited, token with
  | .value, _ => begin token frames
  | .firstItem, .closeBracket => close token frames
  | .firstItem, _ => begin token frames
  | .firstKey, .closeBrace => close token frames
  | .firstKey, _ => key token frames
  | .key, _ => key token frames
  | .colon, .colon => .open frames .value
  | .colon, _ => stop frames
  | .separator, _ => separator token frames

/-- Reads on from a state. -/
def run : Reading → List Token → Document
  | .done value, rest => ⟨some value, rest.isEmpty⟩
  | .broken value, _ => ⟨value, false⟩
  | .open frames _, [] => ⟨abandon none frames, false⟩
  | .open frames awaited, token :: rest => run (step frames awaited token) rest

end Reading

/-- Reads a document. -/
def read (text : String) : Document := (Reading.open [] .value).run (tokens text)

end Constituency.Json
