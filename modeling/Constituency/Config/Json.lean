import Constituency.Config.Basic
import Constituency.Json.Number
import Constituency.Json.Value

/-!
# Configurations as JSON

A configuration is an object in which every field may be missing, and keeps its default then, or an
array of the first fields in their order. Fields that a configuration does not have are ignored; one
that it has may not come twice. The first fault in the order of the text is the one that is
reported.
-/

namespace Constituency.Config

open Json (Value)

/-- Sets a field of a record from a value; none means that the record has no such field. -/
abbrev Setter (α : Type) := String → Value → α → Option (Except ConfigError α)

/-- Sets the fields of an object one after the other. -/
def setFields {α : Type} (set : Setter α) (seen : List String) :
    List (Option String × Value) → α → Except ConfigError α
  | [], record => .ok record
  | (none, _) :: _, _ => .error .malformed
  | (some name, value) :: rest, record =>
    match set name value record with
    | none => setFields set seen rest record
    | some result =>
      if seen.contains name then .error .malformed
      else
        match result with
        | .error error => .error error
        | .ok record => setFields set (name :: seen) rest record

/-- Reads a record with the given field names from an object or an array; `start` holds the values
of the fields that are missing. -/
def readRecord {α : Type} (names : List String) (set : Setter α) (start : α) :
    Value → Except ConfigError α
  | .object fields closed => do
    let record ← setFields set [] fields start
    if closed then return record else throw .malformed
  | .array items closed => do
    let record ← setFields set [] ((names.map some).zip items) start
    if closed && items.length ≤ names.length then return record else throw .malformed
  | _ => throw .malformed

/-- A value that has to be there. -/
def required {α : Type} : Option α → Except ConfigError α
  | some value => .ok value
  | none => .error .malformed

/-- The text of a string. -/
def text? : Value → Option String
  | .string text => text
  | _ => none

/-- The texts of an array of strings. -/
def texts? : Value → Option (List String)
  | .array items true => items.mapM text?
  | _ => none

/-- A natural number. -/
def natural? : Value → Option Nat
  | .number number => number.natural?
  | _ => none

/-- A number of any kind. -/
def float? : Value → Option Float
  | .number number => number.float?
  | _ => none

/-- An optional natural number, for which `null` stands when it is missing. -/
def optional? : Value → Option (Option Nat)
  | .null => some none
  | value => (natural? value).map some

/-- An order of Markovization, a number of thirty-two bits. -/
def readOrder : Value → Except ConfigError Markovization
  | .number number =>
    match number.integer? with
    | some order =>
      if -Int.pow 2 31 ≤ order && order < Int.pow 2 31 then
        (Markovization.ofInt order).mapError .order
      else .error .malformed
    | none => .error .malformed
  | _ => .error .malformed

/-- The fields of the tables for unknown words, in order. -/
def unknownNames : List String :=
  ["suffixes", "feminine_marker", "weak_letters", "cardinal_tag", "foreign_marker",
    "proper_noun_tag", "open_class_tags", "verb_tags", "verb_prefixes", "bias_factor"]

/-- Sets a field of the tables for unknown words. -/
def setUnknown : Setter (UnknownWords Float) := fun name value u =>
  let texts (put : List String → UnknownWords Float) := some ((required (texts? value)).map put)
  let text (put : String → UnknownWords Float) := some ((required (text? value)).map put)
  match name with
  | "suffixes" => texts fun x => { u with suffixes := x }
  | "feminine_marker" => text fun x => { u with feminineMarker := x }
  | "weak_letters" => texts fun x => { u with weakLetters := x }
  | "cardinal_tag" => text fun x => { u with cardinalTag := x }
  | "foreign_marker" => text fun x => { u with foreignMarker := x }
  | "proper_noun_tag" => text fun x => { u with properNounTag := x }
  | "open_class_tags" => texts fun x => { u with openClassTags := x }
  | "verb_tags" => texts fun x => { u with verbTags := x }
  | "verb_prefixes" => texts fun x => { u with verbPrefixes := x }
  | "bias_factor" => some ((required (float? value)).map fun x => { u with biasFactor := x })
  | _ => none

/-- The fields of a configuration, in order. -/
def names : List String :=
  ["markovization", "threads", "start_symbol", "top_symbol", "baseline_tag", "progress_every",
    "unknown"]

/-- Sets a field of a configuration. -/
def set : Setter (Config Float) := fun name value c =>
  let text (put : String → Config Float) := some ((required (text? value)).map put)
  match name with
  | "markovization" => some ((readOrder value).map fun x => { c with markovization := x })
  | "threads" => some ((required (optional? value)).map fun x => { c with threads := x })
  | "start_symbol" => text fun x => { c with startSymbol := x }
  | "top_symbol" => text fun x => { c with topSymbol := x }
  | "baseline_tag" => text fun x => { c with baselineTag := x }
  | "progress_every" =>
    some ((required (natural? value)).map fun x => { c with progressEvery := x })
  | "unknown" =>
    some ((readRecord unknownNames setUnknown default.unknown value).map fun x =>
      { c with unknown := x })
  | _ => none

/-- The configuration that a value stands for. -/
def ofJson (value : Value) : Except ConfigError (Config Float) := readRecord names set default value

/-- Reads a configuration from a JSON text that holds nothing else, and checks it. -/
def ofJsonText (text : String) : Except ConfigError (Config Float) := do
  let document := Json.read text
  let config ← ofJson (document.value.getD .null)
  if document.ended then
    config.validate
    return config
  else throw .malformed

end Constituency.Config
