/-!
# Command-line arguments

The program takes three names, the treebank to parse, the treebank to train on and the beginning of
the names of the files to write, and a few options, which may stand anywhere before `--`. An option
may be given once. The value of an option follows it as the next argument, or, behind `=`, in the
same one; behind a one-letter option the sign may be missing. An argument that begins with a hyphen
is no value, except for a negative order of Markovization.

Arguments are read from left to right up to the first that is wrong or asks for help.
-/

namespace Constituency.CommandLine

/-- What the program is asked to do. -/
structure Arguments where
  /-- The name of the treebank whose sentences are parsed. -/
  gold : String
  /-- The name of the treebank that is trained on. -/
  training : String
  /-- The beginning of the names of the files to write. -/
  experiment : String
  /-- The order of Markovization, if it is given. -/
  markovization : Option Int
  /-- The number of threads, if it is given. -/
  threads : Option Nat
  /-- The name of the configuration, if there is one. -/
  config : Option String
  /-- Whether a summary is printed. -/
  summary : Bool
  deriving DecidableEq

/-- Why there is nothing to do. -/
inductive Refusal where
  /-- The arguments ask for help. -/
  | help
  /-- The arguments are wrong. -/
  | usage
  deriving DecidableEq

/-- The options with a value. -/
inductive Setting where
  | markovization
  | threads
  | config
  deriving DecidableEq

/-- The arguments read so far. -/
structure Pending where
  /-- The names, last one first. -/
  names : List String := []
  /-- The order of Markovization. -/
  markovization : Option Int := none
  /-- The number of threads. -/
  threads : Option Nat := none
  /-- The name of the configuration. -/
  config : Option String := none
  /-- Whether a summary is printed. -/
  summary : Bool := false

/-- The natural number written by decimal digits, at least one. -/
def digits? (chars : List Char) : Option Nat :=
  if chars.isEmpty || !chars.all Char.isDigit then none
  else some (chars.foldl (fun value c => value * 10 + (c.toNat - '0'.toNat)) 0)

/-- A natural number of sixty-four bits, which may have a plus sign. -/
def natural? (text : String) : Option Nat :=
  let value :=
    match text.toList with
    | '+' :: rest => digits? rest
    | chars => digits? chars
  value.filter (· < Nat.pow 2 64)

/-- An integer of thirty-two bits, which may have a sign. -/
def integer? (text : String) : Option Int :=
  let value : Option Int :=
    match text.toList with
    | '-' :: rest => (digits? rest).map fun n => -n
    | '+' :: rest => (digits? rest).map fun n => n
    | chars => (digits? chars).map fun n => n
  value.filter fun i => -Int.pow 2 31 ≤ i && i < Int.pow 2 31

namespace Pending

/-- Takes a name; there are three, and only the last one may be empty. -/
def addName (p : Pending) (name : String) : Option Pending :=
  if p.names.length < 3 && !(name.isEmpty && p.names.length < 2) then
    some { p with names := name :: p.names }
  else none

/-- Takes the value of an option that has not been given yet. -/
def setOption (p : Pending) (option : Setting) (value : String) : Option Pending :=
  match option with
  | .markovization =>
    if p.markovization.isSome then none
    else (integer? value).map fun h => { p with markovization := some h }
  | .threads =>
    if p.threads.isSome then none
    else (natural? value).map fun n => { p with threads := some n }
  | .config =>
    if p.config.isSome || value.isEmpty then none else some { p with config := some value }

/-- The finished arguments, if all three names are there. -/
def finish (p : Pending) : Except Refusal Arguments :=
  match p.names with
  | [experiment, training, gold] =>
    .ok ⟨gold, training, experiment, p.markovization, p.threads, p.config, p.summary⟩
  | _ => .error .usage

end Pending

/-- How an argument is to be taken. -/
inductive Kind where
  /-- A name. -/
  | name
  /-- All further arguments are names. -/
  | separator
  /-- An option whose value is the next argument. -/
  | option (option : Setting)
  /-- An option and its value. -/
  | setting (option : Setting) (value : String)
  /-- The option that asks for a summary. -/
  | summary
  /-- An option that asks for help. -/
  | help
  /-- An option that there is not. -/
  | unknown

/-- The option of a long name. -/
def longOption? (name : String) : Option Setting :=
  match name with
  | "markovization" => some .markovization
  | "threads" => some .threads
  | "config" => some .config
  | _ => none

/-- The option of a letter. -/
def shortOption? (letter : Char) : Option Setting :=
  match letter with
  | 'm' => some .markovization
  | 't' => some .threads
  | _ => none

/-- A long option, given without its hyphens. -/
def longKind (chars : List Char) : Kind :=
  let (name, rest) := chars.span (· != '=')
  match longOption? (String.ofList name), rest with
  | some option, [] => .option option
  | some option, _ :: value => .setting option (String.ofList value)
  | none, [] =>
    match String.ofList name with
    | "summary" => .summary
    | "help" => .help
    | _ => .unknown
  | none, _ :: _ => .unknown

/-- A one-letter option and what stands behind it in the same argument. -/
def shortKind (letter : Char) (rest : List Char) : Kind :=
  match shortOption? letter, rest with
  | some option, [] => .option option
  | some option, '=' :: value => .setting option (String.ofList value)
  | some option, value => .setting option (String.ofList value)
  | none, _ => if letter = 'h' then .help else .unknown

/-- How an argument is to be taken when no value is awaited. -/
def kindOf (argument : String) : Kind :=
  match argument.toList with
  | ['-'] => .name
  | ['-', '-'] => .separator
  | '-' :: '-' :: rest => longKind rest
  | '-' :: letter :: rest => shortKind letter rest
  | _ => .name

/-- Whether an argument can be the value of the option before it: only an order may have a minus
sign. -/
def canFollow (option : Setting) (argument : String) : Bool :=
  match argument.toList with
  | ['-'] => true
  | '-' :: rest => option = .markovization && (digits? rest).isSome
  | _ => true

/-- Takes the names behind the separator. -/
def readNames (p : Pending) : List String → Except Refusal Arguments
  | [] => p.finish
  | name :: rest =>
    match p.addName name with
    | some p => readNames p rest
    | none => .error .usage

/-- Reads arguments after some have been read. -/
def readFrom (p : Pending) : List String → Except Refusal Arguments
  | [] => p.finish
  | argument :: rest =>
    match kindOf argument with
    | .name =>
      match p.addName argument with
      | some p => readFrom p rest
      | none => .error .usage
    | .separator => readNames p rest
    | .setting option value =>
      match p.setOption option value with
      | some p => readFrom p rest
      | none => .error .usage
    | .option option =>
      match rest with
      | [] => .error .usage
      | value :: rest =>
        if canFollow option value then
          match p.setOption option value with
          | some p => readFrom p rest
          | none => .error .usage
        else .error .usage
    | .summary => if p.summary then .error .usage else readFrom { p with summary := true } rest
    | .help => .error .help
    | .unknown => .error .usage

/-- Reads the arguments of the program. -/
def Arguments.read (arguments : List String) : Except Refusal Arguments := readFrom {} arguments

end Constituency.CommandLine
