/-!
# The lexemes of a JSON text

The text is read one character at a time by a machine whose modes are the states between and
inside lexemes. A lexeme that breaks the lexical grammar ends the reading with the token `bad`,
so that whatever stands before it can still be used.

A string may pair the halves of a surrogate wrongly and still be lexically right; such a string
has no text.
-/

namespace Constituency.Json

/-- A number as it is written: its sign, the digits before the point, the digits after it, and the
exponent's sign and digits. -/
structure Number where
  /-- A minus sign stands in front. -/
  negative : Bool
  /-- The digits before the point. -/
  whole : List Char
  /-- The digits after the point, if there is a point. -/
  fraction : Option (List Char)
  /-- Whether the exponent is negative, and its digits, if there is an exponent. -/
  exponent : Option (Bool × List Char)

/-- The lexemes. -/
inductive Token where
  | openBrace
  | closeBrace
  | openBracket
  | closeBracket
  | colon
  | comma
  | null
  | bool (value : Bool)
  | number (value : Number)
  | string (text : Option String)
  | bad

/-- Where the reading of a number stands; each stage names what was read last. -/
inductive Number.Stage where
  | minus
  | zero
  | whole
  | point
  | fraction
  | mark
  | sign
  | exponent
  deriving DecidableEq

/-- A string that is being read. -/
structure Draft where
  /-- The characters so far, last one first. -/
  taken : List Char
  /-- The first half of a surrogate pair whose second half has to follow at once. -/
  lead : Option Nat
  /-- No half has been left alone so far. -/
  paired : Bool

namespace Draft

/-- The string before its first character. -/
def empty : Draft := ⟨[], none, true⟩

/-- Adds a character. -/
def push (draft : Draft) (c : Char) : Draft :=
  ⟨c :: draft.taken, none, draft.paired && draft.lead.isNone⟩

/-- Adds a sixteen-bit unit: a half waits for the other, and a pair of halves is one character. -/
def pushUnit (draft : Draft) (unit : Nat) : Draft :=
  let first := 0xD800 ≤ unit && unit < 0xDC00
  let second := 0xDC00 ≤ unit && unit < 0xE000
  match draft.lead with
  | some lead =>
    if second then
      let point := 0x10000 + (lead - 0xD800) * 0x400 + (unit - 0xDC00)
      ⟨Char.ofNat point :: draft.taken, none, draft.paired⟩
    else if first then ⟨draft.taken, some unit, false⟩
    else ⟨Char.ofNat unit :: draft.taken, none, false⟩
  | none =>
    if first then ⟨draft.taken, some unit, draft.paired⟩
    else if second then ⟨draft.taken, none, false⟩
    else ⟨Char.ofNat unit :: draft.taken, none, draft.paired⟩

/-- The text of the finished string, unless a half was left alone. -/
def text? (draft : Draft) : Option String :=
  if draft.paired && draft.lead.isNone then some (String.ofList draft.taken.reverse) else none

end Draft

/-- The states of the machine. -/
inductive Mode where
  /-- Between two lexemes. -/
  | between
  /-- Inside `null`, `true` or `false`, with the characters that have to follow. -/
  | literal (awaited : List Char) (token : Token)
  /-- Inside a number, whose digits are held last one first. -/
  | number (stage : Number.Stage) (draft : Number)
  /-- Inside a string. -/
  | string (draft : Draft)
  /-- After a backslash. -/
  | escape (draft : Draft)
  /-- Inside a unit of four hexadecimal digits: how many are awaited, and the value so far. -/
  | unit (draft : Draft) (awaited value : Nat)

/-- The value of a hexadecimal digit. -/
def hexDigit? (c : Char) : Option Nat :=
  if c.isDigit then some (c.toNat - '0'.toNat)
  else if 'a' ≤ c && c ≤ 'f' then some (c.toNat - 'a'.toNat + 10)
  else if 'A' ≤ c && c ≤ 'F' then some (c.toNat - 'A'.toNat + 10)
  else none

/-- The number with its digits in the order in which they were written. -/
def Number.settled (draft : Number) : Number :=
  { draft with
    whole := draft.whole.reverse
    fraction := draft.fraction.map List.reverse
    exponent := draft.exponent.map fun (negative, digits) => (negative, digits.reverse) }

/-- Adds a digit to the part of the number that the next stage is about. -/
def Number.pushDigit (draft : Number) (stage : Number.Stage) (c : Char) : Number :=
  match stage with
  | .fraction => { draft with fraction := some (c :: draft.fraction.getD []) }
  | .exponent =>
    let (negative, digits) := draft.exponent.getD (false, [])
    { draft with exponent := some (negative, c :: digits) }
  | _ => { draft with whole := c :: draft.whole }

/-- The stage that a digit leads to; no further digit may follow a leading zero. -/
def Number.Stage.afterDigit? (c : Char) : Number.Stage → Option Number.Stage
  | .minus => some (if c = '0' then .zero else .whole)
  | .zero => none
  | .whole => some .whole
  | .point => some .fraction
  | .fraction => some .fraction
  | .mark => some .exponent
  | .sign => some .exponent
  | .exponent => some .exponent

/-- Holds of the stages at which the number may end. -/
def Number.Stage.mayEnd : Number.Stage → Bool
  | .zero | .whole | .fraction | .exponent => true
  | _ => false

/-- What a step of the machine comes to: the tokens that it finishes, and the mode to go on in,
if the text is lexically right so far. -/
abbrev Outcome := List Token × Option Mode

/-- The first character of a lexeme, or a character between two. -/
def start (c : Char) : Outcome :=
  match c with
  | ' ' | '\t' | '\n' | '\r' => ([], some .between)
  | '\x7b' => ([.openBrace], some .between)
  | '\x7d' => ([.closeBrace], some .between)
  | '[' => ([.openBracket], some .between)
  | ']' => ([.closeBracket], some .between)
  | ':' => ([.colon], some .between)
  | ',' => ([.comma], some .between)
  | '\"' => ([], some (.string .empty))
  | 'n' => ([], some (.literal ['u', 'l', 'l'] .null))
  | 't' => ([], some (.literal ['r', 'u', 'e'] (.bool true)))
  | 'f' => ([], some (.literal ['a', 'l', 's', 'e'] (.bool false)))
  | '-' => ([], some (.number .minus ⟨true, [], none, none⟩))
  | _ =>
    if c.isDigit then
      ([], some (.number (if c = '0' then .zero else .whole) ⟨false, [c], none, none⟩))
    else ([], none)

/-- A character inside a number, or the first one after it. -/
def stepNumber (stage : Number.Stage) (draft : Number) (c : Char) : Outcome :=
  let mark := c = 'e' || c = 'E'
  if c.isDigit then
    match stage.afterDigit? c with
    | some next => ([], some (.number next (draft.pushDigit next c)))
    | none => ([], none)
  else if c = '.' && (stage == .zero || stage == .whole) then
    ([], some (.number .point { draft with fraction := some [] }))
  else if mark && stage.mayEnd && stage != .exponent then
    ([], some (.number .mark { draft with exponent := some (false, []) }))
  else if (c = '+' || c = '-') && stage == .mark then
    ([], some (.number .sign { draft with exponent := some (c = '-', []) }))
  else if stage.mayEnd then
    let (tokens, mode) := start c
    (.number draft.settled :: tokens, mode)
  else ([], none)

/-- The character after a backslash. -/
def stepEscape (draft : Draft) (c : Char) : Outcome :=
  let one (d : Char) : Outcome := ([], some (.string (draft.push d)))
  match c with
  | '\"' => one '\"'
  | '\\' => one '\\'
  | '/' => one '/'
  | 'b' => one '\x08'
  | 'f' => one '\x0c'
  | 'n' => one '\n'
  | 'r' => one '\r'
  | 't' => one '\t'
  | 'u' => ([], some (.unit draft 4 0))
  | _ => ([], none)

/-- One character read in a mode. -/
def Mode.step : Mode → Char → Outcome
  | .between, c => start c
  | .literal [] token, c =>
    let (tokens, mode) := start c
    (token :: tokens, mode)
  | .literal (awaited :: rest) token, c =>
    if c ≠ awaited then ([], none)
    else if rest.isEmpty then ([token], some .between)
    else ([], some (.literal rest token))
  | .number stage draft, c => stepNumber stage draft c
  | .string draft, c =>
    if c = '\"' then ([.string draft.text?], some .between)
    else if c = '\\' then ([], some (.escape draft))
    else if c.toNat < 0x20 then ([], none)
    else ([], some (.string (draft.push c)))
  | .escape draft, c => stepEscape draft c
  | .unit draft awaited value, c =>
    match hexDigit? c with
    | none => ([], none)
    | some digit =>
      let value := value * 16 + digit
      if awaited ≤ 1 then ([], some (.string (draft.pushUnit value)))
      else ([], some (.unit draft (awaited - 1) value))

/-- The tokens of the end of a text. -/
def Mode.finish : Mode → List Token
  | .between => []
  | .number stage draft => if stage.mayEnd then [.number draft.settled] else [.bad]
  | _ => [.bad]

/-- The tokens of a text that is read from a mode on. -/
def tokensFrom (mode : Mode) : List Char → List Token
  | [] => mode.finish
  | c :: rest =>
    match mode.step c with
    | (tokens, some next) => tokens ++ tokensFrom next rest
    | (tokens, none) => tokens ++ [.bad]

/-- The tokens of a text, ending with `bad` where the text is lexically wrong. -/
def tokens (text : String) : List Token := tokensFrom .between text.toList

end Constituency.Json
