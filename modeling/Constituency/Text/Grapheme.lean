import Constituency.Text.GraphemeTable

/-!
# Grapheme clusters

A text is divided into extended grapheme clusters, which come close to what a reader takes for one
character: a letter with its accents, a Hangul syllable, a flag, a sequence of joined pictographs, a
conjunct of Indic consonants. Whether two neighbouring characters belong together is decided by
their classes and by a short memory of what came before.
-/

namespace Constituency.Text.Grapheme

/-- The classes of characters that matter for cluster boundaries. -/
inductive Class where
  | carriageReturn
  | lineFeed
  | control
  | extend
  | joiner
  | regional
  | prepend
  | spacing
  | leading
  | vowel
  | trailing
  | syllable
  | closedSyllable
  | pictograph
  | other
  deriving DecidableEq

/-- Whether one of the ranges holds a code point. -/
def inRanges (ranges : List (Nat × Nat)) (point : Nat) : Bool :=
  ranges.any fun (first, last) => first ≤ point && point ≤ last

/-- The first precomposed Hangul syllable. -/
def firstSyllable : Nat := 0xAC00

/-- The last precomposed Hangul syllable. -/
def lastSyllable : Nat := 0xD7A3

/-- The class of a character beyond ASCII. -/
def wideClass (point : Nat) : Class :=
  if point = 0x200D then .joiner
  else if inRanges controlRanges point then .control
  else if inRanges extendRanges point then .extend
  else if inRanges spacingRanges point then .spacing
  else if inRanges pictographRanges point then .pictograph
  else if 0x1F1E6 ≤ point && point ≤ 0x1F1FF then .regional
  else if inRanges prependRanges point then .prepend
  else if firstSyllable ≤ point && point ≤ lastSyllable then
    -- Twenty-eight syllables share a leading consonant and a vowel; the first one is open.
    if (point - firstSyllable) % 28 = 0 then .syllable else .closedSyllable
  else if inRanges leadingRanges point then .leading
  else if inRanges vowelRanges point then .vowel
  else if inRanges trailingRanges point then .trailing
  else .other

/-- The class of a character. -/
def classOf (c : Char) : Class :=
  if c = '\r' then .carriageReturn
  else if c = '\n' then .lineFeed
  else if c.toNat < 0x20 || c.toNat = 0x7F then .control
  else if c.toNat < 0x7F then .other
  else wideClass c.toNat

/-- What is known of the pictographs that end where the memory ends. -/
inductive Pictures where
  /-- There is none. -/
  | none
  /-- A pictograph and characters that continue it. -/
  | picture
  /-- The same, and then a joiner. -/
  | joined
  deriving DecidableEq

/-- What is known of the conjunct that ends where the memory ends. -/
inductive Conjunct where
  /-- There is no consonant. -/
  | none
  /-- A consonant without a linker so far. -/
  | open
  /-- A consonant with a linker. -/
  | linked
  deriving DecidableEq

/-- What is remembered of the characters before a place. -/
structure Memory where
  /-- The class of the last character. -/
  last : Class
  /-- An odd number of regional indicators ends here. -/
  oddRegional : Bool
  /-- The pictographs that end here. -/
  pictures : Pictures
  /-- The conjunct that ends here. -/
  conjunct : Conjunct

/-- The conjunct after one more character. -/
def Conjunct.next (conjunct : Conjunct) (c : Char) (kind : Class) : Conjunct :=
  let point := c.toNat
  if inRanges conjunctConsonantRanges point then .open
  else if conjunct = .none then .none
  else if inRanges conjunctLinkerRanges point then .linked
  else if (kind = .extend || kind = .joiner) && point != 0x200C then conjunct
  else .none

/-- The memory before the first character. -/
def Memory.start : Memory := ⟨.other, false, .none, .none⟩

/-- The memory after one more character. -/
def Memory.next (memory : Memory) (c : Char) : Memory :=
  let kind := classOf c
  { last := kind
    oddRegional := kind = .regional && !memory.oddRegional
    pictures :=
      match kind, memory.pictures with
      | .pictograph, _ => .picture
      | .extend, .picture => .picture
      | .joiner, .picture => .joined
      | _, _ => .none
    conjunct := memory.conjunct.next c kind }

/-- Whether a character belongs to the same cluster as the one before it. -/
def Memory.joins (memory : Memory) (c : Char) : Bool :=
  let isControl (k : Class) : Bool := k = .control || k = .carriageReturn || k = .lineFeed
  let kind := classOf c
  if memory.last = .carriageReturn && kind = .lineFeed then true
  else if isControl memory.last || isControl kind then false
  else
    match memory.last, kind with
    | .leading, .leading | .leading, .vowel => true
    | .leading, .syllable | .leading, .closedSyllable => true
    | .syllable, .vowel | .syllable, .trailing | .vowel, .vowel | .vowel, .trailing => true
    | .closedSyllable, .trailing | .trailing, .trailing => true
    | _, .extend | _, .joiner | _, .spacing => true
    | .prepend, _ => true
    | .joiner, .pictograph => memory.pictures = .joined
    | .regional, .regional => memory.oddRegional
    | _, _ =>
      memory.conjunct = .linked && inRanges conjunctConsonantRanges c.toNat

/-- The clusters of the rest of a text; the first one begins with the characters already taken,
last one first. -/
def clustersFrom (memory : Memory) (taken : List Char) : List Char → List String
  | [] => if taken.isEmpty then [] else [String.ofList taken.reverse]
  | c :: rest =>
    if taken.isEmpty || memory.joins c then clustersFrom (memory.next c) (c :: taken) rest
    else String.ofList taken.reverse :: clustersFrom (memory.next c) [c] rest

/-- The extended grapheme clusters of a text. -/
def clusters (text : String) : List String := clustersFrom .start [] text.toList

end Constituency.Text.Grapheme
