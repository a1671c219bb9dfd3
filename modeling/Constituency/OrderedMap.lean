/-!
# Maps in insertion order

A map is a list of keys and values in which the keys stand in the order of their first insertion. A
new value for a key that is present takes the place of the old one.
-/

namespace Constituency

/-- A map that remembers the order in which its keys first came. -/
structure OrderedMap (α β : Type) where
  /-- The keys and their values, in the order of first insertion. -/
  entries : List (α × β)
  deriving DecidableEq

namespace OrderedMap

variable {α β : Type} [BEq α]

/-- The map without keys. -/
def empty : OrderedMap α β := ⟨[]⟩

instance : Inhabited (OrderedMap α β) := ⟨empty⟩

/-- The value of a key. -/
def find? (m : OrderedMap α β) (key : α) : Option β := m.entries.lookup key

/-- Whether a key is present. -/
def contains (m : OrderedMap α β) (key : α) : Bool := (m.find? key).isSome

/-- The number of keys. -/
def size (m : OrderedMap α β) : Nat := m.entries.length

/-- Whether no key is present. -/
def isEmpty (m : OrderedMap α β) : Bool := m.entries.isEmpty

/-- The keys, in order. -/
def keys (m : OrderedMap α β) : List α := m.entries.map Prod.fst

/-- The values, in the order of their keys. -/
def values (m : OrderedMap α β) : List β := m.entries.map Prod.snd

/-- Changes the value of a key in place, or appends the key with a first value. -/
def alterEntries (key : α) (change : Option β → β) : List (α × β) → List (α × β)
  | [] => [(key, change none)]
  | (other, value) :: rest =>
    if other == key then (other, change (some value)) :: rest
    else (other, value) :: alterEntries key change rest

/-- Gives a key the value that `change` makes of its present one. -/
def alter (m : OrderedMap α β) (key : α) (change : Option β → β) : OrderedMap α β :=
  ⟨alterEntries key change m.entries⟩

/-- Gives a key a value. -/
def insert (m : OrderedMap α β) (key : α) (value : β) : OrderedMap α β :=
  m.alter key fun _ => value

/-- Appends to the list that is the value of a key; a key that is absent has the empty list. -/
def append (m : OrderedMap α (List β)) (key : α) (values : List β) : OrderedMap α (List β) :=
  m.alter key fun present => present.getD [] ++ values

end OrderedMap

end Constituency
