import Constituency.Proofs.Text.Words
import Constituency.Rule

/-!
# Rules whose symbols are words

Rules are identified by the texts of their sides, not by their symbols: a symbol that holds a blank
could be taken for two. Where all symbols are words (`Rule.Plain`) the identity of a rule tells its
symbols (`Rule.Plain.sides_eq`).
-/

namespace Constituency

/-- The text of one symbol. -/
theorem Side.text_single (symbol : String) : (single symbol).text = symbol :=
  String.intercalate_singleton (s := " ")

/-- Sides of one symbol are the same exactly if their symbols are. -/
theorem Side.single_inj {symbol other : String} : single symbol = single other ↔ symbol = other :=
  ⟨fun h => (List.cons.inj (congrArg Side.symbols h)).1, congrArg single⟩

/-- The symbols of a side of words are read back from its text. -/
theorem Side.ofText_text {side : Side} (h : ∀ symbol ∈ side.symbols, Text.IsWord symbol) :
    ofText side.text = side := congrArg Side.mk (Text.words_unwords h)

/-- Sides of words with the same text are the same. -/
theorem Side.text_inj {first second : Side} (hfirst : ∀ s ∈ first.symbols, Text.IsWord s)
    (hsecond : ∀ s ∈ second.symbols, Text.IsWord s) (h : first.text = second.text) :
    first = second := by
  obtain ⟨symbols⟩ := first
  obtain ⟨others⟩ := second
  exact congrArg Side.mk (Text.unwords_inj hfirst hsecond h)

namespace Rule

variable {κ : Type}

/-- The label of a rule is the first symbol on the left. -/
theorem label_eq_ok_iff {rule : Rule κ} {label : String} :
    rule.label = .ok label ↔ rule.label? = some label := by
  unfold Rule.label
  cases rule.label? with
  | none => exact ⟨nofun, nofun⟩
  | some found =>
    show Except.ok found = .ok label ↔ some found = some label
    rw [Except.ok.injEq, Option.some.injEq]

/-- A rule has a label exactly if it has a symbol on the left. -/
theorem exists_label_iff {rule : Rule κ} :
    (∃ label, rule.label = .ok label) ↔ rule.lhs.symbols ≠ [] := by
  simp only [label_eq_ok_iff, label?]
  rw [← Option.isSome_iff_exists, List.isSome_head?]

/-- The symbols of a rule are words. -/
structure Plain (rule : Rule κ) : Prop where
  /-- Those on the left. -/
  lhs : ∀ symbol ∈ rule.lhs.symbols, Text.IsWord symbol
  /-- Those on the right. -/
  rhs : ∀ symbol ∈ rule.rhs.symbols, Text.IsWord symbol

instance (rule : Rule κ) : Decidable rule.Plain :=
  decidable_of_iff ((∀ symbol ∈ rule.lhs.symbols, Text.IsWord symbol) ∧
      ∀ symbol ∈ rule.rhs.symbols, Text.IsWord symbol)
    ⟨fun h => ⟨h.1, h.2⟩, fun h => ⟨h.lhs, h.rhs⟩⟩

/-- If symbols are words, rules that are the same have the same sides. -/
theorem Plain.sides_eq {rule other : Rule κ} (h : rule.Plain) (ho : other.Plain)
    (hkey : rule.key = other.key) : rule.lhs = other.lhs ∧ rule.rhs = other.rhs := by
  obtain ⟨hl, hr⟩ := Prod.mk.inj hkey
  exact ⟨Side.text_inj h.lhs ho.lhs hl, Side.text_inj h.rhs ho.rhs hr⟩

/-- A rule like those of the nodes of trees: its symbols are words, it rewrites one of them, and a
lexical rule has one on the right. -/
structure Proper (rule : Rule κ) : Prop extends rule.Plain where
  /-- There is one symbol on the left. -/
  single : rule.lhs.symbols.length = 1
  /-- A lexical rule has one symbol on the right. -/
  lexical : rule.lexical = true → rule.rhs.symbols.length = 1

/-- Rules with the same sides are the same. -/
theorem key_eq_of_sides {rule other : Rule κ} (hlhs : rule.lhs = other.lhs)
    (hrhs : rule.rhs = other.rhs) : rule.key = other.key := by
  rw [key, key, hlhs, hrhs]

/-- The production of a rule: the text on the left and the symbols on the right. -/
def production (rule : Rule κ) : String × List String := (rule.lhs.text, rule.rhs.symbols)

/-- Rules with the same sides have the same production. -/
theorem production_eq_of_sides {rule other : Rule κ} (hlhs : rule.lhs = other.lhs)
    (hrhs : rule.rhs = other.rhs) : rule.production = other.production := by
  rw [production, production, hlhs, hrhs]

/-- If symbols are words, rules are the same exactly if their productions are. -/
theorem Plain.key_eq_iff {rule other : Rule κ} (h : rule.Plain) (ho : other.Plain) :
    rule.key = other.key ↔ rule.production = other.production := by
  constructor
  · intro hkey
    obtain ⟨hlhs, hrhs⟩ := h.sides_eq ho hkey
    exact production_eq_of_sides hlhs hrhs
  · intro hproduction
    obtain ⟨hlhs, hsymbols⟩ := Prod.mk.inj hproduction
    have hrhs : rule.rhs = other.rhs := congrArg Side.mk hsymbols
    rw [key, key, hlhs, hrhs]

/-- No rule of a list occurs both as a lexical and as a syntactic one. -/
def Unmixed (rules : List (Rule κ)) : Prop :=
  ∀ rule ∈ rules, ∀ other ∈ rules, rule.key = other.key → rule.lexical = other.lexical

instance (rules : List (Rule κ)) : Decidable (Unmixed rules) :=
  inferInstanceAs (Decidable (∀ rule ∈ rules, ∀ other ∈ rules, _ → _))

end Rule

end Constituency
