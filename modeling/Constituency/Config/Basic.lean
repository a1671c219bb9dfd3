import Constituency.Markovization
import Constituency.Tagging

/-!
# Configurations

A configuration says how a grammar is trained, which symbols a sentence is derived from and which
label stands over its tree, and how unknown words are treated.
-/

namespace Constituency

/-- The settings of training and decoding. -/
structure Config (κ : Type) where
  /-- How much history introduced symbols keep. -/
  markovization : Markovization
  /-- The number of sentences that are decoded at the same time; none leaves it to the machine. -/
  threads : Option Nat
  /-- The symbol that a sentence is derived from. -/
  startSymbol : String
  /-- The label over every tree. -/
  topSymbol : String
  /-- The part of speech in the tree of a sentence without a derivation. -/
  baselineTag : String
  /-- After how many sentences progress is reported. -/
  progressEvery : Nat
  /-- The tables for unknown words. -/
  unknown : UnknownWords κ
  deriving DecidableEq

/-- Why a configuration is refused. -/
inductive ConfigError where
  /-- The text is no configuration. -/
  | malformed
  /-- The text gives an order of Markovization that there is not. -/
  | order (error : Markovization.InvalidOrder)
  /-- The number of threads is not possible. -/
  | threads (count : Nat)
  deriving DecidableEq

/-- The wording of an error. -/
def ConfigError.message : ConfigError → String
  | .malformed => "JSON de configuração inválido"
  | .order error => error.message
  | .threads count => s!"número de threads inválido: {count}"

namespace Config

variable {κ : Type}

/-- The defaults, with a bias factor for unknown words. -/
def standard (biasFactor : κ) : Config κ where
  markovization := .unbounded
  threads := none
  startSymbol := "S"
  topSymbol := "TOP"
  baselineTag := "NN"
  progressEvery := 10
  unknown := .standard biasFactor

/-- The defaults over doubles: a favoured part of speech costs half. -/
def default : Config Float := standard 0.5

/-- Checks the number of threads. -/
def validate (config : Config κ) : Except ConfigError Unit :=
  match config.threads with
  | some 0 => .error (.threads 0)
  | _ => .ok ()

end Config

end Constituency
