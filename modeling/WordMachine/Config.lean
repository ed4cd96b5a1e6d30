import WordMachine.Memory

/-! Limits of a run. -/
namespace WordMachine

structure Config where
  maxSteps : Nat := 1000
  memoryWords : Nat := Memory.defaultWords
  memoryWords_pos : 0 < memoryWords := by decide
  memoryWords_le : memoryWords ≤ Memory.maxWords := by decide
  deriving DecidableEq

/-- A memory size that no memory can have. -/
inductive ConfigError
  | memoryWords (requested : Nat)
  deriving DecidableEq, Repr

def ConfigError.message : ConfigError → String
  | memoryWords requested =>
    "memory size must be between 1 and " ++ Memory.maxWords.repr ++ " words, got " ++
      requested.repr

namespace Config

def ofLimits (maxSteps memoryWords : Nat) : Except ConfigError Config :=
  if h : 0 < memoryWords ∧ memoryWords ≤ Memory.maxWords then
    .ok { maxSteps, memoryWords, memoryWords_pos := h.1, memoryWords_le := h.2 }
  else .error (.memoryWords memoryWords)

def withMaxSteps (c : Config) (maxSteps : Nat) : Config := { c with maxSteps }

end Config

end WordMachine
