import WordMachine.Proofs.Building

/-! Where a build without a named output writes, and what becomes of its input. The output is the
input itself when the name of that ends in `.bin` after something else, and a neighbour of the input
otherwise. -/
namespace WordMachine.Cli

namespace Path

variable {path dir name base front s : List Char}

/-- A directory with the separator that goes between it and a name in it. -/
def closed (dir : List Char) : List Char :=
  if dir = [] ∨ dir.getLast? = some '/' then dir else dir ++ ['/']

/-- The directory part `dir'` leads where `dir` leads, in whatever tree, and is no longer. -/
structure Shortens (dir' dir : List Char) : Prop where
  walk : ∀ t : FileTree, t.walk dir' = t.walk dir
  size : (String.ofList dir').utf8ByteSize ≤ (String.ofList dir).utf8ByteSize

end Path

namespace FileTree

variable {t : FileTree} {front s : List Char}

end FileTree

namespace Path

variable {path dir dir' dir'' name front s : List Char}

namespace Shortens

theorem refl (dir : List Char) : Shortens dir dir := ⟨fun _ => rfl, Nat.le_refl _⟩

theorem trans (h : Shortens dir'' dir') (h' : Shortens dir' dir) : Shortens dir'' dir :=
  ⟨fun t => (h.walk t).trans (h'.walk t), Nat.le_trans h.size h'.size⟩

end Shortens

end Path

namespace FileTree

variable {t : FileTree} {input : String} {place : List String}

end FileTree

/-! ### The input of a build -/

section

variable {σ : Type} {s : σ} {input : String} {files : Files (StateM σ)} {d : Disk σ}
  {args : BuildArgs}

end

namespace FileTree

end FileTree

end WordMachine.Cli
