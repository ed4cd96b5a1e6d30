import WordMachine.Opcode.Index
import WordMachine.Proofs.Spacing

/-! The mnemonic index: a word finds the opcode whose mnemonic it spells, in either case of the
ASCII letters, and no other word finds one. -/
namespace WordMachine

/-! ### Letters -/

namespace Text

variable {c d : Char} {word capitals : List Char}

theorem isUpper_iff : c.isUpper = true ↔ 65 ≤ c.toNat ∧ c.toNat ≤ 90 :=
  decide_eq_true_iff

theorem isLower_iff : c.isLower = true ↔ 97 ≤ c.toNat ∧ c.toNat ≤ 122 :=
  Bool.and_eq_true_iff.trans (and_congr decide_eq_true_iff decide_eq_true_iff)

theorem toNat_toLower :
    c.toLower.toNat = if 65 ≤ c.toNat ∧ c.toNat ≤ 90 then c.toNat + 32 else c.toNat := by
  delta Char.toLower
  simp only [← Char.toNat_val]
  split <;> grind [UInt32.toNat_add, UInt32.le_iff_toNat_le]

theorem toNat_toUpper :
    c.toUpper.toNat = if 97 ≤ c.toNat ∧ c.toNat ≤ 122 then c.toNat - 32 else c.toNat := by
  delta Char.toUpper
  simp only [← Char.toNat_val]
  split <;> grind [UInt32.toNat_add, UInt32.le_iff_toNat_le]

theorem toLower_eq_toLower_iff (hd : d.isUpper = true) :
    c.toLower = d.toLower ↔ c.toUpper = d := by
  have hrange := isUpper_iff.1 hd
  rw [← Char.toNat_inj, ← Char.toNat_inj, toNat_toLower, toNat_toLower, toNat_toUpper,
    if_pos hrange]
  split_ifs <;> omega

theorem isAlpha_of_isUpper_toUpper (h : c.toUpper.isUpper = true) : c.isAlpha = true := by
  have hrange := isUpper_iff.1 h
  rw [toNat_toUpper] at hrange
  refine Bool.or_eq_true_iff.2 ?_
  rw [isUpper_iff, isLower_iff]
  split_ifs at hrange <;> omega

theorem map_toLower_eq_iff (h : ∀ d ∈ capitals, d.isUpper = true) :
    word.map Char.toLower = capitals.map Char.toLower ↔ word.map Char.toUpper = capitals := by
  induction word generalizing capitals with
  | nil => cases capitals <;> simp
  | cons c word ih =>
    cases capitals with
    | nil => simp
    | cons d capitals =>
      rw [List.forall_mem_cons] at h
      simp only [List.map_cons, List.cons.injEq, toLower_eq_toLower_iff h.1, ih h.2]

end Text

/-! ### Spellings -/

namespace Opcode

variable {op other : Opcode} {name : String} {word : List Char} {c : Char}

/-- The word is the mnemonic of the opcode, up to the case of its ASCII letters. -/
def SpelledAs (op : Opcode) (word : List Char) : Prop :=
  word.map Char.toLower = op.mnemonic.toList.map Char.toLower

theorem spelledAs_mnemonic (op : Opcode) : op.SpelledAs op.mnemonic.toList := rfl

theorem resolve?_mnemonic (op : Opcode) : resolve? op.mnemonic = some op := by
  have hall : ∀ op ∈ all, resolve? op.mnemonic = some op := by decide +kernel
  exact hall op (mem_all op)

theorem mnemonic_ne_nil (op : Opcode) : op.mnemonic.toList ≠ [] := by cases op <;> decide

theorem isUpper_of_mem_mnemonic (h : c ∈ op.mnemonic.toList) : c.isUpper = true := by
  have hall : op.mnemonic.toList.all Char.isUpper = true := by cases op <;> decide
  exact List.all_eq_true.1 hall c h

/-- Mnemonics are in capital letters, so it is enough to raise the letters of the word. -/
theorem spelledAs_iff : op.SpelledAs word ↔ word.map Char.toUpper = op.mnemonic.toList :=
  Text.map_toLower_eq_iff fun _ => isUpper_of_mem_mnemonic

/-- What the index holds under a name has that name for its mnemonic. -/
theorem mnemonic_of_index (h : index[name]? = some op) : op.mnemonic = name := by
  have hfold : ∀ (ops : List Opcode) (m : Std.TreeMap String Opcode),
      (∀ op, m[name]? = some op → op.mnemonic = name) → ∀ op,
      (ops.foldl (fun m op => m.insert op.mnemonic op) m)[name]? = some op →
        op.mnemonic = name := by
    intro ops
    induction ops with
    | nil => exact fun m hm => hm
    | cons first ops ih =>
      intro m hm
      refine ih _ fun op hop => ?_
      rw [Std.TreeMap.getElem?_insert] at hop
      split at hop
      · rename_i heq
        cases hop
        exact Std.LawfulEqCmp.eq_of_compare heq
      · exact hm op hop
  exact hfold all ∅ (by simp) op h

theorem resolve?_ofList (word : List Char) :
    resolve? (String.ofList word) = index[String.ofList (word.map Char.toUpper)]? := by
  have hupper : (String.ofList word).toUpper = String.ofList (word.map Char.toUpper) := by
    rw [← String.toList_inj]
    simp [String.toUpper]
  rw [resolve?, hupper]

theorem resolve?_eq_some_iff : resolve? (String.ofList word) = some op ↔ op.SpelledAs word := by
  rw [resolve?_ofList, spelledAs_iff]
  constructor
  · intro h
    rw [mnemonic_of_index h, String.toList_ofList]
  · intro h
    have hself : op.mnemonic.toList.map Char.toUpper = op.mnemonic.toList :=
      spelledAs_iff.1 (spelledAs_mnemonic op)
    have hindex := resolve?_mnemonic op
    rw [← String.ofList_toList (s := op.mnemonic), resolve?_ofList, hself] at hindex
    rw [h, hindex]

theorem resolve?_eq_none_iff :
    resolve? (String.ofList word) = none ↔ ∀ op : Opcode, ¬ op.SpelledAs word := by
  simp [Option.eq_none_iff_forall_ne_some, resolve?_eq_some_iff]

theorem SpelledAs.isAlphanum (h : op.SpelledAs word) (hc : c ∈ word) : c.isAlphanum = true := by
  have hmem : c.toUpper ∈ op.mnemonic.toList := spelledAs_iff.1 h ▸ List.mem_map_of_mem hc
  rw [Char.isAlphanum, Text.isAlpha_of_isUpper_toUpper (isUpper_of_mem_mnemonic hmem),
    Bool.true_or]

theorem SpelledAs.isWord (h : op.SpelledAs word) : Text.IsWord word := by
  refine ⟨?_, fun c hc => Text.isBlank_of_isAlphanum (h.isAlphanum hc)⟩
  rintro rfl
  exact mnemonic_ne_nil op (spelledAs_iff.1 h).symm

theorem SpelledAs.no_colon (h : op.SpelledAs word) : ':' ∉ word := by
  intro hc
  have hcolon := h.isAlphanum hc
  revert hcolon
  decide

theorem SpelledAs.unique (h : op.SpelledAs word) (h' : other.SpelledAs word) : op = other := by
  have hop := resolve?_eq_some_iff.2 h
  rw [resolve?_eq_some_iff.2 h'] at hop
  exact (Option.some.inj hop).symm

theorem spelledAs_iff_toLower :
    op.SpelledAs name.toList ↔ (op.mnemonic.toLower == name.toLower) = true := by
  have hlower (s : String) : s.toLower.toList = s.toList.map Char.toLower := String.toList_map
  rw [beq_iff_eq, ← String.toList_inj, hlower, hlower, SpelledAs, eq_comm]

theorem spelledAs_of_ofMnemonic? (h : ofMnemonic? name = some op) :
    op.SpelledAs name.toList := by
  rw [ofMnemonic?, List.find?_eq_some_iff_append] at h
  exact spelledAs_iff_toLower.2 h.1

/-- No name spells two mnemonics of the catalog, so the first match is the only one. -/
theorem ofMnemonic?_eq_some_iff : ofMnemonic? name = some op ↔ op.SpelledAs name.toList := by
  constructor
  · exact spelledAs_of_ofMnemonic?
  · intro h
    have hsome : (ofMnemonic? name).isSome = true :=
      List.find?_isSome.2 ⟨op, mem_all op, spelledAs_iff_toLower.1 h⟩
    obtain ⟨first, hfirst⟩ := Option.isSome_iff_exists.1 hsome
    rw [hfirst, (spelledAs_of_ofMnemonic? hfirst).unique h]

/-- The index and a search through the catalog find the same opcode, the one whose mnemonic the name
spells, and its byte leads back to it. -/
theorem resolve_eq_search (name : String) :
    resolve? name = ofMnemonic? name ∧
      (∀ op, resolve? name = some op ↔ op.SpelledAs name.toList) ∧
      ∀ op, resolve? name = some op → ofCode? op.code = some op := by
  have hspelled : ∀ op, resolve? name = some op ↔ op.SpelledAs name.toList := by
    intro op
    rw [← resolve?_eq_some_iff, String.ofList_toList]
  refine ⟨Option.ext fun op => ?_, hspelled, fun op _ => ofCode?_code op⟩
  exact (hspelled op).trans ofMnemonic?_eq_some_iff.symm

/-- Only ASCII letters have two cases here, though the long s has an ordinary capital. -/
example : resolve? "sta" = some sta ∧ resolve? "ſta" = none ∧ ofMnemonic? "ſta" = none := by
  decide +kernel

end Opcode

end WordMachine
