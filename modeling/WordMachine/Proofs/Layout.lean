import Mathlib.Algebra.GroupWithZero.Nat
import Mathlib.Data.List.Induction
import Mathlib.Data.Nat.Find
import Mathlib.Tactic.ByContra
import WordMachine.Proofs.FirstFault
import WordMachine.Source.Layout

/-! Layout of parsed lines: a line begins where the bytes of the lines before it end, and a label
names the beginning of the line that defines it. -/
namespace WordMachine.Source

variable {ls more : List Line} {line : Line} {n k : Nat} {name : String} {cause : Cause}

/-- The address of line `n`, lines being counted from zero. -/
def addressOf (ls : List Line) (n : Nat) : Nat := ((ls.take n).map Line.size).sum

/-- Line `n` defines the label `name`. -/
def Defines (ls : List Line) (n : Nat) (name : String) : Prop :=
  ∃ line, ls[n]? = some line ∧ line.label? = some name

/-- What is wrong with line `n` once its size and its label are counted in. A line that does not
fit is not looked at for its label. -/
inductive LayoutFault (ls : List Line) (n : Nat) : Cause → Prop
  | tooLarge (hn : n < ls.length) (hsize : 65535 < addressOf ls (n + 1)) :
      LayoutFault ls n (.programTooLarge (addressOf ls (n + 1)))
  | duplicate {name : String} {first : Nat} (hsize : addressOf ls (n + 1) ≤ 65535)
      (hn : Defines ls n name) (hlt : first < n) (hfirst : Defines ls first name)
      (hbefore : ∀ k < first, ¬ Defines ls k name) :
      LayoutFault ls n (.duplicateLabel name (first + 1))

theorem addressOf_zero : addressOf ls 0 = 0 := by simp [addressOf]

theorem addressOf_succ (h : ls[n]? = some line) :
    addressOf ls (n + 1) = addressOf ls n + line.size := by
  simp [addressOf, List.take_add_one, h]

theorem addressOf_append (h : n ≤ ls.length) : addressOf (ls ++ more) n = addressOf ls n := by
  rw [addressOf, List.take_append_of_le_length h, addressOf]

theorem addressOf_mono (h : n ≤ k) : addressOf ls n ≤ addressOf ls k := by
  have htake := List.take_append_drop n (ls.take k)
  rw [List.take_take, Nat.min_eq_left h] at htake
  rw [addressOf, addressOf, ← htake]
  simp

section Fields

variable {α : Type} {field : Line → Option α} {x y : α}

theorem lt_of_field (h : ∃ line, ls[n]? = some line ∧ field line = some x) : n < ls.length := by
  obtain ⟨line, hn, -⟩ := h
  exact (List.getElem?_eq_some_iff.1 hn).1

theorem field_unique (h : ∃ line, ls[n]? = some line ∧ field line = some x)
    (h' : ∃ line, ls[n]? = some line ∧ field line = some y) : x = y := by
  obtain ⟨line, hn, hx⟩ := h
  obtain ⟨line', hn', hy⟩ := h'
  rw [hn] at hn'
  cases hn'
  exact Option.some.inj (hx.symm.trans hy)

end Fields

theorem Defines.lt (h : Defines ls n name) : n < ls.length := lt_of_field h

theorem defines_append (h : n < ls.length) : Defines (ls ++ more) n name ↔ Defines ls n name := by
  simp [Defines, List.getElem?_append_left h]

theorem defines_concat :
    Defines (ls ++ [line]) n name ↔
      Defines ls n name ∨ (n = ls.length ∧ line.label? = some name) := by
  constructor
  · intro h
    have hlt := h.lt
    rw [List.length_append, List.length_singleton] at hlt
    rcases Nat.lt_succ_iff_lt_or_eq.1 hlt with hlt | rfl
    · exact .inl ((defines_append hlt).1 h)
    · obtain ⟨line', hl, hlabel⟩ := h
      rw [List.getElem?_concat_length] at hl
      cases hl
      exact .inr ⟨rfl, hlabel⟩
  · rintro (h | ⟨rfl, hlabel⟩)
    · exact (defines_append h.lt).2 h
    · exact ⟨line, List.getElem?_concat_length, hlabel⟩

namespace LayoutFault

theorem lt (h : LayoutFault ls n cause) : n < ls.length := by
  cases h with
  | tooLarge hn => exact hn
  | duplicate _ hn => exact hn.lt

/-- Later lines do not matter. -/
theorem append_iff (h : n < ls.length) :
    LayoutFault (ls ++ more) n cause ↔ LayoutFault ls n cause := by
  have haddr : addressOf (ls ++ more) (n + 1) = addressOf ls (n + 1) := addressOf_append h
  constructor
  · rintro (⟨-, hsize⟩ | ⟨hsize, hn, hlt, hfirst, hbefore⟩)
    · rw [haddr] at hsize ⊢
      exact .tooLarge h hsize
    · rw [haddr] at hsize
      refine .duplicate hsize ((defines_append h).1 hn) hlt
        ((defines_append (by omega)).1 hfirst) ?_
      intro k hk hdef
      exact hbefore k hk ((defines_append (by omega)).2 hdef)
  · rintro (⟨-, hsize⟩ | ⟨hsize, hn, hlt, hfirst, hbefore⟩)
    · rw [← haddr] at hsize ⊢
      exact .tooLarge (by simp; omega) hsize
    · rw [← haddr] at hsize
      refine .duplicate hsize ((defines_append h).2 hn) hlt
        ((defines_append (by omega)).2 hfirst) ?_
      intro k hk hdef
      exact hbefore k hk ((defines_append (by omega)).1 hdef)

theorem unique {cause' : Cause} (h : LayoutFault ls n cause) (h' : LayoutFault ls n cause') :
    cause = cause' := by
  cases h with
  | tooLarge _ hsize =>
    cases h' with
    | tooLarge => rfl
    | duplicate hsize' => omega
  | duplicate hsize hn _ hfirst hbefore =>
    cases h' with
    | tooLarge _ hsize' => omega
    | @duplicate name' first' _ hn' _ hfirst' hbefore' =>
      cases field_unique hn hn'
      rename_i first _ _ _
      have hnotlt : ¬ first' < first := fun hlt => hbefore _ hlt hfirst'
      have hnotlt' : ¬ first < first' := fun hlt => hbefore' _ hlt hfirst
      have heq : first = first' := by omega
      rw [heq]

/-- A line without a label can only be too large. -/
theorem size_of_label_none (hlabel : line.label? = none)
    (h : LayoutFault (ls ++ [line]) ls.length cause) :
    65535 < addressOf (ls ++ [line]) (ls.length + 1) := by
  rcases h with ⟨-, hsize⟩ | ⟨-, ⟨line', hget, hname⟩, -⟩
  · exact hsize
  · rw [List.getElem?_concat_length] at hget
    cases hget
    simp [hlabel] at hname

/-- The first fault of a longer text is an old one, or else lies in the new line. -/
theorem reports_concat {e : Error} :
    Reports (LayoutFault (ls ++ [line])) e ↔
      Reports (LayoutFault ls) e ∨
        ((∀ n cause, ¬ LayoutFault ls n cause) ∧ e.line = ls.length + 1 ∧
          LayoutFault (ls ++ [line]) ls.length e.cause) := by
  constructor
  · rintro ⟨n, hline, hfault, hbefore⟩
    have hlt := hfault.lt
    rw [List.length_append, List.length_singleton] at hlt
    have hold : ∀ k < n, ∀ cause, ¬ LayoutFault ls k cause :=
      fun k hk cause hcause => hbefore k hk cause ((append_iff hcause.lt).2 hcause)
    rcases Nat.lt_succ_iff_lt_or_eq.1 hlt with hlt | rfl
    · exact .inl ⟨n, hline, (append_iff hlt).1 hfault, hold⟩
    · exact .inr ⟨fun k cause hcause => hold k hcause.lt cause hcause, hline, hfault⟩
  · rintro (⟨n, hline, hfault, hbefore⟩ | ⟨hnone, hline, hfault⟩)
    · refine ⟨n, hline, (append_iff hfault.lt).2 hfault, ?_⟩
      intro k hk cause hcause
      exact hbefore k hk cause ((append_iff (Nat.lt_trans hk hfault.lt)).1 hcause)
    · refine ⟨ls.length, hline, hfault, ?_⟩
      intro k hk cause hcause
      exact hnone k cause ((append_iff hk).1 hcause)

/-- No line is at fault exactly when the bytes fit a program and labels are defined once. -/
theorem none_iff :
    (∀ n cause, ¬ LayoutFault ls n cause) ↔
      addressOf ls ls.length ≤ Program.maxBytes ∧
        ∀ name i j, Defines ls i name → Defines ls j name → i = j := by
  constructor
  · intro hnone
    have hfits : ∀ n < ls.length, addressOf ls (n + 1) ≤ 65535 := by
      intro n hn
      by_contra hlt
      exact hnone n _ (.tooLarge hn (Nat.lt_of_not_le hlt))
    have hle : ∀ name i j, Defines ls i name → Defines ls j name → i ≤ j := by
      classical
      intro name i j hi hj
      by_contra hlt
      have hex : ∃ k, Defines ls k name := ⟨j, hj⟩
      have hfirst : Nat.find hex ≤ j := Nat.find_min' hex hj
      exact hnone i _ (.duplicate (hfits i hi.lt) hi (by omega) (Nat.find_spec hex)
        fun k hk => Nat.find_min hex hk)
    constructor
    · cases hlen : ls.length with
      | zero => simp [addressOf_zero]
      | succ n => exact hfits n (by omega)
    · intro name i j hi hj
      exact Nat.le_antisymm (hle name i j hi hj) (hle name j i hj hi)
  · rintro ⟨hfits, hunique⟩ n cause (⟨hn, hsize⟩ | ⟨-, hn, hlt, hfirst, -⟩)
    · have hmono : addressOf ls (n + 1) ≤ addressOf ls ls.length := addressOf_mono hn
      simp only [Program.maxBytes] at hfits
      omega
    · exact absurd (hunique _ _ _ hfirst hn) (by omega)

end LayoutFault

namespace Layout

variable {l l' : Layout}

/-- A layout that holds these lines: each at its address, and each label at its definition. -/
structure Describes (l : Layout) (ls : List Line) : Prop where
  fits : addressOf ls ls.length ≤ Program.maxBytes
  size_eq : l.size = addressOf ls ls.length
  lines_eq : l.lines.toList =
    ls.mapIdx fun n line => { address := .ofNat (addressOf ls n), line, number := n + 1 }
  symbol_iff : ∀ name s, l.symbols[name]? = some s ↔
    ∃ n, Defines ls n name ∧ s = { address := .ofNat (addressOf ls n), definedAt := n + 1 }

theorem ofLines_concat :
    ofLines (ls ++ [line]) = ofLines ls >>= fun l => l.add (ls.length + 1) line := by
  simp [ofLines, List.zipIdx_append, List.foldlM_append, Nat.add_comm]

theorem describes_nil : Describes {} [] where
  fits := by simp [addressOf_zero]
  size_eq := by simp [addressOf_zero]
  lines_eq := rfl
  symbol_iff := by simp [Defines]

namespace Describes

variable (h : l.Describes ls)
include h

theorem size_add : l.size + line.size = addressOf (ls ++ [line]) (ls.length + 1) := by
  rw [h.size_eq, addressOf_succ List.getElem?_concat_length, addressOf_append (Nat.le_refl _)]

/-- Addresses in the layout do not wrap. -/
theorem toNat_address (hn : n ≤ ls.length) :
    (UInt16.ofNat (addressOf ls n)).toNat = addressOf ls n := by
  have hle := Nat.le_trans (addressOf_mono hn) h.fits
  simp only [Program.maxBytes] at hle
  exact UInt16.toNat_ofNat_of_lt' (by simp only [UInt16.size]; omega)

theorem map_line : l.lines.toList.map Placed.line = ls := by
  apply List.ext_getElem?
  intro n
  rw [List.getElem?_map, h.lines_eq, List.getElem?_mapIdx]
  cases ls[n]? <;> rfl

theorem symbols_eq_none_iff : l.symbols[name]? = none ↔ ∀ n, ¬ Defines ls n name := by
  rw [Option.eq_none_iff_forall_ne_some]
  constructor
  · intro hnone n hn
    exact hnone _ ((h.symbol_iff name _).2 ⟨n, hn, rfl⟩)
  · intro hnone s hs
    obtain ⟨n, hn, -⟩ := (h.symbol_iff name s).1 hs
    exact hnone n hn

theorem defines_unique (hn : Defines ls n name) (hk : Defines ls k name) : n = k := by
  have hsn := (h.symbol_iff name _).2 ⟨n, hn, rfl⟩
  have hsk := (h.symbol_iff name _).2 ⟨k, hk, rfl⟩
  rw [hsn] at hsk
  simpa using congrArg Symbol.definedAt (Option.some.inj hsk)

/-- A name that the table has is taken, and its entry tells the line that took it. -/
theorem duplicate_iff (hlabel : line.label? = some name)
    (hfits : addressOf (ls ++ [line]) (ls.length + 1) ≤ 65535) :
    LayoutFault (ls ++ [line]) ls.length cause ↔
      ∃ s, l.symbols[name]? = some s ∧ cause = .duplicateLabel name s.definedAt := by
  constructor
  · rintro (⟨-, hsize⟩ | ⟨-, hn, hlt, hfirst, -⟩)
    · omega
    · rename_i name' first
      have hname : Defines (ls ++ [line]) ls.length name :=
        defines_concat.2 (.inr ⟨rfl, hlabel⟩)
      cases field_unique hn hname
      exact ⟨_, (h.symbol_iff name _).2 ⟨first, (defines_append hlt).1 hfirst, rfl⟩, rfl⟩
  · rintro ⟨s, hs, rfl⟩
    obtain ⟨first, hfirst, rfl⟩ := (h.symbol_iff name s).1 hs
    refine .duplicate hfits (defines_concat.2 (.inr ⟨rfl, hlabel⟩)) hfirst.lt
      ((defines_append hfirst.lt).2 hfirst) ?_
    intro k hk hdef
    have hklt : k < ls.length := Nat.lt_trans hk hfirst.lt
    have heq := h.defines_unique hfirst ((defines_append hklt).1 hdef)
    omega

theorem add_eq_error_iff {e : Error} :
    l.add (ls.length + 1) line = .error e ↔
      e.line = ls.length + 1 ∧ LayoutFault (ls ++ [line]) ls.length e.cause := by
  obtain ⟨cause, number⟩ := e
  have hsize : l.size + line.size = addressOf (ls ++ [line]) (ls.length + 1) := h.size_add
  simp only [add, hsize, Program.maxBytes]
  by_cases hfits : 65535 < addressOf (ls ++ [line]) (ls.length + 1)
  · rw [if_pos hfits]
    have hfault : LayoutFault (ls ++ [line]) ls.length _ := .tooLarge (by simp) hfits
    constructor
    · intro heq
      cases heq
      exact ⟨rfl, hfault⟩
    · rintro ⟨rfl, hcause⟩
      rw [hcause.unique hfault]
  · rw [if_neg hfits]
    cases hlabel : line.label? with
    | none =>
      simp only [reduceCtorEq, false_iff, not_and]
      exact fun _ hfault => hfits (hfault.size_of_label_none hlabel)
    | some name =>
      simp only [h.duplicate_iff hlabel (Nat.le_of_not_lt hfits)]
      cases hs : l.symbols[name]? with
      | none => simp
      | some s =>
        simp only [Except.error.injEq, Error.mk.injEq, Option.some.injEq, exists_eq_left']
        constructor
        · rintro ⟨rfl, rfl⟩
          exact ⟨rfl, rfl⟩
        · rintro ⟨rfl, rfl⟩
          exact ⟨rfl, rfl⟩

/-- What is added when nothing is wrong: the line at the end, and its label if it has one. -/
theorem add_eq_ok (hadd : l.add (ls.length + 1) line = .ok l') :
    addressOf (ls ++ [line]) (ls.length + 1) ≤ Program.maxBytes ∧
      l'.size = l.size + line.size ∧
      l'.lines = l.lines.push { address := .ofNat l.size, line, number := ls.length + 1 } ∧
      ∀ name s, l'.symbols[name]? = some s ↔
        l.symbols[name]? = some s ∨ (line.label? = some name ∧
          s = { address := .ofNat l.size, definedAt := ls.length + 1 }) := by
  rw [← h.size_add]
  simp only [add] at hadd
  by_cases hfits : Program.maxBytes < l.size + line.size
  · simp [hfits] at hadd
  · rw [if_neg hfits] at hadd
    refine ⟨Nat.le_of_not_lt hfits, ?_⟩
    cases hlabel : line.label? with
    | none =>
      simp only [hlabel, Except.ok.injEq] at hadd
      subst hadd
      simp
    | some name =>
      simp only [hlabel] at hadd
      cases hs : l.symbols[name]? with
      | some s => simp [hs] at hadd
      | none =>
        simp only [hs, Except.ok.injEq] at hadd
        subst hadd
        refine ⟨rfl, rfl, ?_⟩
        intro name' s
        rw [Std.TreeMap.getElem?_insert]
        by_cases heq : name = name'
        · subst heq
          simp [hs, eq_comm]
        · simp [heq]

theorem concat (hadd : l.add (ls.length + 1) line = .ok l') : l'.Describes (ls ++ [line]) := by
  obtain ⟨hfits, hsize, hlines, hsymbol⟩ := h.add_eq_ok hadd
  have hlen : (ls ++ [line]).length = ls.length + 1 := by simp
  have haddr : ∀ n ≤ ls.length, addressOf (ls ++ [line]) n = addressOf ls n :=
    fun n hn => addressOf_append hn
  refine ⟨by rwa [hlen], by rw [hlen, hsize, h.size_add], ?_, ?_⟩
  · rw [hlines, Array.toList_push, List.mapIdx_concat, h.lines_eq, h.size_eq,
      haddr _ (Nat.le_refl _), List.append_cancel_right_eq, List.mapIdx_eq_mapIdx_iff]
    intro n hn
    rw [haddr n (Nat.le_of_lt hn)]
  · intro name s
    rw [hsymbol, h.symbol_iff]
    constructor
    · rintro (⟨n, hn, rfl⟩ | ⟨hlabel, rfl⟩)
      · exact ⟨n, defines_concat.2 (.inl hn), by rw [haddr n (Nat.le_of_lt hn.lt)]⟩
      · exact ⟨ls.length, defines_concat.2 (.inr ⟨rfl, hlabel⟩), by
          rw [haddr _ (Nat.le_refl _), h.size_eq]⟩
    · rintro ⟨n, hn, rfl⟩
      rcases defines_concat.1 hn with hn | ⟨rfl, hlabel⟩
      · exact .inl ⟨n, hn, by rw [haddr n (Nat.le_of_lt hn.lt)]⟩
      · exact .inr ⟨hlabel, by rw [haddr _ (Nat.le_refl _), h.size_eq]⟩

end Describes

/-- By induction from the end, where the layout of a text is that of the text without its last line
and one more step. -/
theorem ofLines_spec :
    (∀ e, ofLines ls = .error e ↔ Reports (LayoutFault ls) e) ∧
      ∀ l, ofLines ls = .ok l → l.Describes ls := by
  induction ls using List.reverseRecOn with
  | nil =>
    constructor
    · intro e
      constructor
      · intro h
        cases h
      · rintro ⟨n, -, hfault, -⟩
        exact absurd hfault.lt (Nat.not_lt_zero n)
    · rintro l ⟨⟩
      exact describes_nil
  | append_singleton ls line ih =>
    obtain ⟨herror, hok⟩ := ih
    rw [ofLines_concat]
    constructor
    · intro e
      rw [bind_eq_error_iff, LayoutFault.reports_concat, herror, ← exists_ok_iff_of_reports herror]
      refine or_congr_right ?_
      constructor
      · rintro ⟨l, hl, hadd⟩
        exact ⟨⟨l, hl⟩, (hok l hl).add_eq_error_iff.1 hadd⟩
      · rintro ⟨⟨l, hl⟩, hfault⟩
        exact ⟨l, hl, (hok l hl).add_eq_error_iff.2 hfault⟩
    · intro l' hl'
      obtain ⟨l, hl, hadd⟩ := bind_eq_ok_iff.1 hl'
      exact (hok l hl).concat hadd

/-- Layout stops at the first line that does not fit or that defines a label again. -/
theorem ofLines_eq_error_iff {e : Error} :
    ofLines ls = .error e ↔ Reports (LayoutFault ls) e := ofLines_spec.1 e

theorem describes_of_ofLines (h : ofLines ls = .ok l) : l.Describes ls := ofLines_spec.2 l h

theorem exists_ofLines_iff :
    (∃ l, ofLines ls = .ok l) ↔ ∀ n cause, ¬ LayoutFault ls n cause :=
  exists_ok_iff_of_reports ofLines_spec.1

end Layout

end WordMachine.Source
