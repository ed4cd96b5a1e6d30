import Mathlib.Data.Set.Function
import WordMachine.Proofs.Acceptance

/-! Relabelling: other names for the labels and other numbers for the lines. Both passes run the
same on lines that are relabelled, and end in the same result or the same error, relabelled. -/
namespace WordMachine.Source

/-- The new name of a label and the new number of a line. -/
structure Relabelling where
  name : String → String
  number : Nat → Nat

/-- The names of labels, those that are defined and those that are used. -/
def labelNames (ls : List Line) : Set String :=
  {name | ∃ line ∈ ls, line.label? = some name ∨
    ∃ s, line.statement? = some s ∧ s.argument? = some (.label name)}

/-- Line `n` where it stands among these lines. -/
def placedAt (ls : List Line) (n : Nat) (line : Line) : Placed :=
  { address := .ofNat (addressOf ls n), line, number := n + 1 }

/-- Both passes over parsed lines. The texts are those of the lines and go into the listing. -/
def passes (texts : List (List Char)) (ls : List Line) : Except Error (Layout × List Listed) := do
  let layout ← Layout.ofLines ls
  let listing ← layout.listing texts
  return (layout, listing)

theorem assembleLines_eq_passes {texts : List (List Char)} :
    assembleLines texts = parseLines texts >>= fun ls => passes texts ls >>= fun z =>
      pure
        { program := .ofList (z.2.flatMap (·.bytes)), listing := z.2, symbols := z.1.symbols } := by
  simp [assembleLines, passes]

namespace Relabelling

variable (ρ : Relabelling)

def cause : Cause → Cause
  | .duplicateLabel name first => .duplicateLabel (ρ.name name) (ρ.number first)
  | .undefinedLabel name => .undefinedLabel (ρ.name name)
  | cause => cause

def error (e : Error) : Error := { cause := ρ.cause e.cause, line := ρ.number e.line }

def symbol (s : Symbol) : Symbol := { s with definedAt := ρ.number s.definedAt }

def argument : Argument → Argument
  | .number value => .number value
  | .label name => .label (ρ.name name)

def statement (s : Statement) : Statement := { s with argument? := s.argument?.map ρ.argument }

def line : Line → Line
  | .blank => .blank
  | .label name => .label (ρ.name name)
  | .statement label? body => .statement (label?.map ρ.name) (ρ.statement body)

def placed (p : Placed) : Placed :=
  { address := p.address, line := ρ.line p.line, number := ρ.number p.number }

def listed (x : Listed) : Listed := { x with line := ρ.number x.line }

def numbered (z : Line × Nat) : Line × Nat := (ρ.line z.1, ρ.number z.2)

/-- A statement where it stands, with the text of its line. -/
def standing (z : Placed × Statement × List Char) : Placed × Statement × List Char :=
  (ρ.placed z.1, ρ.statement z.2.1, z.2.2)

@[simp] theorem size_line (line : Line) : (ρ.line line).size = line.size := by
  cases line <;> rfl

@[simp] theorem label?_line (line : Line) : (ρ.line line).label? = line.label?.map ρ.name := by
  cases line <;> rfl

@[simp] theorem statement?_line (line : Line) :
    (ρ.line line).statement? = line.statement?.map ρ.statement := by
  cases line <;> rfl

/-- Two runs that end alike: in related results, or in an error that is relabelled. -/
inductive Parallel {α β : Type} (R : α → β → Prop) : Except Error α → Except Error β → Prop
  | ok {a : α} {b : β} (h : R a b) : Parallel R (.ok a) (.ok b)
  | error (e : Error) : Parallel R (.error e) (.error (ρ.error e))

/-- The tables have the same labels with the same addresses, relabelled. -/
structure Renames (names : Set String) (t t' : Symbols) : Prop where
  known : ∀ (name : String) (symbol : Symbol), t[name]? = some symbol → name ∈ names
  lookup_iff : ∀ (name' : String) (symbol' : Symbol), t'[name']? = some symbol' ↔
    ∃ name symbol, t[name]? = some symbol ∧ ρ.name name = name' ∧ ρ.symbol symbol = symbol'

/-- What later lines see of the two layouts is the same, relabelled. -/
structure Carries (names : Set String) (l l' : Layout) : Prop where
  size_eq : l'.size = l.size
  fits : l.size ≤ Program.maxBytes
  symbols : ρ.Renames names l.symbols l'.symbols

variable {ρ} {names : Set String} {t t' : Symbols} {l l' : Layout} {ls ls' : List Line}
  {line : Line} {s : Statement} {argument : Argument} {address : UInt16} {name : String}
  {texts texts' : List (List Char)} {α β γ δ : Type} {R : α → β → Prop} {S : γ → δ → Prop}
  {x : Except Error α} {y : Except Error β} {f : α → Except Error γ} {g : β → Except Error δ}

/-! ### Runs side by side -/

theorem Parallel.bind (h : ρ.Parallel R x y)
    (hf : ∀ a b, x = .ok a → y = .ok b → R a b → ρ.Parallel S (f a) (g b)) :
    ρ.Parallel S (x >>= f) (y >>= g) := by
  cases h with
  | ok hab => exact hf _ _ rfl rfl hab
  | error e => exact .error e

theorem Parallel.imp {R' : α → β → Prop} (h : ρ.Parallel R x y)
    (himp : ∀ a b, R a b → R' a b) : ρ.Parallel R' x y := by
  cases h with
  | ok hab => exact .ok (himp _ _ hab)
  | error e => exact .error e

theorem Parallel.mapM {f : α → Except Error γ} {g : β → Except Error δ} {φ : α → β} {ψ : γ → δ}
    (xs : List α) (h : ∀ x ∈ xs, ρ.Parallel (fun c d => d = ψ c) (f x) (g (φ x))) :
    ρ.Parallel (fun cs ds => ds = cs.map ψ) (xs.mapM f) ((xs.map φ).mapM g) := by
  induction xs with
  | nil => exact .ok rfl
  | cons x xs ih =>
    rw [List.mapM_cons, List.map_cons, List.mapM_cons]
    have hrest := ih fun x' hx' => h x' (List.mem_cons_of_mem x hx')
    refine (h x List.mem_cons_self).bind fun c d _ _ hd => hrest.bind fun cs ds _ _ hds => ?_
    exact .ok (by rw [hd, hds, List.map_cons])

/-! ### Lines -/

theorem ofLines_eq_foldlM :
    Layout.ofLines ls = (ls.zipIdx 1).foldlM (fun l z => l.add z.2 z.1) {} := rfl

theorem lines_eq_placedAt (h : l.Describes ls) : l.lines.toList = ls.mapIdx (placedAt ls) :=
  h.lines_eq

theorem mapIdx_map_line {f g : Nat → Line → Placed}
    (h : ∀ n < ls.length, ∀ line, g n (ρ.line line) = ρ.placed (f n line)) :
    (ls.map ρ.line).mapIdx g = (ls.mapIdx f).map ρ.placed := by
  rw [List.mapIdx_eq_iff]
  intro n
  rw [List.getElem?_map, List.getElem?_map, List.getElem?_mapIdx, Option.map_map, Option.map_map]
  refine Option.map_congr fun line hline => ?_
  obtain ⟨hn, -⟩ := List.getElem?_eq_some_iff.1 hline
  exact (h n hn line).symm

theorem mem_labelNames_of_statement (h : l.Describes ls) {z : Placed × Statement × List Char}
    (hz : z ∈ l.statements texts) (harg : z.2.1.argument? = some (.label name)) :
    name ∈ labelNames ls := by
  obtain ⟨⟨placed, cs⟩, hmem, hsome⟩ := List.mem_filterMap.1 hz
  obtain ⟨s, hs, rfl⟩ := Option.map_eq_some_iff.1 hsome
  have hline : placed.line ∈ ls := by
    rw [← h.map_line]
    exact List.mem_map_of_mem (List.of_mem_zip hmem).1
  exact ⟨placed.line, hline, .inr ⟨s, hs, harg⟩⟩

theorem addressOf_map_line (ρ : Relabelling) (n : Nat) :
    addressOf (ls.map ρ.line) n = addressOf ls n := by
  simp [addressOf, ← List.map_take, Function.comp_def]

/-- A relabelled line holds a statement where the line does. -/
theorem filterMap_standing (zs : List (Placed × List Char)) :
    ((zs.map (Prod.map ρ.placed id)).filterMap fun (placed, cs) =>
        placed.line.statement?.map fun s => (placed, s, cs)) =
      (zs.filterMap fun (placed, cs) =>
        placed.line.statement?.map fun s => (placed, s, cs)).map ρ.standing := by
  rw [List.filterMap_map, List.map_filterMap]
  congr 1
  funext ⟨placed, cs⟩
  simp [Relabelling.placed, standing, Function.comp_def]

/-! ### Tables -/

/-- An operand that does not fit is not a matter of names. -/
theorem mapError_operandBytes (ρ : Relabelling) (opcode : Opcode) (address value : UInt16) :
    (operandBytes opcode address value).mapError ρ.cause = operandBytes opcode address value := by
  cases h : operandBytes opcode address value with
  | ok bytes => rfl
  | error cause =>
    obtain ⟨-, offset, -, -, rfl⟩ := operandBytes_eq_error_iff.1 h
    rfl

theorem renames_empty : ρ.Renames names ∅ ∅ where
  known := by simp
  lookup_iff := by simp

theorem getElem?_insert (t : Symbols) (name name' : String) (symbol : Symbol) :
    (t.insert name symbol)[name']? = if name = name' then some symbol else t[name']? := by
  rw [Std.TreeMap.getElem?_insert]
  simp

section Injective

variable (hinj : Set.InjOn ρ.name names)
include hinj

theorem Renames.lookup (h : ρ.Renames names t t') (hname : name ∈ names) :
    t'[ρ.name name]? = t[name]?.map ρ.symbol := by
  cases hsymbol : t[name]? with
  | some symbol => exact (h.lookup_iff _ _).2 ⟨name, symbol, hsymbol, rfl, rfl⟩
  | none =>
    rw [Option.map_none, Option.eq_none_iff_forall_ne_some]
    intro symbol' hsome
    obtain ⟨name', symbol, hsymbol', heq, -⟩ := (h.lookup_iff _ _).1 hsome
    have hsame := hinj (h.known name' symbol hsymbol') hname heq
    rw [hsame, hsymbol] at hsymbol'
    cases hsymbol'

theorem Renames.insert (h : ρ.Renames names t t') (hname : name ∈ names) (symbol : Symbol) :
    ρ.Renames names (t.insert name symbol) (t'.insert (ρ.name name) (ρ.symbol symbol)) := by
  have hold : ∀ (name' : String) (symbol' : Symbol),
      (t.insert name symbol)[name']? = some symbol' →
        (name = name' ∧ symbol = symbol') ∨ (name ≠ name' ∧ t[name']? = some symbol') := by
    intro name' symbol' hsome
    rw [getElem?_insert] at hsome
    split at hsome
    next heq => exact .inl ⟨heq, Option.some.inj hsome⟩
    next hne => exact .inr ⟨hne, hsome⟩
  constructor
  · intro name' symbol' hsome
    rcases hold name' symbol' hsome with ⟨rfl, -⟩ | ⟨-, hsome⟩
    · exact hname
    · exact h.known name' symbol' hsome
  · intro key symbol'
    rw [getElem?_insert]
    constructor
    · intro hsome
      split at hsome
      next heq =>
        exact ⟨name, symbol, by simp, heq, Option.some.inj hsome⟩
      next hne =>
        obtain ⟨name', symbol, hsymbol, rfl, rfl⟩ := (h.lookup_iff key symbol').1 hsome
        have hother : name ≠ name' := fun heq => hne (heq ▸ rfl)
        exact ⟨name', symbol, by simp [getElem?_insert, hother, hsymbol], rfl, rfl⟩
    · rintro ⟨name', symbol', hsome, rfl, rfl⟩
      rcases hold name' symbol' hsome with ⟨rfl, rfl⟩ | ⟨hne, hsome⟩
      · simp
      · have hother : ρ.name name ≠ ρ.name name' :=
          fun heq => hne (hinj hname (h.known name' symbol' hsome) heq)
        rw [if_neg hother]
        exact (h.lookup_iff _ _).2 ⟨name', symbol', hsome, rfl, rfl⟩

theorem Renames.resolve (h : ρ.Renames names t t')
    (hname : ∀ name, argument = .label name → name ∈ names) :
    (ρ.argument argument).resolve t' = (argument.resolve t).mapError ρ.cause := by
  cases argument with
  | number value => rfl
  | label name =>
    have hlookup := h.lookup hinj (hname name rfl)
    simp only [Relabelling.argument, Argument.resolve, hlookup]
    cases t[name]? <;> rfl

/-- Names and numbers do not show in the bytes of a statement. -/
theorem Renames.encode (h : ρ.Renames names t t')
    (hname : ∀ name, s.argument? = some (.label name) → name ∈ names) :
    (ρ.statement s).encode t' address = (s.encode t address).mapError ρ.cause := by
  cases harg : s.argument? with
  | none => simp [Statement.encode, Relabelling.statement, harg, Except.mapError]
  | some argument =>
    have hresolve : (ρ.argument argument).resolve t' = (argument.resolve t).mapError ρ.cause :=
      h.resolve hinj fun name heq => hname name (heq ▸ harg)
    simp only [Statement.encode, Relabelling.statement, harg, Option.map_some, hresolve]
    cases argument.resolve t with
    | error cause => rfl
    | ok value =>
      have hbytes := ρ.mapError_operandBytes s.opcode address value
      change operandBytes s.opcode address value >>= _ =
        (operandBytes s.opcode address value >>= _).mapError ρ.cause
      conv_lhs => rw [← hbytes]
      cases operandBytes s.opcode address value <;> rfl

theorem parallel_add (h : ρ.Carries names l l') (number : Nat)
    (hname : ∀ name, line.label? = some name → name ∈ names) :
    ρ.Parallel (ρ.Carries names) (l.add number line)
      (l'.add (ρ.number number) (ρ.line line)) := by
  simp only [Layout.add, size_line, label?_line, h.size_eq]
  by_cases hfits : Program.maxBytes < l.size + line.size
  · simp only [if_pos hfits]
    exact .error _
  · simp only [if_neg hfits]
    cases hlabel : line.label? with
    | none => exact .ok ⟨rfl, Nat.le_of_not_lt hfits, h.symbols⟩
    | some name =>
      have hlookup := h.symbols.lookup hinj (hname name hlabel)
      simp only [Option.map_some, hlookup]
      cases l.symbols[name]? with
      | some first => exact .error _
      | none =>
        refine .ok ⟨rfl, Nat.le_of_not_lt hfits, ?_⟩
        exact h.symbols.insert hinj (hname name hlabel) _

/-- By induction on the lines: each is added to layouts that look alike. -/
theorem parallel_foldlM (zs : List (Line × Nat)) (h : ρ.Carries names l l')
    (hname : ∀ z ∈ zs, ∀ name, z.1.label? = some name → name ∈ names) :
    ρ.Parallel (ρ.Carries names) (zs.foldlM (fun l z => l.add z.2 z.1) l)
      ((zs.map ρ.numbered).foldlM (fun l z => l.add z.2 z.1) l') := by
  induction zs generalizing l l' with
  | nil => exact .ok h
  | cons z zs ih =>
    rw [List.foldlM_cons, List.map_cons, List.foldlM_cons]
    refine (parallel_add hinj h z.2 (hname z List.mem_cons_self)).bind fun m m' _ _ hm => ?_
    exact ih hm fun z' hz' => hname z' (List.mem_cons_of_mem z hz')

theorem parallel_entry (h : ρ.Renames names l.symbols l'.symbols) (placed : Placed)
    (cs : List Char) (hname : ∀ name, s.argument? = some (.label name) → name ∈ names) :
    ρ.Parallel (fun x x' => x' = ρ.listed x) (l.entry placed s cs)
      (l'.entry (ρ.placed placed) (ρ.statement s) cs) := by
  have hencode : (ρ.statement s).encode l'.symbols placed.address =
      (s.encode l.symbols placed.address).mapError ρ.cause := h.encode hinj hname
  simp only [Layout.entry, Relabelling.placed, hencode]
  cases s.encode l.symbols placed.address with
  | ok bytes => exact .ok rfl
  | error cause => exact .error { cause, line := placed.number }

/-- The second pass goes through the same statements, relabelled. -/
theorem parallel_listing (h : ρ.Renames names l.symbols l'.symbols)
    (hstatements : l'.statements texts' = (l.statements texts).map ρ.standing)
    (hname : ∀ z ∈ l.statements texts, ∀ name, z.2.1.argument? = some (.label name) →
      name ∈ names) :
    ρ.Parallel (fun xs xs' => xs' = xs.map ρ.listed) (l.listing texts) (l'.listing texts') := by
  rw [Layout.listing, Layout.listing, hstatements]
  exact Parallel.mapM _ fun z hz => parallel_entry hinj h z.1 z.2.2 (hname z hz)

/-- Where layout ends alike and finds the same statements, so does encoding. -/
theorem parallel_passes (hnames : labelNames ls ⊆ names)
    (hlayout : ρ.Parallel (ρ.Carries names) (Layout.ofLines ls) (Layout.ofLines ls'))
    (hstatements : ∀ l l' : Layout, l.Describes ls → l'.Describes ls' →
      l'.statements texts' = (l.statements texts).map ρ.standing) :
    ρ.Parallel (fun z z' => (z.1.Describes ls ∧ z'.1.Describes ls') ∧
        ρ.Carries names z.1 z'.1 ∧ z'.2 = z.2.map ρ.listed)
      (passes texts ls) (passes texts' ls') := by
  refine hlayout.bind fun l l' hl hl' hcarries => ?_
  have h := Layout.describes_of_ofLines hl
  have h' := Layout.describes_of_ofLines hl'
  have hlisting := parallel_listing hinj hcarries.symbols (hstatements l l' h h')
    fun z hz name harg => hnames (mem_labelNames_of_statement h hz harg)
  exact hlisting.bind fun xs xs' _ _ hxs => .ok ⟨⟨h, h'⟩, hcarries, hxs⟩

end Injective

end Relabelling

end WordMachine.Source
