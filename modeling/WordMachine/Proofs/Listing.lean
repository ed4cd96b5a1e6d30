import WordMachine.Proofs.Acceptance

/-! The listing of an assembled text: its entries stand for the statements of the text, and their
bytes fill the program one after another. -/
namespace WordMachine.Source

variable {ls : List Line} {l : Layout} {s : Statement} {texts : List (List Char)} {text : String}
  {a : Assembly} {x : Listed} {xs : List Listed} {start stop number : Nat} {symbols : Symbols}

/-- Line `number` of the text, counted from one, holds the statement `s`. -/
def StandsOn (texts : List (List Char)) (number : Nat) (s : Statement) : Prop :=
  ∃ n text line, number = n + 1 ∧ texts[n]? = some text ∧ Line.parse text = .ok line ∧
    line.statement? = some s

/-- The entries have the bytes from `start` to `stop`, each beginning where the last one ends. -/
def Fills (stop : Nat) : (start : Nat) → List Listed → Prop
  | start, [] => start = stop
  | start, x :: xs => x.address.toNat = start ∧ Fills stop (start + x.bytes.length) xs

theorem StandsOn.proper (h : StandsOn texts number s) : s.Proper := by
  obtain ⟨n, text, line, -, -, hparse, hs⟩ := h
  exact Line.proper_of_parse hparse hs

theorem Fills.sum_eq (h : Fills stop start xs) :
    start + (xs.map (·.bytes.length)).sum = stop := by
  induction xs generalizing start with
  | nil => simpa [Fills] using h
  | cons x xs ih =>
    have hrest := ih h.2
    simp only [List.map_cons, List.sum_cons]
    omega

theorem Fills.size_program (h : Fills stop 0 xs) :
    (Program.ofList (xs.flatMap (·.bytes))).size = stop := by
  rw [← h.sum_eq, Nat.zero_add]
  simp [Program.ofList, Program.size, List.length_flatMap]

/-- A program made of these entries holds each of them at its address. -/
theorem Fills.holdsAt (before : List UInt8) (h : Fills stop before.length xs) (hx : x ∈ xs) :
    (Program.ofList (before ++ xs.flatMap (·.bytes))).HoldsAt x.address.toNat x.bytes := by
  induction xs generalizing before with
  | nil => cases hx
  | cons y xs ih =>
    obtain ⟨haddr, hrest⟩ := h
    rw [List.flatMap_cons]
    rcases List.mem_cons.1 hx with rfl | hx
    · rw [haddr, ← List.append_assoc]
      exact Program.holdsAt_append before x.bytes _
    · rw [← List.append_assoc]
      exact ih _ (by rwa [List.length_append]) hx

theorem entry_eq_ok_iff {placed : Placed} {text : List Char} :
    l.entry placed s text = .ok x ↔
      s.encode l.symbols placed.address = .ok x.bytes ∧ x.address = placed.address ∧
        x.line = placed.number ∧ x.source = String.ofList (Text.trim text) := by
  obtain ⟨address, bytes, line, source⟩ := x
  cases h : s.encode l.symbols placed.address with
  | error cause => simp [Layout.entry, h]
  | ok bytes' =>
    simp only [Layout.entry, h, Except.ok.injEq, Listed.mk.injEq]
    constructor
    · rintro ⟨rfl, rfl, rfl, rfl⟩
      exact ⟨rfl, rfl, rfl, rfl⟩
    · rintro ⟨rfl, rfl, rfl, rfl⟩
      exact ⟨rfl, rfl, rfl, rfl⟩

theorem Line.size_of_statement?_none {line : Line} (h : line.statement? = none) :
    line.size = 0 := by
  cases line with
  | blank => rfl
  | label name => rfl
  | statement label? body => cases h

theorem Line.size_of_statement? {line : Line} (h : line.statement? = some s) :
    line.size = s.size := by
  cases line with
  | blank => cases h
  | label name => cases h
  | statement label? body =>
    cases h
    rfl

/-- The entries follow on one another although lines without a statement are left out, because such
lines take no room. -/
theorem fills_of_statements {zs : List (Placed × List Char)}
    (haddr : ∀ k z, zs[k]? = some z →
      z.1.address.toNat = start + ((zs.take k).map (·.1.line.size)).sum)
    (hproper : ∀ z ∈ zs, ∀ s, z.1.line.statement? = some s → s.Proper)
    (hxs : List.Forall₂ (fun z x => l.entry z.1 z.2.1 z.2.2 = .ok x)
      (zs.filterMap fun z => z.1.line.statement?.map fun s => (z.1, s, z.2)) xs) :
    Fills (start + (zs.map (·.1.line.size)).sum) start xs := by
  induction zs generalizing start xs with
  | nil =>
    cases hxs
    simp [Fills]
  | cons z zs ih =>
    have hrest : ∀ k z', zs[k]? = some z' →
        z'.1.address.toNat = start + z.1.line.size + ((zs.take k).map (·.1.line.size)).sum := by
      intro k z' hz'
      rw [haddr (k + 1) z' hz', List.take_succ_cons, List.map_cons, List.sum_cons, Nat.add_assoc]
    have hproper' : ∀ z' ∈ zs, ∀ s, z'.1.line.statement? = some s → s.Proper :=
      fun z' hz' => hproper z' (List.mem_cons_of_mem z hz')
    rw [List.map_cons, List.sum_cons, ← Nat.add_assoc]
    cases hs : z.1.line.statement? with
    | none =>
      rw [List.filterMap_cons_none (by rw [hs]; rfl)] at hxs
      have hfills := ih hrest hproper' hxs
      rwa [Line.size_of_statement?_none hs] at hfills ⊢
    | some s =>
      rw [List.filterMap_cons_some (by rw [hs]; rfl)] at hxs
      obtain ⟨x, xs', hentry, hxs', rfl⟩ := List.forall₂_cons_left_iff.1 hxs
      obtain ⟨hencode, haddress, -⟩ := entry_eq_ok_iff.1 hentry
      have hlen := length_encode (hproper z List.mem_cons_self s hs) hencode
      constructor
      · rw [haddress, haddr 0 z rfl]
        simp
      · rw [hlen, ← Line.size_of_statement? hs]
        exact ih hrest hproper' hxs'

section Entries

variable (h : l.Describes ls) (hls : ParsesTo texts ls) (hxs : l.listing texts = .ok xs)
include h hls hxs

/-- The listing fills the room that the layout gave out. -/
theorem fills_listing : Fills (addressOf ls ls.length) 0 xs := by
  have hlines : (l.lines.toList.zip texts).map (·.1.line) = ls := by
    have hlen : l.lines.toList.length ≤ texts.length := by
      rw [h.lines_eq, List.length_mapIdx, List.Forall₂.length_eq hls]
    change (l.lines.toList.zip texts).map (Placed.line ∘ Prod.fst) = ls
    rw [← List.map_map, List.map_fst_zip hlen, h.map_line]
  have hsum : ∀ k,
      (((l.lines.toList.zip texts).take k).map (·.1.line.size)).sum = addressOf ls k := by
    intro k
    rw [addressOf, ← hlines, ← List.map_take, List.map_map]
    rfl
  have hend : ((l.lines.toList.zip texts).map (·.1.line.size)).sum = addressOf ls ls.length := by
    rw [addressOf, List.take_length, ← hlines, List.map_map]
    rfl
  rw [← hend, ← Nat.zero_add (List.sum _)]
  refine fills_of_statements ?_ ?_ (mapM_eq_ok_iff.1 hxs)
  · intro k z hz
    obtain ⟨line, text, hline, -, rfl⟩ := (getElem?_zip_lines h).1 hz
    rw [hsum, Nat.zero_add]
    exact h.toNat_address (Nat.le_of_lt (List.getElem?_eq_some_iff.1 hline).1)
  · intro z hz s hs
    obtain ⟨k, hk⟩ := List.mem_iff_getElem?.1 hz
    obtain ⟨line, text, hline, htext, rfl⟩ := (getElem?_zip_lines h).1 hk
    exact Line.proper_of_parse (rel_of_getElem? hls htext hline) hs

/-- An entry stands for a statement of the text. -/
theorem standsOn_of_listed (hx : x ∈ xs) :
    ∃ s, StandsOn texts x.line s ∧ s.encode l.symbols x.address = .ok x.bytes := by
  obtain ⟨z, hz, hentry⟩ := exists_of_mem_mapM hxs hx
  obtain ⟨w, hw, hsome⟩ := List.mem_filterMap.1 hz
  obtain ⟨s, hs, rfl⟩ := Option.map_eq_some_iff.1 hsome
  obtain ⟨k, hk⟩ := List.mem_iff_getElem?.1 hw
  obtain ⟨line, text, hline, htext, rfl⟩ := (getElem?_zip_lines h).1 hk
  obtain ⟨hencode, haddress, hnumber, -⟩ := entry_eq_ok_iff.1 hentry
  refine ⟨s, ⟨k, text, line, hnumber, htext, rel_of_getElem? hls htext hline, hs⟩, ?_⟩
  rw [haddress]
  exact hencode

/-- A line that holds a statement has an entry, at the address where the line begins. -/
theorem exists_listed {n : Nat} (hs : Holds ls n s) :
    ∃ x ∈ xs, x.line = n + 1 ∧ x.address = .ofNat (addressOf ls n) ∧
      s.encode l.symbols x.address = .ok x.bytes := by
  obtain ⟨line, hline, hstatement⟩ := hs
  have hlt : n < texts.length := by
    rw [List.Forall₂.length_eq hls]
    exact (List.getElem?_eq_some_iff.1 hline).1
  have hget : (l.lines.toList.zip texts)[n]? = some (_, texts[n]) :=
    (getElem?_zip_lines h).2 ⟨line, _, hline, List.getElem?_eq_getElem hlt, rfl⟩
  obtain ⟨x, hx, hentry⟩ := exists_mem_mapM hxs
    (List.mem_filterMap.2 ⟨_, List.mem_of_getElem? hget, by simp only [hstatement]; rfl⟩)
  obtain ⟨hencode, haddress, hnumber, -⟩ := entry_eq_ok_iff.1 hentry
  rw [← haddress] at hencode
  exact ⟨x, hx, hnumber, haddress, hencode⟩

end Entries

/-- What is known of an assembled text: its listing fills its program, which is no longer than
programs may be, and an entry has the bytes of a statement of the text. -/
theorem listing_of_assemble (h : assemble text = .ok a) :
    a.program = .ofList (a.listing.flatMap (·.bytes)) ∧ Fills a.program.size 0 a.listing ∧
      a.program.size ≤ 65535 ∧ ∀ x ∈ a.listing, ∃ s,
        StandsOn (Text.lines text.toList) x.line s ∧
          s.encode a.symbols x.address = .ok x.bytes := by
  obtain ⟨ls, l, hls, hl, hlisting, hsymbols, hprogram⟩ := assemble_eq_ok_iff.1 h
  have hd := Layout.describes_of_ofLines hl
  have hfills := fills_listing hd hls hlisting
  have hsize : a.program.size = addressOf ls ls.length := by rw [hprogram, hfills.size_program]
  refine ⟨hprogram, hsize ▸ hfills, hsize ▸ hd.fits, ?_⟩
  intro x hx
  rw [hsymbols]
  exact standsOn_of_listed hd hls hlisting hx

end WordMachine.Source
