import Mathlib.Data.List.Find
import WordMachine.Proofs.Listing

/-! The two passes of assembly agree: encoding puts every statement where layout has made room for
it, and a label names the first statement on or after its line. -/
namespace WordMachine.Source

variable {ls : List Line} {l : Layout} {s : Statement} {texts : List (List Char)}
  {text name : String} {a : Assembly} {x : Listed} {xs : List Listed} {start stop n k : Nat}

/-- Line `number` of the text, counted from one, defines the label `name`. -/
def DefinedOn (texts : List (List Char)) (number : Nat) (name : String) : Prop :=
  ∃ n text line, number = n + 1 ∧ texts[n]? = some text ∧ Line.parse text = .ok line ∧
    line.label? = some name

/-- The address of the first entry on or after line `number`, or the end of the program. -/
def Assembly.addressFrom (a : Assembly) (number : Nat) : Nat :=
  ((a.listing.find? (number ≤ ·.line)).map (·.address.toNat)).getD a.program.size

/-- What layout and encoding of a text have to do with one another. -/
structure PassesAgree (text : String) (a : Assembly) : Prop where
  listed_iff : ∀ number, (∃ x ∈ a.listing, x.line = number) ↔
    ∃ s, StandsOn (Text.lines text.toList) number s
  ordered : a.listing.Pairwise fun x y => x.line < y.line
  address_eq : ∀ (k : Nat) (x : Listed), a.listing[k]? = some x →
    x.address.toNat = ((a.listing.take k).map (·.bytes.length)).sum
  program_eq : a.program = .ofList (a.listing.flatMap (·.bytes))
  /-- The first pass is the layout of the parsed lines. -/
  layout : ∃ ls l, parseLines (Text.lines text.toList) = .ok ls ∧ Layout.ofLines ls = .ok l ∧
    a.symbols = l.symbols ∧ a.program.size = l.size ∧
    ∀ x ∈ a.listing, ∃ placed, l.lines[x.line - 1]? = some placed ∧
      placed.address = x.address ∧ placed.line.size = x.bytes.length
  fits : a.program.size ≤ 65535
  symbol_iff : ∀ (name : String) (symbol : Symbol), a.symbols[name]? = some symbol ↔
    DefinedOn (Text.lines text.toList) symbol.definedAt name ∧
      symbol.address.toNat = a.addressFrom symbol.definedAt
  distinct : ∀ name i j, DefinedOn (Text.lines text.toList) i name →
    DefinedOn (Text.lines text.toList) j name → i = j

theorem Fills.address_eq (h : Fills stop start xs) (hx : xs[k]? = some x) :
    x.address.toNat = start + ((xs.take k).map (·.bytes.length)).sum := by
  induction xs generalizing start k with
  | nil => cases hx
  | cons y xs ih =>
    cases k with
    | zero =>
      cases hx
      simpa using h.1
    | succ k =>
      rw [List.getElem?_cons_succ] at hx
      rw [ih h.2 hx, List.take_succ_cons, List.map_cons, List.sum_cons, Nat.add_assoc]

/-- Where lines increase, an entry is the first one on or after its own line. -/
theorem find?_line (h : xs.Pairwise fun x y => x.line < y.line) (hx : x ∈ xs) :
    xs.find? (x.line ≤ ·.line) = some x := by
  induction xs with
  | nil => cases hx
  | cons y xs ih =>
    obtain ⟨hfirst, hrest⟩ := List.pairwise_cons.1 h
    rcases List.mem_cons.1 hx with rfl | hx
    · simp
    · have hlt := hfirst x hx
      rw [List.find?_cons_of_neg (by simpa using hlt)]
      exact ih hrest hx

section Fields

variable {α : Type} {field : Line → Option α} {v : α}

theorem exists_succ_of_field {number : Nat} (h : ∃ m text line, number = m + 1 ∧
    texts[m]? = some text ∧ Line.parse text = .ok line ∧ field line = some v) :
    ∃ n, number = n + 1 := by
  obtain ⟨n, -, -, hn, -⟩ := h
  exact ⟨n, hn⟩

/-- What a line of the text has, the parsed line has. -/
theorem parsed_field_iff (hls : ParsesTo texts ls) :
    (∃ m text line, n + 1 = m + 1 ∧ texts[m]? = some text ∧ Line.parse text = .ok line ∧
      field line = some v) ↔ ∃ line, ls[n]? = some line ∧ field line = some v := by
  constructor
  · rintro ⟨m, text, line, hm, htext, hparse, hv⟩
    cases hm
    have hlt : n < ls.length := by
      rw [← List.Forall₂.length_eq hls]
      exact (List.getElem?_eq_some_iff.1 htext).1
    have hline := rel_of_getElem? hls htext (List.getElem?_eq_getElem hlt)
    rw [hparse] at hline
    cases hline
    exact ⟨_, List.getElem?_eq_getElem hlt, hv⟩
  · rintro ⟨line, hline, hv⟩
    have hlt : n < texts.length := by
      rw [List.Forall₂.length_eq hls]
      exact (List.getElem?_eq_some_iff.1 hline).1
    have htext := List.getElem?_eq_getElem hlt
    exact ⟨n, _, line, rfl, htext, rel_of_getElem? hls htext hline, hv⟩

end Fields

theorem standsOn_iff (hls : ParsesTo texts ls) : StandsOn texts (n + 1) s ↔ Holds ls n s :=
  parsed_field_iff hls

theorem definedOn_iff (hls : ParsesTo texts ls) : DefinedOn texts (n + 1) name ↔ Defines ls n name :=
  parsed_field_iff hls

section Entries

variable (h : l.Describes ls) (hls : ParsesTo texts ls) (hxs : l.listing texts = .ok xs)
include h

theorem pairwise_number :
    (l.lines.toList.zip texts).Pairwise fun z w => z.1.number < w.1.number := by
  rw [List.pairwise_iff_getElem]
  intro i j hi hj hij
  obtain ⟨_, _, -, -, hz⟩ := (getElem?_zip_lines h).1 (List.getElem?_eq_getElem hi)
  obtain ⟨_, _, -, -, hw⟩ := (getElem?_zip_lines h).1 (List.getElem?_eq_getElem hj)
  rw [hz, hw]
  exact Nat.succ_lt_succ hij

include hxs

/-- Entries stand in the order of their lines. -/
theorem pairwise_line : xs.Pairwise fun x y => x.line < y.line := by
  have hlines : xs.map (·.line) = (l.statements texts).map (·.1.number) := by
    rw [← List.forall₂_eq_eq_eq, List.forall₂_map_left_iff, List.forall₂_map_right_iff]
    refine (mapM_eq_ok_iff.1 hxs).flip.imp ?_
    intro x z hentry
    exact (entry_eq_ok_iff.1 hentry).2.2.1
  have hnumbers : (l.statements texts).Pairwise fun z w => z.1.number < w.1.number := by
    refine List.Pairwise.filterMap _ ?_ (pairwise_number h)
    intro z w hlt z' hz' w' hw'
    obtain ⟨s, -, rfl⟩ := Option.map_eq_some_iff.1 hz'
    obtain ⟨s', -, rfl⟩ := Option.map_eq_some_iff.1 hw'
    exact hlt
  rw [← List.pairwise_map (R := (· < ·)), hlines, List.pairwise_map]
  exact hnumbers

include hls

/-- Some entry is on a line exactly when the line holds a statement. -/
theorem exists_listed_iff {number : Nat} :
    (∃ x ∈ xs, x.line = number) ↔ ∃ s, StandsOn texts number s := by
  constructor
  · rintro ⟨x, hx, rfl⟩
    obtain ⟨s, hs, -⟩ := standsOn_of_listed h hls hxs hx
    exact ⟨s, hs⟩
  · rintro ⟨s, hs⟩
    obtain ⟨n, rfl⟩ := exists_succ_of_field hs
    obtain ⟨x, hx, hline, -⟩ := exists_listed h hls hxs ((standsOn_iff hls).1 hs)
    exact ⟨x, hx, hline⟩

/-- No entry is on a line without a statement. -/
theorem find?_succ {line : Line} (hline : ls[n]? = some line) (hs : line.statement? = none) :
    xs.find? (n + 1 ≤ ·.line) = xs.find? (n + 1 + 1 ≤ ·.line) := by
  apply List.find?_congr
  intro x hx
  have hne : x.line ≠ n + 1 := by
    intro hxline
    obtain ⟨s, hstands⟩ := (exists_listed_iff h hls hxs).1 ⟨x, hx, hxline⟩
    obtain ⟨line', hline', hs'⟩ := (standsOn_iff hls).1 hstands
    rw [hline] at hline'
    cases hline'
    simp [hs] at hs'
  rw [decide_eq_decide]
  omega

/-- No entry is behind the last line. -/
theorem find?_length : xs.find? (ls.length + 1 ≤ ·.line) = none := by
  rw [List.find?_eq_none]
  intro x hx
  obtain ⟨s, hs, -⟩ := standsOn_of_listed h hls hxs hx
  obtain ⟨m, hm⟩ := exists_succ_of_field hs
  rw [hm] at hs ⊢
  have hlt := ((standsOn_iff hls).1 hs).lt
  simp only [decide_eq_true_eq]
  omega

/-- By induction on the lines left: a line without a statement takes no room, so that it begins
where the next statement does. -/
theorem addressOf_eq_first (hn : n ≤ ls.length) :
    addressOf ls n = ((xs.find? (n + 1 ≤ ·.line)).map (·.address.toNat)).getD
      (addressOf ls ls.length) := by
  obtain ⟨left, hleft⟩ := Nat.exists_eq_add_of_le hn
  induction left generalizing n with
  | zero =>
    have hnone := find?_length h hls hxs
    rw [hleft, Nat.add_zero] at hnone
    rw [hnone, hleft, Nat.add_zero]
    rfl
  | succ left ih =>
    have hlt : n < ls.length := by omega
    have hline : ls[n]? = some ls[n] := List.getElem?_eq_getElem hlt
    cases hs : ls[n].statement? with
    | none =>
      have hnext := ih (n := n + 1) hlt (by omega)
      rwa [addressOf_succ hline, Line.size_of_statement?_none hs, Nat.add_zero,
        ← find?_succ h hls hxs hline hs] at hnext
    | some s =>
      obtain ⟨x, hx, hxline, haddress, -⟩ := exists_listed h hls hxs ⟨ls[n], hline, hs⟩
      have hfind := find?_line (pairwise_line h hxs) hx
      rw [hxline] at hfind
      rw [hfind, Option.map_some, Option.getD_some, haddress, h.toNat_address hn]

/-- A symbol is a label of the text, with the address of the first entry on or after its line. -/
theorem symbol_iff_definedOn {symbol : Symbol} : l.symbols[name]? = some symbol ↔
    DefinedOn texts symbol.definedAt name ∧
      symbol.address.toNat = ((xs.find? (symbol.definedAt ≤ ·.line)).map (·.address.toNat)).getD
        (addressOf ls ls.length) := by
  rw [h.symbol_iff]
  constructor
  · rintro ⟨n, hn, rfl⟩
    have hle := Nat.le_of_lt hn.lt
    refine ⟨(definedOn_iff hls).2 hn, ?_⟩
    rw [← addressOf_eq_first h hls hxs hle]
    exact h.toNat_address hle
  · rintro ⟨hdef, haddress⟩
    obtain ⟨address, definedAt⟩ := symbol
    obtain ⟨n, rfl⟩ := exists_succ_of_field hdef
    have hn := (definedOn_iff hls).1 hdef
    have hle := Nat.le_of_lt hn.lt
    refine ⟨n, hn, ?_⟩
    rw [← addressOf_eq_first h hls hxs hle, ← h.toNat_address hle, UInt16.toNat_inj] at haddress
    exact congrArg (Symbol.mk · (n + 1)) haddress

/-- An entry is where layout has put its line, and it has the size that layout has reckoned. -/
theorem exists_placed (hx : x ∈ xs) : ∃ placed, l.lines[x.line - 1]? = some placed ∧
    placed.address = x.address ∧ placed.line.size = x.bytes.length := by
  obtain ⟨s, hs, hencode⟩ := standsOn_of_listed h hls hxs hx
  obtain ⟨n, hn⟩ := exists_succ_of_field hs
  have hproper := hs.proper
  rw [hn] at hs
  obtain ⟨line, hline, hstatement⟩ := (standsOn_iff hls).1 hs
  obtain ⟨y, hy, hyline, haddress, -⟩ := exists_listed h hls hxs ⟨line, hline, hstatement⟩
  have hsame : x = y := by
    have hfind := find?_line (pairwise_line h hxs) hx
    rw [hn, ← hyline, find?_line (pairwise_line h hxs) hy] at hfind
    exact (Option.some.inj hfind).symm
  have hplaced : l.lines[n]? =
      some { address := .ofNat (addressOf ls n), line, number := n + 1 } := by
    rw [← Array.getElem?_toList, h.lines_eq, List.getElem?_mapIdx, hline]
    rfl
  refine ⟨_, by rw [hn]; exact hplaced, by rw [hsame, haddress], ?_⟩
  rw [length_encode hproper hencode, ← Line.size_of_statement? hstatement]

end Entries

/-- In a text that assembles, encoding agrees with layout on lines, sizes, addresses and labels. -/
theorem passes_agree (h : assemble text = .ok a) : PassesAgree text a := by
  obtain ⟨ls, l, hls, hl, hlisting, hsymbols, hprogram⟩ := assemble_eq_ok_iff.1 h
  have hd := Layout.describes_of_ofLines hl
  have hfills := fills_listing hd hls hlisting
  have hsize : a.program.size = addressOf ls ls.length := by rw [hprogram, hfills.size_program]
  refine ⟨?_, pairwise_line hd hlisting, ?_, hprogram, ?_, hsize ▸ hd.fits, ?_, ?_⟩
  · intro number
    exact exists_listed_iff hd hls hlisting
  · intro k x hx
    rw [hfills.address_eq hx, Nat.zero_add]
  · refine ⟨ls, l, parseLines_eq_ok_iff.2 hls, hl, hsymbols, ?_, ?_⟩
    · rw [hsize, hd.size_eq]
    · intro x hx
      exact exists_placed hd hls hlisting hx
  · intro name symbol
    rw [hsymbols, Assembly.addressFrom, hsize]
    exact symbol_iff_definedOn hd hls hlisting
  · intro name i j hi hj
    obtain ⟨n, rfl⟩ := exists_succ_of_field hi
    obtain ⟨m, rfl⟩ := exists_succ_of_field hj
    rw [hd.defines_unique ((definedOn_iff hls).1 hi) ((definedOn_iff hls).1 hj)]

/-- A label before a blank line, one on the line of a branch, and one behind the last statement. -/
theorem passes_agree_of_loop :
    let text := "start:\n\n  LDA 3 ; count\ntop: SBC 1\nBNE top\nend:"
    ∃ a, assemble text = .ok a ∧ PassesAgree text a ∧
      a.listing.map (·.line) = [3, 4, 5] ∧
      a.symbols["start"]? = some { address := 0, definedAt := 1 } ∧
      a.symbols["top"]? = some { address := 3, definedAt := 4 } ∧
      a.symbols["end"]? = some { address := 8, definedAt := 6 } := by
  intro text
  have hcheck : (assemble text).map (fun a => decide (a.listing.map (·.line) = [3, 4, 5] ∧
      a.symbols["start"]? = some { address := 0, definedAt := 1 } ∧
      a.symbols["top"]? = some { address := 3, definedAt := 4 } ∧
      a.symbols["end"]? = some { address := 8, definedAt := 6 })) = .ok true := by
    decide +kernel
  obtain ⟨a, ha, hdecide⟩ := map_eq_ok_iff.1 hcheck
  exact ⟨a, ha, passes_agree ha, of_decide_eq_true hdecide⟩

end WordMachine.Source
