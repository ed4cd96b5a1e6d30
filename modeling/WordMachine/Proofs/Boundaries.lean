import WordMachine.Proofs.Listing

/-! Instruction boundaries of an assembled program: an instruction ends where the next one begins,
and every label names a boundary. -/
namespace WordMachine.Source

variable {ls : List Line} {l : Layout} {s : Statement} {texts : List (List Char)}
  {text name : String} {a : Assembly} {x : Listed} {xs : List Listed} {start stop n : Nat}
  {symbol : Symbol}

/-- The statements of a text, in the order of their lines. -/
def statements (text : String) : List Statement :=
  (Text.lines text.toList).filterMap fun line => (Line.parse line).toOption.bind Line.statement?

/-- An address where an instruction of the program begins, or where the program ends. -/
def Assembly.Boundary (a : Assembly) (pc : UInt16) : Prop :=
  (∃ x ∈ a.listing, x.address = pc) ∨ pc.toNat = a.program.size

instance (a : Assembly) (pc : UInt16) : Decidable (a.Boundary pc) :=
  inferInstanceAs (Decidable ((∃ x ∈ a.listing, x.address = pc) ∨ pc.toNat = a.program.size))

theorem mem_statements_of_standsOn {number : Nat}
    (h : StandsOn (Text.lines text.toList) number s) : s ∈ statements text := by
  obtain ⟨n, line, parsed, -, hline, hparse, hs⟩ := h
  refine List.mem_filterMap.2 ⟨line, List.mem_of_getElem? hline, ?_⟩
  simp [hparse, Except.toOption, hs]

/-- After an entry comes another one or the end. -/
theorem Fills.next (h : Fills stop start xs) (hx : x ∈ xs) :
    (∃ y ∈ xs, y.address.toNat = x.address.toNat + x.bytes.length) ∨
      x.address.toNat + x.bytes.length = stop := by
  induction xs generalizing start with
  | nil => cases hx
  | cons y xs ih =>
    obtain ⟨haddress, hrest⟩ := h
    rcases List.mem_cons.1 hx with rfl | hx
    · rw [haddress]
      cases xs with
      | nil => exact .inr hrest
      | cons z xs => exact .inl ⟨z, by simp, hrest.1⟩
    · rcases ih hrest hx with ⟨z, hz, hnext⟩ | hstop
      · exact .inl ⟨z, List.mem_cons_of_mem y hz, hnext⟩
      · exact .inr hstop

/-- Lines without a statement take no room, so that a line begins where the next statement does. -/
theorem boundary_addressOf (h : l.Describes ls) (hls : ParsesTo texts ls)
    (hxs : l.listing texts = .ok a.listing)
    (hprogram : a.program = .ofList (a.listing.flatMap (·.bytes))) (hn : n ≤ ls.length) :
    a.Boundary (.ofNat (addressOf ls n)) := by
  have hsize : a.program.size = addressOf ls ls.length := by
    rw [hprogram, (fills_listing h hls hxs).size_program]
  obtain ⟨left, hleft⟩ := Nat.exists_eq_add_of_le hn
  induction left generalizing n with
  | zero =>
    refine .inr ?_
    rw [h.toNat_address hn, hsize, hleft, Nat.add_zero]
  | succ left ih =>
    have hlt : n < ls.length := by omega
    have hline : ls[n]? = some ls[n] := List.getElem?_eq_getElem hlt
    cases hs : ls[n].statement? with
    | none =>
      have hnext := ih (n := n + 1) hlt (by omega)
      rwa [addressOf_succ hline, Line.size_of_statement?_none hs] at hnext
    | some s =>
      obtain ⟨x, hx, -, haddress, -⟩ := exists_listed h hls hxs ⟨ls[n], hline, hs⟩
      exact .inl ⟨x, hx, haddress⟩

theorem boundary_of_symbol (h : assemble text = .ok a) (hsymbol : a.symbols[name]? = some symbol) :
    a.Boundary symbol.address := by
  obtain ⟨ls, l, hls, hl, hlisting, hsymbols, hprogram⟩ := assemble_eq_ok_iff.1 h
  have hd := Layout.describes_of_ofLines hl
  rw [hsymbols] at hsymbol
  obtain ⟨n, hn, rfl⟩ := (hd.symbol_iff name symbol).1 hsymbol
  exact boundary_addressOf hd hls hlisting hprogram (Nat.le_of_lt hn.lt)

/-- Every statement of a text that assembles has an encoding. -/
theorem encode_of_mem_statements (h : assemble text = .ok a) (hs : s ∈ statements text) :
    ∃ x ∈ a.listing, s.encode a.symbols x.address = .ok x.bytes := by
  obtain ⟨ls, l, hls, hl, hlisting, hsymbols, -⟩ := assemble_eq_ok_iff.1 h
  obtain ⟨line, hline, hparse⟩ := List.mem_filterMap.1 hs
  obtain ⟨n, hn⟩ := List.mem_iff_getElem?.1 hline
  have hlt : n < ls.length := by
    rw [← List.Forall₂.length_eq hls]
    exact (List.getElem?_eq_some_iff.1 hn).1
  have hget : ls[n]? = some ls[n] := List.getElem?_eq_getElem hlt
  rw [rel_of_getElem? hls hn hget] at hparse
  obtain ⟨x, hx, -, -, hencode⟩ :=
    exists_listed (Layout.describes_of_ofLines hl) hls hlisting ⟨ls[n], hget, hparse⟩
  exact ⟨x, hx, hsymbols ▸ hencode⟩

/-- A label that stands for an operand is defined, and its address is a boundary. -/
theorem boundary_of_label (h : assemble text = .ok a) (hs : s ∈ statements text)
    (harg : s.argument? = some (.label name)) :
    ∃ value, s.value? a.symbols = some value ∧ a.Boundary value := by
  obtain ⟨x, -, hencode⟩ := encode_of_mem_statements h hs
  obtain ⟨value, -, hresolve, -⟩ := (encode_eq_ok_iff harg).1 hencode
  cases hsymbol : a.symbols[name]? with
  | none => simp [Argument.resolve, hsymbol] at hresolve
  | some symbol =>
    refine ⟨symbol.address, ?_, boundary_of_symbol h hsymbol⟩
    simp [Statement.value?, harg, Argument.resolve, hsymbol, Except.toOption]

/-- A run begins at a boundary. -/
theorem boundary_zero (h : assemble text = .ok a) : a.Boundary 0 := by
  obtain ⟨-, hfills, -⟩ := listing_of_assemble h
  cases hlisting : a.listing with
  | nil =>
    rw [hlisting] at hfills
    exact .inr hfills
  | cons x xs =>
    rw [hlisting] at hfills
    exact .inl ⟨x, by simp [hlisting], UInt16.toNat_inj.1 hfills.1⟩

section Entry

variable (h : assemble text = .ok a) (hx : x ∈ a.listing)
include h hx

theorem holdsAt_of_listed : a.program.HoldsAt x.address.toNat x.bytes := by
  obtain ⟨hprogram, hfills, -⟩ := listing_of_assemble h
  rw [hprogram]
  exact Fills.holdsAt [] hfills hx

/-- An entry decodes to the statement that it stands for. -/
theorem decode_of_listed :
    ∃ s ∈ statements text, ∃ i, a.program.decode x.address = .ok i ∧ i.opcode = s.opcode ∧
      i.value? = s.value? a.symbols ∧ i.opcode.size = x.bytes.length := by
  obtain ⟨-, -, -, hlisted⟩ := listing_of_assemble h
  obtain ⟨s, hstands, hencode⟩ := hlisted x hx
  obtain ⟨i, hdecode, hop, hvalue⟩ :=
    decode_of_holdsAt hstands.proper hencode (holdsAt_of_listed h hx)
  refine ⟨s, mem_statements_of_standsOn hstands, i, hdecode, hop, hvalue, ?_⟩
  rw [length_encode hstands.proper hencode, hop, Statement.size]

/-- What follows an instruction is a boundary, since no address of an assembled program wraps. -/
theorem boundary_nextPc {i : Instruction} (hpc : i.pc = x.address)
    (hsize : i.opcode.size = x.bytes.length) : a.Boundary i.nextPc := by
  obtain ⟨-, hfills, hfits, -⟩ := listing_of_assemble h
  have hnext (hlt : x.address.toNat + x.bytes.length < 65536) :
      i.nextPc.toNat = x.address.toNat + x.bytes.length := by
    rw [i.toNat_nextPc, hpc, hsize]
    simp only [Word.wrap]
    omega
  rcases hfills.next hx with ⟨y, hy, haddress⟩ | hstop
  · refine .inl ⟨y, hy, UInt16.toNat_inj.1 ?_⟩
    rw [hnext (haddress ▸ y.address.toNat_lt), haddress]
  · exact .inr ((hnext (by omega)).trans hstop)

end Entry

end WordMachine.Source
