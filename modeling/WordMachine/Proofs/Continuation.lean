import WordMachine.Proofs.LineFeeds
import WordMachine.Proofs.Listing

/-! Texts that go on: what stands behind a text does not change what the text assembles to. Lines
before a line decide its address, and a label keeps its first definition. -/
namespace WordMachine.Source

variable {ls more : List Line} {l l' : Layout} {xs ys : List (List Char)} {s : Statement}
  {a b : Assembly} {argument : Argument} {address value : UInt16} {bytes : List UInt8}
  {t t' : Symbols} {text rest : String}

/-- Every label of `t` means the same in `t'`. -/
def Extends (t t' : Symbols) : Prop :=
  ∀ (name : String) (symbol : Symbol), t[name]? = some symbol → t'[name]? = some symbol

/-- `b` has all of `a` at its beginning. -/
structure Assembly.Continues (b a : Assembly) : Prop where
  program : a.program.bytes.toList <+: b.program.bytes.toList
  listing : a.listing <+: b.listing
  symbols : Extends a.symbols b.symbols

theorem Extends.resolve (h : Extends t t') (hr : argument.resolve t = .ok value) :
    argument.resolve t' = .ok value := by
  cases argument with
  | number v => exact hr
  | label name =>
    cases hsymbol : t[name]? with
    | none => simp [Argument.resolve, hsymbol] at hr
    | some symbol => simpa [Argument.resolve, hsymbol, h name symbol hsymbol] using hr

theorem Extends.encode (h : Extends t t') (hs : s.encode t address = .ok bytes) :
    s.encode t' address = .ok bytes := by
  cases harg : s.argument? with
  | none => simpa [Statement.encode, harg] using hs
  | some argument =>
    obtain ⟨value, rest, hvalue, hrest, hbytes⟩ := (encode_eq_ok_iff harg).1 hs
    exact (encode_eq_ok_iff harg).2 ⟨value, rest, h.resolve hvalue, hrest, hbytes⟩

theorem entry_of_extends (h : Extends l.symbols l'.symbols) {placed : Placed} {cs : List Char}
    {x : Listed} (hx : l.entry placed s cs = .ok x) : l'.entry placed s cs = .ok x := by
  obtain ⟨hencode, hrest⟩ := entry_eq_ok_iff.1 hx
  exact entry_eq_ok_iff.2 ⟨h.encode hencode, hrest⟩

theorem ParsesTo.exists_append (h : ParsesTo xs ls) {ls' : List Line}
    (h' : ParsesTo (xs ++ ys) ls') : ∃ more, ls' = ls ++ more := by
  have htake : ParsesTo xs (ls'.take xs.length) := by
    have hfirst := List.forall₂_take xs.length h'
    rwa [List.take_left] at hfirst
  have hsame := (parseLines_eq_ok_iff.2 h).symm.trans (parseLines_eq_ok_iff.2 htake)
  refine ⟨ls'.drop xs.length, ?_⟩
  rw [Except.ok.inj hsame, List.take_append_drop]

section Layouts

variable (h : l.Describes ls) (h' : l'.Describes (ls ++ more))
include h h'

theorem extends_symbols : Extends l.symbols l'.symbols := by
  intro name symbol hsymbol
  obtain ⟨n, hn, rfl⟩ := (h.symbol_iff name symbol).1 hsymbol
  refine (h'.symbol_iff name _).2 ⟨n, (defines_append hn.lt).2 hn, ?_⟩
  rw [addressOf_append (Nat.le_of_lt hn.lt)]

theorem lines_prefix : l.lines.toList <+: l'.lines.toList := by
  rw [h.lines_eq, h'.lines_eq, List.mapIdx_append]
  refine ⟨_, congrArg (· ++ _) ?_⟩
  rw [List.mapIdx_eq_mapIdx_iff]
  intro n hn
  rw [addressOf_append (Nat.le_of_lt hn)]

/-- The lines of the text keep their places, so that encoding meets their statements first. -/
theorem statements_prefix (hlen : ls.length = xs.length) :
    l.statements xs <+: l'.statements (xs ++ ys) := by
  obtain ⟨placed, hplaced⟩ := lines_prefix h h'
  have hlines : l.lines.toList.length = xs.length := by
    rw [h.lines_eq, List.length_mapIdx, hlen]
  rw [Layout.statements, Layout.statements, ← hplaced, List.zip_append hlines,
    List.filterMap_append]
  exact List.prefix_append _ _

end Layouts

theorem assembleLines_append (ha : assembleLines xs = .ok a)
    (hb : assembleLines (xs ++ ys) = .ok b) : b.Continues a := by
  obtain ⟨ls, l, hls, hl, hxs, hsymbols, hprogram⟩ := assembleLines_eq_ok_iff.1 ha
  obtain ⟨ls', l', hls', hl', hys, hsymbols', hprogram'⟩ := assembleLines_eq_ok_iff.1 hb
  obtain ⟨more, rfl⟩ := hls.exists_append hls'
  have h := Layout.describes_of_ofLines hl
  have h' := Layout.describes_of_ofLines hl'
  have hextends := extends_symbols h h'
  have hlisting : a.listing <+: b.listing := by
    obtain ⟨zs, hzs⟩ := statements_prefix h h' (List.Forall₂.length_eq hls).symm
    rw [Layout.listing, ← hzs, List.mapM_append, bind_eq_ok_iff] at hys
    obtain ⟨us, hus, hrest⟩ := hys
    obtain ⟨vs, -, hlisted⟩ := bind_eq_ok_iff.1 hrest
    have hsame : List.Forall₂ (fun z x => l'.entry z.1 z.2.1 z.2.2 = .ok x)
        (l.statements xs) a.listing :=
      (mapM_eq_ok_iff.1 hxs).imp fun z x hx => entry_of_extends hextends hx
    rw [Except.ok.inj (hus.symm.trans (mapM_eq_ok_iff.2 hsame))] at hlisted
    exact ⟨vs, Except.ok.inj hlisted⟩
  refine ⟨?_, hlisting, ?_⟩
  · obtain ⟨vs, hvs⟩ := hlisting
    rw [hprogram, hprogram', ← hvs]
    simp [Program.ofList]
  · rw [hsymbols, hsymbols']
    exact hextends

/-- What a text assembles to is the beginning of what any longer text assembles to. -/
theorem assemble_append (ha : assemble text = .ok a)
    (hb : assemble (text ++ "\n" ++ rest) = .ok b) : b.Continues a := by
  rw [assemble_eq_pieces] at ha hb
  have hpieces : (text ++ "\n" ++ rest).toList.splitOn '\n' =
      text.toList.splitOn '\n' ++ rest.toList.splitOn '\n' := by
    simp [List.splitOn_append_cons_self]
  rw [hpieces] at hb
  exact assembleLines_append ha hb

/-- The first text uses its label before it defines it, and ends in a return that becomes part of a
line end. -/
theorem assemble_append_of_forward_label :
    let text := "top: BNE end\n  LDA 3 ; x\nend:\r"
    let rest := "BEQ top\n"
    ∃ a b, assemble text = .ok a ∧ assemble (text ++ "\n" ++ rest) = .ok b ∧ b.Continues a ∧
      a.program.bytes = #[0xD0, 3, 0xA9, 3, 0] ∧
      b.program.bytes = #[0xD0, 3, 0xA9, 3, 0, 0xF0, 0xF9] ∧
      b.symbols["end"]? = some { address := 5, definedAt := 3 } := by
  intro text rest
  have hfirst : (assemble text).map (fun a =>
      decide (a.program.bytes = #[0xD0, 3, 0xA9, 3, 0])) = .ok true := by decide +kernel
  have hwhole : (assemble (text ++ "\n" ++ rest)).map (fun b =>
      decide (b.program.bytes = #[0xD0, 3, 0xA9, 3, 0, 0xF0, 0xF9] ∧
        b.symbols["end"]? = some { address := 5, definedAt := 3 })) = .ok true := by
    decide +kernel
  obtain ⟨a, ha, hbytes⟩ := map_eq_ok_iff.1 hfirst
  obtain ⟨b, hb, hrest⟩ := map_eq_ok_iff.1 hwhole
  exact ⟨a, b, ha, hb, assemble_append ha hb, of_decide_eq_true hbytes, of_decide_eq_true hrest⟩

end WordMachine.Source
