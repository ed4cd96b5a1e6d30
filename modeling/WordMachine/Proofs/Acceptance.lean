import WordMachine.Proofs.Encoding
import WordMachine.Proofs.Layout
import WordMachine.Proofs.Parsing
import WordMachine.Source.Assembly

/-! Which texts assemble, and the error of a text that does not: parsing reports first, then
layout, then encoding, and each reports the first line that it finds at fault. -/
namespace WordMachine.Source

variable {ls : List Line} {l : Layout} {n : Nat} {s : Statement} {texts : List (List Char)}
  {e : Error} {cause : Cause}

/-- Line `n` holds the statement `s`. -/
def Holds (ls : List Line) (n : Nat) (s : Statement) : Prop :=
  ∃ line, ls[n]? = some line ∧ line.statement? = some s

/-- The value of an argument. A label may be defined after its use. -/
inductive Denotes (ls : List Line) : Argument → UInt16 → Prop
  | number (value : UInt16) : Denotes ls (.number value) value
  | label {name : String} {k : Nat} {value : UInt16} (hk : Defines ls k name)
      (hvalue : value.toNat = addressOf ls k) : Denotes ls (.label name) value

/-- How far the end of the branch on line `n` is from `target`. -/
def distance (ls : List Line) (n : Nat) (target : UInt16) : Int :=
  target.toNat - (addressOf ls n + 2)

/-- What is wrong with the argument on line `n`. -/
inductive OperandFault (ls : List Line) (n : Nat) : Cause → Prop
  | undefined {s : Statement} {name : String} (hs : Holds ls n s)
      (harg : s.argument? = some (.label name)) (hnone : ∀ k, ¬ Defines ls k name) :
      OperandFault ls n (.undefinedLabel name)
  | outOfReach {s : Statement} {argument : Argument} {target : UInt16} (hs : Holds ls n s)
      (harg : s.argument? = some argument) (hbranch : s.opcode.mode = .relative)
      (htarget : Denotes ls argument target)
      (hfar : ¬ (-128 ≤ distance ls n target ∧ distance ls n target ≤ 127)) :
      OperandFault ls n (.offsetOutOfRange target (distance ls n target))

/-- Parsing refuses line `n`. -/
def SyntaxFault (texts : List (List Char)) (n : Nat) (cause : Cause) : Prop :=
  ∃ text, texts[n]? = some text ∧ Line.parse text = .error cause

/-- Parsing accepts every line. -/
def ParsesTo (texts : List (List Char)) (ls : List Line) : Prop :=
  List.Forall₂ (fun text line => Line.parse text = .ok line) texts ls

/-- Lines that a program can be made of. -/
structure WellFormed (ls : List Line) : Prop where
  fits : (ls.map Line.size).sum ≤ 65535
  distinct : ∀ name i j, Defines ls i name → Defines ls j name → i = j
  defined : ∀ n s name, Holds ls n s → s.argument? = some (.label name) → ∃ k, Defines ls k name
  inReach : ∀ n s argument target, Holds ls n s → s.opcode.mode = .relative →
    s.argument? = some argument → Denotes ls argument target →
    -128 ≤ distance ls n target ∧ distance ls n target ≤ 127

theorem Holds.lt (h : Holds ls n s) : n < ls.length := lt_of_field h

theorem OperandFault.holds (h : OperandFault ls n cause) : ∃ s, Holds ls n s := by
  cases h with
  | undefined hs => exact ⟨_, hs⟩
  | outOfReach hs => exact ⟨_, hs⟩

theorem parseLines_eq_ok_iff : parseLines texts = .ok ls ↔ ParsesTo texts ls := by
  rw [parseLines, mapM_eq_ok_iff, ParsesTo]
  simp only [parseAt_eq_ok_iff]
  conv_rhs => rw [← List.zipIdx_map_fst 1 texts, List.forall₂_map_left_iff]

/-- Parsing stops at the first line that it refuses. -/
theorem parseLines_eq_error_iff : parseLines texts = .error e ↔ Reports (SyntaxFault texts) e := by
  refine mapM_reports ?_ ?_
  · rintro n ⟨text, number⟩ hn e
    rw [List.getElem?_zipIdx, Option.map_eq_some_iff] at hn
    obtain ⟨text', htext, heq⟩ := hn
    cases heq
    rw [parseAt_eq_error_iff, Nat.add_comm]
    simp [SyntaxFault, htext]
  · rintro n cause ⟨text, htext, -⟩
    exact ⟨_, by rw [List.getElem?_zipIdx, htext]; rfl⟩

theorem entry_eq_error_iff {placed : Placed} {text : List Char} :
    l.entry placed s text = .error e ↔
      e.line = placed.number ∧ s.encode l.symbols placed.address = .error e.cause := by
  obtain ⟨cause, line⟩ := e
  cases h : s.encode l.symbols placed.address <;> simp [Layout.entry, h, and_comm, eq_comm]

section Operands

variable (h : l.Describes ls)
include h

theorem resolve_eq_ok_iff {argument : Argument} {value : UInt16} :
    argument.resolve l.symbols = .ok value ↔ Denotes ls argument value := by
  cases argument with
  | number v =>
    simp only [Argument.resolve, Except.ok.injEq]
    constructor
    · rintro rfl
      exact .number v
    · rintro ⟨⟩
      rfl
  | label name =>
    have haddr : ∀ k, Defines ls k name → (UInt16.ofNat (addressOf ls k)).toNat = addressOf ls k :=
      fun k hk => h.toNat_address (Nat.le_of_lt hk.lt)
    constructor
    · intro hr
      cases hs : l.symbols[name]? with
      | none => simp [Argument.resolve, hs] at hr
      | some sym =>
        simp only [Argument.resolve, hs, Except.ok.injEq] at hr
        obtain ⟨k, hk, rfl⟩ := (h.symbol_iff name sym).1 hs
        exact .label hk (hr ▸ haddr k hk)
    · rintro (_ | ⟨hk, hvalue⟩)
      rename_i k
      have hs := (h.symbol_iff name _).2 ⟨k, hk, rfl⟩
      simp only [Argument.resolve, hs, Except.ok.injEq]
      rw [← UInt16.toNat_inj, haddr k hk, hvalue]

theorem resolve_eq_error_iff {argument : Argument} :
    argument.resolve l.symbols = .error cause ↔
      ∃ name, argument = .label name ∧ (∀ k, ¬ Defines ls k name) ∧
        cause = .undefinedLabel name := by
  cases argument with
  | number v => simp [Argument.resolve]
  | label name =>
    cases hs : l.symbols[name]? with
    | none =>
      simp [Argument.resolve, hs, h.symbols_eq_none_iff.1 hs, eq_comm]
    | some sym =>
      obtain ⟨k, hk, -⟩ := (h.symbol_iff name sym).1 hs
      simp only [Argument.resolve, hs, reduceCtorEq, false_iff]
      rintro ⟨_, ⟨⟩, hnone, -⟩
      exact hnone k hk

/-- Encoding refuses the statement on line `n` exactly when its argument is at fault. -/
theorem encode_eq_error_iff_fault (hs : Holds ls n s) :
    s.encode l.symbols (.ofNat (addressOf ls n)) = .error cause ↔ OperandFault ls n cause := by
  have haddr := h.toNat_address (Nat.le_of_lt hs.lt)
  rw [encode_eq_error_iff]
  constructor
  · rintro ⟨argument, harg, hresolve | ⟨target, htarget, hbytes⟩⟩
    · obtain ⟨name, rfl, hnone, rfl⟩ := (resolve_eq_error_iff h).1 hresolve
      exact .undefined hs harg hnone
    · obtain ⟨hbranch, offset, hoffset, hfar, rfl⟩ := operandBytes_eq_error_iff.1 hbytes
      rw [haddr] at hoffset
      subst hoffset
      exact .outOfReach hs harg hbranch ((resolve_eq_ok_iff h).1 htarget) hfar
  · rintro (⟨hs', harg, hnone⟩ | ⟨hs', harg, hbranch, htarget, hfar⟩)
    · rw [field_unique hs hs']
      exact ⟨_, harg, .inl ((resolve_eq_error_iff h).2 ⟨_, rfl, hnone, rfl⟩)⟩
    · rw [field_unique hs hs']
      refine ⟨_, harg, .inr ⟨_, (resolve_eq_ok_iff h).2 htarget, ?_⟩⟩
      refine operandBytes_eq_error_iff.2 ⟨hbranch, distance ls n _, ?_, hfar, rfl⟩
      rw [haddr]
      rfl

theorem getElem?_zip_lines {x : Placed × List Char} :
    (l.lines.toList.zip texts)[n]? = some x ↔
      ∃ line text, ls[n]? = some line ∧ texts[n]? = some text ∧
        x = ({ address := .ofNat (addressOf ls n), line, number := n + 1 }, text) := by
  obtain ⟨placed, text⟩ := x
  rw [List.getElem?_zip_eq_some, h.lines_eq, List.getElem?_mapIdx, Option.map_eq_some_iff]
  constructor
  · rintro ⟨⟨line, hline, rfl⟩, htext⟩
    exact ⟨line, text, hline, htext, rfl⟩
  · rintro ⟨line, text', hline, htext, heq⟩
    cases heq
    exact ⟨⟨line, hline, rfl⟩, htext⟩

/-- Encoding stops at the first line whose argument is at fault. -/
theorem listing_eq_error_iff (hlen : texts.length = ls.length) :
    l.listing texts = .error e ↔ Reports (OperandFault ls) e := by
  rw [Layout.listing, Layout.statements, mapM_filterMap_eq_error_iff]
  refine mapM_reports ?_ ?_
  · intro n x hx e
    obtain ⟨line, text, hline, htext, rfl⟩ := (getElem?_zip_lines h).1 hx
    cases hs : line.statement? with
    | none =>
      have hnot : ¬ OperandFault ls n e.cause := by
        intro hfault
        obtain ⟨s, line', hline', hs'⟩ := hfault.holds
        rw [hline] at hline'
        cases hline'
        simp [hs] at hs'
      simp [hs, hnot, pure, Except.pure]
    | some s =>
      simp only [hs, Option.map_some, Option.mapM_some]
      rw [map_eq_error_iff, entry_eq_error_iff, encode_eq_error_iff_fault h ⟨line, hline, hs⟩]
  · intro n cause hfault
    obtain ⟨s, line, hline, -⟩ := hfault.holds
    obtain ⟨text, htext⟩ : ∃ text, texts[n]? = some text :=
      ⟨_, List.getElem?_eq_getElem (hlen ▸ (List.getElem?_eq_some_iff.1 hline).1)⟩
    exact ⟨_, (getElem?_zip_lines h).2 ⟨line, text, hline, htext, rfl⟩⟩

end Operands

theorem OperandFault.none_iff :
    (∀ n cause, ¬ OperandFault ls n cause) ↔
      (∀ n s name, Holds ls n s → s.argument? = some (.label name) → ∃ k, Defines ls k name) ∧
        ∀ n s argument target, Holds ls n s → s.opcode.mode = .relative →
          s.argument? = some argument → Denotes ls argument target →
          -128 ≤ distance ls n target ∧ distance ls n target ≤ 127 := by
  constructor
  · intro hnone
    constructor
    · intro n s name hs harg
      by_contra hundef
      exact hnone n _ (.undefined hs harg (not_exists.1 hundef))
    · intro n s argument target hs hbranch harg htarget
      by_contra hfar
      exact hnone n _ (.outOfReach hs harg hbranch htarget hfar)
  · rintro ⟨hdefined, hreach⟩ n cause (⟨hs, harg, hundef⟩ | ⟨hs, harg, hbranch, htarget, hfar⟩)
    · obtain ⟨k, hk⟩ := hdefined n _ _ hs harg
      exact hundef k hk
    · exact hfar (hreach n _ _ _ hs hbranch harg htarget)

theorem wellFormed_iff :
    WellFormed ls ↔
      (∀ n cause, ¬ LayoutFault ls n cause) ∧ ∀ n cause, ¬ OperandFault ls n cause := by
  have hsum : (ls.map Line.size).sum = addressOf ls ls.length := by
    rw [addressOf, List.take_length]
  rw [LayoutFault.none_iff, OperandFault.none_iff, ← hsum]
  constructor
  · rintro ⟨hfits, hdistinct, hdefined, hreach⟩
    exact ⟨⟨hfits, hdistinct⟩, hdefined, hreach⟩
  · rintro ⟨⟨hfits, hdistinct⟩, hdefined, hreach⟩
    exact ⟨hfits, hdistinct, hdefined, hreach⟩

/-- Assembly of a text that has been cut into lines. -/
def assembleLines (texts : List (List Char)) : Except Error Assembly := do
  let lines ← parseLines texts
  let layout ← Layout.ofLines lines
  let listing ← layout.listing texts
  return {
    program := .ofList (listing.flatMap (·.bytes))
    listing
    symbols := layout.symbols }

variable {text : String} {a : Assembly}

theorem assembleLines_eq_ok_iff :
    assembleLines texts = .ok a ↔
      ∃ ls l, ParsesTo texts ls ∧ Layout.ofLines ls = .ok l ∧ l.listing texts = .ok a.listing ∧
        a.symbols = l.symbols ∧ a.program = .ofList (a.listing.flatMap (·.bytes)) := by
  simp only [assembleLines, bind_eq_ok_iff, parseLines_eq_ok_iff, pure, Except.pure,
    Except.ok.injEq]
  constructor
  · rintro ⟨ls, hls, l, hl, listing, hlisting, rfl⟩
    exact ⟨ls, l, hls, hl, hlisting, rfl, rfl⟩
  · rintro ⟨ls, l, hls, hl, hlisting, hsymbols, hprogram⟩
    refine ⟨ls, hls, l, hl, a.listing, hlisting, ?_⟩
    rw [← hsymbols, ← hprogram]

theorem assemble_eq_assembleLines : assemble text = assembleLines (Text.lines text.toList) := rfl

theorem assemble_eq_ok_iff :
    assemble text = .ok a ↔
      ∃ ls l, ParsesTo (Text.lines text.toList) ls ∧ Layout.ofLines ls = .ok l ∧
        l.listing (Text.lines text.toList) = .ok a.listing ∧ a.symbols = l.symbols ∧
        a.program = .ofList (a.listing.flatMap (·.bytes)) := by
  rw [assemble_eq_assembleLines, assembleLines_eq_ok_iff]

theorem assemble_eq_error_iff :
    assemble text = .error e ↔
      parseLines (Text.lines text.toList) = .error e ∨
      ∃ ls, ParsesTo (Text.lines text.toList) ls ∧
        (Layout.ofLines ls = .error e ∨
          ∃ l, Layout.ofLines ls = .ok l ∧ l.listing (Text.lines text.toList) = .error e) := by
  simp [assemble, bind_eq_error_iff, parseLines_eq_ok_iff, pure, Except.pure]

theorem listing_reports (hls : ParsesTo texts ls) (hl : Layout.ofLines ls = .ok l) :
    ∀ e, l.listing texts = .error e ↔ Reports (OperandFault ls) e :=
  fun _ => listing_eq_error_iff (Layout.describes_of_ofLines hl) (List.Forall₂.length_eq hls)

/-- A text assembles exactly when its lines parse to well-formed ones. The error of any other text
is that of the first line at fault: in parsing, or else in layout, or else in encoding. -/
theorem assemble_spec (text : String) :
    ((∃ a, assemble text = .ok a) ↔
      ∃ ls, ParsesTo (Text.lines text.toList) ls ∧ WellFormed ls) ∧
    ∀ e, assemble text = .error e ↔
      Reports (SyntaxFault (Text.lines text.toList)) e ∨
      ∃ ls, ParsesTo (Text.lines text.toList) ls ∧
        (Reports (LayoutFault ls) e ∨
          (∀ n cause, ¬ LayoutFault ls n cause) ∧ Reports (OperandFault ls) e) := by
  constructor
  · constructor
    · rintro ⟨a, ha⟩
      obtain ⟨ls, l, hls, hl, hlisting, -⟩ := assemble_eq_ok_iff.1 ha
      have hlayout := Layout.exists_ofLines_iff.1 ⟨l, hl⟩
      have hoperand := (exists_ok_iff_of_reports (listing_reports hls hl)).1 ⟨_, hlisting⟩
      exact ⟨ls, hls, wellFormed_iff.2 ⟨hlayout, hoperand⟩⟩
    · rintro ⟨ls, hls, hwf⟩
      obtain ⟨hlayout, hoperand⟩ := wellFormed_iff.1 hwf
      obtain ⟨l, hl⟩ := Layout.exists_ofLines_iff.2 hlayout
      obtain ⟨listing, hlisting⟩ := (exists_ok_iff_of_reports (listing_reports hls hl)).2 hoperand
      exact ⟨{ program := .ofList (listing.flatMap (·.bytes)), listing, symbols := l.symbols },
        assemble_eq_ok_iff.2 ⟨ls, l, hls, hl, hlisting, rfl, rfl⟩⟩
  · intro e
    rw [assemble_eq_error_iff, parseLines_eq_error_iff]
    refine or_congr_right (exists_congr fun ls => and_congr_right fun hls => ?_)
    rw [Layout.ofLines_eq_error_iff, ← Layout.exists_ofLines_iff]
    refine or_congr_right ?_
    constructor
    · rintro ⟨l, hl, herror⟩
      exact ⟨⟨l, hl⟩, (listing_reports hls hl e).1 herror⟩
    · rintro ⟨⟨l, hl⟩, hfault⟩
      exact ⟨l, hl, (listing_reports hls hl e).2 hfault⟩

/-- A label that is defined twice is reported before one that is not defined at all. -/
example : (assemble "JMP end\ntop: NOP\ntop: NOP").map (·.listing) =
    .error { cause := .duplicateLabel "top" 2, line := 3 } := by decide +kernel

end WordMachine.Source
