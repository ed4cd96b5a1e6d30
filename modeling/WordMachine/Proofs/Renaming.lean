import Mathlib.Logic.Equiv.Basic
import WordMachine.Proofs.Relabelling

/-! Renaming of labels: the passes tell labels apart and look no further into their names. Two
labels that have different names and keep different names may be renamed to anything. -/
namespace WordMachine.Source

namespace Relabelling

/-- New names, on the same lines. -/
def ofNames (rename : String → String) : Relabelling where
  name := rename
  number := id

end Relabelling

open Relabelling

variable {rename : String → String} {ls : List Line} {l l' : Layout}
  {texts : List (List Char)}

/-- The second result is the first with other names for the labels. -/
structure Renamed (rename : String → String) (z z' : Layout × List Listed) : Prop where
  lines : z'.1.lines.toList = z.1.lines.toList.map (ofNames rename).placed
  places : z'.1.lines.toList.map (fun p => (p.address, p.line.size)) =
    z.1.lines.toList.map (fun p => (p.address, p.line.size))
  size : z'.1.size = z.1.size
  symbols : ∀ (name' : String) (symbol : Symbol), z'.1.symbols[name']? = some symbol ↔
    ∃ name, rename name = name' ∧ z.1.symbols[name]? = some symbol
  listing : z'.2 = z.2

theorem numbered_ofNames (n : Nat) :
    (ls.zipIdx n).map (ofNames rename).numbered = (ls.map (ofNames rename).line).zipIdx n := by
  rw [List.zipIdx_map]
  rfl

theorem lines_of_rename (h : l.Describes ls)
    (h' : l'.Describes (ls.map (ofNames rename).line)) :
    l'.lines.toList = l.lines.toList.map (ofNames rename).placed := by
  rw [lines_eq_placedAt h, lines_eq_placedAt h']
  refine mapIdx_map_line fun n _ line => ?_
  rw [placedAt, addressOf_map_line]
  rfl

theorem statements_of_rename (h : l.Describes ls)
    (h' : l'.Describes (ls.map (ofNames rename).line)) :
    l'.statements texts = (l.statements texts).map (ofNames rename).standing := by
  rw [Layout.statements, Layout.statements, lines_of_rename h h', ← filterMap_standing,
    List.zip_map_left]

theorem layout_rename (hinj : Set.InjOn rename (labelNames ls)) :
    (ofNames rename).Parallel ((ofNames rename).Carries (labelNames ls)) (Layout.ofLines ls)
      (Layout.ofLines (ls.map (ofNames rename).line)) := by
  have hempty : (ofNames rename).Carries (labelNames ls) {} {} :=
    ⟨rfl, Nat.zero_le _, renames_empty⟩
  rw [ofLines_eq_foldlM, ofLines_eq_foldlM, ← numbered_ofNames]
  refine parallel_foldlM hinj _ hempty ?_
  rintro ⟨line, number⟩ hz name hname
  exact ⟨line, List.fst_mem_of_mem_zipIdx hz, .inl hname⟩

theorem renamed_of_carries {z z' : Layout × List Listed}
    (h : (ofNames rename).Carries (labelNames ls) z.1 z'.1)
    (hlines : z'.1.lines.toList = z.1.lines.toList.map (ofNames rename).placed)
    (hlisting : z'.2 = z.2.map (ofNames rename).listed) : Renamed rename z z' := by
  refine ⟨hlines, ?_, h.size_eq, ?_, ?_⟩
  · rw [hlines, List.map_map]
    exact List.map_congr_left fun p _ => by simp [placed]
  · intro name' symbol
    rw [h.symbols.lookup_iff]
    constructor
    · rintro ⟨name, symbol, hsymbol, hname, rfl⟩
      exact ⟨name, hname, hsymbol⟩
    · rintro ⟨name, hname, hsymbol⟩
      exact ⟨name, symbol, hsymbol, hname, rfl⟩
  · rw [hlisting]
    exact List.map_id _

/-- Lines whose labels are renamed go through the passes like the lines themselves. -/
theorem passes_rename (texts : List (List Char)) (hinj : Set.InjOn rename (labelNames ls)) :
    (ofNames rename).Parallel (Renamed rename) (passes texts ls)
      (passes texts (ls.map (ofNames rename).line)) := by
  refine (parallel_passes hinj (Set.Subset.refl _) (layout_rename hinj) ?_).imp ?_
  · intro l l' h h'
    exact statements_of_rename h h'
  · rintro z z' ⟨⟨h, h'⟩, hcarries, hlisting⟩
    exact renamed_of_carries hcarries (lines_of_rename h h') hlisting

/-- Two labels change their names with each other; one is used before it is defined. -/
theorem passes_rename_swap :
    let rename : String → String := Equiv.swap "top" "end"
    let ls : List Line :=
      [.statement (some "top") { opcode := .bne, argument? := some (.label "end") },
        .statement none { opcode := .jmp, argument? := some (.label "top") }, .label "end"]
    let texts := ["top: BNE end".toList, "JMP top".toList, "end:".toList]
    Set.InjOn rename (labelNames ls) ∧
      (ofNames rename).Parallel (Renamed rename) (passes texts ls)
        (passes texts (ls.map (ofNames rename).line)) ∧
      (passes texts ls).map (fun z => z.2.map (·.bytes)) =
        .ok [[0xD0, 3], [0x4C, 0, 0]] ∧
      (passes texts (ls.map (ofNames rename).line)).map (fun z => z.1.symbols["end"]?) =
        .ok (some { address := 0, definedAt := 1 }) := by
  intro rename ls texts
  have hinj : Set.InjOn rename (labelNames ls) := (Equiv.injective _).injOn
  refine ⟨hinj, passes_rename texts hinj, ?_, ?_⟩
  · decide +kernel
  · decide +kernel

end WordMachine.Source
