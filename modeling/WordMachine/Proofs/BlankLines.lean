import WordMachine.Proofs.LineFeeds
import WordMachine.Proofs.Relabelling

/-! Blank lines: a line that holds neither a label nor a statement can be put in anywhere. It moves
the lines behind it down by one and changes nothing else. -/
namespace WordMachine.Source

namespace Relabelling

/-- Numbers of lines once there is one line more behind the first `i`. -/
def gap (i : Nat) : Relabelling where
  name := id
  number n := if n ≤ i then n else n + 1

end Relabelling

open Relabelling

variable {us vs : List (List Char)} {b cs : List Char} {as bs ls : List Line} {l l' : Layout}
  {i n : Nat} {cause : Cause} {α : Type}

/-- The second assembly is the first with line numbers that leave a gap behind line `i`. -/
structure Shifts (i : Nat) (a a' : Assembly) : Prop where
  program : a'.program = a.program
  listing : a'.listing = a.listing.map (gap i).listed
  symbols : ∀ name : String, a'.symbols[name]? = a.symbols[name]?.map (gap i).symbol

/-! ### Numbers -/

theorem line_gap (line : Line) : (gap i).line line = line := by
  cases line with
  | blank => rfl
  | label name => rfl
  | statement label? s =>
    obtain ⟨opcode, argument?⟩ := s
    cases label? <;> rcases argument? with _ | (_ | _) <;> rfl

theorem map_line_gap : ls.map (gap i).line = ls :=
  (List.map_congr_left fun line _ => line_gap line).trans (List.map_id' ls)

theorem injOn_gap : Set.InjOn (gap i).name Set.univ := Function.injective_id.injOn

theorem numbered_gap : (gap i).numbered = Prod.map id (gap i).number := by
  funext ⟨line, number⟩
  simp [numbered, line_gap]

theorem number_gap_of_le (h : n ≤ i) : (gap i).number n = n := if_pos h

theorem number_gap_of_lt (h : i < n) : (gap i).number n = n + 1 := if_neg (Nat.not_le_of_lt h)

theorem zipIdx_before_gap {xs : List α} (h : xs.length = i) :
    (xs.zipIdx 1).map (Prod.map id (gap i).number) = xs.zipIdx 1 := by
  refine (List.map_congr_left ?_).trans (List.map_id _)
  rintro ⟨x, n⟩ hx
  have hn : n < 1 + xs.length := List.snd_lt_add_of_mem_zipIdx hx
  exact congrArg (Prod.mk x) (number_gap_of_le (by omega))

theorem zipIdx_behind_gap (xs : List α) :
    (xs.zipIdx (1 + i)).map (Prod.map id (gap i).number) = xs.zipIdx (1 + i + 1) := by
  rw [Nat.add_comm (1 + i) 1]
  refine (List.map_congr_left ?_).trans List.map_snd_add_zipIdx_eq_zipIdx
  rintro ⟨x, n⟩ hx
  have hn : 1 + i ≤ n := List.le_snd_of_mem_zipIdx hx
  exact congrArg (Prod.mk x) (number_gap_of_lt (by omega))

/-! ### Parsing -/

/-- Parsing finds no fault with the names of labels. -/
theorem cause_of_parse (ρ : Relabelling) (h : Line.parse cs = .error cause) :
    ρ.cause cause = cause := by
  have hrefused := Line.parse_eq_error_iff.1 h
  generalize Line.code cs = body at hrefused
  rcases hrefused with _ | ⟨-, hwords⟩
  · rfl
  · cases hwords <;> rfl

theorem parallel_parseAt (ρ : Relabelling) (n : Nat) (cs : List Char) :
    ρ.Parallel (fun line line' => line' = id line) (Line.parseAt n cs)
      (Line.parseAt (ρ.number n) cs) := by
  cases h : Line.parse cs with
  | ok line =>
    rw [parseAt_eq_ok_iff.2 h, parseAt_eq_ok_iff.2 h]
    exact .ok rfl
  | error cause =>
    have hcause := cause_of_parse ρ h
    have hn : Line.parseAt n cs = .error { cause, line := n } := parseAt_eq_error_iff.2 ⟨rfl, h⟩
    have hn' : Line.parseAt (ρ.number n) cs = .error (ρ.error { cause, line := n }) :=
      parseAt_eq_error_iff.2 ⟨rfl, h.trans (congrArg Except.error hcause.symm)⟩
    rw [hn, hn']
    exact .error _

theorem parallel_mapM_parseAt (ρ : Relabelling) (zs : List (List Char × Nat)) :
    ρ.Parallel (fun ls ls' => ls' = ls) (zs.mapM fun z => Line.parseAt z.2 z.1)
      ((zs.map (Prod.map id ρ.number)).mapM fun z => Line.parseAt z.2 z.1) := by
  refine (Parallel.mapM (ψ := id) zs fun z _ => parallel_parseAt ρ z.2 z.1).imp ?_
  rintro ls ls' rfl
  exact List.map_id ls

/-- The lines that are parsed, with the blank one among them. -/
theorem parallel_parseLines (hb : Line.parse b = .ok .blank) :
    (gap us.length).Parallel
      (fun ls ls' => ∃ as bs, ls = as ++ bs ∧ as.length = us.length ∧ ls' = as ++ .blank :: bs)
      (parseLines (us ++ vs)) (parseLines (us ++ b :: vs)) := by
  have hus := parallel_mapM_parseAt (gap us.length) (us.zipIdx 1)
  have hvs := parallel_mapM_parseAt (gap us.length) (vs.zipIdx (1 + us.length))
  rw [zipIdx_before_gap rfl] at hus
  rw [zipIdx_behind_gap] at hvs
  have hblank : Line.parseAt (1 + us.length) b = pure .blank := parseAt_eq_ok_iff.2 hb
  rw [parseLines, parseLines, List.zipIdx_append, List.zipIdx_append, List.zipIdx_cons,
    List.mapM_append, List.mapM_append, List.mapM_cons]
  refine hus.bind fun as as' has _ hsame => ?_
  have hlen : as.length = us.length := by
    simpa using (List.Forall₂.length_eq (mapM_eq_ok_iff.1 has)).symm
  simp only [hblank, bind_assoc, pure_bind]
  refine hvs.bind fun bs bs' _ _ hbs => ?_
  exact .ok ⟨as, bs, rfl, hlen, by rw [hsame, hbs]⟩

/-! ### Layout and encoding -/

theorem parallel_ofLines_gap (as bs : List Line) :
    (gap as.length).Parallel ((gap as.length).Carries Set.univ) (Layout.ofLines (as ++ bs))
      (Layout.ofLines (as ++ .blank :: bs)) := by
  have hnames : ∀ zs : List (Line × Nat), ∀ z ∈ zs, ∀ name, z.1.label? = some name →
      name ∈ (Set.univ : Set String) := fun _ _ _ name _ => Set.mem_univ name
  have hempty : (gap as.length).Carries Set.univ {} {} := ⟨rfl, Nat.zero_le _, renames_empty⟩
  have has := parallel_foldlM injOn_gap (as.zipIdx 1) hempty (hnames _)
  rw [numbered_gap, zipIdx_before_gap rfl] at has
  rw [ofLines_eq_foldlM, ofLines_eq_foldlM, List.zipIdx_append, List.zipIdx_append,
    List.zipIdx_cons, List.foldlM_append, List.foldlM_append]
  refine has.bind fun l l' _ _ h => ?_
  have hadd := Layout.add_blank (1 + as.length) (h.size_eq ▸ h.fits)
  rw [List.foldlM_cons, hadd]
  have hcarries : ∀ lines, (gap as.length).Carries Set.univ l { l' with lines } :=
    fun _ => ⟨h.size_eq, h.fits, h.symbols⟩
  have hbs := fun lines =>
    parallel_foldlM injOn_gap (bs.zipIdx (1 + as.length)) (hcarries lines) (hnames _)
  rw [numbered_gap, zipIdx_behind_gap] at hbs
  exact hbs _

theorem placedAt_before_gap (h : n < as.length) (line : Line) :
    placedAt (as ++ .blank :: bs) n ((gap as.length).line line) =
      (gap as.length).placed (placedAt (as ++ bs) n line) := by
  have hle := Nat.le_of_lt h
  rw [placedAt, placedAt, Relabelling.placed, number_gap_of_le h,
    addressOf_append hle, addressOf_append hle]

theorem placedAt_behind_gap (n : Nat) (line : Line) :
    placedAt (as ++ .blank :: bs) (n + 1 + as.length) ((gap as.length).line line) =
      (gap as.length).placed (placedAt (as ++ bs) (n + as.length) line) := by
  have haddr : addressOf (as ++ .blank :: bs) (n + 1 + as.length) =
      addressOf (as ++ bs) (n + as.length) := by
    rw [Nat.add_comm _ as.length, Nat.add_comm _ as.length, addressOf, addressOf,
      List.take_length_add_append, List.take_length_add_append]
    simp [Line.size]
  have hnumber : (gap as.length).number (n + as.length + 1) = n + 1 + as.length + 1 := by
    rw [number_gap_of_lt (by omega), Nat.add_right_comm n]
  rw [placedAt, placedAt, Relabelling.placed, hnumber, haddr]

/-- The lines of both layouts, of which one has a blank line more. -/
theorem exists_lines_of_gap (h : l.Describes (as ++ bs)) (h' : l'.Describes (as ++ .blank :: bs)) :
    ∃ front back placed, l.lines.toList = front ++ back ∧ front.length = as.length ∧
      l'.lines.toList =
        front.map (gap as.length).placed ++ placed :: back.map (gap as.length).placed ∧
      placed.line = .blank := by
  have hfront : as.mapIdx (placedAt (as ++ .blank :: bs)) =
      (as.mapIdx (placedAt (as ++ bs))).map (gap as.length).placed := by
    rw [← mapIdx_map_line fun n hn line => placedAt_before_gap hn line, map_line_gap]
  have hback : bs.mapIdx (fun n => placedAt (as ++ .blank :: bs) (n + 1 + as.length)) =
      (bs.mapIdx fun n => placedAt (as ++ bs) (n + as.length)).map (gap as.length).placed := by
    rw [← mapIdx_map_line fun n _ line => placedAt_behind_gap n line, map_line_gap]
  refine ⟨as.mapIdx (placedAt (as ++ bs)), bs.mapIdx fun n => placedAt (as ++ bs) (n + as.length),
    placedAt (as ++ .blank :: bs) (0 + as.length) .blank, ?_, List.length_mapIdx, ?_, rfl⟩
  · rw [lines_eq_placedAt h, List.mapIdx_append]
  · rw [lines_eq_placedAt h', List.mapIdx_append, List.mapIdx_cons, hfront, hback]

theorem statements_of_gap (h : l.Describes (as ++ bs)) (h' : l'.Describes (as ++ .blank :: bs))
    (hlen : as.length = us.length) :
    l'.statements (us ++ b :: vs) =
      (l.statements (us ++ vs)).map (gap as.length).standing := by
  obtain ⟨front, back, placed, hlines, hfront, hlines', hblank⟩ := exists_lines_of_gap h h'
  have hzip : l.lines.toList.zip (us ++ vs) = front.zip us ++ back.zip vs := by
    rw [hlines, List.zip_append (hfront.trans hlen)]
  have hzip' : l'.lines.toList.zip (us ++ b :: vs) =
      (front.zip us).map (Prod.map (gap as.length).placed id) ++
        (placed, b) :: (back.zip vs).map (Prod.map (gap as.length).placed id) := by
    rw [hlines', List.zip_append (by simpa using hfront.trans hlen), List.zip_cons_cons,
      List.zip_map_left, List.zip_map_left]
  rw [Layout.statements, Layout.statements, hzip, hzip', List.filterMap_append,
    List.filterMap_append, List.map_append, List.filterMap_cons, filterMap_standing,
    filterMap_standing]
  simp [hblank, Line.statement?]

theorem passes_insert_blank (hlen : as.length = us.length) :
    (gap us.length).Parallel
      (fun z z' => (gap us.length).Carries Set.univ z.1 z'.1 ∧
        z'.2 = z.2.map (gap us.length).listed)
      (passes (us ++ vs) (as ++ bs)) (passes (us ++ b :: vs) (as ++ .blank :: bs)) := by
  rw [← hlen]
  refine (parallel_passes injOn_gap (Set.subset_univ _) (parallel_ofLines_gap as bs) ?_).imp ?_
  · intro l l' h h'
    exact statements_of_gap h h' hlen
  · rintro z z' ⟨-, h⟩
    exact h

/-! ### Assembly -/

theorem assembleLines_insert_blank (hb : Line.parse b = .ok .blank) :
    (gap us.length).Parallel (Shifts us.length) (assembleLines (us ++ vs))
      (assembleLines (us ++ b :: vs)) := by
  rw [assembleLines_eq_passes, assembleLines_eq_passes]
  refine (parallel_parseLines hb).bind ?_
  rintro ls ls' - - ⟨as, bs, rfl, hlen, rfl⟩
  refine (passes_insert_blank hlen).bind ?_
  rintro ⟨l, xs⟩ ⟨l', xs'⟩ - - ⟨hcarries, hlisted⟩
  refine .ok ⟨?_, hlisted, fun name => hcarries.symbols.lookup injOn_gap (Set.mem_univ name)⟩
  rw [hlisted, List.flatMap_map]
  rfl

/-- A blank line behind the first lines of a text moves the lines behind it, and with them the
labels that they define and the fault that one of them may have. -/
theorem assemble_insert_blank {us vs : List String} {b : String}
    (hlines : ∀ s ∈ us ++ b :: vs, '\n' ∉ s.toList) (hb : Line.parse b.toList = .ok .blank) :
    (gap us.length).Parallel (Shifts us.length) (assemble ("\n".intercalate (us ++ vs)))
      (assemble ("\n".intercalate (us ++ b :: vs))) := by
  have hfewer : ∀ s ∈ us ++ vs, '\n' ∉ s.toList := by
    intro s hs
    rcases List.mem_append.1 hs with hs | hs
    · exact hlines s (List.mem_append_left _ hs)
    · exact hlines s (List.mem_append_right _ (List.mem_cons_of_mem b hs))
  rw [assemble_intercalate hfewer, assemble_intercalate hlines, List.map_append, List.map_append,
    List.map_cons, ← List.length_map String.toList]
  exact assembleLines_insert_blank hb

/-- The blank line stands between a label and its use, and the first line after it ends in a
return. -/
theorem assemble_insert_blank_before_return :
    let us := ["top: NOP"]
    let vs := ["BNE end\r", "end: BNE top"]
    let b := "  ; note"
    (gap us.length).Parallel (Shifts us.length) (assemble ("\n".intercalate (us ++ vs)))
        (assemble ("\n".intercalate (us ++ b :: vs))) ∧
      (assemble ("\n".intercalate (us ++ vs))).map (fun a => a.listing.map (·.line)) =
        .ok [1, 2, 3] ∧
      (assemble ("\n".intercalate (us ++ b :: vs))).map (fun a => a.symbols["end"]?) =
        .ok (some { address := 3, definedAt := 4 }) := by
  intro us vs b
  have hlines : ∀ s ∈ us ++ b :: vs, '\n' ∉ s.toList := by decide
  have hb : Line.parse b.toList = .ok .blank := by decide
  refine ⟨assemble_insert_blank hlines hb, ?_, ?_⟩
  · decide +kernel
  · decide +kernel

end WordMachine.Source
