import WordMachine.Proofs.Acceptance

/-! Lines as they stand between line feeds: a text assembles like the pieces that its line feeds cut
it into. What `Text.lines` leaves out of these says nothing: the return before a line feed, and an
empty last line. -/
namespace WordMachine

namespace Text

variable {cs ds core : List Char} {c : Char}

theorem Trimmed.self (h : Trimmed cs core) : Trimmed core core := by
  obtain ⟨-, -, hfirst, hlast⟩ := h
  simpa using Trimmed.intro blanks_nil blanks_nil hfirst hlast

theorem trim_trim (cs : List Char) : trim (trim cs) = trim cs :=
  trim_of_trimmed (trimmed_trim cs).self

theorem exists_blanks_trim (cs : List Char) :
    ∃ w w', Blanks w ∧ Blanks w' ∧ cs = w ++ trim cs ++ w' := by
  have htrimmed := trimmed_trim cs
  generalize trim cs = core at htrimmed ⊢
  obtain ⟨hw, hw', -, -⟩ := htrimmed
  exact ⟨_, _, hw, hw', rfl⟩

theorem trim_of_blanks_append (hds : Blanks ds) : trim (ds ++ cs) = trim cs := by
  rw [trim, trimStart, List.dropWhile_append_of_pos hds]
  rfl

theorem trim_append_of_blanks (hds : Blanks ds) : trim (cs ++ ds) = trim cs := by
  have htrimmed := trimmed_trim cs
  generalize hcore : trim cs = core at htrimmed
  obtain ⟨hw, hw', hfirst, hlast⟩ := htrimmed
  have hlonger := Trimmed.intro hw (hw'.append hds) hfirst hlast
  rw [← List.append_assoc] at hlonger
  exact trim_of_trimmed hlonger

theorem trim_dropReturn (cs : List Char) : trim (dropReturn cs) = trim cs := by
  rw [dropReturn]
  split
  next hlast =>
    obtain ⟨ds, rfl⟩ := List.getLast?_eq_some_iff.1 hlast
    have hreturn : Blanks ['\r'] := by simp [Blanks, isBlank]
    rw [List.dropLast_concat, trim_append_of_blanks hreturn]
  next => rfl

end Text

namespace Source

open Text

variable {texts : List (List Char)} {ls : List Line} {l : Layout} {text : String}

/-! ### Blanks at the ends of a line -/

/-- A comment hides the blanks at the end of a line, and blanks hide no comment. -/
theorem Line.trim_code_trim (cs : List Char) : trim (code (trim cs)) = trim (code cs) := by
  obtain ⟨w, w', hw, hw', hcs⟩ := exists_blanks_trim cs
  have hclear : ∀ c ∈ w, (c != '#' && c != ';') = true :=
    no_comment (hw.not_mem (by decide)) (hw.not_mem (by decide))
  have hstart : code cs = w ++ code (trim cs ++ w') := by
    conv_lhs => rw [hcs, List.append_assoc]
    rw [code, List.takeWhile_append_of_pos hclear, code]
  rw [hstart, trim_of_blanks_append hw, code, code, List.takeWhile_append]
  split
  next hall =>
    have hrest : Blanks (w'.takeWhile fun c => c != '#' && c != ';') :=
      fun c hc => hw' c ((List.takeWhile_sublist _).subset hc)
    rw [trim_append_of_blanks hrest, (List.takeWhile_sublist _).eq_of_length hall]
  next => rfl

theorem Line.parse_trim (cs : List Char) : Line.parse (trim cs) = Line.parse cs := by
  rw [Line.parse, Line.parse, trim_code_trim]

theorem parseLines_map_trim : parseLines (texts.map trim) = parseLines texts := by
  rw [parseLines, List.zipIdx_map, List.mapM_map, parseLines]
  congr 1
  funext z
  exact congrArg (Except.mapError _) (Line.parse_trim z.1)

theorem Layout.listing_map_trim : l.listing (texts.map trim) = l.listing texts := by
  have hstatements : l.statements (texts.map trim) =
      (l.statements texts).map fun z => (z.1, z.2.1, trim z.2.2) := by
    rw [Layout.statements, List.zip_map_right, List.filterMap_map, Layout.statements,
      List.map_filterMap]
    congr 1
    funext z
    simp [Function.comp_def]
  rw [Layout.listing, hstatements, List.mapM_map, Layout.listing]
  congr 1
  funext z
  simp [Layout.entry, trim_trim]

/-- Blanks at the ends of lines say nothing. -/
theorem assembleLines_map_trim : assembleLines (texts.map trim) = assembleLines texts := by
  simp only [assembleLines, parseLines_map_trim, Layout.listing_map_trim]

/-! ### Empty lines at the end -/

theorem Layout.add_blank (number : Nat) (h : l.size ≤ Program.maxBytes) :
    l.add number .blank = .ok
      { l with lines := l.lines.push { address := .ofNat l.size, line := .blank, number } } := by
  simp [Layout.add, Line.size, Line.label?, h]

theorem parseLines_concat_nil :
    parseLines (texts ++ [[]]) = (parseLines texts).map (· ++ [.blank]) := by
  rw [parseLines, List.zipIdx_append, List.mapM_append, ← parseLines]
  cases parseLines texts <;> rfl

/-- A line without a statement has no part in the listing. -/
theorem Layout.listing_concat {placed : Placed} {cs : List Char}
    (hlen : l.lines.size = texts.length) (hs : placed.line.statement? = none) :
    { l with lines := l.lines.push placed }.listing (texts ++ [cs]) = l.listing texts := by
  have hstatements : { l with lines := l.lines.push placed }.statements (texts ++ [cs]) =
      l.statements texts := by
    rw [Layout.statements, Array.toList_push, List.zip_append (by simpa using hlen),
      List.filterMap_append]
    simp [Layout.statements, hs]
  rw [Layout.listing, hstatements]
  rfl

theorem assembleLines_concat_nil : assembleLines (texts ++ [[]]) = assembleLines texts := by
  rw [assembleLines, parseLines_concat_nil, assembleLines]
  cases hparse : parseLines texts with
  | error e => rfl
  | ok ls =>
    change Layout.ofLines (ls ++ [.blank]) >>= _ = Layout.ofLines ls >>= _
    rw [Layout.ofLines_concat]
    cases hl : Layout.ofLines ls with
    | error e => rfl
    | ok l =>
      have h := Layout.describes_of_ofLines hl
      have hsize : l.lines.size = texts.length := by
        have hlen := List.Forall₂.length_eq (parseLines_eq_ok_iff.1 hparse)
        rw [← Array.length_toList, h.lines_eq, List.length_mapIdx, hlen]
      have hadd := Layout.add_blank (ls.length + 1) (h.size_eq ▸ h.fits)
      change l.add (ls.length + 1) .blank >>= _ = l.listing texts >>= _
      rw [hadd]
      change Layout.listing _ (texts ++ [[]]) >>= _ = _
      rw [Layout.listing_concat hsize rfl]

/-! ### Pieces -/

/-- A text assembles like its pieces between line feeds. -/
theorem assemble_eq_pieces : assemble text = assembleLines (text.toList.splitOn '\n') := by
  have hne := List.splitOn_ne_nil '\n' text.toList
  rw [assemble_eq_assembleLines, lines]
  generalize text.toList.splitOn '\n' = pieces at hne
  obtain ⟨pieces, last, rfl⟩ := (List.eq_nil_or_concat' pieces).resolve_left hne
  have hreturn : ∀ tail, assembleLines (pieces.map dropReturn ++ tail) =
      assembleLines (pieces ++ tail) := by
    intro tail
    have htrim : (pieces.map dropReturn).map trim = pieces.map trim := by
      rw [List.map_map]
      exact List.map_congr_left fun cs _ => trim_dropReturn cs
    rw [← assembleLines_map_trim, List.map_append, htrim, ← List.map_append,
      assembleLines_map_trim]
  rw [List.dropLast_concat, List.getLast?_concat, hreturn]
  cases last with
  | nil => simp [assembleLines_concat_nil]
  | cons c cs => simp

/-- Lines that line feeds join assemble like the lines. -/
theorem assemble_intercalate {ts : List String} (h : ∀ s ∈ ts, '\n' ∉ s.toList) :
    assemble ("\n".intercalate ts) = assembleLines (ts.map String.toList) := by
  rw [assemble_eq_pieces, String.toList_intercalate]
  cases ts with
  | nil =>
    have hempty : assembleLines ([] ++ [[]]) = assembleLines [] := assembleLines_concat_nil
    rw [List.map_nil, List.intercalate_nil, List.splitOn_nil]
    exact hempty
  | cons s ts =>
    have hpieces : ∀ cs ∈ (s :: ts).map String.toList, '\n' ∉ cs := by
      intro cs hcs
      obtain ⟨s', hs', rfl⟩ := List.mem_map.1 hcs
      exact h s' hs'
    exact congrArg assembleLines (List.splitOn_intercalate '\n' hpieces (List.cons_ne_nil _ _))

end Source

end WordMachine
