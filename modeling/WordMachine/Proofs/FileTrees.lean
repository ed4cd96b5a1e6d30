import Mathlib.Data.List.TakeWhile
import WordMachine.Cli.Files
import WordMachine.Proofs.FirstFault

/-! Trees of files: the place that a path leads to is the one that a read and a write go to, and a
file put at one place changes nothing at the others. -/
namespace WordMachine.Cli

/-- A path is a directory part, empty or with a separator at its end, and a last component. -/
structure Path.Splits (path dir name : List Char) : Prop where
  eq : path = dir ++ name
  bare : '/' ∉ name
  ends : dir = [] ∨ ∃ front, dir = front ++ ['/']

namespace Path

variable {path dir name front : List Char}

theorem exists_splits (path : List Char) : ∃ dir name, Splits path dir name := by
  refine ⟨(path.reverse.dropWhile (· != '/')).reverse, (path.reverse.takeWhile (· != '/')).reverse,
    ?_, ?_, ?_⟩
  · rw [← List.reverse_append, List.takeWhile_append_dropWhile, List.reverse_reverse]
  · intro h
    exact absurd (List.mem_takeWhile_imp (List.mem_reverse.1 h)) (by decide)
  · cases h : path.reverse.dropWhile (· != '/') with
    | nil => exact .inl rfl
    | cons c rest =>
      have hc := List.head?_dropWhile_not (· != '/') path.reverse
      rw [h] at hc
      have hslash : c = '/' := by simpa using hc
      exact .inr ⟨rest.reverse, by rw [List.reverse_cons, hslash]⟩

theorem splitOn_slash (front : List Char) :
    (front ++ ['/']).splitOn '/' = front.splitOn '/' ++ [[]] := by
  rw [List.splitOn_append_cons_self, List.splitOn_nil]

namespace Splits

theorem splitOn (h : Splits path dir name) :
    path.splitOn '/' = (dir.splitOn '/').dropLast ++ [name] := by
  have hname : name.splitOn '/' = [name] := List.splitOn_eq_singleton h.bare
  obtain rfl := h.eq
  obtain rfl | ⟨front, rfl⟩ := h.ends
  · rw [List.splitOn_nil]
    exact hname
  · rw [splitOn_slash, List.dropLast_concat, List.append_assoc, List.singleton_append,
      List.splitOn_append_cons_self, hname]

/-- A path begins at the root when its directory part does. -/
theorem head?_eq_slash_iff (h : Splits path dir name) :
    path.head? = some '/' ↔ dir.head? = some '/' := by
  obtain rfl := h.eq
  obtain rfl | ⟨front, rfl⟩ := h.ends
  · refine ⟨fun hhead => absurd (List.mem_of_head? hhead) h.bare, fun hhead => ?_⟩
    cases hhead
  · cases front <;> rfl

theorem getLast?_ne_slash (h : Splits path dir name) (hne : name ≠ []) :
    path.getLast? ≠ some '/' := by
  obtain rfl := h.eq
  rw [List.getLast?_append, List.getLast?_eq_some_getLast hne, Option.some_or]
  intro hlast
  exact h.bare (Option.some.inj hlast ▸ List.getLast_mem hne)

end Splits

end Path

namespace FileTree

variable {t : FileTree} {path : String} {dir name : List Char} {place other d d' : List String}
  {node : Node} {content new : ByteArray} {names : List String}

/-! ### Where a path leads -/

/-- The directory that the directory part of a path leads to. -/
def walk (t : FileTree) (dir : List Char) : Except FileError (List String) :=
  ((dir.splitOn '/').dropLast.map String.ofList).foldlM t.enter
    (if dir.head? = some '/' then [] else t.working)

/-- What a path has to be like, in whatever tree, if it is to name an entry of a directory. -/
structure Nameable (path : String) (name : List Char) : Prop where
  short : isTooLong path = false
  proper : isDots (String.ofList name) = false
  fits : (String.ofList name).utf8ByteSize ≤ 255

theorem Nameable.name_ne_nil (h : Nameable path name) : name ≠ [] := by
  rintro rfl
  exact absurd h.proper (by decide)

theorem locate_eq_ok_iff {s : String} (h : Path.Splits path.toList dir name) :
    t.locate path = .ok (d, s) ↔
      path ≠ "" ∧ isTooLong path = false ∧ t.walk dir = .ok d ∧ s = String.ofList name := by
  have hstart : (if path.toList.head? = some '/' then [] else t.working) =
      if dir.head? = some '/' then [] else t.working := by
    simp only [h.head?_eq_slash_iff]
  by_cases hempty : path = ""
  · simp [locate, hempty]
  cases hshort : isTooLong path with
  | true => simp [locate, hempty, hshort]
  | false =>
    have hlocate : t.locate path = (t.walk dir).map fun d => (d, String.ofList name) := by
      simp [locate, walk, hempty, hshort, h.splitOn, hstart]
    rw [hlocate, Source.map_eq_ok_iff]
    simp [hempty, eq_comm]

theorem trimSlashes_of_getLast? (h : path.toList.getLast? ≠ some '/') :
    trimSlashes path = path := by
  have hkeep : path.toList.reverse.dropWhile (· == '/') = path.toList.reverse := by
    cases hrev : path.toList.reverse with
    | nil => rfl
    | cons c rest =>
      have hc : c ≠ '/' := by
        rintro rfl
        refine h ?_
        rw [← List.head?_reverse, hrev, List.head?_cons]
      rw [List.dropWhile_cons_of_neg (by simpa using hc)]
  rw [trimSlashes, hkeep, List.reverse_reverse, String.ofList_toList]

theorem Nameable.ne_empty (h : Path.Splits path.toList dir name) (hn : Nameable path name) :
    path ≠ "" := by
  rintro rfl
  refine hn.name_ne_nil ?_
  have heq := h.eq
  exact (List.append_eq_nil_iff.1 heq.symm).2

theorem read_eq_ok_iff_of_splits (h : Path.Splits path.toList dir name) :
    t.read path = .ok content ↔
      Nameable path name ∧
        ∃ d, t.walk dir = .ok d ∧ t.find? (d ++ [String.ofList name]) = some (.file content) := by
  constructor
  · intro hread
    unfold read at hread
    split at hread
    next => cases hread
    next d s hlocate =>
      obtain ⟨-, hshort, hd, rfl⟩ := (locate_eq_ok_iff h).1 hlocate
      split_ifs at hread with hdots hlong
      split at hread
      next => cases hread
      next => cases hread
      next hfind =>
        cases hread
        exact ⟨⟨hshort, eq_false_of_ne_true hdots, Nat.not_lt.1 hlong⟩, d, hd, hfind⟩
  · rintro ⟨hn, d, hd, hfind⟩
    rw [read, (locate_eq_ok_iff h).2 ⟨hn.ne_empty h, hn.short, hd, rfl⟩]
    simp [hn.proper, Nat.not_lt.2 hn.fits, hfind]

theorem target_eq_ok_iff_of_splits (h : Path.Splits path.toList dir name) :
    t.target path = .ok place ↔
      Nameable path name ∧
        ∃ d, t.walk dir = .ok d ∧ place = d ++ [String.ofList name] ∧
          t.find? place ≠ some .directory := by
  constructor
  · intro htarget
    simp only [target] at htarget
    split_ifs at htarget with hlong hroot
    split at htarget
    next => cases htarget
    next d s hlocate =>
      split_ifs at htarget with hdots hlarge
      rw [not_or] at hdots
      rw [trimSlashes_of_getLast? hdots.2] at hlocate
      obtain ⟨-, hshort, hd, rfl⟩ := (locate_eq_ok_iff h).1 hlocate
      refine ⟨⟨hshort, eq_false_of_ne_true hdots.1, Nat.not_lt.1 hlarge⟩, d, hd, ?_⟩
      split at htarget
      next => cases htarget
      all_goals
        next hfind =>
          cases htarget
          refine ⟨rfl, ?_⟩
          rw [hfind]
          exact fun heq => nomatch heq
  · rintro ⟨hn, d, hd, rfl, hfind⟩
    have hlast := h.getLast?_ne_slash hn.name_ne_nil
    rw [target, trimSlashes_of_getLast? hlast,
      (locate_eq_ok_iff h).2 ⟨hn.ne_empty h, hn.short, hd, rfl⟩]
    simp only [hn.short, hn.ne_empty h, hn.proper, hlast, Nat.not_lt.2 hn.fits]
    cases hnode : t.find? (d ++ [String.ofList name]) with
    | none => rfl
    | some node =>
      cases node with
      | directory => exact absurd hnode hfind
      | file content => rfl

/-- A read goes to the place that a write would go to. -/
theorem read_eq_ok_iff :
    t.read path = .ok content ↔
      ∃ place, t.target path = .ok place ∧ t.find? place = some (.file content) := by
  obtain ⟨dir, name, h⟩ := Path.exists_splits path.toList
  simp only [read_eq_ok_iff_of_splits h, target_eq_ok_iff_of_splits h]
  constructor
  · rintro ⟨hn, d, hd, hfind⟩
    refine ⟨_, ⟨hn, d, hd, rfl, ?_⟩, hfind⟩
    rw [hfind]
    exact fun heq => nomatch heq
  · rintro ⟨place, ⟨hn, d, hd, rfl, -⟩, hfind⟩
    exact ⟨hn, d, hd, hfind⟩

theorem fromUTF8?_eq_some_iff {text : String} :
    String.fromUTF8? content = some text ↔ content = text.toUTF8 := by
  unfold String.fromUTF8?
  split
  next =>
    rw [Option.some.injEq]
    constructor
    · rintro rfl
      rfl
    · rintro rfl
      rfl
  next hvalid =>
    refine ⟨nofun, ?_⟩
    rintro rfl
    exact absurd text.isValidUTF8 hvalid

theorem readText_eq_ok_iff {text : String} :
    t.readText path = .ok text ↔ t.read path = .ok text.toUTF8 := by
  unfold readText
  cases t.read path with
  | error e => exact ⟨nofun, nofun⟩
  | ok content =>
    rw [Except.ok.injEq, ← fromUTF8?_eq_some_iff]
    cases htext : String.fromUTF8? content <;> simp [htext]

/-! ### A file put at a place -/

theorem find?_put_self (h : place ≠ []) : (t.put place node).find? place = some node := by
  simp [find?, put, h]

theorem find?_put_of_ne (h : other ≠ place) : (t.put place node).find? other = t.find? other := by
  have hne : (other == place) = false := by simpa using h
  simp only [find?, put, List.lookup_cons, hne]
  congr 1
  induction t.nodes with
  | nil => rfl
  | cons entry entries ih =>
    rw [List.filter_cons]
    split_ifs with hentry
    · rw [List.lookup_cons, List.lookup_cons, ih]
    · have hsame : entry.1 = place := by simpa using hentry
      rw [List.lookup_cons, hsame, hne, ih]

theorem enter_put {s : String} (hplace : t.find? place ≠ some .directory)
    (h : t.enter d s = .ok d') : (t.put place (.file new)).enter d s = .ok d' := by
  unfold enter at h ⊢
  split_ifs at h ⊢ with hhere hup hlong
  · exact h
  · exact h
  · have hne : d ++ [s] ≠ place := by
      rintro rfl
      split at h
      next => cases h
      next => cases h
      next hfind => exact hplace hfind
    rw [find?_put_of_ne hne]
    exact h

theorem foldlM_enter_put (hplace : t.find? place ≠ some .directory)
    (h : names.foldlM t.enter d = .ok d') :
    names.foldlM (t.put place (.file new)).enter d = .ok d' := by
  induction names generalizing d with
  | nil => exact h
  | cons s names ih =>
    rw [List.foldlM_cons, Source.bind_eq_ok_iff] at h ⊢
    obtain ⟨next, henter, hrest⟩ := h
    exact ⟨next, enter_put hplace henter, ih hrest⟩

/-- The directories on a way stay what they are when a file is put where there is none of them. -/
theorem walk_put (hplace : t.find? place ≠ some .directory) (h : t.walk dir = .ok d) :
    (t.put place (.file new)).walk dir = .ok d :=
  foldlM_enter_put hplace h

theorem target_put (hplace : t.find? place ≠ some .directory) (h : t.target path = .ok other) :
    (t.put place (.file new)).target path = .ok other := by
  obtain ⟨dir, name, hsplits⟩ := Path.exists_splits path.toList
  rw [target_eq_ok_iff_of_splits hsplits] at h ⊢
  obtain ⟨hn, d, hd, rfl, hfind⟩ := h
  refine ⟨hn, d, walk_put hplace hd, rfl, ?_⟩
  by_cases heq : d ++ [String.ofList name] = place
  · have hne : place ≠ [] := heq ▸ List.concat_ne_nil _ _
    rw [heq, find?_put_self hne]
    exact fun hdirectory => nomatch hdirectory
  · rw [find?_put_of_ne heq]
    exact hfind

theorem find?_of_target (h : t.target path = .ok place) :
    place ≠ [] ∧ t.find? place ≠ some .directory := by
  obtain ⟨dir, name, hsplits⟩ := Path.exists_splits path.toList
  obtain ⟨-, d, -, rfl, hfind⟩ := (target_eq_ok_iff_of_splits hsplits).1 h
  exact ⟨List.concat_ne_nil _ _, hfind⟩

end FileTree

end WordMachine.Cli
