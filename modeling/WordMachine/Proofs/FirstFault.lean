import Mathlib.Data.List.Forall2
import Mathlib.Data.Nat.Find
import WordMachine.Source.Error

/-! Checks that go through lines in order and report the first line that is at fault. -/
namespace WordMachine.Source

variable {α β ε : Type} {xs : List α} {ys : List β} {e : Error}

/-- The error of the first line at fault. Lines are counted from zero in `faults` and from one in
the error. -/
def Reports (faults : Nat → Cause → Prop) (e : Error) : Prop :=
  ∃ n, e.line = n + 1 ∧ faults n e.cause ∧ ∀ k < n, ∀ cause, ¬ faults k cause

theorem exists_reports {faults : Nat → Cause → Prop} {n : Nat} {cause : Cause}
    (h : faults n cause) : ∃ e, Reports faults e := by
  classical
  have hex : ∃ n cause, faults n cause := ⟨n, cause, h⟩
  obtain ⟨first, hfirst⟩ := Nat.find_spec hex
  refine ⟨{ cause := first, line := Nat.find hex + 1 }, Nat.find hex, rfl, hfirst, ?_⟩
  intro k hk cause hcause
  exact Nat.find_min hex hk ⟨cause, hcause⟩

theorem reports_congr {faults faults' : Nat → Cause → Prop}
    (h : ∀ n cause, faults n cause ↔ faults' n cause) : Reports faults e ↔ Reports faults' e := by
  simp only [Reports, h]

/-- A check that reports the first fault succeeds exactly when there is none. -/
theorem exists_ok_iff_of_reports {faults : Nat → Cause → Prop} {x : Except Error α}
    (h : ∀ e, x = .error e ↔ Reports faults e) :
    (∃ a, x = .ok a) ↔ ∀ n cause, ¬ faults n cause := by
  constructor
  · rintro ⟨a, rfl⟩ n cause hcause
    obtain ⟨e, he⟩ := exists_reports hcause
    cases (h e).2 he
  · intro hnone
    cases x with
    | ok a => exact ⟨a, rfl⟩
    | error e =>
      obtain ⟨n, -, hn, -⟩ := (h e).1 rfl
      exact absurd hn (hnone n e.cause)

theorem bind_eq_ok_iff {x : Except ε α} {f : α → Except ε β} {b : β} :
    x >>= f = .ok b ↔ ∃ a, x = .ok a ∧ f a = .ok b := by
  cases x <;> simp [bind, Except.bind]

theorem bind_eq_error_iff {x : Except ε α} {f : α → Except ε β} {err : ε} :
    x >>= f = .error err ↔ x = .error err ∨ ∃ a, x = .ok a ∧ f a = .error err := by
  cases x <;> simp [bind, Except.bind]

theorem map_eq_ok_iff {x : Except ε α} {f : α → β} {b : β} :
    x.map f = .ok b ↔ ∃ a, x = .ok a ∧ f a = b := by
  cases x <;> simp [Except.map]

theorem map_eq_error_iff {x : Except ε α} {f : α → β} {err : ε} :
    f <$> x = .error err ↔ x = .error err := by
  cases x <;> simp [Functor.map, Except.map]

theorem mapM_eq_ok_iff {f : α → Except ε β} :
    xs.mapM f = .ok ys ↔ List.Forall₂ (fun x y => f x = .ok y) xs ys := by
  induction xs generalizing ys with
  | nil =>
    simp only [List.mapM_nil, pure, Except.pure, Except.ok.injEq, List.forall₂_nil_left_iff]
    exact eq_comm
  | cons x xs ih =>
    simp only [List.mapM_cons, bind_eq_ok_iff, ih, List.forall₂_cons_left_iff]
    constructor
    · rintro ⟨y, hy, ys', hys, h⟩
      cases h
      exact ⟨y, ys', hy, hys, rfl⟩
    · rintro ⟨y, ys', hy, hys, rfl⟩
      exact ⟨y, hy, ys', hys, rfl⟩

theorem rel_of_getElem? {r : α → β → Prop} (h : List.Forall₂ r xs ys) {n : Nat} {x : α} {y : β}
    (hx : xs[n]? = some x) (hy : ys[n]? = some y) : r x y :=
  (List.forall₂_iff_zip.1 h).2 (List.mem_of_getElem? (List.getElem?_zip_eq_some.2 ⟨hx, hy⟩))

theorem exists_of_mem_mapM {f : α → Except ε β} (h : xs.mapM f = .ok ys) {y : β} (hy : y ∈ ys) :
    ∃ x ∈ xs, f x = .ok y := by
  obtain ⟨k, hk⟩ := List.mem_iff_getElem?.1 hy
  have hall := mapM_eq_ok_iff.1 h
  have hlt : k < xs.length := by
    rw [List.Forall₂.length_eq hall]
    exact (List.getElem?_eq_some_iff.1 hk).1
  exact ⟨xs[k], List.getElem_mem hlt, rel_of_getElem? hall (List.getElem?_eq_getElem hlt) hk⟩

theorem exists_mem_mapM {f : α → Except ε β} (h : xs.mapM f = .ok ys) {x : α} (hx : x ∈ xs) :
    ∃ y ∈ ys, f x = .ok y := by
  obtain ⟨k, hk⟩ := List.mem_iff_getElem?.1 hx
  have hall := mapM_eq_ok_iff.1 h
  have hlt : k < ys.length := by
    rw [← List.Forall₂.length_eq hall]
    exact (List.getElem?_eq_some_iff.1 hk).1
  exact ⟨ys[k], List.getElem_mem hlt, rel_of_getElem? hall hk (List.getElem?_eq_getElem hlt)⟩

/-- A traversal fails with the first element that fails. -/
theorem mapM_eq_error_iff {f : α → Except ε β} {err : ε} :
    xs.mapM f = .error err ↔
      ∃ (n : Nat) (x : α), xs[n]? = some x ∧ f x = .error err ∧
        ∀ k < n, ∀ y, xs[k]? = some y → ∃ b, f y = .ok b := by
  induction xs with
  | nil => simp [List.mapM_nil, pure, Except.pure]
  | cons x xs ih =>
    rw [List.mapM_cons, bind_eq_error_iff]
    constructor
    · rintro (hx | ⟨b, hb, htail⟩)
      · exact ⟨0, x, rfl, hx, fun k hk => absurd hk (Nat.not_lt_zero k)⟩
      · rcases bind_eq_error_iff.1 htail with hxs | ⟨bs, -, hpure⟩
        · obtain ⟨n, y, hy, hfail, hbefore⟩ := ih.1 hxs
          refine ⟨n + 1, y, hy, hfail, ?_⟩
          intro k hk z hz
          cases k with
          | zero =>
            cases hz
            exact ⟨b, hb⟩
          | succ k => exact hbefore k (by omega) z hz
        · cases hpure
    · rintro ⟨n, y, hy, hfail, hbefore⟩
      cases n with
      | zero =>
        cases hy
        exact .inl hfail
      | succ n =>
        obtain ⟨b, hb⟩ := hbefore 0 (by omega) x rfl
        have hxs := ih.2 ⟨n, y, hy, hfail, fun k hk => hbefore (k + 1) (by omega)⟩
        exact .inr ⟨b, hb, bind_eq_error_iff.2 (.inl hxs)⟩

/-- Leaving elements out beforehand is passing over them on the way. -/
theorem mapM_filterMap_eq_error_iff {γ : Type} {g : γ → Option α} {f : α → Except ε β}
    {zs : List γ} {err : ε} :
    (zs.filterMap g).mapM f = .error err ↔ (zs.mapM fun z => (g z).mapM f) = .error err := by
  induction zs with
  | nil => simp [List.mapM_nil, pure, Except.pure]
  | cons z zs ih =>
    rw [List.mapM_cons, bind_eq_error_iff]
    cases hz : g z with
    | none =>
      rw [List.filterMap_cons_none hz, ih]
      simp [bind_eq_error_iff, pure, Except.pure]
    | some x =>
      rw [List.filterMap_cons_some hz, List.mapM_cons, bind_eq_error_iff]
      simp only [bind_eq_error_iff, ih, Option.mapM_some]
      cases f x <;> simp [pure, Except.pure]

/-- A traversal whose errors carry their own line number reports the first fault. -/
theorem mapM_reports {f : α → Except Error β} {faults : Nat → Cause → Prop}
    (hf : ∀ (n : Nat) (x : α), xs[n]? = some x →
      ∀ e, f x = .error e ↔ e.line = n + 1 ∧ faults n e.cause)
    (hin : ∀ n cause, faults n cause → ∃ x, xs[n]? = some x) :
    xs.mapM f = .error e ↔ Reports faults e := by
  rw [mapM_eq_error_iff]
  constructor
  · rintro ⟨n, x, hx, hfail, hbefore⟩
    obtain ⟨hline, hcause⟩ := (hf n x hx e).1 hfail
    refine ⟨n, hline, hcause, ?_⟩
    intro k hk cause hk'
    obtain ⟨y, hy⟩ := hin k cause hk'
    obtain ⟨b, hb⟩ := hbefore k hk y hy
    have hy' := (hf k y hy { cause, line := k + 1 }).2 ⟨rfl, hk'⟩
    rw [hb] at hy'
    cases hy'
  · rintro ⟨n, hline, hcause, hbefore⟩
    obtain ⟨x, hx⟩ := hin n e.cause hcause
    refine ⟨n, x, hx, (hf n x hx e).2 ⟨hline, hcause⟩, ?_⟩
    intro k hk y hy
    cases hy' : f y with
    | ok b => exact ⟨b, rfl⟩
    | error e' => exact absurd ((hf k y hy e').1 hy').2 (hbefore k hk e'.cause)

end WordMachine.Source
