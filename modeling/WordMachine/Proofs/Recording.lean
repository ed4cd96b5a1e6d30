import Mathlib.Data.List.DropRight
import Mathlib.Data.List.Induction
import WordMachine.Proofs.Tracing

/-! A tracer that is told of events and of the ends of steps, in whatever order. An entry shows what
was told after the last start and the last entry before it, and nothing that is told later changes
it. -/
namespace WordMachine.Trace

/-- The end of a step: the registers before it, how it went, and the registers now. -/
structure Closing where
  before : Registers
  outcome : Outcome
  now : Registers

/-- What a tracer is told. -/
inductive Item
  | event (event : Event)
  | closing (closing : Closing)

variable {items : List Item} {item : Item} {c : Closing} {t : Tracer} {entry : Entry} {k : Nat}

namespace Item

def isClosing : Item → Bool
  | .event _ => false
  | .closing _ => true

/-- The opcode of the instruction that starts. -/
def code? : Item → Option UInt8
  | .event (.started _ opcode) => some opcode
  | .event (.touched ..) | .event (.retired ..) | .event (.faulted ..) | .closing _ => none

def cell? : Item → Option Cell
  | .event e => Cell.ofEvent? e
  | .closing _ => none

/-- Later entries show no cell that was told before. -/
def isBoundary : Item → Bool
  | .event e => e.isStart
  | .closing _ => true

/-- What was told after the last boundary. -/
def recent (items : List Item) : List Item := items.rtakeWhile (!·.isBoundary)

theorem recent_concat :
    recent (items ++ [item]) = if item.isBoundary then [] else recent items ++ [item] := by
  unfold recent
  cases h : item.isBoundary
  · exact List.rtakeWhile_concat_pos _ _ _ (by simp [h])
  · exact List.rtakeWhile_concat_neg _ _ _ (by simp [h])

end Item

/-- What an entry says when `c` closes it after the items `prior`. -/
structure Entry.Closes (prior : List Item) (c : Closing) (entry : Entry) : Prop where
  step : entry.step = prior.countP Item.isClosing
  opcode : entry.opcode = (prior.filterMap Item.code?).getLast?.getD 0
  cells : entry.cells = (Item.recent prior).filterMap Item.cell?
  before : entry.before = c.before
  retired : ∀ cycles, c.outcome = .retired cycles →
    entry.after? = some c.now ∧ entry.halted = false ∧ entry.error? = none
  halted : ∀ cycles reason, c.outcome = .halted cycles reason →
    entry.after? = some c.now ∧ entry.halted = true ∧ entry.error? = none
  faulted : ∀ cause, c.outcome = .faulted cause →
    entry.after? = none ∧ entry.halted = true ∧ entry.error? = some cause

/-- The entry is what the closing says that has `k` others before it among `items`. -/
def Entry.ClosedAt (items : List Item) (k : Nat) (entry : Entry) : Prop :=
  ∃ prior c later, items = prior ++ .closing c :: later ∧ prior.countP Item.isClosing = k ∧
    entry.Closes prior c

theorem Entry.ClosedAt.concat (h : entry.ClosedAt items k) :
    entry.ClosedAt (items ++ [item]) k := by
  obtain ⟨prior, c, later, rfl, hk, hcloses⟩ := h
  exact ⟨prior, c, later ++ [item], by simp, hk, hcloses⟩

namespace Tracer

def tell (t : Tracer) : Item → Tracer
  | .event event => t.observe event
  | .closing c => t.record c.before c.outcome c.now

/-- A new tracer that has been told these items. -/
def ofItems (items : List Item) : Tracer := items.foldl tell {}

/-- The entry that `c` would close now. -/
def close (t : Tracer) (c : Closing) : Entry where
  step := t.size
  opcode := t.opcode
  before := c.before
  ending := .ofOutcome c.now c.outcome
  cells := t.cells.toList

theorem ofItems_concat : ofItems (items ++ [item]) = (ofItems items).tell item := by
  simp [ofItems]

theorem opcode_tell : (t.tell item).opcode = item.code?.getD t.opcode := by
  rcases item with ⟨_ | _ | _ | _⟩ | _ <;> rfl

theorem cells_tell :
    (t.tell item).cells.toList =
      if item.isBoundary then [] else t.cells.toList ++ item.cell?.toList := by
  rcases item with ⟨_ | _ | _ | _⟩ | _ <;>
    simp [tell, observe, record, Item.isBoundary, Item.cell?, Event.isStart, Cell.ofEvent?]

theorem entries_tell_event (event : Event) : (t.tell (.event event)).entries = t.entries := by
  cases event <;> rfl

theorem entries_tell_closing :
    (t.tell (.closing c)).entries.toList = t.entries.toList ++ [t.close c] :=
  Array.toList_push

theorem prefix_tell : t.entries.toList <+: (t.tell item).entries.toList := by
  cases item with
  | event event => simp only [entries_tell_event, List.prefix_rfl]
  | closing c =>
    rw [entries_tell_closing]
    exact List.prefix_append ..

/-- The opcode of the last start stays until the next one. -/
theorem opcode_ofItems (items : List Item) :
    (ofItems items).opcode = (items.filterMap Item.code?).getLast?.getD 0 := by
  induction items using List.reverseRecOn with
  | nil => rfl
  | append_singleton items item ih =>
    rw [ofItems_concat, opcode_tell, ih]
    cases h : item.code? <;> simp [h]

theorem cells_ofItems (items : List Item) :
    (ofItems items).cells.toList = (Item.recent items).filterMap Item.cell? := by
  induction items using List.reverseRecOn with
  | nil => rfl
  | append_singleton items item ih =>
    rw [ofItems_concat, cells_tell, Item.recent_concat, ih]
    split
    · rfl
    · cases h : item.cell? <;> simp [h]

theorem length_ofItems (items : List Item) :
    (ofItems items).entries.toList.length = items.countP Item.isClosing := by
  induction items using List.reverseRecOn with
  | nil => rfl
  | append_singleton items item ih =>
    rw [ofItems_concat, List.countP_append, ← ih]
    cases item with
    | event event => simp [entries_tell_event, Item.isClosing]
    | closing c => simp [entries_tell_closing, Item.isClosing]

/-- Entries stay as they are, and where they are. -/
theorem prefix_ofItems (prior later : List Item) :
    (ofItems prior).entries.toList <+: (ofItems (prior ++ later)).entries.toList := by
  induction later using List.reverseRecOn with
  | nil => simp
  | append_singleton later item ih =>
    rw [← List.append_assoc, ofItems_concat]
    exact ih.trans prefix_tell

theorem closes_close (prior : List Item) (c : Closing) :
    ((ofItems prior).close c).Closes prior c where
  step := length_ofItems prior
  opcode := opcode_ofItems prior
  cells := cells_ofItems prior
  before := rfl
  retired cycles h := by
    simp [Entry.after?, Entry.halted, Entry.error?, close, Ending.ofOutcome, h]
  halted cycles reason h := by
    simp [Entry.after?, Entry.halted, Entry.error?, close, Ending.ofOutcome, h]
  faulted cause h := by
    simp [Entry.after?, Entry.halted, Entry.error?, close, Ending.ofOutcome, h]

/-- Where a closing stands, its entry has its place behind those of the closings before it. -/
theorem getElem?_ofItems (prior later : List Item) (c : Closing) :
    (ofItems (prior ++ .closing c :: later)).entries.toList[prior.countP Item.isClosing]? =
      some ((ofItems prior).close c) := by
  have hprefix := prefix_ofItems (prior ++ [.closing c]) later
  rw [ofItems_concat, entries_tell_closing, List.append_assoc, List.singleton_append] at hprefix
  obtain ⟨rest, hrest⟩ := hprefix
  rw [← hrest, ← length_ofItems]
  simp

/-- By induction on the items from the right: the last of them either closes the last entry or
leaves the entries as they were. -/
theorem closedAt_of_getElem? (h : (ofItems items).entries.toList[k]? = some entry) :
    entry.ClosedAt items k := by
  induction items using List.reverseRecOn with
  | nil => simp [ofItems] at h
  | append_singleton items item ih =>
    rw [ofItems_concat] at h
    cases item with
    | event event =>
      rw [entries_tell_event] at h
      exact (ih h).concat
    | closing c =>
      rw [entries_tell_closing, List.getElem?_append] at h
      split at h
      case isTrue => exact (ih h).concat
      case isFalse hk =>
        have hlength := length_ofItems items
        obtain ⟨hlast, hentry⟩ := List.getElem?_eq_some_iff.1 h
        rw [List.length_singleton] at hlast
        refine ⟨items, c, [], rfl, by omega, ?_⟩
        rw [← hentry, List.getElem_singleton]
        exact closes_close items c

end Tracer

/-- What entries have to be for these items: one for each closing, in their order, each with what
the items before its closing have to say, and the same whatever is told later. -/
structure Attributed (items : List Item) (entries : List Entry) : Prop where
  length : entries.length = items.countP Item.isClosing
  closed : ∀ prior c later, items = prior ++ .closing c :: later →
    ∃ entry, entries[prior.countP Item.isClosing]? = some entry ∧ entry.Closes prior c
  closedAt : ∀ k (entry : Entry), entries[k]? = some entry → entry.ClosedAt items k
  settled : ∀ prior later, items = prior ++ later →
    (Tracer.ofItems prior).entries.toList <+: entries

/-- A tracer attributes what it is told to the right entries, in whatever order it is told. -/
theorem attributed_ofItems (items : List Item) :
    Attributed items (Tracer.ofItems items).entries.toList where
  length := Tracer.length_ofItems items
  closed := by
    rintro prior c later rfl
    exact ⟨_, Tracer.getElem?_ofItems prior later c, Tracer.closes_close prior c⟩
  closedAt k entry h := Tracer.closedAt_of_getElem? h
  settled := by
    rintro prior later rfl
    exact Tracer.prefix_ofItems prior later

/-- A start forgets the cell before it, and a second closing has no cells of the first. -/
example (c : Closing) :
    (Tracer.ofItems [.event (.touched 1 1 false), .event (.started 0 9), .event (.touched 2 2 true),
        .closing c, .event (.touched 3 3 false), .closing c]).entries.toList.map
      (fun entry => (entry.step, entry.opcode, entry.cells)) =
    [(0, 9, [{ address := 2, value := 2 }]), (1, 9, [{ address := 3, value := 3 }])] := rfl

end WordMachine.Trace
