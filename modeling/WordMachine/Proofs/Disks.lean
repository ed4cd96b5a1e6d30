import WordMachine.Proofs.FileTrees

/-! Files as they are seen from outside, what access to them has to guarantee, and that access to a
tree of files guarantees it. -/
namespace WordMachine.Cli

variable {σ : Type} {s s' s₁ : σ} {path : String} {bytes : ByteArray}

/-- The files that paths lead to in a state, and what they hold. A path may lead to a file that is
not there yet. -/
structure Disk (σ : Type) where
  File : Type
  file? : σ → String → Option File
  content? : σ → File → Option ByteArray

namespace Disk

variable {d : Disk σ}

structure Same (d : Disk σ) (s s' : σ) : Prop where
  file? : ∀ path, d.file? s' path = d.file? s path
  content? : ∀ f, d.content? s' f = d.content? s f

def Holds (d : Disk σ) (s : σ) (path : String) (bytes : ByteArray) : Prop :=
  ∃ f, d.file? s path = some f ∧ d.content? s f = some bytes

/-- The file that the path leads to, before and after, holds the bytes in `s'`, and every other file
is as it is in `s`. -/
def Stored (d : Disk σ) (s : σ) (path : String) (bytes : ByteArray) (s' : σ) : Prop :=
  ∃ f, d.file? s path = some f ∧ d.file? s' path = some f ∧ d.content? s' f = some bytes ∧
    ∀ g, g ≠ f → d.content? s' g = d.content? s g

theorem Same.refl (d : Disk σ) (s : σ) : d.Same s s := ⟨fun _ => rfl, fun _ => rfl⟩

theorem Same.trans (h : d.Same s s₁) (h' : d.Same s₁ s') : d.Same s s' :=
  ⟨fun path => (h'.file? path).trans (h.file? path),
    fun f => (h'.content? f).trans (h.content? f)⟩

theorem Same.stored (h : d.Same s s₁) (h' : d.Stored s₁ path bytes s') :
    d.Stored s path bytes s' := by
  obtain ⟨f, hbefore, hafter, hcontent, hothers⟩ := h'
  refine ⟨f, (h.file? path).symm.trans hbefore, hafter, hcontent, fun g hg => ?_⟩
  exact (hothers g hg).trans (h.content? g)

end Disk

/-- A read changes nothing and returns the text of a file, and a write stores all of its bytes or
changes nothing. -/
structure Files.Sound (files : Files (StateM σ)) (d : Disk σ) : Prop where
  same_of_read : ∀ path s r s', (files.readText path).run s = (r, s') → d.Same s s'
  holds_of_read : ∀ path s text s', (files.readText path).run s = (.ok text, s') →
    d.Holds s path text.toUTF8
  stored_of_write : ∀ path bytes s s', (files.writeBytes path bytes).run s = (.ok (), s') →
    d.Stored s path (ByteArray.mk bytes) s'
  same_of_write : ∀ path bytes s e s', (files.writeBytes path bytes).run s = (.error e, s') →
    d.Same s s'

namespace Files

variable {files : Files (StateM σ)} {d : Disk σ}

theorem Sound.stored_of_read_of_write {input : String} {r : Except String String}
    {bytes : Array UInt8} (h : files.Sound d) (hread : (files.readText input).run s = (r, s₁))
    (hwrite : (files.writeBytes path bytes).run s₁ = (.ok (), s')) :
    d.Stored s path (ByteArray.mk bytes) s' :=
  (h.same_of_read _ _ _ _ hread).stored (h.stored_of_write _ _ _ _ hwrite)

end Files

namespace FileTree

variable {t t' : FileTree} {text e : String} {content : ByteArray} {place other : List String}

/-- The files of a tree are known by their places. -/
def disk : Disk FileTree where
  File := List String
  file? t path := (t.target path).toOption
  content? t place :=
    match t.find? place with
    | some (.file content) => some content
    | some .directory | none => none

theorem readText_of_run_ok (h : (access.readText path).run t = (.ok text, t')) :
    t.readText path = .ok text ∧ t' = t := by
  have hrun : (access.readText path).run t =
      ((t.readText path).mapError FileError.message, t) := rfl
  rw [hrun] at h
  cases htext : t.readText path with
  | error e =>
    rw [htext] at h
    cases h
  | ok text' =>
    rw [htext] at h
    cases h
    exact ⟨rfl, rfl⟩

theorem readText_of_run_error (h : (access.readText path).run t = (.error e, t')) :
    (∀ text, t.readText path ≠ .ok text) ∧ t' = t := by
  have hrun : (access.readText path).run t =
      ((t.readText path).mapError FileError.message, t) := rfl
  rw [hrun] at h
  cases htext : t.readText path with
  | error e' =>
    rw [htext] at h
    cases h
    exact ⟨nofun, rfl⟩
  | ok text =>
    rw [htext] at h
    cases h

theorem run_writeBytes (t : FileTree) (path : String) (bytes : Array UInt8) :
    (access.writeBytes path bytes).run t =
      match t.target path with
      | .error e => (.error e.message, t)
      | .ok place => (.ok (), t.put place (.file (ByteArray.mk bytes))) := by
  simp only [access, write, StateT.run_bind, StateT.run_get, pure_bind]
  cases t.target path <;> rfl

theorem target_of_run_ok {bytes : Array UInt8}
    (h : (access.writeBytes path bytes).run t = (.ok (), t')) :
    ∃ place, t.target path = .ok place ∧ t' = t.put place (.file (ByteArray.mk bytes)) := by
  rw [run_writeBytes] at h
  cases htarget : t.target path with
  | error e =>
    rw [htarget] at h
    cases h
  | ok place =>
    rw [htarget] at h
    cases h
    exact ⟨place, rfl, rfl⟩

theorem target_of_run_error {bytes : Array UInt8}
    (h : (access.writeBytes path bytes).run t = (.error e, t')) :
    (∀ place, t.target path ≠ .ok place) ∧ t' = t := by
  rw [run_writeBytes] at h
  cases htarget : t.target path with
  | error e' =>
    rw [htarget] at h
    cases h
    exact ⟨nofun, rfl⟩
  | ok place =>
    rw [htarget] at h
    cases h

theorem file?_disk_eq_some_iff :
    disk.file? t path = some place ↔ t.target path = .ok place := by
  cases h : t.target path <;> simp [disk, h, Except.toOption]

theorem content?_disk_eq_some_iff :
    disk.content? t place = some content ↔ t.find? place = some (.file content) := by
  rcases h : t.find? place with _ | _ | content' <;> simp [disk, h]

theorem holds_disk_iff : disk.Holds t path content ↔ t.read path = .ok content := by
  rw [read_eq_ok_iff]
  exact exists_congr fun place : List String =>
    and_congr file?_disk_eq_some_iff content?_disk_eq_some_iff

theorem content?_put_of_ne (h : other ≠ place) :
    disk.content? (t.put place (.file content)) other = disk.content? t other := by
  simp only [disk, find?_put_of_ne h]

theorem stored_put (h : t.target path = .ok place) :
    disk.Stored t path content (t.put place (.file content)) := by
  obtain ⟨hne, hfind⟩ := find?_of_target h
  exact ⟨place, file?_disk_eq_some_iff.2 h, file?_disk_eq_some_iff.2 (target_put hfind h),
    content?_disk_eq_some_iff.2 (find?_put_self hne), fun other => content?_put_of_ne⟩

theorem sound_access : access.Sound disk where
  same_of_read path t r t' h := by
    cases r with
    | error e =>
      obtain ⟨-, rfl⟩ := readText_of_run_error h
      exact .refl disk _
    | ok text =>
      obtain ⟨-, rfl⟩ := readText_of_run_ok h
      exact .refl disk _
  holds_of_read path t text t' h := by
    obtain ⟨htext, -⟩ := readText_of_run_ok h
    exact holds_disk_iff.2 (readText_eq_ok_iff.1 htext)
  stored_of_write path bytes t t' h := by
    obtain ⟨place, htarget, rfl⟩ := target_of_run_ok h
    exact stored_put htarget
  same_of_write path bytes t e t' h := by
    obtain ⟨-, rfl⟩ := target_of_run_error h
    exact .refl disk _

end FileTree

end WordMachine.Cli
