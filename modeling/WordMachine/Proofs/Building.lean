import WordMachine.Cli.Command
import WordMachine.Proofs.Disks

/-! A build on files: it succeeds when the source can be read, assembles and can be written, and
when it fails no file has changed. -/
namespace WordMachine.Cli

variable {σ : Type} {s s' : σ} {input : String} {args : BuildArgs} {json : Bool} {code : Nat}
  {files : Files (StateM σ)} {d : Disk σ}

/-! ### How a build goes -/

namespace BuildArgs

/-- A report as JSON is written to a file only when one is named. -/
def Writes (args : BuildArgs) : Prop := args.json = false ∨ args.output? ≠ none

def outputPath (args : BuildArgs) : String := args.output?.getD (Path.defaultOutput args.input)

theorem target?_of_writes (h : args.Writes) : args.target? = some args.outputPath := by
  rw [target?, if_neg, outputPath]
  rcases h with h | h
  · simp [h]
  · simp [h]

theorem target?_of_not_writes (h : ¬ args.Writes) : args.target? = none := by
  rw [Writes, not_or, not_ne_iff] at h
  simp [target?, h.1, h.2]

end BuildArgs

theorem run_withAssembly (k : Source.Assembly → StateM σ Report) :
    (withAssembly files input json k).run s =
      match (files.readText input).run s with
      | (.error e, s₁) => (failure ("failed to read " ++ input ++ ": " ++ e), s₁)
      | (.ok text, s₁) =>
        match Source.assemble text with
        | .error e => (sourceFailure e text json, s₁)
        | .ok a => (k a).run s₁ := by
  simp only [withAssembly, StateT.run_bind]
  rcases (files.readText input).run s with ⟨_ | text, s₁⟩
  · rfl
  · change StateT.run
      (match Source.assemble text with
        | .error e => return sourceFailure e text json
        | .ok a => k a) s₁ =
      match Source.assemble text with
        | .error e => (sourceFailure e text json, s₁)
        | .ok a => (k a).run s₁
    cases Source.assemble text <;> rfl

theorem code_sourceFailure (e : Source.Error) (text : String) (json : Bool) :
    (sourceFailure e text json).code = 1 := by
  cases json <;> rfl

/-- The ways of a build through its steps, each with the exit status and the state it ends in. -/
inductive Goes (files : Files (StateM σ)) (args : BuildArgs) (s : σ) : Nat → σ → Prop
  | unread {e : String} {s₁ : σ} (hread : (files.readText args.input).run s = (.error e, s₁)) :
      Goes files args s 1 s₁
  | refused {text : String} {s₁ : σ} {e : Source.Error}
      (hread : (files.readText args.input).run s = (.ok text, s₁))
      (ha : Source.assemble text = .error e) : Goes files args s 1 s₁
  | reported {text : String} {s₁ : σ} {a : Source.Assembly}
      (hread : (files.readText args.input).run s = (.ok text, s₁))
      (ha : Source.assemble text = .ok a) (hwrites : ¬ args.Writes) : Goes files args s 0 s₁
  | unwritten {text e : String} {s₁ s₂ : σ} {a : Source.Assembly}
      (hread : (files.readText args.input).run s = (.ok text, s₁))
      (ha : Source.assemble text = .ok a) (hwrites : args.Writes)
      (hwrite : (files.writeBytes args.outputPath a.program.bytes).run s₁ = (.error e, s₂)) :
      Goes files args s 1 s₂
  | written {text : String} {s₁ s₂ : σ} {a : Source.Assembly}
      (hread : (files.readText args.input).run s = (.ok text, s₁))
      (ha : Source.assemble text = .ok a) (hwrites : args.Writes)
      (hwrite : (files.writeBytes args.outputPath a.program.bytes).run s₁ = (.ok (), s₂)) :
      Goes files args s 0 s₂

theorem goes_build (files : Files (StateM σ)) (args : BuildArgs) (s : σ) :
    Goes files args s ((build files args).run s).1.code ((build files args).run s).2 := by
  rw [build, run_withAssembly]
  rcases hread : (files.readText args.input).run s with ⟨e | text, s₁⟩
  · exact .unread hread
  simp only
  cases ha : Source.assemble text with
  | error e =>
    simp only [code_sourceFailure]
    exact .refused hread ha
  | ok a =>
    by_cases hwrites : args.Writes
    · simp only [BuildArgs.target?_of_writes hwrites, StateT.run_bind]
      rcases hwrite : (files.writeBytes args.outputPath a.program.bytes).run s₁ with ⟨e | _, s₂⟩
      · exact .unwritten hread ha hwrites hwrite
      · exact .written hread ha hwrites hwrite
    · simp only [BuildArgs.target?_of_not_writes hwrites]
      exact .reported hread ha hwrites

/-- The input can be read, its text assembles, and the output, if one is due, can be written. -/
def Succeeds (files : Files (StateM σ)) (args : BuildArgs) (s : σ) : Prop :=
  ∃ text s₁ a, (files.readText args.input).run s = (.ok text, s₁) ∧
    Source.assemble text = .ok a ∧
    (args.Writes → ∃ s₂, (files.writeBytes args.outputPath a.program.bytes).run s₁ = (.ok (), s₂))

/-- What the exit status of a build says about the files. -/
structure AllOrNothing (files : Files (StateM σ)) (d : Disk σ) (args : BuildArgs) (s : σ)
    (code : Nat) (s' : σ) : Prop where
  status : code = 0 ∨ code = 1
  succeeds_iff : code = 0 ↔ Succeeds files args s
  writes : code = 0 → args.Writes →
    ∃ text a, d.Holds s args.input text.toUTF8 ∧ Source.assemble text = .ok a ∧
      d.Stored s args.outputPath (ByteArray.mk a.program.bytes) s'
  reports : code = 0 → ¬ args.Writes → d.Same s s'
  fails : code = 1 → d.Same s s'

/-- Each step has one outcome, so what was read and assembled is what the build went on with. -/
theorem Goes.succeeds_iff (h : Goes files args s code s') :
    code = 0 ↔ Succeeds files args s := by
  constructor
  · rintro rfl
    cases h with
    | reported hread ha hwrites =>
      exact ⟨_, _, _, hread, ha, fun hdue => absurd hdue hwrites⟩
    | written hread ha _ hwrite => exact ⟨_, _, _, hread, ha, fun _ => ⟨_, hwrite⟩⟩
  · rintro ⟨text, s₁, a, hread, ha, hstep⟩
    cases h with
    | unread hread' => cases hread.symm.trans hread'
    | refused hread' ha' =>
      cases hread.symm.trans hread'
      cases ha.symm.trans ha'
    | unwritten hread' ha' hwrites hwrite' =>
      cases hread.symm.trans hread'
      cases ha.symm.trans ha'
      obtain ⟨s₂, hwrite⟩ := hstep hwrites
      cases hwrite.symm.trans hwrite'
    | reported => rfl
    | written => rfl

/-- For files that keep their word, a build stores the whole program or changes nothing. -/
theorem build_all_or_nothing (h : files.Sound d) (args : BuildArgs) (s : σ) :
    AllOrNothing files d args s ((build files args).run s).1.code
      ((build files args).run s).2 := by
  have hgoes := goes_build files args s
  generalize ((build files args).run s).1.code = code at hgoes ⊢
  generalize ((build files args).run s).2 = s' at hgoes ⊢
  have hiff := hgoes.succeeds_iff
  cases hgoes with
  | unread hread =>
    exact ⟨.inr rfl, hiff, nofun, nofun, fun _ => h.same_of_read _ _ _ _ hread⟩
  | refused hread ha =>
    exact ⟨.inr rfl, hiff, nofun, nofun, fun _ => h.same_of_read _ _ _ _ hread⟩
  | reported hread ha hwrites =>
    refine ⟨.inl rfl, hiff, fun _ hdue => absurd hdue hwrites, ?_, nofun⟩
    exact fun _ _ => h.same_of_read _ _ _ _ hread
  | unwritten hread ha hwrites hwrite =>
    refine ⟨.inr rfl, hiff, nofun, nofun, fun _ => ?_⟩
    exact (h.same_of_read _ _ _ _ hread).trans (h.same_of_write _ _ _ _ _ hwrite)
  | written hread ha hwrites hwrite =>
    refine ⟨.inl rfl, hiff, fun _ _ => ?_, fun _ hnot => absurd hwrites hnot, nofun⟩
    exact ⟨_, _, h.holds_of_read _ _ _ _ hread, ha, h.stored_of_read_of_write hread hwrite⟩

/-- The output is named beside the report as JSON, and an older file makes way for it. -/
theorem build_over_older_file :
    let t : FileTree := {
      nodes := [(["src"], .directory), (["src", "demo.asm"], .file "NOP\nBRK".toUTF8),
        (["demo.bin"], .file "old".toUTF8)]
      working := ["src"] }
    let args : BuildArgs :=
      { input := "demo.asm", output? := some "../demo.bin", verbose := true, json := true }
    let t' := ((build FileTree.access args).run t).2
    FileTree.access.Sound FileTree.disk ∧
      AllOrNothing FileTree.access FileTree.disk args t 0 t' ∧
      (t'.read "../demo.bin").map (·.data) = .ok #[0xEA, 0x00] := by
  intro t args t'
  have hcode : ((build FileTree.access args).run t).1.code = 0 := by decide +kernel
  have h := build_all_or_nothing FileTree.sound_access args t
  rw [hcode] at h
  refine ⟨FileTree.sound_access, h, ?_⟩
  decide +kernel

end WordMachine.Cli
