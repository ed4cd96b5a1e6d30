import WordMachine.Cli.Arguments
import WordMachine.Proofs.FirstFault
import WordMachine.Proofs.Numerals
import WordMachine.Proofs.Spacing

/-! The arguments of a run: which lists of arguments are accepted, what they ask for, and that only
the order among settings of one kind matters. -/
namespace WordMachine.Cli

open Source (mapM_eq_ok_iff map_eq_ok_iff)

/-! ### Values -/

/-- Decimal digits that fit 64 bits, with or without a plus sign in front. -/
def IsCount (text : String) (n : Nat) : Prop :=
  ∃ digits, (text.toList = digits ∨ text.toList = '+' :: digits) ∧ Digits.Writes 10 digits n ∧
    n ≤ 2 ^ 64 - 1

/-- The text joins items with commas, and each of them is a literal with blanks around it. -/
def ListsInputs (text : String) (values : List UInt16) : Prop :=
  ∃ items : List (List Char), items ≠ [] ∧ (∀ item ∈ items, ',' ∉ item) ∧
    text.toList = [','].intercalate items ∧
    List.Forall₂ (fun item value => ∃ core, Text.Trimmed item core ∧
      Source.Numeral.parse? core = some value) items values

section Values

variable {text option : String} {cs item : List Char} {value : UInt16} {values : List UInt16}
  {n : Nat} {c : Char}

theorem inputValue_eq_ok_iff :
    inputValue cs = .ok value ↔ Source.Numeral.parse? cs = some value := by
  cases h : Source.Numeral.parse? cs <;> simp [inputValue, h]

theorem not_mem_of_mem_splitOn (h : item ∈ cs.splitOn c) : c ∉ item := by
  induction cs generalizing item with
  | nil => simp_all
  | cons d cs ih =>
    rw [List.splitOn_cons_eq_if_modifyHead] at h
    split at h
    next =>
      rcases List.mem_cons.1 h with rfl | h
      · exact List.not_mem_nil
      · exact ih h
    next hne =>
      cases hitems : cs.splitOn c with
      | nil => exact absurd hitems (List.splitOn_ne_nil c cs)
      | cons first items =>
        rw [hitems] at ih h
        rcases List.mem_cons.1 h with rfl | h
        · have hfirst := ih List.mem_cons_self
          rw [List.mem_cons, not_or]
          exact ⟨fun heq => hne (by rw [heq, beq_self_eq_true]), hfirst⟩
        · exact ih (List.mem_cons_of_mem first h)

theorem inputValues_eq_ok_iff : inputValues text = .ok values ↔ ListsInputs text values := by
  simp only [inputValues, mapM_eq_ok_iff, inputValue_eq_ok_iff]
  constructor
  · intro h
    refine ⟨text.toList.splitOn ',', List.splitOn_ne_nil _ _, fun item => not_mem_of_mem_splitOn,
      (List.intercalate_splitOn ',').symm, h.imp fun item value hvalue => ?_⟩
    exact ⟨_, Text.trimmed_trim item, hvalue⟩
  · rintro ⟨items, hne, hcomma, htext, hvalues⟩
    rw [htext, List.splitOn_intercalate ',' hcomma hne]
    refine hvalues.imp fun item value hvalue => ?_
    obtain ⟨core, hcore, hvalue⟩ := hvalue
    rwa [Text.trim_of_trimmed hcore]

theorem plus_not_mem (h : Digits.Writes 10 cs n) : '+' ∉ cs := by
  intro hplus
  obtain ⟨d, hd, -⟩ := h.isDigit hplus
  simp [Digits.isDigit_iff] at hd

/-- The digits are what is left without a plus sign, and they do not begin with one. -/
theorem count?_eq_some_iff :
    count? cs = some n ↔
      ∃ digits, (cs = digits ∨ cs = '+' :: digits) ∧ Digits.Writes 10 digits n ∧
        n ≤ 2 ^ 64 - 1 := by
  have hfits : n < UInt64.size ↔ n ≤ 2 ^ 64 - 1 := by
    rw [UInt64.size]
    omega
  unfold count?
  rw [Option.filter_eq_some_iff, decide_eq_true_eq, hfits, Digits.value?_eq_some_iff]
  constructor
  · rintro ⟨hdigits, hle⟩
    split at hdigits
    · exact ⟨_, .inr rfl, hdigits, hle⟩
    · exact ⟨_, .inl rfl, hdigits, hle⟩
  · rintro ⟨digits, rfl | rfl, hdigits, hle⟩
    · refine ⟨?_, hle⟩
      split
      next => exact absurd List.mem_cons_self (plus_not_mem hdigits)
      next => exact hdigits
    · exact ⟨hdigits, hle⟩

theorem countValue_eq_ok_iff : countValue option text = .ok n ↔ IsCount text n := by
  rw [IsCount, ← count?_eq_some_iff]
  cases h : count? text.toList <;> simp [countValue, h]

end Values

/-! ### Groups -/

/-- A group of arguments, by what it asks for. The options `--input` and `--inputs` ask for the
same. -/
inductive RunGroup
  | json
  | inputs (values : List UInt16)
  | maxSteps (n : Nat)
  | memoryWords (n : Nat)
  | path (name : String)
  deriving DecidableEq

namespace RunGroup

/-- The arguments that make up a group. An option takes the argument after it for its value, and
only a name that does not begin like an option is a path. -/
inductive Spells : List String → RunGroup → Prop
  | json : Spells ["--json"] .json
  | input {text : String} {value : UInt16}
      (h : Source.Numeral.parse? text.toList = some value) :
      Spells ["--input", text] (.inputs [value])
  | inputs {text : String} {values : List UInt16} (h : ListsInputs text values) :
      Spells ["--inputs", text] (.inputs values)
  | maxSteps {text : String} {n : Nat} (h : IsCount text n) :
      Spells ["--max-steps", text] (.maxSteps n)
  | memoryWords {text : String} {n : Nat} (h : IsCount text n) :
      Spells ["--memory-words", text] (.memoryWords n)
  | path {name : String} (h : name.toList.head? ≠ some '-') : Spells [name] (.path name)

/-- The arguments are those of the groups, from left to right. -/
inductive Splits : List String → List RunGroup → Prop
  | nil : Splits [] []
  | cons {piece rest : List String} {g : RunGroup} {gs : List RunGroup} (hpiece : Spells piece g)
      (hrest : Splits rest gs) : Splits (piece ++ rest) (g :: gs)

def path? : RunGroup → Option String
  | path name => some name
  | _ => none

def inputs? : RunGroup → Option (List UInt16)
  | inputs values => some values
  | _ => none

def maxSteps? : RunGroup → Option Nat
  | maxSteps n => some n
  | _ => none

def memoryWords? : RunGroup → Option Nat
  | memoryWords n => some n
  | _ => none

/-- The last step bound that is given, or the default. -/
def lastMaxSteps (gs : List RunGroup) : Nat := (gs.filterMap maxSteps?).getLastD 1000

/-- The last memory size that is given, or the default. -/
def lastMemoryWords (gs : List RunGroup) : Nat := (gs.filterMap memoryWords?).getLastD 256

/-- What a group settles. -/
inductive Setting
  | json | inputs | maxSteps | memoryWords | path
  deriving DecidableEq

def setting : RunGroup → Setting
  | json => .json
  | inputs _ => .inputs
  | maxSteps _ => .maxSteps
  | memoryWords _ => .memoryWords
  | path _ => .path

/-- The groups that settle the same come in the same order, and nothing is said of others. -/
def Rearranged (gs gs' : List RunGroup) : Prop :=
  ∀ s : Setting, gs.filter (·.setting = s) = gs'.filter (·.setting = s)

/-- There is one path, and the memory size is one that a memory can have. -/
structure Runnable (gs : List RunGroup) : Prop where
  path : ∃ name, gs.filterMap path? = [name]
  memoryWords_pos : 1 ≤ lastMemoryWords gs
  memoryWords_le : lastMemoryWords gs ≤ 65536

/-- What the groups ask for: inputs add up, and of a limit the last value counts. -/
structure Means (gs : List RunGroup) (r : RunArgs) : Prop where
  input : gs.filterMap path? = [r.input]
  inputs : r.inputs = (gs.filterMap inputs?).flatten
  maxSteps : r.config.maxSteps = lastMaxSteps gs
  memoryWords : r.config.memoryWords = lastMemoryWords gs
  json : r.json = true ↔ .json ∈ gs

end RunGroup

open RunGroup

variable {o o' : RunOptions} {args args' piece rest : List String} {g : RunGroup}
  {gs gs' : List RunGroup} {option : RunOption} {arg value : String}

/-! ### Reading groups -/

/-- What a group changes. A second path is refused. -/
def RunOptions.take (o : RunOptions) : RunGroup → Except UsageError RunOptions
  | .json => .ok { o with json := true }
  | .inputs values => .ok { o with inputs := o.inputs ++ values }
  | .maxSteps n => .ok { o with maxSteps := n }
  | .memoryWords n => .ok { o with memoryWords := n }
  | .path name =>
    if o.input?.isSome then .error .multipleInputs else .ok { o with input? := some name }

/-- An option and its value make up a group, and reading them does what the group asks for. -/
theorem parse_of_set (h : option.set value o = o.take g) :
    o.parse ([option.name, value] ++ rest) = o.take g >>= (·.parse rest) := by
  have hhelp : isHelp option.name = false := by cases option <;> decide
  have hjson : (option.name == "--json") = false := by cases option <;> decide
  have hname : RunOption.ofName? option.name = some option := by cases option <;> decide
  simp only [List.cons_append, List.nil_append, RunOptions.parse, hhelp, hjson, hname, h]
  cases o.take g <;> rfl

theorem ne_of_head? {s : String} (h : arg.toList.head? ≠ some '-')
    (hs : s.toList.head? = some '-') : arg ≠ s := by
  rintro rfl
  exact h hs

theorem ofName?_eq_none (h : arg.toList.head? ≠ some '-') : RunOption.ofName? arg = none := by
  have hname : ∀ option : RunOption, option.name.toList.head? = some '-' := by
    intro option
    cases option <;> rfl
  rw [RunOption.ofName?, List.find?_eq_none]
  intro option _ hbeq
  exact ne_of_head? h (hname option) (eq_of_beq hbeq).symm

theorem parse_of_path (h : arg.toList.head? ≠ some '-') :
    o.parse (arg :: rest) = o.take (.path arg) >>= (·.parse rest) := by
  have hhelp : isHelp arg = false := by
    rw [isHelp, beq_false_of_ne (ne_of_head? h rfl), beq_false_of_ne (ne_of_head? h rfl),
      Bool.or_false]
  have hjson : (arg == "--json") = false := beq_false_of_ne (ne_of_head? h rfl)
  simp only [RunOptions.parse, hhelp, hjson, ofName?_eq_none h, setInput, if_neg h, RunOptions.take]
  cases o.input? <;> rfl

theorem parse_of_spells (h : Spells piece g) :
    o.parse (piece ++ rest) = o.take g >>= (·.parse rest) := by
  cases h with
  | json => rfl
  | @input text value h =>
    have hset : RunOption.input.set text o = o.take (.inputs [value]) := by
      rw [RunOption.set, inputValue_eq_ok_iff.2 h]
      rfl
    exact parse_of_set hset
  | @inputs text values h =>
    have hset : RunOption.inputs.set text o = o.take (.inputs values) := by
      rw [RunOption.set, inputValues_eq_ok_iff.2 h]
      rfl
    exact parse_of_set hset
  | @maxSteps text n h =>
    have hset : RunOption.maxSteps.set text o = o.take (.maxSteps n) := by
      rw [RunOption.set, countValue_eq_ok_iff.2 h]
      rfl
    exact parse_of_set hset
  | @memoryWords text n h =>
    have hset : RunOption.memoryWords.set text o = o.take (.memoryWords n) := by
      rw [RunOption.set, countValue_eq_ok_iff.2 h]
      rfl
    exact parse_of_set hset
  | path h => exact parse_of_path h

theorem parse_of_splits (h : Splits args gs) : o.parse args = gs.foldlM RunOptions.take o := by
  induction h generalizing o with
  | nil => rfl
  | cons hpiece _ ih =>
    rw [parse_of_spells hpiece, List.foldlM_cons]
    exact congrArg _ (funext fun o => ih)

theorem exists_spells_of_set (h : option.set value o = .ok o') :
    ∃ g, Spells [option.name, value] g := by
  cases option with
  | input =>
    obtain ⟨v, hv, -⟩ := map_eq_ok_iff.1 h
    exact ⟨_, .input (inputValue_eq_ok_iff.1 hv)⟩
  | inputs =>
    obtain ⟨values, hvalues, -⟩ := map_eq_ok_iff.1 h
    exact ⟨_, .inputs (inputValues_eq_ok_iff.1 hvalues)⟩
  | maxSteps =>
    obtain ⟨n, hn, -⟩ := map_eq_ok_iff.1 h
    exact ⟨_, .maxSteps (countValue_eq_ok_iff.1 hn)⟩
  | memoryWords =>
    obtain ⟨n, hn, -⟩ := map_eq_ok_iff.1 h
    exact ⟨_, .memoryWords (countValue_eq_ok_iff.1 hn)⟩

theorem name_of_ofName? (h : RunOption.ofName? arg = some option) : option.name = arg := by
  rw [RunOption.ofName?, List.find?_eq_some_iff_append] at h
  exact eq_of_beq h.1

theorem head?_of_setInput {input? : Option String} {input : String}
    (h : setInput input? arg = .ok input) : arg.toList.head? ≠ some '-' := by
  intro hdash
  rw [setInput, if_pos hdash] at h
  cases h

/-- By induction along the arguments: what is read next is a group, or reading stops with an
error. -/
theorem exists_splits_of_parse (h : o.parse args = .ok o') : ∃ gs, Splits args gs := by
  fun_induction RunOptions.parse o args with
  | case1 => exact ⟨[], .nil⟩
  | case2 => cases h
  | case3 o arg rest _ hjson ih =>
    obtain ⟨gs, hgs⟩ := ih h
    obtain rfl := eq_of_beq hjson
    exact ⟨_, .cons .json hgs⟩
  | case4 => cases h
  | case5 => cases h
  | case6 o arg _ _ option hname value rest o' hset ih =>
    obtain ⟨gs, hgs⟩ := ih h
    obtain ⟨g, hg⟩ := exists_spells_of_set hset
    rw [← name_of_ofName? hname]
    exact ⟨_, .cons hg hgs⟩
  | case7 => cases h
  | case8 o arg rest _ _ _ input hinput ih =>
    obtain ⟨gs, hgs⟩ := ih h
    exact ⟨_, .cons (.path (head?_of_setInput hinput)) hgs⟩

/-! ### What the groups settle -/

/-- The options once all groups are read, the path apart. -/
def RunOptions.after (o : RunOptions) (gs : List RunGroup) (input? : Option String) :
    RunOptions where
  input?
  inputs := o.inputs ++ (gs.filterMap inputs?).flatten
  maxSteps := (gs.filterMap maxSteps?).getLastD o.maxSteps
  memoryWords := (gs.filterMap memoryWords?).getLastD o.memoryWords
  json := o.json || decide (.json ∈ gs)

/-- By induction on the groups. A second path is refused wherever it stands, and the other groups
are never refused. -/
theorem foldlM_take :
    gs.foldlM RunOptions.take o =
      if (o.input?.toList ++ gs.filterMap path?).length ≤ 1 then
        .ok (o.after gs (o.input?.toList ++ gs.filterMap path?).head?)
      else .error .multipleInputs := by
  induction gs generalizing o with
  | nil =>
    obtain ⟨input?, inputs, maxSteps, memoryWords, json⟩ := o
    cases input? <;> simp [RunOptions.after, pure, Except.pure]
  | cons g gs ih =>
    have hnext : ∀ o₁, o.take g = .ok o₁ → (g :: gs).foldlM RunOptions.take o =
        gs.foldlM RunOptions.take o₁ := by
      intro o₁ ho₁
      rw [List.foldlM_cons, ho₁]
      rfl
    simp only [RunOptions.after, List.filterMap_cons, List.mem_cons] at ih ⊢
    cases g with
    | json =>
      rw [hnext _ rfl, ih]
      simp only [path?, inputs?, maxSteps?, memoryWords?, true_or, decide_true, Bool.true_or,
        Bool.or_true]
    | inputs values =>
      rw [hnext _ rfl, ih]
      simp only [path?, inputs?, maxSteps?, memoryWords?, reduceCtorEq, false_or,
        List.flatten_cons, List.append_assoc]
    | maxSteps n =>
      rw [hnext _ rfl, ih]
      simp only [path?, inputs?, maxSteps?, memoryWords?, reduceCtorEq, false_or,
        List.getLastD_cons]
    | memoryWords n =>
      rw [hnext _ rfl, ih]
      simp only [path?, inputs?, maxSteps?, memoryWords?, reduceCtorEq, false_or,
        List.getLastD_cons]
    | path name =>
      cases hinput : o.input? with
      | none =>
        have htake : o.take (.path name) = .ok { o with input? := some name } := by
          rw [RunOptions.take, hinput]
          rfl
        rw [hnext _ htake, ih]
        simp [path?, inputs?, maxSteps?, memoryWords?]
      | some first =>
        have htake : o.take (.path name) = .error .multipleInputs := by
          rw [RunOptions.take, hinput]
          rfl
        rw [List.foldlM_cons, htake]
        simp [path?, bind, Except.bind]

/-- What the arguments of a run come to when they are made up of these groups. -/
def RunArgs.ofGroups (gs : List RunGroup) : Except UsageError RunArgs :=
  match gs.filterMap path? with
  | [] => .error .missingInput
  | [input] =>
    match Config.ofLimits (lastMaxSteps gs) (lastMemoryWords gs) with
    | .error e => .error (.config e)
    | .ok config =>
      .ok { input, inputs := (gs.filterMap inputs?).flatten, config, json := decide (.json ∈ gs) }
  | _ => .error .multipleInputs

theorem parse_eq_ofGroups (h : Splits args gs) : RunArgs.parse args = RunArgs.ofGroups gs := by
  have hoptions : RunOptions.parse {} args = _ := (parse_of_splits h).trans foldlM_take
  rw [RunArgs.parse, hoptions, RunArgs.ofGroups]
  simp only [Option.toList_none, List.nil_append]
  cases gs.filterMap path? with
  | nil => rfl
  | cons input names =>
    cases names with
    | nil => rfl
    | cons => simp [bind, Except.bind]

theorem exists_ofLimits_iff {maxSteps memoryWords : Nat} :
    (∃ config, Config.ofLimits maxSteps memoryWords = .ok config) ↔
      1 ≤ memoryWords ∧ memoryWords ≤ 65536 := by
  unfold Config.ofLimits
  split
  next h =>
    constructor
    · exact fun _ => h
    · exact fun _ => ⟨_, rfl⟩
  next h =>
    constructor
    · rintro ⟨config, ⟨⟩⟩
    · exact fun hwords => absurd hwords h

theorem fields_of_ofLimits {maxSteps memoryWords : Nat} {config : Config}
    (h : Config.ofLimits maxSteps memoryWords = .ok config) :
    config.maxSteps = maxSteps ∧ config.memoryWords = memoryWords := by
  unfold Config.ofLimits at h
  split at h
  · cases h
    exact ⟨rfl, rfl⟩
  · cases h

theorem ofGroups_of_ofLimits {config : Config} {input : String}
    (hpath : gs.filterMap path? = [input])
    (hconfig : Config.ofLimits (lastMaxSteps gs) (lastMemoryWords gs) = .ok config) :
    RunArgs.ofGroups gs = .ok
      { input, inputs := (gs.filterMap inputs?).flatten, config, json := decide (.json ∈ gs) } := by
  simp only [RunArgs.ofGroups, hpath, hconfig]

theorem exists_of_ofGroups {r : RunArgs} (h : RunArgs.ofGroups gs = .ok r) :
    ∃ input config, gs.filterMap path? = [input] ∧
      Config.ofLimits (lastMaxSteps gs) (lastMemoryWords gs) = .ok config := by
  rw [RunArgs.ofGroups] at h
  split at h
  next => cases h
  next input hpath =>
    split at h
    next => cases h
    next config hconfig => exact ⟨input, config, hpath, hconfig⟩
  next => cases h

theorem exists_ofGroups_iff : (∃ r, RunArgs.ofGroups gs = .ok r) ↔ Runnable gs := by
  constructor
  · rintro ⟨r, hr⟩
    obtain ⟨input, config, hpath, hconfig⟩ := exists_of_ofGroups hr
    obtain ⟨hpos, hle⟩ := exists_ofLimits_iff.1 ⟨config, hconfig⟩
    exact ⟨⟨input, hpath⟩, hpos, hle⟩
  · rintro ⟨⟨input, hpath⟩, hpos, hle⟩
    obtain ⟨config, hconfig⟩ := exists_ofLimits_iff.2 ⟨hpos, hle⟩
    exact ⟨_, ofGroups_of_ofLimits hpath hconfig⟩

theorem means_of_ofGroups {r : RunArgs} (h : RunArgs.ofGroups gs = .ok r) : Means gs r := by
  obtain ⟨input, config, hpath, hconfig⟩ := exists_of_ofGroups h
  obtain ⟨hsteps, hwords⟩ := fields_of_ofLimits hconfig
  rw [ofGroups_of_ofLimits hpath hconfig] at h
  cases h
  exact ⟨hpath, rfl, hsteps, hwords, decide_eq_true_iff⟩

/-! ### Moving groups -/

namespace RunGroup

/-- What groups settle of one thing is found among those that settle it. -/
theorem filterMap_of_setting {α : Type} {f : RunGroup → Option α} {s : Setting}
    (hf : ∀ g, g.setting ≠ s → f g = none) (gs : List RunGroup) :
    (gs.filter (·.setting = s)).filterMap f = gs.filterMap f := by
  rw [List.filterMap_filter]
  refine List.filterMap_congr fun g _ => ?_
  by_cases hg : g.setting = s
  · simp [hg]
  · simp [hg, hf g hg]

theorem Rearranged.filterMap_eq {α : Type} {f : RunGroup → Option α} {s : Setting}
    (h : Rearranged gs gs') (hf : ∀ g, g.setting ≠ s → f g = none) :
    gs.filterMap f = gs'.filterMap f := by
  rw [← filterMap_of_setting hf, h s, filterMap_of_setting hf]

theorem Rearranged.json_mem_iff (h : Rearranged gs gs') : .json ∈ gs ↔ .json ∈ gs' := by
  have hfilter : ∀ gs : List RunGroup, .json ∈ gs ↔ .json ∈ gs.filter (·.setting = .json) := by
    intro gs
    simp [List.mem_filter, setting]
  rw [hfilter, h .json, ← hfilter]

theorem Rearranged.ofGroups_eq (h : Rearranged gs gs') :
    RunArgs.ofGroups gs = RunArgs.ofGroups gs' := by
  have hpath : gs.filterMap path? = gs'.filterMap path? :=
    h.filterMap_eq (s := .path) (by rintro ⟨⟩ <;> simp [setting, path?])
  have hinputs : gs.filterMap inputs? = gs'.filterMap inputs? :=
    h.filterMap_eq (s := .inputs) (by rintro ⟨⟩ <;> simp [setting, inputs?])
  have hsteps : gs.filterMap maxSteps? = gs'.filterMap maxSteps? :=
    h.filterMap_eq (s := .maxSteps) (by rintro ⟨⟩ <;> simp [setting, maxSteps?])
  have hwords : gs.filterMap memoryWords? = gs'.filterMap memoryWords? :=
    h.filterMap_eq (s := .memoryWords) (by rintro ⟨⟩ <;> simp [setting, memoryWords?])
  simp only [RunArgs.ofGroups, lastMaxSteps, lastMemoryWords, hpath, hinputs, hsteps, hwords,
    h.json_mem_iff]

end RunGroup

theorem exists_parse_of_run {r : RunArgs} (h : RunArgs.parse args = .ok r) :
    ∃ o, RunOptions.parse {} args = .ok o := by
  cases ho : RunOptions.parse {} args with
  | ok o => exact ⟨o, rfl⟩
  | error e => simp [RunArgs.parse, ho, bind, Except.bind] at h

/-- The arguments of a run are accepted when they split into groups that make up a run, and the run
is the one that the groups ask for. A group may change places with groups that settle something
else. -/
theorem parse_run_iff (args : List String) :
    ((∃ r, RunArgs.parse args = .ok r) ↔ ∃ gs, Splits args gs ∧ Runnable gs) ∧
      (∀ gs r, Splits args gs → RunArgs.parse args = .ok r → Means gs r) ∧
      ∀ gs gs' args', Splits args gs → Splits args' gs' → Rearranged gs gs' →
        RunArgs.parse args = RunArgs.parse args' := by
  refine ⟨⟨?_, ?_⟩, ?_, ?_⟩
  · rintro ⟨r, hr⟩
    obtain ⟨o, ho⟩ := exists_parse_of_run hr
    obtain ⟨gs, hgs⟩ := exists_splits_of_parse ho
    rw [parse_eq_ofGroups hgs] at hr
    exact ⟨gs, hgs, exists_ofGroups_iff.1 ⟨r, hr⟩⟩
  · rintro ⟨gs, hgs, hrun⟩
    obtain ⟨r, hr⟩ := exists_ofGroups_iff.2 hrun
    exact ⟨r, (parse_eq_ofGroups hgs).trans hr⟩
  · intro gs r hgs hr
    rw [parse_eq_ofGroups hgs] at hr
    exact means_of_ofGroups hr
  · intro gs gs' args' hgs hgs' hsame
    rw [parse_eq_ofGroups hgs, parse_eq_ofGroups hgs', hsame.ofGroups_eq]

/-- The path and the limits change places with the inputs, which stay in order. -/
theorem parse_run_of_echo :
    Splits ["echo.asm", "--input", "7", "--inputs", "1, $10,%11", "--json", "--max-steps", "+20"]
        [.path "echo.asm", .inputs [7], .inputs [1, 16, 3], .json, .maxSteps 20] ∧
      Splits ["--max-steps", "+20", "--input", "7", "--json", "--inputs", "1, $10,%11", "echo.asm"]
        [.maxSteps 20, .inputs [7], .json, .inputs [1, 16, 3], .path "echo.asm"] ∧
      Rearranged [.path "echo.asm", .inputs [7], .inputs [1, 16, 3], .json, .maxSteps 20]
        [.maxSteps 20, .inputs [7], .json, .inputs [1, 16, 3], .path "echo.asm"] ∧
      RunArgs.parse
          ["echo.asm", "--input", "7", "--inputs", "1, $10,%11", "--json", "--max-steps", "+20"] =
        RunArgs.parse
          ["--max-steps", "+20", "--input", "7", "--json", "--inputs", "1, $10,%11",
            "echo.asm"] := by
  have hpath : Spells ["echo.asm"] (.path "echo.asm") := .path (by decide)
  have hinput : Spells ["--input", "7"] (.inputs [7]) := .input (by decide)
  have hinputs : Spells ["--inputs", "1, $10,%11"] (.inputs [1, 16, 3]) :=
    .inputs (inputValues_eq_ok_iff.1 (by decide +kernel))
  have hsteps : Spells ["--max-steps", "+20"] (.maxSteps 20) :=
    .maxSteps (count?_eq_some_iff.1 (by decide))
  have h := Splits.nil |>.cons hsteps |>.cons .json |>.cons hinputs |>.cons hinput |>.cons hpath
  have h' := Splits.nil |>.cons hpath |>.cons hinputs |>.cons .json |>.cons hinput |>.cons hsteps
  have hsame : Rearranged [.path "echo.asm", .inputs [7], .inputs [1, 16, 3], .json, .maxSteps 20]
      [.maxSteps 20, .inputs [7], .json, .inputs [1, 16, 3], .path "echo.asm"] := by
    intro s
    cases s <;> rfl
  exact ⟨h, h', hsame, (parse_run_iff _).2.2 _ _ _ h h' hsame⟩

end WordMachine.Cli
