import LispEngines.Host.Folder
import LispEngines.Proofs.Settings.Layering
import LispEngines.Settings.Load

/-!
# Texts from variables

What a variable does to a setting that is a text, in a run of the loader in any folder.

The loader only reads the folder (`Reads`), so what it gives are the layer of a file and the
variables laid over the built-in settings (`Folder.settings_eq`).  The trees with the variable and
without it differ in one member only (`given_layered`).  So whatever can be loaded without it can
be loaded with it, and nothing outside the section of that member changes (`settings_of_without`).

The setting does not hold the text of the variable but the text of what that text was taken for.
`text_from_variable` says what this is and when the two are the same.
-/

namespace LispEngines

namespace Folder

open Settings (Request)

/-! ## Loading in a folder -/

/-- Computations of the loader in a folder. -/
abbrev Loading := ExceptT SettingsError (StateM Folder)

variable {α β : Type} {x : Loading α}

/-- What a computation gives in a folder. -/
def outcome (x : Loading α) (f : Folder) : Except SettingsError α :=
  (StateT.run (ExceptT.run x) f).1

/-- A computation that leaves every folder as it is. -/
def Reads (x : Loading α) : Prop :=
  ∀ f, StateT.run (ExceptT.run x) f = (outcome x f, f)

theorem run_bind (hx : Reads x) (k : α → Loading β) (f : Folder) :
    StateT.run (ExceptT.run (x >>= k)) f = match outcome x f with
      | .ok a => StateT.run (ExceptT.run (k a)) f
      | .error e => (.error e, f) := by
  rw [ExceptT.run_bind, StateT.run_bind, hx f]
  cases outcome x f <;> rfl

theorem outcome_bind (hx : Reads x) (k : α → Loading β) (f : Folder) :
    outcome (x >>= k) f = outcome x f >>= fun a => outcome (k a) f := by
  unfold outcome
  rw [run_bind hx]
  unfold outcome
  cases (StateT.run (ExceptT.run x) f).1 <;> rfl

theorem Reads.bind {k : α → Loading β} (hx : Reads x) (hk : ∀ a, Reads (k a)) :
    Reads (x >>= k) := by
  intro f
  rw [outcome_bind hx, run_bind hx]
  cases outcome x f with
  | error e => rfl
  | ok a => exact hk a f

theorem reads_pure (a : α) : Reads (pure a) := fun _ => rfl

theorem reads_throw (e : SettingsError) : Reads (throw e : Loading α) := fun _ => rfl

theorem reads_lift (y : Except SettingsError α) : Reads (liftM y : Loading α) := by
  intro f
  cases y <;> rfl

theorem reads_environment : Reads Host.environment := fun _ => rfl

theorem reads_isFile (path : String) : Reads (Host.isFile path) := fun _ => rfl

theorem reads_readFile (path : String) : Reads (Host.readFile path) := fun _ => rfl

theorem reads_findFile (r : Request) (vs : List (String × String)) :
    Reads (Settings.findFile r vs) := by
  unfold Settings.findFile
  split
  · refine Reads.bind (reads_isFile _) fun b => ?_
    split
    · exact reads_pure _
    · exact reads_throw _
  · exact Reads.bind (reads_isFile _) fun _ => reads_pure _

theorem reads_readLayer (path : String) : Reads (Settings.readLayer path) := by
  unfold Settings.readLayer
  split
  · refine Reads.bind (reads_readFile _) fun content => ?_
    split
    · exact reads_lift _
    · exact reads_throw _
  · exact reads_throw _

theorem reads_allVariables : Reads Settings.allVariables := by
  unfold Settings.allVariables
  refine Reads.bind reads_environment fun vs => Reads.bind (reads_readFile _) fun content => ?_
  split <;> exact reads_pure _

theorem outcome_lift (y : Except SettingsError α) (f : Folder) :
    outcome (liftM y : Loading α) f = y := by
  cases y <;> rfl

/-- The variables, with those of the file of variables. -/
def allVariables (f : Folder) : List (String × String) :=
  match f.readFile Settings.variablesFile with
  | .ok file => Dotenv.load f.environment file
  | .error _ => f.environment

theorem outcome_allVariables (f : Folder) :
    outcome Settings.allVariables f = .ok f.allVariables := by
  unfold Settings.allVariables allVariables
  rw [outcome_bind reads_environment]
  show outcome (Host.readFile Settings.variablesFile >>= _) f = _
  rw [outcome_bind (reads_readFile _)]
  show outcome (match f.readFile Settings.variablesFile with
    | .ok file => pure (Dotenv.load f.environment file)
    | .error _ => pure f.environment) f = _
  cases f.readFile Settings.variablesFile <;> rfl

/-- The layer of the file of settings. -/
def layer (f : Folder) (r : Request) : Except SettingsError (List (String × Setting)) := do
  match ← outcome (Settings.findFile r f.allVariables) f with
  | some path => outcome (Settings.readLayer path) f
  | none => return []

/-- The settings that are loaded in a folder. -/
def settings (f : Folder) (r : Request) : Except SettingsError Settings :=
  outcome (Settings.load r) f

/-- Loading takes the layer of the file and then the variables. -/
theorem settings_eq (f : Folder) (r : Request) : f.settings r =
    f.layer r >>= fun file =>
      Settings.ofLayers r file (r.environment.getD f.allVariables) := by
  unfold settings Settings.load layer
  rw [outcome_bind reads_allVariables, outcome_allVariables]
  show outcome (Settings.findFile r f.allVariables >>= _) f = _
  rw [outcome_bind (reads_findFile _ _)]
  cases outcome (Settings.findFile r f.allVariables) f with
  | error e => rfl
  | ok path? =>
    cases path? with
    | none => exact outcome_lift _ f
    | some path =>
      refine (outcome_bind (reads_readLayer path) _ f).trans ?_
      simp only [outcome_lift]
      rfl

end Folder

namespace Settings

open Setting (Given lay machineSection)

/-! ## From the layers to the settings -/

/-- The tree in which the layers lie. -/
def layered (file : List (String × Setting)) (vs : List (String × String)) : Setting :=
  (((Setting.table []).lay (toTree {})).lay file).lay (ofVariables vs)

theorem ofLayers_eq (r : Request) (file : List (String × Setting)) (vs : List (String × String)) :
    ofLayers r file vs = do
      let s ← ofTree (layered file vs)
      (r.apply s).check
      return r.apply s := by
  rfl

theorem ofTree_eq_ok_iff {t : Setting} {s : Settings} : ofTree t = .ok s ↔
    readEngine t = .ok s.engine ∧ readMachine t = .ok s.machine ∧
      readSchedule t = .ok s.schedule := by
  rw [ofTree_eq]
  simp only [bind_eq_ok_iff]
  constructor
  · rintro ⟨engine, he, machine, hm, schedule, hs, ⟨⟩⟩
    exact ⟨he, hm, hs⟩
  · rintro ⟨he, hm, hs⟩
    exact ⟨_, he, _, hm, _, hs, rfl⟩

/-- The settings that make sense. -/
theorem check_eq_ok_iff {s : Settings} : s.check = .ok () ↔
    s.engine.maxDepth ≠ 0 ∧ 16 ≤ s.machine.stackSize ∧ s.machine.entry ≠ "" ∧
      s.schedule.quantum ≠ 0 := by
  unfold check
  by_cases hdepth : s.engine.maxDepth = 0
  · rw [if_pos hdepth]
    exact ⟨nofun, fun h => absurd hdepth h.1⟩
  by_cases hstack : s.machine.stackSize < 16
  · rw [if_neg hdepth, if_pos hstack]
    exact ⟨nofun, fun h => absurd hstack (Nat.not_lt.mpr h.2.1)⟩
  by_cases hentry : s.machine.entry.isEmpty = true
  · rw [if_neg hdepth, if_neg hstack, if_pos hentry]
    exact ⟨nofun, fun h => absurd (String.isEmpty_iff.mp hentry) h.2.2.1⟩
  rw [if_neg hdepth, if_neg hstack, if_neg hentry]
  by_cases hquantum : s.schedule.quantum = 0
  · rw [if_pos hquantum]
    exact ⟨nofun, fun h => absurd hquantum h.2.2.2⟩
  · rw [if_neg hquantum]
    exact ⟨fun _ => ⟨hdepth, Nat.not_lt.mp hstack, fun h => hentry (String.isEmpty_iff.mpr h),
      hquantum⟩, fun _ => rfl⟩

theorem ofLayers_eq_ok_iff {r : Request} {file : List (String × Setting)}
    {vs : List (String × String)} {s : Settings} : ofLayers r file vs = .ok s ↔
    ∃ s₀, ofTree (layered file vs) = .ok s₀ ∧ s = r.apply s₀ ∧ s.check = .ok () := by
  simp only [ofLayers_eq, bind_eq_ok_iff]
  constructor
  · rintro ⟨s₀, hs₀, ⟨⟩, hc, ⟨⟩⟩
    exact ⟨s₀, hs₀, rfl, hc⟩
  · rintro ⟨s₀, hs₀, rfl, hc⟩
    exact ⟨s₀, hs₀, (), hc, rfl⟩

theorem lay_append (t : Setting) (xs ys : List (String × Setting)) :
    t.lay (xs ++ ys) = (t.lay xs).lay ys :=
  List.foldl_append

/-- A variable with the name of a text setting gives it what its text is taken for. -/
theorem given_layered (member : TextSetting) {name v : String}
    (hname : Setting.lowerName name = "scheming_vm__" ++ member.name)
    {pre post : List (String × String)} (hpost : ∀ x ∈ ofVariables post,
      Setting.Elsewhere member.name (Setting.pathOf x.1)) (file : List (String × Setting)) :
    Given member.name (.scalar "the environment" (guess v)) (layered file (pre ++ post))
      (layered file (pre ++ (name, v) :: post)) := by
  have hvariable : ofVariable? name v =
      some ("vm." ++ member.name, .scalar "the environment" (guess v)) := by
    unfold ofVariable?
    rw [hname]
    cases member <;> rfl
  have hpath : Setting.pathOf ("vm." ++ member.name) =
      [.name machineSection, .name member.name] := by
    cases member <;> decide
  unfold layered ofVariables
  rw [List.filterMap_append, List.filterMap_append, List.filterMap_cons]
  dsimp only
  rw [hvariable]
  dsimp only
  rw [lay_append, lay_append]
  refine Given.lay ?_ hpost
  dsimp only
  rw [hpath]
  exact Setting.given_mergeAt member.lowerName_name _ _ _

/-- Laid over nothing the built-in settings stay as they are. -/
theorem lay_builtIn : (Setting.table []).lay (toTree {}) = .table (toTree {}) := by
  have hengine : Setting.pathOf "engine" = [.name "engine"] := by decide
  have hmachine : Setting.pathOf "vm" = [.name "vm"] := by decide
  have hschedule : Setting.pathOf "scheduler" = [.name "scheduler"] := by decide
  simp only [lay, toTree, List.foldl_cons, List.foldl_nil, hengine, hmachine, hschedule,
    Setting.mergeAt_name, Setting.mergeAt, Setting.merge, Setting.mergeAll, Option.getD_some,
    Setting.change]
  rfl

/-- Without any layers the settings are the built-in ones. -/
theorem ofTree_layered_nil : ofTree (layered [] []) = .ok {} := by
  show ofTree ((Setting.table []).lay (toTree {})) = .ok {}
  rw [lay_builtIn]
  rfl

/-- The section for the machine has members with names if no layer says otherwise. -/
theorem not_listed_layered_nil : ¬Listed (layered [] []) := by
  show ¬Listed ((Setting.table []).lay (toTree {}))
  rw [lay_builtIn]
  exact nofun

theorem settings_eq_ok_iff {f : Folder} {r : Request} {s : Settings} : f.settings r = .ok s ↔
    ∃ file s₀, f.layer r = .ok file ∧
      ofTree (layered file (r.environment.getD f.allVariables)) = .ok s₀ ∧
        s = r.apply s₀ ∧ s.check = .ok () := by
  rw [Folder.settings_eq]
  simp only [bind_eq_ok_iff, ofLayers_eq_ok_iff]
  exact ⟨fun ⟨file, hf, s₀, h⟩ => ⟨file, s₀, hf, h⟩, fun ⟨file, s₀, hf, h⟩ => ⟨file, hf, s₀, h⟩⟩

/-- What makes sense still does with another text that is not empty. -/
theorem check_set {s : Settings} {m : MachineSettings} {w : String} (member : TextSetting)
    (hs : s.check = .ok ()) (hstack : 16 ≤ m.stackSize) (hentry : m.entry ≠ "") (hw : w ≠ "") :
    { s with machine := member.set w m }.check = .ok () := by
  rw [check_eq_ok_iff] at hs ⊢
  obtain ⟨hdepth, -, -, hquantum⟩ := hs
  cases member with
  | program => exact ⟨hdepth, hstack, hentry, hquantum⟩
  | entry => exact ⟨hdepth, hstack, hw, hquantum⟩

section Variable

variable {f : Folder} {r : Request} {name v : String} {pre post : List (String × String)}
  {file : List (String × Setting)} {s : Settings} (member : TextSetting)

include member

/-- If the settings can be loaded without a variable for a text setting, then also with it. -/
theorem settings_of_without (hname : Setting.lowerName name = "scheming_vm__" ++ member.name)
    (hv : v ≠ "") (hvs : r.environment.getD f.allVariables = pre ++ (name, v) :: post)
    (hpost : ∀ x ∈ ofVariables post, Setting.Elsewhere member.name (Setting.pathOf x.1))
    (hfile : f.layer r = .ok file)
    (hs : f.settings { r with environment := some (pre ++ post) } = .ok s) :
    (¬Listed (layered file (pre ++ post)) →
        f.settings r = .ok { s with machine := member.set (printed v) s.machine }) ∧
      (Listed (layered file (pre ++ post)) →
        f.settings r = .ok { s with machine := member.set (printed v) {} }) := by
  have hgiven : Given member.name _ (layered file (pre ++ post))
      (layered file (pre ++ (name, v) :: post)) := given_layered member hname hpost file
  obtain ⟨file', s₀, hfile', hs₀, rfl, hcheck⟩ := settings_eq_ok_iff.mp hs
  cases hfile.symm.trans hfile'
  obtain ⟨he, hm, hsch⟩ := ofTree_eq_ok_iff.mp hs₀
  obtain ⟨hnamed, hlisted⟩ := readMachine_of_given hgiven hm
  obtain ⟨-, hstack, hentry, -⟩ := check_eq_ok_iff.mp hcheck
  have hw : printed v ≠ "" := (printedAs_printed v).ne_empty hv
  have load {m : MachineSettings} (hm : readMachine (layered file (pre ++ (name, v) :: post)) =
      .ok (member.set (printed v) m)) (hstack : 16 ≤ m.stackSize) (hentry : m.entry ≠ "") :
      f.settings r = .ok { r.apply s₀ with machine := member.set (printed v) m } := by
    refine settings_eq_ok_iff.mpr
      ⟨file, { s₀ with machine := member.set (printed v) m }, hfile, ?_, rfl,
        check_set member hcheck hstack hentry hw⟩
    rw [hvs]
    exact ofTree_eq_ok_iff.mpr ⟨(readEngine_of_given hgiven).trans he, hm,
      (readSchedule_of_given hgiven).trans hsch⟩
  exact ⟨fun hl => load (hnamed hl) hstack hentry,
    fun hl => load (hlisted hl) (by decide) (by decide)⟩

/-- A variable for a text setting by itself, over the built-in settings. -/
theorem settings_alone (hname : Setting.lowerName name = "scheming_vm__" ++ member.name)
    (hv : v ≠ "") (hvs : r.environment.getD f.allVariables = [(name, v)])
    (hfile : f.layer r = .ok []) :
    f.settings r = .ok (r.apply { machine := member.set (printed v) {} }) := by
  have hs : f.settings { r with environment := some ([] ++ []) } = .ok (r.apply {}) :=
    settings_eq_ok_iff.mpr ⟨[], {}, hfile, ofTree_layered_nil, rfl, rfl⟩
  exact (settings_of_without member hname hv hvs (fun _ hx => nomatch List.not_mem_nil hx)
    hfile hs).1 not_listed_layered_nil

end Variable

/-- A text setting from a variable.  The setting holds the text of what the variable's text is
taken for; nothing goes wrong that does not go wrong without the variable; and alone, over the
built-in settings, the variable is loaded and changes nothing else.  The text is that of the
variable exactly when it spells no other value or is the one in which that value is printed. -/
theorem text_from_variable (member : TextSetting) {f : Folder} {r : Request} {name v : String}
    {pre post : List (String × String)}
    (hname : Setting.lowerName name = "scheming_vm__" ++ member.name) (hv : v ≠ "")
    (hvs : r.environment.getD f.allVariables = pre ++ (name, v) :: post)
    (hpost : ∀ x ∈ ofVariables post, Setting.Elsewhere member.name (Setting.pathOf x.1)) :
    (∀ s, f.settings r = .ok s → member.get? s.machine = some (printed v)) ∧
      (∀ s, f.settings { r with environment := some (pre ++ post) } = .ok s →
        ∃ m, f.settings r = .ok { s with machine := m }) ∧
      (f.layer r = .ok [] → pre = [] → post = [] →
        f.settings r = .ok (r.apply { machine := member.set (printed v) {} })) ∧
      (∀ w, w = printed v ↔ PrintedAs v w) ∧ (printed v = v ↔ Kept v) := by
  refine ⟨?_, ?_, ?_, fun w => printedAs_iff.symm, printed_eq_self_iff⟩
  · intro s hs
    obtain ⟨file, s₀, -, hs₀, rfl, -⟩ := settings_eq_ok_iff.mp hs
    rw [hvs] at hs₀
    exact get?_of_given (given_layered member hname hpost file) (ofTree_eq_ok_iff.mp hs₀).2.1
  · intro s hs
    obtain ⟨file, -, hfile, -⟩ := settings_eq_ok_iff.mp hs
    obtain ⟨hnamed, hlisted⟩ := settings_of_without member hname hv hvs hpost hfile hs
    by_cases hl : Listed (layered file (pre ++ post))
    · exact ⟨_, hlisted hl⟩
    · exact ⟨_, hnamed hl⟩
  · rintro hfile rfl rfl
    exact settings_alone member hname hv hvs hfile

/-- In a folder without files and variables there is no layer of a file. -/
theorem layer_nil (vs : List (String × String)) :
    ({} : Folder).layer { environment := some vs } = .ok [] := by
  have hread (path : String) : ∃ reason, ({} : Folder).readFile path = .error reason := by
    unfold Folder.readFile
    rw [List.lookup_nil]
    dsimp only
    split <;> exact ⟨_, rfl⟩
  have hvs : ({} : Folder).allVariables = [] := by
    obtain ⟨reason, h⟩ := hread variablesFile
    unfold Folder.allVariables
    rw [h]
  obtain ⟨reason, h⟩ := hread localFile
  have hfind : Folder.outcome (findFile { environment := some vs } []) ({} : Folder) =
      .ok none := by
    show Except.ok (if (({} : Folder).readFile localFile).isOk then some localFile else none) = _
    rw [h]
    rfl
  unfold Folder.layer
  rw [hvs, hfind]
  rfl

theorem text_from_variable_of_start :
    ({} : Folder).settings { environment := some [("SCHEMING_VM__ENTRY", "start")] } =
      .ok { machine := { entry := "start" } } := by
  have hname : Setting.lowerName "SCHEMING_VM__ENTRY" =
      "scheming_vm__" ++ TextSetting.entry.name := by decide
  obtain ⟨-, -, halone, -⟩ := text_from_variable (f := {})
    (r := { environment := some [("SCHEMING_VM__ENTRY", "start")] }) .entry hname (by decide)
    (show _ = [] ++ ("SCHEMING_VM__ENTRY", "start") :: [] from rfl) nofun
  exact halone (layer_nil _) rfl rfl

/-- The text `007` is taken for a number, and the settings hold the text of this number. -/
theorem text_changed_by_guess :
    (∃ s, ({} : Folder).settings { environment := some [("SCHEMING_VM__ENTRY", "007")] } = .ok s ∧
      s.machine.entry = "7" ∧ s.machine.entry ≠ "007") ∧
    ∃ s, ({} : Folder).settings { environment := some [("SCHEMING_VM__PROGRAM", "007")] } = .ok s ∧
      s.machine.program = some "7" ∧ s.machine.program ≠ some "007" := by
  have hseven : printed "007" = "7" := by decide
  constructor
  · refine ⟨_, settings_alone .entry (by decide) (by decide) rfl (layer_nil _), hseven, ?_⟩
    show printed "007" ≠ "007"
    decide
  · refine ⟨_, settings_alone .program (by decide) (by decide) rfl (layer_nil _),
      congrArg some hseven, ?_⟩
    show some (printed "007") ≠ some "007"
    decide

end Settings

end LispEngines
