import LispEngines.Proofs.Settings.Spelling
import LispEngines.Settings.Load
import LispEngines.Host.Folder

/-!
# A member of a section among the layers

`Given k v t t'` says of two trees that they agree in everything but one member of the section for
the machine, and that the second has `v` there.  Laying a setting for that member over a tree
brings this about (`given_mergeAt`).  From then on anything may be laid over both that leads
elsewhere (`Elsewhere`): what one step into the tree does is said by `get?_change`, and from it a
path (`Given.mergeAt`) and a whole layer (`Given.lay`) keep the trees in this relation.

The section may have been anything in the first tree, also a value that settings cannot be read
from; in the second tree it is a table.
-/

namespace LispEngines.Setting

variable {k name : String} {u v : Setting} {t t' : Setting} {path : List Step}

/-! ## Members -/

theorem lookup_cons_ite (e : String × Setting) (es : List (String × Setting)) (k : String) :
    (e :: es).lookup k = if k = e.1 then some e.2 else es.lookup k := by
  rw [List.lookup_cons]
  split
  · rename_i h
    rw [if_pos (beq_iff_eq.mp h)]
  · rename_i h
    rw [if_neg (beq_eq_false_iff_ne.mp h)]

theorem lookup_putEntry (name : String) (v : Setting) (es : List (String × Setting))
    (k : String) :
    (putEntry name v es).lookup k = if k = name then some v else es.lookup k := by
  induction es with
  | nil => rw [putEntry, lookup_cons_ite]
  | cons e es ih =>
    obtain ⟨a, w⟩ := e
    rw [putEntry, lookup_cons_ite]
    by_cases ha : a = name
    · rw [if_pos ha, lookup_cons_ite, ha]
      split <;> rfl
    · rw [if_neg ha, lookup_cons_ite, ih]
      split
      · rename_i hk
        rw [if_neg (hk ▸ ha)]
      · rfl

/-- Changing a member leaves the others. -/
theorem get?_change (t : Setting) (name : String) (f : Option Setting → Setting) (k : String) :
    (t.change name f).get? k =
      if k = lowerName name then some (f (t.get? (lowerName name))) else t.get? k :=
  lookup_putEntry ..

theorem mergeAt_name (v : Setting) (s : String) (path : List Step) (old : Option Setting) :
    mergeAt v (.name s :: path) old = (old.getD nothing).change s (mergeAt v path) := by
  rw [mergeAt]

/-! ## One member apart -/

/-- The name of the section that describes the machine. -/
def machineSection : String := "vm"

/-- Apart from one member of the section for the machine, which is `v` in the second, two trees
say the same. -/
structure Given (k : String) (v t t' : Setting) : Prop where
  elsewhere : ∀ name ≠ machineSection, t'.get? name = t.get? name
  here : ∃ es, t'.get? machineSection = some (table es) ∧ (table es).get? k = some v ∧
    ∀ name ≠ k, (table es).get? name = ((t.get? machineSection).getD nothing).get? name

/-- A path that leads neither to a member of the section for the machine nor through it. -/
def Elsewhere (k : String) : List Step → Prop
  | .name s :: path => lowerName s ≠ machineSection ∨
    ∃ name rest, path = .name name :: rest ∧ lowerName name ≠ k
  | _ => False

/-- Laying a single value for the member over a tree gives it that value. -/
theorem given_mergeAt (hk : lowerName k = k) (source : Option String) (x : Scalar) (t : Setting) :
    Given k (scalar source x) t
      (mergeAt (scalar source x) [.name machineSection, .name k] (some t)) := by
  have hs : lowerName machineSection = machineSection := by decide
  rw [mergeAt_name, Option.getD_some]
  constructor
  · intro name hname
    rw [get?_change, hs, if_neg hname]
  · rw [get?_change, hs, if_pos rfl, mergeAt_name]
    refine ⟨_, rfl, ?_, ?_⟩
    · refine (get?_change _ k _ k).trans ?_
      rw [hk, if_pos rfl, mergeAt, merge]
    · intro name hname
      refine (get?_change _ k _ name).trans ?_
      rw [hk, if_neg hname]

/-- What leads elsewhere changes both trees alike. -/
theorem Given.mergeAt (h : Given k v t t') (hp : Elsewhere k path) (u : Setting) :
    Given k v (Setting.mergeAt u path (some t)) (Setting.mergeAt u path (some t')) := by
  obtain ⟨helse, es, hes, hv, hother⟩ := h
  match path, hp with
  | .name s :: path, hp =>
    rw [mergeAt_name, mergeAt_name, Option.getD_some, Option.getD_some]
    by_cases hs : lowerName s = machineSection
    · obtain ⟨name, rest, rfl, hname⟩ := hp.resolve_left (not_not_intro hs)
      constructor
      · intro other hother
        rw [get?_change, get?_change, hs, if_neg hother, if_neg hother]
        exact helse other hother
      · rw [get?_change, get?_change, hs, if_pos rfl, if_pos rfl, hes, mergeAt_name, mergeAt_name]
        refine ⟨_, rfl, ?_, ?_⟩
        · refine (get?_change _ name _ k).trans ?_
          rw [if_neg (Ne.symm hname)]
          exact hv
        · intro other ho
          refine (get?_change _ name _ other).trans ?_
          rw [Option.getD_some, Option.getD_some]
          refine Eq.trans ?_ (get?_change _ name _ other).symm
          rw [hother _ ho, hother _ hname]
    · constructor
      · intro name hname
        rw [get?_change, get?_change, helse _ hname, helse _ hs]
      · rw [get?_change, get?_change, if_neg (Ne.symm hs), if_neg (Ne.symm hs)]
        exact ⟨es, hes, hv, hother⟩

/-- A layer that says nothing of the member keeps the trees apart in it only. -/
theorem Given.lay {layer : List (String × Setting)} (h : Given k v t t')
    (hl : ∀ x ∈ layer, Elsewhere k (pathOf x.1)) : Given k v (t.lay layer) (t'.lay layer) := by
  induction layer generalizing t t' with
  | nil => exact h
  | cons x layer ih =>
    exact ih (h.mergeAt (hl x List.mem_cons_self) x.2)
      fun y hy => hl y (List.mem_cons_of_mem _ hy)

end LispEngines.Setting

namespace LispEngines.Settings

open Setting (Given machineSection)

variable {k key : String} {v t t' : Setting} {i : Nat} {α : Type}
  {convert : Setting → Except Complaint α} {builtIn : α}

/-! ## Reading the trees -/

theorem bind_eq_ok_iff {ε β : Type} {x : Except ε α} {f : α → Except ε β} {b : β} :
    (x >>= f) = .ok b ↔ ∃ a, x = .ok a ∧ f a = .ok b := by
  cases x with
  | error e => exact ⟨nofun, nofun⟩
  | ok a =>
    refine ⟨fun h => ⟨a, rfl, h⟩, ?_⟩
    rintro ⟨_, ⟨⟩, h⟩
    exact h

/-- The settings of the engines that a tree gives. -/
def readEngine (t : Setting) : Except SettingsError EngineSettings := do
  let s ← section? t "engine" "struct EngineConfig"
  let built : EngineSettings := {}
  let evaluator ← Section.read s 0 "evaluator" Setting.toStrategy built.evaluator
  let debug ← Section.read s 1 "debug" Setting.toBool built.debug
  let timing ← Section.read s 2 "timing" Setting.toBool built.timing
  let maxDepth ← Section.read s 3 "max_depth" Setting.toUnsigned built.maxDepth
  return { evaluator, debug, timing, maxDepth }

/-- The settings of the machine that a tree gives. -/
def readMachine (t : Setting) : Except SettingsError MachineSettings := do
  let s ← section? t machineSection "struct VmConfig"
  let built : MachineSettings := {}
  let stackSize ← Section.read s 0 "stack_size" Setting.toUnsigned built.stackSize
  let program ← Section.read s 1 "program" Setting.toText? built.program
  let entry ← Section.read s 2 "entry" Setting.toText built.entry
  return { stackSize, program, entry }

/-- The settings of the scheduler that a tree gives. -/
def readSchedule (t : Setting) : Except SettingsError ScheduleSettings := do
  let s ← section? t "scheduler" "struct SchedulerConfig"
  let built : ScheduleSettings := {}
  let quantum ← Section.read s 0 "quantum" Setting.toUnsigned built.quantum
  let defaultPriority ←
    Section.read s 1 "default_priority" Setting.toInt32 built.defaultPriority
  let idleSleep ← Section.read s 2 "idle_sleep_ms" Setting.toUnsigned built.idleSleep
  return { quantum, defaultPriority, idleSleep }

/-- The sections are read one after another. -/
theorem ofTree_eq (t : Setting) : ofTree t = do
    let engine ← readEngine t
    let machine ← readMachine t
    let schedule ← readSchedule t
    return { engine, machine, schedule } := by
  unfold ofTree readEngine readMachine readSchedule machineSection
  simp only [bind_assoc, pure_bind]

theorem section?_congr {shape : String}
    (h : t'.get? key = t.get? key) : section? t' key shape = section? t key shape := by
  unfold section?
  rw [h]

theorem readEngine_of_given (h : Given k v t t') : readEngine t' = readEngine t := by
  unfold readEngine
  rw [section?_congr (h.elsewhere "engine" (by decide))]

theorem readSchedule_of_given (h : Given k v t t') : readSchedule t' = readSchedule t := by
  unfold readSchedule
  rw [section?_congr (h.elsewhere "scheduler" (by decide))]

/-- A member that has a value gives what this value converts to. -/
theorem read_of_get? {x : α} {name : String} {es : List (String × Setting)}
    (h : (Setting.table es).get? key = some v) (hx : convert v = .ok x) :
    Section.read (some ⟨name, .table es⟩) i key convert builtIn = .ok x := by
  unfold Section.read
  dsimp only [Option.bind_some]
  rw [h]
  dsimp only
  rw [hx]
  rfl

/-- The settings of the machine are read member by member. -/
theorem readMachine_eq_ok_iff {m : MachineSettings} : readMachine t = .ok m ↔
    ∃ s, section? t machineSection "struct VmConfig" = .ok s ∧
      Section.read s 0 "stack_size" Setting.toUnsigned 3000 = .ok m.stackSize ∧
      Section.read s 1 "program" Setting.toText? none = .ok m.program ∧
      Section.read s 2 "entry" Setting.toText "main" = .ok m.entry := by
  unfold readMachine
  simp only [bind_eq_ok_iff]
  constructor
  · rintro ⟨s, hs, stackSize, hstack, program, hprogram, entry, hentry, ⟨⟩⟩
    exact ⟨s, hs, hstack, hprogram, hentry⟩
  · rintro ⟨s, hs, hstack, hprogram, hentry⟩
    exact ⟨s, hs, _, hstack, _, hprogram, _, hentry, rfl⟩

theorem section?_of_table {es : List (String × Setting)} {shape : String}
    (h : t.get? key = some (.table es)) : section? t key shape = .ok (some ⟨key, .table es⟩) := by
  unfold section?
  rw [h]

/-- Whether the members of the section for the machine are given in order and not by name. -/
def Listed (t : Setting) : Prop := ∃ xs, t.get? machineSection = some (.sequence xs)

/-- A member that is the same in both trees is read alike, unless it stood in a sequence. -/
theorem read_of_not_listed {es : List (String × Setting)} {s : Option Section} {shape : String}
    (hl : ¬Listed t) (hs : section? t machineSection shape = .ok s)
    (hget : (Setting.table es).get? key =
      ((t.get? machineSection).getD Setting.nothing).get? key) :
    Section.read (some ⟨machineSection, .table es⟩) i key convert builtIn =
      Section.read s i key convert builtIn := by
  unfold section? at hs
  split at hs
  · rename_i hnone
    cases hs
    rw [hnone] at hget
    unfold Section.read
    dsimp only [Option.bind_some]
    rw [hget]
    rfl
  · cases hs
  · rename_i content hscalar hcontent
    cases hs
    rw [hcontent] at hget
    cases content with
    | scalar source x => exact absurd rfl (hscalar source x)
    | sequence xs => exact absurd ⟨xs, hcontent⟩ hl
    | table old =>
      unfold Section.read
      dsimp only [Option.bind_some]
      rw [hget]
      rfl

/-- A member that stood in a sequence has its built-in value. -/
theorem read_of_listed {es : List (String × Setting)} (hl : Listed t)
    (hget : (Setting.table es).get? key =
      ((t.get? machineSection).getD Setting.nothing).get? key) :
    Section.read (some ⟨machineSection, .table es⟩) i key convert builtIn = .ok builtIn := by
  obtain ⟨xs, hxs⟩ := hl
  rw [hxs] at hget
  unfold Section.read
  dsimp only [Option.bind_some]
  rw [hget]
  rfl

/-! ## Settings that are texts -/

/-- The settings of the machine that are texts. -/
inductive TextSetting where
  | program
  | entry

namespace TextSetting

/-- The name of a setting in its section. -/
def name : TextSetting → String
  | program => "program"
  | entry => "entry"

/-- The text of a setting, if it has one. -/
def get? : TextSetting → MachineSettings → Option String
  | program, m => m.program
  | entry, m => some m.entry

/-- The settings with another text. -/
def set (w : String) (m : MachineSettings) : TextSetting → MachineSettings
  | program => { m with program := some w }
  | entry => { m with entry := w }

theorem lowerName_name (member : TextSetting) : Setting.lowerName member.name = member.name := by
  cases member <;> decide

end TextSetting

variable {member : TextSetting} {source : Option String} {text : String} {m : MachineSettings}

/-- The text is found in whatever is read. -/
theorem get?_of_given (h : Given member.name (.scalar source (guess text)) t t')
    (hm : readMachine t' = .ok m) : member.get? m = some (printed text) := by
  obtain ⟨es, hes, hv, -⟩ := h.here
  obtain ⟨s, hs, -, hprogram, hentry⟩ := readMachine_eq_ok_iff.mp hm
  rw [section?_of_table hes] at hs
  cases hs
  cases member with
  | program =>
    exact (Except.ok.inj ((read_of_get? hv (toText?_guess source text)).symm.trans hprogram)).symm
  | entry =>
    exact congrArg some
      (Except.ok.inj ((read_of_get? hv (toText_guess source text)).symm.trans hentry)).symm

/-- If the settings could be read without the text, then they can be read with it. -/
theorem readMachine_of_given (h : Given member.name (.scalar source (guess text)) t t')
    (hm : readMachine t = .ok m) :
    (¬Listed t → readMachine t' = .ok (member.set (printed text) m)) ∧
      (Listed t → readMachine t' = .ok (member.set (printed text) {})) := by
  obtain ⟨es, hes, hv, hother⟩ := h.here
  obtain ⟨s, hs, hstack, hprogram, hentry⟩ := readMachine_eq_ok_iff.mp hm
  have hs' : section? t' machineSection "struct VmConfig" = _ := section?_of_table hes
  constructor <;> intro hl <;> refine readMachine_eq_ok_iff.mpr ⟨_, hs', ?_⟩ <;> cases member
  case left.program =>
    exact ⟨(read_of_not_listed hl hs (hother "stack_size" (by decide))).trans hstack,
      read_of_get? hv (toText?_guess source text),
      (read_of_not_listed hl hs (hother "entry" (by decide))).trans hentry⟩
  case left.entry =>
    exact ⟨(read_of_not_listed hl hs (hother "stack_size" (by decide))).trans hstack,
      (read_of_not_listed hl hs (hother "program" (by decide))).trans hprogram,
      read_of_get? hv (toText_guess source text)⟩
  case right.program =>
    exact ⟨read_of_listed hl (hother "stack_size" (by decide)),
      read_of_get? hv (toText?_guess source text),
      read_of_listed hl (hother "entry" (by decide))⟩
  case right.entry =>
    exact ⟨read_of_listed hl (hother "stack_size" (by decide)),
      read_of_listed hl (hother "program" (by decide)),
      read_of_get? hv (toText_guess source text)⟩

end LispEngines.Settings
