import WorkloadAwareCompaction.Library.AgeOrder
import WorkloadAwareCompaction.Library.StepSystem
import WorkloadAwareCompaction.Tree.Levels

/-!
# The tree as a state machine

The state is the metadata of the store, the tree object, and the tasks that have been scheduled and
not yet run. Two kinds of event move it, in any order:

* a flush adds a newest file to store level 0 and runs `OnFlushCompleted` to its end;
* a scheduled task runs `CompactFiles`: the store either replaces exactly the named inputs by output
  files on the task's level, or fails and changes nothing; then the rest of
  `FluidLSM::CompactFiles` runs to its end.

The store's own compactions are off. What it promises about an event is `Promised`: names are never
reused, finished files carry no mark, a flushed file is newer than everything, and a compaction
output holds entries of its inputs only.

A step is `none` where the source would leave a vector, or where a task is addressed to a level the
store lacks: a run is one on which all target slots are present.

## One inversion for all invariants

`Coherent.step` says once what a step can do. An idle tree either stays idle, and then no level is
over its bound, or it enqueues one task; a busy tree enqueues nothing, whether the callback comes
from a flush or from the completed task itself, since the counter is lowered only after the pick.
Every result about runs goes through the five cases of `TreeStep` and never unfolds the source
functions again.
-/

namespace WorkloadAwareCompaction

open FluidLSM

/-! ## Edits of the store -/

namespace ColumnFamilyMetaData

variable (db : ColumnFamilyMetaData)

/-- A flush adds its file in front of level 0. -/
def addFlushed (file : SstFileMetaData) : ColumnFamilyMetaData :=
  db.mapFiles fun lvl files ↦ if lvl = 0 then file :: files else files

/-- A compaction replaces the named files by its outputs on one level. -/
def replaceFiles (inputFileNames : List String) (outputLvl : ℕ) (outputs : List SstFileMetaData) :
    ColumnFamilyMetaData :=
  db.mapFiles fun lvl files ↦
    let kept := files.filter (·.name ∉ inputFileNames)
    if lvl = outputLvl then kept ++ outputs else kept

variable {db}

@[simp] theorem numLevels_addFlushed (file : SstFileMetaData) :
    (db.addFlushed file).numLevels = db.numLevels := numLevels_mapFiles _

@[simp] theorem numLevels_replaceFiles (names : List String) (out : ℕ)
    (outputs : List SstFileMetaData) :
    (db.replaceFiles names out outputs).numLevels = db.numLevels := numLevels_mapFiles _

theorem filesAt_addFlushed_zero (h : 0 < db.numLevels) (file : SstFileMetaData) :
    (db.addFlushed file).filesAt 0 = file :: db.filesAt 0 := by
  rw [addFlushed, filesAt_mapFiles _ h, if_pos rfl]

theorem filesAt_addFlushed_of_ne {i : ℕ} (hi : i ≠ 0) (file : SstFileMetaData) :
    (db.addFlushed file).filesAt i = db.filesAt i := by
  by_cases hlt : i < db.numLevels
  · rw [addFlushed, filesAt_mapFiles _ hlt, if_neg hi]
  · rw [filesAt_of_le (by simpa using hlt), filesAt_of_le (by simpa using hlt)]

theorem filesAt_replaceFiles {names : List String} {out : ℕ} {outputs : List SstFileMetaData}
    (hout : out < db.numLevels) (i : ℕ) :
    (db.replaceFiles names out outputs).filesAt i
      = if i = out then (db.filesAt i).filter (·.name ∉ names) ++ outputs
        else (db.filesAt i).filter (·.name ∉ names) := by
  by_cases hi : i < db.numLevels
  · rw [replaceFiles, filesAt_mapFiles _ hi]
  · rw [filesAt_of_le (by simpa using hi), filesAt_of_le (by simpa using hi),
      if_neg (by omega), List.filter_nil]

@[simp] theorem occupiedLevels_addFlushed {cfg : Config} (file : SstFileMetaData) (l : ℕ) :
    occupiedLevels cfg (db.addFlushed file) l = occupiedLevels cfg db l :=
  occupiedLevels_congr (fun _ hi ↦ filesAt_addFlushed_of_ne hi file) l

end ColumnFamilyMetaData

/-! ## States and events -/

structure TreeState where
  db : ColumnFamilyMetaData
  tree : FluidLSM
  /-- Scheduled and not yet run. -/
  tasks : List CompactionTask
  deriving DecidableEq

/-- How a task's `CompactFiles` call ends. -/
inductive Outcome
  | success (outputs : List SstFileMetaData)
  | failure (status : Status)
  deriving DecidableEq

inductive TreeEvent
  | flush (file : SstFileMetaData)
  | compact (task : CompactionTask) (outcome : Outcome)
  deriving DecidableEq

namespace TreeState

/-- An empty store under a freshly constructed tree. -/
def init (cfg : Config) : TreeState where
  db := .empty cfg.options.numLevels
  tree := .new cfg
  tasks := []

def step (fp : DoubleArith) (s : TreeState) : TreeEvent → Option TreeState
  | .flush file =>
    let db := s.db.addFlushed file
    (s.tree.onFlushCompleted fp db).map fun p ↦ ⟨db, p.1, s.tasks ++ p.2⟩
  | .compact task (.success outputs) =>
    if task ∈ s.tasks ∧ task.outputLvl < s.db.numLevels then
      let db := s.db.replaceFiles task.inputFileNames task.outputLvl outputs
      (s.tree.compactFiles fp db .ok).map fun p ↦ ⟨db, p.1, s.tasks.erase task ++ p.2⟩
    else none
  | .compact task (.failure status) =>
    if task ∈ s.tasks then
      (s.tree.compactFiles fp s.db status).map fun p ↦ ⟨s.db, p.1, s.tasks.erase task ++ p.2⟩
    else none

end TreeState

/-- The tree of a configuration as a step system. -/
def treeSystem (cfg : Config) (fp : DoubleArith) : StepSystem TreeState TreeEvent where
  init := .init cfg
  step := TreeState.step fp

/-! ## What the store promises -/

/-- The ages of a file are the flushes it holds entries of. -/
def SstFileMetaData.age (file : SstFileMetaData) : Set ℕ := ↑file.flushes

/-- The files of the store a task names. -/
def ColumnFamilyMetaData.inputs (db : ColumnFamilyMetaData) (task : CompactionTask) :
    List SstFileMetaData :=
  db.allFiles.filter (·.name ∈ task.inputFileNames)

/-- The store's promises about an event. -/
def Promised (s : TreeState) : TreeEvent → Prop
  | .flush file => file.beingCompacted = false ∧ file.name ∉ s.db.fileNames
      ∧ ∀ other ∈ s.db.allFiles, AgeOrder.Newer SstFileMetaData.age file other
  | .compact task (.success outputs) => ∀ file ∈ outputs, file.beingCompacted = false
      ∧ file.name ∉ s.db.fileNames
      ∧ AgeOrder.MadeOf SstFileMetaData.age file (s.db.inputs task)
  | .compact _ (.failure status) => status ≠ .ok

instance (x y : SstFileMetaData) : Decidable (AgeOrder.Newer SstFileMetaData.age x y) :=
  decidable_of_iff (∀ s ∈ x.flushes, ∀ t ∈ y.flushes, t < s) Iff.rfl

instance (x : SstFileMetaData) (ys : List SstFileMetaData) :
    Decidable (AgeOrder.MadeOf SstFileMetaData.age x ys) :=
  decidable_of_iff (∀ s ∈ x.flushes, ∃ y ∈ ys, s ∈ y.flushes) Iff.rfl

instance (s : TreeState) : ∀ e, Decidable (Promised s e)
  | .flush _ => inferInstanceAs (Decidable (_ ∧ _))
  | .compact _ (.success outputs) => inferInstanceAs (Decidable (∀ file ∈ outputs, _))
  | .compact _ (.failure _) => inferInstanceAs (Decidable (_ ≠ _))

theorem ColumnFamilyMetaData.mem_inputs {db : ColumnFamilyMetaData} {task : CompactionTask}
    {file : SstFileMetaData} :
    file ∈ db.inputs task ↔ (∃ i, file ∈ db.filesAt i) ∧ file.name ∈ task.inputFileNames := by
  rw [inputs, List.mem_filter, mem_allFiles, decide_eq_true_eq]

/-! ## What a step can do -/

/-- The task `PickCompaction` enqueues on an idle tree. -/
structure Picked (cfg : Config) (fp : DoubleArith) (db : ColumnFamilyMetaData)
    (task : CompactionTask) : Prop where
  deepest : (fluidView cfg db).DeepestOverBound task.originLvl
  target : task.targetLvl = (fluidView cfg db).plannedTargetLvl fp task.originLvl
  inputs : task.inputFileNames
    = ((fluidView cfg db).idleFilesAt task.originLvl).map SstFileMetaData.name
  output : (fluidView cfg db).outputLvl task.originLvl task.targetLvl = some task.outputLvl

/-- No level of the store is over its bound. -/
def WithinBounds (cfg : Config) (db : ColumnFamilyMetaData) : Prop :=
  ∀ m, (fluidView cfg db).overBound (fluidView cfg db).getLargestOccupiedLevel m = false

/-- The possible steps, seen from the store and the tasks. -/
inductive TreeStep (cfg : Config) (fp : DoubleArith) (s s' : TreeState) : TreeEvent → Prop
  | rest {file : SstFileMetaData} : s.tasks = [] → s'.tasks = [] →
      s'.db = s.db.addFlushed file → WithinBounds cfg s'.db → TreeStep cfg fp s s' (.flush file)
  | schedule {file : SstFileMetaData} {task : CompactionTask} : s.tasks = [] → s'.tasks = [task] →
      s'.db = s.db.addFlushed file → Picked cfg fp s'.db task → TreeStep cfg fp s s' (.flush file)
  | overlap {file : SstFileMetaData} {task : CompactionTask} : s.tasks = [task] →
      s'.tasks = [task] → s'.db = s.db.addFlushed file → TreeStep cfg fp s s' (.flush file)
  | success {task : CompactionTask} {outputs : List SstFileMetaData} : s.tasks = [task] →
      s'.tasks = [] → task.outputLvl < s.db.numLevels →
      s'.db = s.db.replaceFiles task.inputFileNames task.outputLvl outputs →
      TreeStep cfg fp s s' (.compact task (.success outputs))
  | failure {task : CompactionTask} {status : Status} : s.tasks = [task] → s'.tasks = [] →
      s'.db = s.db → TreeStep cfg fp s s' (.compact task (.failure status))

/-- The tree object belongs to its store, and its counter counts the outstanding tasks. -/
structure Coherent (cfg : Config) (s : TreeState) : Prop where
  config : s.tree.toConfig = cfg
  levels : s.db.numLevels = cfg.options.numLevels
  cached : s.tree.lazyLevels.length = cfg.options.numLevels
  running : s.tree.parallelCompactionsRunning = s.tasks.length
  single : s.tasks.length ≤ 1

section Inversion

variable {cfg : Config} {fp : DoubleArith} {t : FluidLSM} {db : ColumnFamilyMetaData}

theorem buildStructure_of_idle (db : ColumnFamilyMetaData) (hcfg : t.toConfig = cfg)
    (ht : t.lazyLevels.length = cfg.options.numLevels) (hidle : t.parallelCompactionsRunning = 0) :
    t.buildStructure db = fluidView cfg db := by
  subst hcfg
  rw [buildStructure_eq_fluidView ht, hidle, ← @parallelCompactionsRunning_fluidView t.toConfig db]

/-- The pick on an idle tree. -/
theorem pickCompaction_idle_cases (hcfg : t.toConfig = cfg)
    (ht : t.lazyLevels.length = cfg.options.numLevels) (hidle : t.parallelCompactionsRunning = 0)
    {t' : FluidLSM} {tasks : List CompactionTask}
    (hpick : t.pickCompaction fp db = some (t', tasks)) :
    t'.toConfig = cfg ∧ t'.lazyLevels.length = cfg.options.numLevels
      ∧ (tasks = [] ∧ t'.parallelCompactionsRunning = 0 ∧ WithinBounds cfg db
        ∨ ∃ task, tasks = [task] ∧ t'.parallelCompactionsRunning = 1
            ∧ Picked cfg fp db task) := by
  have hview := buildStructure_of_idle db hcfg ht hidle
  rcases forall_or_deepestOverBound (t.buildStructure db) with hnone | ⟨lvl, hlvl⟩
  · rw [pickCompaction_of_forall fp hnone, Option.some_inj, Prod.mk.injEq] at hpick
    obtain ⟨rfl, rfl⟩ := hpick
    refine ⟨(toConfig_buildStructure _ _).trans hcfg,
      (length_lazyLevels_buildStructure _ _).trans ht, Or.inl ⟨rfl, ?_, ?_⟩⟩
    · rw [parallelCompactionsRunning_buildStructure, hidle]
    · rwa [hview] at hnone
  · obtain ⟨t'', hcfg', hrunning', hlength', hpick'⟩ := pickCompaction_of_deepest fp hidle hlvl
    rw [hpick', hview] at hpick
    obtain ⟨out, hout, heq⟩ := Option.map_eq_some_iff.mp hpick
    rw [Prod.mk.injEq] at heq
    obtain ⟨rfl, rfl⟩ := heq
    rw [hview] at hlvl
    refine ⟨hcfg'.trans hcfg, hlength'.trans ht, Or.inr ⟨_, rfl, hrunning', ?_⟩⟩
    exact {
      deepest := hlvl
      target := targetLvl_taskFor _ _ _ _
      inputs := rfl
      output := by
        rw [targetLvl_taskFor]
        exact hout }

/-- The pick on a busy tree. -/
theorem pickCompaction_busy_cases (hcfg : t.toConfig = cfg)
    (ht : t.lazyLevels.length = cfg.options.numLevels) (hbusy : t.parallelCompactionsRunning = 1)
    {t' : FluidLSM} {tasks : List CompactionTask}
    (hpick : t.pickCompaction fp db = some (t', tasks)) :
    t'.toConfig = cfg ∧ t'.lazyLevels.length = cfg.options.numLevels
      ∧ t'.parallelCompactionsRunning = 1 ∧ tasks = [] := by
  rw [pickCompaction_of_busy fp (by rw [hbusy]; decide), Option.some_inj, Prod.mk.injEq] at hpick
  obtain ⟨rfl, rfl⟩ := hpick
  exact ⟨(toConfig_buildStructure _ _).trans hcfg,
    (length_lazyLevels_buildStructure _ _).trans ht,
    (parallelCompactionsRunning_buildStructure _ _).trans hbusy, rfl⟩

/-- The rest of `CompactFiles` enqueues nothing: its pick still sees the counter at 1. -/
theorem compactFiles_cases (hcfg : t.toConfig = cfg)
    (ht : t.lazyLevels.length = cfg.options.numLevels) (hbusy : t.parallelCompactionsRunning = 1)
    {status : Status} {t' : FluidLSM} {tasks : List CompactionTask}
    (hdone : t.compactFiles fp db status = some (t', tasks)) :
    t'.toConfig = cfg ∧ t'.lazyLevels.length = cfg.options.numLevels
      ∧ t'.parallelCompactionsRunning = 0 ∧ tasks = [] := by
  rw [compactFiles] at hdone
  obtain ⟨p, hp, heq⟩ := Option.map_eq_some_iff.mp hdone
  rw [Prod.mk.injEq] at heq
  obtain ⟨rfl, rfl⟩ := heq
  split_ifs at hp
  · obtain ⟨hcfg', hlength', hrunning', htasks⟩ := pickCompaction_busy_cases hcfg ht hbusy hp
    exact ⟨hcfg', hlength', by simp [hrunning'], htasks⟩
  · obtain rfl := Option.some.inj hp
    exact ⟨hcfg, ht, by simp [hbusy], rfl⟩

theorem coherent_init (cfg : Config) : Coherent cfg (.init cfg) where
  config := rfl
  levels := by rw [TreeState.init, ColumnFamilyMetaData.numLevels_empty]
  cached := length_lazyLevels_new cfg
  running := rfl
  single := Nat.zero_le _

/-- At most one task is outstanding, so the state is idle or busy with exactly one. -/
theorem Coherent.idle_or_busy {s : TreeState} (h : Coherent cfg s) :
    s.tasks = [] ∧ s.tree.parallelCompactionsRunning = 0
      ∨ ∃ task, s.tasks = [task] ∧ s.tree.parallelCompactionsRunning = 1 := by
  rcases htasks : s.tasks with _ | ⟨task, _ | ⟨_, _⟩⟩
  · exact Or.inl ⟨rfl, by rw [h.running, htasks]; rfl⟩
  · exact Or.inr ⟨task, rfl, by rw [h.running, htasks]; rfl⟩
  · have hsingle := h.single
    rw [htasks] at hsingle
    simp at hsingle

/-- An outstanding task is the only one. -/
theorem Coherent.busy_of_mem {s : TreeState} (h : Coherent cfg s) {task : CompactionTask}
    (hmem : task ∈ s.tasks) : s.tasks = [task] ∧ s.tree.parallelCompactionsRunning = 1 := by
  rcases h.idle_or_busy with ⟨hnil, -⟩ | ⟨task', htask, hbusy⟩
  · rw [hnil] at hmem
    exact absurd hmem List.not_mem_nil
  · rw [htask, List.mem_singleton] at hmem
    exact ⟨hmem ▸ htask, hbusy⟩

/-- **The inversion of a step.** -/
theorem Coherent.step {s s' : TreeState} {e : TreeEvent} (h : Coherent cfg s)
    (hs : s.step fp e = some s') : Coherent cfg s' ∧ TreeStep cfg fp s s' e := by
  match e with
  | .flush file =>
    obtain ⟨⟨t', tasks⟩, hpick, rfl⟩ := Option.map_eq_some_iff.mp hs
    rcases h.idle_or_busy with ⟨hnil, hidle⟩ | ⟨task, htask, hbusy⟩
    · obtain ⟨hcfg', hlength', ⟨rfl, hrunning', hbounds⟩ | ⟨task, rfl, hrunning', hpicked⟩⟩ :=
        pickCompaction_idle_cases h.config h.cached hidle hpick
      · exact ⟨⟨hcfg', by simpa using h.levels, hlength', by simpa [hnil] using hrunning',
          by simp [hnil]⟩, .rest hnil (by simp [hnil]) rfl hbounds⟩
      · exact ⟨⟨hcfg', by simpa using h.levels, hlength', by simpa [hnil] using hrunning',
          by simp [hnil]⟩, .schedule hnil (by simp [hnil]) rfl hpicked⟩
    · obtain ⟨hcfg', hlength', hrunning', rfl⟩ :=
        pickCompaction_busy_cases h.config h.cached hbusy hpick
      exact ⟨⟨hcfg', by simpa using h.levels, hlength', by simpa [htask] using hrunning',
        by simp [htask]⟩, .overlap htask (by simp [htask]) rfl⟩
  | .compact task (.success outputs) =>
    simp only [TreeState.step] at hs
    split_ifs at hs with hmem
    obtain ⟨⟨t', tasks⟩, hdone, rfl⟩ := Option.map_eq_some_iff.mp hs
    obtain ⟨htask, hbusy⟩ := h.busy_of_mem hmem.1
    obtain ⟨hcfg', hlength', hrunning', rfl⟩ := compactFiles_cases h.config h.cached hbusy hdone
    exact ⟨⟨hcfg', by simpa using h.levels, hlength', by simpa [htask] using hrunning',
      by simp [htask]⟩, .success htask (by simp [htask]) hmem.2 rfl⟩
  | .compact task (.failure status) =>
    simp only [TreeState.step] at hs
    split_ifs at hs with hmem
    obtain ⟨⟨t', tasks⟩, hdone, rfl⟩ := Option.map_eq_some_iff.mp hs
    obtain ⟨htask, hbusy⟩ := h.busy_of_mem hmem
    obtain ⟨hcfg', hlength', hrunning', rfl⟩ := compactFiles_cases h.config h.cached hbusy hdone
    exact ⟨⟨hcfg', h.levels, hlength', by simpa [htask] using hrunning', by simp [htask]⟩,
      .failure htask (by simp [htask]) rfl⟩

end Inversion

end WorkloadAwareCompaction
