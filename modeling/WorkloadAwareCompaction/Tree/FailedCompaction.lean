import WorkloadAwareCompaction.Tree.System

/-!
# A compaction that fails

Scheduling a task marks its inputs in the cached view, through the pointers into it, and raises the
counter. When the store's `CompactFiles` fails, nothing takes the marks back one by one. They go
with the view: every `PickCompaction` rebuilds it from the store before it looks at a file, so what
a pick does depends on the options, the counter and the metadata alone
(`pickCompaction_eq_of_idle`). The counter is lowered on both paths of `FluidLSM::CompactFiles`,
after an IO error and after any other status.

## What the store shows meanwhile

While its call runs, the store sets marks of its own, and it clears them when the call fails;
flushes add files. None of it matters here, so every pick may see a store of its own: `flushTo` and
`failTo` take the metadata they leave behind as an argument. `TreeState.step` is the case in which a
flush adds one file and a failure leaves everything as it was.
-/

namespace WorkloadAwareCompaction

open FluidLSM

namespace TreeState

/-- A flush that leaves the store with this metadata. -/
def flushTo (fp : DoubleArith) (s : TreeState) (db : ColumnFamilyMetaData) : Option TreeState :=
  (s.tree.onFlushCompleted fp db).map fun p ↦ ⟨db, p.1, s.tasks ++ p.2⟩

/-- A `CompactFiles` call that fails and leaves the store with this metadata. -/
def failTo (fp : DoubleArith) (s : TreeState) (task : CompactionTask) (status : Status)
    (db : ColumnFamilyMetaData) : Option TreeState :=
  if task ∈ s.tasks then
    (s.tree.compactFiles fp db status).map fun p ↦ ⟨db, p.1, s.tasks.erase task ++ p.2⟩
  else none

theorem step_flush (fp : DoubleArith) (s : TreeState) (file : SstFileMetaData) :
    s.step fp (.flush file) = s.flushTo fp (s.db.addFlushed file) := rfl

theorem step_failure (fp : DoubleArith) (s : TreeState) (task : CompactionTask) (status : Status) :
    s.step fp (.compact task (.failure status)) = s.failTo fp task status s.db := rfl

end TreeState

/-- A tree of this configuration with one task outstanding, and nothing more. -/
structure Outstanding (cfg : Config) (task : CompactionTask) (s : TreeState) : Prop where
  config : s.tree.toConfig = cfg
  cached : s.tree.lazyLevels.length = cfg.options.numLevels
  running : s.tree.parallelCompactionsRunning = 1
  tasks : s.tasks = [task]

section

variable {cfg : Config} {s : TreeState} {task : CompactionTask} (fp : DoubleArith)

/-- Its picks rebuild the view, and enqueue nothing. -/
theorem Outstanding.pickCompaction_eq (h : Outstanding cfg task s) (db : ColumnFamilyMetaData) :
    s.tree.pickCompaction fp db = some (s.tree.buildStructure db, []) :=
  pickCompaction_of_busy fp (by rw [h.running]; decide)

/-- A flush leaves the outstanding task alone. -/
theorem Outstanding.flushTo (h : Outstanding cfg task s) (db : ColumnFamilyMetaData) :
    ∃ s', s.flushTo fp db = some s' ∧ Outstanding cfg task s' := by
  refine ⟨⟨db, s.tree.buildStructure db, s.tasks ++ []⟩, ?_, ?_⟩
  · rw [TreeState.flushTo, onFlushCompleted, h.pickCompaction_eq]
    rfl
  · obtain ⟨hcfg, hlength, hrunning, -⟩ :=
      pickCompaction_busy_cases h.config h.cached h.running (h.pickCompaction_eq fp db)
    exact ⟨hcfg, hlength, hrunning, by rw [List.append_nil, h.tasks]⟩

/-- So does any number of flushes. -/
theorem Outstanding.foldlM_flushTo (h : Outstanding cfg task s) (seen : List ColumnFamilyMetaData) :
    ∃ s', seen.foldlM (TreeState.flushTo fp) s = some s' ∧ Outstanding cfg task s' := by
  induction seen generalizing s with
  | nil => exact ⟨s, rfl, h⟩
  | cons db seen ih =>
    obtain ⟨s₁, hs₁, h₁⟩ := h.flushTo fp db
    obtain ⟨s₂, hs₂, h₂⟩ := ih h₁
    refine ⟨s₂, ?_, h₂⟩
    rw [List.foldlM_cons, hs₁]
    exact hs₂

/-- The end of the failed call: the counter is back at 0 and no task is left. -/
theorem Outstanding.failTo (h : Outstanding cfg task s) (status : Status)
    (db : ColumnFamilyMetaData) :
    ∃ s', s.failTo fp task status db = some s' ∧ s'.db = db ∧ s'.tree.toConfig = cfg
      ∧ s'.tree.lazyLevels.length = cfg.options.numLevels
      ∧ s'.tree.parallelCompactionsRunning = 0 ∧ s'.tasks = [] := by
  obtain ⟨⟨t', tasks⟩, hdone⟩ : ∃ p, s.tree.compactFiles fp db status = some p := by
    rw [compactFiles]
    split_ifs
    · exact ⟨_, by rw [h.pickCompaction_eq, Option.map_some]⟩
    · exact ⟨_, Option.map_some _ _⟩
  obtain ⟨hcfg, hlength, hrunning, rfl⟩ := compactFiles_cases h.config h.cached h.running hdone
  refine ⟨⟨db, t', s.tasks.erase task ++ []⟩, ?_, rfl, hcfg, hlength, hrunning, ?_⟩
  · rw [TreeState.failTo, if_pos (by rw [h.tasks]; exact List.mem_singleton_self _), hdone]
    rfl
  · rw [List.append_nil, h.tasks, List.erase_cons_head]

/-- What a pick on an idle tree does depends on its options and the metadata alone. -/
theorem pickCompaction_eq_of_idle {t : FluidLSM} (hcfg : t.toConfig = cfg)
    (hcached : t.lazyLevels.length = cfg.options.numLevels)
    (hidle : t.parallelCompactionsRunning = 0) (db : ColumnFamilyMetaData) :
    t.pickCompaction fp db = (FluidLSM.new cfg).pickCompaction fp db := by
  rw [pickCompaction, pickCompaction, buildStructure_of_idle db hcfg hcached hidle, fluidView]

/-- **A failed compaction leaves no trace.** After any flushes and any failure, the counter is at 0,
no task is outstanding, and the next pick enqueues what that of a new tree would. -/
theorem noTrace_of_failure {t : FluidLSM}
    (hcached : s.tree.lazyLevels.length = s.tree.options.numLevels)
    (hidle : s.tree.parallelCompactionsRunning = 0) (htasks : s.tasks = [])
    (hpick : s.tree.pickCompaction fp s.db = some (t, [task])) (seen : List ColumnFamilyMetaData)
    (status : Status) (db : ColumnFamilyMetaData) :
    ∃ s₁ s₂, seen.foldlM (TreeState.flushTo fp) ⟨s.db, t, s.tasks ++ [task]⟩ = some s₁
      ∧ s₁.failTo fp task status db = some s₂
      ∧ s₂.db = db ∧ s₂.tree.parallelCompactionsRunning = 0 ∧ s₂.tasks = []
      ∧ (s₂.tree.pickCompaction fp s₂.db).map Prod.snd
        = ((FluidLSM.new s.tree.toConfig).pickCompaction fp s₂.db).map Prod.snd := by
  obtain ⟨hcfg, hlength, ⟨hnil, -⟩ | ⟨_, -, hrunning, -⟩⟩ :=
    pickCompaction_idle_cases rfl hcached hidle hpick
  · exact absurd hnil (by simp)
  · have hstart : Outstanding s.tree.toConfig task ⟨s.db, t, s.tasks ++ [task]⟩ :=
      ⟨hcfg, hlength, hrunning, by rw [htasks, List.nil_append]⟩
    obtain ⟨s₁, hs₁, h₁⟩ := hstart.foldlM_flushTo fp seen
    obtain ⟨s₂, hs₂, hdb, hcfg', hlength', hrunning', htasks'⟩ := h₁.failTo fp status db
    refine ⟨s₁, s₂, hs₁, hs₂, hdb, hrunning', htasks', ?_⟩
    rw [pickCompaction_eq_of_idle fp hcfg' hlength' hrunning']

end

/-- A store whose level 0 holds two flushed files, marked or not, under the given newer ones. -/
def pairUnder (newer : List SstFileMetaData) (beingCompacted : Bool) : ColumnFamilyMetaData :=
  .ofFiles [newer ++ [⟨"b", 1, beingCompacted, {1}⟩, ⟨"a", 1, beingCompacted, {0}⟩], [], [], []]

/-- The two files are picked; a flush arrives while the store marks them, and the call ends with an
IO error. -/
theorem noTrace_of_failure_small :
    ∃ t task s₁ s₂,
      (FluidLSM.new (.small 1 1 4)).pickCompaction .exact (pairUnder [] false) = some (t, [task])
      ∧ [pairUnder [.flushed "c" 1 2] true].foldlM (TreeState.flushTo .exact)
          ⟨pairUnder [] false, t, [task]⟩ = some s₁
      ∧ s₁.failTo .exact task .ioError (pairUnder [.flushed "c" 1 2] false) = some s₂
      ∧ s₂.tree.parallelCompactionsRunning = 0
      ∧ (s₂.tree.pickCompaction .exact s₂.db).map Prod.snd
        = ((FluidLSM.new (.small 1 1 4)).pickCompaction .exact s₂.db).map Prod.snd := by
  have hlength : ((FluidLSM.new (.small 1 1 4)).pickCompaction .exact (pairUnder [] false)).map
      (·.2.length) = some 1 := by decide +kernel
  obtain ⟨⟨t, tasks⟩, hpick, hone⟩ := Option.map_eq_some_iff.mp hlength
  obtain ⟨task, rfl⟩ := List.length_eq_one_iff.mp hone
  obtain ⟨s₁, s₂, hs₁, hs₂, -, hrunning, -, hnext⟩ := noTrace_of_failure .exact
    (s := ⟨pairUnder [] false, .new (.small 1 1 4), []⟩) (by decide) rfl rfl hpick
    [pairUnder [.flushed "c" 1 2] true] .ioError (pairUnder [.flushed "c" 1 2] false)
  exact ⟨t, task, s₁, s₂, hpick, hs₁, hs₂, hrunning, hnext⟩

end WorkloadAwareCompaction
