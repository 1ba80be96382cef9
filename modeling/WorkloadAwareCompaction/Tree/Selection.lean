import WorkloadAwareCompaction.Tree.Addressing
import WorkloadAwareCompaction.Tree.Bytes

/-!
# What `PickCompaction` selects

The specification of a whole `PickCompaction` call, in terms of the metadata alone and for files in
any state. It counts runs that are not empty and hold no marked file (`liveRuns`), compares their
number with `K` or `Z` (`OverFull`), and describes the one task that may be enqueued
(`SelectedTask`): the idle files of the deepest over-full level, rewritten in place when they fit
the capacity of the level, and promoted into the next one otherwise.

The source computes this as long as its size test is right (`selects_iff`). The test sees the idle
bytes modulo `2 ^ 64`, as a `long`; a level whose bytes wrap below its capacity is rewritten in place
although it should be promoted. The view that `BuildStructure` caches does not occur in the
specification; the first half of this file reads it off the view.
-/

namespace WorkloadAwareCompaction

open FluidLSM ColumnFamilyMetaData MachineInt

/-! ## The specification -/

/-- A run that is not empty and holds no file that is being compacted. -/
def IsLive (files : List SstFileMetaData) : Prop :=
  files ≠ [] ∧ ∀ file ∈ files, file.beingCompacted = false

instance : DecidablePred IsLive := fun _ ↦ inferInstanceAs (Decidable (_ ∧ _))

/-- The sorted runs of a fluid level: its store levels, and for level 0 also every file of store
level 0. -/
def levelRuns (cfg : Config) (db : ColumnFamilyMetaData) (l : ℕ) : List (List SstFileMetaData) :=
  (if l = 0 then (db.filesAt 0).map fun file ↦ [file] else [])
    ++ ((List.range' 1 (db.numLevels - 1)).filter (cfg.fluidLvl · = l)).map db.filesAt

def liveRuns (cfg : Config) (db : ColumnFamilyMetaData) (l : ℕ) : List (List SstFileMetaData) :=
  (levelRuns cfg db l).filter IsLive

/-- The largest fluid level that holds a file, 0 in an empty store. -/
def largestOccupied (cfg : Config) (db : ColumnFamilyMetaData) : ℕ :=
  (((List.range db.numLevels).filter (db.filesAt · ≠ [])).map cfg.fluidLvl).foldr max 0

/-- The level holds more live runs than `K`, or than `Z` if it is the largest occupied one. -/
def OverFull (cfg : Config) (db : ColumnFamilyMetaData) (l : ℕ) : Prop :=
  l < largestOccupied cfg db ∧ cfg.smallerLvlRunsCount < (liveRuns cfg db l).length
    ∨ l = largestOccupied cfg db ∧ cfg.largerLvlRunsCount < (liveRuns cfg db l).length

instance (cfg : Config) (db : ColumnFamilyMetaData) : DecidablePred (OverFull cfg db) :=
  fun _ ↦ inferInstanceAs (Decidable (_ ∨ _))

structure DeepestOverFull (cfg : Config) (db : ColumnFamilyMetaData) (l : ℕ) : Prop where
  overFull : OverFull cfg db l
  deepest : ∀ m, l < m → ¬OverFull cfg db m

theorem OverFull.le_largestOccupied {cfg : Config} {db : ColumnFamilyMetaData} {l : ℕ}
    (h : OverFull cfg db l) : l ≤ largestOccupied cfg db := by
  rcases h with ⟨hlt, -⟩ | ⟨heq, -⟩
  · exact hlt.le
  · exact heq.le

/-- Where a level is over-full, one is the deepest. -/
theorem exists_deepestOverFull {cfg : Config} {db : ColumnFamilyMetaData}
    (h : ∃ l, OverFull cfg db l) : ∃ l, DeepestOverFull cfg db l := by
  obtain ⟨l, hl⟩ := h
  refine ⟨Nat.findGreatest (OverFull cfg db) (largestOccupied cfg db),
    Nat.findGreatest_spec hl.le_largestOccupied hl, fun m hm hover ↦ ?_⟩
  exact absurd (Nat.le_findGreatest hover.le_largestOccupied hover) (not_le.mpr hm)

theorem DeepestOverFull.unique {cfg : Config} {db : ColumnFamilyMetaData} {l m : ℕ}
    (h : DeepestOverFull cfg db l) (h' : DeepestOverFull cfg db m) : l = m := by
  rcases Nat.lt_trichotomy l m with hlt | heq | hgt
  · exact absurd h'.overFull (h.deepest m hlt)
  · exact heq
  · exact absurd h.overFull (h'.deepest l hgt)

instance (cfg : Config) (db : ColumnFamilyMetaData) : DecidablePred (DeepestOverFull cfg db) :=
  fun l ↦ decidable_of_iff
    (OverFull cfg db l ∧ ∀ m < largestOccupied cfg db + 1, l < m → ¬OverFull cfg db m)
    ⟨fun h ↦ ⟨h.1, fun m hm hover ↦
        h.2 m (Nat.lt_succ_of_le hover.le_largestOccupied) hm hover⟩,
      fun h ↦ ⟨h.overFull, fun m _ ↦ h.deepest m⟩⟩

/-- The files of a fluid level that are not being compacted. -/
def idleFiles (cfg : Config) (db : ColumnFamilyMetaData) (l : ℕ) : List SstFileMetaData :=
  (((List.range db.numLevels).filter (cfg.fluidLvl · = l)).flatMap db.filesAt).filter
    fun file ↦ !file.beingCompacted

/-- The deepest over-full level, and its idle files outgrow its capacity. -/
def Promoted (cfg : Config) (db : ColumnFamilyMetaData) (l : ℕ) : Prop :=
  DeepestOverFull cfg db l ∧ cfg.capacity l < totalBytes (idleFiles cfg db l)

/-- The store level of the deepest empty slot of a level, or of its last slot when none is empty.
Slot `K - k` is store level `1 + l * (K + 1) - k`. -/
def DeepestEmptySlot (cfg : Config) (db : ColumnFamilyMetaData) (l level : ℕ) : Prop :=
  (∃ k ≤ cfg.smallerLvlRunsCount, level = cfg.rocksDBLvl l k ∧ db.filesAt level = []
      ∧ ∀ j < k, db.filesAt (cfg.rocksDBLvl l j) ≠ [])
    ∨ level = cfg.rocksDBLvl l 0
      ∧ ∀ k ≤ cfg.smallerLvlRunsCount, db.filesAt (cfg.rocksDBLvl l k) ≠ []

structure SelectedTask (cfg : Config) (db : ColumnFamilyMetaData) (task : CompactionTask) :
    Prop where
  origin : DeepestOverFull cfg db task.originLvl
  /-- Every idle file of the level is named once. -/
  inputs : task.inputFileNames = (idleFiles cfg db task.originLvl).map SstFileMetaData.name
  stay : totalBytes (idleFiles cfg db task.originLvl) ≤ cfg.capacity task.originLvl →
    task.outputLvl = 1 + task.originLvl * (cfg.smallerLvlRunsCount + 1)
  promote : cfg.capacity task.originLvl < totalBytes (idleFiles cfg db task.originLvl) →
    DeepestEmptySlot cfg db (task.originLvl + 1) task.outputLvl

/-- What a call of `PickCompaction` is meant to do, for every count of running compactions. An idle
tree enqueues the selected task if a level is over-full; otherwise nothing is enqueued. -/
def Selects (t : FluidLSM) (db : ColumnFamilyMetaData) : Prop :=
  ∃ t' tasks, t.pickCompaction .exact db = some (t', tasks)
    ∧ t'.parallelCompactionsRunning = t.parallelCompactionsRunning + tasks.length
    ∧ (t.parallelCompactionsRunning = 0 ∧ (∃ l, OverFull t.toConfig db l) →
        ∃ task, tasks = [task] ∧ SelectedTask t.toConfig db task)
    ∧ (¬(t.parallelCompactionsRunning = 0 ∧ ∃ l, OverFull t.toConfig db l) → tasks = [])

/-! ## Reading it off the view -/

/-- The live runs of a level of the view, as file lists. -/
theorem numLiveRunsAt_eq_length (t : FluidLSM) (l : ℕ) :
    t.numLiveRunsAt l = (((t.runsAt l).map Run.files).filter IsLive).length := by
  have hlive : ∀ run ∈ t.runsAt l,
      (run.isLive = true ↔ decide (IsLive run.files) = true) := fun run _ ↦ by
    rw [Run.isLive_iff, decide_eq_true_eq, IsLive]
  rw [numLiveRunsAt_eq, List.countP_congr hlive, ← List.countP_eq_length_filter, List.countP_map]
  rfl

section

variable {cfg : Config} {db : ColumnFamilyMetaData} (hdb : 2 ≤ db.numLevels)
  (hcfg : db.numLevels = cfg.options.numLevels)

include hdb hcfg

/-- Up to the padding, the runs of the view are those of the metadata. -/
theorem filter_isLive_runsAt_fluidView (l : ℕ) :
    (((fluidView cfg db).runsAt l).map Run.files).filter IsLive = liveRuns cfg db l := by
  have hpad : ∀ ns : List ℕ, (ns.map fun _ ↦ ([] : List SstFileMetaData)).filter IsLive = [] :=
    fun ns ↦ List.filter_eq_nil_iff.mpr fun files hfiles ↦ by
      obtain ⟨_, -, rfl⟩ := List.mem_map.mp hfiles
      simp [IsLive]
  rw [liveRuns, levelRuns, filter_range'_one hdb]
  rcases Nat.eq_zero_or_pos l with rfl | hl
  · rw [runsAt_fluidView_zero hdb hcfg, topRuns, if_pos rfl, if_pos rfl, slots_zero,
      List.append_nil]
    simp only [List.map_append, List.map_map, Function.comp_def, Run.files_ofFiles, List.map_cons,
      List.map_nil, List.filter_append, hpad, List.nil_append]
  · rw [runsAt_fluidView_pos hdb hcfg hl, if_neg hl.ne', if_neg hl.ne', List.nil_append,
      List.nil_append]
    simp only [List.map_map, Function.comp_def, Run.files_ofFiles]

theorem numLiveRunsAt_fluidView_eq (l : ℕ) :
    (fluidView cfg db).numLiveRunsAt l = (liveRuns cfg db l).length := by
  rw [numLiveRunsAt_eq_length, filter_isLive_runsAt_fluidView hdb hcfg]

theorem getLargestOccupiedLevel_fluidView :
    (fluidView cfg db).getLargestOccupiedLevel = largestOccupied cfg db := by
  refine le_antisymm ?_ (List.max_le_of_forall_le _ _ fun l hl ↦ ?_)
  · by_cases hzero : (fluidView cfg db).getLargestOccupiedLevel = 0
    · rw [hzero]
      exact Nat.zero_le _
    · obtain ⟨i, hi, hne⟩ := exists_fluidLvl_eq_largest hdb hcfg hzero
      obtain ⟨file, hfile⟩ := List.exists_mem_of_ne_nil _ hne
      have hmem : i ∈ (List.range db.numLevels).filter (db.filesAt · ≠ []) :=
        List.mem_filter.mpr ⟨List.mem_range.mpr (lt_numLevels_of_mem hfile), by simpa using hne⟩
      exact List.le_max_of_le (List.mem_map_of_mem hmem) hi.ge
  · obtain ⟨i, hi, rfl⟩ := List.mem_map.mp hl
    exact fluidLvl_le_largest hdb hcfg (by simpa using (List.mem_filter.mp hi).2)

theorem overBound_fluidView_iff (l : ℕ) :
    (fluidView cfg db).overBound (fluidView cfg db).getLargestOccupiedLevel l = true
      ↔ OverFull cfg db l := by
  rw [overBound_eq_true, getLargestOccupiedLevel_fluidView hdb hcfg,
    numLiveRunsAt_fluidView_eq hdb hcfg, toConfig_fluidView, OverFull]

theorem deepestOverBound_fluidView_iff (l : ℕ) :
    (fluidView cfg db).DeepestOverBound l ↔ DeepestOverFull cfg db l := by
  have hover := overBound_fluidView_iff hdb hcfg
  constructor
  · rintro ⟨hl, hdeepest⟩
    exact ⟨(hover l).mp hl, fun m hm h ↦ absurd ((hover m).mpr h) (by rw [hdeepest m hm]; decide)⟩
  · rintro ⟨hl, hdeepest⟩
    exact ⟨(hover l).mpr hl, fun m hm ↦
      eq_false_of_ne_true fun h ↦ hdeepest m hm ((hover m).mp h)⟩

theorem idleFilesAt_fluidView_eq (l : ℕ) :
    (fluidView cfg db).idleFilesAt l = idleFiles cfg db l := by
  rw [idleFilesAt, files_fluidView hdb hcfg, idleFiles]

/-- The size test, with an exact capacity. -/
theorem plannedTargetLvl_fluidView (hT : 1 ≤ cfg.sizeRatio) (l : ℕ) :
    (fluidView cfg db).plannedTargetLvl .exact l
      = if (cfg.capacity l : ℤ) < IntType.long.wrap (totalBytes (idleFiles cfg db l))
        then l + 1 else l := by
  rw [plannedTargetLvl, toConfig_fluidView, Config.originLvlCapacity_exact hT, ← totalBytes,
    idleFilesAt_fluidView_eq hdb hcfg]

variable {task : CompactionTask}

/-- **A picked task is the selected one** if the size test is right. -/
theorem Picked.selectedTask (h : Picked cfg .exact db task) (hT : 1 ≤ cfg.sizeRatio)
    (hright : cfg.SizeTestRight task.originLvl (totalBytes (idleFiles cfg db task.originLvl))) :
    SelectedTask cfg db task := by
  have htarget := h.target
  rw [plannedTargetLvl_fluidView hdb hcfg hT] at htarget
  simp only [hright.lt_wrap_iff] at htarget
  refine ⟨(deepestOverBound_fluidView_iff hdb hcfg _).mp h.deepest, ?_, fun hfits ↦ ?_,
    fun hsize ↦ ?_⟩
  · rw [h.inputs, idleFilesAt_fluidView_eq hdb hcfg]
  · rw [if_neg (not_lt.mpr hfits)] at htarget
    have hout := h.output
    rw [outputLvl, htarget, if_neg (lt_irrefl _), toConfig_fluidView] at hout
    exact (Option.some.inj hout).symm
  · rw [if_pos hsize] at htarget
    have hpos : 0 < task.originLvl + 1 := Nat.succ_pos _
    rcases h.landing_of_levels hdb hcfg with
      ⟨hstay, -⟩ | ⟨-, hlvl, -, hnil, hdeep⟩ | ⟨-, hout, hfull⟩
    · omega
    · rw [htarget] at hlvl hdeep
      obtain ⟨k, hk, hout⟩ := (Config.fluidLvl_eq_iff hpos).mp hlvl
      refine Or.inl ⟨k, hk, hout, hnil, fun j hj ↦ hdeep _ ?_ ?_⟩
      · have := Config.rocksDBLvl_add cfg hpos hk
        have := Config.rocksDBLvl_add cfg hpos (hj.le.trans hk)
        omega
      · exact Config.fluidLvl_rocksDBLvl hpos (hj.le.trans hk)
    · rw [htarget] at hout hfull
      exact Or.inr ⟨hout, fun k hk ↦ hfull _ (Config.fluidLvl_rocksDBLvl hpos hk)⟩

/-- A picked task is not the selected one if the size test is wrong: it is addressed to the level
whose bytes have wrapped, and not to the next one. -/
theorem Picked.sizeTestRight (h : Picked cfg .exact db task) (hT : 1 ≤ cfg.sizeRatio)
    (hselected : SelectedTask cfg db task) :
    cfg.SizeTestRight task.originLvl (totalBytes (idleFiles cfg db task.originLvl)) := by
  intro hsize
  by_contra hwrong
  have hpos : 0 < task.originLvl + 1 := Nat.succ_pos _
  have htarget := h.target
  rw [plannedTargetLvl_fluidView hdb hcfg hT, if_neg hwrong] at htarget
  have hout := h.output
  rw [outputLvl, htarget, if_neg (lt_irrefl _), toConfig_fluidView, Option.some_inj] at hout
  have hstay : cfg.fluidLvl task.outputLvl = task.originLvl := by
    rw [← hout, Config.fluidLvl_rocksDBLvl_zero]
  have hnext : cfg.fluidLvl task.outputLvl = task.originLvl + 1 := by
    rcases hselected.promote hsize with ⟨k, hk, hlevel, -⟩ | ⟨hlevel, -⟩
    · rw [hlevel, Config.fluidLvl_rocksDBLvl hpos hk]
    · rw [hlevel, Config.fluidLvl_rocksDBLvl_zero]
  omega

/-- Where the slots of the next level exist, the slot search succeeds. -/
theorem exists_outputLvl_fluidView (hT : 1 ≤ cfg.sizeRatio) {l : ℕ}
    (hslots : cfg.capacity l < totalBytes (idleFiles cfg db l) →
      cfg.rocksDBLvl (l + 1) 0 < db.numLevels) :
    ∃ out, (fluidView cfg db).outputLvl l ((fluidView cfg db).plannedTargetLvl .exact l)
      = some out := by
  rw [plannedTargetLvl_fluidView hdb hcfg hT]
  split_ifs with hpromoted
  · have hsize := lt_of_lt_wrap hpromoted
    have ht : (FluidLSM.new cfg).lazyLevels.length = db.numLevels :=
      (length_lazyLevels_new cfg).trans hcfg.symm
    obtain ⟨out, hout, -⟩ := (outputLvl_lt_iff hdb ht (Or.inr rfl)).mpr (hslots hsize)
    exact ⟨out, hout⟩
  · exact ⟨_, by rw [outputLvl, if_neg (lt_irrefl _)]⟩

end

/-! ## The call -/

section

variable {t : FluidLSM} {db : ColumnFamilyMetaData} (hdb : 2 ≤ db.numLevels)
  (hlevels : db.numLevels = t.options.numLevels)
  (hcached : t.lazyLevels.length = t.options.numLevels)

include hdb hlevels hcached

/-- On a busy tree, and where no level is over-full, nothing is enqueued. -/
theorem selects_of_not (hrunning : 0 ≤ t.parallelCompactionsRunning)
    (h : ¬(t.parallelCompactionsRunning = 0 ∧ ∃ l, OverFull t.toConfig db l)) : Selects t db := by
  have hpick : t.pickCompaction .exact db = some (t.buildStructure db, []) := by
    by_cases hidle : t.parallelCompactionsRunning = 0
    · refine pickCompaction_of_forall .exact fun l ↦ eq_false_of_ne_true fun hl ↦ h ⟨hidle, l, ?_⟩
      rwa [buildStructure_of_idle db rfl hcached hidle, overBound_fluidView_iff hdb hlevels] at hl
    · refine pickCompaction_of_busy .exact ?_
      rw [parallelCompactionsAllowed]
      omega
  refine ⟨_, [], hpick, ?_, fun h' ↦ absurd h' h, fun _ ↦ rfl⟩
  rw [parallelCompactionsRunning_buildStructure, List.length_nil, Nat.cast_zero, add_zero]

/-- On an idle tree the call enqueues one task, picked on the deepest over-full level. -/
theorem exists_pickCompaction_of_deepestOverFull (hT : 1 ≤ t.sizeRatio)
    (hidle : t.parallelCompactionsRunning = 0) {l : ℕ} (hl : DeepestOverFull t.toConfig db l)
    (hslots : t.capacity l < totalBytes (idleFiles t.toConfig db l) →
      t.rocksDBLvl (l + 1) 0 < db.numLevels) :
    ∃ t' task, t.pickCompaction .exact db = some (t', [task]) ∧ t'.parallelCompactionsRunning = 1
      ∧ Picked t.toConfig .exact db task ∧ task.originLvl = l := by
  have hview := buildStructure_of_idle db rfl hcached hidle
  have hdeepest := hl
  rw [← deepestOverBound_fluidView_iff hdb hlevels, ← hview] at hdeepest
  obtain ⟨out, hout⟩ := exists_outputLvl_fluidView hdb hlevels hT hslots
  obtain ⟨t', -, hrunning', -, hpick⟩ := pickCompaction_of_deepest .exact hidle hdeepest
  rw [hview, hout, Option.map_some] at hpick
  obtain ⟨-, -, ⟨htasks, -⟩ | ⟨task, htasks, -, hpicked⟩⟩ :=
    pickCompaction_idle_cases rfl hcached hidle hpick
  · exact absurd htasks (by simp)
  · refine ⟨t', task, htasks ▸ hpick, hrunning', hpicked, ?_⟩
    exact ((deepestOverBound_fluidView_iff hdb hlevels _).mp hpicked.deepest).unique hl

/-- **When `PickCompaction` does what it is meant to**, for every metadata and every count of running
compactions: on an idle tree the size test of the deepest over-full level has to be right. -/
theorem selects_iff (hT : 2 ≤ t.sizeRatio) (hrunning : 0 ≤ t.parallelCompactionsRunning)
    (hslots : t.parallelCompactionsRunning = 0 → ∀ l, Promoted t.toConfig db l →
      ∀ k ≤ t.smallerLvlRunsCount, t.rocksDBLvl (l + 1) k < db.numLevels) :
    Selects t db ↔ (t.parallelCompactionsRunning = 0 → ∀ l, DeepestOverFull t.toConfig db l →
      t.SizeTestRight l (totalBytes (idleFiles t.toConfig db l))) := by
  have hpick (hidle : t.parallelCompactionsRunning = 0) {l : ℕ}
      (hl : DeepestOverFull t.toConfig db l) :=
    exists_pickCompaction_of_deepestOverFull hdb hlevels hcached (by omega) hidle hl
      fun hsize ↦ hslots hidle l ⟨hl, hsize⟩ 0 (Nat.zero_le _)
  constructor
  · rintro ⟨t', tasks, htasks, -, hselects, -⟩ hidle l hl
    obtain ⟨task, rfl, hselected⟩ := hselects ⟨hidle, l, hl.overFull⟩
    obtain ⟨_, task', hpick', -, hpicked, rfl⟩ := hpick hidle hl
    rw [htasks, Option.some_inj, Prod.mk.injEq, List.singleton_inj] at hpick'
    obtain ⟨-, rfl⟩ := hpick'
    exact hpicked.sizeTestRight hdb hlevels (by omega) hselected
  · intro hright
    by_cases hover : t.parallelCompactionsRunning = 0 ∧ ∃ l, OverFull t.toConfig db l
    · obtain ⟨hidle, hover⟩ := hover
      obtain ⟨l, hl⟩ := exists_deepestOverFull hover
      obtain ⟨t', task, hpick', hrunning', hpicked, rfl⟩ := hpick hidle hl
      have hselected := hpicked.selectedTask hdb hlevels (by omega) (hright hidle _ hl)
      refine ⟨t', [task], hpick', ?_, fun _ ↦ ⟨task, rfl, hselected⟩,
        fun h ↦ absurd ⟨hidle, hover⟩ h⟩
      rw [hrunning', hidle, List.length_singleton]
      rfl
    · exact selects_of_not hdb hlevels hcached hrunning hover

end

/-- Level 0 holds two idle files around one that is being compacted. -/
def markedStore : ColumnFamilyMetaData :=
  .ofFiles [[.flushed "c" 5 2, ⟨"b", 5, true, {1}⟩, .flushed "a" 5 0], [], [], []]

/-- The two idle files are promoted. -/
theorem selects_small : Selects (.new (.small 1 1 4)) markedStore := by
  have hzero {l : ℕ} (hl : DeepestOverFull (.small 1 1 4) markedStore l) : l = 0 := by
    have hle := hl.overFull.le_largestOccupied
    rwa [show largestOccupied (.small 1 1 4) markedStore = 0 by decide +kernel, Nat.le_zero] at hle
  have hslots : ∀ l, Promoted (.small 1 1 4) markedStore l →
      ∀ k ≤ 1, (Config.small 1 1 4).rocksDBLvl (l + 1) k < markedStore.numLevels := by
    intro l hl
    obtain rfl := hzero hl.1
    decide +kernel
  refine (selects_iff (by decide) (by decide) (by decide) (by decide) le_rfl fun _ ↦ hslots).mpr
    fun _ l hl ↦ ?_
  obtain rfl := hzero hl
  decide +kernel

/-- Two idle files of `2 ^ 62` bytes: their total is the least `long`, and they are rewritten on level
0 although they exceed its capacity of one byte. -/
theorem not_selects_small : ¬Selects (.new (.small 1 1 4))
    (.ofFiles [[.flushed "b" (2 ^ 62) 1, .flushed "a" (2 ^ 62) 0], [], [], []]) := by
  set db : ColumnFamilyMetaData :=
    .ofFiles [[.flushed "b" (2 ^ 62) 1, .flushed "a" (2 ^ 62) 0], [], [], []] with hdb
  rintro ⟨t', tasks, hpick, -, hselects, -⟩
  obtain ⟨task, rfl, hselected⟩ := hselects ⟨rfl, 0, by rw [hdb]; decide +kernel⟩
  have houts : ((FluidLSM.new (.small 1 1 4)).pickCompaction .exact db).map
      (·.2.map fun task ↦ (task.originLvl, task.outputLvl)) = some [(0, 1)] := by
    rw [hdb]
    decide +kernel
  rw [hpick] at houts
  obtain ⟨horigin, hout⟩ := Prod.mk.inj (List.singleton_inj.mp (Option.some.inj houts))
  have hpromote := hselected.promote (by rw [horigin, hdb]; decide +kernel)
  rw [horigin, hout] at hpromote
  rcases hpromote with ⟨k, hk, hlevel, -⟩ | ⟨hlevel, -⟩
  · rw [Config.rocksDBLvl] at hlevel
    have hk : k ≤ 1 := hk
    change 1 = 1 + (0 + 1) * (1 + 1) - k at hlevel
    omega
  · exact absurd hlevel (by decide)

end WorkloadAwareCompaction
