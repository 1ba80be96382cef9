import WorkloadAwareCompaction.Tree.Structure

/-!
# Picking and scheduling a compaction

`PickCompaction` rebuilds the view and walks the levels from the largest occupied one down to level
0. A level is over its bound when it holds more live runs than `K`, or than `Z` for the largest
level. For such a level it collects pointers to the files that are not being compacted, lets their
total size decide between the level itself and the next one, and hands both to
`ScheduleCompaction`, which looks for the deepest empty slot of a deeper target, marks the files
through the pointers, raises the counter and enqueues a task.

An access outside a vector is undefined behaviour in the source. Every function that can make one
returns an `Option`, and `none` stands for it.

The walk goes on after a task has been enqueued, but the counter suppresses every later one. So the
whole function is determined by the deepest level over its bound (`pickCompaction_of_deepest`), and
does nothing but rebuild when there is none or when a compaction is under way
(`pickCompaction_of_forall`, `pickCompaction_of_busy`).
-/

namespace WorkloadAwareCompaction

open MachineInt

/-- An `SstFileMetaData*` into `lazy_levels_`: level, run, and file, by position. -/
structure FilePtr where
  lvl : ℕ
  run : ℕ
  file : ℕ
  deriving DecidableEq

/-- `origin_lvl_capacity`: `write_buffer_size * pow(size_ratio_, origin_lvl + 1) *
(size_ratio_ - 1) / size_ratio_`, evaluated from left to right in `double` and converted to a `long`.
-/
def Config.originLvlCapacity (cfg : Config) (fp : DoubleArith) (originLvl : ℕ) : ℤ :=
  let scaled := fp.round
    (fp.round cfg.options.writeBufferSize * fp.pow cfg.sizeRatio (originLvl + 1))
  let product := fp.round (scaled * ((cfg.sizeRatio : ℚ) - 1))
  fp.toLong (fp.round (product / cfg.sizeRatio))

namespace FluidLSM

variable (t : FluidLSM)

def deref (p : FilePtr) : Option SstFileMetaData :=
  match (t.runsAt p.lvl)[p.run]? with
  | some run => run.files[p.file]?
  | none => none

/-- Pointers to the files of level `lvl` that are not being compacted, appended to the vector. -/
def addFilesToCompaction (lvl : ℕ) (inputFiles : List FilePtr) : List FilePtr :=
  (t.runsAt lvl).zipIdx.foldl (fun inputFiles run ↦
    run.1.files.zipIdx.foldl (fun inputFiles file ↦
      if file.1.beingCompacted = false then inputFiles ++ [⟨lvl, run.2, file.2⟩]
      else inputFiles) inputFiles) inputFiles

/-- `size_in_bytes += file->size`: the `uint64_t` of the size is added to the `long` modulo `2 ^ 64`. -/
def getCompactionSize (inputFiles : List FilePtr) : ℤ :=
  inputFiles.foldl (fun sizeInBytes p ↦
    IntType.long.wrap (sizeInBytes + ((t.deref p).elim 0 SstFileMetaData.size : ℕ))) 0

def getCompactionTargetLevel (fp : DoubleArith) (originLvl : ℕ) (inputFiles : List FilePtr) : ℕ :=
  let projectedOutputSize := t.getCompactionSize inputFiles
  if projectedOutputSize > t.originLvlCapacity fp originLvl then originLvl + 1 else originLvl

/-- `file->being_compacted = true`. -/
def markBeingCompacted (p : FilePtr) : FluidLSM :=
  { t with
    lazyLevels := t.lazyLevels.modify p.lvl fun level ↦
      ⟨level.runs.modify p.run fun run ↦
        { run with
          files := run.files.modify p.file fun file ↦ { file with beingCompacted := true } }⟩ }

/-- The slot loop of `ScheduleCompaction` with `n` iterations left, at `lvl = K + 1 - n`. It yields
the store level of the deepest empty slot, and that of the last slot when all are occupied. -/
def findSlot (targetLvl : ℕ) : ℕ → Option ℕ
  | 0 => some (t.rocksDBLvl targetLvl 0)
  | n + 1 =>
    let lvl := t.smallerLvlRunsCount - n
    match (t.runsAt targetLvl)[t.smallerLvlRunsCount - lvl]? with
    | none => none
    | some run =>
      if run.files.isEmpty then some (t.rocksDBLvl targetLvl lvl) else findSlot targetLvl n

/-- `RocksDB_lvl` as `ScheduleCompaction` computes it. -/
def outputLvl (originLvl targetLvl : ℕ) : Option ℕ :=
  if targetLvl > originLvl then t.findSlot targetLvl (t.smallerLvlRunsCount + 1)
  else some (t.rocksDBLvl targetLvl 0)

/-- Reads the names of the input files and marks the files through their pointers. -/
def reserve (inputFiles : List FilePtr) : FluidLSM × List String :=
  inputFiles.foldl (fun acc p ↦
    (acc.1.markBeingCompacted p,
      acc.2 ++ ((acc.1.deref p).map SstFileMetaData.name).toList)) (t, [])

/-- `ScheduleCompaction`, with the tasks it hands to the environment. The clamped `target_lvl`, the
`slot` and `largest_lvl` of the source are computed there and never read. -/
def scheduleCompaction (originLvl targetLvl : ℕ) (inputFiles : List FilePtr) :
    Option (FluidLSM × List CompactionTask) :=
  if parallelCompactionsAllowed > t.parallelCompactionsRunning then
    match t.outputLvl originLvl targetLvl with
    | none => none
    | some rocksDBLvl =>
      let reserved := t.reserve inputFiles
      some ({ reserved.1 with
              parallelCompactionsRunning := reserved.1.parallelCompactionsRunning + 1 },
        [{ inputFileNames := reserved.2
           outputLvl := rocksDBLvl
           compactOptions := { t.compactOptions with outputFileSizeLimit := t.fileSize }
           originLvl := originLvl
           targetLvl := targetLvl }])
  else some (t, [])

/-- `lazy_levels_[lvl].NumLiveRuns()`. -/
def numLiveRunsAt (lvl : ℕ) : ℕ :=
  match t.lazyLevels[lvl]? with
  | some level => level.numLiveRuns
  | none => 0

/-- The test of `PickCompaction`: the level holds too many live runs. -/
def overBound (largestLvl lvl : ℕ) : Bool :=
  lvl < largestLvl && t.numLiveRunsAt lvl > t.smallerLvlRunsCount
    || lvl == largestLvl && t.numLiveRunsAt lvl > t.largerLvlRunsCount

/-- The loop of `PickCompaction` over the levels below `n`, deepest first. -/
def pickLoop (fp : DoubleArith) (largestLvl : ℕ) :
    ℕ → FluidLSM → List CompactionTask → Option (FluidLSM × List CompactionTask)
  | 0, t, tasks => some (t, tasks)
  | lvl + 1, t, tasks =>
    if t.overBound largestLvl lvl then
      let inputFiles := t.addFilesToCompaction lvl []
      let targetLvl := t.getCompactionTargetLevel fp lvl inputFiles
      match t.scheduleCompaction lvl targetLvl inputFiles with
      | none => none
      | some (t', scheduled) => pickLoop fp largestLvl lvl t' (tasks ++ scheduled)
    else pickLoop fp largestLvl lvl t tasks

/-- `PickCompaction`, with the tasks it enqueues. -/
def pickCompaction (fp : DoubleArith) (db : ColumnFamilyMetaData) :
    Option (FluidLSM × List CompactionTask) :=
  let built := t.buildStructure db
  let largestLvl := built.getLargestOccupiedLevel
  pickLoop fp largestLvl (largestLvl + 1) built []

/-- `OnFlushCompleted`. -/
def onFlushCompleted (fp : DoubleArith) (db : ColumnFamilyMetaData) :
    Option (FluidLSM × List CompactionTask) := t.pickCompaction fp db

end FluidLSM

/-- `FluidLSM::CompactFiles` from the return of the store's own `CompactFiles` on: pick again unless
the status is an IO error, then lower the counter. The metadata is that after the store's call. -/
def FluidLSM.compactFiles (t : FluidLSM) (fp : DoubleArith) (db : ColumnFamilyMetaData)
    (s : Status) : Option (FluidLSM × List CompactionTask) :=
  let picked := if s ≠ .ioError then t.pickCompaction fp db else some (t, [])
  picked.map fun p ↦
    ({ p.1 with parallelCompactionsRunning := p.1.parallelCompactionsRunning - 1 }, p.2)

namespace FluidLSM

/-! ## The input files -/

/-- The files of a level that are not being compacted, run after run. -/
def idleFilesAt (t : FluidLSM) (lvl : ℕ) : List SstFileMetaData :=
  ((t.runsAt lvl).flatMap Run.files).filter fun file ↦ !file.beingCompacted

variable (t : FluidLSM) (lvl : ℕ)

private theorem foldl_idle (r : ℕ) (files : List (SstFileMetaData × ℕ)) (ptrs : List FilePtr) :
    files.foldl (fun ptrs file ↦
        if file.1.beingCompacted = false then ptrs ++ [⟨lvl, r, file.2⟩] else ptrs) ptrs
      = ptrs ++ (files.filter (!·.1.beingCompacted)).map fun file ↦ ⟨lvl, r, file.2⟩ := by
  induction files generalizing ptrs with
  | nil => simp
  | cons file files ih =>
    rw [List.foldl_cons, ih]
    by_cases hfile : file.1.beingCompacted <;> simp [hfile]

theorem addFilesToCompaction_eq (ptrs : List FilePtr) :
    t.addFilesToCompaction lvl ptrs
      = ptrs ++ (t.runsAt lvl).zipIdx.flatMap fun run ↦
          (run.1.files.zipIdx.filter (!·.1.beingCompacted)).map fun file ↦
            ⟨lvl, run.2, file.2⟩ := by
  rw [addFilesToCompaction]
  generalize (t.runsAt lvl).zipIdx = runs
  induction runs generalizing ptrs with
  | nil => simp
  | cons run runs ih =>
    rw [List.foldl_cons, ih, foldl_idle, List.flatMap_cons, List.append_assoc]

/-- The pointers lead to the idle files of the level, each once. -/
theorem filterMap_deref_addFilesToCompaction :
    (t.addFilesToCompaction lvl []).filterMap t.deref = t.idleFilesAt lvl := by
  have hfile : ∀ run ∈ (t.runsAt lvl).zipIdx,
      ((run.1.files.zipIdx.filter (!·.1.beingCompacted)).map fun file ↦
          (⟨lvl, run.2, file.2⟩ : FilePtr)).filterMap t.deref
        = run.1.files.filter (!·.beingCompacted) := by
    intro run hrun
    have hrun' : (t.runsAt lvl)[run.2]? = some run.1 := List.mem_zipIdx_iff_getElem?.mp hrun
    have hderef : ∀ file ∈ run.1.files.zipIdx.filter (!·.1.beingCompacted),
        (t.deref ∘ fun file ↦ ⟨lvl, run.2, file.2⟩) file = some file.1 := by
      intro file hfile
      rw [Function.comp_apply, deref, hrun']
      exact List.mem_zipIdx_iff_getElem?.mp (List.mem_of_mem_filter hfile)
    have hfst := List.filter_map (p := (!·.beingCompacted)) (f := Prod.fst)
      (l := run.1.files.zipIdx)
    rw [List.zipIdx_map_fst] at hfst
    rw [List.filterMap_map, List.filterMap_congr hderef, List.filterMap_eq_map', hfst]
    rfl
  rw [addFilesToCompaction_eq, List.nil_append, List.filterMap_flatMap, List.flatMap_congr hfile,
    idleFilesAt, List.filter_flatMap]
  conv_rhs => rw [← List.zipIdx_map_fst 0 (t.runsAt lvl), List.flatMap_map]

/-- The size of a compaction is the total size of the files its pointers lead to, modulo `2 ^ 64`. -/
theorem getCompactionSize_eq (ptrs : List FilePtr) :
    t.getCompactionSize ptrs
      = IntType.long.wrap (((ptrs.filterMap t.deref).map SstFileMetaData.size).sum : ℕ) := by
  have hfold : ∀ (ptrs : List FilePtr) (n : ℤ),
      ptrs.foldl (fun sizeInBytes p ↦ IntType.long.wrap
          (sizeInBytes + ((t.deref p).elim 0 SstFileMetaData.size : ℕ))) (IntType.long.wrap n)
        = IntType.long.wrap
            (n + (((ptrs.filterMap t.deref).map SstFileMetaData.size).sum : ℕ)) := by
    intro ptrs
    induction ptrs with
    | nil => simp
    | cons p ptrs ih =>
      intro n
      rw [List.foldl_cons, IntType.wrap_wrap_add, ih]
      cases hp : t.deref p <;> simp [hp, add_assoc]
  have hzero := hfold ptrs 0
  rwa [zero_add] at hzero

theorem getCompactionTargetLevel_eq (fp : DoubleArith) :
    t.getCompactionTargetLevel fp lvl (t.addFilesToCompaction lvl [])
      = if IntType.long.wrap (((t.idleFilesAt lvl).map SstFileMetaData.size).sum : ℕ)
            > t.originLvlCapacity fp lvl
        then lvl + 1 else lvl := by
  rw [getCompactionTargetLevel, getCompactionSize_eq, filterMap_deref_addFilesToCompaction]

/-! ## Reserving the inputs -/

@[simp] theorem toConfig_markBeingCompacted (p : FilePtr) :
    (t.markBeingCompacted p).toConfig = t.toConfig := rfl

@[simp] theorem parallelCompactionsRunning_markBeingCompacted (p : FilePtr) :
    (t.markBeingCompacted p).parallelCompactionsRunning = t.parallelCompactionsRunning := rfl

@[simp] theorem length_lazyLevels_markBeingCompacted (p : FilePtr) :
    (t.markBeingCompacted p).lazyLevels.length = t.lazyLevels.length := List.length_modify _ _ _

theorem runsAt_markBeingCompacted (p : FilePtr) (i : ℕ) :
    (t.markBeingCompacted p).runsAt i
      = if p.lvl = i then (t.runsAt i).modify p.run fun run ↦
          { run with
            files := run.files.modify p.file fun file ↦ { file with beingCompacted := true } }
        else t.runsAt i := by
  by_cases hi : p.lvl = i
  · subst hi
    rw [if_pos rfl, runsAt, runsAt, markBeingCompacted, List.getElem?_modify_eq]
    cases t.lazyLevels[p.lvl]? with
    | none => exact (List.modify_nil _ _).symm
    | some level => rfl
  · rw [if_neg hi, runsAt, runsAt, markBeingCompacted, List.getElem?_modify_ne _ _ hi]

/-- Marking a file changes no name. -/
theorem map_name_deref_markBeingCompacted (p q : FilePtr) :
    ((t.markBeingCompacted p).deref q).map SstFileMetaData.name
      = (t.deref q).map SstFileMetaData.name := by
  rw [deref, deref, runsAt_markBeingCompacted]
  by_cases hlvl : p.lvl = q.lvl
  · rw [if_pos hlvl, List.getElem?_modify]
    cases (t.runsAt q.lvl)[q.run]? with
    | none => rfl
    | some run =>
      by_cases hrun : p.run = q.run
      · simp only [hrun, if_true, Option.map_eq_map, Option.map_some, List.getElem?_modify]
        cases run.files[q.file]? with
        | none => rfl
        | some file => by_cases hfile : p.file = q.file <;> simp [hfile]
      · simp [hrun]
  · rw [if_neg hlvl]

/-- What reserving the inputs does: it reads their names and changes marks only. -/
theorem reserve_spec (ptrs : List FilePtr) :
    (t.reserve ptrs).1.toConfig = t.toConfig
      ∧ (t.reserve ptrs).1.parallelCompactionsRunning = t.parallelCompactionsRunning
      ∧ (t.reserve ptrs).1.lazyLevels.length = t.lazyLevels.length
      ∧ (t.reserve ptrs).2 = (ptrs.filterMap t.deref).map SstFileMetaData.name := by
  have hfold : ∀ (ptrs : List FilePtr) (t' : FluidLSM) (names : List String),
      (∀ q, (t'.deref q).map SstFileMetaData.name = (t.deref q).map SstFileMetaData.name) →
      let reserved := ptrs.foldl (fun acc p ↦
        (acc.1.markBeingCompacted p,
          acc.2 ++ ((acc.1.deref p).map SstFileMetaData.name).toList)) (t', names)
      reserved.1.toConfig = t'.toConfig
        ∧ reserved.1.parallelCompactionsRunning = t'.parallelCompactionsRunning
        ∧ reserved.1.lazyLevels.length = t'.lazyLevels.length
        ∧ reserved.2 = names ++ (ptrs.filterMap t.deref).map SstFileMetaData.name := by
    intro ptrs
    induction ptrs with
    | nil => intro t' names _; simp
    | cons p ptrs ih =>
      intro t' names hnames
      obtain ⟨hcfg, hrunning, hlength, hread⟩ := ih (t'.markBeingCompacted p)
        (names ++ ((t'.deref p).map SstFileMetaData.name).toList)
        fun q ↦ (map_name_deref_markBeingCompacted t' p q).trans (hnames q)
      refine ⟨hcfg, hrunning, hlength.trans (length_lazyLevels_markBeingCompacted _ _), ?_⟩
      rw [List.foldl_cons, hread, hnames p, List.append_assoc]
      cases hp : t.deref p <;> simp [hp]
  exact hfold ptrs t [] fun _ ↦ rfl

/-! ## The slot search -/

/-- An empty slot: the level has it, and its run holds no file. -/
def EmptySlot (t : FluidLSM) (lvl slot : ℕ) : Prop :=
  ∃ run, (t.runsAt lvl)[slot]? = some run ∧ run.files = []

/-- **The slot search.** On a level with all its slots the loop over the first `n` of them yields
the deepest empty one, or the last slot of the level when none is empty. -/
theorem findSlot_eq_some {n : ℕ} (hn : n ≤ t.smallerLvlRunsCount + 1)
    (hfull : t.smallerLvlRunsCount < (t.runsAt lvl).length) :
    ∃ level, t.findSlot lvl n = some level
      ∧ ((∃ slot < n, t.EmptySlot lvl slot
            ∧ level = t.rocksDBLvl lvl (t.smallerLvlRunsCount - slot)
            ∧ ∀ slot', slot < slot' → slot' < n → ¬t.EmptySlot lvl slot')
        ∨ (∀ slot < n, ¬t.EmptySlot lvl slot) ∧ level = t.rocksDBLvl lvl 0) := by
  induction n with
  | zero => exact ⟨_, rfl, Or.inr ⟨fun _ h ↦ absurd h (Nat.not_lt_zero _), rfl⟩⟩
  | succ n ih =>
    have hslot : t.smallerLvlRunsCount - (t.smallerLvlRunsCount - n) = n := by omega
    have hrun : (t.runsAt lvl)[n]? = some _ := List.getElem?_eq_getElem (by omega)
    rw [findSlot]
    simp only [hslot, hrun]
    -- The loop counts down, so slot `n` is looked at before the shallower ones.
    by_cases hempty : (t.runsAt lvl)[n].files = []
    · rw [if_pos (by rw [hempty]; rfl)]
      exact ⟨_, rfl, Or.inl ⟨n, Nat.lt_succ_self n, ⟨_, hrun, hempty⟩, rfl, fun _ _ _ ↦ by omega⟩⟩
    · rw [if_neg (by simpa using hempty)]
      have hoccupied : ¬t.EmptySlot lvl n := by
        rintro ⟨run, hrun', hnil⟩
        rw [hrun] at hrun'
        exact hempty (Option.some.inj hrun' ▸ hnil)
      obtain ⟨level, hlevel, hcases⟩ := ih (by omega)
      refine ⟨level, hlevel, ?_⟩
      rcases hcases with ⟨slot, hlt, hslot, hval, hdeepest⟩ | ⟨hnone, hval⟩
      · refine Or.inl ⟨slot, by omega, hslot, hval, fun slot' hgt hlt' ↦ ?_⟩
        rcases Nat.lt_succ_iff_lt_or_eq.mp hlt' with hlt' | rfl
        · exact hdeepest slot' hgt hlt'
        · exact hoccupied
      · refine Or.inr ⟨fun slot hlt ↦ ?_, hval⟩
        rcases Nat.lt_succ_iff_lt_or_eq.mp hlt with hlt | rfl
        · exact hnone slot hlt
        · exact hoccupied

/-- The first access of the search is to the last slot; a level that lacks it makes the search
undefined. -/
theorem findSlot_eq_none (hshort : (t.runsAt lvl).length ≤ t.smallerLvlRunsCount) :
    t.findSlot lvl (t.smallerLvlRunsCount + 1) = none := by
  rw [findSlot]
  simp only [Nat.sub_self, Nat.sub_zero, List.getElem?_eq_none hshort]

/-! ## Scheduling -/

variable {t lvl}

/-- While a compaction is under way nothing is scheduled. -/
theorem scheduleCompaction_of_busy (h : parallelCompactionsAllowed ≤ t.parallelCompactionsRunning)
    (originLvl targetLvl : ℕ) (ptrs : List FilePtr) :
    t.scheduleCompaction originLvl targetLvl ptrs = some (t, []) := by
  rw [scheduleCompaction, if_neg (not_lt.mpr h)]

/-- The task `ScheduleCompaction` enqueues for the idle files of a level. -/
def taskFor (t : FluidLSM) (originLvl targetLvl outputLvl : ℕ) : CompactionTask where
  inputFileNames := (t.idleFilesAt originLvl).map SstFileMetaData.name
  outputLvl := outputLvl
  compactOptions := { t.compactOptions with outputFileSizeLimit := t.fileSize }
  originLvl := originLvl
  targetLvl := targetLvl

@[simp] theorem targetLvl_taskFor (t : FluidLSM) (originLvl targetLvl outputLvl : ℕ) :
    (t.taskFor originLvl targetLvl outputLvl).targetLvl = targetLvl := rfl

/-- On an idle tree the slot search alone decides whether scheduling is defined. -/
theorem scheduleCompaction_of_idle (h : t.parallelCompactionsRunning = 0)
    (originLvl targetLvl : ℕ) :
    ∃ t' : FluidLSM, t'.toConfig = t.toConfig ∧ t'.parallelCompactionsRunning = 1
      ∧ t'.lazyLevels.length = t.lazyLevels.length
      ∧ t.scheduleCompaction originLvl targetLvl (t.addFilesToCompaction originLvl [])
        = (t.outputLvl originLvl targetLvl).map fun lvl ↦
            (t', [t.taskFor originLvl targetLvl lvl]) := by
  obtain ⟨hcfg, hrunning, hlength, hnames⟩ :=
    reserve_spec t (t.addFilesToCompaction originLvl [])
  refine ⟨{ (t.reserve (t.addFilesToCompaction originLvl [])).1 with
    parallelCompactionsRunning :=
      (t.reserve (t.addFilesToCompaction originLvl [])).1.parallelCompactionsRunning + 1 },
    hcfg, ?_, hlength, ?_⟩
  · rw [hrunning, h, zero_add]
  · have hallowed : parallelCompactionsAllowed > t.parallelCompactionsRunning := by
      rw [h, parallelCompactionsAllowed]
      decide
    rw [scheduleCompaction, if_pos hallowed]
    cases t.outputLvl originLvl targetLvl with
    | none => rfl
    | some lvl =>
      rw [Option.map_some, taskFor, ← filterMap_deref_addFilesToCompaction, ← hnames]

/-! ## The walk over the levels -/

theorem numLiveRunsAt_eq (t : FluidLSM) (lvl : ℕ) :
    t.numLiveRunsAt lvl = (t.runsAt lvl).countP Run.isLive := by
  rw [numLiveRunsAt, runsAt]
  cases t.lazyLevels[lvl]? with
  | none => rfl
  | some level => exact level.numLiveRuns_eq_countP

/-- The deepest level that holds too many live runs. -/
def DeepestOverBound (t : FluidLSM) (lvl : ℕ) : Prop :=
  t.overBound t.getLargestOccupiedLevel lvl = true
    ∧ ∀ m, lvl < m → t.overBound t.getLargestOccupiedLevel m = false

theorem overBound_eq_true {largestLvl : ℕ} :
    t.overBound largestLvl lvl = true
      ↔ lvl < largestLvl ∧ t.smallerLvlRunsCount < t.numLiveRunsAt lvl
        ∨ lvl = largestLvl ∧ t.largerLvlRunsCount < t.numLiveRunsAt lvl := by
  rw [overBound, Bool.or_eq_true, Bool.and_eq_true, Bool.and_eq_true, decide_eq_true_eq,
    decide_eq_true_eq, decide_eq_true_eq, beq_iff_eq]

theorem le_of_overBound {largestLvl : ℕ} (h : t.overBound largestLvl lvl = true) :
    lvl ≤ largestLvl := by
  rcases overBound_eq_true.mp h with ⟨h, -⟩ | ⟨h, -⟩ <;> omega

theorem DeepestOverBound.unique {lvl' : ℕ} (h : t.DeepestOverBound lvl)
    (h' : t.DeepestOverBound lvl') : lvl = lvl' := by
  rcases Nat.lt_trichotomy lvl lvl' with hlt | heq | hgt
  · exact absurd h'.1 (by rw [h.2 lvl' hlt]; decide)
  · exact heq
  · exact absurd h.1 (by rw [h'.2 lvl hgt]; decide)

/-- Either no level is over its bound, or there is a deepest one that is. -/
theorem forall_or_deepestOverBound (t : FluidLSM) :
    (∀ m, t.overBound t.getLargestOccupiedLevel m = false) ∨ ∃ lvl, t.DeepestOverBound lvl := by
  by_cases h : ∃ m, t.overBound t.getLargestOccupiedLevel m = true
  · right
    have hbound : ∀ m, t.overBound t.getLargestOccupiedLevel m = true →
        m ≤ t.getLargestOccupiedLevel := fun m hm ↦ le_of_overBound hm
    obtain ⟨m, hm⟩ := h
    refine ⟨Nat.findGreatest (fun m ↦ t.overBound t.getLargestOccupiedLevel m = true)
      t.getLargestOccupiedLevel,
      Nat.findGreatest_spec (P := fun m ↦ t.overBound t.getLargestOccupiedLevel m = true)
        (hbound m hm) hm, fun k hk ↦ ?_⟩
    by_contra hover
    rw [Bool.not_eq_false] at hover
    exact absurd (Nat.le_findGreatest (hbound k hover) hover) (not_le.mpr hk)
  · left
    exact fun m ↦ by simpa using fun hm ↦ h ⟨m, hm⟩

variable (fp : DoubleArith) {largestLvl : ℕ} {tasks : List CompactionTask}

theorem pickLoop_of_busy (h : parallelCompactionsAllowed ≤ t.parallelCompactionsRunning) (n : ℕ) :
    pickLoop fp largestLvl n t tasks = some (t, tasks) := by
  induction n with
  | zero => rfl
  | succ n ih =>
    rw [pickLoop]
    split_ifs
    · simp only [scheduleCompaction_of_busy h, List.append_nil, ih]
    · exact ih

theorem pickLoop_of_forall {n : ℕ} (h : ∀ m < n, t.overBound largestLvl m = false) :
    pickLoop fp largestLvl n t tasks = some (t, tasks) := by
  induction n with
  | zero => rfl
  | succ n ih =>
    rw [pickLoop, if_neg (by rw [h n (Nat.lt_succ_self n)]; decide)]
    exact ih fun m hm ↦ h m (by omega)

theorem pickLoop_of_deepest (hidle : t.parallelCompactionsRunning = 0) {n : ℕ} (hlt : lvl < n)
    (hover : t.overBound largestLvl lvl = true)
    (hdeepest : ∀ m, lvl < m → t.overBound largestLvl m = false) :
    pickLoop fp largestLvl n t []
      = t.scheduleCompaction lvl (t.getCompactionTargetLevel fp lvl (t.addFilesToCompaction lvl []))
          (t.addFilesToCompaction lvl []) := by
  induction n with
  | zero => exact absurd hlt (Nat.not_lt_zero _)
  | succ n ih =>
    rw [pickLoop]
    rcases Nat.lt_succ_iff_lt_or_eq.mp hlt with hlt | rfl
    · -- Deeper levels are within their bounds and passed over.
      rw [if_neg (by rw [hdeepest n hlt]; decide)]
      exact ih hlt
    · -- This level raises the counter, which silences the rest of the walk.
      rw [if_pos hover]
      obtain ⟨t', -, hrunning, -, hschedule⟩ := scheduleCompaction_of_idle hidle lvl
        (t.getCompactionTargetLevel fp lvl (t.addFilesToCompaction lvl []))
      simp only [hschedule]
      cases t.outputLvl lvl _ with
      | none => rfl
      | some out =>
        simp only [Option.map_some, List.nil_append]
        exact pickLoop_of_busy fp (by rw [hrunning]; decide) _

/-! ## What `PickCompaction` does -/

section Pick

variable {db : ColumnFamilyMetaData}

theorem pickCompaction_of_busy
    (h : parallelCompactionsAllowed ≤ t.parallelCompactionsRunning) :
    t.pickCompaction fp db = some (t.buildStructure db, []) := by
  rw [pickCompaction]
  exact pickLoop_of_busy fp (by rwa [parallelCompactionsRunning_buildStructure]) _

theorem pickCompaction_of_forall
    (h : ∀ m, (t.buildStructure db).overBound
      (t.buildStructure db).getLargestOccupiedLevel m = false) :
    t.pickCompaction fp db = some (t.buildStructure db, []) := by
  rw [pickCompaction]
  exact pickLoop_of_forall fp fun m _ ↦ h m

/-- The target `PickCompaction` chooses for a level: the next one when the idle files of the level,
as a `long`, outgrow its capacity. -/
def plannedTargetLvl (t : FluidLSM) (fp : DoubleArith) (lvl : ℕ) : ℕ :=
  if IntType.long.wrap (((t.idleFilesAt lvl).map SstFileMetaData.size).sum : ℕ)
      > t.originLvlCapacity fp lvl
  then lvl + 1 else lvl

theorem plannedTargetLvl_eq_or (t : FluidLSM) (fp : DoubleArith) (lvl : ℕ) :
    t.plannedTargetLvl fp lvl = lvl ∨ t.plannedTargetLvl fp lvl = lvl + 1 := by
  rw [plannedTargetLvl]
  split_ifs
  · exact Or.inr rfl
  · exact Or.inl rfl

/-- **The deepest level over its bound decides.** -/
theorem pickCompaction_of_deepest (hidle : t.parallelCompactionsRunning = 0)
    (h : (t.buildStructure db).DeepestOverBound lvl) :
    ∃ t' : FluidLSM, t'.toConfig = t.toConfig ∧ t'.parallelCompactionsRunning = 1
      ∧ t'.lazyLevels.length = t.lazyLevels.length
      ∧ t.pickCompaction fp db
        = ((t.buildStructure db).outputLvl lvl
            ((t.buildStructure db).plannedTargetLvl fp lvl)).map fun out ↦
              (t', [(t.buildStructure db).taskFor lvl
                ((t.buildStructure db).plannedTargetLvl fp lvl) out]) := by
  have hidle' : (t.buildStructure db).parallelCompactionsRunning = 0 := by
    rw [parallelCompactionsRunning_buildStructure, hidle]
  obtain ⟨t', hcfg, hrunning, hlength, hschedule⟩ := scheduleCompaction_of_idle hidle' lvl
    ((t.buildStructure db).plannedTargetLvl fp lvl)
  refine ⟨t', hcfg.trans (toConfig_buildStructure _ _), hrunning,
    hlength.trans (length_lazyLevels_buildStructure _ _), ?_⟩
  rw [← hschedule, pickCompaction, plannedTargetLvl, ← getCompactionTargetLevel_eq]
  exact pickLoop_of_deepest fp hidle' (Nat.lt_succ_of_le (le_of_overBound h.1)) h.1 h.2

end Pick

end FluidLSM

end WorkloadAwareCompaction
