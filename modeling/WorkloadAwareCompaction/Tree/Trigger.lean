import WorkloadAwareCompaction.Tree.Promotion

/-!
# When a completion leaves the tree over its bounds

A completing task picks again before it lowers the counter, so its pick sees the task itself under
way and schedules nothing. Work that is due at that moment waits for the next flush. There are two
ways for work to be due: flushes arrived while the task was outstanding, or the output overfills the
level it was written to.

Whether this happens can be read off the store before the completion (`Roomy`). As long as it does
not, a task only ever starts at level 0, since a flush on a tree within its bounds can overfill no
other level. So such a tree has two levels at most (`Quiet`), and the bounds are those of a tree of
two levels (`withinBounds_iff`).
-/

namespace WorkloadAwareCompaction

open FluidLSM ColumnFamilyMetaData

def TreeEvent.isFailure : TreeEvent → Bool
  | compact _ (.failure _) => true
  | _ => false

/-- Every compaction succeeds. -/
def Succeeding (s : TreeState) (e : TreeEvent) : Prop := Promised s e ∧ e.isFailure = false

instance (s : TreeState) (e : TreeEvent) : Decidable (Succeeding s e) :=
  inferInstanceAs (Decidable (_ ∧ _))

/-- The files of level 0 that a task does not take. -/
def leftOnTop (s : TreeState) (task : CompactionTask) : List SstFileMetaData :=
  (s.db.filesAt 0).filter (·.name ∉ task.inputFileNames)

/-- The store levels of level 1 that hold a file once a task out of level 0 has written its
outputs. -/
def levelOneAfter (cfg : Config) (s : TreeState) (task : CompactionTask)
    (outputs : List SstFileMetaData) : Finset ℕ :=
  occupiedLevels cfg s.db 1
    ∪ if task.outputLvl ≠ 1 ∧ outputs ≠ [] then {task.outputLvl} else ∅

/-- The completion leaves room: level 0 keeps at most `K` runs, or `Z` when nothing lies below it,
and level 1 gets at most `Z`. The runs of level 0 are the files the task does not take, and the
output if it stays there. -/
def Roomy (cfg : Config) (s : TreeState) : TreeEvent → Prop
  | .compact task (.success outputs) =>
    let top := (leftOnTop s task).length + if task.outputLvl = 1 ∧ outputs ≠ [] then 1 else 0
    let below := levelOneAfter cfg s task outputs
    if below = ∅ then top ≤ cfg.largerLvlRunsCount
    else top ≤ cfg.smallerLvlRunsCount ∧ below.card ≤ cfg.largerLvlRunsCount
  | _ => True

instance (cfg : Config) (s : TreeState) : ∀ e, Decidable (Roomy cfg s e)
  | .flush _ => .isTrue trivial
  | .compact _ (.success _) => inferInstanceAs (Decidable (ite _ _ _))
  | .compact _ (.failure _) => .isTrue trivial

/-- The tree has two levels at most. -/
def Shallow (cfg : Config) (db : ColumnFamilyMetaData) : Prop :=
  ∀ i, 1 < cfg.fluidLvl i → db.filesAt i = []

/-- The states of a run on which no trigger was lost. -/
structure Quiet (cfg : Config) (s : TreeState) : Prop where
  shallow : Shallow cfg s.db
  origin : ∀ task ∈ s.tasks, task.originLvl = 0
  idle : s.tasks = [] → WithinBounds cfg s.db

section

variable {cfg : Config} {fp : DoubleArith} {db db₀ : ColumnFamilyMetaData} {task : CompactionTask}
  {fresh outputs : List SstFileMetaData}

/-! ## The bounds of a tree of two levels -/

theorem getLargestOccupiedLevel_of_shallow (hstore : StoreInv cfg db) (h : Shallow cfg db) :
    (fluidView cfg db).getLargestOccupiedLevel
      = if occupiedLevels cfg db 1 = ∅ then 0 else 1 := by
  -- A deeper largest level would be occupied, against `Shallow`.
  have hle : (fluidView cfg db).getLargestOccupiedLevel ≤ 1 := by
    by_contra hgt
    obtain ⟨i, hi, hne⟩ := exists_fluidLvl_eq_largest hstore.two_le hstore.levels
      (by omega : (fluidView cfg db).getLargestOccupiedLevel ≠ 0)
    exact hne (h i (by omega))
  split_ifs with hempty
  · by_contra hne
    obtain ⟨i, hi, hfiles⟩ := exists_fluidLvl_eq_largest hstore.two_le hstore.levels hne
    have hlvl : cfg.fluidLvl i = 1 := by omega
    have hi2 : 2 ≤ i := Config.fluidLvl_pos_iff.mp (hlvl ▸ Nat.one_pos)
    have hmem : i ∈ occupiedLevels cfg db 1 := mem_occupiedLevels.mpr ⟨by omega, hlvl, hfiles⟩
    rw [hempty] at hmem
    exact absurd hmem (Finset.notMem_empty i)
  · obtain ⟨i, hi⟩ := Finset.nonempty_iff_ne_empty.mpr hempty
    obtain ⟨-, hlvl, hfiles⟩ := mem_occupiedLevels.mp hi
    have hge := fluidLvl_le_largest hstore.two_le hstore.levels hfiles
    rw [hlvl] at hge
    omega

theorem withinBounds_iff (hstore : StoreInv cfg db) (h : Shallow cfg db) :
    WithinBounds cfg db
      ↔ if occupiedLevels cfg db 1 = ∅
        then (db.filesAt 0).length + (occupiedLevels cfg db 0).card ≤ cfg.largerLvlRunsCount
        else (db.filesAt 0).length + (occupiedLevels cfg db 0).card ≤ cfg.smallerLvlRunsCount
          ∧ (occupiedLevels cfg db 1).card ≤ cfg.largerLvlRunsCount := by
  have hover : ∀ largest m, (fluidView cfg db).overBound largest m = false
      ↔ ¬(m < largest ∧ cfg.smallerLvlRunsCount
            < (if m = 0 then (db.filesAt 0).length else 0) + (occupiedLevels cfg db m).card
          ∨ m = largest ∧ cfg.largerLvlRunsCount
            < (if m = 0 then (db.filesAt 0).length else 0) + (occupiedLevels cfg db m).card) := by
    intro largest m
    rw [← numLiveRunsAt_fluidView hstore.two_le hstore.levels hstore.unmarked, ← Bool.not_eq_true,
      overBound_eq_true, toConfig_fluidView]
  rw [WithinBounds]
  -- With level 1 empty the largest level is level 0, whose bound is then `Z`.
  simp only [hover, getLargestOccupiedLevel_of_shallow hstore h]
  split_ifs with hempty
  · constructor
    · intro hall
      have hzero := hall 0
      rw [if_pos rfl] at hzero
      omega
    · rintro hle m (⟨hlt, -⟩ | ⟨rfl, hlt⟩)
      · omega
      · rw [if_pos rfl] at hlt
        omega
  · constructor
    · intro hall
      have hzero := hall 0
      have hone := hall 1
      rw [if_pos rfl] at hzero
      rw [if_neg one_ne_zero] at hone
      omega
    · rintro ⟨hzero, hone⟩ m (⟨hlt, hgt⟩ | ⟨rfl, hgt⟩)
      · obtain rfl : m = 0 := by omega
        rw [if_pos rfl] at hgt
        omega
      · rw [if_neg one_ne_zero] at hgt
        omega

/-! ## One step -/

theorem Shallow.addFlushed (h : Shallow cfg db) (file : SstFileMetaData) :
    Shallow cfg (db.addFlushed file) := by
  intro i hi
  have hpos : 0 < cfg.fluidLvl i := by omega
  rw [filesAt_addFlushed_of_ne (Config.ne_zero_of_fluidLvl_pos hpos)]
  exact h i hi

/-- A flush on a tree of two levels within its bounds overfills at most level 0. -/
theorem Picked.originLvl_eq_zero {file : SstFileMetaData}
    (h : Picked cfg fp (db.addFlushed file) task) (hstore : StoreInv cfg db)
    (hstore' : StoreInv cfg (db.addFlushed file)) (hshallow : Shallow cfg db)
    (hbounds : WithinBounds cfg db) : task.originLvl = 0 := by
  have hshallow' := hshallow.addFlushed file
  have hover := h.deepest.1
  rw [overBound_eq_true, getLargestOccupiedLevel_of_shallow hstore' hshallow', toConfig_fluidView,
    numLiveRunsAt_fluidView hstore'.two_le hstore'.levels hstore'.unmarked] at hover
  simp only [occupiedLevels_addFlushed] at hover
  by_contra hne
  split_ifs at hover with hempty
  · omega
  · have hone : task.originLvl = 1 := by omega
    rw [withinBounds_iff hstore hshallow, if_neg hempty] at hbounds
    rw [hone] at hover
    omega

/-- Store level 1 after a completed task out of level 0: the output, if it stays. -/
theorem InFlight.occupiedLevels_zero (h : InFlight cfg fp db task db₀ fresh)
    (hstore : StoreInv cfg db) (hout : task.outputLvl < db.numLevels)
    (horigin : task.originLvl = 0) :
    occupiedLevels cfg (db.replaceFiles task.inputFileNames task.outputLvl outputs) 0
      = if task.outputLvl = 1 ∧ outputs ≠ [] then {1} else ∅ := by
  ext i
  rw [mem_occupiedLevels, h.filesAt_replaceFiles hstore hout]
  constructor
  · rintro ⟨hi, hilvl, hne⟩
    obtain rfl : i = 1 := le_antisymm (Config.fluidLvl_eq_zero_iff.mp hilvl) hi
    rw [if_neg one_ne_zero, if_pos (hilvl.trans horigin.symm), List.nil_append, List.nil_append,
      ite_ne_right_iff] at hne
    rw [if_pos ⟨hne.1.symm, hne.2⟩]
    exact Finset.mem_singleton_self 1
  · intro hi
    split_ifs at hi with hstay
    · obtain rfl := Finset.mem_singleton.mp hi
      refine ⟨le_rfl, Config.fluidLvl_eq_zero_iff.mpr le_rfl, ?_⟩
      rw [if_pos hstay.1.symm]
      exact List.append_ne_nil_of_right_ne_nil _ hstay.2
    · exact absurd hi (Finset.notMem_empty i)

/-- Level 1 after a completed task out of level 0: what it held, and the output if it moves. -/
theorem InFlight.occupiedLevels_one {s : TreeState} (h : InFlight cfg fp s.db task db₀ fresh)
    (hstore : StoreInv cfg s.db) (hout : task.outputLvl < s.db.numLevels)
    (horigin : task.originLvl = 0) :
    occupiedLevels cfg (s.db.replaceFiles task.inputFileNames task.outputLvl outputs) 1
      = levelOneAfter cfg s task outputs := by
  have hpos := (h.landing hstore).outputLvl_pos
  have hlvl := (h.landing hstore).fluidLvl_outputLvl
  have htarget := (h.landing hstore).target_eq_or
  ext i
  rw [levelOneAfter, Finset.mem_union, mem_occupiedLevels, mem_occupiedLevels,
    h.filesAt_replaceFiles hstore hout]
  have hsame : cfg.fluidLvl i = 1 → (if i = 0 then fresh else [])
      ++ (if cfg.fluidLvl i = task.originLvl then [] else db₀.filesAt i) = s.db.filesAt i := by
    intro hilvl
    have hi0 := Config.ne_zero_of_fluidLvl_pos (hilvl ▸ Nat.one_pos)
    rw [if_neg hi0, if_neg (by omega), List.nil_append, h.below i hi0]
  constructor
  · rintro ⟨hi, hilvl, hne⟩
    rw [hsame hilvl] at hne
    by_cases hiout : i = task.outputLvl
    · -- A slot that was empty before is the output, which has moved: it is not store level 1.
      by_cases hold : s.db.filesAt i = []
      · rw [hold, List.nil_append, if_pos hiout] at hne
        have hone : task.outputLvl ≠ 1 := by
          intro hone
          rw [hiout, hone, Config.fluidLvl_eq_zero_iff.mpr le_rfl] at hilvl
          omega
        rw [if_pos ⟨hone, hne⟩]
        exact Or.inr (Finset.mem_singleton.mpr hiout)
      · exact Or.inl ⟨hi, hilvl, hold⟩
    · rw [if_neg hiout, List.append_nil] at hne
      exact Or.inl ⟨hi, hilvl, hne⟩
  · rintro (⟨hi, hilvl, hne⟩ | hi)
    · rw [hsame hilvl]
      exact ⟨hi, hilvl, List.append_ne_nil_of_left_ne_nil hne _⟩
    · split_ifs at hi with hmoved
      · obtain rfl := Finset.mem_singleton.mp hi
        have hout : 0 < cfg.fluidLvl task.outputLvl := Config.fluidLvl_pos_iff.mpr (by omega)
        refine ⟨hpos, by omega, ?_⟩
        rw [if_pos rfl]
        exact List.append_ne_nil_of_right_ne_nil _ hmoved.2
      · exact absurd hi (Finset.notMem_empty i)

/-- **What a completion leaves.** A task out of level 0 leaves a tree within its bounds exactly when
it leaves room. -/
theorem InFlight.withinBounds_iff_roomy {s : TreeState} (h : InFlight cfg fp s.db task db₀ fresh)
    (hstore : StoreInv cfg s.db)
    (hstore' : StoreInv cfg (s.db.replaceFiles task.inputFileNames task.outputLvl outputs))
    (hshallow' : Shallow cfg (s.db.replaceFiles task.inputFileNames task.outputLvl outputs))
    (hout : task.outputLvl < s.db.numLevels) (horigin : task.originLvl = 0) :
    WithinBounds cfg (s.db.replaceFiles task.inputFileNames task.outputLvl outputs)
      ↔ Roomy cfg s (.compact task (.success outputs)) := by
  have htop : (s.db.replaceFiles task.inputFileNames task.outputLvl outputs).filesAt 0
      = leftOnTop s task := by
    rw [ColumnFamilyMetaData.filesAt_replaceFiles hout, leftOnTop,
      if_neg (h.landing hstore).outputLvl_pos.ne]
  have hocc : (occupiedLevels cfg
        (s.db.replaceFiles task.inputFileNames task.outputLvl outputs) 0).card
      = if task.outputLvl = 1 ∧ outputs ≠ [] then 1 else 0 := by
    rw [h.occupiedLevels_zero hstore hout horigin]
    split_ifs <;> rfl
  rw [withinBounds_iff hstore' hshallow', htop, hocc, h.occupiedLevels_one hstore hout horigin,
    Roomy]

theorem InFlight.shallow_replaceFiles (h : InFlight cfg fp db task db₀ fresh)
    (hstore : StoreInv cfg db) (hshallow : Shallow cfg db) (hout : task.outputLvl < db.numLevels)
    (horigin : task.originLvl = 0) :
    Shallow cfg (db.replaceFiles task.inputFileNames task.outputLvl outputs) := by
  intro i hi
  have hpos : 0 < cfg.fluidLvl i := by omega
  have hi0 := Config.ne_zero_of_fluidLvl_pos hpos
  have hiout : i ≠ task.outputLvl := by
    rintro rfl
    rw [(h.landing hstore).fluidLvl_outputLvl] at hi
    have := (h.landing hstore).target_eq_or
    omega
  rw [h.filesAt_replaceFiles hstore hout, if_neg hi0, if_neg (by omega), if_neg hiout,
    ← h.below i hi0, hshallow i hi]
  rfl

/-! ## Runs -/

variable {s s' : TreeState} {e : TreeEvent}

theorem quiet_init (hlev : 2 ≤ cfg.options.numLevels) : Quiet cfg (.init cfg) where
  shallow i _ := filesAt_empty _ i
  origin := by simp [TreeState.init]
  idle _ := by
    have hstore := (treeInv_init .exact hlev).store
    have hnil : ∀ i, (TreeState.init cfg).db.filesAt i = [] := fun i ↦ filesAt_empty _ i
    have hocc : ∀ l, occupiedLevels cfg (TreeState.init cfg).db l = ∅ := fun l ↦
      Finset.eq_empty_iff_forall_notMem.mpr fun i hi ↦ (mem_occupiedLevels.mp hi).2.2 (hnil i)
    rw [withinBounds_iff hstore fun i _ ↦ hnil i, if_pos (hocc 1), hocc 0, hnil]
    exact Nat.zero_le _

/-- A step out of a quiet state leads to a quiet one unless it leaves the tree idle over its
bounds. -/
theorem Quiet.step (h : Quiet cfg s) (hinv : TreeInv cfg fp s) (hinv' : TreeInv cfg fp s')
    (hstep : TreeStep cfg fp s s' e) (hidle : s'.tasks = [] → WithinBounds cfg s'.db) :
    Quiet cfg s' := by
  cases hstep with
  | rest _ htasks' hdb' _ =>
    exact ⟨hdb' ▸ h.shallow.addFlushed _, by simp [htasks'], hidle⟩
  | @schedule file task htasks htasks' hdb' hpicked =>
    refine ⟨hdb' ▸ h.shallow.addFlushed _, ?_, hidle⟩
    rw [htasks']
    intro task' htask'
    rw [List.mem_singleton.mp htask']
    rw [hdb'] at hpicked
    exact hpicked.originLvl_eq_zero hinv.store (hdb' ▸ hinv'.store) h.shallow (h.idle htasks)
  | overlap htasks htasks' hdb' =>
    exact ⟨hdb' ▸ h.shallow.addFlushed _, htasks' ▸ htasks ▸ h.origin, hidle⟩
  | success htasks htasks' hout hdb' =>
    have hmem := htasks ▸ List.mem_singleton_self _
    obtain ⟨db₀, fresh, hflight⟩ := hinv.flight _ hmem
    refine ⟨?_, by simp [htasks'], hidle⟩
    rw [hdb']
    exact hflight.shallow_replaceFiles hinv.store h.shallow hout (h.origin _ hmem)
  | failure _ htasks' hdb' =>
    exact ⟨hdb' ▸ h.shallow, by simp [htasks'], hidle⟩

/-- In a quiet state, a step keeps the tree within its bounds, or busy, exactly when it leaves
room. -/
theorem Quiet.roomy_iff (h : Quiet cfg s) (hinv : TreeInv cfg fp s) (hinv' : TreeInv cfg fp s')
    (hstep : TreeStep cfg fp s s' e) (hsucceeds : e.isFailure = false) :
    (s'.tasks = [] → WithinBounds cfg s'.db) ↔ Roomy cfg s e := by
  cases hstep with
  | rest _ _ _ hbounds => exact iff_of_true (fun _ ↦ hbounds) trivial
  | schedule _ htasks' _ _ => exact iff_of_true (fun hnil ↦ by simp [htasks'] at hnil) trivial
  | overlap _ htasks' _ => exact iff_of_true (fun hnil ↦ by simp [htasks'] at hnil) trivial
  | @success task outputs htasks htasks' hout hdb' =>
    have hmem := htasks ▸ List.mem_singleton_self _
    obtain ⟨db₀, fresh, hflight⟩ := hinv.flight _ hmem
    have horigin := h.origin _ hmem
    rw [← hflight.withinBounds_iff_roomy hinv.store (hdb' ▸ hinv'.store)
      (hflight.shallow_replaceFiles hinv.store h.shallow hout horigin) hout horigin, ← hdb']
    exact ⟨fun hall ↦ hall htasks', fun hbounds _ ↦ hbounds⟩
  | failure _ _ _ => exact absurd hsucceeds (by simp [TreeEvent.isFailure])

/-- **No trigger is lost on a run exactly when every completion on it leaves room.** -/
theorem withinBounds_iff_roomy_run (hlev : 2 ≤ cfg.options.numLevels) {h : List TreeEvent}
    (hrun : (treeSystem cfg fp).Run Succeeding h s) :
    (∀ h' s', h' <:+ h → (treeSystem cfg fp).Run Succeeding h' s' → s'.tasks = [] →
        WithinBounds cfg s'.db)
      ↔ (treeSystem cfg fp).Run (fun s e ↦ Succeeding s e ∧ Roomy cfg s e) h s := by
  refine StepSystem.Run.forall_good_iff (I := Quiet cfg)
    (G := fun s ↦ s.tasks = [] → WithinBounds cfg s.db) (quiet_init hlev) (quiet_init hlev).idle ?_
    hrun
  intro h s e s' hrun hquiet hp hs
  have hinv := treeInv_of_run hlev (hrun.mono fun _ _ ↦ And.left)
  obtain ⟨hinv', hstep⟩ := hinv.step hp.1 hs
  exact ⟨hquiet.roomy_iff hinv hinv' hstep hp.2, hquiet.step hinv hinv' hstep⟩

end

/-- One promotion into an empty tree leaves room. -/
theorem withinBounds_small :
    ∃ s : TreeState, s.tasks = [] ∧ s.db.sortedRuns ≠ [] ∧ WithinBounds (.small 1 1 6) s.db := by
  obtain ⟨s, hrun, hidle, hruns⟩ :=
    StepSystem.exists_run_of_exec (M := treeSystem (.small 1 1 6) .exact)
      (P := fun s e ↦ Succeeding s e ∧ Roomy (.small 1 1 6) s e)
      (R := fun s : TreeState ↦ s.tasks = [] ∧ s.db.sortedRuns ≠ [])
      (h := [.compact (promoteFlushes [2, 1] 3) (.success [promotedFile "a" [2, 1]]),
        .flush (largeFile 2), .flush (largeFile 1)])
      (by decide +kernel)
  have hrun' := hrun.mono fun _ _ ↦ And.left
  exact ⟨s, hidle, hruns, (withinBounds_iff_roomy_run (by decide) hrun').mpr hrun _ s
    (List.suffix_refl _) hrun' hidle⟩

/-- A second promotion gives level 1 a second run, one more than `Z`. It completes, no task is
outstanding, and nothing has been scheduled for the level that is now over its bound. -/
theorem not_withinBounds_small :
    ¬∀ (h : List TreeEvent) (s : TreeState),
      (treeSystem (.small 1 1 6) .exact).Run Succeeding h s → s.tasks = [] →
        WithinBounds (.small 1 1 6) s.db := by
  intro hall
  obtain ⟨s, hrun, hidle, hover⟩ :=
    StepSystem.exists_run_of_exec (M := treeSystem (.small 1 1 6) .exact) (P := Succeeding)
      (R := fun s : TreeState ↦ s.tasks = [] ∧ (fluidView (.small 1 1 6) s.db).overBound
        (fluidView (.small 1 1 6) s.db).getLargestOccupiedLevel 1 = true)
      (h := [.compact (promoteFlushes [4, 3] 2) (.success [promotedFile "b" [4, 3]]),
        .flush (largeFile 4), .flush (largeFile 3),
        .compact (promoteFlushes [2, 1] 3) (.success [promotedFile "a" [2, 1]]),
        .flush (largeFile 2), .flush (largeFile 1)])
      (by decide +kernel)
  have hwithin := hall _ s hrun hidle 1
  rw [hover] at hwithin
  exact absurd hwithin (by decide)

end WorkloadAwareCompaction
