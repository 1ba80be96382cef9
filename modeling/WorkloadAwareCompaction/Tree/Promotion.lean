import Mathlib.Order.Interval.Finset.Nat
import WorkloadAwareCompaction.Tree.Reachable

/-!
# Promotions find a free slot

A level below the top has `K + 1` slots. A promotion into it takes the deepest empty one; when none
is empty the slot loop of `ScheduleCompaction` falls through, and the newest data of the tree is
written underneath the older runs of the target level.

Nothing in the loop rules this out. It is the order of the walk in `PickCompaction` that does: the
target level is inspected before the origin level, so a task out of the origin level means that the
target is within its bound. That bound is `K` for an inner level and `Z` for the largest one. Hence
a slot is left as soon as `Z ≤ K` (`Picked.free`), a relation the constructor does not ask for;
without it the largest level may keep all its slots filled.
-/

namespace WorkloadAwareCompaction

open FluidLSM ColumnFamilyMetaData

/-- The promotion was given an empty slot: the target level has one, and the store level written to
is empty. -/
structure FreeSlot (cfg : Config) (db : ColumnFamilyMetaData) (task : CompactionTask) : Prop where
  exists_empty : ∃ slot, (fluidView cfg db).EmptySlot task.targetLvl slot
  output_nil : db.filesAt task.outputLvl = []

section

variable {cfg : Config} {fp : DoubleArith} {db : ColumnFamilyMetaData} {task : CompactionTask}

/-- A level with all slots occupied has `K + 1` occupied store levels. -/
theorem card_occupiedLevels_of_full {l : ℕ} (hl : 0 < l)
    (hfull : ∀ i, cfg.fluidLvl i = l → db.filesAt i ≠ []) :
    cfg.smallerLvlRunsCount < (occupiedLevels cfg db l).card := by
  have hsub : Finset.Icc (cfg.rocksDBLvl l cfg.smallerLvlRunsCount) (cfg.rocksDBLvl l 0)
      ⊆ occupiedLevels cfg db l := by
    intro i hi
    obtain ⟨hlow, hhigh⟩ := Finset.mem_Icc.mp hi
    have hk : cfg.rocksDBLvl l 0 - i ≤ cfg.smallerLvlRunsCount := by
      have := Config.rocksDBLvl_add cfg hl le_rfl
      omega
    have hik := Config.rocksDBLvl_add cfg hl hk
    have hlvl : cfg.fluidLvl i = l := (Config.fluidLvl_eq_iff hl).mpr ⟨_, hk, by omega⟩
    have := Config.fluidLvl_pos_iff.mp (hlvl ▸ hl)
    exact mem_occupiedLevels.mpr ⟨by omega, hlvl, hfull i hlvl⟩
  have hcard := Finset.card_le_card hsub
  have := Config.rocksDBLvl_add cfg hl le_rfl
  rw [Nat.card_Icc] at hcard
  omega

/-- **A level that would be passed over is not full.** When `Z ≤ K`, a full level is over its bound
whether it is the largest one or not. -/
theorem overBound_of_full (hstore : StoreInv cfg db)
    (hZK : cfg.largerLvlRunsCount ≤ cfg.smallerLvlRunsCount) {l : ℕ} (hl : 0 < l)
    (hfull : ∀ i, cfg.fluidLvl i = l → db.filesAt i ≠ []) :
    (fluidView cfg db).overBound (fluidView cfg db).getLargestOccupiedLevel l = true := by
  have hruns : cfg.smallerLvlRunsCount < (fluidView cfg db).numLiveRunsAt l := by
    rw [numLiveRunsAt_fluidView hstore.two_le hstore.levels hstore.unmarked, if_neg hl.ne',
      Nat.zero_add]
    exact card_occupiedLevels_of_full hl hfull
  have hle : l ≤ (fluidView cfg db).getLargestOccupiedLevel := by
    have hlast := fluidLvl_le_largest hstore.two_le hstore.levels
      (hfull _ (Config.fluidLvl_rocksDBLvl_zero l))
    rwa [Config.fluidLvl_rocksDBLvl_zero] at hlast
  rw [overBound_eq_true, toConfig_fluidView]
  rcases Nat.lt_or_eq_of_le hle with hlt | heq
  · exact Or.inl ⟨hlt, hruns⟩
  · exact Or.inr ⟨heq, hZK.trans_lt hruns⟩

/-- When `Z ≤ K`, a promotion takes the deepest empty slot of the next level. -/
theorem Picked.free (h : Picked cfg fp db task) (hstore : StoreInv cfg db)
    (hZK : cfg.largerLvlRunsCount ≤ cfg.smallerLvlRunsCount)
    (hpromote : task.originLvl < task.targetLvl) :
    task.targetLvl = task.originLvl + 1 ∧ task.outputLvl < db.numLevels
      ∧ db.filesAt task.outputLvl = [] := by
  rcases h.landing hstore with ⟨hstay, -⟩ | ⟨htarget, -, hlt, hnil, -⟩ | ⟨htarget, -, hfull⟩
  · omega
  · exact ⟨htarget, hlt, hnil⟩
  · have hover := overBound_of_full hstore hZK (by omega) hfull
    rw [h.deepest.2 _ hpromote] at hover
    exact absurd hover (by decide)

theorem Picked.freeSlot (h : Picked cfg fp db task) (hstore : StoreInv cfg db)
    (hZK : cfg.largerLvlRunsCount ≤ cfg.smallerLvlRunsCount)
    (hpromote : task.originLvl < task.targetLvl) : FreeSlot cfg db task := by
  obtain ⟨-, hlt, hnil⟩ := h.free hstore hZK hpromote
  obtain ⟨k, hk, hout⟩ :=
    (Config.fluidLvl_eq_iff (by omega)).mp (h.landing hstore).fluidLvl_outputLvl
  refine ⟨⟨cfg.smallerLvlRunsCount - k, ?_⟩, hnil⟩
  rw [emptySlot_fluidView_iff hstore.two_le hstore.levels (by omega), Nat.sub_sub_self hk, ← hout]
  exact ⟨Nat.sub_le _ _, hlt, hnil⟩

/-- Every promotion that a step schedules is given an empty slot. -/
def PromotesIntoFreeSlots (cfg : Config) (s s' : TreeState) : Prop :=
  ∀ task ∈ s'.tasks, task ∉ s.tasks → task.originLvl < task.targetLvl → FreeSlot cfg s'.db task

/-- **When `Z ≤ K`, the slot search never falls through**, on any run and whatever the sizes. -/
theorem promotesIntoFreeSlots_of_le (fp : DoubleArith) (hlev : 2 ≤ cfg.options.numLevels)
    (hZK : cfg.largerLvlRunsCount ≤ cfg.smallerLvlRunsCount) {h : List TreeEvent} {s s' : TreeState}
    {e : TreeEvent} (hrun : (treeSystem cfg fp).Run Promised h s) (hp : Promised s e)
    (hs : (treeSystem cfg fp).step s e = some s') : PromotesIntoFreeSlots cfg s s' := by
  obtain ⟨hinv, hstep⟩ := (treeInv_of_run hlev hrun).step hp hs
  intro task htask hnew hpromote
  cases hstep with
  | schedule _ htasks' _ hpicked =>
    rw [htasks', List.mem_singleton] at htask
    subst htask
    exact hpicked.freeSlot hinv.store hZK hpromote
  | overlap htasks htasks' _ =>
    rw [htasks', ← htasks] at htask
    exact absurd htask hnew
  | rest _ htasks' _ _ | success _ htasks' _ _ | failure _ htasks' _ =>
    rw [htasks'] at htask
    exact absurd htask List.not_mem_nil

end

/-! ## A run that falls through

`K = 1`, `Z = 2`, every flush larger than all capacities in play. Three flushes fill the lower slot
of level 1 and two more the upper one; two runs on the largest level are within `Z`. The next two
flushes are promoted into a level without an empty slot. -/

/-- Flush number `n` of this run. -/
def largeFile (n : ℕ) : SstFileMetaData := .flushed (toString n) 100 n

/-- The promotion of the named flushes from level 0 to a slot of level 1. -/
def promoteFlushes (inputs : List ℕ) (outputLvl : ℕ) : CompactionTask where
  inputFileNames := inputs.map toString
  outputLvl := outputLvl
  compactOptions := ⟨.noCompression, 1⟩
  originLvl := 0
  targetLvl := 1

/-- The file such a promotion writes. -/
def promotedFile (name : String) (inputs : List ℕ) : SstFileMetaData :=
  ⟨name, 100 * inputs.length, false, inputs.toFinset⟩

def fillLevelOne : List TreeEvent :=
  [.flush (largeFile 6), .compact (promoteFlushes [5, 4] 2) (.success [promotedFile "b" [5, 4]]),
    .flush (largeFile 5), .flush (largeFile 4),
    .compact (promoteFlushes [3, 2, 1] 3) (.success [promotedFile "a" [3, 2, 1]]),
    .flush (largeFile 3), .flush (largeFile 2), .flush (largeFile 1)]

/-- Without `Z ≤ K` the search falls through. -/
theorem not_promotesIntoFreeSlots_small :
    ¬∀ (h : List TreeEvent) (s s' : TreeState) (e : TreeEvent),
      (treeSystem (.small 1 2 4) .exact).Run Promised h s → Promised s e →
        (treeSystem (.small 1 2 4) .exact).step s e = some s' →
          PromotesIntoFreeSlots (.small 1 2 4) s s' := by
  intro hall
  obtain ⟨s, s', hrun, hp, hs, task, htask, hnew, hpromote, hout⟩ :=
    StepSystem.exists_step_of_exec (M := treeSystem (.small 1 2 4) .exact) (P := Promised)
      (R := fun s s' ↦ ∃ task ∈ s'.tasks, task ∉ s.tasks ∧ task.originLvl < task.targetLvl
        ∧ s'.db.filesAt task.outputLvl ≠ [])
      (h := fillLevelOne) (e := .flush (largeFile 7)) (by decide +kernel)
  exact hout (hall _ s s' _ hrun hp hs task htask hnew hpromote).output_nil

/-- With `Z = 1` two large flushes are promoted into an empty level. -/
theorem promotesIntoFreeSlots_small :
    ∃ s s', (treeSystem (.small 1 1 6) .exact).step s (.flush (largeFile 2)) = some s'
      ∧ s'.tasks ≠ [] ∧ PromotesIntoFreeSlots (.small 1 1 6) s s' := by
  obtain ⟨s, s', hrun, hp, hs, hne⟩ :=
    StepSystem.exists_step_of_exec (M := treeSystem (.small 1 1 6) .exact) (P := Promised)
      (R := fun _ s' ↦ s'.tasks ≠ []) (h := [.flush (largeFile 1)]) (e := .flush (largeFile 2))
      (by decide +kernel)
  exact ⟨s, s', hs, hne,
    promotesIntoFreeSlots_of_le .exact (by decide) (by decide) hrun hp hs⟩

end WorkloadAwareCompaction
