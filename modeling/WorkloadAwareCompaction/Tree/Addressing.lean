import WorkloadAwareCompaction.Tree.Compaction

/-!
# Where compactions are addressed

A task is addressed to a level of the store that `ScheduleCompaction` computes from the target fluid
level alone: `1 + target * (K + 1)` or a slot above it. The source clamps `target_lvl` to
`num_levels - 1`, but only after that number and the slot search have used the unclamped value, and
in the numbering of the wrong tree. So whether a compaction is addressed to an existing level
depends on whether the store has the last level of the target, which a deep or unaligned tree need
not have.
-/

namespace WorkloadAwareCompaction

namespace FluidLSM

variable {t : FluidLSM} {db : ColumnFamilyMetaData}

/-- Every vector access of the slot search is in range, and every enqueued task is addressed to a
level of the store. -/
def Addressed (t : FluidLSM) (fp : DoubleArith) (db : ColumnFamilyMetaData) : Prop :=
  ∃ t' tasks, t.pickCompaction fp db = some (t', tasks)
    ∧ ∀ task ∈ tasks, task.outputLvl ≤ db.numLevels - 1

/-- A search that finds a slot of a complete level stays on it. -/
theorem findSlot_le {lvl : ℕ} (hfull : t.smallerLvlRunsCount < (t.runsAt lvl).length) :
    ∃ out, t.findSlot lvl (t.smallerLvlRunsCount + 1) = some out ∧ out ≤ t.rocksDBLvl lvl 0 := by
  obtain ⟨out, hout, ⟨slot, -, -, rfl, -⟩ | ⟨-, rfl⟩⟩ := findSlot_eq_some t lvl le_rfl hfull
  · exact ⟨_, hout, Nat.sub_le_sub_left (Nat.zero_le _) _⟩
  · exact ⟨_, hout, le_rfl⟩

/-- The address computed for a level over its bound, on a rebuilt view. -/
theorem outputLvl_lt_iff {lvl target : ℕ} (hdb : 2 ≤ db.numLevels)
    (ht : t.lazyLevels.length = db.numLevels) (htarget : target = lvl ∨ target = lvl + 1) :
    (∃ out, (t.buildStructure db).outputLvl lvl target = some out ∧ out < db.numLevels)
      ↔ t.rocksDBLvl target 0 < db.numLevels := by
  rcases htarget with rfl | rfl
  · rw [outputLvl, if_neg (lt_irrefl _), toConfig_buildStructure]
    exact ⟨fun ⟨_, hout, hlt⟩ ↦ Option.some.inj hout ▸ hlt, fun hlt ↦ ⟨_, rfl, hlt⟩⟩
  · have hfull := lt_length_runsAt_buildStructure_iff (Nat.succ_pos lvl) hdb ht
    rw [outputLvl, if_pos (Nat.lt_succ_self lvl), toConfig_buildStructure, ← hfull]
    constructor
    · rintro ⟨out, hout, -⟩
      by_contra hshort
      have hnone := findSlot_eq_none (t.buildStructure db) (lvl + 1)
        (by rw [toConfig_buildStructure]; exact not_lt.mp hshort)
      rw [toConfig_buildStructure] at hnone
      rw [hnone] at hout
      exact absurd hout (by simp)
    · intro hlt
      obtain ⟨out, hout, hle⟩ := findSlot_le (t := t.buildStructure db)
        (by rw [toConfig_buildStructure]; exact hlt)
      rw [toConfig_buildStructure] at hout hle
      exact ⟨out, hout, hle.trans_lt (hfull.mp hlt)⟩

/-- **When a compaction is addressed to an existing level.** The deepest level over its bound must
have a target whose last store level exists. The target is the level itself when the `long` that holds
the bytes of its idle files is at most the one that holds its capacity, and the next one otherwise.
-/
theorem addressed_iff (fp : DoubleArith) (hidle : t.parallelCompactionsRunning = 0)
    (hdb : 2 ≤ db.numLevels) (ht : t.lazyLevels.length = db.numLevels) :
    t.Addressed fp db
      ↔ ∀ lvl, (t.buildStructure db).DeepestOverBound lvl →
          t.rocksDBLvl ((t.buildStructure db).plannedTargetLvl fp lvl) 0 < db.numLevels := by
  rcases forall_or_deepestOverBound (t.buildStructure db) with hnone | ⟨lvl, hlvl⟩
  · -- Nothing is scheduled, so nothing is accessed.
    refine iff_of_true ⟨_, [], pickCompaction_of_forall fp hnone, by simp⟩ fun lvl hlvl ↦ ?_
    exact absurd hlvl.1 (by rw [hnone]; decide)
  · obtain ⟨t', -, -, -, hpick⟩ := pickCompaction_of_deepest fp hidle hlvl
    have haddr := outputLvl_lt_iff hdb ht
      (plannedTargetLvl_eq_or (t.buildStructure db) fp lvl)
    have hiff : t.Addressed fp db ↔ ∃ out, (t.buildStructure db).outputLvl lvl
        ((t.buildStructure db).plannedTargetLvl fp lvl) = some out ∧ out < db.numLevels := by
      rw [Addressed, hpick]
      constructor
      · rintro ⟨t'', tasks, htasks, hall⟩
        obtain ⟨out, hout, heq⟩ := Option.map_eq_some_iff.mp htasks
        rw [Prod.mk.injEq] at heq
        have := hall _ (heq.2 ▸ List.mem_singleton_self _)
        exact ⟨out, hout, by simp only [taskFor] at this; omega⟩
      · rintro ⟨out, hout, hlt⟩
        refine ⟨_, _, by rw [hout, Option.map_some], fun task htask ↦ ?_⟩
        rw [List.mem_singleton.mp htask]
        exact Nat.le_sub_one_of_lt hlt
    rw [hiff, haddr]
    constructor
    · intro hlt lvl' hlvl'
      rw [hlvl'.unique hlvl]
      exact hlt
    · exact fun h ↦ h lvl hlvl

-- On binary64 the capacity of level 11 for `T = 10` and a write buffer of 64 MiB is no `long`, so two
-- files of 5 bytes are promoted out of the last level.
example : (FluidLSM.new { Config.small 1 1 24 with
      sizeRatio := 10, options := ⟨24, 2 ^ 26, 2 ^ 26, .noCompression⟩ }).pickCompaction .binary64
    (.ofFiles (List.replicate 22 [] ++ [[.flushed "b" 5 1], [.flushed "a" 5 0]])) = none := by
  decide +kernel

/-- A level whose last slot the store lacks: with two store levels and `K = Z = 1`, two files of
level 0 outgrow its capacity, and the promotion reads a slot of a level without slots. -/
theorem not_addressed_small :
    ¬(FluidLSM.new (.small 1 1 2)).Addressed .binary64
      (.ofFiles [[.flushed "a" 5 1, .flushed "b" 5 0], []]) := by
  rintro ⟨t', tasks, hpick, -⟩
  have hnone : (FluidLSM.new (.small 1 1 2)).pickCompaction .binary64
      (.ofFiles [[.flushed "a" 5 1, .flushed "b" 5 0], []]) = none := by decide +kernel
  rw [hnone] at hpick
  exact absurd hpick (by simp)

/-- The same two files on a store with the two slots of level 1. -/
theorem addressed_small :
    (FluidLSM.new (.small 1 1 4)).Addressed .binary64
      (.ofFiles [[.flushed "a" 5 1, .flushed "b" 5 0], [], [], []]) := by
  refine (addressed_iff .binary64 rfl (by decide) (by decide)).mpr fun lvl hlvl ↦ ?_
  have hlargest : ((FluidLSM.new (.small 1 1 4)).buildStructure (.ofFiles
      [[.flushed "a" 5 1, .flushed "b" 5 0], [], [], []])).getLargestOccupiedLevel = 0 := by
    decide +kernel
  have hle := le_of_overBound hlvl.1
  rw [hlargest, Nat.le_zero] at hle
  subst hle
  decide +kernel

end FluidLSM

end WorkloadAwareCompaction
