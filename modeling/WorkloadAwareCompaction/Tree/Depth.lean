import WorkloadAwareCompaction.Tree.Bytes

/-!
# The depth of the tree is logarithmic in its data

The capacity of a level is the entry bar of the next one: a level is promoted only when its files
outgrow its capacity. So every run below the top is larger than the capacity of the level above it,
and stays so: a merge inside a level keeps at least one such run whole, and a promotion into an
occupied slot only adds to it. No relation between `K` and `Z` is needed.
-/

namespace WorkloadAwareCompaction

open FluidLSM ColumnFamilyMetaData

/-- Runs of level `l` exceed the capacity of level `l - 1`, and so does the data when `l` is the
largest occupied level. -/
structure DepthBounded (cfg : Config) (db : ColumnFamilyMetaData) : Prop where
  runs : ∀ l, 1 ≤ l → ∀ run ∈ (fluidView cfg db).runsAt l, run.files ≠ [] →
    cfg.capacity (l - 1) < totalBytes run.files
  depth : 1 ≤ (fluidView cfg db).getLargestOccupiedLevel →
    cfg.capacity ((fluidView cfg db).getLargestOccupiedLevel - 1) < totalBytes db.allFiles

/-- The same, store level by store level. -/
def LargeRuns (cfg : Config) (db : ColumnFamilyMetaData) : Prop :=
  ∀ i, 1 ≤ cfg.fluidLvl i → db.filesAt i ≠ [] →
    cfg.capacity (cfg.fluidLvl i - 1) < totalBytes (db.filesAt i)

section

variable {cfg : Config} {db db₀ : ColumnFamilyMetaData} {task : CompactionTask}
  {fresh outputs : List SstFileMetaData}

theorem LargeRuns.depthBounded (h : LargeRuns cfg db) (hstore : StoreInv cfg db) :
    DepthBounded cfg db where
  runs := by
    intro l hl run hrun hne
    rw [runsAt_fluidView_pos hstore.two_le hstore.levels hl] at hrun
    obtain ⟨i, hi, rfl⟩ := List.mem_map.mp hrun
    obtain ⟨-, rfl⟩ := (mem_slots hl).mp hi
    rw [Run.files_ofFiles] at hne ⊢
    exact h i hl hne
  depth := by
    intro hl
    obtain ⟨i, hi, hne⟩ := exists_fluidLvl_eq_largest hstore.two_le hstore.levels (by omega)
    rw [← hi] at hl ⊢
    refine (h i hl hne).trans_le ?_
    have hlt : i ∈ List.range db.numLevels := by
      obtain ⟨f, hf⟩ := List.exists_mem_of_ne_nil _ hne
      exact List.mem_range.mpr (lt_numLevels_of_mem hf)
    rw [allFiles, levels_eq_map db, List.flatMap_map, totalBytes_flatMap]
    exact List.single_le_sum (fun _ _ ↦ Nat.zero_le _) _ (List.mem_map_of_mem hlt)

/-- A level holds at least the bytes of each of its store levels. -/
theorem totalBytes_le_levelBytes (cfg : Config) {i : ℕ} (hi : i < db.numLevels) :
    totalBytes (db.filesAt i) ≤ levelBytes cfg db (cfg.fluidLvl i) :=
  Finset.single_le_sum (f := fun i ↦ totalBytes (db.filesAt i)) (fun _ _ ↦ Nat.zero_le _)
    (mem_storeLevels.mpr ⟨hi, rfl⟩)

/-- **The entry bar.** A task that writes below the top carries more than the capacity of the level
above its target. -/
theorem Picked.capacity_lt (h : Picked cfg .exact db task) (hstore : StoreInv cfg db)
    (hT : 1 ≤ cfg.sizeRatio) (hlarge : LargeRuns cfg db) (htarget : 1 ≤ task.targetLvl) :
    cfg.capacity (task.targetLvl - 1) < levelBytes cfg db task.originLvl := by
  rcases h.target_cases hstore hT with ⟨hnext, hsize⟩ | hstay
  · rwa [hnext, Nat.add_sub_cancel]
  · -- A merge inside a level takes one of its runs whole.
    have hover := h.deepest.1
    rw [overBound_eq_true, toConfig_fluidView,
      numLiveRunsAt_fluidView hstore.two_le hstore.levels hstore.unmarked, if_neg (by omega)]
      at hover
    obtain ⟨i, hi⟩ : (occupiedLevels cfg db task.originLvl).Nonempty := by
      rw [← Finset.card_pos]
      omega
    obtain ⟨-, hlvl, hne⟩ := mem_occupiedLevels.mp hi
    obtain ⟨f, hf⟩ := List.exists_mem_of_ne_nil _ hne
    have hrun := hlarge i (by omega) hne
    have hle := totalBytes_le_levelBytes cfg (lt_numLevels_of_mem hf)
    rw [hlvl] at hrun hle
    rw [hstay]
    omega

theorem InFlight.largeRuns (h : InFlight cfg .exact db task db₀ fresh) (hlarge : LargeRuns cfg db) :
    LargeRuns cfg db₀ := by
  intro i hi hne
  have hi0 := Config.ne_zero_of_fluidLvl_pos hi
  rw [← h.below i hi0] at hne ⊢
  exact hlarge i hi hne

theorem InFlight.largeRuns_replaceFiles (h : InFlight cfg .exact db task db₀ fresh)
    (hstore : StoreInv cfg db) (hT : 1 ≤ cfg.sizeRatio) (hlarge : LargeRuns cfg db)
    (hout : task.outputLvl < db.numLevels)
    (hsize : totalBytes outputs = totalBytes (db.inputs task)) :
    LargeRuns cfg (db.replaceFiles task.inputFileNames task.outputLvl outputs) := by
  intro i hi
  have hi0 := Config.ne_zero_of_fluidLvl_pos hi
  rw [h.filesAt_replaceFiles hstore hout, if_neg hi0, List.nil_append]
  intro hne
  by_cases hiout : i = task.outputLvl
  · -- The level written to holds at least all the bytes of the inputs.
    have hlvl : cfg.fluidLvl i = task.targetLvl := by
      rw [hiout, (h.landing hstore).fluidLvl_outputLvl]
    have hbar := h.picked.capacity_lt (h.store hstore) hT (h.largeRuns hlarge) (hlvl ▸ hi)
    rw [if_pos hiout, totalBytes_append, hsize, h.totalBytes_inputs hstore, hlvl]
    omega
  · rw [if_neg hiout, List.append_nil] at hne ⊢
    split_ifs at hne ⊢
    · exact absurd rfl hne
    · exact h.largeRuns hlarge i hi hne

/-- **The depth is logarithmic in the data**, on every run of an insert-only workload. -/
theorem depthBounded_of_run (hlev : 2 ≤ cfg.options.numLevels) (hT : 1 ≤ cfg.sizeRatio)
    {h : List TreeEvent} {s : TreeState} (hrun : (treeSystem cfg .exact).Run InsertOnly h s) :
    DepthBounded cfg s.db := by
  have hlarge : LargeRuns cfg s.db := by
    refine hrun.invariant (I := fun _ s ↦ LargeRuns cfg s.db) ?_ ?_
    · intro i _ hne
      exact absurd (filesAt_empty _ i) hne
    · intro h s e s' hrun hlarge hp hs
      have hinv := treeInv_of_insertOnly hlev hrun
      cases (hinv.step hp.1 hs).2 with
      | rest _ _ hdb' _ | schedule _ _ hdb' _ | overlap _ _ hdb' =>
        intro i hi
        rw [hdb', filesAt_addFlushed_of_ne (Config.ne_zero_of_fluidLvl_pos hi)]
        exact hlarge i hi
      | success htasks _ hout hdb' =>
        obtain ⟨db₀, fresh, hflight⟩ := hinv.flight _ (htasks ▸ List.mem_singleton_self _)
        rw [hdb']
        exact hflight.largeRuns_replaceFiles hinv.store hT hlarge hout hp.2
      | failure _ _ hdb' =>
        rw [hdb']
        exact hlarge
  exact hlarge.depthBounded (treeInv_of_insertOnly hlev hrun).store

end

/-- Two promotions into level 1, of which the larger holds more than its bar of one byte. -/
theorem depthBounded_small :
    ∃ s : TreeState, DepthBounded (.small 1 2 4) s.db
      ∧ (fluidView (.small 1 2 4) s.db).getLargestOccupiedLevel = 1
      ∧ Config.capacity (.small 1 2 4) 0 = 1 := by
  obtain ⟨s, hrun, hlargest⟩ :=
    StepSystem.exists_run_of_exec (M := treeSystem (.small 1 2 4) .exact) (P := InsertOnly)
      (R := fun s : TreeState ↦ (fluidView (.small 1 2 4) s.db).getLargestOccupiedLevel = 1)
      (h := fillLevelOne) (by decide +kernel)
  exact ⟨s, depthBounded_of_run (by decide) (by decide) hrun, hlargest, rfl⟩

end WorkloadAwareCompaction
