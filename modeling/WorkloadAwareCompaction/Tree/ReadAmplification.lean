import WorkloadAwareCompaction.Tree.Depth
import WorkloadAwareCompaction.Tree.RunCount
import WorkloadAwareCompaction.Tree.WriteAmplification

/-!
# Read amplification

A read looks at one sorted run after the other. A tree within its bounds has at most `K` of them on
each level above the largest occupied one, and `Z` on that. But a tree can rest over its bounds: the
end of a task schedules nothing, and what is due waits for the next flush.

It is no more than one run that waits. A flush without an outstanding task leaves the tree within
its bounds or schedules a task, and the task takes at least one run more than it writes, as many as
have been flushed. So a run that nothing pays for is added only by a flush that comes while a task is
outstanding, or kept by a task that fails (`TreeState.delays`). Apart from these the number of runs
never exceeds what the bounds allow (`sortedRuns_le_of_run`), and with an insert-only workload it is
logarithmic in the data (`sortedRuns_le_of_bytes`).
-/

namespace WorkloadAwareCompaction

open FluidLSM ColumnFamilyMetaData

/-- An event after which there is a run more than the tasks pay for: a flush while a task is
outstanding, or the failure of a task. -/
def TreeState.delays (s : TreeState) : TreeEvent → Bool
  | .flush _ => !s.tasks.isEmpty
  | .compact _ (.success _) => false
  | .compact _ (.failure _) => true

/-- The sorted runs, with the one that the next flush may add before a task is scheduled. -/
def TreeState.readCost (s : TreeState) : ℕ :=
  s.db.sortedRuns.length + if s.tasks = [] then 1 else 0

section

variable {cfg : Config} {fp : DoubleArith} {db : ColumnFamilyMetaData} {s s' : TreeState}
  {e : TreeEvent} {h : List TreeEvent} {k : ℕ}

/-! ## Within the bounds -/

/-- The deep runs, level by level. -/
theorem card_deepRuns_eq_sum (hstore : StoreInv cfg db) :
    db.deepRuns.card = ∑ l ∈ Finset.range ((fluidView cfg db).getLargestOccupiedLevel + 1),
      (occupiedLevels cfg db l).card := by
  have hmaps : ∀ i ∈ db.deepRuns,
      cfg.fluidLvl i ∈ Finset.range ((fluidView cfg db).getLargestOccupiedLevel + 1) := by
    intro i hi
    have hle := fluidLvl_le_largest hstore.two_le hstore.levels (mem_deepRuns.mp hi).2
    exact Finset.mem_range.mpr (Nat.lt_succ_of_le hle)
  rw [Finset.card_eq_sum_card_fiberwise hmaps]
  refine Finset.sum_congr rfl fun l _ ↦ congrArg Finset.card ?_
  ext i
  rw [Finset.mem_filter, mem_deepRuns, mem_occupiedLevels]
  tauto

/-- **The runs of a tree within its bounds.** -/
theorem WithinBounds.length_sortedRuns_le (h : WithinBounds cfg db) (hstore : StoreInv cfg db) :
    db.sortedRuns.length
      ≤ cfg.smallerLvlRunsCount * (fluidView cfg db).getLargestOccupiedLevel
        + cfg.largerLvlRunsCount := by
  have hlive : ∀ l ∈ Finset.range ((fluidView cfg db).getLargestOccupiedLevel + 1),
      (if l = 0 then (db.filesAt 0).length else 0) + (occupiedLevels cfg db l).card
        ≤ if l = (fluidView cfg db).getLargestOccupiedLevel then cfg.largerLvlRunsCount
          else cfg.smallerLvlRunsCount := by
    intro l hl
    have hbound := h l
    rw [← Bool.not_eq_true, overBound_eq_true, toConfig_fluidView,
      numLiveRunsAt_fluidView hstore.two_le hstore.levels hstore.unmarked] at hbound
    generalize (if l = 0 then (db.filesAt 0).length else 0) + (occupiedLevels cfg db l).card = live
      at hbound ⊢
    have hle := Finset.mem_range.mp hl
    split_ifs <;> omega
  have htop : ∑ l ∈ Finset.range ((fluidView cfg db).getLargestOccupiedLevel + 1),
      (if l = 0 then (db.filesAt 0).length else 0) = (db.filesAt 0).length := by
    rw [Finset.sum_ite_eq', if_pos (Finset.mem_range.mpr (Nat.succ_pos _))]
  have hsmaller : ∀ l ∈ Finset.range (fluidView cfg db).getLargestOccupiedLevel,
      (if l = (fluidView cfg db).getLargestOccupiedLevel then cfg.largerLvlRunsCount
        else cfg.smallerLvlRunsCount) = cfg.smallerLvlRunsCount :=
    fun l hl ↦ if_neg (Finset.mem_range.mp hl).ne
  calc db.sortedRuns.length
      = ∑ l ∈ Finset.range ((fluidView cfg db).getLargestOccupiedLevel + 1),
          ((if l = 0 then (db.filesAt 0).length else 0) + (occupiedLevels cfg db l).card) := by
        rw [length_sortedRuns, card_deepRuns_eq_sum hstore, Finset.sum_add_distrib, htop]
    _ ≤ ∑ l ∈ Finset.range ((fluidView cfg db).getLargestOccupiedLevel + 1),
          (if l = (fluidView cfg db).getLargestOccupiedLevel then cfg.largerLvlRunsCount
            else cfg.smallerLvlRunsCount) := Finset.sum_le_sum hlive
    _ = _ := by
        rw [Finset.sum_range_succ, if_pos rfl, Finset.sum_const_nat hsmaller, Finset.card_range,
          Nat.mul_comm]

/-! ## Along a run -/

/-- **One step.** -/
theorem readCost_step (hlev : 2 ≤ cfg.options.numLevels) (hK : 1 ≤ cfg.smallerLvlRunsCount)
    (hZ : 1 ≤ cfg.largerLvlRunsCount) (hrun : (treeSystem cfg fp).Run Promised h s)
    (hp : Promised s e) (hs : (treeSystem cfg fp).step s e = some s') :
    s'.tasks = [] ∧ WithinBounds cfg s'.db
      ∨ s'.readCost ≤ s.readCost + (s.delays e).toNat := by
  have hcount := length_sortedRuns_step hlev hK hZ hrun hp hs
  rw [TreeState.readCost, TreeState.readCost]
  cases ((treeInv_of_run hlev hrun).step hp hs).2 with
  | rest _ htasks' _ hbounds => exact Or.inl ⟨htasks', hbounds⟩
  | schedule htasks htasks' _ _ =>
    -- The task will take the run that has been flushed.
    right
    rw [htasks, htasks', if_pos rfl, if_neg (List.cons_ne_nil _ _)]
    exact Nat.le_add_right_of_le hcount
  | overlap htasks htasks' _ =>
    right
    rw [TreeState.delays, htasks, htasks', if_neg (List.cons_ne_nil _ _)]
    exact hcount
  | success htasks htasks' _ _ =>
    right
    rw [htasks, htasks', if_pos rfl, if_neg (List.cons_ne_nil _ _)]
    exact Nat.le_add_right_of_le hcount
  | failure htasks htasks' _ =>
    right
    rw [TreeState.delays, htasks, htasks', if_pos rfl, if_neg (List.cons_ne_nil _ _)]
    exact Nat.add_le_add_right hcount 1

theorem readCost_init : (TreeState.init cfg).readCost = 1 := by
  have hnil : ∀ i, (ColumnFamilyMetaData.empty cfg.options.numLevels).filesAt i = [] :=
    fun i ↦ filesAt_empty _ i
  rw [TreeState.readCost, length_sortedRuns]
  simp [TreeState.init, deepRuns, hnil]

/-- The number of runs, given how deep the tree has been so far. -/
theorem sortedRuns_le_of_depth {P : TreeState → TreeEvent → Prop}
    (hP : ∀ s e, P s e → Promised s e) (hlev : 2 ≤ cfg.options.numLevels)
    (hK : 1 ≤ cfg.smallerLvlRunsCount) (hZ : 1 ≤ cfg.largerLvlRunsCount)
    (hrun : (treeSystem cfg fp).Run P h s)
    (hdepth : ∀ h' s', h' <:+ h → (treeSystem cfg fp).Run P h' s' →
      (fluidView cfg s'.db).getLargestOccupiedLevel ≤ k) :
    s.db.sortedRuns.length ≤ cfg.smallerLvlRunsCount * k + cfg.largerLvlRunsCount
      + s.tasks.length + (treeSystem cfg fp).countAt TreeState.delays h := by
  have hinit : (treeSystem cfg fp).init.readCost
      ≤ cfg.smallerLvlRunsCount * k + cfg.largerLvlRunsCount + 1 := by
    rw [treeSystem, readCost_init]
    exact Nat.le_add_left _ _
  have hcost := hrun.le_add_countAt (f := TreeState.readCost) (p := TreeState.delays) hinit ?_
  · rw [TreeState.readCost] at hcost
    rcases eq_or_ne s.tasks [] with hidle | hbusy
    · rw [if_pos hidle] at hcost
      omega
    · have hpos := List.length_pos_iff.mpr hbusy
      rw [if_neg hbusy] at hcost
      omega
  · intro h' s' e s'' hsuf hrun' hp hs
    rcases readCost_step hlev hK hZ (hrun'.mono hP) (hP _ _ hp) hs with ⟨hidle, hbounds⟩ | hraise
    · have hrun'' := hrun'.step hp hs
      have hruns := hbounds.length_sortedRuns_le (treeInv_of_run hlev (hrun''.mono hP)).store
      have hmul := Nat.mul_le_mul_left cfg.smallerLvlRunsCount (hdepth _ _ hsuf hrun'')
      rw [TreeState.readCost, if_pos hidle]
      exact Or.inl (by omega)
    · exact Or.inr hraise

/-- No level is deeper than the last level of the store. -/
theorem getLargestOccupiedLevel_le (hstore : StoreInv cfg db) :
    (fluidView cfg db).getLargestOccupiedLevel ≤ cfg.fluidLvl (cfg.options.numLevels - 1) := by
  rcases eq_or_ne (fluidView cfg db).getLargestOccupiedLevel 0 with hzero | hpos
  · rw [hzero]
    exact Nat.zero_le _
  · obtain ⟨i, hi, hne⟩ := exists_fluidLvl_eq_largest hstore.two_le hstore.levels hpos
    obtain ⟨f, hf⟩ := List.exists_mem_of_ne_nil _ hne
    have hlt := lt_numLevels_of_mem hf
    rw [hstore.levels] at hlt
    rw [← hi]
    exact cfg.fluidLvl_mono (by omega)

/-- **Read amplification.** In every run, with whatever workload and whatever rounding, the sorted
runs are at most `K` for each fluid level of the store but the last and `Z` for that, one for the
task that is outstanding, and one for each flush that came while a task was outstanding and for each
task that failed. -/
theorem sortedRuns_le_of_run (hlev : 2 ≤ cfg.options.numLevels)
    (hK : 1 ≤ cfg.smallerLvlRunsCount) (hZ : 1 ≤ cfg.largerLvlRunsCount)
    (hrun : (treeSystem cfg fp).Run Promised h s) :
    s.db.sortedRuns.length
      ≤ cfg.smallerLvlRunsCount * cfg.fluidLvl (cfg.options.numLevels - 1)
        + cfg.largerLvlRunsCount + s.tasks.length
        + (treeSystem cfg fp).countAt TreeState.delays h :=
  sortedRuns_le_of_depth (fun _ _ ↦ id) hlev hK hZ hrun fun _ _ _ hrun' ↦
    getLargestOccupiedLevel_le (treeInv_of_run hlev hrun').store

/-- A flush while a task is outstanding, and the failure of the task: two delays. -/
theorem sortedRuns_le_of_run_small :
    let h : List TreeEvent := [.compact (promoteFlushes [2, 1] 3) (.failure .ioError),
      .flush (largeFile 3), .flush (largeFile 2), .flush (largeFile 1)]
    ∃ s : TreeState, s.db.sortedRuns.length = 3 ∧ s.tasks = []
      ∧ (treeSystem (.small 1 1 6) .exact).countAt TreeState.delays h = 2
      ∧ s.db.sortedRuns.length ≤ 1 * 2 + 1 + 0 + 2 := by
  intro h
  have hdelays : (treeSystem (.small 1 1 6) .exact).countAt TreeState.delays h = 2 := by
    decide +kernel
  obtain ⟨s, hrun, hruns, hidle⟩ :=
    StepSystem.exists_run_of_exec (M := treeSystem (.small 1 1 6) .exact) (P := Promised)
      (R := fun s : TreeState ↦ s.db.sortedRuns.length = 3 ∧ s.tasks = []) (h := h)
      (by decide +kernel)
  have hlast : (Config.small 1 1 6).fluidLvl ((Config.small 1 1 6).options.numLevels - 1) = 2 := by
    decide +kernel
  have hle := sortedRuns_le_of_run (by decide) (by decide) (by decide) hrun
  rw [hdelays, hidle, hlast] at hle
  exact ⟨s, hruns, hidle, hdelays, hle⟩

/-! ## Insert-only workloads -/

theorem Config.capacity_mono (hT : 1 ≤ cfg.sizeRatio) {l l' : ℕ} (hl : l ≤ l') :
    cfg.capacity l ≤ cfg.capacity l' :=
  Nat.mul_le_mul_left _ (Nat.pow_le_pow_right hT hl)

theorem bytesFlushed_le_of_suffix {h' : List TreeEvent} (hsuf : h' <:+ h) :
    bytesFlushed h' ≤ bytesFlushed h := by
  obtain ⟨newer, rfl⟩ := hsuf
  rw [bytesFlushed, bytesFlushed, List.map_append, List.sum_append]
  exact Nat.le_add_left _ _

/-- What is stored along a run: all bytes that were flushed, below the top in large runs. -/
theorem stored_of_run (hlev : 2 ≤ cfg.options.numLevels) (hT : 1 ≤ cfg.sizeRatio)
    (hrun : (treeSystem cfg .exact).Run InsertOnly h s) :
    totalBytes s.db.allFiles = bytesFlushed h ∧ LargeRuns cfg s.db := by
  refine hrun.invariant (I := fun h s ↦ totalBytes s.db.allFiles = bytesFlushed h
    ∧ LargeRuns cfg s.db) ⟨?_, fun i _ hne ↦ absurd (filesAt_empty _ i) hne⟩ ?_
  · rw [treeSystem, TreeState.init, allFiles_empty]
    rfl
  · rintro h s e s' hrun ⟨hstored, hlarge⟩ hp hs
    have hinv := treeInv_of_insertOnly hlev hrun
    rw [bytesFlushed_cons]
    cases (hinv.step hp.1 hs).2 with
    | rest _ _ hdb' _ | schedule _ _ hdb' _ | overlap _ _ hdb' =>
      have htwo := hinv.store.two_le
      rw [hdb', allFiles_addFlushed (by omega)]
      refine ⟨congrArg _ hstored, fun i hi ↦ ?_⟩
      rw [filesAt_addFlushed_of_ne (Config.ne_zero_of_fluidLvl_pos hi)]
      exact hlarge i hi
    | @success task outputs htasks _ hout hdb' =>
      obtain ⟨db₀, fresh, hflight⟩ := hinv.flight _ (htasks ▸ List.mem_singleton_self _)
      have hbytes := totalBytes_replaceFiles task outputs hout
      have hsize : totalBytes outputs = totalBytes (s.db.inputs task) := hp.2
      rw [hdb', TreeEvent.bytesFlushed]
      exact ⟨by omega, hflight.largeRuns_replaceFiles hinv.store hT hlarge hout hsize⟩
    | failure _ _ hdb' =>
      rw [hdb', TreeEvent.bytesFlushed, Nat.zero_add]
      exact ⟨hstored, hlarge⟩

/-- **Read amplification of an insert-only workload.** If what was flushed fits into level `k`, then
the sorted runs are at most `K` for each of the levels above it and `Z`, with one for the outstanding
task and one for each delay as before. As the capacities grow by the factor `T`, this is logarithmic
in the data. -/
theorem sortedRuns_le_of_bytes (hlev : 2 ≤ cfg.options.numLevels) (hT : 1 ≤ cfg.sizeRatio)
    (hK : 1 ≤ cfg.smallerLvlRunsCount) (hZ : 1 ≤ cfg.largerLvlRunsCount)
    (hrun : (treeSystem cfg .exact).Run InsertOnly h s) (hbytes : bytesFlushed h ≤ cfg.capacity k) :
    s.db.sortedRuns.length ≤ cfg.smallerLvlRunsCount * k + cfg.largerLvlRunsCount
      + s.tasks.length + (treeSystem cfg .exact).countAt TreeState.delays h := by
  refine sortedRuns_le_of_depth (fun _ _ ↦ And.left) hlev hK hZ hrun fun h' s' hsuf hrun' ↦ ?_
  obtain ⟨hstored, hlarge⟩ := stored_of_run hlev hT hrun'
  have hdepth := (hlarge.depthBounded (treeInv_of_insertOnly hlev hrun').store).depth
  by_contra hdeep
  -- A deeper level would mean more data than the capacity of level `k`.
  have hdata : cfg.capacity ((fluidView cfg s'.db).getLargestOccupiedLevel - 1)
      < bytesFlushed h' := hstored ▸ hdepth (by omega)
  have hcapacity := Config.capacity_mono hT
    (show k ≤ (fluidView cfg s'.db).getLargestOccupiedLevel - 1 by omega)
  have hflushed := bytesFlushed_le_of_suffix hsuf
  omega

/-- With `T = 4`, three bytes fit into level 0. It keeps two runs, one more than `Z`, as one of the
flushes came while the others were merged; no task is outstanding. -/
theorem sortedRuns_le_of_bytes_small :
    ∃ (cfg : Config) (h : List TreeEvent) (s : TreeState),
      (treeSystem cfg .exact).Run InsertOnly h s ∧ bytesFlushed h = 3 ∧ cfg.capacity 0 = 3
        ∧ s.db.sortedRuns.length = 2 ∧ s.tasks = []
        ∧ s.db.sortedRuns.length ≤ 1 * 0 + 1 + 0 + 1 := by
  let cfg : Config := { Config.small 1 1 6 with sizeRatio := 4 }
  let merge : CompactionTask := ⟨["2", "1"], 1, ⟨.noCompression, 1⟩, 0, 0⟩
  let h : List TreeEvent := [.compact merge (.success [⟨"a", 2, false, {2, 1}⟩]),
    .flush (.flushed "3" 1 3), .flush (.flushed "2" 1 2), .flush (.flushed "1" 1 1)]
  have hdelays : (treeSystem cfg .exact).countAt TreeState.delays h = 1 := by decide +kernel
  obtain ⟨s, hrun, hruns, hidle⟩ :=
    StepSystem.exists_run_of_exec (M := treeSystem cfg .exact) (P := InsertOnly)
      (R := fun s : TreeState ↦ s.db.sortedRuns.length = 2 ∧ s.tasks = []) (h := h)
      (by decide +kernel)
  have hle := sortedRuns_le_of_bytes (k := 0) (by decide) (by decide) (by decide) (by decide) hrun
    (by decide)
  rw [hdelays, hidle] at hle
  exact ⟨cfg, h, s, hrun, by decide, by decide, hruns, hidle, hle⟩

end

end WorkloadAwareCompaction
