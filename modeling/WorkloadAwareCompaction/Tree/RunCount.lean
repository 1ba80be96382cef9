import WorkloadAwareCompaction.Tree.Promotion

/-!
# Compactions come to an end

Neither the depth nor the size of the tree measures the progress of a compaction: a merge inside a
level leaves the data where it was and may arm the trigger again. The number of sorted runs does.
A task takes all runs of a level that is over its bound, so at least two of them, and writes at most
one, wherever it lands. A flush adds one run. The number of runs is therefore a potential that every
successful compaction lowers and only flushes raise.
-/

namespace WorkloadAwareCompaction

open FluidLSM ColumnFamilyMetaData

namespace TreeEvent

def isFlush : TreeEvent → Bool
  | flush _ => true
  | compact _ _ => false

def isSuccess : TreeEvent → Bool
  | compact _ (.success _) => true
  | _ => false

end TreeEvent

/-- The levels from 1 on that hold a file. -/
def ColumnFamilyMetaData.deepRuns (db : ColumnFamilyMetaData) : Finset ℕ :=
  (Finset.range db.numLevels).filter fun i ↦ 1 ≤ i ∧ db.filesAt i ≠ []

theorem ColumnFamilyMetaData.mem_deepRuns {db : ColumnFamilyMetaData} {i : ℕ} :
    i ∈ db.deepRuns ↔ 1 ≤ i ∧ db.filesAt i ≠ [] := by
  rw [deepRuns, Finset.mem_filter, Finset.mem_range, and_iff_right_iff_imp]
  rintro ⟨-, hne⟩
  obtain ⟨f, hf⟩ := List.exists_mem_of_ne_nil _ hne
  exact lt_numLevels_of_mem hf

/-- The sorted runs: one for each file of level 0, and one for each deeper level with a file. -/
theorem ColumnFamilyMetaData.length_sortedRuns (db : ColumnFamilyMetaData) :
    db.sortedRuns.length = (db.filesAt 0).length + db.deepRuns.card := by
  have hdeep : db.deepRuns
      = ((List.range' 1 (db.numLevels - 1)).filter fun i ↦ !(db.filesAt i).isEmpty).toFinset := by
    ext i
    rw [mem_deepRuns, List.mem_toFinset, List.mem_filter, List.mem_range'_1, Bool.not_eq_true',
      List.isEmpty_eq_false_iff]
    constructor
    · rintro ⟨hi, hne⟩
      obtain ⟨f, hf⟩ := List.exists_mem_of_ne_nil _ hne
      have := lt_numLevels_of_mem hf
      exact ⟨by omega, hne⟩
    · rintro ⟨hi, hne⟩
      exact ⟨hi.1, hne⟩
  have htop : ((db.filesAt 0).map fun file ↦ [file]).filter (fun files ↦ !files.isEmpty)
      = (db.filesAt 0).map fun file ↦ [file] :=
    List.filter_eq_self.mpr (by simp)
  rw [sortedRuns, List.filter_append, htop, List.length_append, List.length_map, List.filter_map,
    List.length_map, hdeep, List.toFinset_card_of_nodup (List.Nodup.filter _ List.nodup_range')]
  rfl

section

variable {cfg : Config} {fp : DoubleArith} {db db₀ : ColumnFamilyMetaData} {task : CompactionTask}
  {fresh : List SstFileMetaData}

/-- A level over its bound has at least two runs. -/
theorem Picked.two_le_runs (h : Picked cfg fp db task) (hstore : StoreInv cfg db)
    (hK : 1 ≤ cfg.smallerLvlRunsCount) (hZ : 1 ≤ cfg.largerLvlRunsCount) :
    2 ≤ (if task.originLvl = 0 then (db.filesAt 0).length else 0)
      + (occupiedLevels cfg db task.originLvl).card := by
  have hover := h.deepest.1
  rw [overBound_eq_true, toConfig_fluidView,
    numLiveRunsAt_fluidView hstore.two_le hstore.levels hstore.unmarked] at hover
  omega

/-- The runs a task takes below level 0 are replaced by at most one. -/
theorem InFlight.card_deepRuns_replaceFiles (h : InFlight cfg fp db task db₀ fresh)
    (hstore : StoreInv cfg db) (hout : task.outputLvl < db.numLevels)
    (outputs : List SstFileMetaData) :
    (db.replaceFiles task.inputFileNames task.outputLvl outputs).deepRuns.card
        + (occupiedLevels cfg db₀ task.originLvl).card ≤ db.deepRuns.card + 1 := by
  have hsub : (db.replaceFiles task.inputFileNames task.outputLvl outputs).deepRuns
      ⊆ insert task.outputLvl (db.deepRuns \ occupiedLevels cfg db₀ task.originLvl) := by
    intro i hi
    obtain ⟨hi1, hne⟩ := mem_deepRuns.mp hi
    rw [h.filesAt_replaceFiles hstore hout, if_neg (by omega), List.nil_append] at hne
    by_cases hiout : i = task.outputLvl
    · exact Finset.mem_insert.mpr (Or.inl hiout)
    · rw [if_neg hiout, List.append_nil] at hne
      split_ifs at hne with hlvl
      · exact absurd rfl hne
      · refine Finset.mem_insert.mpr (Or.inr (Finset.mem_sdiff.mpr ⟨?_, ?_⟩))
        · exact mem_deepRuns.mpr ⟨hi1, by rwa [h.below i (by omega)]⟩
        · exact fun hocc ↦ hlvl (mem_occupiedLevels.mp hocc).2.1
  have htaken : occupiedLevels cfg db₀ task.originLvl ⊆ db.deepRuns := by
    intro i hi
    obtain ⟨hi1, -, hne⟩ := mem_occupiedLevels.mp hi
    exact mem_deepRuns.mpr ⟨hi1, by rwa [h.below i (by omega)]⟩
  have hcard := (Finset.card_le_card hsub).trans (Finset.card_insert_le _ _)
  rw [Finset.card_sdiff_of_subset htaken] at hcard
  have hle := Finset.card_le_card htaken
  omega

/-- A task out of level 0 takes the files level 0 had when it was picked. -/
theorem InFlight.length_filesAt_zero_replaceFiles (h : InFlight cfg fp db task db₀ fresh)
    (hstore : StoreInv cfg db) (hout : task.outputLvl < db.numLevels)
    (outputs : List SstFileMetaData) :
    ((db.replaceFiles task.inputFileNames task.outputLvl outputs).filesAt 0).length
      + (if task.originLvl = 0 then (db₀.filesAt 0).length else 0) = (db.filesAt 0).length := by
  have hzero : cfg.fluidLvl 0 = 0 := Config.fluidLvl_eq_zero_iff.mpr (Nat.zero_le _)
  rw [h.filesAt_replaceFiles hstore hout, if_pos rfl, if_neg (h.landing hstore).outputLvl_pos.ne,
    List.append_nil, h.top, hzero]
  by_cases horigin : task.originLvl = 0
  · simp [horigin]
  · simp [horigin, Ne.symm horigin]

/-- **Success costs a run.** -/
theorem InFlight.length_sortedRuns_lt (h : InFlight cfg fp db task db₀ fresh)
    (hstore : StoreInv cfg db) (hK : 1 ≤ cfg.smallerLvlRunsCount)
    (hZ : 1 ≤ cfg.largerLvlRunsCount) (hout : task.outputLvl < db.numLevels)
    (outputs : List SstFileMetaData) :
    (db.replaceFiles task.inputFileNames task.outputLvl outputs).sortedRuns.length
      < db.sortedRuns.length := by
  have hdeep := h.card_deepRuns_replaceFiles hstore hout outputs
  have htop := h.length_filesAt_zero_replaceFiles hstore hout outputs
  have htwo := h.picked.two_le_runs (h.store hstore) hK hZ
  rw [length_sortedRuns, length_sortedRuns]
  omega

theorem length_sortedRuns_addFlushed (hdb : 2 ≤ db.numLevels) (file : SstFileMetaData) :
    (db.addFlushed file).sortedRuns.length = db.sortedRuns.length + 1 := by
  have hdeep : (db.addFlushed file).deepRuns = db.deepRuns := by
    ext i
    rw [mem_deepRuns, mem_deepRuns]
    refine and_congr_right fun hi ↦ ?_
    rw [filesAt_addFlushed_of_ne (by omega)]
  rw [length_sortedRuns, length_sortedRuns, hdeep, filesAt_addFlushed_zero (by omega),
    List.length_cons]
  omega

/-- What a step does to the number of runs. -/
theorem length_sortedRuns_step (hlev : 2 ≤ cfg.options.numLevels)
    (hK : 1 ≤ cfg.smallerLvlRunsCount) (hZ : 1 ≤ cfg.largerLvlRunsCount) {h : List TreeEvent}
    {s s' : TreeState} {e : TreeEvent} (hrun : (treeSystem cfg fp).Run Promised h s)
    (hp : Promised s e) (hs : (treeSystem cfg fp).step s e = some s') :
    s'.db.sortedRuns.length + e.isSuccess.toNat ≤ s.db.sortedRuns.length + e.isFlush.toNat := by
  have hinv := treeInv_of_run hlev hrun
  cases (hinv.step hp hs).2 with
  | rest _ _ hdb' _ | schedule _ _ hdb' _ | overlap _ _ hdb' =>
    rw [hdb', length_sortedRuns_addFlushed hinv.store.two_le]
    rfl
  | success htasks _ hout hdb' =>
    obtain ⟨db₀, fresh, hflight⟩ := hinv.flight _ (htasks ▸ List.mem_singleton_self _)
    rw [hdb']
    exact hflight.length_sortedRuns_lt hinv.store hK hZ hout _
  | failure _ _ hdb' =>
    rw [hdb']
    rfl

/-- **Compactions cannot go on for ever.** After every run, successes and remaining runs together
are at most the flushes; and without a new flush at most as many more compactions succeed as there
are runs. -/
theorem successes_add_runs_le (hlev : 2 ≤ cfg.options.numLevels)
    (hK : 1 ≤ cfg.smallerLvlRunsCount) (hZ : 1 ≤ cfg.largerLvlRunsCount) {h : List TreeEvent}
    {s : TreeState} (hrun : (treeSystem cfg fp).Run Promised h s) :
    h.countP TreeEvent.isSuccess + s.db.sortedRuns.length ≤ h.countP TreeEvent.isFlush
      ∧ ∀ h' s', (treeSystem cfg fp).Run Promised (h' ++ h) s' →
          h'.countP TreeEvent.isFlush = 0 →
          h'.countP TreeEvent.isSuccess ≤ s.db.sortedRuns.length := by
  have hstep (h : List TreeEvent) (s : TreeState) (e : TreeEvent) (s' : TreeState) hrun hp hs :=
    @length_sortedRuns_step cfg fp hlev hK hZ h s s' e hrun hp hs
  -- The run count is the potential: a success costs one, a flush refills one.
  constructor
  · have hstart : (treeSystem cfg fp).init.db.sortedRuns.length = 0 := by
      have hnil : ∀ i, (ColumnFamilyMetaData.empty cfg.options.numLevels).filesAt i = [] :=
        fun i ↦ filesAt_empty _ i
      rw [length_sortedRuns]
      simp [treeSystem, TreeState.init, deepRuns, hnil]
    have hbound := StepSystem.Run.potential hstep .start (by rwa [List.append_nil])
    omega
  · intro h' s' hrun' hflush
    have hbound := StepSystem.Run.potential hstep hrun hrun'
    omega

end

/-- Six flushes, two successes, three runs left. -/
theorem successes_add_runs_le_small :
    ∃ s : TreeState, (fillLevelOne.countP TreeEvent.isSuccess + s.db.sortedRuns.length
        ≤ fillLevelOne.countP TreeEvent.isFlush)
      ∧ s.db.sortedRuns.length = 3 := by
  obtain ⟨s, hrun, hlength⟩ :=
    StepSystem.exists_run_of_exec (M := treeSystem (.small 1 2 4) .exact) (P := Promised)
      (R := fun s : TreeState ↦ s.db.sortedRuns.length = 3) (h := fillLevelOne) (by decide +kernel)
  exact ⟨s, (successes_add_runs_le (by decide) (by decide) (by decide) hrun).1, hlength⟩

end WorkloadAwareCompaction
