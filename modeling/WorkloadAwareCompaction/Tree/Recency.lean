import WorkloadAwareCompaction.Library.AgeOrder
import WorkloadAwareCompaction.Tree.Promotion

/-!
# Reads see the newest entry

A read asks level 0 newest file first and then the deeper levels in order, and stops at the first
answer. So the store must be in age order after every step, and a task must not jump over data: no
file that it leaves behind may lie on the level it writes to, and one that lies above or below that
level must be newer or older than everything the task moves.

The second fact gives the first (`AgeOrder.AgeOrdered.replace`), and follows from it and the free
slot of a promotion: on the target level everything above the free slot is empty, and everything
outside the origin level is on the right side of it anyway. Flushes that arrive while the task is
outstanding stay in front of level 0, above every output.
-/

namespace WorkloadAwareCompaction

open FluidLSM ColumnFamilyMetaData AgeOrder

/-- A scheduled task fits the store it will run on. -/
structure TaskSound (cfg : Config) (db : ColumnFamilyMetaData) (task : CompactionTask) : Prop where
  /-- Every input is still in the store. -/
  present : ∀ name ∈ task.inputFileNames, name ∈ db.fileNames
  /-- The inputs lie on one fluid level. -/
  oneLevel : ∀ i, ∀ f ∈ db.filesAt i, f.name ∈ task.inputFileNames →
    cfg.fluidLvl i = task.originLvl
  /-- Below store level 0 the task takes whole runs, all those of its level. -/
  wholeRuns : ∀ i, 1 ≤ i → cfg.fluidLvl i = task.originLvl →
    ∀ f ∈ db.filesAt i, f.name ∈ task.inputFileNames
  /-- No input lies below the level written to. -/
  downward : ∀ j, ∀ g ∈ db.filesAt j, g.name ∈ task.inputFileNames → j ≤ task.outputLvl
  /-- Nothing is left behind between the inputs and the level written to, or on it: what is left
  above that level lies above all inputs and is newer, and what is left below it is older. On store
  level 0, files are left in front of the inputs. -/
  gapFree : ∀ i, ∀ f ∈ db.filesAt i, f.name ∉ task.inputFileNames →
    i ≠ task.outputLvl ∧ ∀ j, ∀ g ∈ db.filesAt j, g.name ∈ task.inputFileNames →
      (i < task.outputLvl → (i < j ∨ i = 0 ∧ j = 0) ∧ Newer SstFileMetaData.age f g)
        ∧ (task.outputLvl < i → j < i ∧ Newer SstFileMetaData.age g f)

/-- The store is in age order, and at most one task is outstanding, which fits the store. -/
structure AgeCorrect (cfg : Config) (s : TreeState) : Prop where
  ordered : AgeOrdered SstFileMetaData.age s.db.filesAt
  single : s.tasks.length ≤ 1
  sound : ∀ task ∈ s.tasks, TaskSound cfg s.db task

section

variable {cfg : Config} {fp : DoubleArith} {db db₀ : ColumnFamilyMetaData} {task : CompactionTask}
  {fresh : List SstFileMetaData}

/-- What a task leaves behind was flushed after it was picked, or is not on its origin level. -/
theorem InFlight.left_cases (h : InFlight cfg fp db task db₀ fresh) (hstore : StoreInv cfg db)
    {i : ℕ} {f : SstFileMetaData} (hf : f ∈ db.filesAt i) (hname : f.name ∉ task.inputFileNames) :
    i = 0 ∧ f ∈ fresh ∨ cfg.fluidLvl i ≠ task.originLvl ∧ f ∈ db₀.filesAt i := by
  have hkept : f ∈ (db.filesAt i).filter (·.name ∉ task.inputFileNames) :=
    List.mem_filter.mpr ⟨hf, by simpa using hname⟩
  rw [h.kept_eq hstore, List.mem_append] at hkept
  rcases hkept with hf | hf
  · split_ifs at hf with hi
    · exact Or.inl ⟨hi, hf⟩
    · exact absurd hf List.not_mem_nil
  · split_ifs at hf with hi
    · exact absurd hf List.not_mem_nil
    · exact Or.inr ⟨hi, hf⟩

/-- The files a task names lie on its origin level, and were there when it was picked. -/
theorem InFlight.input_cases (h : InFlight cfg fp db task db₀ fresh) (hstore : StoreInv cfg db)
    {i : ℕ} {g : SstFileMetaData} (hg : g ∈ db.filesAt i) (hname : g.name ∈ task.inputFileNames) :
    cfg.fluidLvl i = task.originLvl ∧ g ∈ db₀.filesAt i := by
  have hg₀ : g ∈ db₀.filesAt i := by
    rcases Nat.eq_zero_or_pos i with rfl | hi
    · rw [h.top] at hg
      exact (List.mem_append.mp hg).resolve_left fun hfresh ↦ h.fresh_names g hfresh hname
    · rwa [h.below i hi.ne'] at hg
  exact ⟨(h.picked.mem_inputFileNames_iff (h.store hstore) hg₀).mp hname, hg₀⟩

/-- **The jump is clean.** A file that is left behind and does not lie on the origin level is on the
near side of the origin level exactly when it is above the output. -/
theorem InFlight.side (h : InFlight cfg fp db task db₀ fresh) (hstore : StoreInv cfg db)
    (hZK : cfg.largerLvlRunsCount ≤ cfg.smallerLvlRunsCount) {i : ℕ}
    (hi : cfg.fluidLvl i ≠ task.originLvl) (hne : db₀.filesAt i ≠ []) :
    i ≠ task.outputLvl ∧ (i < task.outputLvl → cfg.fluidLvl i < task.originLvl)
      ∧ (task.outputLvl < i → task.originLvl < cfg.fluidLvl i) := by
  have hlanding := h.landing hstore
  have hout := hlanding.fluidLvl_outputLvl
  rcases hlanding.target_eq_or with hstay | hnext
  · refine ⟨fun heq ↦ hi (by rw [heq, hout, hstay]), fun hlt ↦ ?_, fun hlt ↦ ?_⟩
    all_goals
      have := cfg.fluidLvl_mono hlt.le
      omega
  · obtain ⟨-, houtlt, hnil⟩ := h.picked.free (h.store hstore) hZK (by omega)
    refine ⟨fun heq ↦ hne (heq ▸ hnil), fun hlt ↦ ?_, fun hlt ↦ ?_⟩
    · -- A file above the free slot, on the same level, would make that slot occupied.
      have hmono := cfg.fluidLvl_mono hlt.le
      by_contra hle
      have hsame : cfg.fluidLvl i = cfg.fluidLvl task.outputLvl := by omega
      have hpos : 0 < cfg.fluidLvl i := by omega
      have hi2 := Config.fluidLvl_pos_iff.mp hpos
      exact (h.store hstore).deepFirst i _ hi2 hlt houtlt hsame hne hnil
    · have := cfg.fluidLvl_mono hlt.le
      omega

theorem InFlight.taskSound (h : InFlight cfg fp db task db₀ fresh) (hstore : StoreInv cfg db)
    (hZK : cfg.largerLvlRunsCount ≤ cfg.smallerLvlRunsCount)
    (hage : AgeOrdered SstFileMetaData.age db.filesAt) : TaskSound cfg db task where
  present := by
    intro name hname
    obtain ⟨i, -, f, hf, rfl⟩ := h.picked.exists_of_mem_inputFileNames (h.store hstore) hname
    exact mem_fileNames.mpr ⟨i, f, h.subset i hf, rfl⟩
  oneLevel i f hf hname := (h.input_cases hstore hf hname).1
  wholeRuns := by
    intro i hi hlvl f hf
    by_contra hname
    rcases h.left_cases hstore hf hname with ⟨hzero, -⟩ | ⟨hne, -⟩
    · omega
    · exact hne hlvl
  downward := by
    intro j g hg hname
    have hlvl := (h.input_cases hstore hg hname).1
    have hlanding := h.landing hstore
    by_contra hlt
    have hmono := cfg.fluidLvl_mono (not_le.mp hlt).le
    rw [hlvl, hlanding.fluidLvl_outputLvl] at hmono
    -- Only a promotion leaves slots below its output, and it takes its inputs from the level above.
    rcases hlanding.target_eq_or with hstay | hnext
    · have hnext := (hlanding.below_occupied (not_le.mp hlt) (hlvl.trans hstay.symm)).1
      omega
    · omega
  gapFree := by
    intro i f hf hname
    rcases h.left_cases hstore hf hname with ⟨rfl, hfresh⟩ | ⟨hlvl, hf₀⟩
    · -- Flushed since: in front of everything the task was picked on.
      have hpos := (h.landing hstore).outputLvl_pos
      refine ⟨hpos.ne, fun j g hg hgname ↦ ⟨fun _ ↦ ?_, fun hlt ↦ absurd hlt (Nat.not_lt_zero _)⟩⟩
      have hg₀ := (h.input_cases hstore hg hgname).2
      rcases Nat.eq_zero_or_pos j with rfl | hj
      · have htop := hage.top
        rw [h.top, List.pairwise_append] at htop
        exact ⟨Or.inr ⟨rfl, rfl⟩, htop.2.2 f hfresh g hg₀⟩
      · exact ⟨Or.inl hj, hage.below hj f hf g hg⟩
    · obtain ⟨hne, habove, hbelow⟩ := h.side hstore hZK hlvl (List.ne_nil_of_mem hf₀)
      refine ⟨hne, fun j g hg hgname ↦ ⟨fun hlt ↦ ?_, fun hlt ↦ ?_⟩⟩ <;>
        have hj := (h.input_cases hstore hg hgname).1
      · have hij : i < j := by
          by_contra hji
          have := cfg.fluidLvl_mono (not_lt.mp hji)
          have := habove hlt
          omega
        exact ⟨Or.inl hij, hage.below hij f hf g hg⟩
      · have hji : j < i := by
          by_contra hij
          have := cfg.fluidLvl_mono (not_lt.mp hij)
          have := hbelow hlt
          omega
        exact ⟨hji, hage.below hji g hg f hf⟩

/-! ## Age order is kept -/

theorem ageOrdered_addFlushed {file : SstFileMetaData} (hdb : 2 ≤ db.numLevels)
    (hage : AgeOrdered SstFileMetaData.age db.filesAt)
    (hnew : ∀ other ∈ db.allFiles, Newer SstFileMetaData.age file other) :
    AgeOrdered SstFileMetaData.age (db.addFlushed file).filesAt := by
  refine hage.push (x := file) (fun i y hy ↦ hnew y (mem_allFiles.mpr ⟨i, hy⟩)) ?_ ?_
  · exact filesAt_addFlushed_zero (by omega) file
  · exact fun i hi ↦ filesAt_addFlushed_of_ne hi file

theorem TaskSound.ageOrdered_replaceFiles (h : TaskSound cfg db task)
    (hage : AgeOrdered SstFileMetaData.age db.filesAt) (hpos : 0 < task.outputLvl)
    (hout : task.outputLvl < db.numLevels) {outputs : List SstFileMetaData}
    (hmade : ∀ o ∈ outputs, MadeOf SstFileMetaData.age o (db.inputs task)) :
    AgeOrdered SstFileMetaData.age
      (db.replaceFiles task.inputFileNames task.outputLvl outputs).filesAt := by
  have hleft : ∀ i, ∀ f ∈ (db.filesAt i).filter (·.name ∉ task.inputFileNames),
      f ∈ db.filesAt i ∧ f.name ∉ task.inputFileNames := by
    intro i f hf
    simpa using List.mem_filter.mp hf
  refine hage.replace (fun i ↦ (db.filesAt i).filter (·.name ∉ task.inputFileNames))
    hpos List.filter_sublist (fun _ ↦ List.filter_subset_self _) ?_ ?_ hmade
    fun i ↦ filesAt_replaceFiles hout i
  · intro i hi f hf g hg
    obtain ⟨⟨j, hg⟩, hname⟩ := mem_inputs.mp hg
    exact (((h.gapFree i f (hleft i f hf).1 (hleft i f hf).2).2 j g hg hname).1 hi).2
  · intro i hi f hf g hg
    obtain ⟨⟨j, hg⟩, hname⟩ := mem_inputs.mp hg
    exact (((h.gapFree i f (hleft i f hf).1 (hleft i f hf).2).2 j g hg hname).2 hi).2

/-- **Age order and clean tasks over whole runs.** For `Z ≤ K`, every size ratio, every capacity
arithmetic, every sequence of file sizes, and every order of flushes, completions and failures. -/
theorem ageCorrect_of_run (hlev : 2 ≤ cfg.options.numLevels)
    (hZK : cfg.largerLvlRunsCount ≤ cfg.smallerLvlRunsCount) {h : List TreeEvent} {s : TreeState}
    (hrun : (treeSystem cfg fp).Run Promised h s) : AgeCorrect cfg s := by
  have hage : AgeOrdered SstFileMetaData.age s.db.filesAt := by
    refine hrun.invariant (I := fun _ s ↦ AgeOrdered SstFileMetaData.age s.db.filesAt) ?_ ?_
    · exact .of_forall_nil fun i ↦ filesAt_empty _ _
    · intro h s e s' hrun hage hp hs
      have hinv := treeInv_of_run hlev hrun
      cases (hinv.step hp hs).2 with
      | rest _ _ hdb' _ | schedule _ _ hdb' _ | overlap _ _ hdb' =>
        rw [hdb']
        exact ageOrdered_addFlushed hinv.store.two_le hage hp.2.2
      | success htasks _ hout hdb' =>
        obtain ⟨db₀, fresh, hflight⟩ := hinv.flight _ (htasks ▸ List.mem_singleton_self _)
        rw [hdb']
        exact (hflight.taskSound hinv.store hZK hage).ageOrdered_replaceFiles hage
          (hflight.landing hinv.store).outputLvl_pos hout fun f hf ↦ (hp f hf).2.2
      | failure _ _ hdb' =>
        rw [hdb']
        exact hage
  have hinv := treeInv_of_run hlev hrun
  refine ⟨hage, hinv.coherent.single, fun task htask ↦ ?_⟩
  obtain ⟨db₀, fresh, hflight⟩ := hinv.flight task htask
  exact hflight.taskSound hinv.store hZK hage

end

/-- One promotion done, the next one outstanding, and a flush on top of it. -/
theorem ageCorrect_small :
    ∃ s, AgeCorrect (.small 1 1 6) s ∧ s.tasks = [promoteFlushes [4, 3] 2]
      ∧ (s.db.filesAt 0).map SstFileMetaData.name = ["5", "4", "3"] := by
  obtain ⟨s, hrun, htasks, hfiles⟩ :=
    StepSystem.exists_run_of_exec (M := treeSystem (.small 1 1 6) .exact) (P := Promised)
      (R := fun s ↦ s.tasks = [promoteFlushes [4, 3] 2]
        ∧ (s.db.filesAt 0).map SstFileMetaData.name = ["5", "4", "3"])
      (h := [.flush (largeFile 5), .flush (largeFile 4),
        .compact (promoteFlushes [2, 1] 3) (.success [promotedFile "a" [2, 1]]),
        .flush (largeFile 3), .flush (largeFile 2), .flush (largeFile 1)])
      (by decide +kernel)
  exact ⟨s, ageCorrect_of_run (by decide) (by decide) hrun, htasks, hfiles⟩

end WorkloadAwareCompaction
