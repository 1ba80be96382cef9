import WorkloadAwareCompaction.Tree.System

/-!
# The joint invariant of the reachable states

While a task is outstanding the store keeps growing at the top, so the task no longer describes the
store it will run on. The invariant therefore remembers the store `db₀` the task was picked on: the
present store is `db₀` with some flushed files in front of level 0 (`InFlight`). Running the task
then acts on `db₀` alone, and the files flushed meanwhile stay in front of the result.

Besides, plain facts about the store are kept (`StoreInv`): no file is marked, files on different
levels have different names, and on every fluid level the occupied slots are the deepest ones. The
last is what makes the deepest empty slot lie above all occupied ones.

`Landing` collects what the slot search says about the level a picked task writes to.
-/

namespace WorkloadAwareCompaction

open FluidLSM ColumnFamilyMetaData

/-! ## The invariant -/

/-- The store between two events. -/
structure StoreInv (cfg : Config) (db : ColumnFamilyMetaData) : Prop where
  two_le : 2 ≤ db.numLevels
  levels : db.numLevels = cfg.options.numLevels
  unmarked : Unmarked db
  /-- Files on different levels have different names. -/
  separated : ∀ i j, ∀ f ∈ db.filesAt i, ∀ g ∈ db.filesAt j, f.name = g.name → i = j
  /-- Below the top, the occupied slots of a fluid level are its deepest ones. -/
  deepFirst : ∀ i j, 2 ≤ i → i < j → j < db.numLevels → cfg.fluidLvl i = cfg.fluidLvl j →
    db.filesAt i ≠ [] → db.filesAt j ≠ []

/-- The task was picked on `db₀`, and the store is `db₀` with the files `fresh` flushed since. -/
structure InFlight (cfg : Config) (fp : DoubleArith) (db : ColumnFamilyMetaData)
    (task : CompactionTask) (db₀ : ColumnFamilyMetaData) (fresh : List SstFileMetaData) :
    Prop where
  levels : db₀.numLevels = db.numLevels
  top : db.filesAt 0 = fresh ++ db₀.filesAt 0
  below : ∀ i, i ≠ 0 → db.filesAt i = db₀.filesAt i
  picked : Picked cfg fp db₀ task
  fresh_names : ∀ f ∈ fresh, f.name ∉ task.inputFileNames

structure TreeInv (cfg : Config) (fp : DoubleArith) (s : TreeState) : Prop where
  coherent : Coherent cfg s
  store : StoreInv cfg s.db
  flight : ∀ task ∈ s.tasks, ∃ db₀ fresh, InFlight cfg fp s.db task db₀ fresh

section

variable {cfg : Config} {fp : DoubleArith} {db db₀ : ColumnFamilyMetaData}
  {task : CompactionTask} {fresh : List SstFileMetaData}

theorem InFlight.subset (h : InFlight cfg fp db task db₀ fresh) (i : ℕ) :
    db₀.filesAt i ⊆ db.filesAt i := by
  rcases Nat.eq_zero_or_pos i with rfl | hi
  · rw [h.top]
    exact List.subset_append_right _ _
  · rw [h.below i hi.ne']
    exact List.Subset.refl _

/-- The store the task was picked on. -/
theorem InFlight.store (h : InFlight cfg fp db task db₀ fresh) (hstore : StoreInv cfg db) :
    StoreInv cfg db₀ where
  two_le := h.levels ▸ hstore.two_le
  levels := h.levels.trans hstore.levels
  unmarked i f hf := hstore.unmarked i f (h.subset i hf)
  separated i j f hf g hg := hstore.separated i j f (h.subset i hf) g (h.subset j hg)
  deepFirst := by
    intro i j hi hij hj
    rw [← h.below i (by omega), ← h.below j (by omega)]
    exact hstore.deepFirst i j hi hij (h.levels ▸ hj)

/-! ## What a picked task takes -/

/-- A file of the store is named by a picked task exactly when it lies on the origin level. -/
theorem Picked.mem_inputFileNames_iff (h : Picked cfg fp db task) (hstore : StoreInv cfg db)
    {i : ℕ} {f : SstFileMetaData} (hf : f ∈ db.filesAt i) :
    f.name ∈ task.inputFileNames ↔ cfg.fluidLvl i = task.originLvl := by
  rw [h.inputs, idleFilesAt_fluidView hstore.two_le hstore.levels hstore.unmarked, List.mem_map]
  constructor
  · rintro ⟨g, hg, hname⟩
    obtain ⟨j, hj, hg⟩ := (mem_files_fluidView hstore.two_le hstore.levels).mp hg
    rw [hstore.separated i j f hf g hg hname.symm, hj]
  · intro hi
    exact ⟨f, (mem_files_fluidView hstore.two_le hstore.levels).mpr ⟨i, hi, hf⟩, rfl⟩

/-- Every name a picked task carries is that of a file of its origin level. -/
theorem Picked.exists_of_mem_inputFileNames (h : Picked cfg fp db task)
    (hstore : StoreInv cfg db) {name : String} (hname : name ∈ task.inputFileNames) :
    ∃ i, cfg.fluidLvl i = task.originLvl ∧ ∃ f ∈ db.filesAt i, f.name = name := by
  rw [h.inputs, idleFilesAt_fluidView hstore.two_le hstore.levels hstore.unmarked,
    List.mem_map] at hname
  obtain ⟨f, hf, rfl⟩ := hname
  obtain ⟨i, hi, hf⟩ := (mem_files_fluidView hstore.two_le hstore.levels).mp hf
  exact ⟨i, hi, f, hf, rfl⟩

/-- A picked task takes its origin level whole, and nothing else. -/
theorem Picked.filter_filesAt (h : Picked cfg fp db task) (hstore : StoreInv cfg db) (i : ℕ) :
    (db.filesAt i).filter (·.name ∈ task.inputFileNames)
        = (if cfg.fluidLvl i = task.originLvl then db.filesAt i else [])
      ∧ (db.filesAt i).filter (·.name ∉ task.inputFileNames)
        = if cfg.fluidLvl i = task.originLvl then [] else db.filesAt i := by
  by_cases hi : cfg.fluidLvl i = task.originLvl
  · have hin : ∀ f ∈ db.filesAt i, f.name ∈ task.inputFileNames := fun f hf ↦
      (h.mem_inputFileNames_iff hstore hf).mpr hi
    rw [if_pos hi, if_pos hi, List.filter_eq_self, List.filter_eq_nil_iff]
    simpa using hin
  · have hout : ∀ f ∈ db.filesAt i, f.name ∉ task.inputFileNames := fun f hf hin ↦
      hi ((h.mem_inputFileNames_iff hstore hf).mp hin)
    rw [if_neg hi, if_neg hi, List.filter_eq_self, List.filter_eq_nil_iff]
    simpa using hout

/-- **What a completing task leaves of a level.** The origin level is emptied, the files flushed
since the task was picked stay in front, and everything else is untouched. -/
theorem InFlight.kept_eq (h : InFlight cfg fp db task db₀ fresh) (hstore : StoreInv cfg db)
    (i : ℕ) :
    (db.filesAt i).filter (·.name ∉ task.inputFileNames)
      = (if i = 0 then fresh else [])
        ++ if cfg.fluidLvl i = task.originLvl then [] else db₀.filesAt i := by
  have hold := (h.picked.filter_filesAt (h.store hstore) i).2
  rcases Nat.eq_zero_or_pos i with rfl | hi
  · rw [h.top, List.filter_append, hold, if_pos rfl,
      List.filter_eq_self.mpr fun f hf ↦ by simp [h.fresh_names f hf]]
  · rw [h.below i hi.ne', hold, if_neg hi.ne', List.nil_append]

/-! ## Where a picked task writes -/

/-- The level a picked task writes to: the last one of its origin level, or the deepest empty slot
of the next level, or the last one of the next level when that has no empty slot. -/
inductive Landing (cfg : Config) (db : ColumnFamilyMetaData) (task : CompactionTask) : Prop
  | stay : task.targetLvl = task.originLvl → task.outputLvl = cfg.rocksDBLvl task.originLvl 0 →
      Landing cfg db task
  | free : task.targetLvl = task.originLvl + 1 → cfg.fluidLvl task.outputLvl = task.targetLvl →
      task.outputLvl < db.numLevels → db.filesAt task.outputLvl = [] →
      (∀ j, task.outputLvl < j → cfg.fluidLvl j = task.targetLvl → db.filesAt j ≠ []) →
      Landing cfg db task
  | full : task.targetLvl = task.originLvl + 1 → task.outputLvl = cfg.rocksDBLvl task.targetLvl 0 →
      (∀ j, cfg.fluidLvl j = task.targetLvl → db.filesAt j ≠ []) → Landing cfg db task

/-- A task picked on any metadata of the store, marks included. -/
theorem Picked.landing_of_levels (h : Picked cfg fp db task) (hdb : 2 ≤ db.numLevels)
    (hcfg : db.numLevels = cfg.options.numLevels) : Landing cfg db task := by
  have hout := h.output
  rcases plannedTargetLvl_eq_or (fluidView cfg db) fp task.originLvl with hstay | hnext
  · rw [← h.target] at hstay
    rw [outputLvl, if_neg (by omega), toConfig_fluidView, hstay] at hout
    exact .stay hstay (Option.some.inj hout).symm
  · rw [← h.target] at hnext
    have hpos : 0 < task.targetLvl := by omega
    rw [outputLvl, if_pos (by omega), toConfig_fluidView] at hout
    obtain ⟨hfull, hlast⟩ := lt_length_runsAt_fluidView_of_findSlot hdb hcfg hpos hout
    obtain ⟨out, hfind, hcases⟩ := findSlot_eq_some (fluidView cfg db) task.targetLvl le_rfl
      (by rwa [toConfig_fluidView])
    rw [toConfig_fluidView] at hfind hcases
    rw [hfind, Option.some_inj] at hout
    subst hout
    have hoccupied {k : ℕ} (hk : k ≤ cfg.smallerLvlRunsCount) :=
      filesAt_ne_nil_of_not_emptySlot hdb hcfg hpos hk hlast
    rcases hcases with ⟨slot, hslot, hempty, hval, hdeepest⟩ | ⟨hnone, hval⟩
    · obtain ⟨hle, hlt, hnil⟩ := (emptySlot_fluidView_iff hdb hcfg hpos).mp hempty
      refine .free hnext ?_ (hval ▸ hlt) (hval ▸ hnil) fun j hj hlvl ↦ ?_
      · rw [hval, Config.fluidLvl_rocksDBLvl hpos (Nat.sub_le _ _)]
      · obtain ⟨k, hk, rfl⟩ := (Config.fluidLvl_eq_iff hpos).mp hlvl
        have hk' := Config.rocksDBLvl_add cfg hpos hk
        have hslot' := Config.rocksDBLvl_add cfg hpos (Nat.sub_le cfg.smallerLvlRunsCount slot)
        exact hoccupied hk (hdeepest _ (by omega) (by omega))
    · refine .full hnext hval fun j hlvl ↦ ?_
      obtain ⟨k, hk, rfl⟩ := (Config.fluidLvl_eq_iff hpos).mp hlvl
      exact hoccupied hk (hnone _ (by omega))

theorem Picked.landing (h : Picked cfg fp db task) (hstore : StoreInv cfg db) :
    Landing cfg db task := h.landing_of_levels hstore.two_le hstore.levels

namespace Landing

theorem target_eq_or (h : Landing cfg db task) :
    task.targetLvl = task.originLvl ∨ task.targetLvl = task.originLvl + 1 := by
  rcases h with ⟨h, -⟩ | ⟨h, -⟩ | ⟨h, -⟩
  · exact Or.inl h
  · exact Or.inr h
  · exact Or.inr h

theorem fluidLvl_outputLvl (h : Landing cfg db task) :
    cfg.fluidLvl task.outputLvl = task.targetLvl := by
  rcases h with ⟨htarget, hout⟩ | ⟨-, hlvl, -⟩ | ⟨-, hout, -⟩
  · rw [hout, htarget, Config.fluidLvl_rocksDBLvl_zero]
  · exact hlvl
  · rw [hout, Config.fluidLvl_rocksDBLvl_zero]

theorem outputLvl_pos (h : Landing cfg db task) : 0 < task.outputLvl := by
  rcases h with ⟨-, hout⟩ | ⟨htarget, hlvl, -⟩ | ⟨-, hout, -⟩
  · rw [hout, Config.rocksDBLvl]
    omega
  · have hpos : 0 < cfg.fluidLvl task.outputLvl := by omega
    have := Config.fluidLvl_pos_iff.mp hpos
    omega
  · rw [hout, Config.rocksDBLvl]
    omega

/-- Whatever lies deeper on the level written to is an occupied slot of a promotion's target. -/
theorem below_occupied (h : Landing cfg db task) {j : ℕ} (hj : task.outputLvl < j)
    (hlvl : cfg.fluidLvl j = task.targetLvl) :
    task.targetLvl = task.originLvl + 1 ∧ db.filesAt j ≠ [] := by
  rcases h with ⟨htarget, hout⟩ | ⟨htarget, -, -, -, hdeep⟩ | ⟨htarget, hout, -⟩
  · have := Config.fluidLvl_le_iff.mp (hlvl.trans htarget).le
    omega
  · exact ⟨htarget, hdeep j hj hlvl⟩
  · have := Config.fluidLvl_le_iff.mp hlvl.le
    omega

end Landing

/-! ## Flushes -/

variable {file : SstFileMetaData}

theorem mem_filesAt_addFlushed {i : ℕ} {f : SstFileMetaData}
    (hf : f ∈ (db.addFlushed file).filesAt i) : i = 0 ∧ f = file ∨ f ∈ db.filesAt i := by
  have hlt := lt_numLevels_of_mem hf
  rw [numLevels_addFlushed] at hlt
  rcases Nat.eq_zero_or_pos i with rfl | hi
  · rw [filesAt_addFlushed_zero hlt] at hf
    exact (List.mem_cons.mp hf).imp (fun h ↦ ⟨rfl, h⟩) id
  · rw [filesAt_addFlushed_of_ne hi.ne'] at hf
    exact Or.inr hf

/-- A flush of an unmarked file with a new name keeps the store in shape. -/
theorem StoreInv.addFlushed (h : StoreInv cfg db) (hmark : file.beingCompacted = false)
    (hnew : file.name ∉ db.fileNames) : StoreInv cfg (db.addFlushed file) where
  two_le := by rw [numLevels_addFlushed]; exact h.two_le
  levels := by rw [numLevels_addFlushed]; exact h.levels
  unmarked := by
    intro i f hf
    rcases mem_filesAt_addFlushed hf with ⟨-, rfl⟩ | hf
    · exact hmark
    · exact h.unmarked i f hf
  separated := by
    intro i j f hf g hg hname
    rcases mem_filesAt_addFlushed hf with ⟨hi, hfile⟩ | hf <;>
      rcases mem_filesAt_addFlushed hg with ⟨hj, hgile⟩ | hg
    · rw [hi, hj]
    · exact absurd (mem_fileNames.mpr ⟨j, g, hg, by rw [← hname, hfile]⟩) hnew
    · exact absurd (mem_fileNames.mpr ⟨i, f, hf, by rw [hname, hgile]⟩) hnew
    · exact h.separated i j f hf g hg hname
  deepFirst := by
    intro i j hi hij hj
    rw [filesAt_addFlushed_of_ne (by omega), filesAt_addFlushed_of_ne (by omega)]
    exact h.deepFirst i j hi hij (by simpa using hj)

/-- A task just picked. -/
theorem Picked.inFlight (h : Picked cfg fp db task) : InFlight cfg fp db task db [] where
  levels := rfl
  top := (List.nil_append _).symm
  below _ _ := rfl
  picked := h
  fresh_names := by simp

/-- A flush leaves the task in flight. -/
theorem InFlight.addFlushed (h : InFlight cfg fp db task db₀ fresh) (hstore : StoreInv cfg db)
    (hnew : file.name ∉ db.fileNames) :
    InFlight cfg fp (db.addFlushed file) task db₀ (file :: fresh) where
  levels := h.levels.trans (numLevels_addFlushed file).symm
  top := by
    have := hstore.two_le
    rw [filesAt_addFlushed_zero (by omega), h.top, List.cons_append]
  below i hi := by rw [filesAt_addFlushed_of_ne hi, h.below i hi]
  picked := h.picked
  fresh_names := by
    intro f hf hname
    rcases List.mem_cons.mp hf with rfl | hf
    · obtain ⟨i, -, g, hg, hgname⟩ :=
        h.picked.exists_of_mem_inputFileNames (h.store hstore) hname
      exact hnew (mem_fileNames.mpr ⟨i, g, h.subset i hg, hgname⟩)
    · exact h.fresh_names f hf hname

/-! ## Completed compactions -/

variable {outputs : List SstFileMetaData}

theorem mem_filesAt_replaceFiles {names : List String} {out : ℕ} (hout : out < db.numLevels)
    {i : ℕ} {f : SstFileMetaData} :
    f ∈ (db.replaceFiles names out outputs).filesAt i
      ↔ f ∈ db.filesAt i ∧ f.name ∉ names ∨ i = out ∧ f ∈ outputs := by
  rw [filesAt_replaceFiles hout]
  by_cases hi : i = out <;> simp [hi]

theorem InFlight.landing (h : InFlight cfg fp db task db₀ fresh) (hstore : StoreInv cfg db) :
    Landing cfg db₀ task := h.picked.landing (h.store hstore)

/-- **The store after a successful task.** -/
theorem InFlight.filesAt_replaceFiles (h : InFlight cfg fp db task db₀ fresh)
    (hstore : StoreInv cfg db) (hout : task.outputLvl < db.numLevels) (i : ℕ) :
    (db.replaceFiles task.inputFileNames task.outputLvl outputs).filesAt i
      = (if i = 0 then fresh else [])
        ++ (if cfg.fluidLvl i = task.originLvl then [] else db₀.filesAt i)
        ++ if i = task.outputLvl then outputs else [] := by
  rw [ColumnFamilyMetaData.filesAt_replaceFiles hout, h.kept_eq hstore]
  by_cases hi : i = task.outputLvl
  · rw [if_pos hi, if_pos hi]
  · rw [if_neg hi, if_neg hi, List.append_nil]

/-- A successful task keeps the store in shape; it fills its level from below. -/
theorem InFlight.storeInv_replaceFiles (h : InFlight cfg fp db task db₀ fresh)
    (hstore : StoreInv cfg db) (hout : task.outputLvl < db.numLevels)
    (hmark : ∀ f ∈ outputs, f.beingCompacted = false)
    (hnew : ∀ f ∈ outputs, f.name ∉ db.fileNames) :
    StoreInv cfg (db.replaceFiles task.inputFileNames task.outputLvl outputs) where
  two_le := by rw [numLevels_replaceFiles]; exact hstore.two_le
  levels := by rw [numLevels_replaceFiles]; exact hstore.levels
  unmarked := by
    intro i f hf
    rcases (mem_filesAt_replaceFiles hout).mp hf with ⟨hf, -⟩ | ⟨-, hf⟩
    · exact hstore.unmarked i f hf
    · exact hmark f hf
  separated := by
    intro i j f hf g hg hname
    rcases (mem_filesAt_replaceFiles hout).mp hf with ⟨hf, -⟩ | ⟨hi, hf⟩ <;>
      rcases (mem_filesAt_replaceFiles hout).mp hg with ⟨hg, -⟩ | ⟨hj, hg⟩
    · exact hstore.separated i j f hf g hg hname
    · exact absurd (mem_fileNames.mpr ⟨i, f, hf, hname⟩) (hnew g hg)
    · exact absurd (mem_fileNames.mpr ⟨j, g, hg, hname.symm⟩) (hnew f hf)
    · rw [hi, hj]
  deepFirst := by
    intro i j hi hij hj hlvl
    rw [numLevels_replaceFiles] at hj
    rw [h.filesAt_replaceFiles hstore hout, h.filesAt_replaceFiles hstore hout,
      if_neg (by omega), if_neg (by omega : j ≠ 0), List.nil_append, List.nil_append]
    intro hne
    -- Either the output itself lies above `j`, or the slot above `j` was occupied before.
    have hkeep : cfg.fluidLvl j ≠ task.originLvl ∧ db₀.filesAt j ≠ [] := by
      by_cases hiout : i = task.outputLvl
      · have hjlvl : cfg.fluidLvl j = task.targetLvl := by
          rw [← hlvl, hiout, (h.landing hstore).fluidLvl_outputLvl]
        obtain ⟨htarget, hocc⟩ := (h.landing hstore).below_occupied (hiout ▸ hij) hjlvl
        exact ⟨by omega, hocc⟩
      · rw [if_neg hiout, List.append_nil] at hne
        split_ifs at hne with horigin
        · exact absurd rfl hne
        · exact ⟨hlvl ▸ horigin,
            (h.store hstore).deepFirst i j hi hij (h.levels ▸ hj) hlvl hne⟩
    rw [if_neg hkeep.1]
    exact List.append_ne_nil_of_left_ne_nil hkeep.2 _

/-! ## The invariant holds on every run -/

theorem treeInv_init (fp : DoubleArith) (hlev : 2 ≤ cfg.options.numLevels) :
    TreeInv cfg fp (.init cfg) where
  coherent := coherent_init cfg
  store :=
    { two_le := by rw [TreeState.init, numLevels_empty]; exact hlev
      levels := by rw [TreeState.init, numLevels_empty]
      unmarked := by simp [Unmarked, TreeState.init]
      separated := by simp [TreeState.init]
      deepFirst := by simp [TreeState.init] }
  flight := by simp [TreeState.init]

variable {s s' : TreeState} {e : TreeEvent}

/-- **The step lemma.** -/
theorem TreeInv.step (h : TreeInv cfg fp s) (hp : Promised s e) (hs : s.step fp e = some s') :
    TreeInv cfg fp s' ∧ TreeStep cfg fp s s' e := by
  obtain ⟨hcoh, hstep⟩ := h.coherent.step hs
  refine ⟨?_, hstep⟩
  cases hstep with
  | rest _ htasks' hdb' _ =>
    refine ⟨hcoh, ?_, ?_⟩
    · rw [hdb']
      exact h.store.addFlushed hp.1 hp.2.1
    · simp [htasks']
  | schedule _ htasks' hdb' hpicked =>
    refine ⟨hcoh, ?_, ?_⟩
    · rw [hdb']
      exact h.store.addFlushed hp.1 hp.2.1
    · rw [htasks']
      intro task htask
      rw [List.mem_singleton.mp htask]
      exact ⟨_, [], hpicked.inFlight⟩
  | overlap htasks htasks' hdb' =>
    refine ⟨hcoh, ?_, ?_⟩
    · rw [hdb']
      exact h.store.addFlushed hp.1 hp.2.1
    · rw [htasks', ← htasks, hdb']
      intro task htask
      obtain ⟨db₀, fresh, hflight⟩ := h.flight task htask
      exact ⟨db₀, _, hflight.addFlushed h.store hp.2.1⟩
  | success htasks htasks' hout hdb' =>
    obtain ⟨db₀, fresh, hflight⟩ := h.flight _ (htasks ▸ List.mem_singleton_self _)
    refine ⟨hcoh, ?_, ?_⟩
    · rw [hdb']
      exact hflight.storeInv_replaceFiles h.store hout (fun f hf ↦ (hp f hf).1)
        fun f hf ↦ (hp f hf).2.1
    · simp [htasks']
  | failure _ htasks' hdb' =>
    refine ⟨hcoh, ?_, ?_⟩
    · rw [hdb']
      exact h.store
    · simp [htasks']

/-- **The run lemma.** -/
theorem treeInv_of_run (hlev : 2 ≤ cfg.options.numLevels) {h : List TreeEvent}
    (hrun : (treeSystem cfg fp).Run Promised h s) : TreeInv cfg fp s :=
  hrun.invariant (I := fun _ s ↦ TreeInv cfg fp s) (treeInv_init fp hlev)
    fun _ _ _ _ _ hinv hp hs ↦ (hinv.step hp hs).1

end

end WorkloadAwareCompaction
