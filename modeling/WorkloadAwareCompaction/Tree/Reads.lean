import Mathlib.Data.Fintype.Pi
import WorkloadAwareCompaction.Library.Layers
import WorkloadAwareCompaction.Library.Simulation
import WorkloadAwareCompaction.Tree.Recency

/-!
# The store stands for a map

A client of the store sees `Put`, `Delete` and `Get`; flushes and compactions happen behind its
back. The state therefore gets a second half: the writes that no file holds yet. A flush moves the
older part of them into a new file, and what a file answers is a layer of writes, given by a
parameter: files are never rewritten and their names are never reused.

What the store promises about a compaction is that the outputs answer like the inputs, read newest
first, except that a deletion may be dropped when no deeper level knows the key. That the inputs
are consecutive in the order of reading, so that such a promise is enough, is the tree's business:
the files a task takes are the last ones of the levels down to its output (`InFlight.allFiles_eq`).
From this a read after any history returns what a map would return after the writes of that history
alone.
-/

namespace WorkloadAwareCompaction

open FluidLSM ColumnFamilyMetaData

/-! ## The order of reading -/

/-- The files on the levels below a given one. -/
def ColumnFamilyMetaData.filesBelow (db : ColumnFamilyMetaData) (lvl : ℕ) : List SstFileMetaData :=
  (db.levels.drop (lvl + 1)).flatMap LevelMetaData.files

/-- The files on the levels down to a given one. -/
def ColumnFamilyMetaData.filesDownTo (db : ColumnFamilyMetaData) (lvl : ℕ) :
    List SstFileMetaData :=
  (db.levels.take (lvl + 1)).flatMap LevelMetaData.files

section Order

variable {cfg : Config} {fp : DoubleArith} {db db₀ : ColumnFamilyMetaData}
  {task : CompactionTask} {fresh outputs : List SstFileMetaData} {lvl : ℕ}

theorem filesDownTo_append_filesBelow (db : ColumnFamilyMetaData) (lvl : ℕ) :
    db.filesDownTo lvl ++ db.filesBelow lvl = db.allFiles := by
  rw [filesDownTo, filesBelow, ← List.flatMap_append, List.take_append_drop, allFiles]

theorem filesDownTo_eq (h : lvl < db.numLevels) :
    db.filesDownTo lvl = (List.range (lvl + 1)).flatMap db.filesAt := by
  rw [filesDownTo, levels_eq_map db, ← List.map_take, List.take_range, Nat.min_eq_left h,
    List.flatMap_map]

theorem filesBelow_eq (db : ColumnFamilyMetaData) (lvl : ℕ) :
    db.filesBelow lvl
      = (List.range' (lvl + 1) (db.numLevels - (lvl + 1))).flatMap db.filesAt := by
  rw [filesBelow, levels_eq_map db, ← List.map_drop, List.range_eq_range', List.drop_range',
    Nat.zero_add, Nat.mul_one, List.flatMap_map]

theorem allFiles_empty (n : ℕ) : (ColumnFamilyMetaData.empty n).allFiles = [] := by
  refine List.eq_nil_iff_forall_not_mem.mpr fun f hf ↦ ?_
  obtain ⟨i, hi⟩ := mem_allFiles.mp hf
  exact absurd (filesAt_empty n i ▸ hi) List.not_mem_nil

theorem allFiles_addFlushed (h : 0 < db.numLevels) (file : SstFileMetaData) :
    (db.addFlushed file).allFiles = file :: db.allFiles := by
  have hrange : List.range db.numLevels = 0 :: List.range' 1 (db.numLevels - 1) := by
    obtain ⟨n, hn⟩ : ∃ n, db.numLevels = n + 1 := ⟨db.numLevels - 1, by omega⟩
    rw [hn, List.range_eq_range', List.range'_succ, Nat.add_sub_cancel]
  have hrest : (List.range' 1 (db.numLevels - 1)).flatMap (db.addFlushed file).filesAt
      = (List.range' 1 (db.numLevels - 1)).flatMap db.filesAt := by
    refine List.flatMap_congr fun i hi ↦ filesAt_addFlushed_of_ne ?_ file
    have := List.mem_range'_1.mp hi
    omega
  rw [allFiles, allFiles, levels_eq_map, levels_eq_map db, List.flatMap_map, List.flatMap_map,
    numLevels_addFlushed, hrange, List.flatMap_cons, List.flatMap_cons, filesAt_addFlushed_zero h,
    hrest, List.cons_append]

/-- Nothing below its output is an input of a task. -/
theorem InFlight.not_mem_of_below (h : InFlight cfg fp db task db₀ fresh)
    (hstore : StoreInv cfg db) {i : ℕ} (hi : task.outputLvl < i) {f : SstFileMetaData}
    (hf : f ∈ db.filesAt i) : f.name ∉ task.inputFileNames := by
  intro hname
  have hlvl := (h.input_cases hstore hf hname).1
  have hlanding := h.landing hstore
  have hmono := cfg.fluidLvl_mono hi.le
  rw [hlvl, hlanding.fluidLvl_outputLvl] at hmono
  rcases hlanding.target_eq_or with hstay | hnext
  · have hbelow := (hlanding.below_occupied hi (hlvl.trans hstay.symm)).1
    omega
  · omega

/-- **The inputs of a task come last** among the files down to its output, in the order of
reading. -/
theorem InFlight.inputs_last (h : InFlight cfg fp db task db₀ fresh) (hstore : StoreInv cfg db)
    (hZK : cfg.largerLvlRunsCount ≤ cfg.smallerLvlRunsCount)
    (hout : task.outputLvl < db.numLevels) :
    (db.filesDownTo task.outputLvl).Pairwise fun f g ↦
      decide (f.name ∈ task.inputFileNames) = true →
        decide (g.name ∈ task.inputFileNames) = true := by
  simp only [decide_eq_true_eq]
  rw [filesDownTo_eq hout, List.pairwise_flatMap]
  constructor
  · -- Inside one level: level 0 starts with the files flushed since the task was picked, and
    -- otherwise a level is taken whole or not at all.
    intro i _
    have hold : ∀ j, (db₀.filesAt j).Pairwise fun f g ↦
        f.name ∈ task.inputFileNames → g.name ∈ task.inputFileNames := by
      intro j
      refine List.pairwise_of_forall_mem_list fun f hf g hg hname ↦ ?_
      have hlvl := (h.picked.mem_inputFileNames_iff (h.store hstore) hf).mp hname
      exact (h.picked.mem_inputFileNames_iff (h.store hstore) hg).mpr hlvl
    rcases Nat.eq_zero_or_pos i with rfl | hi
    · rw [h.top, List.pairwise_append]
      refine ⟨List.pairwise_of_forall_mem_list fun f hf g _ hname ↦ ?_, hold 0,
        fun f hf g _ hname ↦ ?_⟩ <;> exact absurd hname (h.fresh_names f hf)
    · rw [h.below i hi.ne']
      exact hold i
  · -- Across levels: what is left on a level above the output lies above the origin level.
    refine (List.pairwise_lt_range).imp_of_mem fun {i j} _ hj hij f hf g hg hname ↦ ?_
    by_contra hleft
    have hlvl := (h.input_cases hstore hf hname).1
    rcases h.left_cases hstore hg hleft with ⟨hzero, -⟩ | ⟨hne, hg₀⟩
    · omega
    · obtain ⟨hjout, habove, -⟩ := h.side hstore hZK hne (List.ne_nil_of_mem hg₀)
      have hjlt := List.mem_range.mp hj
      have hmono := cfg.fluidLvl_mono hij.le
      have := habove (by omega)
      omega

/-- **The inputs are consecutive in the order of reading**, and end where the deeper levels begin. A
success puts the outputs in their place. -/
theorem InFlight.allFiles_eq (outputs : List SstFileMetaData)
    (h : InFlight cfg fp db task db₀ fresh) (hstore : StoreInv cfg db)
    (hZK : cfg.largerLvlRunsCount ≤ cfg.smallerLvlRunsCount)
    (hout : task.outputLvl < db.numLevels) :
    ∃ newer : List SstFileMetaData,
      db.allFiles = newer ++ db.inputs task ++ db.filesBelow task.outputLvl
        ∧ (db.replaceFiles task.inputFileNames task.outputLvl outputs).allFiles
          = newer ++ outputs ++ db.filesBelow task.outputLvl := by
  have hbelow : ∀ f ∈ db.filesBelow task.outputLvl, f.name ∉ task.inputFileNames := by
    intro f hf
    rw [filesBelow_eq] at hf
    obtain ⟨i, hi, hf⟩ := List.mem_flatMap.mp hf
    have := List.mem_range'_1.mp hi
    exact h.not_mem_of_below hstore (by omega) hf
  refine ⟨(db.filesDownTo task.outputLvl).filter (·.name ∉ task.inputFileNames), ?_, ?_⟩
  · have hinputs : db.inputs task
        = (db.filesDownTo task.outputLvl).filter (·.name ∈ task.inputFileNames) := by
      rw [inputs, ← filesDownTo_append_filesBelow db task.outputLvl, List.filter_append,
        (List.filter_eq_nil_iff (l := db.filesBelow task.outputLvl)).mpr (by simpa using hbelow),
        List.append_nil]
    rw [hinputs, ← filesDownTo_append_filesBelow db task.outputLvl]
    congr 1
    simpa only [decide_not] using
      (List.filter_not_append_filter (h.inputs_last hstore hZK hout)).symm
  · rw [← filesDownTo_append_filesBelow _ task.outputLvl]
    congr 1
    · -- On the output level itself nothing is left behind.
      rw [filesDownTo_eq (by rwa [numLevels_replaceFiles]), filesDownTo_eq hout, List.range_succ,
        List.flatMap_append, List.flatMap_append, List.filter_append, List.flatMap_singleton,
        List.flatMap_singleton, ColumnFamilyMetaData.filesAt_replaceFiles hout, if_pos rfl,
        List.append_assoc, List.filter_flatMap]
      congr 1
      refine List.flatMap_congr fun i hi ↦ ?_
      have := List.mem_range.mp hi
      rw [ColumnFamilyMetaData.filesAt_replaceFiles hout, if_neg (by omega)]
    · rw [filesBelow_eq, filesBelow_eq, numLevels_replaceFiles]
      refine List.flatMap_congr fun i hi ↦ ?_
      have := List.mem_range'_1.mp hi
      rw [ColumnFamilyMetaData.filesAt_replaceFiles hout, if_neg (by omega),
        List.filter_eq_self.mpr fun f hf ↦ by
          simpa using h.not_mem_of_below hstore (by omega) hf]

end Order

/-! ## The store with its writes -/

variable {κ ν : Type*}

structure StoreState (κ ν : Type*) where
  /-- The writes that no file holds yet, newest first. -/
  memtable : List (κ × Option ν)
  tree : TreeState

inductive StoreEvent (κ ν : Type*)
  /-- `Put`, or `Delete` for `none`. -/
  | write (key : κ) (value : Option ν)
  /-- All writes but the `recent` newest become a file. -/
  | flush (file : SstFileMetaData) (recent : ℕ)
  | compact (task : CompactionTask) (outcome : Outcome)

namespace StoreEvent

/-- What the tree sees of an event. -/
def treeEvent : StoreEvent κ ν → Option TreeEvent
  | write _ _ => none
  | flush file _ => some (.flush file)
  | compact task outcome => some (.compact task outcome)

/-- What a client sees of an event. -/
def written : StoreEvent κ ν → Option (κ × Option ν)
  | write key value => some (key, value)
  | flush _ _ => none
  | compact _ _ => none

end StoreEvent

/-- The store of a configuration, with its client. -/
def storeSystem (κ ν : Type*) (cfg : Config) (fp : DoubleArith) :
    StepSystem (StoreState κ ν) (StoreEvent κ ν) where
  init := ⟨[], .init cfg⟩
  step := fun s e ↦
    match e with
    | .write key value => some { s with memtable := (key, value) :: s.memtable }
    | .flush file recent =>
      (s.tree.step fp (.flush file)).map fun tree ↦ ⟨s.memtable.take recent, tree⟩
    | .compact task outcome =>
      (s.tree.step fp (.compact task outcome)).map fun tree ↦ { s with tree := tree }

variable [DecidableEq κ]

/-- `Get`: the writes in memory first, then the files level by level, level 0 newest first. -/
def StoreState.get (content : SstFileMetaData → Layer κ ν) (s : StoreState κ ν) : κ → Option ν :=
  Layer.read (.ofWrites s.memtable :: s.tree.db.allFiles.map content)

/-- The store's promises, what files answer included. -/
def StorePromised (content : SstFileMetaData → Layer κ ν) (s : StoreState κ ν) :
    StoreEvent κ ν → Prop
  | .write _ _ => True
  | .flush file recent => Promised s.tree (.flush file)
      ∧ content file = .ofWrites (s.memtable.drop recent)
  | .compact task (.success outputs) => Promised s.tree (.compact task (.success outputs))
      ∧ Layer.Merges ((s.tree.db.inputs task).map content) (outputs.map content)
          ((s.tree.db.filesBelow task.outputLvl).map content)
  | .compact task (.failure status) => Promised s.tree (.compact task (.failure status))

section

variable {cfg : Config} {fp : DoubleArith} {content : SstFileMetaData → Layer κ ν}

/-- Without the client's half a run of the store is a run of the tree. -/
theorem simulates_tree : StepSystem.Simulates (storeSystem κ ν cfg fp) (StorePromised content)
    (treeSystem cfg fp) Promised StoreEvent.treeEvent some (fun s t ↦ s.tree = t) where
  init := rfl
  step := by
    rintro s s' t e - rfl hp hs
    match e with
    | .write key value =>
      obtain rfl := Option.some.inj hs
      exact ⟨[], _, .refl _, rfl, rfl⟩
    | .flush file recent =>
      obtain ⟨tree, htree, rfl⟩ := Option.map_eq_some_iff.mp hs
      exact ⟨[.flush file], tree, .single hp.1 htree, rfl, rfl⟩
    | .compact task (.success outputs) =>
      obtain ⟨tree, htree, rfl⟩ := Option.map_eq_some_iff.mp hs
      exact ⟨[.compact task (.success outputs)], tree, .single hp.1 htree, rfl, rfl⟩
    | .compact task (.failure status) =>
      obtain ⟨tree, htree, rfl⟩ := Option.map_eq_some_iff.mp hs
      exact ⟨[.compact task (.failure status)], tree, .single hp htree, rfl, rfl⟩

theorem treeInv_of_reachable (hlev : 2 ≤ cfg.options.numLevels) {s : StoreState κ ν}
    (hs : (storeSystem κ ν cfg fp).Reachable (StorePromised content) s) :
    TreeInv cfg fp s.tree := by
  obtain ⟨h, hrun⟩ := hs
  obtain ⟨h', t, hrun', -, rfl⟩ := simulates_tree.run hrun
  exact treeInv_of_run hlev hrun'

/-- The older writes go into a file in front of all others, and reads stay the same. -/
theorem read_addFlushed {db : ColumnFamilyMetaData} {file : SstFileMetaData}
    {memtable : List (κ × Option ν)} {recent : ℕ} (hdb : 0 < db.numLevels)
    (hcontent : content file = .ofWrites (memtable.drop recent)) :
    Layer.read (.ofWrites (memtable.take recent) :: (db.addFlushed file).allFiles.map content)
      = Layer.read (.ofWrites memtable :: db.allFiles.map content) := by
  rw [allFiles_addFlushed hdb, List.map_cons, hcontent]
  funext k
  conv_rhs => rw [← List.take_append_drop recent memtable]
  rw [Layer.read, Layer.read, Layer.latest_ofWrites_append]

/-- So they do when a task in flight puts its outputs in the place of its inputs. -/
theorem InFlight.read_replaceFiles {db db₀ : ColumnFamilyMetaData} {task : CompactionTask}
    {fresh outputs : List SstFileMetaData} (h : InFlight cfg fp db task db₀ fresh)
    (hstore : StoreInv cfg db) (hZK : cfg.largerLvlRunsCount ≤ cfg.smallerLvlRunsCount)
    (hout : task.outputLvl < db.numLevels)
    (hmerges : Layer.Merges ((db.inputs task).map content) (outputs.map content)
      ((db.filesBelow task.outputLvl).map content)) (memtable : List (κ × Option ν)) :
    Layer.read (.ofWrites memtable
        :: (db.replaceFiles task.inputFileNames task.outputLvl outputs).allFiles.map content)
      = Layer.read (.ofWrites memtable :: db.allFiles.map content) := by
  obtain ⟨newer, hbefore, hafter⟩ := h.allFiles_eq outputs hstore hZK hout
  have hread := hmerges.read_eq (Layer.ofWrites memtable :: newer.map content)
  simp only [hbefore, hafter, List.map_append]
  exact hread

/-- A client cannot tell a step of the store from no step, unless it is a write. -/
theorem simulates_map (hlev : 2 ≤ cfg.options.numLevels)
    (hZK : cfg.largerLvlRunsCount ≤ cfg.smallerLvlRunsCount) :
    StepSystem.Simulates (storeSystem κ ν cfg fp) (StorePromised content)
      (Layer.mapSystem κ ν) (fun _ _ ↦ True) StoreEvent.written some
      (fun s m ↦ m = s.get content) where
  init := by
    have hnil : (storeSystem κ ν cfg fp).init.tree.db.allFiles = [] := allFiles_empty _
    rw [StoreState.get, hnil]
    rfl
  step := by
    rintro s s' t e hreach rfl hp hs
    have hinv := treeInv_of_reachable hlev hreach
    match e with
    | .write key value =>
      obtain rfl := Option.some.inj hs
      refine ⟨[(key, value)], _, .single trivial rfl, rfl, ?_⟩
      exact (Layer.read_ofWrites_cons key value _ _).symm
    | .flush file recent =>
      obtain ⟨tree, htree, rfl⟩ := Option.map_eq_some_iff.mp hs
      refine ⟨[], _, .refl _, rfl, ?_⟩
      have hdb : tree.db = s.tree.db.addFlushed file := by
        cases (hinv.step hp.1 htree).2 with
        | rest _ _ hdb _ | schedule _ _ hdb _ | overlap _ _ hdb => exact hdb
      have htwo := hinv.store.two_le
      rw [StoreState.get, StoreState.get, hdb, read_addFlushed (by omega) hp.2]
    | .compact task (.success outputs) =>
      obtain ⟨tree, htree, rfl⟩ := Option.map_eq_some_iff.mp hs
      refine ⟨[], _, .refl _, rfl, ?_⟩
      cases (hinv.step hp.1 htree).2 with
      | success htasks _ hout hdb =>
        obtain ⟨db₀, fresh, hflight⟩ := hinv.flight _ (htasks ▸ List.mem_singleton_self _)
        rw [StoreState.get, StoreState.get, hdb,
          hflight.read_replaceFiles hinv.store hZK hout hp.2]
    | .compact task (.failure status) =>
      obtain ⟨tree, htree, rfl⟩ := Option.map_eq_some_iff.mp hs
      have hp : Promised s.tree (.compact task (.failure status)) := hp
      refine ⟨[], _, .refl _, rfl, ?_⟩
      cases (hinv.step hp htree).2 with
      | failure _ _ hdb => rw [StoreState.get, StoreState.get, hdb]

/-- **The store refines a map.** For `Z ≤ K` and any interleaving of writes, flushes, completed and
failed compactions, the reads of the store are those of the map that has seen the same writes: of
each key the last value written to it. -/
theorem reads_refine_map (hlev : 2 ≤ cfg.options.numLevels)
    (hZK : cfg.largerLvlRunsCount ≤ cfg.smallerLvlRunsCount) {h : List (StoreEvent κ ν)}
    {s : StoreState κ ν} (hrun : (storeSystem κ ν cfg fp).Run (StorePromised content) h s) :
    (Layer.mapSystem κ ν).Run (fun _ _ ↦ True) (h.filterMap StoreEvent.written) (s.get content)
      ∧ ∀ k, s.get content k = ((h.filterMap StoreEvent.written).lookup k).join := by
  obtain ⟨h', m, hrun', hseen, rfl⟩ := (simulates_map hlev hZK).run hrun
  rw [List.filterMap_some] at hseen
  subst hseen
  exact ⟨hrun', Layer.mapSystem_run_apply hrun'⟩

end

/-- What the files of the run below answer. -/
private def smallContent (file : SstFileMetaData) : Layer Bool ℕ :=
  match file.name with
  | "1" => .ofWrites [(true, some 1), (false, some 1)]
  | "2" => .ofWrites [(true, none)]
  | "a" => .ofWrites [(false, some 1)]
  | _ => .ofWrites [(true, some 2)]

private instance : DecidableEq (Layer Bool ℕ) :=
  inferInstanceAs (DecidableEq (Bool → Option (Option ℕ)))

private instance (inputs outputs older : List (Layer Bool ℕ)) :
    Decidable (Layer.Merges inputs outputs older) :=
  inferInstanceAs (Decidable (∀ _, _ ∨ _))

private instance (s : StoreState Bool ℕ) : ∀ e, Decidable (StorePromised smallContent s e)
  | .write _ _ => inferInstanceAs (Decidable True)
  | .flush _ _ => inferInstanceAs (Decidable (_ ∧ _))
  | .compact _ (.success _) => inferInstanceAs (Decidable (_ ∧ _))
  | .compact task (.failure status) =>
    inferInstanceAs (Decidable (Promised s.tree (.compact task (.failure status))))

/-- A compaction drops a deletion while a newer write of the key is already flushed, and a last
write is still in memory. -/
theorem reads_refine_map_small :
    ∃ s : StoreState Bool ℕ,
      (Layer.mapSystem Bool ℕ).Run (fun _ _ ↦ True)
        [(false, none), (true, some 2), (true, none), (true, some 1), (false, some 1)]
        (s.get smallContent)
      ∧ s.tree.db.allFiles.map SstFileMetaData.name = ["3", "a"]
      ∧ s.get smallContent false = none ∧ s.get smallContent true = some 2 := by
  obtain ⟨s, hrun, hnames, hreads⟩ :=
    StepSystem.exists_run_of_exec (M := storeSystem Bool ℕ (.small 1 1 6) .exact)
      (P := StorePromised smallContent)
      (R := fun s ↦ s.tree.db.allFiles.map SstFileMetaData.name = ["3", "a"]
        ∧ s.get smallContent false = none ∧ s.get smallContent true = some 2)
      (h := [.write false none,
        .compact (promoteFlushes [2, 1] 3) (.success [promotedFile "a" [2, 1]]),
        .flush (largeFile 3) 0, .write true (some 2), .flush (largeFile 2) 0, .write true none,
        .flush (largeFile 1) 0, .write true (some 1), .write false (some 1)])
      (by decide +kernel)
  exact ⟨s, (reads_refine_map (by decide) (by decide) hrun).1, hnames, hreads⟩

end WorkloadAwareCompaction
