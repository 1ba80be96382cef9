import Mathlib.Data.Finset.Card
import WorkloadAwareCompaction.Tree.Compaction

/-!
# Reading the view of an idle store

While no compaction runs, no file of the store is marked. The functions of the tree then read plain
facts about the store levels: which of them hold a file, and how large the files are. This file
states those facts once, in terms of `fluidLvl`, so that results about whole runs need not look into
the view again.

Fluid level `l` consists of the store levels `i` with `fluidLvl i = l`. Store level 0 is the
exception that every statement here makes explicit: each of its files is a run of its own.
-/

namespace WorkloadAwareCompaction

open FluidLSM

/-- No file of the store is an input of a running compaction. -/
def Unmarked (db : ColumnFamilyMetaData) : Prop :=
  ∀ i, ∀ file ∈ db.filesAt i, file.beingCompacted = false

/-- The store levels from 1 on that belong to fluid level `l` and hold a file. -/
def occupiedLevels (cfg : Config) (db : ColumnFamilyMetaData) (l : ℕ) : Finset ℕ :=
  (Finset.range db.numLevels).filter fun i ↦ 1 ≤ i ∧ cfg.fluidLvl i = l ∧ db.filesAt i ≠ []

section

variable {cfg : Config} {db : ColumnFamilyMetaData}

theorem mem_occupiedLevels {l i : ℕ} :
    i ∈ occupiedLevels cfg db l ↔ 1 ≤ i ∧ cfg.fluidLvl i = l ∧ db.filesAt i ≠ [] := by
  rw [occupiedLevels, Finset.mem_filter, Finset.mem_range, and_iff_right_iff_imp]
  rintro ⟨-, -, hne⟩
  by_contra hle
  exact hne (ColumnFamilyMetaData.filesAt_of_le (Nat.le_of_not_lt hle))

/-- The only store level that counts towards level 0 is store level 1. -/
theorem occupiedLevels_zero :
    occupiedLevels cfg db 0 = if db.filesAt 1 = [] then ∅ else {1} := by
  ext i
  rw [mem_occupiedLevels, Config.fluidLvl_eq_zero_iff]
  split_ifs with h
  · simp only [Finset.notMem_empty, iff_false]
    rintro ⟨h1, h1', hne⟩
    obtain rfl : i = 1 := le_antisymm h1' h1
    exact hne h
  · rw [Finset.mem_singleton]
    constructor
    · rintro ⟨h1, h1', -⟩
      exact le_antisymm h1' h1
    · rintro rfl
      exact ⟨le_rfl, le_rfl, h⟩

/-- Below the top, the occupied store levels are the occupied slots. -/
theorem occupiedLevels_pos {l : ℕ} (hl : 0 < l) :
    occupiedLevels cfg db l
      = ((slots cfg db.numLevels l).filter fun i ↦ !(db.filesAt i).isEmpty).toFinset := by
  ext i
  rw [mem_occupiedLevels, List.mem_toFinset, List.mem_filter, mem_slots hl]
  simp only [Bool.not_eq_true', List.isEmpty_eq_false_iff]
  constructor
  · rintro ⟨-, hi, hne⟩
    obtain ⟨file, hfile⟩ := List.exists_mem_of_ne_nil _ hne
    exact ⟨⟨ColumnFamilyMetaData.lt_numLevels_of_mem hfile, hi⟩, hne⟩
  · rintro ⟨⟨-, hi⟩, hne⟩
    have := Config.fluidLvl_pos_iff.mp (hi ▸ hl)
    exact ⟨by omega, hi, hne⟩

/-- Store level 0 does not count. -/
theorem occupiedLevels_congr {db' : ColumnFamilyMetaData}
    (hfiles : ∀ i, i ≠ 0 → db'.filesAt i = db.filesAt i) (l : ℕ) :
    occupiedLevels cfg db' l = occupiedLevels cfg db l := by
  ext i
  rw [mem_occupiedLevels, mem_occupiedLevels]
  refine and_congr_right fun hi ↦ ?_
  rw [hfiles i (by omega)]

@[simp] theorem toConfig_fluidView : (fluidView cfg db).toConfig = cfg := by
  rw [fluidView, toConfig_buildStructure]
  rfl

@[simp] theorem parallelCompactionsRunning_fluidView :
    (fluidView cfg db).parallelCompactionsRunning = 0 := by
  rw [fluidView, parallelCompactionsRunning_buildStructure]
  rfl

variable (hdb : 2 ≤ db.numLevels) (hcfg : db.numLevels = cfg.options.numLevels)

include hdb hcfg

theorem runsAt_fluidView_zero : (fluidView cfg db).runsAt 0 = topRuns cfg db := by
  have ht : 0 < (FluidLSM.new cfg).lazyLevels.length := by
    rw [length_lazyLevels_new]
    omega
  rw [fluidView, runsAt_buildStructure_zero ht]
  rfl

theorem runsAt_fluidView_pos {l : ℕ} (hl : 0 < l) :
    (fluidView cfg db).runsAt l
      = (slots cfg db.numLevels l).map fun i ↦ Run.ofFiles (db.filesAt i) i := by
  have ht : (FluidLSM.new cfg).lazyLevels.length = db.numLevels :=
    (length_lazyLevels_new cfg).trans hcfg.symm
  rw [fluidView, runsAt_buildStructure_slots hl hdb ht]
  rfl

/-- **The files of a fluid level** are the files of its store levels, level after level. -/
theorem files_fluidView (l : ℕ) :
    ((fluidView cfg db).runsAt l).flatMap Run.files
      = ((List.range db.numLevels).filter (cfg.fluidLvl · = l)).flatMap db.filesAt := by
  have hrange : List.range db.numLevels = 0 :: List.range' 1 (db.numLevels - 1) := by
    obtain ⟨n, hn⟩ : ∃ n, db.numLevels = n + 2 := ⟨db.numLevels - 2, by omega⟩
    rw [hn, List.range_eq_range']
    rfl
  have hzero : cfg.fluidLvl 0 = 0 := Config.fluidLvl_eq_zero_iff.mpr (Nat.zero_le _)
  rw [hrange, List.filter_cons, hzero, filter_range'_one hdb]
  rcases Nat.eq_zero_or_pos l with rfl | hl
  · rw [runsAt_fluidView_zero hdb hcfg, topRuns]
    simp [List.flatMap_map, List.flatMap_append]
  · rw [runsAt_fluidView_pos hdb hcfg hl]
    simp [hl.ne, hl.ne', List.flatMap_map]

theorem mem_files_fluidView {l : ℕ} {file : SstFileMetaData} :
    file ∈ ((fluidView cfg db).runsAt l).flatMap Run.files
      ↔ ∃ i, cfg.fluidLvl i = l ∧ file ∈ db.filesAt i := by
  rw [files_fluidView hdb hcfg, List.mem_flatMap]
  constructor
  · rintro ⟨i, hi, hfile⟩
    exact ⟨i, by simpa using (List.mem_filter.mp hi).2, hfile⟩
  · rintro ⟨i, hi, hfile⟩
    refine ⟨i, List.mem_filter.mpr ⟨List.mem_range.mpr ?_, by simpa using hi⟩, hfile⟩
    exact ColumnFamilyMetaData.lt_numLevels_of_mem hfile

theorem occupied_fluidView_iff {l : ℕ} :
    (fluidView cfg db).Occupied l ↔ ∃ i, cfg.fluidLvl i = l ∧ db.filesAt i ≠ [] := by
  have hocc : (fluidView cfg db).Occupied l
      ↔ ∃ file, file ∈ ((fluidView cfg db).runsAt l).flatMap Run.files := by
    constructor
    · rintro ⟨run, hrun, hne⟩
      obtain ⟨file, hfile⟩ := List.exists_mem_of_ne_nil _ hne
      exact ⟨file, List.mem_flatMap.mpr ⟨run, hrun, hfile⟩⟩
    · rintro ⟨file, hfile⟩
      obtain ⟨run, hrun, hfile⟩ := List.mem_flatMap.mp hfile
      exact ⟨run, hrun, List.ne_nil_of_mem hfile⟩
  rw [hocc]
  constructor
  · rintro ⟨file, hfile⟩
    obtain ⟨i, hi, hfile⟩ := (mem_files_fluidView hdb hcfg).mp hfile
    exact ⟨i, hi, List.ne_nil_of_mem hfile⟩
  · rintro ⟨i, hi, hne⟩
    obtain ⟨file, hfile⟩ := List.exists_mem_of_ne_nil _ hne
    exact ⟨file, (mem_files_fluidView hdb hcfg).mpr ⟨i, hi, hfile⟩⟩

theorem fluidLvl_le_largest {i : ℕ} (h : db.filesAt i ≠ []) :
    cfg.fluidLvl i ≤ (fluidView cfg db).getLargestOccupiedLevel :=
  ((occupied_fluidView_iff hdb hcfg).mpr ⟨i, rfl, h⟩).le_getLargestOccupiedLevel

theorem exists_fluidLvl_eq_largest (h : (fluidView cfg db).getLargestOccupiedLevel ≠ 0) :
    ∃ i, cfg.fluidLvl i = (fluidView cfg db).getLargestOccupiedLevel ∧ db.filesAt i ≠ [] :=
  (occupied_fluidView_iff hdb hcfg).mp (occupied_getLargestOccupiedLevel h)

/-- An empty slot of a level below the top is an empty store level. -/
theorem emptySlot_fluidView_iff {l slot : ℕ} (hl : 0 < l) :
    (fluidView cfg db).EmptySlot l slot
      ↔ slot ≤ cfg.smallerLvlRunsCount
        ∧ cfg.rocksDBLvl l (cfg.smallerLvlRunsCount - slot) < db.numLevels
        ∧ db.filesAt (cfg.rocksDBLvl l (cfg.smallerLvlRunsCount - slot)) = [] := by
  rw [EmptySlot, runsAt_fluidView_pos hdb hcfg hl, List.getElem?_map]
  constructor
  · rintro ⟨run, hrun, hnil⟩
    obtain ⟨i, hi, rfl⟩ := Option.map_eq_some_iff.mp hrun
    obtain ⟨hslot, hlt, rfl⟩ := (getElem?_slots hl).mp hi
    exact ⟨hslot, hlt, by rwa [Run.files_ofFiles] at hnil⟩
  · rintro ⟨hslot, hlt, hnil⟩
    rw [(getElem?_slots hl).mpr ⟨hslot, hlt, rfl⟩, Option.map_some]
    exact ⟨_, rfl, by rwa [Run.files_ofFiles]⟩

/-- A slot that is not empty, as a store level. -/
theorem filesAt_ne_nil_of_not_emptySlot {l k : ℕ} (hl : 0 < l) (hk : k ≤ cfg.smallerLvlRunsCount)
    (hlast : cfg.rocksDBLvl l 0 < db.numLevels)
    (h : ¬(fluidView cfg db).EmptySlot l (cfg.smallerLvlRunsCount - k)) :
    db.filesAt (cfg.rocksDBLvl l k) ≠ [] := by
  intro hnil
  refine h ((emptySlot_fluidView_iff hdb hcfg hl).mpr ⟨Nat.sub_le _ _, ?_, ?_⟩) <;>
    rw [Nat.sub_sub_self hk]
  · exact lt_of_le_of_lt (Nat.sub_le_sub_left (Nat.zero_le k) _) hlast
  · exact hnil

/-- A search that returns a level was made on a level with all its slots. -/
theorem lt_length_runsAt_fluidView_of_findSlot {l out : ℕ} (hl : 0 < l)
    (h : (fluidView cfg db).findSlot l (cfg.smallerLvlRunsCount + 1) = some out) :
    cfg.smallerLvlRunsCount < ((fluidView cfg db).runsAt l).length
      ∧ cfg.rocksDBLvl l 0 < db.numLevels := by
  have ht : (FluidLSM.new cfg).lazyLevels.length = db.numLevels :=
    (length_lazyLevels_new cfg).trans hcfg.symm
  have hfull : cfg.smallerLvlRunsCount < ((fluidView cfg db).runsAt l).length := by
    by_contra hshort
    have hnone := findSlot_eq_none (fluidView cfg db) l (by
      rw [toConfig_fluidView]
      exact not_lt.mp hshort)
    rw [toConfig_fluidView, h] at hnone
    exact absurd hnone (by simp)
  exact ⟨hfull, (lt_length_runsAt_buildStructure_iff hl hdb ht).mp hfull⟩

/-- On an unmarked store every file of a level is idle. -/
theorem idleFilesAt_fluidView (hmark : Unmarked db) (l : ℕ) :
    (fluidView cfg db).idleFilesAt l = ((fluidView cfg db).runsAt l).flatMap Run.files := by
  rw [idleFilesAt, List.filter_eq_self]
  intro file hfile
  obtain ⟨i, -, hfile⟩ := (mem_files_fluidView hdb hcfg).mp hfile
  rw [hmark i file hfile]
  rfl

/-- Every run of the view holds files of one store level. -/
theorem exists_level_of_mem_runsAt {l : ℕ} {run : Run} (hrun : run ∈ (fluidView cfg db).runsAt l) :
    ∀ file ∈ run.files, ∃ i, file ∈ db.filesAt i := by
  intro file hfile
  obtain ⟨i, -, hfile⟩ := (mem_files_fluidView hdb hcfg).mp
    (List.mem_flatMap.mpr ⟨run, hrun, hfile⟩)
  exact ⟨i, hfile⟩

/-- On an unmarked store the live runs are the non-empty ones. -/
theorem numLiveRunsAt_eq_countP (hmark : Unmarked db) (l : ℕ) :
    (fluidView cfg db).numLiveRunsAt l
      = ((fluidView cfg db).runsAt l).countP fun run ↦ !run.files.isEmpty := by
  have hlive : ∀ run ∈ (fluidView cfg db).runsAt l,
      (run.isLive = true ↔ (!run.files.isEmpty) = true) := by
    intro run hrun
    rw [Run.isLive_of_forall fun file hfile ↦ ?_]
    obtain ⟨i, hi⟩ := exists_level_of_mem_runsAt hdb hcfg hrun file hfile
    exact hmark i file hi
  rw [← List.countP_congr hlive, numLiveRunsAt_eq]

/-- **Counting live runs.** On an unmarked store a level has one live run for every occupied store
level, and level 0 one more for every file of store level 0. -/
theorem numLiveRunsAt_fluidView (hmark : Unmarked db) (l : ℕ) :
    (fluidView cfg db).numLiveRunsAt l
      = (if l = 0 then (db.filesAt 0).length else 0) + (occupiedLevels cfg db l).card := by
  rw [numLiveRunsAt_eq_countP hdb hcfg hmark]
  rcases Nat.eq_zero_or_pos l with rfl | hl
  · -- The padding runs are empty and do not count.
    rw [runsAt_fluidView_zero hdb hcfg, topRuns, if_pos rfl, occupiedLevels_zero]
    by_cases h : db.filesAt 1 = [] <;> simp [h, List.countP_append, Function.comp_def]
  · rw [runsAt_fluidView_pos hdb hcfg hl, List.countP_map, List.countP_eq_length_filter,
      occupiedLevels_pos hl, List.toFinset_card_of_nodup ((nodup_slots cfg _ l).filter _),
      if_neg hl.ne', Nat.zero_add]
    simp [Function.comp_def]

end

end WorkloadAwareCompaction
