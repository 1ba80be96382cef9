import Mathlib.Data.Finset.Card
import WorkloadAwareCompaction.Tree.Compaction

/-!
# Trigger and collection

Whether a level is compacted depends on its live runs: `NumLiveRuns` leaves out a run as soon as one
of its files is being compacted. What is compacted is collected file by file:
`AddFilesToCompaction` leaves out the marked files only. The two loops treat every run alike whose
files are all marked or all idle, and every run that is partly being compacted differently: it does
not count, yet its idle files are collected and the sorted run is torn apart.

So the two agree on a level exactly when no run of the level is partly being compacted
(`collectsLiveRuns_iff`). The runs in question are whole store levels; a file of store level 0 is a
run of its own.
-/

namespace WorkloadAwareCompaction

open FluidLSM

/-- Some files are being compacted, and some are not. -/
def PartlyCompacted (files : List SstFileMetaData) : Prop :=
  (∃ file ∈ files, file.beingCompacted = true) ∧ ∃ file ∈ files, file.beingCompacted = false

instance : DecidablePred PartlyCompacted := fun _ ↦ inferInstanceAs (Decidable (_ ∧ _))

theorem not_partlyCompacted_nil : ¬PartlyCompacted [] := fun ⟨⟨_, hmem, _⟩, _⟩ ↦
  List.not_mem_nil hmem

theorem not_partlyCompacted_singleton (file : SstFileMetaData) : ¬PartlyCompacted [file] := by
  rintro ⟨⟨x, hx, hmarked⟩, y, hy, hidle⟩
  rw [List.mem_singleton.mp hx] at hmarked
  rw [List.mem_singleton.mp hy, hmarked] at hidle
  exact absurd hidle (by decide)

namespace FluidLSM

/-- The positions of the runs of a level that a file was collected from. -/
def collectedRuns (t : FluidLSM) (lvl : ℕ) : Finset ℕ :=
  ((t.addFilesToCompaction lvl []).map FilePtr.run).toFinset

/-- What the trigger counts on a level is what is collected from it. -/
structure CollectsLiveRuns (t : FluidLSM) (lvl : ℕ) : Prop where
  /-- The inputs are all files of the live runs, and no others. -/
  inputs : ∀ p, p ∈ t.addFilesToCompaction lvl [] ↔ p.lvl = lvl ∧ ∃ run,
    (t.runsAt lvl)[p.run]? = some run ∧ run.isLive = true ∧ p.file < run.files.length
  card_eq : (t.collectedRuns lvl).card = t.numLiveRunsAt lvl

variable {t : FluidLSM} {lvl : ℕ}

/-! ## The two loops -/

theorem mem_addFilesToCompaction {p : FilePtr} :
    p ∈ t.addFilesToCompaction lvl [] ↔ p.lvl = lvl ∧ ∃ run file,
      (t.runsAt lvl)[p.run]? = some run ∧ run.files[p.file]? = some file
        ∧ file.beingCompacted = false := by
  rw [addFilesToCompaction_eq, List.nil_append, List.mem_flatMap]
  constructor
  · rintro ⟨⟨run, r⟩, hrun, hp⟩
    obtain ⟨⟨file, k⟩, hfile, rfl⟩ := List.mem_map.mp hp
    obtain ⟨hmem, hidle⟩ := List.mem_filter.mp hfile
    exact ⟨rfl, run, file, List.mem_zipIdx_iff_getElem?.mp hrun,
      List.mem_zipIdx_iff_getElem?.mp hmem, by simpa using hidle⟩
  · obtain ⟨l, r, k⟩ := p
    rintro ⟨rfl, run, file, hrun, hfile, hidle⟩
    refine ⟨(run, r), List.mem_zipIdx_iff_getElem?.mpr hrun, List.mem_map.mpr ⟨(file, k),
      List.mem_filter.mpr ⟨List.mem_zipIdx_iff_getElem?.mpr hfile, ?_⟩, rfl⟩⟩
    rw [hidle]
    rfl

theorem mem_collectedRuns {r : ℕ} :
    r ∈ t.collectedRuns lvl ↔ ∃ run, (t.runsAt lvl)[r]? = some run
      ∧ ∃ file ∈ run.files, file.beingCompacted = false := by
  rw [collectedRuns, List.mem_toFinset, List.mem_map]
  constructor
  · rintro ⟨p, hp, rfl⟩
    obtain ⟨-, run, file, hrun, hfile, hidle⟩ := mem_addFilesToCompaction.mp hp
    exact ⟨run, hrun, file, List.mem_of_getElem? hfile, hidle⟩
  · rintro ⟨run, hrun, file, hmem, hidle⟩
    obtain ⟨k, hk⟩ := List.getElem?_of_mem hmem
    exact ⟨⟨lvl, r, k⟩, mem_addFilesToCompaction.mpr ⟨rfl, run, file, hrun, hk, hidle⟩, rfl⟩

/-- The positions of the live runs of a level. -/
def liveRunsAt (t : FluidLSM) (lvl : ℕ) : List ℕ :=
  ((t.runsAt lvl).zipIdx.filter fun run ↦ run.1.isLive).map Prod.snd

theorem mem_liveRunsAt {r : ℕ} :
    r ∈ t.liveRunsAt lvl ↔ ∃ run, (t.runsAt lvl)[r]? = some run ∧ run.isLive = true := by
  rw [liveRunsAt, List.mem_map]
  constructor
  · rintro ⟨⟨run, r⟩, hrun, rfl⟩
    obtain ⟨hmem, hlive⟩ := List.mem_filter.mp hrun
    exact ⟨run, List.mem_zipIdx_iff_getElem?.mp hmem, hlive⟩
  · rintro ⟨run, hrun, hlive⟩
    exact ⟨(run, r), List.mem_filter.mpr ⟨List.mem_zipIdx_iff_getElem?.mpr hrun, hlive⟩, rfl⟩

theorem card_liveRunsAt : (t.liveRunsAt lvl).toFinset.card = t.numLiveRunsAt lvl := by
  have hnodup : (t.liveRunsAt lvl).Nodup := by
    have hsnd : ((t.runsAt lvl).zipIdx.map Prod.snd).Nodup := by
      rw [List.zipIdx_map_snd]
      exact List.nodup_range'
    exact hsnd.sublist (List.filter_sublist.map _)
  have hcount := List.countP_map (p := Run.isLive) (f := Prod.fst) (l := (t.runsAt lvl).zipIdx)
  rw [List.zipIdx_map_fst] at hcount
  rw [List.toFinset_card_of_nodup hnodup, liveRunsAt, List.length_map, numLiveRunsAt_eq, hcount,
    List.countP_eq_length_filter]
  rfl

/-! ## Where they agree -/

/-- A run that is not partly being compacted is live as soon as one of its files is idle. -/
theorem isLive_of_not_partlyCompacted {run : Run} (h : ¬PartlyCompacted run.files)
    {file : SstFileMetaData} (hfile : file ∈ run.files) (hidle : file.beingCompacted = false) :
    run.isLive = true := by
  refine Run.isLive_iff.mpr ⟨List.ne_nil_of_mem hfile, fun other hother ↦ ?_⟩
  exact eq_false_of_ne_true fun hmarked ↦ h ⟨⟨other, hother, hmarked⟩, file, hfile, hidle⟩

theorem exists_idle_of_isLive {run : Run} (h : run.isLive = true) :
    ∃ file ∈ run.files, file.beingCompacted = false := by
  obtain ⟨hne, hidle⟩ := Run.isLive_iff.mp h
  obtain ⟨file, hfile⟩ := List.exists_mem_of_ne_nil _ hne
  exact ⟨file, hfile, hidle file hfile⟩

/-- On any view: trigger and collection agree exactly when no run is partly being compacted. -/
theorem collectsLiveRuns_iff_forall :
    t.CollectsLiveRuns lvl ↔ ∀ run ∈ t.runsAt lvl, ¬PartlyCompacted run.files := by
  constructor
  · rintro ⟨hinputs, -⟩ run hrun ⟨⟨marked, hmarked, hmark⟩, idle, hidle, hmark'⟩
    obtain ⟨r, hr⟩ := List.getElem?_of_mem hrun
    obtain ⟨k, hk⟩ := List.getElem?_of_mem hidle
    -- The idle file is collected, so its run would be live.
    obtain ⟨-, run', hrun', hlive, -⟩ := (hinputs ⟨lvl, r, k⟩).mp
      (mem_addFilesToCompaction.mpr ⟨rfl, run, idle, hr, hk, hmark'⟩)
    rw [hr, Option.some_inj] at hrun'
    subst hrun'
    rw [(Run.isLive_iff.mp hlive).2 marked hmarked] at hmark
    exact absurd hmark (by decide)
  · intro hwhole
    refine ⟨fun p ↦ ?_, ?_⟩
    · rw [mem_addFilesToCompaction]
      refine and_congr_right fun _ ↦ ⟨?_, ?_⟩
      · rintro ⟨run, file, hrun, hfile, hidle⟩
        exact ⟨run, hrun, isLive_of_not_partlyCompacted (hwhole run (List.mem_of_getElem? hrun))
          (List.mem_of_getElem? hfile) hidle, (List.getElem?_eq_some_iff.mp hfile).1⟩
      · rintro ⟨run, hrun, hlive, hlt⟩
        exact ⟨run, run.files[p.file], hrun, List.getElem?_eq_getElem hlt,
          (Run.isLive_iff.mp hlive).2 _ (List.getElem_mem hlt)⟩
    · have hruns : t.collectedRuns lvl = (t.liveRunsAt lvl).toFinset := by
        ext r
        rw [mem_collectedRuns, List.mem_toFinset, mem_liveRunsAt]
        refine exists_congr fun run ↦ and_congr_right fun hrun ↦ ⟨?_, exists_idle_of_isLive⟩
        rintro ⟨file, hfile, hidle⟩
        exact isLive_of_not_partlyCompacted (hwhole run (List.mem_of_getElem? hrun)) hfile hidle
      rw [hruns, card_liveRunsAt]

variable {db : ColumnFamilyMetaData}

/-- The runs of the view that can be partly compacted are whole store levels. -/
theorem forall_runsAt_buildStructure_iff (hdb : 2 ≤ db.numLevels)
    (ht : t.lazyLevels.length = db.numLevels) :
    (∀ run ∈ (t.buildStructure db).runsAt lvl, ¬PartlyCompacted run.files)
      ↔ ∀ i, 1 ≤ i → t.fluidLvl i = lvl → ¬PartlyCompacted (db.filesAt i) := by
  rcases Nat.eq_zero_or_pos lvl with rfl | hlvl
  · rw [runsAt_buildStructure_zero (by omega), topRuns]
    constructor
    · intro h i hi hlvl
      obtain rfl : i = 1 := le_antisymm (Config.fluidLvl_eq_zero_iff.mp hlvl) hi
      have hlast := h (Run.ofFiles (db.filesAt 1) 1) (List.mem_append_right _ (by simp))
      rwa [Run.files_ofFiles] at hlast
    · intro h run hrun
      simp only [List.mem_append, List.mem_map, List.mem_singleton] at hrun
      rcases hrun with (⟨_, -, rfl⟩ | ⟨file, -, rfl⟩) | rfl
      · rw [Run.files_ofFiles]
        exact not_partlyCompacted_nil
      · rw [Run.files_ofFiles]
        exact not_partlyCompacted_singleton file
      · rw [Run.files_ofFiles]
        exact h 1 le_rfl (Config.fluidLvl_eq_zero_iff.mpr le_rfl)
  · rw [runsAt_buildStructure_slots hlvl hdb ht]
    constructor
    · intro h i _ hi hpartly
      have hlt : i < db.numLevels := by
        obtain ⟨⟨file, hfile, -⟩, -⟩ := hpartly
        exact ColumnFamilyMetaData.lt_numLevels_of_mem hfile
      have hrun := h _ (List.mem_map_of_mem ((mem_slots hlvl).mpr ⟨hlt, hi⟩))
      rw [Run.files_ofFiles] at hrun
      exact hrun hpartly
    · intro h run hrun
      obtain ⟨i, hi, rfl⟩ := List.mem_map.mp hrun
      obtain ⟨-, rfl⟩ := (mem_slots hlvl).mp hi
      rw [Run.files_ofFiles]
      exact h i (Nat.one_le_iff_ne_zero.mpr (Config.ne_zero_of_fluidLvl_pos hlvl)) rfl

/-- **Trigger and collection agree on a level exactly when no sorted run of it is partly being
compacted**, for every metadata. -/
theorem collectsLiveRuns_iff (hdb : 2 ≤ db.numLevels) (ht : t.lazyLevels.length = db.numLevels)
    (lvl : ℕ) :
    (t.buildStructure db).CollectsLiveRuns lvl
      ↔ ∀ i, 1 ≤ i → t.fluidLvl i = lvl → ¬PartlyCompacted (db.filesAt i) := by
  rw [collectsLiveRuns_iff_forall, forall_runsAt_buildStructure_iff hdb ht]

/-- Two idle files of level 0 over a run that is being compacted as a whole. -/
theorem collectsLiveRuns_small :
    ((FluidLSM.new (.small 1 1 4)).buildStructure (.ofFiles [[.flushed "d" 1 3, .flushed "c" 1 2],
      [⟨"b", 1, true, {1}⟩, ⟨"a", 1, true, {0}⟩], [], []])).CollectsLiveRuns 0 := by
  refine (collectsLiveRuns_iff (by decide) (by decide) 0).mpr fun i hi hlvl ↦ ?_
  obtain rfl : i = 1 := le_antisymm (Config.fluidLvl_eq_zero_iff.mp hlvl) hi
  decide +kernel

/-- The same with one file of that run idle: level 0 has two live runs, one more than `Z`, and files
of three are collected. -/
theorem not_collectsLiveRuns_small :
    ¬∀ (t : FluidLSM) (db : ColumnFamilyMetaData) (lvl : ℕ), 2 ≤ db.numLevels →
      t.lazyLevels.length = db.numLevels →
      (t.buildStructure db).overBound (t.buildStructure db).getLargestOccupiedLevel lvl = true →
      (t.buildStructure db).CollectsLiveRuns lvl := by
  intro hall
  have hcard := (hall (.new (.small 1 1 4)) (.ofFiles [[.flushed "d" 1 3, .flushed "c" 1 2],
    [⟨"b", 1, true, {1}⟩, .flushed "a" 1 0], [], []]) 0 (by decide) (by decide)
    (by decide +kernel)).card_eq
  exact absurd hcard (by decide +kernel)

end FluidLSM

end WorkloadAwareCompaction
