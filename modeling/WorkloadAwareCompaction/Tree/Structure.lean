import Mathlib.Algebra.Order.Floor.Ring
import Mathlib.Data.List.Sort
import Mathlib.Tactic.FieldSimp
import WorkloadAwareCompaction.Library.Bucket
import WorkloadAwareCompaction.Tree.Metadata

/-!
# The fluid view of the store

`BuildStructure` throws the cached view away and reads the store again: level 0 of the tree takes
every file of store level 0 as a run of its own and store level 1 as its last run, padded in front
with empty runs up to `K`; a store level `L ≥ 2` becomes a run of level `⌈(L - 1) / (K + 1)⌉`.

The loops are written as in the source. What they compute is one distribution of a keyed list: the
runs, listed in the order of the store levels, fall into the lazy levels their keys name
(`lazyLevels_buildStructure`). The keys only grow along that list, so reading the lazy levels one
after the other gives the store back (`buildStructure_faithful`).

The index arithmetic reduces to one fact, the adjunction `fluidLvl_le_iff`: level `L` of the store
belongs to level `l` of the tree or to an earlier one exactly when `L ≤ 1 + l * (K + 1)`, which is
the number `ScheduleCompaction` starts from.
-/

namespace WorkloadAwareCompaction

/-! ## Store levels and fluid levels -/

namespace Config

variable (cfg : Config)

/-- The fluid level of a store level. Both operands are small integers, for which the `double`
quotient has the same ceiling as the exact one. -/
def fluidLvl (level : ℕ) : ℕ :=
  ⌈((level : ℚ) - 1) / ((cfg.smallerLvlRunsCount : ℚ) + 1)⌉.toNat

/-- `1 + target_lvl * (K + 1) - lvl`: the store level behind slot `K - lvl` of a fluid level. -/
def rocksDBLvl (targetLvl lvl : ℕ) : ℕ := 1 + targetLvl * (cfg.smallerLvlRunsCount + 1) - lvl

variable {cfg}

/-- **The adjunction between the two numberings.** -/
theorem fluidLvl_le_iff {level lvl : ℕ} :
    cfg.fluidLvl level ≤ lvl ↔ level ≤ cfg.rocksDBLvl lvl 0 := by
  have hpos : (0 : ℚ) < (cfg.smallerLvlRunsCount : ℚ) + 1 := by positivity
  rw [fluidLvl, Int.toNat_le, Int.ceil_le, Int.cast_natCast, div_le_iff₀ hpos, sub_le_iff_le_add,
    rocksDBLvl, Nat.sub_zero]
  constructor
  · intro h
    have hcast : (level : ℚ) ≤ ((1 + lvl * (cfg.smallerLvlRunsCount + 1) : ℕ) : ℚ) := by
      push_cast
      linarith
    exact_mod_cast hcast
  · intro h
    have hcast : (level : ℚ) ≤ ((1 + lvl * (cfg.smallerLvlRunsCount + 1) : ℕ) : ℚ) := by
      exact_mod_cast h
    push_cast at hcast
    linarith

theorem fluidLvl_mono (cfg : Config) {level level' : ℕ} (h : level ≤ level') :
    cfg.fluidLvl level ≤ cfg.fluidLvl level' :=
  fluidLvl_le_iff.mpr (h.trans (fluidLvl_le_iff.mp le_rfl))

theorem lt_fluidLvl_iff {level lvl : ℕ} :
    lvl < cfg.fluidLvl level ↔ cfg.rocksDBLvl lvl 0 < level := by
  rw [← not_le, fluidLvl_le_iff, not_le]

@[simp] theorem rocksDBLvl_zero : cfg.rocksDBLvl 0 0 = 1 := by rw [rocksDBLvl]; omega

theorem fluidLvl_eq_zero_iff {level : ℕ} : cfg.fluidLvl level = 0 ↔ level ≤ 1 := by
  rw [← Nat.le_zero, fluidLvl_le_iff, rocksDBLvl_zero]

theorem fluidLvl_pos_iff {level : ℕ} : 0 < cfg.fluidLvl level ↔ 2 ≤ level := by
  rw [Nat.pos_iff_ne_zero, ne_eq, fluidLvl_eq_zero_iff]
  omega

theorem ne_zero_of_fluidLvl_pos {level : ℕ} (h : 0 < cfg.fluidLvl level) : level ≠ 0 := by
  have := fluidLvl_pos_iff.mp h
  omega

theorem rocksDBLvl_succ (cfg : Config) (lvl : ℕ) :
    cfg.rocksDBLvl (lvl + 1) 0 = cfg.rocksDBLvl lvl 0 + (cfg.smallerLvlRunsCount + 1) := by
  rw [rocksDBLvl, rocksDBLvl]
  ring_nf
  omega

/-- Slot `K - lvl` of a level below the top lies `lvl` store levels above the last slot. -/
theorem rocksDBLvl_add (cfg : Config) {targetLvl lvl : ℕ} (htarget : 0 < targetLvl)
    (hlvl : lvl ≤ cfg.smallerLvlRunsCount) :
    cfg.rocksDBLvl targetLvl lvl + lvl = cfg.rocksDBLvl targetLvl 0 := by
  have := Nat.le_mul_of_pos_left (cfg.smallerLvlRunsCount + 1) htarget
  rw [rocksDBLvl, rocksDBLvl]
  omega

/-- The store levels of a fluid level below the top are the `K + 1` numbers
`1 + l * (K + 1) - lvl` for `lvl ≤ K`. -/
theorem fluidLvl_eq_iff {level lvl : ℕ} (hlvl : 0 < lvl) :
    cfg.fluidLvl level = lvl
      ↔ ∃ k ≤ cfg.smallerLvlRunsCount, level = cfg.rocksDBLvl lvl k := by
  obtain ⟨l, rfl⟩ : ∃ l, lvl = l + 1 := ⟨lvl - 1, by omega⟩
  have hsucc := rocksDBLvl_succ cfg l
  have hbounds : cfg.fluidLvl level = l + 1
      ↔ cfg.rocksDBLvl l 0 < level ∧ level ≤ cfg.rocksDBLvl (l + 1) 0 := by
    rw [← lt_fluidLvl_iff, ← fluidLvl_le_iff]
    omega
  rw [hbounds]
  constructor
  · rintro ⟨hlow, hhigh⟩
    have hk : cfg.rocksDBLvl (l + 1) 0 - level ≤ cfg.smallerLvlRunsCount := by omega
    have := rocksDBLvl_add cfg hlvl hk
    exact ⟨_, hk, by omega⟩
  · rintro ⟨k, hk, rfl⟩
    have := rocksDBLvl_add cfg hlvl hk
    omega

theorem fluidLvl_rocksDBLvl {lvl k : ℕ} (hlvl : 0 < lvl) (hk : k ≤ cfg.smallerLvlRunsCount) :
    cfg.fluidLvl (cfg.rocksDBLvl lvl k) = lvl :=
  (fluidLvl_eq_iff hlvl).mpr ⟨k, hk, rfl⟩

theorem fluidLvl_rocksDBLvl_zero (lvl : ℕ) : cfg.fluidLvl (cfg.rocksDBLvl lvl 0) = lvl := by
  rcases Nat.eq_zero_or_pos lvl with rfl | hlvl
  · rw [rocksDBLvl_zero, fluidLvl_eq_zero_iff]
  · exact fluidLvl_rocksDBLvl hlvl (Nat.zero_le _)

/-- A store level is at least as deep as its fluid level. -/
theorem fluidLvl_lt {level n : ℕ} (h : level < n) (hn : 2 ≤ n) : cfg.fluidLvl level < n := by
  refine lt_of_le_of_lt (fluidLvl_le_iff.mpr ?_ : cfg.fluidLvl level ≤ n - 1) (by omega)
  have hle : n - 1 ≤ (n - 1) * (cfg.smallerLvlRunsCount + 1) :=
    Nat.le_mul_of_pos_right _ (Nat.succ_pos _)
  rw [rocksDBLvl, Nat.sub_zero]
  omega

end Config

/-! ## Rebuilding the view -/

namespace FluidLSM

variable (t : FluidLSM)

def createRun (files : List SstFileMetaData) (lvl rocksDBLvl : ℕ) : FluidLSM :=
  { t with lazyLevels := t.lazyLevels.modify lvl (·.addRun (Run.ofFiles files rocksDBLvl)) }

/-- `BuildStructure`. The loop counters are kept; `lazy_levels_mutex_` is held throughout. -/
def buildStructure (db : ColumnFamilyMetaData) : FluidLSM :=
  let cleared : FluidLSM := { t with lazyLevels := t.lazyLevels.map LazyLevel.clear }
  let numRunsInLvl1 := (db.filesAt 0).length + (!(db.filesAt 1).isEmpty).toNat
  let padded := (List.range' numRunsInLvl1 (t.smallerLvlRunsCount - numRunsInLvl1)).foldl
    (fun acc _ ↦ acc.createRun [] 0 0) cleared
  let withL0 := (db.filesAt 0).foldl (fun acc file ↦ acc.createRun [file] 0 0) padded
  let withL1 := withL0.createRun (db.filesAt 1) 0 1
  (db.levels.drop 2).foldl
    (fun acc level ↦ acc.createRun level.files (t.fluidLvl level.level) level.level) withL1

/-- The largest index of a level that holds a non-empty run, 0 if there is none. -/
def getLargestOccupiedLevel : ℕ :=
  t.lazyLevels.zipIdx.foldl (fun largest p ↦
    p.1.runs.foldl (fun largest run ↦ if 0 < run.files.length then p.2 else largest) largest) 0

end FluidLSM

/-- The view a freshly constructed tree builds. -/
def fluidView (cfg : Config) (db : ColumnFamilyMetaData) : FluidLSM :=
  (FluidLSM.new cfg).buildStructure db

/-- The runs of level 0: padding up to `K`, the files of store level 0, and store level 1. -/
def topRuns (cfg : Config) (db : ColumnFamilyMetaData) : List Run :=
  let numRunsInLvl1 := (db.filesAt 0).length + (!(db.filesAt 1).isEmpty).toNat
  (List.range' numRunsInLvl1 (cfg.smallerLvlRunsCount - numRunsInLvl1)).map
      (fun _ ↦ Run.ofFiles [] 0)
    ++ (db.filesAt 0).map (fun file ↦ Run.ofFiles [file] 0)
    ++ [Run.ofFiles (db.filesAt 1) 1]

/-- The runs `BuildStructure` creates, in the order it creates them, each with the level it goes
to. -/
def keyedRuns (cfg : Config) (db : ColumnFamilyMetaData) : List (ℕ × Run) :=
  (topRuns cfg db).map (fun run ↦ (0, run))
    ++ (db.levels.drop 2).map
      fun level ↦ (cfg.fluidLvl level.level, Run.ofFiles level.files level.level)

theorem exists_ofFiles_of_mem_keyedRuns {cfg : Config} {db : ColumnFamilyMetaData} {run : Run}
    (h : run ∈ (keyedRuns cfg db).map Prod.snd) : ∃ files lvl, run = Run.ofFiles files lvl := by
  rw [keyedRuns, topRuns] at h
  simp only [List.map_append, List.map_map, List.mem_append, List.mem_map, List.map_cons,
    List.map_nil, List.mem_singleton, Function.comp_apply] at h
  rcases h with ((⟨_, -, rfl⟩ | ⟨_, -, rfl⟩) | rfl) | ⟨_, -, rfl⟩ <;> exact ⟨_, _, rfl⟩

/-- The store levels that make up a fluid level below the top, shallowest first. -/
def slots (cfg : Config) (numLevels i : ℕ) : List ℕ :=
  (List.range' 2 (numLevels - 2)).filter (cfg.fluidLvl · = i)

namespace FluidLSM

variable (t : FluidLSM) (db : ColumnFamilyMetaData)

theorem foldl_createRun {α : Type*} (files : α → List SstFileMetaData) (lvl rocksDBLvl : α → ℕ)
    (xs : List α) :
    xs.foldl (fun acc x ↦ acc.createRun (files x) (lvl x) (rocksDBLvl x)) t
      = { t with
          lazyLevels := Bucket.distribute Prod.fst (fun p level ↦ level.addRun p.2)
            (xs.map fun x ↦ (lvl x, Run.ofFiles (files x) (rocksDBLvl x))) t.lazyLevels } := by
  induction xs generalizing t with
  | nil => rfl
  | cons x xs ih => rw [List.foldl_cons, ih]; rfl

/-- **The rebuild as one distribution.** The old content of the view has no influence. -/
theorem buildStructure_eq :
    t.buildStructure db
      = { t with
          lazyLevels := Bucket.distribute Prod.fst (fun p level ↦ level.addRun p.2)
            (keyedRuns t.toConfig db) (t.lazyLevels.map LazyLevel.clear) } := by
  rw [buildStructure, keyedRuns, topRuns]
  simp only [foldl_createRun]
  simp only [List.map_append, List.map_map, List.map_cons, List.map_nil, Bucket.distribute_append,
    Bucket.distribute_cons, Bucket.distribute_nil, createRun]
  rfl

@[simp] theorem toConfig_buildStructure : (t.buildStructure db).toConfig = t.toConfig := by
  rw [buildStructure_eq]

@[simp] theorem parallelCompactionsRunning_buildStructure :
    (t.buildStructure db).parallelCompactionsRunning = t.parallelCompactionsRunning := by
  rw [buildStructure_eq]

@[simp] theorem length_lazyLevels_buildStructure :
    (t.buildStructure db).lazyLevels.length = t.lazyLevels.length := by
  rw [buildStructure_eq, Bucket.length_distribute, List.length_map]

variable {t}

theorem lazyLevels_buildStructure {i : ℕ} (hi : i < t.lazyLevels.length) :
    (t.buildStructure db).lazyLevels[i]?
      = some ⟨((keyedRuns t.toConfig db).filter (·.1 = i)).map Prod.snd⟩ := by
  rw [buildStructure_eq, Bucket.getElem?_distribute, List.getElem?_map,
    List.getElem?_eq_getElem hi, Option.map_some, Option.map_some, LazyLevel.foldl_addRun]
  rfl

theorem runsAt_buildStructure {i : ℕ} (hi : i < t.lazyLevels.length) :
    (t.buildStructure db).runsAt i = ((keyedRuns t.toConfig db).filter (·.1 = i)).map Prod.snd := by
  rw [runsAt_of_getElem? (lazyLevels_buildStructure db hi)]

end FluidLSM

/-! ## What each level holds -/

section View

variable {cfg : Config} {db : ColumnFamilyMetaData}

theorem levels_drop_two (db : ColumnFamilyMetaData) :
    db.levels.drop 2 = (List.range' 2 (db.numLevels - 2)).map fun i ↦ ⟨i, db.filesAt i⟩ := by
  rw [db.levels_eq_map, ← List.map_drop, List.range_eq_range', List.drop_range']

theorem fluidLvl_pos_of_mem_range' {n level : ℕ} (h : level ∈ List.range' 2 n) :
    0 < cfg.fluidLvl level := by
  exact Config.fluidLvl_pos_iff.mpr (List.mem_range'_1.mp h).1

theorem keyedRuns_filter_zero (cfg : Config) (db : ColumnFamilyMetaData) :
    ((keyedRuns cfg db).filter (·.1 = 0)).map Prod.snd = topRuns cfg db := by
  have htop : ((topRuns cfg db).map fun run ↦ ((0 : ℕ), run)).filter (·.1 = 0)
      = (topRuns cfg db).map fun run ↦ (0, run) := List.filter_eq_self.mpr (by simp)
  have hdeep : ((db.levels.drop 2).map fun level ↦
      (cfg.fluidLvl level.level, Run.ofFiles level.files level.level)).filter (·.1 = 0) = [] := by
    rw [levels_drop_two, List.map_map, List.filter_eq_nil_iff]
    intro p hp
    obtain ⟨level, hlevel, rfl⟩ := List.mem_map.mp hp
    simpa using (fluidLvl_pos_of_mem_range' hlevel).ne'
  rw [keyedRuns, List.filter_append, htop, hdeep, List.append_nil, List.map_map]
  exact List.map_id _

/-- The runs of a level below the top are its store levels, shallowest first. -/
theorem keyedRuns_filter_pos {i : ℕ} (hi : 0 < i) :
    ((keyedRuns cfg db).filter (·.1 = i)).map Prod.snd
      = (slots cfg db.numLevels i).map fun level ↦ Run.ofFiles (db.filesAt level) level := by
  have htop : ((topRuns cfg db).map fun run ↦ ((0 : ℕ), run)).filter (·.1 = i) = [] := by
    rw [List.filter_eq_nil_iff]
    intro p hp
    obtain ⟨run, -, rfl⟩ := List.mem_map.mp hp
    simpa using hi.ne
  rw [keyedRuns, List.filter_append, htop, List.nil_append, levels_drop_two, List.map_map,
    List.filter_map, List.map_map, slots]
  rfl

/-- Keys only grow along the creation order. -/
theorem keyedRuns_sorted (cfg : Config) (db : ColumnFamilyMetaData) :
    (keyedRuns cfg db).Pairwise fun p q ↦ p.1 ≤ q.1 := by
  rw [keyedRuns, levels_drop_two, List.map_map, List.pairwise_append, List.pairwise_map,
    List.pairwise_map]
  refine ⟨List.pairwise_of_forall fun _ _ ↦ le_rfl,
    List.pairwise_le_range'.imp fun h ↦ cfg.fluidLvl_mono h, fun p hp q _ ↦ ?_⟩
  obtain ⟨run, -, rfl⟩ := List.mem_map.mp hp
  exact Nat.zero_le _

theorem keyedRuns_lt (h : 2 ≤ db.numLevels) {p : ℕ × Run} (hp : p ∈ keyedRuns cfg db) :
    p.1 < db.numLevels := by
  rw [keyedRuns, levels_drop_two, List.map_map] at hp
  rcases List.mem_append.mp hp with hp | hp
  · obtain ⟨run, -, rfl⟩ := List.mem_map.mp hp
    exact Nat.lt_of_lt_of_le Nat.zero_lt_two h
  · obtain ⟨level, hlevel, rfl⟩ := List.mem_map.mp hp
    have hlt : level < db.numLevels := by
      have := List.mem_range'_1.mp hlevel
      omega
    exact Config.fluidLvl_lt hlt h

theorem mem_slots {n i level : ℕ} (hi : 0 < i) :
    level ∈ slots cfg n i ↔ level < n ∧ cfg.fluidLvl level = i := by
  rw [slots, List.mem_filter, List.mem_range'_1, decide_eq_true_eq]
  constructor
  · rintro ⟨hlevel, rfl⟩
    exact ⟨by omega, rfl⟩
  · rintro ⟨hlt, rfl⟩
    have := Config.fluidLvl_pos_iff.mp hi
    exact ⟨by omega, rfl⟩

theorem nodup_slots (cfg : Config) (n i : ℕ) : (slots cfg n i).Nodup :=
  List.Nodup.filter _ List.nodup_range'

@[simp] theorem slots_zero (cfg : Config) (n : ℕ) : slots cfg n 0 = [] :=
  List.filter_eq_nil_iff.mpr fun level hlevel ↦ by
    simpa using (fluidLvl_pos_of_mem_range' hlevel).ne'

theorem range'_one_eq_cons {n : ℕ} (hn : 2 ≤ n) :
    List.range' 1 (n - 1) = 1 :: List.range' 2 (n - 2) := by
  obtain ⟨m, rfl⟩ : ∃ m, n = m + 2 := ⟨n - 2, by omega⟩
  rfl

/-- The store levels of a fluid level, without store level 0. -/
theorem filter_range'_one {n : ℕ} (hn : 2 ≤ n) (i : ℕ) :
    (List.range' 1 (n - 1)).filter (cfg.fluidLvl · = i)
      = (if i = 0 then [1] else []) ++ slots cfg n i := by
  have htop : cfg.fluidLvl 1 = 0 := Config.fluidLvl_eq_zero_iff.mpr le_rfl
  rw [range'_one_eq_cons hn, List.filter_cons, htop, slots]
  by_cases hi : i = 0
  · simp [hi]
  · simp [hi, eq_comm]

/-- The slots of a level are consecutive store levels, cut off at the end of the store. -/
theorem slots_eq_range' {n i : ℕ} (hi : 0 < i) :
    slots cfg n i
      = List.range' (cfg.rocksDBLvl i cfg.smallerLvlRunsCount)
          (min (cfg.smallerLvlRunsCount + 1)
            (n - cfg.rocksDBLvl i cfg.smallerLvlRunsCount)) := by
  have hlast := Config.rocksDBLvl_add cfg hi le_rfl
  refine (List.Pairwise.filter _ List.pairwise_lt_range').eq_of_mem_iff
    List.pairwise_lt_range' fun level ↦ ?_
  rw [← slots, mem_slots hi, List.mem_range'_1, Config.fluidLvl_eq_iff hi]
  constructor
  · rintro ⟨hlt, k, hk, rfl⟩
    have := Config.rocksDBLvl_add cfg hi hk
    omega
  · rintro ⟨hlow, hhigh⟩
    refine ⟨by omega, cfg.rocksDBLvl i 0 - level, by omega, ?_⟩
    have hk : cfg.rocksDBLvl i 0 - level ≤ cfg.smallerLvlRunsCount := by omega
    have := Config.rocksDBLvl_add cfg hi hk
    omega

/-- **Slot arithmetic.** Slot `j` of a level holds the store level `1 + i * (K + 1) - (K - j)`, if
the store has it. -/
theorem getElem?_slots {n i j level : ℕ} (hi : 0 < i) :
    (slots cfg n i)[j]? = some level
      ↔ j ≤ cfg.smallerLvlRunsCount ∧ level < n
        ∧ level = cfg.rocksDBLvl i (cfg.smallerLvlRunsCount - j) := by
  have hlast := Config.rocksDBLvl_add cfg hi le_rfl
  rw [slots_eq_range' hi]
  by_cases hj : j ≤ cfg.smallerLvlRunsCount
  · have hslot := Config.rocksDBLvl_add cfg hi (Nat.sub_le cfg.smallerLvlRunsCount j)
    by_cases hn : cfg.rocksDBLvl i cfg.smallerLvlRunsCount + j < n
    · rw [List.getElem?_range' (by omega), Option.some_inj]
      omega
    · rw [List.getElem?_eq_none (by rw [List.length_range']; omega)]
      simp only [reduceCtorEq, false_iff]
      omega
  · rw [List.getElem?_eq_none (by rw [List.length_range']; omega)]
    simp only [reduceCtorEq, false_iff]
    omega

end View

namespace FluidLSM

variable {t : FluidLSM} {db : ColumnFamilyMetaData}

theorem runsAt_buildStructure_zero (ht : 0 < t.lazyLevels.length) :
    (t.buildStructure db).runsAt 0 = topRuns t.toConfig db := by
  rw [runsAt_buildStructure db ht, keyedRuns_filter_zero]

theorem runsAt_buildStructure_pos {i : ℕ} (hi : 0 < i) (ht : i < t.lazyLevels.length) :
    (t.buildStructure db).runsAt i
      = (slots t.toConfig db.numLevels i).map
          fun level ↦ Run.ofFiles (db.filesAt level) level := by
  rw [runsAt_buildStructure db ht, keyedRuns_filter_pos hi]

/-- A level of the tree beyond the store has no slot. -/
theorem slots_eq_nil_of_le {cfg : Config} {i : ℕ} (hdb : 2 ≤ db.numLevels)
    (hi : db.numLevels ≤ i) : slots cfg db.numLevels i = [] := by
  refine List.eq_nil_iff_forall_not_mem.mpr fun level hlevel ↦ ?_
  obtain ⟨hlt, rfl⟩ := (mem_slots (by omega)).mp hlevel
  exact absurd (Config.fluidLvl_lt hlt hdb) (not_lt.mpr hi)

theorem runsAt_buildStructure_slots {i : ℕ} (hi : 0 < i) (hdb : 2 ≤ db.numLevels)
    (ht : t.lazyLevels.length = db.numLevels) :
    (t.buildStructure db).runsAt i
      = (slots t.toConfig db.numLevels i).map
          fun level ↦ Run.ofFiles (db.filesAt level) level := by
  by_cases hlt : i < t.lazyLevels.length
  · exact runsAt_buildStructure_pos hi hlt
  · rw [slots_eq_nil_of_le hdb (by omega), runsAt, List.getElem?_eq_none]
    · rfl
    · rw [length_lazyLevels_buildStructure]
      omega

/-- A level below the top has all its `K + 1` slots when the store has its last level. -/
theorem lt_length_runsAt_buildStructure_iff {i : ℕ} (hi : 0 < i) (hdb : 2 ≤ db.numLevels)
    (ht : t.lazyLevels.length = db.numLevels) :
    t.smallerLvlRunsCount < ((t.buildStructure db).runsAt i).length
      ↔ t.rocksDBLvl i 0 < db.numLevels := by
  have hlast := Config.rocksDBLvl_add t.toConfig hi le_rfl
  rw [runsAt_buildStructure_slots hi hdb ht, List.length_map, slots_eq_range' hi,
    List.length_range']
  omega

/-- **The runs of the view in the order of the store levels.** -/
theorem flatMap_runs_buildStructure (hdb : 2 ≤ db.numLevels)
    (ht : t.lazyLevels.length = db.numLevels) :
    (t.buildStructure db).lazyLevels.flatMap LazyLevel.runs
      = (keyedRuns t.toConfig db).map Prod.snd := by
  have hlevels : (t.buildStructure db).lazyLevels
      = (List.range db.numLevels).map fun i ↦
          ⟨((keyedRuns t.toConfig db).filter (·.1 = i)).map Prod.snd⟩ := by
    refine List.ext_getElem? fun i ↦ ?_
    by_cases hi : i < db.numLevels
    · rw [lazyLevels_buildStructure db (ht ▸ hi), List.getElem?_map, List.getElem?_range hi]
      rfl
    · rw [List.getElem?_eq_none (by rw [length_lazyLevels_buildStructure]; omega),
        List.getElem?_eq_none (by rw [List.length_map, List.length_range]; omega)]
  rw [hlevels, List.flatMap_map, ← List.map_flatMap,
    Bucket.flatMap_filter_key (keyedRuns_sorted _ _) fun _ hp ↦ keyedRuns_lt hdb hp]

/-- The rebuilt view depends on the configuration and the store only. -/
theorem buildStructure_eq_fluidView (ht : t.lazyLevels.length = t.options.numLevels) :
    t.buildStructure db
      = { fluidView t.toConfig db with
          parallelCompactionsRunning := t.parallelCompactionsRunning } := by
  have hclear : t.lazyLevels.map LazyLevel.clear
      = (List.replicate t.options.numLevels (⟨[]⟩ : LazyLevel)).map LazyLevel.clear := by
    rw [← ht, List.map_replicate]
    exact List.map_const'
  rw [buildStructure_eq, fluidView, buildStructure_eq, hclear]
  rfl

/-- The non-empty runs of the view, level after level, are the sorted runs of the store. -/
theorem filter_runs_buildStructure (hdb : 2 ≤ db.numLevels)
    (ht : t.lazyLevels.length = db.numLevels) :
    (((t.buildStructure db).lazyLevels.flatMap LazyLevel.runs).map Run.files).filter
        (fun files ↦ !files.isEmpty) = db.sortedRuns := by
  have hpad : ∀ l : List ℕ, (l.map fun _ ↦ ([] : List SstFileMetaData)).filter
      (fun files ↦ !files.isEmpty) = [] := by simp
  rw [flatMap_runs_buildStructure hdb ht, keyedRuns, levels_drop_two,
    ColumnFamilyMetaData.sortedRuns, range'_one_eq_cons hdb, topRuns]
  simp only [List.map_append, List.map_map, List.map_cons, List.map_nil, Function.comp_def,
    Run.files_ofFiles, List.filter_append, hpad, List.nil_append, List.append_assoc,
    List.cons_append]

end FluidLSM

/-! ## The largest occupied level -/

namespace FluidLSM

variable (t : FluidLSM)

/-- Some run of the level holds a file. -/
def Occupied (i : ℕ) : Prop := ∃ run ∈ t.runsAt i, run.files ≠ []

private theorem foldl_largest (runs : List Run) (lvl largest : ℕ) :
    runs.foldl (fun largest run ↦ if 0 < run.files.length then lvl else largest) largest
      = if ∃ run ∈ runs, run.files ≠ [] then lvl else largest := by
  induction runs generalizing largest with
  | nil => simp
  | cons run runs ih =>
    rw [List.foldl_cons, ih]
    by_cases hrun : run.files = [] <;> simp [hrun, List.length_pos_iff]

/-- The loop over a prefix of the levels keeps the last occupied one. -/
private theorem foldl_zipIdx_largest (levels : List LazyLevel) :
    let largest := levels.zipIdx.foldl (fun largest p ↦
      p.1.runs.foldl (fun largest run ↦ if 0 < run.files.length then p.2 else largest) largest) 0
    (∀ i level, levels[i]? = some level → (∃ run ∈ level.runs, run.files ≠ []) → i ≤ largest)
      ∧ (largest = 0 ∨ ∃ level, levels[largest]? = some level
          ∧ ∃ run ∈ level.runs, run.files ≠ []) := by
  induction levels using List.reverseRecOn with
  | nil => simp
  | append_singleton levels level ih =>
    -- The last level wins if it is occupied, and changes nothing otherwise.
    obtain ⟨ihmax, ihocc⟩ := ih
    simp only [List.zipIdx_append, List.foldl_append, List.zipIdx_cons, List.zipIdx_nil,
      List.foldl_cons, List.foldl_nil, foldl_largest, Nat.zero_add] at ihmax ihocc ⊢
    split_ifs with hocc
    · refine ⟨fun i _ hi _ ↦ ?_, Or.inr ⟨level, List.getElem?_concat_length, hocc⟩⟩
      have := (List.getElem?_eq_some_iff.mp hi).1
      rw [List.length_append, List.length_singleton] at this
      omega
    · refine ⟨fun i level' hi hlevel' ↦ ?_, ihocc.imp id ?_⟩
      · rw [List.getElem?_append] at hi
        split_ifs at hi with hlt
        · exact ihmax i level' hi hlevel'
        · rw [List.getElem?_singleton] at hi
          split_ifs at hi
          obtain rfl := Option.some.inj hi
          exact absurd hlevel' hocc
      · rintro ⟨level', hlevel', hocc'⟩
        rw [List.getElem?_append_left (List.getElem?_eq_some_iff.mp hlevel').1]
        exact ⟨level', hlevel', hocc'⟩

variable {t}

theorem Occupied.le_getLargestOccupiedLevel {i : ℕ} (h : t.Occupied i) :
    i ≤ t.getLargestOccupiedLevel := by
  obtain ⟨run, hrun, hne⟩ := h
  have hlt := lt_length_of_mem_runsAt hrun
  rw [runsAt_of_getElem? (List.getElem?_eq_getElem hlt)] at hrun
  exact (foldl_zipIdx_largest t.lazyLevels).1 i _ (List.getElem?_eq_getElem hlt) ⟨run, hrun, hne⟩

theorem occupied_getLargestOccupiedLevel (h : t.getLargestOccupiedLevel ≠ 0) :
    t.Occupied t.getLargestOccupiedLevel := by
  rcases (foldl_zipIdx_largest t.lazyLevels).2 with hzero | ⟨level, hlevel, run, hrun, hne⟩
  · exact absurd hzero h
  · refine ⟨run, ?_, hne⟩
    rw [getLargestOccupiedLevel, runsAt_of_getElem? hlevel]
    exact hrun

end FluidLSM

/-! ## The view is faithful -/

/-- What a view must satisfy to be a re-indexing of the store. -/
structure FaithfulView (t : FluidLSM) (db : ColumnFamilyMetaData) : Prop where
  /-- No file is lost and none is duplicated. -/
  files_eq : (↑((t.lazyLevels.flatMap LazyLevel.runs).flatMap Run.files) : Multiset SstFileMetaData)
    = ↑db.allFiles
  /-- A run knows the names of its files. -/
  fileNames_eq : ∀ level ∈ t.lazyLevels, ∀ run ∈ level.runs,
    run.fileNames = (run.files.map SstFileMetaData.name).toFinset
  /-- A non-empty run is one file of store level 0 or a whole deeper store level. -/
  whole : ∀ level ∈ t.lazyLevels, ∀ run ∈ level.runs, run.files ≠ [] →
    (∃ file ∈ db.filesAt 0, run.files = [file])
      ∨ ∃ i, 1 ≤ i ∧ i < db.numLevels ∧ run.files = db.filesAt i
  /-- The non-empty runs, level after level, come in the order of the store. -/
  order : ((t.lazyLevels.flatMap LazyLevel.runs).map Run.files).filter
    (fun files ↦ !files.isEmpty) = db.sortedRuns
  /-- Decoding: slot `j` of a level below the top carries the store level that
  `ScheduleCompaction` computes for it. -/
  decode : ∀ i j run, 1 ≤ i → (t.runsAt i)[j]? = some run → j ≤ t.smallerLvlRunsCount
    ∧ run.rocksDBLevel = t.rocksDBLvl i (t.smallerLvlRunsCount - j)
  /-- Encoding: every store level from 2 on sits in exactly one slot of the tree. -/
  encode : ∀ level, 2 ≤ level → level < db.numLevels →
    ∃! p : ℕ × ℕ, 1 ≤ p.1 ∧ (t.runsAt p.1)[p.2]? = some (Run.ofFiles (db.filesAt level) level)
      ∧ p.1 = t.fluidLvl level ∧ level = t.rocksDBLvl p.1 (t.smallerLvlRunsCount - p.2)

/-- The slot of a store level below the top. -/
theorem FluidLSM.getElem?_runsAt_buildStructure_iff {t : FluidLSM} {db : ColumnFamilyMetaData}
    {level j : ℕ} (hlt : level < db.numLevels) (hpos : 0 < t.fluidLvl level)
    (hidx : t.fluidLvl level < t.lazyLevels.length) :
    ((t.buildStructure db).runsAt (t.fluidLvl level))[j]?
        = some (Run.ofFiles (db.filesAt level) level)
      ↔ j ≤ t.smallerLvlRunsCount
        ∧ level = t.rocksDBLvl (t.fluidLvl level) (t.smallerLvlRunsCount - j) := by
  rw [FluidLSM.runsAt_buildStructure_pos hpos hidx, List.getElem?_map, Option.map_eq_some_iff]
  constructor
  · rintro ⟨level', hlevel', heq⟩
    obtain rfl : level' = level := by
      rw [← Run.rocksDBLevel_ofFiles (db.filesAt level') level', heq, Run.rocksDBLevel_ofFiles]
    obtain ⟨hj, -, hlevel⟩ := (getElem?_slots hpos).mp hlevel'
    exact ⟨hj, hlevel⟩
  · rintro ⟨hj, hlevel⟩
    exact ⟨level, (getElem?_slots hpos).mpr ⟨hj, hlt, hlevel⟩, rfl⟩

/-- **`BuildStructure` yields a faithful view**, whatever the view held before. -/
theorem buildStructure_faithful (t : FluidLSM) (db : ColumnFamilyMetaData)
    (hdb : 2 ≤ db.numLevels) (ht : t.lazyLevels.length = db.numLevels) :
    FaithfulView (t.buildStructure db) db where
  files_eq := by
    rw [← db.flatten_sortedRuns (by omega), ← FluidLSM.filter_runs_buildStructure hdb ht,
      List.flatten_filter_not_isEmpty, List.flatMap_def]
  fileNames_eq := by
    intro level hlevel run hrun
    have hmem : run ∈ (t.buildStructure db).lazyLevels.flatMap LazyLevel.runs :=
      List.mem_flatMap.mpr ⟨level, hlevel, hrun⟩
    rw [FluidLSM.flatMap_runs_buildStructure hdb ht] at hmem
    obtain ⟨files, lvl, rfl⟩ := exists_ofFiles_of_mem_keyedRuns hmem
    rw [Run.ofFiles_eq]
  whole := by
    intro level hlevel run hrun hne
    have hmem : run.files ∈ db.sortedRuns := by
      rw [← FluidLSM.filter_runs_buildStructure hdb ht, List.mem_filter]
      refine ⟨List.mem_map_of_mem (List.mem_flatMap.mpr ⟨level, hlevel, hrun⟩), ?_⟩
      simpa using hne
    rw [ColumnFamilyMetaData.sortedRuns, List.mem_filter, List.mem_append, List.mem_map,
      List.mem_map] at hmem
    rcases hmem.1 with ⟨file, hfile, hrun⟩ | ⟨i, hi, hrun⟩
    · exact Or.inl ⟨file, hfile, hrun.symm⟩
    · have := List.mem_range'_1.mp hi
      exact Or.inr ⟨i, by omega, by omega, hrun.symm⟩
  order := FluidLSM.filter_runs_buildStructure hdb ht
  decode := by
    intro i j run hi hrun
    have hlt := FluidLSM.lt_length_of_mem_runsAt (List.mem_of_getElem? hrun)
    rw [FluidLSM.length_lazyLevels_buildStructure] at hlt
    rw [FluidLSM.runsAt_buildStructure_pos hi hlt, List.getElem?_map] at hrun
    obtain ⟨level, hlevel, rfl⟩ := Option.map_eq_some_iff.mp hrun
    obtain ⟨hj, -, rfl⟩ := (getElem?_slots hi).mp hlevel
    rw [FluidLSM.toConfig_buildStructure, Run.rocksDBLevel_ofFiles]
    exact ⟨hj, rfl⟩
  encode := by
    intro level hlow hlt
    rw [FluidLSM.toConfig_buildStructure]
    have hpos : 0 < t.fluidLvl level := Config.fluidLvl_pos_iff.mpr hlow
    have hidx : t.fluidLvl level < t.lazyLevels.length := ht ▸ Config.fluidLvl_lt hlt hdb
    have hslot (j : ℕ) := FluidLSM.getElem?_runsAt_buildStructure_iff (j := j) hlt hpos hidx
    -- The adjunction gives the slot; the decoding leaves no other.
    obtain ⟨k, hk, hlevel⟩ := (Config.fluidLvl_eq_iff hpos).mp (rfl : t.fluidLvl level = _)
    have hj : t.smallerLvlRunsCount - (t.smallerLvlRunsCount - k) = k := Nat.sub_sub_self hk
    refine ⟨(t.fluidLvl level, t.smallerLvlRunsCount - k), ?_, ?_⟩
    · exact ⟨hpos, (hslot _).mpr ⟨Nat.sub_le _ _, hj.symm ▸ hlevel⟩, rfl, hj.symm ▸ hlevel⟩
    · rintro ⟨i, j⟩ ⟨-, hrun, rfl, hij⟩
      have hjle := ((hslot j).mp hrun).1
      have hadd := Config.rocksDBLvl_add t.toConfig hpos hk
      have hadd' := Config.rocksDBLvl_add t.toConfig hpos
        (Nat.sub_le t.smallerLvlRunsCount j)
      rw [Prod.mk.injEq]
      dsimp only at hij
      omega

/-- A view with every kind of run: padding, a file of level 0, and an occupied slot. -/
theorem buildStructure_faithful_small :
    FaithfulView
      ((FluidLSM.new (.small 1 1 4)).buildStructure (.ofFiles [[.flushed "a" 1 0], [], [],
        [.flushed "b" 1 1]]))
      (.ofFiles [[.flushed "a" 1 0], [], [], [.flushed "b" 1 1]]) :=
  buildStructure_faithful _ _ (by decide) (by decide)

end WorkloadAwareCompaction
