import Mathlib.Data.Finset.Lattice.Lemmas
import Mathlib.Data.Finset.Dedup
import WorkloadAwareCompaction.Library.Binary64
import WorkloadAwareCompaction.Library.MachineInt

/-!
# The data of a Fluid LSM-tree

The store underneath keeps files on numbered levels and describes them in a
`ColumnFamilyMetaData`: level 0 lists its files newest first, and every deeper level is one sorted
run. The Fluid LSM-tree is a second view of the same files. It folds `K + 1` consecutive levels of
the store into one *lazy level* whose runs are those levels, and it treats levels 0 and 1 of the
store together as its own level 0.

The store's guarantee that `levels[i].level = i` is carried by the metadata itself, so every edit of
the metadata goes through `mapFiles`, which cannot break it.

## Numbers

Sizes of files, level numbers and run counts are natural numbers; the source holds them in integers
that it never subtracts below zero. The counter `parallel_compactions_running_` is decremented, so it
is an integer. The total size of the inputs of a compaction is accumulated in a `long`, and wraps.

The capacity of a level is computed in `double` and converted to a `long`. These operations are a
parameter (`DoubleArith`), and so is what the conversion yields out of range, where the language says
nothing; results that do not mention exactness hold for every choice. `binary64` is the arithmetic of
an x86-64 machine, `exactOps` rounds nothing, and `exact` converts every number besides.
-/

namespace WorkloadAwareCompaction

open MachineInt

/-! ## Files and levels of the store -/

/-- The outcomes of a store call that the source tells apart. -/
inductive Status
  | ok
  | notFound
  | ioError
  | other
  deriving DecidableEq

/-- `rocksdb::SstFileMetaData`, as far as the tree reads it. -/
structure SstFileMetaData where
  name : String
  /-- Size in bytes. -/
  size : ℕ
  /-- The file is an input of a running compaction. -/
  beingCompacted : Bool
  /-- Specification only, read by no function of the source: the numbers of the flushes whose
  entries the file may hold. A flush writes a file with its own number; a compaction output holds
  entries of its inputs only. -/
  flushes : Finset ℕ
  deriving DecidableEq

/-- A file written by flush number `n`, for checks on concrete inputs. -/
def SstFileMetaData.flushed (name : String) (size n : ℕ) : SstFileMetaData :=
  ⟨name, size, false, {n}⟩

/-- `rocksdb::LevelMetaData`. -/
structure LevelMetaData where
  level : ℕ
  files : List SstFileMetaData
  deriving DecidableEq

/-- `rocksdb::ColumnFamilyMetaData`: the levels of the store, each carrying its own number. -/
structure ColumnFamilyMetaData where
  levels : List LevelMetaData
  /-- The store numbers its levels by their position. -/
  level_eq : levels.map LevelMetaData.level = List.range levels.length
  deriving DecidableEq

namespace ColumnFamilyMetaData

variable (db : ColumnFamilyMetaData)

/-- `cf_meta.levels.size()`. -/
def numLevels : ℕ := db.levels.length

/-- `cf_meta.levels[i].files`. -/
def filesAt (i : ℕ) : List SstFileMetaData :=
  match db.levels[i]? with
  | some level => level.files
  | none => []

/-- Edit the file list of every level. -/
def mapFiles (g : ℕ → List SstFileMetaData → List SstFileMetaData) : ColumnFamilyMetaData where
  levels := db.levels.map fun level ↦ { level with files := g level.level level.files }
  level_eq := by
    rw [List.map_map, List.length_map, ← db.level_eq]
    rfl

/-- Metadata with the given file lists, level 0 first. -/
def ofFiles (files : List (List SstFileMetaData)) : ColumnFamilyMetaData where
  levels := files.zipIdx.map fun p ↦ ⟨p.2, p.1⟩
  level_eq := by
    rw [List.map_map, List.length_map, List.length_zipIdx, List.range_eq_range',
      ← List.zipIdx_map_snd 0 files]
    rfl

/-- A store with `n` levels and no file. -/
def empty (n : ℕ) : ColumnFamilyMetaData := ofFiles (List.replicate n [])

/-- The sorted runs of the store, newest first: every file of level 0 is one, and so is every
non-empty deeper level. -/
def sortedRuns : List (List SstFileMetaData) :=
  ((db.filesAt 0).map (fun file ↦ [file])
    ++ (List.range' 1 (db.numLevels - 1)).map db.filesAt).filter fun files ↦ !files.isEmpty

/-- The files of all levels, level after level. -/
def allFiles : List SstFileMetaData := db.levels.flatMap LevelMetaData.files

/-- The names of all files. -/
def fileNames : List String := db.allFiles.map SstFileMetaData.name

variable {db}

theorem level_of_getElem? {i : ℕ} {level : LevelMetaData} (h : db.levels[i]? = some level) :
    level.level = i := by
  have hi : i < db.levels.length := (List.getElem?_eq_some_iff.mp h).1
  have hmap : (db.levels.map LevelMetaData.level)[i]? = some level.level := by
    rw [List.getElem?_map, h]
    rfl
  rw [db.level_eq, List.getElem?_range hi] at hmap
  exact (Option.some.inj hmap).symm

theorem filesAt_of_getElem? {i : ℕ} {level : LevelMetaData} (h : db.levels[i]? = some level) :
    db.filesAt i = level.files := by
  rw [filesAt, h]

theorem filesAt_of_le {i : ℕ} (h : db.numLevels ≤ i) : db.filesAt i = [] := by
  rw [filesAt, List.getElem?_eq_none h]

theorem lt_numLevels_of_mem {i : ℕ} {file : SstFileMetaData} (h : file ∈ db.filesAt i) :
    i < db.numLevels := by
  by_contra hle
  rw [filesAt_of_le (Nat.le_of_not_lt hle)] at h
  exact List.not_mem_nil h

/-- The metadata is determined by the file lists: level `i` is `⟨i, db.filesAt i⟩`. -/
theorem levels_eq_map (db : ColumnFamilyMetaData) :
    db.levels = (List.range db.numLevels).map fun i ↦ ⟨i, db.filesAt i⟩ := by
  refine List.ext_getElem? fun i ↦ ?_
  rw [List.getElem?_map]
  cases h : db.levels[i]? with
  | none =>
    rw [List.getElem?_eq_none_iff] at h
    rw [List.getElem?_eq_none (by rw [List.length_range]; exact h), Option.map_none]
  | some level =>
    have hi : i < db.numLevels := (List.getElem?_eq_some_iff.mp h).1
    rw [List.getElem?_range hi, Option.map_some, filesAt_of_getElem? h]
    have := level_of_getElem? h
    cases level
    simp_all

@[simp] theorem numLevels_mapFiles (g : ℕ → List SstFileMetaData → List SstFileMetaData) :
    (db.mapFiles g).numLevels = db.numLevels := List.length_map _

theorem filesAt_mapFiles (g : ℕ → List SstFileMetaData → List SstFileMetaData) {i : ℕ}
    (hi : i < db.numLevels) : (db.mapFiles g).filesAt i = g i (db.filesAt i) := by
  obtain ⟨level, hlevel⟩ : ∃ level, db.levels[i]? = some level :=
    ⟨_, List.getElem?_eq_getElem hi⟩
  rw [filesAt_of_getElem? hlevel, filesAt, mapFiles, List.getElem?_map, hlevel, Option.map_some,
    level_of_getElem? hlevel]

/-- An edit that leaves an empty list empty takes effect on every level. -/
theorem filesAt_mapFiles_of_nil {g : ℕ → List SstFileMetaData → List SstFileMetaData} {i : ℕ}
    (hg : g i [] = []) : (db.mapFiles g).filesAt i = g i (db.filesAt i) := by
  by_cases hi : i < db.numLevels
  · exact filesAt_mapFiles g hi
  · rw [filesAt_of_le (by rw [numLevels_mapFiles]; omega), filesAt_of_le (by omega), hg]

@[simp] theorem numLevels_ofFiles (files : List (List SstFileMetaData)) :
    (ofFiles files).numLevels = files.length := by
  rw [numLevels, ofFiles, List.length_map, List.length_zipIdx]

@[simp] theorem filesAt_ofFiles (files : List (List SstFileMetaData)) (i : ℕ) :
    (ofFiles files).filesAt i = files[i]?.getD [] := by
  rw [filesAt, ofFiles, List.getElem?_map, List.getElem?_zipIdx]
  cases files[i]? <;> rfl

@[simp] theorem numLevels_empty (n : ℕ) : (empty n).numLevels = n := by
  rw [empty, numLevels_ofFiles, List.length_replicate]

@[simp] theorem filesAt_empty (n i : ℕ) : (empty n).filesAt i = [] := by
  rw [empty, filesAt_ofFiles, List.getElem?_replicate]
  split_ifs <;> rfl

theorem mem_allFiles {file : SstFileMetaData} :
    file ∈ db.allFiles ↔ ∃ i, file ∈ db.filesAt i := by
  rw [allFiles, levels_eq_map db, List.flatMap_map]
  constructor
  · intro h
    obtain ⟨i, -, hi⟩ := List.mem_flatMap.mp h
    exact ⟨i, hi⟩
  · rintro ⟨i, hi⟩
    exact List.mem_flatMap.mpr ⟨i, List.mem_range.mpr (lt_numLevels_of_mem hi), hi⟩

theorem flatten_sortedRuns (h : 0 < db.numLevels) :
    db.sortedRuns.flatten = db.allFiles := by
  have hrange : List.range db.numLevels = 0 :: List.range' 1 (db.numLevels - 1) := by
    obtain ⟨n, hn⟩ : ∃ n, db.numLevels = n + 1 := ⟨db.numLevels - 1, by omega⟩
    rw [hn, List.range_eq_range', List.range'_succ, Nat.add_sub_cancel]
  rw [sortedRuns, List.flatten_filter_not_isEmpty, List.flatten_append, ← List.flatMap_def,
    ← List.flatMap_def, List.flatMap_singleton', allFiles, levels_eq_map db, List.flatMap_map,
    hrange, List.flatMap_cons]

theorem mem_fileNames {name : String} :
    name ∈ db.fileNames ↔ ∃ i, ∃ file ∈ db.filesAt i, file.name = name := by
  rw [fileNames, List.mem_map]
  constructor
  · rintro ⟨file, hfile, hname⟩
    obtain ⟨i, hi⟩ := mem_allFiles.mp hfile
    exact ⟨i, file, hi, hname⟩
  · rintro ⟨i, file, hi, hname⟩
    exact ⟨file, mem_allFiles.mpr ⟨i, hi⟩, hname⟩

end ColumnFamilyMetaData

/-! ## Runs and lazy levels -/

/-- One tier of a lazy level; it can hold several files. -/
structure Run where
  files : List SstFileMetaData
  /-- `file_names_`, a `std::set`. -/
  fileNames : Finset String
  /-- The level of the store the run was read from. -/
  rocksDBLevel : ℕ
  deriving DecidableEq

namespace Run

/-- The constructor `Run(int RocksDB_level)`. -/
def new (rocksDBLevel : ℕ) : Run := ⟨[], ∅, rocksDBLevel⟩

def addFile (run : Run) (file : SstFileMetaData) : Run :=
  { run with files := run.files ++ [file], fileNames := insert file.name run.fileNames }

/-- The run is not empty and none of its files is being compacted. -/
def isLive (run : Run) : Bool :=
  !run.files.any SstFileMetaData.beingCompacted && !run.files.isEmpty

theorem foldl_addFile (files : List SstFileMetaData) (run : Run) :
    files.foldl addFile run
      = ⟨run.files ++ files, (files.map SstFileMetaData.name).toFinset ∪ run.fileNames,
          run.rocksDBLevel⟩ := by
  induction files generalizing run with
  | nil => simp
  | cons file files ih =>
    rw [List.foldl_cons, ih]
    simp [addFile, Finset.union_insert]

/-- The run that `CreateRun` builds from a file list. -/
def ofFiles (files : List SstFileMetaData) (rocksDBLevel : ℕ) : Run :=
  files.foldl addFile (new rocksDBLevel)

theorem ofFiles_eq (files : List SstFileMetaData) (rocksDBLevel : ℕ) :
    ofFiles files rocksDBLevel
      = ⟨files, (files.map SstFileMetaData.name).toFinset, rocksDBLevel⟩ := by
  rw [ofFiles, foldl_addFile, new, List.nil_append, Finset.union_empty]

@[simp] theorem files_ofFiles (files : List SstFileMetaData) (rocksDBLevel : ℕ) :
    (ofFiles files rocksDBLevel).files = files := by rw [ofFiles_eq]

@[simp] theorem rocksDBLevel_ofFiles (files : List SstFileMetaData) (rocksDBLevel : ℕ) :
    (ofFiles files rocksDBLevel).rocksDBLevel = rocksDBLevel := by rw [ofFiles_eq]

theorem isLive_of_forall {run : Run} (h : ∀ file ∈ run.files, file.beingCompacted = false) :
    run.isLive = !run.files.isEmpty := by
  rw [isLive, List.any_eq_false.mpr (by simpa using h), Bool.not_false, Bool.true_and]

theorem isLive_iff {run : Run} :
    run.isLive = true ↔ run.files ≠ [] ∧ ∀ file ∈ run.files, file.beingCompacted = false := by
  rw [isLive, Bool.and_eq_true, Bool.not_eq_true', Bool.not_eq_true', List.isEmpty_eq_false_iff,
    List.any_eq_false, and_comm]
  simp only [Bool.not_eq_true]

end Run

/-- One level of the tree: several runs, oldest last. -/
structure LazyLevel where
  runs : List Run
  deriving DecidableEq

namespace LazyLevel

def addRun (level : LazyLevel) (run : Run) : LazyLevel := ⟨level.runs ++ [run]⟩

theorem foldl_addRun {α : Type*} (f : α → Run) (xs : List α) (level : LazyLevel) :
    xs.foldl (fun level x ↦ level.addRun (f x)) level = ⟨level.runs ++ xs.map f⟩ := by
  induction xs generalizing level with
  | nil => simp
  | cons x xs ih => rw [List.foldl_cons, ih, addRun, List.append_assoc, List.map_cons]; rfl

def clear (_ : LazyLevel) : LazyLevel := ⟨[]⟩

/-- The number of non-empty runs none of whose files is being compacted. -/
def numLiveRuns (level : LazyLevel) : ℕ :=
  level.runs.foldl (fun numLiveRuns run ↦
    let beingCompacted := run.files.foldl (fun b file ↦ b || file.beingCompacted) false
    numLiveRuns + (!beingCompacted && !run.files.isEmpty).toNat) 0

theorem numLiveRuns_eq_countP (level : LazyLevel) :
    level.numLiveRuns = level.runs.countP Run.isLive := by
  have hany : ∀ (files : List SstFileMetaData) (b : Bool),
      files.foldl (fun b file ↦ b || file.beingCompacted) b
        = (b || files.any SstFileMetaData.beingCompacted) := by
    intro files
    induction files with
    | nil => simp
    | cons file files ih => intro b; rw [List.foldl_cons, ih, List.any_cons, Bool.or_assoc]
  have hcount : ∀ (runs : List Run) (n : ℕ),
      runs.foldl (fun numLiveRuns run ↦
        let beingCompacted := run.files.foldl (fun b file ↦ b || file.beingCompacted) false
        numLiveRuns + (!beingCompacted && !run.files.isEmpty).toNat) n
        = n + runs.countP Run.isLive := by
    intro runs
    induction runs with
    | nil => simp
    | cons run runs ih =>
      intro n
      rw [List.foldl_cons, ih, List.countP_cons, hany, Bool.false_or]
      change n + run.isLive.toNat + runs.countP Run.isLive = _
      cases run.isLive
      · simp
      · simp
        omega
  rw [numLiveRuns, hcount, Nat.zero_add]

end LazyLevel

/-! ## The tree object -/

/-- `rocksdb::CompressionType`, as `configOptions` names its values. -/
inductive CompressionType
  | noCompression
  | snappyCompression
  | zlibCompression
  | bZip2Compression
  | lz4Compression
  | lz4HCCompression
  | xpressCompression
  | zstd
  | disableCompressionOption
  deriving DecidableEq

/-- `rocksdb::Options`, as far as the tree reads it. -/
structure Options where
  numLevels : ℕ
  writeBufferSize : ℕ
  targetFileSizeBase : ℕ
  compression : CompressionType
  deriving DecidableEq

/-- `rocksdb::CompactionOptions`, as far as the tree sets it. -/
structure CompactionOptions where
  compression : CompressionType
  outputFileSizeLimit : ℕ
  deriving DecidableEq

/-- The members of `FluidLSM` that its constructor sets and no method changes. -/
structure Config where
  /-- `T`. -/
  sizeRatio : ℕ
  /-- `K`. -/
  smallerLvlRunsCount : ℕ
  /-- `Z`. -/
  largerLvlRunsCount : ℕ
  fileSize : ℕ
  options : Options
  deriving DecidableEq

/-- A small configuration for checks on concrete inputs: `T = 2` and a write buffer of one byte. -/
def Config.small (K Z numLevels : ℕ) : Config where
  sizeRatio := 2
  smallerLvlRunsCount := K
  largerLvlRunsCount := Z
  fileSize := 1
  options := ⟨numLevels, 1, 1, .noCompression⟩

/-- `compact_options_`, filled by the constructor. -/
def Config.compactOptions (cfg : Config) : CompactionOptions where
  compression := cfg.options.compression
  outputFileSizeLimit := cfg.options.targetFileSizeBase

/-- `parallel_compactions_allowed_`, which the constructor sets to 1. -/
def parallelCompactionsAllowed : ℤ := 1

/-- The tree object: its configuration, the cached view of the store, and the number of compactions
under way. -/
structure FluidLSM extends Config where
  lazyLevels : List LazyLevel
  parallelCompactionsRunning : ℤ
  deriving DecidableEq

/-- The constructor. -/
def FluidLSM.new (cfg : Config) : FluidLSM where
  toConfig := cfg
  lazyLevels := List.replicate cfg.options.numLevels ⟨[]⟩
  parallelCompactionsRunning := 0

@[simp] theorem FluidLSM.length_lazyLevels_new (cfg : Config) :
    (FluidLSM.new cfg).lazyLevels.length = cfg.options.numLevels := List.length_replicate

/-- `lazy_levels_[i].runs`. -/
def FluidLSM.runsAt (t : FluidLSM) (i : ℕ) : List Run :=
  match t.lazyLevels[i]? with
  | some level => level.runs
  | none => []

theorem FluidLSM.runsAt_of_getElem? {t : FluidLSM} {i : ℕ} {level : LazyLevel}
    (h : t.lazyLevels[i]? = some level) : t.runsAt i = level.runs := by
  rw [runsAt, h]

theorem FluidLSM.lt_length_of_mem_runsAt {t : FluidLSM} {i : ℕ} {run : Run}
    (h : run ∈ t.runsAt i) : i < t.lazyLevels.length := by
  by_contra hle
  rw [runsAt, List.getElem?_eq_none (Nat.le_of_not_lt hle)] at h
  exact List.not_mem_nil h

/-- Arguments of a scheduled `CompactFiles` call. -/
structure CompactionTask where
  inputFileNames : List String
  outputLvl : ℕ
  compactOptions : CompactionOptions
  /-- Specification only: the `origin_lvl` and `target_lvl` that `ScheduleCompaction` was called
  with. -/
  originLvl : ℕ
  targetLvl : ℕ
  deriving DecidableEq

/-! ## Double arithmetic -/

/-- The `double` operations behind the capacity of a level: the rounding applied to the exact result
of an operation, and `pow`. -/
structure DoubleArith where
  round : ℚ → ℚ
  pow : ℚ → ℕ → ℚ
  /-- What the conversion to a `long` yields where it is undefined. -/
  overflow : ℚ → ℤ

namespace DoubleArith

variable (fp : DoubleArith)

/-- The conversion to a `long`. -/
def toLong (x : ℚ) : ℤ :=
  let n := x.num.tdiv x.den
  if IntType.long.InRange n then n else fp.overflow x

/-- Nothing is rounded. -/
def exactOps (overflow : ℚ → ℤ) : DoubleArith := ⟨id, fun x n ↦ x ^ n, overflow⟩

/-- Nothing is rounded, and a `long` has every integer. -/
def exact : DoubleArith := exactOps fun x ↦ x.num.tdiv x.den

/-- Binary64 with a `pow` that is rounded once. The conversion yields the least `long` where it is
undefined. -/
def binary64 : DoubleArith :=
  ⟨Binary64.round, fun x n ↦ Binary64.round (x ^ n), fun _ ↦ IntType.long.least⟩

theorem toLong_natCast {n : ℕ} (h : IntType.long.InRange n) : fp.toLong n = n := by
  rw [toLong, Rat.num_natCast, Rat.den_natCast, Nat.cast_one, Int.tdiv_one, if_pos h]

theorem toLong_exact_natCast (n : ℕ) : exact.toLong n = n := by
  simp [toLong, exact, exactOps]

end DoubleArith

end WorkloadAwareCompaction
