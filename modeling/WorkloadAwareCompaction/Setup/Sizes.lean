import WorkloadAwareCompaction.Setup.Arguments
import WorkloadAwareCompaction.Setup.Options

/-!
# The sizes of the store

Six options are sizes in bytes, products of two or three numbers of the command line. The
destinations have 64 bits, the products are formed in 32: the buffer size and the block size in
`unsigned int`, where they wrap around, and the capacity of the block cache in `int`, where an
overflow is undefined.
-/

namespace WorkloadAwareCompaction

open MachineInt

/-! ## From the flags to the fields -/

theorem val_assignInt_of_inRange {t t' : IntType} {flag : Option (CInt t)} {v : CInt t}
    (hflag : flag = some v) (h : t'.InRange v.val) (previous : CInt t') :
    (assignInt flag t' previous).val = v.val := by
  rw [hflag]
  exact CInt.val_convert_eq_iff.mpr h

/-- An `int` that is not negative is unchanged as an `unsigned int`. -/
theorem val_assignInt_unsignedInt {flag : Option (CInt .int)} {v : CInt .int}
    (hflag : flag = some v) (h : 0 ≤ v.val) (previous : CInt .unsignedInt) :
    (assignInt flag .unsignedInt previous).val = v.val :=
  val_assignInt_of_inRange hflag ((CInt.inRange_iff_nonneg rfl (by decide)).mpr h) previous

theorem wrap_unsignedInt_eq_iff {n : ℤ} (h : 0 ≤ n) :
    IntType.unsignedInt.wrap n = n ↔ n < 2 ^ 32 := by
  rw [IntType.wrap_eq_iff, IntType.inRange_unsigned rfl]
  exact and_iff_right h

/-! ## The capacity of the block cache -/

/-- The capacity is defined when the product is an `int`, and then it is the product. -/
theorem blockCacheCapacity_eq_some_iff {env : DBEnv} (h : 0 ≤ env.blockCache.val)
    (capacity : CInt .sizeT) : env.blockCacheCapacity = some capacity
      ↔ env.blockCache.val < 2048 ∧ capacity.val = env.blockCache.val * 1024 * 1024 := by
  rw [DBEnv.blockCacheCapacity]
  constructor
  · intro hcapacity
    obtain ⟨kilobytes, hkilobytes, hcapacity⟩ := Option.bind_eq_some_iff.mp hcapacity
    obtain ⟨bytes, hbytes, hcapacity⟩ := Option.bind_eq_some_iff.mp hcapacity
    rw [CInt.checked_eq_some_iff] at hkilobytes hbytes
    rw [hkilobytes] at hbytes
    have hlt : bytes.val < 2 ^ 31 := bytes.inRange.2
    have hnonneg : 0 ≤ bytes.val := by omega
    refine ⟨by omega, ?_⟩
    rw [← Option.some.inj hcapacity, ← hbytes]
    exact CInt.val_convert_eq_iff.mpr ((CInt.inRange_iff_nonneg rfl (by decide)).mpr hnonneg)
  · rintro ⟨hlt, hcapacity⟩
    have hrange {n : ℤ} (hnonneg : 0 ≤ n) (hn : n < 2 ^ 31) : IntType.int.InRange n :=
      ⟨le_trans (by decide) hnonneg, hn⟩
    have hkilobytes : IntType.int.InRange (env.blockCache.val * 1024) :=
      hrange (by omega) (by omega)
    have hbytes : IntType.int.InRange (env.blockCache.val * 1024 * 1024) :=
      hrange (by omega) (by omega)
    have hconvert : (CInt.convert .sizeT ⟨_, hbytes⟩).val = env.blockCache.val * 1024 * 1024 :=
      CInt.val_convert_eq_iff.mpr
        ((CInt.inRange_iff_nonneg rfl (by decide)).mpr (by positivity))
    refine Option.bind_eq_some_iff.mpr ⟨_, CInt.checked_of_inRange hkilobytes, ?_⟩
    refine Option.bind_eq_some_iff.mpr ⟨_, CInt.checked_of_inRange hbytes, ?_⟩
    exact congrArg some (CInt.ext (hconvert.trans hcapacity.symm))

/-! ## All sizes -/

/-- The sizes are the exact products, where these fit their 64-bit destinations: `P * B * E` for the
buffer and what is derived from it, `B * E` for the blocks, `C` MB for the cache. -/
structure ExactSizes (configured : Configured) (P B E C : ℤ) : Prop where
  writeBufferSize : P * B * E < 2 ^ 64 → configured.options.writeBufferSize.val = P * B * E
  targetFileSizeBase : P * B * E < 2 ^ 64 → configured.options.targetFileSizeBase.val = P * B * E
  maxBytesForLevelBase :
    P * B * E < 2 ^ 64 → configured.options.maxBytesForLevelBase.val = P * B * E
  blockSize : B * E < 2 ^ 64 → configured.table.blockSize.val = B * E
  arenaBlockSize : B * E < 2 ^ 64 → configured.options.arenaBlockSize.val = B * E
  blockCache : C ≠ 0 → ∃ cache, configured.table.blockCache = some cache
    ∧ cache.capacity.val = C * 1024 * 1024

/-- `configOptions` is defined and its sizes are exact. -/
def SizesExact (env : DBEnv) (options : StoreOptions) (table : TableOptions) (read : ReadOptions)
    (P B E C : ℤ) : Prop :=
  ∃ configured, configOptions env options table read = some configured
    ∧ ExactSizes configured P B E C

theorem exists_of_configOptions {env : DBEnv} {options : StoreOptions} {table : TableOptions}
    {read : ReadOptions} {configured : Configured}
    (h : configOptions env options table read = some configured) :
    ∃ cached, env.configBlockCache table = some cached ∧ configured.table = env.configTable cached
      ∧ configured.options = env.configStore (env.configTable cached) options := by
  obtain ⟨cached, hcached, hconfigured⟩ := Option.bind_eq_some_iff.mp h
  obtain rfl := Option.some.inj hconfigured
  exact ⟨cached, hcached, rfl, rfl⟩

section

variable {env : DBEnv}

/-- The options with the size of the buffer have the product reduced to 32 bits. -/
theorem val_sizes_configStore (h : env.bufferSize = 0) (table : TableOptions)
    (options : StoreOptions) :
    let size := IntType.unsignedInt.wrap
      (env.bufferSizeInPages.val * env.entriesPerPage.val * env.entrySize.val)
    (env.configStore table options).writeBufferSize.val = size
      ∧ (env.configStore table options).targetFileSizeBase.val = size
      ∧ (env.configStore table options).maxBytesForLevelBase.val = size := by
  intro size
  have hsize := DBEnv.val_getBufferSize h
  have hlong := env.val_getMaxBytesForLevelBase.trans hsize
  exact ⟨hsize, hlong, hlong⟩

theorem val_arenaBlockSize_configStore (table : TableOptions) (options : StoreOptions) :
    (env.configStore table options).arenaBlockSize.val = env.getBlockSize.val :=
  CInt.val_convert_of_widens (by decide) _

/-- The block cache is configured when the capacity of the cache is an `int`. -/
theorem exists_configBlockCache_iff (h : 0 ≤ env.blockCache.val) (table : TableOptions) :
    (∃ cached, env.configBlockCache table = some cached ∧ (env.blockCache.val ≠ 0 →
        ∃ cache, cached.blockCache = some cache
          ∧ cache.capacity.val = env.blockCache.val * 1024 * 1024))
      ↔ env.blockCache.val < 2048 := by
  rw [DBEnv.configBlockCache]
  split_ifs with hzero
  · rw [hzero]
    exact iff_of_true ⟨_, rfl, fun hne ↦ absurd rfl hne⟩ (by decide)
  · have hcapacity := blockCacheCapacity_eq_some_iff h
    constructor
    · rintro ⟨cached, hcached, -⟩
      obtain ⟨capacity, hsome, -⟩ := Option.bind_eq_some_iff.mp hcached
      exact ((hcapacity capacity).mp hsome).1
    · intro hlt
      have hval : (CInt.ofInt .sizeT (env.blockCache.val * 1024 * 1024)).val
          = env.blockCache.val * 1024 * 1024 :=
        IntType.wrap_of_inRange ((IntType.inRange_unsigned rfl).mpr
          ⟨by positivity, lt_trans (b := 2 ^ 31) (by omega) (by decide)⟩)
      have hsome := (hcapacity _).mpr ⟨hlt, hval⟩
      exact ⟨_, Option.bind_eq_some_iff.mpr ⟨_, hsome, rfl⟩, fun _ ↦ ⟨_, rfl, hval⟩⟩

/-- The product of two unsigned 32-bit values is below the 64-bit limit. -/
theorem mul_lt_two_pow (x y : CInt .unsignedInt) : x.val * y.val < 2 ^ 64 := by
  have hx : 0 ≤ x.val ∧ x.val < 2 ^ 32 := (IntType.inRange_unsigned rfl).mp x.inRange
  have hy : 0 ≤ y.val ∧ y.val < 2 ^ 32 := (IntType.inRange_unsigned rfl).mp y.inRange
  calc x.val * y.val
      < 2 ^ 32 * 2 ^ 32 := mul_lt_mul'' hx.2 hy.2 hx.1 hy.1
    _ = 2 ^ 64 := by norm_num

/-- When the sizes computed from an environment are exact. -/
theorem sizesExact_env_iff (hbuffer : env.bufferSize = 0) (hcache : 0 ≤ env.blockCache.val)
    (options : StoreOptions) (table : TableOptions) (read : ReadOptions) :
    SizesExact env options table read env.bufferSizeInPages.val env.entriesPerPage.val
        env.entrySize.val env.blockCache.val
      ↔ (env.bufferSizeInPages.val * env.entriesPerPage.val * env.entrySize.val < 2 ^ 32
          ∨ 2 ^ 64 ≤ env.bufferSizeInPages.val * env.entriesPerPage.val * env.entrySize.val)
        ∧ env.entriesPerPage.val * env.entrySize.val < 2 ^ 32 ∧ env.blockCache.val < 2048 := by
  have hsizes := val_sizes_configStore hbuffer
  have hdefined := exists_configBlockCache_iff hcache table
  have hPnonneg : 0 ≤ env.bufferSizeInPages.val := env.bufferSizeInPages.inRange.1
  have hBnonneg : 0 ≤ env.entriesPerPage.val := env.entriesPerPage.inRange.1
  have hEnonneg : 0 ≤ env.entrySize.val := env.entrySize.inRange.1
  have hbufferIff := wrap_unsignedInt_eq_iff (mul_nonneg (mul_nonneg hPnonneg hBnonneg) hEnonneg)
  have hblockIff := wrap_unsignedInt_eq_iff (mul_nonneg hBnonneg hEnonneg)
  constructor
  · rintro ⟨configured, hconfigured, hexact⟩
    obtain ⟨cached, hcached, htable, hoptions⟩ := exists_of_configOptions hconfigured
    refine ⟨?_, ?_, hdefined.mp ⟨cached, hcached, fun hne ↦ ?_⟩⟩
    · refine or_iff_not_imp_right.mpr fun hlarge ↦ hbufferIff.mp ?_
      have hwrite := hexact.writeBufferSize (not_le.mp hlarge)
      rw [hoptions] at hwrite
      exact (hsizes (env.configTable cached) options).1.symm.trans hwrite
    · apply hblockIff.mp
      rw [← env.val_getBlockSize, ← hexact.blockSize (mul_lt_two_pow _ _), htable]
      rfl
    · have hcreated := hexact.blockCache hne
      rw [htable] at hcreated
      exact hcreated
  · rintro ⟨hsize, hblockSize, hlt⟩
    obtain ⟨cached, hcached, hcapacity⟩ := hdefined.mpr hlt
    obtain ⟨hwrite, htarget, hmax⟩ := hsizes (env.configTable cached) options
    have hbufferExact (hfits : env.bufferSizeInPages.val * env.entriesPerPage.val
        * env.entrySize.val < 2 ^ 64) := hbufferIff.mpr (hsize.resolve_right (not_le.mpr hfits))
    have hblockExact := env.val_getBlockSize.trans (hblockIff.mpr hblockSize)
    refine ⟨_, Option.bind_eq_some_iff.mpr ⟨cached, hcached, rfl⟩, ?_⟩
    exact {
      writeBufferSize := fun hfits ↦ hwrite.trans (hbufferExact hfits)
      targetFileSizeBase := fun hfits ↦ htarget.trans (hbufferExact hfits)
      maxBytesForLevelBase := fun hfits ↦ hmax.trans (hbufferExact hfits)
      blockSize := fun _ ↦ hblockExact
      arenaBlockSize := fun _ ↦
        (val_arenaBlockSize_configStore (env.configTable cached) options).trans hblockExact
      blockCache := hcapacity }

end

/-- **When the sizes are exact**: when both products are below `2 ^ 32` and the capacity in bytes is
an `int`; and also when the buffer size is too large for its destination. -/
theorem sizesExact_iff {fp : DoubleArith} {flags : Flags} {env env' : DBEnv}
    (h : parseArguments fp (.flags flags) env = some (.returned 0 env')) {P B E C : CInt .int}
    (hP : flags.bufferSizeInPages = some P) (hB : flags.entriesPerPage = some B)
    (hE : flags.entrySize = some E) (hM : flags.bufferSize = none)
    (hC : flags.blockCache = some C) (hPpos : 0 < P.val) (hBpos : 0 < B.val) (hEpos : 0 < E.val)
    (hCnonneg : 0 ≤ C.val) (options : StoreOptions) (table : TableOptions) (read : ReadOptions) :
    SizesExact env' options table read P.val B.val E.val C.val
      ↔ (P.val * B.val * E.val < 2 ^ 32 ∨ 2 ^ 64 ≤ P.val * B.val * E.val)
        ∧ B.val * E.val < 2 ^ 32 ∧ C.val < 2048 := by
  obtain ⟨_, slowdown, stop, trigger, hline, rfl⟩ := exists_withFlags_of_parseArguments h
  obtain rfl := CommandLine.flags.inj hline
  set env' := env.withFlags flags slowdown stop trigger
  -- the four fields have the values of their flags
  have hpages : env'.bufferSizeInPages.val = P.val := val_assignInt_unsignedInt hP hPpos.le _
  have hentries : env'.entriesPerPage.val = B.val := val_assignInt_unsignedInt hB hBpos.le _
  have hentry : env'.entrySize.val = E.val := val_assignInt_unsignedInt hE hEpos.le _
  have hcache : env'.blockCache.val = C.val := val_assignInt_of_inRange hC C.inRange _
  have hbuffer : env'.bufferSize = 0 := by
    show assignInt flags.bufferSize .sizeT 0 = 0
    rw [hM]
    rfl
  rw [← hpages, ← hentries, ← hentry, ← hcache]
  rw [← hcache] at hCnonneg
  exact sizesExact_env_iff hbuffer hCnonneg options table read

/-! ## Concrete sizes -/

/-- Options to start from. -/
def plainOptions : StoreOptions where
  createIfMissing := false
  maxOpenFiles := 0
  maxFileOpeningThreads := 0
  bytesPerSync := 0
  enableThreadTracking := false
  allowConcurrentMemtableWrite := false
  statsHistoryBufferSize := 0
  dumpMallocStats := false
  avoidFlushDuringShutdown := false
  adviseRandomOnOpen := false
  deleteObsoleteFilesPeriodMicros := 0
  allowMmapReads := false
  allowMmapWrites := false
  maxBytesForLevelMultiplier := 0
  writeBufferSize := 0
  targetFileSizeBase := 0
  maxBytesForLevelBase := 0
  maxWriteBufferNumber := 0
  compactionPri := .minOverlappingRatio
  memtableFactory := .skipList
  levelCompactionDynamicLevelBytes := false
  compactionStyle := .level
  disableAutoCompactions := false
  level0FileNumCompactionTrigger := 0
  numLevels := 0
  targetFileSizeMultiplier := 0
  maxBackgroundJobs := 0
  softPendingCompactionBytesLimit := 0
  hardPendingCompactionBytesLimit := 0
  periodicCompactionSeconds := 0
  useDirectIoForFlushAndCompaction := false
  useDirectReads := false
  tableFactory := none
  compression := .noCompression
  comparator := .bytewise
  maxSequentialSkipInIterations := 0
  memtablePrefixBloomSizeRatio := 0
  level0SlowdownWritesTrigger := 0
  level0StopWritesTrigger := 0
  paranoidFileChecks := false
  optimizeFiltersForHits := false
  inplaceUpdateSupport := false
  inplaceUpdateNumLocks := 0
  reportBgIoStats := false
  arenaBlockSize := 0
  statisticsLevel := .disableAll

def plainTable : TableOptions where
  filterPolicy := none
  noBlockCache := false
  blockCache := none
  cacheIndexAndFilterBlocks := false
  readAmpBytesPerBit := 0
  dataBlockIndexType := .binarySearch
  indexType := .binarySearch
  partitionFilters := false
  blockSize := 0
  metadataBlockSize := 0
  pinTopLevelIndexAndFilter := false
  indexShortening := .noShortening
  blockSizeDeviation := 0
  enableIndexCompression := false

def plainRead : ReadOptions := ⟨false, false, false, .readAllTier⟩

/-- Flags for the sizes alone. -/
def sizeFlags (P B E C : CInt .int) : Flags :=
  { bufferSizeInPages := some P, entriesPerPage := some B, entrySize := some E,
    blockCache := some C }

/-- 512 pages of four entries of 1024 bytes, and a cache of 8 MB. -/
theorem sizesExact_small :
    let env := DBEnv.withFlags {} (sizeFlags 512 4 1024 8) 3 4 4
    SizesExact env plainOptions plainTable plainRead 512 4 1024 8 := by
  intro env
  have hparsed := parseArguments_default (sizeFlags 512 4 1024 8) rfl
  exact (sizesExact_iff hparsed rfl rfl rfl rfl rfl (by decide) (by decide) (by decide) (by decide)
    plainOptions plainTable plainRead).mpr (by decide)

/-- 65536 pages of 65536 entries of one byte: the buffer size is computed as 0. And a cache of
2048 MB, for which the capacity overflows. -/
theorem not_sizesExact_small :
    let env (P B E C : CInt .int) := DBEnv.withFlags {} (sizeFlags P B E C) 3 4 4
    (∀ P B E C, parseArguments .exact (.flags (sizeFlags P B E C)) {}
        = some (.returned 0 (env P B E C)))
      ∧ ¬SizesExact (env 65536 65536 1 8) plainOptions plainTable plainRead 65536 65536 1 8
      ∧ ¬SizesExact (env 512 4 1024 2048) plainOptions plainTable plainRead 512 4 1024 2048 := by
  intro env
  refine ⟨fun P B E C ↦ parseArguments_default (sizeFlags P B E C) rfl, ?_, ?_⟩
  · rintro ⟨configured, hconfigured, hexact⟩
    obtain ⟨cached, -, -, hoptions⟩ := exists_of_configOptions hconfigured
    have hsize := hexact.writeBufferSize (by decide)
    rw [hoptions, (val_sizes_configStore rfl _ _).1] at hsize
    exact absurd hsize (by decide +kernel)
  · rintro ⟨configured, hconfigured, -⟩
    have hnone : configOptions (env 512 4 1024 2048) plainOptions plainTable plainRead = none := rfl
    exact absurd (hnone.symm.trans hconfigured) (by simp)

end WorkloadAwareCompaction
