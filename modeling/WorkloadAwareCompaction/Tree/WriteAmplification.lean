import Mathlib.Algebra.BigOperators.Group.Finset.Sigma
import Mathlib.Algebra.BigOperators.Ring.Finset
import WorkloadAwareCompaction.Tree.Reads
import WorkloadAwareCompaction.Tree.Rewriting

/-!
# Write amplification

Every flushed byte is written again by each compaction that takes it. Inside a level this happens
as often as the level is merged in place before its next promotion, and once more when it is
promoted; so a byte on level `l` has been written by at most `passes l` compactions to get there,
plus the merges of level `l` since its last promotion. That number of passes is the weight of the
byte, and the compactions so far have written at most the weight of what is stored: every success
raises the weight of the bytes it writes by at least one (`sum_mul_move`).

Below the top the number of merges is bounded by the runs they use up (`RewriteInv`). At the top a
merge is only certain to find `Z` new files, so there the bound depends on the size of the smallest
flush: every merge adds `Z` flushes to store level 1, which never outgrows the capacity of level 0
(`TopInv`). Both rest on the size test of the merge, so the runs are those on which it is right
(`SizesFit`).
-/

/-- Mass `x` arrives at `b`, at least all that was at `a`, and weighs there one more than it did at
`a`. Then the total weight grows by at least `x`. -/
theorem Finset.sum_mul_move {ι : Type*} [DecidableEq ι] {s : Finset ι} {f g c d : ι → ℕ} {a b : ι}
    {x : ℕ} (ha : a ∈ s) (hb : b ∈ s) (hx : f a ≤ x)
    (hf : ∀ i ∈ s, g i = (if i = a then 0 else f i) + if i = b then x else 0)
    (hc : ∀ i, i ≠ a → d i = c i) (hpay : c a + 1 ≤ d b) :
    ∑ i ∈ s, f i * c i + x ≤ ∑ i ∈ s, g i * d i := by
  have hrest : ∑ i ∈ s, (if i = a then 0 else f i) * d i = ∑ i ∈ s.erase a, f i * c i := by
    rw [← Finset.sum_erase s (a := a) (by rw [if_pos rfl, Nat.zero_mul])]
    refine Finset.sum_congr rfl fun i hi ↦ ?_
    have hne := Finset.ne_of_mem_erase hi
    rw [if_neg hne, hc i hne]
  have hnew : ∑ i ∈ s, (if i = b then x else 0) * d i = x * d b := by
    simp only [ite_mul, Nat.zero_mul]
    rw [Finset.sum_ite_eq', if_pos hb]
  have hafter : ∑ i ∈ s, g i * d i = ∑ i ∈ s.erase a, f i * c i + x * d b := by
    rw [← hrest, ← hnew, ← Finset.sum_add_distrib]
    exact Finset.sum_congr rfl fun i hi ↦ by rw [hf i hi, Nat.add_mul]
  have hpaid : f a * c a + x ≤ x * d b := by
    calc f a * c a + x ≤ x * c a + x := Nat.add_le_add_right (Nat.mul_le_mul_right _ hx) _
      _ = x * (c a + 1) := (Nat.mul_succ _ _).symm
      _ ≤ x * d b := Nat.mul_le_mul_left _ hpay
  rw [hafter, ← Finset.add_sum_erase s _ ha]
  omega

namespace WorkloadAwareCompaction

open FluidLSM ColumnFamilyMetaData

/-! ## Bytes written -/

namespace TreeEvent

/-- The bytes a flush writes. -/
def bytesFlushed : TreeEvent → ℕ
  | flush file => file.size
  | compact _ _ => 0

/-- The bytes a successful compaction writes. -/
def bytesCompacted : TreeEvent → ℕ
  | compact _ (.success outputs) => totalBytes outputs
  | _ => 0

end TreeEvent

def bytesFlushed (h : List TreeEvent) : ℕ := (h.map TreeEvent.bytesFlushed).sum

def bytesCompacted (h : List TreeEvent) : ℕ := (h.map TreeEvent.bytesCompacted).sum

theorem bytesFlushed_cons (e : TreeEvent) (h : List TreeEvent) :
    bytesFlushed (e :: h) = e.bytesFlushed + bytesFlushed h := by
  rw [bytesFlushed, List.map_cons, List.sum_cons, bytesFlushed]

theorem bytesCompacted_cons (e : TreeEvent) (h : List TreeEvent) :
    bytesCompacted (e :: h) = e.bytesCompacted + bytesCompacted h := by
  rw [bytesCompacted, List.map_cons, List.sum_cons, bytesCompacted]

/-- An insert-only workload whose flushes have at least `m` bytes. -/
def InsertOnlyFrom (m : ℕ) (s : TreeState) (e : TreeEvent) : Prop :=
  InsertOnly s e ∧ match e with
    | .flush file => m ≤ file.size
    | .compact _ _ => True

instance (m : ℕ) (s : TreeState) : ∀ e, Decidable (InsertOnlyFrom m s e)
  | .flush _ => inferInstanceAs (Decidable (_ ∧ _ ≤ _))
  | .compact _ _ => inferInstanceAs (Decidable (_ ∧ True))

/-- The most merges a level can see between two promotions, with flushes of at least `m` bytes. -/
def maxRewrites (cfg : Config) (m : ℕ) : ℕ → ℕ
  | 0 => (cfg.capacity 0 / m - 1) / cfg.largerLvlRunsCount
  | _ + 1 => (cfg.sizeRatio - 2) / cfg.largerLvlRunsCount

/-- The most compactions that can have written a byte which has just arrived on level `l`. -/
def passes (cfg : Config) (m l : ℕ) : ℕ := ∑ i ∈ Finset.range l, (maxRewrites cfg m i + 1)

theorem passes_succ (cfg : Config) (m l : ℕ) :
    passes cfg m (l + 1) = passes cfg m l + (maxRewrites cfg m l + 1) := Finset.sum_range_succ _ _

theorem passes_mono (cfg : Config) (m : ℕ) {l l' : ℕ} (h : l ≤ l') :
    passes cfg m l ≤ passes cfg m l' :=
  Finset.sum_le_sum_of_subset (Finset.range_subset_range.mpr h)

section

variable {cfg : Config} {fp : DoubleArith} {db db₀ db' : ColumnFamilyMetaData}
  {task : CompactionTask} {fresh outputs : List SstFileMetaData} {l j m : ℕ}

/-! ## The bytes that have been compacted -/

/-- The bytes of a fluid level, the files of store level 0 left out: no compaction wrote those. -/
def settledBytes (cfg : Config) (db : ColumnFamilyMetaData) (l : ℕ) : ℕ :=
  if l = 0 then totalBytes (db.filesAt 1) else levelBytes cfg db l

theorem levelBytes_zero (cfg : Config) (hdb : 2 ≤ db.numLevels) :
    levelBytes cfg db 0 = totalBytes (db.filesAt 0) + totalBytes (db.filesAt 1) := by
  have hlevels : storeLevels cfg db 0 = {0, 1} := by
    ext i
    rw [mem_storeLevels, Config.fluidLvl_eq_zero_iff, Finset.mem_insert, Finset.mem_singleton]
    omega
  rw [levelBytes, hlevels, Finset.sum_pair zero_ne_one]

theorem settledBytes_le_levelBytes (cfg : Config) (hdb : 2 ≤ db.numLevels) (l : ℕ) :
    settledBytes cfg db l ≤ levelBytes cfg db l := by
  rw [settledBytes]
  split_ifs with hl
  · rw [hl, levelBytes_zero cfg hdb]
    exact Nat.le_add_left _ _
  · exact le_rfl

theorem settledBytes_addFlushed (file : SstFileMetaData) (l : ℕ) :
    settledBytes cfg (db.addFlushed file) l = settledBytes cfg db l := by
  rw [settledBytes, settledBytes]
  split_ifs with hl
  · rw [filesAt_addFlushed_of_ne one_ne_zero]
  · exact levelBytes_addFlushed file (Nat.pos_of_ne_zero hl)

theorem InFlight.settledBytes_replaceFiles (h : InFlight cfg fp db task db₀ fresh)
    (outputs : List SstFileMetaData) (hstore : StoreInv cfg db)
    (hout : task.outputLvl < db.numLevels) (l : ℕ) :
    settledBytes cfg (db.replaceFiles task.inputFileNames task.outputLvl outputs) l
      = (if l = task.originLvl then 0 else settledBytes cfg db l)
        + if l = task.targetLvl then totalBytes outputs else 0 := by
  rcases Nat.eq_zero_or_pos l with rfl | hl
  · have hlvl := (h.landing hstore).fluidLvl_outputLvl
    have hpos := (h.landing hstore).outputLvl_pos
    have hone : cfg.fluidLvl 1 = 0 := Config.fluidLvl_eq_zero_iff.mpr le_rfl
    have hiff : 1 = task.outputLvl ↔ 0 = task.targetLvl := by
      rw [← hlvl, eq_comm (a := 0), Config.fluidLvl_eq_zero_iff]
      omega
    rw [settledBytes, if_pos rfl, settledBytes, if_pos rfl, h.filesAt_replaceFiles hstore hout,
      if_neg one_ne_zero, List.nil_append, totalBytes_append, hone, h.below 1 one_ne_zero]
    simp only [hiff, apply_ite totalBytes, totalBytes_nil]
  · rw [settledBytes, if_neg hl.ne', settledBytes, if_neg hl.ne']
    exact h.levelBytes_replaceFiles outputs hstore hout hl

/-- What a task rewrites includes all that its origin level had settled. -/
theorem InFlight.settledBytes_le (h : InFlight cfg fp db task db₀ fresh)
    (hstore : StoreInv cfg db) :
    settledBytes cfg db task.originLvl ≤ totalBytes (db.inputs task) := by
  have hsame : settledBytes cfg db task.originLvl = settledBytes cfg db₀ task.originLvl := by
    rw [settledBytes, settledBytes]
    split_ifs with hl
    · rw [h.below 1 one_ne_zero]
    · exact (h.levelBytes_eq (Nat.pos_of_ne_zero hl)).symm
  rw [h.totalBytes_inputs hstore, hsame]
  exact settledBytes_le_levelBytes cfg (h.store hstore).two_le _

theorem totalBytes_allFiles (db : ColumnFamilyMetaData) :
    totalBytes db.allFiles = ∑ i ∈ Finset.range db.numLevels, totalBytes (db.filesAt i) := by
  rw [allFiles, levels_eq_map db, List.flatMap_map, totalBytes_flatMap,
    ← List.sum_toFinset _ List.nodup_range, List.toFinset_range]

theorem totalBytes_filter_add_filter_not (p : SstFileMetaData → Bool)
    (files : List SstFileMetaData) :
    totalBytes (files.filter p) + totalBytes (files.filter (!p ·)) = totalBytes files := by
  rw [← totalBytes_append]
  exact ((List.filter_append_perm p files).map _).sum_eq

/-- A success exchanges the inputs for the outputs. -/
theorem totalBytes_replaceFiles (task : CompactionTask) (outputs : List SstFileMetaData)
    (hout : task.outputLvl < db.numLevels) :
    totalBytes (db.replaceFiles task.inputFileNames task.outputLvl outputs).allFiles
      + totalBytes (db.inputs task) = totalBytes db.allFiles + totalBytes outputs := by
  have hlevel : ∀ i ∈ Finset.range db.numLevels,
      totalBytes ((db.replaceFiles task.inputFileNames task.outputLvl outputs).filesAt i)
        + totalBytes ((db.filesAt i).filter (·.name ∈ task.inputFileNames))
        = totalBytes (db.filesAt i) + if i = task.outputLvl then totalBytes outputs else 0 := by
    intro i _
    have hsplit := totalBytes_filter_add_filter_not
      (fun f ↦ decide (f.name ∈ task.inputFileNames)) (db.filesAt i)
    simp only [← decide_not] at hsplit
    rw [ColumnFamilyMetaData.filesAt_replaceFiles hout]
    split_ifs
    · rw [totalBytes_append]
      omega
    · omega
  have hinputs : totalBytes (db.inputs task) = ∑ i ∈ Finset.range db.numLevels,
      totalBytes ((db.filesAt i).filter (·.name ∈ task.inputFileNames)) := by
    rw [inputs, allFiles, levels_eq_map db, List.flatMap_map, List.filter_flatMap,
      totalBytes_flatMap, ← List.sum_toFinset _ List.nodup_range, List.toFinset_range]
  rw [hinputs, totalBytes_allFiles, totalBytes_allFiles db, numLevels_replaceFiles,
    ← Finset.sum_add_distrib, Finset.sum_congr rfl hlevel, Finset.sum_add_distrib,
    Finset.sum_ite_eq', if_pos (Finset.mem_range.mpr hout)]

/-- Together the levels hold no more than the store. -/
theorem sum_settledBytes_le (cfg : Config) (hdb : 2 ≤ db.numLevels) :
    ∑ l ∈ Finset.range db.numLevels, settledBytes cfg db l ≤ totalBytes db.allFiles := by
  have hparts : ∑ l ∈ Finset.range db.numLevels, levelBytes cfg db l
      = ∑ i ∈ Finset.range db.numLevels, totalBytes (db.filesAt i) :=
    Finset.sum_fiberwise_of_maps_to (fun i hi ↦ Finset.mem_range.mpr
      (Config.fluidLvl_lt (Finset.mem_range.mp hi) hdb)) _
  rw [totalBytes_allFiles, ← hparts]
  exact Finset.sum_le_sum fun l _ ↦ settledBytes_le_levelBytes cfg hdb l

theorem le_largest_of_settledBytes (hstore : StoreInv cfg db) (h : settledBytes cfg db l ≠ 0) :
    l ≤ (fluidView cfg db).getLargestOccupiedLevel := by
  have hlevel : levelBytes cfg db l ≠ 0 := by
    have := settledBytes_le_levelBytes cfg hstore.two_le l
    omega
  obtain ⟨i, hi, hne⟩ := Finset.exists_ne_zero_of_sum_ne_zero hlevel
  rw [← (mem_storeLevels.mp hi).2]
  refine fluidLvl_le_largest hstore.two_le hstore.levels fun hnil ↦ hne ?_
  rw [hnil, totalBytes_nil]

/-! ## Merges at the top -/

/-- The state of level 0 after `j` merges inside it since its last promotion. -/
structure TopInv (cfg : Config) (m : ℕ) (db : ColumnFamilyMetaData) (j : ℕ) : Prop where
  flushed : ∀ f ∈ db.filesAt 0, m ≤ f.size
  fits : totalBytes (db.filesAt 1) ≤ cfg.capacity 0
  /-- Store level 1 is empty, or holds the flushes that its merges have used up. -/
  bytes : j = 0 ∧ db.filesAt 1 = []
    ∨ (1 + j * cfg.largerLvlRunsCount) * m ≤ totalBytes (db.filesAt 1)

theorem TopInv.le_maxRewrites (h : TopInv cfg m db j) (hm : 0 < m)
    (hZ : 0 < cfg.largerLvlRunsCount) : j ≤ maxRewrites cfg m 0 := by
  rcases h.bytes with ⟨rfl, -⟩ | hbytes
  · exact Nat.zero_le _
  · have hdiv : 1 + j * cfg.largerLvlRunsCount ≤ cfg.capacity 0 / m :=
      (Nat.le_div_iff_mul_le hm).mpr (hbytes.trans h.fits)
    rw [maxRewrites, Nat.le_div_iff_mul_le hZ]
    omega

theorem RewriteInv.le_maxRewrites (h : RewriteInv cfg db l j) (hl : 0 < l)
    (hZ : 0 < cfg.largerLvlRunsCount) : j ≤ maxRewrites cfg m l := by
  obtain ⟨l, rfl⟩ : ∃ l', l = l' + 1 := ⟨l - 1, by omega⟩
  have hlt := h.rewrites_lt
  rw [Nat.mul_comm] at hlt
  rw [maxRewrites, Nat.le_div_iff_mul_le hZ]
  omega

theorem totalBytes_ge {files : List SstFileMetaData} (h : ∀ f ∈ files, m ≤ f.size) :
    files.length * m ≤ totalBytes files := by
  induction files with
  | nil => exact (Nat.zero_mul m).le
  | cons f files ih =>
    obtain ⟨hf, hfiles⟩ := List.forall_mem_cons.mp h
    rw [List.length_cons, Nat.succ_mul, Nat.add_comm, totalBytes, List.map_cons, List.sum_cons]
    exact Nat.add_le_add hf (ih hfiles)

/-- A merge at the top finds more than `Z` runs, all but one of them flushed since the last one. -/
theorem Picked.top_bytes (h : Picked cfg fp db task) (hstore : StoreInv cfg db)
    (hZK : cfg.largerLvlRunsCount ≤ cfg.smallerLvlRunsCount) (horigin : task.originLvl = 0)
    (htop : TopInv cfg m db j) (hm : 0 < m) :
    (1 + (j + 1) * cfg.largerLvlRunsCount) * m ≤ levelBytes cfg db 0 := by
  have hover := h.deepest.1
  rw [horigin, overBound_eq_true, toConfig_fluidView,
    numLiveRunsAt_fluidView hstore.two_le hstore.levels hstore.unmarked, if_pos rfl,
    occupiedLevels_zero] at hover
  have hfiles := totalBytes_ge htop.flushed
  rw [levelBytes_zero cfg hstore.two_le]
  rcases htop.bytes with ⟨rfl, hnil⟩ | hbytes
  · rw [if_pos hnil, Finset.card_empty] at hover
    have hlen : 1 + (0 + 1) * cfg.largerLvlRunsCount ≤ (db.filesAt 0).length := by omega
    have := Nat.mul_le_mul_right m hlen
    omega
  · have hne : db.filesAt 1 ≠ [] := by
      intro hnil
      rw [hnil, totalBytes_nil, Nat.le_zero, Nat.mul_eq_zero] at hbytes
      omega
    rw [if_neg hne, Finset.card_singleton] at hover
    have hlen : cfg.largerLvlRunsCount ≤ (db.filesAt 0).length := by omega
    have hmul := Nat.mul_le_mul_right m hlen
    have hsplit : (1 + (j + 1) * cfg.largerLvlRunsCount) * m
        = cfg.largerLvlRunsCount * m + (1 + j * cfg.largerLvlRunsCount) * m := by ring
    omega

/-- **What a success does to the top.** -/
theorem InFlight.topInv (h : InFlight cfg fp db task db₀ fresh) (hstore : StoreInv cfg db)
    (hsized : WellSized cfg task (totalBytes (db.inputs task)))
    (hZK : cfg.largerLvlRunsCount ≤ cfg.smallerLvlRunsCount)
    (hout : task.outputLvl < db.numLevels)
    (hsize : totalBytes outputs = totalBytes (db.inputs task)) (hm : 0 < m)
    (hinv : TopInv cfg m db j) :
    TopInv cfg m (db.replaceFiles task.inputFileNames task.outputLvl outputs)
      (if task.originLvl = 0 ∧ task.targetLvl = 1 then 0
        else j + if task.originLvl = 0 ∧ task.targetLvl = 0 then 1 else 0) := by
  have hflushed : ∀ f ∈ (db.replaceFiles task.inputFileNames task.outputLvl outputs).filesAt 0,
      m ≤ f.size := by
    intro f hf
    have hpos := (h.landing hstore).outputLvl_pos
    rcases (mem_filesAt_replaceFiles hout).mp hf with ⟨hf, -⟩ | ⟨hzero, -⟩
    · exact hinv.flushed f hf
    · omega
  have hbytes := h.settledBytes_replaceFiles outputs hstore hout 0
  simp only [settledBytes, if_true, hsize, h.totalBytes_inputs hstore] at hbytes
  rw [h.totalBytes_inputs hstore] at hsized
  by_cases horigin : task.originLvl = 0
  · rcases hsized with ⟨hnext, -⟩ | ⟨hstay, hfits⟩
    · -- Level 0 is promoted: store level 1 is empty now.
      have hone : cfg.fluidLvl 1 = 0 := Config.fluidLvl_eq_zero_iff.mpr le_rfl
      have hlvl := (h.landing hstore).fluidLvl_outputLvl
      have hnil : (db.replaceFiles task.inputFileNames task.outputLvl outputs).filesAt 1 = [] := by
        rw [h.filesAt_replaceFiles hstore hout, if_neg one_ne_zero, hone, horigin, if_pos rfl,
          if_neg fun hout1 ↦ by rw [← hout1, hone] at hlvl; omega]
        rfl
      rw [if_pos ⟨horigin, by omega⟩]
      exact ⟨hflushed, by rw [hnil]; exact Nat.zero_le _, Or.inl ⟨rfl, hnil⟩⟩
    · -- Level 0 is merged into store level 1.
      have htop : TopInv cfg m db₀ j :=
        { flushed := fun f hf ↦ hinv.flushed f (h.subset 0 hf)
          fits := by rw [← h.below 1 one_ne_zero]; exact hinv.fits
          bytes := by rw [← h.below 1 one_ne_zero]; exact hinv.bytes }
      have hlarge := h.picked.top_bytes (h.store hstore) hZK horigin htop hm
      rw [horigin] at hfits hstay
      rw [horigin, if_pos rfl, if_pos hstay.symm, Nat.zero_add] at hbytes
      rw [if_neg (by omega), if_pos ⟨horigin, hstay⟩]
      exact ⟨hflushed, hbytes ▸ hfits, Or.inr (hbytes ▸ hlarge)⟩
  · -- The task lies below.
    have hone : cfg.fluidLvl 1 ≠ task.originLvl := by
      rw [Config.fluidLvl_eq_zero_iff.mpr le_rfl]
      exact Ne.symm horigin
    have htarget : task.targetLvl ≠ 0 := by
      rcases (h.landing hstore).target_eq_or with hstay | hnext <;> omega
    have hlvl := (h.landing hstore).fluidLvl_outputLvl
    have hsame : (db.replaceFiles task.inputFileNames task.outputLvl outputs).filesAt 1
        = db.filesAt 1 := by
      rw [h.filesAt_replaceFiles hstore hout, if_neg one_ne_zero, if_neg hone,
        if_neg fun hout1 ↦ by
          rw [← hout1, Config.fluidLvl_eq_zero_iff.mpr le_rfl] at hlvl
          exact htarget hlvl.symm,
        List.nil_append, List.append_nil, h.below 1 one_ne_zero]
    rw [if_neg (by tauto), if_neg (by tauto), Nat.add_zero]
    exact ⟨hflushed, hsame ▸ hinv.fits, hsame ▸ hinv.bytes⟩

/-! ## The weight pays for the compactions -/

/-- What has been written is paid for by what is stored. -/
structure WriteInv (cfg : Config) (m : ℕ) (h : List TreeEvent) (s : TreeState) : Prop where
  top : TopInv cfg m s.db (rewritesSincePromotion 0 h)
  below : ∀ l, 1 ≤ l → RewriteInv cfg s.db l (rewritesSincePromotion l h)
  /-- An insert-only workload loses no byte and gains none. -/
  stored : totalBytes s.db.allFiles = bytesFlushed h
  paid : bytesCompacted h ≤ ∑ l ∈ Finset.range cfg.options.numLevels,
    settledBytes cfg s.db l * (passes cfg m l + rewritesSincePromotion l h)

theorem WriteInv.le_maxRewrites {h : List TreeEvent} {s : TreeState} (hinv : WriteInv cfg m h s)
    (hm : 0 < m) (hZ : 0 < cfg.largerLvlRunsCount) (l : ℕ) :
    rewritesSincePromotion l h ≤ maxRewrites cfg m l := by
  rcases Nat.eq_zero_or_pos l with rfl | hl
  · exact hinv.top.le_maxRewrites hm hZ
  · exact (hinv.below l hl).le_maxRewrites hl hZ

theorem writeInv_init (hT : 2 ≤ cfg.sizeRatio) : WriteInv cfg m [] (.init cfg) where
  top :=
    { flushed := by simp [TreeState.init]
      fits := by simp [TreeState.init]
      bytes := Or.inl ⟨rfl, filesAt_empty _ _⟩ }
  below l _ := .of_empty hT (Finset.eq_empty_iff_forall_notMem.mpr fun i hi ↦
    (mem_occupiedLevels.mp hi).2.2 (filesAt_empty _ i))
  stored := by
    rw [TreeState.init, allFiles_empty]
    rfl
  paid := Nat.zero_le _

/-- A flush costs no compaction. -/
theorem WriteInv.addFlushed {h : List TreeEvent} {s s' : TreeState} {file : SstFileMetaData}
    (hinv : WriteInv cfg m h s) (hstore : StoreInv cfg s.db) (hsize : m ≤ file.size)
    (hdb' : s'.db = s.db.addFlushed file) : WriteInv cfg m (.flush file :: h) s' := by
  have hj : ∀ l, rewritesSincePromotion l (.flush file :: h) = rewritesSincePromotion l h :=
    fun l ↦ rewritesSincePromotion_cons l _ h
  have htwo := hstore.two_le
  have hone : (s.db.addFlushed file).filesAt 1 = s.db.filesAt 1 :=
    filesAt_addFlushed_of_ne one_ne_zero file
  refine ⟨⟨?_, ?_, ?_⟩, fun l hl ↦ ?_, ?_, ?_⟩
  · rw [hdb', filesAt_addFlushed_zero (by omega)]
    exact List.forall_mem_cons.mpr ⟨hsize, hinv.top.flushed⟩
  · rw [hdb', hone]
    exact hinv.top.fits
  · rw [hj, hdb', hone]
    exact hinv.top.bytes
  · rw [hj, hdb']
    exact (hinv.below l hl).keep (by rw [occupiedLevels_addFlushed]) (levelBytes_addFlushed _ hl)
  · rw [hdb', allFiles_addFlushed (by omega), totalBytes, List.map_cons, List.sum_cons,
      ← totalBytes, hinv.stored, bytesFlushed_cons]
    rfl
  · have hpaid := hinv.paid
    simpa [bytesCompacted_cons, TreeEvent.bytesCompacted, hj, hdb', settledBytes_addFlushed]
      using hpaid

/-- A failure writes nothing that stays. -/
theorem WriteInv.failure {h : List TreeEvent} {s s' : TreeState} {status : Status}
    (hinv : WriteInv cfg m h s) (hdb' : s'.db = s.db) :
    WriteInv cfg m (.compact task (.failure status) :: h) s' := by
  have hj : ∀ l, rewritesSincePromotion l (.compact task (.failure status) :: h)
      = rewritesSincePromotion l h := fun l ↦ rewritesSincePromotion_cons l _ h
  refine ⟨?_, fun l hl ↦ ?_, ?_, ?_⟩
  · rw [hj, hdb']
    exact hinv.top
  · rw [hj, hdb']
    exact hinv.below l hl
  · rw [hdb', hinv.stored, bytesFlushed_cons, TreeEvent.bytesFlushed, Nat.zero_add]
  · have hpaid := hinv.paid
    simpa [bytesCompacted_cons, TreeEvent.bytesCompacted, hj, hdb'] using hpaid

/-- The merges of a level after one more success. -/
theorem rewritesSincePromotion_success (task : CompactionTask) (outputs : List SstFileMetaData)
    (l : ℕ) (h : List TreeEvent) :
    rewritesSincePromotion l (.compact task (.success outputs) :: h)
      = if task.originLvl = l ∧ task.targetLvl = l + 1 then 0
        else rewritesSincePromotion l h
          + if task.originLvl = l ∧ task.targetLvl = l then 1 else 0 := by
  rw [rewritesSincePromotion_cons]
  simp [TreeEvent.promotes, TreeEvent.rewrites, TreeEvent.moves, Bool.toNat, Bool.cond_eq_ite]

/-- **A success is paid for** by the weight that the bytes it writes gain. -/
theorem WriteInv.success {h : List TreeEvent} {s s' : TreeState} (hinv : WriteInv cfg m h s)
    (hflight : InFlight cfg fp s.db task db₀ fresh) (hstore : StoreInv cfg s.db)
    (hsized : WellSized cfg task (totalBytes (s.db.inputs task))) (hT : 2 ≤ cfg.sizeRatio) (hZ : 0 < cfg.largerLvlRunsCount)
    (hZK : cfg.largerLvlRunsCount ≤ cfg.smallerLvlRunsCount) (hm : 0 < m)
    (hout : task.outputLvl < s.db.numLevels)
    (hsize : totalBytes outputs = totalBytes (s.db.inputs task))
    (hdb' : s'.db = s.db.replaceFiles task.inputFileNames task.outputLvl outputs) :
    WriteInv cfg m (.compact task (.success outputs) :: h) s' := by
  have hj := fun l ↦ rewritesSincePromotion_success task outputs l h
  have htarget := (hflight.landing hstore).target_eq_or
  refine ⟨?_, fun l hl ↦ ?_, ?_, ?_⟩
  · rw [hj, hdb']
    exact hflight.topInv hstore hsized hZK hout hsize hm hinv.top
  · rw [hj, hdb']
    exact hflight.rewriteInv hstore hsized hT hZK hout hsize hl (hinv.below l hl)
  · have hbytes := totalBytes_replaceFiles task outputs hout
    rw [hdb', bytesFlushed_cons, TreeEvent.bytesFlushed, Nat.zero_add, ← hinv.stored]
    omega
  · have htargetlt : task.targetLvl < cfg.options.numLevels := by
      rw [← (hflight.landing hstore).fluidLvl_outputLvl, ← hstore.levels]
      exact Config.fluidLvl_lt hout hstore.two_le
    have hpay : passes cfg m task.originLvl + rewritesSincePromotion task.originLvl h + 1
        ≤ passes cfg m task.targetLvl
          + rewritesSincePromotion task.targetLvl (.compact task (.success outputs) :: h) := by
      rcases htarget with hstay | hnext
      · rw [hj, if_neg (by omega), if_pos ⟨hstay.symm, rfl⟩, hstay]
        omega
      · -- The level was merged at most `maxRewrites` times before its promotion.
        have hmax := hinv.le_maxRewrites hm hZ task.originLvl
        rw [hnext, passes_succ]
        omega
    have hmove := Finset.sum_mul_move
      (f := settledBytes cfg s.db)
      (g := settledBytes cfg (s.db.replaceFiles task.inputFileNames task.outputLvl outputs))
      (c := fun l ↦ passes cfg m l + rewritesSincePromotion l h)
      (d := fun l ↦ passes cfg m l
        + rewritesSincePromotion l (.compact task (.success outputs) :: h))
      (a := task.originLvl) (b := task.targetLvl)
      (Finset.mem_range.mpr (by omega : task.originLvl < cfg.options.numLevels))
      (Finset.mem_range.mpr htargetlt) (hsize ▸ hflight.settledBytes_le hstore)
      (fun l _ ↦ hflight.settledBytes_replaceFiles outputs hstore hout l)
      (fun l hl ↦ by rw [hj, if_neg fun h ↦ hl h.1.symm, if_neg fun h ↦ hl h.1.symm, Nat.add_zero])
      hpay
    have hpaid := hinv.paid
    rw [hdb', bytesCompacted_cons, TreeEvent.bytesCompacted]
    omega

theorem writeInv_of_run (hlev : 2 ≤ cfg.options.numLevels) (hT : 2 ≤ cfg.sizeRatio)
    (hZ : 0 < cfg.largerLvlRunsCount) (hZK : cfg.largerLvlRunsCount ≤ cfg.smallerLvlRunsCount)
    (hm : 0 < m) {h : List TreeEvent} {s : TreeState}
    (hrun : (treeSystem cfg fp).Run (fun s e ↦ InsertOnlyFrom m s e ∧ SizesFit cfg fp s e) h s) :
    WriteInv cfg m h s := by
  refine hrun.invariant (I := WriteInv cfg m) (writeInv_init hT) ?_
  intro h s e s' hrun hinv hp hs
  have hrun' := hrun.mono fun _ _ hp ↦ And.intro hp.1.1 hp.2
  have htree := treeInv_of_insertOnly hlev (hrun'.mono fun _ _ ↦ And.left)
  cases (htree.step hp.1.1.1 hs).2 with
  | rest _ _ hdb' _ | schedule _ _ hdb' _ | overlap _ _ hdb' =>
    exact hinv.addFlushed htree.store hp.1.2 hdb'
  | @success task _ htasks _ hout hdb' =>
    have hmem : task ∈ s.tasks := htasks ▸ List.mem_singleton_self _
    obtain ⟨db₀, fresh, hflight⟩ := htree.flight task hmem
    have hsized := wellSized_of_run hlev hrun' task hmem
    exact hinv.success hflight htree.store hsized hT hZ hZK hm hout hp.1.1.2 hdb'
  | failure _ _ hdb' => exact hinv.failure hdb'

/-- **Write amplification.** On every run of an insert-only workload whose flushes have at least `m`
bytes and on which the sizes fit, all that flushes and compactions have written is at most
`passes (D + 1)` times what was flushed, where `D` is the largest occupied level: each of the levels
down to `D` costs a byte at most one promotion and the merges that the level has room for. -/
theorem bytes_written_le (hlev : 2 ≤ cfg.options.numLevels) (hT : 2 ≤ cfg.sizeRatio)
    (hZ : 0 < cfg.largerLvlRunsCount) (hZK : cfg.largerLvlRunsCount ≤ cfg.smallerLvlRunsCount)
    (hm : 0 < m) {h : List TreeEvent} {s : TreeState}
    (hrun : (treeSystem cfg fp).Run (fun s e ↦ InsertOnlyFrom m s e ∧ SizesFit cfg fp s e) h s) :
    bytesFlushed h + bytesCompacted h
      ≤ passes cfg m ((fluidView cfg s.db).getLargestOccupiedLevel + 1) * bytesFlushed h := by
  have htree := treeInv_of_insertOnly hlev (hrun.mono fun _ _ hp ↦ hp.1.1)
  have hinv := writeInv_of_run hlev hT hZ hZK hm hrun
  -- No stored byte weighs more than one on the largest level after all its merges.
  have hweight : ∀ l, settledBytes cfg s.db l * (passes cfg m l + rewritesSincePromotion l h)
      ≤ settledBytes cfg s.db l
        * (passes cfg m ((fluidView cfg s.db).getLargestOccupiedLevel + 1) - 1) := by
    intro l
    by_cases hzero : settledBytes cfg s.db l = 0
    · rw [hzero, Nat.zero_mul, Nat.zero_mul]
    · have hle := le_largest_of_settledBytes htree.store hzero
      have hmono := passes_mono cfg m (Nat.add_le_add_right hle 1)
      have hmax := hinv.le_maxRewrites hm hZ l
      rw [passes_succ] at hmono
      exact Nat.mul_le_mul_left _ (by omega)
  have hpaid : bytesCompacted h
      ≤ (passes cfg m ((fluidView cfg s.db).getLargestOccupiedLevel + 1) - 1) * bytesFlushed h :=
    calc bytesCompacted h
        ≤ ∑ l ∈ Finset.range cfg.options.numLevels, settledBytes cfg s.db l
          * (passes cfg m ((fluidView cfg s.db).getLargestOccupiedLevel + 1) - 1) :=
          hinv.paid.trans (Finset.sum_le_sum fun l _ ↦ hweight l)
      _ ≤ bytesFlushed h
          * (passes cfg m ((fluidView cfg s.db).getLargestOccupiedLevel + 1) - 1) := by
          rw [← Finset.sum_mul, ← hinv.stored, ← htree.store.levels]
          exact Nat.mul_le_mul_right _ (sum_settledBytes_le cfg htree.store.two_le)
      _ = _ := Nat.mul_comm _ _
  have hpos : 1 ≤ passes cfg m ((fluidView cfg s.db).getLargestOccupiedLevel + 1) := by
    rw [passes_succ]
    omega
  calc bytesFlushed h + bytesCompacted h
      ≤ bytesFlushed h
        + (passes cfg m ((fluidView cfg s.db).getLargestOccupiedLevel + 1) - 1) * bytesFlushed h :=
        Nat.add_le_add_left hpaid _
    _ = passes cfg m ((fluidView cfg s.db).getLargestOccupiedLevel + 1) * bytesFlushed h := by
        rw [Nat.sub_mul, Nat.one_mul, Nat.add_sub_cancel' (Nat.le_mul_of_pos_left _ hpos)]

end

/-- With `T = 4` and `K = Z = 1`: 10 bytes flushed, 16 more written by two promotions and a merge,
and 4 passes allowed. -/
theorem bytes_written_le_small :
    ∃ h : List TreeEvent, bytesFlushed h = 10 ∧ bytesCompacted h = 16
      ∧ bytesFlushed h + bytesCompacted h ≤ 4 * bytesFlushed h := by
  let cfg : Config := { Config.small 1 1 6 with sizeRatio := 4 }
  let flushed (n : ℕ) : TreeEvent := .flush (.flushed (toString n) 2 n)
  let merge : CompactionTask := ⟨["b", "a"], 3, ⟨.noCompression, 1⟩, 1, 1⟩
  let h : List TreeEvent :=
    [.compact merge (.success [⟨"c", 8, false, {4, 3, 2, 1}⟩]), flushed 5,
      .compact (promoteFlushes [4, 3] 2) (.success [⟨"b", 4, false, {4, 3}⟩]),
      flushed 4, flushed 3,
      .compact (promoteFlushes [2, 1] 3) (.success [⟨"a", 4, false, {2, 1}⟩]),
      flushed 2, flushed 1]
  obtain ⟨s, hrun, hlargest⟩ :=
    StepSystem.exists_run_of_exec (M := treeSystem cfg .binary64)
      (P := fun s e ↦ InsertOnlyFrom 2 s e ∧ SizesFit cfg .binary64 s e)
      (R := fun s ↦ (fluidView cfg s.db).getLargestOccupiedLevel = 1) (h := h) (by decide +kernel)
  have hle := bytes_written_le (by decide) (by decide) (by decide) (by decide) (by decide) hrun
  rw [hlargest, show passes cfg 2 (1 + 1) = 4 by decide +kernel] at hle
  exact ⟨h, by decide, by decide, hle⟩

end WorkloadAwareCompaction
