import Mathlib.Algebra.BigOperators.Group.Finset.Piecewise
import Mathlib.Algebra.Order.BigOperators.Group.Finset
import Mathlib.Tactic.FieldSimp
import WorkloadAwareCompaction.Tree.Promotion

/-!
# The bytes of a level

The size test of `GetCompactionTargetLevel` compares the bytes of a level with its capacity
`B * (T - 1) * T ^ l`. The bytes are summed up in a `long`, so what is compared is their remainder
modulo `2 ^ 64`. It is never more than the bytes themselves: a level that is promoted is larger than
its capacity (`Picked.target_cases`). The converse is a condition on the bytes
(`Config.SizeTestRight`), and is met below `2 ^ 63` (`Config.sizeTestRight_of_lt`).

This file follows the bytes of a level through a run in which compactions preserve size, as they do
when nothing is overwritten or deleted: a task takes all bytes of its origin level and adds them to
the level it writes to.
-/

namespace WorkloadAwareCompaction

open FluidLSM ColumnFamilyMetaData MachineInt

def totalBytes (files : List SstFileMetaData) : ℕ := (files.map SstFileMetaData.size).sum

@[simp] theorem totalBytes_nil : totalBytes [] = 0 := rfl

@[simp] theorem totalBytes_append (xs ys : List SstFileMetaData) :
    totalBytes (xs ++ ys) = totalBytes xs + totalBytes ys := by
  rw [totalBytes, List.map_append, List.sum_append, totalBytes, totalBytes]

theorem totalBytes_flatMap {α : Type*} (f : α → List SstFileMetaData) (xs : List α) :
    totalBytes (xs.flatMap f) = (xs.map fun x ↦ totalBytes (f x)).sum := by
  induction xs with
  | nil => rfl
  | cons x xs ih => rw [List.flatMap_cons, totalBytes_append, ih, List.map_cons, List.sum_cons]

/-- The store levels of a fluid level. -/
def storeLevels (cfg : Config) (db : ColumnFamilyMetaData) (l : ℕ) : Finset ℕ :=
  (Finset.range db.numLevels).filter (cfg.fluidLvl · = l)

/-- The bytes of a fluid level. -/
def levelBytes (cfg : Config) (db : ColumnFamilyMetaData) (l : ℕ) : ℕ :=
  ∑ i ∈ storeLevels cfg db l, totalBytes (db.filesAt i)

/-- The capacity of a level in exact arithmetic. -/
def Config.capacity (cfg : Config) (l : ℕ) : ℕ :=
  cfg.options.writeBufferSize * (cfg.sizeRatio - 1) * cfg.sizeRatio ^ l

theorem Config.capacity_succ (cfg : Config) (l : ℕ) :
    cfg.capacity (l + 1) = cfg.capacity l * cfg.sizeRatio := by
  rw [capacity, capacity, pow_succ, ← Nat.mul_assoc]

/-- What the source converts to a `long` is the capacity when nothing is rounded. -/
theorem Config.originLvlCapacity_exactOps {cfg : Config} (hT : 1 ≤ cfg.sizeRatio)
    (overflow : ℚ → ℤ) (l : ℕ) : cfg.originLvlCapacity (.exactOps overflow) l
      = (DoubleArith.exactOps overflow).toLong (cfg.capacity l) := by
  have hne : (cfg.sizeRatio : ℚ) ≠ 0 := by
    rw [Nat.cast_ne_zero]
    omega
  have hval : (cfg.options.writeBufferSize * (cfg.sizeRatio : ℚ) ^ (l + 1)
      * ((cfg.sizeRatio : ℚ) - 1) / cfg.sizeRatio) = (cfg.capacity l : ℚ) := by
    rw [capacity]
    push_cast [Nat.cast_sub hT]
    field_simp
    ring
  rw [← hval]
  rfl

/-- With exact operations a capacity below `2 ^ 63` is computed exactly. -/
theorem Config.originLvlCapacity_of_lt {cfg : Config} (hT : 1 ≤ cfg.sizeRatio) (overflow : ℚ → ℤ)
    {l : ℕ} (h : cfg.capacity l < 2 ^ 63) :
    cfg.originLvlCapacity (.exactOps overflow) l = cfg.capacity l := by
  rw [originLvlCapacity_exactOps hT, DoubleArith.toLong_natCast _ (IntType.inRange_long_natCast h)]

/-- Where a `long` has every integer, each capacity is. -/
theorem Config.originLvlCapacity_exact {cfg : Config} (hT : 1 ≤ cfg.sizeRatio) (l : ℕ) :
    cfg.originLvlCapacity .exact l = cfg.capacity l := by
  rw [DoubleArith.exact, originLvlCapacity_exactOps hT]
  exact DoubleArith.toLong_exact_natCast _

/-! ## The size test -/

/-- The size test of a level with `n` bytes is right: where these exceed the capacity, they do so as
a `long`, too. -/
def Config.SizeTestRight (cfg : Config) (l n : ℕ) : Prop :=
  cfg.capacity l < n → (cfg.capacity l : ℤ) < IntType.long.wrap n

instance (cfg : Config) (l n : ℕ) : Decidable (cfg.SizeTestRight l n) :=
  inferInstanceAs (Decidable (_ → _))

theorem lt_of_lt_wrap {c n : ℕ} (h : (c : ℤ) < IntType.long.wrap n) : c < n := by
  have hleast : IntType.long.least ≤ (n : ℤ) := le_trans (by decide) (Int.natCast_nonneg n)
  exact_mod_cast h.trans_le (IntType.wrap_le_self hleast)

theorem Config.SizeTestRight.lt_wrap_iff {cfg : Config} {l n : ℕ} (h : cfg.SizeTestRight l n) :
    (cfg.capacity l : ℤ) < IntType.long.wrap n ↔ cfg.capacity l < n :=
  ⟨lt_of_lt_wrap, h⟩

theorem Config.sizeTestRight_of_lt (cfg : Config) (l : ℕ) {n : ℕ} (h : n < 2 ^ 63) :
    cfg.SizeTestRight l n := by
  intro hlt
  rw [IntType.wrap_of_inRange (IntType.inRange_long_natCast h)]
  exact_mod_cast hlt

section

variable {cfg : Config} {fp : DoubleArith} {db db₀ : ColumnFamilyMetaData} {task : CompactionTask}
  {fresh outputs : List SstFileMetaData} {l : ℕ}

theorem mem_storeLevels {i : ℕ} :
    i ∈ storeLevels cfg db l ↔ i < db.numLevels ∧ cfg.fluidLvl i = l := by
  rw [storeLevels, Finset.mem_filter, Finset.mem_range]

theorem totalBytes_flatMap_levels (db : ColumnFamilyMetaData) (l : ℕ) :
    totalBytes (((List.range db.numLevels).filter (cfg.fluidLvl · = l)).flatMap db.filesAt)
      = levelBytes cfg db l := by
  rw [totalBytes_flatMap, ← List.sum_toFinset _ (List.nodup_range.filter _), List.toFinset_filter,
    List.toFinset_range, levelBytes, storeLevels]
  simp

theorem totalBytes_idleFilesAt (hstore : StoreInv cfg db) (l : ℕ) :
    totalBytes ((fluidView cfg db).idleFilesAt l) = levelBytes cfg db l := by
  rw [idleFilesAt_fluidView hstore.two_le hstore.levels hstore.unmarked,
    files_fluidView hstore.two_le hstore.levels, totalBytes_flatMap_levels]

theorem Picked.target_eq (h : Picked cfg fp db task) (hstore : StoreInv cfg db) :
    task.targetLvl = if cfg.originLvlCapacity fp task.originLvl
        < IntType.long.wrap (levelBytes cfg db task.originLvl)
      then task.originLvl + 1 else task.originLvl := by
  rw [h.target, plannedTargetLvl, toConfig_fluidView, ← totalBytes, totalBytes_idleFilesAt hstore]

/-- **The size test in exact arithmetic.** What is promoted is larger than the capacity. -/
theorem Picked.target_cases (h : Picked cfg .exact db task) (hstore : StoreInv cfg db)
    (hT : 1 ≤ cfg.sizeRatio) :
    task.targetLvl = task.originLvl + 1 ∧ cfg.capacity task.originLvl
        < levelBytes cfg db task.originLvl
      ∨ task.targetLvl = task.originLvl := by
  have htarget := h.target_eq hstore
  rw [Config.originLvlCapacity_exact hT] at htarget
  split_ifs at htarget with hsize
  · exact Or.inl ⟨htarget, lt_of_lt_wrap hsize⟩
  · exact Or.inr htarget

/-- The task is a promotion exactly when its `n` bytes exceed the capacity of its level. -/
def WellSized (cfg : Config) (task : CompactionTask) (n : ℕ) : Prop :=
  task.targetLvl = task.originLvl + 1 ∧ cfg.capacity task.originLvl < n
    ∨ task.targetLvl = task.originLvl ∧ n ≤ cfg.capacity task.originLvl

/-- Where the capacity is computed exactly and the size test is right, the task is well sized. -/
theorem Picked.wellSized (h : Picked cfg fp db task) (hstore : StoreInv cfg db)
    (hcapacity : cfg.originLvlCapacity fp task.originLvl = cfg.capacity task.originLvl)
    (hright : cfg.SizeTestRight task.originLvl (levelBytes cfg db task.originLvl)) :
    WellSized cfg task (levelBytes cfg db task.originLvl) := by
  have htarget := h.target_eq hstore
  rw [hcapacity] at htarget
  split_ifs at htarget with hsize
  · exact Or.inl ⟨htarget, hright.lt_wrap_iff.mp hsize⟩
  · exact Or.inr ⟨htarget, not_lt.mp fun hlt ↦ hsize (hright hlt)⟩

/-- The inputs of a task are all files its origin level had when it was picked. -/
theorem InFlight.inputs_eq (h : InFlight cfg fp db task db₀ fresh) (hstore : StoreInv cfg db) :
    db.inputs task
      = ((List.range db₀.numLevels).filter (cfg.fluidLvl · = task.originLvl)).flatMap
          db₀.filesAt := by
  have htaken : ∀ i, (db.filesAt i).filter (·.name ∈ task.inputFileNames)
      = if cfg.fluidLvl i = task.originLvl then db₀.filesAt i else [] := by
    intro i
    have hold := (h.picked.filter_filesAt (h.store hstore) i).1
    rcases Nat.eq_zero_or_pos i with rfl | hi
    · rw [h.top, List.filter_append, hold,
        List.filter_eq_nil_iff.mpr fun f hf ↦ by simpa using h.fresh_names f hf, List.nil_append]
    · rw [h.below i hi.ne', hold]
  rw [ColumnFamilyMetaData.inputs, allFiles, levels_eq_map db, List.flatMap_map,
    List.filter_flatMap, h.levels]
  generalize List.range db.numLevels = levels
  induction levels with
  | nil => rfl
  | cons i levels ih =>
    rw [List.flatMap_cons, ih, htaken, List.filter_cons]
    by_cases hi : cfg.fluidLvl i = task.originLvl <;> simp [hi]

theorem InFlight.totalBytes_inputs (h : InFlight cfg fp db task db₀ fresh)
    (hstore : StoreInv cfg db) :
    totalBytes (db.inputs task) = levelBytes cfg db₀ task.originLvl := by
  rw [h.inputs_eq hstore, totalBytes_flatMap_levels]

/-! ## Bytes along a run -/

theorem levelBytes_congr {db' : ColumnFamilyMetaData} (hlevels : db'.numLevels = db.numLevels)
    (hfiles : ∀ i, i ≠ 0 → db'.filesAt i = db.filesAt i) (hl : 0 < l) :
    levelBytes cfg db' l = levelBytes cfg db l := by
  rw [levelBytes, levelBytes, storeLevels, storeLevels, hlevels]
  refine Finset.sum_congr rfl fun i hi ↦ ?_
  rw [hfiles i (Config.ne_zero_of_fluidLvl_pos ((Finset.mem_filter.mp hi).2 ▸ hl))]

/-- Below the top, the bytes of a level are those the task was picked on. -/
theorem InFlight.levelBytes_eq (h : InFlight cfg fp db task db₀ fresh) (hl : 0 < l) :
    levelBytes cfg db₀ l = levelBytes cfg db l :=
  levelBytes_congr h.levels (fun i hi ↦ (h.below i hi).symm) hl

theorem levelBytes_addFlushed (file : SstFileMetaData) (hl : 0 < l) :
    levelBytes cfg (db.addFlushed file) l = levelBytes cfg db l :=
  levelBytes_congr (numLevels_addFlushed file) (fun _ hi ↦ filesAt_addFlushed_of_ne hi file) hl

/-- **A success moves bytes.** The origin level is emptied, and the outputs are added to the level
written to. -/
theorem InFlight.levelBytes_replaceFiles (h : InFlight cfg fp db task db₀ fresh)
    (outputs : List SstFileMetaData) (hstore : StoreInv cfg db)
    (hout : task.outputLvl < db.numLevels) (hl : 0 < l) :
    levelBytes cfg (db.replaceFiles task.inputFileNames task.outputLvl outputs) l
      = (if l = task.originLvl then 0 else levelBytes cfg db l)
        + if l = task.targetLvl then totalBytes outputs else 0 := by
  have hlvl := (h.landing hstore).fluidLvl_outputLvl
  have hnew : ∀ i ∈ storeLevels cfg db l,
      totalBytes ((db.replaceFiles task.inputFileNames task.outputLvl outputs).filesAt i)
        = (if l = task.originLvl then 0 else totalBytes (db.filesAt i))
          + if i = task.outputLvl then totalBytes outputs else 0 := by
    intro i hi
    have hil := (mem_storeLevels.mp hi).2
    have hi0 := Config.ne_zero_of_fluidLvl_pos (hil ▸ hl)
    rw [h.filesAt_replaceFiles hstore hout, if_neg hi0, List.nil_append, totalBytes_append, hil,
      h.below i hi0]
    split_ifs <;> rfl
  rw [levelBytes, storeLevels, numLevels_replaceFiles, ← storeLevels, Finset.sum_congr rfl hnew,
    Finset.sum_add_distrib, Finset.sum_ite_eq']
  congr 1
  · split_ifs
    · exact Finset.sum_const_zero
    · rfl
  · have hmem : task.outputLvl ∈ storeLevels cfg db l ↔ l = task.targetLvl := by
      rw [mem_storeLevels, hlvl]
      exact ⟨fun hmem ↦ hmem.2.symm, fun heq ↦ ⟨hout, heq.symm⟩⟩
    simp only [hmem]

end

/-! ## Size-preserving runs -/

/-- An insert-only workload: outputs are as large as the files they replace. -/
def SizePreserving (s : TreeState) : TreeEvent → Prop
  | .compact task (.success outputs) => totalBytes outputs = totalBytes (s.db.inputs task)
  | _ => True

instance (s : TreeState) : ∀ e, Decidable (SizePreserving s e)
  | .flush _ => .isTrue trivial
  | .compact _ (.success _) => inferInstanceAs (Decidable (_ = _))
  | .compact _ (.failure _) => .isTrue trivial

/-- What the store promises under an insert-only workload. -/
def InsertOnly (s : TreeState) (e : TreeEvent) : Prop := Promised s e ∧ SizePreserving s e

instance (s : TreeState) (e : TreeEvent) : Decidable (InsertOnly s e) :=
  inferInstanceAs (Decidable (_ ∧ _))

theorem treeInv_of_insertOnly {cfg : Config} {fp : DoubleArith} (hlev : 2 ≤ cfg.options.numLevels)
    {h : List TreeEvent} {s : TreeState} (hrun : (treeSystem cfg fp).Run InsertOnly h s) :
    TreeInv cfg fp s :=
  treeInv_of_run hlev (hrun.mono fun _ _ ↦ And.left)

end WorkloadAwareCompaction
