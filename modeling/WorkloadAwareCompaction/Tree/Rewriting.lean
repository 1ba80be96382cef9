import WorkloadAwareCompaction.Tree.Selection

/-!
# Rewriting inside a level is bounded

A merge whose target is its own level rewrites data without moving it. It happens only while the
level fits its capacity `c * T`, where `c` is the capacity of the level above. Every run that enters
the level brings more than `c` bytes, and a merge needs more than `Z` runs and leaves one. So if `r`
runs are present after `j` merges since the level was last emptied, its size exceeds
`(r + j * Z) * c`: a merge exchanges `Z` runs for one more unit of `j`. The capacity test of the
next merge then bounds `j`.

The argument needs a size test that is right. A pick on bytes that wrap as a `long` merges a level
that has outgrown its capacity, and the bound fails (`not_rewrites_lt_small`). So the result is about
the runs on which every pick meets sizes that fit (`SizesFit`).
-/

namespace WorkloadAwareCompaction

open FluidLSM ColumnFamilyMetaData MachineInt

namespace TreeEvent

/-- A successful compaction of level `l` into level `target`. -/
def moves (l target : ℕ) : TreeEvent → Bool
  | compact task (.success _) => task.originLvl = l ∧ task.targetLvl = target
  | _ => false

/-- A successful promotion out of level `l`. -/
def promotes (l : ℕ) (e : TreeEvent) : Bool := e.moves l (l + 1)

/-- A successful compaction inside level `l`. -/
def rewrites (l : ℕ) (e : TreeEvent) : Bool := e.moves l l

end TreeEvent

/-- The compactions inside level `l` since its last promotion. -/
def rewritesSincePromotion (l : ℕ) (h : List TreeEvent) : ℕ :=
  (h.takeWhile fun e ↦ !e.promotes l).countP fun e ↦ e.rewrites l

theorem rewritesSincePromotion_cons (l : ℕ) (e : TreeEvent) (h : List TreeEvent) :
    rewritesSincePromotion l (e :: h)
      = if e.promotes l then 0 else rewritesSincePromotion l h + (e.rewrites l).toNat := by
  rw [rewritesSincePromotion, List.takeWhile_cons]
  cases hpromote : e.promotes l
  · rw [if_pos (by rfl), if_neg (by decide), List.countP_cons, rewritesSincePromotion]
    cases e.rewrites l <;> rfl
  · rfl

/-- The state of level `l` after `j` merges inside it. -/
structure RewriteInv (cfg : Config) (db : ColumnFamilyMetaData) (l j : ℕ) : Prop where
  rewrites_lt : cfg.largerLvlRunsCount * j < cfg.sizeRatio - 1
  /-- The level is empty, or larger than its runs and merges account for. -/
  bytes : j = 0 ∧ occupiedLevels cfg db l = ∅
    ∨ ((occupiedLevels cfg db l).card + j * cfg.largerLvlRunsCount) * cfg.capacity (l - 1)
        < levelBytes cfg db l

section

variable {cfg : Config} {fp : DoubleArith} {db db₀ db' : ColumnFamilyMetaData}
  {task : CompactionTask} {fresh outputs : List SstFileMetaData} {l j : ℕ}

theorem InFlight.occupiedLevels_eq (h : InFlight cfg fp db task db₀ fresh) (l : ℕ) :
    occupiedLevels cfg db₀ l = occupiedLevels cfg db l :=
  occupiedLevels_congr (fun i hi ↦ (h.below i hi).symm) l

/-- A success leaves at most one run behind on the levels it touches. -/
theorem InFlight.card_occupiedLevels_replaceFiles (h : InFlight cfg fp db task db₀ fresh)
    (outputs : List SstFileMetaData) (hstore : StoreInv cfg db)
    (hout : task.outputLvl < db.numLevels) (l : ℕ) :
    (occupiedLevels cfg (db.replaceFiles task.inputFileNames task.outputLvl outputs) l).card
      ≤ (if l = task.originLvl then 0 else (occupiedLevels cfg db l).card)
        + if l = task.targetLvl then 1 else 0 := by
  have hsub : occupiedLevels cfg (db.replaceFiles task.inputFileNames task.outputLvl outputs) l
      ⊆ (if l = task.originLvl then ∅ else occupiedLevels cfg db l)
        ∪ if l = task.targetLvl then {task.outputLvl} else ∅ := by
    intro i hi
    obtain ⟨hi1, hlvl, hne⟩ := mem_occupiedLevels.mp hi
    rw [h.filesAt_replaceFiles hstore hout, if_neg (by omega), List.nil_append, hlvl] at hne
    rw [Finset.mem_union]
    by_cases hiout : i = task.outputLvl
    · have htarget := (h.landing hstore).fluidLvl_outputLvl
      rw [← hiout, hlvl] at htarget
      rw [if_pos htarget, Finset.mem_singleton]
      exact Or.inr hiout
    · rw [if_neg hiout, List.append_nil] at hne
      split_ifs at hne with horigin
      · exact absurd rfl hne
      · rw [if_neg horigin]
        exact Or.inl (mem_occupiedLevels.mpr ⟨hi1, hlvl, by rwa [h.below i (by omega)]⟩)
  refine (Finset.card_le_card hsub).trans ((Finset.card_union_le _ _).trans ?_)
  split_ifs <;> simp

/-- A merge inside a level below the top takes more than `Z` runs. -/
theorem Picked.runs_lt (h : Picked cfg fp db task) (hstore : StoreInv cfg db)
    (hZK : cfg.largerLvlRunsCount ≤ cfg.smallerLvlRunsCount) (horigin : 0 < task.originLvl) :
    cfg.largerLvlRunsCount < (occupiedLevels cfg db task.originLvl).card := by
  have hover := h.deepest.1
  rw [overBound_eq_true, toConfig_fluidView,
    numLiveRunsAt_fluidView hstore.two_le hstore.levels hstore.unmarked, if_neg horigin.ne',
    Nat.zero_add] at hover
  omega

/-- A level left empty starts afresh. -/
theorem RewriteInv.of_empty (hT : 2 ≤ cfg.sizeRatio) (hempty : occupiedLevels cfg db l = ∅) :
    RewriteInv cfg db l 0 where
  rewrites_lt := by omega
  bytes := Or.inl ⟨rfl, hempty⟩

/-- A level whose runs do not grow in number and whose bytes stay. -/
theorem RewriteInv.keep (h : RewriteInv cfg db l j)
    (hcard : (occupiedLevels cfg db' l).card ≤ (occupiedLevels cfg db l).card)
    (hbytes : levelBytes cfg db' l = levelBytes cfg db l) : RewriteInv cfg db' l j where
  rewrites_lt := h.rewrites_lt
  bytes := by
    rw [hbytes]
    rcases h.bytes with ⟨hj, hempty⟩ | hlarge
    · rw [hempty, Finset.card_empty, Nat.le_zero, Finset.card_eq_zero] at hcard
      exact Or.inl ⟨hj, hcard⟩
    · exact Or.inr ((Nat.mul_le_mul_right _ (Nat.add_le_add_right hcard _)).trans_lt hlarge)

/-- A run larger than the capacity of the level above arrives. -/
theorem RewriteInv.enter {size : ℕ} (h : RewriteInv cfg db l j)
    (hcard : (occupiedLevels cfg db' l).card ≤ (occupiedLevels cfg db l).card + 1)
    (hbytes : levelBytes cfg db' l = levelBytes cfg db l + size)
    (hbar : cfg.capacity (l - 1) < size) : RewriteInv cfg db' l j where
  rewrites_lt := h.rewrites_lt
  bytes := by
    have hunits : (occupiedLevels cfg db' l).card + j * cfg.largerLvlRunsCount
        ≤ (occupiedLevels cfg db l).card + j * cfg.largerLvlRunsCount + 1 := by omega
    refine Or.inr ((Nat.mul_le_mul_right _ hunits).trans_lt ?_)
    rw [hbytes, Nat.add_mul _ 1, Nat.one_mul]
    rcases h.bytes with ⟨rfl, hempty⟩ | hlarge
    · rw [hempty, Finset.card_empty, Nat.zero_mul, Nat.zero_mul]
      omega
    · omega

/-- A merge in place: more than `Z` runs become one, and the level still fits its capacity. The `Z`
runs that are gone pay for the merge, and the capacity bounds what can be paid. -/
theorem RewriteInv.merge (h : RewriteInv cfg db l j) (hl : 0 < l)
    (hruns : cfg.largerLvlRunsCount < (occupiedLevels cfg db l).card)
    (hfits : levelBytes cfg db l ≤ cfg.capacity l)
    (hcard : (occupiedLevels cfg db' l).card ≤ 1)
    (hbytes : levelBytes cfg db' l = levelBytes cfg db l) : RewriteInv cfg db' l (j + 1) := by
  have hlarge : ((occupiedLevels cfg db l).card + j * cfg.largerLvlRunsCount)
      * cfg.capacity (l - 1) < levelBytes cfg db l := by
    refine h.bytes.resolve_left fun hempty ↦ ?_
    rw [hempty.2, Finset.card_empty] at hruns
    exact absurd hruns (Nat.not_lt_zero _)
  have hunits : 1 + (j + 1) * cfg.largerLvlRunsCount
      ≤ (occupiedLevels cfg db l).card + j * cfg.largerLvlRunsCount := by
    rw [Nat.add_mul]
    omega
  have hless : (1 + (j + 1) * cfg.largerLvlRunsCount) * cfg.capacity (l - 1)
      < levelBytes cfg db l := (Nat.mul_le_mul_right _ hunits).trans_lt hlarge
  refine ⟨?_, Or.inr ?_⟩
  · -- The capacity of the level is `T` times that of the level above; cancel the latter.
    have hcap : cfg.capacity l = cfg.sizeRatio * cfg.capacity (l - 1) := by
      rw [Nat.mul_comm, ← Config.capacity_succ, Nat.sub_add_cancel hl]
    have hlt := Nat.lt_of_mul_lt_mul_right (hless.trans_le (hcap ▸ hfits))
    rw [Nat.mul_comm]
    omega
  · rw [hbytes]
    exact (Nat.mul_le_mul_right _ (Nat.add_le_add_right hcard _)).trans_lt hless

/-- **What a success does to a level.** -/
theorem InFlight.rewriteInv (h : InFlight cfg fp db task db₀ fresh) (hstore : StoreInv cfg db)
    (hsized : WellSized cfg task (totalBytes (db.inputs task))) (hT : 2 ≤ cfg.sizeRatio)
    (hZK : cfg.largerLvlRunsCount ≤ cfg.smallerLvlRunsCount)
    (hout : task.outputLvl < db.numLevels)
    (hsize : totalBytes outputs = totalBytes (db.inputs task)) (hl : 0 < l)
    (hinv : RewriteInv cfg db l j) :
    RewriteInv cfg (db.replaceFiles task.inputFileNames task.outputLvl outputs) l
      (if task.originLvl = l ∧ task.targetLvl = l + 1 then 0
        else j + if task.originLvl = l ∧ task.targetLvl = l then 1 else 0) := by
  have hcard := h.card_occupiedLevels_replaceFiles outputs hstore hout l
  have hbytes := h.levelBytes_replaceFiles outputs hstore hout hl
  rw [hsize, h.totalBytes_inputs hstore] at hbytes
  rw [h.totalBytes_inputs hstore] at hsized
  by_cases horigin : task.originLvl = l
  · rcases hsized with ⟨hnext, -⟩ | ⟨hstay, hfits⟩
    · -- The level is promoted: it is empty now.
      rw [if_pos horigin.symm, if_neg (by omega), Nat.add_zero, Nat.le_zero,
        Finset.card_eq_zero] at hcard
      rw [if_pos ⟨horigin, by omega⟩]
      exact .of_empty hT hcard
    · -- The level is merged in place.
      have hruns := h.picked.runs_lt (h.store hstore) hZK (by omega)
      rw [h.occupiedLevels_eq, horigin] at hruns
      rw [horigin, h.levelBytes_eq hl] at hfits
      rw [if_pos horigin.symm, if_pos (by omega), horigin, h.levelBytes_eq hl, Nat.zero_add]
        at hbytes
      rw [if_pos horigin.symm, if_pos (by omega), Nat.zero_add] at hcard
      rw [if_neg (by omega), if_pos ⟨horigin, by omega⟩]
      exact hinv.merge hl hruns hfits hcard hbytes
  · rw [if_neg (by tauto), if_neg (by tauto), Nat.add_zero]
    rw [if_neg (Ne.symm horigin)] at hcard hbytes
    by_cases htarget : l = task.targetLvl
    · -- The level above is promoted into this one.
      obtain ⟨hnext, hover⟩ := hsized.resolve_right fun hstay ↦ horigin (by omega)
      rw [if_pos htarget] at hcard hbytes
      refine hinv.enter hcard hbytes ?_
      rwa [htarget, hnext, Nat.add_sub_cancel]
    · rw [if_neg htarget, Nat.add_zero] at hcard hbytes
      exact hinv.keep hcard hbytes

/-! ## Runs on which the sizes fit -/

/-- A flush that finds no compaction under way meets a size test that is right. For the deepest
over-full level the capacity is computed exactly, and exceeded by the idle bytes as a `long` where
it is exceeded by them. -/
def SizesFit (cfg : Config) (fp : DoubleArith) (s : TreeState) : TreeEvent → Prop
  | .flush file => s.tree.parallelCompactionsRunning = 0 →
      ∀ l, DeepestOverFull cfg (s.db.addFlushed file) l →
        cfg.originLvlCapacity fp l = cfg.capacity l
          ∧ cfg.SizeTestRight l (totalBytes (idleFiles cfg (s.db.addFlushed file) l))
  | .compact _ _ => True

instance (cfg : Config) (fp : DoubleArith) (s : TreeState) : ∀ e, Decidable (SizesFit cfg fp s e)
  | .flush file => decidable_of_iff (s.tree.parallelCompactionsRunning = 0 →
      ∀ l < largestOccupied cfg (s.db.addFlushed file) + 1,
        DeepestOverFull cfg (s.db.addFlushed file) l →
          cfg.originLvlCapacity fp l = cfg.capacity l
            ∧ cfg.SizeTestRight l (totalBytes (idleFiles cfg (s.db.addFlushed file) l)))
      ⟨fun h hidle l hl ↦ h hidle l (Nat.lt_succ_of_le hl.overFull.le_largestOccupied) hl,
        fun h hidle l _ ↦ h hidle l⟩
  | .compact _ _ => .isTrue trivial

theorem totalBytes_idleFiles_le (cfg : Config) (db : ColumnFamilyMetaData) (l : ℕ) :
    totalBytes (idleFiles cfg db l) ≤ totalBytes db.allFiles := by
  have hlevels : List.Sublist
      (((List.range db.numLevels).filter (cfg.fluidLvl · = l)).flatMap db.filesAt) db.allFiles := by
    rw [allFiles, levels_eq_map db, List.flatMap_map]
    exact List.filter_sublist.flatMap _
  exact ((List.filter_sublist.trans hlevels).map _).sum_le_sum fun _ _ ↦ Nat.zero_le _

/-- In exact arithmetic the sizes fit as long as the store and the capacity of the level are smaller
than `2 ^ 63` bytes. -/
theorem sizesFit_of_lt (hT : 1 ≤ cfg.sizeRatio) (overflow : ℚ → ℤ) {s : TreeState}
    {file : SstFileMetaData} (hstore : totalBytes (s.db.addFlushed file).allFiles < 2 ^ 63)
    (hcapacity : ∀ l, DeepestOverFull cfg (s.db.addFlushed file) l → cfg.capacity l < 2 ^ 63) :
    SizesFit cfg (.exactOps overflow) s (.flush file) :=
  fun _ l hl ↦ ⟨Config.originLvlCapacity_of_lt hT overflow (hcapacity l hl),
    cfg.sizeTestRight_of_lt l ((totalBytes_idleFiles_le cfg _ l).trans_lt hstore)⟩

/-- **The step lemma.** A task is well sized when it is scheduled, and keeps its inputs from then on.
-/
theorem TreeInv.wellSized_step {s s' : TreeState} {e : TreeEvent} (h : TreeInv cfg fp s)
    (hp : Promised s e) (hfit : SizesFit cfg fp s e) (hs : s.step fp e = some s')
    (hsized : ∀ task ∈ s.tasks, WellSized cfg task (totalBytes (s.db.inputs task))) :
    ∀ task ∈ s'.tasks, WellSized cfg task (totalBytes (s'.db.inputs task)) := by
  obtain ⟨hinv', hstep⟩ := h.step hp hs
  cases hstep with
  | rest _ htasks' _ _ | success _ htasks' _ _ | failure _ htasks' _ => simp [htasks']
  | @schedule file task htasks htasks' hdb' hpicked =>
    have hstore := hinv'.store
    have hbytes := hpicked.inFlight.totalBytes_inputs hstore
    have hidle : s.tree.parallelCompactionsRunning = 0 := by rw [h.coherent.running, htasks]; rfl
    have hdeepest :=
      (deepestOverBound_fluidView_iff hstore.two_le hstore.levels _).mp hpicked.deepest
    obtain ⟨hcapacity, hright⟩ := hfit hidle _ (hdb' ▸ hdeepest)
    rw [← hdb', ← idleFilesAt_fluidView_eq hstore.two_le hstore.levels,
      totalBytes_idleFilesAt hstore] at hright
    rw [htasks', List.forall_mem_singleton, hbytes]
    exact hpicked.wellSized hstore hcapacity hright
  | overlap htasks htasks' hdb' =>
    rw [htasks', ← htasks, hdb']
    intro task htask
    obtain ⟨db₀, fresh, hflight⟩ := h.flight task htask
    have hflight' := hflight.addFlushed h.store hp.2.1
    have hbytes := hflight'.totalBytes_inputs (h.store.addFlushed hp.1 hp.2.1)
    rw [hbytes, ← hflight.totalBytes_inputs h.store]
    exact hsized task htask

/-- **The run lemma.** -/
theorem wellSized_of_run (hlev : 2 ≤ cfg.options.numLevels) {h : List TreeEvent} {s : TreeState}
    (hrun : (treeSystem cfg fp).Run (fun s e ↦ InsertOnly s e ∧ SizesFit cfg fp s e) h s) :
    ∀ task ∈ s.tasks, WellSized cfg task (totalBytes (s.db.inputs task)) := by
  refine hrun.invariant
    (I := fun _ s ↦ ∀ task ∈ s.tasks, WellSized cfg task (totalBytes (s.db.inputs task))) ?_ ?_
  · exact fun task htask ↦ absurd htask List.not_mem_nil
  · intro h s e s' hrun hsized hp hs
    have htree := treeInv_of_insertOnly hlev (hrun.mono fun _ _ ↦ And.left)
    exact htree.wellSized_step hp.1.1 hp.2 hs hsized

/-- **Bounded rewriting.** On every run of an insert-only workload on which the sizes fit, the
compactions inside a level below the top since its last promotion number less than `(T - 1) / Z`. -/
theorem rewrites_lt_of_run (hlev : 2 ≤ cfg.options.numLevels) (hT : 2 ≤ cfg.sizeRatio)
    (hZK : cfg.largerLvlRunsCount ≤ cfg.smallerLvlRunsCount) {h : List TreeEvent} {s : TreeState}
    (hrun : (treeSystem cfg fp).Run (fun s e ↦ InsertOnly s e ∧ SizesFit cfg fp s e) h s) (l : ℕ)
    (hl : 1 ≤ l) :
    cfg.largerLvlRunsCount * rewritesSincePromotion l h < cfg.sizeRatio - 1 := by
  have hinv : RewriteInv cfg s.db l (rewritesSincePromotion l h) := by
    refine hrun.invariant
      (I := fun h s ↦ RewriteInv cfg s.db l (rewritesSincePromotion l h)) ?_ ?_
    · exact .of_empty hT (Finset.eq_empty_iff_forall_notMem.mpr fun i hi ↦
        (mem_occupiedLevels.mp hi).2.2 (filesAt_empty _ i))
    · intro h s e s' hrun hinv hp hs
      have htree := treeInv_of_insertOnly hlev (hrun.mono fun _ _ ↦ And.left)
      rw [rewritesSincePromotion_cons]
      cases (htree.step hp.1.1 hs).2 with
      | rest _ _ hdb' _ | schedule _ _ hdb' _ | overlap _ _ hdb' =>
        rw [hdb']
        exact hinv.keep (by rw [occupiedLevels_addFlushed]) (levelBytes_addFlushed _ hl)
      | @success task outputs htasks _ hout hdb' =>
        have hmem : task ∈ s.tasks := htasks ▸ List.mem_singleton_self _
        obtain ⟨db₀, fresh, hflight⟩ := htree.flight task hmem
        have hsized := wellSized_of_run hlev hrun task hmem
        have hnext := hflight.rewriteInv htree.store hsized hT hZK hout hp.1.2 hl hinv
        rw [hdb']
        simpa [TreeEvent.promotes, TreeEvent.rewrites, TreeEvent.moves, Bool.toNat,
          Bool.cond_eq_ite] using hnext
      | failure _ _ hdb' =>
        rw [hdb']
        exact hinv
  exact hinv.rewrites_lt

end

/-- With `T = 4` and `K = Z = 1`: two promotions into level 1, and one merge inside it. -/
theorem rewrites_lt_small :
    ∃ h : List TreeEvent, rewritesSincePromotion 1 h = 1
      ∧ Config.largerLvlRunsCount (.small 1 1 6) * rewritesSincePromotion 1 h < 4 - 1 := by
  let flushed (n : ℕ) : TreeEvent := .flush (.flushed (toString n) 2 n)
  let merge : CompactionTask := ⟨["b", "a"], 3, ⟨.noCompression, 1⟩, 1, 1⟩
  let cfg : Config := { Config.small 1 1 6 with sizeRatio := 4 }
  let h : List TreeEvent :=
    [.compact merge (.success [⟨"c", 8, false, {4, 3, 2, 1}⟩]), flushed 5,
      .compact (promoteFlushes [4, 3] 2) (.success [⟨"b", 4, false, {4, 3}⟩]),
      flushed 4, flushed 3,
      .compact (promoteFlushes [2, 1] 3) (.success [⟨"a", 4, false, {2, 1}⟩]),
      flushed 2, flushed 1]
  obtain ⟨s, hrun, -⟩ :=
    StepSystem.exists_run_of_exec
      (M := treeSystem cfg .binary64)
      (P := fun s e ↦ InsertOnly s e ∧ SizesFit cfg .binary64 s e)
      (R := fun s : TreeState ↦ s.tasks = []) (h := h) (by decide +kernel)
  exact ⟨h, by decide, rewrites_lt_of_run (by decide) (by decide) (by decide) hrun 1 le_rfl⟩

/-- With `T = 2` and `K = Z = 1` a level has no room for a merge. But of two runs of `2 ^ 62 + 1`
bytes a `long` has a negative total, and they are merged in place. -/
theorem not_rewrites_lt_small :
    ¬∀ (overflow : ℚ → ℤ) (h : List TreeEvent) (s : TreeState),
      (treeSystem (.small 1 1 6) (.exactOps overflow)).Run InsertOnly h s →
        Config.largerLvlRunsCount (.small 1 1 6) * rewritesSincePromotion 1 h
          < Config.sizeRatio (.small 1 1 6) - 1 := by
  let flushed (n size : ℕ) : TreeEvent := .flush (.flushed (toString n) size n)
  let merge : CompactionTask := ⟨["b", "a"], 3, ⟨.noCompression, 1⟩, 1, 1⟩
  let h : List TreeEvent :=
    [.compact merge (.success [⟨"c", 2 ^ 63 + 2, false, {4, 3, 2, 1}⟩]), flushed 5 1,
      .compact (promoteFlushes [4, 3] 2) (.success [⟨"b", 2 ^ 62 + 1, false, {4, 3}⟩]),
      flushed 4 1, flushed 3 (2 ^ 62),
      .compact (promoteFlushes [2, 1] 3) (.success [⟨"a", 2 ^ 62 + 1, false, {2, 1}⟩]),
      flushed 2 1, flushed 1 (2 ^ 62)]
  obtain ⟨s, hrun, -⟩ :=
    StepSystem.exists_run_of_exec
      (M := treeSystem (.small 1 1 6) (.exactOps fun _ ↦ IntType.long.least)) (P := InsertOnly)
      (R := fun s : TreeState ↦ s.tasks = []) (h := h) (by decide +kernel)
  intro hall
  exact absurd (hall _ h s hrun) (by decide)

end WorkloadAwareCompaction
