import WorkloadAwareCompaction.Tree.Overlap
import WorkloadAwareCompaction.Tree.Recency
import WorkloadAwareCompaction.Tree.Serial

/-!
# Age order under overlapping callbacks

A callback picks on a snapshot of the store, and meanwhile flushes complete and tasks end. Files
flushed since do no harm: a task picked without them is in flight as if they had come later. A
snapshot that a compaction has overtaken is a different matter, and so is a walk that has passed
over a level because its test failed there. Both are harmless as long as the counter stays up, since
no test succeeds then. So all depends on the moment when a task lowers the counter: a flush callback
that still has a test to make must then be at its first one, on a view to which only flushed files
have been added since (`Undisturbed`).

With that, and with the race between test and increment excluded, every interleaving keeps the store
in age order, and the task that is outstanding fits it (`ageCorrect_of_orderly_run`). Callbacks that
do not overlap are a special case (`orderly_of_serial_run`). Nothing in the source sees to the
condition, and it is not an idle one: with a single thread for the callbacks of flushes and no race,
an IO error at the wrong moment lets a callback promote into a full level, underneath older data
(`not_ageOrdered_disturbed`).
-/

namespace WorkloadAwareCompaction

open FluidLSM ColumnFamilyMetaData AgeOrder

/-! ## The store some flushes ago -/

namespace ColumnFamilyMetaData

variable {db : ColumnFamilyMetaData} {k : ℕ}

/-- The store without the `k` newest files of level 0. -/
def dropFlushed (db : ColumnFamilyMetaData) (k : ℕ) : ColumnFamilyMetaData :=
  db.mapFiles fun lvl files ↦ if lvl = 0 then files.drop k else files

@[simp] theorem numLevels_dropFlushed : (db.dropFlushed k).numLevels = db.numLevels :=
  numLevels_mapFiles _

theorem filesAt_dropFlushed_zero : (db.dropFlushed k).filesAt 0 = (db.filesAt 0).drop k := by
  rw [dropFlushed, filesAt_mapFiles_of_nil (by rw [if_pos rfl, List.drop_nil]), if_pos rfl]

theorem filesAt_dropFlushed_of_ne {i : ℕ} (hi : i ≠ 0) :
    (db.dropFlushed k).filesAt i = db.filesAt i := by
  rw [dropFlushed, filesAt_mapFiles_of_nil (by rw [if_neg hi]), if_neg hi]

theorem filesAt_dropFlushed_subset (i : ℕ) : (db.dropFlushed k).filesAt i ⊆ db.filesAt i := by
  rcases Nat.eq_zero_or_pos i with rfl | hi
  · rw [filesAt_dropFlushed_zero]
    exact List.drop_subset _ _
  · rw [filesAt_dropFlushed_of_ne hi.ne']
    exact List.Subset.refl _

@[simp] theorem dropFlushed_zero (db : ColumnFamilyMetaData) : db.dropFlushed 0 = db := by
  obtain ⟨levels, hlevels⟩ := db
  simp [dropFlushed, mapFiles]

/-- A flush later the same store lies one flush further back. -/
theorem dropFlushed_addFlushed (file : SstFileMetaData) :
    (db.addFlushed file).dropFlushed (k + 1) = db.dropFlushed k := by
  simp only [dropFlushed, addFlushed, mapFiles, List.map_map, ColumnFamilyMetaData.mk.injEq]
  refine List.map_congr_left fun level _ ↦ ?_
  rw [Function.comp_apply]
  split_ifs <;> rfl

end ColumnFamilyMetaData

section Store

variable {cfg : Config} {fp : DoubleArith} {db : ColumnFamilyMetaData} {task : CompactionTask}
  {k : ℕ}

theorem StoreInv.dropFlushed (h : StoreInv cfg db) (k : ℕ) : StoreInv cfg (db.dropFlushed k) where
  two_le := by rw [numLevels_dropFlushed]; exact h.two_le
  levels := by rw [numLevels_dropFlushed]; exact h.levels
  unmarked i f hf := h.unmarked i f (filesAt_dropFlushed_subset i hf)
  separated i j f hf g hg :=
    h.separated i j f (filesAt_dropFlushed_subset i hf) g (filesAt_dropFlushed_subset j hg)
  deepFirst := by
    intro i j hi hij hj
    rw [filesAt_dropFlushed_of_ne (by omega), filesAt_dropFlushed_of_ne (by omega)]
    exact h.deepFirst i j hi hij (by rwa [numLevels_dropFlushed] at hj)

/-- **Old news.** A task picked on the store some flushes ago is in flight on the present one. -/
theorem Picked.inFlight_dropFlushed (h : Picked cfg fp (db.dropFlushed k) task)
    (hstore : StoreInv cfg db) (hdistinct : ((db.filesAt 0).map SstFileMetaData.name).Nodup) :
    InFlight cfg fp db task (db.dropFlushed k) ((db.filesAt 0).take k) where
  levels := numLevels_dropFlushed
  top := by rw [filesAt_dropFlushed_zero, List.take_append_drop]
  below i hi := (filesAt_dropFlushed_of_ne hi).symm
  picked := h
  fresh_names := by
    intro f hf hname
    obtain ⟨i, -, g, hg, hgname⟩ := h.exists_of_mem_inputFileNames (hstore.dropFlushed k) hname
    have hzero : i = 0 := hstore.separated i 0 g (filesAt_dropFlushed_subset i hg) f
      (List.mem_of_mem_take hf) hgname
    subst hzero
    -- Among the files of level 0 no name occurs on both sides of the cut.
    rw [filesAt_dropFlushed_zero] at hg
    rw [← List.take_append_drop k (db.filesAt 0), List.map_append] at hdistinct
    exact List.disjoint_of_nodup_append hdistinct (List.mem_map_of_mem hf)
      (hgname ▸ List.mem_map_of_mem hg)

end Store

/-! ## Calls with tests to make -/

/-- The walk of a call that has just rebuilt its view. -/
def Walk.start (cfg : Config) (db : ColumnFamilyMetaData) : Walk where
  view := fluidView cfg db
  largestLvl := (fluidView cfg db).getLargestOccupiedLevel
  next := (fluidView cfg db).getLargestOccupiedLevel + 1

/-- The call is at its first test, and since its rebuild the store has seen flushes only. -/
def Call.UpToDate (cfg : Config) (db : ColumnFamilyMetaData) (call : Call) : Prop :=
  ∃ k < (db.filesAt 0).length + 1, call.pc = .walking (.start cfg (db.dropFlushed k))

instance (cfg : Config) (db : ColumnFamilyMetaData) (call : Call) :
    Decidable (call.UpToDate cfg db) :=
  inferInstanceAs (Decidable (∃ k < _, _))

/-- When a task lowers the counter, no callback of a flush that still has a test to make has passed
over a level or been overtaken by a compaction. -/
def Undisturbed (cfg : Config) (s : World) : WorldEvent → Prop
  | .retire _ => ∀ call ∈ s.calls, call.caller = .onFlushCompleted → call.tests = true →
      call.UpToDate cfg s.db
  | _ => True

instance (cfg : Config) (s : World) : ∀ e, Decidable (Undisturbed cfg s e)
  | .retire _ => inferInstanceAs (Decidable (∀ call ∈ s.calls, _))
  | .flush _ => .isTrue trivial
  | .advance _ => .isTrue trivial
  | .finish _ _ => .isTrue trivial

/-- What is asked of the callbacks, and what the store promises. -/
structure Orderly (cfg : Config) (s : World) (e : WorldEvent) : Prop where
  exclusive : Exclusive s e
  undisturbed : Undisturbed cfg s e
  promised : ∀ e' ∈ e.visible, Promised ⟨s.db, .new cfg, s.queued⟩ e'

instance (cfg : Config) (s : World) (e : WorldEvent) : Decidable (Orderly cfg s e) :=
  decidable_of_iff (Exclusive s e ∧ Undisturbed cfg s e
      ∧ ∀ e' ∈ e.visible, Promised ⟨s.db, .new cfg, s.queued⟩ e')
    ⟨fun h ↦ ⟨h.1, h.2.1, h.2.2⟩, fun h ↦ ⟨h.exclusive, h.undisturbed, h.promised⟩⟩

/-- The task that the call has committed itself to and not enqueued yet. -/
def Call.planned : Call → Option CompactionTask
  | ⟨_, .admitted w targetLvl rocksDBLvl inputFiles⟩ => some
      { inputFileNames := (w.view.reserve inputFiles).2
        outputLvl := rocksDBLvl
        compactOptions := { w.view.compactOptions with outputFileSizeLimit := w.view.fileSize }
        originLvl := w.next
        targetLvl := targetLvl }
  | ⟨_, .reserved _ task⟩ => some task
  | _ => none

/-- The tasks that the store's `CompactFiles` has still to run. -/
def World.planned (s : World) : List CompactionTask := s.queued ++ s.calls.filterMap Call.planned

section Calls

variable {cfg : Config} {fp : DoubleArith} {db db' : ColumnFamilyMetaData} {s s' : World}
  {pc pc' : Pc} {running running' : ℤ} {tasks : List CompactionTask} {task : CompactionTask}

theorem isAdmitted_or_isReserved_of_planned {call : Call} (h : call.planned = some task) :
    call.isAdmitted = true ∨ call.isReserved = true := by
  match call, h with
  | ⟨_, .admitted _ _ _ _⟩, _ => exact .inl rfl
  | ⟨_, .reserved _ _⟩, _ => exact .inr rfl

/-- A flush more does not make a call less up to date. -/
theorem Call.UpToDate.addFlushed {call : Call} (h : call.UpToDate cfg db) (hdb : 0 < db.numLevels)
    (file : SstFileMetaData) : call.UpToDate cfg (db.addFlushed file) := by
  obtain ⟨k, hk, hpc⟩ := h
  refine ⟨k + 1, ?_, by rw [hpc, dropFlushed_addFlushed]⟩
  rw [filesAt_addFlushed_zero hdb, List.length_cons]
  omega

/-- The levels that the walk passes over on its way down are within their bounds. -/
theorem not_overBound_of_nextOverBound {t : FluidLSM} {largestLvl lvl n : ℕ}
    (h : t.nextOverBound largestLvl n = some lvl) {m : ℕ} (hlt : lvl < m) (hm : m < n) :
    t.overBound largestLvl m = false := by
  induction n with
  | zero => exact absurd hm (Nat.not_lt_zero _)
  | succ n ih =>
    rw [nextOverBound] at h
    split_ifs at h with hover
    · obtain rfl := Option.some.inj h
      omega
    · rcases Nat.lt_succ_iff_lt_or_eq.mp hm with hm | rfl
      · exact ih h hm
      · exact eq_false_of_ne_true hover

/-- A walk from its start comes to the deepest level over its bound first. -/
theorem deepestOverBound_of_start {lvl : ℕ}
    (h : (Walk.start cfg db).view.nextOverBound (Walk.start cfg db).largestLvl
      (Walk.start cfg db).next = some lvl) : (fluidView cfg db).DeepestOverBound lvl := by
  refine ⟨overBound_of_nextOverBound h, fun m hm ↦ ?_⟩
  by_contra hover
  rw [Bool.not_eq_false] at hover
  have hwithin := not_overBound_of_nextOverBound h hm (Nat.lt_succ_of_le (le_of_overBound hover))
  exact Bool.false_ne_true (hwithin.symm.trans hover)

/-- **The first test that succeeds picks a task** for the store of the snapshot. -/
theorem Pc.picked_of_start (caller : Caller)
    (h : (Pc.walking (.start cfg db)).step cfg fp db' running = some (pc', running', tasks))
    (hplanned : (Call.mk caller pc').planned = some task) : Picked cfg fp db task := by
  simp only [Pc.step] at h
  cases hnext : (Walk.start cfg db).view.nextOverBound (Walk.start cfg db).largestLvl
      (Walk.start cfg db).next with
  | none =>
    simp only [hnext, Option.some.injEq, Prod.mk.injEq] at h
    obtain ⟨rfl, -⟩ := h
    exact absurd hplanned (by simp [Call.planned])
  | some lvl =>
    simp only [hnext] at h
    split_ifs at h
    · obtain ⟨out, hout, heq⟩ := Option.map_eq_some_iff.mp h
      obtain ⟨rfl, -⟩ := Prod.mk.inj heq
      obtain rfl := Option.some.inj hplanned
      refine ⟨deepestOverBound_of_start hnext, ?_, ?_, hout⟩
      · exact getCompactionTargetLevel_eq _ _ fp
      · obtain ⟨-, -, -, hnames⟩ :=
          reserve_spec (fluidView cfg db) ((fluidView cfg db).addFilesToCompaction lvl [])
        rw [filterMap_deref_addFilesToCompaction] at hnames
        exact hnames
    · obtain ⟨rfl, -⟩ := Prod.mk.inj (Option.some.inj h)
      exact absurd hplanned (by simp [Call.planned])

/-- Whatever a step enqueues or leaves to be enqueued was planned before, unless its test
succeeds. -/
theorem Pc.planned_of_step (caller : Caller)
    (h : pc.step cfg fp db running = some (pc', running', tasks))
    (htask : task ∈ tasks ∨ (Call.mk caller pc').planned = some task) :
    (Call.mk caller pc).planned = some task
      ∨ (Call.mk caller pc').isAdmitted = true ∧ (Call.mk caller pc').planned = some task := by
  obtain ⟨-, -, hreserved, hlength, -⟩ := Pc.step_counts caller h
  rcases htask with hmem | hplanned
  · -- Only a call past its increment enqueues, and it enqueues its plan.
    have hpos := List.length_pos_of_mem hmem
    rw [hlength] at hpos
    match pc, hpos with
    | .reserved w task', _ =>
      obtain ⟨-, heq⟩ := Prod.mk.inj (Option.some.inj h)
      obtain ⟨-, rfl⟩ := Prod.mk.inj heq
      rw [List.mem_singleton.mp hmem]
      exact .inl rfl
  · rcases isAdmitted_or_isReserved_of_planned hplanned with hadmitted | hpast
    · exact .inr ⟨hadmitted, hplanned⟩
    · rw [hreserved] at hpast
      match pc, hpast with
      | .admitted w targetLvl out inputFiles, _ =>
        obtain ⟨rfl, -⟩ := Prod.mk.inj (Option.some.inj h)
        exact .inl hplanned

/-- A call that still has a test to make after a step has just rebuilt its view, or the counter is
raised. -/
theorem Pc.upToDate_of_step (caller : Caller)
    (h : pc.step cfg fp db running = some (pc', running', tasks))
    (htests : (Call.mk caller pc').tests = true) (hreserved : (Call.mk caller pc).isReserved = false)
    (hrunning : running' < 1) : (Call.mk caller pc').UpToDate cfg db := by
  cases pc with
  | entered =>
    obtain ⟨rfl, -⟩ := Prod.mk.inj (Option.some.inj h)
    refine ⟨0, Nat.succ_pos _, ?_⟩
    rw [dropFlushed_zero]
    rfl
  | walking w =>
    simp only [Pc.step] at h
    cases hnext : w.view.nextOverBound w.largestLvl w.next with
    | none =>
      simp only [hnext, Option.some.injEq, Prod.mk.injEq] at h
      obtain ⟨rfl, -⟩ := h
      exact absurd htests (by simp [Call.tests])
    | some lvl =>
      simp only [hnext] at h
      split_ifs at h with hallowed
      · obtain ⟨out, -, heq⟩ := Option.map_eq_some_iff.mp h
        obtain ⟨rfl, -⟩ := Prod.mk.inj heq
        exact absurd htests (by simp [Call.tests])
      · -- The test fails because the counter is raised.
        obtain ⟨-, heq⟩ := Prod.mk.inj (Option.some.inj h)
        obtain ⟨rfl, -⟩ := Prod.mk.inj heq
        exact absurd hrunning hallowed
  | admitted w targetLvl out inputFiles =>
    obtain ⟨rfl, -⟩ := Prod.mk.inj (Option.some.inj h)
    exact absurd htests (by simp [Call.tests])
  | reserved w task => exact absurd hreserved (by simp [Call.isReserved])
  | returned | exited => exact absurd h (by simp [Pc.step])

end Calls

/-! ## The invariant -/

/-- The store, the tasks it has still to run, and the calls that may pick one. -/
structure SnapshotInv (cfg : Config) (fp : DoubleArith) (s : World) : Prop where
  flight : FlightInv s
  store : StoreInv cfg s.db
  distinct : ((s.db.filesAt 0).map SstFileMetaData.name).Nodup
  ordered : AgeOrdered SstFileMetaData.age s.db.filesAt
  planned : ∀ task ∈ s.planned, ∃ db₀ fresh, InFlight cfg fp s.db task db₀ fresh
  /-- Whoever could pick would pick for the present store. -/
  upToDate : s.running < 1 → ∀ call ∈ s.calls, call.caller = .onFlushCompleted →
    call.tests = true → call.UpToDate cfg s.db

/-- What a step does to the metadata. -/
def WorldEvent.effect (db : ColumnFamilyMetaData) : WorldEvent → ColumnFamilyMetaData
  | flush file => db.addFlushed file
  | finish task (.success outputs) => db.replaceFiles task.inputFileNames task.outputLvl outputs
  | finish _ (.failure _) => db
  | advance _ => db
  | retire _ => db

section Invariant

variable {cfg : Config} {fp : DoubleArith} {s s' : World} {e : WorldEvent} {task : CompactionTask}

theorem db_of_step (hs : s.step cfg fp e = some s') : s'.db = e.effect s.db := by
  match e with
  | .flush file =>
    obtain rfl := Option.some.inj hs
    rfl
  | .advance p =>
    cases hcall : s.calls[p]? with
    | none => exact absurd hs (by simp [World.step, hcall])
    | some call =>
      rw [World.step_advance hcall] at hs
      obtain ⟨_, -, rfl⟩ := Option.map_eq_some_iff.mp hs
      rfl
  | .finish task (.success outputs) =>
    simp only [World.step] at hs
    split_ifs at hs
    obtain rfl := Option.some.inj hs
    rfl
  | .finish task (.failure status) =>
    simp only [World.step] at hs
    split_ifs at hs <;>
    · obtain rfl := Option.some.inj hs
      rfl
  | .retire p =>
    simp only [World.step] at hs
    split at hs
    · obtain rfl := Option.some.inj hs
      rfl
    · exact absurd hs (by simp)

theorem outputLvl_lt_of_step {outputs : List SstFileMetaData}
    (hs : s.step cfg fp (.finish task (.success outputs)) = some s') :
    task.outputLvl < s.db.numLevels := by
  simp only [World.step] at hs
  split_ifs at hs with hmem
  exact hmem.2

theorem mem_queued_of_step {outcome : Outcome}
    (hs : s.step cfg fp (.finish task outcome) = some s') : task ∈ s.queued := by
  cases worldStep_of_step hs with
  | finish _ _ hmem _ _ _ => exact hmem

theorem snapshotInv_init (fp : DoubleArith) (hlev : 2 ≤ cfg.options.numLevels) :
    SnapshotInv cfg fp (.init (.empty cfg.options.numLevels)) where
  flight := flightInv_init _
  store := (treeInv_init fp hlev).store
  distinct := by simp [World.init]
  ordered := .of_forall_nil fun i ↦ filesAt_empty _ _
  planned := by simp [World.planned, World.init]
  upToDate := by simp [World.init]

theorem mem_planned_of_mem_calls {call : Call} (hmem : call ∈ s.calls)
    (h : call.planned = some task) : task ∈ s.planned :=
  List.mem_append_right _ (List.mem_filterMap.mpr ⟨call, hmem, h⟩)

/-- Where one call has moved, something planned was planned before or comes from that call. -/
theorem mem_planned_of_set {p : ℕ} {call : Call} {tasks : List CompactionTask}
    (hcalls : s'.calls = s.calls.set p call) (hqueued : s'.queued = s.queued ++ tasks)
    (h : task ∈ s'.planned) : task ∈ s.planned ∨ task ∈ tasks ∨ call.planned = some task := by
  rw [World.planned, hqueued, hcalls, List.mem_append, List.mem_append] at h
  rcases h with (hold | hnew) | hcalled
  · exact .inl (List.mem_append_left _ hold)
  · exact .inr (.inl hnew)
  · obtain ⟨other, hmem, hplanned⟩ := List.mem_filterMap.mp hcalled
    rcases List.mem_or_eq_of_mem_set hmem with hold | rfl
    · exact .inl (mem_planned_of_mem_calls hold hplanned)
    · exact .inr (.inr hplanned)

/-- While a task is unfinished nothing else is planned. -/
theorem FlightInv.planned_eq_nil (h : FlightInv s) {call : Call} (hcall : call ∈ s.calls)
    (hunfinished : call.isUnfinished = true) : s.planned = [] := by
  have hbounded := h.bounded
  rw [World.length_outstanding] at hbounded
  have hpos : 0 < s.calls.countP Call.isUnfinished := List.countP_pos_iff.mpr ⟨_, hcall, hunfinished⟩
  have hqueued : s.queued = [] := List.length_eq_zero_iff.mp (by omega)
  have hadmitted : s.calls.countP Call.isAdmitted = 0 := by omega
  have hreserved : s.calls.countP Call.isReserved = 0 := by omega
  rw [World.planned, hqueued, List.nil_append, List.filterMap_eq_nil_iff]
  intro other hother
  by_contra hplanned
  obtain ⟨task, htask⟩ := Option.ne_none_iff_exists'.mp hplanned
  rcases isAdmitted_or_isReserved_of_planned htask with h | h
  · exact List.countP_eq_zero.mp hadmitted other hother h
  · exact List.countP_eq_zero.mp hreserved other hother h

/-- While something is enqueued or about to be, the counter is raised. -/
theorem FlightInv.running_pos (h : FlightInv s)
    (hpos : 0 < s.calls.countP Call.isReserved + s.outstanding.length) : ¬s.running < 1 := by
  have hcounted := h.counted
  omega

theorem FlightInv.running_pos_of_mem_queued (h : FlightInv s) (hmem : task ∈ s.queued) :
    ¬s.running < 1 := by
  refine h.running_pos ?_
  have := List.length_pos_of_mem hmem
  rw [World.length_outstanding]
  omega

theorem SnapshotInv.inFlight (h : SnapshotInv cfg fp s) (hmem : task ∈ s.queued) :
    ∃ db₀ fresh, InFlight cfg fp s.db task db₀ fresh :=
  h.planned task (List.mem_append_left _ hmem)

/-- The store stays in shape and in age order. -/
theorem SnapshotInv.store_step (h : SnapshotInv cfg fp s)
    (hZK : cfg.largerLvlRunsCount ≤ cfg.smallerLvlRunsCount) (ho : Orderly cfg s e)
    (hs : s.step cfg fp e = some s') :
    StoreInv cfg s'.db ∧ ((s'.db.filesAt 0).map SstFileMetaData.name).Nodup
      ∧ AgeOrdered SstFileMetaData.age s'.db.filesAt := by
  have htwo := h.store.two_le
  rw [db_of_step hs]
  match e with
  | .flush file =>
    obtain ⟨hmark, hnew, hnewest⟩ := ho.promised _ rfl
    refine ⟨h.store.addFlushed hmark hnew, ?_, ageOrdered_addFlushed htwo h.ordered hnewest⟩
    rw [WorldEvent.effect, filesAt_addFlushed_zero (by omega), List.map_cons, List.nodup_cons]
    refine ⟨fun hmem ↦ ?_, h.distinct⟩
    obtain ⟨f, hf, hname⟩ := List.mem_map.mp hmem
    exact hnew (mem_fileNames.mpr ⟨0, f, hf, hname⟩)
  | .finish task (.success outputs) =>
    have hp : ∀ f ∈ outputs, _ := ho.promised _ rfl
    have hout := outputLvl_lt_of_step hs
    obtain ⟨db₀, fresh, hflight⟩ := h.inFlight (mem_queued_of_step hs)
    have hpos := (hflight.landing h.store).outputLvl_pos
    refine ⟨hflight.storeInv_replaceFiles h.store hout (fun f hf ↦ (hp f hf).1)
      fun f hf ↦ (hp f hf).2.1, ?_, ?_⟩
    · rw [WorldEvent.effect, ColumnFamilyMetaData.filesAt_replaceFiles hout, if_neg hpos.ne]
      exact h.distinct.sublist (List.filter_sublist.map _)
    · exact (hflight.taskSound h.store hZK h.ordered).ageOrdered_replaceFiles h.ordered hpos hout
        fun f hf ↦ (hp f hf).2.2
  | .finish task (.failure status) => exact ⟨h.store, h.distinct, h.ordered⟩
  | .advance p => exact ⟨h.store, h.distinct, h.ordered⟩
  | .retire p => exact ⟨h.store, h.distinct, h.ordered⟩

/-- Whatever is planned is in flight. -/
theorem SnapshotInv.planned_step (h : SnapshotInv cfg fp s) (hcounter : CounterInv s)
    (ho : Orderly cfg s e) (hs : s.step cfg fp e = some s') :
    ∀ task ∈ s'.planned, ∃ db₀ fresh, InFlight cfg fp s'.db task db₀ fresh := by
  have hflight' := h.flight.step ho.exclusive hs
  have hdb := db_of_step hs
  intro task htask
  cases worldStep_of_step hs with
  | flush file _ hcalls hqueued =>
    have hnew := (ho.promised _ rfl).2.1
    rw [World.planned, hcalls, hqueued, List.filterMap_append, List.filterMap_cons_none rfl,
      List.filterMap_nil, List.append_nil] at htask
    obtain ⟨db₀, fresh, hflight⟩ := h.planned task htask
    rw [hdb]
    exact ⟨db₀, _, hflight.addFlushed h.store hnew⟩
  | @advance p caller pc pc' tasks hcall hpc hcalls hqueued =>
    rw [hdb, WorldEvent.effect]
    rcases mem_planned_of_set hcalls hqueued htask with hold | hmoved
    · exact h.planned task hold
    · rcases Pc.planned_of_step caller hpc hmoved with hold | ⟨hadmitted, hplanned⟩
      · exact h.planned task (mem_planned_of_mem_calls (List.mem_of_getElem? hcall) hold)
      · -- The test succeeds: the call belongs to a flush and is up to date.
        obtain ⟨htests, hfree⟩ := (Pc.step_counts caller hpc).2.2.2.2 hadmitted
        have hcaller := hcounter.caller_of_admitted hcall hpc hadmitted
        obtain ⟨k, -, hstart⟩ :=
          h.upToDate hfree _ (List.mem_of_getElem? hcall) hcaller htests
        obtain rfl : pc = .walking (.start cfg (s.db.dropFlushed k)) := hstart
        have hpicked := Pc.picked_of_start caller hpc hplanned
        exact ⟨_, _, hpicked.inFlight_dropFlushed h.store h.distinct⟩
  | @finish done _ pc hstart _ _ hcalls _ =>
    have hunfinished : (Call.mk (.compactFiles done) pc).isUnfinished = true := by
      rcases hstart with rfl | rfl <;> rfl
    rw [hflight'.planned_eq_nil (by rw [hcalls]; exact List.mem_concat_self) hunfinished] at htask
    exact absurd htask List.not_mem_nil
  | @retire p done hcall _ hcalls hqueued =>
    rw [hdb, WorldEvent.effect]
    rcases mem_planned_of_set hcalls (hqueued.trans (List.append_nil _).symm) htask with
      hold | hnew | hplanned
    · exact h.planned task hold
    · exact absurd hnew List.not_mem_nil
    · exact absurd hplanned (by simp [Call.planned])

/-- Whoever could pick after a step is up to date. -/
theorem SnapshotInv.upToDate_step (h : SnapshotInv cfg fp s) (ho : Orderly cfg s e)
    (hs : s.step cfg fp e = some s') (hfree : s'.running < 1) :
    ∀ call ∈ s'.calls, call.caller = .onFlushCompleted → call.tests = true →
      call.UpToDate cfg s'.db := by
  have htwo := h.store.two_le
  have hdb := db_of_step hs
  intro call hmem hcaller htests
  cases worldStep_of_step hs with
  | flush file hrunning hcalls _ =>
    rw [hcalls] at hmem
    rcases List.mem_append.mp hmem with hold | hnew
    · rw [hdb]
      exact (h.upToDate (hrunning ▸ hfree) call hold hcaller htests).addFlushed (by omega) file
    · rw [List.mem_singleton.mp hnew] at htests
      exact absurd htests (by simp [Call.tests])
  | @advance p caller pc pc' tasks hcall hpc hcalls _ =>
    obtain ⟨-, hrunning, -, -, -⟩ := Pc.step_counts caller hpc
    rw [hdb, WorldEvent.effect]
    rw [hcalls] at hmem
    rcases List.mem_or_eq_of_mem_set hmem with hold | rfl
    · exact h.upToDate (by omega) call hold hcaller htests
    · refine Pc.upToDate_of_step caller hpc htests ?_ hfree
      -- A call past its increment sees the counter raised.
      by_contra hreserved
      rw [Bool.not_eq_false] at hreserved
      have hpos : 0 < s.calls.countP Call.isReserved :=
        List.countP_pos_iff.mpr ⟨_, List.mem_of_getElem? hcall, hreserved⟩
      exact h.flight.running_pos (by omega) (by omega)
  | finish _ _ hmem' hrunning _ _ =>
    exact absurd (hrunning ▸ hfree) (h.flight.running_pos_of_mem_queued hmem')
  | @retire p done hcall _ hcalls _ =>
    rw [hdb, WorldEvent.effect]
    rw [hcalls] at hmem
    rcases List.mem_or_eq_of_mem_set hmem with hold | rfl
    · exact ho.undisturbed call hold hcaller htests
    · exact absurd hcaller (by simp)

/-- **The step lemma.** -/
theorem SnapshotInv.step (h : SnapshotInv cfg fp s) (hcounter : CounterInv s)
    (hZK : cfg.largerLvlRunsCount ≤ cfg.smallerLvlRunsCount) (ho : Orderly cfg s e)
    (hs : s.step cfg fp e = some s') : SnapshotInv cfg fp s' where
  flight := h.flight.step ho.exclusive hs
  store := (h.store_step hZK ho hs).1
  distinct := (h.store_step hZK ho hs).2.1
  ordered := (h.store_step hZK ho hs).2.2
  planned := h.planned_step hcounter ho hs
  upToDate := h.upToDate_step ho hs

/-- **The run lemma.** -/
theorem snapshotInv_of_run (hlev : 2 ≤ cfg.options.numLevels)
    (hZK : cfg.largerLvlRunsCount ≤ cfg.smallerLvlRunsCount) {h : List WorldEvent}
    (hrun : (concurrentSystem cfg fp (.empty cfg.options.numLevels)).Run (Orderly cfg) h s) :
    SnapshotInv cfg fp s :=
  hrun.invariant (I := fun _ s ↦ SnapshotInv cfg fp s) (snapshotInv_init fp hlev)
    fun _ _ _ _ hrun hinv ho hs ↦ hinv.step (counterInv_of_run hrun) hZK ho hs

/-- **Age order and clean tasks in every orderly interleaving.** For `Z ≤ K`, any number of threads,
and every order in which the steps of the callbacks follow each other, age order holds at every
moment, and the task that waits for the store fits it. -/
theorem ageCorrect_of_orderly_run (hlev : 2 ≤ cfg.options.numLevels)
    (hZK : cfg.largerLvlRunsCount ≤ cfg.smallerLvlRunsCount) {h : List WorldEvent}
    (hrun : (concurrentSystem cfg fp (.empty cfg.options.numLevels)).Run (Orderly cfg) h s) :
    AgeCorrect cfg ⟨s.db, .new cfg, s.queued⟩ := by
  have hinv := snapshotInv_of_run hlev hZK hrun
  refine ⟨hinv.ordered, ?_, fun task htask ↦ ?_⟩
  · have hbounded := hinv.flight.bounded
    rw [World.length_outstanding] at hbounded
    show s.queued.length ≤ 1
    omega
  · obtain ⟨db₀, fresh, hflight⟩ := hinv.inFlight htask
    exact hflight.taskSound hinv.store hZK hinv.ordered

end Invariant

/-- Some steps of one call in a row. -/
def advances (p k : ℕ) : List WorldEvent := List.replicate k (.advance p)

/-- The callback of the fourth flush rebuilds while the first task is outstanding and makes its tests
after the task has changed the store; that of the third is at its first test when the task lowers the
counter. -/
def overlappingCallbacks : List WorldEvent := List.flatten
  [advances 2 3, [.retire 4], advances 2 1, advances 4 3, advances 3 1,
    [.finish (promoteFlushes [2, 1] 3) (.success [promotedFile "a" [2, 1]])],
    advances 3 1, [.flush (largeFile 4), .flush (largeFile 3)],
    advances 1 4, [.flush (largeFile 2), .flush (largeFile 1)]]

/-- The third callback promotes what was flushed since the first task was picked. -/
theorem ageCorrect_overlapping :
    ∃ s : World, AgeCorrect (.small 1 1 6) ⟨s.db, .new (.small 1 1 6), s.queued⟩
      ∧ s.queued = [promoteFlushes [4, 3] 2] := by
  obtain ⟨s, hrun, hqueued⟩ :=
    StepSystem.exists_run_of_exec (M := concurrentSystem (.small 1 1 6) .exact (.empty 6))
      (P := Orderly (.small 1 1 6)) (R := fun s ↦ s.queued = [promoteFlushes [4, 3] 2])
      (h := overlappingCallbacks) (by decide +kernel)
  exact ⟨s, ageCorrect_of_orderly_run (by decide) (by decide) hrun, hqueued⟩

/-! ## A callback that is disturbed -/

/-- The task that rewrites the two runs of level 1, picked when the fifth flush finds it over its
bound. -/
def rewriteLevelOne : CompactionTask where
  inputFileNames := ["b", "a"]
  outputLvl := 5
  compactOptions := ⟨.noCompression, 1⟩
  originLvl := 1
  targetLvl := 2

/-- The sixth flush passes over level 1 because its test fails there. Then the task of level 1 comes
back with an IO error, and the test at level 0 succeeds. -/
def disturbedCallback : List WorldEvent := List.flatten
  [[.finish (promoteFlushes [6, 5] 3) (.success [promotedFile "c" [6, 5]])], advances 7 3,
    [.retire 8, .finish rewriteLevelOne (.failure .ioError)], advances 7 2, [.flush (largeFile 6)],
    advances 6 5, [.flush (largeFile 5), .retire 5], advances 5 3,
    [.finish (promoteFlushes [4, 3] 2) (.success [promotedFile "b" [4, 3]])],
    advances 4 5, [.flush (largeFile 4)], advances 3 2, [.flush (largeFile 3), .retire 2],
    advances 2 2, [.finish (promoteFlushes [2, 1] 3) (.success [promotedFile "a" [2, 1]])],
    advances 1 5, [.flush (largeFile 2)], advances 0 2, [.flush (largeFile 1)]]

/-- **A single flush thread and no race are not enough.** The newest data ends up underneath older
data. -/
theorem not_ageOrdered_disturbed :
    ¬∀ (h : List WorldEvent) (s : World),
      (concurrentSystem (.small 1 1 6) .exact (.empty 6)).Run (fun s e ↦ FlushThreads 1 s e
          ∧ Exclusive s e ∧ ∀ e' ∈ e.visible, Promised ⟨s.db, .new (.small 1 1 6), s.queued⟩ e')
        h s → AgeOrdered SstFileMetaData.age s.db.filesAt := by
  intro hall
  obtain ⟨s, hrun, f, hf, g, hg, hnot⟩ :=
    StepSystem.exists_run_of_exec (M := concurrentSystem (.small 1 1 6) .exact (.empty 6))
      (P := fun s e ↦ FlushThreads 1 s e ∧ Exclusive s e
        ∧ ∀ e' ∈ e.visible, Promised ⟨s.db, .new (.small 1 1 6), s.queued⟩ e')
      (R := fun s ↦ ∃ f ∈ s.db.filesAt 2, ∃ g ∈ s.db.filesAt 3,
        ¬Newer SstFileMetaData.age f g)
      (h := disturbedCallback) (by decide +kernel)
  exact hnot ((hall _ s hrun).below (by decide) f hf g hg)

/-! ## Callbacks that do not overlap -/

section SerialRuns

variable {cfg : Config} {fp : DoubleArith} {w w' : World} {e : WorldEvent} {h : List WorldEvent}

theorem isDone_of_tests {call : Call} (h : call.tests = true) : call.isDone = false := by
  match call, h with
  | ⟨.onFlushCompleted, .walking _⟩, _ | ⟨.compactFiles _, .walking _⟩, _ => rfl

theorem isDone_of_isAdmitted {call : Call} (h : call.isAdmitted = true) : call.isDone = false := by
  match call, h with
  | ⟨.onFlushCompleted, .admitted _ _ _ _⟩, _ | ⟨.compactFiles _, .admitted _ _ _ _⟩, _ => rfl

/-- At most one call is in progress. -/
theorem BetweenOrInside.eq_of_not_isDone (h : BetweenOrInside cfg fp h w) {call call' : Call}
    (hcall : call ∈ w.calls) (hcall' : call' ∈ w.calls) (hdone : call.isDone = false)
    (hdone' : call'.isDone = false) : call = call' := by
  rcases h with ⟨_, -, -, hquiet⟩ | ⟨_, _, _, _, last, -, -, -, hunder⟩
  · rw [hquiet call hcall] at hdone
    exact absurd hdone (by decide)
  · have hlast : ∀ other ∈ w.calls, other.isDone = false → other = last := by
      intro other hother hin
      rw [hunder.calls_eq] at hother
      rcases List.mem_append.mp hother with hmem | hmem
      · rw [hunder.others other hmem] at hin
        exact absurd hin (by decide)
      · exact List.mem_singleton.mp hmem
    exact (hlast call hcall hdone).trans (hlast call' hcall' hdone').symm

/-- **Callbacks that do not overlap are orderly.** -/
theorem orderly_of_serial_run
    (hrun : (concurrentSystem cfg fp (.empty cfg.options.numLevels)).Run (Serial cfg) h w) :
    (concurrentSystem cfg fp (.empty cfg.options.numLevels)).Run (Orderly cfg) h w := by
  induction hrun with
  | start => exact .start
  | @step h w w' e hrun hserial hs ih =>
    have hinside := betweenOrInside_of_run hrun
    refine ih.step ⟨?_, ?_, fun e' he' ↦ (hserial e' he').2⟩ hs
    · match e with
      | .advance p =>
        intro call hcall htests _ other hother
        by_contra hadmitted
        rw [Bool.not_eq_false] at hadmitted
        -- The call that makes the test is the one in progress, and it is not admitted yet.
        obtain rfl := hinside.eq_of_not_isDone (List.mem_of_getElem? hcall) hother
          (isDone_of_tests htests) (isDone_of_isAdmitted hadmitted)
        match call, htests, hadmitted with
        | ⟨_, .walking _⟩, _, hadmitted => exact absurd hadmitted (by simp [Call.isAdmitted])
      | .flush _ | .finish _ _ | .retire _ => trivial
    · cases worldStep_of_step hs with
      | flush | advance | finish => trivial
      | retire hcall =>
        -- The task that lowers the counter is the one in progress.
        intro call hmem hcaller htests
        obtain rfl := hinside.eq_of_not_isDone hmem (List.mem_of_getElem? hcall)
          (isDone_of_tests htests) rfl
        exact absurd hcaller (by simp)

end SerialRuns

end WorkloadAwareCompaction
