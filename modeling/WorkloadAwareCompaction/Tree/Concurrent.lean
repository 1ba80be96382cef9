import WorkloadAwareCompaction.Tree.System

/-!
# Concurrent calls of `PickCompaction`

Flush callbacks may come from several threads, and completing tasks call `PickCompaction` as well.
Here every call is a process of its own whose atomic steps are the locked rebuild, after which it
works on its own snapshot; the choice of the next level over its bound together with the test of the
counter; the reservation of the inputs with the locked increment; and the enqueueing of the task.
The steps of all calls interleave freely with each other, with flushes, and with the ends of the
store's compactions. A call that nobody interrupts is `FluidLSM.pickCompaction`
(`exists_advances_pickCompaction`).

The test is made outside the lock that guards the increment. So the counter bounds the outstanding
tasks only as long as no call passes the test while another stands between its own test and its
increment (`singleFlight_of_run`). If two calls ever stand there, nothing stops them
(`not_singleFlight_of_race`).
-/

namespace WorkloadAwareCompaction

open FluidLSM

/-! ## Calls -/

/-- The next level over its bound below `n`, in the order of the loop of `PickCompaction`. -/
def FluidLSM.nextOverBound (t : FluidLSM) (largestLvl : ℕ) : ℕ → Option ℕ
  | 0 => none
  | lvl + 1 => if t.overBound largestLvl lvl then some lvl else t.nextOverBound largestLvl lvl

/-- The local state of the loop of `PickCompaction`. -/
structure Walk where
  /-- The call's snapshot; its counter is not used. -/
  view : FluidLSM
  largestLvl : ℕ
  /-- The levels below this one are left. -/
  next : ℕ
  deriving DecidableEq

/-- Where a call stands. -/
inductive Pc
  | entered
  | walking (w : Walk)
  /-- The test was passed, and the counter is not raised yet. -/
  | admitted (w : Walk) (targetLvl rocksDBLvl : ℕ) (inputFiles : List FilePtr)
  /-- The counter is raised, and the task is not enqueued yet. -/
  | reserved (w : Walk) (task : CompactionTask)
  /-- `PickCompaction` has returned to its caller. -/
  | returned
  /-- The caller has returned as well. -/
  | exited
  deriving DecidableEq

/-- One step of a call: where it stands then, the counter, and the tasks it enqueues. -/
def Pc.step (cfg : Config) (fp : DoubleArith) (db : ColumnFamilyMetaData) (running : ℤ) :
    Pc → Option (Pc × ℤ × List CompactionTask)
  | entered =>
    let view := fluidView cfg db
    let largestLvl := view.getLargestOccupiedLevel
    some (walking ⟨view, largestLvl, largestLvl + 1⟩, running, [])
  | walking w =>
    match w.view.nextOverBound w.largestLvl w.next with
    | none => some (returned, running, [])
    | some lvl =>
      let inputFiles := w.view.addFilesToCompaction lvl []
      let targetLvl := w.view.getCompactionTargetLevel fp lvl inputFiles
      if parallelCompactionsAllowed > running then
        (w.view.outputLvl lvl targetLvl).map fun rocksDBLvl ↦
          (admitted { w with next := lvl } targetLvl rocksDBLvl inputFiles, running, [])
      else some (walking { w with next := lvl }, running, [])
  | admitted w targetLvl rocksDBLvl inputFiles =>
    let marked := w.view.reserve inputFiles
    some (reserved { w with view := marked.1 }
      { inputFileNames := marked.2
        outputLvl := rocksDBLvl
        compactOptions := { w.view.compactOptions with outputFileSizeLimit := w.view.fileSize }
        originLvl := w.next
        targetLvl := targetLvl }, running + 1, [])
  | reserved w task => some (walking w, running, [task])
  | returned => none
  | exited => none

inductive Caller
  | onFlushCompleted
  | compactFiles (task : CompactionTask)
  deriving DecidableEq

structure Call where
  caller : Caller
  pc : Pc
  deriving DecidableEq

/-! ## The system -/

structure World where
  db : ColumnFamilyMetaData
  /-- `parallel_compactions_running_`. -/
  running : ℤ
  calls : List Call
  /-- Enqueued, and the store's `CompactFiles` has not returned yet. -/
  queued : List CompactionTask
  deriving DecidableEq

inductive WorldEvent
  /-- A flush completes, and its callback begins. -/
  | flush (file : SstFileMetaData)
  /-- Call number `p` makes a step. -/
  | advance (p : ℕ)
  /-- The store's `CompactFiles` returns for a task. -/
  | finish (task : CompactionTask) (outcome : Outcome)
  /-- `FluidLSM::CompactFiles`, call number `p`, lowers the counter and returns. -/
  | retire (p : ℕ)
  deriving DecidableEq

namespace World

def init (db : ColumnFamilyMetaData) : World := ⟨db, 0, [], []⟩

def step (cfg : Config) (fp : DoubleArith) (s : World) : WorldEvent → Option World
  | .flush file =>
    some { s with
      db := s.db.addFlushed file
      calls := s.calls ++ [⟨.onFlushCompleted, .entered⟩] }
  | .advance p =>
    match s.calls[p]? with
    | none => none
    | some call => (call.pc.step cfg fp s.db s.running).map fun next ↦
      { s with
        running := next.2.1
        calls := s.calls.set p { call with pc := next.1 }
        queued := s.queued ++ next.2.2 }
  | .finish task (.success outputs) =>
    if task ∈ s.queued ∧ task.outputLvl < s.db.numLevels then
      some { s with
        db := s.db.replaceFiles task.inputFileNames task.outputLvl outputs
        calls := s.calls ++ [⟨.compactFiles task, .entered⟩]
        queued := s.queued.erase task }
    else none
  | .finish task (.failure status) =>
    if task ∈ s.queued then
      some { s with
        calls := s.calls ++
          [⟨.compactFiles task, if status ≠ .ioError then .entered else .returned⟩]
        queued := s.queued.erase task }
    else none
  | .retire p =>
    match s.calls[p]? with
    | some ⟨.compactFiles task, .returned⟩ =>
      some { s with
        running := s.running - 1
        calls := s.calls.set p ⟨.compactFiles task, .exited⟩ }
    | _ => none

end World

/-- Concurrent calls on a store that starts with any metadata. -/
def concurrentSystem (cfg : Config) (fp : DoubleArith) (db : ColumnFamilyMetaData) :
    StepSystem World WorldEvent where
  init := .init db
  step := World.step cfg fp

/-- The task whose `FluidLSM::CompactFiles` is still in progress in this call. -/
def Call.unfinished : Call → Option CompactionTask
  | ⟨.compactFiles _, .exited⟩ => none
  | ⟨.compactFiles task, _⟩ => some task
  | ⟨.onFlushCompleted, _⟩ => none

/-- Tasks that are enqueued and have not lowered the counter. -/
def World.outstanding (s : World) : List CompactionTask :=
  s.queued ++ s.calls.filterMap Call.unfinished

/-- At most one task is outstanding, and no file is an input of two. -/
structure SingleFlight (s : World) : Prop where
  le_allowed : (s.outstanding.length : ℤ) ≤ parallelCompactionsAllowed
  disjoint : s.outstanding.Pairwise fun a b ↦ ∀ name ∈ a.inputFileNames, name ∉ b.inputFileNames

/-! ## The race -/

/-- The call stands between its test and its increment. -/
def Call.isAdmitted : Call → Bool
  | ⟨_, .admitted _ _ _ _⟩ => true
  | _ => false

/-- The call stands between its increment and the enqueueing. -/
def Call.isReserved : Call → Bool
  | ⟨_, .reserved _ _⟩ => true
  | _ => false

/-- The call belongs to a task that has not lowered the counter. -/
def Call.isUnfinished (call : Call) : Bool := call.unfinished.isSome

/-- The next step of the call tests the counter. -/
def Call.tests : Call → Bool
  | ⟨_, .walking w⟩ => (w.view.nextOverBound w.largestLvl w.next).isSome
  | _ => false

/-- No call passes the test while another stands between its test and its increment. -/
def Exclusive (s : World) : WorldEvent → Prop
  | .advance p => ∀ call ∈ s.calls[p]?, call.tests = true →
      s.running < parallelCompactionsAllowed → ∀ other ∈ s.calls, other.isAdmitted = false
  | _ => True

instance (s : World) : ∀ e, Decidable (Exclusive s e)
  | .flush _ => .isTrue trivial
  | .advance p => inferInstanceAs (Decidable (∀ call ∈ s.calls[p]?, _))
  | .finish _ _ => .isTrue trivial
  | .retire _ => .isTrue trivial

/-- What the counter counts, and what it is meant to bound. -/
structure FlightInv (s : World) : Prop where
  counted : s.running = s.calls.countP Call.isReserved + s.outstanding.length
  bounded : s.calls.countP Call.isAdmitted + s.calls.countP Call.isReserved + s.outstanding.length
    ≤ 1

theorem World.length_outstanding (s : World) :
    s.outstanding.length = s.queued.length + s.calls.countP Call.isUnfinished := by
  rw [outstanding, List.length_append, List.length_filterMap_eq_countP]
  rfl

/-- Replacing one element changes a count by that element. -/
theorem countP_set_add {α : Type*} (q : α → Bool) {l : List α} {p : ℕ} {a b : α}
    (ha : l[p]? = some a) : (l.set p b).countP q + (q a).toNat = l.countP q + (q b).toNat := by
  obtain ⟨hp, rfl⟩ := List.getElem?_eq_some_iff.mp ha
  have hbool : ∀ c : Bool, (if c = true then 1 else 0) = c.toNat := by decide
  have hpos : (q l[p]).toNat ≤ l.countP q := by
    cases hq : q l[p] with
    | false => exact Nat.zero_le _
    | true => exact List.countP_pos_iff.mpr ⟨_, List.getElem_mem hp, hq⟩
  rw [List.countP_set hp, hbool, hbool]
  omega

section

variable {cfg : Config} {fp : DoubleArith} {db : ColumnFamilyMetaData} {s s' : World}
  {e : WorldEvent}

/-- What a step of a call does to the three counts. -/
theorem Pc.step_counts (caller : Caller) {running running' : ℤ} {pc pc' : Pc}
    {tasks : List CompactionTask} (h : pc.step cfg fp db running = some (pc', running', tasks)) :
    (Call.mk caller pc').isUnfinished = (Call.mk caller pc).isUnfinished
      ∧ running' = running + (Call.mk caller pc).isAdmitted.toNat
      ∧ (Call.mk caller pc').isReserved = (Call.mk caller pc).isAdmitted
      ∧ tasks.length = (Call.mk caller pc).isReserved.toNat
      ∧ ((Call.mk caller pc').isAdmitted = true →
          (Call.mk caller pc).tests = true ∧ running < parallelCompactionsAllowed) := by
  cases pc with
  | entered =>
    obtain ⟨rfl, rfl, rfl⟩ : _ ∧ _ ∧ _ := by simpa [Pc.step] using h
    cases caller <;> simp [Call.isUnfinished, Call.unfinished, Call.isAdmitted, Call.isReserved]
  | walking w =>
    simp only [Pc.step] at h
    cases hnext : w.view.nextOverBound w.largestLvl w.next with
    | none =>
      simp only [hnext, Option.some.injEq, Prod.mk.injEq] at h
      obtain ⟨rfl, rfl, rfl⟩ := h
      cases caller <;> simp [Call.isUnfinished, Call.unfinished, Call.isAdmitted, Call.isReserved]
    | some lvl =>
      simp only [hnext] at h
      split_ifs at h with hallowed
      · obtain ⟨out, -, heq⟩ := Option.map_eq_some_iff.mp h
        simp only [Prod.mk.injEq] at heq
        obtain ⟨rfl, rfl, rfl⟩ := heq
        cases caller <;>
          simp [Call.isUnfinished, Call.unfinished, Call.isAdmitted, Call.isReserved, Call.tests,
            hnext, hallowed]
      · simp only [Option.some.injEq, Prod.mk.injEq] at h
        obtain ⟨rfl, rfl, rfl⟩ := h
        cases caller <;> simp [Call.isUnfinished, Call.unfinished, Call.isAdmitted, Call.isReserved]
  | admitted w targetLvl out inputFiles =>
    simp only [Pc.step, Option.some.injEq, Prod.mk.injEq] at h
    obtain ⟨rfl, rfl, rfl⟩ := h
    cases caller <;> simp [Call.isUnfinished, Call.unfinished, Call.isAdmitted, Call.isReserved]
  | reserved w task =>
    simp only [Pc.step, Option.some.injEq, Prod.mk.injEq] at h
    obtain ⟨rfl, rfl, rfl⟩ := h
    cases caller <;> simp [Call.isUnfinished, Call.unfinished, Call.isAdmitted, Call.isReserved]
  | returned => exact absurd h (by simp [Pc.step])
  | exited => exact absurd h (by simp [Pc.step])

theorem flightInv_init (db : ColumnFamilyMetaData) : FlightInv (.init db) where
  counted := by simp [World.init, World.outstanding]
  bounded := by simp [World.init, World.outstanding]

/-- A new call at a point where it holds nothing. -/
theorem FlightInv.spawn {call : Call} {queued : List CompactionTask} {db' : ColumnFamilyMetaData}
    (h : FlightInv s) (hadmitted : call.isAdmitted = false) (hreserved : call.isReserved = false)
    (hqueued : queued.length + call.isUnfinished.toNat = s.queued.length) :
    FlightInv { s with db := db', calls := s.calls ++ [call], queued := queued } := by
  obtain ⟨hcounted, hbounded⟩ := h
  have hsingle : ∀ q : Call → Bool, [call].countP q = (q call).toNat := by
    intro q
    rw [List.countP_singleton]
    cases q call <;> rfl
  rw [World.length_outstanding] at hcounted hbounded
  constructor <;> rw [World.length_outstanding] <;>
    simp only [List.countP_append, hsingle, hadmitted, hreserved, Bool.toNat_false] <;> omega

/-- A step of a call. The counts of the call alone change, as `Pc.step_counts` says. -/
theorem FlightInv.advance {p : ℕ} (h : FlightInv s) (hexcl : Exclusive s (.advance p))
    (hs : s.step cfg fp (.advance p) = some s') : FlightInv s' := by
  simp only [World.step] at hs
  cases hcall : s.calls[p]? with
  | none =>
    rw [hcall] at hs
    exact absurd hs (by simp)
  | some call =>
    obtain ⟨caller, pc⟩ := call
    simp only [hcall] at hs
    obtain ⟨⟨pc', running', tasks⟩, hpc, rfl⟩ := Option.map_eq_some_iff.mp hs
    obtain ⟨hunfinished, hrunning, hreserved, htasks, hadmitted⟩ := Pc.step_counts caller hpc
    have hA := countP_set_add Call.isAdmitted (b := ⟨caller, pc'⟩) hcall
    have hR := countP_set_add Call.isReserved (b := ⟨caller, pc'⟩) hcall
    have hU := countP_set_add Call.isUnfinished (b := ⟨caller, pc'⟩) hcall
    rw [hreserved] at hR
    rw [hunfinished] at hU
    obtain ⟨hcounted, hbounded⟩ := h
    rw [World.length_outstanding] at hcounted hbounded
    -- A call that passes the test finds the counter at 0 and no other call on its way.
    have hbound : s.calls.countP Call.isAdmitted + (Call.mk caller pc').isAdmitted.toNat
        + s.calls.countP Call.isReserved
        + (s.queued.length + s.calls.countP Call.isUnfinished) ≤ 1 := by
      cases hpass : (Call.mk caller pc').isAdmitted with
      | false =>
        rw [Bool.toNat_false]
        omega
      | true =>
        obtain ⟨htests, hfree⟩ := hadmitted hpass
        have hnone : s.calls.countP Call.isAdmitted = 0 :=
          List.countP_eq_zero.mpr fun other hother ↦ by
            rw [hexcl _ hcall htests hfree other hother]
            decide
        rw [parallelCompactionsAllowed] at hfree
        rw [hnone, Bool.toNat_true]
        omega
    constructor <;> rw [World.length_outstanding] <;>
      simp only [List.length_append, htasks] <;> omega

/-- A task lowers the counter when its call ends. -/
theorem FlightInv.retire {p : ℕ} (h : FlightInv s)
    (hs : s.step cfg fp (.retire p) = some s') : FlightInv s' := by
  simp only [World.step] at hs
  split at hs
  · rename_i task hcall
    obtain rfl := Option.some.inj hs
    have hcounts := fun q : Call → Bool ↦
      countP_set_add q (b := ⟨.compactFiles task, .exited⟩) hcall
    have hA := hcounts Call.isAdmitted
    have hR := hcounts Call.isReserved
    have hU := hcounts Call.isUnfinished
    obtain ⟨hcounted, hbounded⟩ := h
    rw [World.length_outstanding] at hcounted hbounded
    simp only [Call.isAdmitted, Call.isReserved, Call.isUnfinished, Call.unfinished,
      Option.isSome_some, Option.isSome_none, Bool.toNat_true, Bool.toNat_false] at hA hR hU
    constructor <;> rw [World.length_outstanding] <;> simp only [] <;> omega
  · exact absurd hs (by simp)

/-- **The step lemma.** -/
theorem FlightInv.step (h : FlightInv s) (hexcl : Exclusive s e)
    (hs : s.step cfg fp e = some s') : FlightInv s' := by
  match e with
  | .flush file =>
    obtain rfl := Option.some.inj hs
    exact h.spawn rfl rfl rfl
  | .advance p => exact h.advance hexcl hs
  | .finish task (.success outputs) =>
    simp only [World.step] at hs
    split_ifs at hs with hmem
    obtain rfl := Option.some.inj hs
    exact h.spawn rfl rfl (List.length_erase_add_one hmem.1)
  | .finish task (.failure status) =>
    -- The call picks again unless the status is an IO error; it is unfinished either way.
    simp only [World.step] at hs
    split_ifs at hs with hmem
    all_goals
      obtain rfl := Option.some.inj hs
      exact h.spawn rfl rfl (List.length_erase_add_one hmem)
  | .retire p => exact h.retire hs

theorem FlightInv.singleFlight (h : FlightInv s) : SingleFlight s := by
  have hlength : s.outstanding.length ≤ 1 := by
    have := h.bounded
    omega
  refine ⟨by rw [parallelCompactionsAllowed]; exact_mod_cast hlength, ?_⟩
  rcases houtstanding : s.outstanding with _ | ⟨task, _ | ⟨_, _⟩⟩
  · exact .nil
  · exact List.pairwise_singleton _ _
  · rw [houtstanding] at hlength
    simp at hlength

/-- **Single flight without races.** As long as no call passes the test while another stands between
its test and its increment, at most one task is outstanding: for any number of calls, any metadata,
and every interleaving with flushes and task executions. -/
theorem singleFlight_of_run {h : List WorldEvent}
    (hrun : (concurrentSystem cfg fp db).Run Exclusive h s) : SingleFlight s :=
  (hrun.invariant (I := fun _ s ↦ FlightInv s) (flightInv_init db)
    fun _ _ _ _ _ hinv hexcl hs ↦ hinv.step hexcl hs).singleFlight

/-! ## The race is always lost -/

theorem World.step_advance {caller : Caller} {pc : Pc} {p : ℕ}
    (hcall : s.calls[p]? = some ⟨caller, pc⟩) :
    s.step cfg fp (.advance p) = (pc.step cfg fp s.db s.running).map fun next ↦
      { s with
        running := next.2.1
        calls := s.calls.set p ⟨caller, next.1⟩
        queued := s.queued ++ next.2.2 } := by
  rw [World.step]
  simp only [hcall]

/-- A call that has passed the test enqueues its task in two more steps, whatever else goes on. -/
theorem exists_enqueue {call : Call} {p : ℕ} (hcall : s.calls[p]? = some call)
    (hadmitted : call.isAdmitted = true) :
    ∃ s', [WorldEvent.advance p, .advance p].foldlM (World.step cfg fp) s = some s'
      ∧ s'.queued.length = s.queued.length + 1 ∧ ∀ q, q ≠ p → s'.calls[q]? = s.calls[q]? := by
  have hp : p < s.calls.length := (List.getElem?_eq_some_iff.mp hcall).1
  match call, hadmitted with
  | ⟨caller, .admitted w targetLvl rocksDBLvl inputFiles⟩, _ =>
    rw [List.foldlM_cons, World.step_advance hcall]
    simp only [Pc.step, Option.map_some, Option.bind_eq_bind, Option.bind_some]
    rw [List.foldlM_cons, World.step_advance (List.getElem?_set_self hp)]
    refine ⟨_, rfl, by simp, fun q hq ↦ ?_⟩
    simp [List.getElem?_set_ne (Ne.symm hq)]

/-- **Two calls between test and increment break single flight.** -/
theorem not_singleFlight_of_race {callp callq : Call} {p q : ℕ} (hpq : p ≠ q)
    (hp : s.calls[p]? = some callp) (hq : s.calls[q]? = some callq)
    (hadmitted : callp.isAdmitted = true) (hadmitted' : callq.isAdmitted = true) :
    ∃ s', [WorldEvent.advance p, .advance p, .advance q, .advance q].foldlM (World.step cfg fp) s
        = some s' ∧ ¬SingleFlight s' := by
  obtain ⟨s₁, hs₁, hlength₁, hframe₁⟩ := exists_enqueue hp hadmitted
  obtain ⟨s₂, hs₂, hlength₂, -⟩ := exists_enqueue
    ((hframe₁ q hpq.symm).trans hq) hadmitted'
  refine ⟨s₂, ?_, fun hsingle ↦ ?_⟩
  · have happend : [WorldEvent.advance p, .advance p, .advance q, .advance q]
        = [.advance p, .advance p] ++ [.advance q, .advance q] := rfl
    rw [happend, List.foldlM_append, hs₁]
    exact hs₂
  · have hle := hsingle.le_allowed
    rw [World.length_outstanding, parallelCompactionsAllowed] at hle
    omega

/-- **The condition is exact.** Wherever a run takes a step that is not exclusive, it can be
continued so that two tasks are outstanding. -/
theorem exists_not_singleFlight_of_not_exclusive (hs : s.step cfg fp e = some s')
    (hexcl : ¬Exclusive s e) :
    ∃ (events : List WorldEvent) (s'' : World),
      events.foldlM (World.step cfg fp) s' = some s'' ∧ ¬SingleFlight s'' := by
  match e, hs, hexcl with
  | .advance p, hs, hexcl =>
    simp only [Exclusive, not_forall] at hexcl
    obtain ⟨⟨caller, pc⟩, hcall, htests, hfree, other, hother, hadmitted⟩ := hexcl
    rw [Option.mem_def] at hcall
    rw [Bool.not_eq_false] at hadmitted
    obtain ⟨q, hq⟩ := List.getElem?_of_mem hother
    have hp : p < s.calls.length := (List.getElem?_eq_some_iff.mp hcall).1
    match pc with
    | .walking w =>
      -- The other call is a different one: this one is not admitted yet.
      have hqp : q ≠ p := by
        rintro rfl
        rw [hcall] at hq
        obtain rfl := Option.some.inj hq
        exact absurd hadmitted (by simp [Call.isAdmitted])
      obtain ⟨lvl, hlvl⟩ := Option.isSome_iff_exists.mp htests
      rw [World.step_advance hcall] at hs
      simp only [Pc.step, hlvl, gt_iff_lt, hfree, if_true, Option.map_map] at hs
      obtain ⟨out, -, heq⟩ := Option.map_eq_some_iff.mp hs
      obtain ⟨callp, hcalls, hadmitted'⟩ :
          ∃ call, s'.calls = s.calls.set p call ∧ call.isAdmitted = true := by
        rw [← heq]
        exact ⟨_, rfl, rfl⟩
      have hp' : s'.calls[p]? = some callp := by rw [hcalls, List.getElem?_set_self hp]
      have hq' : s'.calls[q]? = some other := by
        rw [hcalls, List.getElem?_set_ne (Ne.symm hqp), hq]
      obtain ⟨s'', hs'', hbreak⟩ :=
        not_singleFlight_of_race (Ne.symm hqp) hp' hq' hadmitted' hadmitted
      exact ⟨_, s'', hs'', hbreak⟩
    | .entered | .admitted _ _ _ _ | .reserved _ _ | .returned | .exited =>
      exact absurd htests (by simp [Call.tests])
  | .flush _, _, hexcl | .finish _ _, _, hexcl | .retire _, _, hexcl => exact absurd trivial hexcl

/-! ## A call on its own -/

theorem nextOverBound_succ_of_over {t : FluidLSM} {largestLvl lvl : ℕ}
    (h : t.overBound largestLvl lvl = true) : t.nextOverBound largestLvl (lvl + 1) = some lvl := by
  rw [nextOverBound, if_pos h]

/-- Reserving does not read the counter. -/
theorem reserve_withCounter (t : FluidLSM) (running : ℤ) (ptrs : List FilePtr) :
    ({ t with parallelCompactionsRunning := running } : FluidLSM).reserve ptrs
      = ({ (t.reserve ptrs).1 with parallelCompactionsRunning := running },
          (t.reserve ptrs).2) := by
  rw [reserve, reserve]
  generalize ([] : List String) = names
  induction ptrs generalizing t names with
  | nil => rfl
  | cons p ptrs ih =>
    rw [List.foldl_cons, List.foldl_cons]
    exact ih (t.markBeingCompacted p) (names ++ ((t.deref p).map SstFileMetaData.name).toList)

/-- Neither does the slot search. -/
theorem outputLvl_withCounter (t : FluidLSM) (running : ℤ) (originLvl targetLvl : ℕ) :
    ({ t with parallelCompactionsRunning := running } : FluidLSM).outputLvl originLvl targetLvl
      = t.outputLvl originLvl targetLvl := by
  have hslot : ∀ n,
      ({ t with parallelCompactionsRunning := running } : FluidLSM).findSlot targetLvl n
      = t.findSlot targetLvl n := by
    intro n
    induction n with
    | zero => rfl
    | succ n ih =>
      rw [findSlot, findSlot, ih]
      rfl
  rw [outputLvl, outputLvl, hslot]

/-- One turn of the loop at a level over its bound. -/
theorem pickLoop_succ_of_over {t : FluidLSM} {largestLvl lvl : ℕ}
    (hover : t.overBound largestLvl lvl = true) (tasks : List CompactionTask) :
    pickLoop fp largestLvl (lvl + 1) t tasks
      = (t.scheduleCompaction lvl
          (t.getCompactionTargetLevel fp lvl (t.addFilesToCompaction lvl []))
          (t.addFilesToCompaction lvl [])).bind fun next ↦
            pickLoop fp largestLvl lvl next.1 (tasks ++ next.2) := by
  rw [pickLoop, if_pos hover]
  cases hschedule : t.scheduleCompaction lvl
      (t.getCompactionTargetLevel fp lvl (t.addFilesToCompaction lvl []))
      (t.addFilesToCompaction lvl []) with
  | none => simp only [hschedule, Option.bind_none]
  | some next => simp only [hschedule, Option.bind_some]

theorem pickLoop_append {largestLvl n : ℕ} (t : FluidLSM) (tasks : List CompactionTask) :
    pickLoop fp largestLvl n t tasks
      = (pickLoop fp largestLvl n t []).map fun next ↦ (next.1, tasks ++ next.2) := by
  induction n generalizing t tasks with
  | zero => simp [pickLoop]
  | succ lvl ih =>
    by_cases hover : t.overBound largestLvl lvl = true
    · rw [pickLoop_succ_of_over hover, pickLoop_succ_of_over hover, Option.map_bind]
      congr 1
      funext next
      rw [Function.comp_apply, ih next.1 (tasks ++ next.2), ih next.1 ([] ++ next.2),
        Option.map_map]
      simp only [Function.comp_def, List.nil_append, List.append_assoc]
    · rw [pickLoop, pickLoop, if_neg hover, if_neg hover]
      exact ih t tasks

/-- Planning does not read the counter. -/
theorem pickLoop_succ_withCounter {view : FluidLSM} {largestLvl lvl : ℕ}
    (hover : view.overBound largestLvl lvl = true) (running : ℤ) :
    pickLoop fp largestLvl (lvl + 1) { view with parallelCompactionsRunning := running } []
      = (FluidLSM.scheduleCompaction { view with parallelCompactionsRunning := running } lvl
          (view.getCompactionTargetLevel fp lvl (view.addFilesToCompaction lvl []))
          (view.addFilesToCompaction lvl [])).bind fun next ↦
            pickLoop fp largestLvl lvl next.1 next.2 :=
  pickLoop_succ_of_over (t := { view with parallelCompactionsRunning := running }) hover []

/-- A call about to schedule, left alone, does what `ScheduleCompaction` does. -/
theorem exists_advances_schedule {caller : Caller} {p lvl : ℕ} {w : Walk} {t' : FluidLSM}
    {tasks : List CompactionTask} (hcall : s.calls[p]? = some ⟨caller, .walking w⟩)
    (hnext : w.view.nextOverBound w.largestLvl w.next = some lvl)
    (hschedule : FluidLSM.scheduleCompaction
      { w.view with parallelCompactionsRunning := s.running } lvl
      (w.view.getCompactionTargetLevel fp lvl (w.view.addFilesToCompaction lvl []))
      (w.view.addFilesToCompaction lvl []) = some (t', tasks)) :
    ∃ m view, t' = { view with parallelCompactionsRunning := t'.parallelCompactionsRunning }
      ∧ (List.replicate (m + 1) (WorldEvent.advance p)).foldlM (World.step cfg fp) s
        = some { s with
            running := t'.parallelCompactionsRunning
            calls := s.calls.set p ⟨caller, .walking ⟨view, w.largestLvl, lvl⟩⟩
            queued := s.queued ++ tasks } := by
  have hp : p < s.calls.length := (List.getElem?_eq_some_iff.mp hcall).1
  rw [scheduleCompaction, outputLvl_withCounter, reserve_withCounter] at hschedule
  by_cases hallowed : parallelCompactionsAllowed > s.running
  · -- Three steps: the test, the increment, the enqueueing.
    rw [if_pos hallowed] at hschedule
    cases hout : w.view.outputLvl lvl
        (w.view.getCompactionTargetLevel fp lvl (w.view.addFilesToCompaction lvl [])) with
    | none =>
      rw [hout] at hschedule
      exact absurd hschedule (by simp)
    | some out =>
      rw [hout] at hschedule
      obtain ⟨rfl, rfl⟩ := Prod.mk.inj (Option.some.inj hschedule)
      refine ⟨2, (w.view.reserve (w.view.addFilesToCompaction lvl [])).1, rfl, ?_⟩
      rw [List.replicate_succ, List.foldlM_cons, World.step_advance hcall]
      simp only [Pc.step, hnext, hallowed, if_true, hout, Option.map_some, Option.bind_eq_bind,
        Option.bind_some]
      rw [List.replicate_succ, List.foldlM_cons,
        World.step_advance (List.getElem?_set_self hp)]
      simp only [Pc.step, Option.map_some, Option.bind_eq_bind, Option.bind_some, List.set_set]
      rw [List.replicate_one, List.foldlM_cons, World.step_advance (List.getElem?_set_self hp)]
      simp [Pc.step]
  · -- One step: the test fails and the walk goes on.
    rw [if_neg hallowed] at hschedule
    obtain ⟨rfl, rfl⟩ := Prod.mk.inj (Option.some.inj hschedule)
    refine ⟨0, w.view, rfl, ?_⟩
    rw [List.replicate_one, List.foldlM_cons, World.step_advance hcall]
    simp only [Pc.step, hnext, hallowed, if_false, Option.map_some]
    rfl

/-- A call at its loop, left alone, does what the loop does. -/
theorem exists_advances_pickLoop (cfg : Config) {caller : Caller} {p n : ℕ} {view t' : FluidLSM}
    {tasks : List CompactionTask} {largestLvl : ℕ}
    (hcall : s.calls[p]? = some ⟨caller, .walking ⟨view, largestLvl, n⟩⟩)
    (hloop : pickLoop fp largestLvl n { view with parallelCompactionsRunning := s.running } []
      = some (t', tasks)) :
    ∃ k, (List.replicate (k + 1) (WorldEvent.advance p)).foldlM (World.step cfg fp) s
      = some { s with
          running := t'.parallelCompactionsRunning
          calls := s.calls.set p ⟨caller, .returned⟩
          queued := s.queued ++ tasks } := by
  have hp : p < s.calls.length := (List.getElem?_eq_some_iff.mp hcall).1
  induction n generalizing s view tasks with
  | zero =>
    obtain ⟨rfl, rfl⟩ := Prod.mk.inj (Option.some.inj hloop)
    refine ⟨0, ?_⟩
    rw [List.replicate_one, List.foldlM_cons, World.step_advance hcall]
    rfl
  | succ lvl ih =>
    by_cases hover : view.overBound largestLvl lvl = true
    · rw [pickLoop_succ_withCounter hover] at hloop
      obtain ⟨next, hschedule, hnext⟩ := Option.bind_eq_some_iff.mp hloop
      obtain ⟨m, view', hview, hm⟩ :=
        exists_advances_schedule hcall (nextOverBound_succ_of_over hover) hschedule
      rw [pickLoop_append, hview] at hnext
      obtain ⟨⟨t'', rest⟩, hrest, heq⟩ := Option.map_eq_some_iff.mp hnext
      obtain ⟨rfl, rfl⟩ := Prod.mk.inj heq
      obtain ⟨k, hk⟩ := ih (s := { s with
        running := next.1.parallelCompactionsRunning
        calls := s.calls.set p ⟨caller, .walking ⟨view', largestLvl, lvl⟩⟩
        queued := s.queued ++ next.2 }) (List.getElem?_set_self hp) hrest
        (by rw [List.length_set]; exact hp)
      refine ⟨m + 1 + k, ?_⟩
      rw [Nat.add_assoc (m + 1), List.replicate_add, List.foldlM_append, hm]
      simp only [Option.bind_eq_bind, Option.bind_some]
      rw [hk]
      simp only [List.set_set, List.append_assoc]
    · rw [pickLoop, if_neg (by exact hover)] at hloop
      -- The same step leads out of this level and the next one.
      have hset : (s.calls.set p ⟨caller, .walking ⟨view, largestLvl, lvl⟩⟩)[p]?
          = some ⟨caller, .walking ⟨view, largestLvl, lvl⟩⟩ := List.getElem?_set_self hp
      obtain ⟨k, hk⟩ := ih (s := { s with
        calls := s.calls.set p ⟨caller, .walking ⟨view, largestLvl, lvl⟩⟩ }) hset hloop
        (by rw [List.length_set]; exact hp)
      refine ⟨k, ?_⟩
      have hnext : view.nextOverBound largestLvl (lvl + 1) = view.nextOverBound largestLvl lvl := by
        rw [nextOverBound, if_neg hover]
      rw [List.replicate_succ, List.foldlM_cons, World.step_advance hset] at hk
      rw [List.replicate_succ, List.foldlM_cons, World.step_advance hcall]
      simp only [List.set_set] at hk
      rw [← hk]
      simp only [Pc.step, hnext]

/-- **A call that nobody interrupts is `PickCompaction`.** -/
theorem exists_advances_pickCompaction {caller : Caller} {p : ℕ} {t t' : FluidLSM}
    {tasks : List CompactionTask} (hcfg : t.toConfig = cfg)
    (ht : t.lazyLevels.length = cfg.options.numLevels)
    (hrunning : t.parallelCompactionsRunning = s.running)
    (hcall : s.calls[p]? = some ⟨caller, .entered⟩)
    (hpick : t.pickCompaction fp s.db = some (t', tasks)) :
    ∃ k, (List.replicate k (WorldEvent.advance p)).foldlM (World.step cfg fp) s
      = some { s with
          running := t'.parallelCompactionsRunning
          calls := s.calls.set p ⟨caller, .returned⟩
          queued := s.queued ++ tasks } := by
  have hp : p < s.calls.length := (List.getElem?_eq_some_iff.mp hcall).1
  subst hcfg
  rw [pickCompaction, buildStructure_eq_fluidView ht, hrunning] at hpick
  obtain ⟨k, hk⟩ := exists_advances_pickLoop t.toConfig (s := { s with
    calls := s.calls.set p ⟨caller, .walking ⟨fluidView t.toConfig s.db,
      (fluidView t.toConfig s.db).getLargestOccupiedLevel,
      (fluidView t.toConfig s.db).getLargestOccupiedLevel + 1⟩⟩ })
    (List.getElem?_set_self hp) hpick
  refine ⟨k + 1 + 1, ?_⟩
  rw [List.replicate_succ, List.foldlM_cons, World.step_advance hcall]
  simp only [Pc.step, Option.map_some, Option.bind_eq_bind, Option.bind_some, List.append_nil]
  rw [hk]
  simp only [List.set_set]

end

/-- Two flush callbacks: both rebuild, both pass the test, then both raise the counter. -/
def racingCallbacks : List WorldEvent :=
  [.advance 1, .advance 0, .advance 1, .advance 0, .advance 1, .advance 0, .advance 1, .advance 0,
    .flush (.flushed "b" 1 1), .flush (.flushed "a" 1 0)]

/-- Both calls enqueue a task, and the two tasks name the same files. -/
theorem not_singleFlight_racing :
    ¬∀ (h : List WorldEvent) (s : World),
      (concurrentSystem (.small 1 1 4) .exact (.empty 4)).Run (fun _ _ ↦ True) h s →
        SingleFlight s := by
  intro hall
  obtain ⟨s, hrun, hlength⟩ :=
    StepSystem.exists_run_of_exec (M := concurrentSystem (.small 1 1 4) .exact (.empty 4))
      (P := fun _ _ ↦ True)
      (R := fun s ↦ s.outstanding.map CompactionTask.inputFileNames = [["b", "a"], ["b", "a"]])
      (h := racingCallbacks) (by decide +kernel)
  have hle := (hall _ s hrun).le_allowed
  have htwo := congrArg List.length hlength
  rw [List.length_map] at htwo
  rw [htwo] at hle
  exact absurd hle (by decide)

/-- The same callbacks, one after the other. -/
theorem singleFlight_serial :
    ∃ s, SingleFlight s ∧ s.outstanding.length = 1 := by
  obtain ⟨s, hrun, hlength⟩ :=
    StepSystem.exists_run_of_exec (M := concurrentSystem (.small 1 1 4) .exact (.empty 4))
      (P := Exclusive) (R := fun s ↦ s.outstanding.length = 1)
      (h := [.advance 0, .advance 0, .advance 1, .advance 1, .advance 1, .advance 1,
        .flush (.flushed "b" 1 1), .flush (.flushed "a" 1 0)]) (by decide +kernel)
  exact ⟨s, singleFlight_of_run hrun, hlength⟩

end WorkloadAwareCompaction
