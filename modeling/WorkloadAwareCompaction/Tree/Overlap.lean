import WorkloadAwareCompaction.Library.Gate
import WorkloadAwareCompaction.Library.Simulation
import WorkloadAwareCompaction.Tree.Concurrent

/-!
# How many tasks overlapping callbacks can schedule

`ScheduleCompaction` tests the counter before it raises it, so that overlapping callbacks may pass
the test together. This file says how far that goes when nothing else is known about the
interleaving.

The counter itself never goes wrong: it counts the outstanding tasks and the increments whose task
is about to be enqueued, and it is back at 0 when both are gone. Since a task lowers it only when
its `CompactFiles` ends, a completing task never passes the test, and whatever is scheduled is
scheduled by the callback of a flush (`counterInv_of_run`).

To the callbacks of flushes the counter is a gate that is tested before it is counted
(`simulates_gate`). With `n` threads to run them, at most `n` tasks are outstanding
(`outstanding_le_of_run`), and `n` callbacks that see the same tree over its bounds can indeed
schedule the same task `n` times (`exists_run_replicate`).
-/

namespace WorkloadAwareCompaction

open FluidLSM Gate

/-! ## What a step does to the calls -/

/-- The steps of the system, seen from the calls, the counter and the queue. -/
inductive WorldStep (cfg : Config) (fp : DoubleArith) (s s' : World) : WorldEvent → Prop
  | flush (file : SstFileMetaData) : s'.running = s.running →
      s'.calls = s.calls ++ [⟨.onFlushCompleted, .entered⟩] → s'.queued = s.queued →
      WorldStep cfg fp s s' (.flush file)
  | advance {p : ℕ} {caller : Caller} {pc pc' : Pc} {tasks : List CompactionTask} :
      s.calls[p]? = some ⟨caller, pc⟩ →
      pc.step cfg fp s.db s.running = some (pc', s'.running, tasks) →
      s'.calls = s.calls.set p ⟨caller, pc'⟩ → s'.queued = s.queued ++ tasks →
      WorldStep cfg fp s s' (.advance p)
  /-- The call picks unless an IO error keeps it from it. -/
  | finish {task : CompactionTask} (outcome : Outcome) {pc : Pc} : pc = .entered ∨ pc = .returned →
      task ∈ s.queued → s'.running = s.running →
      s'.calls = s.calls ++ [⟨.compactFiles task, pc⟩] → s'.queued = s.queued.erase task →
      WorldStep cfg fp s s' (.finish task outcome)
  | retire {p : ℕ} {task : CompactionTask} : s.calls[p]? = some ⟨.compactFiles task, .returned⟩ →
      s'.running = s.running - 1 → s'.calls = s.calls.set p ⟨.compactFiles task, .exited⟩ →
      s'.queued = s.queued → WorldStep cfg fp s s' (.retire p)

section

variable {cfg : Config} {fp : DoubleArith} {db : ColumnFamilyMetaData} {s s' : World}
  {e : WorldEvent}

theorem worldStep_of_step (hs : s.step cfg fp e = some s') : WorldStep cfg fp s s' e := by
  match e with
  | .flush file =>
    obtain rfl := Option.some.inj hs
    exact .flush file rfl rfl rfl
  | .advance p =>
    cases hcall : s.calls[p]? with
    | none => exact absurd hs (by simp [World.step, hcall])
    | some call =>
      obtain ⟨caller, pc⟩ := call
      rw [World.step_advance hcall] at hs
      obtain ⟨⟨pc', running', tasks⟩, hpc, rfl⟩ := Option.map_eq_some_iff.mp hs
      exact .advance hcall hpc rfl rfl
  | .finish task (.success outputs) =>
    simp only [World.step] at hs
    split_ifs at hs with hmem
    obtain rfl := Option.some.inj hs
    exact .finish (.success outputs) (.inl rfl) hmem.1 rfl rfl rfl
  | .finish task (.failure status) =>
    simp only [World.step] at hs
    split_ifs at hs with hmem hstatus
    · obtain rfl := Option.some.inj hs
      exact .finish (.failure status) (.inl rfl) hmem rfl rfl rfl
    · obtain rfl := Option.some.inj hs
      exact .finish (.failure status) (.inr rfl) hmem rfl rfl rfl
  | .retire p =>
    simp only [World.step] at hs
    split at hs
    · rename_i task hcall
      obtain rfl := Option.some.inj hs
      exact .retire hcall rfl rfl rfl
    · exact absurd hs (by simp)

theorem countP_concat {α : Type*} (q : α → Bool) (l : List α) (a : α) :
    (l ++ [a]).countP q = l.countP q + (q a).toNat := by
  rw [List.countP_append, List.countP_singleton]
  cases q a <;> rfl

/-! ## The counter -/

/-- What holds of the counter in any interleaving. -/
structure CounterInv (s : World) : Prop where
  counted : s.running = s.calls.countP Call.isReserved + s.outstanding.length
  /-- Only the callbacks of flushes schedule. -/
  scheduling : ∀ call ∈ s.calls, call.isAdmitted = true ∨ call.isReserved = true →
    call.caller = .onFlushCompleted

/-- A task is unfinished as long as its call can make a step. -/
theorem isUnfinished_of_step {task : CompactionTask} {pc : Pc} {running : ℤ}
    {next : Pc × ℤ × List CompactionTask} (h : pc.step cfg fp db running = some next) :
    (Call.mk (.compactFiles task) pc).isUnfinished = true := by
  cases pc with
  | exited => exact absurd h (by simp [Pc.step])
  | entered | walking _ | admitted _ _ _ _ | reserved _ _ | returned => rfl

theorem counterInv_init (db : ColumnFamilyMetaData) : CounterInv (.init db) where
  counted := by simp [World.init, World.outstanding]
  scheduling := by simp [World.init]

/-- The counter keeps counting. -/
theorem CounterInv.counted_step (h : CounterInv s) (hs : WorldStep cfg fp s s' e) :
    s'.running = s'.calls.countP Call.isReserved + s'.outstanding.length := by
  have hcounted := h.counted
  rw [World.length_outstanding] at hcounted ⊢
  cases hs with
  | flush _ hrunning hcalls hqueued =>
    rw [hrunning, hcalls, hqueued, countP_concat, countP_concat]
    exact hcounted
  | @advance p caller pc pc' tasks hcall hpc hcalls hqueued =>
    obtain ⟨hunfinished, hrunning, hreserved, htasks, -⟩ := Pc.step_counts caller hpc
    have hR := countP_set_add Call.isReserved (b := ⟨caller, pc'⟩) hcall
    have hU := countP_set_add Call.isUnfinished (b := ⟨caller, pc'⟩) hcall
    rw [hreserved] at hR
    rw [hunfinished] at hU
    rw [hrunning, hcalls, hqueued, List.length_append, htasks]
    omega
  | @finish task _ pc hpc hmem hrunning hcalls hqueued =>
    have hlength := List.length_erase_add_one hmem
    have hnew : (Call.mk (.compactFiles task) pc).isReserved = false
        ∧ (Call.mk (.compactFiles task) pc).isUnfinished = true := by
      rcases hpc with rfl | rfl <;> exact ⟨rfl, rfl⟩
    rw [hrunning, hcalls, hqueued, countP_concat, countP_concat, hnew.1, hnew.2, Bool.toNat_false,
      Bool.toNat_true]
    omega
  | @retire p task hcall hrunning hcalls hqueued =>
    have hR := countP_set_add Call.isReserved (b := ⟨.compactFiles task, .exited⟩) hcall
    have hU := countP_set_add Call.isUnfinished (b := ⟨.compactFiles task, .exited⟩) hcall
    simp only [Call.isReserved, Call.isUnfinished, Call.unfinished, Option.isSome_some,
      Option.isSome_none, Bool.toNat_true, Bool.toNat_false] at hR hU
    rw [hrunning, hcalls, hqueued]
    omega

/-- A call whose test succeeds belongs to a flush: the counter counts the task of any other. -/
theorem CounterInv.caller_of_admitted (h : CounterInv s) {p : ℕ} {caller : Caller} {pc pc' : Pc}
    {running' : ℤ} {tasks : List CompactionTask} (hcall : s.calls[p]? = some ⟨caller, pc⟩)
    (hpc : pc.step cfg fp s.db s.running = some (pc', running', tasks))
    (hadmitted : (Call.mk caller pc').isAdmitted = true) : caller = .onFlushCompleted := by
  obtain ⟨-, -, -, -, htests⟩ := Pc.step_counts caller hpc
  have hfree := (htests hadmitted).2
  have hcounted := h.counted
  rw [World.length_outstanding] at hcounted
  rw [parallelCompactionsAllowed] at hfree
  cases caller with
  | onFlushCompleted => rfl
  | compactFiles task =>
    have hpos : 0 < s.calls.countP Call.isUnfinished :=
      List.countP_pos_iff.mpr ⟨_, List.mem_of_getElem? hcall, isUnfinished_of_step hpc⟩
    omega

/-- **The step lemma.** -/
theorem CounterInv.step (h : CounterInv s) (hs : WorldStep cfg fp s s' e) : CounterInv s' := by
  refine ⟨h.counted_step hs, fun call hmem hschedules ↦ ?_⟩
  cases hs with
  | flush _ _ hcalls _ =>
    rw [hcalls] at hmem
    rcases List.mem_append.mp hmem with hold | hnew
    · exact h.scheduling call hold hschedules
    · rw [List.mem_singleton.mp hnew]
  | @advance p caller pc pc' tasks hcall hpc hcalls _ =>
    rw [hcalls] at hmem
    rcases List.mem_or_eq_of_mem_set hmem with hold | rfl
    · exact h.scheduling call hold hschedules
    · rcases hschedules with hadmitted | hreserved
      · exact h.caller_of_admitted hcall hpc hadmitted
      · -- A call that raises the counter was admitted before.
        rw [(Pc.step_counts caller hpc).2.2.1] at hreserved
        exact h.scheduling ⟨caller, pc⟩ (List.mem_of_getElem? hcall) (.inl hreserved)
  | finish _ hpc _ _ hcalls _ =>
    rw [hcalls] at hmem
    rcases List.mem_append.mp hmem with hold | hnew
    · exact h.scheduling call hold hschedules
    · rw [List.mem_singleton.mp hnew] at hschedules
      rcases hpc with rfl | rfl <;>
        exact absurd hschedules (by simp [Call.isAdmitted, Call.isReserved])
  | retire _ _ hcalls _ =>
    rw [hcalls] at hmem
    rcases List.mem_or_eq_of_mem_set hmem with hold | rfl
    · exact h.scheduling call hold hschedules
    · exact absurd hschedules (by simp [Call.isAdmitted, Call.isReserved])

/-- **The counter in any interleaving.** No update of it is lost, and only the callbacks of flushes
schedule. -/
theorem counterInv_of_run {P : World → WorldEvent → Prop} {h : List WorldEvent}
    (hrun : (concurrentSystem cfg fp db).Run P h s) : CounterInv s :=
  hrun.invariant (I := fun _ s ↦ CounterInv s) (counterInv_init db)
    fun _ _ _ _ _ hinv _ hs ↦ hinv.step (worldStep_of_step hs)

/-- Two callbacks that race. -/
theorem counterInv_racing : ∃ s, CounterInv s ∧ s.running = 2 := by
  obtain ⟨s, hrun, hrunning⟩ :=
    StepSystem.exists_run_of_exec (M := concurrentSystem (.small 1 1 4) .exact (.empty 4))
      (P := fun _ _ ↦ True) (R := fun s ↦ s.running = 2) (h := racingCallbacks) (by decide +kernel)
  exact ⟨s, counterInv_of_run hrun, hrunning⟩

/-! ## Threads -/

/-- The callback of a flush is in progress. -/
def Call.isFlushing : Call → Bool
  | ⟨.onFlushCompleted, .returned⟩ => false
  | ⟨.onFlushCompleted, _⟩ => true
  | ⟨.compactFiles _, _⟩ => false

/-- The callbacks of flushes run in `n` threads, one at a time in each. -/
def FlushThreads (n : ℕ) (s : World) : WorldEvent → Prop
  | .flush _ => s.calls.countP Call.isFlushing < n
  | .advance _ => True
  | .finish _ _ => True
  | .retire _ => True

instance (n : ℕ) (s : World) : ∀ e, Decidable (FlushThreads n s e)
  | .flush _ => inferInstanceAs (Decidable (_ < n))
  | .advance _ => .isTrue trivial
  | .finish _ _ => .isTrue trivial
  | .retire _ => .isTrue trivial

/-- A callback that makes a step has been in progress. -/
theorem isFlushing_of_step {caller : Caller} {pc pc' : Pc} {running running' : ℤ}
    {tasks : List CompactionTask} (h : pc.step cfg fp db running = some (pc', running', tasks))
    (hflushing : (Call.mk caller pc').isFlushing = true) :
    (Call.mk caller pc).isFlushing = true := by
  match caller with
  | .compactFiles _ => exact hflushing
  | .onFlushCompleted =>
    cases pc with
    | returned | exited => exact absurd h (by simp [Pc.step])
    | entered | walking _ | admitted _ _ _ _ | reserved _ _ => rfl

/-- No step but the completion of a flush needs a thread. -/
theorem countP_isFlushing_step {n : ℕ} (hle : s.calls.countP Call.isFlushing ≤ n)
    (hthreads : FlushThreads n s e) (hs : WorldStep cfg fp s s' e) :
    s'.calls.countP Call.isFlushing ≤ n := by
  cases hs with
  | flush _ _ hcalls _ =>
    have hfree : s.calls.countP Call.isFlushing < n := hthreads
    rw [hcalls, countP_concat]
    exact hfree
  | @advance p caller pc pc' tasks hcall hpc hcalls _ =>
    have hF := countP_set_add Call.isFlushing (b := ⟨caller, pc'⟩) hcall
    have hmono : (Call.mk caller pc').isFlushing.toNat ≤ (Call.mk caller pc).isFlushing.toNat :=
      Bool.toNat_le_toNat (Bool.le_iff_imp.mpr (isFlushing_of_step hpc))
    rw [hcalls]
    omega
  | finish _ _ _ _ hcalls _ =>
    rw [hcalls, countP_concat]
    exact hle
  | @retire p task hcall _ hcalls _ =>
    have hF := countP_set_add Call.isFlushing (b := ⟨.compactFiles task, .exited⟩) hcall
    simp only [Call.isFlushing, Bool.toNat_false] at hF
    rw [hcalls]
    omega

theorem countP_isFlushing_of_run {n : ℕ} {h : List WorldEvent}
    (hrun : (concurrentSystem cfg fp db).Run (FlushThreads n) h s) :
    s.calls.countP Call.isFlushing ≤ n :=
  hrun.invariant (I := fun _ s ↦ s.calls.countP Call.isFlushing ≤ n) (Nat.zero_le n)
    fun _ _ _ _ _ hinv hthreads hs ↦ countP_isFlushing_step hinv hthreads (worldStep_of_step hs)

/-- Whoever has passed the test runs in a thread of its own. -/
theorem CounterInv.countP_isAdmitted_le (h : CounterInv s) :
    s.calls.countP Call.isAdmitted ≤ s.calls.countP Call.isFlushing := by
  refine List.countP_mono_left fun call hmem hadmitted ↦ ?_
  obtain ⟨caller, pc⟩ := call
  obtain rfl : caller = .onFlushCompleted := h.scheduling _ hmem (.inl hadmitted)
  cases pc with
  | admitted _ _ _ _ => rfl
  | entered | walking _ | reserved _ _ | returned | exited => exact absurd hadmitted Bool.false_ne_true

/-! ## The gate -/

/-- The gate as the callbacks of flushes see it. -/
def World.gate (s : World) : Gate.State where
  admitted := s.calls.countP Call.isAdmitted
  inside := s.calls.countP Call.isReserved + s.outstanding.length

/-- What is seen of the gate: tasks that end. -/
def WorldEvent.ends : WorldEvent → Option Unit
  | flush _ => none
  | advance _ => none
  | finish _ _ => none
  | retire _ => some ()

def gateEnds : Gate.Event → Option Unit
  | .pass => none
  | .enter => none
  | .leave => some ()

/-- Nothing comes to the gate before its call makes a step. -/
theorem gate_eq_of_spawn {call : Call} (hadmitted : call.isAdmitted = false)
    (hreserved : call.isReserved = false) (hcalls : s'.calls = s.calls ++ [call])
    (hqueued : s'.queued.length + call.isUnfinished.toNat = s.queued.length) :
    s'.gate = s.gate := by
  rw [World.gate, World.gate, World.length_outstanding, World.length_outstanding, hcalls,
    countP_concat, countP_concat, countP_concat, hadmitted, hreserved, Bool.toNat_false]
  congr 1
  omega

/-- A call that raises the counter is past the test. -/
theorem isAdmitted_of_isReserved {call : Call} (h : call.isReserved = true) :
    call.isAdmitted = false := by
  match call, h with
  | ⟨_, .reserved _ _⟩, _ => rfl

/-- A step of a call is an increment, a test that succeeds, or nothing to the gate. -/
theorem gate_advance {p : ℕ} {caller : Caller} {pc pc' : Pc} {running' : ℤ}
    {tasks : List CompactionTask} (hcall : s.calls[p]? = some ⟨caller, pc⟩)
    (hpc : pc.step cfg fp s.db s.running = some (pc', running', tasks))
    (hcalls : s'.calls = s.calls.set p ⟨caller, pc'⟩) (hqueued : s'.queued = s.queued ++ tasks) :
    0 < s.gate.admitted ∧ s'.gate = ⟨s.gate.admitted - 1, s.gate.inside + 1⟩
      ∨ s.running < parallelCompactionsAllowed ∧ s'.gate = ⟨s.gate.admitted + 1, s.gate.inside⟩
      ∨ s'.gate = s.gate := by
  obtain ⟨hunfinished, -, hreserved, htasks, htests⟩ := Pc.step_counts caller hpc
  have hA := countP_set_add Call.isAdmitted (b := ⟨caller, pc'⟩) hcall
  have hR := countP_set_add Call.isReserved (b := ⟨caller, pc'⟩) hcall
  have hU := countP_set_add Call.isUnfinished (b := ⟨caller, pc'⟩) hcall
  rw [hreserved] at hR
  rw [hunfinished] at hU
  have hadmitted : s'.gate.admitted + (Call.mk caller pc).isAdmitted.toNat
      = s.gate.admitted + (Call.mk caller pc').isAdmitted.toNat := by
    rw [World.gate, World.gate, hcalls]
    exact hA
  -- What the increment adds to the count stays there when the task is enqueued.
  have hinside : s'.gate.inside = s.gate.inside + (Call.mk caller pc).isAdmitted.toNat := by
    rw [World.gate, World.gate, World.length_outstanding, World.length_outstanding, hcalls,
      hqueued, List.length_append, htasks]
    dsimp only
    omega
  cases hbefore : (Call.mk caller pc).isAdmitted with
  | true =>
    rw [hbefore, isAdmitted_of_isReserved (hreserved.trans hbefore), Bool.toNat_true,
      Bool.toNat_false] at hadmitted
    rw [hbefore, Bool.toNat_true] at hinside
    exact .inl ⟨by omega, Gate.State.ext (by dsimp only; omega) hinside⟩
  | false =>
    rw [hbefore, Bool.toNat_false] at hadmitted hinside
    cases hafter : (Call.mk caller pc').isAdmitted with
    | true =>
      rw [hafter, Bool.toNat_true] at hadmitted
      exact .inr (.inl ⟨(htests hafter).2, Gate.State.ext hadmitted hinside⟩)
    | false =>
      rw [hafter, Bool.toNat_false] at hadmitted
      exact .inr (.inr (Gate.State.ext hadmitted hinside))

/-- A task that ends leaves the gate. -/
theorem gate_retire {p : ℕ} {task : CompactionTask}
    (hcall : s.calls[p]? = some ⟨.compactFiles task, .returned⟩)
    (hcalls : s'.calls = s.calls.set p ⟨.compactFiles task, .exited⟩)
    (hqueued : s'.queued = s.queued) :
    0 < s.gate.inside ∧ s'.gate = ⟨s.gate.admitted, s.gate.inside - 1⟩ := by
  have hA := countP_set_add Call.isAdmitted (b := ⟨.compactFiles task, .exited⟩) hcall
  have hR := countP_set_add Call.isReserved (b := ⟨.compactFiles task, .exited⟩) hcall
  have hU := countP_set_add Call.isUnfinished (b := ⟨.compactFiles task, .exited⟩) hcall
  simp only [Call.isAdmitted, Call.isReserved, Call.isUnfinished, Call.unfinished,
    Option.isSome_some, Option.isSome_none, Bool.toNat_true, Bool.toNat_false] at hA hR hU
  rw [World.gate, World.gate, World.length_outstanding, World.length_outstanding, hcalls, hqueued]
  dsimp only
  refine ⟨by omega, Gate.State.ext ?_ ?_⟩ <;> dsimp only <;> omega

/-- **The counter is a gate that is tested before it is counted.** The callbacks of flushes come to
it, as many at a time as there are threads, and tasks that end leave it. -/
theorem simulates_gate {n : ℕ} : StepSystem.Simulates (concurrentSystem cfg fp db) (FlushThreads n)
    (gateSystem 1) (Crowd n) WorldEvent.ends gateEnds (fun s g ↦ g = s.gate) where
  init := rfl
  step := by
    rintro s s' g e ⟨h, hrun⟩ rfl hthreads hs
    cases worldStep_of_step hs with
    | flush _ _ hcalls hqueued =>
      refine ⟨[], s.gate, .refl _, rfl, (gate_eq_of_spawn rfl rfl hcalls ?_).symm⟩
      rw [hqueued]
      rfl
    | advance hcall hpc hcalls hqueued =>
      rcases gate_advance hcall hpc hcalls hqueued with
        ⟨hpos, hgate⟩ | ⟨hfree, hgate⟩ | hgate
      · exact ⟨[.enter], _, .single trivial (step_enter hpos), rfl, hgate.symm⟩
      · -- The counter is what is inside, and everyone admitted occupies a thread.
        have hcounted : s.running = s.gate.inside := by
          rw [(counterInv_of_run hrun).counted, World.gate, Nat.cast_add]
        have hrun' := hrun.step hthreads hs
        have hcrowd : s'.gate.admitted ≤ n :=
          (counterInv_of_run hrun').countP_isAdmitted_le.trans (countP_isFlushing_of_run hrun')
        rw [hcounted, parallelCompactionsAllowed] at hfree
        rw [hgate] at hcrowd
        exact ⟨[.pass], _, .single hcrowd (step_pass (by omega)), rfl, hgate.symm⟩
      · exact ⟨[], s.gate, .refl _, rfl, hgate.symm⟩
    | finish _ hpc hmem _ hcalls hqueued =>
      refine ⟨[], s.gate, .refl _, rfl, ?_⟩
      have hlength := List.length_erase_add_one hmem
      rcases hpc with rfl | rfl
      · exact (gate_eq_of_spawn rfl rfl hcalls (by rw [hqueued]; exact hlength)).symm
      · exact (gate_eq_of_spawn rfl rfl hcalls (by rw [hqueued]; exact hlength)).symm
    | retire hcall _ hcalls hqueued =>
      obtain ⟨hpos, hgate⟩ := gate_retire hcall hcalls hqueued
      exact ⟨[.leave], _, .single trivial (step_leave hpos), rfl, hgate.symm⟩

/-- **As many tasks as threads.** Whatever the interleaving, no more tasks are outstanding than
there are threads for the callbacks of flushes. -/
theorem outstanding_le_of_run {n : ℕ} {h : List WorldEvent}
    (hrun : (concurrentSystem cfg fp db).Run (FlushThreads n) h s) : s.outstanding.length ≤ n := by
  obtain ⟨h', g, hgate, -, rfl⟩ := simulates_gate.run hrun
  have hinside := inside_le_of_run hgate
  rw [World.gate] at hinside
  dsimp only at hinside
  omega

/-- The two callbacks that race, in two threads. -/
theorem outstanding_le_racing : ∃ s : World, s.outstanding.length ≤ 2 ∧ s.running = 2 := by
  obtain ⟨s, hrun, hrunning⟩ :=
    StepSystem.exists_run_of_exec (M := concurrentSystem (.small 1 1 4) .exact (.empty 4))
      (P := FlushThreads 2) (R := fun s ↦ s.running = 2) (h := racingCallbacks) (by decide +kernel)
  exact ⟨s, outstanding_le_of_run hrun, hrunning⟩

/-! ## The bound is attained -/

/-- Calls at the same place make the same step, one after the other; `running i` is the counter
after `i` of them. -/
theorem exists_steps_lockstep (db : ColumnFamilyMetaData) (n : ℕ) (caller : Caller)
    {db' : ColumnFamilyMetaData} {pc pc' : Pc} {running : ℕ → ℤ} {tasks : List CompactionTask}
    (hstep : ∀ i, pc.step cfg fp db' (running i) = some (pc', running (i + 1), tasks))
    (k m : ℕ) (queued : List CompactionTask) :
    ∃ h, (concurrentSystem cfg fp db).Steps (FlushThreads n) h
      ⟨db', running k, List.replicate k ⟨caller, pc'⟩ ++ List.replicate m ⟨caller, pc⟩, queued⟩
      ⟨db', running (k + m), List.replicate (k + m) ⟨caller, pc'⟩,
        queued ++ (List.replicate m tasks).flatten⟩ := by
  induction m generalizing k queued with
  | zero =>
    rw [List.replicate_zero, List.replicate_zero, List.flatten_nil, List.append_nil,
      List.append_nil]
    exact ⟨[], .refl _⟩
  | succ m ih =>
    -- The next one is the first that has not moved yet.
    obtain ⟨h, hsteps⟩ := ih (k + 1) (queued ++ tasks)
    have hcall : (List.replicate k (Call.mk caller pc')
        ++ List.replicate (m + 1) (Call.mk caller pc))[k]? = some ⟨caller, pc⟩ := by
      rw [List.getElem?_append_right (by rw [List.length_replicate]), List.length_replicate,
        Nat.sub_self, List.replicate_succ]
      rfl
    have hset : (List.replicate k (Call.mk caller pc')
          ++ List.replicate (m + 1) (Call.mk caller pc)).set k ⟨caller, pc'⟩
        = List.replicate (k + 1) ⟨caller, pc'⟩ ++ List.replicate m ⟨caller, pc⟩ := by
      rw [List.set_append_right _ _ (by rw [List.length_replicate]), List.length_replicate,
        Nat.sub_self, List.replicate_succ, List.replicate_succ', List.append_assoc]
      rfl
    have hs : (concurrentSystem cfg fp db).step
        ⟨db', running k, List.replicate k ⟨caller, pc'⟩ ++ List.replicate (m + 1) ⟨caller, pc⟩,
          queued⟩ (.advance k)
        = some ⟨db', running (k + 1),
            List.replicate (k + 1) ⟨caller, pc'⟩ ++ List.replicate m ⟨caller, pc⟩,
            queued ++ tasks⟩ := by
      have hadvance : World.step cfg fp ⟨db', running k, _, queued⟩ (.advance k) = _ :=
        World.step_advance hcall
      rw [hstep, Option.map_some, hset] at hadvance
      exact hadvance
    refine ⟨h ++ [.advance k], ?_⟩
    have hflatten : queued ++ (List.replicate (m + 1) tasks).flatten
        = queued ++ tasks ++ (List.replicate m tasks).flatten := by
      rw [List.replicate_succ, List.flatten_cons, List.append_assoc]
    rw [hflatten, show k + (m + 1) = k + 1 + m from by omega]
    exact (StepSystem.Steps.single (Q := FlushThreads n) (e := .advance k) trivial hs).trans hsteps

/-- All calls move on from the same place. -/
theorem exists_run_lockstep {n m : ℕ} {db' : ColumnFamilyMetaData} {caller : Caller} {pc pc' : Pc}
    {tasks queued : List CompactionTask} {h : List WorldEvent} (running : ℕ → ℤ)
    (hrun : (concurrentSystem cfg fp db).Run (FlushThreads n) h
      ⟨db', running 0, List.replicate m ⟨caller, pc⟩, queued⟩)
    (hstep : ∀ i, pc.step cfg fp db' (running i) = some (pc', running (i + 1), tasks)) :
    ∃ h', (concurrentSystem cfg fp db).Run (FlushThreads n) h'
      ⟨db', running m, List.replicate m ⟨caller, pc'⟩,
        queued ++ (List.replicate m tasks).flatten⟩ := by
  obtain ⟨h', hsteps⟩ := exists_steps_lockstep db n caller hstep 0 m queued
  rw [Nat.zero_add] at hsteps
  exact ⟨h' ++ h, hrun.append hsteps⟩

/-- All threads take a flush each. -/
theorem exists_run_flushes (cfg : Config) (fp : DoubleArith) (db : ColumnFamilyMetaData) {n : ℕ}
    (files : List SstFileMetaData) (hle : files.length ≤ n) :
    ∃ h, (concurrentSystem cfg fp db).Run (FlushThreads n) h
      ⟨files.foldl ColumnFamilyMetaData.addFlushed db, 0,
        List.replicate files.length ⟨.onFlushCompleted, .entered⟩, []⟩ := by
  induction files using List.reverseRecOn with
  | nil => exact ⟨[], .start⟩
  | append_singleton files file ih =>
    rw [List.length_append, List.length_singleton] at hle
    obtain ⟨h, hrun⟩ := ih (by omega)
    refine ⟨.flush file :: h, hrun.step ?_ ?_⟩
    · show (List.replicate files.length (Call.mk .onFlushCompleted .entered)).countP Call.isFlushing
        < n
      rw [List.countP_replicate, if_pos (by rfl)]
      omega
    · rw [List.foldl_concat, List.length_append, List.length_singleton, List.replicate_succ']
      rfl

theorem nextOverBound_of_deepest {t : FluidLSM} {largestLvl lvl n : ℕ} (hlt : lvl < n)
    (hover : t.overBound largestLvl lvl = true)
    (hdeepest : ∀ m, lvl < m → t.overBound largestLvl m = false) :
    t.nextOverBound largestLvl n = some lvl := by
  induction n with
  | zero => exact absurd hlt (Nat.not_lt_zero _)
  | succ n ih =>
    rcases Nat.lt_succ_iff_lt_or_eq.mp hlt with hlt' | rfl
    · rw [nextOverBound, if_neg (by rw [hdeepest n hlt']; decide)]
      exact ih hlt'
    · exact nextOverBound_succ_of_over hover

/-- What a call does on a tree where a pick schedules a task: it passes the test, raises the counter
and enqueues the task. -/
theorem exists_pcs_of_pick {db' : ColumnFamilyMetaData} {t' : FluidLSM} {task : CompactionTask}
    (hpick : (FluidLSM.new cfg).pickCompaction fp db' = some (t', [task])) :
    ∃ walking admitted reserved left : Pc,
      (∀ r, Pc.entered.step cfg fp db' r = some (walking, r, []))
        ∧ walking.step cfg fp db' 0 = some (admitted, 0, [])
        ∧ (∀ r, admitted.step cfg fp db' r = some (reserved, r + 1, []))
        ∧ (∀ r, reserved.step cfg fp db' r = some (left, r, [task]))
        ∧ (Call.mk .onFlushCompleted left).unfinished = none := by
  have hidle : (fluidView cfg db').parallelCompactionsRunning = 0 :=
    parallelCompactionsRunning_fluidView
  rcases forall_or_deepestOverBound (fluidView cfg db') with hwithin | ⟨lvl, hdeepest⟩
  · rw [pickCompaction_of_forall fp hwithin] at hpick
    exact absurd hpick (by simp)
  · have hlt := Nat.lt_succ_of_le (le_of_overBound hdeepest.1)
    have hnext := nextOverBound_of_deepest hlt hdeepest.1 hdeepest.2
    have hschedule : (FluidLSM.new cfg).pickCompaction fp db' = _ :=
      pickLoop_of_deepest fp hidle hlt hdeepest.1 hdeepest.2
    rw [hpick, scheduleCompaction, hidle, if_pos (by decide)] at hschedule
    cases hout : (fluidView cfg db').outputLvl lvl ((fluidView cfg db').getCompactionTargetLevel fp
        lvl ((fluidView cfg db').addFilesToCompaction lvl [])) with
    | none =>
      rw [hout] at hschedule
      exact absurd hschedule (by simp)
    | some out =>
      rw [hout] at hschedule
      obtain ⟨-, htask⟩ := Prod.mk.inj (Option.some.inj hschedule)
      obtain rfl := List.singleton_inj.mp htask
      have hwalking : (Pc.walking ⟨fluidView cfg db', (fluidView cfg db').getLargestOccupiedLevel,
          (fluidView cfg db').getLargestOccupiedLevel + 1⟩).step cfg fp db' 0
          = some (.admitted ⟨fluidView cfg db', (fluidView cfg db').getLargestOccupiedLevel, lvl⟩
              ((fluidView cfg db').getCompactionTargetLevel fp lvl
                ((fluidView cfg db').addFilesToCompaction lvl [])) out
              ((fluidView cfg db').addFilesToCompaction lvl []), 0, []) := by
        simp only [Pc.step, hnext]
        rw [if_pos (by decide), hout]
        rfl
      exact ⟨_, _, _, _, fun r ↦ rfl, hwalking, fun r ↦ rfl, fun r ↦ rfl, rfl⟩

/-- **Every thread can schedule the task once.** Where a pick on an idle tree would schedule a task
after some flushes, the overlapping callbacks of these flushes can all schedule it. -/
theorem exists_run_replicate {files : List SstFileMetaData} {t' : FluidLSM} {task : CompactionTask}
    (hpick : (FluidLSM.new cfg).pickCompaction fp (files.foldl ColumnFamilyMetaData.addFlushed db)
      = some (t', [task])) :
    ∃ h s, (concurrentSystem cfg fp db).Run (FlushThreads files.length) h s
      ∧ s.outstanding = List.replicate files.length task := by
  obtain ⟨walking, admitted, reserved, left, hentered, hwalking, hadmitted, hreserved, hleft⟩ :=
    exists_pcs_of_pick hpick
  obtain ⟨h₀, hflushes⟩ := exists_run_flushes cfg fp db files le_rfl
  -- All rebuild, all pass the test, all raise the counter, and all enqueue.
  obtain ⟨h₁, hrebuilt⟩ := exists_run_lockstep (fun _ ↦ 0) hflushes fun _ ↦ hentered 0
  obtain ⟨h₂, htested⟩ := exists_run_lockstep (fun _ ↦ 0) hrebuilt fun _ ↦ hwalking
  obtain ⟨h₃, hraised⟩ := exists_run_lockstep (fun i ↦ i) htested fun i ↦ by
    rw [hadmitted, Nat.cast_add, Nat.cast_one]
  obtain ⟨h₄, henqueued⟩ := exists_run_lockstep (fun _ ↦ (files.length : ℤ)) hraised
    fun _ ↦ hreserved files.length
  refine ⟨h₄, _, henqueued, ?_⟩
  rw [World.outstanding]
  simp [hleft]

/-- Three callbacks that see three runs. -/
theorem exists_run_replicate_small :
    ∃ task h s, (concurrentSystem (.small 1 1 4) .exact (.empty 4)).Run (FlushThreads 3) h s
      ∧ s.outstanding = List.replicate 3 task ∧ task.inputFileNames = ["c", "b", "a"] := by
  have hpick : ((FluidLSM.new (.small 1 1 4)).pickCompaction .exact
      ([.flushed "a" 1 0, .flushed "b" 1 1, .flushed "c" 1 2].foldl
        ColumnFamilyMetaData.addFlushed (.empty 4))).any
      (fun picked ↦ picked.2.map CompactionTask.inputFileNames = [["c", "b", "a"]]) = true := by
    decide +kernel
  obtain ⟨⟨t', tasks⟩, hpick, hsingle⟩ := (Option.any_eq_true _ _).mp hpick
  obtain ⟨task, rfl, hnames⟩ := List.map_eq_singleton_iff.mp (of_decide_eq_true hsingle)
  obtain ⟨h, s, hrun, houtstanding⟩ := exists_run_replicate hpick
  exact ⟨task, h, s, hrun, houtstanding, hnames⟩

end

end WorkloadAwareCompaction
