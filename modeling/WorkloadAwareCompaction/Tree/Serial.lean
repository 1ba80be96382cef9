import WorkloadAwareCompaction.Library.Simulation
import WorkloadAwareCompaction.Tree.Concurrent
import WorkloadAwareCompaction.Tree.Reachable

/-!
# Callbacks that do not overlap

The tree's own system runs every callback to its end in one step, and the concurrent one in many.
This file says when the former may stand for the latter: when no flush completes and no task returns
while a callback is still in progress (`Serial`). Seen from outside, by the flushes, the returns of
tasks, the metadata, the counter and the queue, the two systems then have the same runs.

One direction carries out every atomic step as a callback that nobody interrupts. In the other a
callback is caught halfway, and what matters about it is what it will do when left alone
(`Call.finish`): that is decided when the callback starts, and no step of it changes it.
-/

namespace WorkloadAwareCompaction

open FluidLSM

/-! ## What the outside sees -/

def WorldEvent.visible : WorldEvent → Option TreeEvent
  | flush file => some (.flush file)
  | finish task outcome => some (.compact task outcome)
  | advance _ => none
  | retire _ => none

/-- The callback is over. -/
def Call.isDone : Call → Bool
  | ⟨.onFlushCompleted, .returned⟩ => true
  | ⟨.compactFiles _, .exited⟩ => true
  | _ => false

/-- No callback is in progress. -/
def World.Quiet (w : World) : Prop := ∀ call ∈ w.calls, call.isDone = true

instance (w : World) : Decidable w.Quiet :=
  inferInstanceAs (Decidable (∀ call ∈ w.calls, call.isDone = true))

/-- A callback starts only when none is in progress, and the store keeps its promises. -/
def Serial (cfg : Config) (w : World) (e : WorldEvent) : Prop :=
  ∀ e' ∈ e.visible, w.Quiet ∧ Promised ⟨w.db, .new cfg, w.queued⟩ e'

instance (cfg : Config) (w : World) (e : WorldEvent) : Decidable (Serial cfg w e) :=
  inferInstanceAs (Decidable (∀ e' ∈ e.visible, _))

/-- The world and the tree's own state agree on all that the outside sees. -/
structure Agree (w : World) (s : TreeState) : Prop where
  db : w.db = s.db
  running : w.running = s.tree.parallelCompactionsRunning
  queued : w.queued = s.tasks

instance (w : World) (s : TreeState) : Decidable (Agree w s) :=
  decidable_of_iff (w.db = s.db ∧ w.running = s.tree.parallelCompactionsRunning
    ∧ w.queued = s.tasks) ⟨fun h ↦ ⟨h.1, h.2.1, h.2.2⟩, fun h ↦ ⟨h.db, h.running, h.queued⟩⟩

section

variable {cfg : Config} {fp : DoubleArith} {db : ColumnFamilyMetaData} {w w' : World}
  {s s' : TreeState}

/-- What the store promises depends on the metadata alone. -/
theorem promised_congr (h : s.db = s'.db) (e : TreeEvent) : Promised s e ↔ Promised s' e := by
  match e with
  | .flush _ | .compact _ (.success _) => simp only [Promised, h]
  | .compact _ (.failure _) => exact Iff.rfl

theorem coherent_of_run {P : TreeState → TreeEvent → Prop} {h : List TreeEvent}
    (hrun : (treeSystem cfg fp).Run P h s) : Coherent cfg s :=
  hrun.invariant (I := fun _ s ↦ Coherent cfg s) (coherent_init cfg)
    fun _ _ _ _ _ hcoh _ hs ↦ (hcoh.step hs).1

/-! ## From atomic steps to callbacks -/

/-- The call that a callback starts with: it picks unless an IO error keeps it from it. -/
def Call.start (caller : Caller) (picks : Bool) : Call :=
  ⟨caller, if picks then .entered else .returned⟩

theorem filterMap_visible_advances (k p : ℕ) :
    (List.replicate k (WorldEvent.advance p)).reverse.filterMap WorldEvent.visible = [] := by
  rw [List.filterMap_eq_nil_iff]
  intro e he
  rw [List.mem_reverse] at he
  rw [List.eq_of_mem_replicate he]
  rfl

/-- A callback left alone goes through its pick. -/
theorem exists_steps_pick (fp : DoubleArith) (db : ColumnFamilyMetaData) (w : World) (picks : Bool)
    {calls : List Call} {caller : Caller} {t t' : FluidLSM} {tasks : List CompactionTask}
    (hcfg : t.toConfig = cfg)
    (ht : t.lazyLevels.length = cfg.options.numLevels)
    (hrunning : t.parallelCompactionsRunning = w.running)
    (hcalls : w.calls = calls ++ [Call.start caller picks])
    (hpick : (if picks then t.pickCompaction fp w.db else some (t, [])) = some (t', tasks)) :
    ∃ h, (concurrentSystem cfg fp db).Steps (Serial cfg) h w { w with
        running := t'.parallelCompactionsRunning
        calls := calls ++ [⟨caller, .returned⟩]
        queued := w.queued ++ tasks } ∧ h.filterMap WorldEvent.visible = [] := by
  cases picks with
  | false =>
    obtain ⟨rfl, rfl⟩ := Prod.mk.inj (Option.some.inj hpick)
    refine ⟨[], ?_, rfl⟩
    have hsame : { w with
        running := t.parallelCompactionsRunning
        calls := calls ++ [⟨caller, .returned⟩]
        queued := w.queued ++ [] } = w := by
      rw [hrunning, List.append_nil]
      cases w
      simp_all [Call.start]
    rw [hsame]
    exact .refl w
  | true =>
    have hcall : w.calls[calls.length]? = some ⟨caller, .entered⟩ := by
      rw [hcalls, List.getElem?_concat_length]
      rfl
    obtain ⟨k, hk⟩ := exists_advances_pickCompaction hcfg ht hrunning hcall hpick
    refine ⟨_, .of_foldlM (fun e he w ↦ ?_) ?_, filterMap_visible_advances k calls.length⟩
    · rw [List.eq_of_mem_replicate he]
      exact fun _ h ↦ absurd h (by simp [WorldEvent.visible])
    · rw [hcalls, List.set_append_right _ _ le_rfl, Nat.sub_self] at hk
      exact hk

theorem World.Quiet.append {calls : List Call} {call : Call}
    (h : ∀ call ∈ calls, call.isDone = true) (hcall : call.isDone = true) (db : ColumnFamilyMetaData)
    (running : ℤ) (queued : List CompactionTask) :
    World.Quiet ⟨db, running, calls ++ [call], queued⟩ := by
  intro other hother
  rcases List.mem_append.mp hother with hother | hother
  · exact h other hother
  · rw [List.mem_singleton.mp hother]
    exact hcall

/-- A task's callback: the store's `CompactFiles` returns, the callback picks, and the counter is
lowered. -/
theorem exists_steps_compactFiles (status : Status) {task : CompactionTask} {outcome : Outcome}
    {db' : ColumnFamilyMetaData} {t' : FluidLSM} {tasks : List CompactionTask}
    (hcoh : Coherent cfg s) (hagree : Agree w s) (hquiet : w.Quiet)
    (hp : Promised s (.compact task outcome))
    (hfinish : w.step cfg fp (.finish task outcome) = some { w with
      db := db'
      calls := w.calls ++ [.start (.compactFiles task) (status ≠ .ioError)]
      queued := w.queued.erase task })
    (hdone : s.tree.compactFiles fp db' status = some (t', tasks)) :
    ∃ h w', (concurrentSystem cfg fp db).Steps (Serial cfg) h w w'
      ∧ h.filterMap WorldEvent.visible = [.compact task outcome]
      ∧ Agree w' ⟨db', t', s.tasks.erase task ++ tasks⟩ ∧ w'.Quiet := by
  obtain ⟨⟨t₁, tasks₁⟩, hpick, heq⟩ := Option.map_eq_some_iff.mp hdone
  obtain ⟨rfl, rfl⟩ := Prod.mk.inj heq
  have hserial : Serial cfg w (.finish task outcome) := by
    rintro e he
    obtain rfl := Option.some.inj he
    exact ⟨hquiet, (promised_congr (by exact hagree.db.symm) _).mp hp⟩
  obtain ⟨h, hsteps, hvisible⟩ := exists_steps_pick fp db
    { w with
      db := db'
      calls := w.calls ++ [.start (.compactFiles task) (status ≠ .ioError)]
      queued := w.queued.erase task }
    (status ≠ .ioError) hcoh.config hcoh.cached hagree.running.symm rfl (by simpa using hpick)
  refine ⟨.retire w.calls.length :: (h ++ [.finish task outcome]),
    ⟨db', t₁.parallelCompactionsRunning - 1, w.calls ++ [⟨.compactFiles task, .exited⟩],
      w.queued.erase task ++ tasks₁⟩,
    .step ((StepSystem.Steps.single hserial hfinish).trans hsteps) ?_ ?_, ?_, ?_, ?_⟩
  · exact fun _ h ↦ absurd h (by simp [WorldEvent.visible])
  · simp [concurrentSystem, World.step]
  · rw [List.filterMap_cons, List.filterMap_append, hvisible]
    rfl
  · exact ⟨rfl, rfl, by rw [hagree.queued]⟩
  · exact World.Quiet.append hquiet rfl _ _ _

/-- **Every atomic run is a run of callbacks that do not overlap.** -/
theorem simulates_concurrent : StepSystem.Simulates (treeSystem cfg fp) Promised
    (concurrentSystem cfg fp (.empty cfg.options.numLevels)) (Serial cfg) some WorldEvent.visible
    (fun s w ↦ Agree w s ∧ w.Quiet) where
  init := ⟨⟨rfl, rfl, rfl⟩, by simp [World.Quiet, concurrentSystem, World.init]⟩
  step := by
    rintro s s' w e ⟨h, hrun⟩ ⟨hagree, hquiet⟩ hp hs
    have hcoh := coherent_of_run hrun
    cases e with
    | flush file =>
      obtain ⟨⟨t', tasks⟩, hpick, rfl⟩ := Option.map_eq_some_iff.mp hs
      have hserial : Serial cfg w (.flush file) := by
        rintro e he
        obtain rfl := Option.some.inj he
        exact ⟨hquiet, (promised_congr (by exact hagree.db.symm) _).mp hp⟩
      obtain ⟨h', hsteps, hvisible⟩ := exists_steps_pick fp (.empty cfg.options.numLevels)
        { w with
          db := w.db.addFlushed file
          calls := w.calls ++ [.start .onFlushCompleted true] }
        true hcoh.config hcoh.cached hagree.running.symm rfl (by rw [hagree.db]; exact hpick)
      refine ⟨h' ++ [.flush file], _, (StepSystem.Steps.single hserial rfl).trans hsteps, ?_,
        ⟨by rw [hagree.db], rfl, by rw [hagree.queued]⟩, World.Quiet.append hquiet rfl _ _ _⟩
      rw [List.filterMap_append, hvisible]
      rfl
    | compact task outcome =>
      cases outcome with
      | success outputs =>
        simp only [treeSystem, TreeState.step] at hs
        split_ifs at hs with hmem
        obtain ⟨⟨t', tasks⟩, hdone, rfl⟩ := Option.map_eq_some_iff.mp hs
        refine exists_steps_compactFiles .ok hcoh hagree hquiet hp ?_ hdone
        simp only [World.step]
        rw [hagree.queued, hagree.db, if_pos hmem]
        rfl
      | failure status =>
        simp only [treeSystem, TreeState.step] at hs
        split_ifs at hs with hmem
        obtain ⟨⟨t', tasks⟩, hdone, rfl⟩ := Option.map_eq_some_iff.mp hs
        refine exists_steps_compactFiles status hcoh hagree hquiet hp ?_ hdone
        simp only [World.step]
        rw [hagree.queued, if_pos hmem, hagree.db]
        simp [Call.start]

end

/-! ## What a callback will do

The counter and the tasks that a call leaves behind if nothing comes between its steps. -/

/-- The loop of `PickCompaction` from a level on. -/
def Walk.finish (fp : DoubleArith) (running : ℤ) (w : Walk) : Option (ℤ × List CompactionTask) :=
  (pickLoop fp w.largestLvl w.next { w.view with parallelCompactionsRunning := running } []).map
    fun next ↦ (next.1.parallelCompactionsRunning, next.2)

/-- The rest of `PickCompaction`. -/
def Pc.finish (cfg : Config) (fp : DoubleArith) (db : ColumnFamilyMetaData) (running : ℤ) :
    Pc → Option (ℤ × List CompactionTask)
  | entered =>
    let view := fluidView cfg db
    let largestLvl := view.getLargestOccupiedLevel
    Walk.finish fp running ⟨view, largestLvl, largestLvl + 1⟩
  | walking w => w.finish fp running
  | admitted w targetLvl rocksDBLvl inputFiles =>
    let marked := w.view.reserve inputFiles
    (Walk.finish fp (running + 1) { w with view := marked.1 }).map fun next ↦ (next.1,
      { inputFileNames := marked.2
        outputLvl := rocksDBLvl
        compactOptions := { w.view.compactOptions with outputFileSizeLimit := w.view.fileSize }
        originLvl := w.next
        targetLvl := targetLvl } :: next.2)
  | reserved w task => (w.finish fp running).map fun next ↦ (next.1, task :: next.2)
  | returned => some (running, [])
  | exited => some (running, [])

/-- The rest of a callback: a task that has not lowered the counter will do so. -/
def Call.finish (cfg : Config) (fp : DoubleArith) (db : ColumnFamilyMetaData) (running : ℤ)
    (call : Call) : Option (ℤ × List CompactionTask) :=
  (call.pc.finish cfg fp db running).map fun next ↦ (next.1 - call.isUnfinished.toNat, next.2)

section

variable {cfg : Config} {fp : DoubleArith} {db : ColumnFamilyMetaData} {w w' : World}
  {s s' : TreeState} {e : TreeEvent}

/-- A call that can make a step is not done. -/
theorem Call.isDone_of_step {caller : Caller} {pc : Pc} {running : ℤ}
    {next : Pc × ℤ × List CompactionTask} (h : pc.step cfg fp db running = some next) :
    (Call.mk caller pc).isDone = false := by
  cases caller <;> cases pc <;> simp_all [Call.isDone, Pc.step]

theorem Call.finish_of_isDone {call : Call} (h : call.isDone = true) (running : ℤ) :
    call.finish cfg fp db running = some (running, []) := by
  match call, h with
  | ⟨.onFlushCompleted, .returned⟩, _ | ⟨.compactFiles _, .exited⟩, _ =>
    simp [Call.finish, Pc.finish, Call.isUnfinished, Call.unfinished]

/-- The levels that `nextOverBound` passes over are those that the loop passes over. -/
theorem pickLoop_of_nextOverBound (fp : DoubleArith) (view : FluidLSM) (largestLvl n : ℕ)
    (running : ℤ) :
    pickLoop fp largestLvl n { view with parallelCompactionsRunning := running } []
      = match view.nextOverBound largestLvl n with
        | none => some ({ view with parallelCompactionsRunning := running }, [])
        | some lvl => pickLoop fp largestLvl (lvl + 1)
            { view with parallelCompactionsRunning := running } [] := by
  induction n with
  | zero => rfl
  | succ n ih =>
    by_cases hover : view.overBound largestLvl n = true
    · rw [nextOverBound, if_pos hover]
    · rw [nextOverBound, if_neg hover, pickLoop, if_neg (by exact hover)]
      exact ih

theorem overBound_of_nextOverBound {view : FluidLSM} {largestLvl n lvl : ℕ}
    (h : view.nextOverBound largestLvl n = some lvl) : view.overBound largestLvl lvl = true := by
  induction n with
  | zero => exact absurd h (by simp [nextOverBound])
  | succ n ih =>
    rw [nextOverBound] at h
    split_ifs at h with hover
    · obtain rfl := Option.some.inj h
      exact hover
    · exact ih h

/-- **A step of a call does not change what the call will do.** -/
theorem Pc.finish_step {running running' : ℤ} {pc pc' : Pc} {tasks : List CompactionTask}
    (h : pc.step cfg fp db running = some (pc', running', tasks)) :
    pc.finish cfg fp db running
      = (pc'.finish cfg fp db running').map fun next ↦ (next.1, tasks ++ next.2) := by
  cases pc with
  | entered =>
    obtain ⟨rfl, rfl, rfl⟩ : _ ∧ _ ∧ _ := by simpa [Pc.step] using h
    simp [Pc.finish]
  | walking w =>
    simp only [Pc.step] at h
    have hloop := pickLoop_of_nextOverBound fp w.view w.largestLvl w.next running
    cases hnext : w.view.nextOverBound w.largestLvl w.next with
    | none =>
      -- No level is left that is over its bound.
      simp only [hnext, Option.some.injEq, Prod.mk.injEq] at h
      obtain ⟨rfl, rfl, rfl⟩ := h
      simp [Pc.finish, Walk.finish, hloop, hnext]
    | some lvl =>
      have hover := overBound_of_nextOverBound hnext
      simp only [hnext] at h hloop
      rw [pickLoop_succ_withCounter hover, scheduleCompaction, outputLvl_withCounter,
        reserve_withCounter] at hloop
      split_ifs at h with hallowed
      · -- The call passes the test: the loop goes on from a view with its inputs marked.
        obtain ⟨out, hout, heq⟩ := Option.map_eq_some_iff.mp h
        simp only [Prod.mk.injEq] at heq
        obtain ⟨rfl, rfl, rfl⟩ := heq
        rw [if_pos hallowed, hout] at hloop
        simp only [Option.bind_some] at hloop
        rw [Pc.finish, Walk.finish, hloop, pickLoop_append]
        simp [Pc.finish, Walk.finish, Function.comp_def]
      · -- It fails the test: the loop goes on from the same view.
        simp only [Option.some.injEq, Prod.mk.injEq] at h
        obtain ⟨rfl, rfl, rfl⟩ := h
        rw [if_neg hallowed] at hloop
        simp only [Option.bind_some] at hloop
        simp [Pc.finish, Walk.finish, hloop, Function.comp_def]
  | admitted w targetLvl out inputFiles =>
    simp only [Pc.step, Option.some.injEq, Prod.mk.injEq] at h
    obtain ⟨rfl, rfl, rfl⟩ := h
    simp [Pc.finish, Function.comp_def]
  | reserved w task =>
    simp only [Pc.step, Option.some.injEq, Prod.mk.injEq] at h
    obtain ⟨rfl, rfl, rfl⟩ := h
    simp [Pc.finish]
  | returned => exact absurd h (by simp [Pc.step])
  | exited => exact absurd h (by simp [Pc.step])

theorem Call.finish_step (caller : Caller) {running running' : ℤ} {pc pc' : Pc}
    {tasks : List CompactionTask} (h : pc.step cfg fp db running = some (pc', running', tasks)) :
    Call.finish cfg fp db running ⟨caller, pc⟩
      = (Call.finish cfg fp db running' ⟨caller, pc'⟩).map fun next ↦
          (next.1, tasks ++ next.2) := by
  rw [Call.finish, Call.finish, Pc.finish_step h, (Pc.step_counts caller h).1, Option.map_map,
    Option.map_map]
  rfl

/-- What a callback will do when it starts is what the atomic step does. -/
theorem Call.finish_start {caller : Caller} {picks : Bool} {t : FluidLSM} (hcfg : t.toConfig = cfg)
    (ht : t.lazyLevels.length = cfg.options.numLevels) :
    Call.finish cfg fp db t.parallelCompactionsRunning (.start caller picks)
      = (if picks then t.pickCompaction fp db else some (t, [])).map fun next ↦
          (next.1.parallelCompactionsRunning
            - ((Call.start caller picks).isUnfinished.toNat : ℤ), next.2) := by
  subst hcfg
  cases picks with
  | false => rfl
  | true =>
    rw [Call.finish, Call.start, if_pos rfl, if_pos rfl, Pc.finish, Walk.finish, pickCompaction,
      buildStructure_eq_fluidView ht, Option.map_map]
    rfl

/-! ## From callbacks to atomic steps -/

/-- The callback of `e` is in progress: the others are done, and what it will do is what the atomic
step does. -/
structure Underway (cfg : Config) (fp : DoubleArith) (w : World) (s : TreeState) (e : TreeEvent)
    (calls : List Call) (call : Call) : Prop where
  calls_eq : w.calls = calls ++ [call]
  others : ∀ other ∈ calls, other.isDone = true
  will : (s.step fp e).map (fun s' ↦ (s'.db, s'.tree.parallelCompactionsRunning, s'.tasks))
    = (call.finish cfg fp w.db w.running).map fun next ↦ (w.db, next.1, w.queued ++ next.2)

/-- A callback that is over has done what it was to do. -/
theorem Underway.exists_agree {calls : List Call} {call : Call}
    (h : Underway cfg fp w s e calls call) (hquiet : w.Quiet) :
    ∃ s', s.step fp e = some s' ∧ Agree w s' := by
  have hdone : call.isDone = true := hquiet call (by rw [h.calls_eq]; simp)
  have hwill := h.will
  rw [Call.finish_of_isDone hdone, Option.map_some, List.append_nil] at hwill
  obtain ⟨s', hs', heq⟩ := Option.map_eq_some_iff.mp hwill
  simp only [Prod.mk.injEq] at heq
  exact ⟨s', hs', heq.1.symm, heq.2.1.symm, heq.2.2.symm⟩

/-- A callback starts. -/
theorem Underway.start (hcoh : Coherent cfg s) (hagree : Agree w s) (hquiet : w.Quiet)
    {event : WorldEvent} (hvisible : event.visible = some e)
    (hw : w.step cfg fp event = some w') : ∃ calls call, Underway cfg fp w' s e calls call := by
  match event, hvisible with
  | .flush file, hvisible =>
    obtain rfl := Option.some.inj hvisible
    obtain rfl := Option.some.inj hw
    refine ⟨w.calls, .start .onFlushCompleted true, rfl, hquiet, ?_⟩
    rw [hagree.running, Call.finish_start hcoh.config hcoh.cached, TreeState.step,
      onFlushCompleted, hagree.db, hagree.queued]
    simp [Function.comp_def, Call.start, Call.isUnfinished, Call.unfinished]
  | .finish task (.success outputs), hvisible =>
    obtain rfl := Option.some.inj hvisible
    simp only [World.step] at hw
    split_ifs at hw with hmem
    obtain rfl := Option.some.inj hw
    refine ⟨w.calls, .start (.compactFiles task) true, rfl, hquiet, ?_⟩
    rw [hagree.queued, hagree.db] at hmem
    rw [hagree.running, Call.finish_start hcoh.config hcoh.cached, TreeState.step]
    simp only [if_pos hmem, compactFiles, hagree.db, hagree.queued]
    simp [Function.comp_def, Call.start, Call.isUnfinished, Call.unfinished]
  | .finish task (.failure status), hvisible =>
    obtain rfl := Option.some.inj hvisible
    simp only [World.step] at hw
    split_ifs at hw with hmem hstatus
    all_goals
      obtain rfl := Option.some.inj hw
      rw [hagree.queued] at hmem
    · refine ⟨w.calls, .start (.compactFiles task) true, rfl, hquiet, ?_⟩
      rw [hagree.running, Call.finish_start hcoh.config hcoh.cached, TreeState.step]
      simp only [if_pos hmem, compactFiles, if_pos hstatus, hagree.db, hagree.queued]
      simp [Function.comp_def, Call.start, Call.isUnfinished, Call.unfinished]
    · -- After an IO error the callback does not pick.
      refine ⟨w.calls, .start (.compactFiles task) false, rfl, hquiet, ?_⟩
      rw [hagree.running, Call.finish_start hcoh.config hcoh.cached, TreeState.step]
      simp only [if_pos hmem, compactFiles, if_neg hstatus, hagree.db, hagree.queued]
      simp [Call.start, Call.isUnfinished, Call.unfinished]

/-- A callback goes on: only its own call can make a step. -/
theorem Underway.proceed {calls : List Call} {call : Call} (h : Underway cfg fp w s e calls call)
    {event : WorldEvent} (hvisible : event.visible = none)
    (hw : w.step cfg fp event = some w') : ∃ call, Underway cfg fp w' s e calls call := by
  obtain ⟨hcalls, hothers, hwill⟩ := h
  -- All calls before it are done, so a call that is not done is the last one.
  have hown (p : ℕ) (other : Call) (hp : w.calls[p]? = some other) (hdone : other.isDone = false)
      (other' : Call) : other = call ∧ w.calls.set p other' = calls ++ [other'] := by
    rw [hcalls] at hp ⊢
    have hle : calls.length ≤ p := by
      by_contra hlt
      rw [List.getElem?_append_left (by omega)] at hp
      rw [hothers _ (List.mem_of_getElem? hp)] at hdone
      exact absurd hdone (by decide)
    have hlast : p = calls.length := by
      have := (List.getElem?_eq_some_iff.mp hp).1
      rw [List.length_append, List.length_singleton] at this
      omega
    rw [hlast, List.getElem?_concat_length, Option.some_inj] at hp
    rw [hlast, List.set_append_right _ _ le_rfl, Nat.sub_self]
    exact ⟨hp.symm, rfl⟩
  match event, hvisible with
  | .advance p, _ =>
    simp only [World.step] at hw
    cases hcall : w.calls[p]? with
    | none => exact absurd hw (by simp [hcall])
    | some other =>
      obtain ⟨caller, pc⟩ := other
      simp only [hcall] at hw
      obtain ⟨⟨pc', running', tasks⟩, hpc, rfl⟩ := Option.map_eq_some_iff.mp hw
      obtain ⟨rfl, hset⟩ :=
        hown p ⟨caller, pc⟩ hcall (Call.isDone_of_step hpc) ⟨caller, pc'⟩
      refine ⟨⟨caller, pc'⟩, hset, hothers, ?_⟩
      rw [hwill, Call.finish_step caller hpc, Option.map_map]
      simp [Function.comp_def]
  | .retire p, _ =>
    simp only [World.step] at hw
    split at hw
    · rename_i task hcall
      obtain rfl := Option.some.inj hw
      obtain ⟨rfl, hset⟩ := hown p ⟨.compactFiles task, .returned⟩ hcall rfl
        ⟨.compactFiles task, .exited⟩
      refine ⟨⟨.compactFiles task, .exited⟩, hset, hothers, ?_⟩
      rw [hwill]
      simp [Call.finish, Pc.finish, Call.isUnfinished, Call.unfinished]
    · exact absurd hw (by simp)

/-- Between two callbacks no call can make a step. -/
theorem World.Quiet.visible_of_step {e : WorldEvent} (hquiet : w.Quiet)
    (hw : w.step cfg fp e = some w') : ∃ e', e.visible = some e' := by
  cases e with
  | flush file => exact ⟨_, rfl⟩
  | finish task outcome => exact ⟨_, rfl⟩
  | advance p =>
    exfalso
    simp only [World.step] at hw
    cases hcall : w.calls[p]? with
    | none => exact absurd hw (by simp [hcall])
    | some call =>
      simp only [hcall] at hw
      obtain ⟨next, hpc, -⟩ := Option.map_eq_some_iff.mp hw
      have hdone := hquiet call (List.mem_of_getElem? hcall)
      rw [Call.isDone_of_step hpc] at hdone
      exact absurd hdone (by decide)
  | retire p =>
    exfalso
    simp only [World.step] at hw
    split at hw
    · rename_i task hcall
      exact absurd (hquiet _ (List.mem_of_getElem? hcall)) (by simp [Call.isDone])
    · exact absurd hw (by simp)

/-- Where a run of callbacks that do not overlap stands: between two atomic steps, or inside one. -/
def BetweenOrInside (cfg : Config) (fp : DoubleArith) (h : List WorldEvent) (w : World) : Prop :=
  (∃ s, (treeSystem cfg fp).Run Promised (h.filterMap WorldEvent.visible) s ∧ Agree w s
      ∧ w.Quiet)
    ∨ ∃ h₀ s e calls call, (treeSystem cfg fp).Run Promised h₀ s ∧ Promised s e
      ∧ h.filterMap WorldEvent.visible = e :: h₀ ∧ Underway cfg fp w s e calls call

theorem BetweenOrInside.exists_agree {h : List WorldEvent} (hinv : BetweenOrInside cfg fp h w)
    (hquiet : w.Quiet) :
    ∃ s, (treeSystem cfg fp).Run Promised (h.filterMap WorldEvent.visible) s ∧ Agree w s := by
  rcases hinv with ⟨s, hrun, hagree, -⟩ | ⟨h₀, s, e, calls, call, hrun, hp, hseen, hunder⟩
  · exact ⟨s, hrun, hagree⟩
  · obtain ⟨s', hs', hagree⟩ := hunder.exists_agree hquiet
    exact ⟨s', hseen ▸ .step hrun hp hs', hagree⟩

theorem betweenOrInside_of_run {h : List WorldEvent}
    (hrun : (concurrentSystem cfg fp (.empty cfg.options.numLevels)).Run (Serial cfg) h w) :
    BetweenOrInside cfg fp h w := by
  refine hrun.invariant (I := BetweenOrInside cfg fp)
    (Or.inl ⟨_, .start, ⟨rfl, rfl, rfl⟩, by simp [World.Quiet, concurrentSystem, World.init]⟩) ?_
  intro h w e w' _ hinv hserial hw
  cases hvisible : e.visible with
  | some e' =>
    -- A callback starts, and whichever was in progress before is over.
    obtain ⟨hquiet, hp⟩ := hserial e' hvisible
    obtain ⟨s, hrun, hagree⟩ := hinv.exists_agree hquiet
    obtain ⟨calls, call, hunder⟩ := Underway.start (coherent_of_run hrun) hagree hquiet hvisible hw
    exact Or.inr ⟨_, s, e', calls, call, hrun,
      (promised_congr (by exact hagree.db) e').mp hp, List.filterMap_cons_some hvisible, hunder⟩
  | none =>
    rw [BetweenOrInside, List.filterMap_cons_none hvisible]
    rcases hinv with ⟨s, hrun, hagree, hquiet⟩ | ⟨h₀, s, e₀, calls, call, hrun, hp, hseen, hunder⟩
    · obtain ⟨e', he'⟩ := hquiet.visible_of_step hw
      exact absurd (hvisible.symm.trans he') (by simp)
    · obtain ⟨call', hunder'⟩ := hunder.proceed hvisible hw
      exact Or.inr ⟨h₀, s, e₀, calls, call', hrun, hp, hseen, hunder'⟩

/-- **Atomic callbacks are callbacks that do not overlap.** From the outside, that is by the flushes
and returns of tasks in their order, the metadata, the counter and the queue, the runs of the tree's
own system are the runs of the concurrent one in which callbacks do not overlap and the last one is
over. -/
theorem run_iff_serial_run (history : List TreeEvent) (db : ColumnFamilyMetaData) (running : ℤ)
    (queued : List CompactionTask) :
    (∃ s, (treeSystem cfg fp).Run Promised history s
        ∧ s.db = db ∧ s.tree.parallelCompactionsRunning = running ∧ s.tasks = queued)
      ↔ ∃ h w, (concurrentSystem cfg fp (.empty cfg.options.numLevels)).Run (Serial cfg) h w
        ∧ h.filterMap WorldEvent.visible = history ∧ w.Quiet
        ∧ w.db = db ∧ w.running = running ∧ w.queued = queued := by
  constructor
  · rintro ⟨s, hrun, rfl, rfl, rfl⟩
    obtain ⟨h, w, hrun', hseen, hagree, hquiet⟩ := simulates_concurrent.run hrun
    rw [List.filterMap_some] at hseen
    exact ⟨h, w, hrun', hseen, hquiet, hagree.db, hagree.running, hagree.queued⟩
  · rintro ⟨h, w, hrun, rfl, hquiet, rfl, rfl, rfl⟩
    obtain ⟨s, hrun', hagree⟩ := (betweenOrInside_of_run hrun).exists_agree hquiet
    exact ⟨s, hrun', hagree.db.symm, hagree.running.symm, hagree.queued.symm⟩

end

end WorkloadAwareCompaction
