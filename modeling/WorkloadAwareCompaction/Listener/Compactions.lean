import WorkloadAwareCompaction.Library.StepSystem

/-!
# Waiting for compactions to end

`WaitForCompactions` looks at three counters of the database every ten milliseconds, until all are 0
or the flag `compaction_complete` is set. The flag is set by the listener, when it finds the
counters at 0 at the end of a compaction. Both look at flag and counters under one mutex, so each
such section is one step; between the steps the database changes the counters as it likes.

A call that begins before the flag was set returns for a good reason: the flag can only have been
set meanwhile. But nothing ever clears the flag, and so it says nothing to a call that begins later.
-/

namespace WorkloadAwareCompaction

/-! ## States and steps -/

/-- The properties that both sides read with `GetIntProperty`. -/
structure CompactionCounters where
  numRunningCompactions : ℕ
  pendingCompactionBytes : ℕ
  numPendingCompactions : ℕ
  deriving DecidableEq

/-- The test of both sides. -/
def CompactionCounters.Idle (c : CompactionCounters) : Prop :=
  c.numRunningCompactions = 0 ∧ c.pendingCompactionBytes = 0 ∧ c.numPendingCompactions = 0

instance : DecidablePred CompactionCounters.Idle := fun _ ↦
  inferInstanceAs (Decidable (_ ∧ _ ∧ _))

/-- A call of `WaitForCompactions`. -/
structure WaitCall where
  returned : Bool
  /-- Specification only: since the call began, it or a callback has found the counters at 0. -/
  observedIdle : Bool
  deriving DecidableEq

structure WaitState where
  counters : CompactionCounters
  compactionComplete : Bool
  /-- The calls so far, in the order in which they began. -/
  calls : List WaitCall
  deriving DecidableEq

inductive WaitEvent
  /-- The database changes its counters. -/
  | change (counters : CompactionCounters)
  | onCompactionCompleted
  /-- A call of `WaitForCompactions` begins. -/
  | waitForCompactions
  /-- The call with this number has the mutex: from there to the next wait, or to its return. -/
  | turn (i : ℕ)
  deriving DecidableEq

/-- A callback's observation counts for the calls it runs in the middle of. -/
def WaitCall.observe (call : WaitCall) : WaitCall :=
  if call.returned then call else { call with observedIdle := true }

/-- `OnCompactionCompleted`. -/
def onCompactionCompleted (s : WaitState) : WaitState :=
  if s.counters.Idle then
    { s with compactionComplete := true, calls := s.calls.map WaitCall.observe }
  else s

/-- The loop of `WaitForCompactions` up to its next `wait_for`. -/
def WaitCall.turn (counters : CompactionCounters) (compactionComplete : Bool) (call : WaitCall) :
    WaitCall :=
  if compactionComplete then { call with returned := true }
  else if counters.Idle then { returned := true, observedIdle := true }
  else call

def WaitState.step (s : WaitState) : WaitEvent → Option WaitState
  | .change counters => some { s with counters := counters }
  | .onCompactionCompleted => some (onCompactionCompleted s)
  | .waitForCompactions => some { s with calls := s.calls ++ [⟨false, false⟩] }
  | .turn i =>
    match s.calls[i]? with
    | some ⟨false, observedIdle⟩ =>
      let call := WaitCall.turn s.counters s.compactionComplete ⟨false, observedIdle⟩
      some { s with calls := s.calls.set i call }
    | _ => none

/-- The process, from its start on a database with these counters. -/
def waitSystem (counters : CompactionCounters) : StepSystem WaitState WaitEvent where
  init := ⟨counters, false, []⟩
  step := WaitState.step

/-! ## Calls that begin before the flag is set -/

/-- No call begins while the flag is set. -/
def BeginsUnset (s : WaitState) (e : WaitEvent) : Prop :=
  e = .waitForCompactions → s.compactionComplete = false

instance (s : WaitState) (e : WaitEvent) : Decidable (BeginsUnset s e) :=
  inferInstanceAs (Decidable (_ → _))

/-- The counters were found at 0 during each call that has returned, and once the flag is set during
each call. -/
def Observed (s : WaitState) : Prop :=
  ∀ call ∈ s.calls, call.returned = true ∨ s.compactionComplete = true → call.observedIdle = true

theorem Observed.onCompactionCompleted {s : WaitState} (h : Observed s) :
    Observed (onCompactionCompleted s) := by
  rw [WorkloadAwareCompaction.onCompactionCompleted]
  split_ifs
  · intro call hcall _
    obtain ⟨call, hmem, rfl⟩ := List.mem_map.mp hcall
    rw [WaitCall.observe]
    split_ifs with hreturned
    · exact h call hmem (Or.inl hreturned)
    · rfl
  · exact h

theorem Observed.turn {s : WaitState} (h : Observed s) {i : ℕ} {call : WaitCall}
    (hcall : s.calls[i]? = some call) :
    Observed { s with calls := s.calls.set i (call.turn s.counters s.compactionComplete) } := by
  have hmem : call ∈ s.calls := List.mem_of_getElem? hcall
  intro call' hcall'
  rcases List.mem_or_eq_of_mem_set hcall' with hold | rfl
  · exact h call' hold
  · rw [WaitCall.turn]
    -- With the flag set the call has been observed; without it, it observes for itself.
    split_ifs with hflag hidle
    · exact fun _ ↦ h call hmem (Or.inr hflag)
    · exact fun _ ↦ rfl
    · exact h call hmem

theorem Observed.step {s s' : WaitState} {e : WaitEvent} (h : Observed s) (hbegin : BeginsUnset s e)
    (hs : s.step e = some s') : Observed s' := by
  cases e with
  | change counters =>
    obtain rfl := Option.some.inj hs
    exact h
  | onCompactionCompleted =>
    obtain rfl := Option.some.inj hs
    exact h.onCompactionCompleted
  | waitForCompactions =>
    obtain rfl := Option.some.inj hs
    intro call hcall hdone
    rcases List.mem_append.mp hcall with hold | hnew
    · exact h call hold hdone
    · obtain rfl := List.mem_singleton.mp hnew
      rw [hbegin rfl] at hdone
      exact absurd hdone (by simp)
  | turn i =>
    rw [WaitState.step] at hs
    split at hs
    · rename_i observedIdle hcall
      obtain rfl := Option.some.inj hs
      exact h.turn hcall
    · exact absurd hs (by simp)

/-- **A call that returns has seen the database idle**, in every run in which calls begin only while
the flag is not set. -/
theorem observedIdle_of_run {counters : CompactionCounters} {h : List WaitEvent} {s : WaitState}
    (hrun : (waitSystem counters).Run BeginsUnset h s) :
    ∀ call ∈ s.calls, call.returned = true → call.observedIdle = true := by
  have hobserved : Observed s := by
    refine hrun.invariant (I := fun _ s ↦ Observed s) ?_ ?_
    · exact fun call hcall ↦ absurd hcall List.not_mem_nil
    · exact fun _ _ _ _ _ hI hbegin hs ↦ hI.step hbegin hs
  exact fun call hcall hreturned ↦ hobserved call hcall (Or.inl hreturned)

/-- A call that begins while the flag is set, and takes its first turn at once, returns without an
observation: the condition cannot be left out. -/
theorem exists_unobserved_of_set {counters : CompactionCounters} {h : List WaitEvent}
    {s : WaitState} (hrun : (waitSystem counters).Run (fun _ _ ↦ True) h s)
    (hset : s.compactionComplete = true) :
    ∃ s', (waitSystem counters).Run (fun _ _ ↦ True)
        (.turn s.calls.length :: .waitForCompactions :: h) s'
      ∧ ∃ call ∈ s'.calls, call.returned = true ∧ call.observedIdle = false := by
  have hbegin : (waitSystem counters).step s .waitForCompactions
      = some { s with calls := s.calls ++ [⟨false, false⟩] } := rfl
  refine ⟨_, .step (.step hrun trivial hbegin) trivial (?_ : _ = some
    { s with calls := s.calls ++ [⟨true, false⟩] }), ⟨true, false⟩, by simp, rfl, rfl⟩
  simp [waitSystem, WaitState.step, WaitCall.turn, hset]

/-- Two bursts of compactions and a call during each. -/
theorem observedIdle_small :
    ∃ s, (waitSystem ⟨1, 0, 0⟩).Run BeginsUnset [.turn 1, .turn 0, .onCompactionCompleted,
        .change ⟨0, 0, 0⟩, .turn 1, .waitForCompactions, .change ⟨1, 5, 1⟩, .onCompactionCompleted,
        .turn 0, .waitForCompactions] s
      ∧ ∀ call ∈ s.calls, call.returned = true → call.observedIdle = true := by
  obtain ⟨s, hrun, -⟩ := StepSystem.exists_run_of_exec (M := waitSystem ⟨1, 0, 0⟩)
    (P := BeginsUnset) (R := fun _ ↦ True) (h := [.turn 1, .turn 0, .onCompactionCompleted,
      .change ⟨0, 0, 0⟩, .turn 1, .waitForCompactions, .change ⟨1, 5, 1⟩, .onCompactionCompleted,
      .turn 0, .waitForCompactions]) (by decide)
  exact ⟨s, hrun, observedIdle_of_run hrun⟩

/-- A compaction that ended before leaves the flag set; the call during the next one returns at
once. -/
theorem not_observedIdle_small :
    ¬∀ counters h s, (waitSystem counters).Run (fun _ _ ↦ True) h s →
      ∀ call ∈ s.calls, call.returned = true → call.observedIdle = true := by
  intro hall
  obtain ⟨s, hrun, call, hmem, hreturned, hobserved⟩ :=
    StepSystem.exists_run_of_exec (M := waitSystem ⟨0, 0, 0⟩) (P := fun _ _ ↦ True)
      (R := fun s ↦ ∃ call ∈ s.calls, call.returned = true ∧ call.observedIdle = false)
      (h := [.turn 0, .waitForCompactions, .change ⟨1, 5, 1⟩, .onCompactionCompleted]) (by decide)
  exact absurd (hall _ _ _ hrun call hmem hreturned) (by rw [hobserved]; decide)

end WorkloadAwareCompaction
