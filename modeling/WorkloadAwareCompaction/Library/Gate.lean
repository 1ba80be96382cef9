import WorkloadAwareCompaction.Library.StepSystem

/-!
# A gate that is tested before it is counted

A gate is meant to let at most `allowed` processes in. It counts those inside, but a process that
finds the count low enough raises it only in a later step of its own. In between it is admitted and
not counted, so that others may be admitted on the same count.

How far the gate is overrun then depends on nothing but the number of processes that are ever
admitted at the same time (`inside_le_of_run`): the last one to be admitted finds at most
`allowed - 1` inside, and everybody who comes in after that is admitted already.
-/

namespace Gate

@[ext] structure State where
  /-- Those who have passed the test and are not counted yet. -/
  admitted : ℕ
  /-- Those who are counted. -/
  inside : ℕ

inductive Event
  | pass
  | enter
  | leave

def step (allowed : ℕ) (s : State) : Event → Option State
  | .pass => if s.inside < allowed then some ⟨s.admitted + 1, s.inside⟩ else none
  | .enter => if 0 < s.admitted then some ⟨s.admitted - 1, s.inside + 1⟩ else none
  | .leave => if 0 < s.inside then some ⟨s.admitted, s.inside - 1⟩ else none

/-- A gate that nobody has come to yet. -/
def gateSystem (allowed : ℕ) : StepSystem State Event where
  init := ⟨0, 0⟩
  step := step allowed

/-- At most `n` are admitted at the same time. -/
def Crowd (n : ℕ) (s : State) : Event → Prop
  | .pass => s.admitted < n
  | .enter => True
  | .leave => True

variable {allowed n : ℕ}

theorem step_pass {s : State} (h : s.inside < allowed) :
    (gateSystem allowed).step s .pass = some ⟨s.admitted + 1, s.inside⟩ := if_pos h

theorem step_enter {s : State} (h : 0 < s.admitted) :
    (gateSystem allowed).step s .enter = some ⟨s.admitted - 1, s.inside + 1⟩ := if_pos h

theorem step_leave {s : State} (h : 0 < s.inside) :
    (gateSystem allowed).step s .leave = some ⟨s.admitted, s.inside - 1⟩ := if_pos h

/-- Whoever is admitted finds the count below `allowed` and at most `n - 1` others beside him; after
that nobody is new. -/
theorem bounds_step {s s' : State} {e : Event} (hadmitted : s.admitted ≤ n)
    (htotal : s.admitted + s.inside ≤ allowed - 1 + n) (hcrowd : Crowd n s e)
    (hs : step allowed s e = some s') :
    s'.admitted ≤ n ∧ s'.admitted + s'.inside ≤ allowed - 1 + n := by
  cases e with
  | pass =>
    have hcrowd : s.admitted < n := hcrowd
    obtain ⟨hlow, hs⟩ := Option.ite_none_right_eq_some.mp hs
    obtain rfl := Option.some.inj hs
    constructor <;> dsimp only <;> omega
  | enter =>
    obtain ⟨hpos, hs⟩ := Option.ite_none_right_eq_some.mp hs
    obtain rfl := Option.some.inj hs
    constructor <;> dsimp only <;> omega
  | leave =>
    obtain ⟨hpos, hs⟩ := Option.ite_none_right_eq_some.mp hs
    obtain rfl := Option.some.inj hs
    constructor <;> dsimp only <;> omega

/-- **The gate is overrun by the crowd before it.** -/
theorem inside_le_of_run {h : List Event} {s : State}
    (hrun : (gateSystem allowed).Run (Crowd n) h s) : s.inside ≤ allowed - 1 + n := by
  have hbounds := hrun.invariant
    (I := fun _ s ↦ s.admitted ≤ n ∧ s.admitted + s.inside ≤ allowed - 1 + n)
    ⟨Nat.zero_le _, Nat.zero_le _⟩
    fun _ _ _ _ _ hinv hcrowd hs ↦ bounds_step hinv.1 hinv.2 hcrowd hs
  exact (Nat.le_add_left _ _).trans hbounds.2

end Gate
