import Mathlib.Data.List.Infix

/-!
# Runs of a partial step function

A system is a start state and a partial step function on labelled events. A run carries its
*history*, newest event first, so that counters over the past are plain list functions and a
window such as "since the last reset" is a `takeWhile`.

Every run is taken relative to an *admissibility* predicate: what the environment promises about
an event in the state in which it happens. Results that need stronger promises quantify over a
smaller predicate, and `Run.mono` moves a run to a larger one.

The step function is deterministic, so a history determines its state (`Run.unique`); this is what
makes it meaningful to speak about *the* earlier states of a run.
-/

/-- A start state and a partial step function on events. -/
structure StepSystem (σ ε : Type*) where
  /-- The start state. -/
  init : σ
  /-- One step; `none` where the event cannot happen. -/
  step : σ → ε → Option σ

namespace StepSystem

variable {σ ε : Type*} {M : StepSystem σ ε} {P Q : σ → ε → Prop}

/-- `M.Run P h s`: the history `h`, newest event first, leads from the start state to `s`, and
every event of it was admissible in the state in which it happened. -/
inductive Run (M : StepSystem σ ε) (P : σ → ε → Prop) : List ε → σ → Prop
  | start : Run M P [] M.init
  | step {h : List ε} {s s' : σ} {e : ε} :
      Run M P h s → P s e → M.step s e = some s' → Run M P (e :: h) s'

/-- The states some admissible run leads to. -/
def Reachable (M : StepSystem σ ε) (P : σ → ε → Prop) (s : σ) : Prop := ∃ h, M.Run P h s

namespace Run

theorem reachable {h : List ε} {s : σ} (hrun : M.Run P h s) : M.Reachable P s := ⟨h, hrun⟩

/-- **The invariant rule.** What holds at the start and is kept by every admissible step out of a
state that a run has reached holds after every run. -/
theorem invariant {I : List ε → σ → Prop} (hstart : I [] M.init)
    (hstep : ∀ h s e s', M.Run P h s → I h s → P s e → M.step s e = some s' → I (e :: h) s')
    {h : List ε} {s : σ} (hrun : M.Run P h s) : I h s := by
  induction hrun with
  | start => exact hstart
  | step hrun hP hs ih => exact hstep _ _ _ _ hrun ih hP hs

theorem mono (hPQ : ∀ s e, P s e → Q s e) {h : List ε} {s : σ} (hrun : M.Run P h s) :
    M.Run Q h s := by
  induction hrun with
  | start => exact .start
  | step _ hP hs ih => exact .step ih (hPQ _ _ hP) hs

/-- A history determines the state it leads to. -/
theorem unique {h : List ε} {s s' : σ} (hrun : M.Run P h s) (hrun' : M.Run Q h s') : s = s' := by
  induction hrun generalizing s' with
  | start => cases hrun'; rfl
  | step _ _ hs ih =>
    cases hrun' with
    | step hrun' _ hs' =>
      rw [ih hrun', hs'] at hs
      exact (Option.some.inj hs).symm

/-- **The potential rule.** When every step pays for the events counted by `p` out of a potential
that only the events counted by `q` refill, the former are bounded along every continuation of a
run. -/
theorem potential {f : σ → ℕ} {p q : ε → Bool}
    (hstep : ∀ h s e s', M.Run P h s → P s e → M.step s e = some s' →
      f s' + (p e).toNat ≤ f s + (q e).toNat)
    {h h' : List ε} {s s' : σ} (hrun : M.Run P h s) (hrun' : M.Run P (h' ++ h) s') :
    f s' + h'.countP p ≤ f s + h'.countP q := by
  induction h' generalizing s' with
  | nil => rw [hrun.unique hrun', List.countP_nil, List.countP_nil]
  | cons e h' ih =>
    cases hrun' with
    | step hrun' hP hs =>
      have hpast := ih hrun'
      have hlast := hstep _ _ _ _ hrun' hP hs
      have hcount : ∀ r : ε → Bool, (e :: h').countP r = h'.countP r + (r e).toNat := by
        intro r
        rw [List.countP_cons]
        cases r e <;> rfl
      rw [hcount, hcount]
      omega

/-- A run all of whose events meet a further condition in the state they happened in is a run
under the conjunction of the two. -/
theorem and {h : List ε} {s : σ} (hrun : M.Run P h s)
    (hQ : ∀ e h' s', e :: h' <:+ h → M.Run P h' s' → Q s' e) :
    M.Run (fun s e ↦ P s e ∧ Q s e) h s := by
  induction hrun with
  | start => exact .start
  | step hrun hP hs ih =>
    have hprev := ih fun e h' s' hsuf ↦ hQ e h' s' (hsuf.trans (List.suffix_cons _ _))
    exact .step hprev ⟨hP, hQ _ _ _ (List.suffix_refl _) hrun⟩ hs

/-- **The criterion rule.** Suppose that out of the states in `I`, a step leads to a good state
exactly when it meets `Q`, and that good states reached in this way are again in `I`. Then all
states of a run are good exactly when all its steps meet `Q`. Both predicates may look at the
history. -/
theorem forall_goodAt_iff {I G : List ε → σ → Prop} (hinit : I [] M.init) (hgood : G [] M.init)
    (hstep : ∀ h s e s', M.Run P h s → I h s → P s e → M.step s e = some s' →
      (G (e :: h) s' ↔ Q s e) ∧ (G (e :: h) s' → I (e :: h) s'))
    {h : List ε} {s : σ} (hrun : M.Run P h s) :
    (∀ h' s', h' <:+ h → M.Run P h' s' → G h' s') ↔ M.Run (fun s e ↦ P s e ∧ Q s e) h s := by
  -- Along steps that meet the condition the invariant is kept: each leads to a good state.
  have hkeep : ∀ {h s}, M.Run (fun s e ↦ P s e ∧ Q s e) h s → I h s := by
    intro h s hrun
    induction hrun with
    | start => exact hinit
    | step hrun hPQ hs ih =>
      obtain ⟨hiff, hI⟩ := hstep _ _ _ _ (hrun.mono fun _ _ ↦ And.left) ih hPQ.1 hs
      exact hI (hiff.mpr hPQ.2)
  induction hrun with
  | start =>
    refine iff_of_true (fun h' s' hsuf hrun' ↦ ?_) .start
    obtain rfl := List.suffix_nil.mp hsuf
    cases hrun' with
    | start => exact hgood
  | step hrun hP hs ih =>
    constructor
    · intro hall
      have hprev := ih.mp fun h' s' hsuf hrun' ↦
        hall h' s' (hsuf.trans (List.suffix_cons _ _)) hrun'
      have hlast := hall _ _ (List.suffix_refl _) (.step hrun hP hs)
      exact .step hprev ⟨hP, (hstep _ _ _ _ hrun (hkeep hprev) hP hs).1.mp hlast⟩ hs
    · -- The past is determined by the events, so `s'` is the last state or one before it.
      intro hrunQ h' s' hsuf hrun'
      cases hrunQ with
      | step hprev hPQ hs' =>
        have hprev' := hprev.mono (Q := P) fun _ _ ↦ And.left
        rcases List.suffix_cons_iff.mp hsuf with rfl | hsuf
        · rw [← Run.unique (.step hprev' hPQ.1 hs') hrun']
          exact (hstep _ _ _ _ hprev' (hkeep hprev) hPQ.1 hs').1.mpr hPQ.2
        · obtain rfl := Run.unique hrun hprev'
          exact ih.mpr hprev h' s' hsuf hrun'

/-- The criterion rule for predicates of the state alone. -/
theorem forall_good_iff {I G : σ → Prop} (hinit : I M.init) (hgood : G M.init)
    (hstep : ∀ h s e s', M.Run P h s → I s → P s e → M.step s e = some s' →
      (G s' ↔ Q s e) ∧ (G s' → I s'))
    {h : List ε} {s : σ} (hrun : M.Run P h s) :
    (∀ h' s', h' <:+ h → M.Run P h' s' → G s') ↔ M.Run (fun s e ↦ P s e ∧ Q s e) h s :=
  forall_goodAt_iff (I := fun _ ↦ I) (G := fun _ ↦ G) hinit hgood hstep hrun

end Run

/-- The state that a history leads to, if its events can happen. -/
def after (M : StepSystem σ ε) : List ε → Option σ
  | [] => some M.init
  | e :: h => (M.after h).bind fun s ↦ M.step s e

/-- How many events of a history meet `p` in the state in which they happen. -/
def countAt (M : StepSystem σ ε) (p : σ → ε → Bool) : List ε → ℕ
  | [] => 0
  | e :: h => M.countAt p h + ((M.after h).any fun s ↦ p s e).toNat

theorem Run.after_eq {h : List ε} {s : σ} (hrun : M.Run P h s) : M.after h = some s := by
  induction hrun with
  | start => rfl
  | step _ _ hs ih => rw [after, ih, Option.bind_some, hs]

theorem Run.countAt_cons {h : List ε} {s : σ} (hrun : M.Run P h s) (p : σ → ε → Bool) (e : ε) :
    M.countAt p (e :: h) = M.countAt p h + (p s e).toNat := by
  rw [countAt, hrun.after_eq, Option.any_some]

/-- **The ratchet rule.** When every step of a run either brings a quantity back to `B` or raises it
only by the events counted by `p`, then these are all that it can exceed `B` by. -/
theorem Run.le_add_countAt {f : σ → ℕ} {p : σ → ε → Bool} {B : ℕ} (hinit : f M.init ≤ B)
    {h : List ε} {s : σ} (hrun : M.Run P h s)
    (hstep : ∀ h' s' e s'', e :: h' <:+ h → M.Run P h' s' → P s' e → M.step s' e = some s'' →
      f s'' ≤ B ∨ f s'' ≤ f s' + (p s' e).toNat) : f s ≤ B + M.countAt p h := by
  induction hrun with
  | start => exact hinit
  | step hrun hP hs ih =>
    have hpast := ih fun h' s' e s'' hsuf ↦ hstep h' s' e s'' (hsuf.trans (List.suffix_cons _ _))
    rw [hrun.countAt_cons]
    rcases hstep _ _ _ _ (List.suffix_refl _) hrun hP hs with hreset | hraise
    · omega
    · omega

/-- Runs a history, checking every event; for concrete histories. -/
def exec (M : StepSystem σ ε) (P : σ → ε → Prop) [∀ s e, Decidable (P s e)] : List ε → Option σ
  | [] => some M.init
  | e :: h =>
    match exec M P h with
    | none => none
    | some s => if P s e then M.step s e else none

theorem run_of_exec [∀ s e, Decidable (P s e)] {h : List ε} {s : σ}
    (hexec : M.exec P h = some s) : M.Run P h s := by
  induction h generalizing s with
  | nil =>
    obtain rfl := Option.some.inj hexec
    exact .start
  | cons e h ih =>
    rw [exec] at hexec
    cases hprev : M.exec P h with
    | none =>
      rw [hprev] at hexec
      exact absurd hexec (by simp)
    | some s' =>
      simp only [hprev] at hexec
      split_ifs at hexec with hP
      exact .step (ih hprev) hP hexec

/-- A concrete history leads to a state with a decidable property. -/
theorem exists_run_of_exec [∀ s e, Decidable (P s e)] {R : σ → Prop} [DecidablePred R]
    {h : List ε} (hexec : (M.exec P h).any (R ·) = true) : ∃ s, M.Run P h s ∧ R s := by
  obtain ⟨s, hs, hR⟩ := (Option.any_eq_true _ _).mp hexec
  exact ⟨s, run_of_exec hs, of_decide_eq_true hR⟩

/-- A concrete history and one more event make a step with a decidable property. -/
theorem exists_step_of_exec [∀ s e, Decidable (P s e)] {R : σ → σ → Prop} [∀ s, DecidablePred (R s)]
    {h : List ε} {e : ε} (hexec : ((M.exec P h).any fun s ↦
      decide (P s e) && (M.step s e).any (R s ·)) = true) :
    ∃ s s', M.Run P h s ∧ P s e ∧ M.step s e = some s' ∧ R s s' := by
  obtain ⟨s, hs, hstep⟩ := (Option.any_eq_true _ _).mp hexec
  rw [Bool.and_eq_true, decide_eq_true_eq] at hstep
  obtain ⟨s', hs', hR⟩ := (Option.any_eq_true _ _).mp hstep.2
  exact ⟨s, s', run_of_exec hs, hstep.1, hs', of_decide_eq_true hR⟩

end StepSystem
