import WorkloadAwareCompaction.Library.StepSystem

/-!
# Forward simulation between step systems

One system simulates another when related states stay related: every step of the first is answered
by some steps of the second, none included, that show the same to an observer. Which events an
observer sees, and as what, is given by a partial function on the events of each side.

The rule is local and its conclusion is about whole runs (`Simulates.run`): to every run of the
first system belongs a run of the second with the same observations in the same order, ending in a
related state. The two sides may differ in everything else, in their events, their grain and what
they admit.
-/

namespace StepSystem

variable {σ τ ε δ ω : Type*} {M : StepSystem σ ε} {N : StepSystem τ δ} {P : σ → ε → Prop}
  {Q : τ → δ → Prop}

/-- `N.Steps Q h t t'`: the events `h`, newest first, lead from `t` to `t'`, each of them admissible
where it happens. -/
inductive Steps (N : StepSystem τ δ) (Q : τ → δ → Prop) : List δ → τ → τ → Prop
  | refl (t : τ) : Steps N Q [] t t
  | step {h : List δ} {t t' t'' : τ} {e : δ} :
      Steps N Q h t t' → Q t' e → N.step t' e = some t'' → Steps N Q (e :: h) t t''

namespace Steps

theorem single {t t' : τ} {e : δ} (hQ : Q t e) (hs : N.step t e = some t') :
    N.Steps Q [e] t t' := .step (.refl t) hQ hs

theorem trans {h h' : List δ} {t t' t'' : τ} (hsteps : N.Steps Q h t t')
    (hsteps' : N.Steps Q h' t' t'') : N.Steps Q (h' ++ h) t t'' := by
  induction hsteps' with
  | refl => exact hsteps
  | step _ hQ hs ih => exact .step (ih hsteps) hQ hs

/-- Events carried out one after the other, oldest first, when each is admissible wherever it
happens. -/
theorem of_foldlM {events : List δ} (hQ : ∀ e ∈ events, ∀ t, Q t e) {t t' : τ}
    (h : events.foldlM N.step t = some t') : N.Steps Q events.reverse t t' := by
  induction events generalizing t with
  | nil =>
    obtain rfl := Option.some.inj h
    exact .refl t
  | cons e events ih =>
    rw [List.foldlM_cons] at h
    obtain ⟨t₁, ht₁, hrest⟩ := Option.bind_eq_some_iff.mp h
    obtain ⟨he, hevents⟩ := List.forall_mem_cons.mp hQ
    rw [List.reverse_cons]
    exact (single (he t) ht₁).trans (ih hevents hrest)

end Steps

/-- Steps out of a state that a run has reached prolong the run. -/
theorem Run.append {h h' : List δ} {t t' : τ} (hrun : N.Run Q h t)
    (hsteps : N.Steps Q h' t t') : N.Run Q (h' ++ h) t' := by
  induction hsteps with
  | refl => exact hrun
  | step _ hQ hs ih => exact .step (ih hrun) hQ hs

/-- **A forward simulation** of `M` by `N` along `R`: `seen` and `seen'` say what an observer is
shown of an event of either side. A step is only asked for in states that `M` reaches. -/
structure Simulates (M : StepSystem σ ε) (P : σ → ε → Prop) (N : StepSystem τ δ) (Q : τ → δ → Prop)
    (seen : ε → Option ω) (seen' : δ → Option ω) (R : σ → τ → Prop) : Prop where
  init : R M.init N.init
  step : ∀ {s s' : σ} {t : τ} {e : ε}, M.Reachable P s → R s t → P s e → M.step s e = some s' →
    ∃ h t', N.Steps Q h t t' ∧ h.filterMap seen' = (seen e).toList ∧ R s' t'

/-- **The simulation rule.** -/
theorem Simulates.run {seen : ε → Option ω} {seen' : δ → Option ω} {R : σ → τ → Prop}
    (hsim : Simulates M P N Q seen seen' R) {h : List ε} {s : σ} (hrun : M.Run P h s) :
    ∃ h' t, N.Run Q h' t ∧ h'.filterMap seen' = h.filterMap seen ∧ R s t := by
  induction hrun with
  | start => exact ⟨[], N.init, .start, rfl, hsim.init⟩
  | @step h s s' e hrun hP hs ih =>
    obtain ⟨h', t, hrun', hseen, hR⟩ := ih
    -- The answer to the last step prolongs the run found so far.
    obtain ⟨h'', t', hsteps, hseen', hR'⟩ := hsim.step hrun.reachable hR hP hs
    refine ⟨h'' ++ h', t', hrun'.append hsteps, ?_, hR'⟩
    have hcons : (e :: h).filterMap seen = (seen e).toList ++ h.filterMap seen := by
      cases he : seen e with
      | none => rw [List.filterMap_cons_none he, Option.toList_none, List.nil_append]
      | some w => rw [List.filterMap_cons_some he, Option.toList_some, List.singleton_append]
    rw [List.filterMap_append, hseen, hseen', hcons]

end StepSystem
