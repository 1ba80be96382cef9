import Mathlib.Data.List.Basic
import Mathlib.Logic.Function.Basic
import WorkloadAwareCompaction.Library.StepSystem

/-!
# Layers of key-value writes

A log-structured store keeps its writes in layers, newest first. A layer says one of three things
about a key: nothing, that the key was deleted, or its value. A read takes the first layer that
speaks about the key.

Merging replaces a segment of the layers by other layers. A read cannot tell when the new segment
gives the same answers as the old one; and where the old segment only says that the key was deleted,
the new one may drop that, provided no layer behind it speaks about the key (`Merges`).

What all this stands for is a map from keys to values under single writes (`mapSystem`).
-/

variable {κ ν : Type*}

/-- What a layer says about each key: nothing (`none`), deleted (`some none`), or a value. -/
def Layer (κ ν : Type*) := κ → Option (Option ν)

namespace Layer

/-- The first answer of the layers. -/
def latest (layers : List (Layer κ ν)) (k : κ) : Option (Option ν) :=
  layers.findSome? fun layer ↦ layer k

/-- What a read returns: a deleted key and an unknown one have no value. -/
def read (layers : List (Layer κ ν)) (k : κ) : Option ν := (latest layers k).join

/-- The layer made of some writes, newest first; `none` is a deletion. -/
def ofWrites [DecidableEq κ] (writes : List (κ × Option ν)) : Layer κ ν :=
  fun k ↦ writes.lookup k

@[simp] theorem latest_append (xs ys : List (Layer κ ν)) (k : κ) :
    latest (xs ++ ys) k = (latest xs k).or (latest ys k) := List.findSome?_append

@[simp] theorem latest_singleton (layer : Layer κ ν) (k : κ) : latest [layer] k = layer k := by
  rw [latest, List.findSome?_cons, List.findSome?_nil]
  cases layer k <;> rfl

theorem latest_cons (layer : Layer κ ν) (layers : List (Layer κ ν)) (k : κ) :
    latest (layer :: layers) k = (layer k).or (latest layers k) := by
  rw [← List.singleton_append, latest_append, latest_singleton]

theorem latest_eq_none_iff {layers : List (Layer κ ν)} {k : κ} :
    latest layers k = none ↔ ∀ layer ∈ layers, layer k = none := List.findSome?_eq_none_iff

section Writes

variable [DecidableEq κ]

theorem ofWrites_append (xs ys : List (κ × Option ν)) (k : κ) :
    ofWrites (xs ++ ys) k = (ofWrites xs k).or (ofWrites ys k) := List.lookup_append

/-- Cutting a sequence of writes into two layers does not change what they say. -/
theorem latest_ofWrites_append (xs ys : List (κ × Option ν)) (layers : List (Layer κ ν)) :
    latest (ofWrites (xs ++ ys) :: layers) = latest (ofWrites xs :: ofWrites ys :: layers) := by
  funext k
  rw [latest_cons, latest_cons, latest_cons, ofWrites_append, Option.or_assoc]

/-- A read after a write. -/
theorem read_ofWrites_cons (k : κ) (v : Option ν) (writes : List (κ × Option ν))
    (layers : List (Layer κ ν)) :
    read (ofWrites ((k, v) :: writes) :: layers)
      = Function.update (read (ofWrites writes :: layers)) k v := by
  funext k'
  rw [read, latest_cons, ofWrites, List.lookup_cons]
  by_cases hk : k' = k
  · rw [hk, beq_self_eq_true, Function.update_self]
    rfl
  · rw [beq_eq_false_iff_ne.mpr hk, Function.update_of_ne hk, read, latest_cons]
    rfl

end Writes

/-- The layers `outputs` may take the place of `inputs` in front of `older`. -/
def Merges (inputs outputs older : List (Layer κ ν)) : Prop :=
  ∀ k, latest outputs k = latest inputs k
    ∨ latest inputs k = some none ∧ latest outputs k = none ∧ ∀ layer ∈ older, layer k = none

/-- **Merging is invisible to reads.** -/
theorem Merges.read_eq {inputs outputs older : List (Layer κ ν)} (h : Merges inputs outputs older)
    (newer : List (Layer κ ν)) :
    read (newer ++ outputs ++ older) = read (newer ++ inputs ++ older) := by
  funext k
  simp only [read, latest_append]
  rcases h k with heq | ⟨hdeleted, hdropped, holder⟩
  · rw [heq]
  · -- Nothing behind a deletion that was dropped could be uncovered by it.
    rw [hdeleted, hdropped, latest_eq_none_iff.mpr holder, Option.or_none, Option.or_none]
    cases latest newer k <;> rfl

/-- A map from keys to values under single writes; writing `none` deletes the key. -/
def mapSystem (κ ν : Type*) [DecidableEq κ] : StepSystem (κ → Option ν) (κ × Option ν) where
  init := fun _ ↦ none
  step := fun m write ↦ some (Function.update m write.1 write.2)

/-- The map after some writes gives for each key the last value written to it. -/
theorem mapSystem_run_eq [DecidableEq κ] {P : (κ → Option ν) → κ × Option ν → Prop}
    {h : List (κ × Option ν)} {m : κ → Option ν} (hrun : (mapSystem κ ν).Run P h m) :
    m = read [ofWrites h] := by
  refine hrun.invariant (I := fun h m ↦ m = read [ofWrites h]) rfl ?_
  rintro h m ⟨k, v⟩ m' - rfl - hs
  rw [read_ofWrites_cons]
  exact (Option.some.inj hs).symm

theorem mapSystem_run_apply [DecidableEq κ] {P : (κ → Option ν) → κ × Option ν → Prop}
    {h : List (κ × Option ν)} {m : κ → Option ν} (hrun : (mapSystem κ ν).Run P h m) (k : κ) :
    m k = (h.lookup k).join := by
  rw [mapSystem_run_eq hrun, read, latest_singleton, ofWrites]

end Layer

/-- A list in which the marked elements come last is its unmarked part followed by its marked
part. -/
theorem List.filter_not_append_filter {α : Type*} {p : α → Bool} {l : List α}
    (h : l.Pairwise fun a b ↦ p a = true → p b = true) :
    (l.filter fun a ↦ !p a) ++ l.filter p = l := by
  induction l with
  | nil => rfl
  | cons a l ih =>
    obtain ⟨ha, hl⟩ := List.pairwise_cons.mp h
    cases hp : p a with
    | false => simp [hp, ih hl]
    | true =>
      -- From the first marked element on, all are marked.
      have hall : ∀ b ∈ l, p b = true := fun b hb ↦ ha b hb hp
      rw [List.filter_eq_self.mpr (List.forall_mem_cons.mpr ⟨hp, hall⟩),
        List.filter_eq_nil_iff.mpr (by simpa [hp] using hall), List.nil_append]
