import WorkloadAwareCompaction.Library.StepSystem
import WorkloadAwareCompaction.Logging.Buffer

/-!
# The logs of a process

A process constructs and destroys buffers on files of their own, and registers each in the static
list of instances, over which the signal handler runs before it ends the process. Every member is
one step here, and signals come between the steps; `Logging.Signal` cuts the steps up.

Buffers are numbered in the order of their construction, which stands for their address. What a
buffer's log should be is read off the history: the insertions into it, made into one stream that is
never flushed.
-/

namespace WorkloadAwareCompaction

variable {φ : Type}

/-! ## States and steps -/

structure Process (φ : Type) where
  /-- All buffers so far, with their files. -/
  buffers : List (Buffer φ)
  /-- `Buffer::instances_`. -/
  instances : List ℕ
  exited : Bool

inductive BufferEvent (φ : Type)
  | construct (limit : BitVec 64)
  /-- `operator<<`; `ok` is the outcome of the write, if there is one. -/
  | insert (i : ℕ) (ins : Insertion UInt8 φ) (ok : Bool)
  | flush (i : ℕ) (ok : Bool)
  | destroy (i : ℕ) (ok : Bool)
  | handleSignal (ok : ℕ → Bool)

namespace Process

/-- A new buffer, and `register_instance`. -/
def construct (format : φ) (limit : BitVec 64) (s : Process φ) : Process φ :=
  { s with
    buffers := s.buffers ++ [.init format limit]
    instances := s.instances ++ [s.buffers.length] }

/-- Run a member of a buffer. -/
def update (i : ℕ) (b : Buffer φ) (s : Process φ) : Process φ :=
  { s with buffers := s.buffers.set i b }

/-- `unregister_instance`. -/
def unregister (i : ℕ) (s : Process φ) : Process φ :=
  { s with instances := s.instances.filter (· ≠ i) }

/-- `handle_signal`: flush all instances and exit. -/
def handleSignal (ok : ℕ → Bool) (s : Process φ) : Process φ :=
  { s with
    buffers := s.instances.foldl (fun buffers i ↦ buffers.modify i (·.flush (ok i))) s.buffers
    exited := true }

/-- The buffer with this number, if its lifetime has not ended. -/
def live? (s : Process φ) (i : ℕ) : Option (Buffer φ) := s.buffers[i]?.filter (!·.destroyed)

def step (format : φ) (s : Process φ) (e : BufferEvent φ) : Option (Process φ) :=
  if s.exited then none
  else
    match e with
    | .construct limit => some (s.construct format limit)
    | .insert i ins ok => (s.live? i).map fun b ↦ s.update i (b.insert ins ok)
    | .flush i ok => (s.live? i).map fun b ↦ s.update i (b.flush ok)
    | .destroy i ok => (s.live? i).map fun b ↦ (s.update i (b.destroy ok)).unregister i
    | .handleSignal ok => some (s.handleSignal ok)

end Process

/-- A process with the format state of its new streams. -/
def bufferSystem (format : φ) : StepSystem (Process φ) (BufferEvent φ) where
  init := ⟨[], [], false⟩
  step := Process.step format

/-! ## What the log should be -/

/-- The insertion into this buffer, if there is one. -/
def BufferEvent.insertedInto (i : ℕ) : BufferEvent φ → List (Insertion UInt8 φ)
  | insert j ins _ => if j = i then [ins] else []
  | _ => []

/-- The insertions into a buffer, in their order. -/
def insertionsInto (i : ℕ) (h : List (BufferEvent φ)) : List (Insertion UInt8 φ) :=
  h.reverse.flatMap (BufferEvent.insertedInto i)

theorem insertionsInto_cons (i : ℕ) (e : BufferEvent φ) (h : List (BufferEvent φ)) :
    insertionsInto i (e :: h) = insertionsInto i h ++ e.insertedInto i := by
  rw [insertionsInto, List.reverse_cons, List.flatMap_append, List.flatMap_singleton,
    insertionsInto]

/-- The log of a buffer after these insertions: one stream that received them, never flushed. -/
def unbuffered (format : φ) (insertions : List (Insertion UInt8 φ)) : OStream UInt8 φ :=
  (OStream.empty format).insertAll insertions

theorem unbuffered_append (format : φ) (l l' : List (Insertion UInt8 φ)) :
    unbuffered format (l ++ l') = (unbuffered format l).insertAll l' :=
  OStream.insertAll_append l l' _

/-! ## The effect of a step on one buffer -/

/-- What the event does to the buffer with this number, while it lives. -/
def BufferEvent.effect (i : ℕ) (b : Buffer φ) : BufferEvent φ → Buffer φ
  | construct _ => b
  | insert j ins ok => if j = i then b.insert ins ok else b
  | flush j ok => if j = i then b.flush ok else b
  | destroy j ok => if j = i then b.destroy ok else b
  | handleSignal ok => b.flush (ok i)

/-- The instances are the living buffers, each once. -/
structure Registered (s : Process φ) : Prop where
  nodup : s.instances.Nodup
  mem : ∀ i, i ∈ s.instances ↔ s.buffers[i]?.map Buffer.destroyed = some false

theorem live?_eq_some {s : Process φ} {i : ℕ} {b : Buffer φ} :
    s.live? i = some b ↔ s.buffers[i]? = some b ∧ b.destroyed = false := by
  rw [Process.live?, Option.filter_eq_some_iff]
  simp

theorem Registered.mem_iff {s : Process φ} (h : Registered s) {i : ℕ} {b : Buffer φ}
    (hb : s.buffers[i]? = some b) : i ∈ s.instances ↔ b.destroyed = false := by
  rw [h.mem, hb]
  simp

theorem getElem?_foldl_modify (f : ℕ → Buffer φ → Buffer φ) {l : List ℕ} (hl : l.Nodup)
    (buffers : List (Buffer φ)) (i : ℕ) :
    (l.foldl (fun buffers j ↦ buffers.modify j (f j)) buffers)[i]?
      = if i ∈ l then buffers[i]?.map (f i) else buffers[i]? := by
  induction l generalizing buffers with
  | nil => rfl
  | cons j l ih =>
    obtain ⟨hj, hl⟩ := List.nodup_cons.mp hl
    rw [List.foldl_cons, ih hl, List.getElem?_modify]
    by_cases hij : i = j
    · subst hij
      simp [hj]
    · have hne : ¬j = i := fun h ↦ hij h.symm
      simp [hij, hne]

theorem length_foldl_modify (f : ℕ → Buffer φ → Buffer φ) (l : List ℕ) (buffers : List (Buffer φ)) :
    (l.foldl (fun buffers j ↦ buffers.modify j (f j)) buffers).length = buffers.length := by
  induction l generalizing buffers with
  | nil => rfl
  | cons j l ih => rw [List.foldl_cons, ih, List.length_modify]

theorem getElem?_update {s : Process φ} {j : ℕ} {b : Buffer φ} (hb : s.live? j = some b)
    (b' : Buffer φ) (i : ℕ) :
    (s.update j b').buffers[i]? = if j = i then some b' else s.buffers[i]? := by
  have hj : j < s.buffers.length := (List.getElem?_eq_some_iff.mp (live?_eq_some.mp hb).1).1
  rw [Process.update, List.getElem?_set]
  simp only [hj, if_true]

/-- A buffer after a construction: an old one, or the new one behind them. -/
theorem getElem?_construct {format : φ} {limit : BitVec 64} {s : Process φ} {i : ℕ} {b : Buffer φ}
    (hb : (s.construct format limit).buffers[i]? = some b) :
    s.buffers[i]? = some b ∨ i = s.buffers.length ∧ b = .init format limit := by
  rw [Process.construct, List.getElem?_append] at hb
  split_ifs at hb with hi
  · exact Or.inl hb
  · obtain ⟨hlt, hinit⟩ := List.getElem?_eq_some_iff.mp hb
    rw [List.length_singleton] at hlt
    refine Or.inr ⟨by omega, ?_⟩
    rw [← hinit, List.getElem_singleton]

theorem getElem?_handleSignal {s : Process φ} (h : Registered s) (ok : ℕ → Bool) (i : ℕ) :
    (s.handleSignal ok).buffers[i]?
      = s.buffers[i]?.map fun b ↦ if b.destroyed then b else b.flush (ok i) := by
  rw [Process.handleSignal, getElem?_foldl_modify (fun i b ↦ b.flush (ok i)) h.nodup]
  cases hb : s.buffers[i]? with
  | none => simp
  | some b => cases hd : b.destroyed <;> simp [h.mem_iff hb, hd]

/-- **What a step does to a buffer**: it is new, or its lifetime had ended, or the event has its
effect on it. -/
theorem step_buffers {format : φ} {s s' : Process φ} {e : BufferEvent φ} (h : Registered s)
    (hs : Process.step format s e = some s') {i : ℕ} {b' : Buffer φ}
    (hb' : s'.buffers[i]? = some b') :
    (∃ limit, e = .construct limit ∧ i = s.buffers.length ∧ b' = .init format limit)
      ∨ (s.buffers[i]? = some b' ∧ b'.destroyed = true ∧ e.insertedInto i = [])
      ∨ ∃ b, s.buffers[i]? = some b ∧ b.destroyed = false ∧ b' = e.effect i b := by
  -- A buffer that the event leaves alone.
  have hkeep (hb : s.buffers[i]? = some b') (heffect : e.effect i b' = b')
      (hne : e.insertedInto i = []) :
      (s.buffers[i]? = some b' ∧ b'.destroyed = true ∧ e.insertedInto i = [])
        ∨ ∃ b, s.buffers[i]? = some b ∧ b.destroyed = false ∧ b' = e.effect i b := by
    cases hd : b'.destroyed with
    | true => exact Or.inl ⟨hb, rfl, hne⟩
    | false => exact Or.inr ⟨b', hb, hd, heffect.symm⟩
  -- A buffer that is the object of the event, or not.
  have hmember (j : ℕ) (f : Buffer φ → Buffer φ)
      (heffect : ∀ b, e.effect i b = if j = i then f b else b)
      (hne : j ≠ i → e.insertedInto i = []) {b : Buffer φ} (hb : s.live? j = some b)
      (hupdate : (s.update j (f b)).buffers[i]? = some b') :
      (s.buffers[i]? = some b' ∧ b'.destroyed = true ∧ e.insertedInto i = [])
        ∨ ∃ b, s.buffers[i]? = some b ∧ b.destroyed = false ∧ b' = e.effect i b := by
    rw [getElem?_update hb] at hupdate
    obtain ⟨hb, hlive⟩ := live?_eq_some.mp hb
    split_ifs at hupdate with hji
    · subst hji
      refine Or.inr ⟨b, hb, hlive, ?_⟩
      rw [heffect, if_pos rfl]
      exact (Option.some.inj hupdate).symm
    · exact hkeep hupdate (by rw [heffect, if_neg hji]) (hne hji)
  unfold Process.step at hs
  split_ifs at hs
  cases e with
  | construct limit =>
    obtain rfl := Option.some.inj hs
    rcases getElem?_construct hb' with hb | ⟨hi, hinit⟩
    · exact Or.inr (hkeep hb rfl rfl)
    · exact Or.inl ⟨limit, rfl, hi, hinit⟩
  | insert j ins ok =>
    obtain ⟨b, hb, rfl⟩ := Option.map_eq_some_iff.mp hs
    exact Or.inr (hmember j (fun b ↦ b.insert ins ok) (fun _ ↦ rfl) (fun hji ↦ if_neg hji) hb hb')
  | flush j ok =>
    obtain ⟨b, hb, rfl⟩ := Option.map_eq_some_iff.mp hs
    exact Or.inr (hmember j (fun b ↦ b.flush ok) (fun _ ↦ rfl) (fun _ ↦ rfl) hb hb')
  | destroy j ok =>
    obtain ⟨b, hb, rfl⟩ := Option.map_eq_some_iff.mp hs
    exact Or.inr (hmember j (fun b ↦ b.destroy ok) (fun _ ↦ rfl) (fun _ ↦ rfl) hb hb')
  | handleSignal ok =>
    obtain rfl := Option.some.inj hs
    rw [getElem?_handleSignal h] at hb'
    obtain ⟨b, hb, rfl⟩ := Option.map_eq_some_iff.mp hb'
    cases hd : b.destroyed with
    | true => exact Or.inr (Or.inl ⟨by simp [hb], by simp [hd], rfl⟩)
    | false => exact Or.inr (Or.inr ⟨b, hb, hd, by simp [BufferEvent.effect]⟩)

/-- Where no lifetime begins or ends, the list of instances stays right. -/
theorem Registered.of_lifetimes {s s' : Process φ} (h : Registered s)
    (hinstances : s'.instances = s.instances)
    (hlifetimes : ∀ i : ℕ,
      s'.buffers[i]?.map Buffer.destroyed = s.buffers[i]?.map Buffer.destroyed) :
    Registered s' := by
  refine ⟨hinstances ▸ h.nodup, fun i ↦ ?_⟩
  rw [hinstances, hlifetimes, h.mem]

theorem Registered.update {s : Process φ} (h : Registered s) {j : ℕ} {b b' : Buffer φ}
    (hb : s.live? j = some b) (hdestroyed : b'.destroyed = b.destroyed) :
    Registered (s.update j b') := by
  refine h.of_lifetimes rfl fun i ↦ ?_
  rw [getElem?_update hb]
  split_ifs with hji
  · subst hji
    rw [(live?_eq_some.mp hb).1, Option.map_some, Option.map_some, hdestroyed]
  · rfl

theorem Registered.construct {s : Process φ} (h : Registered s) (format : φ) (limit : BitVec 64) :
    Registered (s.construct format limit) := by
  have hlt : ∀ i ∈ s.instances, i < s.buffers.length := by
    intro i hi
    obtain ⟨b, hb, -⟩ := Option.map_eq_some_iff.mp ((h.mem i).mp hi)
    exact (List.getElem?_eq_some_iff.mp hb).1
  constructor
  · refine List.nodup_append.mpr ⟨h.nodup, List.pairwise_singleton _ _, fun i hi j hj ↦ ?_⟩
    rw [List.mem_singleton.mp hj]
    exact ne_of_lt (hlt i hi)
  · intro i
    rw [Process.construct, List.mem_append, List.mem_singleton, List.getElem?_append, h.mem]
    split_ifs with hi
    · exact or_iff_left (ne_of_lt hi)
    · have hnone : s.buffers[i]? = none := List.getElem?_eq_none (not_lt.mp hi)
      rw [hnone, List.getElem?_singleton]
      split_ifs with hzero
      · simp only [Option.map_some, Option.map_none]
        exact iff_of_true (Or.inr (by omega)) rfl
      · simp only [Option.map_none]
        exact iff_of_false (by simp; omega) (by simp)

theorem Registered.retire {s : Process φ} (h : Registered s) {j : ℕ} {b b' : Buffer φ}
    (hb : s.live? j = some b) (hdestroyed : b'.destroyed = true) :
    Registered ((s.update j b').unregister j) := by
  refine ⟨h.nodup.filter _, fun i ↦ ?_⟩
  have hbuffers := getElem?_update hb b' i
  rw [Process.unregister, List.mem_filter]
  simp only
  rw [hbuffers]
  split_ifs with hji
  · simp [hji, hdestroyed]
  · have hij : i ≠ j := fun heq ↦ hji heq.symm
    simp only [hij, ne_eq, not_false_eq_true, decide_true, and_true]
    exact h.mem i

theorem Registered.step {format : φ} {s s' : Process φ} {e : BufferEvent φ} (h : Registered s)
    (hs : Process.step format s e = some s') : Registered s' := by
  unfold Process.step at hs
  split_ifs at hs
  cases e with
  | construct limit =>
    obtain rfl := Option.some.inj hs
    exact h.construct format limit
  | insert j ins ok =>
    obtain ⟨b, hb, rfl⟩ := Option.map_eq_some_iff.mp hs
    exact h.update hb (b.destroyed_insert ins ok)
  | flush j ok =>
    obtain ⟨b, hb, rfl⟩ := Option.map_eq_some_iff.mp hs
    exact h.update hb (b.destroyed_flush ok)
  | destroy j ok =>
    obtain ⟨b, hb, rfl⟩ := Option.map_eq_some_iff.mp hs
    exact h.retire hb rfl
  | handleSignal ok =>
    obtain rfl := Option.some.inj hs
    refine h.of_lifetimes rfl fun i ↦ ?_
    rw [getElem?_handleSignal h, Option.map_map]
    congr 1
    funext b
    rw [Function.comp_apply]
    split_ifs
    · rfl
    · exact b.destroyed_flush (ok i)

end WorkloadAwareCompaction
