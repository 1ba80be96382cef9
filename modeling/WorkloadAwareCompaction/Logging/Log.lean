import WorkloadAwareCompaction.Logging.Process

/-!
# The log is exact

While no write fails, the file of a buffer followed by the bytes still pending is what one stream
would hold that received the same insertions and was never flushed. The content moves to the file in
pieces and the format state stays behind, so a flush may fall between a `setw` and the value that it
applies to. The end of a lifetime and the signal handler flush what is left. So the file at the end
depends on the insertions alone.
-/

namespace WorkloadAwareCompaction

variable {φ : Type}

/-! ## One buffer -/

/-- The file and the pending bytes of the buffer make up the log. -/
structure Buffer.Logs (b : Buffer φ) (log : OStream UInt8 φ) : Prop where
  clean : b.Clean
  continues : OStream.Continues b.outputFile.content b.buffer log

namespace Buffer.Logs

variable {b : Buffer φ} {log : OStream UInt8 φ}

theorem init (format : φ) (limit : BitVec 64) : (Buffer.init format limit).Logs (.empty format) :=
  ⟨clean_init format limit, .refl _⟩

theorem append (h : b.Logs log) (ins : Insertion UInt8 φ) : (b.append ins).Logs (log.insert ins) :=
  ⟨⟨h.clean.bad, h.clean.staged⟩, h.continues.insert ins⟩

theorem flush (h : b.Logs log) {ok : Bool} (hok : b.hasPending = true → ok = true) :
    (b.flush ok).Logs log := by
  cases hpending : b.hasPending with
  | false => rwa [flush_of_not_hasPending hpending]
  | true =>
    rw [hok hpending, flush_true h.clean]
    exact ⟨⟨rfl, rfl⟩, h.continues.clear⟩

theorem insert (h : b.Logs log) (ins : Insertion UInt8 φ) {ok : Bool}
    (hok : (b.append ins).overLimit = true → (b.append ins).hasPending = true → ok = true) :
    (b.insert ins ok).Logs (log.insert ins) := by
  rw [Buffer.insert]
  split_ifs with hover
  · exact (h.append ins).flush (hok hover)
  · exact h.append ins

theorem close (h : b.Logs log) : b.close.Logs log := by
  have hcontent : b.close.outputFile.content = b.outputFile.content := by
    rw [Buffer.close, OFile.flush, h.clean.staged, List.append_nil]
  exact ⟨⟨h.clean.bad, rfl⟩, ⟨hcontent ▸ h.continues.content, h.continues.format⟩⟩

theorem content_of_flushed (h : b.Logs log) (hnil : b.buffer.content = []) :
    b.outputFile.content = log.content := by
  rw [← h.continues.content, hnil, List.append_nil]

end Buffer.Logs

/-! ## The writes of an event -/

/-- The event writes to the file of this buffer. -/
def BufferEvent.writes (i : ℕ) (b : Buffer φ) : BufferEvent φ → Bool
  | construct _ => false
  | insert j ins _ => j = i && (b.append ins).overLimit && (b.append ins).hasPending
  | flush j _ => j = i && b.hasPending
  | destroy j _ => j = i && b.hasPending
  | handleSignal _ => b.hasPending

/-- The outcome of that write. -/
def BufferEvent.outcome (i : ℕ) : BufferEvent φ → Bool
  | construct _ => true
  | insert _ _ ok => ok
  | flush _ ok => ok
  | destroy _ ok => ok
  | handleSignal ok => ok i

/-- All writes that the event makes succeed. -/
def WritesSucceed (s : Process φ) (e : BufferEvent φ) : Prop :=
  ∀ i b, s.live? i = some b → e.writes i b = true → e.outcome i = true

/-- **What an event does to a log**: it appends what is inserted. -/
theorem Buffer.Logs.effect {b : Buffer φ} {log : OStream UInt8 φ} (h : b.Logs log) (i : ℕ)
    {e : BufferEvent φ} (hok : e.writes i b = true → e.outcome i = true) :
    (e.effect i b).Logs (log.insertAll (e.insertedInto i)) := by
  cases e with
  | construct limit => exact h
  | insert j ins ok =>
    rw [BufferEvent.effect, BufferEvent.insertedInto]
    split_ifs with hji
    · refine h.insert ins fun hover hpending ↦ hok ?_
      simp [BufferEvent.writes, hji, hover, hpending]
    · exact h
  | flush j ok =>
    rw [BufferEvent.effect]
    split_ifs with hji
    · exact h.flush fun hpending ↦ hok (by simp [BufferEvent.writes, hji, hpending])
    · exact h
  | destroy j ok =>
    rw [BufferEvent.effect]
    split_ifs with hji
    · refine Buffer.Logs.close (h.flush fun hpending ↦ hok ?_)
      simp [BufferEvent.writes, hji, hpending]
    · exact h
  | handleSignal ok => exact h.flush hok

/-! ## The pending bytes -/

theorem Buffer.tellp_flush_lt (b : Buffer φ) (ok : Bool) :
    (b.flush ok).tellp < max (b.flush ok).bufferLimit.toNat 1 := by
  rw [tellp, content_flush, List.length_nil]
  omega

theorem Buffer.tellp_insert_lt (b : Buffer φ) (ins : Insertion UInt8 φ) (ok : Bool) :
    (b.insert ins ok).tellp < max (b.insert ins ok).bufferLimit.toNat 1 := by
  rw [insert]
  split_ifs with hover
  · exact tellp_flush_lt _ ok
  · exact overLimit_eq_false (eq_false_of_ne_true hover)

theorem BufferEvent.tellp_effect_lt (e : BufferEvent φ) (i : ℕ) {b : Buffer φ}
    (h : b.tellp < max b.bufferLimit.toNat 1) :
    (e.effect i b).tellp < max (e.effect i b).bufferLimit.toNat 1 := by
  cases e with
  | construct limit => exact h
  | insert j ins ok =>
    rw [effect]
    split_ifs
    · exact b.tellp_insert_lt ins ok
    · exact h
  | flush j ok =>
    rw [effect]
    split_ifs
    · exact b.tellp_flush_lt ok
    · exact h
  | destroy j ok =>
    rw [effect]
    split_ifs
    · exact b.tellp_flush_lt ok
    · exact h
  | handleSignal ok => exact b.tellp_flush_lt (ok i)

/-! ## All buffers of a process -/

/-- The lifetime of the buffer or of the process has ended. -/
def Process.Ended (s : Process φ) (b : Buffer φ) : Prop := b.destroyed = true ∨ s.exited = true

/-- What a history makes of the buffers, as long as no write fails. -/
structure LogInv (format : φ) (h : List (BufferEvent φ)) (s : Process φ) : Prop where
  registered : Registered s
  /-- Nothing was inserted into buffers that are yet to come. -/
  fresh : ∀ i, s.buffers.length ≤ i → insertionsInto i h = []
  logs : ∀ (i : ℕ) (b : Buffer φ), s.buffers[i]? = some b →
    b.Logs (unbuffered format (insertionsInto i h))
  small : ∀ (i : ℕ) (b : Buffer φ), s.buffers[i]? = some b → b.tellp < max b.bufferLimit.toNat 1
  flushed : ∀ (i : ℕ) (b : Buffer φ), s.buffers[i]? = some b → s.Ended b → b.buffer.content = []

theorem logInv_init (format : φ) : LogInv format [] (bufferSystem format).init := by
  have hnone {i : ℕ} {b : Buffer φ} : (bufferSystem format).init.buffers[i]? ≠ some b := by
    rw [bufferSystem]
    simp
  refine ⟨⟨List.nodup_nil, fun i ↦ ?_⟩, fun i _ ↦ rfl, fun i b hb ↦ absurd hb hnone,
    fun i b hb ↦ absurd hb hnone, fun i b hb ↦ absurd hb hnone⟩
  rw [bufferSystem]
  simp

/-- An insertion goes into a buffer that is there. -/
theorem lt_length_of_insertedInto {format : φ} {s s' : Process φ} {e : BufferEvent φ} {i : ℕ}
    (hs : Process.step format s e = some s') (hins : e.insertedInto i ≠ []) :
    i < s.buffers.length := by
  cases e with
  | insert j ins ok =>
    rw [BufferEvent.insertedInto] at hins
    split_ifs at hins with hji
    · subst hji
      unfold Process.step at hs
      split_ifs at hs
      obtain ⟨b, hb, -⟩ := Option.map_eq_some_iff.mp hs
      exact (List.getElem?_eq_some_iff.mp (live?_eq_some.mp hb).1).1
    · exact absurd rfl hins
  | _ => exact absurd rfl hins

theorem length_buffers_le {format : φ} {s s' : Process φ} {e : BufferEvent φ}
    (hs : Process.step format s e = some s') : s.buffers.length ≤ s'.buffers.length := by
  unfold Process.step at hs
  split_ifs at hs
  cases e with
  | construct limit =>
    obtain rfl := Option.some.inj hs
    simp [Process.construct]
  | insert j ins ok =>
    obtain ⟨b, -, rfl⟩ := Option.map_eq_some_iff.mp hs
    exact le_of_eq List.length_set.symm
  | flush j ok =>
    obtain ⟨b, -, rfl⟩ := Option.map_eq_some_iff.mp hs
    exact le_of_eq List.length_set.symm
  | destroy j ok =>
    obtain ⟨b, -, rfl⟩ := Option.map_eq_some_iff.mp hs
    exact le_of_eq List.length_set.symm
  | handleSignal ok =>
    obtain rfl := Option.some.inj hs
    exact le_of_eq (length_foldl_modify (fun i b ↦ b.flush (ok i)) _ _).symm

theorem exited_of_step {format : φ} {s s' : Process φ} {e : BufferEvent φ}
    (hs : Process.step format s e = some s') (hexited : s'.exited = true) :
    ∃ ok, e = .handleSignal ok := by
  unfold Process.step at hs
  split_ifs at hs with hrunning
  cases e with
  | construct limit =>
    obtain rfl := Option.some.inj hs
    exact absurd hexited hrunning
  | insert j ins ok =>
    obtain ⟨b, -, rfl⟩ := Option.map_eq_some_iff.mp hs
    exact absurd hexited hrunning
  | flush j ok =>
    obtain ⟨b, -, rfl⟩ := Option.map_eq_some_iff.mp hs
    exact absurd hexited hrunning
  | destroy j ok =>
    obtain ⟨b, -, rfl⟩ := Option.map_eq_some_iff.mp hs
    exact absurd hexited hrunning
  | handleSignal ok => exact ⟨ok, rfl⟩

/-- A lifetime ends with a flush. -/
theorem content_effect_of_ended {format : φ} {s s' : Process φ} {e : BufferEvent φ}
    (hs : Process.step format s e = some s') {i : ℕ} {b : Buffer φ} (hlive : b.destroyed = false)
    (hended : s'.Ended (e.effect i b)) : (e.effect i b).buffer.content = [] := by
  rcases hended with hdestroyed | hexited
  · cases e with
    | destroy j ok =>
      rw [BufferEvent.effect] at hdestroyed ⊢
      split_ifs at hdestroyed ⊢
      · exact b.content_flush ok
      · exact absurd hdestroyed (by rw [hlive]; decide)
    | construct limit => exact absurd hdestroyed (by rw [BufferEvent.effect, hlive]; decide)
    | insert j ins ok =>
      rw [BufferEvent.effect] at hdestroyed
      split_ifs at hdestroyed <;> simp [hlive] at hdestroyed
    | flush j ok =>
      rw [BufferEvent.effect] at hdestroyed
      split_ifs at hdestroyed <;> simp [hlive] at hdestroyed
    | handleSignal ok => exact b.content_flush (ok i)
  · obtain ⟨ok, rfl⟩ := exited_of_step hs hexited
    exact b.content_flush (ok i)

/-- **One step.** -/
theorem LogInv.step {format : φ} {h : List (BufferEvent φ)} {s s' : Process φ} {e : BufferEvent φ}
    (hinv : LogInv format h s) (hok : WritesSucceed s e)
    (hs : Process.step format s e = some s') : LogInv format (e :: h) s' := by
  have hcases {i : ℕ} {b' : Buffer φ} (hb' : s'.buffers[i]? = some b') :=
    step_buffers hinv.registered hs hb'
  refine ⟨hinv.registered.step hs, fun i hi ↦ ?_, fun i b' hb' ↦ ?_, fun i b' hb' ↦ ?_,
    fun i b' hb' hended ↦ ?_⟩
  · have hlen := length_buffers_le hs
    rw [insertionsInto_cons, hinv.fresh i (hlen.trans hi), List.nil_append]
    by_contra hins
    have hlt := lt_length_of_insertedInto hs hins
    omega
  · rw [insertionsInto_cons, unbuffered_append]
    rcases hcases hb' with ⟨limit, rfl, rfl, rfl⟩ | ⟨hb, -, hnone⟩ | ⟨b, hb, hlive, rfl⟩
    · rw [hinv.fresh _ le_rfl]
      exact .init format limit
    · rw [hnone]
      exact hinv.logs i b' hb
    · exact (hinv.logs i b hb).effect i (hok i b (live?_eq_some.mpr ⟨hb, hlive⟩))
  · rcases hcases hb' with ⟨limit, rfl, rfl, rfl⟩ | ⟨hb, -, -⟩ | ⟨b, hb, -, rfl⟩
    · exact lt_of_lt_of_le Nat.zero_lt_one (le_max_right _ _)
    · exact hinv.small i b' hb
    · exact e.tellp_effect_lt i (hinv.small i b hb)
  · rcases hcases hb' with ⟨limit, rfl, rfl, rfl⟩ | ⟨hb, hdestroyed, -⟩ | ⟨b, hb, hlive, rfl⟩
    · rfl
    · exact hinv.flushed i b' hb (Or.inl hdestroyed)
    · exact content_effect_of_ended hs hlive hended

theorem logInv_of_run {format : φ} {h : List (BufferEvent φ)} {s : Process φ}
    (hrun : (bufferSystem format).Run WritesSucceed h s) : LogInv format h s :=
  hrun.invariant (logInv_init format) fun _ _ _ _ _ hinv hok hs ↦ hinv.step hok hs

theorem LogInv.content_of_ended {format : φ} {h : List (BufferEvent φ)} {s : Process φ}
    (hinv : LogInv format h s) {i : ℕ} {b : Buffer φ} (hb : s.buffers[i]? = some b)
    (hended : s.Ended b) :
    b.outputFile.content = (unbuffered format (insertionsInto i h)).content :=
  (hinv.logs i b hb).content_of_flushed (hinv.flushed i b hb hended)

/-- **The log is exact.** In every run without failing writes the file of each buffer and its
pending bytes make up its log, the pending bytes stay below the limit, and the file alone holds the
log once the lifetime of the buffer or of the process has ended. The list of instances holds the
living buffers. So the file at the end depends on the insertions alone, in whatever runs, with
whatever limits and flushes, they were made. -/
theorem exactLog_of_run {format : φ} {h : List (BufferEvent φ)} {s : Process φ}
    (hrun : (bufferSystem format).Run WritesSucceed h s) :
    (∀ i b, s.buffers[i]? = some b →
        b.outputFile.content ++ b.buffer.content
            = (unbuffered format (insertionsInto i h)).content
          ∧ b.tellp < max b.bufferLimit.toNat 1
          ∧ (s.Ended b →
            b.outputFile.content = (unbuffered format (insertionsInto i h)).content))
      ∧ (s.instances.Nodup
        ∧ ∀ i, i ∈ s.instances ↔ s.buffers[i]?.map Buffer.destroyed = some false)
      ∧ ∀ h' s' i j b b', (bufferSystem format).Run WritesSucceed h' s' →
          s.buffers[i]? = some b → s'.buffers[j]? = some b' → s.Ended b → s'.Ended b' →
          insertionsInto i h = insertionsInto j h' →
          b.outputFile.content = b'.outputFile.content := by
  have hinv := logInv_of_run hrun
  refine ⟨fun i b hb ↦ ⟨(hinv.logs i b hb).continues.content, hinv.small i b hb,
    hinv.content_of_ended hb⟩, ⟨hinv.registered.nodup, hinv.registered.mem⟩, ?_⟩
  intro h' s' i j b b' hrun' hb hb' hended hended' hsame
  rw [hinv.content_of_ended hb hended, (logInv_of_run hrun').content_of_ended hb' hended', hsame]

theorem writesSucceed_of_outcome {e : BufferEvent φ} (h : ∀ i, e.outcome i = true)
    (s : Process φ) : WritesSucceed s e := fun i _ _ _ ↦ h i

/-- The life of a single buffer: it is constructed, receives these insertions and is destroyed. -/
def lifetime (limit : BitVec 64) (l : List (Insertion UInt8 φ)) : List (BufferEvent φ) :=
  .destroy 0 true :: ((l.map fun ins ↦ .insert 0 ins true).reverse ++ [.construct limit])

theorem insertionsInto_lifetime (limit : BitVec 64) (l : List (Insertion UInt8 φ)) :
    insertionsInto 0 (lifetime limit l) = l := by
  simp [insertionsInto, lifetime, BufferEvent.insertedInto, List.flatMap_map]

/-- **Whatever is to be inserted, some run inserts it.** -/
theorem exists_run_lifetime (format : φ) (limit : BitVec 64) (l : List (Insertion UInt8 φ)) :
    ∃ s b, (bufferSystem format).Run WritesSucceed (lifetime limit l) s
      ∧ s.buffers[0]? = some b ∧ s.Ended b := by
  have hinserts : ∃ b : Buffer φ, b.destroyed = false ∧ (bufferSystem format).Run WritesSucceed
      ((l.map fun ins ↦ .insert 0 ins true).reverse ++ [.construct limit]) ⟨[b], [0], false⟩ := by
    induction l using List.reverseRecOn with
    | nil =>
      exact ⟨.init format limit, rfl, .step .start (writesSucceed_of_outcome (fun _ ↦ rfl) _) rfl⟩
    | append_singleton l ins ih =>
      obtain ⟨b, hlive, hrun⟩ := ih
      refine ⟨b.insert ins true, (b.destroyed_insert ins true).trans hlive, ?_⟩
      rw [List.map_append, List.reverse_append]
      refine .step hrun (writesSucceed_of_outcome (fun _ ↦ rfl) _) ?_
      simp [bufferSystem, Process.step, Process.live?, hlive, Process.update]
  obtain ⟨b, hlive, hrun⟩ := hinserts
  have hstep : Process.step format ⟨[b], [0], false⟩ (.destroy 0 true)
      = some ⟨[b.destroy true], [], false⟩ := by
    simp [Process.step, Process.live?, hlive, Process.update, Process.unregister]
  exact ⟨_, _, .step hrun (writesSucceed_of_outcome (fun _ ↦ rfl) _) hstep, rfl, Or.inl rfl⟩

/-- A flush between a width and the value it applies to, and a signal while two buffers live. -/
theorem exactLog_small :
    let h : List (BufferEvent Format) := [.handleSignal fun _ ↦ true, .insert 1 Format.endl true,
      .construct 0, .insert 0 (Format.text [97, 98]) true, .flush 0 true,
      .insert 0 (Format.setw 4) true, .insert 0 (Format.text [120]) true, .construct 8]
    ∃ s, (bufferSystem Format.init).Run WritesSucceed h s
      ∧ ∀ b, s.buffers[0]? = some b → b.outputFile.content = [120, 32, 32, 97, 98] := by
  intro h
  obtain ⟨s, hrun, hexited⟩ := StepSystem.exists_run_of_exec (M := bufferSystem Format.init)
    (P := fun _ _ ↦ True) (R := fun s ↦ s.exited = true) (h := h) rfl
  have hok : ∀ e ∈ h, ∀ i, e.outcome i = true := by simp [h, BufferEvent.outcome]
  have hsucceed : (bufferSystem Format.init).Run WritesSucceed h s :=
    (hrun.and fun e h' s' hsuf _ ↦ writesSucceed_of_outcome
      (hok e (hsuf.subset List.mem_cons_self)) s').mono fun _ _ ↦ And.right
  exact ⟨s, hsucceed, fun b hb ↦ ((exactLog_of_run hsucceed).1 0 b hb).2.2 (Or.inr hexited)⟩

end WorkloadAwareCompaction
