import WorkloadAwareCompaction.Logging.Log

/-!
# Writes that fail

`flush` empties the string stream whether or not the file has taken its content: the state of the
file stream is never looked at. So the first write that fails loses the bytes it was to write, and
all states of a run have their logs complete exactly when no write of the run fails.
-/

namespace WorkloadAwareCompaction

variable {φ : Type}

/-- The bytes of a failed write are neither in the file nor pending. -/
theorem Buffer.Logs.content_flush_false {b : Buffer φ} {log : OStream UInt8 φ} (h : b.Logs log)
    (hpending : b.hasPending = true) :
    (b.flush false).outputFile.content ++ (b.flush false).buffer.content ≠ log.content := by
  rw [flush_false h.clean hpending, ← h.continues.content]
  intro hsame
  have hnil := List.append_cancel_left hsame
  exact hasPending_iff.mp hpending hnil.symm

theorem Buffer.Logs.content_effect_of_fail {b : Buffer φ} {log : OStream UInt8 φ} (h : b.Logs log)
    {i : ℕ} {e : BufferEvent φ} (hwrites : e.writes i b = true) (hfail : e.outcome i = false) :
    (e.effect i b).outputFile.content ++ (e.effect i b).buffer.content
      ≠ (log.insertAll (e.insertedInto i)).content := by
  cases e with
  | construct limit => exact absurd hwrites (by simp [BufferEvent.writes])
  | insert j ins ok =>
    obtain rfl : ok = false := hfail
    obtain ⟨⟨hji, hover⟩, hpending⟩ : (j = i ∧ (b.append ins).overLimit = true)
        ∧ (b.append ins).hasPending = true := by
      simpa [BufferEvent.writes] using hwrites
    rw [BufferEvent.effect, BufferEvent.insertedInto, if_pos hji, if_pos hji, Buffer.insert,
      if_pos hover]
    exact (h.append ins).content_flush_false hpending
  | flush j ok =>
    obtain rfl : ok = false := hfail
    obtain ⟨hji, hpending⟩ : j = i ∧ b.hasPending = true := by
      simpa [BufferEvent.writes] using hwrites
    rw [BufferEvent.effect, if_pos hji]
    exact h.content_flush_false hpending
  | destroy j ok =>
    obtain rfl : ok = false := hfail
    obtain ⟨hji, hpending⟩ : j = i ∧ b.hasPending = true := by
      simpa [BufferEvent.writes] using hwrites
    rw [BufferEvent.effect, if_pos hji]
    have hlost := h.content_flush_false hpending
    rw [flush_false h.clean hpending] at hlost
    rw [Buffer.destroy, flush_false h.clean hpending]
    simpa [Buffer.close, OFile.flush, BufferEvent.insertedInto] using hlost
  | handleSignal ok =>
    have hok : ok i = false := hfail
    rw [BufferEvent.effect, hok]
    exact h.content_flush_false hwrites

/-- The file of every buffer and its pending bytes make up everything inserted into it. -/
def KeepsLog (format : φ) (h : List (BufferEvent φ)) (s : Process φ) : Prop :=
  ∀ (i : ℕ) (b : Buffer φ), s.buffers[i]? = some b → b.outputFile.content ++ b.buffer.content
    = (unbuffered format (insertionsInto i h)).content

theorem LogInv.keepsLog {format : φ} {h : List (BufferEvent φ)} {s : Process φ}
    (hinv : LogInv format h s) : KeepsLog format h s :=
  fun i b hb ↦ (hinv.logs i b hb).continues.content

/-- A living buffer after a step. -/
theorem getElem?_of_live {format : φ} {s s' : Process φ} {e : BufferEvent φ} (h : Registered s)
    (hs : Process.step format s e = some s') {i : ℕ} {b : Buffer φ} (hb : s.live? i = some b) :
    s'.buffers[i]? = some (e.effect i b) := by
  obtain ⟨hb, hlive⟩ := live?_eq_some.mp hb
  have hlt : i < s.buffers.length := (List.getElem?_eq_some_iff.mp hb).1
  have hb' := List.getElem?_eq_getElem (lt_of_lt_of_le hlt (length_buffers_le hs))
  rcases step_buffers h hs hb' with ⟨_, _, hi, _⟩ | ⟨hdead, hdestroyed, _⟩ | ⟨b₁, hb₁, _, heffect⟩
  · exact absurd hi (ne_of_lt hlt)
  · rw [hb] at hdead
    rw [← Option.some.inj hdead, hlive] at hdestroyed
    exact absurd hdestroyed (by decide)
  · rw [hb] at hb₁
    rw [hb', heffect, Option.some.inj hb₁]

/-- A step out of a state with complete logs keeps them exactly when its writes succeed. -/
theorem LogInv.keepsLog_step_iff {format : φ} {h : List (BufferEvent φ)} {s s' : Process φ}
    {e : BufferEvent φ} (hinv : LogInv format h s) (hs : Process.step format s e = some s') :
    KeepsLog format (e :: h) s' ↔ WritesSucceed s e := by
  refine ⟨fun hkeeps i b hb hwrites ↦ ?_, fun hok ↦ (hinv.step hok hs).keepsLog⟩
  by_contra hfail
  have hlogs := hinv.logs i b (live?_eq_some.mp hb).1
  have hlost := hlogs.content_effect_of_fail hwrites (eq_false_of_ne_true hfail)
  have hkept := hkeeps i _ (getElem?_of_live hinv.registered hs hb)
  rw [insertionsInto_cons, unbuffered_append] at hkept
  exact hlost hkept

/-- **When no log bytes are lost**: all states of a run keep the logs exactly when all writes of the
run succeed. -/
theorem keepsLog_iff {format : φ} {h : List (BufferEvent φ)} {s : Process φ}
    (hrun : (bufferSystem format).Run (fun _ _ ↦ True) h s) :
    (∀ h' s', h' <:+ h → (bufferSystem format).Run (fun _ _ ↦ True) h' s' → KeepsLog format h' s')
      ↔ (bufferSystem format).Run WritesSucceed h s := by
  have hinit := logInv_init format
  have hiff := hrun.forall_goodAt_iff (I := LogInv format) (G := KeepsLog format)
    (Q := WritesSucceed) hinit hinit.keepsLog fun h s e s' _ hinv _ hs ↦
      ⟨hinv.keepsLog_step_iff hs,
        fun hkeeps ↦ hinv.step ((hinv.keepsLog_step_iff hs).mp hkeeps) hs⟩
  rw [hiff]
  exact ⟨fun h ↦ h.mono fun _ _ ↦ And.right, fun h ↦ h.mono fun _ _ hok ↦ ⟨trivial, hok⟩⟩

/-- A flush whose write succeeds, between two insertions below the limit. -/
theorem keepsLog_small :
    let h : List (BufferEvent Format) := [.insert 0 (Format.text [121]) false, .flush 0 true,
      .insert 0 (Format.text [120]) false, .construct 8]
    ∃ s, (bufferSystem Format.init).Run (fun _ _ ↦ True) h s
      ∧ ((∀ h' s', h' <:+ h → (bufferSystem Format.init).Run (fun _ _ ↦ True) h' s' →
          KeepsLog Format.init h' s')
        ↔ (bufferSystem Format.init).Run WritesSucceed h s) := by
  intro h
  obtain ⟨s, hrun, -⟩ := StepSystem.exists_run_of_exec (M := bufferSystem Format.init)
    (P := fun _ _ ↦ True) (R := fun _ ↦ True) (h := h) rfl
  exact ⟨s, hrun, keepsLog_iff hrun⟩

/-- One byte and a flush whose write fails. -/
theorem not_keepsLog_small :
    ¬∀ h s, (bufferSystem Format.init).Run (fun _ _ ↦ True) h s → KeepsLog Format.init h s := by
  intro hall
  obtain ⟨s, hrun, hlost⟩ := StepSystem.exists_run_of_exec (M := bufferSystem Format.init)
    (P := fun _ _ ↦ True)
    (R := fun s ↦ s.buffers[0]?.map (fun b ↦ b.outputFile.content ++ b.buffer.content) = some [])
    (h := [.flush 0 false, .insert 0 (Format.text [120]) true, .construct 8]) rfl
  obtain ⟨b, hb, hnil⟩ := Option.map_eq_some_iff.mp hlost
  have hkept := hall _ s hrun 0 b hb
  rw [hnil] at hkept
  exact absurd hkept (by decide)

end WorkloadAwareCompaction
