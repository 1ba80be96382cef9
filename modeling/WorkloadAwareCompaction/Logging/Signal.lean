import WorkloadAwareCompaction.Logging.Log

/-!
# A signal in the middle of an operation

Here the members of `Buffer` are cut into their atomic steps, and a signal may come between any two.
The handler flushes every registered buffer, also the one whose member it has interrupted. That is
right at every point but two: after a flush has written the content and before it has emptied the
string stream, the handler finds the same content and writes it again.

One thread runs the members. The handler runs once and then ends the process; writes succeed.
-/

namespace WorkloadAwareCompaction

variable {φ : Type}

/-! ## States and steps -/

/-- What the member in progress does next. `destructor` says that the flush is the destructor's. -/
inductive AtomicStep
  /-- Test the position against the limit, after the append. -/
  | overLimit
  /-- Test whether the position is 0. -/
  | hasPending (destructor : Bool)
  | write (destructor : Bool)
  | sync (destructor : Bool)
  | reset (destructor : Bool)
  /-- The rest of the destructor. -/
  | close
  deriving DecidableEq

structure Thread (φ : Type) where
  process : Process φ
  /-- The buffer whose member is in progress, and the member's next step. -/
  pc : Option (ℕ × AtomicStep)

inductive BufferOp (φ : Type)
  | construct (limit : BitVec 64)
  | insert (i : ℕ) (ins : Insertion UInt8 φ)
  | flush (i : ℕ)
  | destroy (i : ℕ)

inductive AtomicEvent (φ : Type)
  /-- An operation begins; for `operator<<` this is the append, for the constructor all of it. -/
  | begin (op : BufferOp φ)
  /-- The member in progress makes its next step. -/
  | advance
  /-- SIGTERM or SIGINT. -/
  | signal

namespace Thread

def begin (format : φ) (t : Thread φ) : BufferOp φ → Option (Thread φ)
  | .construct limit => some { t with process := t.process.construct format limit }
  | .insert i ins =>
    (t.process.live? i).map fun b ↦ ⟨t.process.update i (b.append ins), some (i, .overLimit)⟩
  | .flush i => (t.process.live? i).map fun _ ↦ { t with pc := some (i, .hasPending false) }
  | .destroy i => (t.process.live? i).map fun _ ↦ { t with pc := some (i, .hasPending true) }

/-- Where a flush returns to. -/
def afterFlush (i : ℕ) (destructor : Bool) : Option (ℕ × AtomicStep) :=
  if destructor then some (i, .close) else none

/-- The next step of the member in progress, on its buffer. -/
def advanceOn (t : Thread φ) (i : ℕ) (b : Buffer φ) : AtomicStep → Thread φ
  | .overLimit => { t with pc := if b.overLimit then some (i, .hasPending false) else none }
  | .hasPending d => { t with pc := if b.hasPending then some (i, .write d) else afterFlush i d }
  | .write d => ⟨t.process.update i (b.write true), some (i, .sync d)⟩
  | .sync d => ⟨t.process.update i b.sync, some (i, .reset d)⟩
  | .reset d => ⟨t.process.update i b.reset, afterFlush i d⟩
  | .close => ⟨(t.process.update i b.close).unregister i, none⟩

def advance (t : Thread φ) : Option (Thread φ) :=
  match t.pc with
  | none => none
  | some (i, next) => (t.process.live? i).map fun b ↦ t.advanceOn i b next

def step (format : φ) (t : Thread φ) (e : AtomicEvent φ) : Option (Thread φ) :=
  if t.process.exited then none
  else
    match e with
    | .begin op => if t.pc = none then t.begin format op else none
    | .advance => t.advance
    | .signal => some { t with process := t.process.handleSignal fun _ ↦ true }

theorem step_begin {format : φ} {t : Thread φ} (h : t.process.exited = false) (op : BufferOp φ) :
    t.step format (.begin op) = if t.pc = none then t.begin format op else none := by
  rw [step, h]
  rfl

theorem step_advance {format : φ} {t : Thread φ} (h : t.process.exited = false) :
    t.step format .advance = t.advance := by
  rw [step, h]
  rfl

theorem step_signal {format : φ} {t : Thread φ} (h : t.process.exited = false) :
    t.step format .signal = some { t with process := t.process.handleSignal fun _ ↦ true } := by
  rw [step, h]
  rfl

/-- Nothing happens after the exit. -/
theorem exited_of_step {format : φ} {t t' : Thread φ} {e : AtomicEvent φ}
    (hs : t.step format e = some t') : t.process.exited = false := by
  refine eq_false_of_ne_true fun hexited ↦ ?_
  unfold step at hs
  rw [if_pos hexited] at hs
  exact absurd hs (by simp)

/-- The next step of the member in progress, if it is one of this buffer. -/
def next (t : Thread φ) (i : ℕ) : Option AtomicStep :=
  (t.pc.filter (·.1 = i)).map Prod.snd

/-- The flush in progress has written the content and not yet emptied the string stream. -/
def Written (t : Thread φ) : Prop :=
  ∃ i d, t.pc = some (i, .sync d) ∨ t.pc = some (i, .reset d)

end Thread

def threadSystem (format : φ) : StepSystem (Thread φ) (AtomicEvent φ) where
  init := ⟨⟨[], [], false⟩, none⟩
  step := Thread.step format

/-- The insertion appended to this buffer, if there is one. -/
def AtomicEvent.appendedInto (i : ℕ) : AtomicEvent φ → List (Insertion UInt8 φ)
  | begin (.insert j ins) => if j = i then [ins] else []
  | _ => []

/-- The insertions whose append step was made, in their order. -/
def appendedInto (i : ℕ) (h : List (AtomicEvent φ)) : List (Insertion UInt8 φ) :=
  h.reverse.flatMap (AtomicEvent.appendedInto i)

theorem appendedInto_cons (i : ℕ) (e : AtomicEvent φ) (h : List (AtomicEvent φ)) :
    appendedInto i (e :: h) = appendedInto i h ++ e.appendedInto i := by
  rw [appendedInto, List.reverse_cons, List.flatMap_append, List.flatMap_singleton, appendedInto]

theorem appendedInto_cons_of_silent {i : ℕ} {e : AtomicEvent φ} (he : e.appendedInto i = [])
    (h : List (AtomicEvent φ)) : appendedInto i (e :: h) = appendedInto i h := by
  rw [appendedInto_cons, he, List.append_nil]

/-! ## One buffer between two steps -/

/-- What a buffer and its file hold of the log, by the next step of the member in progress. -/
def Buffer.At (b : Buffer φ) (log : OStream UInt8 φ) : Option AtomicStep → Prop
  | some (.write _) => b.Logs log ∧ b.hasPending = true
  | some (.sync _) => b.hasPending = true ∧ b.outputFile.bad = false
      ∧ b.outputFile.staged = b.buffer.content
      ∧ OStream.Continues b.outputFile.content b.buffer log
  | some (.reset _) => b.hasPending = true ∧ b.Clean ∧ b.outputFile.content = log.content
      ∧ b.buffer.format = log.format
  | some .close => b.Logs log ∧ b.buffer.content = []
  | _ => b.Logs log

namespace Buffer

variable {b : Buffer φ} {log : OStream UInt8 φ}

theorem at_afterFlush (h : b.Logs log) (hnil : b.buffer.content = []) (i : ℕ) (d : Bool) :
    b.At log (((Thread.afterFlush i d).filter (·.1 = i)).map Prod.snd) := by
  cases d with
  | false => exact h
  | true =>
    rw [Thread.afterFlush, if_pos rfl, Option.filter_some, if_pos (by simp)]
    exact ⟨h, hnil⟩

theorem At.write {d : Bool} (h : b.At log (some (.write d))) :
    (b.write true).At log (some (.sync d)) := by
  obtain ⟨hlogs, hpending⟩ := h
  have hwrite : b.outputFile.write true b.buffer.content
      = { b.outputFile with staged := b.buffer.content } := by
    simp [OFile.write, hlogs.clean.bad, hlogs.clean.staged]
  refine ⟨hpending, ?_, ?_, ?_⟩
  · rw [Buffer.write, hwrite]
    exact hlogs.clean.bad
  · rw [Buffer.write, hwrite]
  · rw [Buffer.write, hwrite]
    exact hlogs.continues

theorem At.sync {d : Bool} (h : b.At log (some (.sync d))) : b.sync.At log (some (.reset d)) := by
  obtain ⟨hpending, hbad, hstaged, hcontinues⟩ := h
  refine ⟨hpending, ⟨hbad, rfl⟩, ?_, hcontinues.format⟩
  rw [Buffer.sync, OFile.flush, hstaged]
  exact hcontinues.content

theorem At.reset {d : Bool} (h : b.At log (some (.reset d))) : b.reset.Logs log := by
  obtain ⟨-, hclean, hcontent, hformat⟩ := h
  exact ⟨⟨hclean.bad, hclean.staged⟩, ⟨(List.append_nil _).trans hcontent, hformat⟩⟩

/-- Flushed between the write and the reset, the file gets the content a second time. -/
theorem At.content_flush_of_written {d : Bool}
    (h : b.At log (some (.sync d)) ∨ b.At log (some (.reset d))) :
    (b.flush true).outputFile.content = log.content ++ b.buffer.content
      ∧ b.buffer.content ≠ [] := by
  rcases h with ⟨hpending, hbad, hstaged, hcontinues⟩ | ⟨hpending, hclean, hcontent, -⟩
  · refine ⟨?_, hasPending_iff.mp hpending⟩
    rw [← hcontinues.content, flush, if_pos hpending]
    simp [Buffer.write, OFile.write, hbad, hstaged, Buffer.sync, OFile.flush, Buffer.reset]
  · refine ⟨?_, hasPending_iff.mp hpending⟩
    rw [flush_true hclean, hcontent]

/-- Anywhere else, the file is complete after a flush. -/
theorem At.content_flush {next : Option AtomicStep} (h : b.At log next)
    (hnext : ∀ d, next ≠ some (.sync d) ∧ next ≠ some (.reset d)) :
    (b.flush true).outputFile.content = log.content := by
  have hlogs : b.Logs log := by
    cases next with
    | none => exact h
    | some step =>
      cases step with
      | sync d => exact absurd rfl (hnext d).1
      | reset d => exact absurd rfl (hnext d).2
      | write d => exact h.1
      | close => exact h.1
      | _ => exact h
  exact (hlogs.flush fun _ ↦ rfl).content_of_flushed (b.content_flush true)

end Buffer

/-! ## All buffers -/

theorem Thread.next_of_ne {t : Thread φ} {j : ℕ} (hpc : ∀ next, t.pc ≠ some (j, next)) :
    t.next j = none := by
  rw [Thread.next, Option.map_eq_none_iff, Option.filter_eq_none_iff]
  intro p hp heq
  obtain ⟨k, next⟩ := p
  obtain rfl : k = j := by simpa using heq
  exact hpc next hp

theorem Thread.next_eq {t : Thread φ} {i : ℕ} {step : AtomicStep} (hpc : t.pc = some (i, step)) :
    t.next i = some step := by
  simp [Thread.next, hpc]

theorem Thread.pc_of_next {t : Thread φ} {i : ℕ} {step : AtomicStep} (h : t.next i = some step) :
    t.pc = some (i, step) := by
  obtain ⟨⟨j, step'⟩, hfilter, rfl⟩ := Option.map_eq_some_iff.mp h
  obtain ⟨hpc, hij⟩ := Option.filter_eq_some_iff.mp hfilter
  obtain rfl : j = i := by simpa using hij
  exact hpc

/-- What a history of steps makes of the buffers. -/
structure ThreadInv (format : φ) (h : List (AtomicEvent φ)) (t : Thread φ) : Prop where
  registered : Registered t.process
  /-- The buffer whose member is in progress lives. -/
  busy : ∀ i next, t.pc = some (i, next) → ∃ b, t.process.live? i = some b
  fresh : ∀ i, t.process.buffers.length ≤ i → appendedInto i h = []
  logs : ∀ (i : ℕ) (b : Buffer φ), t.process.buffers[i]? = some b →
    b.At (unbuffered format (appendedInto i h)) (t.next i)
  flushed : ∀ (i : ℕ) (b : Buffer φ), t.process.buffers[i]? = some b → b.destroyed = true →
    b.buffer.content = []

/-- The program counter points at this buffer or nowhere. -/
def PointsAt (i : ℕ) (pc : Option (ℕ × AtomicStep)) : Prop := ∀ j next, pc = some (j, next) → j = i

/-- **A step on one buffer.** -/
theorem ThreadInv.update {format : φ} {h : List (AtomicEvent φ)} {t : Thread φ}
    (hinv : ThreadInv format h t) {i : ℕ} {b b' : Buffer φ} (hb : t.process.live? i = some b)
    (hlive : b'.destroyed = false) {pc : Option (ℕ × AtomicStep)} (hold : PointsAt i t.pc)
    (hnew : PointsAt i pc) {e : AtomicEvent φ} (hother : ∀ j, j ≠ i → e.appendedInto j = [])
    (hat : b'.At (unbuffered format (appendedInto i (e :: h)))
      ((pc.filter (·.1 = i)).map Prod.snd)) :
    ThreadInv format (e :: h) ⟨t.process.update i b', pc⟩ := by
  have hlt : i < t.process.buffers.length :=
    (List.getElem?_eq_some_iff.mp (live?_eq_some.mp hb).1).1
  have hkeep {j : ℕ} (hj : j ≠ i) : appendedInto j (e :: h) = appendedInto j h :=
    appendedInto_cons_of_silent (hother j hj) h
  refine ⟨hinv.registered.update hb (by rw [hlive, (live?_eq_some.mp hb).2]), ?_, ?_, ?_, ?_⟩
  · intro j next hpc
    obtain rfl := hnew j next hpc
    refine ⟨b', live?_eq_some.mpr ⟨?_, hlive⟩⟩
    rw [getElem?_update hb, if_pos rfl]
  · intro j (hj : (t.process.buffers.set i b').length ≤ j)
    rw [List.length_set] at hj
    rw [hkeep (ne_of_gt (lt_of_lt_of_le hlt hj))]
    exact hinv.fresh j hj
  · intro j b₁ hb₁
    rw [getElem?_update hb] at hb₁
    split_ifs at hb₁ with hij
    · subst hij
      obtain rfl := Option.some.inj hb₁
      exact hat
    · have hold' : t.next j = none :=
        Thread.next_of_ne fun next hpc ↦ hij (hold j next hpc).symm
      have hnew' : Thread.next ⟨t.process.update i b', pc⟩ j = none :=
        Thread.next_of_ne fun next hpc ↦ hij (hnew j next hpc).symm
      rw [hkeep fun heq ↦ hij heq.symm, hnew', ← hold']
      exact hinv.logs j b₁ hb₁
  · intro j b₁ hb₁ hdestroyed
    rw [getElem?_update hb] at hb₁
    split_ifs at hb₁ with hij
    · obtain rfl := Option.some.inj hb₁
      exact absurd hdestroyed (by rw [hlive]; decide)
    · exact hinv.flushed j b₁ hb₁ hdestroyed

theorem pointsAt_some (i : ℕ) (next : AtomicStep) : PointsAt i (some (i, next)) := by
  intro j next' h
  exact (Prod.mk.inj (Option.some.inj h)).1.symm

theorem pointsAt_none (i : ℕ) : PointsAt i none := fun _ _ h ↦ absurd h (by simp)

theorem pointsAt_afterFlush (i : ℕ) (d : Bool) : PointsAt i (Thread.afterFlush i d) := by
  cases d with
  | false => exact pointsAt_none i
  | true => exact pointsAt_some i .close

theorem update_self {s : Process φ} {i : ℕ} {b : Buffer φ} (hb : s.live? i = some b) :
    s.update i b = s := by
  obtain ⟨hlt, hget⟩ := List.getElem?_eq_some_iff.mp (live?_eq_some.mp hb).1
  rw [Process.update, ← hget, List.set_getElem_self]

/-- The constructor. -/
theorem ThreadInv.construct {format : φ} {h : List (AtomicEvent φ)} {t : Thread φ}
    (hinv : ThreadInv format h t) (hpc : t.pc = none) (limit : BitVec 64) :
    ThreadInv format (.begin (.construct limit) :: h)
      { t with process := t.process.construct format limit } := by
  have hsame (i : ℕ) : appendedInto i (.begin (.construct limit) :: h) = appendedInto i h :=
    appendedInto_cons_of_silent rfl h
  refine ⟨hinv.registered.construct format limit, ?_, fun i hi ↦ ?_, fun i b hb ↦ ?_,
    fun i b hb hdestroyed ↦ ?_⟩
  · intro i next hnext
    exact absurd hnext (by simp [hpc])
  · have hlen : t.process.buffers.length ≤ (t.process.construct format limit).buffers.length := by
      simp [Process.construct]
    rw [hsame]
    exact hinv.fresh i (hlen.trans hi)
  · rw [hsame]
    rcases getElem?_construct hb with hb | ⟨rfl, rfl⟩
    · exact hinv.logs i b hb
    · have hnext : Thread.next { t with process := t.process.construct format limit }
          t.process.buffers.length = none := Thread.next_of_ne (by simp [hpc])
      rw [hinv.fresh _ le_rfl, hnext]
      exact .init format limit
  · rcases getElem?_construct hb with hb | ⟨-, rfl⟩
    · exact hinv.flushed i b hb hdestroyed
    · rfl

/-- The end of the destructor. -/
theorem ThreadInv.close {format : φ} {h : List (AtomicEvent φ)} {t : Thread φ}
    (hinv : ThreadInv format h t) {i : ℕ} {b : Buffer φ} (hb : t.process.live? i = some b)
    (hpc : t.pc = some (i, .close)) :
    ThreadInv format (.advance :: h) ⟨(t.process.update i b.close).unregister i, none⟩ := by
  have hsame (j : ℕ) : appendedInto j (.advance :: h) = appendedInto j h :=
    appendedInto_cons_of_silent rfl h
  have hbuffers := getElem?_update hb b.close
  obtain ⟨hlogs, hnil⟩ : b.At (unbuffered format (appendedInto i h)) (some .close) := by
    rw [← Thread.next_eq hpc]
    exact hinv.logs i b (live?_eq_some.mp hb).1
  refine ⟨hinv.registered.retire hb rfl, fun j next hnext ↦ absurd hnext (by simp), ?_, ?_, ?_⟩
  · intro j (hj : (t.process.buffers.set i b.close).length ≤ j)
    rw [List.length_set] at hj
    rw [hsame]
    exact hinv.fresh j hj
  · intro j b' (hb' : (t.process.update i b.close).buffers[j]? = some b')
    rw [hsame]
    rw [hbuffers] at hb'
    split_ifs at hb' with hij
    · subst hij
      obtain rfl := Option.some.inj hb'
      exact hlogs.close
    · have hnext : t.next j = none := Thread.next_of_ne fun next h ↦ by
        rw [hpc] at h
        exact hij (Prod.mk.inj (Option.some.inj h)).1
      have hlogs' := hinv.logs j b' hb'
      rwa [hnext] at hlogs'
  · intro j b' (hb' : (t.process.update i b.close).buffers[j]? = some b') hdestroyed
    rw [hbuffers] at hb'
    split_ifs at hb'
    · obtain rfl := Option.some.inj hb'
      exact hnil
    · exact hinv.flushed j b' hb' hdestroyed

/-- An operation begins. -/
theorem ThreadInv.begin {format : φ} {h : List (AtomicEvent φ)} {t t' : Thread φ}
    (hinv : ThreadInv format h t) (hpc : t.pc = none) {op : BufferOp φ}
    (hs : t.begin format op = some t') : ThreadInv format (.begin op :: h) t' := by
  have hnone (i : ℕ) : PointsAt i t.pc := hpc ▸ pointsAt_none i
  have hlogs {i : ℕ} {b : Buffer φ} (hb : t.process.live? i = some b) :
      b.Logs (unbuffered format (appendedInto i h)) := by
    have hnext : t.next i = none := Thread.next_of_ne (by simp [hpc])
    have hat := hinv.logs i b (live?_eq_some.mp hb).1
    rwa [hnext] at hat
  -- The first step of a flush, which the member and the destructor share.
  have hflush {i : ℕ} {b : Buffer φ} (hb : t.process.live? i = some b) (d : Bool)
      {e : AtomicEvent φ} (he : ∀ j, e.appendedInto j = []) :
      ThreadInv format (e :: h) { t with pc := some (i, .hasPending d) } := by
    rw [← update_self hb]
    refine hinv.update hb (live?_eq_some.mp hb).2 (hnone i) (pointsAt_some i _)
      (fun j _ ↦ he j) ?_
    rw [appendedInto_cons_of_silent (he i), Option.filter_some, if_pos (by simp)]
    exact hlogs hb
  cases op with
  | construct limit =>
    obtain rfl := Option.some.inj hs
    exact hinv.construct hpc limit
  | insert i ins =>
    obtain ⟨b, hb, rfl⟩ := Option.map_eq_some_iff.mp hs
    have hlive : (b.append ins).destroyed = false := (live?_eq_some.mp hb).2
    refine hinv.update (e := .begin (.insert i ins)) hb hlive (hnone i) (pointsAt_some i _)
      (fun j hj ↦ if_neg hj.symm) ?_
    rw [appendedInto_cons, AtomicEvent.appendedInto, if_pos rfl, unbuffered_append,
      Option.filter_some, if_pos (by simp)]
    exact (hlogs hb).append ins
  | flush i =>
    obtain ⟨b, hb, rfl⟩ := Option.map_eq_some_iff.mp hs
    exact hflush hb false fun _ ↦ rfl
  | destroy i =>
    obtain ⟨b, hb, rfl⟩ := Option.map_eq_some_iff.mp hs
    exact hflush hb true fun _ ↦ rfl

/-- The member in progress makes a step. -/
theorem ThreadInv.advance {format : φ} {h : List (AtomicEvent φ)} {t t' : Thread φ}
    (hinv : ThreadInv format h t) (hs : t.advance = some t') :
    ThreadInv format (.advance :: h) t' := by
  rw [Thread.advance] at hs
  split at hs
  · exact absurd hs (by simp)
  rename_i i next hpc
  obtain ⟨b, hb, rfl⟩ := Option.map_eq_some_iff.mp hs
  have hold : PointsAt i t.pc := hpc ▸ pointsAt_some i next
  have hat : b.At (unbuffered format (appendedInto i h)) (some next) := by
    rw [← Thread.next_eq hpc]
    exact hinv.logs i b (live?_eq_some.mp hb).1
  have hlive := (live?_eq_some.mp hb).2
  have hsame (j : ℕ) : appendedInto j (.advance :: h) = appendedInto j h :=
    appendedInto_cons_of_silent rfl h
  -- A step that leaves `b'` and goes on at `pc`.
  have hmove {b' : Buffer φ} {pc : Option (ℕ × AtomicStep)} (hlive : b'.destroyed = false)
      (hnew : PointsAt i pc) (hat : b'.At (unbuffered format (appendedInto i h))
        ((pc.filter (·.1 = i)).map Prod.snd)) :
      ThreadInv format (.advance :: h) ⟨t.process.update i b', pc⟩ :=
    hinv.update hb hlive hold hnew (fun _ _ ↦ rfl) (by rwa [hsame])
  have hself {step : AtomicStep} :
      ((some (i, step)).filter (·.1 = i)).map Prod.snd = some step := by
    simp
  cases next with
  | overLimit =>
    rw [Thread.advanceOn, ← update_self hb]
    split_ifs
    · exact hmove hlive (pointsAt_some i _) (hself ▸ hat)
    · exact hmove hlive (pointsAt_none i) hat
  | hasPending d =>
    rw [Thread.advanceOn, ← update_self hb]
    split_ifs with hpending
    · exact hmove hlive (pointsAt_some i _) (hself ▸ ⟨hat, hpending⟩)
    · have hnil := Buffer.hasPending_eq_false.mp (eq_false_of_ne_true hpending)
      exact hmove hlive (pointsAt_afterFlush i d) (Buffer.at_afterFlush hat hnil i d)
  | write d => exact hmove hlive (pointsAt_some i _) (hself ▸ hat.write)
  | sync d => exact hmove hlive (pointsAt_some i _) (hself ▸ hat.sync)
  | reset d => exact hmove hlive (pointsAt_afterFlush i d) (Buffer.at_afterFlush hat.reset rfl i d)
  | close => exact hinv.close hb hpc

theorem threadInv_init (format : φ) : ThreadInv format [] (threadSystem format).init := by
  have hnone {i : ℕ} {b : Buffer φ} : (threadSystem format).init.process.buffers[i]? ≠ some b := by
    rw [threadSystem]
    simp
  refine ⟨⟨List.nodup_nil, fun i ↦ ?_⟩, fun i next hpc ↦ absurd hpc (by simp [threadSystem]),
    fun i _ ↦ rfl, fun i b hb ↦ absurd hb hnone, fun i b hb ↦ absurd hb hnone⟩
  rw [threadSystem]
  simp

/-- Until a signal comes, every history of steps keeps the invariant. -/
theorem threadInv_of_run {format : φ} {h : List (AtomicEvent φ)} {t : Thread φ}
    (hrun : (threadSystem format).Run (fun _ _ ↦ True) h t) :
    t.process.exited = false → ThreadInv format h t := by
  refine hrun.invariant (I := fun h t ↦ t.process.exited = false → ThreadInv format h t)
    (fun _ ↦ threadInv_init format) fun h t e t' _ hinv _ hs hrunning ↦ ?_
  have hs : Thread.step format t e = some t' := hs
  have hexited := Thread.exited_of_step hs
  have hinv := hinv hexited
  cases e with
  | begin op =>
    rw [Thread.step_begin hexited] at hs
    split_ifs at hs with hpc
    exact hinv.begin hpc hs
  | advance =>
    rw [Thread.step_advance hexited] at hs
    exact hinv.advance hs
  | signal =>
    rw [Thread.step_signal hexited] at hs
    obtain rfl := Option.some.inj hs
    exact absurd hrunning (by simp [Process.handleSignal])

/-- **When a signal leaves every log complete**: unless it comes after a flush has written the
content and before it has emptied the string stream. -/
theorem completeAfterSignal_iff {format : φ} {h : List (AtomicEvent φ)} {t t' : Thread φ}
    (hrun : (threadSystem format).Run (fun _ _ ↦ True) h t)
    (hs : (threadSystem format).step t .signal = some t') :
    (∀ i b, t'.process.buffers[i]? = some b →
        b.outputFile.content = (unbuffered format (appendedInto i h)).content) ↔ ¬t.Written := by
  have hs : Thread.step format t .signal = some t' := hs
  have hexited := Thread.exited_of_step hs
  rw [Thread.step_signal hexited] at hs
  obtain rfl := Option.some.inj hs
  have hinv := threadInv_of_run hrun hexited
  have hbuffers := getElem?_handleSignal hinv.registered fun _ ↦ true
  constructor
  · rintro hall ⟨i, d, hpc⟩
    obtain ⟨b, hb⟩ : ∃ b, t.process.live? i = some b := by
      rcases hpc with hpc | hpc <;> exact hinv.busy i _ hpc
    obtain ⟨hb, hlive⟩ := live?_eq_some.mp hb
    have hat : b.At (unbuffered format (appendedInto i h)) (some (.sync d))
        ∨ b.At (unbuffered format (appendedInto i h)) (some (.reset d)) := by
      refine hpc.imp (fun hpc ↦ ?_) fun hpc ↦ ?_ <;> rw [← Thread.next_eq hpc] <;>
        exact hinv.logs i b hb
    obtain ⟨hcontent, hne⟩ := Buffer.At.content_flush_of_written hat
    have hflushed := hall i (b.flush true) (by rw [hbuffers, hb, Option.map_some, hlive]; rfl)
    rw [hcontent] at hflushed
    exact hne (List.append_right_eq_self.mp hflushed)
  · intro hwritten i b' hb'
    rw [hbuffers] at hb'
    obtain ⟨b, hb, rfl⟩ := Option.map_eq_some_iff.mp hb'
    have hnext : ∀ d, t.next i ≠ some (.sync d) ∧ t.next i ≠ some (.reset d) := fun d ↦
      ⟨fun h ↦ hwritten ⟨i, d, Or.inl (Thread.pc_of_next h)⟩,
        fun h ↦ hwritten ⟨i, d, Or.inr (Thread.pc_of_next h)⟩⟩
    have hat := (hinv.logs i b hb).content_flush hnext
    cases hd : b.destroyed with
    | false => exact hat
    | true =>
      rwa [Buffer.flush_of_not_hasPending (Buffer.hasPending_eq_false.mpr (hinv.flushed i b hb hd))]
        at hat

/-- A signal between the test of a flush and its write. -/
theorem completeAfterSignal_small :
    let h : List (AtomicEvent Format) := [.advance, .begin (.flush 0), .advance,
      .begin (.insert 0 (Format.text [120])), .begin (.construct 8)]
    ∃ t t', (threadSystem Format.init).Run (fun _ _ ↦ True) h t
      ∧ (threadSystem Format.init).step t .signal = some t'
      ∧ ((∀ i b, t'.process.buffers[i]? = some b →
          b.outputFile.content = (unbuffered Format.init (appendedInto i h)).content)
        ↔ ¬t.Written) := by
  intro h
  obtain ⟨t, t', hrun, -, hs, -⟩ := StepSystem.exists_step_of_exec
    (M := threadSystem Format.init) (P := fun _ _ ↦ True) (R := fun _ _ ↦ True) (h := h)
    (e := .signal) rfl
  exact ⟨t, t', hrun, hs, completeAfterSignal_iff hrun hs⟩

/-- One byte, written by the flush that the signal interrupts and again by the handler. -/
theorem not_completeAfterSignal_small :
    ¬∀ h t t', (threadSystem Format.init).Run (fun _ _ ↦ True) h t →
      (threadSystem Format.init).step t .signal = some t' →
      ∀ i b, t'.process.buffers[i]? = some b →
        b.outputFile.content = (unbuffered Format.init (appendedInto i h)).content := by
  intro hall
  obtain ⟨t, t', hrun, -, hs, htwice⟩ := StepSystem.exists_step_of_exec
    (M := threadSystem Format.init) (P := fun _ _ ↦ True)
    (R := fun _ t' ↦ t'.process.buffers[0]?.map (fun b ↦ b.outputFile.content) = some [120, 120])
    (h := [.advance, .advance, .begin (.flush 0), .advance,
      .begin (.insert 0 (Format.text [120])), .begin (.construct 8)]) (e := .signal) rfl
  obtain ⟨b, hb, hcontent⟩ := Option.map_eq_some_iff.mp htwice
  have honce := hall _ t t' hrun hs 0 b hb
  rw [hcontent] at honce
  exact absurd honce (by decide)

/-! ## Whole operations are sequences of steps -/

theorem live?_update {s : Process φ} {i : ℕ} {b b' : Buffer φ} (hb : s.live? i = some b)
    (hlive : b'.destroyed = false) : (s.update i b').live? i = some b' := by
  refine live?_eq_some.mpr ⟨?_, hlive⟩
  rw [getElem?_update hb, if_pos rfl]

theorem update_update (s : Process φ) (i : ℕ) (b b' : Buffer φ) :
    (s.update i b).update i b' = s.update i b' := by
  rw [Process.update, Process.update, Process.update, List.set_set]

/-- A history that leads to this state, with the given appends. -/
def LeadsTo (format : φ) (appended : ℕ → List (Insertion UInt8 φ)) (t : Thread φ) : Prop :=
  ∃ h, (threadSystem format).Run (fun _ _ ↦ True) h t ∧ ∀ i, appendedInto i h = appended i

namespace LeadsTo

variable {format : φ} {appended : ℕ → List (Insertion UInt8 φ)} {t t' : Thread φ}

theorem step (h : LeadsTo format appended t) {e : AtomicEvent φ}
    (hs : t.step format e = some t') :
    LeadsTo format (fun i ↦ appended i ++ e.appendedInto i) t' := by
  obtain ⟨h, hrun, happended⟩ := h
  refine ⟨e :: h, hrun.step trivial hs, fun i ↦ ?_⟩
  rw [appendedInto_cons, happended]

/-- A step that appends nothing. -/
theorem silent (h : LeadsTo format appended t) {e : AtomicEvent φ}
    (he : ∀ i, e.appendedInto i = []) (hs : t.step format e = some t') :
    LeadsTo format appended t' := by
  have hstep := h.step hs
  simpa only [he, List.append_nil] using hstep

theorem advance (h : LeadsTo format appended t) (hexited : t.process.exited = false) {i : ℕ}
    {b : Buffer φ} (hb : t.process.live? i = some b) {next : AtomicStep}
    (hpc : t.pc = some (i, next)) : LeadsTo format appended (t.advanceOn i b next) := by
  refine h.silent (e := .advance) (fun _ ↦ rfl) ?_
  rw [Thread.step_advance hexited, Thread.advance, hpc]
  simp only [hb, Option.map_some]

/-- The steps of a flush are together `Buffer.flush`. -/
theorem flush {s : Process φ} {i : ℕ} {d : Bool} {b : Buffer φ}
    (h : LeadsTo format appended ⟨s, some (i, .hasPending d)⟩) (hexited : s.exited = false)
    (hb : s.live? i = some b) :
    LeadsTo format appended ⟨s.update i (b.flush true), Thread.afterFlush i d⟩ := by
  have hlive := (live?_eq_some.mp hb).2
  have htest := h.advance hexited hb rfl
  rw [Thread.advanceOn] at htest
  rw [Buffer.flush]
  split_ifs at htest ⊢ with hpending
  · have hwrite : LeadsTo format appended ⟨s.update i (b.write true), some (i, .sync d)⟩ :=
      htest.advance hexited hb rfl
    have hsync : LeadsTo format appended ⟨s.update i (b.write true).sync, some (i, .reset d)⟩ := by
      simpa only [Thread.advanceOn, update_update]
        using hwrite.advance hexited (live?_update hb hlive) rfl
    simpa only [Thread.advanceOn, update_update]
      using hsync.advance hexited (live?_update hb hlive) rfl
  · rwa [update_self hb]

end LeadsTo

/-- **Whole operations are sequences of atomic steps**: every run of `bufferSystem` without failing
writes is a run of its steps, between two operations, with the same insertions. -/
theorem leadsTo_of_run {format : φ} {h : List (BufferEvent φ)} {s : Process φ}
    (hrun : (bufferSystem format).Run (fun _ e ↦ ∀ i, e.outcome i = true) h s) :
    LeadsTo format (fun i ↦ insertionsInto i h) ⟨s, none⟩ := by
  induction hrun with
  | start => exact ⟨[], .start, fun _ ↦ rfl⟩
  | @step h s s' e _ hok hs ih =>
    have hstep : Process.step format s e = some s' := hs
    unfold Process.step at hstep
    split_ifs at hstep with hexited
    have hexited := eq_false_of_ne_true hexited
    have hbegin (op : BufferOp φ) : Thread.step format ⟨s, none⟩ (.begin op)
        = Thread.begin format ⟨s, none⟩ op := by
      rw [Thread.step_begin hexited, if_pos rfl]
    have hinserted : (fun i ↦ insertionsInto i (e :: h))
        = fun i ↦ insertionsInto i h ++ e.insertedInto i :=
      funext fun i ↦ insertionsInto_cons i e h
    rw [hinserted]
    cases e with
    | construct limit =>
      obtain rfl := Option.some.inj hstep
      exact ih.step (hbegin (.construct limit))
    | insert i ins ok =>
      obtain rfl : ok = true := hok i
      obtain ⟨b, hb, rfl⟩ := Option.map_eq_some_iff.mp hstep
      have hlive : (b.append ins).destroyed = false := (live?_eq_some.mp hb).2
      have happend : LeadsTo format _ ⟨s.update i (b.append ins), some (i, .overLimit)⟩ :=
        ih.step ((hbegin (.insert i ins)).trans (by rw [Thread.begin, hb]; rfl))
      have htest := happend.advance hexited (live?_update hb hlive) rfl
      rw [Thread.advanceOn] at htest
      rw [Buffer.insert]
      split_ifs at htest ⊢
      · have hflush := htest.flush hexited (live?_update hb hlive)
        rwa [update_update] at hflush
      · exact htest
    | flush i ok =>
      obtain rfl : ok = true := hok i
      obtain ⟨b, hb, rfl⟩ := Option.map_eq_some_iff.mp hstep
      have hflush : LeadsTo format _ ⟨s, some (i, .hasPending false)⟩ :=
        ih.step ((hbegin (.flush i)).trans (by rw [Thread.begin, hb]; rfl))
      exact hflush.flush hexited hb
    | destroy i ok =>
      obtain rfl : ok = true := hok i
      obtain ⟨b, hb, rfl⟩ := Option.map_eq_some_iff.mp hstep
      have hlive : (b.flush true).destroyed = false := by
        rw [b.destroyed_flush, (live?_eq_some.mp hb).2]
      have hflush : LeadsTo format _ ⟨s, some (i, .hasPending true)⟩ :=
        ih.step ((hbegin (.destroy i)).trans (by rw [Thread.begin, hb]; rfl))
      have hclose := (hflush.flush hexited hb).advance hexited (live?_update hb hlive) rfl
      rwa [Thread.advanceOn, update_update] at hclose
    | handleSignal ok =>
      obtain rfl : ok = fun _ ↦ true := funext hok
      obtain rfl := Option.some.inj hstep
      exact ih.step (Thread.step_signal hexited)

end WorkloadAwareCompaction
