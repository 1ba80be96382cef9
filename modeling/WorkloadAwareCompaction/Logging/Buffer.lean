import WorkloadAwareCompaction.Library.OStream

/-!
# The buffered log

`Buffer` writes to a string stream and moves its content to a file once it has reached a limit, on
`flush` and in the destructor. This file embeds the members of `Buffer` for one object, cut into the
steps that a signal handler can come between.

`operator<<` is a template: anything that can be inserted into a stream can be inserted into a
`Buffer`. Insertions are therefore arbitrary functions of the format state, and they do not fail on
a string stream. Text and the usual manipulators are given at the end, for a concrete format state.

The outcome of a write to the file is a parameter. A write that fails appends nothing and leaves the
file stream bad, and nothing ever clears it: every later write fails too.
-/

namespace WorkloadAwareCompaction

/-! ## The file -/

/-- `std::ofstream` after a successful `open`. -/
structure OFile where
  /-- What the file holds. -/
  content : List UInt8
  /-- What was written and is not in the file yet. -/
  staged : List UInt8
  bad : Bool
  deriving DecidableEq

/-- `output_file << text`. -/
def OFile.write (ok : Bool) (text : List UInt8) (file : OFile) : OFile :=
  if file.bad || !ok then { file with bad := true }
  else { file with staged := file.staged ++ text }

/-- `output_file.flush()`. -/
def OFile.flush (file : OFile) : OFile :=
  { file with content := file.content ++ file.staged, staged := [] }

/-! ## The members of a buffer -/

structure Buffer (φ : Type) where
  buffer : OStream UInt8 φ
  outputFile : OFile
  bufferLimit : BitVec 64
  /-- The lifetime of the object has ended. -/
  destroyed : Bool

namespace Buffer

variable {φ : Type}

/-- The constructor, on a file that could be opened and truncated. -/
def init (format : φ) (limit : BitVec 64) : Buffer φ :=
  ⟨.empty format, ⟨[], [], false⟩, limit, false⟩

variable (b : Buffer φ)

/-- `buffer.tellp()`. -/
def tellp : ℕ := b.buffer.content.length

/-- `buffer << data`. -/
def append (ins : Insertion UInt8 φ) : Buffer φ := { b with buffer := b.buffer.insert ins }

/-- The test of `operator<<`. The limit is cast to the signed type of stream positions. -/
def overLimit : Bool := b.bufferLimit.toInt ≤ b.tellp

/-- The test of `flush`. -/
def hasPending : Bool := 0 < b.tellp

/-- `output_file << buffer.str()`. -/
def write (ok : Bool) : Buffer φ :=
  { b with outputFile := b.outputFile.write ok b.buffer.content }

/-- `output_file.flush()`. -/
def sync : Buffer φ := { b with outputFile := b.outputFile.flush }

/-- `buffer.str("")` and `buffer.clear()`, which keep the format state. -/
def reset : Buffer φ := { b with buffer := b.buffer.clear }

def flush (ok : Bool) : Buffer φ := if b.hasPending then ((b.write ok).sync).reset else b

/-- `operator<<`. -/
def insert (ins : Insertion UInt8 φ) (ok : Bool) : Buffer φ :=
  let b := b.append ins
  if b.overLimit then b.flush ok else b

/-- The rest of the destructor after its `flush`. -/
def close : Buffer φ := { b with outputFile := b.outputFile.flush, destroyed := true }

/-- The destructor. -/
def destroy (ok : Bool) : Buffer φ := (b.flush ok).close

/-! ## What the members do -/

/-- No write has failed, and everything written is in the file. -/
structure Clean : Prop where
  bad : b.outputFile.bad = false
  staged : b.outputFile.staged = []

variable {b}

theorem clean_init (format : φ) (limit : BitVec 64) : (init format limit).Clean := ⟨rfl, rfl⟩

theorem hasPending_iff : b.hasPending = true ↔ b.buffer.content ≠ [] := by
  rw [hasPending, decide_eq_true_iff, tellp, List.length_pos_iff]

theorem hasPending_eq_false : b.hasPending = false ↔ b.buffer.content = [] := by
  rw [← Bool.not_eq_true, hasPending_iff, not_not]

theorem overLimit_eq_false (h : b.overLimit = false) : b.tellp < max b.bufferLimit.toNat 1 := by
  rw [overLimit, decide_eq_false_iff_not, Int.not_le, BitVec.toInt_eq_toNat_cond] at h
  split_ifs at h <;> omega

/-- A flush whose write succeeds moves the content to the file. -/
theorem flush_true (h : b.Clean) : b.flush true
    = { b with
        buffer := b.buffer.clear
        outputFile := ⟨b.outputFile.content ++ b.buffer.content, [], false⟩ } := by
  obtain ⟨buffer, ⟨content, staged, bad⟩, limit, destroyed⟩ := b
  obtain ⟨rfl, rfl⟩ : bad = false ∧ staged = [] := ⟨h.bad, h.staged⟩
  rw [flush]
  split_ifs with hpending
  · rfl
  · have hnil : buffer.content = [] := hasPending_eq_false.mp (eq_false_of_ne_true hpending)
    simp only [hnil, List.append_nil, OStream.clear_of_content_eq_nil hnil]

/-- A flush whose write fails drops the content. -/
theorem flush_false (h : b.Clean) (hpending : b.hasPending = true) : b.flush false
    = { b with buffer := b.buffer.clear, outputFile := ⟨b.outputFile.content, [], true⟩ } := by
  obtain ⟨buffer, ⟨content, staged, bad⟩, limit, destroyed⟩ := b
  obtain ⟨rfl, rfl⟩ : bad = false ∧ staged = [] := ⟨h.bad, h.staged⟩
  rw [flush, if_pos hpending]
  simp [write, OFile.write, sync, OFile.flush, reset]

@[simp] theorem destroyed_flush (b : Buffer φ) (ok : Bool) :
    (b.flush ok).destroyed = b.destroyed := by
  rw [flush]
  split_ifs <;> rfl

@[simp] theorem destroyed_insert (b : Buffer φ) (ins : Insertion UInt8 φ) (ok : Bool) :
    (b.insert ins ok).destroyed = b.destroyed := by
  rw [insert]
  split_ifs
  · exact destroyed_flush _ ok
  · rfl

@[simp] theorem destroyed_destroy (b : Buffer φ) (ok : Bool) :
    (b.destroy ok).destroyed = true := rfl

theorem flush_of_not_hasPending (hpending : b.hasPending = false) (ok : Bool) : b.flush ok = b := by
  rw [flush, hpending]
  rfl

theorem content_flush (b : Buffer φ) (ok : Bool) : (b.flush ok).buffer.content = [] := by
  rw [flush]
  split_ifs with hpending
  · rfl
  · exact hasPending_eq_false.mp (eq_false_of_ne_true hpending)

end Buffer

/-! ## Text and manipulators -/

/-- The part of the format state that `setw`, `setfill` and `fixed` set. -/
structure Format where
  width : ℕ
  fill : UInt8
  fixed : Bool
  deriving DecidableEq

namespace Format

/-- The format state of a new stream. -/
def init : Format := ⟨0, 32, false⟩

def setw (n : ℕ) : Insertion UInt8 Format := fun f ↦ ([], { f with width := n })

def setfill (c : UInt8) : Insertion UInt8 Format := fun f ↦ ([], { f with fill := c })

/-- `std::fixed`. -/
def setFixed : Insertion UInt8 Format := fun f ↦ ([], { f with fixed := true })

/-- A newline, which no width applies to. -/
def endl : Insertion UInt8 Format := fun f ↦ ([10], f)

/-- `std::flush`, which does nothing to a string stream. -/
def flush : Insertion UInt8 Format := fun f ↦ ([], f)

/-- A value, padded on the left. It uses the width up. -/
def text (s : List UInt8) : Insertion UInt8 Format :=
  fun f ↦ (List.replicate (f.width - s.length) f.fill ++ s, { f with width := 0 })

/-- A floating-point value with its two representations. -/
def double (general fixed : List UInt8) : Insertion UInt8 Format :=
  fun f ↦ text (if f.fixed then fixed else general) f

end Format

end WorkloadAwareCompaction
