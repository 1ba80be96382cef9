import Mathlib.Data.List.Basic

/-!
# Writing a character stream

An output stream in the style of C++: the characters written so far and a format state. An insertion
reads the format state, writes characters and leaves a format state; a manipulator such as `setw` is
an insertion that writes nothing. What an insertion writes depends on the format state it meets and
not on the characters before it. So a stream may be emptied in the middle of a sequence of
insertions: what was moved out of it and what is left are together what one stream would hold
(`Continues`).
-/

/-- What was written, and the state that formats what comes next. -/
structure OStream (α φ : Type*) where
  content : List α
  format : φ

/-- The characters written in a format state, and the format state left behind. -/
abbrev Insertion (α φ : Type*) := φ → List α × φ

namespace OStream

variable {α φ : Type*}

/-- A stream at its start. -/
def empty (format : φ) : OStream α φ := ⟨[], format⟩

def insert (ins : Insertion α φ) (s : OStream α φ) : OStream α φ :=
  ⟨s.content ++ (ins s.format).1, (ins s.format).2⟩

/-- One insertion after the other. -/
def insertAll (l : List (Insertion α φ)) (s : OStream α φ) : OStream α φ :=
  l.foldl (fun s ins ↦ s.insert ins) s

/-- Drop the content and keep the format state. -/
def clear (s : OStream α φ) : OStream α φ := { s with content := [] }

@[simp] theorem insertAll_nil (s : OStream α φ) : s.insertAll [] = s := rfl

@[simp] theorem insertAll_singleton (ins : Insertion α φ) (s : OStream α φ) :
    s.insertAll [ins] = s.insert ins := rfl

theorem insertAll_append (l l' : List (Insertion α φ)) (s : OStream α φ) :
    s.insertAll (l ++ l') = (s.insertAll l).insertAll l' := List.foldl_append

/-- Insertions that write fixed texts and leave the format state as they found it. -/
theorem insertAll_of_writes {l : List (Insertion α φ)} {texts : List (List α)} {format : φ}
    (h : List.Forall₂ (fun ins text ↦ ins format = (text, format)) l texts) (content : List α) :
    (⟨content, format⟩ : OStream α φ).insertAll l = ⟨content ++ texts.flatten, format⟩ := by
  induction h generalizing content with
  | nil => rw [insertAll_nil, List.flatten_nil, List.append_nil]
  | @cons ins text l texts hwrites _ ih =>
    have hinsert : (⟨content, format⟩ : OStream α φ).insert ins = ⟨content ++ text, format⟩ := by
      rw [insert, hwrites]
    rw [← List.singleton_append, insertAll_append, insertAll_singleton, hinsert, ih,
      List.flatten_cons, List.append_assoc]

/-- More insertions keep what is there. -/
theorem content_prefix_insertAll (l : List (Insertion α φ)) (s : OStream α φ) :
    s.content <+: (s.insertAll l).content := by
  induction l generalizing s with
  | nil => exact List.prefix_rfl
  | cons ins l ih => exact (List.prefix_append _ _).trans (ih (s.insert ins))

@[simp] theorem content_clear (s : OStream α φ) : s.clear.content = [] := rfl

theorem clear_of_content_eq_nil {s : OStream α φ} (h : s.content = []) : s.clear = s := by
  rw [clear, ← h]

/-- The characters moved out of the stream and the stream itself are together the other stream. -/
structure Continues (moved : List α) (s whole : OStream α φ) : Prop where
  content : moved ++ s.content = whole.content
  format : s.format = whole.format

namespace Continues

variable {moved : List α} {s whole : OStream α φ}

theorem refl (s : OStream α φ) : Continues [] s s := ⟨rfl, rfl⟩

theorem insert (h : Continues moved s whole) (ins : Insertion α φ) :
    Continues moved (s.insert ins) (whole.insert ins) := by
  constructor
  · rw [OStream.insert, OStream.insert, ← List.append_assoc, h.content, h.format]
  · rw [OStream.insert, OStream.insert, h.format]

/-- Moving out the content loses nothing. -/
theorem clear (h : Continues moved s whole) : Continues (moved ++ s.content) s.clear whole :=
  ⟨(List.append_nil _).trans h.content, h.format⟩

end Continues

end OStream
