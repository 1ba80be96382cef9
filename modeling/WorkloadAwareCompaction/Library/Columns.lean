import WorkloadAwareCompaction.Library.CharStream

/-!
# Columns of a fixed width

A row of texts, each padded on the left to the width of its column. A text that does not fit is
written in full, without padding. Then nothing separates it from the text before it, so the row can
be split into its texts exactly if all of them but the first are narrower than their columns
(`wordsOf_row_eq_iff`).
-/

namespace CharStream

variable {α : Type*}

/-- A text in a column. -/
def padded (fill : α) (width : ℕ) (text : List α) : List α :=
  List.replicate (width - text.length) fill ++ text

/-- Texts in columns, each with its width. -/
def row (fill : α) (columns : List (ℕ × List α)) : List α :=
  columns.flatMap fun column ↦ padded fill column.1 column.2

theorem row_cons (fill : α) (column : ℕ × List α) (columns : List (ℕ × List α)) :
    row fill (column :: columns) = padded fill column.1 column.2 ++ row fill columns :=
  List.flatMap_cons

variable {isSpace : α → Bool} {fill : α}

/-- The first word of a text that starts with one. -/
theorem wordsOf_eq_cons {text : List α} (h : text.takeWhile (!isSpace ·) ≠ []) :
    wordsOf isSpace text = text.takeWhile (!isSpace ·)
      :: wordsOf isSpace (text.dropWhile (!isSpace ·)) := by
  have hsplit : text.takeWhile (!isSpace ·) ++ text.dropWhile (!isSpace ·) = text :=
    List.takeWhile_append_dropWhile
  have hword : ∀ c ∈ text.takeWhile (!isSpace ·), isSpace c = false := fun c hc ↦ by
    simpa using List.all_eq_true.mp List.all_takeWhile c hc
  have hrest : ∀ c ∈ (text.dropWhile (!isSpace ·)).head?, isSpace c = true := by
    intro c hc
    have hhead := List.head?_dropWhile_not (!isSpace ·) text
    rw [Option.mem_def.mp hc] at hhead
    simpa using hhead
  have hwords := wordsOf_append h hword hrest
  rwa [hsplit] at hwords

/-- Two words without white space between them are not split. -/
theorem wordsOf_append_ne {word word' rest : List α} {words : List (List α)} (hne : word ≠ [])
    (hne' : word' ≠ []) (hword : ∀ c ∈ word, isSpace c = false)
    (hword' : ∀ c ∈ word', isSpace c = false) :
    wordsOf isSpace (word ++ (word' ++ rest)) ≠ word :: words := by
  have hnot : ∀ c ∈ word ++ word', (!isSpace c) = true := by
    intro c hc
    rcases List.mem_append.mp hc with hc | hc
    · rw [hword c hc]
      rfl
    · rw [hword' c hc]
      rfl
  have htake : (word ++ (word' ++ rest)).takeWhile (!isSpace ·)
      = word ++ (word' ++ rest.takeWhile (!isSpace ·)) := by
    rw [← List.append_assoc, List.takeWhile_append_of_pos hnot, List.append_assoc]
  rw [wordsOf_eq_cons (by rw [htake]; simp [hne]), htake]
  intro heq
  have hnil := List.append_right_eq_self.mp (List.cons.inj heq).1
  exact hne' (List.append_eq_nil_iff.mp hnil).1

/-- **When a row can be split into its texts.** -/
theorem wordsOf_row_eq_iff (hfill : isSpace fill = true) {columns : List (ℕ × List α)}
    (hcolumns : ∀ column ∈ columns, column.2 ≠ [] ∧ ∀ c ∈ column.2, isSpace c = false) :
    wordsOf isSpace (row fill columns) = columns.map Prod.snd
      ↔ ∀ column ∈ columns.tail, column.2.length < column.1 := by
  induction columns with
  | nil => simp [row, wordsOf]
  | cons column columns ih =>
    obtain ⟨⟨hne, hword⟩, hcolumns'⟩ := List.forall_mem_cons.mp hcolumns
    have hgap : ∀ c ∈ List.replicate (column.1 - column.2.length) fill, isSpace c = true := by
      intro c hc
      rw [List.eq_of_mem_replicate hc, hfill]
    rw [row_cons, padded, List.append_assoc, wordsOf_append_space hgap, List.map_cons, List.tail_cons]
    cases columns with
    | nil =>
      rw [wordsOf_append hne hword (by simp [row])]
      simp [row, wordsOf]
    | cons next columns =>
      rw [List.forall_mem_cons]
      by_cases hfits : next.2.length < next.1
      · -- The padding of the next text ends this one.
        have hhead : ∀ c ∈ (row fill (next :: columns)).head?, isSpace c = true := by
          obtain ⟨k, hk⟩ := Nat.exists_eq_add_of_lt hfits
          rw [row_cons, padded, show next.1 - next.2.length = k + 1 by omega,
            List.replicate_succ]
          simpa using hfill
        rw [wordsOf_append hne hword hhead, List.cons_inj_right, ih hcolumns', List.tail_cons]
        exact (and_iff_right hfits).symm
      · -- Without padding the two texts run into one word.
        obtain ⟨⟨hne', hword'⟩, -⟩ := List.forall_mem_cons.mp hcolumns'
        refine iff_of_false ?_ fun h ↦ hfits h.1
        rw [row_cons, padded, Nat.sub_eq_zero_of_le (not_lt.mp hfits), List.replicate_zero,
          List.nil_append]
        exact wordsOf_append_ne hne hne' hword hword'

end CharStream
