import Mathlib.Data.List.TakeWhile

/-!
# Reading a character stream

An input stream in the style of C++: the characters that are left, and the two flags that later
reads look at. Reads past the end set `eofbit`; a read that delivers nothing sets `failbit`; and a
stream with either flag set delivers nothing any more. So whether the end was *seen* matters: a last
line with its delimiter leaves the stream good, one without does not.

The alphabet, the delimiter of lines and the white space are parameters. `Renders` is the inverse of
word extraction: a line renders a list of words when it holds them in order, separated by white
space. `IsText` is the inverse of line extraction. `wordsOf` and `linesOf` compute what they relate
(`renders_iff`, `IsText.linesOf_eq`).
-/

namespace CharStream

variable {α : Type*}

structure IStream (α : Type*) where
  rest : List α
  eofbit : Bool
  failbit : Bool
  deriving DecidableEq

namespace IStream

/-- A stream at its start. -/
def ofList (rest : List α) : IStream α := ⟨rest, false, false⟩

/-- Neither flag is set. -/
def good (s : IStream α) : Bool := !s.eofbit && !s.failbit

theorem good_ofList (rest : List α) : (ofList rest).good = true := rfl

variable (s : IStream α)

/-- One line, without its delimiter; `none` when the stream is false afterwards. -/
def getline [DecidableEq α] (delim : α) : Option (List α) × IStream α :=
  if s.good then
    match s.rest with
    | [] => (none, { s with eofbit := true, failbit := true })
    | rest =>
      match rest.dropWhile (· ≠ delim) with
      | [] => (some rest, { s with rest := [], eofbit := true })
      | _ :: tail => (some (rest.takeWhile (· ≠ delim)), { s with rest := tail })
  else (none, { s with failbit := true })

/-- The next character, not extracted; `none` at the end. -/
def peek : Option α × IStream α :=
  if s.good then
    match s.rest with
    | [] => (none, { s with eofbit := true })
    | c :: _ => (some c, s)
  else (none, { s with failbit := true })

variable (isSpace : α → Bool)

/-- What formatted reads begin with: skip white space, and fail at the end. -/
def skipSpace : Bool × IStream α :=
  if s.good then
    match s.rest.dropWhile isSpace with
    | [] => (false, ⟨[], true, true⟩)
    | rest => (true, { s with rest := rest })
  else (false, { s with failbit := true })

/-- `>>` into a character; `none` when nothing is assigned. -/
def getChar : Option α × IStream α :=
  match s.skipSpace isSpace with
  | (true, ⟨c :: rest, eofbit, failbit⟩) => (some c, ⟨rest, eofbit, failbit⟩)
  | (_, s) => (none, s)

/-- `>>` into a string: a maximal run of characters that are no white space; `none` when nothing is
assigned. -/
def getWord : Option (List α) × IStream α :=
  match s.skipSpace isSpace with
  | (true, s) =>
    match s.rest.dropWhile (!isSpace ·) with
    | [] => (some s.rest, { s with rest := [], eofbit := true })
    | rest => (some (s.rest.takeWhile (!isSpace ·)), { s with rest := rest })
  | (false, s) => (none, s)

end IStream

/-! ## Lines -/

theorem peek_cons (c : α) (rest : List α) :
    (IStream.ofList (c :: rest)).peek = (some c, .ofList (c :: rest)) := rfl

theorem rest_peek (s : IStream α) : s.peek.2.rest = s.rest := by
  rw [IStream.peek]
  split_ifs
  · split <;> simp_all
  · rfl

section Lines

variable [DecidableEq α] {delim : α} {line : List α}

theorem getline_cons (hline : delim ∉ line) (tail : List α) :
    (IStream.ofList (line ++ delim :: tail)).getline delim = (some line, .ofList tail) := by
  have hne : ∀ c ∈ line, decide (c ≠ delim) = true := fun c hc ↦
    decide_eq_true fun heq ↦ hline (heq ▸ hc)
  rw [IStream.getline, if_pos (IStream.good_ofList _)]
  have hdrop : (line ++ delim :: tail).dropWhile (· ≠ delim) = delim :: tail := by
    rw [List.dropWhile_append_of_pos hne]
    simp
  have htake : (line ++ delim :: tail).takeWhile (· ≠ delim) = line := by
    rw [List.takeWhile_append_of_pos hne]
    simp
  cases hall : line ++ delim :: tail with
  | nil => simp at hall
  | cons c rest =>
    rw [hall] at hdrop htake
    simp only [IStream.ofList, hdrop, htake]

theorem getline_last (hline : delim ∉ line) (hne : line ≠ []) :
    (IStream.ofList line).getline delim = (some line, ⟨[], true, false⟩) := by
  have hdrop : line.dropWhile (· ≠ delim) = [] :=
    List.dropWhile_eq_nil_iff.mpr fun c hc ↦ decide_eq_true fun heq ↦ hline (heq ▸ hc)
  rw [IStream.getline, if_pos (IStream.good_ofList _)]
  cases line with
  | nil => exact absurd rfl hne
  | cons c rest => simp only [IStream.ofList, hdrop]

theorem getline_nil : (IStream.ofList ([] : List α)).getline delim = (none, ⟨[], true, true⟩) := rfl

/-- Extracting a line makes progress: the rest gets shorter. -/
theorem length_rest_getline_lt {s s' : IStream α} {line : List α}
    (h : s.getline delim = (some line, s')) : s'.rest.length < s.rest.length := by
  rw [IStream.getline] at h
  split_ifs at h
  · split at h
    · simp at h
    · rename_i hrest
      split at h
      · obtain ⟨-, rfl⟩ := Prod.mk.inj h
        rw [List.length_nil]
        exact List.length_pos_iff.mpr hrest
      · rename_i c tail hdrop
        obtain ⟨-, rfl⟩ := Prod.mk.inj h
        have := (List.dropWhile_suffix (· ≠ delim) (l := s.rest)).length_le
        rw [hdrop, List.length_cons] at this
        exact this
  · simp at h

end Lines

/-! ## Texts -/

section Texts

variable {delim : α} {line : List α}

/-- The text with these lines, whose last delimiter may be missing. -/
def IsText (delim : α) (lines : List (List α)) (text : List α) : Prop :=
  text = lines.flatMap (· ++ [delim]) ∨ text ++ [delim] = lines.flatMap (· ++ [delim])

theorem isText_nil {text : List α} (h : IsText delim [] text) : text = [] := by
  rcases h with h | h
  · exact h
  · exact absurd h (by simp)

/-- A text is its first line and the text of the others, or the first line alone. -/
theorem IsText.cons_cases {lines : List (List α)} {text : List α}
    (h : IsText delim (line :: lines) text) :
    text = line ∧ lines = []
      ∨ ∃ rest, text = line ++ delim :: rest ∧ IsText delim lines rest := by
  rcases h with h | h
  · exact Or.inr ⟨_, by rw [h, List.flatMap_cons, List.append_assoc]; rfl, Or.inl rfl⟩
  · rw [List.flatMap_cons] at h
    rcases List.eq_nil_or_concat lines with rfl | ⟨init, last, rfl⟩
    · rw [List.flatMap_nil, List.append_nil] at h
      exact Or.inl ⟨List.append_cancel_right h, rfl⟩
    · rw [List.concat_eq_append, List.flatMap_append, List.flatMap_singleton, ← List.append_assoc,
        ← List.append_assoc] at h
      refine Or.inr ⟨init.flatMap (· ++ [delim]) ++ last, ?_, Or.inr ?_⟩
      · rw [List.append_cancel_right h, List.append_assoc, List.append_assoc]
        rfl
      · rw [List.concat_eq_append, List.flatMap_append, List.flatMap_singleton, List.append_assoc]

/-- The lines of a text: what follows the last delimiter is a line only if it is not empty. -/
def linesOf [DecidableEq α] (delim : α) : List α → List (List α)
  | [] => []
  | c :: text =>
    if c = delim then [] :: linesOf delim text
    else
      match linesOf delim text with
      | [] => [[c]]
      | line :: lines => (c :: line) :: lines

variable [DecidableEq α]

theorem linesOf_append (hline : delim ∉ line) (rest : List α) :
    linesOf delim (line ++ delim :: rest) = line :: linesOf delim rest := by
  induction line with
  | nil => exact if_pos rfl
  | cons c line ih =>
    obtain ⟨hne, hline⟩ := not_or.mp (mt List.mem_cons.mpr hline)
    rw [List.cons_append, linesOf, if_neg (Ne.symm hne), ih hline]

theorem linesOf_last (hline : delim ∉ line) (hne : line ≠ []) : linesOf delim line = [line] := by
  induction line with
  | nil => exact absurd rfl hne
  | cons c line ih =>
    obtain ⟨hc, hline⟩ := not_or.mp (mt List.mem_cons.mpr hline)
    rw [linesOf, if_neg (Ne.symm hc)]
    cases line with
    | nil => rfl
    | cons d line => rw [ih hline (List.cons_ne_nil _ _)]

/-- A text is empty, or a single line, or a line with its delimiter and another text. -/
theorem text_cases (delim : α) (text : List α) :
    text = [] ∨ (text ≠ [] ∧ delim ∉ text)
      ∨ ∃ line rest, delim ∉ line ∧ text = line ++ delim :: rest := by
  by_cases hmem : delim ∈ text
  · obtain ⟨line, rest, htext, hline⟩ := List.eq_append_cons_of_mem hmem
    exact Or.inr (Or.inr ⟨line, rest, hline, htext⟩)
  · rcases List.eq_nil_or_concat text with rfl | ⟨init, c, rfl⟩
    · exact Or.inl rfl
    · exact Or.inr (Or.inl ⟨by simp, hmem⟩)

/-- The lines of a text that was put together from lines, none of them empty. -/
theorem IsText.linesOf_eq {lines : List (List α)} {text : List α} (h : IsText delim lines text)
    (hlines : ∀ line ∈ lines, line ≠ [] ∧ delim ∉ line) : linesOf delim text = lines := by
  induction lines generalizing text with
  | nil => rw [isText_nil h, linesOf]
  | cons line lines ih =>
    obtain ⟨⟨hne, hline⟩, hlines⟩ := List.forall_mem_cons.mp hlines
    rcases h.cons_cases with ⟨rfl, rfl⟩ | ⟨rest, rfl, hrest⟩
    · exact linesOf_last hline hne
    · rw [linesOf_append hline, ih hrest hlines]

end Texts

/-! ## Words -/

section Words

variable {isSpace : α → Bool}

/-- The line holds the words in order: before each word there is white space, possibly none before
the first, and the words themselves contain none. -/
inductive Renders (isSpace : α → Bool) : List (List α) → List α → Prop
  | nil {gap : List α} : (∀ c ∈ gap, isSpace c = true) → Renders isSpace [] gap
  | cons {gap word rest : List α} {words : List (List α)} : (∀ c ∈ gap, isSpace c = true) →
      word ≠ [] → (∀ c ∈ word, isSpace c = false) → (∀ c ∈ rest.head?, isSpace c = true) →
      Renders isSpace words rest → Renders isSpace (word :: words) (gap ++ word ++ rest)

/-- More white space in front. -/
theorem Renders.cons_space {words : List (List α)} {text : List α} {c : α}
    (h : Renders isSpace words text) (hc : isSpace c = true) :
    Renders isSpace words (c :: text) := by
  cases h with
  | nil hgap => exact Renders.nil (List.forall_mem_cons.mpr ⟨hc, hgap⟩)
  | cons hgap hne hword hhead hrest =>
    exact Renders.cons (List.forall_mem_cons.mpr ⟨hc, hgap⟩) hne hword hhead hrest

/-- The words with one white space between them. -/
theorem renders_intercalate {sep : α} (hsep : isSpace sep = true) {words : List (List α)}
    (hwords : ∀ word ∈ words, word ≠ [] ∧ ∀ c ∈ word, isSpace c = false) :
    Renders isSpace words ([sep].intercalate words) := by
  have hgap : ∀ c ∈ ([] : List α), isSpace c = true := by simp
  induction words with
  | nil => exact Renders.nil hgap
  | cons word words ih =>
    obtain ⟨⟨hne, hword⟩, hwords⟩ := List.forall_mem_cons.mp hwords
    have hcons {rest : List α} (hhead : ∀ c ∈ rest.head?, isSpace c = true)
        (hrest : Renders isSpace words rest) : Renders isSpace (word :: words) (word ++ rest) :=
      Renders.cons hgap hne hword hhead hrest
    cases words with
    | nil =>
      rw [List.intercalate_singleton]
      simpa using hcons (by simp) (Renders.nil hgap)
    | cons word' words =>
      rw [List.intercalate_cons_cons, List.append_assoc]
      exact hcons (by simpa using hsep) ((ih hwords).cons_space hsep)

theorem mem_intercalate {sep c : α} {words : List (List α)} (h : c ∈ [sep].intercalate words) :
    c = sep ∨ ∃ word ∈ words, c ∈ word := by
  induction words with
  | nil => exact absurd h List.not_mem_nil
  | cons word words ih =>
    cases words with
    | nil => exact Or.inr ⟨word, List.mem_cons_self, by rwa [List.intercalate_singleton] at h⟩
    | cons word' words =>
      rw [List.intercalate_cons_cons, List.mem_append, List.mem_append, List.mem_singleton] at h
      rcases h with (hword | hsep) | htail
      · exact Or.inr ⟨word, List.mem_cons_self, hword⟩
      · exact Or.inl hsep
      · refine (ih htail).imp_right ?_
        rintro ⟨text, hmem, hc⟩
        exact ⟨text, List.mem_cons_of_mem _ hmem, hc⟩

/-- A rendering of at least one word is not empty. -/
theorem Renders.isEmpty_eq_false {word text : List α} {words : List (List α)}
    (h : Renders isSpace (word :: words) text) : text.isEmpty = false := by
  cases h with
  | cons _ hne _ _ _ => simp [hne]

theorem skipSpace_word {gap word rest : List α} (hgap : ∀ c ∈ gap, isSpace c = true)
    (hne : word ≠ []) (hword : ∀ c ∈ word, isSpace c = false) :
    (IStream.ofList (gap ++ word ++ rest)).skipSpace isSpace = (true, .ofList (word ++ rest)) := by
  obtain ⟨c, tail, rfl⟩ := List.exists_cons_of_ne_nil hne
  have hdrop : (gap ++ c :: tail ++ rest).dropWhile isSpace = c :: (tail ++ rest) := by
    rw [List.append_assoc, List.dropWhile_append_of_pos hgap, List.cons_append,
      List.dropWhile_cons_of_neg (by rw [hword c List.mem_cons_self]; decide)]
  rw [IStream.skipSpace, if_pos (IStream.good_ofList _)]
  simp only [IStream.ofList, hdrop, List.cons_append]

/-- Extracting the first word of a rendering. The end is seen when nothing follows the word. -/
theorem getWord_word {gap word rest : List α} (hgap : ∀ c ∈ gap, isSpace c = true)
    (hne : word ≠ []) (hword : ∀ c ∈ word, isSpace c = false)
    (hrest : ∀ c ∈ rest.head?, isSpace c = true) :
    (IStream.ofList (gap ++ word ++ rest)).getWord isSpace
      = (some word, ⟨rest, rest.isEmpty, false⟩) := by
  have hnot : ∀ c ∈ word, (!isSpace c) = true := fun c hc ↦ by rw [hword c hc]; rfl
  rw [IStream.getWord, skipSpace_word hgap hne hword]
  simp only [IStream.ofList]
  -- The end of the stream is seen only when nothing stops the extraction.
  cases rest with
  | nil =>
    have hdrop : word.dropWhile (!isSpace ·) = [] := List.dropWhile_eq_nil_iff.mpr hnot
    simp only [List.append_nil, hdrop, List.isEmpty_nil]
  | cons c rest =>
    have hc : isSpace c = true := hrest c rfl
    have hdrop : (word ++ c :: rest).dropWhile (!isSpace ·) = c :: rest := by
      rw [List.dropWhile_append_of_pos hnot, List.dropWhile_cons_of_neg (by rw [hc]; decide)]
    have htake : (word ++ c :: rest).takeWhile (!isSpace ·) = word := by
      rw [List.takeWhile_append_of_pos hnot, List.takeWhile_cons_of_neg (by rw [hc]; decide),
        List.append_nil]
    simp only [hdrop, htake, List.isEmpty_cons]

/-- The first character that is no white space. -/
theorem getChar_cons {text rest : List α} {c : α} (h : text.dropWhile isSpace = c :: rest) :
    (IStream.ofList text).getChar isSpace = (some c, .ofList rest) := by
  rw [IStream.getChar, IStream.skipSpace, if_pos (IStream.good_ofList _)]
  simp only [IStream.ofList, h]

/-- The first word as a character, when it is one character long. -/
theorem Renders.dropWhile_eq {words : List (List α)} {text : List α} {c : α}
    (h : Renders isSpace ([c] :: words) text) :
    ∃ rest, text.dropWhile isSpace = c :: rest ∧ Renders isSpace words rest := by
  cases h with
  | cons hgap _ hword _ hrest =>
    refine ⟨_, ?_, hrest⟩
    have hc : isSpace c = false := hword c List.mem_cons_self
    rw [List.append_assoc, List.dropWhile_append_of_pos hgap, List.singleton_append,
      List.dropWhile_cons_of_neg (by rw [hc]; decide)]

/-- Where only white space is left, nothing is assigned and the stream fails. -/
theorem getWord_nil {gap : List α} (hgap : ∀ c ∈ gap, isSpace c = true) :
    (IStream.ofList gap).getWord isSpace = (none, ⟨[], true, true⟩) := by
  have hdrop : gap.dropWhile isSpace = [] := List.dropWhile_eq_nil_iff.mpr hgap
  rw [IStream.getWord, IStream.skipSpace, if_pos (IStream.good_ofList _)]
  simp only [IStream.ofList, hdrop]

/-- A stream that is not good assigns nothing. -/
theorem getWord_of_not_good {s : IStream α} (h : s.good = false) :
    (s.getWord isSpace).1 = none := by
  rw [IStream.getWord, IStream.skipSpace, h]
  rfl

/-- The words of a text. -/
def wordsOf (isSpace : α → Bool) (text : List α) : List (List α) :=
  (text.splitOnP isSpace).filter (!·.isEmpty)

theorem wordsOf_cons_space {c : α} (hc : isSpace c = true) (text : List α) :
    wordsOf isSpace (c :: text) = wordsOf isSpace text := by
  have hsplit := List.splitOnP_append_cons_of_forall_mem
    (by simp : ∀ d ∈ ([] : List α), isSpace d = false) c hc text
  rw [wordsOf, ← List.nil_append (c :: text), hsplit]
  rfl

theorem wordsOf_append_space {gap : List α} (hgap : ∀ c ∈ gap, isSpace c = true) (text : List α) :
    wordsOf isSpace (gap ++ text) = wordsOf isSpace text := by
  induction gap with
  | nil => rfl
  | cons c gap ih =>
    obtain ⟨hc, hgap⟩ := List.forall_mem_cons.mp hgap
    rw [List.cons_append, wordsOf_cons_space hc, ih hgap]

theorem wordsOf_append {word rest : List α} (hne : word ≠ [])
    (hword : ∀ c ∈ word, isSpace c = false)
    (hrest : ∀ c ∈ rest.head?, isSpace c = true) :
    wordsOf isSpace (word ++ rest) = word :: wordsOf isSpace rest := by
  have hkeep (pieces : List (List α)) :
      (word :: pieces).filter (!·.isEmpty) = word :: pieces.filter (!·.isEmpty) :=
    List.filter_cons_of_pos (by simpa using hne)
  cases rest with
  | nil =>
    rw [List.append_nil, wordsOf, List.splitOnP_eq_singleton hword, hkeep]
    rfl
  | cons c rest =>
    have hc : isSpace c = true := hrest c rfl
    rw [wordsOf_cons_space hc, wordsOf, List.splitOnP_append_cons_of_forall_mem hword c hc,
      hkeep, wordsOf]

theorem Renders.wordsOf_eq {words : List (List α)} {text : List α}
    (h : Renders isSpace words text) :
    wordsOf isSpace text = words := by
  induction h with
  | @nil gap hgap =>
    rw [← List.append_nil gap, wordsOf_append_space hgap]
    rfl
  | cons hgap hne hword hhead _ ih =>
    rw [List.append_assoc, wordsOf_append_space hgap, wordsOf_append hne hword hhead, ih]

/-- A character before a text that does not begin with white space belongs to its first word. -/
theorem Renders.cons_char {words : List (List α)} {text : List α} {c d : α}
    (h : Renders isSpace words (d :: text)) (hc : isSpace c = false) (hd : isSpace d = false) :
    ∃ words, Renders isSpace words (c :: d :: text) := by
  generalize htext : d :: text = full at h
  cases h with
  | nil hgap =>
    subst htext
    exact absurd (hgap d List.mem_cons_self) (by rw [hd]; decide)
  | @cons gap word rest words hgap hne hword hhead hrest =>
    cases gap with
    | nil =>
      refine ⟨(c :: word) :: words, ?_⟩
      exact Renders.cons hgap (List.cons_ne_nil _ _) (List.forall_mem_cons.mpr ⟨hc, hword⟩) hhead
        hrest
    | cons e gap =>
      obtain rfl : d = e := (List.cons.inj htext).1
      exact absurd (hgap d List.mem_cons_self) (by rw [hd]; decide)

theorem exists_renders (isSpace : α → Bool) (text : List α) :
    ∃ words, Renders isSpace words text := by
  have hgap : ∀ c ∈ ([] : List α), isSpace c = true := by simp
  induction text with
  | nil => exact ⟨[], Renders.nil hgap⟩
  | cons c text ih =>
    obtain ⟨words, h⟩ := ih
    cases hc : isSpace c with
    | true => exact ⟨words, h.cons_space hc⟩
    | false =>
      have hsingle (hhead : ∀ d ∈ text.head?, isSpace d = true) :
          ∃ words, Renders isSpace words (c :: text) :=
        ⟨[c] :: words, Renders.cons hgap (List.cons_ne_nil _ _) (by simpa using hc) hhead h⟩
      cases text with
      | nil => exact hsingle (by simp)
      | cons d text =>
        cases hd : isSpace d with
        | true => exact hsingle (by simpa using hd)
        | false => exact h.cons_char hc hd

/-- **Rendering and splitting are inverse.** -/
theorem renders_iff {words : List (List α)} {text : List α} :
    Renders isSpace words text ↔ wordsOf isSpace text = words := by
  refine ⟨Renders.wordsOf_eq, ?_⟩
  rintro rfl
  obtain ⟨words, h⟩ := exists_renders isSpace text
  rwa [h.wordsOf_eq]

end Words

end CharStream
