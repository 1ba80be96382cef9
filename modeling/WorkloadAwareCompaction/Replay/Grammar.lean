import WorkloadAwareCompaction.Replay.RoundTrip

/-!
# What the interpreter takes for an operation

A line of the grammar is an operation letter and as many words as the operation takes. The loop body
decides by the operation character alone, the first one that is no white space. Whether the
extractions behind it succeeded is never asked: a missing key or value is the empty string, the
words after the last argument are not read, and what follows the character in a longer operation
token is the first argument.

`decode` is this reading, as a function from lines to operations. The switch executes what it
yields, or writes the error record (`execute_eq`). The reading is complete for the grammar, every
line of it being executed as the operation it spells, and not sound: it takes more lines than the
grammar has.
-/

namespace WorkloadAwareCompaction

open CharStream

/-! ## Extracting the arguments -/

theorem extractString_of_not_good {stream : IStream UInt8} (h : stream.good = false) :
    (extractString stream).1 = [] := by
  rw [extractString, getWord_of_not_good h]
  rfl

theorem extractString_nil {text : Bytes} (h : Renders isSpace [] text) :
    extractString (.ofList text) = ([], ⟨[], true, true⟩) := by
  cases h with
  | nil hgap =>
    rw [extractString, getWord_nil hgap]
    rfl

/-- The first extraction: the first word, if there is one. -/
theorem extractString_eq (text : Bytes) :
    (extractString (.ofList text)).1 = (wordsOf isSpace text)[0]?.getD [] := by
  have h : Renders isSpace (wordsOf isSpace text) text := renders_iff.mpr rfl
  cases hwords : wordsOf isSpace text with
  | nil =>
    rw [extractString_nil (hwords ▸ h)]
    rfl
  | cons word words => exact extractString_first (hwords ▸ h)

/-- The second extraction: the second word, if there is one. -/
theorem extractString_extractString_eq (text : Bytes) :
    (extractString (extractString (.ofList text)).2).1 = (wordsOf isSpace text)[1]?.getD [] := by
  have h : Renders isSpace (wordsOf isSpace text) text := renders_iff.mpr rfl
  cases hwords : wordsOf isSpace text with
  | nil =>
    rw [extractString_nil (hwords ▸ h)]
    exact extractString_of_not_good rfl
  | cons word words =>
    obtain ⟨rest, hfirst, hrest⟩ := extractString_renders (hwords ▸ h)
    rw [hfirst]
    cases words with
    | cons word' words =>
      rw [hrest.isEmpty_eq_false]
      exact extractString_first hrest
    | nil =>
      -- At the end of the line the first extraction has seen the end; before it only space is left.
      cases rest with
      | nil => exact extractString_of_not_good rfl
      | cons c rest =>
        have hnil := extractString_nil hrest
        rw [List.isEmpty_cons, ← IStream.ofList, hnil]
        rfl

/-! ## Decoding a line -/

/-- The operation with this letter on these arguments. -/
def Op.ofLetter (letter : Char) (first second : Bytes) : Option Op :=
  match letter with
  | 'I' => some (.insert first second)
  | 'U' => some (.update first second)
  | 'D' => some (.pointDelete first)
  | 'P' => some (.pointQuery true first)
  | 'Q' => some (.pointQuery false first)
  | 'S' => some (.scan first second)
  | 'R' => some (.rangeDelete first second)
  | _ => none

/-- The letters of the operations. -/
def operationLetters : List Char := ['I', 'U', 'D', 'P', 'Q', 'S', 'R']

theorem Op.isSome_ofLetter (letter : Char) (first second : Bytes) :
    (Op.ofLetter letter first second).isSome = true ↔ letter ∈ operationLetters := by
  unfold Op.ofLetter
  split <;> simp_all [operationLetters]

/-- The operation a line is taken for. -/
def decode (line : Bytes) : Option Op :=
  match line.dropWhile isSpace with
  | [] => none
  | c :: rest =>
    let words := wordsOf isSpace rest
    Op.ofLetter (Char.ofNat c.toNat) (words[0]?.getD []) (words[1]?.getD [])

/-- The first character of the line that is no white space is a letter of an operation. -/
def HasOperation (line : Bytes) : Prop :=
  ∃ c ∈ (line.dropWhile isSpace).head?, Char.ofNat c.toNat ∈ operationLetters

/-- The line consists of an operation letter and the arguments of the operation. -/
def InGrammar (line : Bytes) : Prop := ∃ op : Op, Renders isSpace op.words line

theorem isSome_decode (line : Bytes) : (decode line).isSome = true ↔ HasOperation line := by
  rw [decode, HasOperation]
  cases line.dropWhile isSpace with
  | nil => simp
  | cons c rest =>
    rw [Op.isSome_ofLetter]
    simp

/-- **Decoding is complete for the grammar.** -/
theorem decode_of_renders {op : Op} {line : Bytes} (h : Renders isSpace op.words line) :
    decode line = some op := by
  obtain ⟨rest, hdrop, hrest⟩ := h.dropWhile_eq
  rw [decode, hdrop]
  simp only [op.ofNat_letter, hrest.wordsOf_eq]
  cases op with
  | pointQuery tectonic key => cases tectonic <;> rfl
  | _ => rfl

/-- The lines of the grammar are those that decode to an operation with exactly their words. -/
theorem inGrammar_iff {line : Bytes} :
    InGrammar line ↔ ∃ op, decode line = some op ∧ wordsOf isSpace line = op.words := by
  constructor
  · rintro ⟨op, h⟩
    exact ⟨op, decode_of_renders h, h.wordsOf_eq⟩
  · rintro ⟨op, -, h⟩
    exact ⟨op, renders_iff.mpr h⟩

/-! ## The switch -/

section

variable {σ : Type} (D : Database σ) (env : ReplayEnv)

/-- The error record. -/
def errorRecord : LogLine := .text "ERROR: Case match NOT found !!"

/-- What the switch does with a decoded line. -/
def executeDecoded : Option Op → Replay σ → Replay σ
  | some op, st => op.execute D env st
  | none, st => { st with buffer := st.buffer ++ [errorRecord] }

theorem execute_eq_ofLetter (line : Bytes) (st : Replay σ) : execute D env line st
    = executeDecoded D env (Op.ofLetter
        (Char.ofNat (((IStream.ofList line).getChar isSpace).1.getD env.uninitialized).toNat)
        (extractString ((IStream.ofList line).getChar isSpace).2).1
        (extractString (extractString ((IStream.ofList line).getChar isSpace).2).2).1) st := by
  rw [execute]
  generalize Char.ofNat (((IStream.ofList line).getChar isSpace).1.getD env.uninitialized).toNat
    = letter
  unfold Op.ofLetter
  split <;> simp_all [executeDecoded, Op.execute, errorRecord]

/-- Whatever the line is, the switch executes one operation or none. -/
theorem exists_executeDecoded (line : Bytes) :
    ∃ decoded, ∀ st : Replay σ, execute D env line st = executeDecoded D env decoded st :=
  ⟨_, execute_eq_ofLetter D env line⟩

/-- **The switch executes what the line decodes to.** -/
theorem execute_eq {line : Bytes} (hline : ∃ c ∈ line, isSpace c = false) (st : Replay σ) :
    execute D env line st = executeDecoded D env (decode line) st := by
  have hne : line.dropWhile isSpace ≠ [] := by
    obtain ⟨c, hc, hspace⟩ := hline
    intro hnil
    exact absurd (List.dropWhile_eq_nil_iff.mp hnil c hc) (by rw [hspace]; decide)
  obtain ⟨c, rest, hdrop⟩ := List.exists_cons_of_ne_nil hne
  rw [execute_eq_ofLetter, decode, getChar_cons hdrop, hdrop]
  simp only [Option.getD_some, extractString_eq, extractString_extractString_eq]

/-- **The operation character decides.** A line issues a call exactly when its operation character
is the letter of an operation: the one call of the operation it decodes to, which for a line of the
grammar is the operation it spells. Any other line issues none and leaves the error record. -/
theorem execute_decides {line : Bytes} (hline : ∃ c ∈ line, isSpace c = false)
    (st : Replay (σ × List DbCall)) :
    ((execute D.traced env line st).db.2 ≠ st.db.2 ↔ HasOperation line)
      ∧ (∀ op, decode line = some op → (execute D.traced env line st).db = op.perform D st.db)
      ∧ (¬HasOperation line → execute D.traced env line st
          = { st with buffer := st.buffer ++ [errorRecord] })
      ∧ ∀ op : Op, Renders isSpace op.words line → decode line = some op := by
  have hcall (op : Op) (h : decode line = some op) :
      (execute D.traced env line st).db = op.perform D st.db := by
    rw [execute_eq D.traced env hline, h, executeDecoded, Op.db_execute, Op.run_call_traced]
  have hrecord (h : ¬HasOperation line) :
      execute D.traced env line st = { st with buffer := st.buffer ++ [errorRecord] } := by
    have hnone : decode line = none := by
      rwa [← isSome_decode, Option.not_isSome_iff_eq_none] at h
    rw [execute_eq D.traced env hline, hnone, executeDecoded]
  refine ⟨⟨fun hissued ↦ ?_, fun hop ↦ ?_⟩, hcall, hrecord, fun op ↦ decode_of_renders⟩
  · by_contra hop
    rw [hrecord hop] at hissued
    exact hissued rfl
  · obtain ⟨op, hdecode⟩ := Option.isSome_iff_exists.mp ((isSome_decode line).mpr hop)
    rw [hcall op hdecode]
    simp [Op.perform]

end

/-- A line without a value, executed as a write of the empty value. -/
theorem execute_decides_small :
    let line : Bytes := "I k".toList.map Char.toUInt8
    let st : Replay (Entries × List DbCall) := .init ([], [])
    (execute memoryDatabase.traced ⟨true, false, fun _ ↦ 5, 0⟩ line st).db
      = Op.perform memoryDatabase st.db (.insert [107] []) := by
  intro line st
  exact (execute_decides memoryDatabase ⟨true, false, fun _ ↦ 5, 0⟩ (by decide +kernel) st).2.1 _
    (by decide +kernel)

/-- The line `I k` is outside the grammar, and is executed. -/
theorem not_executes_grammar_only :
    ¬∀ (D : Database Entries) (env : ReplayEnv) (line : Bytes)
      (st : Replay (Entries × List DbCall)),
      line ≠ [] → ((execute D.traced env line st).db.2 ≠ st.db.2 ↔ InGrammar line)
        ∧ (¬InGrammar line → (execute D.traced env line st).db.2 = st.db.2
          ∧ (execute D.traced env line st).buffer = st.buffer ++ [errorRecord]) := by
  intro h
  obtain ⟨hiff, -⟩ := h memoryDatabase ⟨true, false, fun _ ↦ 5, 0⟩
    ("I k".toList.map Char.toUInt8) (.init ([], [])) (by decide +kernel)
  obtain ⟨op, hdecode, hwords⟩ := inGrammar_iff.mp (hiff.mp (by decide +kernel))
  obtain rfl : op = .insert [107] [] := Option.some.inj (hdecode.symm.trans (by decide +kernel))
  exact absurd hwords (by decide +kernel)

end WorkloadAwareCompaction
