import WorkloadAwareCompaction.Library.Numeral
import WorkloadAwareCompaction.Logging.Log
import WorkloadAwareCompaction.Replay.Timing

/-!
# The stats log on the disk

With per-operation timing on, each operation but a range delete leaves a line in the stats log: its
label and the duration. A line is inserted in three parts, and the buffer may move its content to the
file between any two of them. So a process that is killed can leave half a line behind. What it
leaves is a prefix of the log all the same, and a process that comes to its end leaves the whole of
it, from which the durations can be read back in their order (`statsLog_of_run`,
`readStats_statsText`).
-/

namespace WorkloadAwareCompaction

open CharStream

/-! ## The text of the log -/

/-- A text as the bytes written for it. -/
def ascii (text : List Char) : Bytes := text.map Char.toUInt8

/-- `(*stats) << label << duration.count() << std::endl`. -/
def TimingRecord.insertions (record : TimingRecord) : List (Insertion UInt8 Format) :=
  [Format.text (ascii record.label.toList), Format.text (ascii (numeral record.count)), Format.endl]

/-- What is inserted into the stats log. -/
def statsInsertions (records : List TimingRecord) : List (Insertion UInt8 Format) :=
  records.flatMap TimingRecord.insertions

/-- The line of a record. -/
def TimingRecord.line (record : TimingRecord) : Bytes :=
  ascii (record.label.toList ++ numeral record.count)

/-- The stats log. -/
def statsText (records : List TimingRecord) : Bytes :=
  records.flatMap fun record ↦ record.line ++ [newline]

/-- What is inserted makes up the text. -/
theorem content_statsInsertions (records : List TimingRecord) :
    (unbuffered Format.init (statsInsertions records)).content = statsText records := by
  have hwrites : List.Forall₂ (fun ins text ↦ ins Format.init = (text, Format.init))
      (statsInsertions records) (records.flatMap fun record ↦
        [ascii record.label.toList, ascii (numeral record.count), [newline]]) := by
    induction records with
    | nil => exact .nil
    | cons record records ih =>
      have htext (text : Bytes) : Format.text text Format.init = (text, Format.init) := by
        simp [Format.text, Format.init]
      exact .cons (htext _) (.cons (htext _) (.cons rfl ih))
  rw [unbuffered, OStream.empty, OStream.insertAll_of_writes hwrites, List.nil_append, statsText]
  simp [List.flatMap, List.flatten_flatten, TimingRecord.line, ascii, Function.comp_def]

/-! ## Reading it back -/

/-- The characters of a text. -/
def chars (text : Bytes) : List Char := text.map fun c ↦ Char.ofNat c.toNat

/-- The record of a line: its number starts where the first character of a number stands. -/
def TimingRecord.ofLine (line : Bytes) : TimingRecord :=
  let number := takeSign ((chars line).dropWhile (!isNumeric ·))
  ⟨String.ofList ((chars line).takeWhile (!isNumeric ·)), signed number.1 number.2⟩

/-- The records of a stats log. -/
def readStats (content : Bytes) : List TimingRecord := (linesOf newline content).map .ofLine

/-- A label of the stats log. -/
def IsLabel (label : String) : Prop :=
  ∀ c ∈ label.toList, isNumeric c = false ∧ c.toNat < 128 ∧ c ≠ '\n'

theorem isLabel_of_mem_timedKinds {label : String} (h : label ∈ timedKinds.map (·.2)) :
    IsLabel label := by
  have hall : ((timedKinds.map (·.2)).all fun label ↦ label.toList.all fun c ↦
      !isNumeric c && decide (c.toNat < 128) && decide (c ≠ '\n')) = true := by decide
  intro c hc
  have hchar := List.all_eq_true.mp (List.all_eq_true.mp hall label h) c hc
  simpa [and_assoc] using hchar

theorem toNat_toUInt8 {c : Char} (h : c.toNat < 128) : c.toUInt8.toNat = c.toNat := by
  rw [Char.toUInt8, UInt32.toNat_toUInt8]
  exact Nat.mod_eq_of_lt (by omega : c.toNat < 2 ^ 8)

theorem chars_ascii {text : List Char} (h : ∀ c ∈ text, c.toNat < 128) :
    chars (ascii text) = text := by
  rw [chars, ascii, List.map_map]
  refine (List.map_congr_left fun c hc ↦ ?_).trans (List.map_id text)
  rw [Function.comp_apply, toNat_toUInt8 (h c hc), Char.ofNat_toNat]
  rfl

theorem lt_of_isNumeric {c : Char} (h : isNumeric c = true) : c.toNat < 128 ∧ c ≠ '\n' := by
  rw [isNumeric, Bool.or_eq_true, decide_eq_true_eq, Char.isDigit_iff_toNat] at h
  rcases h with ⟨hge, hle⟩ | rfl
  · refine ⟨lt_of_le_of_lt hle (by decide), ?_⟩
    rintro rfl
    exact absurd hge (by decide)
  · exact ⟨by decide, by decide⟩

/-- The characters of a line. -/
theorem lt_of_mem_line {record : TimingRecord} (h : IsLabel record.label) :
    ∀ c ∈ record.label.toList ++ numeral record.count, c.toNat < 128 ∧ c ≠ '\n' := by
  intro c hc
  rcases List.mem_append.mp hc with hc | hc
  · exact (h c hc).2
  · exact lt_of_isNumeric (isNumeric_of_mem_numeral hc)

theorem ofLine_line {record : TimingRecord} (h : IsLabel record.label) :
    TimingRecord.ofLine record.line = record := by
  have hchars : chars record.line = record.label.toList ++ numeral record.count :=
    chars_ascii fun c hc ↦ (lt_of_mem_line h c hc).1
  -- No character of a label occurs in a number, so the number starts where the label ends.
  have hlabel : ∀ c ∈ record.label.toList, (!isNumeric c) = true := by
    intro c hc
    rw [(h c hc).1]
    rfl
  have hnumber : (numeral record.count).takeWhile (!isNumeric ·) = []
      ∧ (numeral record.count).dropWhile (!isNumeric ·) = numeral record.count := by
    cases hnumeral : numeral record.count with
    | nil => exact ⟨rfl, rfl⟩
    | cons c text =>
      have hc := isNumeric_of_mem_numeral (hnumeral ▸ List.mem_cons_self (a := c) (l := text))
      simp [hc]
  simp only [TimingRecord.ofLine, hchars, List.takeWhile_append_of_pos hlabel,
    List.dropWhile_append_of_pos hlabel, hnumber, List.append_nil, signed_takeSign_numeral,
    String.ofList_toList]

theorem newline_not_mem_line {record : TimingRecord} (h : IsLabel record.label) :
    newline ∉ record.line := by
  intro hmem
  obtain ⟨c, hc, hbyte⟩ := List.mem_map.mp hmem
  obtain ⟨hlt, hne⟩ := lt_of_mem_line h c hc
  have hcode : c.toNat = 10 := (toNat_toUInt8 hlt).symm.trans (congrArg UInt8.toNat hbyte)
  exact hne (Char.ofNat_toNat c ▸ hcode ▸ rfl)

/-- **The log can be read back.** -/
theorem readStats_statsText {records : List TimingRecord}
    (h : ∀ record ∈ records, IsLabel record.label) : readStats (statsText records) = records := by
  induction records with
  | nil => rfl
  | cons record records ih =>
    obtain ⟨hrecord, hrecords⟩ := List.forall_mem_cons.mp h
    have hlines : linesOf newline (statsText (record :: records))
        = record.line :: linesOf newline (statsText records) := by
      rw [statsText, List.flatMap_cons, List.append_assoc]
      exact linesOf_append (newline_not_mem_line hrecord) _
    rw [readStats, hlines, List.map_cons, ofLine_line hrecord]
    exact congrArg _ (ih hrecords)

/-! ## What is on the disk -/

section

variable {σ : Type} (D : Database σ) {env : ReplayEnv} {ops : List Op} {content : Bytes}

theorem isLabel_of_mem_recordsFrom {i : ℕ} {record : TimingRecord}
    (h : record ∈ recordsFrom env i ops) : IsLabel record.label := by
  induction ops generalizing i with
  | nil => exact absurd h List.not_mem_nil
  | cons op ops ih =>
    rcases List.mem_append.mp h with h | h
    · rw [Op.records] at h
      split_ifs at h with hrange
      · exact absurd h List.not_mem_nil
      · rw [List.mem_singleton.mp h]
        exact isLabel_of_mem_timedKinds (Op.tag_mem_timedKinds (by simpa using hrange) "")
    · exact ih h

/-- Without per-operation timing there are no records. -/
theorem stats_foldl_turn_of_off (htimer : env.isPerOpTimer = false) (ops : List Op)
    (st : Replay σ) : (ops.foldl (fun st op ↦ op.turn D env st) st).stats = st.stats := by
  induction ops generalizing st with
  | nil => rfl
  | cons op ops ih =>
    have hturn : (op.turn D env st).stats = st.stats := by
      cases op <;> simp [Op.turn, Op.execute, executeInsert, executeUpdate, executePointDelete,
        executePointQuery, executeScan, executeRangeDelete, timed, htimer]
    rw [List.foldl_cons, ih, hturn]

/-- What a buffer has in its file, when a part of the log has been inserted into it. -/
theorem isPrefix_of_inserted {h : List (BufferEvent Format)} {s : Process Format} {i : ℕ}
    {b : Buffer Format} {records : List TimingRecord}
    (hrun : (bufferSystem Format.init).Run WritesSucceed h s) (hb : s.buffers[i]? = some b)
    (hinserted : insertionsInto i h <+: statsInsertions records) :
    b.outputFile.content ++ b.buffer.content <+: statsText records
      ∧ b.tellp < max b.bufferLimit.toNat 1 := by
  have hinv := logInv_of_run hrun
  obtain ⟨rest, hrest⟩ := hinserted
  refine ⟨?_, hinv.small i b hb⟩
  rw [(hinv.logs i b hb).continues.content, ← content_statsInsertions, ← hrest, unbuffered_append]
  exact OStream.content_prefix_insertAll _ _

/-- **The stats log on the disk.** Whatever the limit of the buffer, wherever it is flushed and
whatever else the process writes: at every moment the file and the pending bytes are a prefix of the
log, and fewer bytes are pending than the limit. Once the buffer or the process has come to its end,
the file is the log, a line for each operation but the range deletes, in their order. The durations
can be read back from it, and the printed totals are their sums. -/
theorem statsLog_of_run (env : ReplayEnv) (htimer : env.isPerOpTimer = true)
    (hprogress : env.isShowProgress = false) (hworkload : IsWorkload ops content) (db : σ) :
    ∃ st, replay D env content db = .ok st ∧ st.stats = recordsFrom env 0 ops
      ∧ ∀ h s i b, (bufferSystem Format.init).Run WritesSucceed h s → s.buffers[i]? = some b →
        insertionsInto i h <+: statsInsertions st.stats →
        (b.outputFile.content ++ b.buffer.content <+: statsText st.stats
          ∧ b.tellp < max b.bufferLimit.toNat 1)
        ∧ (insertionsInto i h = statsInsertions st.stats → s.Ended b →
          b.outputFile.content = statsText st.stats
            ∧ readStats b.outputFile.content = st.stats
            ∧ st.printedTotals = timedKinds.map fun kind ↦
              (kind.1, asUnsignedLong (recorded kind.2 (readStats b.outputFile.content)))) := by
  have hreplay := replay_eq_foldl D env hprogress hworkload db
  have hstats := stats_foldl_turn D htimer ops (.init db)
  have htotals := (totalsMatch_init db).foldl D htimer ops
  generalize ops.foldl (fun st op ↦ op.turn D env st) (.init db) = st at hreplay hstats htotals
  refine ⟨st, hreplay, hstats, fun h s i b hrun hb hinserted ↦ ⟨isPrefix_of_inserted hrun hb hinserted,
    fun hall hended ↦ ?_⟩⟩
  have hfile : b.outputFile.content = statsText st.stats := by
    rw [(logInv_of_run hrun).content_of_ended hb hended, hall, content_statsInsertions]
  have hread : readStats b.outputFile.content = st.stats := by
    rw [hfile, hstats]
    exact readStats_statsText fun record ↦ isLabel_of_mem_recordsFrom
  rw [hread]
  exact ⟨hfile, rfl, htotals⟩

end

/-- An insert, a range delete and a query, and a limit that splits a line. -/
theorem statsLog_of_run_small :
    let content : Bytes := ascii "I k v\nR a z\nQ k".toList
    let env : ReplayEnv := ⟨true, false, fun i ↦ 7 * i + 1, 0⟩
    ∃ st h s b, replay memoryDatabase env content [] = .ok st
      ∧ (bufferSystem Format.init).Run WritesSucceed h s ∧ s.buffers[0]? = some b
      ∧ b.bufferLimit = 15
      ∧ b.outputFile.content = ascii "InsertTime: 1\nGetTime: 15\n".toList := by
  intro content env
  have hworkload : IsWorkload [.insert [107] [118], .rangeDelete [97] [122],
      .pointQuery false [107]] content :=
    isWorkload_render (by decide +kernel) (Or.inr (by decide +kernel))
  obtain ⟨st, hst, hstats, hlog⟩ := statsLog_of_run memoryDatabase env rfl rfl hworkload []
  let h : List (BufferEvent Format) := .destroy 0 true
    :: ((statsInsertions [⟨"InsertTime: ", 1⟩, ⟨"GetTime: ", 15⟩]).map fun ins ↦
      .insert 0 ins true).reverse ++ [.construct 15]
  obtain ⟨s, hrun, hbuffers⟩ := StepSystem.exists_run_of_exec (M := bufferSystem Format.init)
    (P := fun _ _ ↦ True) (R := fun s ↦ s.buffers.map (fun b ↦ (b.bufferLimit, b.destroyed))
      = [(15, true)]) (h := h) (by decide +kernel)
  have hsucceed : (bufferSystem Format.init).Run WritesSucceed h s :=
    (hrun.and fun e h' s' hsuf _ ↦ writesSucceed_of_outcome
      ((show ∀ e ∈ h, ∀ i, e.outcome i = true by simp [h, statsInsertions,
        TimingRecord.insertions, BufferEvent.outcome]) e (hsuf.subset List.mem_cons_self)) s').mono
      fun _ _ ↦ And.right
  obtain ⟨b, hb⟩ : ∃ b, s.buffers = [b] := by
    rw [← List.length_eq_one_iff, ← List.length_map (fun b ↦ (b.bufferLimit, b.destroyed)), hbuffers]
    rfl
  rw [hb, List.map_singleton, List.singleton_inj, Prod.mk.injEq] at hbuffers
  have hbuffer : s.buffers[0]? = some b := by rw [hb]; rfl
  have hinserted : insertionsInto 0 h = statsInsertions st.stats := by rw [hstats]; rfl
  obtain ⟨hfile, -⟩ := (hlog h s 0 b hsucceed hbuffer ⟨[], by rw [List.append_nil, hinserted]⟩).2
    hinserted (Or.inl hbuffers.2)
  refine ⟨st, h, s, b, hst, hsucceed, hbuffer, hbuffers.1, ?_⟩
  rw [hfile, hstats]
  decide +kernel

end WorkloadAwareCompaction
