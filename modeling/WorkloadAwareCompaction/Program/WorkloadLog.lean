import WorkloadAwareCompaction.Library.Columns
import WorkloadAwareCompaction.Library.Decimal
import WorkloadAwareCompaction.Replay.StatsLog
import WorkloadAwareCompaction.Setup.Arguments

/-!
# The workload log

Everything that `runWorkload` inserts into the workload log: a table of the settings, what the replay
reports, the shape of the tree, the execution times and the measurements of the store.

The table has a line of names and a line of values, each padded to the width of its column and with
nothing else between two of them. So a value that fills its column runs into the one before it. The
table can be read back exactly if no value does (`readTable_of_run`); a write buffer of 1 GB is
enough to spoil it.
-/

namespace WorkloadAwareCompaction

open CharStream MachineInt

/-! ## Values -/

/-- A value that is inserted. -/
inductive Datum
  | word (text : String)
  | number (n : ℤ)
  | real (q : ℚ)

namespace Datum

def insertion : Datum → Insertion UInt8 Format
  | word text => Format.text (ascii text.toList)
  | number n => Format.text (ascii (numeral n))
  | real q => Format.double (ascii (general q)) (ascii (CharStream.fixed q))

/-- Its text in the default format. -/
def text : Datum → List Char
  | word text => text.toList
  | number n => numeral n
  | real q => general q

end Datum

/-! ## The table of the settings -/

/-- `PrintColumn`. -/
def printColumn (value : Datum) (width : ℕ) : List (Insertion UInt8 Format) :=
  [Format.setfill 32, Format.setw width, value.insertion]

def colWidth : ℕ := 10
def smallColWidth : ℕ := 4

/-- The first line. -/
def setupNames : List (ℕ × Datum) :=
  [(colWidth, .word "cmpt_sty"), (colWidth, .word "cmpt_pri"), (smallColWidth, .word "T"),
    (colWidth, .word "P"), (colWidth, .word "B"), (colWidth, .word "E"), (colWidth, .word "M"),
    (colWidth, .word "file_size"), (colWidth, .word "L1_size"), (colWidth, .word "blk_cch"),
    (colWidth, .word "BPK")]

/-- The second line. -/
def DBEnv.setupValues (env : DBEnv) : List (ℕ × Datum) :=
  [(colWidth, .number env.compactionStyle.val), (colWidth, .number env.compactionPri.val),
    (smallColWidth, .real env.sizeRatio), (colWidth, .number env.bufferSizeInPages.val),
    (colWidth, .number env.entriesPerPage.val), (colWidth, .number env.entrySize.val),
    (colWidth, .number env.getBufferSize.val), (colWidth, .number env.getTargetFileSizeBase.val),
    (colWidth, .number env.getMaxBytesForLevelBase.val), (colWidth, .number env.blockCache.val),
    (colWidth, .real env.bitsPerKey)]

/-- A line of the table. -/
def printColumns (columns : List (ℕ × Datum)) : List (Insertion UInt8 Format) :=
  columns.flatMap (fun column ↦ printColumn column.2 column.1) ++ [Format.endl]

/-- `PrintExperimentalSetup`. -/
def printExperimentalSetup (env : DBEnv) : List (Insertion UInt8 Format) :=
  if 0 < env.verbosity.val then printColumns setupNames ++ printColumns env.setupValues else []

/-! ## The rest of the log -/

/-- A record of the replay; `toString` is `Status::ToString`. -/
def LogLine.insertions (toString : Status → Bytes) : LogLine → List (Insertion UInt8 Format)
  | text line => [Format.text (ascii line.toList), Format.endl]
  | status s => [Format.text (toString s), Format.endl, Format.flush]

/-- `rocksdb::LevelMetaData`, as far as it is printed. -/
structure LevelState where
  level : ℤ
  files : ℕ
  size : ℕ

/-- `rocksdb::ColumnFamilyMetaData`, as far as it is printed. -/
structure ColumnFamilyState where
  name : String
  size : ℕ
  fileCount : ℕ
  levels : List LevelState

/-- `cfd_details`. -/
def ColumnFamilyState.details (state : ColumnFamilyState) : String :=
  "Column Family Name: " ++ state.name ++ ", Size: " ++ toString state.size
    ++ " bytes, Files Count: " ++ toString state.fileCount ++ "\n" ++ "Level Stats:\n"
    ++ String.join (state.levels.map fun level ↦ "Level: " ++ toString level.level ++ ", Files: "
      ++ toString level.files ++ ", Size: " ++ toString level.size ++ " bytes\n")

/-- The line before the tree state and before the execution times. -/
def separator : List (Insertion UInt8 Format) :=
  [(Datum.word "=====================").insertion, Format.endl]

/-- The part of the log that depends on `PROFILE`, with `LogTreeState`. -/
def logTreeState (env : DBEnv) (state : ColumnFamilyState) : List (Insertion UInt8 Format) :=
  if 0 < env.verbosity.val then
    separator ++ [(Datum.word state.details).insertion, Format.endl]
  else []

/-- A label with a number behind it. -/
def printTotal (total : String × ℤ) : List (Insertion UInt8 Format) :=
  [(Datum.word total.1).insertion, (Datum.number total.2).insertion, Format.endl]

/-- The execution times. -/
def printExecutionTimes {σ : Type} (env : DBEnv) (totalExecTime : ℤ) (st : Replay σ) :
    List (Insertion UInt8 Format) :=
  (if env.isPerOpTimer || env.isTotalTimer then separator else [])
    ++ (if env.isTotalTimer then printTotal ("Workload Execution Time: ", totalExecTime) else [])
    ++ (if env.isPerOpTimer then st.printedTotals.flatMap fun total ↦ printTotal (total.1, total.2)
      else [])

/-- `rocksdb::HistogramData`, as far as it is printed. -/
structure HistogramData where
  median : ℚ
  percentile95 : ℚ
  percentile99 : ℚ
  max : ℚ
  count : ℕ
  sum : ℕ

/-- What RocksDB has measured. -/
structure Measurements where
  tickers : List (String × ℕ)
  histograms : List (String × HistogramData)
  perfContext : String
  iostatsContext : String

/-- The line of a ticker, unless it is 0. -/
def printTicker (ticker : String × ℕ) : List (Insertion UInt8 Format) :=
  if 0 < ticker.2 then
    [Datum.word ticker.1, .word " COUNT: ", .number ticker.2, .word "\n"].map Datum.insertion
  else []

/-- The line of a histogram, unless it is empty. -/
def printHistogram (histogram : String × HistogramData) : List (Insertion UInt8 Format) :=
  let data := histogram.2
  if 0 < data.count then
    [Datum.word histogram.1, .word " P50 : ", .real data.median, .word " P95 : ",
      .real data.percentile95, .word " P99 : ", .real data.percentile99, .word " P100 : ",
      .real data.max, .word " COUNT : ", .number data.count, .word " SUM : ", .number data.sum,
      .word "\n"].map Datum.insertion
  else []

/-- `PrintRocksDBPerfStats`. -/
def printRocksDBPerfStats (env : DBEnv) (measured : Measurements) :
    List (Insertion UInt8 Format) :=
  (if env.rocksdbStats then
      (Datum.word "\n[Rocksdb Stats]\n").insertion :: measured.tickers.flatMap printTicker
        ++ measured.histograms.flatMap printHistogram
    else [])
    ++ (if env.perfStats then
      [Datum.word "[Perf Context]\n", .word measured.perfContext, .word "\n"].map Datum.insertion
    else [])
    ++ if env.iostatStats then
      [Datum.word "\n[IO Stats Context]\n", .word measured.iostatsContext, .word "\n"].map
        Datum.insertion
    else []

/-! ## What is written -/

/-- A text in the default format: it is not split, and it does not end a line. -/
def Datum.Plain (value : Datum) : Prop :=
  value.text ≠ [] ∧ ∀ c ∈ value.text, 32 < c.toNat ∧ c.toNat < 128

theorem plain_of_isDecimal {value : Datum} (hne : value.text ≠ [])
    (h : ∀ c ∈ value.text, isDecimal c = true) : value.Plain := by
  refine ⟨hne, fun c hc ↦ ?_⟩
  have hdecimal := h c hc
  simp only [isDecimal, isNumeric, Bool.or_eq_true, decide_eq_true_eq] at hdecimal
  rcases hdecimal with (((hdigit | rfl) | rfl) | rfl) | rfl
  · obtain ⟨hge, hle⟩ := Char.isDigit_iff_toNat.mp hdigit
    exact ⟨lt_of_lt_of_le (by decide) hge, lt_of_le_of_lt hle (by decide)⟩
  all_goals exact ⟨by decide, by decide⟩

theorem plain_number (n : ℤ) : (Datum.number n).Plain := by
  refine plain_of_isDecimal ?_ fun c hc ↦ ?_
  · exact List.append_ne_nil_of_right_ne_nil _ Nat.toDigits_ne_nil
  · rw [isDecimal, isNumeric_of_mem_numeral hc]
    rfl

theorem plain_real (q : ℚ) : (Datum.real q).Plain :=
  plain_of_isDecimal (general_ne_nil q) fun _ ↦ isDecimal_of_mem_general

theorem plain_setupNames : ∀ column ∈ setupNames, column.2.Plain := by
  have hall : (setupNames.all fun column ↦ !column.2.text.isEmpty
      && column.2.text.all fun c ↦ decide (32 < c.toNat) && decide (c.toNat < 128)) = true := by
    decide
  intro column hcolumn
  have hplain := List.all_eq_true.mp hall column hcolumn
  rw [Bool.and_eq_true, List.all_eq_true] at hplain
  exact ⟨by simpa using hplain.1, by simpa using hplain.2⟩

theorem plain_setupValues (env : DBEnv) : ∀ column ∈ env.setupValues, column.2.Plain := by
  simp only [DBEnv.setupValues, List.forall_mem_cons, plain_number, plain_real, List.not_mem_nil,
    false_imp_iff, implies_true, and_self]

/-- A line of the table, with the texts in their columns. -/
def rowOf (columns : List (ℕ × Datum)) : Bytes :=
  row 32 (columns.map fun column ↦ (column.1, ascii column.2.text))

theorem insertAll_printColumn (value : Datum) (width : ℕ) (content : Bytes) :
    (⟨content, Format.init⟩ : OStream UInt8 Format).insertAll (printColumn value width)
      = ⟨content ++ padded 32 width (ascii value.text), Format.init⟩ := by
  cases value <;> simp [OStream.insertAll, OStream.insert, printColumn, Datum.insertion, Datum.text,
    Format.setfill, Format.setw, Format.double, Format.text, Format.init, padded]

theorem insertAll_printColumns (columns : List (ℕ × Datum)) (content : Bytes) :
    (⟨content, Format.init⟩ : OStream UInt8 Format).insertAll (printColumns columns)
      = ⟨content ++ (rowOf columns ++ [newline]), Format.init⟩ := by
  rw [printColumns, OStream.insertAll_append, OStream.insertAll_singleton]
  -- A value uses up the width that was set for it, so every column starts in the same format.
  have hcolumns (content : Bytes) : (⟨content, Format.init⟩ : OStream UInt8 Format).insertAll
      (columns.flatMap fun column ↦ printColumn column.2 column.1)
        = ⟨content ++ rowOf columns, Format.init⟩ := by
    induction columns generalizing content with
    | nil => simp [rowOf, row]
    | cons column columns ih =>
      rw [List.flatMap_cons, OStream.insertAll_append, insertAll_printColumn, ih, rowOf, rowOf,
        List.map_cons, row_cons, List.append_assoc]
  rw [hcolumns, ← List.append_assoc]
  rfl

theorem insertAll_printTotal (label : String) (n : ℤ) (content : Bytes) :
    (⟨content, Format.init⟩ : OStream UInt8 Format).insertAll (printTotal (label, n))
      = ⟨content ++ ascii (label.toList ++ numeral n) ++ [newline], Format.init⟩ := by
  simp [OStream.insertAll, OStream.insert, printTotal, Datum.insertion, Format.text, Format.endl,
    Format.init, ascii, newline]

theorem insertAll_text (toString : Status → Bytes) (line : String) (content : Bytes) :
    (⟨content, Format.init⟩ : OStream UInt8 Format).insertAll
        (LogLine.insertions toString (.text line))
      = ⟨content ++ ascii line.toList ++ [newline], Format.init⟩ := by
  simp [OStream.insertAll, OStream.insert, LogLine.insertions, Format.text, Format.endl,
    Format.init, newline]

/-- **The execution times are the lines** that `executionTimes` gives. -/
theorem unbuffered_printExecutionTimes {σ : Type} (toString : Status → Bytes) {env : DBEnv}
    {replayEnv : ReplayEnv} (htimer : replayEnv.isPerOpTimer = env.isPerOpTimer) (totalExecTime : ℤ)
    (st : Replay σ) :
    unbuffered Format.init (printExecutionTimes env totalExecTime st)
      = unbuffered Format.init ((executionTimes replayEnv env.isTotalTimer totalExecTime st).flatMap
        (LogLine.insertions toString)) := by
  have hseparator : separator = LogLine.insertions toString (.text "=====================") := rfl
  rw [unbuffered, unbuffered, OStream.empty, printExecutionTimes, executionTimes, htimer,
    hseparator]
  cases env.isPerOpTimer <;> cases env.isTotalTimer <;>
    simp [OStream.insertAll_append, insertAll_printTotal, insertAll_text, Replay.printedTotals,
      totalLine, toList_repr, numeral_natCast]

/-! ## Reading the table back -/

/-- The words of the first two lines. -/
def readTable (content : Bytes) : List (List Bytes) :=
  ((linesOf newline content).take 2).map (wordsOf isSpace)

theorem plain_ascii {value : Datum} (h : value.Plain) :
    ascii value.text ≠ [] ∧ ∀ c ∈ ascii value.text, isSpace c = false ∧ c ≠ newline := by
  refine ⟨fun hnil ↦ h.1 (List.map_eq_nil_iff.mp hnil), fun byte hbyte ↦ ?_⟩
  obtain ⟨c, hc, rfl⟩ := List.mem_map.mp hbyte
  obtain ⟨hgt, hlt⟩ := h.2 c hc
  have hcode := toNat_toUInt8 hlt
  -- All white space is at 32 and below.
  have hne {k : UInt8} (hk : k.toNat ≤ 32) : c.toUInt8 ≠ k := by
    rintro rfl
    omega
  have hnle : ¬c.toUInt8 ≤ 13 := by
    rw [UInt8.le_iff_toNat_le, hcode]
    exact not_le.mpr (lt_trans (by decide) hgt)
  refine ⟨?_, hne (by decide)⟩
  simp [isSpace, hne (k := 32) (by decide), hnle]

theorem newline_not_mem_rowOf {columns : List (ℕ × Datum)}
    (h : ∀ column ∈ columns, column.2.Plain) : newline ∉ rowOf columns := by
  intro hmem
  obtain ⟨_, hrow, hmem⟩ := List.mem_flatMap.mp hmem
  obtain ⟨column, hcolumn, rfl⟩ := List.mem_map.mp hrow
  rcases List.mem_append.mp hmem with hmem | hmem
  · exact absurd (List.eq_of_mem_replicate hmem) (by decide)
  · exact ((plain_ascii (h column hcolumn)).2 _ hmem).2 rfl

/-- When a line of the table can be split into its texts. -/
theorem wordsOf_rowOf_iff {columns : List (ℕ × Datum)} (h : ∀ column ∈ columns, column.2.Plain) :
    wordsOf isSpace (rowOf columns) = columns.map (fun column ↦ ascii column.2.text)
      ↔ ∀ column ∈ columns.tail, column.2.text.length < column.1 := by
  have hcolumns : ∀ column ∈ columns.map fun column ↦ (column.1, ascii column.2.text),
      column.2 ≠ [] ∧ ∀ c ∈ column.2, isSpace c = false := by
    intro _ hrow
    obtain ⟨column, hcolumn, rfl⟩ := List.mem_map.mp hrow
    obtain ⟨hne, hwords⟩ := plain_ascii (h column hcolumn)
    exact ⟨hne, fun c hc ↦ (hwords c hc).1⟩
  have hiff := wordsOf_row_eq_iff (show isSpace 32 = true from rfl) hcolumns
  rw [List.map_map, ← List.map_tail, List.forall_mem_map] at hiff
  simpa only [rowOf, ascii, List.length_map, Function.comp_def] using hiff

/-- The settings for which no value but the first fills its column. -/
structure TableFits (env : DBEnv) : Prop where
  sizeRatio : -100 < env.sizeRatio ∧ env.sizeRatio < 1000
  bufferSizeInPages : env.bufferSizeInPages.val < 10 ^ 9
  entriesPerPage : env.entriesPerPage.val < 10 ^ 9
  entrySize : env.entrySize.val < 10 ^ 9
  /-- The size of a file and that of the first level are the same number. -/
  bufferSize : env.getBufferSize.val < 10 ^ 9
  blockCache : -10 ^ 8 < env.blockCache.val ∧ env.blockCache.val < 10 ^ 9
  bitsPerKey : (general env.bitsPerKey).length < 10

theorem length_number_lt_iff {n : ℤ} :
    (Datum.number n).text.length < colWidth ↔ -10 ^ 8 < n ∧ n < 10 ^ 9 :=
  length_numeral_lt_iff (by decide : 0 < 8)

theorem length_unsigned_lt_iff {t : IntType} (ht : t.signed = false) {x : CInt t} :
    (Datum.number x.val).text.length < colWidth ↔ x.val < 10 ^ 9 := by
  have hnonneg := ((IntType.inRange_unsigned ht).mp x.inRange).1
  rw [length_number_lt_iff]
  exact and_iff_right (lt_of_lt_of_le (by norm_num) hnonneg)

/-- The size of a file fits if the size of the buffer does. -/
theorem length_getTargetFileSizeBase_lt {env : DBEnv} (h : env.getBufferSize.val < 10 ^ 9) :
    (Datum.number env.getTargetFileSizeBase.val).text.length < colWidth := by
  have hnonneg := ((IntType.inRange_unsigned rfl).mp env.getBufferSize.inRange).1
  have hrange : IntType.long.InRange env.getBufferSize.val := by
    constructor
    · exact le_trans (by decide) hnonneg
    · exact lt_trans h (by decide)
  rw [length_number_lt_iff, DBEnv.getTargetFileSizeBase, CInt.val_convert_eq_iff.mpr hrange]
  exact ⟨lt_of_lt_of_le (by norm_num) hnonneg, h⟩

theorem tableFits_iff {env : DBEnv} {T : ℤ} (hratio : env.sizeRatio = T) :
    (∀ column ∈ env.setupValues.tail, column.2.text.length < column.1) ↔ TableFits env := by
  have hpri : (Datum.number env.compactionPri.val).text.length < colWidth :=
    (length_unsigned_lt_iff rfl).mpr (lt_trans env.compactionPri.inRange.2 (by decide))
  have hsizeRatio : (Datum.real env.sizeRatio).text.length < smallColWidth
      ↔ -100 < env.sizeRatio ∧ env.sizeRatio < 1000 := by
    rw [hratio]
    exact length_general_intCast_lt_iff.trans (by norm_cast)
  have hlevel : (Datum.number env.getMaxBytesForLevelBase.val).text.length < colWidth
      ↔ env.getBufferSize.val < 10 ^ 9 := by
    rw [length_unsigned_lt_iff rfl, env.val_getMaxBytesForLevelBase]
  have hunsigned {t : IntType} (ht : t.signed = false) (x : CInt t) :=
    length_unsigned_lt_iff ht (x := x)
  rw [DBEnv.setupValues, List.tail_cons]
  simp only [List.forall_mem_cons, List.not_mem_nil, false_imp_iff, implies_true, and_true,
    hsizeRatio, hunsigned rfl env.bufferSizeInPages, hunsigned rfl env.entriesPerPage,
    hunsigned rfl env.entrySize, hunsigned rfl env.getBufferSize, hlevel]
  rw [length_number_lt_iff (n := env.blockCache.val)]
  constructor
  · rintro ⟨-, hT, hP, hB, hE, hM, -, -, hcache, hbits⟩
    exact ⟨hT, hP, hB, hE, hM, hcache, hbits⟩
  · rintro ⟨hT, hP, hB, hE, hM, hcache, hbits⟩
    exact ⟨hpri, hT, hP, hB, hE, hM, length_getTargetFileSizeBase_lt hM, hM, hcache, hbits⟩

/-- The size ratio of the program is a whole number. -/
theorem exists_sizeRatio_eq {fp : DoubleArith} {line : CommandLine} {env : DBEnv}
    (h : parseArguments fp line {} = some (.returned 0 env)) : ∃ T : ℤ, env.sizeRatio = T := by
  obtain ⟨flags, slowdown, stop, trigger, -, rfl⟩ := exists_withFlags_of_parseArguments h
  cases hratio : flags.sizeRatio with
  | none => exact ⟨4, by simp [DBEnv.withFlags, assignDouble, hratio]⟩
  | some T => exact ⟨T.val, by simp [DBEnv.withFlags, assignDouble, hratio]⟩

/-- The table in the file of a buffer that it was inserted into first. -/
theorem readTable_eq_iff {env : DBEnv} {T : ℤ} (hratio : env.sizeRatio = T)
    (hverbosity : 0 < env.verbosity.val) {h : List (BufferEvent Format)} {s : Process Format} {i : ℕ}
    {b : Buffer Format} {rest : List (Insertion UInt8 Format)}
    (hrun : (bufferSystem Format.init).Run WritesSucceed h s) (hb : s.buffers[i]? = some b)
    (hended : s.Ended b) (hinserted : insertionsInto i h = printExperimentalSetup env ++ rest) :
    readTable b.outputFile.content = [setupNames.map fun column ↦ ascii column.2.text,
        env.setupValues.map fun column ↦ ascii column.2.text] ↔ TableFits env := by
  have htable : (unbuffered Format.init (printExperimentalSetup env)).content
      = rowOf setupNames ++ newline :: (rowOf env.setupValues ++ [newline]) := by
    rw [printExperimentalSetup, if_pos hverbosity, unbuffered, OStream.empty,
      OStream.insertAll_append, insertAll_printColumns, insertAll_printColumns]
    simp
  -- The file starts with the two lines of the table.
  obtain ⟨tail, htail⟩ : ∃ tail, b.outputFile.content
      = rowOf setupNames ++ newline :: (rowOf env.setupValues ++ newline :: tail) := by
    obtain ⟨tail, htail⟩ := OStream.content_prefix_insertAll rest
      (unbuffered Format.init (printExperimentalSetup env))
    refine ⟨tail, ?_⟩
    rw [(logInv_of_run hrun).content_of_ended hb hended, hinserted, unbuffered_append, ← htail,
      htable]
    simp
  have hlines : (linesOf newline b.outputFile.content).take 2
      = [rowOf setupNames, rowOf env.setupValues] := by
    rw [htail, linesOf_append (newline_not_mem_rowOf plain_setupNames),
      linesOf_append (newline_not_mem_rowOf (plain_setupValues env))]
    rfl
  have hnames : wordsOf isSpace (rowOf setupNames)
      = setupNames.map fun column ↦ ascii column.2.text := by
    refine (wordsOf_rowOf_iff plain_setupNames).mpr fun column hcolumn ↦ ?_
    have hall : (setupNames.tail.all fun column ↦
        decide (column.2.text.length < column.1)) = true := by decide
    exact of_decide_eq_true (List.all_eq_true.mp hall column hcolumn)
  rw [readTable, hlines, List.map_cons, List.map_singleton, hnames, List.cons_inj_right,
    List.singleton_inj, wordsOf_rowOf_iff (plain_setupValues env), tableFits_iff hratio]

/-- **When the table can be read back.** The settings of every accepted command line that asks for
the table are found in it at the end, each under its name, exactly if none but the first fills its
column. This does not depend on what else goes into the log, and when it is flushed. -/
theorem readTable_of_run {fp : DoubleArith} {line : CommandLine} {env : DBEnv}
    (hline : parseArguments fp line {} = some (.returned 0 env)) (hverbosity : 0 < env.verbosity.val)
    {h : List (BufferEvent Format)} {s : Process Format} {i : ℕ} {b : Buffer Format}
    {rest : List (Insertion UInt8 Format)}
    (hrun : (bufferSystem Format.init).Run WritesSucceed h s) (hb : s.buffers[i]? = some b)
    (hended : s.Ended b) (hinserted : insertionsInto i h = printExperimentalSetup env ++ rest) :
    readTable b.outputFile.content = [setupNames.map fun column ↦ ascii column.2.text,
        env.setupValues.map fun column ↦ ascii column.2.text] ↔ TableFits env := by
  obtain ⟨T, hratio⟩ := exists_sizeRatio_eq hline
  exact readTable_eq_iff hratio hverbosity hrun hb hended hinserted

/-- A write buffer of 1 MB, and one of 1 GB. -/
theorem readTable_of_run_small :
    let env (M : CInt .long) := DBEnv.withFlags {} { verbosity := some 1, bufferSize := some M } 3 4 4
    let reads (M : CInt .long) (content : Bytes) : Prop :=
      readTable content = [setupNames.map fun column ↦ ascii column.2.text,
        (env M).setupValues.map fun column ↦ ascii column.2.text]
    let written (M : CInt .long) (b : Buffer Format) : Prop :=
      ∃ s, (bufferSystem Format.init).Run WritesSucceed
        (lifetime 100 (printExperimentalSetup (env M))) s ∧ s.buffers[0]? = some b
    (∃ b, written 1048576 b ∧ reads 1048576 b.outputFile.content)
      ∧ ∃ b, written 1073741824 b ∧ ¬reads 1073741824 b.outputFile.content := by
  intro env reads written
  have hread (M : CInt .long) :
      ∃ b, written M b ∧ (reads M b.outputFile.content ↔ TableFits (env M)) := by
    obtain ⟨s, b, hrun, hb, hended⟩ :=
      exists_run_lifetime Format.init 100 (printExperimentalSetup (env M))
    have hverbosity : 0 < (env M).verbosity.val :=
      show 0 < ((1 : CInt .int).convert .int).val by decide
    exact ⟨b, ⟨s, hrun, hb⟩, readTable_of_run (parseArguments_default _ rfl) hverbosity hrun hb hended
      ((insertionsInto_lifetime _ _).trans (List.append_nil _).symm)⟩
  obtain ⟨b, hb, hfits⟩ := hread 1048576
  obtain ⟨b', hb', hfits'⟩ := hread 1073741824
  refine ⟨⟨b, hb, hfits.mpr ?_⟩, b', hb', fun h ↦ ?_⟩
  · exact ⟨by decide +kernel, by decide, by decide, by decide, by decide, by decide,
      by decide +kernel⟩
  · exact absurd (hfits'.mp h).bufferSize (by decide)

end WorkloadAwareCompaction
