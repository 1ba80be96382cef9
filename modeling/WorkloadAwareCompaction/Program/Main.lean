import WorkloadAwareCompaction.Program.WorkloadLog
import WorkloadAwareCompaction.Setup.Settings
import WorkloadAwareCompaction.Setup.Sizes

/-!
# The program

`main` reads its arguments into the environment and runs the workload: the store is configured,
destroyed if this is asked for and opened, the workload file is replayed on it, and it is closed. The
assertions are compiled out, as the build type `Release` has it. So whatever the calls return, a
program that comes to its end returns 0.

The database outlives the program. What it holds after any number of executions is what the
operations of their workloads make of each other, from the last execution on that destroyed it
(`content_of_sessions`).
-/

namespace WorkloadAwareCompaction

open CharStream MachineInt

/-! ## The store -/

/-- What the program uses of RocksDB. -/
structure Store (σ : Type) where
  /-- `DestroyDB`. -/
  destroyDB : StoreOptions → σ → σ
  /-- `DB::Open`. -/
  openDB : StoreOptions → σ → Status × σ
  /-- The calls of the replay. -/
  calls : Configured → Database σ
  /-- `GetLiveFiles`, which flushes the memtable. -/
  getLiveFiles : σ → σ
  getColumnFamilyMetaData : σ → ColumnFamilyState
  close : StoreOptions → σ → Status × σ
  /-- `Status::ToString`. -/
  toString : Status → Bytes

/-- RocksDB with its default options, and the arithmetic of `double`. -/
structure Platform (σ : Type) where
  store : Store σ
  fp : DoubleArith
  options : StoreOptions
  table : TableOptions
  read : ReadOptions

/-- What an execution of the program is given and measures. -/
structure Session where
  args : List (List Char)
  /-- The content of `workload.txt`, if it can be opened. -/
  workload : Option Bytes
  /-- The durations of the operations, by their number. -/
  duration : ℕ → ℤ
  totalExecTime : ℤ
  measured : Measurements
  /-- The content of `operation` when its extraction failed. -/
  uninitialized : UInt8

/-- What an execution leaves behind. -/
structure Finished (σ : Type) where
  /-- The exit code. -/
  code : ℕ
  db : σ
  /-- What was inserted into the workload log. -/
  buffer : List (Insertion UInt8 Format)
  /-- What was inserted into the stats log. -/
  stats : List (Insertion UInt8 Format)

/-! ## The program -/

/-- What the environment decides about the replay. -/
def DBEnv.replayEnv (env : DBEnv) (x : Session) : ReplayEnv :=
  ⟨env.isPerOpTimer, env.showProgressBar, x.duration, x.uninitialized⟩

section

variable {σ : Type} (P : Platform σ)

/-- What `runWorkload` does after the loop. -/
def finish (env : DBEnv) (configured : Configured) (x : Session) (st : Replay σ) : Finished σ :=
  let db := P.store.getLiveFiles st.db
  { code := 0
    db := (P.store.close configured.options db).2
    buffer := printExperimentalSetup env
      ++ (st.buffer.flatMap (LogLine.insertions P.store.toString)
        ++ logTreeState env (P.store.getColumnFamilyMetaData db)
        ++ printExecutionTimes env x.totalExecTime st ++ printRocksDBPerfStats env x.measured)
    stats := statsInsertions st.stats }

/-- What it does to the database before the loop. -/
def openStore (env : DBEnv) (options : StoreOptions) (db : σ) : Status × σ :=
  P.store.openDB options (if env.destroyDatabase then P.store.destroyDB options db else db)

def runWorkload (env : DBEnv) (x : Session) (db : σ) : Except Stuck (Finished σ) :=
  match configOptions env P.options P.table P.read with
  | none => .error .undefined
  | some configured =>
    let opened := openStore P env configured.options db
    -- Without the assertion a null pointer is used when the database could not be opened.
    if opened.1 ≠ .ok then .error .undefined
    else do
      -- A stream that could not be opened delivers nothing.
      let content := x.workload.getD []
      let st ← replay (P.store.calls configured) (env.replayEnv x) content opened.2
      .ok (finish P env configured x st)

/-- `main`. -/
def main (x : Session) (db : σ) : Except Stuck (Finished σ) :=
  match parseArguments P.fp (CommandLine.ofArgs x.args) {} with
  | none => .error .undefined
  | some .exit => .ok ⟨0, db, [], []⟩
  | some (.returned code env) => if code ≠ 0 then .ok ⟨1, db, [], []⟩ else runWorkload P env x db

end

/-! ## What is assumed of the store -/

/-- The store is a map, its content being `view`, and it outlives the program: opening it succeeds
and keeps the content, as does flushing it. Closing does so if the memtable is flushed before, as no
log has been written. -/
structure Store.Keeps {σ : Type} (S : Store σ) (view : σ → Bytes → Option Bytes) : Prop where
  destroyDB (options : StoreOptions) (db : σ) : view (S.destroyDB options db) = fun _ ↦ none
  openDB {options : StoreOptions} (h : options.createIfMissing = true) (db : σ) :
    (S.openDB options db).1 = .ok ∧ view (S.openDB options db).2 = view db
  calls {configured : Configured} (h : configured.options.comparator = .bytewise) :
    OrderedMap (S.calls configured) view
  getLiveFiles (db : σ) : view (S.getLiveFiles db) = view db
  close {options : StoreOptions} (h : options.avoidFlushDuringShutdown = false) (db : σ) :
    view (S.close options db).2 = view db

/-! ## Arguments and workload -/

/-- The arguments spell these settings, and the workload file these operations. -/
structure Session.Spells (x : Session) (numbers : List (Flag × ℤ)) (ops : List Op) : Prop where
  args : ∃ chunks settings, Written numbers settings ∧ parser.Spells chunks settings
    ∧ (x.args = chunks ∨ x.args = chunks ++ [terminator])
  workload : ∃ content, x.workload = some content ∧ IsWorkload ops content

theorem Session.Spells.ofArgs_eq {x : Session} {numbers : List (Flag × ℤ)} {ops : List Op}
    (h : x.Spells numbers ops) :
    CommandLine.ofArgs x.args = .flags (FlagValues.last numbers).flags := by
  obtain ⟨chunks, settings, hwritten, hspells, hargs⟩ := h.args
  exact ofArgs_of_readValues hspells hargs hwritten.readValues_own

/-! ## A store in memory -/

/-- A store that keeps its entries. -/
def memoryPlatform : Platform Entries where
  store := {
    destroyDB := fun _ _ ↦ []
    openDB := fun _ db ↦ (.ok, db)
    calls := fun _ ↦ memoryDatabase
    getLiveFiles := id
    getColumnFamilyMetaData := fun _ ↦ ⟨"default", 0, 0, []⟩
    close := fun _ db ↦ (.ok, db)
    toString := fun _ ↦ [] }
  fp := .binary64
  options := plainOptions
  table := plainTable
  read := plainRead

theorem keeps_memoryPlatform : memoryPlatform.store.Keeps Entries.lookup where
  destroyDB _ _ := rfl
  openDB _ _ := ⟨rfl, rfl⟩
  calls _ := orderedMap_memoryDatabase
  getLiveFiles _ := rfl
  close _ _ := rfl

theorem exactOnInts_memoryPlatform : memoryPlatform.fp.ExactOnInts :=
  fun _ h ↦ Binary64.round_intCast h

/-- An execution with these arguments and this workload file. -/
def smallSession (args : List String) (workload : String) : Session where
  args := args.map String.toList
  workload := some (ascii workload.toList)
  duration i := 7 * i + 1
  totalExecTime := 99
  measured := ⟨[], [], "", ""⟩
  uninitialized := 0

theorem spells_smallSession : (smallSession ["-d0", "--peroptime=1"] "I l w\nS a z").Spells
    [(.destroyDatabase, 0), (.enablePerOpTime, 1)] [.insert [108] [119], .scan [97] [122]] where
  args := by
    have hshort : parser.matchShort 'd' = some .destroyDatabase := matchShort_eq_some_iff.mpr rfl
    have hlong : parser.matchLong "peroptime".toList = some .enablePerOpTime :=
      matchLong_eq_some_iff.mpr rfl
    refine ⟨_, [(.destroyDatabase, "0".toList), (.enablePerOpTime, "1".toList)], ?_, ?_,
      Or.inl rfl⟩
    · exact .cons ⟨rfl, isNumeral_numeral 0⟩ (.cons ⟨rfl, isNumeral_numeral 1⟩ .nil)
    · exact .cons (.shortJoined hshort (by decide) (by decide))
        (.cons (.longJoined "1".toList hlong (by decide)) .nil)
  workload := ⟨_, rfl, isWorkload_render (by decide +kernel) (Or.inr (by decide +kernel))⟩

theorem defined_smallSession :
    Defined [(.destroyDatabase, 0), (.enablePerOpTime, 1)] where
  sizeRatio _ hn := absurd hn (by simp [setting, own])
  blockCache _ hn := absurd hn (by simp [setting, own])

/-! ## One execution -/

section

variable {σ : Type} {P : Platform σ} {x : Session} {env : DBEnv} {configured : Configured}
  {ops : List Op}

/-- The end of the replay of a workload by the program. -/
def replayed (P : Platform σ) (env : DBEnv) (configured : Configured) (x : Session) (ops : List Op)
    (db : σ) : Replay σ :=
  ops.foldl (fun st op ↦ op.turn (P.store.calls configured) (env.replayEnv x) st) (.init db)

/-- An accepted command line runs the workload. -/
theorem main_of_accepted
    (h : parseArguments P.fp (CommandLine.ofArgs x.args) {} = some (.returned 0 env)) (db : σ) :
    main P x db = runWorkload P env x db := by
  rw [main, h]
  rfl

/-- Options that could be configured are those of the environment. -/
theorem comparator_of_configOptions (henv : env.comparator = 1)
    (h : configOptions env P.options P.table P.read = some configured) :
    configured.options.comparator = .bytewise := by
  obtain ⟨cached, -, -, hoptions⟩ := exists_of_configOptions h
  have hcomparator : configured.options.comparator
      = (env.comparatorSwitch P.options.comparator).1 := by
    rw [hoptions]
    rfl
  rw [hcomparator, DBEnv.comparatorSwitch, henv]
  rfl

variable {view : σ → Bytes → Option Bytes} {numbers : List (Flag × ℤ)}

/-- **One execution**, once it is configured. -/
theorem runWorkload_of_configured (hkeeps : P.store.Keeps view) (hleads : Leads numbers env)
    (hconfigured : configOptions env P.options P.table P.read = some configured)
    (hprogress : isOn numbers .showProgress false = false)
    (hworkload : ∃ content, x.workload = some content ∧ IsWorkload ops content) (db : σ) :
    ∃ opened, runWorkload P env x db
        = .ok (finish P env configured x (replayed P env configured x ops opened))
      ∧ view opened = if isOn numbers .destroyDatabase true then fun _ ↦ none else view db := by
  obtain ⟨cached, -, -, hoptions⟩ := exists_of_configOptions hconfigured
  have hcreate : configured.options.createIfMissing = true := by
    rw [hoptions]
    exact hleads.createIfMissing
  obtain ⟨hok, hopened⟩ := hkeeps.openDB hcreate
    (if env.destroyDatabase then P.store.destroyDB configured.options db else db)
  refine ⟨(openStore P env configured.options db).2, ?_, ?_⟩
  · obtain ⟨content, hcontent, hops⟩ := hworkload
    have hreplay := replay_eq_foldl (P.store.calls configured) (env.replayEnv x)
      (hleads.showProgressBar.trans hprogress) hops (openStore P env configured.options db).2
    have hopens : ¬(openStore P env configured.options db).1 ≠ .ok := fun h ↦ h hok
    rw [runWorkload, hconfigured]
    dsimp only
    rw [if_neg hopens, hcontent, Option.getD_some, hreplay]
    rfl
  · rw [openStore, hopened, hleads.destroyDatabase]
    split_ifs
    · exact hkeeps.destroyDB _ _
    · rfl

/-- What the database holds at the end. -/
theorem view_finish (hkeeps : P.store.Keeps view) (hleads : Leads numbers env)
    (hconfigured : configOptions env P.options P.table P.read = some configured) (db : σ) :
    view (finish P env configured x (replayed P env configured x ops db)).db
      = ops.foldl Op.apply (view db) := by
  obtain ⟨cached, -, -, hoptions⟩ := exists_of_configOptions hconfigured
  have hshutdown : configured.options.avoidFlushDuringShutdown = false := by
    rw [hoptions]
    exact hleads.avoidFlushDuringShutdown
  have hmap := hkeeps.calls (comparator_of_configOptions hleads.comparator hconfigured)
  rw [finish, hkeeps.close hshutdown, hkeeps.getLiveFiles, replayed, db_foldl_turn]
  exact hmap.view_foldl ops db

/-- **What an execution is, from its arguments to its end.** -/
theorem exists_of_main (hkeeps : P.store.Keeps view) (hx : x.Spells numbers ops)
    (hprogress : isOn numbers .showProgress false = false) {db : σ} {finished : Finished σ}
    (h : main P x db = .ok finished) :
    ∃ env configured opened,
      parseArguments P.fp (CommandLine.ofArgs x.args) {} = some (.returned 0 env)
        ∧ Leads numbers env
        ∧ configOptions env P.options P.table P.read = some configured
        ∧ view opened = (if isOn numbers .destroyDatabase true then fun _ ↦ none else view db)
        ∧ finished = finish P env configured x (replayed P env configured x ops opened) := by
  have hline := hx.ofArgs_eq
  cases hassign : assignFlags P.fp (FlagValues.last numbers).flags {} with
  | none =>
    -- The size ratio cannot be converted, and the workload is not reached.
    have hnone : parseArguments P.fp (CommandLine.ofArgs x.args) {} = none := by
      rw [hline, parseArguments, hassign]
      rfl
    rw [main, hnone] at h
    exact absurd h (by simp)
  | some env =>
    have hparse : parseArguments P.fp (.flags (FlagValues.last numbers).flags) {}
        = some (.returned 0 env) := by
      rw [parseArguments, hassign]
      rfl
    have hleads := leads_of_parseArguments hparse
    rw [← hline] at hparse
    rw [main_of_accepted hparse] at h
    cases hconfigured : configOptions env P.options P.table P.read with
    | none =>
      -- The size of the block cache overflows.
      rw [runWorkload, hconfigured] at h
      exact absurd h (by simp)
    | some configured =>
      obtain ⟨opened, hrun, hopened⟩ :=
        runWorkload_of_configured hkeeps hleads hconfigured hprogress hx.workload db
      exact ⟨env, configured, opened, hparse, hleads, hconfigured, hopened,
        Except.ok.inj (h.symm.trans hrun)⟩

/-- **When the behaviour of the program is defined.** -/
theorem exists_main_iff (hkeeps : P.store.Keeps view) (hfp : P.fp.ExactOnInts)
    (hx : x.Spells numbers ops) (hprogress : isOn numbers .showProgress false = false) (db : σ) :
    (∃ finished, main P x db = .ok finished) ↔ Defined numbers := by
  constructor
  · rintro ⟨finished, h⟩
    obtain ⟨env, configured, -, hparse, hleads, hconfigured, -, -⟩ :=
      exists_of_main hkeeps hx hprogress h
    rw [hx.ofArgs_eq] at hparse
    exact ⟨(exists_leads_iff hfp).mp ⟨env, hparse⟩,
      hleads.blockCache.mp (exists_configOptions_iff.mp ⟨configured, hconfigured⟩)⟩
  · intro hdefined
    obtain ⟨env, hparse⟩ := (exists_leads_iff hfp).mpr hdefined.sizeRatio
    have hleads := leads_of_parseArguments hparse
    have hconfigures : ∃ configured, configOptions env P.options P.table P.read = some configured :=
      exists_configOptions_iff.mpr (hleads.blockCache.mpr hdefined.blockCache)
    obtain ⟨configured, hconfigured⟩ := hconfigures
    rw [← hx.ofArgs_eq] at hparse
    obtain ⟨opened, hrun, -⟩ :=
      runWorkload_of_configured hkeeps hleads hconfigured hprogress hx.workload db
    exact ⟨_, (main_of_accepted hparse db).trans hrun⟩

/-! ## What is left in the files -/

/-- A file at its end, in any run without failing writes that made these insertions. -/
def FileOf (l : List (Insertion UInt8 Format)) (content : Bytes) : Prop :=
  ∃ h s i b, (bufferSystem Format.init).Run WritesSucceed h s ∧ s.buffers[i]? = some b
    ∧ s.Ended b ∧ insertionsInto i h = l ∧ b.outputFile.content = content

/-- The records of the operations, if they are timed. -/
def Session.records (x : Session) (timed : Bool) (ops : List Op) : List TimingRecord :=
  if timed then recordsFrom ⟨true, false, x.duration, x.uninitialized⟩ 0 ops else []

theorem stats_replayed (hleads : Leads numbers env)
    (hprogress : isOn numbers .showProgress false = false) (db : σ) :
    (replayed P env configured x ops db).stats
      = x.records (isOn numbers .enablePerOpTime false) ops := by
  rw [Session.records, ← hleads.isPerOpTimer]
  cases htimer : env.isPerOpTimer with
  | false => exact stats_foldl_turn_of_off _ htimer ops _
  | true =>
    have henv : env.replayEnv x = ⟨true, false, x.duration, x.uninitialized⟩ := by
      rw [DBEnv.replayEnv, htimer, hleads.showProgressBar.trans hprogress]
    rw [replayed, henv, if_pos rfl]
    exact (stats_foldl_turn _ rfl ops _).trans (List.nil_append _)

theorem readStats_of_fileOf {timed : Bool} {content : Bytes}
    (h : FileOf (statsInsertions (x.records timed ops)) content) :
    readStats content = x.records timed ops := by
  obtain ⟨h, s, i, b, hrun, hb, hended, hinserted, rfl⟩ := h
  rw [(logInv_of_run hrun).content_of_ended hb hended, hinserted, content_statsInsertions]
  refine readStats_statsText fun record hrecord ↦ ?_
  rw [Session.records] at hrecord
  split_ifs at hrecord
  · exact isLabel_of_mem_recordsFrom hrecord
  · exact absurd hrecord List.not_mem_nil

/-- **The program, from its arguments to the files that it leaves.** For settings written with
numerals, in any spelling, and a workload file, without the progress display: the behaviour is
defined for the settings that `Defined` names. Then the program returns 0; the database holds what
the operations make of what it held, or of nothing; the records can be read from the stats log, and
the settings from the table in the workload log if this was asked for and they fit. -/
theorem main_of_spells (hkeeps : P.store.Keeps view) (hfp : P.fp.ExactOnInts)
    (hx : x.Spells numbers ops) (hprogress : isOn numbers .showProgress false = false) (db : σ) :
    ((∃ finished, main P x db = .ok finished) ↔ Defined numbers)
      ∧ ∀ finished, main P x db = .ok finished →
        finished.code = 0
        ∧ view finished.db = ops.foldl Op.apply
          (if isOn numbers .destroyDatabase true then fun _ ↦ none else view db)
        ∧ (∀ content, FileOf finished.stats content →
          readStats content = x.records (isOn numbers .enablePerOpTime false) ops)
        ∧ ∃ env, parseArguments P.fp (CommandLine.ofArgs x.args) {} = some (.returned 0 env)
          ∧ (0 < env.verbosity.val → ∀ content, FileOf finished.buffer content →
            (readTable content = [setupNames.map fun column ↦ ascii column.2.text,
                env.setupValues.map fun column ↦ ascii column.2.text] ↔ TableFits env)) := by
  refine ⟨exists_main_iff hkeeps hfp hx hprogress db, fun finished h ↦ ?_⟩
  obtain ⟨env, configured, opened, hparse, hleads, hconfigured, hopened, rfl⟩ :=
    exists_of_main hkeeps hx hprogress h
  refine ⟨rfl, ?_, fun content hcontent ↦ ?_, env, hparse, fun hverbosity content hcontent ↦ ?_⟩
  · rw [view_finish hkeeps hleads hconfigured, hopened]
  · have hstats : (finish P env configured x (replayed P env configured x ops opened)).stats
        = statsInsertions (x.records (isOn numbers .enablePerOpTime false) ops) :=
      congrArg statsInsertions (stats_replayed hleads hprogress opened)
    rw [hstats] at hcontent
    exact readStats_of_fileOf hcontent
  · obtain ⟨T, hratio⟩ := exists_sizeRatio_eq hparse
    obtain ⟨h, s, i, b, hrun, hb, hended, hinserted, rfl⟩ := hcontent
    exact readTable_eq_iff hratio hverbosity hrun hb hended hinserted

/-- On a database with an entry, which is kept. -/
theorem main_of_spells_small :
    ∃ finished content, main memoryPlatform
        (smallSession ["-d0", "--peroptime=1"] "I l w\nS a z") [([107], [118])] = .ok finished
      ∧ finished.code = 0 ∧ Entries.lookup finished.db [107] = some [118]
      ∧ Entries.lookup finished.db [108] = some [119]
      ∧ FileOf finished.stats content
      ∧ readStats content = [⟨"InsertTime: ", 1⟩, ⟨"ScanTime: ", 8⟩] := by
  obtain ⟨hdefined, hends⟩ := main_of_spells keeps_memoryPlatform exactOnInts_memoryPlatform
    spells_smallSession rfl [([107], [118])]
  obtain ⟨finished, h⟩ := hdefined.mpr defined_smallSession
  obtain ⟨hcode, hview, hstats, -⟩ := hends finished h
  obtain ⟨s, b, hrun, hb, hended⟩ := exists_run_lifetime Format.init 100 finished.stats
  have hfile : FileOf finished.stats b.outputFile.content :=
    ⟨_, s, 0, b, hrun, hb, hended, insertionsInto_lifetime _ _, rfl⟩
  refine ⟨finished, _, h, hcode, ?_, ?_, hfile, (hstats _ hfile).trans rfl⟩
  · rw [hview]
    rfl
  · rw [hview]
    rfl

/-! ## One execution after the other -/

/-- What an execution is for. -/
inductive Intent
  /-- Its command line is rejected. -/
  | rejected
  /-- Operations on what the database held, or on nothing. -/
  | run (destroy : Bool) (ops : List Op)

/-- What becomes of the content of the database. -/
def Intent.apply (content : Bytes → Option Bytes) : Intent → Bytes → Option Bytes
  | rejected => content
  | run destroy ops => ops.foldl Op.apply (if destroy then fun _ ↦ none else content)

/-- The arguments and the workload file of an execution, for what it is for. -/
inductive Session.Means (x : Session) : Intent → Prop
  | rejected : CommandLine.ofArgs x.args = .error → x.Means .rejected
  | run {numbers : List (Flag × ℤ)} {ops : List Op} : x.Spells numbers ops → Defined numbers →
      isOn numbers .showProgress false = false →
      x.Means (.run (isOn numbers .destroyDatabase true) ops)

/-- **One execution.** -/
theorem main_of_means (hkeeps : P.store.Keeps view) (hfp : P.fp.ExactOnInts) {intent : Intent}
    (h : x.Means intent) (db : σ) :
    ∃ finished, main P x db = .ok finished ∧ view finished.db = intent.apply (view db) := by
  cases h with
  | rejected herror =>
    refine ⟨⟨1, db, [], []⟩, ?_, rfl⟩
    rw [main, herror]
    rfl
  | run hx hdefined hprogress =>
    obtain ⟨finished, h⟩ := (exists_main_iff hkeeps hfp hx hprogress db).mpr hdefined
    obtain ⟨env, configured, opened, -, hleads, hconfigured, hopened, rfl⟩ :=
      exists_of_main hkeeps hx hprogress h
    exact ⟨_, h, by rw [view_finish hkeeps hleads hconfigured, hopened]; rfl⟩

/-- Executions, one after the other, on the same database. -/
def sessions (P : Platform σ) (xs : List Session) (db : σ) : Except Stuck σ :=
  xs.foldlM (fun db x ↦ (main P x db).map Finished.db) db

/-- **All executions.** The database holds what the operations of all of them make of each other, in
their order, from the last one on that destroyed it. Executions with a rejected command line leave
no trace in it. -/
theorem content_of_sessions (hkeeps : P.store.Keeps view) (hfp : P.fp.ExactOnInts)
    {xs : List Session} {intents : List Intent} (h : List.Forall₂ Session.Means xs intents)
    (db : σ) : ∃ db', sessions P xs db = .ok db'
      ∧ view db' = intents.foldl Intent.apply (view db) := by
  induction h generalizing db with
  | nil => exact ⟨db, rfl, rfl⟩
  | cons hx _ ih =>
    obtain ⟨finished, hmain, hview⟩ := main_of_means hkeeps hfp hx db
    obtain ⟨db', hdb', hview'⟩ := ih finished.db
    refine ⟨db', ?_, ?_⟩
    · rw [sessions, List.foldlM_cons, hmain]
      exact hdb'
    · rw [List.foldl_cons, ← hview, hview']

/-- A command line that is rejected, and an execution on what is there. -/
theorem content_of_sessions_small :
    ∃ db, sessions memoryPlatform [smallSession ["--nope"] "I k v",
        smallSession ["-d0", "--peroptime=1"] "I l w\nS a z"] [([107], [118])] = .ok db
      ∧ Entries.lookup db [107] = some [118] ∧ Entries.lookup db [108] = some [119] := by
  have hmeans : List.Forall₂ Session.Means [smallSession ["--nope"] "I k v",
      smallSession ["-d0", "--peroptime=1"] "I l w\nS a z"]
      [.rejected, .run false [.insert [108] [119], .scan [97] [122]]] :=
    .cons (.rejected rfl) (.cons (.run spells_smallSession defined_smallSession rfl) .nil)
  obtain ⟨db, hdb, hview⟩ := content_of_sessions keeps_memoryPlatform exactOnInts_memoryPlatform
    hmeans [([107], [118])]
  refine ⟨db, hdb, ?_, ?_⟩
  · rw [hview]
    rfl
  · rw [hview]
    rfl

end

end WorkloadAwareCompaction
