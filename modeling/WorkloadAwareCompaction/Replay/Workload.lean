import WorkloadAwareCompaction.Library.Binary64
import WorkloadAwareCompaction.Library.CharStream
import WorkloadAwareCompaction.Library.MachineInt
import WorkloadAwareCompaction.Tree.Metadata

/-!
# The workload interpreter

`runWorkload` reads `workload.txt` line by line, decodes one operation from each line and calls the
database. This file embeds its two passes over the file: the count of the lines, made when the
progress display is on, and the replay loop with everything it writes, which are the last status,
the two logs, the five totals, the operation count and the progress bar.

The database is a parameter. Its calls return a status and a new state, whatever these are; an
iterator placed by `Seek` is the list of the keys it enumerates from there on.

Three things of the source have no value in Lean: the content of `operation` when nothing could be
extracted into it, which is a parameter; the remainder modulo 0 in `UpdateProgressBar` and the
conversion to `size_t` of a `double` that it cannot hold, which make the result `undefined`. The
position of the progress bar is computed in `double`, with a rounding after each operation
(`Binary64.round`). The loops carry fuel; one more than the length of the file is always enough
(`loop_ne_outOfFuel`).
-/

namespace WorkloadAwareCompaction

open CharStream MachineInt

/-! ## The database -/

/-- A byte string, `std::string`. -/
abbrev Bytes := List UInt8

/-- An iterator after `Seek`. -/
structure IteratorRun where
  /-- The keys it stands on, one after the other. -/
  keys : List Bytes
  /-- Its status after a number of `Next` calls. -/
  status : ℕ → Status

/-- The database calls of the replay. -/
structure Database (σ : Type) where
  put : (key value : Bytes) → σ → Status × σ
  delete : (key : Bytes) → σ → Status × σ
  get : (key : Bytes) → σ → Status × σ
  deleteRange : (start stop : Bytes) → σ → Status × σ
  seek : (start : Bytes) → σ → IteratorRun
  /-- The state once an iterator was placed by `Seek`, advanced that often, and deleted. -/
  iterated : (start : Bytes) → ℕ → σ → σ

/-! ## What the replay keeps -/

/-- `<label><count>` in the stats log. -/
structure TimingRecord where
  label : String
  count : ℤ
  deriving DecidableEq

/-- A line of the workload log. -/
inductive LogLine
  | text (line : String)
  /-- `Status::ToString`. -/
  | status (s : Status)
  deriving DecidableEq

/-- What the environment decides about a replay. -/
structure ReplayEnv where
  isPerOpTimer : Bool
  isShowProgress : Bool
  /-- The duration measured in the iteration with this number, in nanoseconds. -/
  duration : ℕ → ℤ
  /-- The content of `operation` when its extraction failed. -/
  uninitialized : UInt8

structure Replay (σ : Type) where
  db : σ
  s : Status
  stats : List TimingRecord
  buffer : List LogLine
  insertsExecTime : ℕ
  updatesExecTime : ℕ
  pqExecTime : ℕ
  pdeleteExecTime : ℕ
  rqExecTime : ℕ
  ithOp : ℕ
  /-- The positions of the progress bars drawn. -/
  bars : List ℕ

/-- The state before the loop, after a successful `DB::Open`. -/
def Replay.init {σ : Type} (db : σ) : Replay σ := ⟨db, .ok, [], [], 0, 0, 0, 0, 0, 0, []⟩

/-- `unsigned long += long long`. -/
def addTime (total : ℕ) (duration : ℤ) : ℕ := ((total + duration) % 2 ^ 64).toNat

inductive Stuck
  | undefined
  | outOfFuel
  deriving DecidableEq

/-! ## Lines -/

/-- `isspace` in the `"C"` locale. -/
def isSpace (c : UInt8) : Bool := c = 32 || 9 ≤ c && c ≤ 13

def newline : UInt8 := 10

/-- `std::string key; stream >> key;` -/
def extractString (stream : IStream UInt8) : Bytes × IStream UInt8 :=
  ((stream.getWord isSpace).1.getD [], (stream.getWord isSpace).2)

/-- The scan loop: how often `Next` is called before the iterator stands on a key that is not below
`end_key`, or is no longer valid. -/
def scanLoop (endKey : Bytes) : List Bytes → ℕ
  | [] => 0
  | key :: keys => if key ≥ endKey then 0 else scanLoop endKey keys + 1

section

variable {σ : Type} (D : Database σ) (env : ReplayEnv)

/-- What follows a database call when operations are timed: a record in the stats log, and the
duration added to a total. -/
def timed (label : String) (addTo : ℤ → Replay σ → Replay σ) (st : Replay σ) : Replay σ :=
  if env.isPerOpTimer then
    let duration := env.duration st.ithOp
    addTo duration { st with stats := st.stats ++ [⟨label, duration⟩] }
  else st

/-- Timing leaves the database alone. -/
theorem db_timed (label : String) {addTo : ℤ → Replay σ → Replay σ}
    (haddTo : ∀ d st, (addTo d st).db = st.db) (st : Replay σ) :
    (timed env label addTo st).db = st.db := by
  rw [timed]
  split_ifs
  · exact haddTo _ _
  · rfl

def executeInsert (key value : Bytes) (st : Replay σ) : Replay σ :=
  let result := D.put key value st.db
  timed env "InsertTime: " (fun d st ↦ { st with insertsExecTime := addTime st.insertsExecTime d })
    { st with s := result.1, db := result.2 }

@[simp] theorem db_executeInsert (key value : Bytes) (st : Replay σ) :
    (executeInsert D env key value st).db = (D.put key value st.db).2 := by
  simp [executeInsert, db_timed]

def executeUpdate (key value : Bytes) (st : Replay σ) : Replay σ :=
  let result := D.put key value st.db
  timed env "UpdateTime: " (fun d st ↦ { st with updatesExecTime := addTime st.updatesExecTime d })
    { st with s := result.1, db := result.2 }

@[simp] theorem db_executeUpdate (key value : Bytes) (st : Replay σ) :
    (executeUpdate D env key value st).db = (D.put key value st.db).2 := by
  simp [executeUpdate, db_timed]

def executePointDelete (key : Bytes) (st : Replay σ) : Replay σ :=
  let result := D.delete key st.db
  timed env "DeleteTime: " (fun d st ↦ { st with pdeleteExecTime := addTime st.pdeleteExecTime d })
    { st with s := result.1, db := result.2 }

@[simp] theorem db_executePointDelete (key : Bytes) (st : Replay σ) :
    (executePointDelete D env key st).db = (D.delete key st.db).2 := by
  simp [executePointDelete, db_timed]

def executePointQuery (key : Bytes) (st : Replay σ) : Replay σ :=
  let result := D.get key st.db
  timed env "GetTime: " (fun d st ↦ { st with pqExecTime := addTime st.pqExecTime d })
    { st with s := result.1, db := result.2 }

@[simp] theorem db_executePointQuery (key : Bytes) (st : Replay σ) :
    (executePointQuery D env key st).db = (D.get key st.db).2 := by
  simp [executePointQuery, db_timed]

/-- The status of the iterator goes to the log, not to `s`. -/
def executeScan (startKey endKey : Bytes) (st : Replay σ) : Replay σ :=
  let it := D.seek startKey st.db
  let steps := scanLoop endKey it.keys
  let status := it.status steps
  timed env "ScanTime: " (fun d st ↦ { st with rqExecTime := addTime st.rqExecTime d })
    { st with
      db := D.iterated startKey steps st.db
      buffer := if status ≠ .ok then st.buffer ++ [.status status] else st.buffer }

@[simp] theorem db_executeScan (startKey endKey : Bytes) (st : Replay σ) :
    (executeScan D env startKey endKey st).db
      = D.iterated startKey (scanLoop endKey (D.seek startKey st.db).keys) st.db := by
  simp [executeScan, db_timed]

/-- Range deletes are not timed. -/
def executeRangeDelete (startKey endKey : Bytes) (st : Replay σ) : Replay σ :=
  let result := D.deleteRange startKey endKey st.db
  { st with s := result.1, db := result.2 }

/-- The switch over the operation character, on the line it was extracted from. -/
def execute (line : Bytes) (st : Replay σ) : Replay σ :=
  let operation := (IStream.ofList line).getChar isSpace
  let first := extractString operation.2
  let second := extractString first.2
  match Char.ofNat (operation.1.getD env.uninitialized).toNat with
  | 'I' => executeInsert D env first.1 second.1 st
  | 'U' => executeUpdate D env first.1 second.1 st
  | 'D' => executePointDelete D env first.1 st
  | 'P' => executePointQuery D env first.1 st
  | 'Q' => executePointQuery D env first.1 st
  | 'S' => executeScan D env first.1 second.1 st
  | 'R' => executeRangeDelete D first.1 second.1 st
  | _ => { st with buffer := st.buffer ++ [.text "ERROR: Case match NOT found !!"] }

end

/-! ## The progress bar -/

/-- The number of operations as the `int` it is cast to. -/
def asInt (totalOperations : ℕ) : ℤ := Int.bmod totalOperations (2 ^ 32)

/-- The conversion of a `double` to a `size_t`, undefined out of range. -/
def toSizeT (x : ℚ) : Except Stuck ℕ :=
  let n := x.num.tdiv x.den
  if IntType.sizeT.InRange n then .ok n.toNat else .error .undefined

/-- `(int)total_operations * 0.02` as a `size_t`, with `0.02` read as the exact fraction. -/
def progressInterval (totalOperations : ℕ) : Except Stuck ℕ :=
  toSizeT (Binary64.round (asInt totalOperations * (1 / 50)))

/-- `bar_width * progress`, in `double`. The product with the quotient of 29 and 50 falls short of
29 for a width of 50. -/
def scaledProgress (barWidth total current : ℕ) : ℚ :=
  let progress := Binary64.round (Binary64.round current / Binary64.round total)
  Binary64.round (Binary64.round barWidth * progress)

/-- `UpdateProgressBar`: the position of the bar it draws, if it draws one. A quotient by 0 is not a
number, or infinite, and has no position. -/
def updateProgressBar (env : ReplayEnv) (current total updateInterval barWidth : ℕ) :
    Except Stuck (List ℕ) :=
  if env.isShowProgress then
    if updateInterval = 0 then .error .undefined
    else if current % updateInterval = 0 ∨ current = total then
      if total = 0 then .error .undefined
      else do
        let pos ← toSizeT (scaledProgress barWidth total current)
        .ok [pos]
    else .ok []
  else .ok []

/-! ## The two passes -/

/-- The first pass. -/
def countLines : ℕ → IStream UInt8 → ℕ → Except Stuck ℕ
  | 0, _, _ => .error .outOfFuel
  | fuel + 1, file, totalOperations =>
    match file.getline newline with
    | (none, _) => .ok totalOperations
    | (some _, file) => countLines fuel file (totalOperations + 1)

section

variable {σ : Type} (D : Database σ) (env : ReplayEnv)

/-- The body of the replay loop on a line that is not empty. -/
def iteration (totalOperations : ℕ) (line : Bytes) (st : Replay σ) : Except Stuck (Replay σ) := do
  let st := execute D env line st
  let st := { st with ithOp := st.ithOp + 1 }
  let interval ← progressInterval totalOperations
  let bars ← updateProgressBar env st.ithOp totalOperations interval 50
  .ok { st with bars := st.bars ++ bars }

/-- The replay loop. -/
def loop (totalOperations : ℕ) : ℕ → IStream UInt8 → Replay σ → Except Stuck (Replay σ)
  | 0, _, _ => .error .outOfFuel
  | fuel + 1, file, st =>
    match file.getline newline with
    | (none, _) => .ok st
    | (some line, file) =>
      if line.isEmpty then .ok st
      else do
        let next := file.peek
        let isLastLine := next.1.isNone
        let st ← iteration D env totalOperations line st
        if isLastLine then .ok st else loop totalOperations fuel next.2 st

/-- `total_operations`: the lines of the file when the progress display is on. -/
def countOperations (content : Bytes) : Except Stuck ℕ :=
  if env.isShowProgress then countLines (content.length + 1) (.ofList content) 0 else .ok 0

/-- The two passes of `runWorkload` over the content of the workload file. -/
def replay (content : Bytes) (db : σ) : Except Stuck (Replay σ) := do
  let totalOperations ← countOperations env content
  loop D env totalOperations (content.length + 1) (.ofList content) (.init db)

/-! ## The fuel is enough -/

theorem bind_ne_error {α β : Type} {stuck : Stuck} {x : Except Stuck α} {f : α → Except Stuck β}
    (hx : x ≠ .error stuck) (hf : ∀ a, f a ≠ .error stuck) : (x >>= f) ≠ .error stuck := by
  cases x with
  | error stuck' => exact fun h ↦ hx (congrArg Except.error (Except.error.inj h))
  | ok a => exact hf a

theorem bind_eq_ok {α β : Type} {x : Except Stuck α} {f : α → Except Stuck β} {b : β}
    (h : (x >>= f) = .ok b) : ∃ a, x = .ok a ∧ f a = .ok b := by
  cases x with
  | error stuck => exact absurd h (by simp [bind, Except.bind])
  | ok a => exact ⟨a, rfl, h⟩

/-- A computation that evaluates has a result. -/
theorem exists_ok_of_toOption {α β : Type} {x : Except Stuck α} {f : α → β} {b : β}
    (h : x.toOption.map f = some b) : ∃ a, x = .ok a ∧ f a = b := by
  cases x with
  | error stuck => exact absurd h (by simp [Except.toOption])
  | ok a => exact ⟨a, rfl, Option.some.inj h⟩

/-- What every successful turn of a loop keeps holds after the loop. -/
theorem foldlM_ok {α β : Type} {f : β → α → Except Stuck β} {I : β → Prop}
    (hstep : ∀ {b a b'}, f b a = .ok b' → I b → I b') {l : List α} {b b' : β}
    (h : l.foldlM f b = .ok b') (hb : I b) : I b' := by
  induction l generalizing b with
  | nil =>
    obtain rfl := Except.ok.inj h
    exact hb
  | cons a l ih =>
    rw [List.foldlM_cons] at h
    obtain ⟨b₁, hb₁, h⟩ := bind_eq_ok h
    exact ih h (hstep hb₁ hb)

theorem countLines_ne_outOfFuel {fuel : ℕ} {file : IStream UInt8} (h : file.rest.length < fuel)
    (total : ℕ) : countLines fuel file total ≠ .error .outOfFuel := by
  induction fuel generalizing file total with
  | zero => exact absurd h (Nat.not_lt_zero _)
  | succ fuel ih =>
    rw [countLines]
    split
    · simp
    · rename_i hline
      have := length_rest_getline_lt hline
      exact ih (by omega) _

theorem toSizeT_ne_outOfFuel (x : ℚ) : toSizeT x ≠ .error .outOfFuel := by
  rw [toSizeT]
  split_ifs <;> simp

theorem updateProgressBar_ne_outOfFuel (current total updateInterval barWidth : ℕ) :
    updateProgressBar env current total updateInterval barWidth ≠ .error .outOfFuel := by
  rw [updateProgressBar]
  split_ifs
  · simp
  · simp
  · exact bind_ne_error (toSizeT_ne_outOfFuel _) fun pos ↦ by simp
  · simp
  · simp

theorem iteration_ne_outOfFuel (total : ℕ) (line : Bytes) (st : Replay σ) :
    iteration D env total line st ≠ .error .outOfFuel :=
  bind_ne_error (toSizeT_ne_outOfFuel _) fun _ ↦
    bind_ne_error (updateProgressBar_ne_outOfFuel env _ _ _ _) fun _ ↦ by simp

theorem loop_ne_outOfFuel {fuel : ℕ} {file : IStream UInt8} (h : file.rest.length < fuel)
    (total : ℕ) (st : Replay σ) : loop D env total fuel file st ≠ .error .outOfFuel := by
  induction fuel generalizing file st with
  | zero => exact absurd h (Nat.not_lt_zero _)
  | succ fuel ih =>
    rw [loop]
    split
    · simp
    · rename_i line file' hline
      have hlt := length_rest_getline_lt hline
      split_ifs
      · simp
      · refine bind_ne_error (iteration_ne_outOfFuel D env total line st) fun st' ↦ ?_
        split_ifs
        · simp
        · exact ih (by rw [rest_peek]; omega) st'

/-- The replay always ends. -/
theorem replay_ne_outOfFuel (content : Bytes) (db : σ) :
    replay D env content db ≠ .error .outOfFuel := by
  have hlt : (IStream.ofList content).rest.length < content.length + 1 := Nat.lt_succ_self _
  refine bind_ne_error ?_ fun total ↦ loop_ne_outOfFuel D env hlt total _
  rw [countOperations]
  split_ifs
  · exact countLines_ne_outOfFuel hlt 0
  · simp

end

end WorkloadAwareCompaction
