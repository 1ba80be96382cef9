import WorkloadAwareCompaction.Replay.OrderedMap
import WorkloadAwareCompaction.Replay.Passes

/-!
# Replay executes exactly the workload

A workload is a list of operations. Its file has one line for each operation, whose words are the
operation's letter, its keys and its value, with any white space around them; the newline of the
last line may be missing.

Decoding undoes this rendering line by line (`execute_renders`), and the loop visits every line
once, whether or not the file ends with a newline (`loop_renders`). The database calls made on the
way are recorded by an instrumented database (`Database.traced`).
-/

namespace WorkloadAwareCompaction

open CharStream

/-! ## Operations and their rendering -/

inductive Op
  | insert (key value : Bytes)
  | update (key value : Bytes)
  | pointDelete (key : Bytes)
  /-- Written `P` by tectonic, and `Q` otherwise. -/
  | pointQuery (tectonic : Bool) (key : Bytes)
  | scan (start stop : Bytes)
  | rangeDelete (start stop : Bytes)
  deriving DecidableEq

namespace Op

def letter : Op → Char
  | insert _ _ => 'I'
  | update _ _ => 'U'
  | pointDelete _ => 'D'
  | pointQuery tectonic _ => if tectonic then 'P' else 'Q'
  | scan _ _ => 'S'
  | rangeDelete _ _ => 'R'

def args : Op → List Bytes
  | insert key value => [key, value]
  | update key value => [key, value]
  | pointDelete key => [key]
  | pointQuery _ key => [key]
  | scan start stop => [start, stop]
  | rangeDelete start stop => [start, stop]

/-- The words of the operation's line. -/
def words (op : Op) : List Bytes := [op.letter.toUInt8] :: op.args

/-- Keys and values are not empty and hold no white space. -/
def WellFormed (op : Op) : Prop := ∀ arg ∈ op.args, arg ≠ [] ∧ ∀ c ∈ arg, isSpace c = false

instance : DecidablePred WellFormed := fun op ↦
  inferInstanceAs (Decidable (∀ arg ∈ op.args, arg ≠ [] ∧ ∀ c ∈ arg, isSpace c = false))

/-- A line of the workload file that stands for the operation. -/
def IsLine (op : Op) (line : Bytes) : Prop := Renders isSpace op.words line ∧ newline ∉ line

theorem IsLine.ne_nil {op : Op} {line : Bytes} (h : op.IsLine line) : line ≠ [] :=
  List.isEmpty_eq_false_iff.mp h.1.isEmpty_eq_false

end Op

theorem forall_line_of_isLine {ops : List Op} {lines : List Bytes}
    (h : List.Forall₂ Op.IsLine ops lines) : ∀ line ∈ lines, line ≠ [] ∧ newline ∉ line := by
  induction h with
  | nil => exact fun line hmem ↦ absurd hmem List.not_mem_nil
  | cons hop _ ih => exact List.forall_mem_cons.mpr ⟨⟨hop.ne_nil, hop.2⟩, ih⟩

/-- A workload file for the operations, with or without a newline at its end. -/
def IsWorkload (ops : List Op) (content : Bytes) : Prop :=
  ∃ lines, List.Forall₂ Op.IsLine ops lines ∧ IsText newline lines content

/-- The operation's words with one blank between them. -/
def Op.render (op : Op) : Bytes := [32].intercalate op.words

theorem Op.WellFormed.words {op : Op} (h : op.WellFormed) :
    ∀ word ∈ op.words, word ≠ [] ∧ ∀ c ∈ word, isSpace c = false := by
  refine List.forall_mem_cons.mpr ⟨⟨List.cons_ne_nil _ _, ?_⟩, h⟩
  rw [List.forall_mem_singleton]
  cases op with
  | pointQuery tectonic key => cases tectonic <;> rfl
  | _ => rfl

theorem Op.WellFormed.isLine_render {op : Op} (h : op.WellFormed) : op.IsLine op.render := by
  refine ⟨renders_intercalate rfl h.words, fun hmem ↦ ?_⟩
  rcases mem_intercalate hmem with hblank | ⟨word, hword, hmem⟩
  · exact absurd hblank (by decide)
  · exact absurd ((h.words word hword).2 newline hmem) (by decide)

/-- Every list of operations has a workload file, with and without a newline at its end. -/
theorem isWorkload_render {ops : List Op} (h : ∀ op ∈ ops, op.WellFormed) {content : Bytes}
    (hcontent : IsText newline (ops.map Op.render) content) : IsWorkload ops content := by
  refine ⟨_, ?_, hcontent⟩
  rw [List.forall₂_map_right_iff, List.forall₂_same]
  exact fun op hop ↦ (h op hop).isLine_render

/-! ## Decoding one line -/

section

variable {σ : Type} (D : Database σ) (env : ReplayEnv)

/-- What the loop body is meant to do for an operation. -/
def Op.execute : Op → Replay σ → Replay σ
  | insert key value => executeInsert D env key value
  | update key value => executeUpdate D env key value
  | pointDelete key => executePointDelete D env key
  | pointQuery _ key => executePointQuery D env key
  | scan start stop => executeScan D env start stop
  | rangeDelete start stop => executeRangeDelete D start stop

theorem extractString_renders {word rest : Bytes} {words : List Bytes}
    (h : Renders isSpace (word :: words) rest) :
    ∃ rest', extractString (.ofList rest) = (word, ⟨rest', rest'.isEmpty, false⟩)
      ∧ Renders isSpace words rest' := by
  cases h with
  | cons hgap hne hword hhead hrest =>
    refine ⟨_, ?_, hrest⟩
    rw [extractString, getWord_word hgap hne hword hhead]
    rfl

/-- The operation character of a line. -/
theorem getChar_renders {c : UInt8} {line : Bytes} {words : List Bytes}
    (h : Renders isSpace ([c] :: words) line) :
    ∃ rest, (IStream.ofList line).getChar isSpace = (some c, .ofList rest)
      ∧ Renders isSpace words rest := by
  obtain ⟨rest, hdrop, hrest⟩ := h.dropWhile_eq
  exact ⟨rest, getChar_cons hdrop, hrest⟩

theorem extractString_first {word rest : Bytes} {words : List Bytes}
    (h : Renders isSpace (word :: words) rest) : (extractString (.ofList rest)).1 = word := by
  obtain ⟨rest', hfirst, -⟩ := extractString_renders h
  rw [hfirst]

/-- The first extraction leaves the stream good, as something follows the first word. -/
theorem extractString_second {word word' rest : Bytes} {words : List Bytes}
    (h : Renders isSpace (word :: word' :: words) rest) :
    (extractString (extractString (.ofList rest)).2).1 = word' := by
  obtain ⟨rest', hfirst, hrest⟩ := extractString_renders h
  rw [hfirst, hrest.isEmpty_eq_false]
  exact extractString_first hrest

theorem Op.ofNat_letter (op : Op) : Char.ofNat op.letter.toUInt8.toNat = op.letter := by
  cases op with
  | pointQuery tectonic key => cases tectonic <;> rfl
  | _ => rfl

/-- **Decoding undoes rendering.** -/
theorem execute_renders {op : Op} {line : Bytes} (h : Renders isSpace op.words line)
    (st : Replay σ) : execute D env line st = op.execute D env st := by
  obtain ⟨rest, hchar, hrest⟩ := getChar_renders h
  simp only [execute, hchar, Option.getD_some, Op.ofNat_letter]
  cases op with
  | insert key value =>
    rw [extractString_first hrest, extractString_second hrest]
    rfl
  | update key value =>
    rw [extractString_first hrest, extractString_second hrest]
    rfl
  | pointDelete key =>
    rw [extractString_first hrest]
    rfl
  | pointQuery tectonic key =>
    rw [extractString_first hrest]
    cases tectonic <;> rfl
  | scan start stop =>
    rw [extractString_first hrest, extractString_second hrest]
    rfl
  | rangeDelete start stop =>
    rw [extractString_first hrest, extractString_second hrest]
    rfl

/-! ## The loop -/

/-- One turn of the replay loop with the progress display off. -/
def Op.turn (op : Op) (st : Replay σ) : Replay σ :=
  let st := op.execute D env st
  { st with ithOp := st.ithOp + 1 }

theorem iteration_renders (hprogress : env.isShowProgress = false) {op : Op} {line : Bytes}
    (h : Renders isSpace op.words line) (st : Replay σ) :
    iteration D env 0 line st = .ok (op.turn D env st) := by
  rw [iteration_of_quiet D hprogress, ← ithOp_execute D env line, execute_renders D env h]
  rfl

/-- The loop body runs once for each line, whatever the end of the file looks like. -/
theorem loop_renders (hprogress : env.isShowProgress = false) {ops : List Op} {lines : List Bytes}
    {content : Bytes} (hlines : List.Forall₂ Op.IsLine ops lines)
    (hcontent : IsText newline lines content) {fuel : ℕ} (hfuel : content.length < fuel)
    (st : Replay σ) :
    loop D env 0 fuel (.ofList content) st = .ok (ops.foldl (fun st op ↦ op.turn D env st) st) := by
  have hline := forall_line_of_isLine hlines
  have hreplayed : replayedLines content = lines := by
    rw [replayedLines, hcontent.linesOf_eq hline]
    exact List.takeWhile_eq_self_iff.mpr fun line hmem ↦ by simpa using (hline line hmem).1
  rw [loop_eq D env hfuel, hreplayed]
  clear hcontent hreplayed hline
  induction hlines generalizing st with
  | nil => rfl
  | @cons op line ops lines hop _ ih =>
    rw [List.foldlM_cons, iteration_renders D env hprogress hop.1, List.foldl_cons]
    exact ih _

end

/-! ## The calls -/

/-- A call of the database. A scan is a `Seek` and the number of `Next` calls after it. -/
inductive DbCall
  | put (key value : Bytes)
  | delete (key : Bytes)
  | get (key : Bytes)
  | scan (start : Bytes) (steps : ℕ)
  | deleteRange (start stop : Bytes)
  deriving DecidableEq

section

variable {σ : Type} (D : Database σ)

/-- The state a call leaves. -/
def DbCall.run : DbCall → σ → σ
  | put key value, db => (D.put key value db).2
  | delete key, db => (D.delete key db).2
  | get key, db => (D.get key db).2
  | scan start steps, db => D.iterated start steps db
  | deleteRange start stop, db => (D.deleteRange start stop db).2

/-- The database that also records the calls it receives. -/
def Database.traced : Database (σ × List DbCall) where
  put key value db := let r := D.put key value db.1; (r.1, r.2, db.2 ++ [.put key value])
  delete key db := let r := D.delete key db.1; (r.1, r.2, db.2 ++ [.delete key])
  get key db := let r := D.get key db.1; (r.1, r.2, db.2 ++ [.get key])
  deleteRange start stop db :=
    let r := D.deleteRange start stop db.1; (r.1, r.2, db.2 ++ [.deleteRange start stop])
  seek start db := D.seek start db.1
  iterated start steps db := (D.iterated start steps db.1, db.2 ++ [.scan start steps])

/-- The one call an operation stands for. A scan steps over the keys below its end and stops at the
first that is not. -/
def Op.call (db : σ) : Op → DbCall
  | insert key value => .put key value
  | update key value => .put key value
  | pointDelete key => .delete key
  | pointQuery _ key => .get key
  | scan start stop => .scan start ((D.seek start db).keys.takeWhile fun key ↦ key < stop).length
  | rangeDelete start stop => .deleteRange start stop

/-- Perform the operation's call and write it down. -/
def Op.perform (db : σ × List DbCall) (op : Op) : σ × List DbCall :=
  ((op.call D db.1).run D db.1, db.2 ++ [op.call D db.1])

variable (env : ReplayEnv)

/-- On the database itself an operation is its one call. -/
theorem Op.db_execute (op : Op) (st : Replay σ) :
    (op.execute D env st).db = (op.call D st.db).run D st.db := by
  cases op with
  | insert key value => exact db_executeInsert D env key value st
  | update key value => exact db_executeUpdate D env key value st
  | pointDelete key => exact db_executePointDelete D env key st
  | pointQuery tectonic key => exact db_executePointQuery D env key st
  | scan start stop =>
    rw [call, ← scanLoop_eq_length_takeWhile]
    exact db_executeScan D env start stop st
  | rangeDelete start stop => rfl

/-- The replay of a workload, as a fold of the loop body over its operations. -/
theorem replay_eq_foldl (hprogress : env.isShowProgress = false) {ops : List Op} {content : Bytes}
    (h : IsWorkload ops content) (db : σ) :
    replay D env content db = .ok (ops.foldl (fun st op ↦ op.turn D env st) (.init db)) := by
  obtain ⟨lines, hlines, hcontent⟩ := h
  have hcount : countOperations env content = .ok 0 := by
    rw [countOperations, hprogress]
    rfl
  rw [replay, hcount]
  exact loop_renders D env hprogress hlines hcontent (Nat.lt_succ_self _) _

/-- What the database has become after the turns. -/
theorem db_foldl_turn (ops : List Op) (st : Replay σ) :
    (ops.foldl (fun st op ↦ op.turn D env st) st).db
      = ops.foldl (fun db op ↦ (op.call D db).run D db) st.db := by
  induction ops generalizing st with
  | nil => rfl
  | cons op ops ih =>
    rw [List.foldl_cons, List.foldl_cons, ih]
    congr 1
    exact op.db_execute D env st

/-- On the instrumented database an operation is its call, written down. -/
theorem Op.run_call_traced (op : Op) (db : σ × List DbCall) :
    (op.call D.traced db).run D.traced db = op.perform D db := by
  cases op <;> rfl

theorem db_foldl_turn_traced (ops : List Op) (st : Replay (σ × List DbCall)) :
    (ops.foldl (fun st op ↦ op.turn D.traced env st) st).db = ops.foldl (Op.perform D) st.db := by
  rw [db_foldl_turn]
  congr 1
  funext db op
  exact op.run_call_traced D db

end

/-! ## The content of the database -/

/-- What an operation is for. -/
def Op.apply (content : Bytes → Option Bytes) : Op → Bytes → Option Bytes
  | insert key value => Function.update content key (some value)
  | update key value => Function.update content key (some value)
  | pointDelete key => Function.update content key none
  | pointQuery _ _ => content
  | scan _ _ => content
  | rangeDelete start stop => fun key ↦ if start ≤ key ∧ key < stop then none else content key

section

variable {σ : Type} {D : Database σ} {view : σ → Bytes → Option Bytes}

theorem OrderedMap.view_run (h : OrderedMap D view) (op : Op) (db : σ) :
    view ((op.call D db).run D db) = op.apply (view db) := by
  cases op with
  | insert key value => exact h.put key value db
  | update key value => exact h.put key value db
  | pointDelete key => exact h.delete key db
  | pointQuery tectonic key => exact h.get key db
  | scan start stop => exact h.iterated start _ db
  | rangeDelete start stop => exact h.deleteRange start stop db

theorem OrderedMap.view_foldl (h : OrderedMap D view) (ops : List Op) (db : σ) :
    view (ops.foldl (fun db op ↦ (op.call D db).run D db) db) = ops.foldl Op.apply (view db) := by
  induction ops generalizing db with
  | nil => rfl
  | cons op ops ih => rw [List.foldl_cons, List.foldl_cons, ih, h.view_run op db]

end

/-- **Replay executes exactly the workload.** The recorded calls are those of the operations, in
their order, one each; and a database that is an ordered map ends with the fold of the operations.
-/
theorem replay_performs {σ : Type} (D : Database σ) (env : ReplayEnv)
    (hprogress : env.isShowProgress = false) {ops : List Op} {content : Bytes}
    (h : IsWorkload ops content) (db : σ) :
    (∃ st, replay D.traced env content (db, []) = .ok st
        ∧ st.db = ops.foldl (Op.perform D) (db, []))
      ∧ ∃ st, replay D env content db = .ok st
        ∧ ∀ view, OrderedMap D view → view st.db = ops.foldl Op.apply (view db) := by
  refine ⟨⟨_, replay_eq_foldl D.traced env hprogress h (db, []), ?_⟩,
    ⟨_, replay_eq_foldl D env hprogress h db, fun view hview ↦ ?_⟩⟩
  · exact db_foldl_turn_traced D env ops _
  · rw [db_foldl_turn]
    exact hview.view_foldl ops db

/-- A file without a newline at its end, replayed on an empty database. -/
theorem replay_performs_small :
    let content : Bytes := "I k v\nP k\nS a z\nR a b\nD k".toList.map Char.toUInt8
    let env : ReplayEnv := ⟨true, false, fun _ ↦ 5, 0⟩
    (∃ st, replay memoryDatabase.traced env content ([], []) = .ok st
        ∧ st.db = ([], [.put [107] [118], .get [107], .scan [97] 1, .deleteRange [97] [98],
          .delete [107]]))
      ∧ ∃ st, replay memoryDatabase env content [] = .ok st
        ∧ Entries.lookup st.db = fun _ ↦ none := by
  intro content env
  have h : IsWorkload [.insert [107] [118], .pointQuery true [107], .scan [97] [122],
      .rangeDelete [97] [98], .pointDelete [107]] content :=
    isWorkload_render (by decide +kernel) (Or.inr (by decide +kernel))
  obtain ⟨⟨st, hst, hcalls⟩, st', hst', hview⟩ := replay_performs memoryDatabase env rfl h []
  refine ⟨⟨st, hst, hcalls.trans (by decide +kernel)⟩, st', hst', ?_⟩
  rw [hview _ orderedMap_memoryDatabase]
  funext key
  by_cases hkey : key = [107]
  · simp [Op.apply, hkey]
  · simp [Op.apply, Function.update_of_ne hkey, Entries.lookup]

end WorkloadAwareCompaction
