import Mathlib.Data.Int.ModEq
import WorkloadAwareCompaction.Replay.RoundTrip

/-!
# Per-operation timing

With per-operation timing on, the cases of the switch write the measured duration to the stats log
under the tag of the operation, and add it to one of five totals, which are printed after the loop.

The totals always agree with the records: whatever the operations, each is the sum of the records
under its tag (`TotalsMatch.foldl`). That every operation has a record is another matter, as the
case of range deletes writes none.
-/

namespace WorkloadAwareCompaction

/-! ## The totals printed after the loop -/

section

variable {σ : Type}

/-- The totals in the order of their lines, each with the text before it. -/
def Replay.printedTotals (st : Replay σ) : List (String × ℕ) :=
  [("Inserts Execution Time: ", st.insertsExecTime),
    ("Updates Execution Time: ", st.updatesExecTime),
    ("PointQuery Execution Time: ", st.pqExecTime),
    ("PointDelete Execution Time: ", st.pdeleteExecTime),
    ("RangeQuery Execution Time: ", st.rqExecTime)]

/-- The line of a total. -/
def totalLine (total : String × ℕ) : LogLine := .text (total.1 ++ toString total.2)

/-- What is written to the workload log about execution times after the loop. -/
def executionTimes (env : ReplayEnv) (isTotalTimer : Bool) (totalExecTime : ℤ) (st : Replay σ) :
    List LogLine :=
  (if env.isPerOpTimer || isTotalTimer then [.text "====================="] else [])
    ++ (if isTotalTimer then [.text ("Workload Execution Time: " ++ toString totalExecTime)]
      else [])
    ++ (if env.isPerOpTimer then st.printedTotals.map totalLine else [])

/-- With per-operation timing the log ends with the totals. -/
theorem isSuffix_executionTimes {env : ReplayEnv} (htimer : env.isPerOpTimer = true)
    (isTotalTimer : Bool) (totalExecTime : ℤ) (st : Replay σ) :
    st.printedTotals.map totalLine <:+ executionTimes env isTotalTimer totalExecTime st := by
  rw [executionTimes, if_pos htimer]
  exact List.suffix_append _ _

end

/-- The printed totals, each with the tag of the records it is meant to sum. -/
def timedKinds : List (String × String) :=
  [("Inserts Execution Time: ", "InsertTime: "), ("Updates Execution Time: ", "UpdateTime: "),
    ("PointQuery Execution Time: ", "GetTime: "), ("PointDelete Execution Time: ", "DeleteTime: "),
    ("RangeQuery Execution Time: ", "ScanTime: ")]

/-- The sum of the records under a tag. -/
def recorded (tag : String) (stats : List TimingRecord) : ℤ :=
  ((stats.filter (·.label = tag)).map (·.count)).sum

theorem recorded_append (tag : String) (stats : List TimingRecord) (record : TimingRecord) :
    recorded tag (stats ++ [record])
      = recorded tag stats + if record.label = tag then record.count else 0 := by
  rw [recorded, List.filter_append, List.map_append, List.sum_append, recorded]
  congr 1
  by_cases htag : record.label = tag <;> simp [htag]

/-- Records under the tags of the printed totals are accounted for by their sums. -/
theorem sum_recorded {stats : List TimingRecord}
    (h : ∀ record ∈ stats, record.label ∈ timedKinds.map (·.2)) :
    (timedKinds.map fun kind ↦ recorded kind.2 stats).sum = (stats.map (·.count)).sum := by
  induction stats using List.reverseRecOn with
  | nil => rfl
  | append_singleton stats record ih =>
    have hstats := ih fun record hmem ↦ h record (List.mem_append_left _ hmem)
    have hlabel := h record (List.mem_append_right _ (List.mem_singleton_self _))
    rw [List.map_append, List.sum_append, ← hstats]
    simp only [recorded_append, timedKinds, List.map_cons, List.map_nil, List.sum_cons,
      List.sum_nil, List.mem_cons, List.not_mem_nil, or_false] at hlabel ⊢
    rcases hlabel with hlabel | hlabel | hlabel | hlabel | hlabel <;> simp [hlabel] <;> ring

/-- A sum as the `unsigned long` that is printed. -/
def asUnsignedLong (sum : ℤ) : ℕ := (sum % 2 ^ 64).toNat

theorem asUnsignedLong_eq (sum : ℤ) : (asUnsignedLong sum : ℤ) = sum % 2 ^ 64 :=
  Int.toNat_of_nonneg (Int.emod_nonneg _ (by norm_num))

/-- Adding to a total wraps around, and only that. -/
theorem addTime_asUnsignedLong (sum duration : ℤ) :
    addTime (asUnsignedLong sum) duration = asUnsignedLong (sum + duration) := by
  rw [addTime, asUnsignedLong_eq, Int.emod_add_emod, asUnsignedLong]

/-! ## One turn of the loop -/

/-- The tag of an operation's record. The source has none for range deletes, so that it is an
argument. -/
def Op.tag (rangeDeleteTag : String) : Op → String
  | insert _ _ => "InsertTime: "
  | update _ _ => "UpdateTime: "
  | pointDelete _ => "DeleteTime: "
  | pointQuery _ _ => "GetTime: "
  | scan _ _ => "ScanTime: "
  | rangeDelete _ _ => rangeDeleteTag

def Op.isRangeDelete : Op → Bool
  | rangeDelete _ _ => true
  | _ => false

theorem Op.tag_mem_timedKinds {op : Op} (h : op.isRangeDelete = false) (rangeDeleteTag : String) :
    op.tag rangeDeleteTag ∈ timedKinds.map (·.2) := by
  cases op with
  | rangeDelete start stop => exact absurd h (by simp [isRangeDelete])
  | _ => simp [tag, timedKinds]

/-- The records of one operation. -/
def Op.records (env : ReplayEnv) (i : ℕ) (op : Op) : List TimingRecord :=
  if op.isRangeDelete then [] else [⟨op.tag "", env.duration i⟩]

section

variable {σ : Type} (D : Database σ) {env : ReplayEnv}

/-- Each printed total is the sum of the records under its tag. -/
def TotalsMatch (st : Replay σ) : Prop :=
  st.printedTotals = timedKinds.map fun kind ↦ (kind.1, asUnsignedLong (recorded kind.2 st.stats))

theorem Op.ithOp_turn (op : Op) (st : Replay σ) : (op.turn D env st).ithOp = st.ithOp + 1 := by
  cases op <;> simp only [turn, execute, executeInsert, executeUpdate, executePointDelete,
    executePointQuery, executeScan, executeRangeDelete, timed] <;> (try split_ifs) <;> rfl

theorem Op.stats_turn (htimer : env.isPerOpTimer = true) (op : Op) (st : Replay σ) :
    (op.turn D env st).stats = st.stats ++ op.records env st.ithOp := by
  cases op <;> simp [turn, execute, executeInsert, executeUpdate, executePointDelete,
    executePointQuery, executeScan, executeRangeDelete, timed, htimer, records, isRangeDelete, tag]

/-- A turn adds to the total of the kind that it records. -/
theorem TotalsMatch.turn (htimer : env.isPerOpTimer = true) {st : Replay σ} (h : TotalsMatch st)
    (op : Op) : TotalsMatch (op.turn D env st) := by
  rw [TotalsMatch] at h ⊢
  simp only [Replay.printedTotals, timedKinds, List.map_cons, List.map_nil, List.cons.injEq,
    Prod.mk.injEq, true_and, and_true] at h ⊢
  obtain ⟨hinserts, hupdates, hqueries, hdeletes, hscans⟩ := h
  rw [Op.stats_turn D htimer]
  cases op <;> simp [Op.turn, Op.execute, executeInsert, executeUpdate, executePointDelete,
    executePointQuery, executeScan, executeRangeDelete, timed, htimer, Op.records,
    Op.isRangeDelete, Op.tag, recorded_append, addTime_asUnsignedLong, hinserts, hupdates, hqueries,
    hdeletes, hscans]

/-! ## The whole replay -/

/-- The totals agree with the records after any operations. -/
theorem TotalsMatch.foldl (htimer : env.isPerOpTimer = true) (ops : List Op) {st : Replay σ}
    (h : TotalsMatch st) : TotalsMatch (ops.foldl (fun st op ↦ op.turn D env st) st) := by
  induction ops generalizing st with
  | nil => exact h
  | cons op ops ih => exact ih (h.turn D htimer op)

theorem totalsMatch_init (db : σ) : TotalsMatch (Replay.init db) := rfl

/-- The records of operations of which the first is number `i`. -/
def recordsFrom (env : ReplayEnv) : ℕ → List Op → List TimingRecord
  | _, [] => []
  | i, op :: ops => op.records env i ++ recordsFrom env (i + 1) ops

theorem stats_foldl_turn (htimer : env.isPerOpTimer = true) (ops : List Op) (st : Replay σ) :
    (ops.foldl (fun st op ↦ op.turn D env st) st).stats
      = st.stats ++ recordsFrom env st.ithOp ops := by
  induction ops generalizing st with
  | nil => exact (List.append_nil _).symm
  | cons op ops ih =>
    rw [List.foldl_cons, ih, op.stats_turn D htimer, op.ithOp_turn, recordsFrom, List.append_assoc]

end

theorem length_recordsFrom (env : ReplayEnv) (i : ℕ) (ops : List Op) :
    (recordsFrom env i ops).length = (ops.filter (!·.isRangeDelete)).length := by
  induction ops generalizing i with
  | nil => rfl
  | cons op ops ih =>
    rw [recordsFrom, List.length_append, ih, Op.records, List.filter_cons]
    cases op.isRangeDelete <;> simp [Nat.add_comm]

/-- Without range deletes there is one record for each operation. -/
theorem recordsFrom_eq_mapIdx (env : ReplayEnv) {ops : List Op}
    (h : ∀ op ∈ ops, op.isRangeDelete = false) (i : ℕ) (rangeDeleteTag : String) :
    recordsFrom env i ops
      = ops.mapIdx fun j op ↦ ⟨op.tag rangeDeleteTag, env.duration (i + j)⟩ := by
  induction ops generalizing i with
  | nil => rfl
  | cons op ops ih =>
    obtain ⟨hop, hops⟩ := List.forall_mem_cons.mp h
    rw [recordsFrom, ih hops, List.mapIdx_cons, Op.records, hop]
    cases op with
    | rangeDelete start stop => exact absurd hop (by simp [Op.isRangeDelete])
    | _ => simp [Op.tag, Nat.add_assoc, Nat.add_comm 1]

/-! ## Complete timing -/

/-- What the records and the printed totals of a replay are meant to be. -/
structure Timing {σ : Type} (env : ReplayEnv) (ops : List Op) (st : Replay σ) : Prop where
  /-- One record for each operation, in their order, under the tag of its kind. -/
  records : ∃ rangeDeleteTag : String,
    st.stats = ops.mapIdx fun i op ↦ ⟨op.tag rangeDeleteTag, env.duration i⟩
  totals : TotalsMatch st
  printed (isTotalTimer : Bool) (totalExecTime : ℤ) :
    st.printedTotals.map totalLine <:+ executionTimes env isTotalTimer totalExecTime st
  /-- Together the totals account for all operations. -/
  accounted : (st.printedTotals.map fun total ↦ (total.2 : ℤ)).sum
    ≡ ((List.range ops.length).map env.duration).sum [ZMOD 2 ^ 64]

/-- The totals account for the records, if these are under the tags of the totals. -/
theorem TotalsMatch.sum_modEq {σ : Type} {st : Replay σ} (h : TotalsMatch st)
    (hlabels : ∀ record ∈ st.stats, record.label ∈ timedKinds.map (·.2)) :
    (st.printedTotals.map fun total ↦ (total.2 : ℤ)).sum
      ≡ (st.stats.map (·.count)).sum [ZMOD 2 ^ 64] := by
  have hkind (kind : String × String) :
      (asUnsignedLong (recorded kind.2 st.stats) : ℤ) ≡ recorded kind.2 st.stats [ZMOD 2 ^ 64] := by
    rw [asUnsignedLong_eq]
    exact Int.mod_modEq _ _
  rw [← sum_recorded hlabels, h, List.map_map]
  induction timedKinds with
  | nil => rfl
  | cons kind kinds ih => exact (hkind kind).add ih

theorem sum_count_mapIdx (duration : ℕ → ℤ) (tag : Op → String) (ops : List Op) :
    ((ops.mapIdx fun i op ↦ (⟨tag op, duration i⟩ : TimingRecord)).map (·.count)).sum
      = ((List.range ops.length).map duration).sum := by
  congr 1
  refine List.ext_getElem (by simp) fun i hi hi' ↦ ?_
  simp

section

variable {σ : Type} (D : Database σ) (env : ReplayEnv)

/-- The replay ends, and its timing is what it is meant to be. -/
def TimingComplete (ops : List Op) (content : Bytes) (db : σ) : Prop :=
  ∃ st, replay D env content db = .ok st ∧ Timing env ops st

/-- **When timing is complete**: in the workloads without a range delete. In all workloads the
printed totals are the sums of the records. -/
theorem timingComplete_iff (htimer : env.isPerOpTimer = true)
    (hprogress : env.isShowProgress = false) {ops : List Op} {content : Bytes}
    (h : IsWorkload ops content) (db : σ) :
    (∃ st, replay D env content db = .ok st ∧ TotalsMatch st)
      ∧ (TimingComplete D env ops content db ↔ ∀ op ∈ ops, op.isRangeDelete = false) := by
  have hreplay := replay_eq_foldl D env hprogress h db
  have htotals := (totalsMatch_init db).foldl D htimer ops
  have hstats := stats_foldl_turn D htimer ops (.init db)
  refine ⟨⟨_, hreplay, htotals⟩, ?_, fun hops ↦ ⟨_, hreplay, ?_⟩⟩
  · rintro ⟨st, hst, hrecords, -, -, -⟩
    obtain rfl := Except.ok.inj (hreplay.symm.trans hst)
    obtain ⟨tag, hrecords⟩ := hrecords
    have hlength := congrArg List.length (hstats.symm.trans hrecords)
    rw [List.length_mapIdx, List.length_append, length_recordsFrom] at hlength
    have hall := List.length_filter_eq_length_iff.mp ((Nat.zero_add _).symm.trans hlength)
    exact fun op hop ↦ by simpa using hall op hop
  · have heq := hstats.trans (recordsFrom_eq_mapIdx env hops 0 "")
    simp only [Nat.zero_add] at heq
    exact {
      records := ⟨"", heq⟩
      totals := htotals
      printed := fun isTotalTimer time ↦ isSuffix_executionTimes htimer isTotalTimer time _
      accounted := by
        rw [← sum_count_mapIdx env.duration (Op.tag "") ops, ← heq]
        apply htotals.sum_modEq
        intro record hmem
        rw [heq] at hmem
        obtain ⟨i, hi, rfl⟩ := List.mem_mapIdx.mp hmem
        exact Op.tag_mem_timedKinds (hops _ (List.getElem_mem hi)) "" }

end

/-- A workload with an insert, a scan and a query. -/
theorem timingComplete_small :
    let content : Bytes := "I k v\nS a z\nQ k".toList.map Char.toUInt8
    let env : ReplayEnv := ⟨true, false, fun i ↦ 7 * i + 1, 0⟩
    let ops : List Op := [.insert [107] [118], .scan [97] [122], .pointQuery false [107]]
    TimingComplete memoryDatabase env ops content [] := by
  intro content env ops
  have h : IsWorkload ops content :=
    isWorkload_render (by decide +kernel) (Or.inr (by decide +kernel))
  exact (timingComplete_iff memoryDatabase env rfl rfl h []).2.mpr (by decide)

/-- A range delete, which leaves no record. -/
theorem not_timingComplete_small :
    let content : Bytes := "R a z".toList.map Char.toUInt8
    let env : ReplayEnv := ⟨true, false, fun i ↦ 7 * i + 1, 0⟩
    IsWorkload [.rangeDelete [97] [122]] content
      ∧ ¬TimingComplete memoryDatabase env [.rangeDelete [97] [122]] content [] := by
  intro content env
  refine ⟨isWorkload_render (by decide +kernel) (Or.inr (by decide +kernel)), ?_⟩
  rintro ⟨st, hst, ⟨tag, hrecords⟩, -, -, -⟩
  obtain ⟨st', hst', hnone⟩ := exists_ok_of_toOption (f := fun st ↦ st.stats) (b := [])
    (show (replay memoryDatabase env content []).toOption.map _ = _ by decide +kernel)
  obtain rfl := Except.ok.inj (hst'.symm.trans hst)
  exact absurd (hnone.symm.trans hrecords) (List.cons_ne_nil _ _).symm

end WorkloadAwareCompaction
