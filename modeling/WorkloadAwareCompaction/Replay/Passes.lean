import Mathlib.Data.Rat.Floor
import WorkloadAwareCompaction.Replay.Workload

/-!
# The two passes over the workload file

Both passes read the file line by line. The first counts what `getline` delivers; the second runs
the loop body on each line, until it meets an empty one or the look-ahead sees the end of the file.
The look-ahead ends the loop exactly where the next `getline` would have ended it, with or without a
newline at the end of the file (`loop_eq`). So the passes part in two cases only: at an empty line,
which the first pass counts and the second stops at, and in a file of fewer than fifty lines, for
which the update interval of the progress bar is 0.
-/

namespace WorkloadAwareCompaction

open CharStream MachineInt

/-! ## The passes as functions of the lines -/

theorem linesOf_append_length_lt {line rest : Bytes} {fuel : ℕ}
    (hfuel : (line ++ newline :: rest).length < fuel + 1) : rest.length < fuel := by
  rw [List.length_append, List.length_cons] at hfuel
  omega

/-- The first pass counts the lines. -/
theorem countLines_eq {fuel : ℕ} {content : Bytes} (hfuel : content.length < fuel) (total : ℕ) :
    countLines fuel (.ofList content) total = .ok (total + (linesOf newline content).length) := by
  induction fuel generalizing content total with
  | zero => exact absurd hfuel (Nat.not_lt_zero _)
  | succ fuel ih =>
    rcases text_cases newline content with rfl | ⟨hne, hline⟩ | ⟨line, rest, hline, rfl⟩
    · rw [countLines, getline_nil]
      rfl
    · rw [countLines, getline_last hline hne, linesOf_last hline hne]
      -- The next read fails, as this one has seen the end.
      obtain ⟨fuel, rfl⟩ : ∃ n, fuel = n + 1 := by
        have hpos := List.length_pos_iff.mpr hne
        exact ⟨fuel - 1, by omega⟩
      rfl
    · rw [countLines, getline_cons hline, linesOf_append hline, List.length_cons]
      simp only
      rw [ih (linesOf_append_length_lt hfuel), Nat.add_right_comm, Nat.add_assoc]

/-- The lines the replay loop runs its body on. -/
def replayedLines (content : Bytes) : List Bytes :=
  (linesOf newline content).takeWhile (!·.isEmpty)

theorem replayedLines_last {line : Bytes} (hline : newline ∉ line) (hne : line ≠ []) :
    replayedLines line = [line] := by
  simp [replayedLines, linesOf_last hline hne, hne]

theorem replayedLines_append {line : Bytes} (hline : newline ∉ line) (hne : line ≠ [])
    (rest : Bytes) : replayedLines (line ++ newline :: rest) = line :: replayedLines rest := by
  simp [replayedLines, linesOf_append hline, hne]

section

variable {σ : Type} (D : Database σ) (env : ReplayEnv)

/-- A line that is not empty is one iteration. Whether another follows depends on what the
look-ahead sees behind it. -/
theorem loop_line {line : Bytes} (hne : line ≠ []) {file file' : IStream UInt8}
    (hget : file.getline newline = (some line, file')) (total fuel : ℕ) (st : Replay σ) :
    loop D env total (fuel + 1) file st = iteration D env total line st >>= fun st ↦
      if file'.peek.1.isNone then .ok st else loop D env total fuel file'.peek.2 st := by
  rw [loop, hget]
  simp only [List.isEmpty_eq_false_iff.mpr hne]
  rfl

/-- **The second pass runs the loop body on the lines before the first empty one.** -/
theorem loop_eq {fuel : ℕ} {content : Bytes} (hfuel : content.length < fuel) (total : ℕ)
    (st : Replay σ) : loop D env total fuel (.ofList content) st
      = (replayedLines content).foldlM (fun st line ↦ iteration D env total line st) st := by
  induction fuel generalizing content st with
  | zero => exact absurd hfuel (Nat.not_lt_zero _)
  | succ fuel ih =>
    rcases text_cases newline content with rfl | ⟨hne, hline⟩ | ⟨line, rest, hline, rfl⟩
    · rw [loop, getline_nil]
      rfl
    · -- the last line, without a newline: reading it has seen the end
      rw [loop_line D env hne (getline_last hline hne), replayedLines_last hline hne,
        List.foldlM_cons]
      rfl
    · by_cases hne : line = []
      · subst hne
        rw [loop, getline_cons hline, replayedLines, linesOf_append hline]
        rfl
      · rw [loop_line D env hne (getline_cons hline rest), replayedLines_append hline hne,
          List.foldlM_cons]
        congr 1
        funext st'
        cases rest with
        | nil => rfl -- the last line, with its newline: only the look-ahead sees the end
        | cons c rest =>
          rw [peek_cons]
          exact ih (linesOf_append_length_lt hfuel) st'

theorem replay_eq (content : Bytes) (db : σ) :
    replay D env content db = (countOperations env content) >>= fun total ↦
      (replayedLines content).foldlM (fun st line ↦ iteration D env total line st) (.init db) := by
  rw [replay]
  congr 1
  funext total
  exact loop_eq D env (Nat.lt_succ_self _) total _

end

theorem countOperations_eq {env : ReplayEnv} (hprogress : env.isShowProgress = true)
    (content : Bytes) : countOperations env content = .ok (linesOf newline content).length := by
  rw [countOperations, if_pos hprogress, countLines_eq (Nat.lt_succ_self _), Nat.zero_add]

/-! ## The update interval -/

theorem toSizeT_of_nonneg {x : ℚ} (hx : 0 ≤ x) {bound : ℕ} (hbound : bound < 2 ^ 64)
    (hle : x ≤ bound) : toSizeT x = .ok ⌊x⌋₊ := by
  have hfloor : ⌊x⌋ ≤ bound := Int.cast_le.mp ((Int.floor_le x).trans (by exact_mod_cast hle))
  have hrange : IntType.sizeT.InRange ⌊x⌋ := by
    rw [IntType.inRange_unsigned rfl]
    exact ⟨Int.floor_nonneg.mpr hx, hfloor.trans_lt (by exact_mod_cast hbound)⟩
  rw [toSizeT]
  simp only [tdiv_eq_floor hx]
  rw [if_pos hrange]
  rfl

theorem toSizeT_of_lt_one {x : ℚ} (hx : x < 1) :
    toSizeT x = .error .undefined ∨ toSizeT x = .ok 0 := by
  rw [toSizeT]
  simp only [Int.toNat_of_nonpos (tdiv_nonpos hx)]
  split_ifs
  · exact Or.inr rfl
  · exact Or.inl rfl

/-- A fiftieth of fewer than fifty operations is less than one operation, and stays so when it is
rounded. -/
theorem round_fiftieth_lt_one {n : ℤ} (h : n < 50) : Binary64.round (n * (1 / 50)) < 1 := by
  rcases le_or_gt n 0 with hn | hn
  · have hnonpos : (n * (1 / 50) : ℚ) ≤ 0 := by
      have : (n : ℚ) ≤ 0 := by exact_mod_cast hn
      linarith
    exact (Binary64.round_nonpos hnonpos).trans_lt one_pos
  · have hle : (n * (1 / 50) : ℚ) ≤ 49 / 50 := by
      have : (n : ℚ) ≤ 49 := by exact_mod_cast Int.le_of_lt_add_one h
      linarith
    have hnonneg : (0 : ℚ) ≤ n * (1 / 50) := by
      have : (0 : ℚ) ≤ n := by exact_mod_cast hn.le
      positivity
    exact (Binary64.round_mono hnonneg hle).trans_lt (by decide +kernel)

theorem progressInterval_of_lt {total : ℕ} (h : asInt total < 50) :
    progressInterval total = .error .undefined ∨ progressInterval total = .ok 0 :=
  toSizeT_of_lt_one (round_fiftieth_lt_one h)

theorem progressInterval_of_le {total : ℕ} (h : 50 ≤ asInt total) :
    ∃ interval, interval ≠ 0 ∧ progressInterval total = .ok interval := by
  have hlow : (1 : ℚ) ≤ asInt total * (1 / 50) := by
    have : (50 : ℚ) ≤ asInt total := by exact_mod_cast h
    linarith
  have hhigh : (asInt total * (1 / 50) : ℚ) ≤ (2 ^ 31 : ℕ) := by
    have hlt : asInt total < 2 ^ 31 := Int.bmod_lt (by norm_num)
    have : (asInt total : ℚ) ≤ 2 ^ 31 := by exact_mod_cast hlt.le
    push_cast
    linarith
  have hround := Binary64.one_le_round hlow
  have hround' := Binary64.round_mono (zero_le_one.trans hlow) hhigh
  rw [Binary64.round_natCast (by norm_num)] at hround'
  exact ⟨_, (Nat.floor_pos.mpr hround).ne',
    toSizeT_of_nonneg (zero_le_one.trans hround) (by norm_num) hround'⟩

/-! ## One call of the progress bar -/

/-- The position of the bar after `current` of `total` operations. -/
def barPosition (barWidth total current : ℕ) : ℕ := ⌊scaledProgress barWidth total current⌋₊

example : barPosition 50 50 29 = 28 := by decide +kernel

theorem scaledProgress_nonneg (barWidth total current : ℕ) :
    0 ≤ scaledProgress barWidth total current :=
  Binary64.round_nonneg (mul_nonneg (Binary64.round_natCast_nonneg _) (Binary64.round_nonneg
    (div_nonneg (Binary64.round_natCast_nonneg _) (Binary64.round_natCast_nonneg _))))

/-- Each operation keeps the order, and so does each rounding. -/
theorem scaledProgress_mono (barWidth total : ℕ) {current current' : ℕ} (h : current ≤ current') :
    scaledProgress barWidth total current ≤ scaledProgress barWidth total current' := by
  have hwidth := Binary64.round_natCast_nonneg barWidth
  have htotal := Binary64.round_natCast_nonneg total
  have hnonneg := div_nonneg (Binary64.round_natCast_nonneg current) htotal
  have hratio := div_le_div_of_nonneg_right (Binary64.round_natCast_mono h) htotal
  have hprogress := Binary64.round_mono hnonneg hratio
  exact Binary64.round_mono (mul_nonneg hwidth (Binary64.round_nonneg hnonneg))
    (mul_le_mul_of_nonneg_left hprogress hwidth)

/-- After the last operation nothing is rounded. -/
theorem scaledProgress_self {barWidth : ℕ} (hwidth : barWidth ≤ 2 ^ 53) {total : ℕ}
    (h : total ≠ 0) : scaledProgress barWidth total total = barWidth := by
  rw [scaledProgress, div_self (Binary64.round_natCast_ne_zero h), Binary64.round_one, mul_one,
    Binary64.round_natCast hwidth, Binary64.round_natCast hwidth]

theorem scaledProgress_le_width {barWidth : ℕ} (hwidth : barWidth ≤ 2 ^ 53) {total current : ℕ}
    (htotal : total ≠ 0) (h : current ≤ total) :
    scaledProgress barWidth total current ≤ barWidth :=
  (scaledProgress_mono barWidth total h).trans_eq (scaledProgress_self hwidth htotal)

/-- After the last operation the bar is full. -/
theorem barPosition_self {barWidth : ℕ} (hwidth : barWidth ≤ 2 ^ 53) {total : ℕ}
    (h : total ≠ 0) : barPosition barWidth total total = barWidth := by
  rw [barPosition, scaledProgress_self hwidth h, Nat.floor_natCast]

/-- The bars of the call for an operation: one or none. -/
def drawn (barWidth total interval current : ℕ) : List ℕ :=
  if current % interval = 0 ∨ current = total then [barPosition barWidth total current] else []

theorem drawn_last (barWidth total interval : ℕ) :
    drawn barWidth total interval total = [barPosition barWidth total total] :=
  if_pos (Or.inr rfl)

theorem updateProgressBar_eq {env : ReplayEnv} (hprogress : env.isShowProgress = true)
    {interval : ℕ} (hne : interval ≠ 0) {current total : ℕ} (htotal : total ≠ 0)
    (hle : current ≤ total) {barWidth : ℕ} (hwidth : barWidth ≤ 2 ^ 53) :
    updateProgressBar env current total interval barWidth
      = .ok (drawn barWidth total interval current) := by
  -- The position is at most the width, which a `size_t` can hold.
  have hpos := toSizeT_of_nonneg (scaledProgress_nonneg barWidth total current)
    (by omega : barWidth < 2 ^ 64) (scaledProgress_le_width hwidth htotal hle)
  rw [updateProgressBar, if_pos hprogress, if_neg hne, if_neg htotal, drawn, hpos]
  split_ifs <;> rfl

/-- The bars of the calls for the operations from `first` on, `count` of them. -/
def drawnFrom (total interval first count : ℕ) : List ℕ :=
  (List.range' first count).flatMap (drawn 50 total interval)

theorem getLast?_drawnFrom {total interval : ℕ} (h : total ≠ 0) :
    (drawnFrom total interval 1 total).getLast? = some 50 := by
  obtain ⟨count, hcount⟩ := Nat.exists_eq_succ_of_ne_zero h
  have hlast : drawnFrom total interval 1 total
      = drawnFrom total interval 1 count ++ drawn 50 total interval total := by
    rw [drawnFrom, drawnFrom, hcount, List.range'_concat, List.flatMap_append,
      List.flatMap_singleton, Nat.one_mul, Nat.add_comm 1]
  rw [hlast, drawn_last, barPosition_self (by norm_num) h]
  exact List.getLast?_concat

/-! ## One iteration -/

section

variable {σ : Type} (D : Database σ) {env : ReplayEnv}

/-- The switch leaves the number of operations and the bars alone. -/
theorem execute_frame (env : ReplayEnv) (line : Bytes) (st : Replay σ) :
    (execute D env line st).ithOp = st.ithOp ∧ (execute D env line st).bars = st.bars := by
  unfold execute executeInsert executeUpdate executePointDelete executePointQuery executeScan
    executeRangeDelete timed
  simp only
  split <;> (try split_ifs) <;> exact ⟨rfl, rfl⟩

@[simp] theorem ithOp_execute (env : ReplayEnv) (line : Bytes) (st : Replay σ) :
    (execute D env line st).ithOp = st.ithOp :=
  (execute_frame D env line st).1

@[simp] theorem bars_execute (env : ReplayEnv) (line : Bytes) (st : Replay σ) :
    (execute D env line st).bars = st.bars :=
  (execute_frame D env line st).2

/-- Without progress display the iteration is the switch and the count. -/
theorem iteration_of_quiet (hprogress : env.isShowProgress = false) (line : Bytes)
    (st : Replay σ) : iteration D env 0 line st
      = .ok { execute D env line st with ithOp := st.ithOp + 1 } := by
  have hinterval : progressInterval 0 = .ok 0 := by
    decide +kernel
  have hbars (current : ℕ) : updateProgressBar env current 0 0 50 = .ok [] := by
    rw [updateProgressBar, hprogress]
    rfl
  rw [iteration, hinterval]
  simp only [bind, Except.bind, hbars, List.append_nil, ithOp_execute]

/-- Without progress display the replay has a result. -/
theorem exists_replay_of_quiet (content : Bytes) (db : σ) (hprogress : env.isShowProgress = false) :
    ∃ st, replay D env content db = .ok st := by
  have hcount : countOperations env content = .ok 0 := by
    rw [countOperations, hprogress]
    rfl
  have hfold (lines : List Bytes) (st : Replay σ) :
      ∃ st', lines.foldlM (fun st line ↦ iteration D env 0 line st) st = .ok st' := by
    induction lines generalizing st with
    | nil => exact ⟨st, rfl⟩
    | cons line lines ih =>
      rw [List.foldlM_cons, iteration_of_quiet D hprogress]
      exact ih _
  rw [replay_eq, hcount]
  exact hfold _ _

/-- Below fifty operations the first progress bar divides by 0. -/
theorem iteration_of_lt (hprogress : env.isShowProgress = true) {total : ℕ}
    (h : asInt total < 50) (line : Bytes) (st : Replay σ) :
    iteration D env total line st = .error .undefined := by
  rw [iteration]
  rcases progressInterval_of_lt h with herror | hzero
  · rw [herror]
    rfl
  · rw [hzero]
    simp only [bind, Except.bind, updateProgressBar, hprogress]
    rfl

/-- From fifty operations on the iteration succeeds, and draws what its call draws. -/
theorem iteration_eq (hprogress : env.isShowProgress = true) {total interval : ℕ}
    (hinterval : progressInterval total = .ok interval) (hne : interval ≠ 0) (line : Bytes)
    {st : Replay σ} (hle : st.ithOp + 1 ≤ total) :
    iteration D env total line st = .ok { execute D env line st with
      ithOp := st.ithOp + 1, bars := st.bars ++ drawn 50 total interval (st.ithOp + 1) } := by
  have hcall : updateProgressBar env (st.ithOp + 1) total interval 50
      = .ok (drawn 50 total interval (st.ithOp + 1)) :=
    updateProgressBar_eq hprogress hne (Nat.ne_zero_of_lt hle) hle (by norm_num)
  rw [iteration, hinterval]
  simp only [bind, Except.bind, ithOp_execute, bars_execute, hcall]

/-- **The bars of a run of the loop** are those of its calls, one after the other. -/
theorem foldlM_iteration_eq (hprogress : env.isShowProgress = true) {total interval : ℕ}
    (hinterval : progressInterval total = .ok interval) (hne : interval ≠ 0) (lines : List Bytes)
    (st : Replay σ) (hle : st.ithOp + lines.length ≤ total) :
    ∃ st', lines.foldlM (fun st line ↦ iteration D env total line st) st = .ok st'
      ∧ st'.ithOp = st.ithOp + lines.length
      ∧ st'.bars = st.bars ++ drawnFrom total interval (st.ithOp + 1) lines.length := by
  induction lines generalizing st with
  | nil => exact ⟨st, rfl, rfl, (List.append_nil _).symm⟩
  | cons line lines ih =>
    rw [List.length_cons] at hle
    rw [List.foldlM_cons, iteration_eq D hprogress hinterval hne line (by omega)]
    obtain ⟨st', hst', hith, hbars⟩ := ih { execute D env line st with
      ithOp := st.ithOp + 1, bars := st.bars ++ drawn 50 total interval (st.ithOp + 1) }
      (by change st.ithOp + 1 + lines.length ≤ total; omega)
    refine ⟨st', hst', hith.trans (Nat.add_right_comm _ _ _), ?_⟩
    rw [hbars, drawnFrom, drawnFrom, List.length_cons, List.range'_succ, List.flatMap_cons,
      List.append_assoc]

/-! ## When the passes agree -/

variable (env)

/-- The passes agree on a file: the replay ends, with as many operations as the first pass has
counted, and the last progress bar is full. The bar is drawn for the operation number `ithOp`. -/
def PassesAgree (content : Bytes) (db : σ) : Prop :=
  ∃ total st, countOperations env content = .ok total ∧ replay D env content db = .ok st
    ∧ st.ithOp = total ∧ (content ≠ [] → st.bars.getLast? = some 50)

theorem linesOf_eq_nil {content : Bytes} (h : linesOf newline content = []) : content = [] := by
  rcases text_cases newline content with hnil | ⟨hne, hline⟩ | ⟨line, rest, hline, rfl⟩
  · exact hnil
  · exact absurd h (by rw [linesOf_last hline hne]; exact List.cons_ne_nil _ _)
  · exact absurd h (by rw [linesOf_append hline]; exact List.cons_ne_nil _ _)

theorem length_replayedLines_le (content : Bytes) :
    (replayedLines content).length ≤ (linesOf newline content).length :=
  (List.takeWhile_prefix _).length_le

/-- The loop runs on all lines exactly when none is empty. -/
theorem length_replayedLines_iff (content : Bytes) :
    (replayedLines content).length = (linesOf newline content).length
      ↔ ∀ line ∈ linesOf newline content, line ≠ [] := by
  have hself : replayedLines content = linesOf newline content
      ↔ ∀ line ∈ linesOf newline content, line ≠ [] := by
    rw [replayedLines, List.takeWhile_eq_self_iff]
    simp
  rw [← hself]
  exact ⟨(List.takeWhile_prefix _).eq_of_length, congrArg List.length⟩

/-- Where the replay of a file that is not empty reaches its end with the operations counted, there
are at least fifty lines: otherwise its first iteration has no result. -/
theorem le_asInt_of_replay (hprogress : env.isShowProgress = true) {content : Bytes}
    (hne : content ≠ []) {total : ℕ} {db : σ} {st : Replay σ}
    (htotal : total = (linesOf newline content).length)
    (hst : (replayedLines content).foldlM (fun st line ↦ iteration D env total line st) (.init db)
      = .ok st) (hith : st.ithOp = total) : 50 ≤ asInt total := by
  by_contra hlt
  cases hlines : replayedLines content with
  | nil =>
    rw [hlines] at hst
    obtain rfl := Except.ok.inj hst
    have hnil := List.length_eq_zero_iff.mp (htotal.symm.trans hith.symm)
    exact hne (linesOf_eq_nil hnil)
  | cons line lines =>
    rw [hlines, List.foldlM_cons, iteration_of_lt D hprogress (not_le.mp hlt)] at hst
    exact absurd hst (by simp [bind, Except.bind])

/-- What agreeing passes say about the file. -/
theorem PassesAgree.cases (hprogress : env.isShowProgress = true) {content : Bytes} {db : σ}
    (h : PassesAgree D env content db) : content = []
      ∨ (∀ line ∈ linesOf newline content, line ≠ [])
        ∧ 50 ≤ asInt (linesOf newline content).length := by
  obtain ⟨total, st, htotal, hst, hith, -⟩ := h
  have hcount := countOperations_eq hprogress content
  obtain rfl := Except.ok.inj (hcount.symm.trans htotal)
  rw [replay_eq, hcount] at hst
  refine or_iff_not_imp_left.mpr fun hne ↦ ?_
  have hle := le_asInt_of_replay D env hprogress hne rfl hst hith
  obtain ⟨interval, hinterval_ne, hinterval⟩ := progressInterval_of_le hle
  obtain ⟨st', hst', hith', -⟩ :=
    foldlM_iteration_eq D hprogress hinterval hinterval_ne (replayedLines content) (.init db)
      ((Nat.zero_add _).trans_le (length_replayedLines_le content))
  obtain rfl : st' = st := Except.ok.inj (hst'.symm.trans hst)
  refine ⟨(length_replayedLines_iff content).mp ?_, hle⟩
  rw [← hith, hith']
  exact (Nat.zero_add _).symm

/-- The replay of at least fifty lines without an empty one: all operations, and the bars of all
calls. -/
theorem exists_replay_of_le (hprogress : env.isShowProgress = true) {content : Bytes} {total : ℕ}
    (htotal : total = (linesOf newline content).length)
    (hlines : ∀ line ∈ linesOf newline content, line ≠ []) (hle : 50 ≤ asInt total) (db : σ) :
    ∃ interval st, interval ≠ 0 ∧ progressInterval total = .ok interval
      ∧ replay D env content db = .ok st ∧ st.ithOp = total
      ∧ st.bars = drawnFrom total interval 1 total := by
  obtain ⟨interval, hne, hinterval⟩ := progressInterval_of_le hle
  have hlength : (replayedLines content).length = total := by
    rw [htotal, length_replayedLines_iff]
    exact hlines
  obtain ⟨st, hst, hith, hbars⟩ := foldlM_iteration_eq D hprogress hinterval hne
    (replayedLines content) (.init db) ((Nat.zero_add _).trans hlength).le
  rw [hlength] at hith hbars
  refine ⟨interval, st, hne, hinterval, ?_, hith.trans (Nat.zero_add _), hbars⟩
  rw [replay_eq, countOperations_eq hprogress, ← htotal]
  exact hst

/-- **When the two passes agree**: on the empty file, and on files of at least fifty lines none of
which is empty. -/
theorem passesAgree_iff (hprogress : env.isShowProgress = true) (content : Bytes) (db : σ) :
    PassesAgree D env content db ↔ content = [] ∨ (∀ line ∈ linesOf newline content, line ≠ [])
      ∧ 50 ≤ asInt (linesOf newline content).length := by
  refine ⟨PassesAgree.cases D env hprogress, ?_⟩
  have hcount := countOperations_eq hprogress content
  rintro (rfl | ⟨hlines, hle⟩)
  · refine ⟨0, .init db, hcount, ?_, rfl, fun hne ↦ absurd rfl hne⟩
    rw [replay_eq, hcount]
    rfl
  · obtain ⟨interval, st, -, -, hst, hith, hbars⟩ :=
      exists_replay_of_le D env hprogress rfl hlines hle db
    refine ⟨_, st, hcount, hst, hith, fun hne ↦ ?_⟩
    rw [hbars]
    apply getLast?_drawnFrom
    intro hzero
    exact hne (linesOf_eq_nil (List.length_eq_zero_iff.mp hzero))

end

/-- The database that does nothing, under a replay with progress display. -/
def idleDatabase : Database Unit where
  put _ _ _ := (.ok, ())
  delete _ _ := (.ok, ())
  get _ _ := (.notFound, ())
  deleteRange _ _ _ := (.ok, ())
  seek _ _ := ⟨[], fun _ ↦ .ok⟩
  iterated _ _ _ := ()

/-- Fifty lines without an empty one. -/
theorem passesAgree_small :
    let content : Bytes := (List.replicate 50 ("P k\n".toList.map Char.toUInt8)).flatten
    PassesAgree idleDatabase ⟨false, true, fun _ ↦ 5, 0⟩ content () := by
  intro content
  exact (passesAgree_iff idleDatabase _ rfl content ()).mpr
    (Or.inr ⟨by decide +kernel, by decide +kernel⟩)

/-- Two lines, for which the interval of the progress bar is 0; and fifty lines, an empty one and
one more, of which the last two are counted and not replayed. -/
theorem not_passesAgree_small :
    let line : Bytes := "P k\n".toList.map Char.toUInt8
    let env : ReplayEnv := ⟨false, true, fun _ ↦ 5, 0⟩
    ¬PassesAgree idleDatabase env (line ++ line) ()
      ∧ ¬PassesAgree idleDatabase env ((List.replicate 50 line).flatten ++ newline :: line) () := by
  intro line env
  constructor
  · intro h
    exact absurd (h.cases idleDatabase env rfl) (by decide +kernel)
  · intro h
    exact absurd (h.cases idleDatabase env rfl) (by decide +kernel)

end WorkloadAwareCompaction
