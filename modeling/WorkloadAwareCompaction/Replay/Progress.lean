import WorkloadAwareCompaction.Replay.Passes

/-!
# The progress bar over a whole replay

After each operation the replay loop calls `UpdateProgressBar` with the number of the operation, the
number of lines and a fiftieth of it as the interval between two bars. The interval is produced in
the caller, through an `int`, and consumed by a remainder in the callee.

Once the interval is positive nothing can go wrong: the bars of a replay are then those of the calls
one after the other (`foldlM_iteration_eq`), and their positions follow the number of the operation.
They are computed in `double`, and may be one less than the exact quotient says. But rounding keeps
the order, and the width and the last quotient are not rounded, so the positions do not decrease and
stay within the width.
It is positive exactly when the number of lines is at least fifty as an `int`.
-/

namespace WorkloadAwareCompaction

open CharStream

/-! ## The positions -/

theorem barPosition_le_width {barWidth : ℕ} (hwidth : barWidth ≤ 2 ^ 53) {total current : ℕ}
    (htotal : total ≠ 0) (h : current ≤ total) :
    barPosition barWidth total current ≤ barWidth :=
  Nat.floor_le_of_le (scaledProgress_le_width hwidth htotal h)

theorem barPosition_mono (barWidth total : ℕ) {current current' : ℕ} (h : current ≤ current') :
    barPosition barWidth total current ≤ barPosition barWidth total current' :=
  Nat.floor_le_floor (scaledProgress_mono barWidth total h)

theorem mem_drawn {barWidth total interval current position : ℕ}
    (h : position ∈ drawn barWidth total interval current) :
    position = barPosition barWidth total current := by
  rw [drawn] at h
  split_ifs at h
  · exact List.mem_singleton.mp h
  · exact absurd h List.not_mem_nil

/-- What is drawn for later operations is at no smaller position. -/
theorem pairwise_drawnFrom (total interval first count : ℕ) :
    (drawnFrom total interval first count).Pairwise (· ≤ ·) := by
  rw [drawnFrom, List.pairwise_flatMap]
  constructor
  · intro current _
    rw [drawn]
    split_ifs
    · exact List.pairwise_singleton _ _
    · exact List.Pairwise.nil
  · refine List.Pairwise.imp ?_ List.pairwise_lt_range'
    intro current current' hlt position hposition position' h'
    rw [mem_drawn hposition, mem_drawn h']
    exact barPosition_mono _ _ hlt.le

theorem le_width_of_mem_drawnFrom {total interval first count position : ℕ} (htotal : total ≠ 0)
    (hcount : first + count ≤ total + 1) (h : position ∈ drawnFrom total interval first count) :
    position ≤ 50 := by
  obtain ⟨current, hcurrent, hposition⟩ := List.mem_flatMap.mp h
  rw [mem_drawn hposition]
  have hrange := List.mem_range'_1.mp hcurrent
  exact barPosition_le_width (by norm_num) htotal (by omega)

/-! ## The report of a replay -/

/-- What the calls of a replay of `total` operations do: `bars i` is what call number `i` draws. -/
structure ProgressReport {σ : Type} (env : ReplayEnv) (total interval : ℕ) (bars : ℕ → List ℕ)
    (st : Replay σ) : Prop where
  interval_eq : progressInterval total = .ok interval
  interval_pos : 0 < interval
  /-- The calls are those for the operations from 1 to `total`. -/
  ithOp_eq : st.ithOp = total
  call (i : ℕ) : 1 ≤ i → i ≤ total → updateProgressBar env i total interval 50 = .ok (bars i)
  bars_eq : st.bars = (List.range' 1 total).flatMap bars
  le_width : ∀ position ∈ st.bars, position ≤ 50
  nondecreasing : st.bars.Pairwise (· ≤ ·)
  last : bars total ≠ []

section

variable {σ : Type} (D : Database σ) (env : ReplayEnv)

/-- The replay ends and its progress is reported. -/
def ProgressReported (content : Bytes) (db : σ) : Prop :=
  ∃ total interval bars st, countOperations env content = .ok total
    ∧ replay D env content db = .ok st ∧ ProgressReport env total interval bars st

/-- **When progress is reported.** For a file without an empty line, the calls of
`UpdateProgressBar` are defined and do what they should exactly when the number of lines, as an
`int`, is at least fifty. -/
theorem progressReported_iff (hprogress : env.isShowProgress = true) (content : Bytes) (db : σ)
    (hlines : ∀ line ∈ linesOf newline content, line ≠ []) :
    ProgressReported D env content db ↔ 50 ≤ asInt (linesOf newline content).length := by
  have hcount := countOperations_eq hprogress content
  constructor
  · rintro ⟨total, interval, bars, st, htotal, -, hreport⟩
    obtain rfl := Except.ok.inj (hcount.symm.trans htotal)
    by_contra hlt
    have heq := hreport.interval_eq
    rcases progressInterval_of_lt (not_le.mp hlt) with herror | hzero
    · exact absurd (herror.symm.trans heq) (by simp)
    · obtain rfl := Except.ok.inj (hzero.symm.trans heq)
      exact absurd hreport.interval_pos (lt_irrefl 0)
  · intro hle
    obtain ⟨interval, st, hne, hinterval, hst, hith, hbars⟩ :=
      exists_replay_of_le D env hprogress rfl hlines hle db
    have htotal : (linesOf newline content).length ≠ 0 := by
      intro hzero
      rw [hzero] at hle
      exact absurd hle (by decide)
    refine ⟨_, interval, drawn 50 (linesOf newline content).length interval, st, hcount, hst, ?_⟩
    exact {
      interval_eq := hinterval
      interval_pos := Nat.pos_of_ne_zero hne
      ithOp_eq := hith
      call := fun i _ hi ↦ updateProgressBar_eq hprogress hne htotal hi (by norm_num)
      bars_eq := hbars
      le_width := fun position hmem ↦
        le_width_of_mem_drawnFrom htotal (Nat.add_comm 1 _).le (hbars ▸ hmem)
      nondecreasing := hbars ▸ pairwise_drawnFrom _ _ _ _
      last := by
        rw [drawn_last]
        exact List.cons_ne_nil _ _ }

end

/-- A hundred lines: every second operation draws a bar. -/
theorem progressReported_small :
    let content : Bytes := (List.replicate 100 ("P k\n".toList.map Char.toUInt8)).flatten
    ProgressReported idleDatabase ⟨false, true, fun _ ↦ 5, 0⟩ content () := by
  intro content
  exact (progressReported_iff idleDatabase _ rfl content () (by decide +kernel)).mpr
    (by decide +kernel)

/-- One line, for which the interval is 0. -/
theorem not_progressReported_small :
    let content : Bytes := "P k\n".toList.map Char.toUInt8
    ¬ProgressReported idleDatabase ⟨false, true, fun _ ↦ 5, 0⟩ content () := by
  intro content
  rintro ⟨total, interval, bars, st, htotal, -, hreport⟩
  have hone : countOperations ⟨false, true, fun _ ↦ 5, 0⟩ content = .ok 1 := by decide +kernel
  have hzero : progressInterval 1 = .ok 0 := by decide +kernel
  obtain rfl := Except.ok.inj (hone.symm.trans htotal)
  obtain rfl := Except.ok.inj (hzero.symm.trans hreport.interval_eq)
  exact absurd hreport.interval_pos (lt_irrefl 0)

end WorkloadAwareCompaction
