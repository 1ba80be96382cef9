import WorkloadAwareCompaction.Replay.Grammar

/-!
# Which failures the replay reports

One status variable goes through the whole replay. Every call but a scan overwrites it, so what is
checked after the loop is the status of the last of them: a failure before it is forgotten, a scan
that failed was never recorded, and a key that was not found counts as a failure if its query came
last.

The calls and the statuses they return are recorded by an instrumented database
(`Database.audited`). What the replay checks is then a function of the record (`checked_of_replay`).
-/

namespace WorkloadAwareCompaction

open CharStream

/-! ## The record of calls and statuses -/

abbrev CallRecord := List (DbCall × Status)

def DbCall.isScan : DbCall → Bool
  | scan _ _ => true
  | _ => false

/-- The status of the last call that is not a scan; OK if there was none. -/
def CallRecord.checked (calls : CallRecord) : Status :=
  calls.foldl (fun s call ↦ if call.1.isScan then s else call.2) .ok

@[simp] theorem CallRecord.checked_append (calls : CallRecord) (call : DbCall) (s : Status) :
    CallRecord.checked (calls ++ [(call, s)]) = if call.isScan then calls.checked else s := by
  rw [checked, List.foldl_append]
  rfl

/-- What is checked is OK, or what some call returned. -/
theorem CallRecord.checked_cases (calls : CallRecord) :
    calls.checked = .ok ∨ ∃ call ∈ calls, call.2 = calls.checked := by
  induction calls using List.reverseRecOn with
  | nil => exact Or.inl rfl
  | append_singleton calls last ih =>
    obtain ⟨call, s⟩ := last
    rw [checked_append]
    split_ifs
    · refine ih.imp_right ?_
      rintro ⟨call, hmem, hcall⟩
      exact ⟨call, List.mem_append_left _ hmem, hcall⟩
    · exact Or.inr ⟨(call, s), List.mem_append_right _ (List.mem_singleton_self _), rfl⟩

/-- A failure of a call. -/
def Status.Failed (s : Status) : Prop := s ≠ .ok ∧ s ≠ .notFound

instance : DecidablePred Status.Failed := fun _ ↦ inferInstanceAs (Decidable (_ ∧ _))

section

variable {σ : Type} (D : Database σ)

/-- The database that also records its calls and what they return, for a scan the status its
iterator has at the end. -/
def Database.audited : Database (σ × CallRecord) where
  put key value db := let r := D.put key value db.1; (r.1, r.2, db.2 ++ [(.put key value, r.1)])
  delete key db := let r := D.delete key db.1; (r.1, r.2, db.2 ++ [(.delete key, r.1)])
  get key db := let r := D.get key db.1; (r.1, r.2, db.2 ++ [(.get key, r.1)])
  deleteRange start stop db :=
    let r := D.deleteRange start stop db.1; (r.1, r.2, db.2 ++ [(.deleteRange start stop, r.1)])
  seek start db := D.seek start db.1
  iterated start steps db := (D.iterated start steps db.1,
    db.2 ++ [(.scan start steps, (D.seek start db.1).status steps)])

variable (env : ReplayEnv)

/-! ## The status variable follows the record -/

/-- The status variable is the one the record gives. -/
def Audited (st : Replay (σ × CallRecord)) : Prop := st.s = st.db.2.checked

theorem audited_timed (label : String)
    {addTo : ℤ → Replay (σ × CallRecord) → Replay (σ × CallRecord)}
    (haddTo : ∀ d st, (addTo d st).db = st.db ∧ (addTo d st).s = st.s)
    {st : Replay (σ × CallRecord)} (h : Audited st) : Audited (timed env label addTo st) := by
  rw [timed]
  split_ifs
  · rw [Audited, (haddTo _ _).1, (haddTo _ _).2]
    exact h
  · exact h

variable {D env}

/-- Each operation keeps the status variable at what the record gives; a scan changes neither. -/
theorem Audited.execute_op {st : Replay (σ × CallRecord)} (h : Audited st) (op : Op) :
    Audited (op.execute D.audited env st) := by
  cases op with
  | insert key value =>
    rw [Op.execute, executeInsert]
    apply audited_timed
    · exact fun _ _ ↦ ⟨rfl, rfl⟩
    · simp [Audited, Database.audited, DbCall.isScan]
  | update key value =>
    rw [Op.execute, executeUpdate]
    apply audited_timed
    · exact fun _ _ ↦ ⟨rfl, rfl⟩
    · simp [Audited, Database.audited, DbCall.isScan]
  | pointDelete key =>
    rw [Op.execute, executePointDelete]
    apply audited_timed
    · exact fun _ _ ↦ ⟨rfl, rfl⟩
    · simp [Audited, Database.audited, DbCall.isScan]
  | pointQuery tectonic key =>
    rw [Op.execute, executePointQuery]
    apply audited_timed
    · exact fun _ _ ↦ ⟨rfl, rfl⟩
    · simp [Audited, Database.audited, DbCall.isScan]
  | scan start stop =>
    rw [Op.execute, executeScan]
    apply audited_timed
    · exact fun _ _ ↦ ⟨rfl, rfl⟩
    · simpa [Audited, Database.audited, DbCall.isScan] using h
  | rangeDelete start stop =>
    rw [Op.execute, executeRangeDelete]
    simp [Audited, Database.audited, DbCall.isScan]

variable (D env)

theorem Audited.execute {st : Replay (σ × CallRecord)} (h : Audited st) (line : Bytes) :
    Audited (execute D.audited env line st) := by
  obtain ⟨decoded, hdecoded⟩ := exists_executeDecoded D.audited env line
  rw [hdecoded]
  cases decoded with
  | none => exact h
  | some op => exact h.execute_op op

theorem Audited.iteration {total : ℕ} {line : Bytes} {st st' : Replay (σ × CallRecord)}
    (h : Audited st) (hst : iteration D.audited env total line st = .ok st') : Audited st' := by
  have hexecute := h.execute D env line
  rw [WorkloadAwareCompaction.iteration] at hst
  obtain ⟨interval, -, hst⟩ := bind_eq_ok hst
  obtain ⟨bars, -, hst⟩ := bind_eq_ok hst
  obtain rfl := Except.ok.inj hst
  exact hexecute

variable {D env}

/-- **The status checked after the loop is a function of the record.** -/
theorem checked_of_replay {content : Bytes} {db : σ} {st : Replay (σ × CallRecord)}
    (h : replay D.audited env content (db, []) = .ok st) : st.s = st.db.2.checked := by
  rw [replay_eq] at h
  obtain ⟨total, -, h⟩ := bind_eq_ok h
  exact foldlM_ok (fun hst h ↦ Audited.iteration D env h hst) h rfl

/-- **When the replay reports what failed.** It always ends when no progress is displayed. At its
end the status says whether a call failed exactly when this holds of the last call that was not a
scan: if it returned OK, or there was none, nothing failed; if it returned NotFound, something else
did. -/
theorem reportsFailure_iff (D : Database σ) (env : ReplayEnv) (content : Bytes) (db : σ) :
    (env.isShowProgress = false → ∃ st, replay D.audited env content (db, []) = .ok st)
      ∧ ∀ st, replay D.audited env content (db, []) = .ok st →
        ((st.s ≠ .ok ↔ ∃ call ∈ st.db.2, call.2.Failed) ↔
          (st.db.2.checked = .ok → ∀ call ∈ st.db.2, ¬call.2.Failed)
            ∧ (st.db.2.checked = .notFound → ∃ call ∈ st.db.2, call.2.Failed)) := by
  refine ⟨exists_replay_of_quiet D.audited content _, fun st hst ↦ ?_⟩
  rw [checked_of_replay hst]
  have hchecked := st.db.2.checked_cases
  constructor
  · intro hreport
    refine ⟨fun hok call hmem hfailed ↦ ?_, fun hnotFound ↦ hreport.mp (by simp [hnotFound])⟩
    exact hreport.mpr ⟨call, hmem, hfailed⟩ hok
  · rintro ⟨hok, hnotFound⟩
    refine ⟨fun hne ↦ ?_, fun ⟨call, hmem, hfailed⟩ heq ↦ hok heq call hmem hfailed⟩
    by_cases hfound : st.db.2.checked = .notFound
    · exact hnotFound hfound
    · obtain ⟨call, hmem, hcall⟩ := hchecked.resolve_left hne
      exact ⟨call, hmem, by rw [hcall]; exact ⟨hne, hfound⟩⟩

end

/-! ## Scripted statuses -/

/-- A database whose calls return the given statuses, one after the other. -/
def scriptedDatabase : Database (List Status) where
  put _ _ script := (script.headD .ok, script.tail)
  delete _ script := (script.headD .ok, script.tail)
  get _ script := (script.headD .ok, script.tail)
  deleteRange _ _ script := (script.headD .ok, script.tail)
  seek _ script := ⟨[], fun _ ↦ script.headD .ok⟩
  iterated _ _ script := script.tail

/-- A write that fails, and nothing after it. -/
theorem reportsFailure_small :
    let content : Bytes := "P a\nI a b".toList.map Char.toUInt8
    let env : ReplayEnv := ⟨false, false, fun _ ↦ 5, 0⟩
    ∃ st, replay scriptedDatabase.audited env content ([.notFound, .ioError], []) = .ok st
      ∧ (st.s ≠ .ok ↔ ∃ call ∈ st.db.2, call.2.Failed) := by
  intro content env
  obtain ⟨hends, hreports⟩ := reportsFailure_iff scriptedDatabase env content [.notFound, .ioError]
  obtain ⟨st, hst, hcalls⟩ := exists_ok_of_toOption (f := fun st ↦ st.db.2)
    (b := [(.get [97], .notFound), (.put [97] [98], .ioError)])
    (show (replay scriptedDatabase.audited env content ([.notFound, .ioError], [])).toOption.map _
      = _ by decide +kernel)
  refine ⟨st, hst, (hreports st hst).mpr ?_⟩
  rw [hcalls]
  decide +kernel

/-- A failure before a success, a key that was not found at the end, and a scan that failed. -/
theorem not_reportsFailure_small :
    let env : ReplayEnv := ⟨false, false, fun _ ↦ 5, 0⟩
    let reports (content : String) (script : List Status) : Prop :=
      ∀ st, replay scriptedDatabase.audited env (content.toList.map Char.toUInt8) (script, [])
        = .ok st → (st.s ≠ .ok ↔ ∃ call ∈ st.db.2, call.2.Failed)
    ¬reports "I a b\nI c d" [.ioError, .ok] ∧ ¬reports "P k" [.notFound]
      ∧ ¬reports "S a b" [.ioError] := by
  intro env reports
  have hfails {content : String} {script : List Status} (s : Status) (calls : CallRecord)
      (heval : (replay scriptedDatabase.audited env (content.toList.map Char.toUInt8)
        (script, [])).toOption.map (fun st ↦ (st.s, st.db.2)) = some (s, calls))
      (hnot : ¬(s ≠ .ok ↔ ∃ call ∈ calls, call.2.Failed)) : ¬reports content script := by
    intro h
    obtain ⟨st, hst, hend⟩ := exists_ok_of_toOption heval
    obtain ⟨rfl, rfl⟩ := Prod.mk.inj hend
    exact hnot (h st hst)
  refine ⟨hfails .ok [(.put [97] [98], .ioError), (.put [99] [100], .ok)] ?_ ?_,
    hfails .notFound [(.get [107], .notFound)] ?_ ?_, hfails .ok [(.scan [97] 0, .ioError)] ?_ ?_⟩
  all_goals decide +kernel

end WorkloadAwareCompaction
