import Mathlib.Data.Finset.Max
import WorkloadAwareCompaction.Tree.Reads
import WorkloadAwareCompaction.Tree.Snapshot

/-!
# Reads between the steps of callbacks

The store with its client once more, this time over the concurrent system: a client reads and writes
at any moment, also while callbacks stand between two of their steps. Flushes move writes into files
as before, and the steps of callbacks show a client nothing.

As long as the interleaving is orderly, no moment can be told from another: the reads are those of
the map that has seen the same writes (`reads_refine_map_of_orderly_run`).
-/

namespace WorkloadAwareCompaction

open FluidLSM ColumnFamilyMetaData

variable {κ ν : Type*}

structure ClientState (κ ν : Type*) where
  /-- The writes that no file holds yet, newest first. -/
  memtable : List (κ × Option ν)
  world : World

inductive ClientEvent (κ ν : Type*)
  /-- `Put`, or `Delete` for `none`. -/
  | write (key : κ) (value : Option ν)
  /-- All writes but the `recent` newest become a file, and its callback begins. -/
  | flush (file : SstFileMetaData) (recent : ℕ)
  | advance (p : ℕ)
  | finish (task : CompactionTask) (outcome : Outcome)
  | retire (p : ℕ)

namespace ClientEvent

/-- What the callbacks see of an event. -/
def worldEvent : ClientEvent κ ν → Option WorldEvent
  | write _ _ => none
  | flush file _ => some (.flush file)
  | advance p => some (.advance p)
  | finish task outcome => some (.finish task outcome)
  | retire p => some (.retire p)

/-- What a client sees of an event. -/
def written : ClientEvent κ ν → Option (κ × Option ν)
  | write key value => some (key, value)
  | flush _ _ => none
  | advance _ => none
  | finish _ _ => none
  | retire _ => none

/-- What an event does to the writes in memory. -/
def remember (memtable : List (κ × Option ν)) : ClientEvent κ ν → List (κ × Option ν)
  | write key value => (key, value) :: memtable
  | flush _ recent => memtable.take recent
  | advance _ => memtable
  | finish _ _ => memtable
  | retire _ => memtable

end ClientEvent

/-- The store of a configuration, with its client and the steps of the callbacks. -/
def clientSystem (κ ν : Type*) (cfg : Config) (fp : DoubleArith) :
    StepSystem (ClientState κ ν) (ClientEvent κ ν) where
  init := ⟨[], .init (.empty cfg.options.numLevels)⟩
  step := fun s e ↦
    match e.worldEvent with
    | none => some { s with memtable := e.remember s.memtable }
    | some e' => (s.world.step cfg fp e').map fun world ↦ ⟨e.remember s.memtable, world⟩

variable [DecidableEq κ]

/-- `Get`: the writes in memory first, then the files level by level, level 0 newest first. -/
def ClientState.get (content : SstFileMetaData → Layer κ ν) (s : ClientState κ ν) : κ → Option ν :=
  Layer.read (.ofWrites s.memtable :: s.world.db.allFiles.map content)

/-- What the files of an event answer. -/
def Answers (content : SstFileMetaData → Layer κ ν) (s : ClientState κ ν) :
    ClientEvent κ ν → Prop
  | .flush file recent => content file = .ofWrites (s.memtable.drop recent)
  | .finish task (.success outputs) => Layer.Merges ((s.world.db.inputs task).map content)
      (outputs.map content) ((s.world.db.filesBelow task.outputLvl).map content)
  | .finish _ (.failure _) => True
  | .write _ _ => True
  | .advance _ => True
  | .retire _ => True

/-- An orderly interleaving, and files that answer as the store promises. -/
structure OrderlyClient (content : SstFileMetaData → Layer κ ν) (cfg : Config)
    (s : ClientState κ ν) (e : ClientEvent κ ν) : Prop where
  orderly : ∀ e' ∈ e.worldEvent, Orderly cfg s.world e'
  answers : Answers content s e

section

variable {cfg : Config} {fp : DoubleArith} {content : SstFileMetaData → Layer κ ν}

/-- Without the client's half a run of the store is a run of the callbacks. -/
theorem simulates_world : StepSystem.Simulates (clientSystem κ ν cfg fp)
    (OrderlyClient content cfg) (concurrentSystem cfg fp (.empty cfg.options.numLevels))
    (Orderly cfg) ClientEvent.worldEvent some (fun s w ↦ s.world = w) where
  init := rfl
  step := by
    rintro s s' w e - rfl ho hs
    cases he : e.worldEvent with
    | none =>
      simp only [clientSystem, he] at hs
      obtain rfl := Option.some.inj hs
      exact ⟨[], _, .refl _, rfl, rfl⟩
    | some e' =>
      simp only [clientSystem, he] at hs
      obtain ⟨w', hw', rfl⟩ := Option.map_eq_some_iff.mp hs
      exact ⟨[e'], w', .single (ho.orderly e' he) hw', rfl, rfl⟩

theorem snapshotInv_of_reachable (hlev : 2 ≤ cfg.options.numLevels)
    (hZK : cfg.largerLvlRunsCount ≤ cfg.smallerLvlRunsCount) {s : ClientState κ ν}
    (hs : (clientSystem κ ν cfg fp).Reachable (OrderlyClient content cfg) s) :
    SnapshotInv cfg fp s.world := by
  obtain ⟨h, hrun⟩ := hs
  obtain ⟨h', w, hrun', -, rfl⟩ := simulates_world.run hrun
  exact snapshotInv_of_run hlev hZK hrun'

/-- An event other than a write changes no read. -/
theorem get_eq_of_step {s s' : ClientState κ ν} {e : ClientEvent κ ν} {e' : WorldEvent}
    (hinv : SnapshotInv cfg fp s.world)
    (hZK : cfg.largerLvlRunsCount ≤ cfg.smallerLvlRunsCount) (hanswers : Answers content s e)
    (he : e.worldEvent = some e') (hw : s.world.step cfg fp e' = some s'.world)
    (hmemtable : s'.memtable = e.remember s.memtable) : s'.get content = s.get content := by
  have htwo := hinv.store.two_le
  rw [ClientState.get, ClientState.get, hmemtable, db_of_step hw]
  match e, he with
  | .flush file recent, he =>
    obtain rfl := Option.some.inj he
    exact read_addFlushed (by omega) hanswers
  | .finish task (.success outputs), he =>
    obtain rfl := Option.some.inj he
    obtain ⟨db₀, fresh, hflight⟩ := hinv.inFlight (mem_queued_of_step hw)
    exact hflight.read_replaceFiles hinv.store hZK (outputLvl_lt_of_step hw) hanswers s.memtable
  | .finish task (.failure status), he =>
    obtain rfl := Option.some.inj he
    rfl
  | .advance p, he =>
    obtain rfl := Option.some.inj he
    rfl
  | .retire p, he =>
    obtain rfl := Option.some.inj he
    rfl

/-- A client cannot tell a step of the store from no step, unless it is a write. -/
theorem simulates_map_orderly (hlev : 2 ≤ cfg.options.numLevels)
    (hZK : cfg.largerLvlRunsCount ≤ cfg.smallerLvlRunsCount) :
    StepSystem.Simulates (clientSystem κ ν cfg fp) (OrderlyClient content cfg)
      (Layer.mapSystem κ ν) (fun _ _ ↦ True) ClientEvent.written some
      (fun s m ↦ m = s.get content) where
  init := by
    have hnil : (clientSystem κ ν cfg fp).init.world.db.allFiles = [] := allFiles_empty _
    rw [ClientState.get, hnil]
    rfl
  step := by
    rintro s s' m e hreach rfl ho hs
    have hinv := snapshotInv_of_reachable hlev hZK hreach
    have hother {e' : WorldEvent} (he : e.worldEvent = some e') : s'.get content = s.get content := by
      simp only [clientSystem, he] at hs
      obtain ⟨w', hw', rfl⟩ := Option.map_eq_some_iff.mp hs
      exact get_eq_of_step hinv hZK ho.answers he hw' rfl
    match e with
    | .write key value =>
      obtain rfl := Option.some.inj hs
      refine ⟨[(key, value)], _, .single trivial rfl, rfl, ?_⟩
      exact (Layer.read_ofWrites_cons key value _ _).symm
    | .flush _ _ | .advance _ | .finish _ _ | .retire _ =>
      exact ⟨[], _, .refl _, rfl, (hother rfl).symm⟩

/-- **The store refines a map in every orderly interleaving.** For `Z ≤ K`, at every moment, also
between two steps of a callback, a read returns the last value written to its key. -/
theorem reads_refine_map_of_orderly_run (hlev : 2 ≤ cfg.options.numLevels)
    (hZK : cfg.largerLvlRunsCount ≤ cfg.smallerLvlRunsCount) {h : List (ClientEvent κ ν)}
    {s : ClientState κ ν}
    (hrun : (clientSystem κ ν cfg fp).Run (OrderlyClient content cfg) h s) :
    (Layer.mapSystem κ ν).Run (fun _ _ ↦ True) (h.filterMap ClientEvent.written) (s.get content)
      ∧ ∀ k, s.get content k = ((h.filterMap ClientEvent.written).lookup k).join := by
  obtain ⟨h', m, hrun', hseen, rfl⟩ := (simulates_map_orderly hlev hZK).run hrun
  rw [List.filterMap_some] at hseen
  subst hseen
  exact ⟨hrun', Layer.mapSystem_run_apply hrun'⟩

end

/-! ## A client that numbers its writes -/

/-- The number of the last flush whose entries a file holds. -/
def lastFlush (file : SstFileMetaData) : ℕ := file.flushes.max.unbotD 0

/-- A file answers with the number of that flush. -/
def numbered (file : SstFileMetaData) : Layer Unit ℕ := .ofWrites [((), some (lastFlush file))]

/-- Before every flush the client writes its number, to the only key there is. -/
def numberedClient (events : List WorldEvent) : List (ClientEvent Unit ℕ) :=
  events.flatMap fun
    | .flush file => [.flush file 0, .write () (some (lastFlush file))]
    | .advance p => [.advance p]
    | .finish task outcome => [.finish task outcome]
    | .retire p => [.retire p]

private instance : DecidableEq (Layer Unit ℕ) :=
  inferInstanceAs (DecidableEq (Unit → Option (Option ℕ)))

private instance (inputs outputs older : List (Layer Unit ℕ)) :
    Decidable (Layer.Merges inputs outputs older) :=
  inferInstanceAs (Decidable (∀ _, _ ∨ _))

private instance (s : ClientState Unit ℕ) : ∀ e, Decidable (Answers numbered s e)
  | .flush _ _ => inferInstanceAs (Decidable (_ = _))
  | .finish _ (.success _) => inferInstanceAs (Decidable (Layer.Merges _ _ _))
  | .finish _ (.failure _) => .isTrue trivial
  | .write _ _ => .isTrue trivial
  | .advance _ => .isTrue trivial
  | .retire _ => .isTrue trivial

private instance (cfg : Config) (s : ClientState Unit ℕ) (e : ClientEvent Unit ℕ) :
    Decidable (OrderlyClient numbered cfg s e) :=
  decidable_of_iff ((∀ e' ∈ e.worldEvent, Orderly cfg s.world e') ∧ Answers numbered s e)
    ⟨fun h ↦ ⟨h.1, h.2⟩, fun h ↦ ⟨h.orderly, h.answers⟩⟩

/-- A read while the third callback stands before its return and the fourth inside its walk. -/
theorem reads_refine_map_overlapping :
    ∃ s : ClientState Unit ℕ,
      (Layer.mapSystem Unit ℕ).Run (fun _ _ ↦ True)
        [((), some 4), ((), some 3), ((), some 2), ((), some 1)] (s.get numbered)
      ∧ s.world.queued = [promoteFlushes [4, 3] 2] ∧ s.get numbered () = some 4 := by
  obtain ⟨s, hrun, hqueued, hread⟩ :=
    StepSystem.exists_run_of_exec (M := clientSystem Unit ℕ (.small 1 1 6) .exact)
      (P := OrderlyClient numbered (.small 1 1 6))
      (R := fun s ↦ s.world.queued = [promoteFlushes [4, 3] 2] ∧ s.get numbered () = some 4)
      (h := numberedClient overlappingCallbacks) (by decide +kernel)
  exact ⟨s, (reads_refine_map_of_orderly_run (by decide) (by decide) hrun).1, hqueued, hread⟩

/-- **A stale read.** After the callback that an IO error disturbs, the client reads its fourth write
and has made six. -/
theorem not_reads_refine_map_disturbed :
    ¬∀ (h : List (ClientEvent Unit ℕ)) (s : ClientState Unit ℕ),
      (clientSystem Unit ℕ (.small 1 1 6) .exact).Run (fun s e ↦
          (∀ e' ∈ e.worldEvent, FlushThreads 1 s.world e' ∧ Exclusive s.world e'
            ∧ ∀ e'' ∈ e'.visible,
              Promised ⟨s.world.db, .new (.small 1 1 6), s.world.queued⟩ e'')
          ∧ Answers numbered s e) h s →
        s.get numbered () = ((h.filterMap ClientEvent.written).lookup ()).join := by
  intro hall
  obtain ⟨s, hrun, hread⟩ :=
    StepSystem.exists_run_of_exec (M := clientSystem Unit ℕ (.small 1 1 6) .exact)
      (P := fun s e ↦ (∀ e' ∈ e.worldEvent, FlushThreads 1 s.world e' ∧ Exclusive s.world e'
        ∧ ∀ e'' ∈ e'.visible, Promised ⟨s.world.db, .new (.small 1 1 6), s.world.queued⟩ e'')
        ∧ Answers numbered s e)
      (R := fun s ↦ s.get numbered () = some 4)
      (h := numberedClient disturbedCallback) (by decide +kernel)
  have hlast : ((numberedClient disturbedCallback).filterMap ClientEvent.written).lookup ()
      = some (some 6) := by decide +kernel
  have hsame := (hread.symm.trans (hall _ s hrun)).trans (congrArg Option.join hlast)
  exact absurd hsame (by decide)

end WorkloadAwareCompaction
