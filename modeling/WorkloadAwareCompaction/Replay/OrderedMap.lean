import Mathlib.Logic.Function.Basic
import WorkloadAwareCompaction.Library.SortedList
import WorkloadAwareCompaction.Replay.Workload

/-!
# The database as an ordered map

What is assumed of the database: a write does what it says to the map from keys to values, a read
changes nothing, and an iterator runs through the keys in their order. The statuses are left open.
`memoryDatabase` is a database that meets it, a list of entries of which the newest counts.
-/

namespace WorkloadAwareCompaction

/-- The database behaves as a map, its content being `view`. -/
structure OrderedMap {σ : Type} (D : Database σ) (view : σ → Bytes → Option Bytes) : Prop where
  put (key value : Bytes) (db : σ) :
    view (D.put key value db).2 = Function.update (view db) key (some value)
  delete (key : Bytes) (db : σ) : view (D.delete key db).2 = Function.update (view db) key none
  get (key : Bytes) (db : σ) : view (D.get key db).2 = view db
  /-- The start is included, the end is not. -/
  deleteRange (start stop : Bytes) (db : σ) : view (D.deleteRange start stop db).2
    = fun key ↦ if start ≤ key ∧ key < stop then none else view db key
  pairwise_seek (start : Bytes) (db : σ) : (D.seek start db).keys.Pairwise (· < ·)
  mem_seek {start key : Bytes} {db : σ} :
    key ∈ (D.seek start db).keys ↔ start ≤ key ∧ (view db key).isSome = true
  iterated (start : Bytes) (steps : ℕ) (db : σ) : view (D.iterated start steps db) = view db

/-- The scan loop walks over the keys below its end. -/
theorem take_scanLoop (stop : Bytes) (keys : List Bytes) :
    keys.take (scanLoop stop keys) = keys.takeWhile (· < stop) := by
  induction keys with
  | nil => rfl
  | cons key keys ih =>
    rw [scanLoop]
    split_ifs with hstop
    · have hkey : ¬key < stop := List.not_lt.mpr hstop
      rw [List.takeWhile_cons_of_neg (by simpa using hkey), List.take_zero]
    · have hkey : key < stop := List.not_le.mp hstop
      rw [List.takeWhile_cons_of_pos (by simpa using hkey), List.take_succ_cons, ih]

theorem scanLoop_le_length (stop : Bytes) (keys : List Bytes) :
    scanLoop stop keys ≤ keys.length := by
  induction keys with
  | nil => exact le_refl 0
  | cons key keys ih =>
    rw [scanLoop]
    split_ifs
    · exact Nat.zero_le _
    · exact Nat.succ_le_succ ih

/-- It makes one step for each of them. -/
theorem scanLoop_eq_length_takeWhile (stop : Bytes) (keys : List Bytes) :
    scanLoop stop keys = (keys.takeWhile (· < stop)).length := by
  rw [← take_scanLoop, List.length_take_of_le (scanLoop_le_length stop keys)]

/-- On sorted keys these are all keys below its end. -/
theorem take_scanLoop_eq_filter {keys : List Bytes} (hkeys : keys.Pairwise (· < ·))
    (stop : Bytes) : keys.take (scanLoop stop keys) = keys.filter (· < stop) := by
  rw [take_scanLoop]
  refine SortedList.takeWhile_eq_filter (fun key key' hlt hkey' ↦ ?_) hkeys
  exact decide_eq_true (List.lt_trans hlt (of_decide_eq_true hkey'))

/-- On sorted keys the scan loop makes one step for each key below its end. -/
theorem scanLoop_eq_length {keys : List Bytes} (hkeys : keys.Pairwise (· < ·)) (stop : Bytes) :
    scanLoop stop keys = (keys.filter (· < stop)).length := by
  rw [← take_scanLoop_eq_filter hkeys, List.length_take_of_le (scanLoop_le_length stop keys)]

/-- **A scan visits the keys of its half-open range**, each once. -/
theorem OrderedMap.exists_scanned {σ : Type} {D : Database σ} {view : σ → Bytes → Option Bytes}
    (h : OrderedMap D view) (start stop : Bytes) (db : σ) :
    ∃ scanned : List Bytes, scanned.Nodup ∧ scanLoop stop (D.seek start db).keys = scanned.length
      ∧ ∀ key, key ∈ scanned ↔ start ≤ key ∧ key < stop ∧ (view db key).isSome = true := by
  have hkeys := h.pairwise_seek start db
  refine ⟨_, ?_, scanLoop_eq_length hkeys stop, fun key ↦ ?_⟩
  · refine List.Pairwise.filter _ (hkeys.imp ?_)
    rintro key _ hlt rfl
    exact List.lt_irrefl key hlt
  · rw [List.mem_filter, h.mem_seek, decide_eq_true_eq]
    tauto

/-- Entries, the newest first. -/
abbrev Entries := List (Bytes × Bytes)

def Entries.lookup (entries : Entries) (key : Bytes) : Option Bytes :=
  (entries.find? (·.1 = key)).map (·.2)

def memoryDatabase : Database Entries where
  put key value entries := (.ok, (key, value) :: entries)
  delete key entries := (.ok, entries.filter (·.1 ≠ key))
  get key entries := (if (entries.lookup key).isSome then .ok else .notFound, entries)
  deleteRange start stop entries := (.ok, entries.filter fun e ↦ ¬(start ≤ e.1 ∧ e.1 < stop))
  seek start entries :=
    ⟨((entries.map (·.1)).dedup.filter (start ≤ ·)).mergeSort (· ≤ ·), fun _ ↦ .ok⟩
  iterated _ _ entries := entries

/-- Dropping entries by their key. -/
theorem Entries.lookup_filter (keep : Bytes → Prop) [DecidablePred keep] (entries : Entries)
    (key : Bytes) :
    Entries.lookup (entries.filter (keep ·.1)) key
      = if keep key then entries.lookup key else none := by
  rw [lookup, lookup, List.find?_filter]
  split_ifs with hkeep
  · -- An entry of a kept key passes the filter.
    congr 2
    funext e
    by_cases he : e.1 = key
    · simp [he, hkeep]
    · simp [he]
  · rw [Option.map_eq_none_iff, List.find?_eq_none]
    rintro e - he
    simp only [decide_eq_true_eq] at he
    exact hkeep (he.2 ▸ he.1)

theorem Entries.isSome_lookup (entries : Entries) (key : Bytes) :
    (entries.lookup key).isSome = true ↔ key ∈ entries.map (·.1) := by
  rw [lookup, Option.isSome_map, List.find?_isSome, List.mem_map]
  simp only [decide_eq_true_eq]

theorem orderedMap_memoryDatabase : OrderedMap memoryDatabase Entries.lookup where
  put key value entries := by
    funext other
    rw [Function.update_apply, memoryDatabase, Entries.lookup, List.find?_cons]
    split_ifs with hkey
    · simp [hkey]
    · simp [Ne.symm hkey, Entries.lookup]
  delete key entries := by
    funext other
    rw [Function.update_apply, memoryDatabase, Entries.lookup_filter (· ≠ key), ite_not]
  get _ _ := rfl
  deleteRange start stop entries := by
    funext other
    rw [memoryDatabase, Entries.lookup_filter (fun e ↦ ¬(start ≤ e ∧ e < stop)), ite_not]
  pairwise_seek start entries := by
    have htrans (a b c : Bytes) (hab : decide (a ≤ b) = true) (hbc : decide (b ≤ c) = true) :
        decide (a ≤ c) = true :=
      decide_eq_true (List.le_trans (of_decide_eq_true hab) (of_decide_eq_true hbc))
    have htotal (a b : Bytes) : (decide (a ≤ b) || decide (b ≤ a)) = true := by
      simpa using List.le_total a b
    have hnodup := (List.nodup_dedup (entries.map (·.1))).filter (start ≤ ·)
    refine (SortedList.pairwise_mergeSort htrans htotal hnodup).imp fun h ↦ ?_
    have hle := of_decide_eq_true h.1
    exact List.not_le.mp fun hge ↦ h.2 (List.le_antisymm hle hge)
  mem_seek := by
    intro start key entries
    rw [memoryDatabase, List.mem_mergeSort, List.mem_filter, List.mem_dedup, decide_eq_true_eq,
      Entries.isSome_lookup]
    tauto
  iterated _ _ _ := rfl

end WorkloadAwareCompaction
