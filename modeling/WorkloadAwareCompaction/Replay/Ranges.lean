import WorkloadAwareCompaction.Replay.OrderedMap
import WorkloadAwareCompaction.Setup.Options

/-!
# Scans and range deletes

A range of keys is given by a start, which belongs to it, and an end, which does not, in the order
of the database's comparator. A range delete leaves it to the database. A scan starts where the
iterator does, so in the order of the comparator; but its loop compares with the end itself, as byte
strings. With the bytewise comparator the two orders are the same. With its reverse the keys come in
descending order and the loop stops at the first of them, unless that one is already behind the end
(`takeWhile_of_descending`).
-/

namespace WorkloadAwareCompaction

/-! ## The order of a comparator -/

namespace Comparator

/-- The first key comes before the second. -/
def Before : Comparator → Bytes → Bytes → Prop
  | bytewise, a, b => a < b
  | reverseBytewise, a, b => b < a

/-- The first key is not after the second. -/
def NotAfter : Comparator → Bytes → Bytes → Prop
  | bytewise, a, b => a ≤ b
  | reverseBytewise, a, b => b ≤ a

instance : (c : Comparator) → DecidableRel c.Before
  | bytewise, a, b => inferInstanceAs (Decidable (a < b))
  | reverseBytewise, a, b => inferInstanceAs (Decidable (b < a))

instance : (c : Comparator) → DecidableRel c.NotAfter
  | bytewise, a, b => inferInstanceAs (Decidable (a ≤ b))
  | reverseBytewise, a, b => inferInstanceAs (Decidable (b ≤ a))

theorem NotAfter.trans {c : Comparator} {x y z : Bytes} (hxy : c.NotAfter x y)
    (hyz : c.NotAfter y z) : c.NotAfter x z := by
  cases c with
  | bytewise => exact List.le_trans hxy hyz
  | reverseBytewise => exact List.le_trans hyz hxy

theorem notAfter_total (c : Comparator) (x y : Bytes) : c.NotAfter x y ∨ c.NotAfter y x := by
  cases c with
  | bytewise => exact List.le_total x y
  | reverseBytewise => exact List.le_total y x

theorem NotAfter.before_of_ne {c : Comparator} {x y : Bytes} (h : c.NotAfter x y) (hne : x ≠ y) :
    c.Before x y := by
  cases c with
  | bytewise => exact List.not_le.mp fun hge ↦ hne (List.le_antisymm h hge)
  | reverseBytewise => exact List.not_le.mp fun hge ↦ hne (List.le_antisymm hge h)

theorem not_before_self (c : Comparator) (x : Bytes) : ¬c.Before x x := by
  cases c with
  | bytewise => exact List.lt_irrefl x
  | reverseBytewise => exact List.lt_irrefl x

end Comparator

/-- The keys from `start` on and before `stop`. -/
def InKeyRange (c : Comparator) (start stop key : Bytes) : Prop :=
  c.NotAfter start key ∧ c.Before key stop

instance (c : Comparator) (start stop : Bytes) : DecidablePred (InKeyRange c start stop) :=
  fun _ ↦ inferInstanceAs (Decidable (_ ∧ _))

/-- What is assumed of a database with a comparator: a range delete removes the range, and an
iterator runs through the keys from its start on in the order of the comparator. -/
structure RangeMap (c : Comparator) {σ : Type} (D : Database σ) (view : σ → Bytes → Option Bytes) :
    Prop where
  deleteRange (start stop : Bytes) (db : σ) : view (D.deleteRange start stop db).2
    = fun key ↦ if InKeyRange c start stop key then none else view db key
  pairwise_seek (start : Bytes) (db : σ) : (D.seek start db).keys.Pairwise c.Before
  mem_seek {start key : Bytes} {db : σ} :
    key ∈ (D.seek start db).keys ↔ c.NotAfter start key ∧ (view db key).isSome = true

/-- An ordered map is one with the bytewise comparator. -/
theorem OrderedMap.rangeMap {σ : Type} {D : Database σ} {view : σ → Bytes → Option Bytes}
    (h : OrderedMap D view) : RangeMap .bytewise D view where
  deleteRange := h.deleteRange
  pairwise_seek := h.pairwise_seek
  mem_seek := h.mem_seek

/-! ## What a scan covers -/

section

variable (c : Comparator) {σ : Type} (D : Database σ) (view : σ → Bytes → Option Bytes)

/-- The scan steps past the keys of its range, which are those that the range delete removes, and
stops at the first key outside of it. -/
structure ScanCovers (start stop : Bytes) (db : σ) : Prop where
  passed (key : Bytes) :
    key ∈ (D.seek start db).keys.take (scanLoop stop (D.seek start db).keys)
      ↔ (view db key).isSome = true ∧ InKeyRange c start stop key
  removed (key : Bytes) :
    key ∈ (D.seek start db).keys.take (scanLoop stop (D.seek start db).keys)
      ↔ (view db key).isSome = true ∧ view (D.deleteRange start stop db).2 key = none
  stopped (key : Bytes) :
    (D.seek start db).keys[scanLoop stop (D.seek start db).keys]? = some key →
      ¬InKeyRange c start stop key

variable {c D view}

/-- What a range delete removes is the range, and a key that comes again is none of those passed. -/
theorem RangeMap.scanCovers_iff_passed (h : RangeMap c D view) (start stop : Bytes) (db : σ) :
    ScanCovers c D view start stop db ↔ ∀ key,
      key ∈ (D.seek start db).keys.takeWhile (· < stop)
        ↔ (view db key).isSome = true ∧ InKeyRange c start stop key := by
  rw [← take_scanLoop]
  refine ⟨ScanCovers.passed, fun hpassed ↦ ⟨hpassed, fun key ↦ ?_, fun key hkey hrange ↦ ?_⟩⟩
  · rw [hpassed, h.deleteRange]
    refine and_congr_right fun hsome ↦ ?_
    beta_reduce
    split_ifs with hrange
    · exact iff_of_true hrange rfl
    · refine iff_of_false hrange fun hnone ↦ ?_
      rw [hnone] at hsome
      exact absurd hsome (by simp)
  · have hmem := (h.mem_seek.mp (List.mem_of_getElem? hkey)).2
    obtain ⟨i, hi, hget⟩ := List.mem_take_iff_getElem.mp ((hpassed key).mpr ⟨hmem, hrange⟩)
    obtain ⟨hlt, hget'⟩ := List.getElem?_eq_some_iff.mp hkey
    have hbefore := List.pairwise_iff_getElem.mp (h.pairwise_seek start db) i _ (by omega) hlt
      (by omega)
    rw [hget, hget'] at hbefore
    exact c.not_before_self key hbefore

/-- In ascending order the loop passes the keys below the end. -/
theorem RangeMap.scanCovers_of_bytewise (h : RangeMap .bytewise D view) (start stop : Bytes)
    (db : σ) : ScanCovers .bytewise D view start stop db := by
  rw [h.scanCovers_iff_passed]
  intro key
  rw [← take_scanLoop, take_scanLoop_eq_filter (h.pairwise_seek start db), List.mem_filter,
    h.mem_seek, decide_eq_true_eq, and_assoc, and_left_comm]
  rfl

/-- In descending order the loop passes all keys or none. -/
theorem takeWhile_of_descending {key : Bytes} {keys : List Bytes}
    (hkeys : (key :: keys).Pairwise Comparator.reverseBytewise.Before) (stop : Bytes) :
    (key :: keys).takeWhile (· < stop) = if key < stop then key :: keys else [] := by
  split_ifs with hkey
  · have hall : ∀ other ∈ key :: keys, other < stop := by
      refine List.forall_mem_cons.mpr ⟨hkey, fun other hmem ↦ ?_⟩
      exact List.lt_trans ((List.pairwise_cons.mp hkeys).1 other hmem) hkey
    exact List.takeWhile_eq_self_iff.mpr fun other hmem ↦ decide_eq_true (hall other hmem)
  · exact List.takeWhile_cons_of_neg (by simpa using hkey)

/-- In descending order the first key of an iterator is the largest up to its start. -/
theorem RangeMap.seek_cases (h : RangeMap .reverseBytewise D view) (start : Bytes) (db : σ) :
    (D.seek start db).keys = [] ∧ (∀ key, (view db key).isSome = true → ¬key ≤ start)
      ∨ ∃ first rest, (D.seek start db).keys = first :: rest
        ∧ (view db first).isSome = true ∧ first ≤ start
        ∧ ∀ key, (view db key).isSome = true → key ≤ start → key ≤ first := by
  have hsorted := h.pairwise_seek start db
  have hmem (key : Bytes) : key ∈ (D.seek start db).keys
      ↔ key ≤ start ∧ (view db key).isSome = true := h.mem_seek
  cases hkeys : (D.seek start db).keys with
  | nil =>
    refine Or.inl ⟨rfl, fun key hsome hle ↦ ?_⟩
    have hin := (hmem key).mpr ⟨hle, hsome⟩
    rw [hkeys] at hin
    exact absurd hin List.not_mem_nil
  | cons first rest =>
    rw [hkeys] at hsorted
    obtain ⟨hfirst, hsome⟩ := (hmem first).mp (hkeys ▸ List.mem_cons_self)
    refine Or.inr ⟨first, rest, rfl, hsome, hfirst, fun key hkey hle ↦ ?_⟩
    have hin := (hmem key).mpr ⟨hle, hkey⟩
    rw [hkeys] at hin
    rcases List.mem_cons.mp hin with rfl | hrest
    · exact List.le_refl key
    · exact List.le_of_lt ((List.pairwise_cons.mp hsorted).1 key hrest)

/-- In descending order the range is covered when there is nothing to scan: no key up to the start,
or none between the end and the start but the end itself. -/
theorem RangeMap.scanCovers_reverse_iff (h : RangeMap .reverseBytewise D view)
    (start stop : Bytes) (db : σ) : ScanCovers .reverseBytewise D view start stop db
      ↔ (∀ key, (view db key).isSome = true → ¬key ≤ start)
        ∨ (view db stop).isSome = true ∧ stop ≤ start
          ∧ ∀ key, (view db key).isSome = true → key ≤ start → key ≤ stop := by
  rw [h.scanCovers_iff_passed]
  rcases h.seek_cases start db with
    ⟨hkeys, hnone⟩ | ⟨first, rest, hkeys, hsome, hfirst, hlargest⟩
  · rw [hkeys]
    refine iff_of_true (fun key ↦ ?_) (Or.inl hnone)
    exact iff_of_false List.not_mem_nil fun hrange ↦ hnone key hrange.1 hrange.2.1
  · rw [hkeys, takeWhile_of_descending (hkeys ▸ h.pairwise_seek start db)]
    constructor
    · intro hpassed
      -- The first key would be passed outside the range, or not passed inside it.
      have heq : first = stop := by
        by_contra hne
        have hrange := hpassed first
        split_ifs at hrange with hlt
        · exact List.lt_asymm hlt (hrange.mp List.mem_cons_self).2.2
        · have hbefore : Comparator.reverseBytewise.Before first stop :=
            Comparator.NotAfter.before_of_ne (List.not_lt.mp hlt) hne
          exact absurd (hrange.mpr ⟨hsome, hfirst, hbefore⟩) List.not_mem_nil
      subst heq
      exact Or.inr ⟨hsome, hfirst, hlargest⟩
    · rintro (hnone | ⟨hstop, hle, hlast⟩)
      · exact absurd hfirst (hnone first hsome)
      · obtain rfl := List.le_antisymm (hlast first hsome hfirst) (hlargest stop hstop hle)
        rw [if_neg (List.lt_irrefl first)]
        intro key
        refine iff_of_false List.not_mem_nil fun hrange ↦ ?_
        exact List.not_le.mpr hrange.2.2 (hlast key hrange.1 hrange.2.1)

/-- **When a scan covers its range**: with the bytewise comparator always; with its reverse when
there is nothing to scan. -/
theorem scanCovers_iff (h : RangeMap c D view) (start stop : Bytes) (db : σ) :
    ScanCovers c D view start stop db ↔ c = .bytewise
      ∨ (∀ key, (view db key).isSome = true → ¬key ≤ start)
      ∨ (view db stop).isSome = true ∧ stop ≤ start
        ∧ ∀ key, (view db key).isSome = true → key ≤ start → key ≤ stop := by
  cases c with
  | bytewise => exact iff_of_true (h.scanCovers_of_bytewise start stop db) (Or.inl rfl)
  | reverseBytewise =>
    rw [h.scanCovers_reverse_iff]
    exact (or_iff_right (by decide)).symm

end

/-! ## A database for each comparator -/

/-- The database of entries, its keys in the order of the comparator. -/
def rangeDatabase (c : Comparator) : Database Entries :=
  { memoryDatabase with
    deleteRange := fun start stop entries ↦
      (.ok, entries.filter fun e ↦ ¬InKeyRange c start stop e.1)
    seek := fun start entries ↦
      ⟨((entries.map (·.1)).dedup.filter (c.NotAfter start ·)).mergeSort (c.NotAfter · ·),
        fun _ ↦ .ok⟩ }

theorem rangeMap_rangeDatabase (c : Comparator) : RangeMap c (rangeDatabase c) Entries.lookup where
  deleteRange start stop entries := by
    funext other
    rw [rangeDatabase, Entries.lookup_filter (fun e ↦ ¬InKeyRange c start stop e), ite_not]
  pairwise_seek start entries := by
    have htrans (x y z : Bytes) (hxy : decide (c.NotAfter x y) = true)
        (hyz : decide (c.NotAfter y z) = true) : decide (c.NotAfter x z) = true :=
      decide_eq_true ((of_decide_eq_true hxy).trans (of_decide_eq_true hyz))
    have htotal (x y : Bytes) : (decide (c.NotAfter x y) || decide (c.NotAfter y x)) = true := by
      simpa using c.notAfter_total x y
    have hnodup := (List.nodup_dedup (entries.map (·.1))).filter (c.NotAfter start ·)
    refine (SortedList.pairwise_mergeSort htrans htotal hnodup).imp fun h ↦ ?_
    exact (of_decide_eq_true h.1).before_of_ne h.2
  mem_seek := by
    intro start key entries
    rw [rangeDatabase, List.mem_mergeSort, List.mem_filter, List.mem_dedup, decide_eq_true_eq,
      Entries.isSome_lookup]
    tauto

/-- The keys `a`, `b`, `c`, scanned from `a` to `c` in ascending order. -/
theorem scanCovers_small : ScanCovers .bytewise (rangeDatabase .bytewise) Entries.lookup [97] [99]
    [([97], []), ([98], []), ([99], [])] :=
  (scanCovers_iff (rangeMap_rangeDatabase .bytewise) _ _ _).mpr (Or.inl rfl)

/-- The same keys in descending order, from `c` to `a`: the loop stops at once, and the range delete
removes two keys. -/
theorem not_scanCovers_small :
    ¬ScanCovers .reverseBytewise (rangeDatabase .reverseBytewise) Entries.lookup [99] [97]
      [([97], []), ([98], []), ([99], [])] := by
  rw [(rangeMap_rangeDatabase .reverseBytewise).scanCovers_reverse_iff]
  rintro (hnone | ⟨-, -, hlast⟩)
  · exact hnone [99] (by decide +kernel) (List.le_refl _)
  · exact absurd (hlast [99] (by decide +kernel) (List.le_refl _)) (by decide +kernel)

end WorkloadAwareCompaction
