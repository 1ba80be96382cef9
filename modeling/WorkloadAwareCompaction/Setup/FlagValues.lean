import WorkloadAwareCompaction.Library.Numeral

/-!
# What the value of a flag is read as

The args library reads the value of a flag with `>>`, skips white space, and rejects the value when
anything is left. It never asks whether the read succeeded. So a number out of range is taken for
the nearest one in range, a lone sign for 0, and a blank value leaves the flag's value as it was;
only what the read stumbles over and leaves in the stream is an error (`valueReader_eq_some_iff`).
-/

namespace WorkloadAwareCompaction

open CharStream MachineInt

/-- `args::ValueReader` for an integer type: the value left in `destination`, or `none` where it
throws. -/
def valueReader (t : IntType) (destination : CInt t) (value : List Char) : Option (CInt t) :=
  let read := (IStream.ofList value).getInt t
  if read.2.ws.rest = [] then some (read.1.getD destination) else none

section

variable {t : IntType} {destination v : CInt t} {text : List Char} {n : ℤ}

theorem rest_ws_of_not_good {s : IStream Char} (h : s.good = false) : s.ws.rest = s.rest := by
  rw [IStream.ws, h]
  rfl

theorem rest_ws_eq_nil_iff {rest : List Char} {eofbit : Bool} {inRange : Prop} [Decidable inRange]
    (heof : eofbit = rest.isEmpty) :
    (IStream.ws ⟨rest, eofbit, !decide inRange⟩).rest = []
      ↔ rest = [] ∨ inRange ∧ ∀ c ∈ rest, isBlank c = true := by
  subst heof
  by_cases hgood : rest ≠ [] ∧ inRange
  · obtain ⟨hne, hin⟩ := hgood
    rw [IStream.ws, if_pos (by simp [IStream.good, hne, hin]), List.dropWhile_eq_nil_iff]
    simp [hne, hin]
  · rw [rest_ws_of_not_good]
    · grind
    · simp only [IStream.good]
      grind

theorem valueReader_blank (h : ∀ c ∈ text, isBlank c = true) :
    valueReader t destination text = some destination := by
  rw [valueReader, getInt_blank t h]
  rfl

/-- What the reader does with a text in parts. -/
theorem valueReader_intParts_iff {gap sign digits rest : List Char} {negative : Bool}
    (h : IntParts gap sign digits rest negative) :
    valueReader t destination (gap ++ (sign ++ (digits ++ rest))) = some v
      ↔ digits = [] ∧ rest = [] ∧ v = 0
        ∨ digits ≠ [] ∧ v = .nearest t (signed negative digits)
          ∧ (rest = [] ∨ t.InRange (signed negative digits) ∧ ∀ c ∈ rest, isBlank c = true) := by
  rw [valueReader, h.getInt_eq]
  by_cases hdigits : digits = []
  · -- The read has failed, so the stream skips no white space.
    simp only [if_pos hdigits]
    rw [rest_ws_of_not_good (by simp [IStream.good])]
    split_ifs with hrest
    · have hnil : rest = [] := hrest
      rw [Option.some_inj, eq_comm]
      simp [hdigits, hnil]
    · have hne : rest ≠ [] := hrest
      simp [hdigits, hne]
  · simp only [if_neg hdigits]
    split_ifs with hrest <;> rw [rest_ws_eq_nil_iff rfl] at hrest
    · rw [Option.some_inj, eq_comm]
      simp [hdigits, hrest]
    · simp [hdigits, hrest]

theorem valueReader_sign {gap : List Char} {c : Char} (hgap : ∀ c ∈ gap, isBlank c = true)
    (hc : c = '+' ∨ c = '-') : valueReader t destination (gap ++ [c]) = some 0 := by
  have hsign : ∃ negative, SignOf [c] negative ([] ++ []) := by
    rcases hc with rfl | rfl
    · exact ⟨_, .plus⟩
    · exact ⟨_, .minus⟩
  obtain ⟨negative, hsign⟩ := hsign
  have hparts : IntParts gap [c] [] [] negative :=
    ⟨hgap, hsign, by simp, by simp, by rcases hc with rfl | rfl <;> simp [isBlank], by simp⟩
  exact (valueReader_intParts_iff hparts).mpr (Or.inl ⟨rfl, rfl, rfl⟩)

/-- A numeral; white space may follow it only when the number is in range. -/
theorem valueReader_numeral {gap gap' : List Char} (hgap : ∀ c ∈ gap, isBlank c = true)
    (hgap' : ∀ c ∈ gap', isBlank c = true) (h : IsNumeral n text)
    (hrange : t.InRange n ∨ gap' = []) :
    valueReader t destination (gap ++ text ++ gap') = some (.nearest t n) := by
  obtain ⟨sign, digits, negative, htext, hne, rfl, hparts⟩ := h.exists_intParts hgap hgap'
  rw [htext, valueReader_intParts_iff hparts]
  exact Or.inr ⟨hne, rfl, hrange.symm.imp id fun hrange ↦ ⟨hrange, hgap'⟩⟩

/-- **What a value is read as**, and which values are rejected: all others. -/
theorem valueReader_eq_some_iff :
    valueReader t destination text = some v
      ↔ (∀ c ∈ text, isBlank c = true) ∧ v = destination
        ∨ (∃ gap c, text = gap ++ [c] ∧ (∀ c ∈ gap, isBlank c = true) ∧ (c = '+' ∨ c = '-') ∧ v = 0)
        ∨ ∃ gap body gap' n, text = gap ++ body ++ gap' ∧ (∀ c ∈ gap, isBlank c = true)
          ∧ (∀ c ∈ gap', isBlank c = true) ∧ IsNumeral n body ∧ (t.InRange n ∨ gap' = [])
          ∧ v = .nearest t n := by
  constructor
  · intro h
    rcases blank_or_intParts text with hblank | ⟨gap, sign, digits, rest, negative, rfl, hparts⟩
    · rw [valueReader_blank hblank] at h
      exact Or.inl ⟨hblank, (Option.some.inj h).symm⟩
    · right
      obtain ⟨hsigns, rfl⟩ := hparts.signOf.sign_cases
      rcases (valueReader_intParts_iff hparts).mp h with ⟨rfl, rfl, hv⟩ | ⟨hne, hv, hrest⟩
      · -- No digit: the text ends with a sign.
        refine Or.inl ⟨gap, ?_⟩
        rcases hsigns with rfl | rfl | rfl
        · exact absurd rfl hparts.ne_nil
        · exact ⟨'+', rfl, hparts.blank_gap, Or.inl rfl, hv⟩
        · exact ⟨'-', rfl, hparts.blank_gap, Or.inr rfl, hv⟩
      · refine Or.inr ⟨gap, sign ++ digits, rest, _, ?_, hparts.blank_gap, ?_,
          ⟨sign, digits, rfl, hsigns, hne, hparts.isDigit_digits, rfl⟩, ?_, hv⟩
        · rw [List.append_assoc, List.append_assoc]
        · rcases hrest with rfl | ⟨-, hblank⟩
          · simp
          · exact hblank
        · exact hrest.symm.imp And.left id
  · rintro (⟨hblank, rfl⟩ | ⟨gap, c, rfl, hgap, hc, rfl⟩
      | ⟨gap, body, gap', n, rfl, hgap, hgap', hbody, hrange, rfl⟩)
    · exact valueReader_blank hblank
    · exact valueReader_sign hgap hc
    · exact valueReader_numeral hgap hgap' hbody hrange

end

end WorkloadAwareCompaction
