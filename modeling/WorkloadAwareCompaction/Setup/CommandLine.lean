import Mathlib.Data.Fintype.Defs
import Mathlib.Logic.Function.Basic
import WorkloadAwareCompaction.Setup.ArgumentParser
import WorkloadAwareCompaction.Setup.Arguments
import WorkloadAwareCompaction.Setup.FlagValues

/-!
# From the arguments to the flags

The flags that `parse_arguments` registers, each with the names it answers to, and what the args
library makes of the arguments of `main`.

A command line that spells settings with numerals is accepted, whatever the spelling of each and
their order. Of several settings of one flag the last one counts, and numbers out of range count for
the nearest one in range (`ofArgs_spells`).
-/

namespace WorkloadAwareCompaction

open CharStream MachineInt

/-- The flags, in the order of their registration. -/
inductive Flag
  | destroyDatabase
  | clearSystemCache
  | sizeRatio
  | bufferSizeInPages
  | entriesPerPage
  | entrySize
  | bufferSize
  | fileToMemtableSizeRatio
  | fileSize
  | compactionPri
  | compactionStyle
  | bitsPerKey
  | blockCache
  | enablePerf
  | enableIostat
  | enableRocksdbStats
  | showProgress
  | verbosity
  | enablePerOpTime
  | enableTotalTime
  | lowPri
  deriving DecidableEq

/-- All flags, as the parser goes through them. -/
def Flag.all : List Flag :=
  [.destroyDatabase, .clearSystemCache, .sizeRatio, .bufferSizeInPages, .entriesPerPage, .entrySize,
    .bufferSize, .fileToMemtableSizeRatio, .fileSize, .compactionPri, .compactionStyle, .bitsPerKey,
    .blockCache, .enablePerf, .enableIostat, .enableRocksdbStats, .showProgress, .verbosity,
    .enablePerOpTime, .enableTotalTime, .lowPri]

/-- The type of the value. -/
def Flag.type : Flag → IntType
  | .bufferSize | .fileSize => .long
  | _ => .int

/-- The name in error messages. -/
def Flag.name : Flag → String
  | .destroyDatabase => "d"
  | .clearSystemCache => "cc"
  | .sizeRatio => "T"
  | .bufferSizeInPages => "P"
  | .entriesPerPage => "B"
  | .entrySize => "E"
  | .bufferSize => "M"
  | .fileToMemtableSizeRatio => "file_to_memtable_size_ratio"
  | .fileSize => "file_size"
  | .compactionPri => "compaction_pri"
  | .compactionStyle => "compaction_style"
  | .bitsPerKey => "bits_per_key"
  | .blockCache => "bb"
  | .enablePerf => "enable_perf_iostat"
  | .enableIostat => "enable_iostat"
  | .enableRocksdbStats => "enable_rocksdb_stats"
  | .showProgress => "show_progress_bar"
  | .verbosity => "verbosity"
  | .enablePerOpTime => "peroptime"
  | .enableTotalTime => "totaltime"
  | .lowPri => "low_pri"

/-- The character after `-`. -/
def Flag.short : Flag → Option Char
  | .destroyDatabase => some 'd'
  | .sizeRatio => some 'T'
  | .bufferSizeInPages => some 'P'
  | .entriesPerPage => some 'B'
  | .entrySize => some 'E'
  | .bufferSize => some 'M'
  | .fileToMemtableSizeRatio => some 'f'
  | .fileSize => some 'F'
  | .compactionPri => some 'c'
  | .compactionStyle => some 'C'
  | .bitsPerKey => some 'b'
  | .verbosity => some 'V'
  | _ => none

/-- The text after `--`. -/
def Flag.long : Flag → String
  | .destroyDatabase => "destroy"
  | .clearSystemCache => "cc"
  | .sizeRatio => "size_ratio"
  | .bufferSizeInPages => "buffer_size_in_pages"
  | .entriesPerPage => "entries_per_page"
  | .entrySize => "entry_size"
  | .bufferSize => "memory_size"
  | .fileToMemtableSizeRatio => "file_to_memtable_size_ratio"
  | .fileSize => "file_size"
  | .compactionPri => "compaction_pri"
  | .compactionStyle => "compaction_style"
  | .bitsPerKey => "bits_per_key"
  | .blockCache => "bb"
  | .enablePerf => "perf"
  | .enableIostat => "iostat"
  | .enableRocksdbStats => "stat"
  | .showProgress => "progress"
  | .verbosity => "verbosity"
  | .enablePerOpTime => "peroptime"
  | .enableTotalTime => "totaltime"
  | .lowPri => "lowpri"

/-- Every flag with its value, if it has been matched. -/
abbrev FlagValues : Type := (f : Flag) → Option (CInt f.type)

/-- No flag has been matched. -/
def FlagValues.reset : FlagValues := fun _ ↦ none

/-- The values under the names of `parse_arguments`. -/
def FlagValues.flags (values : FlagValues) : Flags where
  destroyDatabase := values .destroyDatabase
  clearSystemCache := values .clearSystemCache
  sizeRatio := values .sizeRatio
  bufferSizeInPages := values .bufferSizeInPages
  entriesPerPage := values .entriesPerPage
  entrySize := values .entrySize
  bufferSize := values .bufferSize
  fileToMemtableSizeRatio := values .fileToMemtableSizeRatio
  fileSize := values .fileSize
  compactionPri := values .compactionPri
  compactionStyle := values .compactionStyle
  bitsPerKey := values .bitsPerKey
  blockCache := values .blockCache
  enablePerf := values .enablePerf
  enableIostat := values .enableIostat
  enableRocksdbStats := values .enableRocksdbStats
  showProgress := values .showProgress
  verbosity := values .verbosity
  enablePerOpTime := values .enablePerOpTime
  enableTotalTime := values .enableTotalTime
  lowPri := values .lowPri

/-- The parser of `parse_arguments`. A value that is not matched yet is 0. -/
def parser : ArgumentParser Flag FlagValues where
  matchLong arg := Flag.all.find? (·.long.toList = arg)
  matchShort arg := Flag.all.find? (·.short = some arg)
  parseValue f value values :=
    match valueReader f.type ((values f).getD 0) value with
    | some v => .ok (Function.update values f (some v))
    | none => .error (.invalidValue f.name.toList value)

/-- What `parser.ParseCLI` leaves to `parse_arguments`, from the arguments after the program's name. -/
def CommandLine.ofArgs (args : List (List Char)) : CommandLine :=
  match parser.parse false args .reset with
  | .ok values => .flags values.flags
  | .error _ => .error

/-! ## The names -/

theorem matchLong_eq_some_iff {arg : List Char} {f : Flag} :
    parser.matchLong arg = some f ↔ f.long.toList = arg := by
  constructor
  · intro h
    simpa using List.find?_some h
  · rintro rfl
    cases f <;> rfl

theorem matchShort_eq_some_iff {arg : Char} {f : Flag} :
    parser.matchShort arg = some f ↔ f.short = some arg := by
  constructor
  · intro h
    simpa using List.find?_some h
  · intro h
    cases f <;> simp only [Flag.short, Option.some.injEq, reduceCtorEq] at h <;> subst h <;> rfl

/-! ## The values -/

/-- What is given to a flag. -/
def own {α : Type} (f : Flag) (settings : List (Flag × α)) : List α :=
  settings.filterMap fun s ↦ if s.1 = f then some s.2 else none

/-- What the values given to one flag make of it. -/
def readValues (t : IntType) (previous : Option (CInt t)) (values : List (List Char)) :
    Option (Option (CInt t)) :=
  values.foldlM (fun v value ↦ (valueReader t (v.getD 0) value).map some) previous

section

variable {settings : List (Flag × List Char)} {values values' : FlagValues}

/-- **Flags do not meddle with each other.** -/
theorem parseValues_eq_ok_iff :
    parser.parseValues settings values = .ok values'
      ↔ ∀ f, readValues f.type (values f) (own f settings) = some (values' f) := by
  induction settings generalizing values with
  | nil =>
    show Except.ok values = Except.ok values' ↔ ∀ f, some (values f) = some (values' f)
    simp only [Except.ok.injEq, Option.some.injEq]
    exact funext_iff
  | cons s settings ih =>
    obtain ⟨g, value⟩ := s
    have hown : own g ((g, value) :: settings) = value :: own g settings := by simp [own]
    cases hread : valueReader g.type ((values g).getD 0) value with
    | none =>
      -- The first value that cannot be read ends the parsing, and its flag has no value.
      have herror : parser.parseValues ((g, value) :: settings) values
          = .error (.invalidValue g.name.toList value) := by
        rw [ArgumentParser.parseValues, List.foldlM_cons]
        simp only [parser, hread]
        rfl
      rw [herror]
      refine iff_of_false (by simp) fun h ↦ ?_
      have hg := h g
      rw [hown, readValues, List.foldlM_cons, hread] at hg
      exact absurd hg (by simp)
    | some v =>
      have hok : parser.parseValues ((g, value) :: settings) values
          = parser.parseValues settings (Function.update values g (some v)) := by
        rw [ArgumentParser.parseValues, List.foldlM_cons]
        simp only [parser, hread]
        rfl
      rw [hok, ih]
      refine forall_congr' fun f ↦ ?_
      by_cases hf : f = g
      · subst hf
        rw [hown, Function.update_self, readValues, readValues, List.foldlM_cons, hread]
        rfl
      · have hskip : own f ((g, value) :: settings) = own f settings := by
          simp [own, Ne.symm hf]
        rw [hskip, Function.update_of_ne hf]

/-- Settings that can be read are accepted. -/
theorem ofArgs_of_readValues {chunks args : List (List Char)}
    (hspells : parser.Spells chunks settings)
    (hargs : args = chunks ∨ args = chunks ++ [terminator])
    (hvalues : ∀ f, readValues f.type none (own f settings) = some (values f)) :
    CommandLine.ofArgs args = .flags values.flags := by
  have hparse : parser.parse false args .reset = .ok values :=
    ArgumentParser.parse_eq_ok_iff.mpr
      ⟨chunks, settings, hspells, parseValues_eq_ok_iff.mpr hvalues, hargs⟩
  rw [CommandLine.ofArgs, hparse]

/-- **What is accepted**, and as what: settings, in any order and spelling, and for each flag what
its own values are read as. -/
theorem ofArgs_eq_flags_iff {args : List (List Char)} {flags : Flags} :
    CommandLine.ofArgs args = .flags flags
      ↔ ∃ chunks settings values, parser.Spells chunks settings
        ∧ (args = chunks ∨ args = chunks ++ [terminator])
        ∧ (∀ f, readValues f.type none (own f settings) = some (values f))
        ∧ flags = FlagValues.flags values := by
  constructor
  · intro h
    cases hparse : parser.parse false args .reset with
    | error e =>
      rw [CommandLine.ofArgs, hparse] at h
      exact absurd h (by simp)
    | ok values =>
      rw [CommandLine.ofArgs, hparse] at h
      obtain ⟨chunks, settings, hspells, hvalues, hargs⟩ :=
        ArgumentParser.parse_eq_ok_iff.mp hparse
      exact ⟨chunks, settings, values, hspells, hargs, parseValues_eq_ok_iff.mp hvalues,
        (CommandLine.flags.inj h).symm⟩
  · rintro ⟨chunks, settings, values, hspells, hargs, hvalues, rfl⟩
    exact ofArgs_of_readValues hspells hargs hvalues

/-- **What is rejected**, and why: the settings before the fault are read, and the error is about the
first thing after them that is not a setting. -/
theorem rejected_iff {args : List (List Char)} {e : ParseError} :
    parser.parse false args .reset = .error e
      ↔ ∃ chunks settings rest values, args = chunks ++ rest ∧ parser.Spells chunks settings
        ∧ (∀ f, readValues f.type none (own f settings) = some (values f))
        ∧ parser.Fault values rest e := by
  rw [ArgumentParser.parse_eq_error_iff]
  simp only [parseValues_eq_ok_iff]
  rfl

/-! ## Numerals -/

/-- Settings written with numerals. -/
def Written (numbers : List (Flag × ℤ)) (settings : List (Flag × List Char)) : Prop :=
  List.Forall₂ (fun n s ↦ n.1 = s.1 ∧ IsNumeral n.2 s.2) numbers settings

variable {numbers : List (Flag × ℤ)}

theorem Written.own (h : Written numbers settings) (f : Flag) :
    List.Forall₂ IsNumeral (own f numbers) (own f settings) := by
  induction h with
  | nil => exact .nil
  | @cons n s numbers settings hwrite _ ih =>
    obtain ⟨hflag, hnumeral⟩ := hwrite
    rw [WorkloadAwareCompaction.own, WorkloadAwareCompaction.own, List.filterMap_cons,
      List.filterMap_cons, hflag]
    by_cases hf : s.1 = f
    · simp only [if_pos hf]
      exact .cons hnumeral ih
    · simp only [if_neg hf]
      exact ih

/-- Of numerals the last one counts. -/
theorem readValues_numerals {t : IntType} {ns : List ℤ} {values : List (List Char)}
    (h : List.Forall₂ IsNumeral ns values) (previous : Option (CInt t)) :
    readValues t previous values = some ((ns.getLast?.map (.nearest t)).or previous) := by
  induction h generalizing previous with
  | nil => rfl
  | @cons n value ns values hnumeral _ ih =>
    have hread : valueReader t (previous.getD 0) value = some (.nearest t n) := by
      have h : valueReader t (previous.getD 0) ([] ++ value ++ []) = some (.nearest t n) :=
        valueReader_numeral (by simp) (by simp) hnumeral (Or.inr rfl)
      simpa using h
    rw [readValues, List.foldlM_cons, hread]
    show readValues t (some (.nearest t n)) values = _
    rw [ih, List.getLast?_cons]
    cases ns.getLast? <;> rfl

/-- The last number given to a flag, for the nearest number that its type has. -/
def FlagValues.last (numbers : List (Flag × ℤ)) : FlagValues :=
  fun f ↦ (own f numbers).getLast?.map (.nearest f.type)

theorem Written.readValues_own (h : Written numbers settings) (f : Flag) :
    readValues f.type none (WorkloadAwareCompaction.own f settings)
      = some (FlagValues.last numbers f) := by
  rw [readValues_numerals (h.own f), Option.or_none]
  rfl

/-- **Settings are read back.** Of the numbers given to a flag the last one counts, for the nearest
number that its type has. -/
theorem ofArgs_spells {chunks args : List (List Char)} (hwritten : Written numbers settings)
    (hspells : parser.Spells chunks settings)
    (hargs : args = chunks ∨ args = chunks ++ [terminator]) :
    CommandLine.ofArgs args
      = .flags (FlagValues.flags fun f ↦ (own f numbers).getLast?.map (.nearest f.type)) :=
  ofArgs_of_readValues hspells hargs hwritten.readValues_own

end

/-- All four spellings, a flag that is given twice and once out of range. -/
theorem ofArgs_spells_small :
    ∃ flags, CommandLine.ofArgs (["-C", "1", "-T4", "--entry_size=+64", "-E", "99999999999",
        "--peroptime", "01", "--"].map String.toList) = .flags flags
      ∧ flags.compactionStyle = some 1 ∧ flags.sizeRatio = some 4
      ∧ flags.entrySize.map CInt.val = some 2147483647 ∧ flags.enablePerOpTime = some 1
      ∧ flags.verbosity = none := by
  have hstyle : parser.matchShort 'C' = some .compactionStyle := matchShort_eq_some_iff.mpr rfl
  have hratio : parser.matchShort 'T' = some .sizeRatio := matchShort_eq_some_iff.mpr rfl
  have hlong : parser.matchLong "entry_size".toList = some .entrySize :=
    matchLong_eq_some_iff.mpr rfl
  have hshort : parser.matchShort 'E' = some .entrySize := matchShort_eq_some_iff.mpr rfl
  have htime : parser.matchLong "peroptime".toList = some .enablePerOpTime :=
    matchLong_eq_some_iff.mpr rfl
  have hfour : "4".toList ≠ [] := by decide
  have hspells := ArgumentParser.Spells.cons (.shortSeparate "1".toList hstyle (by decide))
    (.cons (.shortJoined hratio (by decide) hfour)
      (.cons (.longJoined "+64".toList hlong (by decide))
        (.cons (.shortSeparate "99999999999".toList hshort (by decide))
          (.cons (.longSeparate "01".toList htime (by decide) (by decide)) .nil))))
  have hwritten : Written [(.compactionStyle, 1), (.sizeRatio, 4), (.entrySize, 64),
      (.entrySize, 99999999999), (.enablePerOpTime, 1)]
      [(.compactionStyle, "1".toList), (.sizeRatio, "4".toList), (.entrySize, "+64".toList),
        (.entrySize, "99999999999".toList), (.enablePerOpTime, "01".toList)] :=
    have digits {text : List Char} (h : text.all Char.isDigit = true) :
        ∀ c ∈ text, c.isDigit = true := List.all_eq_true.mp h
    .cons ⟨rfl, isNumeral_numeral 1⟩
      (.cons ⟨rfl, isNumeral_numeral 4⟩
        (.cons ⟨rfl, ['+'], "64".toList, rfl, Or.inr (Or.inl rfl), by decide, digits rfl, rfl⟩
          (.cons ⟨rfl, isNumeral_numeral 99999999999⟩
            (.cons ⟨rfl, [], "01".toList, rfl, Or.inl rfl, by decide, digits rfl, rfl⟩ .nil))))
  exact ⟨_, ofArgs_spells hwritten hspells (Or.inr rfl), by decide, by decide, by decide, by decide,
    by decide⟩

end WorkloadAwareCompaction
