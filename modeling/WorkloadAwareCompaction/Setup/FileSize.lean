import WorkloadAwareCompaction.Setup.Sizes

/-!
# The flags for the size of a file

Two flags are documented as deciding the size of a file, `--file_size` and
`--file_to_memtable_size_ratio`. The value of the first is read by nothing, and the second fills a
field that is read by nothing: the target file size is the buffer size. So two command lines that
differ in one of them give the same options (`options_eq_of_differ`).
-/

namespace WorkloadAwareCompaction

open MachineInt

/-! ## Two command lines -/

/-- The same flags with a larger `--file_size`. -/
def LargerFileSize (flags flags' : Flags) : Prop :=
  ∃ size size' : CInt .long, 0 < size.val ∧ size.val < size'.val ∧ flags.fileSize = some size
    ∧ flags' = { flags with fileSize := some size' }

/-- The same flags with a larger `--file_to_memtable_size_ratio`, and without `--file_size`. -/
def LargerRatio (flags flags' : Flags) : Prop :=
  flags.fileSize = none ∧ ∃ ratio ratio' : CInt .int, 0 < ratio.val ∧ ratio.val < ratio'.val
    ∧ flags.fileToMemtableSizeRatio = some ratio
    ∧ flags' = { flags with fileToMemtableSizeRatio := some ratio' }

/-- The flags did what they are documented to do: the files are larger, the buffer is the same. -/
def LargerFiles (configured configured' : Configured) : Prop :=
  configured.options.targetFileSizeBase.val < configured'.options.targetFileSizeBase.val
    ∧ configured.options.writeBufferSize = configured'.options.writeBufferSize

/-! ## What the flags do -/

section

variable {fp : DoubleArith} {flags flags' : Flags} {env env₁ env₂ : DBEnv}

theorem assignFlags_fileSize (size : Option (CInt .long)) :
    assignFlags fp { flags with fileSize := size } env = assignFlags fp flags env :=
  rfl

/-- The ratio goes into its field. -/
theorem assignFlags_fileToMemtableSizeRatio (ratio : Option (CInt .int)) :
    assignFlags fp { flags with fileToMemtableSizeRatio := ratio } env
      = (assignFlags fp flags env).map fun env' ↦ { env' with
        fileToMemtableSizeRatio :=
          assignInt ratio .unsignedInt env.fileToMemtableSizeRatio } := by
  simp only [assignFlags, bind, Option.map_bind, Function.comp_def, Option.map_some]
  rfl

/-- The field is read by nothing. -/
theorem configOptions_fileToMemtableSizeRatio (ratio : CInt .unsignedInt) (options : StoreOptions)
    (table : TableOptions) (read : ReadOptions) :
    configOptions { env with fileToMemtableSizeRatio := ratio } options table read
      = (configOptions env options table read).map fun configured ↦ { configured with
        env := { configured.env with fileToMemtableSizeRatio := ratio } } := by
  simp only [configOptions, bind, Option.map_bind, Function.comp_def, Option.map_some]
  rfl

/-- Environments that differ in the ratio alone are accepted together. -/
theorem exists_ratio_of_differ (hdiffer : LargerFileSize flags flags' ∨ LargerRatio flags flags')
    (h₁ : parseArguments fp (.flags flags) env = some (.returned 0 env₁))
    (h₂ : parseArguments fp (.flags flags') env = some (.returned 0 env₂)) :
    ∃ ratio, env₂ = { env₁ with fileToMemtableSizeRatio := ratio } := by
  obtain ⟨env₁', hassign₁, henv₁⟩ := Option.map_eq_some_iff.mp h₁
  obtain ⟨env₂', hassign₂, henv₂⟩ := Option.map_eq_some_iff.mp h₂
  obtain ⟨-, rfl⟩ := ParseResult.returned.inj henv₁
  obtain ⟨-, rfl⟩ := ParseResult.returned.inj henv₂
  rcases hdiffer with ⟨size, size', -, -, -, rfl⟩ | ⟨-, ratio, ratio', -, -, -, rfl⟩
  · rw [assignFlags_fileSize, hassign₁] at hassign₂
    exact ⟨_, (Option.some.inj hassign₂).symm⟩
  · rw [assignFlags_fileToMemtableSizeRatio, hassign₁] at hassign₂
    exact ⟨_, (Option.some.inj hassign₂).symm⟩

/-- **The flags change nothing in the options.** -/
theorem options_eq_of_differ (hdiffer : LargerFileSize flags flags' ∨ LargerRatio flags flags')
    (h₁ : parseArguments fp (.flags flags) env = some (.returned 0 env₁))
    (h₂ : parseArguments fp (.flags flags') env = some (.returned 0 env₂))
    {options : StoreOptions} {table : TableOptions} {read : ReadOptions}
    {configured₁ configured₂ : Configured}
    (hconfigured₁ : configOptions env₁ options table read = some configured₁)
    (hconfigured₂ : configOptions env₂ options table read = some configured₂) :
    configured₁.options = configured₂.options := by
  obtain ⟨ratio, rfl⟩ := exists_ratio_of_differ hdiffer h₁ h₂
  rw [configOptions_fileToMemtableSizeRatio, hconfigured₁] at hconfigured₂
  rw [← Option.some.inj hconfigured₂]

/-- **No pair of command lines gets files of different sizes from the flags.** -/
theorem not_largerFiles (hdiffer : LargerFileSize flags flags' ∨ LargerRatio flags flags')
    (h₁ : parseArguments fp (.flags flags) env = some (.returned 0 env₁))
    (h₂ : parseArguments fp (.flags flags') env = some (.returned 0 env₂))
    {options : StoreOptions} {table : TableOptions} {read : ReadOptions}
    {configured₁ configured₂ : Configured}
    (hconfigured₁ : configOptions env₁ options table read = some configured₁)
    (hconfigured₂ : configOptions env₂ options table read = some configured₂) :
    ¬LargerFiles configured₁ configured₂ := by
  rintro ⟨hlt, -⟩
  rw [options_eq_of_differ hdiffer h₁ h₂ hconfigured₁ hconfigured₂] at hlt
  exact lt_irrefl _ hlt

end

/-- `--file_to_memtable_size_ratio 1` against 2. -/
theorem not_largerFiles_small :
    let flags (ratio : CInt .int) : Flags := { fileToMemtableSizeRatio := some ratio }
    let env (ratio : CInt .int) := DBEnv.withFlags {} (flags ratio) 3 4 4
    ∃ configured₁ configured₂,
      configOptions (env 1) plainOptions plainTable plainRead = some configured₁
        ∧ configOptions (env 2) plainOptions plainTable plainRead = some configured₂
        ∧ ¬LargerFiles configured₁ configured₂ := by
  intro flags env
  refine ⟨_, _, rfl, rfl, ?_⟩
  apply not_largerFiles (Or.inr ⟨rfl, 1, 2, by decide, by decide, rfl, rfl⟩)
    (parseArguments_default (flags 1) rfl) (parseArguments_default (flags 2) rfl)
  · exact rfl
  · exact rfl

/-- `--file_size 512` against 1024: the files have the size of the buffer, 524288, in both. -/
theorem same_fileSize_small :
    let flags (size : CInt .long) : Flags := { fileSize := some size }
    let env (size : CInt .long) := DBEnv.withFlags {} (flags size) 3 4 4
    ∃ configured₁ configured₂,
      parseArguments .exact (.flags (flags 512)) {} = some (.returned 0 (env 512))
        ∧ parseArguments .exact (.flags (flags 1024)) {} = some (.returned 0 (env 1024))
        ∧ configOptions (env 512) plainOptions plainTable plainRead = some configured₁
        ∧ configOptions (env 1024) plainOptions plainTable plainRead = some configured₂
        ∧ configured₁.options.targetFileSizeBase = 524288
        ∧ configured₂.options.targetFileSizeBase = 524288
        ∧ ¬LargerFiles configured₁ configured₂ := by
  intro flags env
  have hdefault : (DBEnv.getTargetFileSizeBase {}).convert .uint64 = 524288 := by decide +kernel
  have hsize (size : CInt .long) :
      (env size).getTargetFileSizeBase.convert .uint64 = 524288 := hdefault
  refine ⟨_, _, parseArguments_default _ rfl, parseArguments_default _ rfl, rfl, rfl, hsize 512,
    hsize 1024, ?_⟩
  rintro ⟨hlt, -⟩
  exact absurd ((congrArg CInt.val (hsize 512)).trans (congrArg CInt.val (hsize 1024)).symm) hlt.ne

end WorkloadAwareCompaction
