import Mathlib.Data.List.Basic

/-!
# Parsing a command line

The args library goes through the arguments from the left. An argument that starts with `--` names a
long flag and, after `=`, its value; one that starts with `-` names a short flag by one character,
and what follows in the same argument is its value. Where there is no value, the next argument is
the value, whatever it looks like. After an argument `--` nothing is a flag any more. Here every flag
takes one value and there are no positional arguments, as in `parse_arguments`.

The accepted command lines are given by a grammar: a sequence of flags with their values, each
spelled in one of four ways (`Spells`), and then at most a `--` (`parse_eq_ok_iff`). Every other
command line is rejected for what is wrong at the first place where the grammar cannot go on
(`parse_eq_error_iff`).
-/

namespace WorkloadAwareCompaction

/-- What the parser throws. -/
inductive ParseError
  | unmatchedLong (arg : List Char)
  | unmatchedShort (arg : Char)
  /-- A flag, by the name it was given, at the end of the command line. -/
  | missingValue (arg : List Char)
  | invalidValue (name value : List Char)
  /-- An argument that is neither a flag nor a value. -/
  | unexpected (chunk : List Char)
  deriving DecidableEq

/-- The text of an error. -/
def ParseError.what : ParseError → List Char
  | .unmatchedLong arg => "Flag could not be matched: ".toList ++ arg
  | .unmatchedShort arg => "Flag could not be matched: '".toList ++ [arg] ++ "'".toList
  | .missingValue arg =>
    "Flag '".toList ++ arg ++ "' requires an argument but received none".toList
  | .invalidValue name value =>
    "Argument '".toList ++ name ++ "' received invalid value type '".toList ++ value ++ "'".toList
  | .unexpected chunk =>
    "Passed in argument, but no positional arguments were ready to receive it: ".toList ++ chunk

/-- The flags of a parser by their names, and what `ParseValue` does to the values read so far. -/
structure ArgumentParser (F V : Type*) where
  matchLong : List Char → Option F
  matchShort : Char → Option F
  parseValue : F → List Char → V → Except ParseError V

/-- The kinds of arguments, with the text after the prefix. -/
inductive OptionType
  | longFlag (argchunk : List Char)
  | shortFlag (arg : Char) (value : List Char)
  | positional

/-- `ParseOption`. -/
def parseOption : List Char → OptionType
  | '-' :: '-' :: c :: argchunk => .longFlag (c :: argchunk)
  | '-' :: c :: value => .shortFlag c value
  | _ => .positional

def terminator : List Char := ['-', '-']

namespace ArgumentParser

variable {F V : Type*} (P : ArgumentParser F V)

/-- `ParseLong` and `ParseShort` up to the value: the flag, the name it was given and the value
joined to it. The loop of `ParseShort` ends with its first turn, since every flag takes a value. -/
def matchOption (chunk : List Char) : Except ParseError (F × List Char × Option (List Char)) :=
  match parseOption chunk with
  | .longFlag argchunk =>
    let arg := argchunk.takeWhile (· ≠ '=')
    let joined := argchunk.dropWhile (· ≠ '=')
    match P.matchLong arg with
    | some f => .ok (f, arg, if joined = [] then none else some joined.tail)
    | none => .error (.unmatchedLong arg)
  | .shortFlag arg value =>
    match P.matchShort arg with
    | some f => .ok (f, [arg], if value = [] then none else some value)
    | none => .error (.unmatchedShort arg)
  | .positional => .error (.unexpected chunk)

/-- `Parse`; the flag says that the terminator has been seen. -/
def parse : Bool → List (List Char) → V → Except ParseError V
  | _, [], v => .ok v
  | true, chunk :: _, _ => .error (.unexpected chunk)
  | false, chunk :: rest, v =>
    if chunk = terminator then parse true rest v
    else
      match P.matchOption chunk with
      | .error e => .error e
      | .ok (f, _, some joined) => (P.parseValue f joined v).bind (parse false rest)
      | .ok (f, arg, none) =>
        -- Whatever comes next is the value.
        match rest with
        | [] => .error (.missingValue arg)
        | value :: rest => (P.parseValue f value v).bind (parse false rest)
termination_by structural _ args => args

/-! ## The grammar -/

/-- The arguments that give a flag a value. -/
inductive Gives : F → List Char → List (List Char) → Prop
  | longJoined {f : F} {arg : List Char} (value : List Char) : P.matchLong arg = some f →
      '=' ∉ arg → Gives f value ['-' :: '-' :: (arg ++ '=' :: value)]
  | longSeparate {f : F} {arg : List Char} (value : List Char) : P.matchLong arg = some f →
      '=' ∉ arg → arg ≠ [] → Gives f value ['-' :: '-' :: arg, value]
  | shortJoined {f : F} {c : Char} {value : List Char} : P.matchShort c = some f → c ≠ '-' →
      value ≠ [] → Gives f value ['-' :: c :: value]
  | shortSeparate {f : F} {c : Char} (value : List Char) : P.matchShort c = some f → c ≠ '-' →
      Gives f value [['-', c], value]

/-- The command lines that give flags their values. -/
inductive Spells : List (List Char) → List (F × List Char) → Prop
  | nil : Spells [] []
  | cons {f : F} {value : List Char} {chunks args : List (List Char)}
      {settings : List (F × List Char)} : P.Gives f value chunks → Spells args settings →
      Spells (chunks ++ args) ((f, value) :: settings)

/-- The values in their order. -/
def parseValues (settings : List (F × List Char)) (v : V) : Except ParseError V :=
  settings.foldlM (fun v s ↦ P.parseValue s.1 s.2 v) v

/-- What can be wrong at the first place where the grammar cannot go on. -/
inductive Fault (v : V) : List (List Char) → ParseError → Prop
  | unexpected {chunk : List Char} (rest : List (List Char)) : parseOption chunk = .positional →
      Fault v (chunk :: rest) (.unexpected chunk)
  | terminated (chunk : List Char) (rest : List (List Char)) :
      Fault v (terminator :: chunk :: rest) (.unexpected chunk)
  | unmatchedLong {arg tail : List Char} (rest : List (List Char)) : P.matchLong arg = none →
      '=' ∉ arg → (∀ c ∈ tail.head?, c = '=') → arg ++ tail ≠ [] →
      Fault v (('-' :: '-' :: (arg ++ tail)) :: rest) (.unmatchedLong arg)
  | unmatchedShort {c : Char} (tail : List Char) (rest : List (List Char)) :
      P.matchShort c = none → c ≠ '-' → Fault v (('-' :: c :: tail) :: rest) (.unmatchedShort c)
  | missingLong {f : F} {arg : List Char} : P.matchLong arg = some f → '=' ∉ arg → arg ≠ [] →
      Fault v ['-' :: '-' :: arg] (.missingValue arg)
  | missingShort {f : F} {c : Char} : P.matchShort c = some f → c ≠ '-' →
      Fault v [['-', c]] (.missingValue [c])
  | invalidValue {f : F} {value : List Char} {chunks : List (List Char)} {e : ParseError}
      (rest : List (List Char)) : P.Gives f value chunks → P.parseValue f value v = .error e →
      Fault v (chunks ++ rest) e

/-! ## The parser and the grammar -/

section

variable {P} {f : F} {c : Char} {arg tail value : List Char} {v v' : V} {e : ParseError}
  {args chunks rest : List (List Char)} {settings : List (F × List Char)}

theorem matchOption_long (h : '=' ∉ arg) (htail : ∀ c ∈ tail.head?, c = '=')
    (hne : arg ++ tail ≠ []) :
    P.matchOption ('-' :: '-' :: (arg ++ tail))
      = match P.matchLong arg with
        | some f => .ok (f, arg, if tail = [] then none else some tail.tail)
        | none => .error (.unmatchedLong arg) := by
  have hkeep : ∀ c ∈ arg, decide (c ≠ '=') = true := by
    intro c hc
    rw [decide_eq_true_eq]
    rintro rfl
    exact h hc
  have hstop : tail.takeWhile (· ≠ '=') = [] ∧ tail.dropWhile (· ≠ '=') = tail := by
    cases tail with
    | nil => exact ⟨rfl, rfl⟩
    | cons c tail =>
      obtain rfl := htail c rfl
      exact ⟨rfl, rfl⟩
  obtain ⟨c, body, hbody⟩ := List.exists_cons_of_ne_nil hne
  have hlong : parseOption ('-' :: '-' :: (arg ++ tail)) = .longFlag (arg ++ tail) := by
    rw [hbody]
    rfl
  rw [matchOption, hlong]
  simp only [List.takeWhile_append_of_pos hkeep, List.dropWhile_append_of_pos hkeep, hstop,
    List.append_nil]

/-- A long flag without a joined value. -/
theorem matchOption_bare (h : '=' ∉ arg) (hne : arg ≠ []) :
    P.matchOption ('-' :: '-' :: arg)
      = match P.matchLong arg with
        | some f => .ok (f, arg, none)
        | none => .error (.unmatchedLong arg) := by
  have hoption : P.matchOption ('-' :: '-' :: (arg ++ [])) = _ :=
    matchOption_long h (by simp) (by simpa using hne)
  rwa [List.append_nil] at hoption

theorem parseOption_short (h : c ≠ '-') : parseOption ('-' :: c :: value) = .shortFlag c value := by
  rw [parseOption]
  intro d rest hc
  exact absurd hc h

theorem matchOption_short (h : c ≠ '-') :
    P.matchOption ('-' :: c :: value)
      = match P.matchShort c with
        | some f => .ok (f, [c], if value = [] then none else some value)
        | none => .error (.unmatchedShort c) := by
  rw [matchOption, parseOption_short h]

theorem ne_terminator_of_short (h : c ≠ '-') : '-' :: c :: value ≠ terminator := by
  intro hc
  exact h (List.cons.inj (List.cons.inj hc).2).1

theorem ne_terminator_of_long (h : arg ≠ []) : '-' :: '-' :: arg ≠ terminator := by
  intro hc
  exact h (List.cons.inj (List.cons.inj hc).2).2

/-- **One flag.** -/
theorem parse_gives (h : P.Gives f value chunks) :
    P.parse false (chunks ++ rest) v = (P.parseValue f value v).bind (P.parse false rest) := by
  cases h with
  | longJoined _ hmatch heq =>
    rw [List.singleton_append, parse, if_neg (ne_terminator_of_long (by simp)),
      matchOption_long heq (by simp) (by simp), hmatch]
    rfl
  | longSeparate _ hmatch heq hne =>
    have hoption := matchOption_bare (P := P) heq hne
    rw [hmatch] at hoption
    rw [List.cons_append, parse, if_neg (ne_terminator_of_long hne), hoption]
    rfl
  | shortJoined hmatch hc hne =>
    rw [List.singleton_append, parse, if_neg (ne_terminator_of_short hc), matchOption_short hc,
      hmatch]
    simp only [if_neg hne]
  | shortSeparate _ hmatch hc =>
    rw [List.cons_append, parse, if_neg (ne_terminator_of_short hc), matchOption_short hc, hmatch]
    rfl

/-- **A sequence of flags.** -/
theorem parse_spells (h : P.Spells chunks settings) :
    P.parse false (chunks ++ rest) v = (P.parseValues settings v).bind (P.parse false rest) := by
  induction h generalizing v with
  | nil => rfl
  | cons hgives _ ih =>
    rw [List.append_assoc, parse_gives hgives, parseValues, List.foldlM_cons]
    cases P.parseValue _ _ v with
    | error e => rfl
    | ok v' => exact ih

theorem parse_terminator : P.parse false [terminator] v = .ok v := by
  rw [parse, if_pos rfl, parse]

theorem parse_fault (h : P.Fault v args e) : P.parse false args v = .error e := by
  cases h with
  | @unexpected chunk rest hpos =>
    have hne : chunk ≠ terminator := by
      rintro rfl
      exact absurd hpos (by simp [terminator, parseOption])
    rw [parse, if_neg hne, matchOption, hpos]
  | terminated chunk rest => rw [parse, if_pos rfl, parse]
  | unmatchedLong rest hmatch heq htail hne =>
    rw [parse, if_neg (ne_terminator_of_long hne), matchOption_long heq htail hne, hmatch]
  | unmatchedShort tail rest hmatch hc =>
    rw [parse, if_neg (ne_terminator_of_short hc), matchOption_short hc, hmatch]
  | @missingLong _ arg hmatch heq hne =>
    have hoption := matchOption_bare (P := P) heq hne
    rw [hmatch] at hoption
    rw [parse, if_neg (ne_terminator_of_long hne), hoption]
  | missingShort hmatch hc =>
    rw [parse, if_neg (ne_terminator_of_short hc), matchOption_short hc, hmatch]
    rfl
  | invalidValue rest hgives hvalue =>
    rw [parse_gives hgives, hvalue]
    rfl

/-- A name and what follows it. -/
theorem exists_arg_tail (argchunk : List Char) :
    ∃ arg tail, argchunk = arg ++ tail ∧ '=' ∉ arg ∧ ∀ c ∈ tail.head?, c = '=' := by
  refine ⟨argchunk.takeWhile (· ≠ '='), argchunk.dropWhile (· ≠ '='),
    List.takeWhile_append_dropWhile.symm, fun hmem ↦ ?_, fun c hc ↦ ?_⟩
  · exact absurd (List.all_eq_true.mp List.all_takeWhile _ hmem) (by simp)
  · have h := List.head?_dropWhile_not (· ≠ '=') argchunk
    rw [Option.mem_def.mp hc] at h
    simpa using h

/-- The kinds of arguments in the words of the grammar. -/
theorem chunk_cases (chunk : List Char) :
    chunk = terminator ∨ parseOption chunk = .positional
      ∨ (∃ arg tail, chunk = '-' :: '-' :: (arg ++ tail) ∧ '=' ∉ arg ∧ (∀ c ∈ tail.head?, c = '=')
        ∧ arg ++ tail ≠ [])
      ∨ ∃ c value, chunk = '-' :: c :: value ∧ c ≠ '-' := by
  rcases chunk with _ | ⟨b, _ | ⟨c, body⟩⟩
  · exact Or.inr (Or.inl rfl)
  · -- A single character is positional, a dash included.
    refine Or.inr (Or.inl ?_)
    rw [parseOption] <;> simp
  · by_cases hb : b = '-'
    · subst hb
      by_cases hc : c = '-'
      · subst hc
        rcases eq_or_ne body [] with rfl | hne
        · exact Or.inl rfl
        · obtain ⟨arg, tail, rfl, harg, htail⟩ := exists_arg_tail body
          exact Or.inr (Or.inr (Or.inl ⟨arg, tail, rfl, harg, htail, hne⟩))
      · exact Or.inr (Or.inr (Or.inr ⟨c, body, rfl, hc⟩))
    · refine Or.inr (Or.inl ?_)
      rw [parseOption] <;> simp [hb]

/-- **How a command line can begin.** -/
theorem begin_cases (args : List (List Char)) :
    args = [] ∨ args = [terminator] ∨ (∃ e, ∀ v, P.Fault v args e)
      ∨ ∃ f value chunks rest, args = chunks ++ rest ∧ chunks ≠ [] ∧ P.Gives f value chunks := by
  rcases args with _ | ⟨chunk, rest⟩
  · exact Or.inl rfl
  right
  rcases chunk_cases chunk with rfl | hpos | ⟨arg, tail, rfl, harg, htail, hne⟩ | ⟨c, value, rfl, hc⟩
  · rcases rest with _ | ⟨chunk, rest⟩
    · exact Or.inl rfl
    · exact Or.inr (Or.inl ⟨_, fun v ↦ .terminated chunk rest⟩)
  · exact Or.inr (Or.inl ⟨_, fun v ↦ .unexpected rest hpos⟩)
  · right
    cases hmatch : P.matchLong arg with
    | none => exact Or.inl ⟨_, fun v ↦ .unmatchedLong rest hmatch harg htail hne⟩
    | some f =>
      rcases tail with _ | ⟨d, value⟩
      · -- No value is joined to the name.
        rw [List.append_nil] at hne ⊢
        rcases rest with _ | ⟨value, rest⟩
        · exact Or.inl ⟨_, fun v ↦ .missingLong hmatch harg hne⟩
        · exact Or.inr ⟨f, value, _, rest, rfl, by simp, .longSeparate value hmatch harg hne⟩
      · obtain rfl := htail d rfl
        exact Or.inr ⟨f, value, _, rest, rfl, by simp, .longJoined value hmatch harg⟩
  · right
    cases hmatch : P.matchShort c with
    | none => exact Or.inl ⟨_, fun v ↦ .unmatchedShort value rest hmatch hc⟩
    | some f =>
      rcases eq_or_ne value [] with rfl | hne
      · rcases rest with _ | ⟨value, rest⟩
        · exact Or.inl ⟨_, fun v ↦ .missingShort hmatch hc⟩
        · exact Or.inr ⟨f, value, _, rest, rfl, by simp, .shortSeparate value hmatch hc⟩
      · exact Or.inr ⟨f, value, _, rest, rfl, by simp, .shortJoined hmatch hc hne⟩

/-- Every command line is read up to its end, up to the terminator or up to a fault. -/
theorem exists_read (P : ArgumentParser F V) (args : List (List Char)) (v : V) :
    ∃ chunks settings rest v', args = chunks ++ rest ∧ P.Spells chunks settings
      ∧ P.parseValues settings v = .ok v'
      ∧ (rest = [] ∨ rest = [terminator] ∨ ∃ e, P.Fault v' rest e) := by
  -- By the number of arguments, since a setting takes one or two of them.
  induction hn : args.length using Nat.strongRecOn generalizing args v with
  | _ n ih =>
    rcases begin_cases (P := P) args with rfl | rfl | ⟨e, hfault⟩ | ⟨f, value, chunks, rest, rfl, hne,
      hgives⟩
    · exact ⟨[], [], [], v, rfl, .nil, rfl, Or.inl rfl⟩
    · exact ⟨[], [], _, v, rfl, .nil, rfl, Or.inr (Or.inl rfl)⟩
    · exact ⟨[], [], args, v, rfl, .nil, rfl, Or.inr (Or.inr ⟨e, hfault v⟩)⟩
    · cases hvalue : P.parseValue f value v with
      | error e =>
        exact ⟨[], [], _, v, rfl, .nil, rfl, Or.inr (Or.inr ⟨e, .invalidValue rest hgives hvalue⟩)⟩
      | ok v₁ =>
        have hlt : rest.length < n := by
          have := List.length_pos_iff.mpr hne
          rw [← hn, List.length_append]
          omega
        obtain ⟨chunks', settings, rest', v', rfl, hspells, hvalues, hrest⟩ := ih _ hlt rest v₁ rfl
        refine ⟨chunks ++ chunks', (f, value) :: settings, rest', v', (List.append_assoc _ _ _).symm,
          .cons hgives hspells, ?_, hrest⟩
        rw [parseValues, List.foldlM_cons]
        show (P.parseValue f value v).bind (P.parseValues settings) = _
        rw [hvalue]
        exact hvalues

/-- What the parser makes of a command line that is read so far. -/
theorem parse_of_read (hspells : P.Spells chunks settings)
    (hvalues : P.parseValues settings v = .ok v') :
    P.parse false (chunks ++ rest) v = P.parse false rest v' := by
  rw [parse_spells hspells, hvalues]
  rfl

/-- **The accepted command lines**, and their values. -/
theorem parse_eq_ok_iff :
    P.parse false args v = .ok v'
      ↔ ∃ chunks settings, P.Spells chunks settings ∧ P.parseValues settings v = .ok v'
        ∧ (args = chunks ∨ args = chunks ++ [terminator]) := by
  constructor
  · intro h
    obtain ⟨chunks, settings, rest, v₁, rfl, hspells, hvalues, hrest⟩ := exists_read P args v
    rw [parse_of_read hspells hvalues] at h
    rcases hrest with rfl | rfl | ⟨e, hfault⟩
    · obtain rfl := Except.ok.inj h
      exact ⟨chunks, settings, hspells, hvalues, Or.inl (List.append_nil _)⟩
    · rw [parse_terminator] at h
      obtain rfl := Except.ok.inj h
      exact ⟨chunks, settings, hspells, hvalues, Or.inr rfl⟩
    · rw [parse_fault hfault] at h
      exact absurd h (by simp)
  · rintro ⟨chunks, settings, hspells, hvalues, rfl | rfl⟩
    · rw [← List.append_nil args, parse_of_read hspells hvalues]
      rfl
    · rw [parse_of_read hspells hvalues, parse_terminator]

/-- **The rejected command lines**, and why. -/
theorem parse_eq_error_iff :
    P.parse false args v = .error e
      ↔ ∃ chunks settings rest v', args = chunks ++ rest ∧ P.Spells chunks settings
        ∧ P.parseValues settings v = .ok v' ∧ P.Fault v' rest e := by
  constructor
  · intro h
    obtain ⟨chunks, settings, rest, v₁, rfl, hspells, hvalues, hrest⟩ := exists_read P args v
    refine ⟨chunks, settings, rest, v₁, rfl, hspells, hvalues, ?_⟩
    rw [parse_of_read hspells hvalues] at h
    rcases hrest with rfl | rfl | ⟨e', hfault⟩
    · exact absurd h (by simp [parse])
    · exact absurd h (by simp [parse_terminator])
    · rw [parse_fault hfault] at h
      exact Except.error.inj h ▸ hfault
  · rintro ⟨chunks, settings, rest, v', rfl, hspells, hvalues, hfault⟩
    rw [parse_of_read hspells hvalues]
    exact parse_fault hfault

/-- A parser with the same names that only notes what it is given. -/
private def recorder (P : ArgumentParser F V) : ArgumentParser F (List (F × List Char)) :=
  { P with parseValue := fun f value settings ↦ .ok (settings ++ [(f, value)]) }

private theorem parse_recorder (h : P.Spells chunks settings) (before : List (F × List Char)) :
    P.recorder.parse false chunks before = .ok (before ++ settings) := by
  induction h generalizing before with
  | nil => rw [parse, List.append_nil]
  | @cons f value chunks args settings hgives _ ih =>
    have hgives' : P.recorder.Gives f value chunks := by
      cases hgives with
      | longJoined _ hmatch heq => exact .longJoined _ hmatch heq
      | longSeparate _ hmatch heq hne => exact .longSeparate _ hmatch heq hne
      | shortJoined hmatch hc hne => exact .shortJoined hmatch hc hne
      | shortSeparate _ hmatch hc => exact .shortSeparate _ hmatch hc
    rw [parse_gives hgives', List.append_cons]
    exact ih _

/-- A command line spells one sequence of settings. -/
theorem Spells.unique {settings' : List (F × List Char)} (h : P.Spells chunks settings)
    (h' : P.Spells chunks settings') : settings = settings' :=
  Except.ok.inj ((parse_recorder h []).symm.trans (parse_recorder h' []))

end

end ArgumentParser

end WorkloadAwareCompaction
