import HeapFlow.Options.Arguments

/-! # Options that cannot be read

Options are set one after the other from what has been matched: first the routine, the diagnostics
and the order of the worklist, then the two numbers.  Nothing is set if the words of a line cannot be
told apart or if they cannot be matched.  But whether a number is one is found out when it is its
turn, and then the options before it have been set (`Options.setBefore`).

So a reading that fails leaves the options as they were exactly if each of the options that were set
had the value before that it was given (`Options.failure_keeps_iff`).  This is not always so
(`Options.failure_changes`).
-/
namespace HeapFlow
namespace Options

open Arguments

/-- The number that was given for an option, if there is one and if it is a number. -/
def givenNumber? (given : Matched) (name : OptionName) : Option Nat :=
  (valueOf? given name).bind number?

/-- The option has the value that was given for it, or any value if none was given.  Options with a
limited choice of values have the first one if none was given. -/
def AgreesWith (given : Matched) (options : Options) : OptionName → Prop
  | .singleRoutine =>
    ∀ text, valueOf? given .singleRoutine = some text → options.singleRoutine? = some text
  | .diagnostics =>
    options.diagnostics = .paranoid ↔ valueOf? given .diagnostics = some "paranoid"
  | .worklistOrder =>
    options.worklistOrder = .latestFirst ↔ valueOf? given .worklistOrder = some "reverse_rpo"
  | .maxIterations => ∀ n, givenNumber? given .maxIterations = some n → options.maxIterations = n
  | .widenAfter => ∀ n, givenNumber? given .widenAfter = some n → options.widenAfter = n

/-- The options that are set before it is found out that the given one is not a number. -/
def setBefore : OptionName → List OptionName
  | .maxIterations => [.singleRoutine, .diagnostics, .worklistOrder]
  | .widenAfter => [.singleRoutine, .diagnostics, .worklistOrder, .maxIterations]
  | .singleRoutine | .diagnostics | .worklistOrder => []

/-- What was given for the options that are set before the error is found is what they had. -/
def FailureKeeps (options : Options) (words : List String) : OptionsError → Prop
  | .mismatchedQuotes | .unmatched => True
  | .notAnInteger name _ => ∀ given, matchWords [] (words.map Word.ofText) = .matched given →
      ∀ earlier ∈ setBefore name, options.AgreesWith given earlier

/-! ## Setting options -/

variable {given : Matched} {options : Options}

theorem setChoices_eq_self_iff : options.setChoices given = options ↔
    options.AgreesWith given .singleRoutine ∧ options.AgreesWith given .diagnostics ∧
      options.AgreesWith given .worklistOrder := by
  obtain ⟨singleRoutine?, diagnostics, maxIterations, widenAfter, worklistOrder⟩ := options
  have hroutine : (valueOf? given .singleRoutine).or singleRoutine? = singleRoutine? ↔
      ∀ text, valueOf? given .singleRoutine = some text → singleRoutine? = some text := by
    cases valueOf? given .singleRoutine <;> simp [eq_comm]
  have hdiagnostics : (if valueOf? given .diagnostics = some "paranoid" then .paranoid
      else .standard) = diagnostics ↔
        (diagnostics = .paranoid ↔ valueOf? given .diagnostics = some "paranoid") := by
    cases diagnostics <;> split <;> simp_all
  have hworklist : (if valueOf? given .worklistOrder = some "reverse_rpo" then .latestFirst
      else .earliestFirst) = worklistOrder ↔
        (worklistOrder = .latestFirst ↔ valueOf? given .worklistOrder = some "reverse_rpo") := by
    cases worklistOrder <;> split <;> simp_all
  simp only [setChoices, AgreesWith, mk.injEq, true_and, hroutine, hdiagnostics, hworklist]

/-- A number is set if it is one, and an option without a number stays as it is. -/
theorem setNumber_cases (given : Matched) (options : Options) (name : OptionName)
    (set : Nat → Options → Options) :
    (∃ text, options.setNumber given name set = .error (.notAnInteger name text)) ∨
      options.setNumber given name set =
        .ok ((givenNumber? given name).elim options (set · options)) := by
  unfold setNumber givenNumber?
  cases valueOf? given name with
  | none => exact .inr rfl
  | some text =>
    cases hnumber : number? text with
    | none => exact .inl ⟨text, by simp [hnumber]⟩
    | some n => exact .inr (by simp [hnumber])

/-- The options after all but the last one have been set. -/
def setLimit (given : Matched) (options : Options) : Options :=
  { options.setChoices given with
    maxIterations := (givenNumber? given .maxIterations).getD options.maxIterations }

/-- How far the options are set, and the error that keeps them from being set any further. -/
theorem apply_cases (given : Matched) (options : Options) :
    (∃ text, options.apply given =
      (options.setChoices given, .error (.notAnInteger .maxIterations text))) ∨
    (∃ text, options.apply given =
      (options.setLimit given, .error (.notAnInteger .widenAfter text))) ∨
    options.apply given = ({ options.setLimit given with
      widenAfter := (givenNumber? given .widenAfter).getD options.widenAfter }, .ok ()) := by
  unfold apply
  rcases setNumber_cases given (options.setChoices given) .maxIterations
      fun n options => { options with maxIterations := n } with ⟨text, hmax⟩ | hmax
  · exact .inl ⟨text, by simp only [hmax]⟩
  have hlimit : (givenNumber? given .maxIterations).elim (options.setChoices given)
      (fun n => { options.setChoices given with maxIterations := n }) = options.setLimit given := by
    unfold setLimit
    cases givenNumber? given .maxIterations <;> rfl
  rw [hlimit] at hmax
  simp only [hmax]
  rcases setNumber_cases given (options.setLimit given) .widenAfter
      fun n options => { options with widenAfter := n } with ⟨text, hwiden⟩ | hwiden
  · exact .inr (.inl ⟨text, by rw [hwiden]⟩)
  · rw [hwiden]
    refine .inr (.inr ?_)
    cases givenNumber? given .widenAfter <;> rfl

theorem setLimit_eq_self_iff : options.setLimit given = options ↔
    options.setChoices given = options ∧ options.AgreesWith given .maxIterations := by
  have hlimit : (givenNumber? given .maxIterations).getD options.maxIterations =
      options.maxIterations ↔ options.AgreesWith given .maxIterations := by
    unfold AgreesWith
    cases givenNumber? given .maxIterations <;> simp [eq_comm]
  rw [← hlimit]
  constructor
  · intro h
    refine ⟨?_, congrArg Options.maxIterations h⟩
    calc options.setChoices given
        = { options.setLimit given with maxIterations := options.maxIterations } := rfl
      _ = options := by rw [h]
  · rintro ⟨hchoices, hnumber⟩
    rw [setLimit, hchoices, hnumber]

/-! ## Failures -/

/-- An error is found before anything is set, or when it is the turn of an option that has to be a
number. -/
theorem parse_of_error {words : List String} {error : OptionsError}
    (h : (options.parse words).2 = .error error) :
    (options.parse words).1 = options ∧ error = .unmatched ∨
      ∃ given, matchWords [] (words.map Word.ofText) = .matched given ∧
        options.parse words = options.apply given := by
  unfold parse at h ⊢
  split at h
  · cases h
  · exact .inl ⟨rfl, (Except.error.inj h).symm⟩
  · next given hmatched =>
    split at h
    · next hproper => exact .inr ⟨given, hmatched, by rw [if_pos hproper]⟩
    · next hproper =>
      rw [if_neg hproper]
      exact .inl ⟨rfl, (Except.error.inj h).symm⟩

theorem parse_error_keeps_iff {words : List String} {error : OptionsError}
    (h : (options.parse words).2 = .error error) :
    (options.parse words).1 = options ↔ options.FailureKeeps words error := by
  rcases parse_of_error h with ⟨hkept, rfl⟩ | ⟨given, hmatched, hparse⟩
  · exact iff_of_true hkept trivial
  rw [hparse] at h ⊢
  have hgiven : ∀ name text, options.FailureKeeps words (.notAnInteger name text) ↔
      ∀ earlier ∈ setBefore name, options.AgreesWith given earlier := by
    intro name text
    simp only [FailureKeeps, hmatched, Arguments.Outcome.matched.injEq, forall_eq']
  rcases options.apply_cases given with ⟨text, hcase⟩ | ⟨text, hcase⟩ | hcase
  · rw [hcase] at h ⊢
    rw [← Except.error.inj h, hgiven, setChoices_eq_self_iff]
    simp [setBefore]
  · rw [hcase] at h ⊢
    rw [← Except.error.inj h, hgiven, setLimit_eq_self_iff, setChoices_eq_self_iff]
    simp [setBefore, and_assoc]
  · rw [hcase] at h
    cases h

/-- **What a failure keeps.**  Options that could not be read are as they were exactly if the quotes
or the words are at fault, or if every option that comes before the one that is not a number had the
value that it is given. -/
theorem failure_keeps_iff (options : Options) :
    (∀ words error, (options.parse words).2 = .error error →
      ((options.parse words).1 = options ↔ options.FailureKeeps words error)) ∧
    ∀ line error, (options.parseLine line).2 = .error error →
      ((options.parseLine line).1 = options ↔
        ∀ words, Words.split? line = some words → options.FailureKeeps words error) := by
  refine ⟨fun _ _ => parse_error_keeps_iff, fun line error h => ?_⟩
  unfold parseLine at h ⊢
  cases hwords : Words.split? line with
  | none => simp
  | some words =>
    rw [hwords] at h
    simp only [Option.some.injEq, forall_eq']
    exact parse_error_keeps_iff h

/-- The limit is given again before the option that is not a number, in words and in a line. -/
theorem failure_keeps_repeatedNumber :
    let options : Options := { maxIterations := 7 }
    let words := ["--max_fixpoint_iterations", "7", "--widen_after", "many"]
    let line := "--max_fixpoint_iterations 7 --widen_after many"
    (options.parse words).2 = .error (.notAnInteger .widenAfter "many") ∧
      (options.parse words).1 = options ∧
      (options.parseLine line).2 = .error (.notAnInteger .widenAfter "many") ∧
      (options.parseLine line).1 = options := by
  intro options words line
  have hkeeps : options.FailureKeeps words (.notAnInteger .widenAfter "many") := by
    intro given hmatched
    have hwords : matchWords [] (words.map Word.ofText) =
        .matched [(.widenAfter, some "many"), (.maxIterations, some "7")] := rfl
    obtain rfl := Arguments.Outcome.matched.inj (hwords.symm.trans hmatched)
    intro earlier hearlier
    simp only [setBefore, List.mem_cons, List.not_mem_nil, or_false] at hearlier
    rcases hearlier with rfl | rfl | rfl | rfl
    · rintro _ ⟨⟩
    · exact iff_of_false (by decide) (by decide)
    · exact iff_of_false (by decide) (by decide)
    · rintro _ ⟨⟩
      rfl
  have herror : (options.parse words).2 = .error (.notAnInteger .widenAfter "many") := rfl
  have hsplit : Words.split? "--max_fixpoint_iterations 7 --widen_after many" = some words := rfl
  have hline : (options.parseLine line).2 = .error (.notAnInteger .widenAfter "many") := by
    rw [parseLine, hsplit]
    exact herror
  refine ⟨herror, ((failure_keeps_iff options).1 _ _ herror).2 hkeeps, hline,
    ((failure_keeps_iff options).2 _ _ hline).2 fun words' hsplit' => ?_⟩
  obtain rfl := Option.some.inj (hsplit.symm.trans hsplit')
  exact hkeeps

/-- The options before the one that is not a number may change, with words and with lines. -/
theorem failure_changes :
    (¬∀ (options : Options) words error, (options.parse words).2 = .error error →
      (options.parse words).1 = options) ∧
    ¬∀ (options : Options) line error, (options.parseLine line).2 = .error error →
      (options.parseLine line).1 = options := by
  constructor
  · intro h
    have hlimit : (parse {} ["--max_fixpoint_iterations", "7", "--widen_after", "many"]).1 =
        { maxIterations := 7 } := rfl
    have hkept := h {} ["--max_fixpoint_iterations", "7", "--widen_after", "many"] _ rfl
    exact absurd (hlimit.symm.trans hkept) (by decide)
  · intro h
    have hparanoid : (parseLine {} "--diag paranoid --widen_after many").1 =
        { diagnostics := .paranoid } := rfl
    have hkept := h {} "--diag paranoid --widen_after many" _ rfl
    exact absurd (hparanoid.symm.trans hkept) (by decide)

end Options
end HeapFlow
