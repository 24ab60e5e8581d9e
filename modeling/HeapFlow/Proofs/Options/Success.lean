import HeapFlow.Proofs.Options.Failure
import Mathlib.Data.List.Infix
import Mathlib.Data.List.TakeWhile

/-! # What a successful reading sets

A word names an option if it is written as two dashes, or more, and the name, and it may have a
value behind an equals sign (`Arguments.IsFlag`).  Otherwise the next word may be the value
(`Arguments.Gives`).  What is matched are the options that occur in the words, with the values that
are given for them (`Arguments.mem_matched_iff`).

If a list of words is accepted, then each option shows the value that is given for it, and an option
that does not occur keeps its value, unless it is an option with a limited choice of values: if no
value is given, these are set to the first one.  So they keep their value only if they had that one
(`Options.success_sets_given`).  This need not be so (`Options.success_resets_unnamed`).
-/
namespace HeapFlow

namespace OptionName

/-- The value that an option is set to if none is given. -/
def default? (name : OptionName) : Option String := name.allowed? >>= List.head?

theorem allowed?_eq_none {name : OptionName} (h : name.default? = none) : name.allowed? = none := by
  cases name with
  | diagnostics | worklistOrder => cases h
  | singleRoutine | maxIterations | widenAfter => rfl

theorem ofText?_eq_some_iff {text : String} {name : OptionName} :
    ofText? text = some name ↔ name.text = text := by
  constructor
  · intro h
    simpa using List.find?_some h
  · rintro rfl
    cases name <;> rfl

theorem equals_not_mem_text (name : OptionName) : '=' ∉ name.text.toList := by
  cases name <;> decide

theorem exists_text_eq_cons (name : OptionName) :
    ∃ c cs, name.text.toList = c :: cs ∧ c ≠ '-' := by
  cases name <;> exact ⟨_, _, rfl, by decide⟩

theorem text_ne_request (name : OptionName) :
    (name.text = "help" || name.text = "version") = false := by
  cases name <;> decide

end OptionName

namespace Arguments

/-! ## Words -/

/-- What stands behind the name of an option: nothing, or an equals sign and the value.  Further
equals signs in front of the value do not count. -/
def IsSetting (rest : List Char) : Option String → Prop
  | none => rest = []
  | some value => ∃ equals, rest = '=' :: (equals ++ value.toList) ∧ (∀ c ∈ equals, c = '=') ∧
      value.toList.head? ≠ some '='

/-- The word is two dashes, or more, and the name of the option, and maybe a value behind an equals
sign. -/
def IsFlag (word : String) (name : OptionName) (value? : Option String) : Prop :=
  ∃ dashes rest, word.toList = '-' :: '-' :: (dashes ++ (name.text.toList ++ rest)) ∧
    (∀ c ∈ dashes, c = '-') ∧ IsSetting rest value?

/-- The word may be the value of the option before it: it does not start with a dash, or it is just
a dash. -/
def IsValue (word : String) : Prop := ∀ cs, word.toList = '-' :: cs → cs = []

/-- The option occurs among the words. -/
def Occurs (words : List String) (name : OptionName) : Prop :=
  ∃ word ∈ words, ∃ value?, IsFlag word name value?

/-- The words give a value for the option, in the word that names it or in the next one. -/
def Gives (words : List String) (name : OptionName) (text : String) : Prop :=
  (∃ word ∈ words, IsFlag word name (some text)) ∨
    ∃ word, [word, text] <:+: words ∧ IsFlag word name none ∧ IsValue text

theorem dropWhile_append_of_head {p : Char → Bool} {front rest : List Char}
    (hfront : ∀ c ∈ front, p c = true) (hrest : ∀ c ∈ rest.head?, p c = false) :
    (front ++ rest).dropWhile p = rest := by
  rw [List.dropWhile_append_of_pos hfront]
  cases rest with
  | nil => rfl
  | cons c rest => simp [hrest c rfl]

theorem takeWhile_append_of_head {p : Char → Bool} {front rest : List Char}
    (hfront : ∀ c ∈ front, p c = true) (hrest : ∀ c ∈ rest.head?, p c = false) :
    (front ++ rest).takeWhile p = front := by
  rw [List.takeWhile_append_of_pos hfront]
  cases rest with
  | nil => simp
  | cons c rest => simp [hrest c rfl]

/-- The value that is read from what stands behind the name of an option. -/
def settingValue? : List Char → Option String
  | [] => none
  | _ :: rest => some (String.ofList (rest.dropWhile (· = '=')))

theorem isSetting_iff {rest : List Char} {value? : Option String} :
    IsSetting rest value? ↔ (∀ c ∈ rest.head?, c = '=') ∧ settingValue? rest = value? := by
  cases value? with
  | none => cases rest <;> simp [IsSetting, settingValue?]
  | some value =>
    constructor
    · rintro ⟨equals, rfl, hequals, hhead⟩
      have hvalue : (equals ++ value.toList).dropWhile (· = '=') = value.toList :=
        dropWhile_append_of_head (by simpa using hequals) fun c hc =>
          decide_eq_false fun heq => hhead (heq ▸ hc)
      refine ⟨by simp, ?_⟩
      rw [settingValue?, hvalue, String.ofList_toList]
    · rintro ⟨hrest, hvalue⟩
      cases rest with
      | nil => cases hvalue
      | cons c cs =>
        obtain rfl := hrest c rfl
        obtain rfl := Option.some.inj hvalue
        have hhead := List.head?_dropWhile_not (· = '=') cs
        refine ⟨cs.takeWhile (· = '='), ?_, fun c hc => ?_, ?_⟩
        · rw [String.toList_ofList, List.takeWhile_append_dropWhile]
        · simpa using List.mem_takeWhile_imp hc
        · rw [String.toList_ofList]
          intro hequals
          rw [hequals] at hhead
          exact absurd hhead (by decide)

/-- A long word is read in two parts: the name and what stands behind it. -/
theorem Word.ofLong_eq_setting_iff_parts {cs : List Char} {name : OptionName}
    {value? : Option String} :
    Word.ofLong cs = .setting name value? ↔
      String.ofList ((cs.dropWhile (· = '-')).takeWhile (· ≠ '=')) = name.text ∧
        settingValue? ((cs.dropWhile (· = '-')).dropWhile (· ≠ '=')) = value? := by
  unfold Word.ofLong
  dsimp only
  constructor
  · intro h
    split at h
    · cases h
    · split at h
      · cases h
      · next known hknown =>
        have htext := (OptionName.ofText?_eq_some_iff.1 hknown).symm
        split at h
        · next hrest =>
          obtain ⟨rfl, rfl⟩ := Word.setting.inj h
          exact ⟨htext, by rw [hrest, settingValue?]⟩
        · next rest hrest =>
          obtain ⟨rfl, rfl⟩ := Word.setting.inj h
          exact ⟨htext, by rw [hrest, settingValue?]⟩
  · rintro ⟨htext, rfl⟩
    simp only [htext, name.text_ne_request, OptionName.ofText?_eq_some_iff.2 rfl,
      Bool.false_eq_true, if_false]
    cases (cs.dropWhile (· = '-')).dropWhile (· ≠ '=') <;> rfl

/-- What a long word is read as says how it is written. -/
theorem Word.ofLong_eq_setting_iff {cs : List Char} {name : OptionName} {value? : Option String} :
    Word.ofLong cs = .setting name value? ↔ ∃ dashes rest,
      cs = dashes ++ (name.text.toList ++ rest) ∧ (∀ c ∈ dashes, c = '-') ∧
        IsSetting rest value? := by
  rw [Word.ofLong_eq_setting_iff_parts]
  constructor
  · rintro ⟨hname, hvalue⟩
    have htext := congrArg String.toList hname
    rw [String.toList_ofList] at htext
    refine ⟨cs.takeWhile (· = '-'), (cs.dropWhile (· = '-')).dropWhile (· ≠ '='), ?_,
      fun c hc => by simpa using List.mem_takeWhile_imp hc, isSetting_iff.2 ⟨?_, hvalue⟩⟩
    · rw [← htext, List.takeWhile_append_dropWhile, List.takeWhile_append_dropWhile]
    · intro c hc
      have hhead := List.head?_dropWhile_not (· ≠ '=') (cs.dropWhile (· = '-'))
      rw [hc] at hhead
      simpa using hhead
  · rintro ⟨dashes, rest, rfl, hdashes, hsetting⟩
    obtain ⟨hrest, hvalue⟩ := isSetting_iff.1 hsetting
    obtain ⟨c, cs, hname, hc⟩ := name.exists_text_eq_cons
    have hbody : (dashes ++ (name.text.toList ++ rest)).dropWhile (· = '-') =
        name.text.toList ++ rest :=
      dropWhile_append_of_head (by simpa using hdashes) (by simp [hname, hc])
    have hplain : ∀ c ∈ name.text.toList, decide (c ≠ '=') = true := fun c hc =>
      decide_eq_true fun heq => name.equals_not_mem_text (heq ▸ hc)
    have hequals : ∀ c ∈ rest.head?, decide (c ≠ '=') = false := fun c hc => by
      simp [hrest c hc]
    rw [hbody, takeWhile_append_of_head hplain hequals, dropWhile_append_of_head hplain hequals,
      String.ofList_toList]
    exact ⟨rfl, hvalue⟩

theorem Word.ofText_eq_setting_iff {word : String} {name : OptionName} {value? : Option String} :
    Word.ofText word = .setting name value? ↔ IsFlag word name value? := by
  have hlong : IsFlag word name value? ↔
      ∃ cs, word.toList = '-' :: '-' :: cs ∧ Word.ofLong cs = .setting name value? := by
    simp only [Word.ofLong_eq_setting_iff]
    constructor
    · rintro ⟨dashes, rest, hword, hdashes, hsetting⟩
      exact ⟨_, hword, dashes, rest, rfl, hdashes, hsetting⟩
    · rintro ⟨_, hword, dashes, rest, rfl, hdashes, hsetting⟩
      exact ⟨dashes, rest, hword, hdashes, hsetting⟩
  rw [hlong]
  unfold Word.ofText
  split
  · next hword =>
    have hnil : Word.ofLong [] = .unknown := rfl
    simp [hword, hnil]
  · next cs _ hword => simp [hword]
  · next c cs _ hc hword =>
    constructor
    · intro h
      split at h <;> cases h
    · rintro ⟨rest, hrest, -⟩
      rw [hword] at hrest
      exact absurd (List.cons.inj (List.cons.inj hrest).2).1 hc
  · next _ hlong hshort =>
    constructor
    · nofun
    · rintro ⟨rest, hrest, -⟩
      exact absurd hrest (hlong rest)

theorem Word.ofLong_ne_bare (cs : List Char) (text : String) : Word.ofLong cs ≠ .bare text := by
  unfold Word.ofLong
  dsimp only
  split
  · nofun
  · split
    · nofun
    · split <;> nofun

theorem Word.ofText_eq_bare_iff {word text : String} :
    Word.ofText word = .bare text ↔ word = text ∧ IsValue word := by
  unfold Word.ofText IsValue
  split
  · next hword => simp [hword]
  · next cs hcs hword => simp [hword, Word.ofLong_ne_bare]
  · next c cs hc hword =>
    rw [hword]
    split <;> simp
  · next hword =>
    constructor
    · intro h
      refine ⟨Word.bare.inj h, fun cs hcs => ?_⟩
      cases cs with
      | nil => rfl
      | cons c cs => exact absurd hcs (hword c cs)
    · rintro ⟨rfl, -⟩
      rfl

/-! ## What is matched -/

variable {given result : Matched} {tokens : List Word} {name : OptionName}

/-- A request is found among the words. -/
theorem request_mem_of_requested (h : matchWords given tokens = .requested) :
    Word.request ∈ tokens := by
  fun_induction matchWords given tokens with
  | case1 | case2 | case3 | case5 | case8 => cases h
  | case4 => exact List.mem_cons_self
  | case6 _ _ _ _ ih | case7 _ _ _ _ ih => exact List.mem_cons_of_mem _ (ih h)

theorem exists_mem_matched_iff (h : matchWords given tokens = .matched result) :
    (∃ value?, (name, value?) ∈ result) ↔
      (∃ value?, (name, value?) ∈ given) ∨ ∃ value?, .setting name value? ∈ tokens := by
  fun_induction matchWords given tokens with
  | case1 | case2 =>
    obtain rfl := Outcome.matched.inj h
    simp
  | case3 | case4 | case5 | case8 => cases h
  | case6 given other value? words ih =>
    rw [ih h]
    simp only [List.mem_cons, Prod.mk.injEq, Word.setting.injEq]
    grind
  | case7 other given text words ih =>
    rw [ih h]
    simp only [List.mem_cons, Prod.mk.injEq, reduceCtorEq, false_or]
    grind

theorem singleton_prefix_iff {α : Type} {a : α} {as : List α} : [a] <+: as ↔ as.head? = some a := by
  cases as <;> simp [eq_comm]

theorem mem_matched_iff (h : matchWords given tokens = .matched result) {text : String} :
    (name, some text) ∈ result ↔ (name, some text) ∈ given ∨ .setting name (some text) ∈ tokens ∨
      [.setting name none, .bare text] <:+: tokens ∨
      given.head? = some (name, none) ∧ tokens.head? = some (.bare text) := by
  fun_induction matchWords given tokens with
  | case1 | case2 =>
    obtain rfl := Outcome.matched.inj h
    simp [List.infix_cons_iff]
  | case3 | case4 | case5 | case8 => cases h
  | case6 given other value? words ih =>
    rw [ih h]
    simp only [List.mem_cons, Prod.mk.injEq, Word.setting.injEq, List.infix_cons_iff,
      List.cons_prefix_cons, List.head?_cons, singleton_prefix_iff]
    grind
  | case7 other given text words ih =>
    rw [ih h]
    simp only [List.mem_cons, Prod.mk.injEq, reduceCtorEq, false_or, List.infix_cons_iff,
      List.cons_prefix_cons, List.head?_cons, singleton_prefix_iff]
    grind

/-- The words that are matched name the options that are matched. -/
theorem exists_mem_iff_occurs {words : List String}
    (h : matchWords [] (words.map Word.ofText) = .matched given) :
    (∃ value?, (name, value?) ∈ given) ↔ Occurs words name := by
  rw [exists_mem_matched_iff h]
  simp only [List.not_mem_nil, exists_false, false_or, List.mem_map, Word.ofText_eq_setting_iff,
    Occurs]
  tauto

/-- The values that are matched are those that are given by the words. -/
theorem mem_iff_gives {words : List String} {text : String}
    (h : matchWords [] (words.map Word.ofText) = .matched given) :
    (name, some text) ∈ given ↔ Gives words name text := by
  have hnext : [Word.setting name none, .bare text] <:+: words.map Word.ofText ↔
      ∃ word, [word, text] <:+: words ∧ IsFlag word name none ∧ IsValue text := by
    rw [List.infix_map_iff]
    constructor
    · rintro ⟨part, hinfix, hmap⟩
      obtain ⟨word, tail, rfl, hword, htail⟩ := List.map_eq_cons_iff.1 hmap.symm
      obtain ⟨value, rest, rfl, hvalue, hrest⟩ := List.map_eq_cons_iff.1 htail
      obtain rfl := List.map_eq_nil_iff.1 hrest
      obtain ⟨rfl, hisValue⟩ := Word.ofText_eq_bare_iff.1 hvalue
      exact ⟨word, hinfix, Word.ofText_eq_setting_iff.1 hword, hisValue⟩
    · rintro ⟨word, hinfix, hflag, hvalue⟩
      refine ⟨[word, text], hinfix, ?_⟩
      simp [Word.ofText_eq_setting_iff.2 hflag, Word.ofText_eq_bare_iff.2 ⟨rfl, hvalue⟩]
  rw [mem_matched_iff h, hnext]
  simp [Gives, Word.ofText_eq_setting_iff]

/-! ## Proper matches -/

theorem nodup_of_isProper (h : isProper given = true) : (given.map (·.1)).Nodup := by
  unfold isProper at h
  exact of_decide_eq_true (Bool.and_eq_true_iff.1 h).1

/-- In a proper match an option has one of its values, if they are limited, and it has a value, if
they are not. -/
theorem value_of_isProper (h : isProper given = true) {value? : Option String}
    (hmem : (name, value?) ∈ given) :
    (∀ text ∈ value?, ∀ allowed ∈ name.allowed?, text ∈ allowed) ∧
      (name.allowed? = none → value?.isSome = true) := by
  unfold isProper at h
  have hvalue := List.all_eq_true.1 (Bool.and_eq_true_iff.1 h).2 (name, value?) hmem
  cases hallowed : name.allowed? <;> cases value? <;> simp_all

/-- An option that is matched once is found. -/
theorem find?_of_mem {value? : Option String} (hnodup : (given.map (·.1)).Nodup)
    (hmem : (name, value?) ∈ given) : given.find? (·.1 = name) = some (name, value?) := by
  induction given with
  | nil => cases hmem
  | cons head given ih =>
    obtain ⟨hhead, hnodup⟩ := List.nodup_cons.1 hnodup
    rcases List.mem_cons.1 hmem with rfl | hmem
    · simp
    · have hne : head.1 ≠ name := fun heq =>
        hhead (List.mem_map.2 ⟨(name, value?), hmem, heq.symm⟩)
      rw [List.find?_cons_of_neg (by simpa using hne)]
      exact ih hnodup hmem

/-- A proper match has at most one value of an option. -/
theorem valueOf?_eq_some_iff (h : isProper given = true) {text : String} :
    valueOf? given name = some text ↔ (name, some text) ∈ given := by
  constructor
  · intro hvalue
    obtain ⟨⟨found, value?⟩, hfound, htext⟩ := Option.bind_eq_some_iff.1 hvalue
    obtain rfl : found = name := by simpa using List.find?_some hfound
    obtain rfl : value? = some text := htext
    exact List.mem_of_find?_eq_some hfound
  · intro hmem
    rw [valueOf?, find?_of_mem (nodup_of_isProper h) hmem]
    rfl

end Arguments

namespace Options

open Arguments

/-- The option has the value that is written as the text. -/
def Shows (options : Options) (name : OptionName) (text : String) : Prop :=
  match name with
  | .singleRoutine => options.singleRoutine? = some text
  | .diagnostics => text = match options.diagnostics with
    | .standard => "default"
    | .paranoid => "paranoid"
  | .maxIterations => number? text = some options.maxIterations
  | .widenAfter => number? text = some options.widenAfter
  | .worklistOrder => text = match options.worklistOrder with
    | .earliestFirst => "rpo"
    | .latestFirst => "reverse_rpo"

/-- The option has the same value in both. -/
def SameAt (a b : Options) : OptionName → Prop
  | .singleRoutine => a.singleRoutine? = b.singleRoutine?
  | .diagnostics => a.diagnostics = b.diagnostics
  | .maxIterations => a.maxIterations = b.maxIterations
  | .widenAfter => a.widenAfter = b.widenAfter
  | .worklistOrder => a.worklistOrder = b.worklistOrder

/-- An option with a limited choice of values is the same if it shows the same value. -/
theorem sameAt_iff_shows {a b : Options} {name : OptionName} {default : String}
    (hdefault : name.default? = some default) (ha : a.Shows name default) :
    a.SameAt b name ↔ b.Shows name default := by
  cases name with
  | singleRoutine | maxIterations | widenAfter => cases hdefault
  | diagnostics =>
    obtain rfl := ha
    simp only [SameAt, Shows]
    cases a.diagnostics <;> cases b.diagnostics <;> decide
  | worklistOrder =>
    obtain rfl := ha
    simp only [SameAt, Shows]
    cases a.worklistOrder <;> cases b.worklistOrder <;> decide

variable {given : Matched} {options : Options}

/-- A number that is set is one. -/
theorem exists_number_of_setNumber {name : OptionName} {set : Nat → Options → Options}
    {after : Options} (h : options.setNumber given name set = .ok after) {text : String}
    (htext : valueOf? given name = some text) : ∃ n, number? text = some n := by
  unfold setNumber at h
  rw [htext] at h
  dsimp only at h
  split at h
  · next n hn => exact ⟨n, hn⟩
  · cases h

/-- A match that is applied without an error gives numbers where they are expected. -/
theorem number_of_apply (h : (options.apply given).2 = .ok ()) {name : OptionName}
    (hname : name = .maxIterations ∨ name = .widenAfter) {text : String}
    (htext : valueOf? given name = some text) : ∃ n, number? text = some n := by
  unfold apply at h
  dsimp only at h
  split at h
  · cases h
  · next limited hlimited =>
    split at h
    · cases h
    · next complete hcomplete =>
      rcases hname with rfl | rfl
      · exact exists_number_of_setNumber hlimited htext
      · exact exists_number_of_setNumber hcomplete htext

/-- What a match that is applied without an error sets. -/
theorem apply_eq_of_ok (h : (options.apply given).2 = .ok ()) :
    (options.apply given).1 = { options.setLimit given with
      widenAfter := (givenNumber? given .widenAfter).getD options.widenAfter } := by
  rcases options.apply_cases given with ⟨text, hcase⟩ | ⟨text, hcase⟩ | hcase
  · rw [hcase] at h
    cases h
  · rw [hcase] at h
    cases h
  · rw [hcase]

/-- An option shows the value that is matched for it. -/
theorem shows_apply (hproper : isProper given = true) (h : (options.apply given).2 = .ok ())
    {name : OptionName} {text : String} (htext : valueOf? given name = some text) :
    (options.apply given).1.Shows name text := by
  have hallowed := (value_of_isProper hproper ((valueOf?_eq_some_iff hproper).1 htext)).1 text rfl
  rw [apply_eq_of_ok h]
  cases name with
  | singleRoutine => simp [Shows, setLimit, setChoices, htext]
  | diagnostics =>
    have hchoice : text = "default" ∨ text = "paranoid" := by simpa using hallowed _ rfl
    rcases hchoice with rfl | rfl <;> simp [Shows, setLimit, setChoices, htext]
  | worklistOrder =>
    have hchoice : text = "rpo" ∨ text = "reverse_rpo" := by simpa using hallowed _ rfl
    rcases hchoice with rfl | rfl <;> simp [Shows, setLimit, setChoices, htext]
  | maxIterations =>
    obtain ⟨n, hn⟩ := number_of_apply h (.inl rfl) htext
    simp [Shows, setLimit, givenNumber?, htext, hn]
  | widenAfter =>
    obtain ⟨n, hn⟩ := number_of_apply h (.inr rfl) htext
    simp [Shows, givenNumber?, htext, hn]

/-- An option with a limited choice of values shows the first one if none is matched. -/
theorem shows_default_apply (h : (options.apply given).2 = .ok ()) {name : OptionName}
    {default : String} (hdefault : name.default? = some default)
    (hnone : valueOf? given name = none) : (options.apply given).1.Shows name default := by
  rw [apply_eq_of_ok h]
  cases name with
  | singleRoutine | maxIterations | widenAfter => cases hdefault
  | diagnostics | worklistOrder =>
    obtain rfl := Option.some.inj hdefault
    simp [Shows, setLimit, setChoices, hnone]

/-- Any other option is the same if no value is matched. -/
theorem sameAt_apply (h : (options.apply given).2 = .ok ()) {name : OptionName}
    (hdefault : name.default? = none) (hnone : valueOf? given name = none) :
    (options.apply given).1.SameAt options name := by
  rw [apply_eq_of_ok h]
  cases name with
  | diagnostics | worklistOrder => cases hdefault
  | singleRoutine | maxIterations | widenAfter =>
    simp [SameAt, setLimit, setChoices, givenNumber?, hnone]

/-! ## Successes -/

/-- The words are accepted, and they are no request for help or for the version. -/
structure Accepts (options : Options) (words : List String) : Prop where
  ok : (options.parse words).2 = .ok ()
  no_request : ∀ word ∈ words, Word.ofText word ≠ .request

/-- Words that are accepted have a proper match, which is applied. -/
theorem Accepts.exists_match {words : List String} (h : options.Accepts words) :
    ∃ given, matchWords [] (words.map Word.ofText) = .matched given ∧ isProper given = true ∧
      options.parse words = options.apply given := by
  have hok := h.ok
  unfold parse at hok ⊢
  split at hok
  · next hrequested =>
    obtain ⟨word, hword, hrequest⟩ := List.mem_map.1 (request_mem_of_requested hrequested)
    exact absurd hrequest (h.no_request word hword)
  · cases hok
  · next given hmatched =>
    split at hok
    · next hproper => exact ⟨given, hmatched, hproper, by rw [if_pos hproper]⟩
    · cases hok

/-- **What a success sets.**  Each option shows the value that is given for it, and the first of its
values if they are limited and none is given; an option whose values are not limited has a value
given if it occurs.  An option that does not occur is the same exactly if its values are not limited
or if it showed the first one before. -/
theorem success_sets_given (options : Options) {words : List String} (h : options.Accepts words) :
    (∀ name, Occurs words name → name.default? = none → ∃ text, Gives words name text) ∧
    (∀ name text, Gives words name text → (options.parse words).1.Shows name text) ∧
    (∀ name default, name.default? = some default → (∀ text, ¬Gives words name text) →
      (options.parse words).1.Shows name default) ∧
    ∀ name, ¬Occurs words name → ((options.parse words).1.SameAt options name ↔
      ∀ default ∈ name.default?, options.Shows name default) := by
  obtain ⟨given, hmatched, hproper, hparse⟩ := h.exists_match
  have hok : (options.apply given).2 = .ok () := hparse ▸ h.ok
  have hgives : ∀ name text, Gives words name text ↔ valueOf? given name = some text :=
    fun name text => (mem_iff_gives hmatched).symm.trans (valueOf?_eq_some_iff hproper).symm
  have hnone : ∀ name, (∀ text, ¬Gives words name text) → valueOf? given name = none :=
    fun name hname => Option.eq_none_iff_forall_ne_some.2 fun text htext =>
      hname text ((hgives name text).2 htext)
  rw [hparse]
  refine ⟨fun name hoccurs hdefault => ?_, fun name text htext => ?_,
    fun name default hdefault hname => ?_, fun name hname => ?_⟩
  · obtain ⟨value?, hmem⟩ := (exists_mem_iff_occurs hmatched).2 hoccurs
    obtain ⟨text, rfl⟩ := Option.isSome_iff_exists.1
      ((value_of_isProper hproper hmem).2 (OptionName.allowed?_eq_none hdefault))
    exact ⟨text, (mem_iff_gives hmatched).1 hmem⟩
  · exact shows_apply hproper hok ((hgives name text).1 htext)
  · exact shows_default_apply hok hdefault (hnone name hname)
  · have hmissing : valueOf? given name = none := hnone name fun text htext =>
      hname ((exists_mem_iff_occurs hmatched).1 ⟨_, (mem_iff_gives hmatched).2 htext⟩)
    cases hdefault : name.default? with
    | none => exact iff_of_true (sameAt_apply hok hdefault hmissing) (by simp)
    | some default =>
      rw [sameAt_iff_shows hdefault (shows_default_apply hok hdefault hmissing)]
      simp

/-- More than two dashes and more than one equals sign are no obstacle, a value may have an equals
sign in it, and the diagnostics are reset although they occur, as no value is given for them. -/
theorem success_sets_given_dashes :
    let options : Options := { diagnostics := .paranoid, maxIterations := 7 }
    let words := ["--single_func", "a=b", "---widen_after==5", "--diag"]
    let after := (options.parse words).1
    options.Accepts words ∧ after.Shows .singleRoutine "a=b" ∧ after.Shows .widenAfter "5" ∧
      after.Shows .diagnostics "default" ∧ after.SameAt options .maxIterations := by
  intro options words after
  have hmatched : matchWords [] (words.map Word.ofText) = .matched
      [(.diagnostics, none), (.widenAfter, some "5"), (.singleRoutine, some "a=b")] := rfl
  have haccepts : options.Accepts words := ⟨rfl, by decide⟩
  obtain ⟨-, hshows, hreset, hsame⟩ := success_sets_given options haccepts
  refine ⟨haccepts, hshows _ _ ((mem_iff_gives hmatched).1 (by simp)),
    hshows _ _ ((mem_iff_gives hmatched).1 (by simp)), hreset _ _ rfl fun text htext => ?_,
    (hsame _ fun hoccurs => ?_).2 (by simp [OptionName.default?, OptionName.allowed?])⟩
  · simpa using (mem_iff_gives hmatched).2 htext
  · simpa using (exists_mem_iff_occurs hmatched).2 hoccurs

/-- **Options that are not named may change.**  Words that only name a number reset the
diagnostics. -/
theorem success_resets_unnamed :
    ¬∀ (options : Options) (words : List String), options.Accepts words → ∀ name,
      (¬Occurs words name → (options.parse words).1.SameAt options name) ∧
        ∀ text, Gives words name text → (options.parse words).1.Shows name text := by
  intro h
  let options : Options := { diagnostics := .paranoid }
  have haccepts : options.Accepts ["--widen_after", "5"] := ⟨rfl, by decide⟩
  have hmatched : matchWords [] (["--widen_after", "5"].map Word.ofText) =
      .matched [(.widenAfter, some "5")] := rfl
  have hsame := (h options _ haccepts .diagnostics).1 fun hoccurs => by
    simpa using (exists_mem_iff_occurs hmatched).2 hoccurs
  have hkept : (options.parse ["--widen_after", "5"]).1.diagnostics = .paranoid := hsame
  exact absurd hkept (by decide)

end Options
end HeapFlow
