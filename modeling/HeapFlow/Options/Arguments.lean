import HeapFlow.Options.Basic
import HeapFlow.Options.Words
import HeapFlow.Text.Escaped

/-! # Reading options from arguments

Every option is given by two dashes, its name and its value, which follows an equals sign or is the
next word.  The arguments are matched first (`Arguments.match?`), as a whole; the values that were
matched are put into the options afterwards, one after the other (`Options.apply`).

A request for help or for the version ends the matching and leaves the options alone.  A successful
match sets the options that it names, and it sets the diagnostics and the order of the worklist even
if it does not name them.  Numbers are looked at last: if one of them is not a number, the options
that were set before it stay set.
-/
namespace HeapFlow

/-- The options that can be given. -/
inductive OptionName where
  | singleRoutine
  | diagnostics
  | maxIterations
  | widenAfter
  | worklistOrder
deriving DecidableEq, Repr

namespace OptionName

/-- All options. -/
def all : List OptionName :=
  [.singleRoutine, .diagnostics, .maxIterations, .widenAfter, .worklistOrder]

/-- An option as it is written. -/
def text : OptionName → String
  | .singleRoutine => "single_func"
  | .diagnostics => "diag"
  | .maxIterations => "max_fixpoint_iterations"
  | .widenAfter => "widen_after"
  | .worklistOrder => "worklist_order"

/-- The option that is written as the given text. -/
def ofText? (text : String) : Option OptionName := all.find? (·.text = text)

/-- The values that may be given, if they are limited.  The first one is the default. -/
def allowed? : OptionName → Option (List String)
  | .diagnostics => some ["default", "paranoid"]
  | .worklistOrder => some ["rpo", "reverse_rpo"]
  | .singleRoutine | .maxIterations | .widenAfter => none

end OptionName

/-- Why options could not be read. -/
inductive OptionsError where
  /-- A quote is not closed. -/
  | mismatchedQuotes
  /-- The arguments are not options and their values. -/
  | unmatched
  /-- The value of an option should have been a number. -/
  | notAnInteger (option : OptionName) (value : String)
deriving DecidableEq, Repr

namespace OptionsError

/-- The message about an error, none if the wording is left to the reader of the arguments. -/
def message? : OptionsError → Option String
  | .mismatchedQuotes => some "Cannot parse argument string: MismatchedQuotes"
  | .unmatched => none
  | .notAnInteger option value =>
    some ("--" ++ option.text ++ " expects an integer, got " ++ Escaped.quote value)

end OptionsError

namespace Arguments

/-- A word of the arguments by itself. -/
inductive Word where
  /-- Two dashes: no options follow. -/
  | terminator
  /-- A request for help or for the version. -/
  | request
  /-- An option, and its value if it follows an equals sign. -/
  | setting (name : OptionName) (value? : Option String)
  /-- An option that does not exist. -/
  | unknown
  /-- Anything else, which has to be the value of an option. -/
  | bare (text : String)
deriving DecidableEq, Repr

/-- Reads a word that starts with two dashes.  Any more dashes are ignored, and so are any more
equals signs right behind the one that follows the name. -/
def Word.ofLong (cs : List Char) : Word :=
  let cs := cs.dropWhile (· = '-')
  let name := String.ofList (cs.takeWhile (· ≠ '='))
  if name = "help" || name = "version" then .request
  else
    match OptionName.ofText? name with
    | none => .unknown
    | some known =>
      match cs.dropWhile (· ≠ '=') with
      | [] => .setting known none
      | _ :: rest => .setting known (some (String.ofList (rest.dropWhile (· = '='))))

/-- Reads a word. -/
def Word.ofText (text : String) : Word :=
  match text.toList with
  | ['-', '-'] => .terminator
  | '-' :: '-' :: cs => .ofLong cs
  | '-' :: c :: _ => if c = 'h' || c = 'V' then .request else .unknown
  | _ => .bare text

/-- What has been matched: every occurrence of an option along with its value, latest first.  An
occurrence without a value waits for one as long as it is the latest. -/
abbrev Matched := List (OptionName × Option String)

/-- How far a match has come. -/
inductive Outcome where
  /-- Help or the version was requested. -/
  | requested
  /-- The arguments were matched. -/
  | matched (given : Matched)
  /-- The arguments cannot be matched. -/
  | failed
deriving DecidableEq, Repr

/-- Matches words one after the other. -/
def matchWords : Matched → List Word → Outcome
  | given, [] => .matched given
  | given, [.terminator] => .matched given
  | _, .terminator :: _ :: _ => .failed
  | _, .request :: _ => .requested
  | _, .unknown :: _ => .failed
  | given, .setting name value? :: words => matchWords ((name, value?) :: given) words
  | (name, none) :: given, .bare text :: words => matchWords ((name, some text) :: given) words
  | _, .bare _ :: _ => .failed

/-- True if what has been matched makes sense as a whole: no option is given twice, options with a
limited choice of values have one of these, and the others have a value. -/
def isProper (given : Matched) : Bool :=
  (given.map (·.1)).Pairwise (· ≠ ·) &&
    given.all fun (name, value?) =>
      match name.allowed?, value? with
      | some allowed, some value => allowed.contains value
      | some _, none => true
      | none, some _ => true
      | none, none => false

/-- The value that was given for an option. -/
def valueOf? (given : Matched) (name : OptionName) : Option String :=
  (given.find? (·.1 = name)) >>= (·.2)

/-- Reads a natural number of 64 bits.  A plus sign may stand before the digits. -/
def number? (text : String) : Option Nat := do
  let digits := match text.toList with
    | '+' :: cs => cs
    | cs => cs
  guard (!digits.isEmpty && digits.all fun c => '0' ≤ c && c ≤ '9')
  let n : Nat := digits.foldl (fun n c => n * 10 + (c.toNat - '0'.toNat)) 0
  guard (n < UInt64.size)
  return n

end Arguments

namespace Options

open Arguments

/-- The options with the named routine, the diagnostics and the order of the worklist that were
given. -/
def setChoices (given : Matched) (options : Options) : Options :=
  { options with
    singleRoutine? := (valueOf? given .singleRoutine).or options.singleRoutine?
    diagnostics :=
      if valueOf? given .diagnostics = some "paranoid" then .paranoid else .standard
    worklistOrder :=
      if valueOf? given .worklistOrder = some "reverse_rpo" then .latestFirst
      else .earliestFirst }

/-- Sets a number that was given for an option. -/
def setNumber (given : Matched) (name : OptionName) (set : Nat → Options → Options)
    (options : Options) : Except OptionsError Options :=
  match valueOf? given name with
  | none => .ok options
  | some text =>
    match number? text with
    | some n => .ok (set n options)
    | none => .error (.notAnInteger name text)

/-- The options after the values that were matched have been put into them, and the error if one of
the values is not what it should be. -/
def apply (given : Matched) (options : Options) : Options × Except OptionsError Unit :=
  let chosen := options.setChoices given
  match chosen.setNumber given .maxIterations fun n options =>
      { options with maxIterations := n } with
  | .error error => (chosen, .error error)
  | .ok limited =>
    match limited.setNumber given .widenAfter fun n options => { options with widenAfter := n } with
    | .error error => (limited, .error error)
    | .ok complete => (complete, .ok ())

/-- The options after reading arguments, and the error if there is one. -/
def parse (options : Options) (words : List String) : Options × Except OptionsError Unit :=
  match matchWords [] (words.map Word.ofText) with
  | .requested => (options, .ok ())
  | .failed => (options, .error .unmatched)
  | .matched given =>
    if isProper given then options.apply given else (options, .error .unmatched)

/-- The options after reading the arguments of a line, and the error if there is one. -/
def parseLine (options : Options) (line : String) : Options × Except OptionsError Unit :=
  match Words.split? line with
  | none => (options, .error .mismatchedQuotes)
  | some words => options.parse words

/-- The options that the text of an environment variable gives.  If it is not set, the options are
the default ones. -/
def ofVariable (text? : Option String) : Except OptionsError Options :=
  match text? with
  | none => .ok {}
  | some text =>
    match parseLine {} text with
    | (options, .ok ()) => .ok options
    | (_, .error error) => .error error

end Options
end HeapFlow
