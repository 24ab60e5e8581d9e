import HeapFlow.Json.Reader
import HeapFlow.Json.Writer
import Mathlib.Data.List.Basic

/-! # Reading back what is written

The text of a value is read back as the value (`Json.ofText?_toText`), if every string in it denotes
a text and every number can be written: the digits of its fraction have to be digits
(`Json.isProper`).

Each part of a text is followed by more text.  What follows does not matter to a string, an array or
an object, which end with a character of their own.  A number ends where nothing can go on with it
(`Json.EndsNumber`), which is the case in front of a comma or a closing bracket.
-/
namespace HeapFlow

/-- True if the digits behind the point are digits. -/
def Numeral.isProper (n : Numeral) : Bool := n.fraction.all (· < 10)

namespace Json

mutual

/-- True if every string denotes a text and every number can be written. -/
def isProper : Json → Bool
  | .null | .bool _ => true
  | .number n => n.isProper
  | .string text => text.isSome
  | .array items => itemsAreProper items
  | .object members => membersAreProper members

/-- True if all items of an array are proper. -/
def itemsAreProper : List Json → Bool
  | [] => true
  | item :: items => item.isProper && itemsAreProper items

/-- True if the names and the values of all members of an object are proper. -/
def membersAreProper : List (Option String × Json) → Bool
  | [] => true
  | (name, value) :: members => name.isSome && value.isProper && membersAreProper members

end

/-! ## Digits -/

/-- The text does not begin with a digit. -/
def NoDigit (rest : List Char) : Prop := ∀ c ∈ rest.head?, isDigit c = false

theorem isDigit_digitChar {d : Nat} (h : d < 10) : isDigit (Nat.digitChar d) = true := by
  revert d
  decide

theorem toNat_digitChar {d : Nat} (h : d < 10) : (Nat.digitChar d).toNat - '0'.toNat = d := by
  revert d
  decide

theorem isDigit_of_mem_toDigits {n : Nat} {c : Char} (h : c ∈ Nat.toDigits 10 n) :
    isDigit c = true :=
  Nat.isDigit_of_mem_toDigits (by decide) (by decide) h

theorem exists_toDigits (n : Nat) : ∃ d ds, Nat.toDigits 10 n = d :: ds ∧ isDigit d = true := by
  obtain ⟨d, ds, hcons⟩ := List.exists_cons_of_ne_nil (Nat.toDigits_ne_nil (b := 10) (n := n))
  exact ⟨d, ds, hcons, isDigit_of_mem_toDigits (n := n) (hcons ▸ List.mem_cons_self)⟩

/-- What begins with the digits of a number begins with a digit. -/
theorem isDigit_of_toDigits_append {n : Nat} {c : Char} {rest cs : List Char}
    (h : Nat.toDigits 10 n ++ rest = c :: cs) : isDigit c = true := by
  obtain ⟨d, ds, hcons, hdigit⟩ := exists_toDigits n
  rw [hcons] at h
  rwa [(List.cons.inj h).1] at hdigit

theorem ofDigits_toDigits (n : Nat) :
    ofDigits ((Nat.toDigits 10 n).map fun c => c.toNat - '0'.toNat) = n := by
  have hdigits := @Nat.ofDigitChars_toDigits 10 n (by decide) (by decide)
  rw [Nat.ofDigitChars_eq_foldl] at hdigits
  rw [ofDigits, List.foldl_map]
  simpa [Nat.mul_comm] using hdigits

/-- Only zero is written with a leading zero. -/
theorem head?_toDigits {n : Nat} (h : n ≠ 0) : (Nat.toDigits 10 n).head? ≠ some '0' := by
  induction n using Nat.strongRecOn with
  | ind n ih =>
    rw [Nat.toDigits_eq_if (by decide)]
    split
    · next hlt =>
      have hdigit : ∀ d < 10, d ≠ 0 → [Nat.digitChar d].head? ≠ some '0' := by decide
      exact hdigit n hlt h
    · rw [List.head?_append_of_ne_nil _ Nat.toDigits_ne_nil]
      exact ih (n / 10) (by omega) (by omega)

theorem readDigits_append {ds rest : List Char} (hds : ∀ c ∈ ds, isDigit c = true)
    (hrest : NoDigit rest) :
    readDigits (ds ++ rest) = (ds.map fun c => c.toNat - '0'.toNat, rest) := by
  have hnone : rest.takeWhile isDigit = [] ∧ rest.dropWhile isDigit = rest := by
    cases rest with
    | nil => exact ⟨rfl, rfl⟩
    | cons c rest =>
      have hc := hrest c rfl
      exact ⟨by simp [hc], by simp [hc]⟩
  unfold readDigits
  rw [List.takeWhile_append_of_pos hds, List.dropWhile_append_of_pos hds, hnone.1, hnone.2,
    List.append_nil]

/-- The digits of a number are read up to what is not a digit. -/
theorem readDigits_toDigits (n : Nat) {rest : List Char} (hrest : NoDigit rest) :
    ∃ d ds, readDigits (Nat.toDigits 10 n ++ rest) = (d :: ds, rest) ∧ ofDigits (d :: ds) = n := by
  have hread := readDigits_append (fun c hc => isDigit_of_mem_toDigits (n := n) hc) hrest
  have hvalue := ofDigits_toDigits n
  obtain ⟨c, cs, hcons, -⟩ := exists_toDigits n
  rw [hcons] at hread hvalue ⊢
  exact ⟨_, _, hread, hvalue⟩

/-! ## Numbers -/

/-- No number goes on with the text. -/
def EndsNumber (rest : List Char) : Prop :=
  ∀ c ∈ rest.head?, isDigit c = false ∧ c ≠ '.' ∧ c ≠ 'e' ∧ c ≠ 'E'

theorem EndsNumber.noDigit {rest : List Char} (h : EndsNumber rest) : NoDigit rest :=
  fun c hc => (h c hc).1

theorem endsNumber_nil : EndsNumber [] := nofun

theorem endsNumber_cons {c : Char} {rest : List Char}
    (h : isDigit c = false ∧ c ≠ '.' ∧ c ≠ 'e' ∧ c ≠ 'E') : EndsNumber (c :: rest) := by
  intro other hother
  obtain rfl := Option.some.inj hother
  exact h

theorem readWhole?_toDigits (n : Nat) {rest : List Char} (hrest : NoDigit rest) :
    readWhole? (Nat.toDigits 10 n ++ rest) = some (n, rest) := by
  by_cases hzero : n = 0
  · subst hzero
    rfl
  · obtain ⟨d, ds, hread, hvalue⟩ := readDigits_toDigits n hrest
    unfold readWhole?
    split
    -- A leading zero would end the number right there.
    · next heq =>
      have hhead : (Nat.toDigits 10 n ++ rest).head? = some '0' := congrArg List.head? heq
      rw [List.head?_append_of_ne_nil _ Nat.toDigits_ne_nil] at hhead
      exact absurd hhead (head?_toDigits hzero)
    · rw [hread]
      exact congrArg (fun n => some (n, rest)) hvalue

/-- The fraction as it is written. -/
def writeFraction (fraction : List Nat) : List Char :=
  if fraction.isEmpty then [] else '.' :: fraction.map Nat.digitChar

theorem readFraction?_write {fraction : List Nat} (hproper : ∀ d ∈ fraction, d < 10)
    {rest : List Char} (hdigit : NoDigit rest) (hpoint : '.' ∉ rest.head?) :
    readFraction? (writeFraction fraction ++ rest) = some (fraction, rest) := by
  cases fraction with
  | nil =>
    show readFraction? rest = _
    unfold readFraction?
    split
    · exact absurd rfl hpoint
    · rfl
  | cons d ds =>
    have hdigits : ∀ c ∈ (d :: ds).map Nat.digitChar, isDigit c = true := by
      intro c hc
      obtain ⟨e, he, rfl⟩ := List.mem_map.1 hc
      exact isDigit_digitChar (hproper e he)
    have hvalues : ((d :: ds).map Nat.digitChar).map (fun c => c.toNat - '0'.toNat) = d :: ds := by
      rw [List.map_map]
      exact (List.map_congr_left fun e he => toNat_digitChar (hproper e he)).trans (List.map_id _)
    show readFraction? ('.' :: ((d :: ds).map Nat.digitChar ++ rest)) = _
    rw [readFraction?, readDigits_append hdigits hdigit, hvalues]

theorem readPower?_toDigits (sign : Int) (n : Nat) {rest : List Char} (hrest : NoDigit rest) :
    readPower? sign (Nat.toDigits 10 n ++ rest) = some (some (sign * n), rest) := by
  obtain ⟨d, ds, hread, hvalue⟩ := readDigits_toDigits n hrest
  rw [readPower?, hread]
  exact congrArg (fun n : Nat => some (some (sign * (n : Int)), rest)) hvalue

/-- The exponent as it is written. -/
def writeExponent (exponent : Option Int) : List Char :=
  match exponent with
  | none => []
  | some power => 'e' :: (toString power).toList

theorem toList_toString_ofNat (n : Nat) :
    (toString (Int.ofNat n)).toList = Nat.toDigits 10 n := by
  show (Nat.repr n).toList = _
  rw [Nat.repr_eq_ofList_toDigits, String.toList_ofList]

theorem toList_toString_negSucc (n : Nat) :
    (toString (Int.negSucc n)).toList = '-' :: Nat.toDigits 10 (n + 1) := by
  show ("-" ++ Nat.repr (n + 1)).toList = _
  rw [Nat.repr_eq_ofList_toDigits, String.toList_append]
  show '-' :: (String.ofList (Nat.toDigits 10 (n + 1))).toList = _
  rw [String.toList_ofList]

theorem readExponent?_write (exponent : Option Int) {rest : List Char} (hrest : EndsNumber rest) :
    readExponent? (writeExponent exponent ++ rest) = some (exponent, rest) := by
  have hdigit := hrest.noDigit
  cases exponent with
  | none =>
    cases rest with
    | nil => rfl
    | cons c rest =>
      obtain ⟨-, -, he, hE⟩ := hrest c rfl
      have hc : (c == 'e' || c == 'E') = false := by simp [he, hE]
      show (if (c == 'e' || c == 'E') = true then _ else some (none, c :: rest)) = _
      rw [hc]
      rfl
  | some power =>
    cases power with
    | ofNat n =>
      -- The digits do not begin with a sign, so no sign is taken off.
      have hsign : ∀ c, isDigit c = false → ∀ cs, Nat.toDigits 10 n ++ rest = c :: cs → False := by
        intro c hc cs heq
        rw [isDigit_of_toDigits_append heq] at hc
        cases hc
      show readExponent? ('e' :: ((toString (Int.ofNat n)).toList ++ rest)) = _
      rw [toList_toString_ofNat, readExponent?]
      · rw [if_pos (by decide), readPower?_toDigits 1 n hdigit, Int.one_mul]
        rfl
      · exact hsign '+' (by decide)
      · exact hsign '-' (by decide)
    | negSucc n =>
      have hvalue : -1 * ((n + 1 : Nat) : Int) = Int.negSucc n := by omega
      show readExponent? ('e' :: ((toString (Int.negSucc n)).toList ++ rest)) = _
      rw [toList_toString_negSucc]
      show readPower? (-1) (Nat.toDigits 10 (n + 1) ++ rest) = _
      rw [readPower?_toDigits (-1) (n + 1) hdigit, hvalue]

theorem head?_writeExponent (exponent : Option Int) {rest : List Char} (hrest : EndsNumber rest) :
    ∀ c ∈ (writeExponent exponent ++ rest).head?, isDigit c = false ∧ c ≠ '.' := by
  intro c hc
  cases exponent with
  | none => exact ⟨(hrest c hc).1, (hrest c hc).2.1⟩
  | some power =>
    obtain rfl := Option.some.inj hc
    decide

theorem noDigit_writeFraction {fraction : List Nat} {rest : List Char} (hrest : NoDigit rest) :
    NoDigit (writeFraction fraction ++ rest) := by
  intro c hc
  cases fraction with
  | nil => exact hrest c hc
  | cons d ds =>
    obtain rfl := Option.some.inj hc
    decide

/-- Reads a number behind its sign. -/
def readUnsigned? (negative : Bool) (cs : List Char) : Option (Numeral × List Char) := do
  let (whole, cs) ← readWhole? cs
  let (fraction, cs) ← readFraction? cs
  let (exponent, cs) ← readExponent? cs
  return (⟨negative, whole, fraction, exponent⟩, cs)

theorem readNumeral?_of_unsigned {cs : List Char} (h : ∀ rest, cs ≠ '-' :: rest) :
    readNumeral? cs = readUnsigned? false cs := by
  unfold readNumeral?
  split
  next negative cs' heq =>
    split at heq
    · exact absurd rfl (h _)
    · obtain ⟨rfl, rfl⟩ := Prod.mk.inj heq
      rfl

/-- A number is read back if the text does not go on with it. -/
theorem readNumeral?_writeNumeral {n : Numeral} (hn : n.isProper = true) {rest : List Char}
    (hrest : EndsNumber rest) : readNumeral? (writeNumeral n ++ rest) = some (n, rest) := by
  obtain ⟨negative, whole, fraction, exponent⟩ := n
  have hproper : ∀ d ∈ fraction, d < 10 := by simpa [Numeral.isProper] using hn
  let behindFraction := writeExponent exponent ++ rest
  let behindWhole := writeFraction fraction ++ behindFraction
  have hhead := head?_writeExponent exponent hrest
  have hwhole : readWhole? (Nat.toDigits 10 whole ++ behindWhole) = some (whole, behindWhole) :=
    readWhole?_toDigits whole (noDigit_writeFraction fun c hc => (hhead c hc).1)
  have hfraction : readFraction? behindWhole = some (fraction, behindFraction) :=
    readFraction?_write hproper (fun c hc => (hhead c hc).1) fun hc => (hhead _ hc).2 rfl
  have hexponent : readExponent? behindFraction = some (exponent, rest) :=
    readExponent?_write exponent hrest
  have hunsigned : readUnsigned? negative (Nat.toDigits 10 whole ++ behindWhole) =
      some (⟨negative, whole, fraction, exponent⟩, rest) := by
    simp [readUnsigned?, hwhole, hfraction, hexponent]
  have hwritten : writeNumeral ⟨negative, whole, fraction, exponent⟩ ++ rest =
      (if negative then ['-'] else []) ++ (Nat.toDigits 10 whole ++ behindWhole) := by
    show (if negative then ['-'] else []) ++ Nat.toDigits 10 whole ++ writeFraction fraction ++
      writeExponent exponent ++ rest = _
    simp only [behindWhole, behindFraction, List.append_assoc]
  rw [hwritten]
  cases negative with
  | true => exact hunsigned
  | false =>
    refine (readNumeral?_of_unsigned fun cs heq => ?_).trans hunsigned
    have hminus := isDigit_of_toDigits_append (n := whole) heq
    exact absurd hminus (by decide)

/-! ## Strings -/

/-- The piece that a character is written as. -/
def pieceOf (c : Char) : Piece :=
  let hasLetter := ['\x08', '\x0c', '\n', '\r', '\t'].contains c
  if c < ' ' && !hasLetter then .unit c.toNat else .char c

theorem hexDigit?_hexDigit {n : Nat} (h : n < 16) : hexDigit? (hexDigit n) = some n := by
  revert n
  decide

/-- The pieces with another piece in front of them. -/
def withPiece (piece : Piece) (read : Option (List Piece × List Char)) :
    Option (List Piece × List Char) :=
  read.map fun (pieces, rest) => (piece :: pieces, rest)

theorem pieces?_escape {c d : Char} (hletter : c ≠ 'u') (h : escape? c = some d) (cs : List Char) :
    pieces? ('\\' :: c :: cs) = withPiece (.char d) (pieces? cs) := by
  rw [pieces?]
  · rw [h]
    cases pieces? cs <;> rfl
  · exact fun _ _ _ _ _ hu => absurd hu hletter

theorem pieces?_unit {a b : Nat} (ha : a < 16) (hb : b < 16) (cs : List Char) :
    pieces? ('\\' :: 'u' :: '0' :: '0' :: hexDigit a :: hexDigit b :: cs) =
      withPiece (.unit (a * 16 + b)) (pieces? cs) := by
  have hzero : hexDigit? '0' = some 0 := by decide
  rw [pieces?, hzero, hexDigit?_hexDigit ha, hexDigit?_hexDigit hb]
  cases pieces? cs <;> simp [withPiece]

theorem pieces?_char {c : Char} (hblank : ¬c < ' ') (hquote : c ≠ '"') (hescape : c ≠ '\\')
    (cs : List Char) : pieces? (c :: cs) = withPiece (.char c) (pieces? cs) := by
  rw [pieces?]
  · rw [if_neg (by simp [hblank, hescape])]
    cases pieces? cs <;> rfl
  · exact hquote
  · exact fun _ _ _ _ _ h _ => hescape h
  · exact fun _ _ h _ => hescape h

/-- A character is read back as the piece that it is written as. -/
theorem pieces?_quoteChar (c : Char) (cs : List Char) :
    pieces? (quoteChar c ++ cs) = withPiece (pieceOf c) (pieces? cs) := by
  unfold quoteChar
  split
  -- Seven characters are escaped by a letter, the other control characters by their number.
  case h_8 hquote hescape hb hf hn hr ht =>
    split
    · next hcontrol =>
      have hsmall : c.toNat < 32 := hcontrol
      have hpiece : pieceOf c = .unit (c.toNat / 16 * 16 + c.toNat % 16) := by
        rw [Nat.div_add_mod']
        simp only [pieceOf, hcontrol, List.contains_cons, List.contains_nil]
        simp [show c ≠ '\x08' from hb, show c ≠ '\x0c' from hf, show c ≠ '\n' from hn,
          show c ≠ '\r' from hr, show c ≠ '\t' from ht]
      rw [hpiece]
      exact pieces?_unit (by omega) (by omega) cs
    · next hplain =>
      have hpiece : pieceOf c = .char c := by simp [pieceOf, hplain]
      rw [hpiece]
      exact pieces?_char hplain hquote hescape cs
  all_goals exact pieces?_escape (by decide) rfl cs

theorem pieces?_flatMap_quoteChar (cs rest : List Char) :
    pieces? (cs.flatMap quoteChar ++ '"' :: rest) = some (cs.map pieceOf, rest) := by
  induction cs with
  | nil => rfl
  | cons c cs ih => rw [List.flatMap_cons, List.append_assoc, pieces?_quoteChar, ih]; rfl

/-- A control character is not half of a surrogate pair. -/
theorem joinPieces?_unit {n : Nat} (h : n < 32) (pieces : List Piece) :
    joinPieces? (.unit n :: pieces) = (Char.ofNat n :: ·) <$> joinPieces? pieces := by
  have hhigh : isHighSurrogate n = false := by simp [isHighSurrogate]; omega
  have hlow : isLowSurrogate n = false := by simp [isLowSurrogate]; omega
  rcases pieces with _ | ⟨c | m, pieces⟩ <;> simp [joinPieces?, hhigh, hlow]

theorem joinPieces?_map_pieceOf (cs : List Char) : joinPieces? (cs.map pieceOf) = some cs := by
  induction cs with
  | nil => rfl
  | cons c cs ih =>
    rw [List.map_cons, pieceOf]
    split
    · next hcontrol =>
      have hsmall : c.toNat < 32 := by
        simp only [Bool.and_eq_true, decide_eq_true_eq] at hcontrol
        exact hcontrol.1
      rw [joinPieces?_unit hsmall, ih, Char.ofNat_toNat]
      rfl
    · rw [joinPieces?, ih]
      rfl

theorem quote_append (s : String) (rest : List Char) :
    quote (some s) ++ rest = '"' :: (s.toList.flatMap quoteChar ++ '"' :: rest) := by
  show '"' :: (s.toList.flatMap quoteChar ++ ['"']) ++ rest = _
  rw [List.cons_append, List.append_assoc, List.singleton_append]

/-- A string is read back behind its opening quote. -/
theorem readString?_quote (s : String) (rest : List Char) :
    readString? (s.toList.flatMap quoteChar ++ '"' :: rest) = some (some s, rest) := by
  rw [readString?, pieces?_flatMap_quoteChar]
  show some (String.ofList <$> joinPieces? (s.toList.map pieceOf), rest) = _
  rw [joinPieces?_map_pieceOf]
  show some (some (String.ofList s.toList), rest) = _
  rw [String.ofList_toList]

/-! ## Values -/

/-- No value begins with the character that closes an array. -/
theorem readItems_of_closing (bound : Nat) {cs rest : List Char}
    (h : skipBlank cs = ']' :: rest) : (readItems bound cs).2 = none := by
  have hvalue : ∀ bound, readValue? bound cs = none := by
    intro bound
    cases bound with
    | zero => rfl
    | succ bound => rw [readValue?, h]; rfl
  cases bound with
  | zero => rfl
  | succ bound => rw [readItems, hvalue]

/-- No name begins with the character that closes an object. -/
theorem readMembers_of_closing (bound : Nat) {cs rest : List Char}
    (h : skipBlank cs = '}' :: rest) : (readMembers bound cs).2 = none := by
  cases bound with
  | zero => rfl
  | succ bound => rw [readMembers, h]; rfl

/-- Reads an array behind its opening bracket. -/
def readArray? (bound : Nat) (cs : List Char) : Option (Json × List Char) :=
  match skipBlank cs with
  | ']' :: rest => some (.array [], rest)
  | _ =>
    match readItems bound cs with
    | (items, some rest) => some (.array items, rest)
    | (_, none) => none

/-- Reads an object behind its opening brace. -/
def readObject? (bound : Nat) (cs : List Char) : Option (Json × List Char) :=
  match skipBlank cs with
  | '}' :: rest => some (.object [], rest)
  | _ =>
    match readMembers bound cs with
    | (members, some rest) => some (.object members, rest)
    | (_, none) => none

theorem readValue?_bracket (bound : Nat) (cs : List Char) :
    readValue? (bound + 1) ('[' :: cs) = readArray? bound cs := by
  rw [readValue?]
  rfl

theorem readValue?_brace (bound : Nat) (cs : List Char) :
    readValue? (bound + 1) ('{' :: cs) = readObject? bound cs := by
  rw [readValue?]
  rfl

theorem readArray?_of_items {bound : Nat} {cs rest : List Char} {items : List Json}
    (h : readItems bound cs = (items, some rest)) :
    readArray? bound cs = some (.array items, rest) := by
  unfold readArray?
  split
  · next heq =>
    have hnone := readItems_of_closing bound heq
    rw [h] at hnone
    cases hnone
  · rw [h]

theorem readObject?_of_members {bound : Nat} {cs rest : List Char}
    {members : List (Option String × Json)} (h : readMembers bound cs = (members, some rest)) :
    readObject? bound cs = some (.object members, rest) := by
  unfold readObject?
  split
  · next heq =>
    have hnone := readMembers_of_closing bound heq
    rw [h] at hnone
    cases hnone
  · rw [h]

theorem readItems_last {bound : Nat} {cs rest : List Char} {item : Json}
    (h : readValue? bound cs = some (item, ']' :: rest)) :
    readItems (bound + 1) cs = ([item], some rest) := by
  rw [readItems, h]
  rfl

theorem readItems_next {bound : Nat} {cs behind rest : List Char} {item : Json}
    {items : List Json} (h : readValue? bound cs = some (item, ',' :: behind))
    (hitems : readItems bound behind = (items, some rest)) :
    readItems (bound + 1) cs = (item :: items, some rest) := by
  rw [readItems, h]
  show ((item :: (readItems bound behind).1, (readItems bound behind).2) : _ × _) = _
  rw [hitems]

/-- Reads a member behind the colon, and the members that follow it. -/
def readMember (bound : Nat) (name : Option String) (cs : List Char) :
    List (Option String × Json) × Option (List Char) :=
  match readValue? bound cs with
  | none => ([], none)
  | some (value, rest) =>
    match skipBlank rest with
    | '}' :: rest => ([(name, value)], some rest)
    | ',' :: rest => ((name, value) :: (readMembers bound rest).1, (readMembers bound rest).2)
    | _ => ([(name, value)], none)

/-- Reading goes on behind the name of a member. -/
theorem readMembers_quote (bound : Nat) (s : String) (cs : List Char) :
    readMembers (bound + 1) (quote (some s) ++ ':' :: cs) = readMember bound (some s) cs := by
  have hskip : skipBlank ('"' :: (s.toList.flatMap quoteChar ++ '"' :: ':' :: cs)) =
      '"' :: (s.toList.flatMap quoteChar ++ '"' :: ':' :: cs) := rfl
  rw [quote_append, readMembers, hskip]
  split
  · next heq =>
    obtain rfl := (List.cons.inj heq).2
    rw [readString?_quote]
    rfl
  · next hother => exact absurd rfl (hother _)

theorem readMembers_last {bound : Nat} (s : String) {cs rest : List Char} {value : Json}
    (h : readValue? bound cs = some (value, '}' :: rest)) :
    readMembers (bound + 1) (quote (some s) ++ ':' :: cs) = ([(some s, value)], some rest) := by
  rw [readMembers_quote, readMember, h]
  rfl

theorem readMembers_next {bound : Nat} (s : String) {cs behind rest : List Char} {value : Json}
    {members : List (Option String × Json)} (h : readValue? bound cs = some (value, ',' :: behind))
    (hmembers : readMembers bound behind = (members, some rest)) :
    readMembers (bound + 1) (quote (some s) ++ ':' :: cs) =
      ((some s, value) :: members, some rest) := by
  rw [readMembers_quote, readMember, h]
  show ((_ :: (readMembers bound behind).1, (readMembers bound behind).2) : _ × _) = _
  rw [hmembers]

theorem isBlank_of_number {c : Char} (h : isDigit c = true ∨ c = '-') : isBlank c = false := by
  rcases h with h | rfl
  · refine Bool.eq_false_iff.2 fun hblank => ?_
    simp only [isBlank, Bool.or_eq_true, beq_iff_eq] at hblank
    rcases hblank with ((rfl | rfl) | rfl) | rfl <;> revert h <;> decide
  · decide

/-- What begins with a digit or a sign is read as a number. -/
theorem readValue?_of_number (bound : Nat) {c : Char} (h : isDigit c = true ∨ c = '-')
    (cs : List Char) :
    readValue? (bound + 1) (c :: cs) =
      (readNumeral? (c :: cs)).map fun (n, rest) => (.number n, rest) := by
  have hskip : skipBlank (c :: cs) = c :: cs := by
    simp [skipBlank, isBlank_of_number h]
  have hother : ∀ d, isDigit d = false ∧ d ≠ '-' → c ≠ d := by
    rintro d ⟨hdigit, hminus⟩ rfl
    rcases h with h | h
    · rw [h] at hdigit
      cases hdigit
    · exact hminus h
  rw [readValue?, hskip]
  split
  · next heq => exact absurd (List.cons.inj heq).1 (hother '"' (by decide))
  · next heq => exact absurd (List.cons.inj heq).1 (hother '[' (by decide))
  · next heq => exact absurd (List.cons.inj heq).1 (hother '{' (by decide))
  · next heq => exact absurd (List.cons.inj heq).1 (hother 'n' (by decide))
  · next heq => exact absurd (List.cons.inj heq).1 (hother 't' (by decide))
  · next heq => exact absurd (List.cons.inj heq).1 (hother 'f' (by decide))
  · cases readNumeral? (c :: cs) <;> rfl

/-- A number begins with a digit or a sign. -/
theorem exists_cons_writeNumeral (n : Numeral) :
    ∃ c cs, writeNumeral n = c :: cs ∧ (isDigit c = true ∨ c = '-') := by
  obtain ⟨negative, whole, fraction, exponent⟩ := n
  cases negative with
  | true => exact ⟨'-', _, rfl, .inr rfl⟩
  | false =>
    obtain ⟨d, ds, hcons, hdigit⟩ := exists_toDigits whole
    refine ⟨d, ds ++ writeFraction fraction ++ writeExponent exponent, ?_, .inl hdigit⟩
    show Nat.toDigits 10 whole ++ writeFraction fraction ++ writeExponent exponent = _
    rw [hcons]
    rfl

theorem exists_cons_quote (name : Option String) : ∃ cs, quote name = '"' :: cs := by
  cases name <;> exact ⟨_, rfl⟩

/-- Every value has at least one character. -/
theorem length_write_pos (value : Json) : 0 < value.write.length := by
  cases value with
  | null => decide
  | bool b => cases b <;> decide
  | number n =>
    obtain ⟨c, cs, hcons, -⟩ := exists_cons_writeNumeral n
    rw [write, hcons]
    exact Nat.succ_pos _
  | string text =>
    obtain ⟨cs, hcons⟩ := exists_cons_quote text
    rw [write, hcons]
    exact Nat.succ_pos _
  | array items => rw [write]; exact Nat.succ_pos _
  | object members => rw [write]; exact Nat.succ_pos _

/-! Reading an item or a member takes two calls for each character at most, and one more for the
call that goes on to it. -/

mutual

/-- A value is read back, whatever follows it. -/
theorem readValue?_write {value : Json} (hvalue : value.isProper = true) {bound : Nat}
    {rest : List Char} (hbound : 2 * value.write.length ≤ bound) (hrest : EndsNumber rest) :
    readValue? bound (value.write ++ rest) = some (value, rest) := by
  have hpos := length_write_pos value
  obtain ⟨bound, rfl⟩ : ∃ b, bound = b + 1 := ⟨bound - 1, by omega⟩
  cases value with
  | null => rw [write, readValue?]; rfl
  | bool b => cases b <;> rw [write, readValue?] <;> rfl
  | number n =>
    obtain ⟨c, cs, hcons, hhead⟩ := exists_cons_writeNumeral n
    have hread := readNumeral?_writeNumeral hvalue hrest
    rw [write]
    rw [hcons] at hread ⊢
    rw [List.cons_append] at hread ⊢
    rw [readValue?_of_number bound hhead, hread]
    rfl
  | string text =>
    obtain ⟨s, rfl⟩ := Option.isSome_iff_exists.1 hvalue
    rw [write, quote_append, readValue?]
    show (readString? (s.toList.flatMap quoteChar ++ '"' :: rest) >>= fun p => _) = _
    rw [readString?_quote]
    rfl
  | array items =>
    cases items with
    | nil => rw [write, readValue?]; rfl
    | cons item items =>
      rw [write, List.length_cons, List.length_append, List.length_singleton] at hbound
      rw [write, List.cons_append, List.append_assoc, List.singleton_append, readValue?_bracket]
      exact readArray?_of_items (readItems_write hvalue (by omega) (List.cons_ne_nil item items))
  | object members =>
    cases members with
    | nil => rw [write, readValue?]; rfl
    | cons member members =>
      rw [write, List.length_cons, List.length_append, List.length_singleton] at hbound
      rw [write, List.cons_append, List.append_assoc, List.singleton_append, readValue?_brace]
      exact readObject?_of_members
        (readMembers_write hvalue (by omega) (List.cons_ne_nil member members))

/-- The items of an array are read back up to the closing bracket. -/
theorem readItems_write {items : List Json} (hitems : itemsAreProper items = true) {bound : Nat}
    {rest : List Char} (hbound : 2 * (writeItems items).length + 1 ≤ bound) (hne : items ≠ []) :
    readItems bound (writeItems items ++ ']' :: rest) = (items, some rest) := by
  obtain ⟨bound, rfl⟩ : ∃ b, bound = b + 1 := ⟨bound - 1, by omega⟩
  cases items with
  | nil => exact absurd rfl hne
  | cons item items =>
    obtain ⟨hitem, hothers⟩ := Bool.and_eq_true_iff.1 hitems
    cases items with
    | nil =>
      rw [writeItems] at hbound ⊢
      exact readItems_last (readValue?_write hitem (by omega) (endsNumber_cons (by decide)))
    | cons next items =>
      rw [writeItems, List.length_append, List.length_cons] at hbound
      rw [writeItems, List.append_assoc, List.cons_append]
      · exact readItems_next (readValue?_write hitem (by omega) (endsNumber_cons (by decide)))
          (readItems_write hothers (by omega) (List.cons_ne_nil next items))
      all_goals simp

/-- The members of an object are read back up to the closing brace. -/
theorem readMembers_write {members : List (Option String × Json)}
    (hmembers : membersAreProper members = true) {bound : Nat} {rest : List Char}
    (hbound : 2 * (writeMembers members).length + 1 ≤ bound) (hne : members ≠ []) :
    readMembers bound (writeMembers members ++ '}' :: rest) = (members, some rest) := by
  obtain ⟨bound, rfl⟩ : ∃ b, bound = b + 1 := ⟨bound - 1, by omega⟩
  cases members with
  | nil => exact absurd rfl hne
  | cons member members =>
    obtain ⟨name, value⟩ := member
    obtain ⟨hmember, hothers⟩ := Bool.and_eq_true_iff.1 hmembers
    obtain ⟨hname, hvalue⟩ := Bool.and_eq_true_iff.1 hmember
    obtain ⟨s, rfl⟩ := Option.isSome_iff_exists.1 hname
    cases members with
    | nil =>
      rw [writeMembers, List.length_append, List.length_cons] at hbound
      rw [writeMembers, List.append_assoc, List.cons_append]
      exact readMembers_last s (readValue?_write hvalue (by omega) (endsNumber_cons (by decide)))
    | cons next members =>
      rw [writeMembers, List.length_append, List.length_cons, List.length_append,
        List.length_cons] at hbound
      rw [writeMembers, List.append_assoc, List.cons_append, List.append_assoc, List.cons_append]
      · exact readMembers_next s (readValue?_write hvalue (by omega) (endsNumber_cons (by decide)))
          (readMembers_write hothers (by omega) (List.cons_ne_nil next members))
      all_goals simp

end

/-! ## Texts -/

/-- A proper value is read back from its text. -/
theorem ofText?_toText {value : Json} (h : value.isProper = true) :
    ofText? value.toText = some value := by
  have hread : readValue? (callBound value.write) value.write = some (value, []) := by
    have hread : readValue? (callBound value.write) (value.write ++ []) = some (value, []) :=
      readValue?_write h (by unfold callBound; omega) endsNumber_nil
    rwa [List.append_nil] at hread
  show readValue? (callBound (String.ofList value.write).toList)
    (String.ofList value.write).toList >>= _ = _
  rw [String.toList_ofList, hread]
  rfl

/-- The complete parts of the text of an object are all its members. -/
theorem leading_toText_object {members : List (Option String × Json)}
    (h : membersAreProper members = true) (hne : members ≠ []) :
    leading (toText (.object members)) = .members members := by
  let rest := writeMembers members ++ ['}']
  have hread : readMembers (callBound rest) rest = (members, some []) :=
    readMembers_write h (by simp only [callBound, rest, List.length_append]; omega) hne
  unfold leading toText
  rw [String.toList_ofList, write]
  show Leading.members (readMembers (callBound rest) rest).1 = _
  rw [hread]

end Json
end HeapFlow
