import HeapFlow.Proofs.Json.Record
import HeapFlow.Proofs.Json.Text

/-! # Plain values

A value is plain (`Json.Plain`) if all its strings denote texts and all its numbers are integers of
at most 64 bits.  Plain values can be written (`Json.Plain.isProper`) and stored
(`Json.Plain.isStorable`).  Whether a record or a list is plain, and how deep it is, comes down to
its fields and elements.
-/
namespace HeapFlow

namespace Numeral

theorem le_foldl_digits (digits : List Nat) (n : Nat) :
    n ≤ digits.foldl (fun n d => n * 10 + d) n := by
  induction digits generalizing n with
  | nil => exact Nat.le_refl n
  | cons d digits ih => exact Nat.le_trans (by omega) (ih (n * 10 + d))

/-- All digits of a number of 64 bits are gathered. -/
theorem gather_eq {digits : List Nat} {n : Nat}
    (h : digits.foldl (fun n d => n * 10 + d) n < UInt64.size) :
    gather n digits = (digits.foldl (fun n d => n * 10 + d) n, []) := by
  induction digits generalizing n with
  | nil => rfl
  | cons d digits ih =>
    rw [gather, if_pos (Nat.lt_of_le_of_lt (le_foldl_digits digits _) h), ih h]
    rfl

theorem fitsDouble_ofInt {n : Int} (h : n.natAbs < UInt64.size) : (ofInt n).fitsDouble = true := by
  have hdigits : (digits n.natAbs).foldl (fun n d => n * 10 + d) 0 = n.natAbs :=
    Json.ofDigits_toDigits n.natAbs
  have hgather : gather 0 (digits n.natAbs) = (n.natAbs, []) := by
    rw [gather_eq (by rwa [hdigits]), hdigits]
  have hscaled : (ofInt n).scaled = (n.natAbs, 0) := by
    unfold scaled ofInt
    rw [hgather]
    rfl
  rw [fitsDouble, hscaled]
  simp

end Numeral

namespace Json

/-- All strings denote texts, and all numbers are integers of at most 64 bits. -/
inductive Plain : Json → Prop
  | null : Plain .null
  | bool (b : Bool) : Plain (.bool b)
  | int {n : Int} (h : n.natAbs < UInt64.size) : Plain (.number (.ofInt n))
  | text (s : String) : Plain (.string (some s))
  | array {items : List Json} (h : ∀ item ∈ items, Plain item) : Plain (.array items)
  | object {members : List (Option String × Json)}
      (hnames : ∀ member ∈ members, member.1.isSome = true)
      (h : ∀ member ∈ members, Plain member.2) : Plain (.object members)

theorem itemsAreProper_of_all {items : List Json} (h : ∀ item ∈ items, item.isProper = true) :
    itemsAreProper items = true := by
  induction items with
  | nil => rfl
  | cons item items ih =>
    obtain ⟨hitem, hitems⟩ := List.forall_mem_cons.1 h
    rw [itemsAreProper, hitem, ih hitems]
    rfl

theorem membersAreProper_of_all {members : List (Option String × Json)}
    (hnames : ∀ member ∈ members, member.1.isSome = true)
    (h : ∀ member ∈ members, member.2.isProper = true) : membersAreProper members = true := by
  induction members with
  | nil => rfl
  | cons member members ih =>
    obtain ⟨hname, hnames⟩ := List.forall_mem_cons.1 hnames
    obtain ⟨hmember, hmembers⟩ := List.forall_mem_cons.1 h
    rw [membersAreProper, hname, hmember, ih hnames hmembers]
    rfl

theorem itemsAreStorable_of_all {items : List Json} (h : ∀ item ∈ items, item.isStorable = true) :
    itemsAreStorable items = true := by
  induction items with
  | nil => rfl
  | cons item items ih =>
    obtain ⟨hitem, hitems⟩ := List.forall_mem_cons.1 h
    rw [itemsAreStorable, hitem, ih hitems]
    rfl

theorem membersAreStorable_of_all {members : List (Option String × Json)}
    (hnames : ∀ member ∈ members, member.1.isSome = true)
    (h : ∀ member ∈ members, member.2.isStorable = true) : membersAreStorable members = true := by
  induction members with
  | nil => rfl
  | cons member members ih =>
    obtain ⟨hname, hnames⟩ := List.forall_mem_cons.1 hnames
    obtain ⟨hmember, hmembers⟩ := List.forall_mem_cons.1 h
    rw [membersAreStorable, hname, hmember, ih hnames hmembers]
    rfl

namespace Plain

/-- Plain values can be written. -/
theorem isProper {value : Json} (h : value.Plain) : value.isProper = true := by
  induction h with
  | null | bool | int | text => rfl
  | array _ ih => exact itemsAreProper_of_all ih
  | object hnames _ ih => exact membersAreProper_of_all hnames ih

/-- Plain values can be stored. -/
theorem isStorable {value : Json} (h : value.Plain) : value.isStorable = true := by
  induction h with
  | null | bool | text => rfl
  | int h => exact Numeral.fitsDouble_ofInt h
  | array _ ih => exact itemsAreStorable_of_all ih
  | object hnames _ ih => exact membersAreStorable_of_all hnames ih

end Plain

/-! ## Records and lists -/

section

variable {α : Type} {write : α → Json}

@[simp] theorem plain_null : Plain .null := .null

@[simp] theorem plain_bool (b : Bool) : Plain (.bool b) := .bool b

@[simp] theorem plain_text (s : String) : Plain (text s) := .text s

@[simp] theorem plain_uint32 (n : UInt32) : Plain (nat n.toNat) :=
  .int (Nat.lt_trans n.toNat_lt (by decide))

@[simp] theorem plain_uint64 (n : UInt64) : Plain (nat n.toNat) := .int n.toNat_lt

@[simp] theorem plain_int64 (n : Int64) : Plain (int n.toInt) := by
  have hlower := n.le_toInt
  have hupper := n.toInt_lt
  exact .int (show n.toInt.natAbs < 2 ^ 64 by omega)

@[simp] theorem plain_record {fields : List (String × Json)} :
    Plain (record fields) ↔ ∀ field ∈ fields, field.2.Plain := by
  constructor
  · rintro (_ | _ | _ | _ | _ | ⟨-, h⟩) field hfield
    exact h _ (List.mem_map_of_mem hfield)
  · intro h
    refine .object (fun member hmember => ?_) fun member hmember => ?_
    · obtain ⟨field, -, rfl⟩ := List.mem_map.1 hmember
      rfl
    · obtain ⟨field, hfield, rfl⟩ := List.mem_map.1 hmember
      exact h field hfield

@[simp] theorem plain_ofList {as : List α} :
    Plain (ofList write as) ↔ ∀ a ∈ as, (write a).Plain := by
  constructor
  · rintro (_ | _ | _ | _ | h | _) a ha
    exact h _ (List.mem_map_of_mem ha)
  · intro h
    refine .array fun item hitem => ?_
    obtain ⟨a, ha, rfl⟩ := List.mem_map.1 hitem
    exact h a ha

@[simp] theorem plain_ofOption {a? : Option α} :
    Plain (ofOption write a?) ↔ ∀ a ∈ a?, (write a).Plain := by
  cases a? with
  | none => simp [ofOption]
  | some a => simp [ofOption]

/-- The fields of a record are less deep than the record. -/
theorem depth_lt_record (name : String) {value : Json} {fields : List (String × Json)}
    (h : (name, value) ∈ fields) : value.depth < (record fields).depth := by
  have hmember : (some name, value) ∈ membersOf fields := List.mem_map.2 ⟨(name, value), h, rfl⟩
  exact Nat.lt_succ_of_le (depthOfMembers_le_iff.1 (Nat.le_refl _) _ hmember)

/-- The elements of a list are less deep than the list. -/
theorem depth_lt_ofList (write : α → Json) {a : α} {as : List α} (h : a ∈ as) :
    (write a).depth < (ofList write as).depth :=
  Nat.lt_succ_of_le (depthOfItems_le_iff.1 (Nat.le_refl _) _ (List.mem_map_of_mem h))

@[simp] theorem depth_le_ofList {a : α} {as : List α} (h : a ∈ as) :
    (write a).depth ≤ (ofList write as).depth :=
  Nat.le_of_lt (depth_lt_ofList write h)

end

end Json
end HeapFlow
