import HeapFlow.Json.Record
import Mathlib.Data.List.Basic

/-! # Reading back structured data

The readers of `HeapFlow.Json.Record` find again what was put into a JSON value: a simple value, the
elements of a list, a value that may be missing, the fields of a record (`Json.record?_record`), the
tag of a tagged value and what stands beside it (`Json.tagged?_record`).

Most lemmas are simplification rules: a reader that goes through the fields of a record one by one
turns into what its fields are read as.  Such a reader is simplified without definitional equality
(`simp -implicitDefEqProofs`), which would compare the readers of two fields by running them, down
to the subtraction of a bound of 64 bits in unary.
-/
namespace HeapFlow
namespace Json

/-! ## Simple values -/

theorem int?_int (n : Int) : (int n).int? = some n := Numeral.toInt?_ofInt n

theorem natBelow?_nat {bound n : Nat} (h : n < bound) : (nat n).natBelow? bound = some n := by
  have hread : (nat n).int? = some (n : Int) := int?_int n
  have hrange : (0 ≤ (n : Int) && (n : Int) < bound) = true := by simp [h]
  have hguard : (guard ((0 ≤ (n : Int) && (n : Int) < bound) = true) : Option Unit) = some () :=
    if_pos hrange
  rw [natBelow?, hread]
  show (guard _ >>= fun _ => some n) = some n
  rw [hguard]
  rfl

@[simp] theorem bool?_bool (b : Bool) : (Json.bool b).bool? = some b := rfl

@[simp] theorem text?_text (s : String) : (text s).text? = some s := rfl

@[simp] theorem uint32?_nat (n : UInt32) : (nat n.toNat).uint32? = some n := by
  rw [uint32?, natBelow?_nat n.toNat_lt]
  simp

@[simp] theorem uint64?_nat (n : UInt64) : (nat n.toNat).uint64? = some n := by
  rw [uint64?, natBelow?_nat n.toNat_lt]
  simp

theorem int64?_int (n : Int64) : (int n.toInt).int64? = some n := by
  have hrange : (Int64.minValue.toInt ≤ n.toInt && n.toInt ≤ Int64.maxValue.toInt) = true := by
    rw [Bool.and_eq_true, decide_eq_true_eq, decide_eq_true_eq]
    exact ⟨n.minValue_le_toInt, n.toInt_le⟩
  have hguard : (guard ((Int64.minValue.toInt ≤ n.toInt && n.toInt ≤ Int64.maxValue.toInt) = true) :
      Option Unit) = some () := if_pos hrange
  rw [int64?, int?_int]
  show (guard _ >>= fun _ => some (Int64.ofInt n.toInt)) = _
  rw [hguard, Int64.ofInt_toInt]
  rfl

theorem char?_text (c : Char) : (text (String.singleton c)).char? = some c := by
  simp [char?]

/-! ## Lists and values that may be missing -/

section

variable {α : Type} {read : Json → Option α} {write : α → Json}

@[simp] theorem list?_ofList {as : List α} (h : ∀ a ∈ as, read (write a) = some a) :
    list? read (ofList write as) = some as := by
  show (as.map write).mapM read = some as
  induction as with
  | nil => rfl
  | cons a as ih =>
    have hhead := h a List.mem_cons_self
    have htail := ih fun a ha => h a (List.mem_cons_of_mem _ ha)
    rw [List.map_cons, List.mapM_cons, hhead, htail]
    rfl

theorem ofList_map {β : Type} (f : β → α) (bs : List β) :
    ofList write (bs.map f) = ofList (fun b => write (f b)) bs := by
  rw [ofList, List.map_map]
  rfl

@[simp] theorem ofOption_some (a : α) : ofOption write (some a) = write a := rfl

theorem ofOption_map {β : Type} (f : β → α) (b? : Option β) :
    ofOption write (b?.map f) = ofOption (fun b => write (f b)) b? := by
  cases b? <;> rfl

theorem option?_of_ne_null {value : Json} (h : value ≠ .null) :
    option? read value = some <$> read value := by
  cases value with
  | null => exact absurd rfl h
  | _ => rfl

/-- A value that may be missing is read back if no value is written as `null`. -/
@[simp] theorem option?_ofOption {a? : Option α} (hnull : ∀ a, write a ≠ .null)
    (h : ∀ a ∈ a?, read (write a) = some a) : option? read (ofOption write a?) = some a? := by
  cases a? with
  | none => rfl
  | some a => rw [ofOption, option?_of_ne_null (hnull a), h a rfl]; rfl

end

/-! ## Records -/

@[simp] theorem record_ne_null (fields : List (String × Json)) : record fields ≠ .null := nofun

/-- The members of a record. -/
def membersOf (fields : List (String × Json)) : List (Option String × Json) :=
  fields.map fun (name, value) => (some name, value)

theorem valuesOf_cons_self (name : String) (value : Json) (members : List (Option String × Json)) :
    valuesOf ((some name, value) :: members) name = value :: valuesOf members name := by
  simp [valuesOf]

theorem valuesOf_cons_of_ne {name other : String} (h : other ≠ name) (value : Json)
    (members : List (Option String × Json)) :
    valuesOf ((some other, value) :: members) name = valuesOf members name := by
  simp [valuesOf, h]

theorem valuesOf_of_not_mem {fields : List (String × Json)} {name : String}
    (h : name ∉ fields.map Prod.fst) : valuesOf (membersOf fields) name = [] := by
  induction fields with
  | nil => rfl
  | cons field fields ih =>
    rw [List.map_cons, List.mem_cons, not_or] at h
    exact (valuesOf_cons_of_ne (Ne.symm h.1) _ _).trans (ih h.2)

/-- A record has each of its fields once. -/
theorem valuesOf_of_mem {fields : List (String × Json)} (hnodup : (fields.map Prod.fst).Nodup)
    {name : String} {value : Json} (h : (name, value) ∈ fields) :
    valuesOf (membersOf fields) name = [value] := by
  induction fields with
  | nil => cases h
  | cons field fields ih =>
    obtain ⟨hhead, hnodup⟩ := List.nodup_cons.1 hnodup
    obtain rfl | h := List.mem_cons.1 h
    · exact (valuesOf_cons_self _ _ _).trans (congrArg (value :: ·) (valuesOf_of_not_mem hhead))
    · have hne : field.1 ≠ name := fun heq => hhead (heq ▸ List.mem_map_of_mem h)
      exact (valuesOf_cons_of_ne hne _ _).trans (ih hnodup h)

/-- The record that has the given fields, and a value at each of them. -/
def Record.ofFields (fields : List (String × Json)) : Record :=
  ⟨fields.map fun (name, value) => (name, .given value)⟩

/-- A record has what was written at its fields. -/
@[simp] theorem record?_record {fields : List (String × Json)} {names : List String}
    (hnames : fields.map Prod.fst = names) (hnodup : names.Nodup) :
    (record fields).record? names = some (.ofFields fields) := by
  subst hnames
  have hproper : namesAreProper (fields.map Prod.fst) (membersOf fields) = true := by
    rw [namesAreProper, Bool.and_eq_true, List.all_eq_true, List.all_eq_true]
    refine ⟨?_, ?_⟩
    · intro member hmember
      obtain ⟨field, -, rfl⟩ := List.mem_map.1 hmember
      rfl
    · intro name hname
      obtain ⟨field, hfield, rfl⟩ := List.mem_map.1 hname
      rw [valuesOf_of_mem hnodup hfield]
      rfl
  have hcells : (fields.map Prod.fst).map (fun name => (name, cellOf (membersOf fields) name)) =
      fields.map fun (name, value) => (name, .given value) := by
    rw [List.map_map]
    refine List.map_congr_left fun field hfield => ?_
    rw [Function.comp_apply, cellOf, valuesOf_of_mem hnodup hfield]
  show (if namesAreProper (fields.map Prod.fst) (membersOf fields) then
    some (Record.mk ((fields.map Prod.fst).map fun name => (name, cellOf (membersOf fields) name)))
    else none) = _
  rw [if_pos hproper, hcells]
  rfl

namespace Record

theorem cell_cons_self (name : String) (value : Json) (fields : List (String × Json)) :
    (ofFields ((name, value) :: fields)).cell name = .given value := by
  simp [cell, ofFields]

theorem cell_cons_of_ne {name other : String} (h : name ≠ other) (value : Json)
    (fields : List (String × Json)) :
    (ofFields ((other, value) :: fields)).cell name = (ofFields fields).cell name := by
  simp [cell, ofFields, List.lookup_cons, beq_false_of_ne h]

variable {α : Type} {name other : String} {value : Json} {fields : List (String × Json)}
variable {read : Json → Option α} {default : α}

@[simp] theorem required_cons_self :
    (ofFields ((name, value) :: fields)).required name read = read value := by
  rw [required, cell_cons_self]

@[simp] theorem required_cons_of_ne (h : name ≠ other) :
    (ofFields ((other, value) :: fields)).required name read =
      (ofFields fields).required name read := by
  rw [required, cell_cons_of_ne h, required]

@[simp] theorem optional_cons_self :
    (ofFields ((name, value) :: fields)).optional name read = option? read value := by
  rw [optional, cell_cons_self]

@[simp] theorem optional_cons_of_ne (h : name ≠ other) :
    (ofFields ((other, value) :: fields)).optional name read =
      (ofFields fields).optional name read := by
  rw [optional, cell_cons_of_ne h, optional]

@[simp] theorem withDefault_cons_self :
    (ofFields ((name, value) :: fields)).withDefault name read default = read value := by
  rw [withDefault, cell_cons_self]

@[simp] theorem withDefault_cons_of_ne (h : name ≠ other) :
    (ofFields ((other, value) :: fields)).withDefault name read default =
      (ofFields fields).withDefault name read default := by
  rw [withDefault, cell_cons_of_ne h, withDefault]

end Record

/-! ## Tagged values -/

/-- A tag that is written in front of a record is found, and the record is what is left. -/
@[simp] theorem tagged?_record {fields : List (String × Json)} {tag : String}
    (h : tag ∉ fields.map Prod.fst) (kind : Json) :
    (record ((tag, kind) :: fields)).tagged? tag = some (kind, record fields) := by
  have hvalues : valuesOf ((some tag, kind) :: membersOf fields) tag = [kind] := by
    rw [valuesOf_cons_self, valuesOf_of_not_mem h]
  have hothers : ((some tag, kind) :: membersOf fields).filter
      (fun member => member.1 != some tag) = membersOf fields := by
    rw [List.filter_cons_of_neg (by simp), List.filter_eq_self]
    intro member hmember
    obtain ⟨field, hfield, rfl⟩ := List.mem_map.1 hmember
    have hne : field.1 ≠ tag := fun heq => h (heq ▸ List.mem_map_of_mem hfield)
    simpa using hne
  have hrecord : record ((tag, kind) :: fields) =
      .object ((some tag, kind) :: membersOf fields) := rfl
  rw [hrecord, tagged?, hvalues]
  show some (kind, Json.object (((some tag, kind) :: membersOf fields).filter
    fun member => member.1 != some tag)) = _
  rw [hothers]
  rfl

@[simp] theorem kind?_text {access : Access} {kinds : List String} {name : String}
    (h : name ∈ kinds) : (text name).kind? access kinds = some name :=
  if_pos (List.contains_iff_mem.2 h)

end Json
end HeapFlow
