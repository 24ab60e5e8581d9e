import HeapFlow.Domain.PointsTo
import HeapFlow.Proofs.Domain.Join
import HeapFlow.Proofs.Domain.LocationSet

/-! # Points-to values form a domain with joins

The values that the analysis computes are well-formed (`PointsTo.WellFormed`): a known value has at
least one location and not more than are tracked.  On these values merging is commutative,
associative and idempotent (`PointsTo.joinOn_wellFormed`), with `undefined` as the least value and
`unknown` as the greatest one.  It is associative although it gives up on large unions, because a
union that is too large stays too large.
-/
namespace HeapFlow
namespace PointsTo

/-- A known value has locations, and not more than are tracked. -/
def WellFormed : PointsTo → Prop
  | .known locations => 0 < locations.size ∧ locations.size ≤ maxLocations
  | .undefined | .noLocation | .unknown => True

instance (value : PointsTo) : Decidable value.WellFormed := by
  cases value <;> unfold WellFormed <;> infer_instance

theorem wellFormed_ofSet (set : LocationSet) : (ofSet set).WellFormed := by
  unfold ofSet
  split
  · trivial
  · split
    · trivial
    · simp only [WellFormed]
      omega

theorem ofSet_of_isKnown {set : LocationSet} (h : (ofSet set).isKnown = true) :
    ofSet set = known set := by
  unfold ofSet at h ⊢
  split at h
  · cases h
  · next hne =>
    split at h
    · cases h
    · next hsize => rw [if_neg hne, if_neg hsize]

/-! ## Merging -/

@[simp] theorem undefined_merge (b : PointsTo) : undefined.merge b = b := by
  cases b <;> rfl

@[simp] theorem merge_undefined (a : PointsTo) : a.merge undefined = a := by
  cases a <;> rfl

@[simp] theorem unknown_merge (b : PointsTo) : unknown.merge b = unknown := by
  cases b <;> rfl

@[simp] theorem merge_unknown (a : PointsTo) : a.merge unknown = unknown := by
  cases a <;> rfl

@[simp] theorem noLocation_merge_known (a : LocationSet) :
    noLocation.merge (known a) = unknown :=
  rfl

@[simp] theorem known_merge_noLocation (a : LocationSet) :
    (known a).merge noLocation = unknown :=
  rfl

theorem known_merge_known (a b : LocationSet) : (known a).merge (known b) = ofSet (a.union b) :=
  rfl

theorem merge_comm (a b : PointsTo) : a.merge b = b.merge a := by
  cases a with
  | known a =>
    cases b with
    | known b => rw [known_merge_known, known_merge_known, LocationSet.union_comm]
    | _ => simp
  | _ => cases b <;> simp

theorem WellFormed.merge {a b : PointsTo} (ha : a.WellFormed) (hb : b.WellFormed) :
    (a.merge b).WellFormed := by
  cases a with
  | known a =>
    cases b with
    | known b => exact wellFormed_ofSet (a.union b)
    | _ => simp_all [WellFormed]
  | _ => cases b <;> simp_all [WellFormed, PointsTo.merge]

/-- A merge of known values is known if not too many locations come together. -/
theorem ofSet_union {a : LocationSet} (ha : 0 < a.size) (b : LocationSet) :
    ofSet (a.union b) = if maxLocations < (a.union b).size then unknown else known (a.union b) := by
  have hsize := LocationSet.size_le_union_left a b
  have hne : (a.union b).size ≠ 0 := by omega
  rw [ofSet, if_neg hne]

theorem WellFormed.merge_self {a : PointsTo} (ha : a.WellFormed) : a.merge a = a := by
  cases a with
  | known a =>
    obtain ⟨hpos, hle⟩ := ha
    rw [known_merge_known, ofSet_union hpos, LocationSet.union_self, if_neg (by omega)]
  | _ => rfl

theorem WellFormed.widen_self {a : PointsTo} (ha : a.WellFormed) : a.widen a = a := by
  rw [widen, ha.merge_self, if_pos rfl, ite_self]

/-- A known value absorbs nothing once too many locations have come together. -/
theorem ofSet_union_merge {a b c : LocationSet} (ha : 0 < a.size) :
    (ofSet (a.union b)).merge (known c) = ofSet ((a.union b).union c) := by
  have hpos : 0 < (a.union b).size := Nat.lt_of_lt_of_le ha (LocationSet.size_le_union_left a b)
  have hsize := LocationSet.size_le_union_left (a.union b) c
  rw [ofSet_union ha]
  split
  · next htoo =>
    have htoo' : maxLocations < ((a.union b).union c).size := Nat.lt_of_lt_of_le htoo hsize
    rw [unknown_merge, ofSet_union hpos, if_pos htoo']
  · rfl

theorem WellFormed.merge_assoc {a b c : PointsTo} (ha : a.WellFormed) (hb : b.WellFormed) :
    (a.merge b).merge c = a.merge (b.merge c) := by
  cases a with
  | undefined => simp
  | unknown => simp
  | noLocation =>
    cases b with
    | known b =>
      cases c with
      | known c =>
        rw [known_merge_known, ofSet_union hb.1, noLocation_merge_known, unknown_merge]
        split <;> rfl
      | _ => simp
    | _ => cases c <;> simp [PointsTo.merge]
  | known a =>
    cases b with
    | undefined => simp
    | unknown => simp
    | noLocation => cases c <;> simp [PointsTo.merge]
    | known b =>
      cases c with
      | undefined => simp
      | unknown => simp
      | noLocation =>
        rw [known_merge_known, ofSet_union ha.1, known_merge_noLocation, merge_unknown]
        split <;> rfl
      | known c =>
        have hunion : (b.union c).union a = (a.union b).union c := by
          rw [LocationSet.union_comm (b.union c) a, LocationSet.union_assoc]
        rw [known_merge_known, known_merge_known, ofSet_union_merge ha.1,
          merge_comm (known a), ofSet_union_merge hb.1, hunion]

/-! ## Covering -/

/-- What two owners are covered by: themselves if they are equal, and otherwise their merge.  The
two differ on known values that are not well-formed. -/
def cover (a b : PointsTo) : PointsTo := if a = b then a else a.merge b

@[simp] theorem cover_self (a : PointsTo) : a.cover a = a := if_pos rfl

theorem cover_comm (a b : PointsTo) : a.cover b = b.cover a := by
  unfold cover
  by_cases h : a = b
  · rw [if_pos h, if_pos h.symm, h]
  · rw [if_neg h, if_neg (Ne.symm h), merge_comm]

/-- The union of two different sets has locations, so it is kept unless it has too many. -/
theorem ofSet_union_eq_or {a b : LocationSet} (h : a ≠ b) :
    ofSet (a.union b) = unknown ∨
      ofSet (a.union b) = known (a.union b) ∧ (a.union b).size ≤ maxLocations := by
  have hne : (a.union b).size ≠ 0 := by
    intro hzero
    have hempty : ∀ l, l ∉ a.union b := by
      intro l hl
      have hlist : (a.union b).toList = [] := List.length_eq_zero_iff.1 hzero
      rw [LocationSet.mem_iff, hlist] at hl
      cases hl
    simp only [LocationSet.mem_union, not_or] at hempty
    exact h (LocationSet.ext_mem fun l =>
      ⟨fun hl => absurd hl (hempty l).1, fun hl => absurd hl (hempty l).2⟩)
  rw [ofSet, if_neg hne]
  split
  · exact .inl rfl
  · next hsize => exact .inr ⟨rfl, by omega⟩

/-- What covers two values covers each of them and itself. -/
theorem cover_cover (a b : PointsTo) : (a.cover b).cover b = a.cover b := by
  by_cases h : a = b
  · simp [h]
  have hcover : a.cover b = a.merge b := if_neg h
  rw [hcover]
  cases a with
  | undefined => simp
  | unknown => cases b <;> simp [cover]
  | noLocation => cases b <;> simp_all [cover, PointsTo.merge]
  | known a =>
    cases b with
    | undefined => simp [cover]
    | unknown => simp
    | noLocation => simp [cover]
    | known b =>
      have hne : a ≠ b := fun heq => h (by rw [heq])
      rw [known_merge_known]
      rcases ofSet_union_eq_or hne with hunion | ⟨hunion, hsize⟩
      · rw [hunion]
        simp [cover]
      · rw [hunion]
        unfold cover
        split
        · rfl
        · rw [known_merge_known, LocationSet.union_assoc, LocationSet.union_self, hunion]

/-- Well-formed values are ordered by precision, and merging joins them. -/
theorem joinOn_wellFormed : AbstractValue.JoinOn WellFormed where
  unknown := trivial
  merge := .merge
  assoc ha hb _ := ha.merge_assoc hb
  comm _ _ := merge_comm _ _
  self ha := ha.merge_self
  merge_unknown _ := PointsTo.merge_unknown _

end PointsTo
end HeapFlow
