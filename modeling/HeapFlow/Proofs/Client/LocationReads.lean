import HeapFlow.Proofs.Client.LocationUpdates

/-! # Reads by way of references

A reference is read by merging the values of the locations that it may refer to.  The merge is the
least value above all of these (`LocationState.valueAt_known_subset_iff`), so it only depends on
which locations there are.  A reference that may refer to more objects is read less precisely, with
nothing and anything as the extreme cases, and the read of a merge of two known references is the
merge of the reads (`LocationState.valueAt_isMonotone`).  If the merge of the two references is not
known any more, because there are too many locations, then the read is the unknown value.
-/
namespace HeapFlow
namespace LocationState

section

variable {V : Type} [DecidableEq V] [AbstractValue V]
variable {valid : V → Prop} {state : LocationState V} {default : Location → V}
variable (hjoin : AbstractValue.JoinOn valid) (hsemilattice : AbstractValue.SemilatticeOn valid)
variable (hstate : state.locations.AllValid valid) (hdefault : ∀ location, valid (default location))

include hstate hdefault

omit [DecidableEq V] [AbstractValue V] in
/-- The values that are merged are valid. -/
theorem valid_of_mem_read (locations : List Location) :
    ∀ value ∈ locations.map fun location =>
      (state.locations.get? location).getD (default location), valid value := by
  intro value hvalue
  obtain ⟨location, -, rfl⟩ := List.mem_map.1 hvalue
  exact valid_getD hstate (hdefault location)

include hjoin hsemilattice

omit [DecidableEq V] in
theorem valid_valueAt (pointsTo : PointsTo) : valid (state.valueAt pointsTo default) := by
  cases pointsTo with
  | undefined | noLocation => exact hsemilattice.bottom
  | unknown => exact hjoin.unknown
  | known locations =>
    exact hjoin.valid_foldl hsemilattice.bottom (valid_of_mem_read hstate hdefault locations.toList)

/-- The read of known locations is the least value above the values of the locations. -/
theorem valueAt_known_subset_iff {locations : LocationSet} {c : V} (hc : valid c) :
    AbstractValue.subset (state.valueAt (.known locations) default) c = true ↔
      ∀ location ∈ locations, AbstractValue.subset
        ((state.locations.get? location).getD (default location)) c = true := by
  have hvalues := valid_of_mem_read hstate hdefault locations.toList
  constructor
  · intro hbelow location hlocation
    have hmem := List.mem_map_of_mem (f := fun location =>
      (state.locations.get? location).getD (default location)) hlocation
    have hread : AbstractValue.subset ((state.locations.get? location).getD (default location))
        (state.valueAt (.known locations) default) = true :=
      hjoin.subset_foldl hsemilattice.bottom hvalues (.inr hmem)
    exact hjoin.subset_trans (hvalues _ hmem)
      (valid_valueAt hjoin hsemilattice hstate hdefault _) hc hread hbelow
  · intro hall
    refine hjoin.foldl_subset hsemilattice.bottom hvalues hc
      (AbstractValue.subset_iff.2 (hsemilattice.bottom_merge hc)) fun value hvalue => ?_
    obtain ⟨location, hlocation, rfl⟩ := List.mem_map.1 hvalue
    exact hall location hlocation

/-- What is read of fewer locations is more precise. -/
theorem valueAt_known_mono {a b : LocationSet} (h : ∀ location, location ∈ a → location ∈ b) :
    AbstractValue.subset (state.valueAt (.known a) default) (state.valueAt (.known b) default) =
      true := by
  have hb := valid_valueAt hjoin hsemilattice hstate hdefault (.known b)
  have hread := (valueAt_known_subset_iff hjoin hsemilattice hstate hdefault hb).1
    (hjoin.subset_refl hb)
  exact (valueAt_known_subset_iff hjoin hsemilattice hstate hdefault hb).2 fun location ha =>
    hread location (h location ha)

/-- The union of two sets of locations is read as the merge of what is read of each of them. -/
theorem valueAt_union (a b : LocationSet) :
    state.valueAt (.known (a.union b)) default =
      AbstractValue.merge (state.valueAt (.known a) default)
        (state.valueAt (.known b) default) := by
  have hvalid := valid_valueAt hjoin hsemilattice hstate hdefault
  refine hjoin.eq_of_subset_iff (hvalid _) (hjoin.merge (hvalid _) (hvalid _)) fun c hc => ?_
  rw [hjoin.merge_subset_iff (hvalid _) (hvalid _) hc]
  simp only [valueAt_known_subset_iff hjoin hsemilattice hstate hdefault hc, LocationSet.mem_union,
    or_imp, forall_and]

/-- **Reads are monotone.**  A less precise reference is read less precisely, and the merge of two
known references is read as the merge of what is read of each of them, as long as it is known. -/
theorem valueAt_isMonotone (p q : PointsTo) :
    (AbstractValue.subset p q = true →
      AbstractValue.subset (state.valueAt p default) (state.valueAt q default) = true) ∧
    (p.isKnown = true → q.isKnown = true → (p.merge q).isKnown = true →
      state.valueAt (p.merge q) default =
        AbstractValue.merge (state.valueAt p default) (state.valueAt q default)) := by
  have hvalid := valid_valueAt hjoin hsemilattice hstate hdefault
  constructor
  · intro hbelow
    rcases PointsTo.subset_cases hbelow with rfl | rfl | rfl | ⟨a, b, rfl, rfl, hmem⟩
    · exact AbstractValue.subset_iff.2 (hsemilattice.bottom_merge (hvalid q))
    · exact hjoin.subset_unknown (hvalid p)
    · exact hjoin.subset_refl (hvalid p)
    · exact valueAt_known_mono hjoin hsemilattice hstate hdefault hmem
  · intro hp hq hmerged
    cases p with
    | known a =>
      cases q with
      | known b =>
        have hunion : (PointsTo.known a).merge (.known b) = .known (a.union b) :=
          PointsTo.ofSet_of_isKnown hmerged
        rw [hunion, valueAt_union hjoin hsemilattice hstate hdefault]
      | _ => cases hq
    | _ => cases hp

end

/-! ## Reads of objects that may have been disposed of -/

theorem joinOn_truth : AbstractValue.JoinOn fun _ : Truth => True where
  unknown := trivial
  merge _ _ := trivial
  assoc := semilatticeOn_truth.assoc
  comm := semilatticeOn_truth.comm
  self := semilatticeOn_truth.self
  merge_unknown {a} _ := by cases a <;> rfl

/-- An object that was not disposed of is read along with objects that are taken to be disposed
of. -/
theorem valueAt_isMonotone_sampleState :
    let default : Location → Truth := fun _ => .isTrue
    let other := PointsTo.ofLocations [sampleObject 2, sampleObject 3]
    AbstractValue.subset (PointsTo.ofLocation (sampleObject 1)) sampleChoice = true ∧
      AbstractValue.subset (sampleState.valueAt (.ofLocation (sampleObject 1)) default)
        (sampleState.valueAt sampleChoice default) = true ∧
      (sampleChoice.merge other).isKnown = true ∧
      sampleState.valueAt (sampleChoice.merge other) default =
        AbstractValue.merge (sampleState.valueAt sampleChoice default)
          (sampleState.valueAt other default) := by
  intro default other
  have hvalid : sampleState.locations.AllValid (fun _ => True) := fun _ _ _ => trivial
  have hmono := @valueAt_isMonotone _ _ _ _ _ default joinOn_truth semilatticeOn_truth hvalid
    fun _ => trivial
  have hbelow : AbstractValue.subset (PointsTo.ofLocation (sampleObject 1)) sampleChoice = true := by
    decide
  have hknown : (sampleChoice.merge other).isKnown = true := by decide
  exact ⟨hbelow, (hmono _ _).1 hbelow, hknown, (hmono _ _).2 (by decide) (by decide) hknown⟩

end LocationState
end HeapFlow
