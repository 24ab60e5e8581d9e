import HeapFlow.Client.LocationState
import HeapFlow.Domain.Truth
import HeapFlow.Proofs.Domain.Semilattice
import HeapFlow.Proofs.Environment.Merge

/-! # Updates by way of references

An update by way of a reference replaces the value of a location if the reference refers to that
location and to no other.  If the location is one of several, or if the reference may refer to
anything, then it is not known whether the location is updated, so that its value has to cover both
the old value and the new one.  All other locations keep their values
(`LocationState.UpdateIsSound`).

`LocationState.setValueAt` updates nothing if the reference may refer to anything, so that such an
update is sound only if the new value adds nothing to the old one.  And it does not know the default
of a location without a value: if there are several locations, then an update of such a location is
sound only if the default adds nothing to the new value.  All other updates are sound
(`LocationState.setValueAt_isSound_iff`).
-/
namespace HeapFlow
namespace LocationState

variable {V : Type} [DecidableEq V] [AbstractValue V]

/-- What an update by way of a reference may do to the value of a location. -/
def UpdateIsSound (pointsTo : PointsTo) (value : V) (location : Location) (before after : V) :
    Prop :=
  match pointsTo with
  | .known locations =>
    if locations.contains location then
      if locations.size = 1 then after = value
      else AbstractValue.subset (AbstractValue.merge before value) after = true
    else after = before
  | .unknown => AbstractValue.subset (AbstractValue.merge before value) after = true
  | .undefined | .noLocation => after = before

/-! ## What an update binds -/

/-- The value of a location that may have been updated: the old value merged with the new one, or
just the new one if there is no old one. -/
def mergedInto (value : V) : Option V → V
  | some existing => AbstractValue.merge existing value
  | none => value

variable (value : V) (environment : Environment Location V)

omit [DecidableEq V] in
theorem mergeAt_eq (location : Location) : mergeAt value environment location =
    environment.insert location (mergedInto value (environment.get? location)) := by
  unfold mergeAt
  cases environment.get? location <;> rfl

omit [DecidableEq V] in
theorem get?_mergeAt (location l : Location) :
    (mergeAt value environment location).get? l =
      if location = l then some (mergedInto value (environment.get? l)) else environment.get? l := by
  rw [mergeAt_eq, Environment.get?_insert]
  by_cases h : location = l
  · subst h
    rw [if_pos rfl, if_pos (Key.same_refl location)]
  · rw [if_neg h, if_neg (by simpa [Key.same] using h)]

omit [DecidableEq V] in
/-- Merging a value into several locations, one after the other, merges it into each of them. -/
theorem get?_foldl_mergeAt {locations : List Location} (h : locations.Nodup) (l : Location) :
    (locations.foldl (mergeAt value) environment).get? l =
      if l ∈ locations then some (mergedInto value (environment.get? l))
      else environment.get? l := by
  induction locations generalizing environment with
  | nil => rfl
  | cons location locations ih =>
    obtain ⟨hnew, hnodup⟩ := List.nodup_cons.1 h
    rw [List.foldl_cons, ih _ hnodup, get?_mergeAt]
    by_cases hl : location = l
    · subst hl
      rw [if_neg hnew, if_pos rfl, if_pos List.mem_cons_self]
    · have hmem : l ∈ location :: locations ↔ l ∈ locations := by
        simp [Ne.symm hl]
      simp only [if_neg hl, hmem]

variable (state : LocationState V)

omit [DecidableEq V] in
/-- An update binds the locations that the reference is known to refer to, and no others. -/
theorem get?_setValueAt_known (locations : LocationSet) (l : Location) :
    (state.setValueAt (.known locations) value).locations.get? l =
      if locations.contains l then
        some (if locations.size = 1 then value else mergedInto value (state.locations.get? l))
      else state.locations.get? l := by
  obtain ⟨list, hascending⟩ := locations
  match list, hascending with
  | [], _ => rfl
  | [location], _ =>
    show (state.locations.insert location value).get? l = _
    rw [Environment.get?_insert]
    simp [Key.same, LocationSet.contains, LocationSet.size, eq_comm]
  | first :: second :: rest, hascending =>
    have hnodup : (first :: second :: rest).Nodup := LocationSet.nodup ⟨_, hascending⟩
    have hsize : ¬(first :: second :: rest).length = 1 := by simp
    show ((first :: second :: rest).foldl (mergeAt value) state.locations).get? l = _
    rw [get?_foldl_mergeAt value state.locations hnodup, LocationSet.contains, LocationSet.size,
      if_neg hsize]
    simp only [List.contains_iff_mem]

/-! ## What an update does to the value of a location -/

section

variable {valid : V → Prop} {state} {value} {location : Location} {default : Location → V}

omit [DecidableEq V] [AbstractValue V] in
theorem valid_getD (hstate : state.locations.AllValid valid) (hdefault : valid (default location)) :
    valid ((state.locations.get? location).getD (default location)) := by
  cases hget : state.locations.get? location with
  | none => exact hdefault
  | some v => exact hstate location v hget

omit [DecidableEq V] in
/-- A reference to a location has the value that the location is bound to, or else the default. -/
theorem valueAt_ofLocation (hjoin : AbstractValue.SemilatticeOn valid)
    (hstate : state.locations.AllValid valid) (hdefault : valid (default location)) :
    state.valueAt (.ofLocation location) default =
      (state.locations.get? location).getD (default location) :=
  hjoin.bottom_merge (valid_getD hstate hdefault)

omit [DecidableEq V] in
theorem valid_mergedInto (hjoin : AbstractValue.SemilatticeOn valid) (hvalue : valid value)
    {existing? : Option V} (hexisting : ∀ existing, existing? = some existing → valid existing) :
    valid (mergedInto value existing?) := by
  cases existing? with
  | none => exact hvalue
  | some existing => exact hjoin.merge (hexisting existing rfl) hvalue

omit [DecidableEq V] in
/-- An update keeps the values of locations valid. -/
theorem allValid_setValueAt (hjoin : AbstractValue.SemilatticeOn valid)
    (hstate : state.locations.AllValid valid) (hvalue : valid value) (pointsTo : PointsTo) :
    (state.setValueAt pointsTo value).locations.AllValid valid := by
  intro l v hv
  cases pointsTo with
  | known locations =>
    rw [get?_setValueAt_known] at hv
    split at hv
    · obtain rfl := Option.some.inj hv
      split
      · exact hvalue
      · exact valid_mergedInto hjoin hvalue (hstate l)
    · exact hstate l v hv
  | _ => exact hstate l v hv

/-- **When an update is sound.**  An update is sound for a location unless the reference may refer
to anything and the new value adds something to the old one, or the reference refers to several
locations, the location has no value yet, and its default adds something to the new value. -/
theorem setValueAt_isSound_iff (hjoin : AbstractValue.SemilatticeOn valid)
    (hstate : state.locations.AllValid valid) (hvalue : valid value)
    (hdefault : valid (default location)) (pointsTo : PointsTo) :
    UpdateIsSound pointsTo value location (state.valueAt (.ofLocation location) default)
        ((state.setValueAt pointsTo value).valueAt (.ofLocation location) default) ↔
      (pointsTo = .unknown →
        AbstractValue.subset value (state.valueAt (.ofLocation location) default) = true) ∧
      ∀ locations, pointsTo = .known locations → locations.contains location = true →
        locations.size ≠ 1 → state.locations.get? location = none →
          AbstractValue.subset (default location) value = true := by
  have hupdated := allValid_setValueAt hjoin hstate hvalue pointsTo
  rw [valueAt_ofLocation hjoin hstate hdefault, valueAt_ofLocation hjoin hupdated hdefault]
  have hbefore := valid_getD hstate hdefault
  cases pointsTo with
  | undefined | noLocation => simp [UpdateIsSound, setValueAt]
  | unknown => simpa [UpdateIsSound, setValueAt] using hjoin.merge_subset_left_iff hbefore hvalue
  | known locations =>
    rw [get?_setValueAt_known]
    by_cases hmem : locations.contains location = true
    · by_cases hsize : locations.size = 1
      · simp [UpdateIsSound, hmem, hsize]
      · cases hget : state.locations.get? location with
        | none =>
          simpa [UpdateIsSound, hmem, hsize, mergedInto] using
            hjoin.merge_subset_right_iff hdefault hvalue
        | some v =>
          have hmerged := hjoin.merge (hstate location v hget) hvalue
          simpa [UpdateIsSound, hmem, hsize, mergedInto] using hjoin.subset_refl hmerged
    · simp [UpdateIsSound, hmem]

end

/-! ## Updates that lose the old value -/

theorem semilatticeOn_truth : AbstractValue.SemilatticeOn fun _ : Truth => True where
  bottom := trivial
  merge _ _ := trivial
  assoc {a b c} _ _ _ := by cases a <;> cases b <;> cases c <;> rfl
  comm {a b} _ _ := by cases a <;> cases b <;> rfl
  self {a} _ := by cases a <;> rfl
  bottom_merge _ := rfl
  merge_bottom {a} _ := by cases a <;> rfl

/-- An object. -/
def sampleObject (site : UInt32) : Location := .creation ⟨site⟩ (.reference "A")

/-- A reference to one of two objects. -/
def sampleChoice : PointsTo := .ofLocations [sampleObject 1, sampleObject 2]

/-- An object that is known not to have been disposed of. -/
def sampleState : LocationState Truth := empty.setValueAt (.ofLocation (sampleObject 1)) .isFalse

/-- If one of two objects is disposed of, then the object that was not may be either afterwards. -/
theorem setValueAt_isSound_sampleState :
    sampleState.locations.AllValid (fun _ => True) ∧
      UpdateIsSound sampleChoice .isTrue (sampleObject 1)
        (sampleState.valueAt (.ofLocation (sampleObject 1)) fun _ => .isFalse)
        ((sampleState.setValueAt sampleChoice .isTrue).valueAt (.ofLocation (sampleObject 1))
          fun _ => .isFalse) ∧
      (sampleState.setValueAt sampleChoice .isTrue).valueAt (.ofLocation (sampleObject 1))
        (fun _ => .isFalse) = .top := by
  have hvalid : sampleState.locations.AllValid (fun _ => True) := fun _ _ _ => trivial
  have hbound : sampleState.locations.get? (sampleObject 1) ≠ none := by decide
  refine ⟨hvalid, ?_, by decide⟩
  exact (setValueAt_isSound_iff semilatticeOn_truth hvalid trivial trivial sampleChoice).2
    ⟨nofun, fun _ _ _ _ hunbound => absurd hunbound hbound⟩

/-- **Updates lose old values.**  An update by way of a reference to anything leaves an object that
was not disposed of as it was, and an update by way of a reference to one of two objects loses that
objects are not disposed of by default. -/
theorem setValueAt_loses_old_value :
    (¬∀ (state : LocationState Truth) (value : Truth) (default : Location → Truth)
      (location : Location), UpdateIsSound .unknown value location
        (state.valueAt (.ofLocation location) default)
        ((state.setValueAt .unknown value).valueAt (.ofLocation location) default)) ∧
    ¬∀ (state : LocationState Truth) (locations : LocationSet) (value : Truth)
      (default : Location → Truth) (location : Location),
      UpdateIsSound (.known locations) value location
        (state.valueAt (.ofLocation location) default)
        ((state.setValueAt (.known locations) value).valueAt (.ofLocation location) default) := by
  constructor
  · intro h
    have hsound : AbstractValue.subset (AbstractValue.merge Truth.isFalse .isTrue) .isFalse = true :=
      h sampleState .isTrue (fun _ => .isFalse) (sampleObject 1)
    exact absurd hsound (by decide)
  · intro h
    have hsound : AbstractValue.subset (AbstractValue.merge Truth.isFalse .isTrue) .isTrue = true :=
      h empty (.ofList [sampleObject 1, sampleObject 2]) .isTrue (fun _ => .isFalse)
        (sampleObject 1)
    exact absurd hsound (by decide)

end LocationState
end HeapFlow
