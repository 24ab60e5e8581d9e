import HeapFlow.Proofs.Client.JoinOrder
import HeapFlow.Proofs.Environment.Pointwise
import HeapFlow.Proofs.Environment.SelfMerge

/-! # Merging what is known about entities and about locations

The states of an analysis are environments that are keyed by entities or by locations.  Where two
paths meet, their states are merged.

A merge covers both states, and the keys that it comes up with are those of merged instances
(`Environment.mergeWith_covers_both`).  Locations do not belong to instances, so that states that
are keyed by locations are merged location by location.  The same is true of states that are keyed
by entities, as long as no two of the entities differ in nothing but the instance that they belong
to (`Environment.merge_keywise`).  In both cases the values may be of any domain whose merge is a
join.

Such a merge is idempotent, too.  In general it is not, and nor is widening: merging a points-to
state with itself changes nothing exactly if the state knows already what the members of two
instances merge to (`PointsToAnalysis.selfMerge_iff`).  Two members of one family are enough for it
to come up with something new (`PointsToAnalysis.selfMerge_changes`).
-/
namespace HeapFlow

/-- Locations are joined with themselves only. -/
theorem Location.joinOn_keys : InstanceKey.JoinOn fun _ : Location => True where
  family_congr := by
    intro a a' b b' ha hb
    obtain rfl : a = a' := of_decide_eq_true ha
    obtain rfl : b = b' := of_decide_eq_true hb
    rfl
  landing _ _ _ := trivial
  landing_congr := by
    intro a a' b b' _ _ _ _ ha hb
    obtain rfl : a = a' := of_decide_eq_true ha
    obtain rfl : b = b' := of_decide_eq_true hb
    exact Key.same_refl _
  landing_self _ := ⟨decide_eq_true rfl, decide_eq_true rfl⟩
  absorb_left := by
    intro a b k _ _ _ hfamily hlanding
    obtain rfl : a = b := of_decide_eq_true hfamily
    obtain rfl : a = k := of_decide_eq_true hlanding
    exact ⟨hfamily, hlanding⟩
  absorb_right := by
    intro a b k _ _ _ hfamily hlanding
    obtain rfl : a = b := of_decide_eq_true hfamily
    obtain rfl : a = k := of_decide_eq_true hlanding
    exact ⟨hfamily, hlanding⟩

/-- No two locations differ in an instance. -/
theorem Location.unconflicted : Environment.Unconflicted fun _ : Location => True :=
  fun _ _ _ _ h => h

namespace Environment

open PointsToAnalysis

variable {V : Type} [DecidableEq V] [AbstractValue V] {valid : V → Prop}

/-- **A merge covers what is merged.**  It binds the keys of both environments, and apart from them
only keys of merged instances, and it is above both environments. -/
theorem mergeWith_covers_both (hjoin : AbstractValue.JoinOn valid) :
    (∀ (env other : Environment Entity V) (absent : Entity → V → V), env.AllValid valid →
      other.AllValid valid → Loosens valid absent →
        IsCover (env.mergeWith other absent) env other) ∧
    ∀ (env other : Environment Location V) (absent : Location → V → V), env.AllValid valid →
      other.AllValid valid → Loosens valid absent →
        IsCover (env.mergeWith other absent) env other := by
  constructor
  · intro env other absent henv hother hloosens
    exact isCover_mergeWith Entity.joinOn_all ⟨fun _ _ => trivial, henv⟩
      ⟨fun _ _ => trivial, hother⟩ hjoin hloosens
  · intro env other absent henv hother hloosens
    exact isCover_mergeWith Location.joinOn_keys ⟨fun _ _ => trivial, henv⟩
      ⟨fun _ _ => trivial, hother⟩ hjoin hloosens

/-- What is known about a location. -/
def locationState (site : UInt32) (targets : List UInt32) : Environment Location PointsTo :=
  empty.insert (.creation ⟨site⟩ sampleType) (.known (sampleObjects targets))

theorem allValid_locationState (site : UInt32) (targets : List UInt32)
    (htargets : (PointsTo.known (sampleObjects targets)).WellFormed) :
    (locationState site targets).AllValid PointsTo.WellFormed := by
  refine AllValid.insert (fun k v hv => ?_) _ htargets
  simp at hv

/-- Merging the members of two instances comes up with the member of the merged instance. -/
theorem mergeWith_covers_sampleState :
    (sampleState [1] [11]).AllValid PointsTo.WellFormed ∧
      (sampleState [2] [12]).AllValid PointsTo.WellFormed ∧
      (locationState 1 [11]).AllValid PointsTo.WellFormed ∧
      (locationState 2 [12]).AllValid PointsTo.WellFormed ∧
      IsCover ((sampleState [1] [11]).mergeWith (sampleState [2] [12]) mergeUnknown)
        (sampleState [1] [11]) (sampleState [2] [12]) ∧
      IsCover ((locationState 1 [11]).mergeWith (locationState 2 [12]) mergeUnknown)
        (locationState 1 [11]) (locationState 2 [12]) ∧
      ((sampleState [1] [11]).mergeWith (sampleState [2] [12]) mergeUnknown).contains
        (selected samplePlace sampleType (.known (sampleObjects [1, 2]))) = true := by
  have hjoin := PointsTo.joinOn_wellFormed
  have h₁ := allValid_sampleState [1] [11] (by decide)
  have h₂ := allValid_sampleState [2] [12] (by decide)
  have h₁' := allValid_locationState 1 [11] (by decide)
  have h₂' := allValid_locationState 2 [12] (by decide)
  obtain ⟨hentity, hlocation⟩ := mergeWith_covers_both hjoin
  exact ⟨h₁, h₂, h₁', h₂', hentity _ _ _ h₁ h₂ (loosens_mergeUnknown hjoin),
    hlocation _ _ _ h₁' h₂' (loosens_mergeUnknown hjoin), by decide⟩

/-- **Without instances to be merged, merging is pointwise,** and so commutative, associative and
idempotent.  There are none if keys are locations, nor if they are entities no two of which differ
in nothing but the instance. -/
theorem merge_keywise (hjoin : AbstractValue.JoinOn valid) :
    (∀ known : Entity → Prop, Unconflicted known → MergesPointwise known valid) ∧
      MergesPointwise (fun _ : Location => True) valid := by
  constructor
  · intro known hknown
    exact mergesPointwise Entity.sameInstance_of_same hknown hjoin Entity.joinOn_all
  · exact mergesPointwise (fun _ => rfl) Location.unconflicted hjoin Location.joinOn_keys

/-- States that bind the member of one instance are merged member by member. -/
theorem merge_keywise_sampleState :
    let known : Entity → Prop := fun e =>
      e.same (selected samplePlace sampleType (.known (sampleObjects [1]))) = true
    Unconflicted known ∧ (sampleState [1] [11]).Within known PointsTo.WellFormed ∧
      (sampleState [1] [12]).Within known PointsTo.WellFormed ∧
      SameBindings ((sampleState [1] [11]).merge (sampleState [1] [12]))
        ((sampleState [1] [12]).merge (sampleState [1] [11])) ∧
      SameBindings ((locationState 1 [11]).merge (locationState 1 [11]))
        (locationState 1 [11]) := by
  intro known
  have hunconflicted : Unconflicted known := fun _ _ ha hb _ =>
    Key.same_trans ha (Key.same_symm hb)
  have hwithin : ∀ targets : List UInt32,
      (PointsTo.known (sampleObjects targets)).WellFormed →
        (sampleState [1] targets).Within known PointsTo.WellFormed := by
    intro targets htargets
    refine ⟨fun e he => ?_, allValid_sampleState [1] targets htargets⟩
    obtain rfl : e = selected samplePlace sampleType (.known (sampleObjects [1])) := by
      simpa [sampleState, keys, entries_insert_empty] using he
    exact Entity.same_iff.2 ⟨rfl, rfl, rfl⟩
  obtain ⟨hentity, hlocation⟩ := merge_keywise PointsTo.joinOn_wellFormed
  have h₁ := hwithin [11] (by decide)
  have h₂ := hwithin [12] (by decide)
  have hlocated : (locationState 1 [11]).Within (fun _ => True) PointsTo.WellFormed :=
    ⟨fun _ _ => trivial, allValid_locationState 1 [11] (by decide)⟩
  exact ⟨hunconflicted, h₁, h₂, (hentity known hunconflicted).comm h₁ h₂, hlocation.self hlocated⟩

end Environment

/-! ## Merging a state with itself -/

namespace PointsToAnalysis

/-- **Merging a points-to state with itself,** or widening it with itself, changes nothing exactly
if the state is saturated. -/
theorem selfMerge_iff {state : PointsToState} (h : state.AllValid PointsTo.WellFormed) :
    (Environment.SameBindings (state.merge state) state ↔ state.Saturated) ∧
      (Environment.SameBindings (state.widen state) state ↔ state.Saturated) := by
  have hsame : ∀ {a b : Entity}, InstanceKey.sameFamily a b = true →
      InstanceKey.sameInstance a b = true → Key.same a b = true := fun hfamily hinstance =>
    Entity.same_iff_family.2 ⟨of_decide_eq_true hfamily, of_decide_eq_true hinstance⟩
  have hwithin : state.Within (fun _ => True) PointsTo.WellFormed := ⟨fun _ _ => trivial, h⟩
  constructor
  · exact Environment.sameBindings_merge_self_iff Entity.joinOn_all hsame
      PointsTo.joinOn_wellFormed hwithin
  · exact Environment.sameBindings_widen_self_iff Entity.joinOn_all hsame
      PointsTo.joinOn_wellFormed hwithin PointsTo.widensOn_wellFormed

/-- The member of either object refers to an object that the member of both of them may refer to. -/
theorem selfMerge_memberState :
    let object (site : UInt32) : PointsTo := .known (sampleObjects [site])
    let state := memberState [([1], object 11), ([2], object 11), ([1, 2], object 11)]
    state.AllValid PointsTo.WellFormed ∧ state.Saturated ∧
      Environment.SameBindings (state.merge state) state ∧
      Environment.SameBindings (state.widen state) state := by
  intro object state
  have hvalid : state.AllValid PointsTo.WellFormed := allValid_memberState (by decide)
  have hsaturated : state.Saturated := by decide
  obtain ⟨hmerge, hwiden⟩ := selfMerge_iff hvalid
  exact ⟨hvalid, hsaturated, hmerge.2 hsaturated, hwiden.2 hsaturated⟩

/-- **Merging is not idempotent, and nor is widening.**  The members of the objects 1 and 2 come up
with a member of both objects, and if that member is bound already, then it changes. -/
theorem selfMerge_changes :
    (¬∀ state : PointsToState, state.AllValid PointsTo.WellFormed →
      Environment.SameBindings (state.merge state) state) ∧
    ¬∀ state : PointsToState, state.AllValid PointsTo.WellFormed →
      Environment.SameBindings (state.widen state) state := by
  let object (site : UInt32) : PointsTo := .known (sampleObjects [site])
  let covering := selected samplePlace sampleType (.known (sampleObjects [1, 2]))
  constructor
  · intro h
    have hvalid : (memberState [([1], object 11), ([2], object 12)]).AllValid
        PointsTo.WellFormed := allValid_memberState (by decide)
    exact absurd (h _ hvalid covering) (by decide)
  · intro h
    have hvalid : (memberState [([1], object 11), ([1, 2], object 12)]).AllValid
        PointsTo.WellFormed := allValid_memberState (by decide)
    exact absurd (h _ hvalid covering) (by decide)

end PointsToAnalysis
end HeapFlow
