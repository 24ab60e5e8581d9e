import HeapFlow.Proofs.Client.JoinedReads
import HeapFlow.Proofs.Entity.Reference
import HeapFlow.Proofs.Environment.MergeOrder

/-! # Joining points-to states in another order

The join of two points-to states is meant to be commutative, and not to depend on the order in which
the bindings of a state happen to be stored.  It is and does so exactly where no entity is contested
(`PointsToAnalysis.merge_orderFree_iff`).

An entity is contested if neither state binds it, if some pair of members that lands on it merges to
the unknown value while others do not, and if the unknown values can be taken up first: then they
are passed over as if nothing had been learned from them, and the entity seems to be known better
than it is.  Three members of one family are enough for this to happen
(`PointsToAnalysis.merge_not_orderFree`).
-/
namespace HeapFlow
namespace PointsToAnalysis

/-- **Merging points-to states does not depend on the order** of the bindings, nor on the order of
the states, exactly if no entity is contested. -/
theorem merge_orderFree_iff {env other : PointsToState} (henv : env.AllValid PointsTo.WellFormed)
    (hother : other.AllValid PointsTo.WellFormed) :
    Environment.OrderFree Environment.merge env other ↔
      ∀ e, ¬Environment.Contested PointsTo.WellFormed env other e := by
  have hkeys : InstanceKey.JoinOn fun _ : Entity => True :=
    Entity.joinOn_keys fun _ _ _ _ _ => trivial
  exact Environment.orderFree_iff Entity.landing_comm PointsTo.joinOn_wellFormed
    (fun _ _ h => h.merge trivial) ⟨fun _ _ => trivial, henv⟩ ⟨fun _ _ => trivial, hother⟩
    hkeys fun _ _ _ _ => rfl

/-- States that bind one member each are merged in one way only. -/
theorem merge_orderFree_sampleState :
    (sampleState [1] [11]).AllValid PointsTo.WellFormed ∧
      (sampleState [2] [12]).AllValid PointsTo.WellFormed ∧
      Environment.OrderFree Environment.merge (sampleState [1] [11]) (sampleState [2] [12]) := by
  have h₁ := allValid_sampleState [1] [11] (by decide)
  have h₂ := allValid_sampleState [2] [12] (by decide)
  refine ⟨h₁, h₂, (merge_orderFree_iff h₁ h₂).2 fun e hcontested => ?_⟩
  -- There is one pair only, which merges to one value.
  obtain ⟨x, hx, y, hy, -, -, hunknown⟩ := hcontested.unknown
  obtain ⟨v, ⟨x', hx', y', hy', -, -, rfl⟩, hne⟩ := hcontested.known
  simp only [sampleState, Environment.entries_insert_empty, List.mem_singleton] at hx hx' hy hy'
  subst hx hx' hy hy'
  exact hne hunknown

/-- The state in which the member has the listed values, each for an instance that is one of some
objects. -/
def memberState (bindings : List (List UInt32 × PointsTo)) : PointsToState :=
  bindings.foldr (fun (owners, value) state =>
    state.insert (selected samplePlace sampleType (.known (sampleObjects owners))) value) .empty

theorem allValid_memberState {bindings : List (List UInt32 × PointsTo)}
    (h : ∀ binding ∈ bindings, binding.2.WellFormed) :
    (memberState bindings).AllValid PointsTo.WellFormed := by
  refine List.foldrRecOn (motive := Environment.AllValid PointsTo.WellFormed) bindings _
    (fun k v hv => by simp at hv) fun state hstate binding hmem => ?_
  exact hstate.insert _ (h binding hmem)

/-- **Merging depends on the order of the bindings and is not commutative.**  In both cases neither
state binds the member of the objects 1, 2 and 3, and unknown values land on it as well as known
ones.  If the unknown ones come first, they are lost. -/
theorem merge_not_orderFree :
    (¬∀ env env' other : PointsToState, env.AllValid PointsTo.WellFormed →
      other.AllValid PointsTo.WellFormed → env'.entries.Perm env.entries →
        Environment.SameBindings (env'.merge other) (env.merge other)) ∧
    ¬∀ env other : PointsToState, env.AllValid PointsTo.WellFormed →
      other.AllValid PointsTo.WellFormed →
        Environment.SameBindings (other.merge env) (env.merge other) := by
  let object (site : UInt32) : PointsTo := .known (sampleObjects [site])
  let covering := selected samplePlace sampleType (.known (sampleObjects [1, 2, 3]))
  constructor
  · intro h
    have hvalid : (memberState [([1], .unknown), ([1, 2], object 12)]).AllValid
        PointsTo.WellFormed := allValid_memberState (by decide)
    have hsame := h _ (memberState [([1, 2], object 12), ([1], .unknown)]) (sampleState [2, 3] [13])
      hvalid (allValid_sampleState _ _ (by decide)) (.swap _ _ _) covering
    exact absurd hsame (by decide)
  · intro h
    have hvalid : (memberState [([1], object 11), ([1, 2], object 12)]).AllValid
        PointsTo.WellFormed := allValid_memberState (by decide)
    have hvalid' : (memberState [([3], .unknown), ([2, 3], object 13)]).AllValid
        PointsTo.WellFormed := allValid_memberState (by decide)
    exact absurd (h _ _ hvalid hvalid' covering) (by decide)

end PointsToAnalysis
end HeapFlow
