import HeapFlow.Proofs.Domain.FiniteLocations
import HeapFlow.Proofs.Environment.MergeBounds
import Mathlib.Algebra.Order.BigOperators.Group.Finset

/-! # What widening an environment does to its bindings

Widening merges first and then widens the values that differ from the previous ones.  So it covers
both environments if merging does (`Environment.isCover_widenWith`).

The value of a binding goes up in levels, of which there are three above a binding that is missing,
or it stays as it was (`Environment.get?_widenWith_eq_or_level_lt`).  So if there are finitely many
keys to be bound, all their levels taken together (`Environment.height`) are a measure of how often
an environment can still be widened: if it does not go up, then no binding changes
(`Environment.sameBindings_widenWith`).
-/
namespace HeapFlow
namespace Environment

/-! ## Widening covers what is widened -/

section Covers

variable {K V : Type} [InstanceKey K] [DecidableEq V] [AbstractValue V]
variable {env previous : Environment K V} {absent : K → V → V} {known : K → Prop} {valid : V → Prop}

theorem contains_widenWith_eq (k : K) : (env.widenWith previous absent).contains k =
    (previous.mergeWith env absent).contains k := by
  rw [contains, get?_widenWith, Option.isSome_map, contains]

theorem subset_widenFrom (hjoin : AbstractValue.JoinOn valid)
    (hwidens : AbstractValue.WidensOn valid) {old? : Option V}
    (hold : ∀ old, old? = some old → valid old) {v : V} (hv : valid v) :
    valid (widenFrom old? v) ∧ AbstractValue.subset v (widenFrom old? v) = true := by
  cases old? with
  | none => exact ⟨hv, hjoin.subset_refl hv⟩
  | some old =>
    by_cases heq : old = v
    · rw [widenFrom, if_pos heq]
      exact ⟨hv, hjoin.subset_refl hv⟩
    · rw [widenFrom, if_neg heq]
      exact ⟨hwidens.widen hv (hold old rfl), hwidens.subset_widen hv (hold old rfl)⟩

/-- What is below the merge is below the widening. -/
theorem isSubsetOf_widenWith (hjoin : AbstractValue.JoinOn valid)
    (hwidens : AbstractValue.WidensOn valid) (hprevious : previous.AllValid valid)
    (hmerged : (previous.mergeWith env absent).AllValid valid) {below : Environment K V}
    (hbelow : below.AllValid valid)
    (h : below.isSubsetOf (previous.mergeWith env absent) = true) :
    below.isSubsetOf (env.widenWith previous absent) = true := by
  rw [isSubsetOf_iff] at h ⊢
  intro x hx
  rcases h x hx with hbottom | ⟨w, hw, hsubset⟩
  · exact .inl hbottom
  · have hvalid : valid x.2 := hbelow x.1 x.2 (below.get?_eq_some_of_mem hx)
    have hvalid' : valid w := hmerged x.1 w hw
    obtain ⟨hwidened, habove⟩ := subset_widenFrom hjoin hwidens (hprevious x.1) hvalid'
    refine .inr ⟨widenFrom (previous.get? x.1) w, ?_, ?_⟩
    · rw [get?_widenWith, hw]
      rfl
    · exact hjoin.subset_trans hvalid hvalid' hwidened hsubset habove

/-- **Widening covers both environments,** like the merge. -/
theorem isCover_widenWith (hkeys : InstanceKey.JoinOn known) (henv : env.Within known valid)
    (hprevious : previous.Within known valid) (hjoin : AbstractValue.JoinOn valid)
    (hwidens : AbstractValue.WidensOn valid) (hloosens : Loosens valid absent) :
    IsCover (env.widenWith previous absent) previous env := by
  have hcover := isCover_mergeWith hkeys hprevious henv hjoin hloosens
  have hmerged : (previous.mergeWith env absent).AllValid valid :=
    (Within.mergeWith hkeys hjoin hloosens.valid_absent hprevious henv).values
  refine ⟨fun k hk => ?_, fun k hk => ?_, ?_, ?_⟩
  · rw [contains_widenWith_eq]
    exact hcover.keeps k hk
  · rw [contains_widenWith_eq] at hk
    exact hcover.accounts k hk
  · exact isSubsetOf_widenWith hjoin hwidens hprevious.values hmerged hprevious.values
      hcover.above_left
  · exact isSubsetOf_widenWith hjoin hwidens hprevious.values hmerged henv.values
      hcover.above_right

end Covers

/-! ## Widening takes bindings up -/

section Levels

variable {K : Type} [InstanceKey K]

/-- A value that is widened goes up, or stays as it was. -/
theorem widenFrom_eq_or_level_lt (old value : PointsTo) : widenFrom (some old) value = old ∨
    PointsTo.level (some old) < PointsTo.level (some (widenFrom (some old) value)) := by
  by_cases heq : old = value
  · left
    rw [widenFrom, if_pos heq, heq]
  · rw [widenFrom, if_neg heq]
    exact PointsTo.widen_eq_or_level_lt value old

variable (env previous : Environment K PointsTo) (absent : K → PointsTo → PointsTo)

/-- Widening takes a binding up, or leaves it as it was. -/
theorem get?_widenWith_eq_or_level_lt (k : K) :
    (env.widenWith previous absent).get? k = previous.get? k ∨
      PointsTo.level (previous.get? k) <
        PointsTo.level ((env.widenWith previous absent).get? k) := by
  cases hold : previous.get? k with
  | none =>
    cases (env.widenWith previous absent).get? k with
    | none => exact .inl rfl
    | some value => exact .inr (by cases value <;> simp [PointsTo.level])
  | some old =>
    have hbound : previous.contains k = true := previous.contains_of_get? hold
    have hmerged : (previous.mergeWith env absent).contains k = true :=
      contains_mergeWith (.inl hbound)
    obtain ⟨value, hvalue⟩ := Option.isSome_iff_exists.1 hmerged
    have hget : (env.widenWith previous absent).get? k = some (widenFrom (some old) value) := by
      rw [get?_widenWith, hvalue, hold]
      rfl
    rw [hget]
    exact (widenFrom_eq_or_level_lt old value).imp_left (congrArg some)

theorem level_le_widenWith (k : K) : PointsTo.level (previous.get? k) ≤
    PointsTo.level ((env.widenWith previous absent).get? k) := by
  rcases get?_widenWith_eq_or_level_lt env previous absent k with heq | hlt
  · rw [heq]
  · exact Nat.le_of_lt hlt

/-- The levels of all keys taken together. -/
def height (keys : Finset K) (env : Environment K PointsTo) : Nat :=
  ∑ k ∈ keys, PointsTo.level (env.get? k)

variable {keys : Finset K} {env previous absent}

theorem height_le (env : Environment K PointsTo) : env.height keys ≤ keys.card * 3 :=
  Finset.sum_le_card_nsmul _ _ 3 fun _ _ => PointsTo.level_le _

theorem height_le_widenWith :
    previous.height keys ≤ (env.widenWith previous absent).height keys :=
  Finset.sum_le_sum fun k _ => level_le_widenWith env previous absent k

/-- If widening does not take the environment up, it changes no binding. -/
theorem sameBindings_widenWith {known : K → Prop} (hprevious : ∀ k ∈ previous.keys, known k)
    (hwidened : ∀ k ∈ (env.widenWith previous absent).keys, known k)
    (hknown : ∀ k, known k → ∃ l ∈ keys, Key.same l k = true)
    (h : (env.widenWith previous absent).height keys ≤ previous.height keys) :
    SameBindings previous (env.widenWith previous absent) := by
  -- The levels add up to the same, and none of them has fallen, so that none has changed.
  have hlevels := (Finset.sum_eq_sum_iff_of_le fun k _ =>
    level_le_widenWith env previous absent k).1 (Nat.le_antisymm height_le_widenWith h)
  refine sameBindings_of_known hprevious hwidened fun k hk => ?_
  obtain ⟨l, hl, hsame⟩ := hknown k hk
  rw [← previous.get?_congr hsame, ← (env.widenWith previous absent).get?_congr hsame]
  rcases get?_widenWith_eq_or_level_lt env previous absent l with heq | hlt
  · exact heq.symm
  · exact absurd (hlevels l hl) (Nat.ne_of_lt hlt)

end Levels

end Environment
end HeapFlow
