import HeapFlow.Proofs.Client.JoinedReads
import HeapFlow.Proofs.Entity.Reference
import HeapFlow.Proofs.Environment.Widening
import Mathlib.Data.Set.Card

/-! # Chains of widened environments

The entry state of a loop is widened again and again, by whatever flows into the loop next.  What
flows in need not grow.  The entry states do (`Environment.below_wideningChain`), and as long as
there are finitely many keys to be bound, only finitely many of the steps change anything
(`Environment.encard_changes_le`): every change takes the environment up, and there are three levels
for each key.

If the keys are entities, then they may be any set of entities that has the entities of merged
instances (`Environment.wideningChain_stabilizes`).
-/
namespace HeapFlow

/-- A measure that never falls rises only so often. -/
theorem encard_rises_le {f : Nat → Nat} (hmono : Monotone f) {bound : Nat}
    (hbound : ∀ n, f n ≤ bound) : {n | f n < f (n + 1)}.encard ≤ bound := by
  have hmaps : Set.MapsTo f {n | f n < f (n + 1)} (Finset.range bound) := by
    intro n hn
    have hlt : f n < f (n + 1) := hn
    have hle := hbound (n + 1)
    exact Finset.mem_coe.2 (Finset.mem_range.2 (by omega))
  -- The measure has risen in between if it rises at both.
  have hstep : ∀ m n, f m < f (m + 1) → m < n → f m < f n := by
    intro m n hm hlt
    have hle : f (m + 1) ≤ f n := hmono hlt
    omega
  have hinjective : Set.InjOn f {n | f n < f (n + 1)} := by
    intro m hm n hn heq
    rcases Nat.lt_trichotomy m n with hlt | hmn | hlt
    · have := hstep m n hm hlt
      omega
    · exact hmn
    · have := hstep n m hn hlt
      omega
  have hcard := Set.encard_le_encard_of_injOn hmaps hinjective
  rwa [Set.encard_coe_eq_coe_finsetCard, Finset.card_range] at hcard

namespace Environment

open PointsToAnalysis

section Chain

variable {K V : Type} [InstanceKey K] [DecidableEq V] [AbstractValue V]

/-- The environments that come out of widening with one input after the other. -/
def wideningChain (start : Environment K V) (inputs : Nat → Environment K V) : Nat → Environment K V
  | 0 => start
  | n + 1 => (inputs n).widen (wideningChain start inputs n)

variable {known : K → Prop} {valid : V → Prop} {start : Environment K V}
  {inputs : Nat → Environment K V}
variable (hkeys : InstanceKey.JoinOn known) (hjoin : AbstractValue.JoinOn valid)
variable (hwidens : AbstractValue.WidensOn valid)
variable (hstart : start.Within known valid) (hinputs : ∀ n, (inputs n).Within known valid)
include hkeys hjoin hwidens hstart hinputs

theorem within_wideningChain (n : Nat) : (wideningChain start inputs n).Within known valid := by
  induction n with
  | zero => exact hstart
  | succ n ih =>
    exact Within.widenWith hkeys hjoin (loosens_mergeUnknown hjoin).valid_absent hwidens.widen
      (hinputs n) ih

/-- The environments of a chain grow, and they are above the inputs. -/
theorem below_wideningChain (n : Nat) :
    (wideningChain start inputs n).isSubsetOf (wideningChain start inputs (n + 1)) = true ∧
      (inputs n).isSubsetOf (wideningChain start inputs (n + 1)) = true := by
  have hcover := isCover_widenWith hkeys (hinputs n)
    (within_wideningChain hkeys hjoin hwidens hstart hinputs n) hjoin hwidens
    (loosens_mergeUnknown hjoin)
  exact ⟨hcover.above_left, hcover.above_right⟩

end Chain

section Changes

variable {K : Type} [InstanceKey K] {keys : Finset K} {start : Environment K PointsTo}
  {inputs : Nat → Environment K PointsTo}

/-- The key is one of the given ones. -/
def OneOf (keys : Finset K) (k : K) : Prop := ∃ l ∈ keys, Key.same l k = true

instance (keys : Finset K) (k : K) : Decidable (OneOf keys k) :=
  inferInstanceAs (Decidable (∃ l ∈ keys, Key.same l k = true))

theorem monotone_height_wideningChain :
    Monotone fun n => (wideningChain start inputs n).height keys :=
  monotone_nat_of_le_succ fun _ => height_le_widenWith

/-- A step that changes the environment takes it up. -/
theorem height_lt_of_changed (hkeys : InstanceKey.JoinOn (OneOf keys))
    (hstart : start.Within (OneOf keys) PointsTo.WellFormed)
    (hinputs : ∀ n, (inputs n).Within (OneOf keys) PointsTo.WellFormed) {n : Nat}
    (h : ¬SameBindings (wideningChain start inputs (n + 1)) (wideningChain start inputs n)) :
    (wideningChain start inputs n).height keys <
      (wideningChain start inputs (n + 1)).height keys := by
  have hwithin := within_wideningChain hkeys PointsTo.joinOn_wellFormed
    PointsTo.widensOn_wellFormed hstart hinputs
  refine Nat.lt_of_not_le fun hle => h ?_
  exact (sameBindings_widenWith (hwithin n).keys (hwithin (n + 1)).keys (fun _ hk => hk) hle).symm

/-- **Few of the steps of a chain change anything.** -/
theorem encard_changes_le (hkeys : InstanceKey.JoinOn (OneOf keys))
    (hstart : start.Within (OneOf keys) PointsTo.WellFormed)
    (hinputs : ∀ n, (inputs n).Within (OneOf keys) PointsTo.WellFormed) :
    {n | ¬SameBindings (wideningChain start inputs (n + 1))
      (wideningChain start inputs n)}.encard ≤ (3 * keys.card : Nat) := by
  have hrises : {n | ¬SameBindings (wideningChain start inputs (n + 1))
      (wideningChain start inputs n)} ⊆
        {n | (wideningChain start inputs n).height keys <
          (wideningChain start inputs (n + 1)).height keys} :=
    fun n hn => height_lt_of_changed hkeys hstart hinputs hn
  refine (Set.encard_le_encard hrises).trans ?_
  rw [Nat.mul_comm]
  exact encard_rises_le monotone_height_wideningChain fun _ => height_le _

end Changes

/-! ## Chains of environments that are keyed by entities -/

section Entities

variable {keys : Finset Entity}

/-- A set of entities is joined in itself if it has the entities of merged instances. -/
theorem joinOn_oneOf (hclosed : ∀ a ∈ keys, ∀ b ∈ keys, a.family = b.family →
    OneOf keys (a.withMergedOwner b)) : InstanceKey.JoinOn (OneOf keys) := by
  refine Entity.joinOn_keys ?_
  rintro a b ⟨k, hk, hsame⟩ ⟨l, hl, hsame'⟩ hfamily
  obtain ⟨hfamilyk, hownerk⟩ := Entity.same_iff_family.1 hsame
  obtain ⟨hfamilyl, hownerl⟩ := Entity.same_iff_family.1 hsame'
  -- Entities of one owner are joined in place.  The entity of different owners is in the set.
  unfold PointsTo.cover
  split
  · exact ⟨k, hk, hsame⟩
  · obtain ⟨m, hm, hmerged⟩ := hclosed k hk l hl (hfamilyk.trans (hfamily.trans hfamilyl.symm))
    refine ⟨m, hm, Key.same_trans hmerged (Entity.same_iff_family.2 ⟨hfamilyk, ?_⟩)⟩
    show k.owner.merge l.owner = a.owner.merge b.owner
    rw [hownerk, hownerl]

/-- **Chains of widened environments stabilize.**  The environments grow and are above all inputs,
and not more than three times as many of the steps change anything as there are entities. -/
theorem wideningChain_stabilizes
    (hclosed : ∀ a ∈ keys, ∀ b ∈ keys, a.family = b.family → OneOf keys (a.withMergedOwner b))
    {start : Environment Entity PointsTo} {inputs : Nat → Environment Entity PointsTo}
    (hstart : start.Within (OneOf keys) PointsTo.WellFormed)
    (hinputs : ∀ n, (inputs n).Within (OneOf keys) PointsTo.WellFormed) :
    (∀ n, (wideningChain start inputs n).isSubsetOf (wideningChain start inputs (n + 1)) = true ∧
      (inputs n).isSubsetOf (wideningChain start inputs (n + 1)) = true) ∧
    {n | ¬SameBindings (wideningChain start inputs (n + 1))
      (wideningChain start inputs n)}.encard ≤ (3 * keys.card : Nat) := by
  have hkeys := joinOn_oneOf hclosed
  constructor
  · exact below_wideningChain hkeys PointsTo.joinOn_wellFormed PointsTo.widensOn_wellFormed hstart
      hinputs
  · exact encard_changes_le hkeys hstart hinputs

end Entities

/-- The member of two objects is first known for one of them, and from then on something else flows
in for the other one. -/
theorem wideningChain_stabilizes_sampleState :
    let keys : Finset Entity := {selected samplePlace sampleType (.known (sampleObjects [1])),
      selected samplePlace sampleType (.known (sampleObjects [2])),
      selected samplePlace sampleType (.known (sampleObjects [1, 2]))}
    let chain := wideningChain (sampleState [1] [11]) fun _ => sampleState [2] [12]
    (∀ a ∈ keys, ∀ b ∈ keys, a.family = b.family → OneOf keys (a.withMergedOwner b)) ∧
      (sampleState [1] [11]).Within (OneOf keys) PointsTo.WellFormed ∧
      (sampleState [2] [12]).Within (OneOf keys) PointsTo.WellFormed ∧
      ¬SameBindings (chain 1) (chain 0) ∧
      (∀ n, (chain n).isSubsetOf (chain (n + 1)) = true) ∧
      {n | ¬SameBindings (chain (n + 1)) (chain n)}.encard ≤ (9 : Nat) := by
  intro keys chain
  have hclosed : ∀ a ∈ keys, ∀ b ∈ keys, a.family = b.family →
      OneOf keys (a.withMergedOwner b) := by
    decide
  have hwithin : ∀ owners targets, OneOf keys (selected samplePlace sampleType
      (.known (sampleObjects owners))) → (PointsTo.known (sampleObjects targets)).WellFormed →
        (sampleState owners targets).Within (OneOf keys) PointsTo.WellFormed :=
    fun _ _ hkey htargets => within_empty.insert hkey htargets
  have hstart := hwithin [1] [11] (by decide) (by decide)
  have hinput := hwithin [2] [12] (by decide) (by decide)
  obtain ⟨hgrows, hchanges⟩ := wideningChain_stabilizes hclosed hstart fun _ => hinput
  refine ⟨hclosed, hstart, hinput, fun hsame => ?_, fun n => (hgrows n).1, hchanges⟩
  exact absurd (hsame (selected samplePlace sampleType (.known (sampleObjects [2])))) (by decide)

end Environment
end HeapFlow
