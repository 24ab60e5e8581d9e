import HeapFlow.Proofs.Environment.Widening

/-! # Merging an environment with itself

One would expect that nothing changes when an environment is merged with itself.  But a merge pairs
every binding with all bindings of its family, and the pairs of different instances land on the
merged instance.  It is only if the environment already knows what they land there
(`Environment.Saturated`) that nothing changes (`Environment.sameBindings_merge_self_iff`).

Widening merges first.  It leaves an environment as it was if the merge does, and it cannot take
back what the merge has changed (`Environment.sameBindings_widen_self_iff`).
-/
namespace HeapFlow
namespace Environment

variable {K V : Type} [InstanceKey K] [DecidableEq V] [AbstractValue V]

/-- The value adds nothing to what is known about the key.  If the key is not bound, then nothing is
known about it. -/
def Absorbs (env : Environment K V) (k : K) (v : V) : Prop :=
  (env.get? k).elim (v = AbstractValue.unknown) fun w => AbstractValue.subset v w = true

/-- What the bindings of two instances merge to adds nothing to what is known about the merged
instance. -/
def Saturated (env : Environment K V) : Prop :=
  ∀ x ∈ env.entries, ∀ y ∈ env.entries, InstanceKey.sameFamily x.1 y.1 = true →
    InstanceKey.sameInstance x.1 y.1 = false →
      env.Absorbs (InstanceKey.withMergedInstance x.1 y.1) (AbstractValue.merge x.2 y.2)

variable {env : Environment K V} {known : K → Prop} {valid : V → Prop}

theorem absorbs_of_some {k : K} {v w : V} (hget : env.get? k = some w) :
    env.Absorbs k v ↔ AbstractValue.subset v w = true := by
  rw [Absorbs, hget, Option.elim_some]

theorem absorbs_of_none {k : K} {v : V} (hget : env.get? k = none) :
    env.Absorbs k v ↔ v = AbstractValue.unknown := by
  rw [Absorbs, hget, Option.elim_none]

instance (env : Environment K V) (k : K) (v : V) : Decidable (env.Absorbs k v) :=
  match hget : env.get? k with
  | some _ => decidable_of_iff _ (absorbs_of_some hget).symm
  | none => decidable_of_iff _ (absorbs_of_none hget).symm

instance (env : Environment K V) : Decidable env.Saturated :=
  inferInstanceAs (Decidable (∀ x ∈ env.entries, ∀ y ∈ env.entries, _ → _ → _))

theorem absorbs_congr {k l : K} (h : Key.same k l = true) (v : V) :
    env.Absorbs k v ↔ env.Absorbs l v := by
  rw [Absorbs, Absorbs, env.get?_congr h]

variable (hkeys : InstanceKey.JoinOn known)
variable (hsame : ∀ {a b : K}, InstanceKey.sameFamily a b = true →
  InstanceKey.sameInstance a b = true → Key.same a b = true)
variable (hjoin : AbstractValue.JoinOn valid) (henv : env.Within known valid)

include hsame hjoin henv in
/-- An environment is saturated if no pair of its bindings adds anything to the key on which it
lands.  The pairs of one instance never do. -/
theorem saturated_iff : env.Saturated ↔ ∀ k v, Lands env env k v → env.Absorbs k v := by
  constructor
  · rintro hsaturated k v ⟨x, hx, y, hy, hfamily, hlanding, rfl⟩
    by_cases hinstance : InstanceKey.sameInstance x.1 y.1 = true
    · -- Bindings of one family and one instance are the same binding.
      rw [landing, if_pos hinstance] at hlanding
      obtain rfl := env.eq_of_same hx hy (hsame hfamily hinstance)
      have hvalid : valid x.2 := (henv.entry hx).2
      rw [← absorbs_congr hlanding, absorbs_of_some (env.get?_eq_some_of_mem hx), hjoin.self hvalid]
      exact hjoin.subset_refl hvalid
    · rw [landing, if_neg hinstance] at hlanding
      rw [← absorbs_congr hlanding]
      exact hsaturated x hx y hy hfamily (Bool.eq_false_iff.2 hinstance)
  · intro habsorbs x hx y hy hfamily hinstance
    refine habsorbs _ _ ⟨x, hx, y, hy, hfamily, ?_, rfl⟩
    rw [landing, hinstance, if_neg Bool.false_ne_true]
    exact Key.same_refl _

include hjoin henv in
/-- A value that lands on a key is covered after the merge. -/
theorem absorbs_of_sameBindings (h : SameBindings (env.merge env) env) {k : K} {v : V}
    (hlands : Lands env env k v) : env.Absorbs k v := by
  have habsent : ∀ (k : K) v, valid v → valid (mergeUnknown k v) :=
    (loosens_mergeUnknown hjoin).valid_absent
  cases hget : env.get? k with
  | some w =>
    have hcontains : env.contains k = true := env.contains_of_get? hget
    obtain ⟨w', hw', hsubset⟩ := le_get?_mergeWith hjoin habsent henv henv hlands (.inl hcontains)
    have heq : some w = some w' := by
      rw [← hget, ← h k]
      exact hw'
    rw [absorbs_of_some hget, Option.some.inj heq]
    exact hsubset
  | none =>
    -- The pair would have bound the key if it merged to anything else.
    rw [absorbs_of_none hget]
    by_contra hne
    obtain ⟨w, hw, -⟩ := le_get?_mergeWith hjoin habsent henv henv hlands (.inr (.inr hne))
    have hnone : (env.merge env).get? k = none := (h k).trans hget
    rw [merge, hw] at hnone
    cases hnone

include hkeys hjoin henv in
/-- Nothing changes if what lands on the keys adds nothing to them. -/
theorem sameBindings_of_absorbs (h : ∀ k v, Lands env env k v → env.Absorbs k v) :
    SameBindings (env.merge env) env := by
  have habsent : ∀ (k : K) v, valid v → valid (mergeUnknown k v) :=
    (loosens_mergeUnknown hjoin).valid_absent
  have hmerged : (env.merge env).Within known valid := henv.mergeWith hkeys hjoin habsent henv
  refine sameBindings_of_known hmerged.keys henv.keys fun k hk => ?_
  cases hget : env.get? k with
  | some w =>
    have hlands : Lands env env k w := by
      have hboth := lands_of_both hkeys henv henv hk hget hget
      rwa [hjoin.self (henv.values k w hget)] at hboth
    exact get?_mergeWith_of_greatest hkeys henv henv hjoin habsent hk
      (.inl (env.contains_of_get? hget)) hlands
      fun v hv => (absorbs_of_some hget).1 (h k v hv)
  | none =>
    have hfree : env.contains k = false := by
      rw [contains, hget]
      rfl
    exact get?_mergeWith_eq_none hfree hfree fun v hv => (absorbs_of_none hget).1 (h k v hv)

include hkeys hsame hjoin henv in
/-- **Merging an environment with itself changes nothing** exactly if the environment is
saturated. -/
theorem sameBindings_merge_self_iff : SameBindings (env.merge env) env ↔ env.Saturated := by
  rw [saturated_iff hsame hjoin henv]
  constructor
  · intro h k v hlands
    exact absorbs_of_sameBindings hjoin henv h hlands
  · intro h
    exact sameBindings_of_absorbs hkeys hjoin henv h

theorem get?_widen_self (k : K) :
    (env.widen env).get? k = ((env.merge env).get? k).map (widenFrom (env.get? k)) :=
  get?_widenWith k

include hkeys hjoin henv in
/-- Widening does not take back what the merge has changed. -/
theorem sameBindings_merge_of_widen (hwidens : AbstractValue.WidensOn valid)
    (h : SameBindings (env.widen env) env) : SameBindings (env.merge env) env := by
  have habsent : ∀ (k : K) v, valid v → valid (mergeUnknown k v) :=
    (loosens_mergeUnknown hjoin).valid_absent
  have hmerged : (env.merge env).Within known valid := henv.mergeWith hkeys hjoin habsent henv
  refine sameBindings_of_known hmerged.keys henv.keys fun k hk => ?_
  have hwidened : ((env.merge env).get? k).map (widenFrom (env.get? k)) = env.get? k := by
    rw [← get?_widen_self, h k]
  cases hold : env.get? k with
  | none =>
    rw [hold] at hwidened
    exact Option.map_eq_none_iff.1 hwidened
  | some w =>
    have hw : valid w := henv.values k w hold
    obtain ⟨v, hv, hbelow⟩ : ∃ v, (env.merge env).get? k = some v ∧
        AbstractValue.subset w v = true :=
      subset_get?_mergeWith_of_lands hkeys hjoin habsent henv henv hk
        (lands_of_both hkeys henv henv hk hold hold) (.inl hold)
    -- The merged value lies between the previous value and the widened one, which are the same.
    have hvalid : valid v := hmerged.values k v hv
    obtain ⟨-, habove⟩ := subset_widenFrom hjoin hwidens (henv.values k) hvalid
    rw [hv, hold] at hwidened
    rw [hold, Option.some.inj hwidened] at habove
    rw [hv, hjoin.subset_antisymm hw hvalid hbelow habove]

include hkeys hsame hjoin henv in
/-- **Widening an environment with itself changes nothing** exactly if merging does not. -/
theorem sameBindings_widen_self_iff (hwidens : AbstractValue.WidensOn valid) :
    SameBindings (env.widen env) env ↔ env.Saturated := by
  rw [← sameBindings_merge_self_iff hkeys hsame hjoin henv]
  constructor
  · exact sameBindings_merge_of_widen hkeys hjoin henv hwidens
  · intro h k
    rw [get?_widen_self, h k]
    cases env.get? k with
    | none => rfl
    | some w => simp [widenFrom]

end Environment
end HeapFlow
