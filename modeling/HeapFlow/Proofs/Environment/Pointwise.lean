import HeapFlow.Proofs.Environment.MergeBounds

/-! # Merging key by key

If no two keys differ in nothing but the instance that they belong to, then there are no instances
to be merged, and a merge is what one would expect of a merge of maps: it treats every key on its
own (`Environment.joinUnobserved`), and it inherits the laws of the merge of values
(`Environment.MergesPointwise`).

The keys may be restricted in any way for this to be the case (`Environment.Unconflicted`).  The
restriction need not be closed under anything, because merging comes up with no new keys.
-/
namespace HeapFlow
namespace Environment

/-! ## Joining what is known about one key -/

section Values

variable {V : Type} [AbstractValue V]

/-- What is known about a key where two paths meet.  A path that did not observe the key says
nothing about it. -/
def joinUnobserved : Option V → Option V → Option V
  | some v, some w => some (AbstractValue.merge v w)
  | some v, none | none, some v => some (AbstractValue.merge v AbstractValue.unknown)
  | none, none => none

variable {valid : V → Prop} (hjoin : AbstractValue.JoinOn valid) {a b c : Option V}
include hjoin

theorem joinUnobserved_comm (ha : ∀ v, a = some v → valid v) (hb : ∀ v, b = some v → valid v) :
    joinUnobserved a b = joinUnobserved b a := by
  cases a with
  | none => cases b <;> rfl
  | some v =>
    cases b with
    | none => rfl
    | some w => exact congrArg some (hjoin.comm (ha v rfl) (hb w rfl))

theorem joinUnobserved_self (ha : ∀ v, a = some v → valid v) : joinUnobserved a a = a := by
  cases a with
  | none => rfl
  | some v => exact congrArg some (hjoin.self (ha v rfl))

/-- A path that did not observe the key makes it unknown, whenever it comes in. -/
theorem joinUnobserved_assoc (ha : ∀ v, a = some v → valid v) (hb : ∀ v, b = some v → valid v)
    (hc : ∀ v, c = some v → valid v) :
    joinUnobserved (joinUnobserved a b) c = joinUnobserved a (joinUnobserved b c) := by
  cases a with
  | none =>
    cases b with
    | none =>
      cases c with
      | none => rfl
      | some z => simp [joinUnobserved, hjoin.merge_unknown (hc z rfl),
          hjoin.merge_unknown hjoin.unknown]
    | some w =>
      have hw := hb w rfl
      cases c with
      | none => rfl
      | some z =>
        have hz := hc z rfl
        simp [joinUnobserved, hjoin.merge_unknown hw, hjoin.unknown_merge hz,
          hjoin.merge_unknown (hjoin.merge hw hz)]
  | some v =>
    have hv := ha v rfl
    cases b with
    | none =>
      cases c with
      | none => simp [joinUnobserved, hjoin.merge_unknown hv, hjoin.merge_unknown hjoin.unknown]
      | some z =>
        have hz := hc z rfl
        simp [joinUnobserved, hjoin.merge_unknown hv, hjoin.unknown_merge hz,
          hjoin.merge_unknown hz]
    | some w =>
      have hw := hb w rfl
      cases c with
      | none =>
        simp [joinUnobserved, hjoin.merge_unknown hw, hjoin.merge_unknown hv,
          hjoin.merge_unknown (hjoin.merge hv hw)]
      | some z => exact congrArg some (hjoin.assoc hv hw (hc z rfl))

end Values

/-! ## Keys without instances to be merged -/

variable {K V : Type} [InstanceKey K] [DecidableEq V] [AbstractValue V]

/-- No two of the keys differ in nothing but the instance that they belong to. -/
def Unconflicted (known : K → Prop) : Prop :=
  ∀ a b, known a → known b → InstanceKey.sameFamily a b = true → Key.same a b = true

/-- Environments with the given keys and values are merged key by key, so that the order in which
they are merged does not matter, nor how often. -/
structure MergesPointwise (known : K → Prop) (valid : V → Prop) : Prop where
  get?_merge : ∀ {a b : Environment K V}, a.Within known valid → b.Within known valid →
    ∀ k, (a.merge b).get? k = joinUnobserved (a.get? k) (b.get? k)
  comm : ∀ {a b : Environment K V}, a.Within known valid → b.Within known valid →
    SameBindings (a.merge b) (b.merge a)
  assoc : ∀ {a b c : Environment K V}, a.Within known valid → b.Within known valid →
    c.Within known valid → SameBindings ((a.merge b).merge c) (a.merge (b.merge c))
  self : ∀ {a : Environment K V}, a.Within known valid → SameBindings (a.merge a) a

variable {known : K → Prop} {valid : V → Prop} {a b c : Environment K V}

omit [DecidableEq V] [AbstractValue V] in
theorem Within.unrestricted (ha : a.Within known valid) : a.Within (fun _ => True) valid :=
  ⟨fun _ _ => trivial, ha.values⟩

section Unconflicted

variable (hinstance : ∀ {a b : K}, Key.same a b = true → InstanceKey.sameInstance a b = true)
variable (hknown : Unconflicted known)
include hinstance hknown

omit [DecidableEq V] [AbstractValue V] in
/-- A pair lands on its first key, which is its second key as well. -/
theorem landing_of_unconflicted {k l : K} (hk : known k) (hl : known l)
    (hfamily : InstanceKey.sameFamily k l = true) :
    Key.same k l = true ∧ landing k l = k := by
  have hsame := hknown k l hk hl hfamily
  exact ⟨hsame, if_pos (hinstance hsame)⟩

omit [DecidableEq V] in
/-- Nothing lands on a key but the values that both sides bind it to. -/
theorem eq_of_lands (ha : a.Within known valid) (hb : b.Within known valid) {k : K} {v : V}
    (h : Lands a b k v) :
    ∃ u w, a.get? k = some u ∧ b.get? k = some w ∧ AbstractValue.merge u w = v := by
  obtain ⟨x, hx, y, hy, hfamily, hlanding, rfl⟩ := h
  obtain ⟨hsame, heq⟩ := landing_of_unconflicted hinstance hknown (ha.entry hx).1 (hb.entry hy).1
    hfamily
  rw [heq] at hlanding
  refine ⟨x.2, y.2, ?_, ?_, rfl⟩
  · rw [← a.get?_congr hlanding]
    exact a.get?_eq_some_of_mem hx
  · rw [← b.get?_congr hlanding, b.get?_congr hsame]
    exact b.get?_eq_some_of_mem hy

variable (hjoin : AbstractValue.JoinOn valid)
include hjoin

theorem Within.merge (ha : a.Within known valid) (hb : b.Within known valid) :
    (a.merge b).Within known valid := by
  have hclosed : MergeClosed (fun k v => known k ∧ valid v) (mergeUnknown : K → V → V) := by
    refine ⟨?_, ?_, ?_⟩
    · intro k l v w hk hl hfamily
      rw [(landing_of_unconflicted hinstance hknown hk.1 hl.1 hfamily).2]
      exact ⟨hk.1, hjoin.merge hk.2 hl.2⟩
    · intro k k' v w hk hk' _
      exact ⟨hk.1, hjoin.merge hk.2 hk'.2⟩
    · intro k v hk
      exact ⟨hk.1, hjoin.merge hk.2 hjoin.unknown⟩
  exact within_iff.2 ((within_iff.1 ha).mergeWith hclosed (within_iff.1 hb))

variable (hkeys : InstanceKey.JoinOn fun _ : K => True)
include hkeys

omit hjoin in
/-- A key that one side does not bind gets the value of a key that was not observed. -/
theorem get?_merge_of_bound_once (ha : a.Within known valid) (hb : b.Within known valid) {k : K}
    {u : V} (hu : a.get? k = some u ∧ b.get? k = none ∨ a.get? k = none ∧ b.get? k = some u) :
    (a.merge b).get? k = some (AbstractValue.merge u AbstractValue.unknown) := by
  have hbound : a.get? k = some u ∨ b.get? k = some u := by
    rcases hu with ⟨hu, -⟩ | ⟨-, hu⟩
    · exact .inl hu
    · exact .inr hu
  -- A pair that lands on the key would have to be bound on the other side as well.
  have hnone : ∀ v, ¬Lands a b k v := by
    intro v hv
    obtain ⟨u', w', hu', hw', -⟩ := eq_of_lands hinstance hknown ha hb hv
    rcases hu with ⟨-, hw⟩ | ⟨hw, -⟩
    · rw [hw] at hw'
      cases hw'
    · rw [hw] at hu'
      cases hu'
  have hcontains : (a.merge b).contains k = true := by
    apply contains_mergeWith
    exact hbound.imp a.contains_of_get? b.contains_of_get?
  obtain ⟨v, hv⟩ := Option.isSome_iff_exists.1 hcontains
  rw [hv, get?_mergeWith_of_not_lands hkeys ha.unrestricted hb.unrestricted (fun _ _ _ _ => rfl)
    trivial hnone hbound hv]
  rfl

/-- A key that both sides bind gets the merge of both values: nothing else lands on it. -/
theorem get?_merge_of_bound_twice (ha : a.Within known valid) (hb : b.Within known valid) {k : K}
    {u w : V} (hu : a.get? k = some u) (hw : b.get? k = some w) :
    (a.merge b).get? k = some (AbstractValue.merge u w) := by
  have hvalid : valid (AbstractValue.merge u w) := hjoin.merge (ha.values k u hu) (hb.values k w hw)
  have honly : ∀ v, Lands a b k v → AbstractValue.subset v (AbstractValue.merge u w) = true := by
    intro v hv
    obtain ⟨u', w', hu', hw', rfl⟩ := eq_of_lands hinstance hknown ha hb hv
    rw [hu] at hu'
    rw [hw] at hw'
    obtain rfl := Option.some.inj hu'
    obtain rfl := Option.some.inj hw'
    exact hjoin.subset_refl hvalid
  exact get?_mergeWith_of_greatest hkeys ha.unrestricted hb.unrestricted hjoin
    (loosens_mergeUnknown hjoin).valid_absent trivial (.inl (a.contains_of_get? hu))
    (lands_of_both hkeys ha.unrestricted hb.unrestricted trivial hu hw) honly

/-- A merge treats every key on its own. -/
theorem get?_merge_of_unconflicted (ha : a.Within known valid) (hb : b.Within known valid) (k : K) :
    (a.merge b).get? k = joinUnobserved (a.get? k) (b.get? k) := by
  cases hu : a.get? k with
  | none =>
    cases hw : b.get? k with
    | none =>
      have hfree : a.contains k = false ∧ b.contains k = false := by
        simp [contains, hu, hw]
      refine get?_mergeWith_eq_none hfree.1 hfree.2 fun v hv => ?_
      obtain ⟨u', -, hu', -⟩ := eq_of_lands hinstance hknown ha hb hv
      rw [hu] at hu'
      cases hu'
    | some w => exact get?_merge_of_bound_once hinstance hknown hkeys ha hb (.inr ⟨hu, hw⟩)
  | some u =>
    cases hw : b.get? k with
    | none => exact get?_merge_of_bound_once hinstance hknown hkeys ha hb (.inl ⟨hu, hw⟩)
    | some w => exact get?_merge_of_bound_twice hinstance hknown hjoin hkeys ha hb hu hw

/-- **Without instances to be merged, merging is pointwise,** and it inherits the laws of the merge
of values. -/
theorem mergesPointwise : MergesPointwise known valid where
  get?_merge := get?_merge_of_unconflicted hinstance hknown hjoin hkeys
  comm {a b} ha hb k := by
    rw [get?_merge_of_unconflicted hinstance hknown hjoin hkeys ha hb,
      get?_merge_of_unconflicted hinstance hknown hjoin hkeys hb ha]
    exact joinUnobserved_comm hjoin (ha.values k) (hb.values k)
  assoc {a b c} ha hb hc k := by
    have hab := Within.merge hinstance hknown hjoin ha hb
    have hbc := Within.merge hinstance hknown hjoin hb hc
    rw [get?_merge_of_unconflicted hinstance hknown hjoin hkeys hab hc,
      get?_merge_of_unconflicted hinstance hknown hjoin hkeys ha hb,
      get?_merge_of_unconflicted hinstance hknown hjoin hkeys ha hbc,
      get?_merge_of_unconflicted hinstance hknown hjoin hkeys hb hc]
    exact joinUnobserved_assoc hjoin (ha.values k) (hb.values k) (hc.values k)
  self {a} ha k := by
    rw [get?_merge_of_unconflicted hinstance hknown hjoin hkeys ha ha]
    exact joinUnobserved_self hjoin (ha.values k)

end Unconflicted
end Environment
end HeapFlow
