import HeapFlow.Proofs.Environment.Congruence

/-! # Which bindings a merge covers

A merge should bind every key of either side to a value that is at least as imprecise as the one
that the side binds it to.  What the merge binds a key to is the join of all that lands on it, and
so it is, if the other side binds a key whose instance the key covers.  If the other side does not,
the key was not observed there, and the merge gives it the value that `absent` comes up with, which
need not be above the value that is there (`Environment.covers_iff`).

So a merge is above one of the sides exactly if this does not happen to any of its bindings
(`Environment.isSubsetOf_mergeWith_left_iff`, `Environment.isSubsetOf_mergeWith_right_iff`).  If it
cannot happen, because `absent` never makes a value more precise, then the merge covers both sides
(`Environment.isCover_mergeWith`).  The keys that it binds in addition are those of pairs of
different instances (`Environment.accountsFor_of_contains_mergeWith`).
-/
namespace HeapFlow
namespace Environment

theorem isSubsetOf_iff {K V : Type} [Key K] [DecidableEq V] [AbstractValue V]
    {env other : Environment K V} : env.isSubsetOf other = true ↔
      ∀ x ∈ env.entries, AbstractValue.isBottom x.2 = true ∨
        ∃ w, other.get? x.1 = some w ∧ AbstractValue.subset x.2 w = true := by
  unfold isSubsetOf
  rw [List.all_eq_true]
  refine forall₂_congr fun x _ => ?_
  rw [Bool.or_eq_true]
  cases other.get? x.1 <;> simp

variable {K V : Type} [InstanceKey K] [DecidableEq V] [AbstractValue V]
variable {env other : Environment K V} {absent : K → V → V} {known : K → Prop} {valid : V → Prop}

/-! ## Which keys a merge binds -/

/-- A key that one of the environments binds, or else that of the merged instance of a key of each
of them. -/
def AccountsFor (env other : Environment K V) (k : K) : Prop :=
  env.contains k = true ∨ other.contains k = true ∨
    ∃ a ∈ env.keys, ∃ b ∈ other.keys, InstanceKey.sameFamily a b = true ∧
      InstanceKey.sameInstance a b = false ∧
        Key.same (InstanceKey.withMergedInstance a b) k = true

omit [DecidableEq V] [AbstractValue V] in
/-- A pair lands on a key of the first side or on the key of a merged instance. -/
theorem accountsFor_landing {x y : K × V} (hx : x ∈ env.entries) (hy : y ∈ other.entries)
    (hfamily : InstanceKey.sameFamily x.1 y.1 = true) {k : K}
    (hlanding : Key.same (landing x.1 y.1) k = true) : AccountsFor env other k := by
  by_cases hinstance : InstanceKey.sameInstance x.1 y.1 = true
  · rw [landing, if_pos hinstance] at hlanding
    exact .inl (env.isSome_get?_iff.2 ⟨x.1, List.mem_map_of_mem hx, hlanding⟩)
  · rw [landing, if_neg hinstance] at hlanding
    exact .inr (.inr ⟨x.1, List.mem_map_of_mem hx, y.1, List.mem_map_of_mem hy, hfamily,
      Bool.eq_false_iff.2 hinstance, hlanding⟩)

/-- **A merge binds no keys** but those of the two sides and of merged instances. -/
theorem accountsFor_of_contains_mergeWith {k : K}
    (h : (env.mergeWith other absent).contains k = true) : AccountsFor env other k := by
  refine mergeWith_induction env other absent
    (P := fun result => ∀ k, result.contains k = true → AccountsFor env other k)
    (fun k hk => by cases hk) ?_ k h
  -- A step binds one key at most: that on which a pair lands, or that of a stored binding.
  intro step hstep result hresult k hk
  cases step with
  | pair x y =>
    obtain ⟨hx, hy, hfamily⟩ := pair_mem_mergeSteps.1 hstep
    have hk : (mergePair env other result x y).contains k = true := hk
    rw [mergePair_eq] at hk
    split at hk
    · exact hresult k hk
    · rcases result.contains_insert_cases hk with hlanding | hk
      · exact accountsFor_landing hx hy hfamily hlanding
      · exact hresult k hk
  | alone x =>
    have hk : (mergeAlone absent result x).contains k = true := hk
    unfold mergeAlone at hk
    split at hk
    · exact hresult k hk
    · rcases result.contains_insert_cases hk with hsame | hk
      · rcases alone_mem_mergeSteps.1 hstep with hx | hx
        · exact .inl (env.isSome_get?_iff.2 ⟨x.1, List.mem_map_of_mem hx, hsame⟩)
        · exact .inr (.inl (other.isSome_get?_iff.2 ⟨x.1, List.mem_map_of_mem hx, hsame⟩))
      · exact hresult k hk

/-! ## Which bindings a merge covers -/

variable (hkeys : InstanceKey.JoinOn known)
variable (henv : env.Within known valid) (hother : other.Within known valid)
include hkeys henv hother

omit [DecidableEq V] in
/-- If a pair lands on a stored key of the first side, then so does the pair of its own binding with
the same binding of the second side. -/
theorem exists_lands_left_iff {x : K × V} (hx : x ∈ env.entries) :
    (∃ v, Lands env other x.1 v) ↔ ∃ y ∈ other.entries,
      InstanceKey.sameFamily x.1 y.1 = true ∧ Key.same (landing x.1 y.1) x.1 = true := by
  constructor
  · rintro ⟨v, x', hx', y, hy, hfamily, hlanding, -⟩
    exact ⟨y, hy, hkeys.absorb_left (henv.entry hx').1 (hother.entry hy).1 (henv.entry hx).1
      hfamily hlanding⟩
  · rintro ⟨y, hy, hfamily, hlanding⟩
    exact ⟨_, x, hx, y, hy, hfamily, hlanding, rfl⟩

omit [DecidableEq V] in
theorem exists_lands_right_iff {y : K × V} (hy : y ∈ other.entries) :
    (∃ v, Lands env other y.1 v) ↔ ∃ x ∈ env.entries,
      InstanceKey.sameFamily x.1 y.1 = true ∧ Key.same (landing x.1 y.1) y.1 = true := by
  constructor
  · rintro ⟨v, x, hx, y', hy', hfamily, hlanding, -⟩
    exact ⟨x, hx, hkeys.absorb_right (henv.entry hx).1 (hother.entry hy').1 (hother.entry hy).1
      hfamily hlanding⟩
  · rintro ⟨x, hx, hfamily, hlanding⟩
    exact ⟨_, x, hx, y, hy, hfamily, hlanding, rfl⟩

/-- A stored key on which no pair lands is given the value of a key that was not observed. -/
theorem get?_mergeWith_of_unobserved {x : K × V} (hx : x ∈ env.entries ∨ x ∈ other.entries)
    (hlands : ¬∃ v, Lands env other x.1 v) :
    (env.mergeWith other absent).get? x.1 = some (absent x.1 x.2) := by
  have hget : env.get? x.1 = some x.2 ∨ other.get? x.1 = some x.2 :=
    hx.imp env.get?_eq_some_of_mem other.get?_eq_some_of_mem
  have hknown : known x.1 := hx.elim (fun hx => (henv.entry hx).1) fun hx => (hother.entry hx).1
  have hcontains : (env.mergeWith other absent).contains x.1 = true := contains_mergeWith
    (hget.imp env.contains_of_get? other.contains_of_get?)
  obtain ⟨w, hw⟩ := Option.isSome_iff_exists.1 hcontains
  rw [hw, get?_mergeWith_of_alone (fun v hv => hlands ⟨v, hv⟩) (fun y hy hsame => ?_) w hw]
  -- The key is stored once: if both sides stored it, then their bindings would land on it.
  rcases hx with hx | hx <;> rcases hy with hy | hy
  · rw [env.eq_of_same hy hx hsame]
  · have hother' := (other.get?_congr hsame).symm.trans (other.get?_eq_some_of_mem hy)
    exact absurd ⟨_, lands_of_both hkeys henv hother hknown (env.get?_eq_some_of_mem hx) hother'⟩
      hlands
  · have henv' := (env.get?_congr hsame).symm.trans (env.get?_eq_some_of_mem hy)
    exact absurd ⟨_, lands_of_both hkeys henv hother hknown henv' (other.get?_eq_some_of_mem hx)⟩
      hlands
  · rw [other.eq_of_same hy hx hsame]

variable (hjoin : AbstractValue.JoinOn valid) (habsent : ∀ k v, valid v → valid (absent k v))
include hjoin habsent

/-- **A merge covers a binding** if some pair lands on its key, or else if the value of a key that
was not observed is above its value. -/
theorem covers_iff {x : K × V} (hx : x ∈ env.entries ∨ x ∈ other.entries) :
    (∃ w, (env.mergeWith other absent).get? x.1 = some w ∧
      AbstractValue.subset x.2 w = true) ↔
      AbstractValue.subset x.2 (absent x.1 x.2) = true ∨ ∃ v, Lands env other x.1 v := by
  by_cases hlands : ∃ v, Lands env other x.1 v
  · refine iff_of_true ?_ (.inr hlands)
    obtain ⟨v, hv⟩ := hlands
    exact subset_get?_mergeWith_of_lands hkeys hjoin habsent henv hother
      (hx.elim (fun hx => (henv.entry hx).1) fun hx => (hother.entry hx).1) hv
      (hx.imp env.get?_eq_some_of_mem other.get?_eq_some_of_mem)
  · rw [get?_mergeWith_of_unobserved hkeys henv hother hx hlands]
    simp [hlands]

/-- If one of the pairs that land on a key merges to a value above what all of them merge to, then
the key is bound to this value. -/
theorem get?_mergeWith_of_greatest {k : K} (hk : known k)
    (hcontains : env.contains k = true ∨ other.contains k = true) {v : V}
    (hlands : Lands env other k v)
    (hgreatest : ∀ w, Lands env other k w → AbstractValue.subset w v = true) :
    (env.mergeWith other absent).get? k = some v := by
  have hvalid : valid v := by
    obtain ⟨x, hx, y, hy, -, -, rfl⟩ := hlands
    exact hjoin.merge (henv.entry hx).2 (hother.entry hy).2
  obtain ⟨w, hw, hge⟩ := le_get?_mergeWith hjoin habsent henv hother hlands
    (hcontains.imp_right .inl)
  have hle := get?_mergeWith_le hkeys hjoin habsent henv hother hk hvalid hcontains ⟨v, hlands⟩
    hgreatest hw
  have hwvalid : valid w := (henv.mergeWith hkeys hjoin habsent hother).values k w hw
  rw [hjoin.subset_antisymm hvalid hwvalid hge hle]
  exact hw

/-- **A merge is above its first side** exactly if the second side observes all keys of the first
one for which the value of a key that was not observed would be too precise. -/
theorem isSubsetOf_mergeWith_left_iff : env.isSubsetOf (env.mergeWith other absent) = true ↔
    ∀ x ∈ env.entries, AbstractValue.isBottom x.2 = true ∨
      AbstractValue.subset x.2 (absent x.1 x.2) = true ∨ ∃ y ∈ other.entries,
        InstanceKey.sameFamily x.1 y.1 = true ∧ Key.same (landing x.1 y.1) x.1 = true := by
  rw [isSubsetOf_iff]
  refine forall₂_congr fun x hx => or_congr_right ?_
  rw [covers_iff hkeys henv hother hjoin habsent (.inl hx),
    exists_lands_left_iff hkeys henv hother hx]

/-- **A merge is above its second side** exactly if the first side observes all keys of the second
one for which the value of a key that was not observed would be too precise. -/
theorem isSubsetOf_mergeWith_right_iff : other.isSubsetOf (env.mergeWith other absent) = true ↔
    ∀ y ∈ other.entries, AbstractValue.isBottom y.2 = true ∨
      AbstractValue.subset y.2 (absent y.1 y.2) = true ∨ ∃ x ∈ env.entries,
        InstanceKey.sameFamily x.1 y.1 = true ∧ Key.same (landing x.1 y.1) y.1 = true := by
  rw [isSubsetOf_iff]
  refine forall₂_congr fun y hy => or_congr_right ?_
  rw [covers_iff hkeys henv hother hjoin habsent (.inr hy),
    exists_lands_right_iff hkeys henv hother hy]

/-! ## Merges that cover both sides -/

/-- The merged environment binds the keys of both environments, all other keys that it binds are
those of merged instances, and it is above both environments. -/
structure IsCover (merged env other : Environment K V) : Prop where
  keeps : ∀ k, env.contains k = true ∨ other.contains k = true → merged.contains k = true
  accounts : ∀ k, merged.contains k = true → AccountsFor env other k
  above_left : env.isSubsetOf merged = true
  above_right : other.isSubsetOf merged = true

/-- The value that is given to a key that was not observed is valid and not more precise than the
value of the key. -/
structure Loosens (valid : V → Prop) (absent : K → V → V) : Prop where
  valid_absent : ∀ k v, valid v → valid (absent k v)
  subset_absent : ∀ k v, valid v → AbstractValue.subset v (absent k v) = true

omit [InstanceKey K] hkeys henv hother habsent in
theorem loosens_mergeUnknown : Loosens valid (mergeUnknown : K → V → V) where
  valid_absent _ _ hv := hjoin.merge hv hjoin.unknown
  subset_absent _ _ hv := hjoin.subset_merge_left hv hjoin.unknown

omit habsent in
/-- **A merge covers both sides** if the values that it gives to keys that were not observed are not
more precise than the values that these keys have. -/
theorem isCover_mergeWith (hloosens : Loosens valid absent) :
    IsCover (env.mergeWith other absent) env other where
  keeps _ h := contains_mergeWith h
  accounts _ h := accountsFor_of_contains_mergeWith h
  above_left := by
    rw [isSubsetOf_mergeWith_left_iff hkeys henv hother hjoin hloosens.valid_absent]
    intro x hx
    exact .inr (.inl (hloosens.subset_absent x.1 x.2 (henv.entry hx).2))
  above_right := by
    rw [isSubsetOf_mergeWith_right_iff hkeys henv hother hjoin hloosens.valid_absent]
    intro y hy
    exact .inr (.inl (hloosens.subset_absent y.1 y.2 (hother.entry hy).2))

end Environment
end HeapFlow
