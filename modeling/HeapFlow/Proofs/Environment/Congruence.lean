import HeapFlow.Proofs.Environment.Bindings
import HeapFlow.Proofs.Environment.Merge

/-! # Merging environments that have the same bindings

A merge takes up pairs of bindings in the order in which they are stored, so that it is not obvious
that it depends on the bindings alone.

What a merge binds a key to is found as follows.  If some pair lands on a key that one of the sides
binds, then the value of the key is the join of what all these pairs merge to
(`Environment.le_get?_mergeWith`, `Environment.get?_mergeWith_le`).  If no pair lands on the key,
its value is given by `absent`.  And a key that neither side binds is bound only if some pair lands
on it that does not merge to the unknown value.  So merges that add no keys to one of the sides
depend only on the bindings (`Environment.SameBindings.mergeWith`).
-/
namespace HeapFlow

/-- Merging the instances of valid keys of one family joins the keys. -/
structure InstanceKey.JoinOn {K : Type} [InstanceKey K] (valid : K → Prop) : Prop where
  family_congr : ∀ {a a' b b' : K}, Key.same a a' = true → Key.same b b' = true →
    InstanceKey.sameFamily a b = InstanceKey.sameFamily a' b'
  landing : ∀ {a b}, valid a → valid b → InstanceKey.sameFamily a b = true →
    valid (Environment.landing a b)
  landing_congr : ∀ {a a' b b'}, valid a → valid a' → valid b → valid b' →
    Key.same a a' = true → Key.same b b' = true →
      Key.same (Environment.landing a b) (Environment.landing a' b') = true
  landing_self : ∀ {k}, valid k →
    InstanceKey.sameFamily k k = true ∧ Key.same (Environment.landing k k) k = true
  /-- A key that covers another one. -/
  absorb_left : ∀ {a b k}, valid a → valid b → valid k → InstanceKey.sameFamily a b = true →
    Key.same (Environment.landing a b) k = true →
      InstanceKey.sameFamily k b = true ∧ Key.same (Environment.landing k b) k = true
  absorb_right : ∀ {a b k}, valid a → valid b → valid k → InstanceKey.sameFamily a b = true →
    Key.same (Environment.landing a b) k = true →
      InstanceKey.sameFamily a k = true ∧ Key.same (Environment.landing a k) k = true

namespace Environment

section Merge

variable {K V : Type} [InstanceKey K] [DecidableEq V] [AbstractValue V]
variable {env other : Environment K V} {absent : K → V → V} {known : K → Prop} {valid : V → Prop}

/-! ## Merging keeps keys -/

theorem contains_mergePair_of_contains {result : Environment K V} {k : K}
    (h : result.contains k = true) (x y : K × V) :
    (mergePair env other result x y).contains k = true := by
  rw [mergePair_eq]
  split
  · exact h
  · exact result.isSome_get?_insert _ _ h

omit [DecidableEq V] [AbstractValue V] in
theorem contains_mergeAlone_of_contains {result : Environment K V} {k : K}
    (h : result.contains k = true) (x : K × V) :
    (mergeAlone absent result x).contains k = true := by
  unfold mergeAlone
  split
  · exact h
  · exact result.isSome_get?_insert _ _ h

theorem contains_step {result : Environment K V} {k : K} (h : result.contains k = true)
    (step : MergeStep K V) : (step.apply env other absent result).contains k = true := by
  cases step with
  | pair x y => exact contains_mergePair_of_contains h x y
  | alone x => exact contains_mergeAlone_of_contains h x

omit [DecidableEq V] [AbstractValue V] in
theorem contains_mergeAlone (result : Environment K V) (x : K × V) {k : K}
    (hsame : Key.same x.1 k = true) : (mergeAlone absent result x).contains k = true := by
  unfold mergeAlone
  split
  · next hbound =>
    rw [contains, ← result.get?_congr hsame]
    exact hbound
  · rw [contains, get?_insert, if_pos hsame]
    rfl

/-- Merging never drops a key. -/
theorem contains_mergeWith {k : K} (h : env.contains k = true ∨ other.contains k = true) :
    (env.mergeWith other absent).contains k = true := by
  have hstored : ∃ x, (x ∈ env.entries ∨ x ∈ other.entries) ∧ Key.same x.1 k = true := by
    rcases h with h | h
    all_goals
      obtain ⟨v, hv⟩ := Option.isSome_iff_exists.1 h
      obtain ⟨k', hsame, hmem⟩ := (get?_eq_some_iff _).1 hv
    · exact ⟨_, .inl hmem, hsame⟩
    · exact ⟨_, .inr hmem, hsame⟩
  obtain ⟨x, hx, hsame⟩ := hstored
  exact mergeWith_of_step env other absent (P := fun _ => True)
    (Q := fun result => result.contains k = true) trivial (fun _ _ _ _ => trivial)
    (alone_mem_mergeSteps.2 hx) (fun result _ => contains_mergeAlone result x hsame)
    fun step _ _ h => contains_step h step

/-- Merging bindings that satisfy the condition gives bindings that satisfy it. -/
structure MergeClosed (P : K → V → Prop) (absent : K → V → V) : Prop where
  landing : ∀ {k l v w}, P k v → P l w → InstanceKey.sameFamily k l = true →
    P (landing k l) (AbstractValue.merge v w)
  /-- The value of a key may be merged into another value of the key. -/
  add : ∀ {k k' v w}, P k v → P k' w → Key.same k' k = true → P k (AbstractValue.merge v w)
  absent : ∀ {k v}, P k v → P k (absent k v)

theorem EachBinding.mergePair {P : K → V → Prop}
    (hlanding : ∀ {k l v w}, P k v → P l w → InstanceKey.sameFamily k l = true →
      P (landing k l) (AbstractValue.merge v w))
    (hadd : ∀ {k k' v w}, P k v → P k' w → Key.same k' k = true → P k (AbstractValue.merge v w))
    (henv : env.EachBinding P) (hother : other.EachBinding P) {result : Environment K V}
    (hresult : result.EachBinding P) {x y : K × V} (hx : x ∈ env.entries) (hy : y ∈ other.entries)
    (hfamily : InstanceKey.sameFamily x.1 y.1 = true) :
    (mergePair env other result x y).EachBinding P := by
  rw [mergePair_eq]
  split
  · exact hresult
  · refine hresult.insert ?_
    refine List.foldlRecOn (motive := fun v => P (Environment.landing x.1 y.1) v) _ _
      (hlanding (henv x hx) (hother y hy) hfamily) fun v hv w hw => ?_
    obtain ⟨k, hsame, hk⟩ : ∃ k, Key.same k (Environment.landing x.1 y.1) = true ∧ P k w := by
      rcases mem_boundBefore_iff.1 hw with hw | ⟨-, hw | hw⟩
      · exact hresult.exists_key hw
      · exact henv.exists_key hw
      · exact hother.exists_key hw
    exact hadd hv hk hsame

theorem EachBinding.mergeWith {P : K → V → Prop} (hP : MergeClosed P absent)
    (henv : env.EachBinding P) (hother : other.EachBinding P) :
    (env.mergeWith other absent).EachBinding P := by
  refine mergeWith_induction env other absent eachBinding_empty fun step hstep result hresult => ?_
  cases step with
  | pair x y =>
    obtain ⟨hx, hy, hfamily⟩ := pair_mem_mergeSteps.1 hstep
    exact EachBinding.mergePair hP.landing hP.add henv hother hresult hx hy hfamily
  | alone x =>
    have hx : P x.1 x.2 := (alone_mem_mergeSteps.1 hstep).elim (henv x) (hother x)
    show (mergeAlone absent result x).EachBinding P
    unfold mergeAlone
    split
    · exact hresult
    · exact hresult.insert (hP.absent hx)

omit [DecidableEq V] in
theorem mergeClosed_within (hkeys : InstanceKey.JoinOn known) (hjoin : AbstractValue.JoinOn valid)
    (habsent : ∀ k v, valid v → valid (absent k v)) :
    MergeClosed (fun k v => known k ∧ valid v) absent where
  landing hk hl hfamily := ⟨hkeys.landing hk.1 hl.1 hfamily, hjoin.merge hk.2 hl.2⟩
  add hk hk' _ := ⟨hk.1, hjoin.merge hk.2 hk'.2⟩
  absent hk := ⟨hk.1, habsent _ _ hk.2⟩

theorem Within.mergeWith (hkeys : InstanceKey.JoinOn known) (hjoin : AbstractValue.JoinOn valid)
    (habsent : ∀ k v, valid v → valid (absent k v)) (henv : env.Within known valid)
    (hother : other.Within known valid) :
    (env.mergeWith other absent).Within known valid :=
  within_iff.2 ((within_iff.1 henv).mergeWith (mergeClosed_within hkeys hjoin habsent)
    (within_iff.1 hother))

/-! ## What a merge binds a key to -/

/-- Some pair of bindings lands on the key and merges to the value. -/
def Lands (env other : Environment K V) (k : K) (v : V) : Prop :=
  ∃ x ∈ env.entries, ∃ y ∈ other.entries, InstanceKey.sameFamily x.1 y.1 = true ∧
    Key.same (landing x.1 y.1) k = true ∧ AbstractValue.merge x.2 y.2 = v

/-- At a key, two pairs of environments have the same to merge. -/
structure MergeAlike (env other env' other' : Environment K V) (k : K) : Prop where
  bound : ∀ u, env.get? k = some u ∨ other.get? k = some u ↔
    env'.get? k = some u ∨ other'.get? k = some u
  lands : ∀ v, Lands env other k v ↔ Lands env' other' k v

omit [DecidableEq V] in
theorem MergeAlike.symm {env' other' : Environment K V} {k : K}
    (h : MergeAlike env other env' other' k) : MergeAlike env' other' env other k :=
  ⟨fun u => (h.bound u).symm, fun v => (h.lands v).symm⟩

omit [DecidableEq V] in
theorem MergeAlike.trans {env₁ other₁ env₂ other₂ : Environment K V} {k : K}
    (h : MergeAlike env other env₁ other₁ k) (h' : MergeAlike env₁ other₁ env₂ other₂ k) :
    MergeAlike env other env₂ other₂ k :=
  ⟨fun u => (h.bound u).trans (h'.bound u), fun v => (h.lands v).trans (h'.lands v)⟩

omit [DecidableEq V] in
theorem MergeAlike.contains {env' other' : Environment K V} {k : K}
    (h : MergeAlike env other env' other' k) : env.contains k = true ∨ other.contains k = true ↔
      env'.contains k = true ∨ other'.contains k = true := by
  simp only [Environment.contains, Option.isSome_iff_exists, ← exists_or, h.bound]

/-- A pair that lands on a key of one of the sides is taken up. -/
theorem contains_mergePair {k : K} (hbound : env.contains k = true ∨ other.contains k = true)
    (result : Environment K V) {x y : K × V} (hlanding : Key.same (landing x.1 y.1) k = true) :
    (mergePair env other result x y).contains k = true := by
  have hnot : ¬(InstanceKey.sameInstance x.1 y.1 = false ∧
      boundBefore env other result x.1 y.1 = [] ∧
        AbstractValue.merge x.2 y.2 = AbstractValue.unknown) := by
    rintro ⟨hinstance, hnil, -⟩
    have hfree : ∀ v, v ∉ boundBefore env other result x.1 y.1 := by simp [hnil]
    rcases hbound with hbound | hbound
    all_goals
      obtain ⟨v, hv⟩ := Option.isSome_iff_exists.1 hbound
      rw [← get?_congr _ hlanding] at hv
    · exact hfree v (mem_boundBefore_iff.2 (.inr ⟨hinstance, .inl hv⟩))
    · exact hfree v (mem_boundBefore_iff.2 (.inr ⟨hinstance, .inr hv⟩))
  rw [mergePair_eq, if_neg hnot, contains, get?_insert, if_pos hlanding]
  rfl

theorem get?_mergePair_of_not_lands (result : Environment K V) {x y : K × V} {k : K}
    (hlanding : Key.same (landing x.1 y.1) k = false) :
    (mergePair env other result x y).get? k = result.get? k := by
  rw [mergePair_eq]
  split
  · rfl
  · rw [get?_insert, hlanding, if_neg Bool.false_ne_true]

omit [DecidableEq V] [AbstractValue V] in
/-- A single binding matters for its own key only, and only if it is not bound yet. -/
theorem get?_mergeAlone (result : Environment K V) {x : K × V} {k : K}
    (h : Key.same x.1 k = true → result.contains k = true) :
    (mergeAlone absent result x).get? k = result.get? k := by
  unfold mergeAlone
  split
  · rfl
  · next hfree =>
    have hdiffers : Key.same x.1 k = false := by
      refine Bool.eq_false_iff.2 fun hsame => hfree ?_
      rw [contains, result.get?_congr hsame]
      exact h hsame
    rw [get?_insert, hdiffers, if_neg Bool.false_ne_true]

/-- A key on which no pair lands is given the value of a key that was not observed. -/
theorem get?_mergeWith_of_alone {k : K} {value : V} (hlands : ∀ v, ¬Lands env other k v)
    (halone : ∀ x, x ∈ env.entries ∨ x ∈ other.entries → Key.same x.1 k = true →
      absent x.1 x.2 = value) :
    ∀ v, (env.mergeWith other absent).get? k = some v → v = value := by
  refine mergeWith_induction env other absent
    (P := fun result => ∀ v, result.get? k = some v → v = value) (by simp) ?_
  intro step hstep result hresult v hv
  cases step with
  | pair x y =>
    obtain ⟨hx, hy, hfamily⟩ := pair_mem_mergeSteps.1 hstep
    have hlanding : Key.same (landing x.1 y.1) k = false := Bool.eq_false_iff.2 fun hlanding =>
      hlands _ ⟨x, hx, y, hy, hfamily, hlanding, rfl⟩
    have hv : (mergePair env other result x y).get? k = some v := hv
    rw [get?_mergePair_of_not_lands result hlanding] at hv
    exact hresult v hv
  | alone x =>
    have hv : (mergeAlone absent result x).get? k = some v := hv
    unfold mergeAlone at hv
    split at hv
    · exact hresult v hv
    · rw [get?_insert] at hv
      split at hv
      · next hsame =>
        rw [← halone x (alone_mem_mergeSteps.1 hstep) hsame]
        exact (Option.some.inj hv).symm
      · exact hresult v hv

/-- A key that neither side binds is only bound if something would be known about it. -/
theorem get?_mergeWith_eq_none {k : K}
    (henv : env.contains k = false) (hother : other.contains k = false)
    (hlands : ∀ v, Lands env other k v → v = AbstractValue.unknown) :
    (env.mergeWith other absent).get? k = none := by
  have hfree : ∀ (env : Environment K V) {x : K × V}, env.contains k = false → x ∈ env.entries →
      Key.same x.1 k = false := by
    intro env x hcontains hx
    refine Bool.eq_false_iff.2 fun hsame => ?_
    rw [contains, ← env.get?_congr hsame, env.get?_eq_some_of_mem hx] at hcontains
    cases hcontains
  have hnone : ∀ env : Environment K V, env.contains k = false → env.get? k = none := by
    intro env hcontains
    exact Option.not_isSome_iff_eq_none.1 (Bool.eq_false_iff.1 hcontains)
  refine mergeWith_induction env other absent (P := fun result => result.get? k = none) rfl ?_
  intro step hstep result hresult
  cases step with
  | pair x y =>
    obtain ⟨hx, hy, hfamily⟩ := pair_mem_mergeSteps.1 hstep
    show (mergePair env other result x y).get? k = none
    by_cases hlanding : Key.same (landing x.1 y.1) k = true
    · -- The pair is passed over.
      have hinstance : InstanceKey.sameInstance x.1 y.1 = false := by
        refine Bool.eq_false_iff.2 fun hinstance => ?_
        rw [landing, if_pos hinstance, hfree env henv hx] at hlanding
        cases hlanding
      have hbound : boundBefore env other result x.1 y.1 = [] := by
        refine List.eq_nil_iff_forall_not_mem.2 fun v hv => ?_
        rw [mem_boundBefore_iff, result.get?_congr hlanding, env.get?_congr hlanding,
          other.get?_congr hlanding, hresult, hnone env henv, hnone other hother] at hv
        simp at hv
      have hunknown := hlands _ ⟨x, hx, y, hy, hfamily, hlanding, rfl⟩
      rw [mergePair_eq, if_pos ⟨hinstance, hbound, hunknown⟩]
      exact hresult
    · rw [get?_mergePair_of_not_lands result (Bool.eq_false_iff.2 hlanding)]
      exact hresult
  | alone x =>
    have hdiffers : Key.same x.1 k = false := by
      rcases alone_mem_mergeSteps.1 hstep with hx | hx
      · exact hfree env henv hx
      · exact hfree other hother hx
    show (mergeAlone absent result x).get? k = none
    rw [get?_mergeAlone result (by simp [hdiffers])]
    exact hresult

theorem contains_mergeEntry {k : K} {result : Environment K V} (h : result.contains k = true)
    (x : K × V) : (mergeEntry env other absent result x).contains k = true := by
  refine contains_mergeAlone_of_contains ?_ x
  refine List.foldlRecOn (motive := fun result => Environment.contains result k = true) _ _ h
    fun result hresult y _ => ?_
  exact contains_mergePair_of_contains hresult x y

/-- A pair that lands on the key has been taken up before the first binding of the pair is. -/
theorem contains_foldl_mergePair {k : K}
    (hbound : env.contains k = true ∨ other.contains k = true) (result : Environment K V)
    {x y : K × V} (hy : y ∈ other.entries) (hfamily : InstanceKey.sameFamily x.1 y.1 = true)
    (hlanding : Key.same (landing x.1 y.1) k = true) :
    ((other.entries.filter fun y => InstanceKey.sameFamily x.1 y.1).foldl
      (fun result y => mergePair env other result x y) result).contains k = true := by
  have hmem : y ∈ other.entries.filter fun y => InstanceKey.sameFamily x.1 y.1 :=
    List.mem_filter.2 ⟨hy, hfamily⟩
  obtain ⟨before, after, hlist⟩ := List.append_of_mem hmem
  rw [hlist, List.foldl_append, List.foldl_cons]
  refine List.foldlRecOn (motive := fun result => Environment.contains result k = true) _ _
    (contains_mergePair hbound _ hlanding) fun result hresult z _ => ?_
  exact contains_mergePair_of_contains hresult x z

/-- A key that one of the bindings of the first side brings about is bound once all of them have
been taken up. -/
theorem contains_foldl_mergeEntry {k : K} {x : K × V} (hx : x ∈ env.entries)
    (h : ∀ result, (mergeEntry env other absent result x).contains k = true) :
    (env.entries.foldl (mergeEntry env other absent) empty).contains k = true := by
  obtain ⟨before, after, hlist⟩ := List.append_of_mem hx
  rw [hlist, List.foldl_append, List.foldl_cons]
  exact List.foldlRecOn (motive := fun result => Environment.contains result k = true) _ _ (h _)
    fun result hresult z _ => contains_mergeEntry hresult z

section Observed

variable {P : K → V → Prop}
  (hlanding : ∀ {k l v w}, P k v → P l w → InstanceKey.sameFamily k l = true →
    P (landing k l) (AbstractValue.merge v w))
  (hadd : ∀ {k k' v w}, P k v → P k' w → Key.same k' k = true → P k (AbstractValue.merge v w))
  (hself : ∀ {k l : K}, Key.same k l = true →
    InstanceKey.sameFamily k l = true ∧ Key.same (landing k l) k = true)
  (henv : env.EachBinding P) (hother : other.EachBinding P)
include hlanding hadd hself henv hother

/-- A binding of the first side is taken up on its own only if the other side does not observe its
key. -/
theorem EachBinding.mergeEntry {x : K × V} (hx : x ∈ env.entries)
    (habsent : other.contains x.1 = false → P x.1 (absent x.1 x.2)) {result : Environment K V}
    (hresult : result.EachBinding P) : (mergeEntry env other absent result x).EachBinding P := by
  have hpairs := List.foldlRecOn (motive := EachBinding P)
    (other.entries.filter fun y => InstanceKey.sameFamily x.1 y.1)
    (fun result y => Environment.mergePair env other result x y) hresult
    fun result hresult y hy => EachBinding.mergePair hlanding hadd henv hother hresult hx
      (List.mem_filter.1 hy).1 (List.mem_filter.1 hy).2
  unfold Environment.mergeEntry mergeAlone
  split
  · exact hpairs
  · next hfree =>
    refine hpairs.insert (habsent (Bool.eq_false_iff.2 fun hcontains => hfree ?_))
    obtain ⟨v, hv⟩ := Option.isSome_iff_exists.1 hcontains
    obtain ⟨k, hsame, hk⟩ := other.get?_eq_some_iff.1 hv
    obtain ⟨hfamily, hlands⟩ := hself (Key.same_symm hsame)
    have hbound : env.contains x.1 = true :=
      env.contains_of_get? (env.get?_eq_some_of_mem hx)
    exact contains_foldl_mergePair (.inl hbound) result hk hfamily hlands

/-- Merging keeps a condition on the bindings if `absent` does for the keys that one of the sides
did not observe: a key that both sides bind gets its value from a pair. -/
theorem EachBinding.mergeWith_of_observed
    (habsent : ∀ x, x ∈ env.entries ∧ other.contains x.1 = false ∨
      x ∈ other.entries ∧ env.contains x.1 = false → P x.1 (absent x.1 x.2)) :
    (env.mergeWith other absent).EachBinding P := by
  have hfirst : EachBinding P (env.entries.foldl (Environment.mergeEntry env other absent) empty) :=
    List.foldlRecOn (motive := EachBinding P) _ _ eachBinding_empty fun result hresult x hx =>
      EachBinding.mergeEntry hlanding hadd hself henv hother hx
        (fun hfree => habsent x (.inl ⟨hx, hfree⟩)) hresult
  have hkept : ∀ k, env.contains k = true →
      (env.entries.foldl (Environment.mergeEntry env other absent) empty).contains k = true := by
    intro k hk
    obtain ⟨v, hv⟩ := Option.isSome_iff_exists.1 hk
    obtain ⟨l, hsame, hl⟩ := env.get?_eq_some_iff.1 hv
    exact contains_foldl_mergeEntry hl fun result => contains_mergeAlone _ (l, v) hsame
  refine (List.foldlRecOn (motive := fun result => EachBinding P result ∧
    ∀ k, env.contains k = true → result.contains k = true) other.entries _ ⟨hfirst, hkept⟩
      fun result hresult y hy => ⟨?_, fun k hk =>
        contains_mergeAlone_of_contains (hresult.2 k hk) y⟩).1
  unfold mergeAlone
  split
  · exact hresult.1
  · next hfree =>
    exact hresult.1.insert (habsent y (.inr ⟨hy, Bool.eq_false_iff.2 fun hcontains =>
      hfree (hresult.2 y.1 hcontains)⟩))

end Observed

variable (hkeys : InstanceKey.JoinOn known) (hjoin : AbstractValue.JoinOn valid)
variable (habsent : ∀ k v, valid v → valid (absent k v))
variable (henv : env.Within known valid) (hother : other.Within known valid)
include hkeys hjoin henv hother

/-- If a pair lands on a key of the first side, then so does a pair with the binding of that key. -/
theorem Lands.of_left {k : K} (hk : known k) {u v : V} (h : Lands env other k v)
    (hu : env.get? k = some u) :
    ∃ w, Lands env other k w ∧ AbstractValue.subset u w = true := by
  obtain ⟨x, hx, y, hy, hfamily, hlanding, -⟩ := h
  obtain ⟨k', hsame, hmem⟩ := env.get?_eq_some_iff.1 hu
  have hx' := (henv.entry hx).1
  have hy' := (hother.entry hy)
  obtain ⟨hfamily', hlanding'⟩ := hkeys.absorb_left hx' hy'.1 hk hfamily hlanding
  have hk' := (henv.entry hmem)
  refine ⟨AbstractValue.merge u y.2, ⟨(k', u), hmem, y, hy, ?_, ?_, rfl⟩,
    hjoin.subset_merge_left hk'.2 hy'.2⟩
  · rw [hkeys.family_congr hsame (Key.same_refl y.1)]
    exact hfamily'
  · exact Key.same_trans (hkeys.landing_congr hk'.1 hk hy'.1 hy'.1 hsame (Key.same_refl y.1))
      hlanding'

theorem Lands.of_right {k : K} (hk : known k) {u v : V} (h : Lands env other k v)
    (hu : other.get? k = some u) :
    ∃ w, Lands env other k w ∧ AbstractValue.subset u w = true := by
  obtain ⟨x, hx, y, hy, hfamily, hlanding, -⟩ := h
  obtain ⟨k', hsame, hmem⟩ := other.get?_eq_some_iff.1 hu
  have hx' := (henv.entry hx)
  have hy' := (hother.entry hy).1
  obtain ⟨hfamily', hlanding'⟩ := hkeys.absorb_right hx'.1 hy' hk hfamily hlanding
  have hk' := (hother.entry hmem)
  refine ⟨AbstractValue.merge x.2 u, ⟨x, hx, (k', u), hmem, ?_, ?_, rfl⟩,
    hjoin.subset_merge_right hx'.2 hk'.2⟩
  · rw [hkeys.family_congr (Key.same_refl x.1) hsame]
    exact hfamily'
  · exact Key.same_trans (hkeys.landing_congr hx'.1 hx'.1 hk'.1 hk (Key.same_refl x.1) hsame)
      hlanding'

omit hjoin [DecidableEq V] in
theorem lands_of_both {k : K} (hk : known k) {u w : V} (hu : env.get? k = some u)
    (hw : other.get? k = some w) : Lands env other k (AbstractValue.merge u w) := by
  obtain ⟨x, hxsame, hx⟩ := env.get?_eq_some_iff.1 hu
  obtain ⟨y, hysame, hy⟩ := other.get?_eq_some_iff.1 hw
  obtain ⟨hfamily, hlanding⟩ := hkeys.landing_self hk
  refine ⟨(x, u), hx, (y, w), hy, ?_, ?_, rfl⟩
  · rw [hkeys.family_congr hxsame hysame]
    exact hfamily
  · exact Key.same_trans
      (hkeys.landing_congr (henv.entry hx).1 hk (hother.entry hy).1 hk hxsame hysame) hlanding

omit hjoin in
/-- The value of a key of one side on which no pair lands. -/
theorem get?_mergeWith_of_not_lands
    (habsent' : ∀ {k k'} v, known k → known k' → Key.same k k' = true → absent k v = absent k' v)
    {k : K} (hk : known k) (hlands : ∀ v, ¬Lands env other k v) {u v : V}
    (hu : env.get? k = some u ∨ other.get? k = some u)
    (hv : (env.mergeWith other absent).get? k = some v) : v = absent k u := by
  refine get?_mergeWith_of_alone hlands (fun x hx hsame => ?_) v hv
  have hx' : known x.1 := by
    rcases hx with hx | hx
    · exact (henv.entry hx).1
    · exact (hother.entry hx).1
  have hstored : env.get? k = some x.2 ∨ other.get? k = some x.2 := by
    rw [← env.get?_congr hsame, ← other.get?_congr hsame]
    exact hx.imp env.get?_eq_some_of_mem other.get?_eq_some_of_mem
  have hvalue : x.2 = u := by
    rcases hstored with h | h <;> rcases hu with hu | hu
    · exact Option.some.inj (h.symm.trans hu)
    · exact absurd (lands_of_both hkeys henv hother hk h hu) (hlands _)
    · exact absurd (lands_of_both hkeys henv hother hk hu h) (hlands _)
    · exact Option.some.inj (h.symm.trans hu)
  rw [habsent' x.2 hx' hk hsame, hvalue]

omit hkeys in
include habsent in
/-- The value of a key is above what the pairs merge to that land on it, unless the key is not bound
and nothing would be known about it. -/
theorem le_get?_mergeWith {k : K} {v : V} (h : Lands env other k v)
    (hbound : env.contains k = true ∨ other.contains k = true ∨ v ≠ AbstractValue.unknown) :
    ∃ w, (env.mergeWith other absent).get? k = some w ∧ AbstractValue.subset v w = true := by
  obtain ⟨x, hx, y, hy, hfamily, hlanding, rfl⟩ := h
  have hcontains : ∀ env : Environment K V, env.contains (landing x.1 y.1) = env.contains k := by
    intro env
    unfold contains
    rw [env.get?_congr hlanding]
  rw [← get?_congr _ hlanding]
  refine get?_mergeWith_of_pair henv.values hother.values hjoin habsent hx hy hfamily (.inr ?_)
  rw [hcontains, hcontains]
  exact hbound

include hkeys habsent in
/-- The value of a key on which some pair lands is above its values on both sides. -/
theorem subset_get?_mergeWith_of_lands {k : K} (hk : known k) {v : V} (hlands : Lands env other k v)
    {u : V} (hu : env.get? k = some u ∨ other.get? k = some u) :
    ∃ w, (env.mergeWith other absent).get? k = some w ∧ AbstractValue.subset u w = true := by
  obtain ⟨v, hv, huv⟩ : ∃ v, Lands env other k v ∧ AbstractValue.subset u v = true := by
    rcases hu with hu | hu
    · exact hlands.of_left hkeys hjoin henv hother hk hu
    · exact hlands.of_right hkeys hjoin henv hother hk hu
  have hbound : env.contains k = true ∨ other.contains k = true :=
    hu.imp env.contains_of_get? other.contains_of_get?
  obtain ⟨w, hw, hvw⟩ := le_get?_mergeWith hjoin habsent henv hother hv (hbound.imp_right .inl)
  have hvalid : valid u := hu.elim (henv.values k u) (hother.values k u)
  have hwvalid := (henv.mergeWith hkeys hjoin habsent hother).values k w hw
  obtain ⟨x, hx, y, hy, -, -, rfl⟩ := hv
  have hvvalid := hjoin.merge (henv.entry hx).2 (hother.entry hy).2
  exact ⟨w, hw, hjoin.subset_trans hvalid hvvalid hwvalid huv hvw⟩

include hkeys habsent in
/-- The value of a key is above its values on both sides, if nothing is known about it where it was
not observed. -/
theorem subset_get?_mergeWith {k : K} (hk : known k) {u : V}
    (hu : env.get? k = some u ∨ other.get? k = some u)
    (hunobserved : ∀ x, x ∈ env.entries ∨ x ∈ other.entries → Key.same x.1 k = true →
      absent x.1 x.2 = AbstractValue.unknown) :
    ∃ w, (env.mergeWith other absent).get? k = some w ∧ AbstractValue.subset u w = true := by
  by_cases hlands : ∃ v, Lands env other k v
  · obtain ⟨v, hv⟩ := hlands
    exact subset_get?_mergeWith_of_lands hkeys hjoin habsent henv hother hk hv hu
  · have hcontains : (env.mergeWith other absent).contains k = true :=
      contains_mergeWith (hu.imp env.contains_of_get? other.contains_of_get?)
    obtain ⟨w, hw⟩ := Option.isSome_iff_exists.1 hcontains
    obtain rfl := get?_mergeWith_of_alone (fun v hv => hlands ⟨v, hv⟩) hunobserved w hw
    exact ⟨_, hw, hjoin.subset_unknown (hu.elim (henv.values k u) (hother.values k u))⟩

/-- The bindings of a merge so far are valid, and the value of the key is below the given one. -/
def BoundedAt (valid : V → Prop) (k : K) (bound : V) (result : Environment K V) : Prop :=
  result.AllValid valid ∧ ∀ v, result.get? k = some v → AbstractValue.subset v bound = true

theorem BoundedAt.mergePair {k : K} {bound : V} (hk : known k) (hbound : valid bound)
    (hle : ∀ v, Lands env other k v → AbstractValue.subset v bound = true)
    {result : Environment K V} (h : BoundedAt valid k bound result) {x y : K × V}
    (hx : x ∈ env.entries) (hy : y ∈ other.entries)
    (hfamily : InstanceKey.sameFamily x.1 y.1 = true) :
    BoundedAt valid k bound (mergePair env other result x y) := by
  have hmerged : valid (AbstractValue.merge x.2 y.2) :=
    hjoin.merge (henv.entry hx).2 (hother.entry hy).2
  by_cases hlanding : Key.same (landing x.1 y.1) k = true
  · have hlands : Lands env other k (AbstractValue.merge x.2 y.2) :=
      ⟨x, hx, y, hy, hfamily, hlanding, rfl⟩
    -- What was bound before is below what some pair merges to that lands on the key.
    have hcovered : ∀ {v w}, valid v → Lands env other k w → AbstractValue.subset v w = true →
        AbstractValue.subset v bound = true := by
      intro v w hv hw hvw
      have hle := hle w hw
      obtain ⟨x, hx, y, hy, -, -, rfl⟩ := hw
      exact hjoin.subset_trans hv (hjoin.merge (henv.entry hx).2 (hother.entry hy).2) hbound hvw hle
    have hbefore : ∀ v ∈ boundBefore env other result x.1 y.1,
        AbstractValue.subset v bound = true := by
      intro v hv
      rw [mem_boundBefore_iff, result.get?_congr hlanding, env.get?_congr hlanding,
        other.get?_congr hlanding] at hv
      rcases hv with hv | ⟨-, hv | hv⟩
      · exact h.2 v hv
      · obtain ⟨w, hw, hvw⟩ := hlands.of_left hkeys hjoin henv hother hk hv
        exact hcovered (henv.values k v hv) hw hvw
      · obtain ⟨w, hw, hvw⟩ := hlands.of_right hkeys hjoin henv hother hk hv
        exact hcovered (hother.values k v hv) hw hvw
    have hvalid : ∀ v ∈ boundBefore env other result x.1 y.1, valid v := fun v hv =>
      valid_of_mem_boundBefore henv.values hother.values h.1 hv
    rw [mergePair_eq]
    split
    · exact h
    · refine ⟨h.1.insert _ (hjoin.valid_foldl hmerged hvalid), fun v hv => ?_⟩
      rw [get?_insert, if_pos hlanding] at hv
      obtain rfl := Option.some.inj hv
      exact hjoin.foldl_subset hmerged hvalid hbound (hle _ hlands) hbefore
  · refine ⟨?_, fun v hv => ?_⟩
    · rw [mergePair_eq]
      split
      · exact h.1
      · exact h.1.insert _ (subset_pairValue henv.values hother.values hjoin h.1 hx hy).1
    · rw [get?_mergePair_of_not_lands result (Bool.eq_false_iff.2 hlanding)] at hv
      exact h.2 v hv

include habsent in
theorem BoundedAt.mergeEntry {k : K} {bound : V} (hk : known k) (hbound : valid bound)
    (hcontains : env.contains k = true ∨ other.contains k = true)
    (hlands : ∃ v, Lands env other k v)
    (hle : ∀ v, Lands env other k v → AbstractValue.subset v bound = true)
    {result : Environment K V} (h : BoundedAt valid k bound result) {x : K × V}
    (hx : x ∈ env.entries) :
    BoundedAt valid k bound (mergeEntry env other absent result x) := by
  let pairs := (other.entries.filter fun y => InstanceKey.sameFamily x.1 y.1).foldl
    (fun result y => Environment.mergePair env other result x y) result
  have hpairs : BoundedAt valid k bound pairs := by
    refine List.foldlRecOn (motive := BoundedAt valid k bound) _ _ h fun result hresult y hy => ?_
    obtain ⟨hy, hfamily⟩ := List.mem_filter.1 hy
    exact hresult.mergePair hkeys hjoin henv hother hk hbound hle hx hy hfamily
  -- By the time that the binding of the key itself is taken up, a pair has landed on the key.
  have hbefore : Key.same x.1 k = true → pairs.contains k = true := by
    intro hsame
    obtain ⟨v, z, hz, y, hy, hfamily, hlanding, -⟩ := hlands
    have hy' := (hother.entry hy).1
    obtain ⟨hfamily', hlanding'⟩ := hkeys.absorb_left (henv.entry hz).1 hy' hk hfamily hlanding
    have hfamily : InstanceKey.sameFamily x.1 y.1 = true := by
      rw [hkeys.family_congr hsame (Key.same_refl y.1)]
      exact hfamily'
    refine contains_foldl_mergePair hcontains result hy hfamily ?_
    exact Key.same_trans (hkeys.landing_congr (henv.entry hx).1 hk hy' hy' hsame
      (Key.same_refl y.1)) hlanding'
  refine ⟨allValid_step henv.values hother.values hjoin habsent hpairs.1
    (alone_mem_mergeSteps.2 (.inl hx)), fun v hv => ?_⟩
  have hv : (mergeAlone absent pairs x).get? k = some v := hv
  rw [get?_mergeAlone pairs hbefore] at hv
  exact hpairs.2 v hv

include habsent in
/-- If some pair lands on a key of one of the sides, then the value of the key is below whatever is
above all that the pairs merge to that land on it. -/
theorem get?_mergeWith_le {k : K} {bound : V} (hk : known k) (hbound : valid bound)
    (hcontains : env.contains k = true ∨ other.contains k = true)
    (hlands : ∃ v, Lands env other k v)
    (hle : ∀ v, Lands env other k v → AbstractValue.subset v bound = true) {v : V}
    (hv : (env.mergeWith other absent).get? k = some v) : AbstractValue.subset v bound = true := by
  have hempty : (empty : Environment K V).Within known valid := within_empty
  have hstart : BoundedAt valid k bound (empty : Environment K V) := ⟨hempty.values, by simp⟩
  have hfirst : BoundedAt valid k bound
      (env.entries.foldl (mergeEntry env other absent) empty) := by
    refine List.foldlRecOn (motive := BoundedAt valid k bound) _ _ hstart fun result h x hx => ?_
    exact h.mergeEntry hkeys hjoin habsent henv hother hk hbound hcontains hlands hle hx
  have hcontained :
      (env.entries.foldl (mergeEntry env other absent) empty).contains k = true := by
    obtain ⟨w, x, hx, y, hy, hfamily, hlanding, -⟩ := hlands
    exact contains_foldl_mergeEntry hx fun result => contains_mergeAlone_of_contains
      (contains_foldl_mergePair hcontains _ hy hfamily hlanding) x
  -- The bindings of the second side are passed over where a pair has landed.
  have hlast : (env.mergeWith other absent).get? k =
      (env.entries.foldl (mergeEntry env other absent) empty).get? k := by
    refine List.foldlRecOn (motive := fun result => Environment.get? result k =
      (env.entries.foldl (mergeEntry env other absent) empty).get? k) other.entries _ rfl
      fun result hresult y _ => ?_
    rw [get?_mergeAlone result fun _ => by rwa [contains, hresult], hresult]
  rw [hlast] at hv
  exact hfirst.2 v hv

/-! ## Merges of the same bindings -/

variable {env' other' : Environment K V}
variable (henv' : env'.Within known valid) (hother' : other'.Within known valid)
include henv' hother'

include habsent in
/-- The value of a key of one of the sides is below its value in a merge of the same. -/
theorem MergeAlike.subset {k : K} (h : MergeAlike env other env' other' k) (hk : known k)
    (hcontains : env.contains k = true ∨ other.contains k = true)
    (hlands : ∃ v, Lands env other k v) {v w : V}
    (hv : (env.mergeWith other absent).get? k = some v)
    (hw : (env'.mergeWith other' absent).get? k = some w) : AbstractValue.subset v w = true := by
  have hvalid := (henv'.mergeWith hkeys hjoin habsent hother').values k w hw
  refine get?_mergeWith_le hkeys hjoin habsent henv hother hk hvalid hcontains hlands
    (fun u hu => ?_) hv
  obtain ⟨w', hw', hle⟩ := le_get?_mergeWith hjoin habsent henv' hother' ((h.lands u).1 hu)
    ((h.contains.1 hcontains).imp_right Or.inl)
  rw [hw] at hw'
  obtain rfl := Option.some.inj hw'
  exact hle

include habsent in
/-- A merge binds a key of one of the sides to what any other merge of the same binds it to. -/
theorem MergeAlike.get?_mergeWith
    (habsent' : ∀ {k k'} v, known k → known k' → Key.same k k' = true → absent k v = absent k' v)
    {k : K} (h : MergeAlike env other env' other' k) (hk : known k)
    (hcontains : env.contains k = true ∨ other.contains k = true) :
    (env.mergeWith other absent).get? k = (env'.mergeWith other' absent).get? k := by
  have hcontains' := h.contains.1 hcontains
  have hmerge : (env.mergeWith other absent).contains k = true := contains_mergeWith hcontains
  have hmerge' : (env'.mergeWith other' absent).contains k = true := contains_mergeWith hcontains'
  obtain ⟨v, hv⟩ := Option.isSome_iff_exists.1 hmerge
  obtain ⟨w, hw⟩ := Option.isSome_iff_exists.1 hmerge'
  rw [hv, hw]
  congr 1
  by_cases hlands : ∃ u, Lands env other k u
  · -- Both values are the least one above what the pairs merge to.
    have hle := h.subset hkeys hjoin habsent henv hother henv' hother' hk hcontains hlands hv hw
    have hge := h.symm.subset hkeys hjoin habsent henv' hother' henv hother hk hcontains'
      (hlands.imp fun u => (h.lands u).1) hw hv
    have hvalid := (henv.mergeWith hkeys hjoin habsent hother).values k v hv
    have hvalid' := (henv'.mergeWith hkeys hjoin habsent hother').values k w hw
    exact hjoin.subset_antisymm hvalid hvalid' hle hge
  · obtain ⟨u, hu⟩ : ∃ u, env.get? k = some u ∨ other.get? k = some u := by
      rcases hcontains with h | h
      · exact (Option.isSome_iff_exists.1 h).imp fun _ => .inl
      · exact (Option.isSome_iff_exists.1 h).imp fun _ => .inr
    have hnone : ∀ u, ¬Lands env other k u := fun u hu => hlands ⟨u, hu⟩
    rw [get?_mergeWith_of_not_lands hkeys henv hother habsent' hk hnone hu hv,
      get?_mergeWith_of_not_lands hkeys henv' hother' habsent' hk
        (fun u hu => hnone u ((h.lands u).2 hu)) ((h.bound u).1 hu) hw]

variable (hsame : SameBindings env env') (hsame' : SameBindings other other')
include hsame hsame'

omit hjoin [DecidableEq V] in
theorem Lands.congr {k : K} {v : V} (h : Lands env other k v) : Lands env' other' k v := by
  obtain ⟨x, hx, y, hy, hfamily, hlanding, rfl⟩ := h
  obtain ⟨x', hx', hxsame, hxvalue⟩ := hsame.exists_entry hx
  obtain ⟨y', hy', hysame, hyvalue⟩ := hsame'.exists_entry hy
  refine ⟨x', hx', y', hy', ?_, ?_, by rw [hxvalue, hyvalue]⟩
  · rw [← hkeys.family_congr hxsame hysame]
    exact hfamily
  · refine Key.same_trans (Key.same_symm ?_) hlanding
    exact hkeys.landing_congr (henv.entry hx).1 (henv'.entry hx').1 (hother.entry hy).1
      (hother'.entry hy').1 hxsame hysame

omit hjoin [DecidableEq V] in
theorem SameBindings.mergeAlike (k : K) : MergeAlike env other env' other' k where
  bound u := by rw [hsame k, hsame' k]
  lands _ := ⟨fun h => h.congr hkeys henv hother henv' hother' hsame hsame',
    fun h => h.congr hkeys henv' hother' henv hother hsame.symm hsame'.symm⟩

include habsent in
/-- **Merges that add no keys to one of the sides depend only on the bindings.** -/
theorem SameBindings.mergeWith
    (habsent' : ∀ {k k'} v, known k → known k' → Key.same k k' = true → absent k v = absent k' v)
    (hadds : (∀ k, (env.mergeWith other absent).contains k = true → env.contains k = true) ∨
      ∀ k, (env.mergeWith other absent).contains k = true → other.contains k = true) :
    SameBindings (env.mergeWith other absent) (env'.mergeWith other' absent) := by
  have hmerged := henv.mergeWith hkeys hjoin habsent hother
  have hmerged' := henv'.mergeWith hkeys hjoin habsent hother'
  refine sameBindings_of_known hmerged.keys hmerged'.keys fun k hk => ?_
  have halike := SameBindings.mergeAlike hkeys henv hother henv' hother' hsame hsame' k
  by_cases hcontains : env.contains k = true ∨ other.contains k = true
  · exact halike.get?_mergeWith hkeys hjoin habsent henv hother henv' hother' habsent' hk hcontains
  · have hnone : (env.mergeWith other absent).get? k = none := by
      refine Option.not_isSome_iff_eq_none.1 fun hbound => hcontains ?_
      exact hadds.imp (fun h => h k hbound) fun h => h k hbound
    have hfree : env'.contains k = false ∧ other'.contains k = false := by
      rw [hsame.contains, hsame'.contains, not_or, Bool.not_eq_true, Bool.not_eq_true] at hcontains
      exact hcontains
    rw [hnone, get?_mergeWith_eq_none hfree.1 hfree.2 fun v hlands => ?_]
    refine Classical.byContradiction fun hknown => ?_
    obtain ⟨w, hw, -⟩ := le_get?_mergeWith hjoin habsent henv hother ((halike.lands v).2 hlands)
      (.inr (.inr hknown))
    rw [hnone] at hw
    cases hw

end Merge

/-! ## Widening -/

section Widen

variable {K V : Type} [InstanceKey K] [DecidableEq V] [AbstractValue V]
variable {env previous : Environment K V} {absent : K → V → V}
variable {known : K → Prop} {valid : V → Prop}

/-- The value to which a previous value is widened. -/
def widenFrom (old? : Option V) (value : V) : V :=
  match old? with
  | some old => if old = value then value else AbstractValue.widen value old
  | none => value

theorem get?_widenWith (k : K) : (env.widenWith previous absent).get? k =
    ((previous.mergeWith env absent).get? k).map (widenFrom (previous.get? k)) := by
  obtain ⟨k', hsame, heq⟩ := (previous.mergeWith env absent).get?_mapValues
    (fun k v => widenFrom (previous.get? k) v) k
  rw [previous.get?_congr hsame] at heq
  exact heq

theorem contains_widenWith {k : K} (h : env.contains k = true ∨ previous.contains k = true) :
    (env.widenWith previous absent).contains k = true := by
  rw [contains, get?_widenWith, Option.isSome_map]
  exact contains_mergeWith h.symm

/-- Widening keeps a condition on the bindings if merging does. -/
theorem EachBinding.widenWith_of_merge {P : K → V → Prop}
    (hmerge : (previous.mergeWith env absent).EachBinding P)
    (hwiden : ∀ {k k' v old}, P k v → P k' old → Key.same k' k = true →
      P k (AbstractValue.widen v old)) (hprevious : previous.EachBinding P) :
    (env.widenWith previous absent).EachBinding P := by
  refine EachBinding.mapValues hmerge fun k v hv => ?_
  cases hold : previous.get? k with
  | none => exact hv
  | some old =>
    obtain ⟨k', hsame, hk'⟩ := hprevious.exists_key hold
    by_cases heq : old = v
    · simpa [heq] using hv
    · simpa [heq] using hwiden hv hk' hsame

theorem EachBinding.widenWith {P : K → V → Prop} (hP : MergeClosed P absent)
    (hwiden : ∀ {k k' v old}, P k v → P k' old → Key.same k' k = true →
      P k (AbstractValue.widen v old))
    (henv : env.EachBinding P) (hprevious : previous.EachBinding P) :
    (env.widenWith previous absent).EachBinding P :=
  (hprevious.mergeWith hP henv).widenWith_of_merge hwiden hprevious

theorem Within.widenWith (hkeys : InstanceKey.JoinOn known) (hjoin : AbstractValue.JoinOn valid)
    (habsent : ∀ k v, valid v → valid (absent k v))
    (hwiden : ∀ {v old}, valid v → valid old → valid (AbstractValue.widen v old))
    (henv : env.Within known valid) (hprevious : previous.Within known valid) :
    (env.widenWith previous absent).Within known valid :=
  within_iff.2 ((within_iff.1 henv).widenWith (mergeClosed_within hkeys hjoin habsent)
    (fun hk hk' _ => ⟨hk.1, hwiden hk.2 hk'.2⟩) (within_iff.1 hprevious))

end Widen

end Environment
end HeapFlow
