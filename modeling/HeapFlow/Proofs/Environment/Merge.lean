import HeapFlow.Proofs.Domain.Join
import HeapFlow.Proofs.Environment.Lookup

/-! # What the merge of two environments binds

A merge takes up, one after the other, the pairs of bindings of one family and the bindings of both
sides (`Environment.mergeSteps`).  A pair lands on the key of its instance, or on the key of the
merged instance (`Environment.landing`).  It adds to what this key is bound to already, or else it
is passed over because nothing would be known about the key anyway (`Environment.mergePair_eq`).

So the value of a key never becomes more precise from one step to the next, and a key that a pair
lands on is bound to a value above what the pair merges to (`Environment.get?_mergeWith_of_pair`)
unless the pair is passed over.
-/
namespace HeapFlow
namespace Environment

variable {K V : Type} [InstanceKey K]

/-- The key that a binding of each side gives rise to. -/
def landing (k l : K) : K :=
  if InstanceKey.sameInstance k l then k else InstanceKey.withMergedInstance k l

/-- A step of a merge: it takes up a binding of each side, or a single binding. -/
inductive MergeStep (K V : Type) where
  | pair (x y : K × V)
  | alone (x : K × V)

/-- The steps of a merge, in order. -/
def mergeSteps (env other : Environment K V) : List (MergeStep K V) :=
  (env.entries.flatMap fun x =>
    (other.entries.filter fun y => InstanceKey.sameFamily x.1 y.1).map (.pair x) ++ [.alone x]) ++
      other.entries.map .alone

theorem pair_mem_mergeSteps {env other : Environment K V} {x y : K × V} :
    .pair x y ∈ mergeSteps env other ↔
      x ∈ env.entries ∧ y ∈ other.entries ∧ InstanceKey.sameFamily x.1 y.1 = true := by
  simp only [mergeSteps, List.mem_append, List.mem_flatMap, List.mem_map, List.mem_filter,
    List.mem_singleton, MergeStep.pair.injEq, reduceCtorEq, and_false, exists_false, or_false]
  constructor
  · rintro ⟨x', hx, y', ⟨hy, hfamily⟩, rfl, rfl⟩
    exact ⟨hx, hy, hfamily⟩
  · rintro ⟨hx, hy, hfamily⟩
    exact ⟨x, hx, y, ⟨hy, hfamily⟩, rfl, rfl⟩

theorem alone_mem_mergeSteps {env other : Environment K V} {x : K × V} :
    .alone x ∈ mergeSteps env other ↔ x ∈ env.entries ∨ x ∈ other.entries := by
  simp [mergeSteps]

variable [DecidableEq V] [AbstractValue V]

section Steps

variable (env other : Environment K V) (absent : K → V → V)

/-- The result of a merge after one more step. -/
def MergeStep.apply (result : Environment K V) : MergeStep K V → Environment K V
  | .pair x y => mergePair env other result x y
  | .alone x => mergeAlone absent result x

theorem mergeWith_eq_foldl :
    env.mergeWith other absent =
      (mergeSteps env other).foldl (MergeStep.apply env other absent) empty := by
  simp only [mergeSteps, List.foldl_append, List.foldl_flatMap, List.foldl_map, List.foldl_cons,
    List.foldl_nil]
  rfl

/-- What holds at the start and is preserved by every step holds of the merge. -/
theorem mergeWith_induction {P : Environment K V → Prop} (hempty : P empty)
    (hstep : ∀ step ∈ mergeSteps env other, ∀ result, P result →
      P (step.apply env other absent result)) : P (env.mergeWith other absent) := by
  rw [mergeWith_eq_foldl]
  exact List.foldlRecOn _ _ hempty fun result hresult step hmem => hstep step hmem result hresult

/-- What one of the steps brings about and every step preserves holds of the merge. -/
theorem mergeWith_of_step {P Q : Environment K V → Prop} (hempty : P empty)
    (hP : ∀ step ∈ mergeSteps env other, ∀ result, P result →
      P (step.apply env other absent result))
    {made : MergeStep K V} (hmade : made ∈ mergeSteps env other)
    (hmake : ∀ result, P result → Q (made.apply env other absent result))
    (hQ : ∀ step ∈ mergeSteps env other, ∀ result, Q result →
      Q (step.apply env other absent result)) : Q (env.mergeWith other absent) := by
  obtain ⟨before, after, hsteps⟩ := List.append_of_mem hmade
  have hbefore : ∀ step ∈ before, step ∈ mergeSteps env other := by
    intro step hstep
    rw [hsteps]
    exact List.mem_append_left _ hstep
  have hafter : ∀ step ∈ after, step ∈ mergeSteps env other := by
    intro step hstep
    rw [hsteps]
    exact List.mem_append_right _ (List.mem_cons_of_mem made hstep)
  rw [mergeWith_eq_foldl, hsteps, List.foldl_append, List.foldl_cons]
  refine List.foldlRecOn _ _ (hmake _ ?_) fun result hresult step hmem =>
    hQ step (hafter step hmem) result hresult
  exact List.foldlRecOn _ _ hempty fun result hresult step hmem =>
    hP step (hbefore step hmem) result hresult

/-- The values that the key on which a pair lands is bound to when the pair is taken up. -/
def boundBefore (result : Environment K V) (k l : K) : List V :=
  if InstanceKey.sameInstance k l then (result.get? (landing k l)).toList
  else
    [result.get? (landing k l), env.get? (landing k l), other.get? (landing k l)].filterMap id

/-- The value that a pair adds up to with the values that are there before. -/
def pairValue (result : Environment K V) (x y : K × V) : V :=
  (boundBefore env other result x.1 y.1).foldl AbstractValue.merge (AbstractValue.merge x.2 y.2)

/-- A pair of different instances is passed over if nothing would be known about the key on which it
lands. -/
theorem mergePair_eq (result : Environment K V) (x y : K × V) :
    mergePair env other result x y =
      if InstanceKey.sameInstance x.1 y.1 = false ∧ boundBefore env other result x.1 y.1 = [] ∧
          AbstractValue.merge x.2 y.2 = AbstractValue.unknown then result
      else result.insert (landing x.1 y.1) (pairValue env other result x y) := by
  unfold mergePair pairValue boundBefore landing
  by_cases hinstance : InstanceKey.sameInstance x.1 y.1 = true
  · simp only [hinstance, if_true]
    cases result.get? x.1 <;> simp
  · simp only [hinstance, Bool.false_eq_true, if_false]
    cases hbound : [result.get? (InstanceKey.withMergedInstance x.1 y.1),
        env.get? (InstanceKey.withMergedInstance x.1 y.1),
        other.get? (InstanceKey.withMergedInstance x.1 y.1)].filterMap id with
    | nil =>
      by_cases hunknown : AbstractValue.merge x.2 y.2 = AbstractValue.unknown
      · simp [AbstractValue.isUnknown, hunknown]
      · simp [AbstractValue.isUnknown, hunknown]
    | cons v values => simp

end Steps

/-! ## Values -/

section Values

/-- The values of all keys are valid. -/
def AllValid (valid : V → Prop) (env : Environment K V) : Prop :=
  ∀ k v, env.get? k = some v → valid v

variable {env other result : Environment K V} {absent : K → V → V} {valid : V → Prop}

omit [DecidableEq V] [AbstractValue V] in
theorem AllValid.insert (h : env.AllValid valid) (key : K) {value : V} (hvalue : valid value) :
    (env.insert key value).AllValid valid := by
  intro k v hv
  rw [get?_insert] at hv
  split at hv
  · obtain rfl := Option.some.inj hv
    exact hvalue
  · exact h k v hv

omit [DecidableEq V] [AbstractValue V] in
theorem mem_boundBefore_iff {k l : K} {v : V} :
    v ∈ boundBefore env other result k l ↔ result.get? (landing k l) = some v ∨
      InstanceKey.sameInstance k l = false ∧
        (env.get? (landing k l) = some v ∨ other.get? (landing k l) = some v) := by
  unfold boundBefore
  split
  · next hinstance => simp [hinstance]
  · next hinstance => simp [hinstance, eq_comm]

variable (henv : env.AllValid valid) (hother : other.AllValid valid)
include henv hother

omit [DecidableEq V] [AbstractValue V] in
theorem valid_of_mem_boundBefore (hresult : result.AllValid valid) {k l : K} {v : V}
    (hv : v ∈ boundBefore env other result k l) : valid v := by
  rcases mem_boundBefore_iff.1 hv with hv | ⟨-, hv | hv⟩
  · exact hresult _ v hv
  · exact henv _ v hv
  · exact hother _ v hv

variable (hjoin : AbstractValue.JoinOn valid)
include hjoin

/-- A pair adds up to a value above what it merges to and above all that was there before. -/
theorem subset_pairValue (hresult : result.AllValid valid) {x y : K × V} (hx : x ∈ env.entries)
    (hy : y ∈ other.entries) :
    valid (pairValue env other result x y) ∧ ∀ v, v = AbstractValue.merge x.2 y.2 ∨
      v ∈ boundBefore env other result x.1 y.1 →
        AbstractValue.subset v (pairValue env other result x y) = true := by
  have hmerged : valid (AbstractValue.merge x.2 y.2) :=
    hjoin.merge (henv _ _ (env.get?_eq_some_of_mem hx)) (hother _ _ (other.get?_eq_some_of_mem hy))
  have hbound : ∀ v ∈ boundBefore env other result x.1 y.1, valid v := fun v hv =>
    valid_of_mem_boundBefore henv hother hresult hv
  exact ⟨hjoin.valid_foldl hmerged hbound, fun v hv => hjoin.subset_foldl hmerged hbound hv⟩

/-- The value of a key does not become more precise from one step to the next. -/
theorem get?_step_of_covered (hresult : result.AllValid valid) {step : MergeStep K V}
    (hstep : step ∈ mergeSteps env other) {k : K} {v w : V} (hv : valid v)
    (hw : result.get? k = some w) (hvw : AbstractValue.subset v w = true) :
    ∃ w', (step.apply env other absent result).get? k = some w' ∧
      AbstractValue.subset v w' = true := by
  cases step with
  | pair x y =>
    obtain ⟨hx, hy, -⟩ := pair_mem_mergeSteps.1 hstep
    show ∃ w', (mergePair env other result x y).get? k = some w' ∧ _
    rw [mergePair_eq]
    split
    · exact ⟨w, hw, hvw⟩
    · rw [get?_insert]
      split
      · next hsame =>
        have hvalue := subset_pairValue henv hother hjoin hresult hx hy
        have hmem : w ∈ boundBefore env other result x.1 y.1 :=
          mem_boundBefore_iff.2 (.inl (by rw [result.get?_congr hsame, hw]))
        exact ⟨_, rfl, hjoin.subset_trans hv (hresult _ _ hw) hvalue.1 hvw (hvalue.2 w (.inr hmem))⟩
      · exact ⟨w, hw, hvw⟩
  | alone x =>
    show ∃ w', (mergeAlone absent result x).get? k = some w' ∧ _
    unfold mergeAlone
    split
    · exact ⟨w, hw, hvw⟩
    · next hfree =>
      have hdiffers : Key.same x.1 k = false := by
        refine Bool.eq_false_iff.2 fun hsame => hfree ?_
        rw [contains, result.get?_congr hsame, hw]
        rfl
      rw [get?_insert, hdiffers, if_neg Bool.false_ne_true]
      exact ⟨w, hw, hvw⟩

variable (habsent : ∀ k v, valid v → valid (absent k v))
include habsent

theorem allValid_step (hresult : result.AllValid valid) {step : MergeStep K V}
    (hstep : step ∈ mergeSteps env other) :
    (step.apply env other absent result).AllValid valid := by
  cases step with
  | pair x y =>
    obtain ⟨hx, hy, -⟩ := pair_mem_mergeSteps.1 hstep
    show (mergePair env other result x y).AllValid valid
    rw [mergePair_eq]
    split
    · exact hresult
    · exact hresult.insert _ (subset_pairValue henv hother hjoin hresult hx hy).1
  | alone x =>
    have hx : valid x.2 := by
      rcases alone_mem_mergeSteps.1 hstep with hx | hx
      · exact henv _ _ (env.get?_eq_some_of_mem hx)
      · exact hother _ _ (other.get?_eq_some_of_mem hx)
    show (mergeAlone absent result x).AllValid valid
    unfold mergeAlone
    split
    · exact hresult
    · exact hresult.insert _ (habsent _ _ hx)

/-- Merging environments of valid values gives an environment of valid values. -/
theorem AllValid.mergeWith : (env.mergeWith other absent).AllValid valid := by
  refine mergeWith_induction env other absent (fun k v hv => ?_) fun step hstep result hresult =>
    allValid_step henv hother hjoin habsent hresult hstep
  simp at hv

/-- The key on which a pair lands is bound to a value above what the pair merges to, unless the
pair is passed over: that can only happen to a pair of different instances that merges to the
unknown value, if neither side binds the key. -/
theorem get?_mergeWith_of_pair {x y : K × V} (hx : x ∈ env.entries) (hy : y ∈ other.entries)
    (hfamily : InstanceKey.sameFamily x.1 y.1 = true)
    (htaken : InstanceKey.sameInstance x.1 y.1 = true ∨
      env.contains (landing x.1 y.1) = true ∨ other.contains (landing x.1 y.1) = true ∨
      AbstractValue.merge x.2 y.2 ≠ AbstractValue.unknown) :
    ∃ w, (env.mergeWith other absent).get? (landing x.1 y.1) = some w ∧
      AbstractValue.subset (AbstractValue.merge x.2 y.2) w = true := by
  have hmerged : valid (AbstractValue.merge x.2 y.2) :=
    hjoin.merge (henv _ _ (env.get?_eq_some_of_mem hx)) (hother _ _ (other.get?_eq_some_of_mem hy))
  let Q := fun result : Environment K V => result.AllValid valid ∧
    ∃ w, result.get? (landing x.1 y.1) = some w ∧
      AbstractValue.subset (AbstractValue.merge x.2 y.2) w = true
  have hQ : Q (env.mergeWith other absent) := by
    refine mergeWith_of_step env other absent (P := (AllValid valid)) (fun k v hv => by simp at hv)
      (fun step hstep result hresult => allValid_step henv hother hjoin habsent hresult hstep)
      (pair_mem_mergeSteps.2 ⟨hx, hy, hfamily⟩) (fun result hresult => ⟨?_, ?_⟩) ?_
    · exact allValid_step henv hother hjoin habsent hresult
        (pair_mem_mergeSteps.2 ⟨hx, hy, hfamily⟩)
    · show ∃ w, (mergePair env other result x y).get? _ = some w ∧ _
      have hnot : ¬(InstanceKey.sameInstance x.1 y.1 = false ∧
          boundBefore env other result x.1 y.1 = [] ∧
            AbstractValue.merge x.2 y.2 = AbstractValue.unknown) := by
        rintro ⟨hinstance, hnil, hunknown⟩
        have hfree : ∀ v, v ∉ boundBefore env other result x.1 y.1 := by simp [hnil]
        rcases htaken with h | h | h | h
        · simp [hinstance] at h
        · obtain ⟨v, hv⟩ := Option.isSome_iff_exists.1 h
          exact hfree v (mem_boundBefore_iff.2 (.inr ⟨hinstance, .inl hv⟩))
        · obtain ⟨v, hv⟩ := Option.isSome_iff_exists.1 h
          exact hfree v (mem_boundBefore_iff.2 (.inr ⟨hinstance, .inr hv⟩))
        · exact h hunknown
      rw [mergePair_eq, if_neg hnot, get?_insert_self]
      exact ⟨_, rfl, (subset_pairValue henv hother hjoin hresult hx hy).2 _ (.inl rfl)⟩
    · rintro step hstep result ⟨hresult, w, hw, hsubset⟩
      exact ⟨allValid_step henv hother hjoin habsent hresult hstep,
        get?_step_of_covered henv hother hjoin hresult hstep hmerged hw hsubset⟩
  exact hQ.2

end Values
end Environment
end HeapFlow
