import HeapFlow.Proofs.Interpreter.Invariant

/-! # Alternatives

Conditionals, coalescing operations and short-circuit operators leave out some of their parts: of
two paths through such an operation, control takes one (`Analysis.Fork`).  The two paths share the
evaluation of what decides between them, and the states at their ends are merged
(`Analysis.data_evaluate_of_fork`).  So are the values that they come to, if the operation has the
value of the alternative that was taken (`Analysis.value_evaluate_of_fork`).
-/
namespace HeapFlow
namespace Analysis

variable {V D : Type}

/-- The two paths through an operation, of which control takes one. -/
structure Fork (V D : Type) where
  /-- The machine at the end of the first path. -/
  first : Machine V D
  /-- The machine at the end of the second path. -/
  second : Machine V D
  /-- The values at the ends of the paths, if the operation has one of them as its value. -/
  values? : Option (V × V)

variable [AbstractValue V] [EntityState D V] (A : Analysis V D)

/-- The paths through an operation that may leave out a part: through the condition and one of the
alternatives, or through the first operand alone and through both operands.  A conditional may lack
the second alternative. -/
def fork? (operation : Operation) (m : Machine V D) : Option (Fork V D) :=
  match operation.form with
  | .conditional condition whenTrue whenFalse? =>
    let tested := (outcome (A.evaluate condition) m).2
    let taken := outcome (A.evaluate whenTrue) tested
    let restored : Machine V D := { taken.2 with data := tested.data }
    match whenFalse? with
    | none => some ⟨taken.2, restored, none⟩
    | some whenFalse =>
      let other := outcome (A.evaluate whenFalse) restored
      some ⟨taken.2, other.2, some (taken.1, other.1)⟩
  | .coalesce first whenNull =>
    let known := outcome (A.evaluate first) m
    let replaced := outcome (A.evaluate whenNull) known.2
    some ⟨known.2, replaced.2, some (known.1, replaced.1)⟩
  | .binary operator left right =>
    let decided := (outcome (A.evaluate left) m).2
    if operator.isShortCircuit then some ⟨decided, (outcome (A.evaluate right) decided).2, none⟩
    else none
  | _ => none

variable {A} {operation : Operation} {m : Machine V D} {fork : Fork V D}

/-- **The states at the ends of the paths are merged.** -/
theorem data_evaluate_of_fork (h : A.fork? operation m = some fork) :
    (outcome (A.evaluate operation) m).2.data = A.mergeData fork.first.data fork.second.data := by
  have hsettle : (outcome (A.evaluate operation) m).2.data =
      (outcome (A.evaluateForm operation operation.form) m).2.data := by
    rw [evaluate_eq]
    rfl
  rw [hsettle]
  unfold fork? at h
  split at h
  · next condition whenTrue whenFalse? hform =>
    cases whenFalse? with
    | none | some whenFalse =>
      obtain rfl := Option.some.inj h
      rw [hform, evaluateForm]
      rfl
  · next first whenNull hform =>
    obtain rfl := Option.some.inj h
    rw [hform, evaluateForm]
    rfl
  · next operator left right hform =>
    split at h
    · next hoperator =>
      obtain rfl := Option.some.inj h
      rw [hform, evaluateForm]
      simp only [hoperator, if_true]
      rfl
    · cases h
  · cases h

/-- **The values at the ends of the paths are merged** before the value is settled. -/
theorem value_evaluate_of_fork (h : A.fork? operation m = some fork) {v w : V}
    (hvalues : fork.values? = some (v, w)) :
    ∃ f, (outcome (A.evaluate operation) m).1 =
      A.finalValue f operation (AbstractValue.merge v w) := by
  rw [evaluate_eq]
  unfold fork? at h
  split at h
  · next condition whenTrue whenFalse? hform =>
    cases whenFalse? with
    | none =>
      obtain rfl := Option.some.inj h
      cases hvalues
    | some whenFalse =>
      obtain rfl := Option.some.inj h
      obtain ⟨rfl, rfl⟩ := Prod.mk.inj (Option.some.inj hvalues)
      rw [hform, evaluateForm]
      exact ⟨_, rfl⟩
  · next first whenNull hform =>
    obtain rfl := Option.some.inj h
    obtain ⟨rfl, rfl⟩ := Prod.mk.inj (Option.some.inj hvalues)
    rw [hform, evaluateForm]
    exact ⟨_, rfl⟩
  · split at h
    · obtain rfl := Option.some.inj h
      cases hvalues
    · cases h
  · cases h

/-- An invariant of the machine from which the operation is evaluated holds at the ends of both
paths. -/
theorem holds_of_fork {I : Invariant V D} (hA : A.Maintains I) (hoperation : I.operation operation)
    (hm : I.Holds m.toFrame) (h : A.fork? operation m = some fork) :
    I.Holds fork.first.toFrame ∧ I.Holds fork.second.toFrame ∧
      ∀ v w, fork.values? = some (v, w) → I.value v ∧ I.value w := by
  have hpart : ∀ part ∈ operation.form.children, ∀ n : Machine V D, I.Holds n.toFrame →
      I.value (outcome (A.evaluate part) n).1 ∧
        I.Holds (outcome (A.evaluate part) n).2.toFrame := fun part hmem n hn =>
    have hevaluated := preserves_evaluate hA (I.part hoperation part hmem) n hn
    ⟨I.value_of_given hevaluated.1, hevaluated.2⟩
  unfold fork? at h
  split at h
  · next condition whenTrue whenFalse? hform =>
    rw [hform] at hpart
    have htested := (hpart condition (by simp [Form.children]) m hm).2
    obtain ⟨hvalue, htaken⟩ := hpart whenTrue (by simp [Form.children]) _ htested
    have hrestored := htaken.withData htested.state
    cases whenFalse? with
    | none =>
      obtain rfl := Option.some.inj h
      exact ⟨htaken, hrestored, fun _ _ hvalues => by cases hvalues⟩
    | some whenFalse =>
      obtain rfl := Option.some.inj h
      obtain ⟨hvalue', hother⟩ := hpart whenFalse (by simp [Form.children]) { (outcome
        (A.evaluate whenTrue) (outcome (A.evaluate condition) m).2).2 with data := _ } hrestored
      refine ⟨htaken, hother, fun v w hvalues => ?_⟩
      obtain ⟨rfl, rfl⟩ := Prod.mk.inj (Option.some.inj hvalues)
      exact ⟨hvalue, hvalue'⟩
  · next first whenNull hform =>
    rw [hform] at hpart
    obtain rfl := Option.some.inj h
    obtain ⟨hvalue, hknown⟩ := hpart first (by simp [Form.children]) m hm
    obtain ⟨hvalue', hreplaced⟩ := hpart whenNull (by simp [Form.children]) _ hknown
    refine ⟨hknown, hreplaced, fun v w hvalues => ?_⟩
    obtain ⟨rfl, rfl⟩ := Prod.mk.inj (Option.some.inj hvalues)
    exact ⟨hvalue, hvalue'⟩
  · next operator left right hform =>
    rw [hform] at hpart
    split at h
    · obtain rfl := Option.some.inj h
      have hdecided := (hpart left (by simp [Form.children]) m hm).2
      have hboth := (hpart right (by simp [Form.children]) _ hdecided).2
      exact ⟨hdecided, hboth, fun _ _ hvalues => by cases hvalues⟩
    · cases h
  · cases h

end Analysis
end HeapFlow
