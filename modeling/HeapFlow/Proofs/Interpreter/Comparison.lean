import HeapFlow.Flow.Interpreter
import HeapFlow.Proofs.Interpreter.Evaluated

/-! # Comparing evaluations

The values that a machine keeps for operations are of use only for a while: the evaluation of an
operation depends on the routine, on the state, and on the values of the operations that it has
evaluated itself or that are enclosing creations.  `Agree` relates frames that differ at most in
what is left over from before, and an action is `Contained` if it keeps such frames related, comes
to the same result on them, and gives values to the listed operations only.  Contained actions
compose (`Contained.bind`).

How much of a state matters is up to a `Comparison`.  In the simplest case states are compared for
equality (`Comparison.exact`).  In general several states count as the same, and then a merge of
states need not respect this as long as it adds to them; so a `Comparison` also has an order in
which states grow, and a contained action only has to respect what counts as the same if it does not
add anything.  This is enough for a sequence of actions: if nothing is added at its end, nothing has
been added on the way.
-/
namespace HeapFlow

variable {V D : Type}

namespace Operation

/-- The declared type of the value that a call returns. -/
def resultType (operation : Operation) : StaticType :=
  match operation.form with
  | .propertyReference _ property _ => operation.type?.getD property.type
  | .invocation callee _ _ => operation.type?.getD callee.returnType
  | .dynamicInvocation _ _ => operation.type?.getD (.typeParameter "dynamic")
  | _ => operation.typeOrUnknown

/-- The local variable that an operation declares. -/
def declared? (operation : Operation) : Option Symbol :=
  match operation.form with
  | .variableDeclarator symbol _ => some symbol
  | .declarationPattern symbol? _ => symbol?
  | _ => none

end Operation

/-- What the evaluation of the operations of a routine is compared by. -/
structure Comparison (V D : Type) where
  routine : Routine
  /-- States that count as the same. -/
  same : D → D → Prop
  same_left : ∀ {a b}, same a b → same a a
  /-- The order in which states grow. -/
  below : D → D → Prop
  below_refl : ∀ a, below a a
  below_trans : ∀ {a b c}, below a b → below b c → below a c
  /-- The values that come up. -/
  value : V → Prop
  /-- The entities that are assigned to. -/
  entity : Entity → Prop
  /-- The operations that are evaluated. -/
  operation : Operation → Prop
  part : ∀ {o}, operation o → ∀ part ∈ o.children, operation part

namespace Comparison

/-- States only count as the same if they are equal. -/
def exact (routine : Routine) : Comparison V D where
  routine
  same := Eq
  same_left _ := rfl
  below _ _ := True
  below_refl _ := trivial
  below_trans _ _ := trivial
  value _ := True
  entity _ := True
  operation _ := True
  part _ _ _ := trivial

end Comparison

/-- Two frames in the initializers of the given creations that differ at most in the values of
operations that are not among the known ones, and in states that count as the same.  If the
agreement is exact, their states are equal. -/
structure Agree (C : Comparison V D) (exact : Prop) (known creations : List OperationId)
    (f g : Frame V D) : Prop where
  routine_left : f.routine = C.routine
  routine_right : g.routine = C.routine
  data : C.same f.data g.data
  data_eq : exact → f.data = g.data
  creations_left : f.creations = creations
  creations_right : g.creations = creations
  values : ∀ id, id ∈ known ∨ id ∈ creations → f.values.get? id = g.values.get? id
  valid : ∀ id, id ∈ known ∨ id ∈ creations → ∀ v, f.values.get? id = some v → C.value v

/-- The result of an action, and the machine after it. -/
def outcome {α : Type} (action : Interp V D α) (machine : Machine V D) : α × Machine V D :=
  action machine

namespace Analysis

theorem outcome_frame_bind {α : Type} (next : Frame V D → Interp V D α) (m : Machine V D) :
    outcome (frame >>= next) m = outcome (next m.toFrame) m :=
  rfl

section Outcomes

variable [EntityState D V] (A : Analysis V D) (operation : Operation)

/-- The value of what an operation denotes. -/
def referenceValue (f : Frame V D) : V :=
  (A.denoted? f operation).elim (A.defaultValue f operation) (A.read f.data)

variable (m : Machine V D)

theorem outcome_readReference : outcome (A.readReference operation) m =
    (A.referenceValue operation m.toFrame, m) := by
  unfold readReference referenceValue
  rw [outcome_frame_bind]
  cases A.denoted? m.toFrame operation <;> rfl

omit [EntityState D V] in
theorem outcome_knownValue (id : OperationId) : outcome (A.knownValue id operation) m =
    ((m.values.get? id).getD (A.defaultValue m.toFrame operation), m) := by
  unfold knownValue
  rw [outcome_frame_bind]
  cases m.values.get? id <;> rfl

omit [EntityState D V] in
theorem outcome_initializedValue : outcome (A.initializedValue operation) m =
    (m.creationValue?.getD (A.defaultValue m.toFrame operation), m) := by
  unfold initializedValue
  rw [outcome_frame_bind]
  cases m.toFrame.creationValue? <;> rfl

end Outcomes

section Sequences

variable [AbstractValue V] [EntityState D V] (A : Analysis V D)

theorem evaluateList_append (before after : List Operation) :
    A.evaluateList (before ++ after) =
      (A.evaluateList before >>= fun _ => A.evaluateList after) := by
  induction before with
  | nil => rw [evaluateList, pure_bind, List.nil_append]
  | cons operation before ih =>
    rw [List.cons_append, evaluateList, evaluateList, ih, bind_assoc]

theorem evaluateList_singleton (operation : Operation) :
    A.evaluateList [operation] = discard (A.evaluate operation) := by
  rw [evaluateList, evaluateList]
  exact bind_pure (discard (A.evaluate operation))

theorem evaluateOption_eq (part? : Option Operation) :
    A.evaluateOption part? = A.evaluateList part?.toList := by
  cases part? with
  | none => rw [evaluateOption, Option.toList_none, evaluateList]
  | some part => rw [evaluateOption, Option.toList_some, evaluateList_singleton]

theorem evaluateArguments_eq (arguments : List (Argument Operation)) :
    A.evaluateArguments arguments = A.evaluateList (arguments.map (·.value)) := by
  induction arguments with
  | nil => rw [evaluateArguments, List.map_nil, evaluateList]
  | cons argument arguments ih =>
    rw [evaluateArguments, List.map_cons, evaluateList, ih]

theorem evaluateCallee_eq (callee : Callee Operation) :
    A.evaluateCallee callee = A.evaluateList callee.target?.toList := by
  cases callee with
  | method | localFunction => rw [evaluateCallee, Callee.target?, Option.toList_none, evaluateList]
  | delegate target =>
    rw [evaluateCallee, Callee.target?, Option.toList_some, evaluateList_singleton]

/-- The parts of an operation are evaluated one after the other. -/
theorem evaluateParts_eq (operation : Operation) :
    A.evaluateParts operation = A.evaluateList operation.children := by
  obtain ⟨id, form, type?, constant?⟩ := operation
  rw [Operation.children]
  cases form <;> simp only [evaluateParts, Form.children, evaluateOption_eq, evaluateArguments_eq,
    evaluateCallee_eq, evaluateList_append, evaluateList, bind_pure_unit, bind_assoc]

end Sequences

end Analysis

/-- An action whose outcome depends on the routine, the state, the enclosing creations and the known
values, and that gives values to the listed operations and to no others.  If the state after the
action has nothing that the state before it does not have, then it suffices that the states before
it count as the same. -/
structure Contained {α : Type} (C : Comparison V D) (known creations ids : List OperationId)
    (Q : α → Prop) (action : Interp V D α) : Prop where
  agree : ∀ {exact : Prop} {m n : Machine V D}, Agree C exact known creations m.toFrame n.toFrame →
    exact ∨ C.below (outcome action m).2.data m.data →
      (outcome action m).1 = (outcome action n).1 ∧ Q (outcome action m).1 ∧
        Agree C exact (known ++ ids) creations (outcome action m).2.toFrame
          (outcome action n).2.toFrame
  grows : ∀ {m : Machine V D}, Agree C True known creations m.toFrame m.toFrame →
    C.below m.data (outcome action m).2.data
  outside : ∀ {m : Machine V D}, Agree C True known creations m.toFrame m.toFrame →
    ∀ {id}, id ∉ ids → (outcome action m).2.values.get? id = m.values.get? id

namespace Comparison

variable (C : Comparison V D)

/-- What is found out from a frame is a value that comes up, and depends on the state, the values of
the listed operations and the enclosing creations. -/
def Decides (ids : List OperationId) (find : Frame V D → V) : Prop :=
  ∀ {exact creations f g}, Agree C exact ids creations f g → find f = find g ∧ C.value (find f)

/-- A change of the state that adds to it. -/
structure Keeps (change : D → D) : Prop where
  same : ∀ {a b}, C.same a b → C.same (change a) (change b)
  below : ∀ a, C.below a (change a)

/-- A change of frames that changes nothing but their states, and adds to these. -/
structure ChangesState (known creations : List OperationId) (change : Frame V D → Frame V D) :
    Prop where
  agree : ∀ {exact : Prop} {f g : Frame V D}, Agree C exact known creations f g →
    ∃ data data', change f = { f with data } ∧ change g = { g with data := data' } ∧
      C.same data data' ∧ C.below f.data data ∧ (exact → data = data')

end Comparison

section Combinators

variable {α β : Type} {C : Comparison V D} {exact : Prop}
variable {known creations ids ids' : List OperationId} {Q : α → Prop} {R : β → Prop}

theorem Agree.mono {f g : Frame V D} (h : Agree C exact known creations f g) (hids : ids ⊆ known) :
    Agree C exact ids creations f g :=
  ⟨h.routine_left, h.routine_right, h.data, h.data_eq, h.creations_left, h.creations_right,
    fun id hid => h.values id (hid.imp_left fun hmem => hids hmem),
    fun id hid => h.valid id (hid.imp_left fun hmem => hids hmem)⟩

/-- A frame that agrees with another one agrees with itself. -/
theorem Agree.left {f g : Frame V D} (h : Agree C exact known creations f g) :
    Agree C True known creations f f :=
  ⟨h.routine_left, h.routine_left, C.same_left h.data, fun _ => rfl, h.creations_left,
    h.creations_left, fun _ _ => rfl, h.valid⟩

theorem Contained.self {action : Interp V D α} (h : Contained C known creations ids Q action)
    {m : Machine V D}
    (hm : Agree C True known creations m.toFrame m.toFrame) :
    Q (outcome action m).1 ∧ Agree C True (known ++ ids) creations (outcome action m).2.toFrame
      (outcome action m).2.toFrame :=
  (h.agree hm (.inl trivial)).2

theorem contained_pure {a : α} (ha : Q a) : Contained C known creations [] Q (pure a) where
  agree h _ := by
    rw [List.append_nil]
    exact ⟨rfl, ha, h⟩
  grows _ := C.below_refl _
  outside _ _ _ := rfl

/-- Contained actions compose. -/
theorem Contained.bind {action : Interp V D α} {next : α → Interp V D β}
    (h : Contained C known creations ids Q action)
    (hnext : ∀ a, Q a → Contained C (known ++ ids) creations ids' R (next a)) :
    Contained C known creations (ids ++ ids') R (action >>= next) where
  agree {exact m n} hagree hadds := by
    have hadds : exact ∨
        C.below (outcome (next (outcome action m).1) (outcome action m).2).2.data m.data := hadds
    obtain ⟨hQ, hfit⟩ := h.self hagree.left
    have hlater := (hnext _ hQ).grows hfit
    obtain ⟨hresult, -, hafter⟩ :=
      h.agree hagree (hadds.imp_right fun hadds => C.below_trans hlater hadds)
    have hend := (hnext _ hQ).agree hafter
      (hadds.imp_right fun hadds => C.below_trans hadds (h.grows hagree.left))
    rw [List.append_assoc] at hend
    show (outcome (next (outcome action m).1) (outcome action m).2).1 =
        (outcome (next (outcome action n).1) (outcome action n).2).1 ∧ _ ∧
      Agree C exact _ creations (outcome (next (outcome action m).1) (outcome action m).2).2.toFrame
        (outcome (next (outcome action n).1) (outcome action n).2).2.toFrame
    rw [← hresult]
    exact hend
  grows hm :=
    have ⟨hQ, hfit⟩ := h.self hm
    C.below_trans (h.grows hm) ((hnext _ hQ).grows hfit)
  outside {m} hm id hid := by
    obtain ⟨hQ, hfit⟩ := h.self hm
    rw [List.mem_append, not_or] at hid
    exact ((hnext _ hQ).outside hfit hid.2).trans (h.outside hm hid.1)

/-- The same for an action that does not give a value to any operation. -/
theorem Contained.step {action : Interp V D α} {next : α → Interp V D β}
    (h : Contained C known creations [] Q action)
    (hnext : ∀ a, Q a → Contained C known creations ids R (next a)) :
    Contained C known creations ids R (action >>= next) := by
  have hbind : Contained C known creations ([] ++ ids) R (action >>= next) := h.bind fun a ha => by
    rw [List.append_nil]
    exact hnext a ha
  exact hbind

theorem Contained.last {action : Interp V D α} {next : α → Interp V D β}
    (h : Contained C known creations ids Q action)
    (hnext : ∀ a, Q a → Contained C (known ++ ids) creations [] R (next a)) :
    Contained C known creations ids R (action >>= next) := by
  have hbind : Contained C known creations (ids ++ []) R (action >>= next) := h.bind hnext
  rwa [List.append_nil] at hbind

/-- Which operations are listed matters, not how they are listed. -/
theorem Contained.congr {action : Interp V D α} (h : Contained C known creations ids Q action)
    (hids : ∀ id, id ∈ ids ↔ id ∈ ids') : Contained C known creations ids' Q action where
  agree hagree hadds :=
    have ⟨hresult, hQ, hafter⟩ := h.agree hagree hadds
    ⟨hresult, hQ, hafter.mono fun id hid => by
      rw [List.mem_append, ← hids] at hid
      exact List.mem_append.2 hid⟩
  grows := h.grows
  outside hm _ hid := h.outside hm fun hmem => hid ((hids _).1 hmem)

theorem Contained.discard {action : Interp V D α} (h : Contained C known creations ids Q action) :
    Contained C known creations ids (fun _ => True) (discard action) where
  agree hagree hadds := ⟨rfl, trivial, (h.agree hagree hadds).2.2⟩
  grows := h.grows
  outside := h.outside

/-- An action that looks at the frame and keeps it. -/
theorem contained_of_reader {action : Interp V D α} (result : Frame V D → α)
    (haction : ∀ m, outcome action m = (result m.toFrame, m))
    (hresult : ∀ {exact f g}, Agree C exact known creations f g →
      result f = result g ∧ Q (result f)) :
    Contained C known creations [] Q action where
  agree hagree _ := by
    rw [haction, haction]
    obtain ⟨heq, hQ⟩ := hresult hagree
    exact ⟨heq, hQ, by simpa using hagree⟩
  grows _ := by
    rw [haction]
    exact C.below_refl _
  outside _ _ _ := by rw [haction]

/-- An action that changes the state. -/
theorem contained_of_change {action : Interp V D Unit} (change : Frame V D → D)
    (haction : ∀ m, outcome action m = ((), { m with data := change m.toFrame }))
    (hchange : ∀ {exact f g}, Agree C exact known creations f g →
      C.same (change f) (change g) ∧ C.below f.data (change f) ∧ (exact → change f = change g)) :
    Contained C known creations [] (fun _ => True) action where
  agree {exact m n} hagree _ := by
    rw [haction, haction, List.append_nil]
    obtain ⟨hsame, -, heq⟩ := hchange hagree
    exact ⟨rfl, trivial, hagree.routine_left, hagree.routine_right, hsame, heq,
      hagree.creations_left, hagree.creations_right, hagree.values, hagree.valid⟩
  grows hm := by
    rw [haction]
    exact (hchange hm).2.1
  outside _ _ _ := by rw [haction]

theorem contained_changeData {change : D → D} (hchange : C.Keeps change) :
    Contained (V := V) C known creations [] (fun _ => True) (Analysis.changeData change) :=
  contained_of_change (fun f => change f.data) (fun _ => rfl) fun h =>
    ⟨hchange.same h.data, hchange.below _, fun hexact => congrArg change (h.data_eq hexact)⟩

theorem Comparison.changesState_id : C.ChangesState known creations id where
  agree {_ f g} h := ⟨f.data, g.data, rfl, rfl, h.data, C.below_refl _, h.data_eq⟩

theorem Comparison.Keeps.changesState {change : D → D} (h : C.Keeps change) :
    C.ChangesState known creations fun f => { f with data := change f.data } where
  agree {_ f g} hagree := ⟨change f.data, change g.data, rfl, rfl, h.same hagree.data, h.below _,
    fun hexact => congrArg change (hagree.data_eq hexact)⟩

theorem Comparison.ChangesState.comp {first second : Frame V D → Frame V D}
    (hfirst : C.ChangesState known creations first)
    (hsecond : C.ChangesState known creations second) :
    C.ChangesState known creations fun f => second (first f) := by
  refine ⟨fun {exact f g} h => ?_⟩
  obtain ⟨data, data', hf, hg, hsame, hbelow, heq⟩ := hfirst.agree h
  have hafter : Agree C exact known creations { f with data } { g with data := data' } :=
    ⟨h.routine_left, h.routine_right, hsame, heq, h.creations_left, h.creations_right, h.values,
      h.valid⟩
  obtain ⟨last, last', hf', hg', hsame', hbelow', heq'⟩ := hsecond.agree hafter
  exact ⟨last, last', (congrArg second hf).trans hf', (congrArg second hg).trans hg', hsame',
    C.below_trans hbelow hbelow', heq'⟩

/-- A change of the frame that changes only the state. -/
theorem contained_changeFrame {change : Frame V D → Frame V D}
    (hchange : C.ChangesState known creations change) :
    Contained C known creations [] (fun _ => True) (Analysis.changeFrame change) := by
  have houtcome : ∀ m : Machine V D, outcome (Analysis.changeFrame change) m =
      ((), { m with toFrame := change m.toFrame }) := fun _ => rfl
  refine ⟨fun {exact m n} h _ => ?_, fun {m} hm => ?_, fun {m} hm id _ => ?_⟩
  · obtain ⟨data, data', hf, hg, hsame, -, heq⟩ := hchange.agree h
    rw [houtcome, houtcome, hf, hg, List.append_nil]
    exact ⟨rfl, trivial, h.routine_left, h.routine_right, hsame, heq, h.creations_left,
      h.creations_right, h.values, h.valid⟩
  all_goals
    obtain ⟨data, -, hf, -, -, hbelow, -⟩ := hchange.agree hm
    rw [houtcome, hf]
  · exact hbelow

/-- An action that goes on with something that it finds out from the frame. -/
theorem contained_ask {next : Frame V D → Interp V D α} (find : Frame V D → β)
    {goOn : β → Interp V D α} (hnext : ∀ f, next f = goOn (find f))
    (hfind : ∀ {exact f g}, Agree C exact known creations f g → find f = find g ∧ R (find f))
    (hgoOn : ∀ b, R b → Contained C known creations ids Q (goOn b)) :
    Contained C known creations ids Q (Analysis.frame >>= next) := by
  have hask : Contained C known creations [] R (Analysis.frame >>= fun f => pure (find f)) :=
    contained_of_reader find (fun _ => rfl) hfind
  rw [funext hnext]
  exact hask.step hgoOn

theorem contained_cache (id : OperationId) {value : V} (hvalue : C.value value) :
    Contained C known creations [id] (fun _ => True) (Analysis.cache id value) where
  agree {exact m n} h _ := by
    have hget : ∀ (k : Machine V D) other, (k.values.insert id value).get? other =
        if id = other then some value else k.values.get? other := by
      intro k other
      rw [Environment.get?_insert]
      by_cases hsame : id = other
      · have hkey : Key.same id other = true := decide_eq_true hsame
        rw [if_pos hsame, if_pos hkey]
      · have hdiffers : Key.same id other = false := decide_eq_false hsame
        rw [if_neg hsame, hdiffers, if_neg Bool.false_ne_true]
    have hknown : ∀ other, id ≠ other → other ∈ known ++ [id] ∨ other ∈ creations →
        other ∈ known ∨ other ∈ creations := by
      intro other hne hother
      rcases hother with hother | hother
      · rcases List.mem_append.1 hother with hother | hother
        · exact .inl hother
        · exact absurd (List.mem_singleton.1 hother).symm hne
      · exact .inr hother
    refine ⟨rfl, trivial, h.routine_left, h.routine_right, h.data, h.data_eq, h.creations_left,
      h.creations_right, fun other hother => ?_, fun other hother v hv => ?_⟩
    · show (m.values.insert id value).get? other = (n.values.insert id value).get? other
      rw [hget, hget]
      by_cases hsame : id = other
      · rw [if_pos hsame, if_pos hsame]
      · rw [if_neg hsame, if_neg hsame, h.values other (hknown other hsame hother)]
    · have hv : (m.values.insert id value).get? other = some v := hv
      rw [hget] at hv
      by_cases hsame : id = other
      · rw [if_pos hsame] at hv
        exact Option.some.inj hv ▸ hvalue
      · rw [if_neg hsame] at hv
        exact h.valid other (hknown other hsame hother) v hv
  grows _ := C.below_refl _
  outside {m} _ other hother := by
    have hdiffers : Key.same id other = false :=
      decide_eq_false fun hsame => hother (List.mem_singleton.2 hsame.symm)
    show (m.values.insert id value).get? other = _
    rw [Environment.get?_insert, hdiffers, if_neg Bool.false_ne_true]

/-- The evaluation of an initializer, within the creation that it belongs to. -/
theorem contained_inInitializer {action : Interp V D Unit} {creation : OperationId}
    {Q : Unit → Prop} (h : Contained C known (creation :: creations) ids Q action)
    (hcreation : creation ∈ known) :
    Contained C known creations ids (fun _ => True)
      (Analysis.enterInitializer creation >>= fun _ => action >>= fun _ =>
        Analysis.leaveInitializer) := by
  -- The machines still agree once both have entered the initializer.
  have hinside : ∀ {exact : Prop} {m n : Machine V D},
      Agree C exact known creations m.toFrame n.toFrame →
        Agree C exact known (creation :: creations)
          { m.toFrame with creations := creation :: m.creations }
          { n.toFrame with creations := creation :: n.creations } := by
    intro exact m n hagree
    have hmem : ∀ id, id ∈ known ∨ id ∈ creation :: creations → id ∈ known ∨ id ∈ creations := by
      rintro id (hid | hid)
      · exact .inl hid
      · rcases List.mem_cons.1 hid with rfl | hid
        · exact .inl hcreation
        · exact .inr hid
    exact ⟨hagree.routine_left, hagree.routine_right, hagree.data, hagree.data_eq,
      by rw [hagree.creations_left], by rw [hagree.creations_right],
      fun id hid => hagree.values id (hmem id hid), fun id hid => hagree.valid id (hmem id hid)⟩
  refine ⟨fun {exact m n} hagree hadds => ?_, fun {m} hm => ?_, fun {m} hm id hid => ?_⟩
  · obtain ⟨-, -, hafter⟩ := h.agree (m := { m with creations := creation :: m.creations })
      (n := { n with creations := creation :: n.creations }) (hinside hagree) hadds
    exact ⟨rfl, trivial, hafter.routine_left, hafter.routine_right, hafter.data, hafter.data_eq,
      congrArg List.tail hafter.creations_left, congrArg List.tail hafter.creations_right,
      fun id hid => hafter.values id (hid.imp_right (List.mem_cons_of_mem creation)),
      fun id hid => hafter.valid id (hid.imp_right (List.mem_cons_of_mem creation))⟩
  · exact h.grows (m := { m with creations := creation :: m.creations }) (hinside hm)
  · exact h.outside (m := { m with creations := creation :: m.creations }) (hinside hm) hid

end Combinators
end HeapFlow
