import HeapFlow.Proofs.Client.JoinedReads
import HeapFlow.Proofs.Client.TrackedStorage
import HeapFlow.Proofs.Solver.Invariant

/-! # Where the values of the points-to analysis come from

The points-to analysis only comes up with objects that the routine gets hold of: the self instance,
what its parameters refer to on entry, and what the operations that control can reach allocate or
return (`Routine.MayRefer`).  Storage whose type is declared has that type wherever it is referred
to, and if its data is copied, it refers to nothing (`Routine.Admits`).

All decisions of the analysis keep to this (`Routine.maintains_admitted`), so it holds of all that
an analysis finds out (`Routine.analyze_provenance`), and storage of a value type never has a
location (`Routine.analyze_noLocation`).
-/
namespace HeapFlow

/-- True for the forms of operations that may refer to an object of their own. -/
def Form.isAllocation {α : Type} (form : Form α) : Bool :=
  form.isCreation || form.isCall ||
    match form with
    | .conversion _ .boxing => true
    | _ => false

namespace Routine

open PointsToAnalysis

variable (routine : Routine)

/-- Control can reach a block in which the operation occurs. -/
def Executes (operation : Operation) : Prop :=
  ∃ id block, Relation.ReflTransGen routine.graph.HasFeasibleEdge routine.graph.entry id ∧
    routine.graph.block? id = some block ∧ ∃ statement ∈ block.statements,
      operation ∈ statement.nodes

/-- The locations of the objects that the routine may get hold of. -/
inductive MayRefer : Location → Prop
  | self {type : StaticType} (h : routine.containingType? = some type) : MayRefer (.self type)
  | referent {symbol : Symbol}
    (h : symbol ∈ routine.parameters ∨
      ∃ operation, routine.Executes operation ∧ operation.form = .parameterReference symbol)
    (htype : symbol.type.isCopied = false) (hpassing : symbol.passing ≠ .output) :
    MayRefer (.referent symbol)
  | creation {operation : Operation} (h : routine.Executes operation)
    (hform : operation.form.isAllocation = true) :
    MayRefer (.creation operation.id operation.resultType)

/-- Well-formed values that refer to such objects only. -/
def Obtains (value : PointsTo) : Prop := value.Over {l | routine.MayRefer l}

/-- The declared type of the storage at a place: that of the symbol that names the place, or the
return type for the slot of the returned value. -/
def declaredType? : Place → Option StaticType
  | .localVariable symbol | .parameter symbol | .member symbol => some symbol.type
  | .result => some routine.returnType
  | .element _ | .self | .capture _ => none

/-- Storage that comes up while the routine is analysed. -/
structure Knows (e : Entity) : Prop where
  type_eq : ∀ {type}, routine.declaredType? e.place = some type → e.type = type
  owners : ∀ storage ∈ e.toStorage :: e.enclosing, routine.Obtains storage.owner

/-- Bindings that come up while the routine is analysed. -/
structure Admits (e : Entity) (value : PointsTo) : Prop where
  knows : routine.Knows e
  obtains : routine.Obtains value
  /-- Storage whose data is copied refers to nothing. -/
  eq_noLocation : ∀ {type}, routine.declaredType? e.place = some type → type.isCopied = true →
    value = .noLocation

variable {routine}

/-! ## Values -/

theorem obtains_selfValue : routine.Obtains routine.selfValue := by
  unfold selfValue
  split
  · next type htype => exact PointsTo.over_ofLocation (MayRefer.self htype)
  · exact PointsTo.over_undefined

theorem obtains_parameterValue {symbol : Symbol} (h : symbol ∈ routine.parameters ∨
      ∃ operation, routine.Executes operation ∧ operation.form = .parameterReference symbol) :
    routine.Obtains (parameterValue symbol) := by
  unfold parameterValue
  split
  · exact PointsTo.over_noLocation
  · next htype =>
    split
    · exact PointsTo.over_undefined
    · next hpassing =>
      exact PointsTo.over_ofLocation (MayRefer.referent h (Bool.eq_false_iff.2 htype) hpassing)

theorem obtains_defaultValue (operation : Operation) :
    routine.Obtains (defaultValue operation) := by
  unfold defaultValue
  split
  · exact PointsTo.over_noLocation
  · exact PointsTo.over_unknown

theorem obtains_allocation {operation : Operation} (h : routine.Executes operation)
    (hform : operation.form.isAllocation = true) :
    routine.Obtains (allocation operation operation.resultType) :=
  PointsTo.over_ofLocation (MayRefer.creation h hform)

theorem obtains_creationValue {operation : Operation} (h : routine.Executes operation)
    (hform : operation.form.isCreation = true) : routine.Obtains (creationValue operation) := by
  unfold creationValue
  split
  · exact PointsTo.over_noLocation
  · have htype : operation.typeOrUnknown = operation.resultType := by
      unfold Operation.resultType
      split <;> simp_all [Form.isCreation]
    rw [htype]
    exact obtains_allocation h (by simp [Form.isAllocation, hform])

theorem obtains_invocationValue {operation : Operation} (h : routine.Executes operation)
    (hform : operation.form.isCall = true) :
    routine.Obtains (invocationValue operation operation.resultType) := by
  unfold invocationValue
  split
  · exact PointsTo.over_noLocation
  · exact obtains_allocation h (by simp [Form.isAllocation, hform])

theorem obtains_conversionValue {operation operand : Operation} {kind : ConversionKind}
    (h : routine.Executes operation) (hform : operation.form = .conversion operand kind)
    {value : PointsTo} (hvalue : routine.Obtains value) :
    routine.Obtains (conversionValue operation kind value) := by
  cases kind with
  | identity | reference => exact hvalue
  | boxing =>
    have htype : operation.typeOrUnknown = operation.resultType := by
      rw [Operation.resultType, hform]
    show routine.Obtains (allocation operation operation.typeOrUnknown)
    rw [htype]
    exact obtains_allocation h (by rw [hform]; rfl)
  | unboxing | numeric | userDefined => exact obtains_defaultValue operation

theorem obtains_assignedValue (e : Entity) {value : PointsTo} (h : routine.Obtains value) :
    routine.Obtains (assignedValue e value) := by
  unfold assignedValue
  split
  · exact PointsTo.over_noLocation
  · exact h

/-! ## Storage -/

theorem knows_ofStorage {storage : Storage} (howner : routine.Obtains storage.owner)
    (htype : ∀ {type}, routine.declaredType? storage.place = some type → storage.type = type) :
    routine.Knows (.ofStorage storage) := by
  refine ⟨htype, fun other hother => ?_⟩
  obtain rfl : other = storage := by simpa [Entity.ofStorage] using hother
  exact howner

theorem knows_ofLocal (symbol : Symbol) : routine.Knows (.ofLocal symbol) :=
  knows_ofStorage PointsTo.over_noLocation Option.some.inj

theorem knows_ofParameter (symbol : Symbol) : routine.Knows (.ofParameter symbol) :=
  knows_ofStorage PointsTo.over_noLocation Option.some.inj

theorem knows_ofResult : routine.Knows (.ofResult routine.returnType) :=
  knows_ofStorage PointsTo.over_noLocation Option.some.inj

theorem knows_self {e : Entity} (h : routine.self? = some e) : routine.Knows e := by
  obtain ⟨type, -, rfl⟩ := Option.map_eq_some_iff.1 h
  exact knows_ofStorage obtains_selfValue fun h => by cases h

theorem Knows.owner {e : Entity} (h : routine.Knows e) : routine.Obtains e.owner :=
  h.owners e.toStorage List.mem_cons_self

/-- The type of selected storage is that of the member, if a member is selected. -/
theorem type_eq_of_selected {operation object : Operation} {place : Place}
    {type declared : StaticType} (h : operation.selected? = some (object, place, type))
    (hdeclared : routine.declaredType? place = some declared) : type = declared := by
  rcases Operation.place_of_selected h with ⟨symbol, rfl, rfl⟩ | ⟨indices, rfl⟩
  · exact Option.some.inj hdeclared
  · cases hdeclared

/-- The storage that operations denote is known, if references refer to what the routine may get
hold of. -/
theorem knows_of_denoted? {ownerOf : Operation → PointsTo}
    (howner : ∀ operation, routine.Obtains (ownerOf operation)) (operation : Operation) :
    ∀ e, operation.denoted? routine.self? ownerOf = some e → routine.Knows e := by
  induction operation using Operation.induction_children with
  | h operation ih =>
    intro e he
    cases Operation.denotesBy_of_denoted? he with
    | self h => exact knows_self h
    | localVariable symbol => exact knows_ofLocal symbol
    | parameter symbol h => exact knows_ofParameter symbol
    | capture id type => exact knows_ofStorage PointsTo.over_noLocation fun h => by cases h
    | staticMember symbol => exact knows_ofStorage PointsTo.over_noLocation Option.some.inj
    | selfMember symbol h => exact knows_ofStorage (knows_self h).owner Option.some.inj
    | @owned object place type locations hselected hobject hlocations =>
      refine knows_ofStorage ?_ fun h => type_eq_of_selected hselected h
      show routine.Obtains (.known locations)
      rw [← hlocations]
      exact howner object
    | @part object place type parent hselected hparent =>
      have hparent := ih object (Operation.mem_children_of_selected hselected) parent hparent
      refine ⟨fun h => type_eq_of_selected hselected h, fun storage hstorage => ?_⟩
      rcases List.mem_cons.1 hstorage with rfl | hstorage
      · exact PointsTo.over_noLocation
      · exact hparent.owners storage hstorage

theorem Knows.withOwner {e : Entity} (h : routine.Knows e) {owner : PointsTo}
    (howner : routine.Obtains owner) : routine.Knows { e with owner } := by
  refine ⟨h.type_eq, fun storage hstorage => ?_⟩
  rcases List.mem_cons.1 hstorage with rfl | hstorage
  · exact howner
  · exact h.owners storage (List.mem_cons_of_mem _ hstorage)

theorem Knows.landing {a b : Entity} (ha : routine.Knows a) (hb : routine.Knows b) :
    routine.Knows (Environment.landing a b) := by
  rw [Entity.landing_eq]
  exact ha.withOwner (ha.owner.cover hb.owner)

/-! ## Bindings -/

/-- Storage with the declared type that is copied is pinned. -/
theorem Knows.isCopied {e : Entity} (h : routine.Knows e) {type : StaticType}
    (htype : routine.declaredType? e.place = some type) (hcopied : type.isCopied = true) :
    e.isCopied = true := by
  rw [Entity.isCopied, h.type_eq htype, hcopied]

theorem admits_assignedValue {e : Entity} (h : routine.Knows e) {value : PointsTo}
    (hvalue : routine.Obtains value) : routine.Admits e (assignedValue e value) where
  knows := h
  obtains := obtains_assignedValue e hvalue
  eq_noLocation htype hcopied := by rw [assignedValue, if_pos (h.isCopied htype hcopied)]

theorem admits_self {e : Entity} (h : routine.self? = some e) : routine.Admits e e.owner where
  knows := knows_self h
  obtains := (knows_self h).owner
  eq_noLocation htype := by
    rw [(self?_eq_some h).1] at htype
    cases htype

theorem admits_parameter {symbol : Symbol} (h : symbol ∈ routine.parameters) :
    routine.Admits (.ofParameter symbol) (parameterValue symbol) where
  knows := knows_ofParameter symbol
  obtains := obtains_parameterValue (.inl h)
  eq_noLocation htype hcopied := by
    obtain rfl := Option.some.inj htype
    rw [parameterValue, if_pos hcopied]

/-- Forgetting what unpinned storage refers to. -/
theorem Admits.forget {e : Entity} {value : PointsTo} (h : routine.Admits e value)
    (condition : Entity → Bool) :
    routine.Admits e (if !isPinned e && condition e then .unknown else value) where
  knows := h.knows
  obtains := by
    split
    · exact PointsTo.over_unknown
    · exact h.obtains
  eq_noLocation htype hcopied := by
    have hpinned : isPinned e = true := by simp [isPinned, h.knows.isCopied htype hcopied]
    simp [hpinned, h.eq_noLocation htype hcopied]

theorem mergeClosed_admits : Environment.MergeClosed routine.Admits unobservedValue where
  landing {a b v w} ha hb hfamily := by
    have hplace : a.place = b.place := (Entity.family_eq_iff.1 (of_decide_eq_true hfamily)).1
    refine ⟨ha.knows.landing hb.knows, ha.obtains.merge hb.obtains, fun htype hcopied => ?_⟩
    rw [Entity.landing_eq] at htype
    rw [ha.eq_noLocation htype hcopied, hb.eq_noLocation (hplace ▸ htype) hcopied]
    rfl
  add {e e' v w} he he' hsame := by
    have hplace : e'.place = e.place := (Entity.same_iff.1 hsame).1
    refine ⟨he.knows, he.obtains.merge he'.obtains, fun htype hcopied => ?_⟩
    rw [he.eq_noLocation htype hcopied, he'.eq_noLocation (hplace ▸ htype) hcopied]
    rfl
  absent he := admits_assignedValue he.knows (he.obtains.merge PointsTo.over_unknown)

theorem admits_widen {e e' : Entity} {value old : PointsTo} (he : routine.Admits e value)
    (he' : routine.Admits e' old) (hsame : Key.same e' e = true) :
    routine.Admits e (value.widen old) := by
  have hplace : e'.place = e.place := (Entity.same_iff.1 hsame).1
  refine ⟨he.knows, he.obtains.widen he'.obtains, fun htype hcopied => ?_⟩
  rw [he.eq_noLocation htype hcopied, he'.eq_noLocation (hplace ▸ htype) hcopied]
  rfl

/-! ## The analysis -/

variable (routine) in
/-- All storage that is bound comes from the routine, and so does what it is bound to. -/
def admitted : Invariant PointsTo PointsToState where
  routine
  state a := a.EachBinding routine.Admits
  value := routine.Obtains
  values table := ∀ id value, table.get? id = some value → routine.Obtains value
  given _ := routine.Obtains
  entity := routine.Knows
  operation o := ∀ node ∈ o.nodes, routine.Executes node
  part h _ hpart := Operation.nodes_part h hpart
  value_of_given h := h
  value_of_values h hvalue := h _ _ hvalue
  insert h hgiven := (TableInvariant.ofValues fun _ => routine.Obtains).insert h hgiven

theorem admitted_bindSelf {state : PointsToState} (h : routine.admitted.state state) :
    routine.admitted.state (bindSelf routine state) := by
  unfold bindSelf
  split
  · next self hself => exact Environment.EachBinding.insert h (admits_self hself)
  · exact h

variable (routine) in
theorem admitted_initialState : routine.admitted.state (initialState routine) := by
  unfold initialState
  refine List.foldlRecOn (motive := routine.admitted.state) routine.parameters _ ?_
    fun state hstate symbol hmem => Environment.EachBinding.insert hstate (admits_parameter hmem)
  split
  · next self hself => exact Environment.eachBinding_empty.insert (admits_self hself)
  · exact Environment.eachBinding_empty

theorem admitted_resetEntities {condition : Entity → Bool} {state : PointsToState}
    (h : routine.admitted.state state) :
    routine.admitted.state (pointsToAnalysis.resetEntities condition state) :=
  Environment.EachBinding.mapValues h fun _ _ hbinding => hbinding.forget condition

theorem obtains_read {state : PointsToState} (hstate : routine.admitted.state state) {e : Entity}
    (he : routine.Knows e) (hparameter : ∀ symbol, e.place = .parameter symbol →
      routine.Obtains (parameterValue symbol)) :
    routine.Obtains (pointsToAnalysis.read state e) := by
  rw [read_eq]
  cases hvalue : state.get? e with
  | some value =>
    obtain ⟨_, -, hbinding⟩ := Environment.EachBinding.exists_key hstate hvalue
    exact hbinding.obtains
  | none =>
    show routine.Obtains (defaultEntityValue e)
    unfold defaultEntityValue
    split
    · exact PointsTo.over_noLocation
    · split
      · exact he.owner
      · next symbol hplace => exact hparameter symbol hplace
      · exact PointsTo.over_undefined
      · exact PointsTo.over_undefined
      · exact PointsTo.over_undefined
      · exact PointsTo.over_unknown
      · exact PointsTo.over_unknown

/-- An operation that denotes a parameter refers to it. -/
theorem form_of_denoted?_parameter {operation : Operation} {ownerOf : Operation → PointsTo}
    {e : Entity} (he : operation.denoted? routine.self? ownerOf = some e) {symbol : Symbol}
    (hplace : e.place = .parameter symbol) : operation.form = .parameterReference symbol := by
  cases Operation.denotesBy_of_denoted? he with
  | parameter symbol h =>
    cases hplace
    exact h
  | self h => simp [(self?_eq_some h).1] at hplace
  | owned h _ _ | part h _ =>
    rcases Operation.place_of_selected h with ⟨member, rfl, -⟩ | ⟨indices, rfl⟩ <;> cases hplace
  | _ => cases hplace

/-- **The decisions of the points-to analysis keep to what the routine may get hold of.** -/
theorem maintains_admitted : pointsToAnalysis.Maintains routine.admitted where
  unknown := PointsTo.over_unknown
  mergeValue := .merge
  defaultValue _ _ := obtains_defaultValue _
  creationValue h hform _ := obtains_creationValue (h _ (Operation.self_mem_nodes _)) hform
  invocationValue h hform hf :=
    ⟨obtains_invocationValue (h _ (Operation.self_mem_nodes _)) hform, hf.state⟩
  conversionValue h hform _ hvalue :=
    obtains_conversionValue (h _ (Operation.self_mem_nodes _)) hform hvalue
  finalValue {operation f value} _ _ hvalue := by
    show routine.Obtains (if hasNoLocation operation then .noLocation else value)
    split
    · exact PointsTo.over_noLocation
    · exact hvalue
  assigned _ _ hvalue := hvalue
  beforeStatement {f} hf := by
    show routine.admitted.state (bindSelf f.routine f.data)
    rw [show f.routine = routine from hf.routine]
    exact admitted_bindSelf hf.state
  denoted {operation f e} h hf he := by
    have hdenoted : operation.denoted? routine.self? (pointsToAnalysis.pointsTo f) = some e := by
      rw [← show f.routine = routine from hf.routine]
      exact he
    have howner : ∀ other, routine.Obtains (pointsToAnalysis.pointsTo f other) := by
      intro other
      show routine.Obtains ((f.values.get? other.id).getD .unknown)
      cases hvalue : f.values.get? other.id with
      | none => exact PointsTo.over_unknown
      | some value => exact hf.values other.id value hvalue
    have hknows := knows_of_denoted? howner operation e hdenoted
    refine ⟨hknows, obtains_read hf.state hknows fun symbol hplace => ?_⟩
    exact obtains_parameterValue (.inr ⟨operation, h operation operation.self_mem_nodes,
      form_of_denoted?_parameter hdenoted hplace⟩)
  declared _ _ := knows_ofLocal _
  result _ _ := knows_ofResult
  write {e value a} he hvalue ha :=
    Environment.EachBinding.insert (admitted_resetEntities ha) (admits_assignedValue he hvalue)
  reset ha := admitted_resetEntities ha
  merge ha hb := Environment.EachBinding.mergeWith mergeClosed_admits ha hb

variable (routine) in
theorem upholds_admitted : pointsToAnalysis.Upholds routine.admitted where
  maintains := maintains_admitted
  noValues _ _ h := by simp at h
  initial := routine.admitted_initialState
  widen ha hp := Environment.EachBinding.widenWith mergeClosed_admits admits_widen ha hp
  operations {id block} hreached hblock statement hstatement node hnode :=
    ⟨id, block, routine.graph.reached_iff.1 hreached, hblock, statement, hstatement, hnode⟩

/-! ## What an analysis finds out -/

variable (routine) (options : Options)

theorem admitted_states {id : BlockId} {state : PointsToState}
    (h : (routine.analyze options).flow.entryState? id = some state ∨
      (routine.analyze options).flow.exitState? id = some state) :
    state.EachBinding routine.Admits := by
  have hupheld := Analysis.upheld_finalState routine.upholds_admitted options
  rcases h with h | h
  · obtain ⟨visit, hvisit, rfl⟩ := Option.map_eq_some_iff.1 h
    exact (hupheld.visits hvisit).entry
  · obtain ⟨visit, hvisit, rfl⟩ := Option.map_eq_some_iff.1 h
    exact (hupheld.visits hvisit).exit routine.upholds_admitted

theorem obtains_valueAt (e : Entity) :
    routine.Obtains (Summary.valueAt (routine.analyze options).flow.finalState? e) := by
  unfold Summary.valueAt
  cases hvalue : (routine.analyze options).flow.finalState? >>= fun state => state.get? e with
  | none => exact PointsTo.over_undefined
  | some value =>
    obtain ⟨state, hstate, hget⟩ := Option.bind_eq_some_iff.1 hvalue
    obtain ⟨_, -, hbinding⟩ := (routine.admitted_states options (.inr hstate)).exists_key hget
    exact hbinding.obtains

/-- **All values come from what the routine may get hold of.**  The values and the owners of all
storage in all entry and exit states, the values of all operations, the self value and the summary
are well-formed, and all of their locations stand for the self instance, for the referent of a
parameter that refers to an object on entry, or for an object of an operation that control can
reach and that allocates, calls or boxes. -/
theorem analyze_provenance :
    (∀ id state, (routine.analyze options).flow.entryState? id = some state ∨
        (routine.analyze options).flow.exitState? id = some state →
      ∀ x ∈ state.entries, routine.Obtains x.2 ∧
        ∀ storage ∈ x.1.toStorage :: x.1.enclosing, routine.Obtains storage.owner) ∧
    (∀ id value, (routine.analyze options).flow.valueOf? id = some value →
      routine.Obtains value) ∧
    routine.Obtains (routine.analyze options).selfValue ∧
    (∀ value, (routine.analyze options).summary.returnValue? = some value →
      routine.Obtains value) ∧
    (∀ parameter ∈ (routine.analyze options).summary.parameters,
      routine.Obtains parameter.value) ∧
    ¬routine.MayRefer .null := by
  refine ⟨fun id state hstate x hx => ?_, fun id value hvalue => ?_, obtains_selfValue,
    fun value hvalue => ?_, fun parameter hparameter => ?_, fun h => by cases h⟩
  · have hbinding := routine.admitted_states options hstate x hx
    exact ⟨hbinding.obtains, hbinding.knows.owners⟩
  · exact (Analysis.upheld_finalState routine.upholds_admitted options).values id value hvalue
  · have hvalue : Summary.returnValueOf? (routine.analyze options).flow.finalState?
        routine.returnType = some value := hvalue
    unfold Summary.returnValueOf? at hvalue
    split at hvalue
    · cases hvalue
    · split at hvalue
      · exact Option.some.inj hvalue ▸ PointsTo.over_noLocation
      · exact Option.some.inj hvalue ▸ routine.obtains_valueAt options _
  · obtain ⟨symbol, -, hsymbol⟩ := List.mem_filterMap.1 hparameter
    unfold Summary.ofParameter? at hsymbol
    split at hsymbol
    · split at hsymbol
      · exact Option.some.inj hsymbol ▸ routine.obtains_valueAt options _
      · cases hsymbol
    · cases hsymbol

/-- **Storage of a value type never has a location.**  In all entry and exit states, local
variables, parameters, members and the slot of the returned value are bound to `noLocation` if their
type says that their data is copied. -/
theorem analyze_noLocation {id : BlockId} {state : PointsToState}
    (hstate : (routine.analyze options).flow.entryState? id = some state ∨
      (routine.analyze options).flow.exitState? id = some state)
    {e : Entity} {value : PointsTo} (hbinding : (e, value) ∈ state.entries)
    (hplace : e.symbol?.isSome = true ∨ e.place = .result) (hcopied : e.isCopied = true) :
    value = .noLocation := by
  have hadmits : routine.Admits e value := routine.admitted_states options hstate _ hbinding
  obtain ⟨type, htype⟩ : ∃ type, routine.declaredType? e.place = some type := by
    rcases hplace with hplace | hplace
    · unfold Entity.symbol? Place.symbol? at hplace
      split at hplace
      all_goals simp_all [declaredType?]
    · exact ⟨_, by rw [hplace]; rfl⟩
  exact hadmits.eq_noLocation htype (hadmits.knows.type_eq htype ▸ hcopied)

/-- A parameter that is passed by reference and whose data is copied. -/
def countParameter : Symbol := .parameter ⟨1⟩ "count" 0 .byReference (.value "int")

/-- A routine that assigns a new object to the parameter. -/
def countRoutine : Routine where
  name := ""
  containingType? := none
  parameters := [countParameter]
  returnType := .void
  graph := ⟨[⟨⟨0⟩, [.ofForm ⟨2⟩ (.simpleAssignment
    (.ofForm ⟨0⟩ (.parameterReference countParameter))
    (.ofForm ⟨1⟩ (.objectCreation none [] none)))], none, []⟩], by simp⟩

/-- The assignment has the object as its value, but the parameter does not refer to it. -/
theorem countRoutine_noLocation :
    (countRoutine.analyze {}).flow.valueOf? ⟨2⟩ =
        some (.ofLocation (.creation ⟨1⟩ .unknown)) ∧
      ∃ state, (countRoutine.analyze {}).flow.exitState? ⟨0⟩ = some state ∧
        ∃ value, (Entity.ofParameter countParameter, value) ∈ state.entries ∧
          value = .noLocation := by
  have hkeys : ((countRoutine.analyze {}).flow.exitState? ⟨0⟩).map (·.keys) =
      some [.ofParameter countParameter] := by decide
  obtain ⟨state, hstate, hkeys⟩ := Option.map_eq_some_iff.1 hkeys
  have hmem : Entity.ofParameter countParameter ∈ state.keys := by simp [hkeys]
  obtain ⟨⟨_, value⟩, hbinding, rfl⟩ := List.mem_map.1 hmem
  exact ⟨by decide, state, hstate, value, hbinding, countRoutine.analyze_noLocation {} (.inr hstate)
    hbinding (.inl (by decide)) (by decide)⟩

end Routine
end HeapFlow
