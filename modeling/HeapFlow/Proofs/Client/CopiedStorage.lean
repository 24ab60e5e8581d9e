import HeapFlow.Proofs.Client.Stabilization
import HeapFlow.Proofs.Client.StoredValues
import HeapFlow.Proofs.Client.TrackedKeys

/-! # Storage of copied data

Storage whose data is copied refers to nothing, with one exception: the self instance is bound to
what the self reference refers to, whatever its type is.  If the references of a body agree on which
storage is copied, then this holds of all states of the analysis, also where the owners of storage
have been merged (`Routine.Bindings`).  Besides, there is one entity for the self instance, and it
is always bound.

No decision of the analysis gives copied storage anything to refer to (`Routine.upholds_bindings`).
-/
namespace HeapFlow
namespace Routine

open PointsToAnalysis

variable (routine : Routine)

/-- Tracked storage, of which there is one entity for the self instance. -/
structure Stores (e : Entity) : Prop where
  tracks : routine.Tracks e
  self : e.place = .self → routine.self? = some e

/-- Tracked storage that is bound to nothing if its data is copied. -/
structure Binds (e : Entity) (value : PointsTo) : Prop where
  stores : routine.Stores e
  refers : routine.Refers value
  eq_noLocation : e.isCopied = true → e.place ≠ .self → value = .noLocation

/-- All bindings are of that kind, and the self instance is bound. -/
structure Bindings (state : PointsToState) : Prop where
  each : state.EachBinding routine.Binds
  contains : ∀ {self}, routine.self? = some self → state.contains self = true

variable {routine}

/-! ## Storage -/

theorem stores_self {e : Entity} (h : routine.self? = some e) : routine.Stores e :=
  ⟨(Mentions.self h).tracks, fun _ => h⟩

theorem Mentions.stores {e : Entity} (h : routine.Mentions e) : routine.Stores e :=
  ⟨h.tracks, fun hplace => h.self?_of_place hplace⟩

theorem Stores.landing {a b : Entity} (ha : routine.Stores a) (hb : routine.Stores b)
    (hfamily : a.family = b.family) : routine.Stores (Environment.landing a b) := by
  rw [Entity.landing_eq]
  refine ⟨ha.tracks.withOwner (ha.tracks.refers_owner.cover hb.tracks.refers_owner),
    fun hplace => ?_⟩
  have hself := ha.self hplace
  obtain rfl : b = a := by
    have hself' := hb.self ((Entity.family_eq_iff.1 hfamily).1 ▸ hplace)
    exact Option.some.inj (hself'.symm.trans hself)
  rwa [PointsTo.cover_self]

theorem stores_of_denoted? {frame : Frame PointsTo PointsToState} {operation : Operation}
    (hroutine : frame.routine = routine) (hmem : operation ∈ routine.nodes)
    (hvalues : ∀ id value, frame.values.get? id = some value → routine.Refers value) {e : Entity}
    (h : pointsToAnalysis.denoted? frame operation = some e) : routine.Stores e := by
  refine ⟨tracks_of_denoted? hroutine hmem (fun consulted _ => ?_) h, fun hplace => ?_⟩
  · show routine.Refers ((frame.values.get? consulted.id).getD .unknown)
    cases hvalue : frame.values.get? consulted.id with
    | none => exact PointsTo.over_unknown
    | some value => exact hvalues _ _ hvalue
  · rw [← hroutine]
    exact (Operation.self_of_denoted? h hplace).1

/-! ## Bindings -/

section Bindings

variable {e : Entity} {value : PointsTo}

theorem binds_assignedValue (he : routine.Stores e) (hvalue : routine.Refers value) :
    routine.Binds e (assignedValue e value) where
  stores := he
  refers := refers_assignedValue e hvalue
  eq_noLocation hcopied _ := by rw [assignedValue, if_pos hcopied]

theorem binds_self (h : routine.self? = some e) : routine.Binds e e.owner where
  stores := stores_self h
  refers := (Mentions.self h).owner
  eq_noLocation _ hplace := absurd (self?_eq_some h).1 hplace

theorem binds_parameter {symbol : Symbol} (h : symbol ∈ routine.parameters) :
    routine.Binds (.ofParameter symbol) (parameterValue symbol) where
  stores := (Mentions.parameter h).stores
  refers := refers_parameterValue (refers_referent_of_parameter h)
  eq_noLocation hcopied _ := by
    have hcopied : symbol.type.isCopied = true := hcopied
    rw [parameterValue, if_pos hcopied]

theorem Binds.forget (h : routine.Binds e value) (condition : Entity → Bool) :
    routine.Binds e (if !isPinned e && condition e then .unknown else value) where
  stores := h.stores
  refers := by
    split
    · exact PointsTo.over_unknown
    · exact h.refers
  eq_noLocation hcopied hplace := by
    simp [isPinned, hcopied, h.eq_noLocation hcopied hplace]

section Consistent

variable (htypes : routine.HasConsistentTypes)
include htypes

/-- Copied storage is bound to nothing in bindings of one family, and to what is made of it. -/
theorem Binds.combine {other : Entity} {value' : PointsTo} (he : routine.Binds e value)
    (hother : routine.Binds other value') (hfamily : e.family = other.family)
    {combine : PointsTo → PointsTo → PointsTo}
    (hcombine : combine .noLocation .noLocation = .noLocation) (hcopied : e.isCopied = true)
    (hplace : e.place ≠ .self) : combine value value' = .noLocation := by
  have hcopied' : other.isCopied = true :=
    he.stores.tracks.isCopied_eq_of_family htypes hother.stores.tracks hfamily ▸ hcopied
  have hplace' : other.place ≠ .self := (Entity.family_eq_iff.1 hfamily).1 ▸ hplace
  rw [he.eq_noLocation hcopied hplace, hother.eq_noLocation hcopied' hplace', hcombine]

theorem mergeClosed_binds : Environment.MergeClosed routine.Binds unobservedValue where
  landing {a b v w} ha hb hfamily := by
    have hfamily : a.family = b.family := of_decide_eq_true hfamily
    refine ⟨ha.stores.landing hb.stores hfamily, ha.refers.merge hb.refers, ?_⟩
    rw [Entity.landing_eq]
    exact ha.combine htypes hb hfamily rfl
  add he he' hsame := ⟨he.stores, he.refers.merge he'.refers,
    he.combine htypes he' (Entity.same_iff_family.1 hsame).1.symm rfl⟩
  absent he := binds_assignedValue he.stores (he.refers.merge PointsTo.over_unknown)

theorem binds_widen {other : Entity} {old : PointsTo} (he : routine.Binds e value)
    (hother : routine.Binds other old) (hsame : Key.same other e = true) :
    routine.Binds e (value.widen old) :=
  ⟨he.stores, he.refers.widen hother.refers,
    he.combine htypes hother (Entity.same_iff_family.1 hsame).1.symm rfl⟩

end Consistent

end Bindings

/-! ## States -/

section States

variable {state : PointsToState}

theorem Bindings.insert (h : routine.Bindings state) {e : Entity} {value : PointsTo}
    (hnew : routine.Binds e value) : routine.Bindings (state.insert e value) :=
  ⟨h.each.insert hnew, fun hself => state.isSome_get?_insert _ _ (h.contains hself)⟩

theorem Bindings.bindSelf (h : routine.Bindings state) :
    routine.Bindings (bindSelf routine state) := by
  unfold PointsToAnalysis.bindSelf
  split
  · next self hself => exact h.insert (binds_self hself)
  · exact h

variable (routine) in
theorem bindings_initialState : routine.Bindings (initialState routine) := by
  unfold initialState
  refine List.foldlRecOn (motive := routine.Bindings) routine.parameters _ ?_
    fun state hstate symbol hmem => hstate.insert (binds_parameter hmem)
  split
  · next self hself =>
    refine ⟨Environment.eachBinding_empty.insert (binds_self hself), fun {other} hother => ?_⟩
    obtain rfl : self = other := Option.some.inj (hself.symm.trans hother)
    exact Option.isSome_iff_exists.2 ⟨_, Environment.get?_insert_self _ _ _⟩
  · next hself =>
    exact ⟨Environment.eachBinding_empty, fun h => by simp [hself] at h⟩

theorem Bindings.resetEntities (h : routine.Bindings state) (condition : Entity → Bool) :
    routine.Bindings (pointsToAnalysis.resetEntities condition state) :=
  ⟨h.each.mapValues fun _ _ hbinding => hbinding.forget condition,
    fun hself => contains_resetEntities (h.contains hself)⟩

end States

/-! ## The analysis -/

variable (routine) in
/-- All states bind storage that is copied to nothing, except for the self instance. -/
def bindings : Invariant PointsTo PointsToState where
  routine
  state := routine.Bindings
  value := routine.Refers
  values table := ∀ id value, table.get? id = some value → routine.Refers value
  given _ := routine.Refers
  entity := routine.Stores
  operation o := ∀ node ∈ o.nodes, node ∈ routine.nodes
  part h _ hpart := mem_nodes_of_part h hpart
  value_of_given h := h
  value_of_values h hvalue := h _ _ hvalue
  insert h hgiven := (TableInvariant.ofValues fun _ => routine.Refers).insert h hgiven

theorem refers_read {state : PointsToState} (hstate : routine.Bindings state) {e : Entity}
    (he : routine.Stores e) : routine.Refers (pointsToAnalysis.read state e) := by
  rw [read_eq]
  cases hvalue : state.get? e with
  | some value =>
    obtain ⟨_, -, hbinding⟩ := hstate.each.exists_key hvalue
    exact hbinding.refers
  | none => exact he.tracks.refers_defaultEntityValue

section Consistent

variable (htypes : routine.HasConsistentTypes)
include htypes

/-- **No decision of the points-to analysis gives copied storage anything to refer to.** -/
theorem maintains_bindings : pointsToAnalysis.Maintains routine.bindings where
  unknown := PointsTo.over_unknown
  mergeValue := .merge
  defaultValue _ _ := refers_defaultValue _
  creationValue h _ _ := refers_creationValue (h _ (Operation.self_mem_nodes _))
  invocationValue h _ hf :=
    ⟨refers_invocationValue (h _ (Operation.self_mem_nodes _)), hf.state⟩
  conversionValue h _ _ hvalue :=
    refers_conversionValue (h _ (Operation.self_mem_nodes _)) _ hvalue
  finalValue {operation f value} _ _ hvalue := by
    show routine.Refers (if hasNoLocation operation then .noLocation else value)
    split
    · exact PointsTo.over_noLocation
    · exact hvalue
  assigned _ _ hvalue := hvalue
  beforeStatement {f} hf := by
    show routine.Bindings (bindSelf f.routine f.data)
    rw [show f.routine = routine from hf.routine]
    exact hf.state.bindSelf
  denoted h hf he := by
    have hstores := stores_of_denoted? hf.routine (h _ (Operation.self_mem_nodes _)) hf.values he
    exact ⟨hstores, refers_read hf.state hstores⟩
  declared h hdeclared := (Mentions.declared (h _ (Operation.self_mem_nodes _)) hdeclared).stores
  result _ _ := Mentions.result.stores
  write he hvalue ha := (ha.resetEntities _).insert (binds_assignedValue he hvalue)
  reset ha := ha.resetEntities _
  merge ha hb := ⟨ha.each.mergeWith (mergeClosed_binds htypes) hb.each,
    fun hself => Environment.contains_mergeWith (.inl (ha.contains hself))⟩

theorem upholds_bindings : pointsToAnalysis.Upholds routine.bindings where
  maintains := maintains_bindings htypes
  noValues _ _ h := by simp at h
  initial := routine.bindings_initialState
  widen ha hp := ⟨ha.each.widenWith (mergeClosed_binds htypes) (binds_widen htypes) hp.each,
    fun hself => Environment.contains_widenWith (.inl (ha.contains hself))⟩
  operations _ hblock _ hstatement _ hnode := by
    have hmem := ControlFlowGraph.mem_blocks_of_block? routine.graph hblock
    exact List.mem_flatMap.2 ⟨_, hmem, List.mem_flatMap.2 ⟨_, hstatement, hnode⟩⟩

end Consistent

end Routine
end HeapFlow
