import HeapFlow.Proofs.Client.JoinedReads
import HeapFlow.Proofs.Client.OrderIndependence
import HeapFlow.Proofs.Client.TrackedStorage
import HeapFlow.Proofs.Environment.Widening
import HeapFlow.Proofs.Solver.Stabilization

/-! # The points-to analysis becomes stable

The points-to analysis binds tracked storage to values over the locations of the body, and what it
does depends on the bindings alone (`Routine.respects_tracked`).  So states that have the same
bindings count as the same, and states grow by binding more keys (`Routine.tracked`).

Where states are widened, the value of a binding can go up two times.  As there is finitely much
storage to be bound, this bounds the changes of the entry state of a loop anchor
(`Routine.damps_tracked`), and the analysis comes to the same result with all limits that are high
enough (`Routine.analyze_stabilizes`).
-/
namespace HeapFlow
namespace Routine

open PointsToAnalysis

variable {routine : Routine}

/-- The state binds tracked storage to values over the locations of the body. -/
def Fits (routine : Routine) (state : PointsToState) : Prop :=
  state.Within routine.Tracks routine.Refers

/-- The parts of what the body performs are performed by it, too. -/
theorem mem_nodes_of_part {o part : Operation} (h : ∀ node ∈ o.nodes, node ∈ routine.nodes)
    (hpart : part ∈ o.children) : ∀ node ∈ part.nodes, node ∈ routine.nodes := by
  intro node hnode
  refine h node ?_
  rw [Operation.nodes_eq]
  exact List.mem_cons_of_mem _ (List.mem_flatMap.2 ⟨part, hpart, hnode⟩)

variable (routine) in
/-- States that fit the body are compared by their bindings, and grow by binding more keys. -/
def tracked : Comparison PointsTo PointsToState where
  routine
  same a b := routine.Fits a ∧ routine.Fits b ∧ a.SameBindings b
  same_left h := ⟨h.1, h.1, fun _ => rfl⟩
  below a b := ∀ k, a.contains k = true → b.contains k = true
  below_refl _ _ h := h
  below_trans hab hbc k h := hbc k (hab k h)
  value := routine.Refers
  entity := routine.Tracks
  operation o := ∀ node ∈ o.nodes, node ∈ routine.nodes
  part h _ hpart := mem_nodes_of_part h hpart

theorem mem_nodes_of_tracked {operation : Operation} (h : routine.tracked.operation operation) :
    operation ∈ routine.nodes := by
  refine h operation ?_
  rw [Operation.nodes_eq]
  exact List.mem_cons_self

variable (routine) in
theorem joinOn_tracks : InstanceKey.JoinOn routine.Tracks :=
  Entity.joinOn_keys fun _ _ ha hb _ => ha.withOwner (ha.refers_owner.cover hb.refers_owner)

/-! ## Values -/

theorem refers_defaultValue (operation : Operation) : routine.Refers (defaultValue operation) := by
  unfold defaultValue
  split
  · exact PointsTo.over_noLocation
  · exact PointsTo.over_unknown

theorem refers_creationValue {operation : Operation} (h : operation ∈ routine.nodes) :
    routine.Refers (creationValue operation) := by
  unfold creationValue
  split
  · exact PointsTo.over_noLocation
  · exact refers_creation h

theorem refers_invocationValue {operation : Operation} (h : operation ∈ routine.nodes) :
    routine.Refers (invocationValue operation operation.resultType) := by
  unfold invocationValue
  split
  · exact PointsTo.over_noLocation
  · exact refers_result h

theorem refers_conversionValue {operation : Operation} (h : operation ∈ routine.nodes)
    (kind : ConversionKind) {operand : PointsTo} (hoperand : routine.Refers operand) :
    routine.Refers (conversionValue operation kind operand) := by
  cases kind with
  | identity | reference => exact hoperand
  | boxing => exact refers_creation h
  | unboxing | numeric | userDefined => exact refers_defaultValue operation

theorem refers_parameterValue {symbol : Symbol}
    (h : routine.Refers (.ofLocation (.referent symbol))) :
    routine.Refers (parameterValue symbol) := by
  unfold parameterValue
  split
  · exact PointsTo.over_noLocation
  · split
    · exact PointsTo.over_undefined
    · exact h

theorem refers_assignedValue (e : Entity) {value : PointsTo} (h : routine.Refers value) :
    routine.Refers (assignedValue e value) := by
  unfold assignedValue
  split
  · exact PointsTo.over_noLocation
  · exact h

theorem refers_unobservedValue (e : Entity) (value : PointsTo) (h : routine.Refers value) :
    routine.Refers (unobservedValue e value) :=
  refers_assignedValue e (h.merge PointsTo.over_unknown)

theorem Tracks.refers_defaultEntityValue {e : Entity} (h : routine.Tracks e) :
    routine.Refers (defaultEntityValue e) := by
  unfold defaultEntityValue
  split
  · exact PointsTo.over_noLocation
  · obtain ⟨mentioned, owner, hmentioned, howner, rfl⟩ := h
    split
    · exact howner
    · next symbol hplace => exact refers_parameterValue (hmentioned.refers_of_parameter hplace)
    · exact PointsTo.over_undefined
    · exact PointsTo.over_undefined
    · exact PointsTo.over_undefined
    · exact PointsTo.over_unknown
    · exact PointsTo.over_unknown

/-! ## States -/

theorem fits_bindSelf {state : PointsToState} (h : routine.Fits state) :
    routine.Fits (bindSelf routine state) := by
  unfold bindSelf
  split
  · next self hself =>
    exact Environment.Within.insert h (Mentions.self hself).tracks (Mentions.self hself).owner
  · exact h

theorem fits_initialState (routine : Routine) : routine.Fits (initialState routine) := by
  unfold initialState
  refine List.foldlRecOn (motive := routine.Fits) routine.parameters _ ?_
    fun state hstate symbol hmem => ?_
  · split
    · next self hself =>
      exact Environment.within_empty.insert (Mentions.self hself).tracks (Mentions.self hself).owner
    · exact Environment.within_empty
  · exact Environment.Within.insert hstate (Mentions.parameter hmem).tracks
      (refers_parameterValue (refers_referent_of_parameter hmem))

theorem Fits.mergeData {a b : PointsToState} (ha : routine.Fits a) (hb : routine.Fits b) :
    routine.Fits (mergeData a b) :=
  Environment.Within.mergeWith routine.joinOn_tracks (PointsTo.joinOn_over _)
    refers_unobservedValue ha hb

theorem Fits.widenData {a p : PointsToState} (ha : routine.Fits a) (hp : routine.Fits p) :
    routine.Fits (widenData a p) :=
  Environment.Within.widenWith routine.joinOn_tracks (PointsTo.joinOn_over _)
    refers_unobservedValue .widen ha hp

section Congruence

variable (htypes : routine.HasConsistentTypes)
include htypes

theorem isPinned_congr {e e' : Entity} (he : routine.Tracks e) (he' : routine.Tracks e')
    (hsame : e.same e' = true) : isPinned e = isPinned e' := by
  unfold isPinned
  rw [he.isCopied_eq htypes he' hsame, Entity.isSelf_congr hsame]

theorem unobservedValue_congr {e e' : Entity} (value : PointsTo) (he : routine.Tracks e)
    (he' : routine.Tracks e') (hsame : Key.same e e' = true) :
    unobservedValue e value = unobservedValue e' value := by
  unfold unobservedValue assignedValue
  rw [he.isCopied_eq htypes he' hsame]

/-- What is forgotten depends on the bindings. -/
theorem keeps_resetEntities {condition : Entity → Bool}
    (hcondition : ∀ {e other : Entity}, e.same other = true → condition e = condition other) :
    routine.tracked.Keeps (pointsToAnalysis.resetEntities condition) := by
  let change (e : Entity) (v : PointsTo) : PointsTo :=
    if !isPinned e && condition e then .unknown else v
  have hvalid : ∀ e v, routine.Refers v → routine.Refers (change e v) := by
    intro e v hv
    show routine.Refers (if _ then _ else _)
    split
    · exact PointsTo.over_unknown
    · exact hv
  have hchange : ∀ {e e'} v, routine.Tracks e → routine.Tracks e' → Key.same e e' = true →
      change e v = change e' v := by
    intro e e' v he he' hsame
    show (if _ then _ else _) = if _ then _ else _
    rw [isPinned_congr htypes he he' hsame, hcondition hsame]
  refine ⟨fun {a b} ⟨ha, hb, hsame⟩ => ⟨?_, ?_, ?_⟩, fun a k hk => ?_⟩
  · exact Environment.Within.mapValues ha hvalid
  · exact Environment.Within.mapValues hb hvalid
  · exact hsame.mapValues ha.keys hb.keys hchange
  · exact (a.isSome_get?_mapValues change k).trans hk

theorem keeps_write {e : Entity} (he : routine.Tracks e) {value : PointsTo}
    (hvalue : routine.Refers value) :
    routine.tracked.Keeps (pointsToAnalysis.write e value) := by
  have hkeeps : routine.tracked.Keeps (pointsToAnalysis.resetEntities fun other =>
      e.mayOverlap other || e.isAncestorOf other) :=
    keeps_resetEntities htypes fun hsame => by
      rw [Entity.mayOverlap_congr e hsame, Entity.isAncestorOf_congr e hsame]
  refine ⟨fun {a b} h => ?_, fun a k hk => ?_⟩
  · obtain ⟨ha, hb, hsame⟩ := hkeeps.same h
    exact ⟨Environment.Within.insert ha he (refers_assignedValue e hvalue),
      Environment.Within.insert hb he (refers_assignedValue e hvalue), hsame.insert _ _⟩
  · exact Environment.isSome_get?_insert _ _ _ (hkeeps.below a k hk)

/-- Merges that add no keys to one of the states depend on the bindings. -/
theorem same_mergeData {a a' b b' : PointsToState} (ha : routine.tracked.same a a')
    (hb : routine.tracked.same b b')
    (hadds : routine.tracked.below (mergeData a b) a ∨ routine.tracked.below (mergeData a b) b) :
    routine.tracked.same (mergeData a b) (mergeData a' b') := by
  obtain ⟨ha, ha', hsame⟩ := ha
  obtain ⟨hb, hb', hsame'⟩ := hb
  exact ⟨ha.mergeData hb, ha'.mergeData hb', Environment.SameBindings.mergeWith
    routine.joinOn_tracks (PointsTo.joinOn_over _) refers_unobservedValue ha hb ha' hb' hsame hsame'
    (unobservedValue_congr htypes) hadds⟩

end Congruence

theorem tracks_of_denoted? {frame : Frame PointsTo PointsToState} {operation : Operation}
    (hroutine : frame.routine = routine) (hmem : operation ∈ routine.nodes)
    (hvalues : ∀ consulted ∈ operation.consulted,
      routine.Refers (pointsToAnalysis.pointsTo frame consulted))
    {e : Entity} (h : pointsToAnalysis.denoted? frame operation = some e) : routine.Tracks e := by
  have hdenoted : operation.denoted? routine.self? (pointsToAnalysis.pointsTo frame) = some e := by
    rw [← hroutine]
    exact h
  obtain ⟨value, hvalue, heq⟩ := Operation.denoted?_eq_const PointsTo.over_noLocation hvalues
  exact (Mentions.denoted hmem hvalue (heq ▸ hdenoted)).tracks

/-- **The points-to analysis depends on the bindings of tracked storage.** -/
theorem respects_tracked (htypes : routine.HasConsistentTypes) :
    pointsToAnalysis.Respects routine.tracked where
  unknown := PointsTo.over_unknown
  mergeValue := .merge
  defaultValue _ _ _ _ _ _ := ⟨rfl, refers_defaultValue _⟩
  creationValue h _ _ _ _ _ := ⟨rfl, refers_creationValue (mem_nodes_of_tracked h)⟩
  invocationValue h _ _ _ _ _ := ⟨rfl, refers_invocationValue (mem_nodes_of_tracked h)⟩
  invocationData _ _ _ _ _ hagree := ⟨hagree.data, fun _ hk => hk, hagree.data_eq⟩
  conversionValue h kind _ hvalue _ _ _ _ _ :=
    ⟨rfl, refers_conversionValue (mem_nodes_of_tracked h) kind hvalue⟩
  finalValue {operation} _ value hvalue _ _ _ _ _ := by
    refine ⟨rfl, ?_⟩
    show routine.Refers (if hasNoLocation operation then .noLocation else value)
    split
    · exact PointsTo.over_noLocation
    · exact hvalue
  beforeStatement {exact f g} hagree := by
    obtain ⟨hf, hg, hsame⟩ := hagree.data
    show routine.tracked.same (bindSelf f.routine f.data) (bindSelf g.routine g.data) ∧
      routine.tracked.below f.data (bindSelf f.routine f.data) ∧
        (exact → bindSelf f.routine f.data = bindSelf g.routine g.data)
    rw [show f.routine = routine from hagree.routine_left,
      show g.routine = routine from hagree.routine_right]
    refine ⟨⟨fits_bindSelf hf, fits_bindSelf hg, ?_⟩, fun k hk => ?_,
      fun hexact => congrArg _ (hagree.data_eq hexact)⟩
    · unfold bindSelf
      split
      · exact hsame.insert _ _
      · exact hsame
    · unfold bindSelf
      split
      · exact Environment.isSome_get?_insert _ _ _ hk
      · exact hk
  pointsTo {operation} _ _ _ _ _ hagree :=
    congrArg (fun value? => value?.getD PointsTo.unknown)
      (hagree.values _ (.inl operation.id_mem_evaluated))
  denoted {operation} h exact creations f g hagree e he := by
    refine tracks_of_denoted? hagree.routine_left (mem_nodes_of_tracked h)
      (fun consulted hconsulted => ?_) he
    have hknown := hagree.valid consulted.id
      (.inl (List.mem_flatMap.2 ⟨consulted, hconsulted, consulted.id_mem_evaluated⟩))
    show routine.Refers ((f.values.get? consulted.id).getD .unknown)
    cases hvalue : f.values.get? consulted.id with
    | none => exact PointsTo.over_unknown
    | some value => exact hknown value hvalue
  declared h _ hdeclared := (Mentions.declared (mem_nodes_of_tracked h) hdeclared).tracks
  result := Mentions.result.tracks
  read {e} he a b h := by
    obtain ⟨ha, hb, hsame⟩ := h
    rw [read_eq, read_eq, ← hsame e]
    refine ⟨rfl, ?_⟩
    cases hvalue : a.get? e with
    | none => exact he.refers_defaultEntityValue
    | some value => exact ha.values e value hvalue
  write he _ hvalue := keeps_write htypes he hvalue
  forget hcondition := keeps_resetEntities htypes hcondition
  below_merge_left a b k hk := Environment.contains_mergeWith (.inl hk)
  below_merge_right a b k hk := Environment.contains_mergeWith (.inr hk)
  merge_self ha hb := ⟨ha.1.mergeData hb.1, ha.1.mergeData hb.1, fun _ => rfl⟩
  merge := same_mergeData htypes

/-! ## The height of a state -/

/-- The levels of all tracked storage taken together. -/
noncomputable def height (routine : Routine) (state : PointsToState) : Nat :=
  ∑ e ∈ routine.finite_tracks.toFinset, PointsTo.level (state.get? e)

theorem height_le (routine : Routine) (state : PointsToState) :
    routine.height state ≤ routine.finite_tracks.toFinset.card * 3 :=
  Environment.height_le state

theorem height_widenData (routine : Routine) (a p : PointsToState) :
    routine.height p ≤ routine.height (widenData a p) :=
  Environment.height_le_widenWith

/-- If widening does not take the state up, it changes no binding. -/
theorem sameBindings_widenData {a p : PointsToState} (ha : routine.Fits a) (hp : routine.Fits p)
    (h : routine.height (widenData a p) ≤ routine.height p) : p.SameBindings (widenData a p) :=
  Environment.sameBindings_widenWith hp.keys (ha.widenData hp).keys
    (fun e he => ⟨e, routine.finite_tracks.mem_toFinset.2 he, Key.same_refl e⟩) h

/-- **Widening dampens the states of the points-to analysis.** -/
theorem damps_tracked (htypes : routine.HasConsistentTypes) :
    pointsToAnalysis.Damps routine.tracked routine.height
      (routine.finite_tracks.toFinset.card * 3) where
  respects := respects_tracked htypes
  symm h := ⟨h.2.1, h.1, h.2.2.symm⟩
  trans hab hbc := ⟨hab.1, hbc.2.1, hab.2.2.trans hbc.2.2⟩
  beq h := h.2.2.beq
  below_of_same h k hk := by rwa [← h.2.2.contains]
  initial := ⟨routine.fits_initialState, routine.fits_initialState, fun _ => rfl⟩
  operations block hblock operation hoperation node hnode := by
    refine List.mem_flatMap.2 ⟨block, hblock, ?_⟩
    exact List.mem_flatMap.2 ⟨operation, hoperation, hnode⟩
  widen_self ha hp := ⟨ha.1.widenData hp.1, ha.1.widenData hp.1, fun _ => rfl⟩
  below_widen a p k hk := Environment.contains_widenWith (.inl hk)
  height_le _ := routine.height_le _
  height_widen _ _ := routine.height_widenData _ _
  widen_eq ha hp h := ⟨hp.1, ha.1.widenData hp.1, sameBindings_widenData ha.1 hp.1 h⟩

/-- **The points-to analysis becomes stable.**  If every cycle has an anchor, then the analysis ends
in a fixed point with all limits that are high enough, and the result is the same. -/
theorem analyze_stabilizes (hcycles : routine.graph.AnchorsCycles)
    (htypes : routine.HasConsistentTypes) (hreceivers : routine.HasEnclosedReceivers)
    (options : Options) : ∃ bound,
      (∀ limit, bound ≤ limit →
        (routine.analyze (options.withLimit limit)).flow.reachedLimit = false) ∧
      ∀ limit limit', bound ≤ limit → bound ≤ limit' →
        routine.analyze (options.withLimit limit) = routine.analyze (options.withLimit limit') := by
  obtain ⟨bound, hbound⟩ := (damps_tracked htypes).exists_bound pointsToAnalysis_local hreceivers
    hcycles options
  refine ⟨bound, fun limit hlimit => (hbound limit hlimit).1, fun limit limit' hlimit hlimit' => ?_⟩
  have hflow : pointsToAnalysis.solve routine (options.withLimit limit) =
      pointsToAnalysis.solve routine (options.withLimit limit') :=
    (hbound limit hlimit).2.trans (hbound limit' hlimit').2.symm
  unfold analyze
  rw [hflow]

theorem eq_of_denoted?_twoLoops {operation : Operation} (hmem : operation ∈ twoLoops.nodes)
    {ownerOf : Operation → PointsTo} {e : Entity}
    (h : operation.denoted? twoLoops.self? ownerOf = some e) :
    e = .ofParameter objectParameter := by
  have hnodes : twoLoops.nodes = [objectAssignment,
      (Operation.ofForm ⟨0⟩ (.parameterReference objectParameter)).withType objectType,
      (Operation.ofForm ⟨1⟩ (.objectCreation none [] none)).withType objectType] := rfl
  rw [hnodes] at hmem
  simp only [List.mem_cons, List.not_mem_nil, or_false] at hmem
  rcases hmem with rfl | rfl | rfl
  · cases h
  · exact (Option.some.inj h).symm
  · cases h

theorem twoLoops_stabilizes :
    twoLoops.graph.AnchorsCycles ∧ twoLoops.HasConsistentTypes ∧ twoLoops.HasEnclosedReceivers ∧
      ∃ bound, (∀ limit, bound ≤ limit →
          (twoLoops.analyze (({ widenAfter := 2 } : Options).withLimit limit)).flow.reachedLimit =
            false) ∧
        ∀ limit limit', bound ≤ limit → bound ≤ limit' →
          twoLoops.analyze (({ widenAfter := 2 } : Options).withLimit limit) =
            twoLoops.analyze (({ widenAfter := 2 } : Options).withLimit limit') := by
  have hcycles : twoLoops.graph.AnchorsCycles :=
    ControlFlowGraph.anchorsCycles_of_leads (by decide)
  have htypes : twoLoops.HasConsistentTypes := by
    intro reference hmem reference' hmem' ownerOf ownerOf' e e' he he' _
    rw [eq_of_denoted?_twoLoops hmem he, eq_of_denoted?_twoLoops hmem' he']
  have hreceivers : twoLoops.HasEnclosedReceivers := by decide
  exact ⟨hcycles, htypes, hreceivers, analyze_stabilizes hcycles htypes hreceivers _⟩

end Routine
end HeapFlow
