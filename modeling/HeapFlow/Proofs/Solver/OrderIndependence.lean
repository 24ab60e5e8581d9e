import HeapFlow.Proofs.Solver.Confluence

/-! # What the order of the turns decides

A run of the solver is seen through a region of the graph (`Solver.viewOf`).  A turn in the region
visits a ready block of the region (`Solver.viewOf_turn_of_mem`), and a turn outside leaves the
region as it is, for control does not come into the region from outside
(`Solver.viewOf_turn_of_not_mem`).  So in a sequential region the visits at the end do not depend on
the order of the turns (`Analysis.visits_eq_of_sequential`).

Outside of the region it is the loop heads that matter.  At the end no entry state is out of date,
and the entry state of a block that is no loop head is the merge of exit states of blocks that come
earlier.  If two runs agree on the entry states of the loop heads, they agree on all visits
(`Analysis.visits_eq_of_heads`).  This takes states that compare as the same to be the same.
-/
namespace HeapFlow
namespace Solver

variable {V D : Type} {routine : Routine} {region : List BlockId}

/-! ## Turns in a region -/

variable (routine region) in
/-- What a state says about a region. -/
def viewOf (state : State V D) : Region.View routine region D where
  pending := {id | id ∈ region ∧ ∃ p ∈ state.pending, routine.schedule.order[p]? = some id}
  counts id := if id ∈ region then turns state id else 0
  visits id := if id ∈ region then state.visits.get? id else none
  within := by
    rintro id ⟨hregion, p, -, hp⟩
    exact ⟨hregion, List.mem_of_getElem? hp⟩

theorem visits_viewOf {state : State V D} {id : BlockId} (h : id ∈ region) :
    (viewOf routine region state).visits id = state.visits.get? id :=
  if_pos h

variable {A : Analysis V D} {options : Options}

/-- A pending block of the region starts from the same state as in the view of the region. -/
theorem entryState_viewOf (hregion : routine.schedule.Sequential region)
    {log : List (BlockId × Visit D)} {state : State V D}
    (htraced : Traced routine.schedule log state) {p : Nat} (hp : p ∈ state.pending) {id : BlockId}
    (hid : routine.schedule.order[p]? = some id) (hmem : id ∈ region) :
    Region.entryState A options.widenAfter (viewOf routine region state) id =
      entryState A options routine.schedule (A.initialState routine) state.visits id
        (turns state id + 1) := by
  have hs := routine.schedule_sound
  have hmerged : Region.mergedEntry A (viewOf routine region state) id =
      mergedEntry A routine.schedule (A.initialState routine) state.visits id := by
    have hexits : routine.graph.inflow (A.initialState routine)
        (fun source => ((viewOf routine region state).visits source).map (·.exit)) id =
          routine.graph.inflow (A.initialState routine) (exit? state) id := by
      refine routine.graph.inflow_congr _ fun source hflow => ?_
      by_cases hsource : source ∈ region
      · rw [visits_viewOf hsource]
        rfl
      · -- Control does not come into the region from outside.
        have hnone : state.visits.get? source = none := by
          rw [Option.eq_none_iff_forall_ne_some]
          intro visit hvisit
          exact hsource (hregion.closed source (htraced.known source visit hvisit).1 id hmem hflow)
        simp [viewOf, hsource, exit?, hnone]
    have hinflow : A.mergeAll? (routine.graph.inflow (A.initialState routine) (exit? state) id) =
        some (mergedEntry A routine.schedule (A.initialState routine) state.visits id) :=
      htraced.mergeAll?_inflow hs hp hid
    unfold Region.mergedEntry
    rw [hexits, hinflow]
    rfl
  have hcounts : (viewOf routine region state).counts id = turns state id := if_pos hmem
  have hvisits : (viewOf routine region state).visits id = state.visits.get? id :=
    visits_viewOf hmem
  cases hvisit : state.visits.get? id with
  | none => simp [Region.entryState, entryState, hmerged, hcounts, hvisits, hvisit]
  | some previous => simp [Region.entryState, entryState, hmerged, hcounts, hvisits, hvisit]

variable [AbstractValue V] [EntityState D V] [BEq D]

/-- The blocks that are pending after a visit are those that were, apart from the block that has
been visited, and those that it flows into, if the visit has changed the state at its end. -/
theorem Turn.pending_iff {schedule : Schedule} (hs : schedule.Sound)
    {log : List (BlockId × Visit D)} {before after : State V D} {first : D} {position : Nat}
    {id : BlockId} {visit : Visit D} (htraced : Traced schedule log before)
    (hscheduled : Scheduled schedule before)
    (hturn : Turn A options schedule first before position (some (id, visit)) after)
    (other : BlockId) : (∃ p ∈ after.pending, schedule.order[p]? = some other) ↔
      (∃ p ∈ before.pending, schedule.order[p]? = some other) ∧ other ≠ id ∨
        (other ∈ schedule.order ∧ schedule.graph.canFlow id other = true) ∧
          ∀ previous, before.visits.get? id = some previous →
            (previous.exit == visit.exit) = false := by
  have hid := hturn.getElem?_eq
  have hflow := hturn.mem_successors_iff
  have hnodup : before.pending.Nodup := hscheduled.ascending.imp fun hlt => Nat.ne_of_lt hlt
  cases hturn with
  | visit _ block _ machine _ hblock hlimit hvisit =>
    simp only [Worklist.mem_foldl_insert, mem_affected_iff]
    -- All visits of a block have the same successors: none of them is new after the first visit.
    constructor
    · rintro ⟨p, ⟨target, htarget, hp, hspared⟩ | hp, hpid⟩
      · obtain rfl : target = other :=
          Option.some.inj ((hs.position?_eq_some_iff.1 hp).symm.trans hpid)
        have hcan := (hflow target).1 htarget
        refine .inr ⟨⟨List.mem_of_getElem? hpid, hcan⟩, fun previous hprevious => ?_⟩
        rw [Bool.eq_false_iff]
        intro hsame
        exact hspared previous hprevious hsame
          (((htraced.known id previous hprevious).2 target).2 hcan)
      · obtain ⟨hne, hp⟩ := hnodup.mem_erase_iff.1 hp
        refine .inl ⟨⟨p, hp, hpid⟩, ?_⟩
        rintro rfl
        exact hne (hs.position_unique hpid hid)
    · rintro (⟨⟨p, hp, hpid⟩, hne⟩ | ⟨⟨horder, hcan⟩, hchanged⟩)
      · refine ⟨p, .inr (hnodup.mem_erase_iff.2 ⟨?_, hp⟩), hpid⟩
        rintro rfl
        exact hne (Option.some.inj (hpid.symm.trans hid))
      · obtain ⟨p, hp⟩ := hs.mem_order_iff.1 horder
        refine ⟨p, .inl ⟨other, (hflow other).2 hcan, hp, ?_⟩, hs.position?_eq_some_iff.1 hp⟩
        intro previous hprevious hsame
        exact absurd hsame (Bool.eq_false_iff.1 (hchanged previous hprevious))

/-- A turn outside the region leaves the region as it is. -/
theorem viewOf_turn_of_not_mem (hregion : routine.schedule.Sequential region)
    {log : List (BlockId × Visit D)} {before after : State V D} {position : Nat} {id : BlockId}
    {visit : Visit D} (htraced : Traced routine.schedule log before)
    (hscheduled : Scheduled routine.schedule before)
    (hturn : Turn A options routine.schedule (A.initialState routine) before position
      (some (id, visit)) after) (hmem : id ∉ region) :
    viewOf routine region after = viewOf routine region before := by
  have hs := routine.schedule_sound
  obtain ⟨taken, htaken, hturns⟩ := hturn.turns_eq
  have hpending := hturn.pending_iff hs htraced hscheduled
  cases hturn with
  | visit _ block _ machine hid hblock hlimit hvisit =>
    obtain rfl : id = taken := Option.some.inj (hid.symm.trans htaken)
    have hne : ∀ other ∈ region, id ≠ other := by
      rintro other hother rfl
      exact hmem hother
    refine Region.View.ext (fun other => ?_) ?_ ?_
    · refine and_congr_right fun hother => (hpending other).trans ?_
      -- Control does not go from the block into the region.
      have hcan : ¬routine.schedule.graph.canFlow id other = true := fun hcan =>
        hmem (hregion.closed id (List.mem_of_getElem? hid) other hother hcan)
      simp [hcan, Ne.symm (hne other hother)]
    · funext other
      show (if other ∈ region then turns _ other else 0) =
        if other ∈ region then turns before other else 0
      split
      · next hother => rw [hturns other, if_neg (hne other hother), Nat.add_zero]
      · rfl
    · funext other
      show (if other ∈ region then (before.visits.insert id visit).get? other else none) =
        if other ∈ region then before.visits.get? other else none
      split
      · next hother => rw [get?_insert_of_ne before.visits visit (hne other hother)]
      · rfl

/-- A turn in the region visits a ready block of the region. -/
theorem viewOf_turn_of_mem (hA : A.Local) (hreceivers : routine.HasEnclosedReceivers)
    (hregion : routine.schedule.Sequential region) {log : List (BlockId × Visit D)}
    {before after : State V D} {position : Nat} {id : BlockId} {visit : Visit D}
    (htraced : Traced routine.schedule log before) (hscheduled : Scheduled routine.schedule before)
    (hresting : Resting routine before.machine) (hposition : position ∈ before.pending)
    (hturn : Turn A options routine.schedule (A.initialState routine) before position
      (some (id, visit)) after) (hmem : id ∈ region) :
    viewOf routine region after =
      Region.fire A options.widenAfter (viewOf routine region before) id := by
  have hs := routine.schedule_sound
  obtain ⟨taken, htaken, hturns⟩ := hturn.turns_eq
  have hpending := hturn.pending_iff hs htraced hscheduled
  cases hturn with
  | visit _ block _ machine hid hblock hlimit hvisit =>
    obtain rfl : id = taken := Option.some.inj (hid.symm.trans htaken)
    have hfound : routine.graph.block? id = some block := hblock
    have hmade : visit = Region.visitFrom routine A id
        (Region.entryState A options.widenAfter (viewOf routine region before) id) := by
      rw [entryState_viewOf hregion htraced hposition hid hmem, Region.visitFrom, hfound]
      show _ = visitOf A routine block _
      rw [← visit_interpret hA (hreceivers block (routine.graph.mem_blocks_of_block? hfound)) _
        hresting, hvisit]
    refine Region.View.ext (fun other => ?_) ?_ ?_
    · show (other ∈ region ∧ _) ↔
        ((other ∈ region ∧ ∃ p ∈ before.pending, _) ∧ other ≠ id ∨
          (other ∈ region ∧ _) ∧ ∀ previous, _)
      rw [visits_viewOf hmem, ← hmade, hpending other, and_or_left]
      exact or_congr and_assoc.symm and_assoc.symm
    · funext other
      show (if other ∈ region then turns _ other else 0) =
        Function.update (viewOf routine region before).counts id _ other
      by_cases heq : other = id
      · subst heq
        rw [if_pos hmem, hturns other, if_pos rfl, Function.update_self]
        exact congrArg (· + 1) (if_pos hmem).symm
      · rw [Function.update_of_ne heq, hturns other, if_neg (Ne.symm heq), Nat.add_zero]
        rfl
    · funext other
      show (if other ∈ region then (before.visits.insert id visit).get? other else none) =
        Function.update (viewOf routine region before).visits id _ other
      by_cases heq : other = id
      · subst heq
        rw [if_pos hmem, Function.update_self, ← hmade]
        simp
      · rw [Function.update_of_ne heq, get?_insert_of_ne before.visits visit (Ne.symm heq)]
        rfl

omit [AbstractValue V] [EntityState D V] [BEq D] in
/-- In the region, a ready block is ready in the view of the region. -/
theorem ready_viewOf {state : State V D} {position : Nat}
    (hready : routine.schedule.Ready state.pending position) {id : BlockId}
    (hid : routine.schedule.order[position]? = some id) (hmem : id ∈ region) :
    Region.Ready (viewOf routine region state) id where
  pending := ⟨hmem, position, hready.1, hid⟩
  first := by
    have hs := routine.schedule_sound
    rintro other ⟨-, p, hp, hother⟩
    rw [Bool.eq_false_iff]
    intro hleads
    obtain ⟨p', q, hp', hq, htrans⟩ := hs.leads_iff.1 hleads
    obtain rfl : p = p' := hs.position_unique hother hp'
    obtain rfl : position = q := hs.position_unique hid hq
    exact hready.2 p hp htrans

end Solver

namespace Analysis

variable {V D : Type} [AbstractValue V] [EntityState D V] [BEq D]
variable {A : Analysis V D} {routine : Routine} {region : List BlockId}

/-- What a run does in a sequential region, as long as no block has used up its visits. -/
theorem fires_finalState (hA : A.Local) (hreceivers : routine.HasEnclosedReceivers)
    (hregion : routine.schedule.Sequential region) {options : Options}
    (hlimit : (A.finalState routine options).overruns = []) :
    Relation.ReflTransGen (Region.Fires A options.widenAfter)
      (Solver.viewOf routine region (Solver.start routine : Solver.State V D))
      (Solver.viewOf routine region (A.finalState routine options)) := by
  have hs := routine.schedule_sound
  let P := fun log (state : Solver.State V D) =>
    Solver.Traced routine.schedule log state ∧
      Solver.Scheduled routine.schedule state ∧
      Solver.Resting routine state.machine ∧
      (state.overruns = [] → Relation.ReflTransGen (Region.Fires A options.widenAfter)
        (Solver.viewOf routine region (Solver.start routine : Solver.State V D))
        (Solver.viewOf routine region state))
  have hstart : P [] (Solver.start routine) :=
    ⟨Solver.traced_start hs routine, Solver.scheduled_start hs routine, Solver.resting_initial,
      fun _ => .refl⟩
  have hfinal : P (A.visitLog routine options) (A.finalState routine options) := by
    refine finalState_induction hstart fun log before position made after hready hturn h => ?_
    obtain ⟨htraced, hscheduled, hresting, hfires⟩ := h
    refine ⟨htraced.turn hs hturn, hscheduled.turn hs hturn,
      hresting.turn hA hreceivers hturn, fun hoverruns => ?_⟩
    cases made with
    | none =>
      cases hturn with
      | overrun id hid hlimit => simp at hoverruns
    | some made =>
      obtain ⟨id, visit⟩ := made
      have hbefore := hfires (hturn.overruns_eq_nil hoverruns)
      by_cases hmem : id ∈ region
      · exact hbefore.tail ⟨id, Solver.ready_viewOf hready hturn.getElem?_eq hmem,
          Solver.viewOf_turn_of_mem hA hreceivers hregion htraced hscheduled hresting hready.1 hturn
            hmem⟩
      · rw [Solver.viewOf_turn_of_not_mem hregion htraced hscheduled hturn hmem]
        exact hbefore
  exact hfinal.2.2.2 hlimit

/-- **In a sequential region, the order of the turns does not matter.** -/
theorem visits_eq_of_sequential (hA : A.Local) (hreceivers : routine.HasEnclosedReceivers)
    (hregion : routine.schedule.Sequential region) {options options' : Options}
    (hwiden : options.widenAfter = options'.widenAfter)
    (hlimit : (A.finalState routine options).overruns = [])
    (hlimit' : (A.finalState routine options').overruns = []) {id : BlockId} (hid : id ∈ region) :
    (A.finalState routine options).visits.get? id =
      (A.finalState routine options').visits.get? id := by
  have hended : ∀ options, (Solver.viewOf routine region (A.finalState routine options)).pending =
      ∅ := by
    intro options
    simp [Solver.viewOf, finalState_pending]
  have hfires := fires_finalState hA hreceivers hregion hlimit
  rw [hwiden] at hfires
  have hview := Region.eq_of_ended hregion hfires (fires_finalState hA hreceivers hregion hlimit')
    (hended options) (hended options')
  rw [← Solver.visits_viewOf hid, hview, Solver.visits_viewOf hid]

/-! ## Outside of the region -/

variable (A routine region) in
/-- The comparison of states does not take two states for the same that differ, where control
leaves the region or goes on outside of it. -/
def ComparesExactly (options : Options) : Prop :=
  ∀ source ∈ routine.schedule.order, ∀ target ∈ routine.schedule.order, target ∉ region →
    routine.graph.canFlow source target = true →
      Solver.ComparesBy Eq source (A.visitLog routine options)

/-- The entry state of a block that is no loop head is what the final states of its predecessors
merge to. -/
theorem mergeAll?_inflow_eq_entry {options : Options}
    (hlimit : (A.finalState routine options).overruns = [])
    (hexact : A.ComparesExactly routine region options) {id : BlockId} (hregion : id ∉ region)
    (hhead : ¬routine.schedule.IsLoopHead id) {visit : Visit D}
    (hvisit : (A.finalState routine options).visits.get? id = some visit) :
    A.mergeAll? (routine.graph.inflow (A.initialState routine)
      (Solver.exit? (A.finalState routine options)) id) = some visit.entry := by
  have htraced := traced_finalState A routine options
  let T := fun id => id ∉ region ∧ id ∈ routine.schedule.order
  have hcompares : ∀ source target, T target → routine.graph.canFlow source target = true →
      Solver.ComparesBy Eq source (A.visitLog routine options) := by
    rintro source target ⟨htarget, horder⟩ hflow
    by_cases hsource : source ∈ routine.schedule.order
    · exact hexact source hsource target horder htarget hflow
    · -- A block that is not scheduled is not visited.
      have hnone : (Solver.visitsOf source (A.visitLog routine options)).getLast? = none := by
        rw [← htraced.latest source]
        exact visits_eq_none hsource
      unfold Solver.ComparesBy
      rw [List.getLast?_eq_none_iff.1 hnone]
      exact .nil
  have hsettled : Solver.Settled A options routine.schedule (A.initialState routine) Eq T
      (A.visitLog routine options) (A.finalState routine options) :=
    settled_finalState eq_equivalence congruent_eq hlimit hcompares
  obtain ⟨earlier, merged, -, hmerged, hentry⟩ :=
    hsettled id visit ⟨hregion, (htraced.known id visit hvisit).1⟩ hvisit fun p hp => by
      simp [finalState_pending] at hp
  have hanchor : id ∉ routine.schedule.anchors := fun h => hhead (.inl h)
  rw [Solver.widened_eq_merged merged (.inl hanchor)] at hentry
  rw [hentry]
  exact hmerged

/-- **The entry states of the loop heads decide all the others.**  If two runs agree on the entry
states of the loop heads outside of a sequential region, they agree on the visits of all blocks. -/
theorem visits_eq_of_heads (hA : A.Local) (hids : routine.HasUniqueIds)
    (hreceivers : routine.HasEnclosedReceivers) (hregion : routine.schedule.Sequential region)
    {options options' : Options} (hwiden : options.widenAfter = options'.widenAfter)
    (hlimit : (A.finalState routine options).overruns = [])
    (hlimit' : (A.finalState routine options').overruns = [])
    (hexact : A.ComparesExactly routine region options)
    (hexact' : A.ComparesExactly routine region options')
    (hheads : ∀ id ∈ routine.schedule.order, id ∉ region → routine.schedule.IsLoopHead id →
      (A.solve routine options).entryState? id = (A.solve routine options').entryState? id)
    (id : BlockId) :
    (A.finalState routine options).visits.get? id =
      (A.finalState routine options').visits.get? id := by
  have hs := routine.schedule_sound
  by_cases hscheduled : id ∈ routine.schedule.order
  · obtain ⟨p, hp⟩ := hs.mem_order_iff.1 hscheduled
    clear hscheduled
    -- The induction is on the position: only a loop head depends on blocks that come later.
    induction p using Nat.strong_induction_on generalizing id with
    | _ p ih =>
      by_cases hmem : id ∈ region
      · exact visits_eq_of_sequential hA hreceivers hregion hwiden hlimit hlimit' hmem
      have hposition := hs.position?_eq_some_iff.1 hp
      have hinflow : ¬routine.schedule.IsLoopHead id →
          routine.graph.inflow (A.initialState routine)
            (Solver.exit? (A.finalState routine options)) id =
          routine.graph.inflow (A.initialState routine)
            (Solver.exit? (A.finalState routine options')) id := by
        intro hhead
        refine routine.graph.inflow_congr _ fun source hflow => ?_
        unfold Solver.exit?
        by_cases hsource : source ∈ routine.schedule.order
        · rcases hs.leads_or_flowsBack hsource (List.mem_of_getElem? hposition) hflow with h | h
          · obtain ⟨q, p', hq, hp', htrans⟩ := hs.leads_iff.1 h
            obtain rfl : p = p' := hs.position_unique hposition hp'
            rw [ih q (hs.lt_of_transGen htrans) source (hs.position?_eq_some_iff.2 hq)]
          · exact absurd (.inr ⟨source, hsource, h⟩) hhead
        · rw [visits_eq_none hsource, visits_eq_none hsource]
      cases hvisit : (A.finalState routine options).visits.get? id with
      | none =>
        have hunreached : ¬routine.graph.Reached id := by
          rw [← isSome_visits_iff hlimit, hvisit]
          exact Bool.false_ne_true
        rw [← isSome_visits_iff hlimit'] at hunreached
        exact (Option.not_isSome_iff_eq_none.1 hunreached).symm
      | some visit =>
        -- Both runs visit the block, and a visit is determined by its entry state.
        have hreached := reached_of_visits (Option.isSome_iff_exists.2 ⟨visit, hvisit⟩)
        obtain ⟨visit', hvisit'⟩ :=
          Option.isSome_iff_exists.1 ((isSome_visits_iff hlimit').2 hreached)
        have hentry : visit.entry = visit'.entry := by
          by_cases hhead : routine.schedule.IsLoopHead id
          · have hentries : ((A.finalState routine options).visits.get? id).map (·.entry) =
                ((A.finalState routine options').visits.get? id).map (·.entry) :=
              hheads id (List.mem_of_getElem? hposition) hmem hhead
            rw [hvisit, hvisit'] at hentries
            exact Option.some.inj hentries
          · have hmerged := mergeAll?_inflow_eq_entry hlimit hexact hmem hhead hvisit
            have hmerged' := mergeAll?_inflow_eq_entry hlimit' hexact' hmem hhead hvisit'
            rw [hinflow hhead, hmerged'] at hmerged
            exact (Option.some.inj hmerged).symm
        rw [hvisit']
        exact congrArg some
          ((determined_finalState hA hids hreceivers).visit_ext
            (determined_finalState hA hids hreceivers) hvisit hvisit' hentry)
  · rw [visits_eq_none hscheduled, visits_eq_none hscheduled]

end Analysis
end HeapFlow
