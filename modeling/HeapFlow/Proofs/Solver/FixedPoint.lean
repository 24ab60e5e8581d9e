import HeapFlow.Domain.Truth
import HeapFlow.Proofs.Solver.Run
import Mathlib.Data.List.Chain

/-! # The solver finds a fixed point

Between two turns the entry state of a visited block may only be out of date if the block is
pending.  This is the invariant `Solver.Settled`: the entry state of every other visited block is
what the latest exit states of its predecessors merge to, widened against the entry state of the
visit before if the block is a loop anchor that has been visited often enough.

A turn keeps the invariant (`Solver.settled_turn`).  It replaces one exit state, and a block that is
not pending afterwards has been spared because that exit state has not changed as far as the
comparison of states can tell.  So the states that flow into the block are the same up to this
comparison (`Alike`), and merging and widening respect it.  The same goes for any finer equivalence
of states, as long as the comparison has not mistaken two states for each other
(`Solver.ComparesBy`).

When no block has used up its visits, the worklist is empty at the end of the run, and no entry
state is out of date (`Analysis.solve_isFixedPoint`).
-/
namespace HeapFlow

/-! ## States that are alike -/

section Alike

variable {D : Type} [BEq D]

/-- Two states that are the same, or that the comparison of states cannot tell apart. -/
def Alike (a b : D) : Prop := a = b ∨ (a == b) = true

theorem Alike.refl (a : D) : Alike a a := .inl rfl

theorem Alike.symm [PartialEquivBEq D] {a b : D} (h : Alike a b) : Alike b a := by
  rcases h with rfl | h
  · exact .refl a
  · exact .inr (BEq.symm h)

theorem Alike.trans [PartialEquivBEq D] {a b c : D} (hab : Alike a b) (hbc : Alike b c) :
    Alike a c := by
  rcases hab with rfl | hab
  · exact hbc
  · rcases hbc with rfl | hbc
    · exact .inr hab
    · exact .inr (BEq.trans hab hbc)

theorem alike_equivalence [PartialEquivBEq D] : Equivalence (Alike : D → D → Prop) :=
  ⟨.refl, .symm, .trans⟩

end Alike

namespace Analysis

variable {V D : Type} (A : Analysis V D) (R : D → D → Prop)

/-- Merging and widening related states gives related states. -/
structure Congruent : Prop where
  merge : ∀ {a a' b b' : D}, R a a' → R b b' → R (A.mergeData a b) (A.mergeData a' b')
  widen : ∀ {a a' b b' : D}, R a a' → R b b' → R (A.widenData a b) (A.widenData a' b')

/-- The merge of states from the first one to the last, none if there are no states. -/
def mergeAll? : List D → Option D
  | [] => none
  | state :: states => some (states.foldl A.mergeData state)

variable {A R}

theorem congruent_eq : A.Congruent Eq where
  merge := by
    rintro a _ b _ rfl rfl
    rfl
  widen := by
    rintro a _ b _ rfl rfl
    rfl

theorem Congruent.foldl (hA : A.Congruent R) {states states' : List D}
    (h : List.Forall₂ R states states') {start start' : D} (hstart : R start start') :
    R (states.foldl A.mergeData start) (states'.foldl A.mergeData start') := by
  induction h generalizing start start' with
  | nil => exact hstart
  | cons hhead _ ih => exact ih (hA.merge hstart hhead)

theorem Congruent.mergeAll? (hA : A.Congruent R) {states states' : List D}
    (h : List.Forall₂ R states states') {merged : D}
    (hmerged : A.mergeAll? states = some merged) :
    ∃ merged', A.mergeAll? states' = some merged' ∧ R merged merged' := by
  cases h with
  | nil => simp [Analysis.mergeAll?] at hmerged
  | cons hhead htail =>
    obtain rfl := Option.some.inj hmerged
    exact ⟨_, rfl, hA.foldl htail hhead⟩

/-- A property that merging keeps on both sides holds of a merge if it holds of one of the
states. -/
theorem foldl_mergeData_of_mem {P Q : D → Prop}
    (hmerge : ∀ {a b}, P a → P b → P (A.mergeData a b))
    (hkept : ∀ {a b}, P a → P b → Q a ∨ Q b → Q (A.mergeData a b)) {states : List D} {start : D}
    (hstart : P start) (hstates : ∀ state ∈ states, P state)
    (h : Q start ∨ ∃ state ∈ states, Q state) :
    Q (states.foldl A.mergeData start) := by
  induction states generalizing start with
  | nil => simpa using h
  | cons head states ih =>
    have hhead := hstates head List.mem_cons_self
    refine ih (hmerge hstart hhead)
      (fun state hstate => hstates state (List.mem_cons_of_mem head hstate)) ?_
    rcases h with h | ⟨state, hstate, h⟩
    · exact .inl (hkept hstart hhead (.inl h))
    · rcases List.mem_cons.1 hstate with rfl | hstate
      · exact .inl (hkept hstart hhead (.inr h))
      · exact .inr ⟨state, hstate, h⟩

theorem mergeAll?_of_mem {P Q : D → Prop} (hmerge : ∀ {a b}, P a → P b → P (A.mergeData a b))
    (hkept : ∀ {a b}, P a → P b → Q a ∨ Q b → Q (A.mergeData a b)) {states : List D} {merged : D}
    (hstates : ∀ state ∈ states, P state) (hmerged : A.mergeAll? states = some merged) {state : D}
    (hmem : state ∈ states) (h : Q state) : Q merged := by
  cases states with
  | nil => cases hmem
  | cons start states =>
    obtain rfl := Option.some.inj hmerged
    refine foldl_mergeData_of_mem hmerge hkept (hstates start List.mem_cons_self)
      (fun other hother => hstates other (List.mem_cons_of_mem start hother)) ?_
    rcases List.mem_cons.1 hmem with rfl | hmem
    · exact .inl h
    · exact .inr ⟨state, hmem, h⟩

/-- States of a kind merge to a state of the kind. -/
theorem mergeAll?_of_closed {P : D → Prop} (hmerge : ∀ {a b}, P a → P b → P (A.mergeData a b))
    {states : List D} {merged : D} (hstates : ∀ state ∈ states, P state)
    (hmerged : A.mergeAll? states = some merged) : P merged := by
  cases states with
  | nil => cases hmerged
  | cons start states =>
    exact mergeAll?_of_mem hmerge (fun ha hb _ => hmerge ha hb) hstates hmerged List.mem_cons_self
      (hstates start List.mem_cons_self)

theorem le_mergeAll? {le : D → D → Prop} (hrefl : ∀ a, le a a)
    (htrans : ∀ a b c, le a b → le b c → le a c)
    (hmerge : ∀ a b, le a (A.mergeData a b) ∧ le b (A.mergeData a b)) {states : List D}
    {merged : D} (hmerged : A.mergeAll? states = some merged) {state : D} (h : state ∈ states) :
    le state merged := by
  refine mergeAll?_of_mem (P := fun _ => True) (Q := le state) (fun _ _ => trivial) ?_
    (fun _ _ => trivial) hmerged h (hrefl state)
  rintro a b - - (ha | hb)
  · exact htrans _ _ _ ha (hmerge a b).1
  · exact htrans _ _ _ hb (hmerge a b).2

end Analysis

namespace ControlFlowGraph

variable {D : Type} {R : D → D → Prop}

/-- The states that flow into a block: the first state if it is the entry, and then the exit states
of the predecessors that control can come from. -/
def inflow (graph : ControlFlowGraph) (first : D) (exit? : BlockId → Option D) (id : BlockId) :
    List D :=
  (if id = graph.entry then [first] else []) ++
    (graph.predecessors id).filterMap fun source =>
      if graph.canFlow source id then exit? source else none

theorem mem_inflow {graph : ControlFlowGraph} {first : D} {exit? : BlockId → Option D}
    {id : BlockId} {state : D} : state ∈ graph.inflow first exit? id ↔
      (id = graph.entry ∧ state = first) ∨ ∃ source ∈ graph.predecessors id,
        graph.canFlow source id = true ∧ exit? source = some state := by
  unfold inflow
  rw [List.mem_append, List.mem_filterMap]
  refine or_congr ?_ (exists_congr fun source => and_congr_right fun _ => ?_)
  · split <;> simp_all
  · split <;> simp_all

/-- What flows into a block depends on the exit states of the blocks that control comes from. -/
theorem inflow_congr (graph : ControlFlowGraph) (first : D) {exit? exit?' : BlockId → Option D}
    {id : BlockId}
    (h : ∀ source, graph.canFlow source id = true → exit? source = exit?' source) :
    graph.inflow first exit? id = graph.inflow first exit?' id := by
  unfold inflow
  congr 1
  refine List.filterMap_congr fun source _ => ?_
  split
  · next hflow => exact h source hflow
  · rfl

theorem filterMap_rel {exit? exit?' : BlockId → Option D} (list : List BlockId)
    (h : ∀ source ∈ list, Option.Rel R (exit? source) (exit?' source)) :
    List.Forall₂ R (list.filterMap exit?) (list.filterMap exit?') := by
  induction list with
  | nil => exact .nil
  | cons source list ih =>
    have htail := ih fun s hs => h s (by simp [hs])
    have hhead := h source (by simp)
    cases hexit : exit? source with
    | none =>
      cases hexit' : exit?' source with
      | none => simpa [hexit, hexit'] using htail
      | some exit' => simp [hexit, hexit'] at hhead
    | some exit =>
      cases hexit' : exit?' source with
      | none => simp [hexit, hexit'] at hhead
      | some exit' =>
        have hexits : R exit exit' := by simpa [hexit, hexit'] using hhead
        simpa [hexit, hexit'] using List.Forall₂.cons hexits htail

/-- If these exit states are related, so is what flows into the block. -/
theorem inflow_rel (graph : ControlFlowGraph) {first : D} (hfirst : R first first)
    {exit? exit?' : BlockId → Option D} {id : BlockId}
    (h : ∀ source, graph.canFlow source id = true → Option.Rel R (exit? source) (exit?' source)) :
    List.Forall₂ R (graph.inflow first exit? id) (graph.inflow first exit?' id) := by
  refine List.rel_append ?_ (filterMap_rel _ fun source _ => ?_)
  · split
    · exact .cons hfirst .nil
    · exact .nil
  · split
    · next hflow => exact h source hflow
    · exact .none

end ControlFlowGraph

namespace Solver

variable {V D : Type} (A : Analysis V D) (options : Options) (schedule : Schedule) (first : D)

/-! ## The invariant -/

/-- The latest exit state of a block. -/
def exit? (state : State V D) (id : BlockId) : Option D := (state.visits.get? id).map (·.exit)

/-- The entry state of a block with the given earlier visits, from the merge of the states that
flow into it. -/
def widened (id : BlockId) (earlier : List (Visit D)) (merged : D) : D :=
  if schedule.anchors.contains id && options.widenAfter < earlier.length + 1 then
    match earlier.getLast? with
    | some previous => A.widenData merged previous.entry
    | none => merged
  else merged

variable {A options schedule first}

theorem widened_eq_merged {id : BlockId} {earlier : List (Visit D)} (merged : D)
    (h : id ∉ schedule.anchors ∨ earlier = [] ∨ earlier.length + 1 ≤ options.widenAfter) :
    widened A options schedule id earlier merged = merged := by
  rcases h with h | rfl | h
  · simp [widened, h]
  · simp [widened]
  · simp [widened, Nat.not_lt.2 h]

theorem widened_eq_widenData {id : BlockId} {earlier : List (Visit D)} (merged : D)
    (hanchor : id ∈ schedule.anchors) (hcount : options.widenAfter < earlier.length + 1)
    {previous : Visit D} (hprevious : earlier.getLast? = some previous) :
    widened A options schedule id earlier merged = A.widenData merged previous.entry := by
  simp [widened, hanchor, hcount, hprevious]

theorem le_widened {le : D → D → Prop} (hrefl : ∀ a, le a a)
    (hwiden : ∀ a b, le a (A.widenData a b) ∧ le b (A.widenData a b)) (id : BlockId)
    (earlier : List (Visit D)) (merged : D) :
    le merged (widened A options schedule id earlier merged) := by
  unfold widened
  split
  · split
    · exact (hwiden _ _).1
    · exact hrefl merged
  · exact hrefl merged

/-- The solver merges what flows into a block, and there is something to merge. -/
theorem Traced.mergeAll?_inflow {log : List (BlockId × Visit D)} {state : State V D}
    (h : Traced schedule log state) (hs : schedule.Sound) {p : Nat} (hp : p ∈ state.pending)
    {id : BlockId} (hid : schedule.order[p]? = some id) :
    A.mergeAll? (schedule.graph.inflow first (exit? state) id) =
      some (mergedEntry A schedule first state.visits id) := by
  have hincoming : incoming schedule state.visits id =
      (schedule.graph.predecessors id).filterMap fun source =>
        if schedule.graph.canFlow source id then exit? state source else none := by
    refine List.filterMap_congr fun source _ => ?_
    cases hvisit : state.visits.get? source with
    | none => simp [exit?, hvisit]
    | some visit =>
      have hiff := (h.known source visit hvisit).2 id
      by_cases hflow : schedule.graph.canFlow source id = true
      · simp [exit?, hvisit, hflow, hiff.2 hflow, guard]
      · simp [hflow, mt hiff.1 hflow, guard]
  have hne : schedule.graph.inflow first (exit? state) id ≠ [] := by
    rcases h.wanted p hp id hid with rfl | ⟨source, hsource, hflow⟩
    · simp [ControlFlowGraph.inflow]
    · obtain ⟨visit, hvisit⟩ := Option.isSome_iff_exists.1 hsource
      have htarget := hs.known id (List.mem_of_getElem? hid)
      have hmem : visit.exit ∈ (schedule.graph.predecessors id).filterMap fun source =>
          if schedule.graph.canFlow source id then exit? state source else none :=
        List.mem_filterMap.2 ⟨source, schedule.graph.mem_predecessors_iff.2
          (schedule.graph.mem_successors_of_canFlow hflow htarget), by simp [hflow, exit?, hvisit]⟩
      exact List.ne_nil_of_mem (List.mem_append_right _ hmem)
  have hmerged : mergedEntry A schedule first state.visits id =
      match schedule.graph.inflow first (exit? state) id with
      | [] => first
      | state :: states => states.foldl A.mergeData state := by
    unfold mergedEntry
    rw [hincoming]
    rfl
  rw [hmerged]
  cases hlist : schedule.graph.inflow first (exit? state) id with
  | nil => exact absurd hlist hne
  | cons state states => rfl

/-- The entry state with which a pending block is visited. -/
theorem Traced.entryState_eq {log : List (BlockId × Visit D)} {state : State V D}
    (h : Traced schedule log state) (hoverruns : state.overruns = []) (id : BlockId) :
    entryState A options schedule first state.visits id (turns state id + 1) =
      widened A options schedule id (visitsOf id log)
        (mergedEntry A schedule first state.visits id) := by
  have hcount : turns state id = (visitsOf id log).length := by
    simpa [hoverruns] using h.counts id
  cases hlast : (visitsOf id log).getLast? with
  | none => simp [entryState, widened, hcount, h.latest id, hlast]
  | some previous => simp [entryState, widened, hcount, h.latest id, hlast]

variable {R : D → D → Prop} {T : BlockId → Prop}

variable (A options schedule first R T) in
/-- The entry states of the visited blocks of a set that are not pending are up to date. -/
def Settled (log : List (BlockId × Visit D)) (state : State V D) : Prop :=
  ∀ id visit, T id → state.visits.get? id = some visit →
    (∀ p ∈ state.pending, schedule.order[p]? ≠ some id) →
    ∃ earlier merged, visitsOf id log = earlier ++ [visit] ∧
      A.mergeAll? (schedule.graph.inflow first (exit? state) id) = some merged ∧
      R visit.entry (widened A options schedule id earlier merged)

theorem widened_rel (hR : Equivalence R) (hA : A.Congruent R) (id : BlockId)
    (earlier : List (Visit D)) {a b : D} (h : R a b) :
    R (widened A options schedule id earlier a) (widened A options schedule id earlier b) := by
  unfold widened
  split
  · split
    · exact hA.widen h (hR.refl _)
    · exact h
  · exact h

variable [BEq D]

variable (R) in
/-- Exit states of successive visits of a block that the comparison of states takes to be the same
are related. -/
def ComparesBy (id : BlockId) (log : List (BlockId × Visit D)) : Prop :=
  (visitsOf id log).IsChain fun v w => (v.exit == w.exit) = true → R v.exit w.exit

theorem comparesBy_alike (id : BlockId) (log : List (BlockId × Visit D)) :
    ComparesBy Alike id log :=
  List.Pairwise.isChain (List.pairwise_of_forall fun _ _ h => .inr h)

theorem ComparesBy.of_append {id : BlockId} {log log' : List (BlockId × Visit D)}
    (h : ComparesBy R id (log ++ log')) : ComparesBy R id log := by
  unfold ComparesBy at h
  rw [visitsOf_append, List.isChain_append] at h
  exact h.1

theorem ComparesBy.of_same {id : BlockId} {log : List (BlockId × Visit D)} {visit : Visit D}
    (h : ComparesBy R id (log ++ [(id, visit)])) {previous : Visit D}
    (hprevious : (visitsOf id log).getLast? = some previous)
    (hsame : (previous.exit == visit.exit) = true) : R previous.exit visit.exit := by
  unfold ComparesBy at h
  rw [visitsOf_append, visitsOf_singleton_self, List.isChain_append] at h
  exact h.2.2 previous hprevious visit rfl hsame

variable [AbstractValue V] [EntityState D V]

/-- A turn leaves what flows into a block related, unless the block is pending afterwards. -/
theorem inflow_rel_of_visit (hR : Equivalence R) (hs : schedule.Sound)
    {log : List (BlockId × Visit D)} {before after : State V D} {position : Nat} {id : BlockId}
    {visit : Visit D} (htraced : Traced schedule log before)
    (hturn : Turn A options schedule first before position (some (id, visit)) after)
    {target : BlockId} (htarget : target ∈ schedule.order)
    (hcompares : schedule.graph.canFlow id target = true →
      ComparesBy R id (log ++ [(id, visit)]))
    (hpending : ∀ p ∈ after.pending, schedule.order[p]? ≠ some target) :
    List.Forall₂ R (schedule.graph.inflow first (exit? before) target)
      (schedule.graph.inflow first (exit? after) target) := by
  have hsuccessors := hturn.mem_successors_iff
  refine schedule.graph.inflow_rel (hR.refl first) fun source hflow => ?_
  cases hturn with
  | visit _ block _ machine hid hblock hlimit hvisit =>
    by_cases heq : id = source
    · subst heq
      obtain ⟨p, hp⟩ := hs.mem_order_iff.1 htarget
      have hposition := hs.position?_eq_some_iff.1 hp
      have hmem := (hsuccessors target).2 hflow
      have hspared : p ∉ affected schedule (before.visits.get? id) visit := fun hp' =>
        hpending p (Worklist.mem_foldl_insert.2 (.inl hp')) hposition
      -- The block is spared only if the exit state was there before and compares as the same.
      cases hprevious : before.visits.get? id with
      | none =>
        exact absurd (mem_affected_iff.2 ⟨target, hmem, hp, by simp [hprevious]⟩) hspared
      | some previous =>
        by_cases hsame : (previous.exit == visit.exit) = true
        · have hexits := (hcompares hflow).of_same (htraced.latest id ▸ hprevious) hsame
          simpa [exit?, hprevious] using hexits
        · refine absurd (mem_affected_iff.2 ⟨target, hmem, hp, ?_⟩) hspared
          intro found hfound halike
          obtain rfl : previous = found := Option.some.inj (hprevious.symm.trans hfound)
          exact absurd halike hsame
    · have hexit : (before.visits.insert id visit).get? source = before.visits.get? source :=
        get?_insert_of_ne before.visits visit heq
      simp only [exit?, hexit]
      cases before.visits.get? source with
      | none => exact .none
      | some found => exact .some (hR.refl _)

/-- **A turn keeps entry states up to date**, as long as no block has used up its visits. -/
theorem settled_turn (hR : Equivalence R) (hA : A.Congruent R) (hs : schedule.Sound)
    {log : List (BlockId × Visit D)} {before after : State V D} {position : Nat}
    {made : Option (BlockId × Visit D)} (htraced : Traced schedule log before)
    (hposition : position ∈ before.pending)
    (hturn : Turn A options schedule first before position made after)
    (hoverruns : after.overruns = [])
    (hcompares : ∀ source target, T target → schedule.graph.canFlow source target = true →
      ComparesBy R source (log ++ made.toList))
    (h : Settled A options schedule first R T log before) :
    Settled A options schedule first R T (log ++ made.toList) after := by
  intro target found hT hfound hpending
  have htarget := ((htraced.turn hs hturn).known target found hfound).1
  have hinflow : ∀ id visit, made = some (id, visit) →
      List.Forall₂ R (schedule.graph.inflow first (exit? before) target)
        (schedule.graph.inflow first (exit? after) target) := by
    rintro id visit rfl
    exact inflow_rel_of_visit hR hs htraced hturn htarget (hcompares id target hT) hpending
  cases hturn with
  | overrun id hid hlimit => simp at hoverruns
  | visit id block visit machine hid hblock hlimit hvisit =>
    have hrelated := hinflow id visit rfl
    by_cases heq : id = target
    · subst heq
      obtain rfl : visit = found := by simpa using hfound
      have hentry : visit.entry = widened A options schedule id (visitsOf id log)
          (mergedEntry A schedule first before.visits id) := by
        rw [← htraced.entryState_eq hoverruns]
        exact congrArg (fun result => result.1.entry) hvisit.symm
      -- The entry state was computed before the visit, and the visit may flow into its own block.
      obtain ⟨merged, hmerged, hsame⟩ :=
        hA.mergeAll? hrelated (htraced.mergeAll?_inflow hs hposition hid)
      refine ⟨visitsOf id log, merged, ?_, hmerged, ?_⟩
      · simp [visitsOf_append, visitsOf_singleton_self]
      · rw [hentry]
        exact widened_rel hR hA id _ hsame
    · have hbefore : before.visits.get? target = some found := by
        rwa [get?_insert_of_ne before.visits visit heq] at hfound
      -- A block that is not pending after the turn was not pending before it either.
      have hnotPending : ∀ p ∈ before.pending, schedule.order[p]? ≠ some target := by
        intro p hp hp'
        have hne : p ≠ position := by
          rintro rfl
          exact heq (Option.some.inj (hid.symm.trans hp'))
        exact hpending p (Worklist.mem_foldl_insert.2 (.inr ((List.mem_erase_of_ne hne).2 hp))) hp'
      obtain ⟨earlier, merged, hearlier, hmerged, hentry⟩ :=
        h target found hT hbefore hnotPending
      obtain ⟨merged', hmerged', hsame⟩ := hA.mergeAll? hrelated hmerged
      refine ⟨earlier, merged', ?_, hmerged', hR.trans hentry (widened_rel hR hA target _ hsame)⟩
      simpa [visitsOf_append, visitsOf_singleton_of_ne heq] using hearlier

end Solver

namespace Analysis

variable {V D : Type} [AbstractValue V] [EntityState D V] [BEq D]
variable (A : Analysis V D) (routine : Routine) (options : Options)

/-! ## The final state -/

/-- The state of the solver at the end of the analysis of a routine. -/
def finalState : Solver.State V D :=
  let schedule := Schedule.ofGraph routine.graph
  Solver.run A options schedule (A.initialState routine) (Solver.stepBound options schedule)
    (Solver.start routine)

/-- The visits that the analysis of a routine makes, in order. -/
def visitLog : List (BlockId × Visit D) :=
  let schedule := Schedule.ofGraph routine.graph
  Solver.visitLog A options schedule (A.initialState routine) (Solver.stepBound options schedule)
    (Solver.start routine)

theorem finalState_pending : (A.finalState routine options).pending = [] :=
  Solver.run_pending_eq_nil (Schedule.ofGraph_sound routine.graph) _ _
    (Solver.scheduled_start (Schedule.ofGraph_sound routine.graph) routine)
    (Nat.le_of_eq (Solver.turnsLeft_start routine))

theorem reachedLimit_eq_false_iff :
    (A.solve routine options).reachedLimit = false ↔
      (A.finalState routine options).overruns = [] := by
  simp [solve, FlowResult.reachedLimit, finalState]

variable {A routine options}

/-- What holds at the start and is preserved by every turn holds at the end of the analysis. -/
theorem finalState_induction {P : List (BlockId × Visit D) → Solver.State V D → Prop}
    (hstart : P [] (Solver.start routine))
    (hstep : ∀ log before position made after,
      (Schedule.ofGraph routine.graph).Ready before.pending position →
      Solver.Turn A options (Schedule.ofGraph routine.graph) (A.initialState routine) before
        position made after →
      P log before → P (log ++ made.toList) after) :
    P (A.visitLog routine options) (A.finalState routine options) := by
  have hs := Schedule.ofGraph_sound routine.graph
  exact (Solver.run_induction hs (fun log before position made after _ => hstep log before position
    made after) (Solver.stepBound options (Schedule.ofGraph routine.graph)) [] _
    (Solver.scheduled_start hs routine) hstart).2

variable (A routine options) in
theorem traced_finalState :
    Solver.Traced (Schedule.ofGraph routine.graph) (A.visitLog routine options)
      (A.finalState routine options) :=
  have hs := Schedule.ofGraph_sound routine.graph
  finalState_induction (Solver.traced_start hs routine)
    fun _ _ _ _ _ _ hturn h => h.turn hs hturn

/-- No entry state is out of date at the end. -/
theorem settled_finalState {R : D → D → Prop} {T : BlockId → Prop} (hR : Equivalence R)
    (hA : A.Congruent R) (hlimit : (A.finalState routine options).overruns = [])
    (hcompares : ∀ source target, T target → routine.graph.canFlow source target = true →
      Solver.ComparesBy R source (A.visitLog routine options)) :
    Solver.Settled A options (Schedule.ofGraph routine.graph) (A.initialState routine) R T
      (A.visitLog routine options) (A.finalState routine options) := by
  have hs := Schedule.ofGraph_sound routine.graph
  let P := fun log (state : Solver.State V D) =>
    Solver.Traced (Schedule.ofGraph routine.graph) log state ∧
      (state.overruns = [] →
        (∀ source target, T target → routine.graph.canFlow source target = true →
          Solver.ComparesBy R source log) →
        Solver.Settled A options (Schedule.ofGraph routine.graph) (A.initialState routine) R T log
          state)
  have hstart : P [] (Solver.start routine) :=
    ⟨Solver.traced_start hs routine, fun _ _ id visit _ hvisit => by simp [Solver.start] at hvisit⟩
  have hfinal : P (A.visitLog routine options) (A.finalState routine options) := by
    refine finalState_induction hstart fun log before position made after hready hturn h => ?_
    refine ⟨h.1.turn hs hturn, fun hafter hlog => ?_⟩
    refine Solver.settled_turn hR hA hs h.1 hready.1 hturn hafter hlog
      (h.2 (hturn.overruns_eq_nil hafter) ?_)
    exact fun source target hT hflow => (hlog source target hT hflow).of_append
  exact hfinal.2 hlimit hcompares

/-! ## The fixed point -/

/-- A block that control can go to from a visited block has been visited, unless some block has used
up its visits. -/
theorem isSome_visits_of_noticed (hlimit : (A.finalState routine options).overruns = [])
    {id : BlockId} (h : Solver.Noticed (Schedule.ofGraph routine.graph)
      (A.finalState routine options) id) :
    ∃ visit, (A.solve routine options).visits.get? id = some visit := by
  rcases h with hvisited | ⟨p, hp, -⟩ | ⟨overrun, hoverrun, -⟩
  · exact Option.isSome_iff_exists.1 hvisited
  · simp [finalState_pending] at hp
  · simp [hlimit] at hoverrun

/-- **The result is a fixed point.**  If no block has used up its visits, the entry state of every
visited block is the merge of what flows into it, from the first visit on and until the visits of a
loop anchor are more than `widenAfter`, and the widening of that merge against the entry state of
the visit before from then on.  So with merging and widening that give upper bounds in some order,
every exit state is below the entry states of the blocks that control can go on to, and the first
state is below the entry state of the entry. -/
theorem solve_isFixedPoint [PartialEquivBEq D] (A : Analysis V D) (hA : A.Congruent Alike)
    (routine : Routine) (options : Options)
    (hlimit : (A.solve routine options).reachedLimit = false) :
    (∀ id visit, (A.solve routine options).visits.get? id = some visit →
      ∃ earlier merged,
        Solver.visitsOf id (A.visitLog routine options) = earlier ++ [visit] ∧
        A.mergeAll? (routine.graph.inflow (A.initialState routine)
          (A.solve routine options).exitState? id) = some merged ∧
        (id ∉ routine.graph.loopAnchors ∨ earlier = [] ∨
          earlier.length + 1 ≤ options.widenAfter → Alike visit.entry merged) ∧
        (id ∈ routine.graph.loopAnchors → options.widenAfter < earlier.length + 1 →
          ∀ previous, earlier.getLast? = some previous →
            Alike visit.entry (A.widenData merged previous.entry))) ∧
    ∀ le : D → D → Prop, (∀ a b, Alike a b → le a b) → (∀ a b c, le a b → le b c → le a c) →
      (∀ a b, le a (A.mergeData a b) ∧ le b (A.mergeData a b)) →
      (∀ a b, le a (A.widenData a b) ∧ le b (A.widenData a b)) →
      (∀ source exit target, (A.solve routine options).exitState? source = some exit →
        routine.graph.canFlow source target = true → routine.graph.contains target = true →
          ∃ entry, (A.solve routine options).entryState? target = some entry ∧ le exit entry) ∧
      ∃ entry, (A.solve routine options).entryState? routine.graph.entry = some entry ∧
        le (A.initialState routine) entry := by
  have hoverruns := (reachedLimit_eq_false_iff A routine options).1 hlimit
  have hsettled := settled_finalState (T := fun _ => True) alike_equivalence hA hoverruns
    fun source _ _ _ => Solver.comparesBy_alike source _
  have htraced := traced_finalState A routine options
  have hnone : ∀ p ∈ (A.finalState routine options).pending, ∀ id,
      (Schedule.ofGraph routine.graph).order[p]? ≠ some id := by
    simp [finalState_pending]
  refine ⟨fun id visit hvisit => ?_, fun le hle htrans hmerge hwiden => ?_⟩
  · obtain ⟨earlier, merged, hearlier, hmerged, hentry⟩ :=
      hsettled id visit trivial hvisit fun p hp => hnone p hp id
    refine ⟨earlier, merged, hearlier, hmerged, fun h => ?_,
      fun hanchor hcount previous hlast => ?_⟩
    · rwa [Solver.widened_eq_merged merged h] at hentry
    · rwa [Solver.widened_eq_widenData merged hanchor hcount hlast] at hentry
  · have hrefl : ∀ a, le a a := fun a => hle a a (.refl a)
    -- What flows into a visited block is below its merge, and the merge is below the entry state.
    have hinflow : ∀ id visit, (A.solve routine options).visits.get? id = some visit →
        ∀ state ∈ routine.graph.inflow (A.initialState routine)
          (A.solve routine options).exitState? id, le state visit.entry := by
      intro id visit hvisit state hstate
      obtain ⟨earlier, merged, -, hmerged, hentry⟩ :=
        hsettled id visit trivial hvisit fun p hp => hnone p hp id
      have hstate := le_mergeAll? hrefl htrans hmerge hmerged hstate
      have hwidened : le merged
          (Solver.widened A options (Schedule.ofGraph routine.graph) id earlier merged) :=
        Solver.le_widened hrefl hwiden id earlier merged
      exact htrans _ _ _ hstate (htrans _ _ _ hwidened (hle _ _ hentry.symm))
    refine ⟨fun source exit target hexit hflow htarget => ?_, ?_⟩
    · obtain ⟨left, hleft, -⟩ := Option.map_eq_some_iff.1 hexit
      have hsource : ((A.finalState routine options).visits.get? source).isSome = true :=
        Option.isSome_iff_exists.2 ⟨left, hleft⟩
      obtain ⟨visit, hvisit⟩ :=
        isSome_visits_of_noticed hoverruns (htraced.fed source hsource target hflow htarget)
      refine ⟨visit.entry, by simp [FlowResult.entryState?, hvisit], ?_⟩
      refine hinflow target visit hvisit exit (List.mem_append_right _ ?_)
      exact List.mem_filterMap.2 ⟨source, routine.graph.mem_predecessors_iff.2
        (routine.graph.mem_successors_of_canFlow hflow htarget), by simp [hflow, hexit]⟩
    · obtain ⟨visit, hvisit⟩ := isSome_visits_of_noticed hoverruns htraced.entry
      refine ⟨visit.entry, congrArg (Option.map Visit.entry) hvisit, ?_⟩
      exact hinflow routine.graph.entry visit hvisit _ (List.mem_append_left _ (by simp))

end Analysis

/-! ## An analysis to try it on -/

/-- A single truth value as a state, which does not depend on the values of entities. -/
instance : EntityState Truth Truth where
  empty := .bottom
  entities _ := .empty
  withEntities state _ := state

/-- The analysis that finds out whether a statement may have been interpreted. -/
def progressAnalysis : Analysis Truth Truth where
  defaultEntityValue _ := .top
  initialState _ := .isFalse
  defaultValue _ _ := .top
  beforeStatement _ := .isTrue
  pointsTo _ _ := .unknown
  mergeData := Truth.join

theorem eq_of_alike {a b : Truth} (h : Alike a b) : a = b := by
  rcases h with h | h
  · exact h
  · exact eq_of_beq h

theorem progressAnalysis_congruent : progressAnalysis.Congruent Alike where
  merge := fun ha hb => eq_of_alike ha ▸ eq_of_alike hb ▸ .refl _
  widen := fun ha hb => eq_of_alike ha ▸ eq_of_alike hb ▸ .refl _

/-- A routine with one loop, whose body interprets a statement. -/
def loopRoutine : Routine where
  name := ""
  containingType? := none
  parameters := []
  returnType := .void
  graph := ⟨[⟨⟨0⟩, [], none, [.always ⟨1⟩]⟩,
    ⟨⟨1⟩, [.ofForm ⟨0⟩ .literal], none, [.always ⟨1⟩, .always ⟨2⟩]⟩, ⟨⟨2⟩, [], none, []⟩], by simp⟩

/-- In the loop, the state after the statement flows back to the start of the body. -/
theorem loopRoutine_isFixedPoint :
    (progressAnalysis.solve loopRoutine { widenAfter := 1 }).reachedLimit = false ∧
      ∃ entry,
        (progressAnalysis.solve loopRoutine { widenAfter := 1 }).entryState? ⟨1⟩ = some entry ∧
          Truth.join .isTrue entry = entry := by
  have hlimit : (progressAnalysis.solve loopRoutine { widenAfter := 1 }).reachedLimit = false := by
    decide
  have hle : ∀ a b : Truth, Alike a b → a.join b = b := by
    rintro a b h
    rw [eq_of_alike h]
    cases b <;> rfl
  have htrans : ∀ a b c : Truth, a.join b = b → b.join c = c → a.join c = c := by
    intro a b c
    cases a <;> cases b <;> cases c <;> simp [Truth.join]
  have hmerge : ∀ a b : Truth, a.join (a.join b) = a.join b ∧ b.join (a.join b) = a.join b := by
    intro a b
    cases a <;> cases b <;> simp [Truth.join]
  have hwiden : ∀ a b : Truth, a.join (b.join a) = b.join a ∧ b.join (b.join a) = b.join a :=
    fun a b => ⟨(hmerge b a).2, (hmerge b a).1⟩
  have hfixed := progressAnalysis.solve_isFixedPoint progressAnalysis_congruent loopRoutine
    { widenAfter := 1 } hlimit
  exact ⟨hlimit, (hfixed.2 (fun a b => a.join b = b) hle htrans hmerge hwiden).1 ⟨1⟩ .isTrue ⟨1⟩
    (by decide) (by decide) (by decide)⟩

end HeapFlow
