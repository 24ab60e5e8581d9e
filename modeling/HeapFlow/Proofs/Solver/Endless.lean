import HeapFlow.Proofs.Solver.Limit
import HeapFlow.Proofs.Solver.OrderIndependence
import Mathlib.Order.Filter.AtTopBot.Basic
import Mathlib.Order.Filter.Finite
import Mathlib.Order.WellFoundedSet

/-! # Runs that do not come to an end

Without a limit of visits nothing but the states can bring a run to an end.  The analysis of a
routine takes the same steps with every limit that is not reached
(`Analysis.stateAfter_withLimit_eq`), so either it comes to an end, and then every higher limit
gives the same result (`Analysis.solve_of_ended`), or it makes one visit after the other
(`Solver.Endless`).

An endless run visits some blocks again and again (`Endless.Recurs`).  Such a block is fed by one
whose exit state changes again and again (`Endless.Recurs.exists_feeds`).  There are finitely many
blocks, so some of them feed each other in a cycle (`Endless.exists_cycle`).

What holds of all later visits of a block holds of its latest visit later on
(`Endless.Recurs.eventually_latest`).
-/
namespace HeapFlow

namespace Solver

variable {V D : Type} [AbstractValue V] [EntityState D V] [BEq D]
variable {A : Analysis V D} {options : Options} {routine : Routine}

/-! ## What a visit is -/

theorem Turn.visits_eq {schedule : Schedule} {first : D} {before after : State V D} {position : Nat}
    {id : BlockId} {visit : Visit D}
    (hturn : Turn A options schedule first before position (some (id, visit)) after)
    (other : BlockId) :
    after.visits.get? other = if id = other then some visit else before.visits.get? other := by
  cases hturn with
  | visit _ block _ machine hid hblock hlimit hvisit =>
    by_cases heq : id = other
    · subst heq
      simp
    · rw [if_neg heq]
      exact get?_insert_of_ne before.visits visit heq

theorem Turn.entry_eq {schedule : Schedule} {first : D} {before after : State V D} {position : Nat}
    {id : BlockId} {visit : Visit D}
    (hturn : Turn A options schedule first before position (some (id, visit)) after) :
    visit.entry =
      entryState A options schedule first before.visits id (turns before id + 1) := by
  cases hturn with
  | visit _ block _ machine hid hblock hlimit hvisit => exact congrArg (·.1.entry) hvisit.symm

/-- A visit is determined by the entry state of the block. -/
theorem Turn.exists_block (hA : A.Local) (hreceivers : routine.HasEnclosedReceivers)
    {before after : State V D} {position : Nat} {id : BlockId} {visit : Visit D}
    (hturn : Turn A options routine.schedule (A.initialState routine) before position
      (some (id, visit)) after) (hresting : Resting routine before.machine) :
    ∃ block, routine.graph.block? id = some block ∧
      visit = visitOf A routine block visit.entry := by
  cases hturn with
  | visit _ block _ machine hid hblock hlimit hvisit =>
    have hfound : routine.graph.block? id = some block := hblock
    refine ⟨block, hfound, ?_⟩
    let entry := entryState A options routine.schedule (A.initialState routine) before.visits id
      (turns before id + 1)
    have hmade := visit_interpret hA (hreceivers block (routine.graph.mem_blocks_of_block? hfound))
      entry hresting
    have hdetermined : visit = visitOf A routine block entry := by
      rw [← hmade, hvisit]
    rw [hdetermined]
    rfl

/-- A block whose turn it may be. -/
def IsPending (routine : Routine) (state : State V D) (id : BlockId) : Prop :=
  ∃ p ∈ state.pending, routine.schedule.order[p]? = some id

/-! ## Endless runs -/

/-- A run that makes one visit after the other. -/
structure Endless (A : Analysis V D) (routine : Routine) (options : Options) where
  state : Nat → State V D
  id : Nat → BlockId
  visit : Nat → Visit D
  start : state 0 = Solver.start routine
  turn : ∀ n, ∃ limit position, position ∈ (state n).pending ∧
    Turn A (options.withLimit limit) routine.schedule (A.initialState routine) (state n) position
      (some (id n, visit n)) (state (n + 1))

namespace Endless

variable (run : Endless A routine options)

/-- The latest visit of a block. -/
def latest? (n : Nat) (id : BlockId) : Option (Visit D) := (run.state n).visits.get? id

/-- The exit state of the block that is visited differs from the one before, as far as the
comparison of states can tell. -/
def Changes (n : Nat) : Prop :=
  ∀ previous, run.latest? n (run.id n) = some previous →
    (previous.exit == (run.visit n).exit) = false

/-- The block is visited again and again. -/
def Recurs (id : BlockId) : Prop := ∃ᶠ n in Filter.atTop, run.id n = id

/-- The exit state of the first block changes again and again, and control can go from there to the
second block, which is visited again and again. -/
def Feeds (source target : BlockId) : Prop :=
  (∃ᶠ n in Filter.atTop, run.id n = source ∧ run.Changes n) ∧ run.Recurs target ∧
    routine.graph.canFlow source target = true

theorem traced (n : Nat) : Scheduled routine.schedule (run.state n) ∧
    (run.state n).overruns = [] ∧ ∃ log, Traced routine.schedule log (run.state n) := by
  have hs := routine.schedule_sound
  induction n with
  | zero =>
    rw [run.start]
    exact ⟨scheduled_start hs routine, rfl, [], traced_start hs routine⟩
  | succ n ih =>
    obtain ⟨hscheduled, hoverruns, log, htraced⟩ := ih
    obtain ⟨limit, position, -, hturn⟩ := run.turn n
    refine ⟨hscheduled.turn hs hturn, ?_, _, htraced.turn hs hturn⟩
    generalize run.state (n + 1) = after at hturn
    cases hturn with
    | visit _ block _ machine hid hblock hlimit hvisit => exact hoverruns

theorem resting (hA : A.Local) (hreceivers : routine.HasEnclosedReceivers) (n : Nat) :
    Resting routine (run.state n).machine := by
  induction n with
  | zero =>
    rw [run.start]
    exact resting_initial
  | succ n ih =>
    obtain ⟨limit, position, -, hturn⟩ := run.turn n
    exact ih.turn hA hreceivers hturn

theorem mem_order (n : Nat) : run.id n ∈ routine.schedule.order := by
  obtain ⟨limit, position, -, hturn⟩ := run.turn n
  exact List.mem_of_getElem? hturn.getElem?_eq

theorem latest?_succ (n : Nat) (id : BlockId) :
    run.latest? (n + 1) id = if run.id n = id then some (run.visit n) else run.latest? n id := by
  obtain ⟨limit, position, -, hturn⟩ := run.turn n
  exact hturn.visits_eq id

theorem turns_succ (n : Nat) (id : BlockId) :
    turns (run.state (n + 1)) id = turns (run.state n) id + if run.id n = id then 1 else 0 := by
  obtain ⟨limit, position, -, hturn⟩ := run.turn n
  obtain ⟨taken, htaken, hturns⟩ := hturn.turns_eq
  obtain rfl : run.id n = taken := Option.some.inj (hturn.getElem?_eq.symm.trans htaken)
  exact hturns id

/-- What flows into the block that is visited. -/
def inflow (n : Nat) : List D :=
  routine.graph.inflow (A.initialState routine) (fun id => (run.latest? n id).map (·.exit))
    (run.id n)

/-- The merge of what flows into the block that is visited. -/
def merged (n : Nat) : D :=
  mergedEntry A routine.schedule (A.initialState routine) (run.state n).visits (run.id n)

theorem mergeAll?_inflow (n : Nat) : A.mergeAll? (run.inflow n) = some (run.merged n) := by
  obtain ⟨limit, position, hposition, hturn⟩ := run.turn n
  obtain ⟨-, -, log, htraced⟩ := run.traced n
  exact htraced.mergeAll?_inflow routine.schedule_sound hposition hturn.getElem?_eq

theorem entry_eq (n : Nat) :
    (run.visit n).entry = entryState A options routine.schedule (A.initialState routine)
      (run.state n).visits (run.id n) (turns (run.state n) (run.id n) + 1) := by
  obtain ⟨limit, position, -, hturn⟩ := run.turn n
  exact hturn.entry_eq

theorem entry_eq_widenData {n : Nat} (h : run.id n ∈ routine.graph.loopAnchors)
    (hturns : options.widenAfter ≤ turns (run.state n) (run.id n)) {previous : Visit D}
    (hprevious : run.latest? n (run.id n) = some previous) :
    (run.visit n).entry = A.widenData (run.merged n) previous.entry := by
  have hanchor : run.id n ∈ routine.schedule.anchors := h
  have hvisit : (run.state n).visits.get? (run.id n) = some previous := hprevious
  rw [entry_eq]
  simp [entryState, hanchor, Nat.lt_succ_of_le hturns, hvisit, merged]

/-- The entry state is what flows in, and may be widened. -/
theorem entry_eq_or (n : Nat) : (run.visit n).entry = run.merged n ∨
    ∃ previous, run.latest? n (run.id n) = some previous ∧
      (run.visit n).entry = A.widenData (run.merged n) previous.entry := by
  rw [entry_eq]
  unfold entryState
  split
  · split
    · next previous hprevious => exact .inr ⟨previous, hprevious, rfl⟩
    · exact .inl rfl
  · exact .inl rfl

theorem exists_block (hA : A.Local) (hreceivers : routine.HasEnclosedReceivers) (n : Nat) :
    ∃ block, routine.graph.block? (run.id n) = some block ∧
      run.visit n = visitOf A routine block (run.visit n).entry := by
  obtain ⟨limit, position, -, hturn⟩ := run.turn n
  exact hturn.exists_block hA hreceivers (run.resting hA hreceivers n)

/-! ## What happens again and again -/

/-- Of what happens again and again, some happens to one block again and again. -/
theorem exists_frequently {P : Nat → Prop} (h : ∃ᶠ n in Filter.atTop, P n) :
    ∃ id, ∃ᶠ n in Filter.atTop, run.id n = id ∧ P n := by
  by_contra hnone
  have hfinite : {id | id ∈ routine.schedule.order}.Finite := routine.schedule.order.finite_toSet
  have hall : ∀ᶠ n in Filter.atTop, ∀ id ∈ {id | id ∈ routine.schedule.order},
      ¬(run.id n = id ∧ P n) := by
    refine (Filter.eventually_all_finite hfinite).2 fun id _ => ?_
    exact Filter.not_frequently.1 fun hid => hnone ⟨id, hid⟩
  obtain ⟨n, hn, hnot⟩ := (h.and_eventually hall).exists
  exact hnot (run.id n) (run.mem_order n) ⟨rfl, hn⟩

theorem exists_recurs : ∃ id, run.Recurs id := by
  obtain ⟨id, hid⟩ := run.exists_frequently (P := fun _ => True)
    (Filter.Frequently.of_forall fun _ => trivial)
  exact ⟨id, hid.mono fun _ h => h.1⟩

/-- A block that has been visited becomes pending again when the exit state changes of a block that
control comes from. -/
theorem exists_changes_of_lt {m n : Nat} (hlt : m < n) (hid : run.id m = run.id n) :
    ∃ k, m ≤ k ∧ routine.graph.canFlow (run.id k) (run.id n) = true ∧ run.Changes k := by
  by_contra hnone
  have hpending : ∀ k, m < k → k ≤ n → ¬IsPending routine (run.state k) (run.id n) := by
    intro k hk
    induction k, hk using Nat.le_induction with
    | base =>
      intro _ hmem
      obtain ⟨limit, position, hposition, hturn⟩ := run.turn m
      obtain ⟨hscheduled, -, log, htraced⟩ := run.traced m
      rcases (hturn.pending_iff routine.schedule_sound htraced hscheduled _).1 hmem with
        ⟨-, hne⟩ | ⟨⟨-, hflow⟩, hchanges⟩
      · exact hne hid.symm
      · exact hnone ⟨m, Nat.le_refl m, hflow, hchanges⟩
    | succ k hk ih =>
      intro hle hmem
      obtain ⟨limit, position, hposition, hturn⟩ := run.turn k
      obtain ⟨hscheduled, -, log, htraced⟩ := run.traced k
      rcases (hturn.pending_iff routine.schedule_sound htraced hscheduled _).1 hmem with
        ⟨hmem, -⟩ | ⟨⟨-, hflow⟩, hchanges⟩
      · exact ih (by omega) hmem
      · exact hnone ⟨k, by omega, hflow, hchanges⟩
  obtain ⟨limit, position, hposition, hturn⟩ := run.turn n
  exact hpending n hlt (Nat.le_refl n) ⟨position, hposition, hturn.getElem?_eq⟩

variable {run}

theorem Recurs.mem_order {id : BlockId} (h : run.Recurs id) : id ∈ routine.schedule.order := by
  obtain ⟨n, rfl⟩ := h.exists
  exact run.mem_order n

theorem Feeds.recurs {source target : BlockId} (h : run.Feeds source target) : run.Recurs source :=
  h.1.mono fun _ h => h.1

theorem Feeds.mem_successors {source target : BlockId} (h : run.Feeds source target) :
    target ∈ routine.graph.successors source :=
  routine.graph.mem_successors_of_canFlow h.2.2
    (routine.schedule_sound.known target h.2.1.mem_order)

/-- **A block that is visited again and again is fed.** -/
theorem Recurs.exists_feeds {id : BlockId} (h : run.Recurs id) :
    ∃ source, run.Feeds source id := by
  have hfed : ∃ᶠ k in Filter.atTop,
      routine.graph.canFlow (run.id k) id = true ∧ run.Changes k := by
    rw [Filter.frequently_atTop]
    intro start
    obtain ⟨m, hm, hidm⟩ := Filter.frequently_atTop.1 h start
    obtain ⟨n, hn, hidn⟩ := Filter.frequently_atTop.1 h (m + 1)
    obtain ⟨k, hk, hflow, hchanges⟩ := run.exists_changes_of_lt hn (hidm.trans hidn.symm)
    exact ⟨k, Nat.le_trans hm hk, hidn ▸ hflow, hchanges⟩
  obtain ⟨source, hsource⟩ := run.exists_frequently hfed
  obtain ⟨n, rfl, hflow, -⟩ := hsource.exists
  exact ⟨run.id n, hsource.mono fun k hk => ⟨hk.1, hk.2.2⟩, h, hflow⟩

variable (run) in
/-- **Some blocks feed each other in a cycle**: otherwise one of the blocks that are visited again
and again would come before all blocks that feed it. -/
theorem exists_cycle : ∃ id, Relation.TransGen run.Feeds id id := by
  by_contra hnone
  have hstrict : IsStrictOrder BlockId (Relation.TransGen run.Feeds) :=
    { irrefl := fun id hcycle => hnone ⟨id, hcycle⟩
      trans := fun _ _ _ hab hbc => hab.trans hbc }
  have hfinite : {id | run.Recurs id}.Finite :=
    routine.schedule.order.finite_toSet.subset fun _ h => h.mem_order
  have hfounded : {id | run.Recurs id}.WellFoundedOn (Relation.TransGen run.Feeds) :=
    hfinite.wellFoundedOn
  obtain ⟨id, hid⟩ := run.exists_recurs
  refine hfounded.induction (P := fun _ => False) hid fun id hid ih => ?_
  obtain ⟨source, hfeeds⟩ := Recurs.exists_feeds hid
  exact ih source hfeeds.recurs (.single hfeeds)

/-- What holds of all later visits of a block that is visited again holds of its latest visit later
on. -/
theorem Recurs.eventually_latest {id : BlockId} (h : run.Recurs id) {P : Visit D → Prop}
    (hP : ∀ᶠ n in Filter.atTop, run.id n = id → P (run.visit n)) :
    ∀ᶠ n in Filter.atTop, ∃ visit, run.latest? n id = some visit ∧ P visit := by
  obtain ⟨start, hstart⟩ := Filter.eventually_atTop.1 hP
  obtain ⟨m, hm, hid⟩ := Filter.frequently_atTop.1 h start
  refine Filter.eventually_atTop.2 ⟨m + 1, fun n hn => ?_⟩
  induction n, hn using Nat.le_induction with
  | base => exact ⟨run.visit m, by rw [run.latest?_succ, if_pos hid], hstart m hm hid⟩
  | succ n hn ih =>
    rw [run.latest?_succ]
    by_cases hvisited : run.id n = id
    · rw [if_pos hvisited]
      exact ⟨run.visit n, rfl, hstart n (by omega) hvisited⟩
    · rw [if_neg hvisited]
      exact ih

/-- The turns of a block that is visited again and again exceed every bound. -/
theorem Recurs.eventually_turns {id : BlockId} (h : run.Recurs id) (bound : Nat) :
    ∀ᶠ n in Filter.atTop, bound ≤ turns (run.state n) id := by
  have hmono : ∀ {m n : Nat}, m ≤ n → turns (run.state m) id ≤ turns (run.state n) id := by
    intro m n hle
    induction n, hle using Nat.le_induction with
    | base => exact Nat.le_refl _
    | succ n _ ih =>
      rw [run.turns_succ]
      omega
  induction bound with
  | zero => exact Filter.Eventually.of_forall fun _ => Nat.zero_le _
  | succ bound ih =>
    obtain ⟨start, hstart⟩ := Filter.eventually_atTop.1 ih
    obtain ⟨m, hm, hid⟩ := Filter.frequently_atTop.1 h start
    refine Filter.eventually_atTop.2 ⟨m + 1, fun n hn => ?_⟩
    have hle := hmono hn
    have hbound := hstart m hm
    rw [run.turns_succ, if_pos hid] at hle
    omega

end Endless
end Solver

namespace Analysis

variable {V D : Type} [AbstractValue V] [EntityState D V] [BEq D]
variable {A : Analysis V D} {routine : Routine} {options : Options}

/-! ## Runs without a limit -/

variable (A routine options) in
/-- A block has at most one turn in each step. -/
theorem turns_stateAfter_le (steps : Nat) (id : BlockId) :
    Solver.turns (A.stateAfter routine options steps) id ≤ steps := by
  induction steps with
  | zero => exact Nat.le_refl 0
  | succ steps ih =>
    cases htaken : A.taken? routine options steps with
    | none =>
      rw [stateAfter_succ_of_none htaken]
      omega
    | some position =>
      obtain ⟨made, hturn, -⟩ := turn_of_taken? htaken
      obtain ⟨taken, -, hturns⟩ := hturn.turns_eq
      rw [hturns id]
      split <;> omega

/-- A limit does not matter before there have been as many steps. -/
theorem stateAfter_withLimit_eq {steps limit limit' : Nat} (hle : steps ≤ limit)
    (hle' : steps ≤ limit') : A.stateAfter routine (options.withLimit limit) steps =
      A.stateAfter routine (options.withLimit limit') steps := by
  induction steps with
  | zero => rfl
  | succ steps ih =>
    have hstate := ih (by omega) (by omega)
    have htakenEq : A.taken? routine (options.withLimit limit') steps =
        A.taken? routine (options.withLimit limit) steps := by
      unfold taken?
      rw [hstate]
      rfl
    cases htaken : A.taken? routine (options.withLimit limit) steps with
    | none =>
      rw [stateAfter_succ_of_none htaken, stateAfter_succ_of_none (htakenEq ▸ htaken), hstate]
    | some position =>
      rw [stateAfter_succ_of_some htaken, stateAfter_succ_of_some (htakenEq ▸ htaken), ← hstate]
      refine (Solver.takeUp_withLimit fun id _ => ?_).symm
      have hturns := A.turns_stateAfter_le routine (options.withLimit limit) steps id
      exact ⟨Nat.lt_of_le_of_lt hturns hle, Nat.lt_of_le_of_lt hturns hle'⟩

/-- A run that has come to an end before the limit is reached is the run with any higher limit. -/
theorem solve_of_ended {steps : Nat}
    (h : A.taken? routine (options.withLimit steps) steps = none) {limit : Nat}
    (hle : steps ≤ limit) :
    (A.solve routine (options.withLimit limit)).reachedLimit = false ∧
      A.solve routine (options.withLimit limit) = A.solve routine (options.withLimit steps) := by
  have hstays : A.StaysWithinLimit routine (options.withLimit steps) := by
    intro n position id htaken _
    by_cases hearly : n < steps
    · exact Nat.lt_of_le_of_lt (A.turns_stateAfter_le routine (options.withLimit steps) n id) hearly
    · unfold taken? at htaken h
      rw [stateAfter_of_le h (Nat.le_of_not_lt hearly), h] at htaken
      cases htaken
  have hsolve : A.solve routine (options.withLimit limit) =
      A.solve routine (options.withLimit steps) := hstays.solve_withLimit hle
  refine ⟨?_, hsolve⟩
  rw [hsolve, reachedLimit_eq_false_iff, ← (stateAfter_eq_finalState (Nat.le_refl _)).1]
  exact hstays.overruns_eq_nil _

variable (A routine options) in
/-- **Either the analysis comes to an end, or there is no end.**  If there is no number of steps
after which all higher limits give the same result, the analysis makes one visit after the other. -/
theorem exists_bound_or_endless :
    (∃ bound, ∀ limit, bound ≤ limit →
      (A.solve routine (options.withLimit limit)).reachedLimit = false ∧
        A.solve routine (options.withLimit limit) = A.solve routine (options.withLimit bound)) ∨
      Nonempty (Solver.Endless A routine options) := by
  by_cases hended : ∃ steps, A.taken? routine (options.withLimit steps) steps = none
  · obtain ⟨steps, hended⟩ := hended
    exact .inl ⟨steps, fun _ hle => solve_of_ended hended hle⟩
  · refine .inr ?_
    have hnext : ∀ n, ∃ made, ∃ position,
        position ∈ (A.stateAfter routine (options.withLimit n) n).pending ∧
          Solver.Turn A (options.withLimit (n + 1)) routine.schedule (A.initialState routine)
            (A.stateAfter routine (options.withLimit n) n) position (some made)
            (A.stateAfter routine (options.withLimit (n + 1)) (n + 1)) := by
      intro n
      have hstate : A.stateAfter routine (options.withLimit n) n =
          A.stateAfter routine (options.withLimit (n + 1)) n :=
        stateAfter_withLimit_eq (Nat.le_refl n) (Nat.le_succ n)
      obtain ⟨position, htaken⟩ := Option.ne_none_iff_exists'.1 fun h => hended ⟨n, h⟩
      have htaken : A.taken? routine (options.withLimit (n + 1)) n = some position := by
        unfold taken? at htaken ⊢
        rw [← hstate]
        exact htaken
      obtain ⟨made, hturn, -⟩ := turn_of_taken? htaken
      rw [hstate]
      cases made with
      | some made => exact ⟨made, position, (ready_of_taken? htaken).1, hturn⟩
      | none =>
        -- There have been fewer turns than the limit allows.
        generalize A.stateAfter routine (options.withLimit (n + 1)) (n + 1) = after at hturn
        cases hturn with
        | overrun id hid hlimit =>
          have hturns := A.turns_stateAfter_le routine (options.withLimit (n + 1)) n id
          have hlimit : n + 1 < _ := hlimit
          omega
    choose made hmade using hnext
    exact ⟨{
      state := fun n => A.stateAfter routine (options.withLimit n) n
      id := fun n => (made n).1
      visit := fun n => (made n).2
      start := rfl
      turn := fun n =>
        have ⟨position, hposition, hturn⟩ := hmade n
        ⟨n + 1, position, hposition, hturn⟩ }⟩

end Analysis
end HeapFlow
