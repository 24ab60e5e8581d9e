import HeapFlow.Flow.Solver
import HeapFlow.Proofs.Environment.Lookup
import HeapFlow.Proofs.Schedule
import Mathlib.Algebra.BigOperators.Group.List.Basic
import Mathlib.Algebra.Order.BigOperators.Group.List
import Mathlib.Algebra.Order.Ring.Nat

/-! # Runs of the solver

A run of the solver is a sequence of turns.  `Solver.Turn` says what a turn can do: the block at
the position either has used up its visits, which is recorded, or it is visited.  Every fact about
runs is proved by looking at these two cases and by `Solver.run_induction`, which carries a
property of the state and of the visits made so far from one turn to the next.

`Solver.visitLog` lists the visits that a run makes.  The state keeps only the latest visit of each
block and a count of its turns; `Solver.Traced` ties both to the log.

A run ends (`Solver.run_pending_eq_nil`): a turn takes a position off the worklist, and a turn that
adds positions uses up one of the visits that its block has left.
-/
namespace HeapFlow
namespace Solver

variable {V D : Type}

/-! ## Logs -/

/-- The visits of one block among the listed ones. -/
def visitsOf (id : BlockId) (log : List (BlockId × Visit D)) : List (Visit D) :=
  (log.filter (·.1 = id)).map (·.2)

@[simp] theorem visitsOf_nil (id : BlockId) : visitsOf id ([] : List (BlockId × Visit D)) = [] :=
  rfl

theorem visitsOf_append (id : BlockId) (log log' : List (BlockId × Visit D)) :
    visitsOf id (log ++ log') = visitsOf id log ++ visitsOf id log' := by
  simp [visitsOf]

theorem visitsOf_singleton_self (id : BlockId) (visit : Visit D) :
    visitsOf id [(id, visit)] = [visit] := by
  simp [visitsOf]

theorem visitsOf_singleton_of_ne {id other : BlockId} (h : other ≠ id) (visit : Visit D) :
    visitsOf id [(other, visit)] = [] := by
  simp [visitsOf, h]

/-! ## Turns -/

/-- How often a block has been taken up. -/
def turns (state : State V D) (id : BlockId) : Nat := (state.counts.get? id).getD 0

/-- The pending positions are ascending, and each of them is the position of a block. -/
structure Scheduled (schedule : Schedule) (state : State V D) : Prop where
  ascending : state.pending.Pairwise (· < ·)
  bounded : ∀ p ∈ state.pending, p < schedule.order.length

theorem scheduled_start [EntityState D V] {schedule : Schedule} (hs : schedule.Sound)
    (routine : Routine) : Scheduled schedule (start routine : State V D) := by
  refine ⟨by simp [start], fun p hp => ?_⟩
  have hp : p = 0 := by simpa [start] using hp
  exact hp ▸ (List.getElem?_eq_some_iff.1 hs.entry).1

variable [AbstractValue V] [EntityState D V] [BEq D]
variable (A : Analysis V D) (options : Options) (schedule : Schedule) (first : D)

/-- The visit that is made when a position is taken up, none if its block has used up its
visits. -/
def made? (state : State V D) (position : Nat) : Option (BlockId × Visit D) :=
  match schedule.order[position]? >>= schedule.graph.block? with
  | none => none
  | some block =>
    if options.maxIterations < turns state block.id + 1 then none
    else
      let entry := entryState A options schedule first state.visits block.id
        (turns state block.id + 1)
      some (block.id, (interpret A state.machine block entry).1)

/-- What taking up a position can do: the visit that it makes, and the state after it. -/
inductive Turn (before : State V D) (position : Nat) :
    Option (BlockId × Visit D) → State V D → Prop
  | overrun (id : BlockId) (hid : schedule.order[position]? = some id)
      (hlimit : options.maxIterations < turns before id + 1) :
      Turn before position none
        { before with
          pending := before.pending.erase position
          counts := before.counts.insert id (turns before id + 1)
          overruns := ⟨id, turns before id + 1⟩ :: before.overruns }
  | visit (id : BlockId) (block : Block) (visit : Visit D) (machine : Machine V D)
      (hid : schedule.order[position]? = some id)
      (hblock : schedule.graph.block? id = some block)
      (hlimit : turns before id + 1 ≤ options.maxIterations)
      (hvisit : interpret A before.machine block
        (entryState A options schedule first before.visits id (turns before id + 1)) =
          (visit, machine)) :
      Turn before position (some (id, visit))
        { before with
          machine
          pending := (affected schedule (before.visits.get? id) visit).foldl
            (fun pending p => Worklist.insert p pending) (before.pending.erase position)
          counts := before.counts.insert id (turns before id + 1)
          visits := before.visits.insert id visit }

variable {schedule}

theorem turn_takeUp (hs : schedule.Sound) (state : State V D) {position : Nat}
    (hposition : position < schedule.order.length) :
    Turn A options schedule first state position (made? A options schedule first state position)
      (takeUp A options schedule first state position) := by
  obtain ⟨id, hid⟩ : ∃ id, schedule.order[position]? = some id :=
    ⟨_, List.getElem?_eq_getElem hposition⟩
  obtain ⟨block, hblock⟩ :=
    schedule.graph.block?_isSome (hs.known id (List.mem_of_getElem? hid))
  have hblockId : block.id = id := schedule.graph.block?_id hblock
  have hfound : (schedule.order[position]? >>= schedule.graph.block?) = some block := by
    rw [hid]
    exact hblock
  subst hblockId
  by_cases hlimit : options.maxIterations < turns state block.id + 1
  · have hlimit' : options.maxIterations < (state.counts.get? block.id).getD 0 + 1 := hlimit
    simp only [made?, takeUp, giveTurn, hfound, if_pos hlimit, if_pos hlimit']
    exact .overrun block.id hid hlimit
  · have hlimit' : ¬options.maxIterations < (state.counts.get? block.id).getD 0 + 1 := hlimit
    simp only [made?, takeUp, giveTurn, hfound, if_neg hlimit, if_neg hlimit']
    exact .visit block.id block _ _ hid hblock (Nat.le_of_not_lt hlimit) rfl

variable {A options first}

theorem mem_affected_iff {previous? : Option (Visit D)} {visit : Visit D} {p : Nat} :
    p ∈ affected schedule previous? visit ↔ ∃ id ∈ visit.successors,
      schedule.position? id = some p ∧
        ∀ previous, previous? = some previous → (previous.exit == visit.exit) = true →
          id ∉ previous.successors := by
  simp only [affected, List.mem_filterMap, List.mem_filter]
  cases previous? with
  | none => simp
  | some previous =>
    constructor
    · rintro ⟨id, ⟨hid, haffected⟩, hp⟩
      refine ⟨id, hid, hp, ?_⟩
      intro previous' heq hsame hmem
      obtain rfl := Option.some.inj heq
      simp [hsame, hmem] at haffected
    · rintro ⟨id, hid, hp, hnew⟩
      refine ⟨id, ⟨hid, ?_⟩, hp⟩
      by_cases hsame : (previous.exit == visit.exit) = true
      · simp [hsame, hnew previous rfl hsame]
      · simp [hsame]

theorem Turn.getElem?_eq {before after : State V D} {position : Nat} {id : BlockId}
    {visit : Visit D}
    (hturn : Turn A options schedule first before position (some (id, visit)) after) :
    schedule.order[position]? = some id := by
  cases hturn with
  | visit _ _ _ _ hid => exact hid

/-- A visit finds out which blocks control can go on to. -/
theorem Turn.mem_successors_iff {before after : State V D} {position : Nat} {id : BlockId}
    {visit : Visit D}
    (hturn : Turn A options schedule first before position (some (id, visit)) after)
    (target : BlockId) :
    target ∈ visit.successors ↔ schedule.graph.canFlow id target = true := by
  cases hturn with
  | visit _ block _ machine hid hblock hlimit hvisit =>
    have hsuccessors : visit.successors = block.feasibleTargets :=
      congrArg (fun result => result.1.successors) hvisit.symm
    rw [schedule.graph.canFlow_iff hblock, hsuccessors]

/-- Overruns stay recorded. -/
theorem Turn.overruns_eq_nil {before after : State V D} {position : Nat}
    {made : Option (BlockId × Visit D)}
    (hturn : Turn A options schedule first before position made after)
    (h : after.overruns = []) : before.overruns = [] := by
  cases hturn with
  | overrun id hid hlimit => simp at h
  | visit id block visit machine hid hblock hlimit hvisit => exact h

theorem Scheduled.turn (hs : schedule.Sound) {before after : State V D} {position : Nat}
    {made : Option (BlockId × Visit D)} (h : Scheduled schedule before)
    (hturn : Turn A options schedule first before position made after) :
    Scheduled schedule after := by
  have herase : (before.pending.erase position).Pairwise (· < ·) :=
    h.ascending.sublist List.erase_sublist
  cases hturn with
  | overrun id hid hlimit => exact ⟨herase, fun p hp => h.bounded p (List.mem_of_mem_erase hp)⟩
  | visit id block visit machine hid hblock hlimit hvisit =>
    refine ⟨Worklist.ascending_foldl_insert herase, fun p hp => ?_⟩
    rcases Worklist.mem_foldl_insert.1 hp with hp | hp
    · obtain ⟨target, -, hp, -⟩ := mem_affected_iff.1 hp
      exact (List.getElem?_eq_some_iff.1 (hs.position?_eq_some_iff.1 hp)).1
    · exact h.bounded p (List.mem_of_mem_erase hp)

/-! ## The log of a run -/

variable (A options schedule first)

/-- The visits that a run makes, in order. -/
def visitLog : Nat → State V D → List (BlockId × Visit D)
  | 0, _ => []
  | bound + 1, state =>
    match schedule.next? options.worklistOrder state.pending with
    | none => []
    | some position =>
      (made? A options schedule first state position).toList ++
        visitLog bound (takeUp A options schedule first state position)

variable {A options schedule first}

/-- **What every turn preserves holds after a run**, of the state and of the log of the visits. -/
theorem run_induction (hs : schedule.Sound) {P : List (BlockId × Visit D) → State V D → Prop}
    (hstep : ∀ log before position made after, Scheduled schedule before →
      schedule.Ready before.pending position →
      Turn A options schedule first before position made after →
      P log before → P (log ++ made.toList) after) :
    ∀ (bound : Nat) (log : List (BlockId × Visit D)) (state : State V D),
      Scheduled schedule state → P log state →
      Scheduled schedule (run A options schedule first bound state) ∧
        P (log ++ visitLog A options schedule first bound state)
          (run A options schedule first bound state) := by
  intro bound
  induction bound with
  | zero =>
    intro log state hstate hP
    simpa [run, visitLog] using ⟨hstate, hP⟩
  | succ bound ih =>
    intro log state hstate hP
    cases hnext : schedule.next? options.worklistOrder state.pending with
    | none => simpa [run, visitLog, step?, hnext] using ⟨hstate, hP⟩
    | some position =>
      have hready := hs.ready_of_next? hstate.ascending hnext
      have hturn := turn_takeUp A options first hs state (hstate.bounded position hready.1)
      have hlater := ih _ _ (hstate.turn hs hturn) (hstep _ _ _ _ _ hstate hready hturn hP)
      simpa [run, visitLog, step?, hnext, List.append_assoc] using hlater

/-! ## Runs end -/

/-- A turn counts for the block that is taken up and for no other. -/
theorem Turn.turns_eq {before after : State V D} {position : Nat}
    {made : Option (BlockId × Visit D)}
    (hturn : Turn A options schedule first before position made after) :
    ∃ id, schedule.order[position]? = some id ∧
      ∀ other, turns after other = turns before other + if id = other then 1 else 0 := by
  have hinsert : ∀ id other : BlockId,
      ((before.counts.insert id (turns before id + 1)).get? other).getD 0 =
        turns before other + if id = other then 1 else 0 := by
    intro id other
    by_cases h : id = other
    · subst h
      simp
    · have hsame : Key.same id other = false := decide_eq_false h
      simp [Environment.get?_insert, hsame, h, turns]
  cases hturn with
  | overrun id hid hlimit => exact ⟨id, hid, hinsert id⟩
  | visit id block visit machine hid hblock hlimit hvisit => exact ⟨id, hid, hinsert id⟩

/-- The visits that the scheduled blocks have left. -/
def visitsLeft (options : Options) (schedule : Schedule) (state : State V D) : Nat :=
  (schedule.order.map fun id => options.maxIterations - turns state id).sum

/-- A bound for the number of turns that a run can still take. -/
def turnsLeft (options : Options) (schedule : Schedule) (state : State V D) : Nat :=
  state.pending.length + schedule.order.length * visitsLeft options schedule state

theorem Turn.visitsLeft_le {before after : State V D} {position : Nat}
    {made : Option (BlockId × Visit D)}
    (hturn : Turn A options schedule first before position made after) :
    visitsLeft options schedule after ≤ visitsLeft options schedule before := by
  obtain ⟨id, -, hturns⟩ := hturn.turns_eq
  refine List.sum_le_sum fun other _ => Nat.sub_le_sub_left ?_ _
  rw [hturns other]
  exact Nat.le_add_right _ _

theorem Turn.visitsLeft_lt {before after : State V D} {position : Nat}
    {made : BlockId × Visit D}
    (hturn : Turn A options schedule first before position (some made) after) :
    visitsLeft options schedule after < visitsLeft options schedule before := by
  obtain ⟨taken, htaken, hturns⟩ := hturn.turns_eq
  cases hturn with
  | visit id block visit machine hid hblock hlimit hvisit =>
    obtain rfl : id = taken := Option.some.inj (hid.symm.trans htaken)
    refine List.sum_lt_sum _ _ (fun other _ => Nat.sub_le_sub_left ?_ _)
      ⟨id, List.mem_of_getElem? hid, ?_⟩
    · rw [hturns other]
      exact Nat.le_add_right _ _
    · rw [hturns id, if_pos rfl]
      omega

/-- Every turn brings the end closer: it takes a position off the worklist, or else it uses up a
visit, which pays for all positions that it may add. -/
theorem Turn.turnsLeft_lt (hs : schedule.Sound) {before after : State V D} {position : Nat}
    {made : Option (BlockId × Visit D)} (hbefore : Scheduled schedule before)
    (hposition : position ∈ before.pending)
    (hturn : Turn A options schedule first before position made after) :
    turnsLeft options schedule after < turnsLeft options schedule before := by
  have hafter := hbefore.turn hs hturn
  have hpos : 0 < before.pending.length := List.length_pos_of_mem hposition
  unfold turnsLeft
  cases made with
  | none =>
    have hmul := Nat.mul_le_mul_left schedule.order.length hturn.visitsLeft_le
    have hpending : after.pending = before.pending.erase position := by
      cases hturn
      rfl
    have hlength := List.length_erase_of_mem hposition
    rw [hpending]
    omega
  | some made =>
    have hmul := Nat.mul_le_mul_left schedule.order.length hturn.visitsLeft_lt
    -- However many positions the visit adds, there are not more than scheduled blocks.
    have hlength := Worklist.length_le_of_ascending hafter.ascending hafter.bounded
    rw [Nat.mul_succ] at hmul
    omega

/-- A run that may take as many turns as are left ends with an empty worklist. -/
theorem run_pending_eq_nil (hs : schedule.Sound) :
    ∀ (bound : Nat) (state : State V D), Scheduled schedule state →
      turnsLeft options schedule state ≤ bound →
      (run A options schedule first bound state).pending = [] := by
  intro bound
  induction bound with
  | zero =>
    intro state _ hbound
    have hzero : state.pending.length = 0 := by
      unfold turnsLeft at hbound
      omega
    exact List.eq_nil_of_length_eq_zero hzero
  | succ bound ih =>
    intro state hstate hbound
    cases hnext : schedule.next? options.worklistOrder state.pending with
    | none => simpa [run, step?, hnext] using (hs.next?_eq_none_iff hstate.ascending).1 hnext
    | some position =>
      have hready := hs.ready_of_next? hstate.ascending hnext
      have hturn := turn_takeUp A options first hs state (hstate.bounded position hready.1)
      have hlt := hturn.turnsLeft_lt hs hstate hready.1
      simpa [run, step?, hnext] using ih _ (hstate.turn hs hturn) (by omega)

omit [AbstractValue V] [BEq D] in
theorem turnsLeft_start (routine : Routine) :
    turnsLeft options schedule (start routine : State V D) = stepBound options schedule := by
  have hvisits : visitsLeft options schedule (start routine : State V D) =
      schedule.order.length * options.maxIterations := by
    simp [visitsLeft, turns, start]
  have hpending : (start routine : State V D).pending.length = 1 := rfl
  rw [turnsLeft, stepBound, hvisits, hpending, Nat.mul_assoc, Nat.add_comm]

/-! ## What the state keeps of the log -/

/-- A block that has been taken up or that will be. -/
def Noticed (schedule : Schedule) (state : State V D) (id : BlockId) : Prop :=
  (state.visits.get? id).isSome = true ∨ (∃ p ∈ state.pending, schedule.order[p]? = some id) ∨
    ∃ overrun ∈ state.overruns, overrun.block = id

/-- How a state comes about from the visits in a log, and which blocks it has yet to take up. -/
structure Traced (schedule : Schedule) (log : List (BlockId × Visit D)) (state : State V D) :
    Prop where
  counts : ∀ id, turns state id =
    (visitsOf id log).length + (state.overruns.filter (·.block = id)).length
  latest : ∀ id, state.visits.get? id = (visitsOf id log).getLast?
  known : ∀ id visit, state.visits.get? id = some visit → id ∈ schedule.order ∧
    ∀ target, target ∈ visit.successors ↔ schedule.graph.canFlow id target = true
  /-- Blocks are only taken up once one of their predecessors flows into them. -/
  wanted : ∀ p ∈ state.pending, ∀ id, schedule.order[p]? = some id →
    id = schedule.graph.entry ∨
      ∃ source, (state.visits.get? source).isSome = true ∧ schedule.graph.canFlow source id = true
  fed : ∀ source, (state.visits.get? source).isSome = true → ∀ target,
    schedule.graph.canFlow source target = true → schedule.graph.contains target = true →
      Noticed schedule state target
  entry : Noticed schedule state schedule.graph.entry

omit [AbstractValue V] [BEq D] in
theorem traced_start (hs : schedule.Sound) (routine : Routine) :
    Traced schedule [] (start routine : State V D) where
  counts := by simp [turns, start]
  latest := by simp [start]
  known := by simp [start]
  wanted := by
    intro p hp id hid
    have hp : p = 0 := by simpa [start] using hp
    subst hp
    exact .inl (Option.some.inj (hid.symm.trans hs.entry))
  fed := by simp [start]
  entry := .inr (.inl ⟨0, by simp [start], hs.entry⟩)

theorem get?_insert_of_ne {W : Type} (env : Environment BlockId W) {key k : BlockId}
    (value : W) (h : key ≠ k) : (env.insert key value).get? k = env.get? k := by
  have hsame : Key.same key k = false := decide_eq_false h
  simp [Environment.get?_insert, hsame]

theorem get?_insert_eq_some_iff {W : Type} (env : Environment BlockId W) {key k : BlockId}
    {value found : W} : (env.insert key value).get? k = some found ↔
      key = k ∧ found = value ∨ key ≠ k ∧ env.get? k = some found := by
  by_cases heq : key = k
  · subst heq
    simp [eq_comm]
  · simp [get?_insert_of_ne env value heq, heq]

theorem Noticed.turn {before after : State V D} {position : Nat}
    {made : Option (BlockId × Visit D)} {id : BlockId} (h : Noticed schedule before id)
    (hturn : Turn A options schedule first before position made after) :
    Noticed schedule after id := by
  cases hturn with
  | overrun taken htaken hlimit =>
    rcases h with hvisited | ⟨p, hp, hid⟩ | ⟨overrun, hmem, hid⟩
    · exact .inl hvisited
    · by_cases hposition : p = position
      · subst hposition
        obtain rfl : taken = id := Option.some.inj (htaken.symm.trans hid)
        exact .inr (.inr ⟨_, List.mem_cons_self, rfl⟩)
      · exact .inr (.inl ⟨p, (List.mem_erase_of_ne hposition).2 hp, hid⟩)
    · exact .inr (.inr ⟨overrun, List.mem_cons_of_mem _ hmem, hid⟩)
  | visit taken block visit machine htaken hblock hlimit hvisit =>
    rcases h with hvisited | ⟨p, hp, hid⟩ | hoverrun
    · exact .inl (before.visits.isSome_get?_insert taken visit hvisited)
    · by_cases hposition : p = position
      · subst hposition
        obtain rfl : taken = id := Option.some.inj (htaken.symm.trans hid)
        exact .inl (by simp)
      · have hpending := (List.mem_erase_of_ne hposition).2 hp
        exact .inr (.inl ⟨p, Worklist.mem_foldl_insert.2 (.inr hpending), hid⟩)
    · exact .inr (.inr hoverrun)

theorem Traced.turn (hs : schedule.Sound) {log : List (BlockId × Visit D)}
    {before after : State V D} {position : Nat} {made : Option (BlockId × Visit D)}
    (h : Traced schedule log before)
    (hturn : Turn A options schedule first before position made after) :
    Traced schedule (log ++ made.toList) after := by
  obtain ⟨taken, htaken, hturns⟩ := hturn.turns_eq
  have hentry := h.entry.turn hturn
  have hnoticed := fun target (h : Noticed schedule before target) => h.turn hturn
  cases hturn with
  | overrun id hid hlimit =>
    obtain rfl : id = taken := Option.some.inj (hid.symm.trans htaken)
    rw [Option.toList_none, List.append_nil]
    refine ⟨fun other => ?_, h.latest, h.known, fun p hp => ?_, ?_, hentry⟩
    · rw [hturns other, h.counts other]
      by_cases heq : id = other
      · simp [heq, Nat.add_assoc]
      · simp [heq]
    · exact h.wanted p (List.mem_of_mem_erase hp)
    · exact fun source hsource target hflow htarget =>
        hnoticed target (h.fed source hsource target hflow htarget)
  | visit id block visit machine hid hblock hlimit hvisit =>
    obtain rfl : id = taken := Option.some.inj (hid.symm.trans htaken)
    have hflow := (Turn.visit id block visit machine hid hblock hlimit hvisit).mem_successors_iff
    refine ⟨fun other => ?_, fun other => ?_, fun other found hfound => ?_,
      fun p hp other hother => ?_, fun source hsource target hsourceflow htarget => ?_, hentry⟩
    · rw [hturns other, h.counts other, visitsOf_append]
      by_cases heq : id = other
      · subst heq
        simp [visitsOf_singleton_self, Nat.add_right_comm]
      · simp [visitsOf_singleton_of_ne heq, heq]
    · rw [visitsOf_append]
      by_cases heq : id = other
      · subst heq
        simp [visitsOf_singleton_self]
      · simp only [Option.toList_some, visitsOf_singleton_of_ne heq, List.append_nil]
        rw [get?_insert_of_ne before.visits visit heq, h.latest other]
    · rcases (get?_insert_eq_some_iff before.visits).1 hfound with ⟨rfl, rfl⟩ | ⟨-, hfound⟩
      · exact ⟨List.mem_of_getElem? hid, hflow⟩
      · exact h.known other found hfound
    · rcases Worklist.mem_foldl_insert.1 hp with hp | hp
      · obtain ⟨target, htarget, hp, -⟩ := mem_affected_iff.1 hp
        obtain rfl : target = other :=
          Option.some.inj ((hs.position?_eq_some_iff.1 hp).symm.trans hother)
        exact .inr ⟨id, by simp, (hflow target).1 htarget⟩
      · rcases h.wanted p (List.mem_of_mem_erase hp) other hother with h | ⟨source, hsource, h⟩
        · exact .inl h
        · exact .inr ⟨source, before.visits.isSome_get?_insert id visit hsource, h⟩
    · by_cases heq : id = source
      · subst heq
        by_cases hprevious : (before.visits.get? id).isSome = true
        · exact hnoticed target (h.fed id hprevious target hsourceflow htarget)
        · -- On the first visit of a block all its successors become pending.
          have hnone : before.visits.get? id = none := by simpa using hprevious
          have horder := hs.mem_order_of_canFlow (List.mem_of_getElem? hid) hsourceflow htarget
          obtain ⟨p, hp⟩ := hs.mem_order_iff.1 horder
          have haffected : p ∈ affected schedule (before.visits.get? id) visit :=
            mem_affected_iff.2 ⟨target, (hflow target).2 hsourceflow, hp, by simp [hnone]⟩
          exact .inr (.inl ⟨p, Worklist.mem_foldl_insert.2 (.inl haffected),
            hs.position?_eq_some_iff.1 hp⟩)
      · have hbefore : (before.visits.get? source).isSome = true := by
          rwa [get?_insert_of_ne before.visits visit heq] at hsource
        exact hnoticed target (h.fed source hbefore target hsourceflow htarget)

end Solver
end HeapFlow
