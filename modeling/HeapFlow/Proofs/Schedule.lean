import HeapFlow.Flow.Worklist
import HeapFlow.Proofs.Traversal
import Mathlib.Logic.Relation

/-! # Schedules and pending blocks

What the solver relies on about the schedule of a graph is `Schedule.Sound`: positions and the
blocks that the entry reaches correspond to each other, and the forward edges are the edges that go
from a lower position to a higher one.

The search for pending ancestors goes backward along forward edges.  It passes over low positions
and over what it has come across before, and still it is exact (`Schedule.Sound.findsPending_iff`):
what it keeps (`Schedule.Searching`) says that nothing is missing once its stack is empty.

A pending position is *ready* (`Schedule.Ready`) if no pending position leads to it along forward
edges.  Both worklist orders take up a ready position (`Schedule.ready_of_next?`), and they find one
as long as any position is pending (`Schedule.next?_eq_none_iff`): the lowest one is always ready.
-/
namespace HeapFlow

namespace ControlFlowGraph

variable (graph : ControlFlowGraph)

/-- Edges seen from their targets are edges seen from their sources. -/
theorem mem_predecessors_iff {id target : BlockId} :
    id ∈ graph.predecessors target ↔ target ∈ graph.successors id := by
  simp only [predecessors, successors, List.mem_filter, List.mem_flatMap, List.mem_map]
  by_cases h : graph.contains target = true
  · simp only [h, if_true, List.mem_eraseDups, List.mem_map, List.mem_filter, List.any_eq_true,
      decide_eq_true_eq, and_true]
    constructor
    · rintro ⟨block, ⟨hblock, edge, hedge, rfl⟩, rfl⟩
      exact ⟨block, ⟨hblock, rfl⟩, edge, hedge, rfl⟩
    · rintro ⟨block, ⟨hblock, rfl⟩, edge, hedge, rfl⟩
      exact ⟨block, ⟨hblock, edge, hedge, rfl⟩, rfl⟩
  · simp [h]

theorem block?_id {id : BlockId} {block : Block} (h : graph.block? id = some block) :
    block.id = id := by
  simpa using List.find?_some h

theorem mem_blocks_of_block? {id : BlockId} {block : Block} (h : graph.block? id = some block) :
    block ∈ graph.blocks :=
  List.mem_reverse.1 (List.mem_of_find?_eq_some h)

theorem block?_isSome {id : BlockId} (h : graph.contains id = true) :
    ∃ block, graph.block? id = some block := by
  refine Option.isSome_iff_exists.1 (List.find?_isSome.2 ?_)
  obtain ⟨block, hblock, rfl⟩ := List.mem_map.1 ((graph.contains_iff id).1 h)
  exact ⟨block, List.mem_reverse.2 hblock, by simp⟩

/-- True if control can go from the first block to the second one. -/
def canFlow (source target : BlockId) : Bool :=
  match graph.block? source with
  | some block => block.feasibleTargets.contains target
  | none => false

theorem canFlow_iff {source target : BlockId} {block : Block}
    (h : graph.block? source = some block) :
    graph.canFlow source target = true ↔ target ∈ block.feasibleTargets := by
  simp [canFlow, h]

/-- Control goes along edges. -/
theorem mem_successors_of_canFlow {source target : BlockId}
    (hflow : graph.canFlow source target = true) (htarget : graph.contains target = true) :
    target ∈ graph.successors source := by
  unfold canFlow at hflow
  split at hflow
  · next block hblock =>
    have hmem : target ∈ block.feasibleTargets := by simpa using hflow
    obtain ⟨edge, hedge, rfl⟩ := List.mem_map.1 (List.mem_eraseDups.1 hmem)
    refine List.mem_filter.2 ⟨List.mem_flatMap.2 ⟨block, ?_, ?_⟩, htarget⟩
    · exact List.mem_filter.2
        ⟨graph.mem_blocks_of_block? hblock, by simp [graph.block?_id hblock]⟩
    · exact List.mem_map_of_mem (List.mem_filter.1 hedge).1
  · exact absurd hflow (by simp)

end ControlFlowGraph

namespace Worklist

theorem mem_insert {x position : Nat} {pending : List Nat} :
    x ∈ insert position pending ↔ x = position ∨ x ∈ pending := by
  induction pending with
  | nil => simp [insert]
  | cons p pending ih =>
    rw [insert]
    split
    · simp
    · split
      · simp only [List.mem_cons, ih]
        exact or_left_comm
      · have heq : position = p := by omega
        simp [heq]

theorem ascending_insert {position : Nat} {pending : List Nat} (h : pending.Pairwise (· < ·)) :
    (insert position pending).Pairwise (· < ·) := by
  induction pending with
  | nil => simp [insert]
  | cons p pending ih =>
    obtain ⟨hhead, htail⟩ := List.pairwise_cons.1 h
    rw [insert]
    split
    · next hlt =>
      refine List.pairwise_cons.2 ⟨fun q hq => ?_, h⟩
      rcases List.mem_cons.1 hq with rfl | hq
      · exact hlt
      · exact Nat.lt_trans hlt (hhead q hq)
    · split
      · next hlt =>
        refine List.pairwise_cons.2 ⟨fun q hq => ?_, ih htail⟩
        rcases mem_insert.1 hq with rfl | hq
        · exact hlt
        · exact hhead q hq
      · exact h

theorem mem_foldl_insert {x : Nat} {positions pending : List Nat} :
    x ∈ positions.foldl (fun pending p => insert p pending) pending ↔
      x ∈ positions ∨ x ∈ pending := by
  induction positions generalizing pending with
  | nil => simp
  | cons p positions ih =>
    rw [List.foldl_cons, ih, mem_insert, List.mem_cons]
    tauto

theorem ascending_foldl_insert {positions pending : List Nat} (h : pending.Pairwise (· < ·)) :
    (positions.foldl (fun pending p => insert p pending) pending).Pairwise (· < ·) := by
  induction positions generalizing pending with
  | nil => exact h
  | cons p positions ih => exact ih (ascending_insert h)

/-- Distinct positions below a bound are at most as many as the bound. -/
theorem length_le_of_ascending {pending : List Nat} {n : Nat} (h : pending.Pairwise (· < ·))
    (hbound : ∀ p ∈ pending, p < n) : pending.length ≤ n := by
  have hnodup : pending.Nodup := h.imp (fun hlt => Nat.ne_of_lt hlt)
  have hsub : pending ⊆ List.range n := fun p hp => List.mem_range.2 (hbound p hp)
  simpa using (hnodup.subperm hsub).length_le

end Worklist

namespace Schedule

/-- What the solver relies on about a schedule. -/
structure Sound (schedule : Schedule) : Prop where
  nodup : schedule.order.Nodup
  entry : schedule.order[0]? = some schedule.graph.entry
  known : ∀ id ∈ schedule.order, schedule.graph.contains id = true
  closed : ∀ id ∈ schedule.order, ∀ target ∈ schedule.graph.successors id,
    target ∈ schedule.order
  forward_iff : ∀ p q, schedule.flowsInto p q = true ↔ p < q ∧ ∃ a b,
    schedule.order[p]? = some a ∧ schedule.order[q]? = some b ∧ b ∈ schedule.graph.successors a

theorem positionIn?_eq_some_iff {order : List BlockId} (h : order.Nodup) {id : BlockId} {p : Nat} :
    positionIn? order id = some p ↔ order[p]? = some id := by
  rw [positionIn?, List.findIdx?_eq_some_iff_getElem, List.getElem?_eq_some_iff]
  constructor
  · rintro ⟨hp, hid, -⟩
    exact ⟨hp, by simpa using hid⟩
  · rintro ⟨hp, rfl⟩
    refine ⟨hp, by simp, fun j hj => ?_⟩
    have hne : j ≠ p := Nat.ne_of_lt hj
    simpa [h.getElem_inj_iff] using hne

theorem mem_earlier_iff {graph : ControlFlowGraph} {order : List BlockId} (h : order.Nodup)
    {id : BlockId} {p q : Nat} :
    p ∈ earlier graph order id q ↔
      p < q ∧ ∃ a, order[p]? = some a ∧ id ∈ graph.successors a := by
  simp only [earlier, List.mem_filterMap, graph.mem_predecessors_iff, Option.bind_eq_bind,
    Option.bind_eq_some_iff, positionIn?_eq_some_iff h]
  constructor
  · rintro ⟨a, ha, r, hr, hguard⟩
    by_cases hlt : r < q
    · have heq : r = p := by simpa [guard, hlt] using hguard
      subst heq
      exact ⟨hlt, a, hr, ha⟩
    · simp [guard, hlt] at hguard
  · rintro ⟨hlt, a, ha, hsucc⟩
    exact ⟨a, hsucc, p, ha, by simp [guard, hlt]⟩

theorem ofGraph_sound (graph : ControlFlowGraph) : (ofGraph graph).Sound where
  nodup := graph.reversePostorder_nodup
  entry := by
    obtain ⟨rest, h⟩ := graph.reversePostorder_eq_cons
    simp [ofGraph, h]
  known := fun _ hid => graph.contains_of_mem_reversePostorder hid
  closed := fun _ hid _ htarget => graph.mem_reversePostorder_of_mem_successors hid htarget
  forward_iff := by
    intro p q
    have hnodup := graph.reversePostorder_nodup
    by_cases hq : q < graph.reversePostorder.length
    · simp [flowsInto, ofGraph, List.getD_eq_getElem?_getD, hq, mem_earlier_iff hnodup]
    · simp [flowsInto, ofGraph, List.getD_eq_getElem?_getD, hq]

variable {schedule : Schedule}

theorem Sound.position?_eq_some_iff (hs : schedule.Sound) {id : BlockId} {p : Nat} :
    schedule.position? id = some p ↔ schedule.order[p]? = some id :=
  positionIn?_eq_some_iff hs.nodup

theorem Sound.position_unique (hs : schedule.Sound) {id : BlockId} {p q : Nat}
    (hp : schedule.order[p]? = some id) (hq : schedule.order[q]? = some id) : p = q := by
  rw [← hs.position?_eq_some_iff] at hp hq
  exact Option.some.inj (hp.symm.trans hq)

theorem Sound.mem_order_iff (hs : schedule.Sound) {id : BlockId} :
    id ∈ schedule.order ↔ ∃ p, schedule.position? id = some p := by
  simp only [hs.position?_eq_some_iff, List.mem_iff_getElem?]

/-- Control that leaves a scheduled block stays among the scheduled blocks. -/
theorem Sound.mem_order_of_canFlow (hs : schedule.Sound) {source target : BlockId}
    (hsource : source ∈ schedule.order) (hflow : schedule.graph.canFlow source target = true)
    (htarget : schedule.graph.contains target = true) : target ∈ schedule.order :=
  hs.closed source hsource target (schedule.graph.mem_successors_of_canFlow hflow htarget)

/-! ## Ready positions -/

/-- There is a forward edge from the first position to the second one. -/
def Forward (schedule : Schedule) (p q : Nat) : Prop := schedule.flowsInto p q = true

/-- A pending position that no pending position leads to along forward edges. -/
def Ready (schedule : Schedule) (pending : List Nat) (position : Nat) : Prop :=
  position ∈ pending ∧ ∀ p ∈ pending, ¬Relation.TransGen schedule.Forward p position

theorem Sound.lt_of_forward (hs : schedule.Sound) {p q : Nat} (h : schedule.Forward p q) : p < q :=
  ((hs.forward_iff p q).1 h).1

theorem Sound.lt_of_transGen (hs : schedule.Sound) {p q : Nat}
    (h : Relation.TransGen schedule.Forward p q) : p < q := by
  induction h with
  | single h => exact hs.lt_of_forward h
  | tail _ h ih => exact Nat.lt_trans ih (hs.lt_of_forward h)

theorem Sound.le_of_reflTransGen (hs : schedule.Sound) {p q : Nat}
    (h : Relation.ReflTransGen schedule.Forward p q) : p ≤ q := by
  rcases Relation.reflTransGen_iff_eq_or_transGen.1 h with rfl | h
  · exact Nat.le_refl _
  · exact Nat.le_of_lt (hs.lt_of_transGen h)

/-- The given position and the positions that reach it along forward edges. -/
def reaching (schedule : Schedule) (position : Nat) : List Nat :=
  (List.range position).reverse.foldl
    (fun found p => if found.any (schedule.flowsInto p) then p :: found else found) [position]

/-- One pass over the positions below `k`, from the highest one down, finds all positions that
reach `target`, if those from `k` on have been found. -/
theorem Sound.mem_foldl_reaching_iff (hs : schedule.Sound) (target : Nat) :
    ∀ (k : Nat) (found : List Nat), k ≤ target →
      (∀ p ∈ found, Relation.ReflTransGen schedule.Forward p target) →
      (∀ p, k ≤ p → Relation.ReflTransGen schedule.Forward p target → p ∈ found) →
      ∀ p, p ∈ (List.range k).reverse.foldl
          (fun found p => if found.any (schedule.flowsInto p) then p :: found else found) found ↔
        Relation.ReflTransGen schedule.Forward p target := by
  intro k
  induction k with
  | zero => exact fun found _ hsound hall p => ⟨hsound p, hall p (Nat.zero_le p)⟩
  | succ k ih =>
    intro found hk hsound hall p
    rw [List.range_succ, List.reverse_append, List.reverse_singleton, List.singleton_append,
      List.foldl_cons]
    -- The position `k` reaches the target exactly if it has an edge to what was found above it.
    have hstep : found.any (schedule.flowsInto k) = true ↔
        ∃ q, schedule.Forward k q ∧ Relation.ReflTransGen schedule.Forward q target := by
      rw [List.any_eq_true]
      constructor
      · rintro ⟨q, hq, hkq⟩
        exact ⟨q, hkq, hsound q hq⟩
      · rintro ⟨q, hkq, hq⟩
        exact ⟨q, hall q (hs.lt_of_forward hkq) hq, hkq⟩
    refine ih _ (Nat.le_of_succ_le hk) (fun q hq => ?_) (fun q hle hq => ?_) p
    · split at hq
      · next hany =>
        rcases List.mem_cons.1 hq with rfl | hq
        · obtain ⟨r, hr, htarget⟩ := hstep.1 hany
          exact .head hr htarget
        · exact hsound q hq
      · exact hsound q hq
    · rcases Nat.lt_or_eq_of_le hle with hlt | rfl
      · have hmem := hall q hlt hq
        split
        · exact List.mem_cons_of_mem k hmem
        · exact hmem
      · have hhead : ∃ q, schedule.Forward k q ∧
            Relation.ReflTransGen schedule.Forward q target := by
          rcases Relation.ReflTransGen.cases_head hq with rfl | hhead
          · omega
          · exact hhead
        rw [if_pos (hstep.2 hhead)]
        exact List.mem_cons_self

theorem Sound.mem_reaching_iff (hs : schedule.Sound) {p target : Nat} :
    p ∈ schedule.reaching target ↔ Relation.ReflTransGen schedule.Forward p target := by
  refine hs.mem_foldl_reaching_iff target target [target] (Nat.le_refl _) ?_ ?_ p
  · intro q hq
    rw [List.mem_singleton.1 hq]
  · intro q hle hq
    exact List.mem_singleton.2 (Nat.le_antisymm (hs.le_of_reflTransGen hq) hle)

/-! ## The search for pending ancestors -/

theorem mem_forward_iff {p q : Nat} : p ∈ schedule.forward.getD q [] ↔ schedule.Forward p q :=
  List.contains_iff_mem.symm

section Search

variable {pending : List Nat} {lowest position : Nat}

theorem Search.exists_pending_of_follow? {predecessors : List Nat} {search : Search}
    (h : search.follow? pending lowest predecessors = none) : ∃ p ∈ predecessors, p ∈ pending := by
  induction predecessors generalizing search with
  | nil => cases h
  | cons p predecessors ih =>
    rw [follow?] at h
    split at h
    · obtain ⟨q, hq, hpending⟩ := ih h
      exact ⟨q, List.mem_cons_of_mem p hq, hpending⟩
    · split at h
      · next hpending => exact ⟨p, List.mem_cons_self, List.contains_iff_mem.1 hpending⟩
      · obtain ⟨q, hq, hpending⟩ := ih h
        exact ⟨q, List.mem_cons_of_mem p hq, hpending⟩

/-- Predecessors that are not pending are put on the stack when they are come across for the first
time, and then all but the low ones have been come across. -/
theorem Search.follow?_eq_some {predecessors : List Nat} {search after : Search}
    (h : search.follow? pending lowest predecessors = some after) (hnodup : search.seen.Nodup) :
    ∃ new, after = ⟨new ++ search.stack, new ++ search.seen⟩ ∧ after.seen.Nodup ∧
      (∀ p ∈ new, p ∈ predecessors ∧ p ∉ pending) ∧
      ∀ p ∈ predecessors, lowest ≤ p → p ∈ after.seen := by
  induction predecessors generalizing search with
  | nil =>
    obtain rfl := Option.some.inj h
    exact ⟨[], rfl, hnodup, by simp, by simp⟩
  | cons q predecessors ih =>
    rw [follow?] at h
    split at h
    · next hpassed =>
      obtain ⟨new, rfl, hnodup', hnew, hseen⟩ := ih h hnodup
      refine ⟨new, rfl, hnodup', fun p hp => ⟨List.mem_cons_of_mem q (hnew p hp).1, (hnew p hp).2⟩,
        fun p hp hlowest => ?_⟩
      rcases List.mem_cons.1 hp with rfl | hp
      · have hcome : p ∈ search.seen := by
          simpa [Nat.not_lt.2 hlowest] using hpassed
        exact List.mem_append_right new hcome
      · exact hseen p hp hlowest
    · next hpassed =>
      split at h
      · cases h
      · next hpending =>
        have hfresh : q ∉ search.seen := fun hq => hpassed (by simp [hq])
        obtain ⟨new, rfl, hnodup', hnew, hseen⟩ := ih h (List.nodup_cons.2 ⟨hfresh, hnodup⟩)
        refine ⟨new ++ [q], by simp, hnodup', fun p hp => ?_, fun p hp hlowest => ?_⟩
        · rcases List.mem_append.1 hp with hp | hp
          · exact ⟨List.mem_cons_of_mem q (hnew p hp).1, (hnew p hp).2⟩
          · obtain rfl := List.mem_singleton.1 hp
            exact ⟨List.mem_cons_self, fun hp => hpending (List.contains_iff_mem.2 hp)⟩
        · rcases List.mem_cons.1 hp with rfl | hp
          · exact List.mem_append_right new List.mem_cons_self
          · exact hseen p hp hlowest

/-- What a search for pending positions that lead to a position keeps: all that it has come across
leads there and is not pending, and of what is no longer on the stack all predecessors but the low
ones have been come across. -/
structure Searching (schedule : Schedule) (pending : List Nat) (lowest position : Nat)
    (search : Search) : Prop where
  nodup : search.seen.Nodup
  leads : ∀ p ∈ search.seen, Relation.TransGen schedule.Forward p position
  notPending : ∀ p ∈ search.seen, p ∉ pending
  stacked : ∀ q ∈ search.stack, q = position ∨ q ∈ search.seen
  followed : ∀ q, q = position ∨ q ∈ search.seen → q ∉ search.stack →
    ∀ p, schedule.Forward p q → lowest ≤ p → p ∈ search.seen

theorem searching_start (schedule : Schedule) (pending : List Nat) (lowest position : Nat) :
    schedule.Searching pending lowest position ⟨[position], []⟩ where
  nodup := .nil
  leads := by simp
  notPending := by simp
  stacked := by simp
  followed := by simp

namespace Searching

variable {search : Search}

/-- What is come across comes before the position, each position once. -/
theorem length_seen_le (h : schedule.Searching pending lowest position search)
    (hs : schedule.Sound) : search.seen.length ≤ position := by
  have hsub : search.seen ⊆ List.range position := fun p hp =>
    List.mem_range.2 (hs.lt_of_transGen (h.leads p hp))
  simpa using (h.nodup.subperm hsub).length_le

/-- What has an edge to something on the stack leads to the position. -/
theorem transGen_of_forward (h : schedule.Searching pending lowest position search) {p q : Nat}
    (hpq : schedule.Forward p q) (hq : q ∈ search.stack) :
    Relation.TransGen schedule.Forward p position := by
  rcases h.stacked q hq with rfl | hq
  · exact .single hpq
  · exact .head hpq (h.leads q hq)

/-- If the stack is empty, then no pending position leads to the position. -/
theorem not_transGen_of_stack (h : schedule.Searching pending lowest position search)
    (hs : schedule.Sound) (hlowest : ∀ p ∈ pending, lowest ≤ p) (hstack : search.stack = [])
    {p : Nat} (hp : p ∈ pending) : ¬Relation.TransGen schedule.Forward p position := by
  have hclosed : ∀ q, q = position ∨ q ∈ search.seen → ∀ r, schedule.Forward r q → lowest ≤ r →
      r ∈ search.seen := fun q hq => h.followed q hq (hstack ▸ List.not_mem_nil)
  -- All of a chain from a pending position is at least as high as that position, hence not low.
  have hchain : ∀ r, Relation.TransGen schedule.Forward r position → lowest ≤ r →
      r ∈ search.seen := by
    intro r hr
    induction hr using Relation.TransGen.head_induction_on with
    | single hedge => exact hclosed position (.inl rfl) _ hedge
    | head hedge _ ih =>
      intro hle
      exact hclosed _ (.inr (ih (Nat.le_trans hle (Nat.le_of_lt (hs.lt_of_forward hedge))))) _
        hedge hle
  exact fun htrans => h.notPending p (hchain p htrans (hlowest p hp)) hp

/-- Following the predecessors of the position on top of the stack. -/
theorem follow {top : Nat} {stack seen : List Nat} {after : Search}
    (h : schedule.Searching pending lowest position ⟨top :: stack, seen⟩)
    (hfollow : Search.follow? pending lowest (schedule.forward.getD top []) ⟨stack, seen⟩ =
      some after) :
    schedule.Searching pending lowest position after ∧
      after.stack.length + seen.length = stack.length + after.seen.length := by
  obtain ⟨new, rfl, hnodup, hnew, hseen⟩ := Search.follow?_eq_some hfollow h.nodup
  refine ⟨⟨hnodup, ?_, ?_, ?_, ?_⟩, by simp only [List.length_append]; omega⟩
  · intro p hp
    rcases List.mem_append.1 hp with hp | hp
    · exact h.transGen_of_forward (mem_forward_iff.1 (hnew p hp).1) List.mem_cons_self
    · exact h.leads p hp
  · intro p hp
    rcases List.mem_append.1 hp with hp | hp
    · exact (hnew p hp).2
    · exact h.notPending p hp
  · intro q hq
    rcases List.mem_append.1 hq with hq | hq
    · exact .inr (List.mem_append_left seen hq)
    · exact (h.stacked q (List.mem_cons_of_mem top hq)).imp_right (List.mem_append_right new)
  · intro q hq hstack p hpq hle
    obtain ⟨hnewq, hstack⟩ := not_or.1 (mt List.mem_append.2 hstack)
    by_cases htop : q = top
    · subst htop
      exact hseen p (mem_forward_iff.2 hpq) hle
    · have hold : q = position ∨ q ∈ seen :=
        hq.imp_right fun hq => (List.mem_append.1 hq).resolve_left hnewq
      have hunstacked : q ∉ top :: stack := by simp [htop, hstack]
      exact List.mem_append_right new (h.followed q hold hunstacked p hpq hle)

end Searching

/-- **The search is exact**, if the bound allows for what is on the stack and for what has not been
come across: it comes across a pending position if and only if one leads to the position. -/
theorem Sound.findsPending_iff (hs : schedule.Sound) (hlowest : ∀ p ∈ pending, lowest ≤ p) :
    ∀ (bound : Nat) (search : Search), schedule.Searching pending lowest position search →
      search.stack.length + position ≤ bound + search.seen.length →
      (search.findsPending (fun p => schedule.forward.getD p []) pending lowest bound = true ↔
        ∃ p ∈ pending, Relation.TransGen schedule.Forward p position) := by
  have hend : ∀ search : Search, schedule.Searching pending lowest position search →
      search.stack = [] → ¬∃ p ∈ pending, Relation.TransGen schedule.Forward p position := by
    rintro search hsearch hstack ⟨p, hp, htrans⟩
    exact hsearch.not_transGen_of_stack hs hlowest hstack hp htrans
  intro bound
  induction bound with
  | zero =>
    intro search hsearch hbound
    have hlength := hsearch.length_seen_le hs
    have hstack : search.stack = [] := List.eq_nil_of_length_eq_zero (by omega)
    exact iff_of_false Bool.false_ne_true (hend search hsearch hstack)
  | succ bound ih =>
    rintro ⟨stack, seen⟩ hsearch hbound
    cases stack with
    | nil => exact iff_of_false Bool.false_ne_true (hend _ hsearch rfl)
    | cons top stack =>
      rw [Search.findsPending]
      cases hfollow :
        Search.follow? pending lowest (schedule.forward.getD top []) ⟨stack, seen⟩ with
      | none =>
        obtain ⟨p, hp, hpending⟩ := Search.exists_pending_of_follow? hfollow
        exact iff_of_true rfl
          ⟨p, hpending, hsearch.transGen_of_forward (mem_forward_iff.1 hp) List.mem_cons_self⟩
      | some after =>
        obtain ⟨hafter, hlength⟩ := hsearch.follow hfollow
        refine ih after hafter ?_
        simp only [List.length_cons] at hbound
        omega

theorem Sound.hasPendingAncestor_iff (hs : schedule.Sound) (hasc : pending.Pairwise (· < ·)) :
    schedule.hasPendingAncestor pending position = true ↔
      ∃ p ∈ pending, Relation.TransGen schedule.Forward p position := by
  cases pending with
  | nil => simp [hasPendingAncestor]
  | cons lowest pending =>
    have hlowest : ∀ p ∈ lowest :: pending, lowest ≤ p := by
      intro p hp
      rcases List.mem_cons.1 hp with rfl | hp
      · exact Nat.le_refl p
      · exact Nat.le_of_lt ((List.pairwise_cons.1 hasc).1 p hp)
    exact hs.findsPending_iff hlowest (position + 1) ⟨[position], []⟩
      (searching_start schedule _ lowest position) (by simp; omega)

end Search

/-! ## The next position -/

/-- The lowest pending position is ready. -/
theorem Sound.ready_head (hs : schedule.Sound) {position : Nat} {pending : List Nat}
    (hasc : (position :: pending).Pairwise (· < ·)) :
    schedule.Ready (position :: pending) position := by
  refine ⟨List.mem_cons_self, fun p hp htrans => ?_⟩
  have hlt := hs.lt_of_transGen htrans
  rcases List.mem_cons.1 hp with rfl | hp
  · exact Nat.lt_irrefl _ hlt
  · exact Nat.lt_asymm hlt ((List.pairwise_cons.1 hasc).1 p hp)

/-- Both worklist orders take up a ready position. -/
theorem Sound.ready_of_next? (hs : schedule.Sound) {order : WorklistOrder} {pending : List Nat}
    (hasc : pending.Pairwise (· < ·)) {position : Nat}
    (h : schedule.next? order pending = some position) : schedule.Ready pending position := by
  cases order with
  | earliestFirst =>
    obtain ⟨rest, rfl⟩ := List.head?_eq_some_iff.1 h
    exact hs.ready_head hasc
  | latestFirst =>
    have hfree : schedule.hasPendingAncestor pending position = false := by
      simpa using List.find?_some h
    refine ⟨List.mem_reverse.1 (List.mem_of_find?_eq_some h), fun p hp htrans => ?_⟩
    rw [(hs.hasPendingAncestor_iff hasc).2 ⟨p, hp, htrans⟩] at hfree
    exact Bool.noConfusion hfree

/-- A position is taken up as long as one is pending. -/
theorem Sound.next?_eq_none_iff (hs : schedule.Sound) {order : WorklistOrder} {pending : List Nat}
    (hasc : pending.Pairwise (· < ·)) : schedule.next? order pending = none ↔ pending = [] := by
  cases order with
  | earliestFirst => exact List.head?_eq_none_iff
  | latestFirst =>
    constructor
    · intro h
      cases pending with
      | nil => rfl
      | cons position pending =>
        have hmem : position ∈ (position :: pending).reverse := by simp
        have hpending : schedule.hasPendingAncestor (position :: pending) position = true := by
          simpa using List.find?_eq_none.1 h position hmem
        obtain ⟨p, hp, htrans⟩ := (hs.hasPendingAncestor_iff hasc).1 hpending
        exact absurd htrans ((hs.ready_head hasc).2 p hp)
    · rintro rfl
      rfl

end Schedule
end HeapFlow
