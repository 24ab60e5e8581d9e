import HeapFlow.Proofs.Solver.Endless

/-! # Widening makes states stable

Blocks are not known to be monotone, so that states may well change back and forth.  But along a
cycle states only grow: interpreting a block, merging and widening never drop what a state is known
to have.  What has to come to rest are the entry states of the loop anchors, and there widening sees
to it that every change is an increase (`Analysis.Damps`).

In an endless run some blocks feed each other in a cycle.  If every cycle has an anchor, so has this
one (`ControlFlowGraph.AnchorsCycles.exists_anchor`), and the entry states of the anchor count as
the same from some time on (`Endless.Recurs.exists_entry`).  All that the anchor adds to its entry
state comes round to it again, so it adds nothing (`Endless.frequently_below`).  Then its exit
states count as the same as well (`Endless.exists_exit`), and the anchor feeds no block.

So there is no endless run, and the analysis comes to the same result with all limits that are high
enough (`Analysis.Damps.exists_bound`).
-/
namespace HeapFlow

namespace ControlFlowGraph

variable {graph : ControlFlowGraph}

variable (graph) in
/-- Every cycle that the entry reaches passes through a block where a loop is anchored. -/
def AnchorsCycles : Prop :=
  ∀ id, Relation.ReflTransGen (fun a b => b ∈ graph.successors a) graph.entry id →
    ¬Relation.TransGen (fun a b => b ∈ graph.successors a ∧ b ∉ graph.loopAnchors) id id

/-- It is enough that all edges lead ahead that do not lead to anchors. -/
theorem anchorsCycles_of_leads (h : ∀ source ∈ graph.reversePostorder,
    ∀ target ∈ graph.successors source, target ∉ graph.loopAnchors →
      (Schedule.ofGraph graph).leads source target = true) : graph.AnchorsCycles := fun _ hid =>
  (Schedule.ofGraph_sound graph).not_transGen_self
    (fun source hsource target hedge => h source hsource target hedge.1 hedge.2)
    (graph.mem_reversePostorder_iff.2 hid)

/-- A cycle of related blocks passes through an anchor, if control can go from block to block. -/
theorem AnchorsCycles.exists_anchor (h : graph.AnchorsCycles) {feeds : BlockId → BlockId → Prop}
    (hedge : ∀ {source target}, feeds source target → target ∈ graph.successors source)
    {id : BlockId} (hid : id ∈ graph.reversePostorder) (hcycle : Relation.TransGen feeds id id) :
    ∃ anchor ∈ graph.loopAnchors, Relation.TransGen feeds anchor anchor := by
  have hsplit : ∀ target, Relation.TransGen feeds id target →
      Relation.TransGen (fun a b => b ∈ graph.successors a ∧ b ∉ graph.loopAnchors) id target ∨
        ∃ anchor ∈ graph.loopAnchors, Relation.TransGen feeds id anchor ∧
          Relation.ReflTransGen feeds anchor target := by
    intro target hpath
    induction hpath with
    | @single target hfeeds =>
      by_cases hanchor : target ∈ graph.loopAnchors
      · exact .inr ⟨target, hanchor, .single hfeeds, .refl⟩
      · exact .inl (.single ⟨hedge hfeeds, hanchor⟩)
    | @tail source target hpath hfeeds ih =>
      by_cases hanchor : target ∈ graph.loopAnchors
      · exact .inr ⟨target, hanchor, hpath.tail hfeeds, .refl⟩
      · rcases ih with hfree | ⟨anchor, hanchored, hto, hfrom⟩
        · exact .inl (hfree.tail ⟨hedge hfeeds, hanchor⟩)
        · exact .inr ⟨anchor, hanchored, hto, hfrom.tail hfeeds⟩
  rcases hsplit id hcycle with hfree | ⟨anchor, hanchor, hto, hfrom⟩
  · exact absurd hfree (h id (graph.mem_reversePostorder_iff.1 hid))
  · exact ⟨anchor, hanchor, Relation.TransGen.trans_right hfrom hto⟩

end ControlFlowGraph

variable {V D : Type} [AbstractValue V] [EntityState D V] [BEq D]

/-- The states of an analysis become stable where they are widened: a widened state has all that the
state has, and it is higher than the previous one unless the two count as the same.  There is a
bound to how high states can be. -/
structure Analysis.Damps (A : Analysis V D) (C : Comparison V D) (height : D → Nat) (bound : Nat) :
    Prop where
  respects : A.Respects C
  symm : ∀ {a b}, C.same a b → C.same b a
  trans : ∀ {a b c}, C.same a b → C.same b c → C.same a c
  beq : ∀ {a b}, C.same a b → (a == b) = true
  below_of_same : ∀ {a b}, C.same a b → C.below a b
  initial : C.same (A.initialState C.routine) (A.initialState C.routine)
  operations : ∀ block ∈ C.routine.graph.blocks, ∀ operation ∈ block.statements,
    C.operation operation
  widen_self : ∀ {a p}, C.same a a → C.same p p → C.same (A.widenData a p) (A.widenData a p)
  below_widen : ∀ a p, C.below a (A.widenData a p)
  height_le : ∀ {a}, C.same a a → height a ≤ bound
  height_widen : ∀ {a p}, C.same a a → C.same p p → height p ≤ height (A.widenData a p)
  widen_eq : ∀ {a p}, C.same a a → C.same p p → height (A.widenData a p) ≤ height p →
    C.same p (A.widenData a p)

variable {A : Analysis V D} {C : Comparison V D} {height : D → Nat} {bound : Nat}

namespace Solver

/-! ## What a block makes of a state -/

section Exit

variable (hA : A.Respects C) {block : Block}
  (hoperations : ∀ operation ∈ block.statements, C.operation operation)
  (hblock : block.receiversEnclosed = true)
include hA hoperations hblock

omit [BEq D] in
theorem below_exit {entry : D} (h : C.same entry entry) :
    C.below entry (visitOf A C.routine block entry).exit :=
  (A.contained_evaluateBlock hA hoperations hblock).grows
    (m := { Machine.initial C.routine with data := entry })
    (resting_initial.agree resting_initial h fun _ => rfl)

omit [BEq D] in
theorem exit_self {entry : D} (h : C.same entry entry) :
    C.same (visitOf A C.routine block entry).exit (visitOf A C.routine block entry).exit :=
  ((A.contained_evaluateBlock hA hoperations hblock).agree
    (m := { Machine.initial C.routine with data := entry })
    (n := { Machine.initial C.routine with data := entry })
    (resting_initial.agree resting_initial h fun _ => rfl) (.inl trivial)).2.2.data

omit [BEq D] in
/-- From states that count as the same a block comes to states that count as the same, if it adds
nothing. -/
theorem exit_same {entry entry' : D} (h : C.same entry entry')
    (hadds : C.below (visitOf A C.routine block entry).exit entry) :
    C.same (visitOf A C.routine block entry).exit (visitOf A C.routine block entry').exit :=
  ((A.contained_evaluateBlock hA hoperations hblock).agree
    (m := { Machine.initial C.routine with data := entry })
    (n := { Machine.initial C.routine with data := entry' })
    (resting_initial.agree resting_initial h False.elim) (.inr hadds)).2.2.data

end Exit

/-! ## What flows into a block -/

omit [BEq D] in
theorem same_mergeAll? (hA : A.Respects C) {states : List D} {merged : D}
    (hstates : ∀ state ∈ states, C.same state state) (hmerged : A.mergeAll? states = some merged) :
    C.same merged merged :=
  Analysis.mergeAll?_of_closed (P := fun state => C.same state state) hA.merge_self hstates hmerged

omit [BEq D] in
theorem below_mergeAll? (hA : A.Respects C) {states : List D} {merged state : D}
    (hmerged : A.mergeAll? states = some merged) (hmem : state ∈ states) : C.below state merged :=
  Analysis.le_mergeAll? C.below_refl (fun _ _ _ => C.below_trans)
    (fun a b => ⟨hA.below_merge_left a b, hA.below_merge_right a b⟩) hmerged hmem

namespace Endless

variable {options : Options}

/-! ## States only grow -/

variable {run : Endless A C.routine options}
variable (hA : A.Damps C height bound) (hlocal : A.Local)
variable (hreceivers : C.routine.HasEnclosedReceivers)
include hA hlocal hreceivers

variable (run) in
theorem exit_eq (n : Nat) : ∃ block, C.routine.graph.block? (run.id n) = some block ∧
    (∀ operation ∈ block.statements, C.operation operation) ∧ block.receiversEnclosed = true ∧
      (run.visit n).exit = (visitOf A C.routine block (run.visit n).entry).exit := by
  obtain ⟨block, hblock, hvisit⟩ := run.exists_block hlocal hreceivers n
  have hmem := C.routine.graph.mem_blocks_of_block? hblock
  exact ⟨block, hblock, hA.operations block hmem, hreceivers block hmem, congrArg Visit.exit hvisit⟩

omit hlocal hreceivers in
theorem merged_self_of_latest {n : Nat}
    (h : ∀ id visit, run.latest? n id = some visit → C.same visit.exit visit.exit) :
    C.same (run.merged n) (run.merged n) := by
  refine same_mergeAll? hA.respects (fun state hmem => ?_) (run.mergeAll?_inflow n)
  rcases ControlFlowGraph.mem_inflow.1 hmem with ⟨-, rfl⟩ | ⟨source, -, -, hexit⟩
  · exact hA.initial
  · obtain ⟨visit, hvisit, rfl⟩ := Option.map_eq_some_iff.1 hexit
    exact h source visit hvisit

theorem visit_self_of_latest {n : Nat} (h : ∀ id visit, run.latest? n id = some visit →
      C.same visit.entry visit.entry ∧ C.same visit.exit visit.exit) :
    C.same (run.visit n).entry (run.visit n).entry ∧
      C.same (run.visit n).exit (run.visit n).exit := by
  have hmerged := merged_self_of_latest hA fun id visit hvisit => (h id visit hvisit).2
  have hentry : C.same (run.visit n).entry (run.visit n).entry := by
    rcases run.entry_eq_or n with heq | ⟨previous, hprevious, heq⟩
    · rw [heq]
      exact hmerged
    · rw [heq]
      exact hA.widen_self hmerged (h _ previous hprevious).1
  obtain ⟨block, -, hoperations, hblock, hexit⟩ := run.exit_eq hA hlocal hreceivers n
  refine ⟨hentry, ?_⟩
  rw [hexit]
  exact exit_self hA.respects hoperations hblock hentry

theorem latest_self (n : Nat) (id : BlockId) (visit : Visit D)
    (h : run.latest? n id = some visit) :
    C.same visit.entry visit.entry ∧ C.same visit.exit visit.exit := by
  induction n generalizing id visit with
  | zero => simp [latest?, run.start, Solver.start] at h
  | succ n ih =>
    rw [run.latest?_succ] at h
    split at h
    · obtain rfl := Option.some.inj h
      exact visit_self_of_latest hA hlocal hreceivers ih
    · exact ih id visit h

variable (run) in
theorem merged_self (n : Nat) : C.same (run.merged n) (run.merged n) :=
  merged_self_of_latest hA fun id visit h => (latest_self hA hlocal hreceivers n id visit h).2

variable (run) in
theorem visit_self (n : Nat) : C.same (run.visit n).entry (run.visit n).entry ∧
    C.same (run.visit n).exit (run.visit n).exit :=
  visit_self_of_latest hA hlocal hreceivers (latest_self hA hlocal hreceivers n)

theorem below_exit_of_entry (n : Nat) : C.below (run.visit n).entry (run.visit n).exit := by
  obtain ⟨block, -, hoperations, hblock, hexit⟩ := run.exit_eq hA hlocal hreceivers n
  rw [hexit]
  exact below_exit hA.respects hoperations hblock (run.visit_self hA hlocal hreceivers n).1

/-- A visit that adds nothing to its entry state comes to the same as other visits do from there. -/
theorem exit_same_of_entry {m n : Nat} (hid : run.id m = run.id n)
    (hentry : C.same (run.visit m).entry (run.visit n).entry)
    (hadds : C.below (run.visit m).exit (run.visit m).entry) :
    C.same (run.visit m).exit (run.visit n).exit := by
  obtain ⟨block, hfound, hoperations, hblock, hexit⟩ := run.exit_eq hA hlocal hreceivers m
  obtain ⟨other, hother, -, -, hexit'⟩ := run.exit_eq hA hlocal hreceivers n
  obtain rfl : block = other := by
    rw [hid, hother] at hfound
    exact (Option.some.inj hfound).symm
  rw [hexit] at hadds
  rw [hexit, hexit']
  exact exit_same hA.respects hoperations hblock hentry hadds

omit hlocal hreceivers in
theorem below_merged (n : Nat) {state : D} (h : state ∈ run.inflow n) :
    C.below state (run.merged n) :=
  below_mergeAll? hA.respects (run.mergeAll?_inflow n) h

omit hlocal hreceivers in
theorem below_entry (n : Nat) : C.below (run.merged n) (run.visit n).entry := by
  rcases run.entry_eq_or n with heq | ⟨previous, -, heq⟩
  · rw [heq]
    exact C.below_refl _
  · rw [heq]
    exact hA.below_widen _ _

/-- What all later exit states of a block have, the later entry states of the blocks have that it
feeds. -/
theorem eventually_of_feeds {P : D → Prop} (hP : ∀ {a b}, P a → C.below a b → P b)
    {source target : BlockId} (h : Relation.TransGen run.Feeds source target)
    (hsource : ∀ᶠ n in Filter.atTop, run.id n = source → P (run.visit n).exit) :
    ∀ᶠ n in Filter.atTop, run.id n = target → P (run.visit n).entry := by
  have hedge : ∀ {source target}, run.Feeds source target →
      (∀ᶠ n in Filter.atTop, run.id n = source → P (run.visit n).exit) →
        ∀ᶠ n in Filter.atTop, run.id n = target → P (run.visit n).entry := by
    intro source target hfeeds hsource
    have hlatest := hfeeds.recurs.eventually_latest (P := fun visit => P visit.exit) hsource
    filter_upwards [hlatest] with n hlatest hid
    obtain ⟨visit, hvisit, hexit⟩ := hlatest
    have hmem : visit.exit ∈ run.inflow n := by
      refine ControlFlowGraph.mem_inflow.2 (.inr ⟨source, ?_, ?_, ?_⟩)
      · rw [hid]
        exact C.routine.graph.mem_predecessors_iff.2 hfeeds.mem_successors
      · rw [hid]
        exact hfeeds.2.2
      · rw [hvisit]
        rfl
    exact hP hexit (C.below_trans (below_merged hA n hmem) (below_entry hA n))
  induction h with
  | single hfeeds => exact hedge hfeeds hsource
  | tail _ hfeeds ih =>
    refine hedge hfeeds (ih.mono fun n hentry hid => ?_)
    exact hP (hentry hid) (below_exit_of_entry hA hlocal hreceivers n)

/-! ## Anchors come to rest -/

/-- **The entry states of an anchor become stable**: they count as the same from some time on, since
each of them is as high as the one before, and higher unless the two count as the same. -/
theorem Recurs.exists_entry {anchor : BlockId} (h : run.Recurs anchor)
    (hanchor : anchor ∈ C.routine.graph.loopAnchors) :
    ∃ entry, ∀ᶠ n in Filter.atTop, run.id n = anchor → C.same entry (run.visit n).entry := by
  have hself := run.visit_self hA hlocal hreceivers
  obtain ⟨start, hstart⟩ := Filter.eventually_atTop.1 (h.eventually_turns options.widenAfter)
  -- There is a highest entry state among those that are widened.
  obtain ⟨first, hfirst⟩ := Filter.frequently_atTop.1 h start
  let missing (n : Nat) : Nat := bound - height (run.visit n).entry
  obtain ⟨m, ⟨hm, hid⟩, hhighest⟩ := (measure missing).wf.has_min
    {n | start ≤ n ∧ run.id n = anchor} ⟨first, hfirst⟩
  have hle : ∀ n, start ≤ n → run.id n = anchor →
      height (run.visit n).entry ≤ height (run.visit m).entry := by
    intro n hn hvisited
    have hnot : ¬bound - height (run.visit n).entry < bound - height (run.visit m).entry :=
      hhighest n ⟨hn, hvisited⟩
    have hbound := hA.height_le (hself n).1
    omega
  -- From then on the latest entry state is as high, and counts as the same.
  have hlatest : ∀ n, m < n → ∃ visit, run.latest? n anchor = some visit ∧
      C.same (run.visit m).entry visit.entry ∧
        height visit.entry = height (run.visit m).entry := by
    intro n hn
    induction n, hn using Nat.le_induction with
    | base => exact ⟨run.visit m, by rw [run.latest?_succ, if_pos hid], (hself m).1, rfl⟩
    | succ n hn ih =>
      rw [run.latest?_succ]
      by_cases hvisited : run.id n = anchor
      · rw [if_pos hvisited]
        obtain ⟨previous, hprevious, hsame, hheight⟩ := ih
        have hearlier : start ≤ n := by omega
        have hwidened : (run.visit n).entry = A.widenData (run.merged n) previous.entry :=
          run.entry_eq_widenData (hvisited ▸ hanchor) (hvisited ▸ hstart n hearlier)
            (hvisited ▸ hprevious)
        have hmerged := run.merged_self hA hlocal hreceivers n
        have hentry := (latest_self hA hlocal hreceivers n anchor previous hprevious).1
        have hrises := hA.height_widen hmerged hentry
        have hhighest := hle n hearlier hvisited
        rw [hwidened] at hhighest
        have hkept := hA.widen_eq hmerged hentry (by omega)
        refine ⟨run.visit n, rfl, ?_, ?_⟩
        · rw [hwidened]
          exact hA.trans hsame hkept
        · rw [hwidened]
          omega
      · rw [if_neg hvisited]
        exact ih
  refine ⟨(run.visit m).entry, Filter.eventually_atTop.2 ⟨m + 1, fun n hn hvisited => ?_⟩⟩
  obtain ⟨visit, hvisit, hsame, -⟩ := hlatest (n + 1) (by omega)
  rw [run.latest?_succ, if_pos hvisited] at hvisit
  rwa [Option.some.inj hvisit]

section Cycle

variable {anchor : BlockId} (hcycle : Relation.TransGen run.Feeds anchor anchor)
include hcycle

/-- An anchor of a cycle adds nothing to its entry states: otherwise these would have more as well,
from some time on. -/
theorem frequently_below {least : D}
    (hleast : ∀ᶠ n in Filter.atTop, run.id n = anchor → C.same least (run.visit n).entry) :
    ∃ᶠ n in Filter.atTop, run.id n = anchor ∧ C.below (run.visit n).exit least := by
  by_contra hnone
  have habove := eventually_of_feeds hA hlocal hreceivers (P := fun state => ¬C.below state least)
    (fun hnot hbelow h => hnot (C.below_trans hbelow h)) hcycle
    ((Filter.not_frequently.1 hnone).mono fun n hnot hvisited hbelow => hnot ⟨hvisited, hbelow⟩)
  obtain ⟨next, hfeeds, -⟩ := Relation.TransGen.head'_iff.1 hcycle
  obtain ⟨n, hvisited, hnot, hsame⟩ :=
    (hfeeds.recurs.and_eventually (habove.and hleast)).exists
  exact hnot hvisited (hA.below_of_same (hA.symm (hsame hvisited)))

/-- **The exit states of an anchor become stable**, since some visit adds nothing. -/
theorem exists_exit (hanchor : anchor ∈ C.routine.graph.loopAnchors) :
    ∃ exit, ∀ᶠ n in Filter.atTop, run.id n = anchor → C.same exit (run.visit n).exit := by
  obtain ⟨next, hfeeds, -⟩ := Relation.TransGen.head'_iff.1 hcycle
  obtain ⟨least, hleast⟩ := hfeeds.recurs.exists_entry hA hlocal hreceivers hanchor
  obtain ⟨m, ⟨hm, hbelow⟩, hsame⟩ :=
    ((frequently_below hA hlocal hreceivers hcycle hleast).and_eventually hleast).exists
  refine ⟨(run.visit m).exit, hleast.mono fun n hsame' hn => ?_⟩
  exact exit_same_of_entry hA hlocal hreceivers (hm.trans hn.symm)
    (hA.trans (hA.symm (hsame hm)) (hsame' hn))
    (C.below_trans hbelow (hA.below_of_same (hsame hm)))

end Cycle

/-- **There is no endless run**: an anchor would have to feed other blocks with changes. -/
theorem elim (run : Endless A C.routine options) (hanchors : C.routine.graph.AnchorsCycles) :
    False := by
  obtain ⟨id, hcycle⟩ := run.exists_cycle
  obtain ⟨first, hfirst, -⟩ := Relation.TransGen.head'_iff.1 hcycle
  obtain ⟨anchor, hanchor, hcycle⟩ :=
    hanchors.exists_anchor Feeds.mem_successors hfirst.recurs.mem_order hcycle
  obtain ⟨next, hfeeds, -⟩ := Relation.TransGen.head'_iff.1 hcycle
  obtain ⟨exit, hexit⟩ := exists_exit hA hlocal hreceivers hcycle hanchor
  have hlatest := hfeeds.recurs.eventually_latest (P := fun visit => C.same exit visit.exit) hexit
  obtain ⟨n, ⟨hvisited, hchanges⟩, hsame, previous, hprevious, hsame'⟩ :=
    (hfeeds.1.and_eventually (hexit.and hlatest)).exists
  have hequal := hA.beq (hA.trans (hA.symm hsame') (hsame hvisited))
  have hdiffers := hchanges previous (hvisited ▸ hprevious)
  rw [hequal] at hdiffers
  cases hdiffers

end Endless
end Solver

/-- **Widening makes the analysis stable.**  If every cycle has an anchor and widening dampens the
states, then all limits that are high enough give the same result, and are not reached. -/
theorem Analysis.Damps.exists_bound (hA : A.Damps C height bound) (hlocal : A.Local)
    (hreceivers : C.routine.HasEnclosedReceivers) (hanchors : C.routine.graph.AnchorsCycles)
    (options : Options) : ∃ bound, ∀ limit, bound ≤ limit →
      (A.solve C.routine (options.withLimit limit)).reachedLimit = false ∧
        A.solve C.routine (options.withLimit limit) =
          A.solve C.routine (options.withLimit bound) := by
  rcases A.exists_bound_or_endless C.routine options with hbound | ⟨⟨run⟩⟩
  · exact hbound
  · exact (run.elim hA hlocal hreceivers hanchors).elim

end HeapFlow
