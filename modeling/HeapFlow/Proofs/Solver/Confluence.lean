import HeapFlow.Proofs.Solver.Outcome
import Mathlib.Data.Set.Basic
import Mathlib.Logic.Function.Basic

/-! # Turns that can be exchanged

Two ready blocks can be visited in either order if control cannot go from one of them to the other:
neither visit changes what flows into the other block.  Between ready blocks there are no forward
edges.  There are no backward edges either in a *sequential* region of the graph
(`Schedule.Sequential`): control comes into the region at its start only, and the block that closes
a loop comes before or after every block that the head of the loop leads to, so that the head is
never ready together with it.

`Region.View` is what the solver knows about a region, and `Region.Fires` visits a ready block.  In
a sequential region two visits can be exchanged (`Region.View.Ready.exchange`), so all runs of the
region that come to an end agree at the end (`Region.eq_of_ended`).
-/
namespace HeapFlow
namespace Schedule

variable (schedule : Schedule)

/-- True if forward edges lead from the first block to the second, different one. -/
def leads (source target : BlockId) : Bool :=
  match schedule.position? source, schedule.position? target with
  | some p, some q => p != q && (schedule.reaching q).contains p
  | _, _ => false

/-- True if control can go back from the first block to the second one: to the block itself, or to
a block that comes earlier. -/
def flowsBack (source head : BlockId) : Bool :=
  schedule.graph.canFlow source head &&
    match schedule.position? source, schedule.position? head with
    | some p, some q => decide (q ≤ p)
    | _, _ => false

/-- A region of the graph whose loops are taken up one after the other. -/
structure Sequential (region : List BlockId) : Prop where
  closed : ∀ source ∈ schedule.order, ∀ target ∈ region,
    schedule.graph.canFlow source target = true → source ∈ region
  comparable : ∀ source ∈ region, ∀ head ∈ region, schedule.flowsBack source head = true →
    ∀ id ∈ region, id = head ∨ schedule.leads head id = true →
      id = source ∨ schedule.leads id source = true ∨ schedule.leads source id = true

/-- A block whose entry state may be widened, or to which control can go back. -/
def IsLoopHead (id : BlockId) : Prop :=
  id ∈ schedule.anchors ∨ ∃ source ∈ schedule.order, schedule.flowsBack source id = true

instance (id : BlockId) : Decidable (schedule.IsLoopHead id) :=
  inferInstanceAs (Decidable (_ ∨ _))

variable {schedule}

theorem Sound.leads_iff (hs : schedule.Sound) {source target : BlockId} :
    schedule.leads source target = true ↔ ∃ p q, schedule.order[p]? = some source ∧
      schedule.order[q]? = some target ∧ Relation.TransGen schedule.Forward p q := by
  simp only [leads, ← hs.position?_eq_some_iff]
  cases hp : schedule.position? source with
  | none => simp
  | some p =>
    cases hq : schedule.position? target with
    | none => simp
    | some q =>
      simp only [Bool.and_eq_true, bne_iff_ne, List.contains_iff_mem, hs.mem_reaching_iff,
        Option.some.injEq, exists_and_left, exists_eq_left']
      rw [Relation.reflTransGen_iff_eq_or_transGen]
      constructor
      · rintro ⟨hne, rfl | h⟩
        · exact absurd rfl hne
        · exact h
      · intro h
        exact ⟨Nat.ne_of_lt (hs.lt_of_transGen h), .inr h⟩

theorem Sound.leads_trans (hs : schedule.Sound) {a b c : BlockId}
    (hab : schedule.leads a b = true) (hbc : schedule.leads b c = true) :
    schedule.leads a c = true := by
  obtain ⟨p, q, hp, hq, hpq⟩ := hs.leads_iff.1 hab
  obtain ⟨q', r, hq', hr, hqr⟩ := hs.leads_iff.1 hbc
  obtain rfl : q = q' := hs.position_unique hq hq'
  exact hs.leads_iff.2 ⟨p, r, hp, hr, hpq.trans hqr⟩

/-- Edges that lead ahead do not close a cycle. -/
theorem Sound.not_transGen_self (hs : schedule.Sound) {edge : BlockId → BlockId → Prop}
    (hedge : ∀ source ∈ schedule.order, ∀ target, edge source target →
      schedule.leads source target = true) {id : BlockId} (hid : id ∈ schedule.order) :
    ¬Relation.TransGen edge id id := by
  intro hcycle
  have hmem : ∀ {source target}, schedule.leads source target = true →
      target ∈ schedule.order := by
    intro source target hleads
    obtain ⟨-, q, -, hq, -⟩ := hs.leads_iff.1 hleads
    exact List.mem_of_getElem? hq
  -- Along a cycle the positions would ascend for ever.
  have hleads : ∀ target, Relation.TransGen edge id target → schedule.leads id target = true := by
    intro target hpath
    induction hpath with
    | single hfirst => exact hedge id hid _ hfirst
    | tail _ hlast ih => exact hs.leads_trans ih (hedge _ (hmem ih) _ hlast)
  obtain ⟨p, q, hp, hq, htrans⟩ := hs.leads_iff.1 (hleads id hcycle)
  obtain rfl : p = q := hs.position_unique hp hq
  exact Nat.lt_irrefl p (hs.lt_of_transGen htrans)

/-- An edge that control can take goes forward or back. -/
theorem Sound.leads_or_flowsBack (hs : schedule.Sound) {source target : BlockId}
    (hsource : source ∈ schedule.order) (htarget : target ∈ schedule.order)
    (hflow : schedule.graph.canFlow source target = true) :
    schedule.leads source target = true ∨ schedule.flowsBack source target = true := by
  obtain ⟨p, hp⟩ := hs.mem_order_iff.1 hsource
  obtain ⟨q, hq⟩ := hs.mem_order_iff.1 htarget
  by_cases hle : q ≤ p
  · right
    simp [flowsBack, hflow, hp, hq, hle]
  · left
    have hp' := hs.position?_eq_some_iff.1 hp
    have hq' := hs.position?_eq_some_iff.1 hq
    refine hs.leads_iff.2 ⟨p, q, hp', hq', .single ((hs.forward_iff p q).2 ⟨by omega, ?_⟩)⟩
    exact ⟨source, target, hp', hq',
      schedule.graph.mem_successors_of_canFlow hflow (hs.known target htarget)⟩

end Schedule

namespace Region

variable {V D : Type} (routine : Routine) (region : List BlockId)

/-- What the solver knows about a region between two turns. -/
structure View (D : Type) where
  pending : Set BlockId
  /-- How often each block has been visited. -/
  counts : BlockId → Nat
  visits : BlockId → Option (Visit D)
  within : ∀ id ∈ pending, id ∈ region ∧ id ∈ routine.schedule.order

variable {routine region}

/-- A pending block of the region that no pending block of the region leads to. -/
structure Ready (view : View routine region D) (id : BlockId) : Prop where
  pending : id ∈ view.pending
  first : ∀ other ∈ view.pending, routine.schedule.leads other id = false

variable [AbstractValue V] [EntityState D V] (A : Analysis V D) (widenAfter : Nat)

variable (routine) in
/-- The visit of the block of the given id, from the state at its start. -/
def visitFrom (id : BlockId) (entry : D) : Visit D :=
  match routine.graph.block? id with
  | some block => Solver.visitOf A routine block entry
  | none => ⟨entry, entry, []⟩

/-- The merge of the states that flow into a block. -/
def mergedEntry (view : View routine region D) (id : BlockId) : D :=
  (A.mergeAll? (routine.graph.inflow (A.initialState routine)
    (fun source => (view.visits source).map (·.exit)) id)).getD (A.initialState routine)

/-- The state from which a block is visited next. -/
def entryState (view : View routine region D) (id : BlockId) : D :=
  if routine.schedule.anchors.contains id && widenAfter < view.counts id + 1 then
    match view.visits id with
    | some previous => A.widenData (mergedEntry A view id) previous.entry
    | none => mergedEntry A view id
  else mergedEntry A view id

variable [BEq D]

/-- The view after a visit of the block.  The blocks that the block flows into become pending unless
the exit state is the one from before. -/
def fire (view : View routine region D) (id : BlockId) : View routine region D :=
  let visit := visitFrom routine A id (entryState A widenAfter view id)
  { pending := {other | other ∈ view.pending ∧ other ≠ id ∨
      (other ∈ region ∧ other ∈ routine.schedule.order ∧ routine.graph.canFlow id other = true) ∧
        ∀ previous, view.visits id = some previous → (previous.exit == visit.exit) = false}
    counts := Function.update view.counts id (view.counts id + 1)
    visits := Function.update view.visits id (some visit)
    within := by
      rintro other (⟨hpending, -⟩ | ⟨⟨hregion, horder, -⟩, -⟩)
      · exact view.within other hpending
      · exact ⟨hregion, horder⟩ }

/-- A ready block is visited. -/
def Fires (before after : View routine region D) : Prop :=
  ∃ id, Ready before id ∧ after = fire A widenAfter before id

variable {A widenAfter} {view : View routine region D}

omit [AbstractValue V] [EntityState D V] [BEq D] in
/-- Two ready blocks come neither before nor after each other. -/
theorem Ready.not_comparable {a b : BlockId} (ha : Ready view a) (hb : Ready view b)
    (hne : a ≠ b) :
    ¬(b = a ∨ routine.schedule.leads b a = true ∨ routine.schedule.leads a b = true) := by
  rintro (heq | h | h)
  · exact hne heq.symm
  · exact absurd h (Bool.eq_false_iff.1 (ha.first b hb.pending))
  · exact absurd h (Bool.eq_false_iff.1 (hb.first a ha.pending))

omit [AbstractValue V] [EntityState D V] [BEq D] in
/-- Control cannot go from one ready block of a sequential region to another one. -/
theorem Ready.not_canFlow (hregion : routine.schedule.Sequential region) {a b : BlockId}
    (ha : Ready view a) (hb : Ready view b) (hne : a ≠ b) : routine.graph.canFlow a b = false := by
  have hain := view.within a ha.pending
  have hbin := view.within b hb.pending
  rw [Bool.eq_false_iff]
  intro hflow
  rcases routine.schedule_sound.leads_or_flowsBack hain.2 hbin.2 hflow with h | h
  · exact ha.not_comparable hb hne (.inr (.inr h))
  · exact ha.not_comparable hb hne (hregion.comparable a hain.1 b hbin.1 h b hbin.1 (.inl rfl))

/-- A visit of one ready block of a sequential region leaves another one ready. -/
theorem Ready.after_fire (hregion : routine.schedule.Sequential region) {a b : BlockId}
    (ha : Ready view a) (hb : Ready view b) (hne : a ≠ b) :
    Ready (fire A widenAfter view a) b := by
  have hs := routine.schedule_sound
  have hain := view.within a ha.pending
  have hbin := view.within b hb.pending
  refine ⟨.inl ⟨hb.pending, hne.symm⟩, fun other hother => ?_⟩
  rcases hother with ⟨hpending, -⟩ | ⟨⟨hotherRegion, hotherOrder, hflow⟩, -⟩
  · exact hb.first other hpending
  · rw [Bool.eq_false_iff]
    intro hleads
    rcases hs.leads_or_flowsBack hain.2 hotherOrder hflow with h | h
    · exact ha.not_comparable hb hne (.inr (.inr (hs.leads_trans h hleads)))
    · -- A block that becomes pending and leads to `b` is the head of a loop that `a` closes.
      exact ha.not_comparable hb hne
        (hregion.comparable a hain.1 other hotherRegion h b hbin.1 (.inr hleads))

/-- A visit does not change the entry state of a block that control does not go on to. -/
theorem entryState_fire {a b : BlockId} (hflow : routine.graph.canFlow a b = false) (hne : a ≠ b) :
    entryState A widenAfter (fire A widenAfter view a) b = entryState A widenAfter view b := by
  have hmerged : mergedEntry A (fire A widenAfter view a) b = mergedEntry A view b := by
    unfold mergedEntry
    rw [routine.graph.inflow_congr _ fun source hsource => ?_]
    have hne : source ≠ a := by
      rintro rfl
      exact absurd hsource (Bool.eq_false_iff.1 hflow)
    simp [fire, Function.update_of_ne hne]
  have hcounts : (fire A widenAfter view a).counts b = view.counts b :=
    Function.update_of_ne hne.symm _ _
  have hvisits : (fire A widenAfter view a).visits b = view.visits b :=
    Function.update_of_ne hne.symm _ _
  unfold entryState
  rw [hmerged, hcounts, hvisits]

omit [AbstractValue V] [EntityState D V] [BEq D] in
theorem View.ext {v w : View routine region D} (hpending : ∀ id, id ∈ v.pending ↔ id ∈ w.pending)
    (hcounts : v.counts = w.counts) (hvisits : v.visits = w.visits) : v = w := by
  obtain ⟨pending, counts, visits, within⟩ := v
  obtain ⟨pending', counts', visits', within'⟩ := w
  obtain rfl : pending = pending' := Set.ext hpending
  obtain rfl : counts = counts' := hcounts
  obtain rfl : visits = visits' := hvisits
  rfl

/-- **Two ready blocks of a sequential region can be visited in either order.** -/
theorem Ready.exchange (hregion : routine.schedule.Sequential region) {a b : BlockId}
    (ha : Ready view a) (hb : Ready view b) (hne : a ≠ b) :
    fire A widenAfter (fire A widenAfter view a) b =
      fire A widenAfter (fire A widenAfter view b) a := by
  have hab := ha.not_canFlow hregion hb hne
  have hba := hb.not_canFlow hregion ha hne.symm
  have hvisitb : entryState A widenAfter (fire A widenAfter view a) b =
      entryState A widenAfter view b := entryState_fire hab hne
  have hvisita : entryState A widenAfter (fire A widenAfter view b) a =
      entryState A widenAfter view a := entryState_fire hba hne.symm
  have hprevb : (fire A widenAfter view a).visits b = view.visits b :=
    Function.update_of_ne hne.symm _ _
  have hpreva : (fire A widenAfter view b).visits a = view.visits a :=
    Function.update_of_ne hne _ _
  refine View.ext (fun id => ?_) ?_ ?_
  · -- The blocks that one of the visits wakes up do not include the other one of the two.
    show (id ∈ (fire A widenAfter view a).pending ∧ id ≠ b ∨ _ ∧ _) ↔
      (id ∈ (fire A widenAfter view b).pending ∧ id ≠ a ∨ _ ∧ _)
    rw [hvisitb, hvisita, hprevb, hpreva]
    show ((id ∈ view.pending ∧ id ≠ a ∨ _ ∧ _) ∧ id ≠ b ∨ _ ∧ _) ↔
      ((id ∈ view.pending ∧ id ≠ b ∨ _ ∧ _) ∧ id ≠ a ∨ _ ∧ _)
    have hnotb : routine.graph.canFlow a id = true → id ≠ b := by
      rintro h rfl
      exact absurd h (Bool.eq_false_iff.1 hab)
    have hnota : routine.graph.canFlow b id = true → id ≠ a := by
      rintro h rfl
      exact absurd h (Bool.eq_false_iff.1 hba)
    constructor
    · rintro (⟨⟨hpending, hneA⟩ | hafterA, hneB⟩ | hafterB)
      · exact .inl ⟨.inl ⟨hpending, hneB⟩, hneA⟩
      · exact .inr hafterA
      · exact .inl ⟨.inr hafterB, hnota hafterB.1.2.2⟩
    · rintro (⟨⟨hpending, hneB⟩ | hafterB, hneA⟩ | hafterA)
      · exact .inl ⟨.inl ⟨hpending, hneA⟩, hneB⟩
      · exact .inr hafterB
      · exact .inl ⟨.inr hafterA, hnotb hafterA.1.2.2⟩
  · have hcountb : (fire A widenAfter view a).counts b = view.counts b :=
      Function.update_of_ne hne.symm _ _
    have hcounta : (fire A widenAfter view b).counts a = view.counts a :=
      Function.update_of_ne hne _ _
    show Function.update (Function.update view.counts a _) b
        ((fire A widenAfter view a).counts b + 1) =
      Function.update (Function.update view.counts b _) a
        ((fire A widenAfter view b).counts a + 1)
    rw [hcountb, hcounta, Function.update_comm hne.symm]
  · show Function.update (Function.update view.visits a _) b (some (visitFrom routine A b _)) =
      Function.update (Function.update view.visits b _) a (some (visitFrom routine A a _))
    rw [hvisitb, hvisita, Function.update_comm hne.symm]

/-- All runs of a sequential region that come to an end agree at the end. -/
theorem eq_of_ended (hregion : routine.schedule.Sequential region)
    {start v w : View routine region D} (hv : Relation.ReflTransGen (Fires A widenAfter) start v)
    (hw : Relation.ReflTransGen (Fires A widenAfter) start w) (hvend : v.pending = ∅)
    (hwend : w.pending = ∅) : v = w := by
  have hdiamond : ∀ view v w : View routine region D, Fires A widenAfter view v →
      Fires A widenAfter view w → ∃ x, Relation.ReflGen (Fires A widenAfter) v x ∧
        Relation.ReflTransGen (Fires A widenAfter) w x := by
    rintro view v w ⟨a, ha, rfl⟩ ⟨b, hb, rfl⟩
    by_cases hne : a = b
    · subst hne
      exact ⟨_, .refl, .refl⟩
    · refine ⟨fire A widenAfter (fire A widenAfter view a) b,
        .single ⟨b, ha.after_fire hregion hb hne, rfl⟩,
        .single ⟨a, hb.after_fire hregion ha (Ne.symm hne), ?_⟩⟩
      exact ha.exchange hregion hb hne
  have hended : ∀ {v x : View routine region D}, v.pending = ∅ →
      Relation.ReflTransGen (Fires A widenAfter) v x → v = x := by
    intro v x hend hx
    rcases Relation.ReflTransGen.cases_head hx with heq | ⟨y, ⟨id, hid, -⟩, -⟩
    · exact heq
    · have hpending := hid.pending
      simp [hend] at hpending
  -- Both ends have a common successor, but no block of them is left to visit.
  obtain ⟨x, hvx, hwx⟩ := Relation.church_rosser hdiamond hv hw
  rw [hended hvend hvx, hended hwend hwx]

end Region
end HeapFlow
