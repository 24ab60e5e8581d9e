import HeapFlow.Program.ControlFlow
import Mathlib.Data.Finset.Card
import Mathlib.Data.Finset.SDiff
import Mathlib.Logic.Relation

/-! # What a depth-first traversal has seen

`Traversal.visit` follows paths up to a bounded length.  On a finite set of nodes that is closed
under direct successors, a bound of the number of nodes not yet seen is enough
(`Traversal.visit_extends`): each nested visit sees one node more, so a visit that runs out of its
bound asks for a node that has been seen.

What a visit adds is described by `Traversal.Extends`: the nodes that it finishes are distinct, they
are exactly the nodes that it sees for the first time, and all their direct successors have been
seen at its end.  For the graph of a routine this gives the facts about
`ControlFlowGraph.reversePostorder` that the solver relies on: it starts with the entry, has no
repetitions, and is closed under edges.

While a node is visited, the nodes that have been seen and not finished are those that the visit has
come along, and they reach the node.  So an edge to one of them closes a cycle, and every other edge
leads to a node that is finished first (`Traversal.visit_postordered`): in reverse postorder an edge
goes forward, or else it closes a cycle
(`ControlFlowGraph.lt_or_reaches_of_mem_successors`).
-/
namespace HeapFlow
namespace Traversal

variable {α : Type} {next : α → List α}

/-- What a traversal adds to its progress while it visits nodes. -/
structure Extends (next : α → List α) (before after : Traversal α) : Prop where
  seen_mono : ∀ x ∈ before.seen, x ∈ after.seen
  /-- The nodes that are finished are new ones, and all that follows them has been seen. -/
  finished : ∃ new : List α, after.finished = new ++ before.finished ∧ new.Nodup ∧
    ∀ x ∈ new, x ∉ before.seen ∧ x ∈ after.seen ∧ ∀ y ∈ next x, y ∈ after.seen
  covered : ∀ x ∈ after.seen, x ∈ before.seen ∨ x ∈ after.finished

theorem Extends.refl (progress : Traversal α) : Extends next progress progress where
  seen_mono := fun _ h => h
  finished := ⟨[], by simp⟩
  covered := fun _ h => .inl h

theorem Extends.trans {a b c : Traversal α} (hab : Extends next a b) (hbc : Extends next b c) :
    Extends next a c where
  seen_mono := fun x hx => hbc.seen_mono x (hab.seen_mono x hx)
  finished := by
    obtain ⟨newab, hab_eq, hab_nodup, hab_new⟩ := hab.finished
    obtain ⟨newbc, hbc_eq, hbc_nodup, hbc_new⟩ := hbc.finished
    refine ⟨newbc ++ newab, by rw [hbc_eq, hab_eq, List.append_assoc], ?_, ?_⟩
    · refine List.nodup_append.2 ⟨hbc_nodup, hab_nodup, ?_⟩
      rintro x hx _ hy rfl
      exact (hbc_new x hx).1 (hab_new x hy).2.1
    · intro x hx
      rcases List.mem_append.1 hx with hx | hx
      · obtain ⟨hfresh, hseen, hnext⟩ := hbc_new x hx
        exact ⟨fun h => hfresh (hab.seen_mono x h), hseen, hnext⟩
      · obtain ⟨hfresh, hseen, hnext⟩ := hab_new x hx
        exact ⟨hfresh, hbc.seen_mono x hseen, fun y hy => hbc.seen_mono y (hnext y hy)⟩
  covered := by
    intro x hx
    rcases hbc.covered x hx with hx | hx
    · rcases hab.covered x hx with hx | hx
      · exact .inl hx
      · obtain ⟨new, heq, -⟩ := hbc.finished
        exact .inr (heq ▸ List.mem_append_right new hx)
    · exact .inr hx

variable [DecidableEq α]

/-- The nodes of a finite set that a traversal has not seen. -/
def unseen (nodes : Finset α) (progress : Traversal α) : Finset α := nodes \ progress.seen.toFinset

theorem Extends.unseen_le (nodes : Finset α) {a b : Traversal α} (h : Extends next a b) :
    (unseen nodes b).card ≤ (unseen nodes a).card := by
  refine Finset.card_le_card (Finset.sdiff_subset_sdiff (Finset.Subset.refl _) ?_)
  intro x hx
  exact List.mem_toFinset.2 (h.seen_mono x (List.mem_toFinset.1 hx))

theorem unseen_lt {nodes : Finset α} {progress : Traversal α} {node : α} (hnode : node ∈ nodes)
    (hnew : node ∉ progress.seen) :
    (unseen nodes ⟨node :: progress.seen, progress.finished⟩).card <
      (unseen nodes progress).card := by
  refine Finset.card_lt_card ⟨?_, fun hsub => ?_⟩
  · intro x hx
    simp only [unseen, Finset.mem_sdiff, List.mem_toFinset, List.mem_cons, not_or] at hx ⊢
    exact ⟨hx.1, hx.2.2⟩
  · have hmem : node ∈ unseen nodes progress := by simp [unseen, hnode, hnew]
    simpa [unseen] using hsub hmem

/-- Visiting the listed nodes extends the progress if each single visit does. -/
theorem foldl_extends {nodes : Finset α} {bound : Nat}
    (hvisit : ∀ progress node, node ∈ nodes → (unseen nodes progress).card ≤ bound →
      Extends next progress (visit next bound progress node) ∧
        node ∈ (visit next bound progress node).seen) :
    ∀ (list : List α) (progress : Traversal α), (∀ x ∈ list, x ∈ nodes) →
      (unseen nodes progress).card ≤ bound →
      Extends next progress (list.foldl (visit next bound) progress) ∧
        ∀ x ∈ list, x ∈ (list.foldl (visit next bound) progress).seen := by
  intro list
  induction list with
  | nil => exact fun progress _ _ => ⟨.refl progress, by simp⟩
  | cons x list ih =>
    intro progress hnodes hbound
    obtain ⟨hx, hseen⟩ := hvisit progress x (hnodes x (by simp)) hbound
    obtain ⟨hlist, hmem⟩ := ih (visit next bound progress x)
      (fun y hy => hnodes y (by simp [hy])) (Nat.le_trans (hx.unseen_le nodes) hbound)
    refine ⟨hx.trans hlist, fun y hy => ?_⟩
    rcases List.mem_cons.1 hy with rfl | hy
    · exact hlist.seen_mono y hseen
    · exact hmem y hy

/-- A bound of the number of unseen nodes suffices for a visit. -/
theorem visit_extends {nodes : Finset α} (hclosed : ∀ x ∈ nodes, ∀ y ∈ next x, y ∈ nodes) :
    ∀ (bound : Nat) (progress : Traversal α) (node : α), node ∈ nodes →
      (unseen nodes progress).card ≤ bound →
      Extends next progress (visit next bound progress node) ∧
        node ∈ (visit next bound progress node).seen := by
  intro bound
  induction bound with
  | zero =>
    intro progress node hnode hbound
    have hempty := Finset.card_eq_zero.1 (Nat.le_zero.1 hbound)
    have hseen : node ∈ progress.seen := by
      by_contra hnew
      have hmem : node ∈ unseen nodes progress := by simp [unseen, hnode, hnew]
      simp [hempty] at hmem
    exact ⟨.refl progress, hseen⟩
  | succ bound ih =>
    intro progress node hnode hbound
    by_cases hseen : node ∈ progress.seen
    · rw [visit, if_pos hseen]
      exact ⟨.refl progress, hseen⟩
    · rw [visit, if_neg hseen]
      have hlt := unseen_lt hnode hseen
      obtain ⟨hbelow, hnext⟩ := foldl_extends ih (next node)
        ⟨node :: progress.seen, progress.finished⟩ (hclosed node hnode) (by omega)
      generalize (next node).foldl (visit next bound) ⟨node :: progress.seen, progress.finished⟩ =
        below at hbelow hnext
      have hself : node ∈ below.seen := hbelow.seen_mono node (by simp)
      obtain ⟨new, heq, hnodup, hnew⟩ := hbelow.finished
      refine ⟨⟨?_, ⟨node :: new, by simp [heq], ?_, ?_⟩, ?_⟩, hself⟩
      · exact fun x hx => hbelow.seen_mono x (by simp [hx])
      · exact List.nodup_cons.2 ⟨fun h => (hnew node h).1 (by simp), hnodup⟩
      · intro x hx
        rcases List.mem_cons.1 hx with rfl | hx
        · exact ⟨hseen, hself, hnext⟩
        · obtain ⟨hfresh, hx⟩ := hnew x hx
          exact ⟨fun h => hfresh (by simp [h]), hx⟩
      · intro x hx
        rcases hbelow.covered x hx with hx | hx
        · rcases List.mem_cons.1 hx with rfl | hx
          · exact .inr (by simp)
          · exact .inl hx
        · exact .inr (by simp [hx])

/-! ## Postorder -/

/-- Every edge from a listed node leads to a later one of the listed nodes, or closes a cycle. -/
def Postordered (next : α → List α) : List α → Prop
  | [] => True
  | x :: rest => (∀ y ∈ next x, y ∈ rest ∨ Relation.ReflTransGen (fun a b => b ∈ next a) y x) ∧
    Postordered next rest

omit [DecidableEq α] in
theorem Postordered.getElem? {list : List α} (h : Postordered next list) {p : Nat} {x y : α}
    (hx : list[p]? = some x) (hy : y ∈ next x) :
    (∃ q, p < q ∧ list[q]? = some y) ∨ Relation.ReflTransGen (fun a b => b ∈ next a) y x := by
  induction list generalizing p with
  | nil => simp at hx
  | cons z rest ih =>
    cases p with
    | zero =>
      obtain rfl : z = x := by simpa using hx
      refine (h.1 y hy).imp_left fun hmem => ?_
      obtain ⟨q, hq⟩ := List.mem_iff_getElem?.1 hmem
      exact ⟨q + 1, by omega, by simpa using hq⟩
    | succ p =>
      refine (ih h.2 (by simpa using hx)).imp_left ?_
      rintro ⟨q, hlt, hq⟩
      exact ⟨q + 1, by omega, by simpa using hq⟩

/-- The nodes that have been seen and not finished reach the node. -/
def OpenReach (next : α → List α) (progress : Traversal α) (node : α) : Prop :=
  ∀ x ∈ progress.seen, x ∈ progress.finished ∨ Relation.ReflTransGen (fun a b => b ∈ next a) x node

omit [DecidableEq α] in
theorem Extends.mem_finished {a b : Traversal α} (h : Extends next a b) {x : α}
    (hx : x ∈ a.finished) : x ∈ b.finished := by
  obtain ⟨new, heq, -⟩ := h.finished
  exact heq ▸ List.mem_append_right new hx

omit [DecidableEq α] in
/-- No node is left unfinished that was not when the traversal came to it. -/
theorem OpenReach.extends {a b : Traversal α} {node : α} (h : OpenReach next a node)
    (hab : Extends next a b) : OpenReach next b node := by
  intro x hx
  rcases hab.covered x hx with hx | hx
  · exact (h x hx).imp_left hab.mem_finished
  · exact .inl hx

/-- Visiting the listed nodes keeps the finished nodes in order if each single visit does. -/
theorem foldl_postordered {nodes : Finset α} {bound : Nat}
    (hclosed : ∀ x ∈ nodes, ∀ y ∈ next x, y ∈ nodes)
    (hvisit : ∀ progress node, node ∈ nodes → (unseen nodes progress).card ≤ bound →
      OpenReach next progress node → Postordered next progress.finished →
      Postordered next (visit next bound progress node).finished) :
    ∀ (list : List α) (progress : Traversal α), (∀ x ∈ list, x ∈ nodes) →
      (unseen nodes progress).card ≤ bound → (∀ x ∈ list, OpenReach next progress x) →
      Postordered next progress.finished →
      Postordered next (list.foldl (visit next bound) progress).finished := by
  intro list
  induction list with
  | nil => exact fun _ _ _ _ h => h
  | cons x list ih =>
    intro progress hnodes hbound hopen hordered
    have hx := (visit_extends hclosed bound progress x (hnodes x (by simp)) hbound).1
    exact ih _ (fun y hy => hnodes y (by simp [hy])) (Nat.le_trans (hx.unseen_le nodes) hbound)
      (fun y hy => (hopen y (by simp [hy])).extends hx)
      (hvisit progress x (hnodes x (by simp)) hbound (hopen x (by simp)) hordered)

/-- A visit finishes nodes in postorder. -/
theorem visit_postordered {nodes : Finset α} (hclosed : ∀ x ∈ nodes, ∀ y ∈ next x, y ∈ nodes) :
    ∀ (bound : Nat) (progress : Traversal α) (node : α), node ∈ nodes →
      (unseen nodes progress).card ≤ bound → OpenReach next progress node →
      Postordered next progress.finished →
      Postordered next (visit next bound progress node).finished := by
  intro bound
  induction bound with
  | zero => exact fun _ _ _ _ _ h => h
  | succ bound ih =>
    intro progress node hnode hbound hopen hordered
    by_cases hseen : node ∈ progress.seen
    · rwa [visit, if_pos hseen]
    · rw [visit, if_neg hseen]
      have hlt := unseen_lt hnode hseen
      -- What is open within the visit is the node itself and what was open before.
      have hinside : OpenReach next ⟨node :: progress.seen, progress.finished⟩ node := by
        intro x hx
        rcases List.mem_cons.1 hx with rfl | hx
        · exact .inr .refl
        · exact hopen x hx
      obtain ⟨hbelow, hnext⟩ := foldl_extends (visit_extends hclosed bound) (next node)
        ⟨node :: progress.seen, progress.finished⟩ (hclosed node hnode) (by omega)
      have hfinished := foldl_postordered hclosed ih (next node)
        ⟨node :: progress.seen, progress.finished⟩ (hclosed node hnode) (by omega)
        (fun y hy x hx => (hinside x hx).imp_right fun h => h.tail hy) hordered
      exact ⟨fun y hy => hinside.extends hbelow y (hnext y hy), hfinished⟩

/-! ## Properties of what is finished -/

/-- Visiting the listed nodes finishes nodes with a property if each single visit does. -/
theorem of_mem_finished_foldl {P : α → Prop} {bound : Nat}
    (hvisit : ∀ progress node, P node →
      ∀ x ∈ (visit next bound progress node).finished, x ∈ progress.finished ∨ P x) :
    ∀ (list : List α) (progress : Traversal α), (∀ y ∈ list, P y) →
      ∀ x ∈ (list.foldl (visit next bound) progress).finished, x ∈ progress.finished ∨ P x := by
  intro list
  induction list with
  | nil => exact fun _ _ x hx => .inl hx
  | cons y list ih =>
    intro progress hlist x hx
    rcases ih _ (fun z hz => hlist z (by simp [hz])) x hx with hx | hx
    · exact hvisit progress y (hlist y (by simp)) x hx
    · exact .inr hx

/-- A property that holds of a node and carries over to direct successors holds of all nodes that
are finished by visiting the node. -/
theorem of_mem_finished_visit {P : α → Prop} (hnext : ∀ x, P x → ∀ y ∈ next x, P y) :
    ∀ (bound : Nat) (progress : Traversal α) (node : α), P node →
      ∀ x ∈ (visit next bound progress node).finished, x ∈ progress.finished ∨ P x := by
  intro bound
  induction bound with
  | zero => exact fun _ _ _ x hx => .inl hx
  | succ bound ih =>
    intro progress node hnode x hx
    rw [visit] at hx
    split at hx
    · exact .inl hx
    · rcases List.mem_cons.1 hx with rfl | hx
      · exact .inr hnode
      · exact of_mem_finished_foldl ih (next node) ⟨node :: progress.seen, progress.finished⟩
          (hnext node hnode) x hx

/-- A traversal that has nothing behind it finishes what its first node reaches, and nothing else. -/
theorem mem_finished_visit_iff {nodes : Finset α} (hclosed : ∀ x ∈ nodes, ∀ y ∈ next x, y ∈ nodes)
    {bound : Nat} {start : α} (hstart : start ∈ nodes)
    (hbound : (unseen nodes .empty).card ≤ bound) {x : α} :
    x ∈ (visit next bound .empty start).finished ↔
      Relation.ReflTransGen (fun a b => b ∈ next a) start x := by
  constructor
  · intro hx
    have hreached := of_mem_finished_visit
      (P := Relation.ReflTransGen (fun a b => b ∈ next a) start) (fun _ h _ hy => h.tail hy)
      bound .empty start .refl x hx
    simpa [empty] using hreached
  · intro hreaches
    obtain ⟨hextends, hseen⟩ := visit_extends hclosed bound .empty start hstart hbound
    have hfinished : ∀ y ∈ (visit next bound .empty start).seen,
        y ∈ (visit next bound .empty start).finished := fun y hy =>
      (hextends.covered y hy).resolve_left (by simp [empty])
    induction hreaches with
    | refl => exact hfinished start hseen
    | tail _ hedge ih =>
      obtain ⟨new, heq, -, hnew⟩ := hextends.finished
      have hmem := ih
      rw [heq, empty, List.append_nil] at hmem
      exact hfinished _ ((hnew _ hmem).2.2 _ hedge)

/-! ## Traversals of different graphs -/

section Congruence

variable {next' : α → List α} {nodes : Finset α} (hclosed : ∀ x ∈ nodes, ∀ y ∈ next x, y ∈ nodes)

theorem visit_of_mem_seen {bound : Nat} {progress : Traversal α} {node : α}
    (h : node ∈ progress.seen) : visit next bound progress node = progress := by
  cases bound with
  | zero => rfl
  | succ bound => rw [visit, if_pos h]

include hclosed

theorem foldl_visit_congr {bound bound' k : Nat} (hk : k ≤ bound)
    (hvisit : ∀ progress node, node ∈ nodes → (unseen nodes progress).card ≤ k →
      visit next' bound' progress node = visit next bound progress node) :
    ∀ (list : List α) (progress : Traversal α), (∀ x ∈ list, x ∈ nodes) →
      (unseen nodes progress).card ≤ k →
      list.foldl (visit next' bound') progress = list.foldl (visit next bound) progress := by
  intro list
  induction list with
  | nil => exact fun _ _ _ => rfl
  | cons x list ih =>
    intro progress hnodes hcard
    have hx : x ∈ nodes := hnodes x List.mem_cons_self
    have hextends := (visit_extends hclosed bound progress x hx (Nat.le_trans hcard hk)).1
    rw [List.foldl_cons, List.foldl_cons, hvisit progress x hx hcard]
    exact ih _ (fun y hy => hnodes y (List.mem_cons_of_mem x hy))
      (Nat.le_trans (hextends.unseen_le nodes) hcard)

/-- A visit depends on the edges between the nodes that it can come to, and not on its bound, as
long as both bounds suffice. -/
theorem visit_congr (hnext : ∀ x ∈ nodes, next' x = next x) :
    ∀ (bound bound' : Nat) (progress : Traversal α) (node : α), node ∈ nodes →
      (unseen nodes progress).card ≤ bound → (unseen nodes progress).card ≤ bound' →
      visit next' bound' progress node = visit next bound progress node := by
  intro bound
  induction bound with
  | zero =>
    intro bound' progress node hnode hbound _
    have hseen : node ∈ progress.seen := by
      by_contra hnew
      have hlt := unseen_lt hnode hnew
      omega
    rw [visit_of_mem_seen hseen, visit_of_mem_seen hseen]
  | succ bound ih =>
    intro bound' progress node hnode hbound hbound'
    by_cases hseen : node ∈ progress.seen
    · rw [visit_of_mem_seen hseen, visit_of_mem_seen hseen]
    · have hlt := unseen_lt hnode hseen
      obtain ⟨bound', rfl⟩ : ∃ n, bound' = n + 1 := Nat.exists_eq_succ_of_ne_zero (by omega)
      rw [visit, visit, if_neg hseen, if_neg hseen, hnext node hnode]
      rw [foldl_visit_congr hclosed (Nat.min_le_left bound bound') (fun progress node hnode hcard =>
        ih bound' progress node hnode (Nat.le_trans hcard (Nat.min_le_left _ _))
          (Nat.le_trans hcard (Nat.min_le_right _ _))) _ _ (hclosed node hnode) (by omega)]

end Congruence

end Traversal

namespace ControlFlowGraph

variable (graph : ControlFlowGraph)

theorem contains_iff (id : BlockId) : graph.contains id = true ↔ id ∈ graph.blocks.map (·.id) := by
  simp [contains]

theorem contains_entry : graph.contains graph.entry = true :=
  (graph.contains_iff _).2 (List.mem_map_of_mem (List.head_mem graph.nonempty))

theorem contains_of_mem_successors {id target : BlockId} (h : target ∈ graph.successors id) :
    graph.contains target = true :=
  (List.mem_filter.1 h).2

/-- The ids of the blocks of a graph. -/
def idSet : Finset BlockId := (graph.blocks.map (·.id)).toFinset

theorem mem_idSet_iff {id : BlockId} : id ∈ graph.idSet ↔ graph.contains id = true := by
  rw [idSet, List.mem_toFinset, contains_iff]

theorem entry_mem_idSet : graph.entry ∈ graph.idSet := graph.mem_idSet_iff.2 graph.contains_entry

theorem mem_idSet_of_mem_successors :
    ∀ x ∈ graph.idSet, ∀ y ∈ graph.successors x, y ∈ graph.idSet := fun _ _ _ hy =>
  graph.mem_idSet_iff.2 (graph.contains_of_mem_successors hy)

/-- A traversal that sees some ids of a graph sees not more of them than there are blocks. -/
theorem card_unseen_le {nodes : Finset BlockId} (h : nodes ⊆ graph.idSet) :
    (Traversal.unseen nodes .empty).card ≤ graph.blocks.length := by
  calc (Traversal.unseen nodes .empty).card
      ≤ nodes.card := Finset.card_le_card Finset.sdiff_subset
    _ ≤ graph.idSet.card := Finset.card_le_card h
    _ ≤ (graph.blocks.map (·.id)).length := List.toFinset_card_le _
    _ = graph.blocks.length := List.length_map _

/-- The traversal from the entry, at its end. -/
theorem reversePostorder_extends :
    ∃ after : Traversal BlockId, graph.reversePostorder = after.finished ∧
      Traversal.Extends graph.successors .empty after ∧
        Traversal.Postordered graph.successors after.finished := by
  have hclosed := graph.mem_idSet_of_mem_successors
  have hentry := graph.entry_mem_idSet
  have hbound := graph.card_unseen_le (Finset.Subset.refl graph.idSet)
  exact ⟨_, rfl, (Traversal.visit_extends hclosed _ _ _ hentry hbound).1,
    Traversal.visit_postordered hclosed _ _ _ hentry hbound (by simp [Traversal.OpenReach,
      Traversal.empty]) trivial⟩

theorem reversePostorder_nodup : graph.reversePostorder.Nodup := by
  obtain ⟨after, heq, hextends, -⟩ := graph.reversePostorder_extends
  obtain ⟨new, hnew, hnodup, -⟩ := hextends.finished
  rw [heq, hnew]
  simpa [Traversal.empty] using hnodup

/-- The blocks of a path from the entry are all listed, and no others. -/
theorem mem_reversePostorder_iff {id : BlockId} :
    id ∈ graph.reversePostorder ↔
      Relation.ReflTransGen (fun a b => b ∈ graph.successors a) graph.entry id :=
  Traversal.mem_finished_visit_iff graph.mem_idSet_of_mem_successors graph.entry_mem_idSet
    (graph.card_unseen_le (Finset.Subset.refl graph.idSet))

/-- What the entry reaches along one more edge is listed, too. -/
theorem mem_reversePostorder_of_mem_successors {id target : BlockId}
    (hid : id ∈ graph.reversePostorder) (htarget : target ∈ graph.successors id) :
    target ∈ graph.reversePostorder :=
  graph.mem_reversePostorder_iff.2 ((graph.mem_reversePostorder_iff.1 hid).tail htarget)

theorem contains_of_mem_reversePostorder {id : BlockId} (h : id ∈ graph.reversePostorder) :
    graph.contains id = true := by
  have hmem := Traversal.of_mem_finished_visit (P := fun id => graph.contains id = true)
    (fun _ _ _ hy => graph.contains_of_mem_successors hy) _ _ _ graph.contains_entry id h
  simpa [Traversal.empty] using hmem

/-- The entry is listed first. -/
theorem reversePostorder_eq_cons : ∃ rest, graph.reversePostorder = graph.entry :: rest := by
  obtain ⟨n, hn⟩ : ∃ n, graph.blocks.length = n + 1 :=
    Nat.exists_eq_succ_of_ne_zero (by simpa using graph.nonempty)
  unfold reversePostorder
  rw [hn, Traversal.visit, if_neg (by simp [Traversal.empty])]
  exact ⟨_, rfl⟩

/-- An edge goes forward in reverse postorder, or else it closes a cycle. -/
theorem lt_or_reaches_of_mem_successors {p : Nat} {id target : BlockId}
    (hid : graph.reversePostorder[p]? = some id) (htarget : target ∈ graph.successors id) :
    (∃ q, p < q ∧ graph.reversePostorder[q]? = some target) ∨
      Relation.ReflTransGen (fun a b => b ∈ graph.successors a) target id := by
  obtain ⟨after, heq, -, hordered⟩ := graph.reversePostorder_extends
  rw [heq] at hid ⊢
  exact hordered.getElem? hid htarget

end ControlFlowGraph
end HeapFlow
