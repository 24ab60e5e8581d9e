import HeapFlow.Entity.Basic

/-! # What the identity of an entity decides

Entities that are the same may differ in static types only.  What the analyses ask of an entity is a
matter of its identity, except for whether its data is copied.
-/
namespace HeapFlow
namespace Entity

variable {e other : Entity}

theorem same_iff : e.same other = true ↔
    e.place = other.place ∧ e.owner = other.owner ∧
      e.enclosing.map (·.identity) = other.enclosing.map (·.identity) := by
  simp [same, identity, Storage.identity, and_assoc]

theorem family_eq_iff : e.family = other.family ↔
    e.place = other.place ∧ e.enclosing.map (·.identity) = other.enclosing.map (·.identity) := by
  simp [family]

theorem family_eq_of_same (h : e.same other = true) : e.family = other.family :=
  have ⟨hplace, _, henclosing⟩ := same_iff.1 h
  family_eq_iff.2 ⟨hplace, henclosing⟩

theorem isSelf_congr (h : e.same other = true) : e.isSelf = other.isSelf := by
  unfold isSelf
  rw [(same_iff.1 h).1]

theorem isMember_congr (symbol : Symbol) (h : e.same other = true) :
    e.isMember symbol = other.isMember symbol := by
  unfold isMember
  rw [(same_iff.1 h).1]

theorem isElement_congr (h : e.same other = true) : e.isElement = other.isElement := by
  unfold isElement
  rw [(same_iff.1 h).1]

theorem isHeapMember_congr (h : e.same other = true) : e.isHeapMember = other.isHeapMember := by
  obtain ⟨hplace, -, henclosing⟩ := same_iff.1 h
  have hall : ∀ entity : Entity, (entity.enclosing.all fun storage => storage.place.isSelector) =
      (entity.enclosing.map (·.identity)).all fun identity => identity.1.isSelector := by
    intro entity
    rw [List.all_map]
    rfl
  unfold isHeapMember
  rw [hplace, hall, hall, henclosing]

/-- The same entities are part of entities that are the same. -/
theorem isAncestorOf_congr (a : Entity) (h : e.same other = true) :
    a.isAncestorOf e = a.isAncestorOf other := by
  have hany : ∀ chain chain' : List Storage,
      chain.map (·.identity) = chain'.map (·.identity) →
        ((ancestorsOf chain).any fun ancestor => ancestor.same a) =
          (ancestorsOf chain').any fun ancestor => ancestor.same a := by
    intro chain
    induction chain with
    | nil =>
      intro chain' hchain
      obtain rfl : chain' = [] := by simpa using hchain.symm
      rfl
    | cons storage chain ih =>
      intro chain' hchain
      cases chain' with
      | nil => simp at hchain
      | cons storage' chain' =>
        obtain ⟨hstorage, hrest⟩ := List.cons.inj hchain
        have hhead : (⟨storage, chain⟩ : Entity).same a = (⟨storage', chain'⟩ : Entity).same a := by
          simp only [same, identity, List.map_cons, hstorage, hrest]
        simp only [ancestorsOf, List.any_cons, hhead, ih chain' hrest]
  exact hany _ _ (same_iff.1 h).2.2

theorem mayOverlap_congr (a : Entity) (h : e.same other = true) :
    a.mayOverlap e = a.mayOverlap other := by
  obtain ⟨hplace, howner, henclosing⟩ := same_iff.1 h
  have hsame : a.same e = a.same other := by
    unfold same
    rw [show e.identity = other.identity from of_decide_eq_true h]
  unfold mayOverlap
  rw [hsame, hplace, howner, henclosing]

end Entity
end HeapFlow
