import HeapFlow.Proofs.Domain.PointsTo
import HeapFlow.Proofs.Entity.Identity
import HeapFlow.Proofs.Entity.Sharing

/-! # Losing precision hides no alias

Two values may alias because there is a location that references with either value may refer to
(`PointsTo.WellFormed.exists_mayReferTo`), and the other way around
(`PointsTo.mayAlias_of_mayReferTo`).  A value that is merged with another one refers to all that it
referred to before, and so does a value that is replaced by a less precise one.  So less precise
values have all the aliases that they had.

Entities overlap because they select the same from the same storage, or from instances that may be
the same.  What they select is not touched if the owner of an entity is merged with another owner,
so that the entities still overlap, unless they have become the same
(`Entity.same_or_mayOverlap_of_family`).
-/
namespace HeapFlow
namespace PointsTo

/-- A reference with the value may refer to the location. -/
def MayReferTo (l : Location) : PointsTo → Prop
  | .known locations => l ∈ locations
  | .unknown => True
  | .undefined | .noLocation => False

variable {a b : PointsTo} {l : Location}

/-- Values that may alias have a location in common. -/
theorem WellFormed.exists_mayReferTo (ha : a.WellFormed) (hb : b.WellFormed)
    (h : a.mayAlias b = true) : ∃ l, a.MayReferTo l ∧ b.MayReferTo l := by
  have hknown : ∀ {set : LocationSet}, (known set).WellFormed → ∃ l, l ∈ set := fun hset =>
    List.exists_mem_of_length_pos hset.1
  cases a with
  | undefined | noLocation => cases b <;> cases h
  | known a =>
    cases b with
    | undefined | noLocation => cases h
    | known b =>
      obtain ⟨l, hla, hlb⟩ := List.any_eq_true.1 h
      exact ⟨l, hla, LocationSet.contains_iff.1 hlb⟩
    | unknown =>
      obtain ⟨l, hl⟩ := hknown ha
      exact ⟨l, hl, trivial⟩
  | unknown =>
    cases b with
    | undefined | noLocation => cases h
    | known b =>
      obtain ⟨l, hl⟩ := hknown hb
      exact ⟨l, trivial, hl⟩
    | unknown => exact ⟨.null, trivial, trivial⟩

/-- Values with a location in common may alias. -/
theorem mayAlias_of_mayReferTo (ha : a.MayReferTo l) (hb : b.MayReferTo l) :
    a.mayAlias b = true := by
  cases a with
  | undefined | noLocation => cases ha
  | known a =>
    cases b with
    | undefined | noLocation => cases hb
    | known b => exact List.any_eq_true.2 ⟨l, ha, LocationSet.contains_iff.2 hb⟩
    | unknown => rfl
  | unknown =>
    cases b with
    | undefined | noLocation => cases hb
    | known | unknown => rfl

/-- A merge refers to all that its first value refers to, also if it gives up on the locations. -/
theorem MayReferTo.merge (h : a.MayReferTo l) (b : PointsTo) : (a.merge b).MayReferTo l := by
  cases a with
  | undefined | noLocation => cases h
  | known a =>
    cases b with
    | undefined => exact h
    | noLocation | unknown => trivial
    | known b =>
      have hpos : 0 < a.size := List.length_pos_of_mem h
      rw [known_merge_known, ofSet_union hpos]
      split
      · trivial
      · exact LocationSet.mem_union.2 (.inl h)
  | unknown =>
    rw [unknown_merge]
    trivial

/-- A less precise value refers to all that the value refers to. -/
theorem MayReferTo.of_subset (h : a.MayReferTo l) (hsubset : AbstractValue.subset a b = true) :
    b.MayReferTo l := by
  have hmerge : a.merge b = b := AbstractValue.subset_iff.1 hsubset
  rw [← hmerge]
  exact h.merge b

end PointsTo

namespace Entity

variable {e e' other other' : Entity}

/-- Entities that overlap still do, or have become the same, if their owners refer to all that they
referred to before. -/
theorem same_or_mayOverlap_of_family (hfamily : e'.family = e.family)
    (hfamily' : other'.family = other.family) (hvalid : e.owner.WellFormed)
    (hvalid' : other.owner.WellFormed)
    (howner : ∀ l, e.owner.MayReferTo l → e'.owner.MayReferTo l)
    (howner' : ∀ l, other.owner.MayReferTo l → other'.owner.MayReferTo l)
    (h : e.mayOverlap other = true) : e'.same other' = true ∨ e'.mayOverlap other' = true := by
  by_cases hsame : e'.same other' = true
  · exact .inl hsame
  right
  obtain ⟨hplace, henclosing⟩ := family_eq_iff.1 hfamily
  obtain ⟨hplace', henclosing'⟩ := family_eq_iff.1 hfamily'
  have hempty : e'.enclosing.isEmpty = e.enclosing.isEmpty := by
    simpa using congrArg List.isEmpty henclosing
  simp only [mayOverlap, Bool.and_eq_true, Bool.or_eq_true, Bool.not_eq_true',
    decide_eq_true_eq] at h ⊢
  obtain ⟨⟨⟨-, hparent⟩, hselect⟩, hinstance⟩ := h
  rw [hplace, hplace', henclosing, henclosing', hempty]
  refine ⟨⟨⟨Bool.eq_false_iff.2 hsame, hparent⟩, hselect⟩, ?_⟩
  refine hinstance.imp_right fun halias => ?_
  obtain ⟨l, hl, hl'⟩ := hvalid.exists_mayReferTo hvalid' halias
  exact PointsTo.mayAlias_of_mayReferTo (howner l hl) (howner' l hl')

/-- **Losing precision hides no alias.**  Less precise values alias if the values do, and entities
that overlap still overlap, or are the same, if the owner of either of them is merged with the owner
of another entity. -/
theorem mayAlias_and_mayOverlap_mono :
    (∀ {a a' b b' : PointsTo}, a.WellFormed → b.WellFormed → AbstractValue.subset a a' = true →
      AbstractValue.subset b b' = true → a.mayAlias b = true → a'.mayAlias b' = true) ∧
    ∀ {e other : Entity}, e.owner.WellFormed → other.owner.WellFormed →
      e.mayOverlap other = true → ∀ more : Entity,
        ((e.withMergedOwner more).same other = true ∨
          (e.withMergedOwner more).mayOverlap other = true) ∧
        (e.same (other.withMergedOwner more) = true ∨
          e.mayOverlap (other.withMergedOwner more) = true) := by
  constructor
  · intro a a' b b' ha hb hsubset hsubset' h
    obtain ⟨l, hl, hl'⟩ := ha.exists_mayReferTo hb h
    exact PointsTo.mayAlias_of_mayReferTo (hl.of_subset hsubset) (hl'.of_subset hsubset')
  · intro e other he hother h more
    have hmerged : ∀ k : Entity, (k.withMergedOwner more).family = k.family := fun _ => rfl
    have howner : ∀ (k : Entity) l, k.owner.MayReferTo l →
        (k.withMergedOwner more).owner.MayReferTo l := fun _ _ hl => hl.merge more.owner
    constructor
    · exact same_or_mayOverlap_of_family (hmerged e) rfl he hother (howner e) (fun _ hl => hl) h
    · exact same_or_mayOverlap_of_family rfl (hmerged other) he hother (fun _ hl => hl)
        (howner other) h

end Entity

namespace PointsToAnalysis

/-- A reference to an object aliases a reference to one of two objects, and still does if it may
refer to a third object or to anything.  The fields of the object overlap in the same way. -/
theorem mayOverlap_mono_fieldOf :
    let object := PointsTo.ofLocation sampleObject
    let third := PointsTo.ofLocation (.creation ⟨3⟩ (.reference "Owner"))
    object.WellFormed ∧ sampleChoice.WellFormed ∧ object.mayAlias sampleChoice = true ∧
      AbstractValue.subset object (object.merge third) = true ∧
      (object.merge third).mayAlias .unknown = true ∧
      (fieldOf object).mayOverlap (fieldOf sampleChoice) = true ∧
      (fieldOf (object.merge third)).same (fieldOf sampleChoice) = false ∧
      (fieldOf (object.merge third)).mayOverlap (fieldOf sampleChoice) = true := by
  intro object third
  have hobject : object.WellFormed := by decide
  have hchoice : sampleChoice.WellFormed := by decide
  have halias : object.mayAlias sampleChoice = true := by decide
  have hsubset : AbstractValue.subset object (object.merge third) = true := by decide
  have hunknown : AbstractValue.subset sampleChoice .unknown = true := by decide
  have hoverlap : (fieldOf object).mayOverlap (fieldOf sampleChoice) = true := by decide
  have hother : (fieldOf (object.merge third)).same (fieldOf sampleChoice) = false := by decide
  obtain ⟨haliases, hoverlaps⟩ := Entity.mayAlias_and_mayOverlap_mono
  have hmerged : (fieldOf (object.merge third)).same (fieldOf sampleChoice) = true ∨
      (fieldOf (object.merge third)).mayOverlap (fieldOf sampleChoice) = true :=
    (hoverlaps hobject hchoice hoverlap (fieldOf third)).1
  refine ⟨hobject, hchoice, halias, hsubset, haliases hobject hchoice hsubset hunknown halias,
    hoverlap, hother, ?_⟩
  exact hmerged.resolve_left (by rw [hother]; exact Bool.false_ne_true)

end PointsToAnalysis
end HeapFlow
