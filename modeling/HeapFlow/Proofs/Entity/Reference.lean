import HeapFlow.Proofs.Environment.Congruence
import HeapFlow.Proofs.Domain.FiniteLocations
import HeapFlow.Proofs.Entity.Identity
import HeapFlow.Proofs.Interpreter.Evaluated

/-! # What references denote

An operation denotes an entity in one of few ways (`Operation.DenotesBy`): it names a variable, a
slot or the self instance, it selects from the objects that its instance may refer to, or it selects
from data that is part of other storage.  So the type of storage that is named by a symbol is the
type of the symbol, and storage that is part of other storage has no owner of its own.

Entities of one family are joined by covering their owners (`Entity.joinOn_keys`).
-/
namespace HeapFlow

namespace Operation

/-- The ways in which an operation denotes an entity. -/
inductive DenotesBy (self? : Option Entity) (ownerOf : Operation → PointsTo)
    (operation : Operation) : Entity → Prop
  | self {e : Entity} (h : self? = some e) (hform : operation.form = .instanceReference none) :
    DenotesBy self? ownerOf operation e
  | localVariable (symbol : Symbol) : DenotesBy self? ownerOf operation (.ofLocal symbol)
  | parameter (symbol : Symbol) (h : operation.form = .parameterReference symbol) :
    DenotesBy self? ownerOf operation (.ofParameter symbol)
  | capture (id : CaptureId) (type : StaticType) :
    DenotesBy self? ownerOf operation (.ofCapture id type)
  | staticMember (symbol : Symbol) :
    DenotesBy self? ownerOf operation (.ofStorage ⟨.member symbol, symbol.type, .noLocation⟩)
  | selfMember (symbol : Symbol) {self : Entity} (h : self? = some self) :
    DenotesBy self? ownerOf operation (.ofStorage ⟨.member symbol, symbol.type, self.owner⟩)
  | owned {object : Operation} {place : Place} {type : StaticType} {locations : LocationSet}
    (hselected : operation.selected? = some (object, place, type))
    (hobject : object.isCopied = false) (howner : ownerOf object = .known locations) :
    DenotesBy self? ownerOf operation (.ofStorage ⟨place, type, .known locations⟩)
  | part {object : Operation} {place : Place} {type : StaticType} {parent : Entity}
    (hselected : operation.selected? = some (object, place, type))
    (hparent : object.denoted? self? ownerOf = some parent) :
    DenotesBy self? ownerOf operation (parent.part place type)

variable {self? : Option Entity} {ownerOf : Operation → PointsTo} {operation : Operation}
  {e : Entity}

theorem denotesBy_of_ofBareMember? {symbol : Symbol}
    (h : Entity.ofBareMember? self? symbol = some e) : operation.DenotesBy self? ownerOf e := by
  unfold Entity.ofBareMember? at h
  split at h
  · obtain rfl := Option.some.inj h
    exact .staticMember symbol
  · obtain ⟨self, hself, rfl⟩ := Option.map_eq_some_iff.1 h
    exact .selfMember symbol hself

theorem denotesBy_of_denoted? (h : operation.denoted? self? ownerOf = some e) :
    operation.DenotesBy self? ownerOf e := by
  cases hselected : operation.selected? with
  | some selection =>
    obtain ⟨object, place, type⟩ := selection
    rw [denoted?_of_selected hselected] at h
    by_cases hcopied : object.isCopied = true
    · rw [if_pos hcopied] at h
      obtain ⟨parent, hparent, rfl⟩ := Option.map_eq_some_iff.1 h
      exact .part hselected hparent
    · rw [if_neg hcopied] at h
      cases howner : ownerOf object with
      | known locations =>
        rw [howner] at h
        obtain rfl := Option.some.inj h
        exact .owned hselected (Bool.eq_false_iff.2 hcopied) howner
      | _ => simp [howner, Entity.ofOwner?] at h
  | none =>
    unfold denoted? at h
    split at h
    · obtain rfl := Option.some.inj h
      exact .localVariable _
    · obtain rfl := Option.some.inj h
      exact .parameter _ rfl
    · exact .self h rfl
    · obtain rfl := Option.some.inj h
      exact .capture _ _
    · obtain rfl := Option.some.inj h
      exact .capture _ _
    · exact denotesBy_of_ofBareMember? h
    · cases hselected
    · exact denotesBy_of_ofBareMember? h
    · cases hselected
    · cases hselected
    · cases h

/-- Selected storage is a member, which has the type of its symbol, or an element. -/
theorem place_of_selected {object : Operation} {place : Place} {type : StaticType}
    (h : operation.selected? = some (object, place, type)) :
    (∃ symbol, place = .member symbol ∧ type = symbol.type) ∨
      ∃ indices, place = .element indices := by
  unfold selected? at h
  split at h
  all_goals cases h
  all_goals simp

/-- Only the self reference denotes the self instance. -/
theorem self_of_denoted? (h : operation.denoted? self? ownerOf = some e)
    (hplace : e.place = .self) :
    self? = some e ∧ operation.form = .instanceReference none := by
  cases denotesBy_of_denoted? h with
  | self h hform => exact ⟨h, hform⟩
  | owned hselected | part hselected =>
    rcases place_of_selected hselected with ⟨symbol, rfl, -⟩ | ⟨indices, rfl⟩ <;> cases hplace
  | _ => cases hplace

/-- What an operation denotes depends on a single points-to value. -/
theorem denoted?_eq_const {valid : PointsTo → Prop} (hvalid : valid .noLocation)
    (h : ∀ consulted ∈ operation.consulted, valid (ownerOf consulted)) :
    ∃ value, valid value ∧
      operation.denoted? self? ownerOf = operation.denoted? self? fun _ => value := by
  rcases operation.consulted_eq_nil_or_singleton with hnil | ⟨consulted, hsingle⟩
  · refine ⟨.noLocation, hvalid, operation.denoted?_congr self? fun other hother => ?_⟩
    simp [hnil] at hother
  · refine ⟨ownerOf consulted, h consulted (by simp [hsingle]),
      operation.denoted?_congr self? fun other hother => ?_⟩
    rw [hsingle, List.mem_singleton] at hother
    rw [hother]

end Operation

namespace Entity

/-! ## Joining entities of one family -/

theorem same_iff_family {a b : Entity} :
    a.same b = true ↔ a.family = b.family ∧ a.owner = b.owner := by
  rw [same_iff, family_eq_iff]
  exact ⟨fun ⟨hplace, howner, henclosing⟩ => ⟨⟨hplace, henclosing⟩, howner⟩,
    fun ⟨⟨hplace, henclosing⟩, howner⟩ => ⟨hplace, howner, henclosing⟩⟩

theorem landing_eq (a b : Entity) :
    Environment.landing a b = { a with owner := a.owner.cover b.owner } := by
  unfold Environment.landing PointsTo.cover
  by_cases h : a.owner = b.owner
  · have hinstance : InstanceKey.sameInstance a b = true := decide_eq_true h
    rw [if_pos h, if_pos hinstance]
  · have hinstance : InstanceKey.sameInstance a b = false := decide_eq_false h
    rw [if_neg h, hinstance, if_neg Bool.false_ne_true]
    rfl

theorem same_landing_iff {a b k : Entity} : (Environment.landing a b).same k = true ↔
    a.family = k.family ∧ a.owner.cover b.owner = k.owner := by
  rw [landing_eq, same_iff_family]
  rfl

/-- The same entity lands on itself. -/
theorem same_landing_of_same {a b : Entity} (h : Key.same a b = true) :
    InstanceKey.sameFamily a b = true ∧ Key.same (Environment.landing a b) a = true := by
  obtain ⟨hfamily, howner⟩ := same_iff_family.1 h
  refine ⟨decide_eq_true hfamily, same_landing_iff.2 ⟨rfl, ?_⟩⟩
  rw [← howner, PointsTo.cover_self]

/-- Entities are joined by covering their owners. -/
theorem joinOn_keys {known : Entity → Prop}
    (hclosed : ∀ a b, known a → known b → a.family = b.family →
      known { a with owner := a.owner.cover b.owner }) : InstanceKey.JoinOn known where
  family_congr := by
    intro a a' b b' ha hb
    show decide (a.family = b.family) = decide (a'.family = b'.family)
    rw [family_eq_of_same ha, family_eq_of_same hb]
  landing := by
    intro a b ha hb hfamily
    rw [landing_eq]
    exact hclosed a b ha hb (of_decide_eq_true hfamily)
  landing_congr := by
    intro a a' b b' ha ha' hb hb' hsame hsame'
    obtain ⟨hfamily, howner⟩ := same_iff_family.1 hsame
    have howner' := (same_iff_family.1 hsame').2
    refine same_landing_iff.2 ⟨?_, ?_⟩
    · rw [landing_eq]
      exact hfamily
    · rw [landing_eq, howner, howner']
  landing_self := fun {k} _ => ⟨decide_eq_true rfl, same_landing_iff.2 ⟨rfl, k.owner.cover_self⟩⟩
  absorb_left := by
    intro a b k ha hb hk hfamily hlanding
    obtain ⟨hfamily', howner⟩ := same_landing_iff.1 hlanding
    refine ⟨decide_eq_true (hfamily'.symm.trans (of_decide_eq_true hfamily)), ?_⟩
    refine same_landing_iff.2 ⟨rfl, ?_⟩
    rw [← howner, PointsTo.cover_cover]
  absorb_right := by
    intro a b k ha hb hk hfamily hlanding
    obtain ⟨hfamily', howner⟩ := same_landing_iff.1 hlanding
    refine ⟨decide_eq_true hfamily', same_landing_iff.2 ⟨hfamily', ?_⟩⟩
    rw [← howner, PointsTo.cover_comm a.owner b.owner, PointsTo.cover_comm a.owner,
      PointsTo.cover_cover]

theorem joinOn_all : InstanceKey.JoinOn fun _ : Entity => True :=
  joinOn_keys fun _ _ _ _ _ => trivial

theorem sameInstance_of_same {a b : Entity} (h : Key.same a b = true) :
    InstanceKey.sameInstance a b = true :=
  decide_eq_true (same_iff_family.1 h).2

/-- The key of a pair of entities does not depend on which of them comes first. -/
theorem landing_comm {a b : Entity} (h : InstanceKey.sameFamily a b = true) :
    InstanceKey.sameFamily b a = true ∧
      Key.same (Environment.landing b a) (Environment.landing a b) = true := by
  have hfamily : a.family = b.family := of_decide_eq_true h
  refine ⟨decide_eq_true hfamily.symm, same_landing_iff.2 ⟨?_, ?_⟩⟩
  · rw [landing_eq]
    exact hfamily.symm
  · rw [landing_eq, PointsTo.cover_comm]

end Entity

end HeapFlow
