import HeapFlow.Client.PointsTo
import HeapFlow.Proofs.Environment.Lookup

/-! # Which storage a write may touch

Storage is reached through a chain of selections, from a variable or from heap objects down to the
storage itself.  Two chains may be the same storage (`Entity.mayShare`) if they select the same at
every level and start at the same storage or at objects that may be the same.  A write to an entity
may touch the entities that it may share storage with, all that is part of these, and all that is
part of the entity itself (`Entity.mayTouch`).

`Analysis.write` forgets those of them whose enclosing storage is that of the written entity, and
those that are part of the written entity, and no others
(`PointsToAnalysis.get?_write_eq_unknown_iff`).  So it misses members of data that is copied when
the data is held by objects that overlap without being known to be the same
(`PointsToAnalysis.write_misses_overlapping_data`).
-/
namespace HeapFlow
namespace Entity

/-- True if two chains of storage, both innermost first, may lead to the same storage. -/
def chainsMeet : List Storage → List Storage → Bool
  | [s], [t] =>
    s.identity = t.identity || s.place.maySelectSame t.place && s.owner.mayAlias t.owner
  | s :: chain, t :: chain' => s.place.maySelectSame t.place && chainsMeet chain chain'
  | _, _ => false

/-- True if the two entities may be the same storage. -/
def mayShare (e other : Entity) : Bool :=
  chainsMeet (e.toStorage :: e.enclosing) (other.toStorage :: other.enclosing)

/-- True if a write to the first entity may be a write to the second one or to part of it, or may
change all of it. -/
def mayTouch (e other : Entity) : Bool :=
  e.mayShare other || other.ancestors.any e.mayShare || e.isAncestorOf other

/-- True if the two entities are selected from the same enclosing storage. -/
def sameEnclosing (e other : Entity) : Bool :=
  e.enclosing.map (·.identity) = other.enclosing.map (·.identity)

theorem length_eq_of_chainsMeet {chain chain' : List Storage} (h : chainsMeet chain chain' = true) :
    chain.length = chain'.length := by
  fun_induction chainsMeet chain chain' with
  | case1 s t => rfl
  | case2 s chain t chain' _ ih =>
    simp only [Bool.and_eq_true] at h
    simp [ih h.2]
  | case3 => simp at h

theorem length_lt_of_mem_ancestorsOf {storage : List Storage} {a : Entity}
    (h : a ∈ ancestorsOf storage) : a.enclosing.length < storage.length := by
  induction storage with
  | nil => simp [ancestorsOf] at h
  | cons head storage ih =>
    rcases List.mem_cons.1 h with rfl | h
    · simp
    · exact Nat.lt_succ_of_lt (ih h)

/-- Of different entities that are selected from the same storage, those that may be the same
overlap. -/
theorem mayOverlap_of_mayShare {e other : Entity} (hother : e.same other = false)
    (henclosing : e.sameEnclosing other = true) (h : e.mayShare other = true) :
    e.mayOverlap other = true := by
  obtain ⟨s, chain⟩ := e
  obtain ⟨t, chain'⟩ := other
  have hmap : chain.map (·.identity) = chain'.map (·.identity) := by
    simpa [sameEnclosing] using henclosing
  cases chain with
  | nil =>
    obtain rfl : chain' = [] := by simpa using hmap.symm
    have hid : s.identity ≠ t.identity := by simpa [same, identity] using hother
    simpa [mayOverlap, mayShare, chainsMeet, hother, hid] using h
  | cons outer chain =>
    obtain ⟨outer', chain', rfl⟩ : ∃ o c, chain' = o :: c := by
      cases chain' with
      | nil => simp at hmap
      | cons o c => exact ⟨o, c, rfl⟩
    have hselect : s.place.maySelectSame t.place = true := by
      simp only [mayShare, chainsMeet, Bool.and_eq_true] at h
      exact h.1
    simp only [mayOverlap, hother, hmap, hselect]
    simp

/-- What encloses storage is enclosed by less than the storage is. -/
theorem mayShare_ancestor_eq_false {e other : Entity} (henclosing : e.sameEnclosing other = true) :
    other.ancestors.any e.mayShare = false := by
  refine List.any_eq_false.2 fun a ha hshare => ?_
  have hlength := length_eq_of_chainsMeet hshare
  have hlt := length_lt_of_mem_ancestorsOf ha
  have hsame : e.enclosing.length = other.enclosing.length := by
    have hmap : e.enclosing.map (·.identity) = other.enclosing.map (·.identity) := by
      simpa [sameEnclosing] using henclosing
    simpa using congrArg List.length hmap
  simp only [List.length_cons] at hlength
  omega

end Entity

namespace Analysis

variable {V : Type} [AbstractValue V] (A : Analysis V (Environment Entity V))

/-- A write binds the entity, forgets the other entities that are neither pinned nor safe from it,
and leaves all else as it was. -/
theorem get?_write_of_mem (e : Entity) (value : V) (data : Environment Entity V) {other : Entity}
    {v : V} (hentry : (other, v) ∈ data.entries) (hother : e.same other = false) :
    (A.write e value data).get? other =
      some (if !A.isPinned other && (e.mayOverlap other || e.isAncestorOf other) then
        AbstractValue.unknown else v) := by
  have hkey : Key.same e other = false := hother
  show ((data.widenMatching _ _).insert e _).get? other = _
  rw [Environment.get?_insert, hkey, if_neg Bool.false_ne_true, Environment.widenMatching,
    data.get?_mapValues_of_mem _ hentry]

end Analysis

namespace PointsToAnalysis

/-- **What a write forgets.**  Of the entities that a write to `e` may touch, and that are not
pinned, those are unknown afterwards that are selected from the same enclosing storage as `e`, those
that are part of `e`, and those that were unknown before. -/
theorem get?_write_eq_unknown_iff (data : PointsToState) (e : Entity) (value : PointsTo)
    {other : Entity} {v : PointsTo} (hentry : (other, v) ∈ data.entries)
    (hpinned : isPinned other = false) (hother : e.same other = false)
    (htouch : e.mayTouch other = true) :
    (pointsToAnalysis.write e value data).get? other = some .unknown ↔
      e.sameEnclosing other = true ∨ e.isAncestorOf other = true ∨ v = .unknown := by
  rw [pointsToAnalysis.get?_write_of_mem e value data hentry hother]
  have hpinned' : pointsToAnalysis.isPinned other = false := hpinned
  rw [hpinned']
  constructor
  · intro h
    by_cases hforget : (e.mayOverlap other || e.isAncestorOf other) = true
    · rcases Bool.or_eq_true_iff.1 hforget with hoverlap | hancestor
      · simp only [Entity.mayOverlap, Bool.and_eq_true] at hoverlap
        exact .inl hoverlap.1.1.2
      · exact .inr (.inl hancestor)
    · refine .inr (.inr ?_)
      simpa [hforget] using h
  · rintro (henclosing | hancestor | rfl)
    · have hforget : (e.mayOverlap other || e.isAncestorOf other) = true := by
        simp only [Entity.mayTouch, Entity.mayShare_ancestor_eq_false henclosing, Bool.or_false,
          Bool.or_eq_true] at htouch
        rcases htouch with hshare | hancestor
        · simp [Entity.mayOverlap_of_mayShare hother henclosing hshare]
        · simp [hancestor]
      simp [hforget, AbstractValue.unknown]
    · simp [hancestor, AbstractValue.unknown]
    · simp [AbstractValue.unknown]

/-! ## Data that overlaps -/

/-- A field of a reference type. -/
def sampleField : Symbol := .field ⟨1⟩ "item" (.reference "Item")

/-- A field that holds data. -/
def sampleDataField : Symbol := .field ⟨2⟩ "data" (.value "Data")

/-- An object. -/
def sampleObject : Location := .creation ⟨1⟩ (.reference "Owner")

/-- A reference to one of two objects. -/
def sampleChoice : PointsTo := .ofLocations [sampleObject, .creation ⟨2⟩ (.reference "Owner")]

/-- A field of the objects that a reference may refer to. -/
def fieldOf (owner : PointsTo) : Entity := .ofStorage ⟨.member sampleField, sampleField.type, owner⟩

/-- A field of the data that is held by the objects that a reference may refer to. -/
def dataFieldOf (owner : PointsTo) : Entity :=
  (Entity.ofStorage ⟨.member sampleDataField, sampleDataField.type, owner⟩).part
    (.member sampleField) sampleField.type

/-- The field of an object and the field of one of two objects may be the same. -/
theorem get?_write_fieldOf :
    let data : PointsToState := Environment.empty.insert (fieldOf sampleChoice) .noLocation
    (fieldOf sampleChoice, PointsTo.noLocation) ∈ data.entries ∧
      isPinned (fieldOf sampleChoice) = false ∧
      (fieldOf (.ofLocation sampleObject)).same (fieldOf sampleChoice) = false ∧
      (fieldOf (.ofLocation sampleObject)).mayTouch (fieldOf sampleChoice) = true ∧
      (pointsToAnalysis.write (fieldOf (.ofLocation sampleObject)) .undefined data).get?
        (fieldOf sampleChoice) = some .unknown := by
  intro data
  have hentry : (fieldOf sampleChoice, PointsTo.noLocation) ∈ data.entries :=
    List.mem_singleton.2 rfl
  have hpinned : isPinned (fieldOf sampleChoice) = false := by decide
  have hother : (fieldOf (.ofLocation sampleObject)).same (fieldOf sampleChoice) = false := by
    decide
  have htouch : (fieldOf (.ofLocation sampleObject)).mayTouch (fieldOf sampleChoice) = true := by
    decide
  exact ⟨hentry, hpinned, hother, htouch,
    (get?_write_eq_unknown_iff data _ .undefined hentry hpinned hother htouch).2 (.inl rfl)⟩

/-- **A write misses data that overlaps.**  The field of the data of an object and the field of the
data of one of two objects may be the same storage, but a write to one of them keeps the value of
the other. -/
theorem write_misses_overlapping_data :
    ¬∀ (data : PointsToState) (e : Entity) (value : PointsTo) (other : Entity) (v : PointsTo),
      (other, v) ∈ data.entries → isPinned other = false → e.same other = false →
        e.mayTouch other = true →
          (pointsToAnalysis.write e value data).get? other = some .unknown := by
  intro h
  have hentry : (dataFieldOf sampleChoice, PointsTo.noLocation) ∈
      (Environment.empty.insert (dataFieldOf sampleChoice) .noLocation : PointsToState).entries :=
    List.mem_singleton.2 rfl
  have hpinned : isPinned (dataFieldOf sampleChoice) = false := by decide
  have hother :
      (dataFieldOf (.ofLocation sampleObject)).same (dataFieldOf sampleChoice) = false := by
    decide
  have htouch :
      (dataFieldOf (.ofLocation sampleObject)).mayTouch (dataFieldOf sampleChoice) = true := by
    decide
  have hunknown := h _ _ .undefined _ _ hentry hpinned hother htouch
  rw [pointsToAnalysis.get?_write_of_mem _ _ _ hentry hother] at hunknown
  exact absurd hunknown (by decide)

end PointsToAnalysis
end HeapFlow
