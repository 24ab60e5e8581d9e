import HeapFlow.Client.PointsTo
import HeapFlow.Proofs.Domain.PointsTo
import HeapFlow.Proofs.Entity.Reference
import HeapFlow.Proofs.Environment.MergeOrder

/-! # Reading a member where two paths meet

Where two paths meet, a reference to an instance may refer to what it refers to on either path.  So
a member of the instance is then read at the merge of two instance values, and should be no more
precise than the member was on either path.

This holds exactly if something is known about the two values together, or nothing is known about
the member any more (`PointsToAnalysis.subset_read_mergeData_iff`).  In the first case both paths
bind the member, and their pair of bindings lands on the merged instance.  If a path does not bind
the member, the member may hold anything on that path, but bindings of other instances can land on
the merged instance and make it look precise (`PointsToAnalysis.mergeData_loses_unobserved`).
-/
namespace HeapFlow
namespace PointsToAnalysis

/-- The member or element that a place selects from the heap objects that a value refers to. -/
def selected (place : Place) (type : StaticType) (owner : PointsTo) : Entity :=
  .ofStorage ⟨place, type, owner⟩

section Selected

variable {place : Place} {type : StaticType}

theorem same_selected_iff {e : Entity} {owner : PointsTo} :
    Key.same e (selected place type owner) = true ↔
      e.place = place ∧ e.owner = owner ∧ e.enclosing = [] := by
  show e.same (selected place type owner) = true ↔ _
  simp [Entity.same, Entity.identity, selected, Entity.ofStorage, Storage.identity, and_assoc]

/-- Two bindings of a member land on the member of the merged instance. -/
theorem same_landing_selected {e other : Entity} {a b : PointsTo} (ha : a.WellFormed)
    (he : Key.same e (selected place type a) = true)
    (hother : Key.same other (selected place type b) = true) :
    Key.same (Environment.landing e other) (selected place type (a.merge b)) = true := by
  obtain ⟨hplace, rfl, henclosing⟩ := same_selected_iff.1 he
  obtain ⟨-, rfl, -⟩ := same_selected_iff.1 hother
  rw [same_selected_iff]
  unfold Environment.landing
  by_cases hinstance : e.owner = other.owner
  · have hsame : InstanceKey.sameInstance e other = true := decide_eq_true hinstance
    rw [if_pos hsame, ← hinstance, ha.merge_self]
    exact ⟨hplace, rfl, henclosing⟩
  · have hdiffers : InstanceKey.sameInstance e other = false := decide_eq_false hinstance
    rw [hdiffers, if_neg Bool.false_ne_true]
    exact ⟨hplace, rfl, henclosing⟩

theorem sameFamily_of_selected {e other : Entity} {a b : PointsTo}
    (he : Key.same e (selected place type a) = true)
    (hother : Key.same other (selected place type b) = true) :
    InstanceKey.sameFamily e other = true := by
  obtain ⟨hplace, -, henclosing⟩ := same_selected_iff.1 he
  obtain ⟨hplace', -, henclosing'⟩ := same_selected_iff.1 hother
  refine decide_eq_true ?_
  rw [Entity.family, Entity.family, hplace, hplace', henclosing, henclosing']

end Selected

theorem read_eq (data : PointsToState) (e : Entity) :
    pointsToAnalysis.read data e = (data.get? e).getD (defaultEntityValue e) := by
  have hentities : EntityState.entities data = data := rfl
  unfold Analysis.read
  rw [hentities]
  cases data.get? e with
  | none => rfl
  | some value => rfl

/-- A member of a reference type that is not bound may refer to anything. -/
theorem read_selected (data : PointsToState) {place : Place} (hplace : place.isSelector = true)
    {type : StaticType} (htype : type.isCopied = false) (owner : PointsTo) :
    pointsToAnalysis.read data (selected place type owner) =
      (data.get? (selected place type owner)).getD .unknown := by
  have hdefault : defaultEntityValue (selected place type owner) = .unknown := by
    show (if type.isCopied then _ else _) = _
    rw [htype, if_neg Bool.false_ne_true]
    cases place <;> simp_all [Place.isSelector, selected, Entity.ofStorage]
  rw [read_eq, hdefault]

theorem wellFormed_read_selected {data : PointsToState} (hdata : data.AllValid PointsTo.WellFormed)
    {place : Place} (hplace : place.isSelector = true) {type : StaticType}
    (htype : type.isCopied = false) (owner : PointsTo) :
    (pointsToAnalysis.read data (selected place type owner)).WellFormed := by
  rw [read_selected data hplace htype owner]
  cases hvalue : data.get? (selected place type owner) with
  | none => trivial
  | some v => exact hdata _ v hvalue

/-- What is known about a member comes from a stored binding. -/
theorem exists_binding_of_read {data : PointsToState} {place : Place}
    (hplace : place.isSelector = true) {type : StaticType} (htype : type.isCopied = false)
    {owner : PointsTo} (h : pointsToAnalysis.read data (selected place type owner) ≠ .unknown) :
    ∃ x ∈ data.entries, Key.same x.1 (selected place type owner) = true ∧
      pointsToAnalysis.read data (selected place type owner) = x.2 := by
  rw [read_selected data hplace htype] at h ⊢
  cases hvalue : data.get? (selected place type owner) with
  | none => simp [hvalue] at h
  | some v =>
    obtain ⟨k, hsame, hmem⟩ := data.get?_eq_some_iff.1 hvalue
    exact ⟨(k, v), hmem, hsame, rfl⟩

theorem wellFormed_unobservedValue (e : Entity) (v : PointsTo) :
    (unobservedValue e v).WellFormed := by
  unfold unobservedValue assignedValue
  split
  · trivial
  · rw [PointsTo.merge_unknown]
    trivial

theorem within_of_allValid {data : PointsToState} (h : data.AllValid PointsTo.WellFormed) :
    data.Within (fun _ => True) PointsTo.WellFormed :=
  ⟨fun _ _ => trivial, h⟩

section Joined

variable {m₁ m₂ : PointsToState} (h₁ : m₁.AllValid PointsTo.WellFormed)
  (h₂ : m₂.AllValid PointsTo.WellFormed) {place : Place} (hplace : place.isSelector = true)
  {type : StaticType} (htype : type.isCopied = false) {L₁ L₂ : LocationSet}
include h₁ h₂ hplace htype

/-- If something is known about what two instances of a member hold together, their pair of bindings
lands on the merged instance and counts. -/
theorem subset_read_mergeData_of_known (hL₁ : (PointsTo.known L₁).WellFormed)
    (hknown : (pointsToAnalysis.read m₁ (selected place type (.known L₁))).merge
      (pointsToAnalysis.read m₂ (selected place type (.known L₂))) ≠ .unknown) :
    AbstractValue.subset
      ((pointsToAnalysis.read m₁ (selected place type (.known L₁))).merge
        (pointsToAnalysis.read m₂ (selected place type (.known L₂))))
      (pointsToAnalysis.read (mergeData m₁ m₂)
        (selected place type ((PointsTo.known L₁).merge (.known L₂)))) = true := by
  have hread₁ : pointsToAnalysis.read m₁ (selected place type (.known L₁)) ≠ .unknown :=
    fun h => hknown (by rw [h, PointsTo.unknown_merge])
  have hread₂ : pointsToAnalysis.read m₂ (selected place type (.known L₂)) ≠ .unknown :=
    fun h => hknown (by rw [h, PointsTo.merge_unknown])
  obtain ⟨x, hx, hsame₁, hvalue₁⟩ := exists_binding_of_read hplace htype hread₁
  obtain ⟨y, hy, hsame₂, hvalue₂⟩ := exists_binding_of_read hplace htype hread₂
  rw [hvalue₁, hvalue₂] at hknown ⊢
  obtain ⟨w, hw, hcovers⟩ := Environment.le_get?_mergeWith PointsTo.joinOn_wellFormed
    (fun e v _ => wellFormed_unobservedValue e v) (within_of_allValid h₁) (within_of_allValid h₂)
    ⟨x, hx, y, hy, sameFamily_of_selected hsame₁ hsame₂, same_landing_selected hL₁ hsame₁ hsame₂,
      rfl⟩ (.inr (.inr hknown))
  rw [read_selected _ hplace htype, mergeData, hw]
  exact hcovers

/-- If no pair of bindings counts, a member is unknown unless it is bound as storage whose data is
copied. -/
theorem read_mergeData_of_not_counted {owner : PointsTo}
    (h : Environment.counted m₁ m₂ (selected place type owner) = []) :
    pointsToAnalysis.read (mergeData m₁ m₂) (selected place type owner) = .unknown ↔
      ∀ x, x ∈ m₁.entries ∨ x ∈ m₂.entries → Key.same x.1 (selected place type owner) = true →
        x.1.isCopied = false := by
  rw [read_selected _ hplace htype]
  constructor
  · intro hread x hx hsame
    have hcontains : m₁.contains (selected place type owner) = true ∨
        m₂.contains (selected place type owner) = true :=
      hx.imp (fun hx => m₁.isSome_get?_iff.2 ⟨x.1, List.mem_map_of_mem hx, hsame⟩)
        fun hx => m₂.isSome_get?_iff.2 ⟨x.1, List.mem_map_of_mem hx, hsame⟩
    have halone : ∀ y, y ∈ m₁.entries ∨ y ∈ m₂.entries →
        Key.same y.1 (selected place type owner) = true →
          unobservedValue y.1 y.2 = unobservedValue x.1 x.2 := fun y hy hysame => by
      rw [Environment.eq_of_not_counted Entity.joinOn_all (within_of_allValid h₁)
        (within_of_allValid h₂) trivial h hy hx hysame hsame]
    have hbound : (mergeData m₁ m₂).contains (selected place type owner) = true :=
      Environment.contains_mergeWith hcontains
    obtain ⟨w, hw⟩ := Option.isSome_iff_exists.1 hbound
    obtain rfl := Environment.get?_mergeWith_of_not_counted h halone hw
    rw [hw, Option.getD_some, unobservedValue, assignedValue] at hread
    by_contra hcopied
    rw [Bool.not_eq_false] at hcopied
    rw [hcopied, if_pos rfl] at hread
    cases hread
  · intro hcopied
    cases hget : (mergeData m₁ m₂).get? (selected place type owner) with
    | none => rfl
    | some w =>
      refine Environment.get?_mergeWith_of_not_counted h (fun x hx hsame => ?_) hget
      rw [unobservedValue, assignedValue, hcopied x hx hsame, if_neg Bool.false_ne_true,
        PointsTo.merge_unknown]

/-- Nothing is known about a member where two paths meet: no value is above all values that count
but the unknown one, or none counts and the member is not bound as storage whose data is copied. -/
def Obscured (m₁ m₂ : PointsToState) (e : Entity) : Prop :=
  (∀ u : PointsTo, u.WellFormed →
      (∀ v ∈ Environment.counted m₁ m₂ e, AbstractValue.subset v u = true) → u = .unknown) ∨
    Environment.counted m₁ m₂ e = [] ∧
      ∀ x, x ∈ m₁.entries ∨ x ∈ m₂.entries → Key.same x.1 e = true → x.1.isCopied = false

theorem read_mergeData_eq_unknown_iff (owner : PointsTo) :
    pointsToAnalysis.read (mergeData m₁ m₂) (selected place type owner) = .unknown ↔
      Obscured m₁ m₂ (selected place type owner) := by
  by_cases hcounted : Environment.counted m₁ m₂ (selected place type owner) = []
  · rw [read_mergeData_of_not_counted h₁ h₂ hplace htype hcounted, Obscured, hcounted]
    have hundefined : ¬∀ u : PointsTo, u.WellFormed →
        (∀ v ∈ ([] : List PointsTo), AbstractValue.subset v u = true) → u = .unknown := fun h =>
      nomatch h .undefined trivial (by simp)
    simp only [hundefined, false_or, true_and]
  · obtain ⟨w, hw, hleast⟩ := Environment.get?_mergeWith_of_counted PointsTo.joinOn_wellFormed
      (fun e v _ => wellFormed_unobservedValue e v) (within_of_allValid h₁)
      (within_of_allValid h₂) Entity.joinOn_all trivial hcounted
    rw [read_selected _ hplace htype, mergeData, hw, Option.getD_some, Obscured]
    constructor
    · rintro rfl
      refine .inl fun u hu hle => PointsTo.joinOn_wellFormed.eq_unknown_of_subset hu ?_
      exact hleast.least u hu hle
    · rintro (h | ⟨hnone, -⟩)
      · exact h w hleast.isValid hleast.above
      · exact absurd hnone hcounted

/-- **Reading a member where two paths meet.**  The value of a member of a reference type is no more
precise than it was at one instance on the first path and at another instance on the second path
exactly if something is known about these two values together, or nothing is known about the member
any more. -/
theorem subset_read_mergeData_iff (hL₁ : (PointsTo.known L₁).WellFormed) :
    let merged := selected place type ((PointsTo.known L₁).merge (.known L₂))
    let left := pointsToAnalysis.read m₁ (selected place type (.known L₁))
    let right := pointsToAnalysis.read m₂ (selected place type (.known L₂))
    let joined := pointsToAnalysis.read (mergeData m₁ m₂) merged
    AbstractValue.subset left joined = true ∧ AbstractValue.subset right joined = true ↔
      left.merge right ≠ .unknown ∨ Obscured m₁ m₂ merged := by
  intro merged left right joined
  have hjoin := PointsTo.joinOn_wellFormed
  have hleft : left.WellFormed := wellFormed_read_selected h₁ hplace htype _
  have hright : right.WellFormed := wellFormed_read_selected h₂ hplace htype _
  have hjoined : joined.WellFormed :=
    wellFormed_read_selected (h₁.mergeWith h₂ hjoin fun e v _ => wellFormed_unobservedValue e v)
      hplace htype _
  have hobscured : joined = .unknown ↔ Obscured m₁ m₂ merged :=
    read_mergeData_eq_unknown_iff h₁ h₂ hplace htype _
  rw [← hobscured, ← imp_iff_not_or]
  constructor
  · rintro ⟨hleftLe, hrightLe⟩ hunknown
    have hboth : AbstractValue.subset (left.merge right) joined = true :=
      hjoin.merge_subset hleft hright hjoined hleftLe hrightLe
    rw [hunknown] at hboth
    exact hjoin.eq_unknown_of_subset hjoined hboth
  · intro h
    by_cases hunknown : left.merge right = .unknown
    · rw [h hunknown]
      exact ⟨hjoin.subset_unknown hleft, hjoin.subset_unknown hright⟩
    · have hcovers := subset_read_mergeData_of_known h₁ h₂ hplace htype hL₁ hunknown
      have hboth := hleft.merge hright
      exact ⟨hjoin.subset_trans hleft hboth hjoined (hjoin.subset_merge_left hleft hright) hcovers,
        hjoin.subset_trans hright hboth hjoined (hjoin.subset_merge_right hleft hright) hcovers⟩

end Joined

/-! ## A member that only one path binds -/

/-- A type of objects. -/
def sampleType : StaticType := .reference "Node"

/-- The place of a member that refers to an object. -/
def samplePlace : Place := .member (.field ⟨1⟩ "next" sampleType)

/-- The objects that are created at the sites of the given numbers. -/
def sampleObjects (sites : List UInt32) : LocationSet :=
  .ofList (sites.map fun site => .creation ⟨site⟩ sampleType)

/-- The state in which the member refers to some objects, for an instance that is one of some
others. -/
def sampleState (owners targets : List UInt32) : PointsToState :=
  Environment.empty.insert (selected samplePlace sampleType (.known (sampleObjects owners)))
    (.known (sampleObjects targets))

theorem allValid_sampleState (owners targets : List UInt32)
    (htargets : (PointsTo.known (sampleObjects targets)).WellFormed) :
    (sampleState owners targets).AllValid PointsTo.WellFormed := by
  refine Environment.AllValid.insert (fun k v hv => ?_) _ htargets
  simp at hv

theorem isCopied_sampleState {owners targets : List UInt32} (e : Entity) (v : PointsTo)
    (h : (e, v) ∈ (sampleState owners targets).entries) : e.isCopied = false := by
  obtain ⟨rfl, -⟩ : e = _ ∧ v = _ := by
    simpa [sampleState, Environment.entries_insert_empty] using h
  rfl

/-- Where two paths meet that both bind a member of the same instance, it refers to what it refers
to on either path. -/
theorem subset_read_mergeData_sampleState :
    AbstractValue.subset
      (pointsToAnalysis.read (sampleState [1] [2])
        (selected samplePlace sampleType (.known (sampleObjects [1]))))
      (pointsToAnalysis.read (mergeData (sampleState [1] [2]) (sampleState [1] [3]))
        (selected samplePlace sampleType
          ((PointsTo.known (sampleObjects [1])).merge (.known (sampleObjects [1]))))) = true := by
  have h₁ := allValid_sampleState [1] [2] (by decide)
  have h₂ := allValid_sampleState [1] [3] (by decide)
  have hiff := @subset_read_mergeData_iff (sampleState [1] [2]) (sampleState [1] [3]) h₁ h₂
    samplePlace (by decide) sampleType (by decide) (sampleObjects [1]) (sampleObjects [1])
    (by decide)
  exact (hiff.2 (.inl (by decide))).1

/-- **A merge loses what was not observed.**  On the second path the member of the two objects may
refer to anything, as only the member of one of them is bound there.  Where the paths meet, it seems
to refer to one of two objects. -/
theorem mergeData_loses_unobserved :
    ¬∀ (m₁ m₂ : PointsToState), m₁.AllValid PointsTo.WellFormed →
      m₂.AllValid PointsTo.WellFormed → ∀ (place : Place), place.isSelector = true →
      ∀ (type : StaticType), type.isCopied = false →
      (∀ e v, (e, v) ∈ m₁.entries ∨ (e, v) ∈ m₂.entries → e.place = place → e.enclosing = [] →
        e.isCopied = false) →
      ∀ L₁ L₂ : LocationSet, (PointsTo.known L₁).WellFormed → (PointsTo.known L₂).WellFormed →
        let joined := pointsToAnalysis.read (mergeData m₁ m₂)
          (selected place type ((PointsTo.known L₁).merge (.known L₂)))
        AbstractValue.subset (pointsToAnalysis.read m₁ (selected place type (.known L₁))) joined =
            true ∧
          AbstractValue.subset (pointsToAnalysis.read m₂ (selected place type (.known L₂))) joined =
            true := by
  intro h
  have h₁ := allValid_sampleState [1, 2] [3] (by decide)
  have h₂ := allValid_sampleState [1] [4] (by decide)
  have hsubset := (h _ _ h₁ h₂ samplePlace (by decide) sampleType (by decide)
    (fun e v h _ _ => h.elim (isCopied_sampleState e v) (isCopied_sampleState e v))
    (sampleObjects [1, 2]) (sampleObjects [1, 2]) (by decide) (by decide)).2
  exact absurd hsubset (by decide)

end PointsToAnalysis
end HeapFlow
