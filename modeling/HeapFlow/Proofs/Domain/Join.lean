import HeapFlow.Domain.Value

/-! # Domains whose values have joins

Abstract values are ordered by precision: a value is at least as precise as another one if merging
the two gives the other one (`AbstractValue.subset`).  This is an order, and the merge of two values
is their join, if merging is associative, commutative and idempotent.  A domain may have values that
no analysis computes and for which the laws do not hold, so the laws are about the values that are
valid in some sense (`AbstractValue.JoinOn`).  Widening a valid value gives one that is not more
precise (`AbstractValue.WidensOn`).
-/
namespace HeapFlow
namespace AbstractValue

variable {V : Type} [AbstractValue V]

/-- Merging joins valid values, and the value about which nothing is known is the greatest one. -/
structure JoinOn (valid : V → Prop) : Prop where
  unknown : valid unknown
  merge : ∀ {a b}, valid a → valid b → valid (merge a b)
  assoc : ∀ {a b c}, valid a → valid b → valid c →
    AbstractValue.merge (AbstractValue.merge a b) c =
      AbstractValue.merge a (AbstractValue.merge b c)
  comm : ∀ {a b}, valid a → valid b → AbstractValue.merge a b = AbstractValue.merge b a
  self : ∀ {a}, valid a → AbstractValue.merge a a = a
  merge_unknown : ∀ {a}, valid a → AbstractValue.merge a AbstractValue.unknown =
    AbstractValue.unknown

/-- A value that is widened stays valid, and is not made more precise. -/
structure WidensOn [DecidableEq V] (valid : V → Prop) : Prop where
  widen : ∀ {a b}, valid a → valid b → valid (AbstractValue.widen a b)
  subset_widen : ∀ {a b}, valid a → valid b → subset a (AbstractValue.widen a b) = true

variable {valid : V → Prop}

theorem subset_iff [DecidableEq V] {a b : V} :
    subset a b = true ↔ AbstractValue.merge a b = b := by
  simp [subset]

namespace JoinOn

variable (h : JoinOn valid) {a b c : V}
include h

theorem unknown_merge (ha : valid a) :
    AbstractValue.merge AbstractValue.unknown a = AbstractValue.unknown := by
  rw [h.comm h.unknown ha, h.merge_unknown ha]

theorem valid_foldl {values : List V} {start : V} (hstart : valid start)
    (hvalues : ∀ v ∈ values, valid v) : valid (values.foldl AbstractValue.merge start) := by
  induction values generalizing start with
  | nil => exact hstart
  | cons v values ih =>
    exact ih (h.merge hstart (hvalues v (by simp))) fun w hw => hvalues w (by simp [hw])

variable [DecidableEq V]

theorem subset_unknown (ha : valid a) : subset a AbstractValue.unknown = true :=
  subset_iff.2 (h.merge_unknown ha)

theorem subset_refl (ha : valid a) : subset a a = true := subset_iff.2 (h.self ha)

theorem subset_trans (ha : valid a) (hb : valid b) (hc : valid c) (hab : subset a b = true)
    (hbc : subset b c = true) : subset a c = true := by
  rw [subset_iff] at hab hbc ⊢
  rw [← hbc, ← h.assoc ha hb hc, hab]

theorem subset_merge_left (ha : valid a) (hb : valid b) :
    subset a (AbstractValue.merge a b) = true := by
  rw [subset_iff, ← h.assoc ha ha hb, h.self ha]

theorem subset_merge_right (ha : valid a) (hb : valid b) :
    subset b (AbstractValue.merge a b) = true := by
  rw [h.comm ha hb]
  exact h.subset_merge_left hb ha

theorem subset_antisymm (ha : valid a) (hb : valid b) (hab : subset a b = true)
    (hba : subset b a = true) : a = b := by
  rw [subset_iff] at hab hba
  rw [← hba, h.comm hb ha, hab]

/-- The merge of two values is below all values that both are below. -/
theorem merge_subset (ha : valid a) (hb : valid b) (hc : valid c) (hac : subset a c = true)
    (hbc : subset b c = true) : subset (AbstractValue.merge a b) c = true := by
  rw [subset_iff] at hac hbc ⊢
  rw [h.assoc ha hb hc, hbc, hac]

/-- The merge of two values is their least upper bound. -/
theorem merge_subset_iff (ha : valid a) (hb : valid b) (hc : valid c) :
    subset (AbstractValue.merge a b) c = true ↔ subset a c = true ∧ subset b c = true := by
  refine ⟨fun habove => ?_, fun ⟨hac, hbc⟩ => h.merge_subset ha hb hc hac hbc⟩
  have hmerge := h.merge ha hb
  exact ⟨h.subset_trans ha hmerge hc (h.subset_merge_left ha hb) habove,
    h.subset_trans hb hmerge hc (h.subset_merge_right ha hb) habove⟩

/-- Values that are below the same values are equal. -/
theorem eq_of_subset_iff (ha : valid a) (hb : valid b)
    (hiff : ∀ c, valid c → (subset a c = true ↔ subset b c = true)) : a = b :=
  h.subset_antisymm ha hb ((hiff b hb).2 (h.subset_refl hb)) ((hiff a ha).1 (h.subset_refl ha))

/-- A value about which something is known is above no value about which nothing is known. -/
theorem eq_unknown_of_subset (ha : valid a) (hsubset : subset AbstractValue.unknown a = true) :
    a = AbstractValue.unknown := by
  rw [subset_iff, h.unknown_merge ha] at hsubset
  exact hsubset.symm

/-- Merging values one after the other gives a value above all of them. -/
theorem subset_foldl {values : List V} {start : V} (hstart : valid start)
    (hvalues : ∀ v ∈ values, valid v) {v : V} (hv : v = start ∨ v ∈ values) :
    subset v (values.foldl AbstractValue.merge start) = true := by
  induction values generalizing start v with
  | nil =>
    obtain rfl : v = start := by simpa using hv
    exact h.subset_refl hstart
  | cons w values ih =>
    have hw : valid w := hvalues w (by simp)
    have hmerged : valid (AbstractValue.merge start w) := h.merge hstart hw
    have htail : ∀ v ∈ values, valid v := fun v hv => hvalues v (by simp [hv])
    have hfinal := h.valid_foldl hmerged htail
    have hbelow := ih hmerged htail (.inl rfl)
    rcases hv with rfl | hv
    · exact h.subset_trans hstart hmerged hfinal (h.subset_merge_left hstart hw) hbelow
    · rcases List.mem_cons.1 hv with rfl | hv
      · exact h.subset_trans hw hmerged hfinal (h.subset_merge_right hstart hw) hbelow
      · exact ih hmerged htail (.inr hv)

theorem foldl_subset {values : List V} {start : V} (hstart : valid start)
    (hvalues : ∀ v ∈ values, valid v) (hc : valid c) (hbelow : subset start c = true)
    (hall : ∀ v ∈ values, subset v c = true) :
    subset (values.foldl AbstractValue.merge start) c = true := by
  induction values generalizing start with
  | nil => exact hbelow
  | cons v values ih =>
    have hv : valid v := hvalues v (by simp)
    exact ih (h.merge hstart hv) (fun w hw => hvalues w (by simp [hw]))
      (h.merge_subset hstart hv hc hbelow (hall v (by simp))) fun w hw => hall w (by simp [hw])

end JoinOn
end AbstractValue
end HeapFlow
