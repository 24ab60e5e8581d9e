import HeapFlow.Proofs.Domain.PointsTo
import Mathlib.Data.Set.Finite.Lattice

/-! # Points-to values over finitely many locations

Merging and widening do not come up with new locations (`PointsTo.Over.merge`,
`PointsTo.Over.widen`), and there are finitely many values over finitely many locations
(`PointsTo.finite_over`).  The value of a binding can only be widened twice: there are three levels
above a binding that is missing, and widening a value goes up or leaves it as it was
(`PointsTo.widen_eq_or_level_lt`).
-/
namespace HeapFlow
namespace PointsTo

variable {locations : Set Location}

/-- A well-formed value with no other locations than the given ones. -/
structure Over (locations : Set Location) (value : PointsTo) : Prop where
  wellFormed : value.WellFormed
  subset : ∀ l, value.contains l = true → l ∈ locations

theorem over_undefined : Over locations undefined := ⟨trivial, by simp [contains]⟩

theorem over_noLocation : Over locations noLocation := ⟨trivial, by simp [contains]⟩

theorem over_unknown : Over locations unknown := ⟨trivial, by simp [contains]⟩

theorem over_ofLocation {location : Location} (h : location ∈ locations) :
    Over locations (ofLocation location) where
  wellFormed := by
    show 0 < 1 ∧ 1 ≤ maxLocations
    decide
  subset l hl := by
    have hmem : l ∈ LocationSet.singleton location := LocationSet.contains_iff.1 hl
    rwa [LocationSet.mem_singleton.1 hmem]

theorem contains_merge {a b : PointsTo} {l : Location} (h : (a.merge b).contains l = true) :
    a.contains l = true ∨ b.contains l = true := by
  cases a with
  | known a =>
    cases b with
    | known b =>
      have hunion : (ofSet (a.union b)).contains l = true := h
      unfold ofSet at hunion
      split at hunion
      · cases hunion
      · split at hunion
        · cases hunion
        · have hmem : l ∈ a.union b := LocationSet.contains_iff.1 hunion
          exact (LocationSet.mem_union.1 hmem).imp LocationSet.contains_iff.2
            LocationSet.contains_iff.2
    | _ => simp_all [contains]
  | _ => cases b <;> simp_all [contains, merge]

theorem Over.merge {a b : PointsTo} (ha : Over locations a) (hb : Over locations b) :
    Over locations (a.merge b) where
  wellFormed := ha.wellFormed.merge hb.wellFormed
  subset l hl := (contains_merge hl).elim (ha.subset l) (hb.subset l)

theorem Over.cover {a b : PointsTo} (ha : Over locations a) (hb : Over locations b) :
    Over locations (a.cover b) := by
  unfold PointsTo.cover
  split
  · exact ha
  · exact ha.merge hb

theorem Over.widen {value previous : PointsTo} (hvalue : Over locations value)
    (hprevious : Over locations previous) : Over locations (value.widen previous) := by
  unfold PointsTo.widen
  split
  · exact hvalue
  · split
    · exact hprevious
    · exact over_unknown

/-- Values over the given locations form a domain with joins. -/
theorem joinOn_over (locations : Set Location) : AbstractValue.JoinOn (Over locations) where
  unknown := over_unknown
  merge := .merge
  assoc ha hb _ := ha.wellFormed.merge_assoc hb.wellFormed
  comm _ _ := merge_comm _ _
  self ha := ha.wellFormed.merge_self
  merge_unknown _ := PointsTo.merge_unknown _

/-- There are finitely many values over finitely many locations. -/
theorem finite_over (h : locations.Finite) : {value | Over locations value}.Finite := by
  have hsets : {set : LocationSet | ∀ l, l ∈ set → l ∈ locations}.Finite := by
    refine Set.Finite.of_finite_image (f := fun set => {l | l ∈ set}) ?_ ?_
    · refine h.finite_subsets.subset ?_
      rintro _ ⟨set, hset, rfl⟩
      exact hset
    · intro a _ b _ heq
      exact LocationSet.ext_mem fun l => Set.ext_iff.1 heq l
  refine ((hsets.image known).union
    (Set.toFinite {undefined, noLocation, unknown})).subset fun value hvalue => ?_
  cases value with
  | known set =>
    exact .inl ⟨set, fun l hl => hvalue.subset l (LocationSet.contains_iff.2 hl), rfl⟩
  | _ => exact .inr (by simp)

/-! ## Widening -/

/-- The level of the value of a binding. -/
def level : Option PointsTo → Nat
  | none => 0
  | some undefined => 1
  | some noLocation | some (known _) => 2
  | some unknown => 3

theorem level_le (value? : Option PointsTo) : level value? ≤ 3 := by
  unfold level
  split <;> omega

/-- Widening keeps a value, or goes up. -/
theorem widen_eq_or_level_lt (value previous : PointsTo) : value.widen previous = previous ∨
    level (some previous) < level (some (value.widen previous)) := by
  unfold widen
  split
  · next hprevious =>
    subst hprevious
    cases value <;> simp [level]
  · split
    · exact .inl rfl
    · next hadds =>
      cases previous with
      | unknown => exact absurd (merge_unknown value) hadds
      | _ => exact .inr (by simp [level])

/-- A widened value is not more precise than the value. -/
theorem WellFormed.subset_widen {value : PointsTo} (hvalue : value.WellFormed)
    (previous : PointsTo) : AbstractValue.subset value (value.widen previous) = true := by
  unfold widen
  split
  · exact joinOn_wellFormed.subset_refl hvalue
  · split
    · next hbelow => exact AbstractValue.subset_iff.2 hbelow
    · exact joinOn_wellFormed.subset_unknown hvalue

theorem WellFormed.widen {value previous : PointsTo} (hvalue : value.WellFormed)
    (hprevious : previous.WellFormed) : (value.widen previous).WellFormed := by
  unfold PointsTo.widen
  split
  · exact hvalue
  · split
    · exact hprevious
    · trivial

theorem widensOn_wellFormed : AbstractValue.WidensOn WellFormed where
  widen := .widen
  subset_widen ha _ := ha.subset_widen _

end PointsTo
end HeapFlow
