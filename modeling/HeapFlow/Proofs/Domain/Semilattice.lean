import HeapFlow.Proofs.Domain.PointsTo

/-! # Points-to values form a bounded semilattice

Merging makes the valid values of a domain a semilattice if it is associative, commutative and
idempotent and if the bottom value adds nothing (`AbstractValue.SemilatticeOn`).  The semilattice is
bounded (`AbstractValue.BoundedOn`) if merging with the unknown value gives the unknown value, and
if values cannot become less and less precise forever: there is a greatest length of ascending
chains.  The precision of values is then a partial order, and the merge of two values is the least
value above both of them.

The height of a value bounds the chains that lead to it, if it goes up along with the value
(`AbstractValue.length_le_of_height`).  The height of a known points-to value is the number of its
locations.  So ascending chains of points-to values take at most one step for each location that is
tracked, one step from the bottom value, and one step to the unknown value
(`PointsTo.boundedOn_wellFormed`).
-/
namespace HeapFlow
namespace AbstractValue

variable {V : Type} [DecidableEq V] [AbstractValue V]

/-- The first value is more precise than the second one. -/
def Below (a b : V) : Prop := subset a b = true ∧ a ≠ b

instance (a b : V) : Decidable (Below a b) := inferInstanceAs (Decidable (_ ∧ _))

/-- The valid values are a semilattice, with the bottom value as the least one. -/
structure SemilatticeOn (valid : V → Prop) : Prop where
  bottom : valid bottom
  merge : ∀ {a b}, valid a → valid b → valid (merge a b)
  assoc : ∀ {a b c}, valid a → valid b → valid c →
    AbstractValue.merge (AbstractValue.merge a b) c =
      AbstractValue.merge a (AbstractValue.merge b c)
  comm : ∀ {a b}, valid a → valid b → AbstractValue.merge a b = AbstractValue.merge b a
  self : ∀ {a}, valid a → AbstractValue.merge a a = a
  bottom_merge : ∀ {a}, valid a → AbstractValue.merge AbstractValue.bottom a = a
  merge_bottom : ∀ {a}, valid a → AbstractValue.merge a AbstractValue.bottom = a

/-- The valid values are a semilattice with the unknown value as the greatest one, ordered by
precision, in which merging gives least upper bounds and no ascending chain is longer than the given
length. -/
structure BoundedOn (valid : V → Prop) (length : Nat) : Prop extends SemilatticeOn valid where
  unknown : valid unknown
  unknown_merge : ∀ {a}, valid a → AbstractValue.merge AbstractValue.unknown a =
    AbstractValue.unknown
  merge_unknown : ∀ {a}, valid a → AbstractValue.merge a AbstractValue.unknown =
    AbstractValue.unknown
  refl : ∀ {a}, valid a → subset a a = true
  antisymm : ∀ {a b}, valid a → valid b → subset a b = true → subset b a = true → a = b
  trans : ∀ {a b c}, valid a → valid b → valid c → subset a b = true → subset b c = true →
    subset a c = true
  subset_merge : ∀ {a b}, valid a → valid b → subset a (AbstractValue.merge a b) = true ∧
    subset b (AbstractValue.merge a b) = true
  merge_subset : ∀ {a b c}, valid a → valid b → valid c → subset a c = true →
    subset b c = true → subset (AbstractValue.merge a b) c = true
  chain_length_le : ∀ {chain : List V}, (∀ a ∈ chain, valid a) → chain.IsChain Below →
    chain.length ≤ length

variable {valid : V → Prop}

namespace SemilatticeOn

variable (h : SemilatticeOn valid) {a b : V}
include h

omit [DecidableEq V] in
/-- Merging a value once more adds nothing. -/
theorem merge_merge_self (ha : valid a) (hb : valid b) :
    AbstractValue.merge (AbstractValue.merge a b) b = AbstractValue.merge a b := by
  rw [h.assoc ha hb hb, h.self hb]

theorem subset_refl (ha : valid a) : subset a a = true := subset_iff.2 (h.self ha)

/-- A merge is below its second value exactly if it adds nothing to that value. -/
theorem merge_subset_right_iff (ha : valid a) (hb : valid b) :
    subset (AbstractValue.merge a b) b = true ↔ subset a b = true := by
  rw [subset_iff, subset_iff, h.merge_merge_self ha hb]

theorem merge_subset_left_iff (ha : valid a) (hb : valid b) :
    subset (AbstractValue.merge a b) a = true ↔ subset b a = true := by
  rw [h.comm ha hb]
  exact h.merge_subset_right_iff hb ha

end SemilatticeOn

/-! ## Ascending chains -/

/-- The heights of the values of a chain start at the height of the first value and go up, so that
the rest of the chain is not longer than there are heights left. -/
theorem height_add_length_le {height : V → Nat} {bound : Nat}
    (hlt : ∀ {a b}, valid a → valid b → Below a b → height a < height b)
    (hbound : ∀ {a}, valid a → height a ≤ bound) {a : V} {chain : List V}
    (hvalid : ∀ b ∈ a :: chain, valid b) (hchain : (a :: chain).IsChain Below) :
    height a + chain.length ≤ bound := by
  induction chain generalizing a with
  | nil => exact hbound (hvalid a List.mem_cons_self)
  | cons b chain ih =>
    obtain ⟨ha, hrest⟩ := List.forall_mem_cons.1 hvalid
    obtain ⟨hbelow, htail⟩ := List.isChain_cons_cons.1 hchain
    have hstep : height a < height b := hlt ha (hrest b List.mem_cons_self) hbelow
    have hlength : height b + chain.length ≤ bound := ih hrest htail
    rw [List.length_cons]
    omega

/-- **Chains are not longer than there are heights.** -/
theorem length_le_of_height {height : V → Nat} {bound : Nat}
    (hlt : ∀ {a b}, valid a → valid b → Below a b → height a < height b)
    (hbound : ∀ {a}, valid a → height a ≤ bound) {chain : List V}
    (hvalid : ∀ a ∈ chain, valid a) (hchain : chain.IsChain Below) :
    chain.length ≤ bound + 1 := by
  cases chain with
  | nil => exact Nat.zero_le _
  | cons a chain =>
    have hrest := height_add_length_le hlt hbound hvalid hchain
    rw [List.length_cons]
    omega

end AbstractValue

/-! ## Points-to values -/

namespace LocationSet

/-- A set that has further members is larger. -/
theorem size_lt_of_subset {a b : LocationSet} (h : ∀ l, l ∈ a → l ∈ b) (hne : a ≠ b) :
    a.size < b.size := by
  refine Nat.lt_of_not_le fun hle => hne ?_
  have hperm : a.toList.Perm b.toList := (List.Nodup.subperm a.nodup h).perm_of_length_le hle
  exact ext_mem fun l => hperm.mem_iff

end LocationSet

namespace PointsTo

/-- A known value that is below another one has no other locations. -/
theorem mem_of_known_subset {a b : LocationSet}
    (h : AbstractValue.subset (known a) (known b) = true) : ∀ l, l ∈ a → l ∈ b := by
  have hmerge : ofSet (a.union b) = known b := AbstractValue.subset_iff.1 h
  have hunion : ofSet (a.union b) = known (a.union b) := ofSet_of_isKnown (by rw [hmerge]; rfl)
  have heq : a.union b = b := PointsTo.known.inj (hunion.symm.trans hmerge)
  intro l hl
  rw [← heq]
  exact LocationSet.mem_union.2 (.inl hl)

/-- A known value is below another one exactly if it has no other locations. -/
theorem known_subset_known_iff {a b : LocationSet} (hb : (known b).WellFormed) :
    AbstractValue.subset (known a) (known b) = true ↔ ∀ l, l ∈ a → l ∈ b := by
  refine ⟨mem_of_known_subset, fun h => AbstractValue.subset_iff.2 ?_⟩
  have hunion : a.union b = b := LocationSet.ext_mem fun l => by simpa using h l
  obtain ⟨hpos, hle⟩ := hb
  show ofSet (a.union b) = known b
  rw [hunion, ofSet, if_neg (Nat.ne_of_gt hpos), if_neg (Nat.not_lt.2 hle)]

/-- Between the least value and the greatest one, only known values are below different ones. -/
theorem subset_cases {a b : PointsTo} (h : AbstractValue.subset a b = true) :
    a = undefined ∨ b = unknown ∨ a = b ∨
      ∃ s t, a = known s ∧ b = known t ∧ ∀ l, l ∈ s → l ∈ t := by
  have hmerge : a.merge b = b := AbstractValue.subset_iff.1 h
  cases a with
  | undefined => exact .inl rfl
  | unknown => exact .inr (.inl (hmerge.symm.trans (unknown_merge b)))
  | noLocation => cases b <;> simp_all
  | known s =>
    cases b with
    | known t => exact .inr (.inr (.inr ⟨s, t, rfl, rfl, mem_of_known_subset h⟩))
    | _ => simp_all

/-- How far up a value stands: a chain of values from the bottom value to this one has at most that
many steps. -/
def height : PointsTo → Nat
  | .undefined => 0
  | .noLocation => 1
  | .known locations => locations.size
  | .unknown => maxLocations + 1

theorem WellFormed.height_le {a : PointsTo} (ha : a.WellFormed) : a.height ≤ maxLocations + 1 := by
  cases a with
  | known locations => exact Nat.le_succ_of_le ha.2
  | _ => simp [height]

/-- A less precise value stands higher. -/
theorem WellFormed.height_lt {a b : PointsTo} (ha : a.WellFormed) (hb : b.WellFormed)
    (h : AbstractValue.Below a b) : a.height < b.height := by
  obtain ⟨hsubset, hne⟩ := h
  have hmerge : a.merge b = b := AbstractValue.subset_iff.1 hsubset
  cases a with
  | undefined =>
    cases b with
    | undefined => exact absurd rfl hne
    | known b => exact hb.1
    | _ => simp [height]
  | noLocation => cases b <;> simp_all [height, maxLocations]
  | known a =>
    cases b with
    | known b =>
      have hmem := (known_subset_known_iff hb).1 hsubset
      exact LocationSet.size_lt_of_subset hmem fun heq => hne (congrArg known heq)
    | unknown => exact Nat.lt_succ_of_le ha.2
    | _ => simp at hmerge
  | unknown =>
    rw [unknown_merge] at hmerge
    exact absurd hmerge hne

theorem semilatticeOn_wellFormed : AbstractValue.SemilatticeOn WellFormed where
  bottom := trivial
  merge := .merge
  assoc ha hb _ := ha.merge_assoc hb
  comm _ _ := merge_comm _ _
  self ha := ha.merge_self
  bottom_merge _ := undefined_merge _
  merge_bottom _ := merge_undefined _

/-- **Points-to values form a bounded semilattice.**  A chain of values that become less and less
precise has at most eighteen values: the bottom value, known values with one up to sixteen
locations, and the unknown value. -/
theorem boundedOn_wellFormed : AbstractValue.BoundedOn WellFormed 18 where
  toSemilatticeOn := semilatticeOn_wellFormed
  unknown := trivial
  unknown_merge _ := unknown_merge _
  merge_unknown _ := merge_unknown _
  refl := joinOn_wellFormed.subset_refl
  antisymm := joinOn_wellFormed.subset_antisymm
  trans := joinOn_wellFormed.subset_trans
  subset_merge ha hb :=
    ⟨joinOn_wellFormed.subset_merge_left ha hb, joinOn_wellFormed.subset_merge_right ha hb⟩
  merge_subset := joinOn_wellFormed.merge_subset
  chain_length_le := AbstractValue.length_le_of_height (fun ha hb hbelow => ha.height_lt hb hbelow)
    fun ha => ha.height_le

/-- The chain of values that gains one location after the other. -/
def longestChain : List PointsTo :=
  let sites := (List.range maxLocations).map fun n => Location.creation ⟨.ofNat n⟩ .void
  sites.inits.map ofLocations ++ [.unknown]

/-- There is a chain of eighteen values, and it is not the end of a longer one. -/
theorem longestChain_maximal :
    (∀ value ∈ longestChain, value.WellFormed) ∧ longestChain.IsChain AbstractValue.Below ∧
      longestChain.length = 18 ∧
      ∀ value : PointsTo, value.WellFormed →
        ¬(value :: longestChain).IsChain AbstractValue.Below := by
  have hvalid : ∀ value ∈ longestChain, value.WellFormed := by decide +kernel
  have hchain : longestChain.IsChain AbstractValue.Below := by decide +kernel
  have hlength : longestChain.length = 18 := by decide +kernel
  refine ⟨hvalid, hchain, hlength, fun value hvalue hlonger => ?_⟩
  have hle := boundedOn_wellFormed.chain_length_le (List.forall_mem_cons.2 ⟨hvalue, hvalid⟩) hlonger
  rw [List.length_cons, hlength] at hle
  omega

end PointsTo
end HeapFlow
