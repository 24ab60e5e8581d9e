/-! # Keys

Environments bind keys to values.  Two keys that are the same key need not be equal: a key may
carry data that is not part of its identity.

Some keys are qualified by the heap instance that they belong to.  Keys of one family differ in
nothing but that qualification, and two keys of a family can be merged into a key that covers the
instances of both.
-/
namespace HeapFlow

/-- Keys with a notion of identity. -/
class Key (K : Type) where
  /-- True if the two are the same key. -/
  same : K → K → Bool
  same_refl : ∀ k, same k k = true
  same_symm : ∀ {a b}, same a b = true → same b a = true
  same_trans : ∀ {a b c}, same a b = true → same b c = true → same a c = true

namespace Key

variable {K : Type} [Key K]

theorem same_comm (a b : K) : same a b = same b a := by
  rw [Bool.eq_iff_iff]
  exact ⟨same_symm, same_symm⟩

theorem same_congr_left {a b : K} (h : same a b = true) (c : K) : same a c = same b c := by
  rw [Bool.eq_iff_iff]
  exact ⟨same_trans (same_symm h), same_trans h⟩

theorem same_congr_right {a b : K} (h : same a b = true) (c : K) : same c a = same c b := by
  rw [same_comm c a, same_comm c b, same_congr_left h]

/-- Keys whose identity is equality. -/
@[reducible] def ofDecidableEq (K : Type) [DecidableEq K] : Key K where
  same a b := a = b
  same_refl := by simp
  same_symm := by simp +contextual
  same_trans := by simp +contextual

end Key

/-- Keys that may be qualified by a heap instance. -/
class InstanceKey (K : Type) extends Key K where
  /-- True if the two keys differ at most in the instance. -/
  sameFamily : K → K → Bool
  /-- True if the two keys belong to the same instance. -/
  sameInstance : K → K → Bool
  /-- The first key with an instance that covers the instances of both keys. -/
  withMergedInstance : K → K → K

namespace InstanceKey

/-- Keys that do not belong to an instance. -/
@[reducible] def ofDecidableEq (K : Type) [DecidableEq K] : InstanceKey K where
  toKey := Key.ofDecidableEq K
  sameFamily a b := a = b
  sameInstance _ _ := true
  withMergedInstance a _ := a

end InstanceKey
end HeapFlow
