import HeapFlow.Domain.LocationSet
import Mathlib.Data.List.Perm.Subperm

/-! # Sets of locations are determined by their members

Locations are ordered by words of numbers.  A word spells its location out, part by part, and every
part tells where it ends (`Delimits`), so that no two locations have the same word
(`Location.sortKey_injective`) and the order is linear.

So an ascending list without a location has a place for it, membership in a set is as expected
(`LocationSet.mem_insert`, `LocationSet.mem_union`), and sets with the same members are equal
(`LocationSet.ext_mem`).  The laws of unions follow from these.
-/
namespace HeapFlow

/-! ## Words that spell out data -/

/-- The word of every value can be read off the beginning of a longer word. -/
def Delimits {α : Type} (key : α → List Nat) : Prop :=
  ∀ a b rest rest', key a ++ rest = key b ++ rest' → a = b ∧ rest = rest'

theorem Delimits.injective {α : Type} {key : α → List Nat} (h : Delimits key) {a b : α}
    (heq : key a = key b) : a = b :=
  (h a b [] [] (by rw [heq])).1

theorem delimits_textKey : Delimits textKey := by
  have hchars : ∀ (s t : List Char) (rest rest' : List Nat),
      s.map (fun c => c.toNat + 1) ++ 0 :: rest = t.map (fun c => c.toNat + 1) ++ 0 :: rest' →
        s = t ∧ rest = rest' := by
    intro s
    induction s with
    | nil =>
      intro t rest rest' h
      cases t with
      | nil => exact ⟨rfl, by simpa using h⟩
      | cons d t => simp at h
    | cons c s ih =>
      intro t rest rest' h
      cases t with
      | nil => simp at h
      | cons d t =>
        simp only [List.map_cons, List.cons_append, List.cons.injEq, Nat.add_right_cancel_iff,
          Char.toNat_inj] at h
        obtain ⟨rfl, hrest⟩ := ih t rest rest' h.2
        exact ⟨by rw [h.1], hrest⟩
  intro s t rest rest' h
  obtain ⟨hst, hrest⟩ := hchars s.toList t.toList rest rest' (by simpa [textKey] using h)
  exact ⟨String.ext hst, hrest⟩

theorem delimits_truthKey : Delimits truthKey := by
  intro a b rest rest' h
  cases a <;> cases b <;> simp_all [truthKey]

theorem TypeKind.delimits_sortKey : Delimits TypeKind.sortKey := by
  intro a b rest rest' h
  cases a <;> cases b <;> simp_all [TypeKind.sortKey]

theorem StaticType.delimits_sortKey : Delimits StaticType.sortKey := by
  rintro ⟨name, kind⟩ ⟨name', kind'⟩ rest rest' h
  simp only [StaticType.sortKey, List.append_assoc] at h
  obtain ⟨hname, hkinds⟩ := delimits_textKey _ _ _ _ h
  obtain ⟨hkind, hrest⟩ := TypeKind.delimits_sortKey _ _ _ _ hkinds
  exact ⟨by rw [hname, hkind], hrest⟩

theorem Passing.delimits_sortKey : Delimits Passing.sortKey := by
  intro a b rest rest' h
  cases a <;> cases b <;> simp_all [Passing.sortKey]

theorem SymbolKind.delimits_sortKey : Delimits SymbolKind.sortKey := by
  intro a b rest rest' h
  cases a <;> cases b
  case localVariable.localVariable | localFunction.localFunction =>
    exact ⟨rfl, List.tail_eq_of_cons_eq h⟩
  case parameter.parameter ordinal passing ordinal' passing' =>
    simp only [SymbolKind.sortKey, List.cons_append, List.cons.injEq, true_and] at h
    obtain ⟨hpassing, hrest⟩ := Passing.delimits_sortKey _ _ _ _ h.2
    exact ⟨by rw [UInt64.toNat_inj.1 h.1, hpassing], hrest⟩
  case field.field isStatic isStatic' | property.property isStatic isStatic'
      | method.method isStatic isStatic' =>
    obtain ⟨hstatic, hrest⟩ := delimits_truthKey _ _ _ _ (List.tail_eq_of_cons_eq h)
    exact ⟨by rw [hstatic], hrest⟩
  all_goals simp [SymbolKind.sortKey] at h

theorem Symbol.delimits_sortKey : Delimits Symbol.sortKey := by
  rintro ⟨⟨id⟩, name, kind, type⟩ ⟨⟨id'⟩, name', kind', type'⟩ rest rest' h
  simp only [Symbol.sortKey, List.cons_append, List.append_assoc, List.cons.injEq,
    UInt32.toNat_inj] at h
  obtain ⟨hname, hkinds⟩ := delimits_textKey _ _ _ _ h.2
  obtain ⟨hkind, htypes⟩ := SymbolKind.delimits_sortKey _ _ _ _ hkinds
  obtain ⟨htype, hrest⟩ := StaticType.delimits_sortKey _ _ _ _ htypes
  exact ⟨by rw [h.1, hname, hkind, htype], hrest⟩

namespace Location

theorem delimits_sortKey : Delimits sortKey := by
  intro a b rest rest' h
  cases a <;> cases b
  case null.null => exact ⟨rfl, List.tail_eq_of_cons_eq h⟩
  case referent.referent symbol symbol' =>
    obtain ⟨hsymbol, hrest⟩ := Symbol.delimits_sortKey _ _ _ _ (List.tail_eq_of_cons_eq h)
    exact ⟨by rw [hsymbol], hrest⟩
  case creation.creation operation type operation' type' =>
    simp only [sortKey, List.cons_append, List.cons.injEq, UInt32.toNat_inj, true_and] at h
    obtain ⟨number⟩ := operation
    obtain ⟨number'⟩ := operation'
    obtain ⟨htype, hrest⟩ := StaticType.delimits_sortKey _ _ _ _ h.2
    exact ⟨by rw [show number = number' from h.1, htype], hrest⟩
  case self.self type type' =>
    obtain ⟨htype, hrest⟩ := StaticType.delimits_sortKey _ _ _ _ (List.tail_eq_of_cons_eq h)
    exact ⟨by rw [htype], hrest⟩
  all_goals simp [sortKey] at h

theorem sortKey_injective {a b : Location} (h : a.sortKey = b.sortKey) : a = b :=
  delimits_sortKey.injective h

/-- Locations of which neither comes before the other are equal. -/
theorem eq_of_not_lt {a b : Location} (hab : ¬a < b) (hba : ¬b < a) : a = b :=
  sortKey_injective (List.le_antisymm (List.not_lt.1 hba) (List.not_lt.1 hab))

theorem lt_asymm {a b : Location} (hab : a < b) (hba : b < a) : False :=
  lt_irrefl a (lt_trans hab hba)

end Location

/-! ## Members -/

namespace LocationSet

instance : Membership Location LocationSet := ⟨fun set l => l ∈ set.toList⟩

theorem mem_iff {l : Location} {set : LocationSet} : l ∈ set ↔ l ∈ set.toList := Iff.rfl

theorem contains_iff {l : Location} {set : LocationSet} : set.contains l = true ↔ l ∈ set := by
  simp [contains, mem_iff]

@[simp] theorem mem_singleton {l location : Location} : l ∈ singleton location ↔ l = location :=
  List.mem_singleton

theorem mem_insertInto {l location : Location} {list : List Location} :
    l ∈ insertInto location list ↔ l = location ∨ l ∈ list := by
  induction list with
  | nil => simp [insertInto]
  | cons head tail ih =>
    rw [insertInto]
    split
    · exact List.mem_cons
    · next hlt =>
      split
      · rw [List.mem_cons, ih, List.mem_cons]
        exact or_left_comm
      · next hgt =>
        obtain rfl := Location.eq_of_not_lt hlt hgt
        simp

@[simp] theorem mem_insert {l location : Location} {set : LocationSet} :
    l ∈ set.insert location ↔ l = location ∨ l ∈ set :=
  mem_insertInto

theorem mem_foldl_insert {l : Location} {locations : List Location} {set : LocationSet} :
    l ∈ locations.foldl insert set ↔ l ∈ locations ∨ l ∈ set := by
  induction locations generalizing set with
  | nil => simp
  | cons location locations ih =>
    rw [List.foldl_cons, ih, mem_insert, List.mem_cons]
    exact ⟨fun h => by rcases h with h | h | h <;> simp [h],
      fun h => by rcases h with (h | h) | h <;> simp [h]⟩

@[simp] theorem mem_union {l : Location} {a b : LocationSet} : l ∈ a.union b ↔ l ∈ a ∨ l ∈ b := by
  rw [union, mem_foldl_insert]
  exact or_comm

theorem nodup (set : LocationSet) : set.toList.Nodup :=
  set.ascending.imp fun {a b} (hlt : a < b) (heq : a = b) => Location.lt_irrefl b (heq ▸ hlt)

/-- Sets with the same members are equal. -/
theorem ext_mem {a b : LocationSet} (h : ∀ l, l ∈ a ↔ l ∈ b) : a = b := by
  have hperm : a.toList.Perm b.toList :=
    (List.perm_ext_iff_of_nodup a.nodup b.nodup).2 fun l => h l
  have hlist : a.toList = b.toList :=
    hperm.eq_of_pairwise (fun _ _ _ _ hxy hyx => (Location.lt_asymm hxy hyx).elim)
      a.ascending b.ascending
  cases a
  cases b
  simpa using hlist

/-! ## Unions -/

@[simp] theorem union_self (a : LocationSet) : a.union a = a :=
  ext_mem fun l => by simp

theorem union_comm (a b : LocationSet) : a.union b = b.union a :=
  ext_mem fun l => by simp [or_comm]

theorem union_assoc (a b c : LocationSet) : (a.union b).union c = a.union (b.union c) :=
  ext_mem fun l => by simp [or_assoc]

theorem size_le_of_subset {a b : LocationSet} (h : ∀ l, l ∈ a → l ∈ b) : a.size ≤ b.size :=
  (List.Nodup.subperm a.nodup h).length_le

theorem size_le_union_left (a b : LocationSet) : a.size ≤ (a.union b).size :=
  size_le_of_subset fun _ hl => mem_union.2 (.inl hl)

end LocationSet
end HeapFlow
