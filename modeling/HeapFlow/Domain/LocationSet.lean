import HeapFlow.Domain.Location

/-! # Finite sets of locations

A set of locations is an ascending list, so that two sets are equal exactly if they are the same
list.
-/
namespace HeapFlow

/-- A finite set of locations. -/
structure LocationSet where
  toList : List Location
  ascending : toList.Pairwise (· < ·)
deriving DecidableEq

namespace LocationSet

/-- The set without locations. -/
def empty : LocationSet := ⟨[], .nil⟩

/-- The set of one location. -/
def singleton (location : Location) : LocationSet := ⟨[location], by simp⟩

/-- Puts a location into its place in an ascending list. -/
def insertInto (location : Location) : List Location → List Location
  | [] => [location]
  | head :: tail =>
    if location < head then location :: head :: tail
    else if head < location then head :: insertInto location tail
    else head :: tail

theorem eq_or_mem_of_mem_insertInto {location l : Location} {list : List Location}
    (h : l ∈ insertInto location list) : l = location ∨ l ∈ list := by
  induction list with
  | nil => simpa [insertInto] using h
  | cons head tail ih =>
    unfold insertInto at h
    split at h
    · simpa using h
    · split at h
      · rcases List.mem_cons.1 h with rfl | h
        · simp
        · rcases ih h with h | h <;> simp [h]
      · exact .inr h

theorem pairwise_insertInto {location : Location} {list : List Location}
    (h : list.Pairwise (· < ·)) : (insertInto location list).Pairwise (· < ·) := by
  induction list with
  | nil => simp [insertInto]
  | cons head tail ih =>
    have hhead := (List.pairwise_cons.1 h).1
    have htail := (List.pairwise_cons.1 h).2
    unfold insertInto
    split
    · next hlt =>
      refine List.pairwise_cons.2 ⟨fun l hl => ?_, h⟩
      rcases List.mem_cons.1 hl with rfl | hl
      · exact hlt
      · exact Location.lt_trans hlt (hhead l hl)
    · split
      · next hgt =>
        refine List.pairwise_cons.2 ⟨fun l hl => ?_, ih htail⟩
        rcases eq_or_mem_of_mem_insertInto hl with rfl | hl
        · exact hgt
        · exact hhead l hl
      · exact h

variable (set : LocationSet)

/-- The set with a location added. -/
def insert (location : Location) : LocationSet :=
  ⟨insertInto location set.toList, pairwise_insertInto set.ascending⟩

/-- The set of the listed locations. -/
def ofList (locations : List Location) : LocationSet := locations.foldl insert empty

/-- The union of two sets. -/
def union (other : LocationSet) : LocationSet := other.toList.foldl insert set

/-- True if the location is in the set. -/
def contains (location : Location) : Bool := set.toList.contains location

/-- The number of locations. -/
def size : Nat := set.toList.length

/-- True if the two sets have a location in common. -/
def meets (other : LocationSet) : Bool := set.toList.any other.contains

end LocationSet
end HeapFlow
