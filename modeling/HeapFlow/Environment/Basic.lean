import HeapFlow.Environment.Key

/-! # Environments

An environment binds finitely many keys to values.  It is a list of bindings with distinct keys,
seen through `Environment.get?`: `get?_insert` says what an update does, `get?_mapValues` what a
change of all values does.  Binding a key again replaces the stored key along with its value.

The bindings are listed in a fixed order, the key that was bound last for the first time in front.
A finite map has no such order.  What is read from an environment does not depend on it, but a merge
takes up the bindings in the order of the list, and both what it binds some keys to and which of
several keys that are the same it stores may differ from order to order.
-/
namespace HeapFlow

/-- Finitely many bindings of keys to values. -/
structure Environment (K V : Type) [Key K] where
  entries : List (K × V)
  distinct : entries.Pairwise fun x y => Key.same x.1 y.1 = false

namespace Environment

variable {K V : Type} [Key K]

/-- The environment without bindings. -/
def empty : Environment K V := ⟨[], .nil⟩

instance : Inhabited (Environment K V) := ⟨empty⟩

/-- The value of the first binding of a key. -/
def find? (key : K) : List (K × V) → Option V
  | [] => none
  | (k, v) :: entries => if Key.same k key then some v else find? key entries

/-- Replaces the binding of a key where it stands, if there is one. -/
def rebind (key : K) (value : V) : List (K × V) → List (K × V)
  | [] => []
  | (k, v) :: entries =>
    if Key.same k key then (key, value) :: entries else (k, v) :: rebind key value entries

/-- Replaces the binding of a key, or adds one in front. -/
def bind (key : K) (value : V) (entries : List (K × V)) : List (K × V) :=
  if (find? key entries).isSome then rebind key value entries else (key, value) :: entries

theorem find?_rebind {key : K} {value : V} {k : K} {entries : List (K × V)}
    (h : (find? key entries).isSome = true) :
    find? k (rebind key value entries) =
      if Key.same key k then some value else find? k entries := by
  induction entries with
  | nil => cases h
  | cons entry entries ih =>
    obtain ⟨k', v'⟩ := entry
    by_cases hsame : Key.same k' key = true
    · rw [rebind, if_pos hsame, find?, find?, Key.same_congr_left hsame]
      split <;> rfl
    · rw [find?, if_neg hsame] at h
      rw [rebind, if_neg hsame, find?, find?, ih h]
      by_cases hk : Key.same key k = true
      · have hk' : ¬Key.same k' k = true := by rwa [← Key.same_congr_right hk]
        simp [hk, hk']
      · simp [hk]

theorem find?_bind (key : K) (value : V) (k : K) (entries : List (K × V)) :
    find? k (bind key value entries) =
      if Key.same key k then some value else find? k entries := by
  unfold bind
  split
  · next h => exact find?_rebind h
  · rfl

theorem mem_rebind {key : K} {value : V} {entry : K × V} {entries : List (K × V)}
    (h : entry ∈ rebind key value entries) : entry = (key, value) ∨ entry ∈ entries := by
  induction entries with
  | nil => cases h
  | cons head entries ih =>
    obtain ⟨k', v'⟩ := head
    rw [rebind] at h
    split at h
    · exact (List.mem_cons.1 h).imp_right (List.mem_cons_of_mem _)
    · rcases List.mem_cons.1 h with rfl | h
      · exact .inr List.mem_cons_self
      · exact (ih h).imp_right (List.mem_cons_of_mem _)

theorem mem_bind {key : K} {value : V} {entry : K × V} {entries : List (K × V)}
    (h : entry ∈ bind key value entries) : entry = (key, value) ∨ entry ∈ entries := by
  unfold bind at h
  split at h
  · exact mem_rebind h
  · exact List.mem_cons.1 h

theorem pairwise_rebind (key : K) (value : V) {entries : List (K × V)}
    (h : entries.Pairwise fun x y => Key.same x.1 y.1 = false) :
    (rebind key value entries).Pairwise fun x y => Key.same x.1 y.1 = false := by
  induction entries with
  | nil => exact .nil
  | cons head entries ih =>
    obtain ⟨hhead, htail⟩ := List.pairwise_cons.1 h
    rw [rebind]
    split
    · next hsame =>
      refine List.pairwise_cons.2 ⟨fun entry hentry => ?_, htail⟩
      rw [← Key.same_congr_left hsame]
      exact hhead entry hentry
    · next hother =>
      refine List.pairwise_cons.2 ⟨fun entry hentry => ?_, ih htail⟩
      rcases mem_rebind hentry with rfl | hentry
      · simpa using hother
      · exact hhead entry hentry

/-- A key that is not found is not the same as any stored key. -/
theorem not_same_of_find?_eq_none {key : K} {entries : List (K × V)}
    (h : find? key entries = none) : ∀ entry ∈ entries, Key.same key entry.1 = false := by
  induction entries with
  | nil => nofun
  | cons head entries ih =>
    rw [find?] at h
    split at h
    · cases h
    · next hother =>
      refine List.forall_mem_cons.2 ⟨?_, ih h⟩
      rw [Key.same_comm]
      exact Bool.eq_false_iff.2 hother

theorem pairwise_bind (key : K) (value : V) {entries : List (K × V)}
    (h : entries.Pairwise fun x y => Key.same x.1 y.1 = false) :
    (bind key value entries).Pairwise fun x y => Key.same x.1 y.1 = false := by
  unfold bind
  split
  · exact pairwise_rebind key value h
  · next hnone =>
    refine List.pairwise_cons.2 ⟨?_, h⟩
    exact not_same_of_find?_eq_none (Option.not_isSome_iff_eq_none.1 hnone)

variable (env : Environment K V)

/-- The value that a key is bound to. -/
def get? (key : K) : Option V := find? key env.entries

/-- True if the key is bound. -/
def contains (key : K) : Bool := (env.get? key).isSome

/-- The environment with a binding added or replaced. -/
def insert (key : K) (value : V) : Environment K V :=
  ⟨bind key value env.entries, pairwise_bind key value env.distinct⟩

/-- The number of bindings. -/
def size : Nat := env.entries.length

/-- True if there are no bindings. -/
def isEmpty : Bool := env.entries.isEmpty

/-- The keys that are bound. -/
def keys : List K := env.entries.map (·.1)

/-- The environment with all values changed. -/
def mapValues {W : Type} (change : K → V → W) : Environment K W where
  entries := env.entries.map fun (k, v) => (k, change k v)
  distinct := List.pairwise_map.2 env.distinct

/-- The environment with the listed bindings, of which later ones replace earlier ones. -/
def ofList (bindings : List (K × V)) : Environment K V :=
  bindings.foldl (fun env (k, v) => env.insert k v) empty

/-- True if both environments bind the same keys to the same values. -/
def agrees [DecidableEq V] (other : Environment K V) : Bool :=
  env.size = other.size && env.entries.all fun (k, v) => other.get? k = some v

instance [DecidableEq V] : BEq (Environment K V) := ⟨fun env other => env.agrees other⟩

theorem entries_insert_empty (key : K) (value : V) :
    ((empty : Environment K V).insert key value).entries = [(key, value)] := rfl

@[simp] theorem get?_empty (key : K) : (empty : Environment K V).get? key = none := rfl

theorem get?_insert (key : K) (value : V) (k : K) :
    (env.insert key value).get? k = if Key.same key k then some value else env.get? k :=
  find?_bind key value k env.entries

@[simp] theorem get?_insert_self (key : K) (value : V) :
    (env.insert key value).get? key = some value := by
  simp [get?_insert, Key.same_refl]

/-- A changed value comes from the stored key, which need not be equal to the key that is asked
for. -/
theorem get?_mapValues {W : Type} (change : K → V → W) (key : K) :
    ∃ k, Key.same k key = true ∧
      (env.mapValues change).get? key = (env.get? key).map (change k) := by
  show ∃ k, Key.same k key = true ∧
    find? key (env.entries.map fun (k, v) => (k, change k v)) =
      (find? key env.entries).map (change k)
  induction env.entries with
  | nil => exact ⟨key, Key.same_refl key, rfl⟩
  | cons entry entries ih =>
    obtain ⟨k, v⟩ := entry
    by_cases h : Key.same k key = true
    · exact ⟨k, h, by simp [find?, h]⟩
    · obtain ⟨k', hk', heq⟩ := ih
      exact ⟨k', hk', by simpa [find?, h] using heq⟩

theorem get?_congr {a b : K} (h : Key.same a b = true) : env.get? a = env.get? b := by
  unfold get?
  induction env.entries with
  | nil => rfl
  | cons entry entries ih => simp only [find?, Key.same_congr_right h, ih]

end Environment
end HeapFlow
