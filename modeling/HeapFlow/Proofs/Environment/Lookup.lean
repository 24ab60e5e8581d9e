import HeapFlow.Environment.Merge

/-! # Looking up what an environment binds

The bindings of an environment have distinct keys, so a binding is what its key is looked up to, and
every value that is found belongs to a stored key (`Environment.get?_eq_some_iff`).  A change of all
values changes the value of each stored key and nothing else.
-/
namespace HeapFlow
namespace Environment

variable {K V : Type} [Key K] (env : Environment K V)

theorem find?_eq_some_of_mem {entries : List (K × V)}
    (hdistinct : entries.Pairwise fun x y => Key.same x.1 y.1 = false) {k : K} {v : V}
    (h : (k, v) ∈ entries) : find? k entries = some v := by
  induction entries with
  | nil => simp at h
  | cons head entries ih =>
    obtain ⟨hhead, htail⟩ := List.pairwise_cons.1 hdistinct
    rcases List.mem_cons.1 h with rfl | h
    · simp [find?, Key.same_refl]
    · rw [find?, if_neg (by simp [hhead (k, v) h])]
      exact ih htail h

theorem get?_eq_some_of_mem {k : K} {v : V} (h : (k, v) ∈ env.entries) : env.get? k = some v :=
  find?_eq_some_of_mem env.distinct h

/-- A key has a value if it is the same key as a stored one. -/
theorem get?_eq_some_iff {key : K} {v : V} :
    env.get? key = some v ↔ ∃ k, Key.same k key = true ∧ (k, v) ∈ env.entries := by
  constructor
  · unfold get?
    induction env.entries with
    | nil => simp [find?]
    | cons head entries ih =>
      intro h
      rw [find?] at h
      split at h
      · next hsame => exact ⟨head.1, hsame, by simp [← Option.some.inj h]⟩
      · obtain ⟨k, hk, hmem⟩ := ih h
        exact ⟨k, hk, List.mem_cons_of_mem head hmem⟩
  · rintro ⟨k, hk, hmem⟩
    rw [← env.get?_congr hk]
    exact env.get?_eq_some_of_mem hmem

/-- A key is bound if it is the same key as a stored one. -/
theorem isSome_get?_iff {key : K} :
    (env.get? key).isSome = true ↔ ∃ k ∈ env.keys, Key.same k key = true := by
  rw [Option.isSome_iff_exists]
  simp only [env.get?_eq_some_iff]
  constructor
  · rintro ⟨v, k, hsame, hmem⟩
    exact ⟨k, List.mem_map_of_mem hmem, hsame⟩
  · rintro ⟨k, hmem, hsame⟩
    obtain ⟨⟨_, v⟩, hentry, rfl⟩ := List.mem_map.1 hmem
    exact ⟨v, _, hsame, hentry⟩

theorem contains_of_get? {k : K} {v : V} (h : env.get? k = some v) : env.contains k = true :=
  Option.isSome_iff_exists.2 ⟨v, h⟩

theorem isSome_get?_insert (key : K) (value : V) {k : K} (h : (env.get? k).isSome = true) :
    ((env.insert key value).get? k).isSome = true := by
  rw [get?_insert]
  split
  · rfl
  · exact h

theorem contains_insert_cases {key : K} {value : V} {k : K}
    (h : (env.insert key value).contains k = true) :
    Key.same key k = true ∨ env.contains k = true := by
  rw [contains, get?_insert] at h
  by_cases hsame : Key.same key k = true
  · exact .inl hsame
  · rw [if_neg hsame] at h
    exact .inr h

/-- Stored keys that are the same key belong to one binding. -/
theorem eq_of_same {x y : K × V} (hx : x ∈ env.entries) (hy : y ∈ env.entries)
    (hsame : Key.same x.1 y.1 = true) : x = y := by
  obtain ⟨i, hi, rfl⟩ := List.mem_iff_getElem.1 hx
  obtain ⟨j, hj, rfl⟩ := List.mem_iff_getElem.1 hy
  have hdistinct := List.pairwise_iff_getElem.1 env.distinct
  rcases Nat.lt_trichotomy i j with hlt | rfl | hlt
  · rw [hdistinct i j hi hj hlt] at hsame
    cases hsame
  · rfl
  · rw [Key.same_comm, hdistinct j i hj hi hlt] at hsame
    cases hsame

theorem mem_rebind_self {key : K} {value : V} {entries : List (K × V)}
    (h : (find? key entries).isSome = true) : (key, value) ∈ rebind key value entries := by
  induction entries with
  | nil => cases h
  | cons head entries ih =>
    rw [rebind]
    split
    · exact List.mem_cons_self
    · next hother =>
      rw [find?, if_neg hother] at h
      exact List.mem_cons_of_mem head (ih h)

theorem mem_bind_self (key : K) (value : V) (entries : List (K × V)) :
    (key, value) ∈ bind key value entries := by
  unfold bind
  split
  · next h => exact mem_rebind_self h
  · exact List.mem_cons_self

theorem mem_rebind_of_other {key : K} (value : V) {x : K × V} {entries : List (K × V)}
    (hx : x ∈ entries) (hother : Key.same key x.1 = false) : x ∈ rebind key value entries := by
  induction entries with
  | nil => cases hx
  | cons head entries ih =>
    rw [rebind]
    split
    · next hsame =>
      rcases List.mem_cons.1 hx with rfl | hx
      · rw [Key.same_symm hsame] at hother
        cases hother
      · exact List.mem_cons_of_mem _ hx
    · rcases List.mem_cons.1 hx with rfl | hx
      · exact List.mem_cons_self
      · exact List.mem_cons_of_mem head (ih hx)

/-- The bindings of other keys stay when a key is bound. -/
theorem mem_bind_of_other {key : K} (value : V) {x : K × V} {entries : List (K × V)}
    (hx : x ∈ entries) (hother : Key.same key x.1 = false) : x ∈ bind key value entries := by
  unfold bind
  split
  · exact mem_rebind_of_other value hx hother
  · exact List.mem_cons_of_mem _ hx

/-- Changing values changes what a stored key is bound to. -/
theorem get?_mapValues_of_mem {W : Type} (change : K → V → W) {k : K} {v : V}
    (h : (k, v) ∈ env.entries) : (env.mapValues change).get? k = some (change k v) :=
  get?_eq_some_of_mem _ (List.mem_map.2 ⟨(k, v), h, rfl⟩)

end Environment
end HeapFlow
