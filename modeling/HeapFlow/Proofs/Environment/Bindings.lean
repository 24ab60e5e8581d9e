import HeapFlow.Proofs.Environment.Lookup

/-! # Environments with the same bindings

Two environments have the same bindings if every key is looked up to the same value in both
(`Environment.SameBindings`).  Their keys may still be stored in a different order, and stored keys
may differ in data that is not part of their identity.  They compare as the same nevertheless
(`Environment.SameBindings.beq`).

If there is a restriction on keys and on values (`Environment.Within`), then it is enough that the
environments agree on the keys that satisfy it (`Environment.sameBindings_of_known`).
-/
namespace HeapFlow
namespace Environment

/-! ## The same bindings -/

variable {K V : Type} [Key K] {a b c env : Environment K V}
variable {known : K → Prop} {valid : V → Prop}

/-- Both environments bind the same keys to the same values. -/
def SameBindings (a b : Environment K V) : Prop := ∀ k, a.get? k = b.get? k

theorem SameBindings.symm (h : SameBindings a b) : SameBindings b a := fun k => (h k).symm

theorem SameBindings.trans (hab : SameBindings a b) (hbc : SameBindings b c) : SameBindings a c :=
  fun k => (hab k).trans (hbc k)

theorem SameBindings.contains (h : SameBindings a b) (k : K) : a.contains k = b.contains k := by
  unfold Environment.contains
  rw [h k]

/-- A binding of one environment is a binding of the other one, up to the stored key. -/
theorem SameBindings.exists_entry (h : SameBindings a b) {x : K × V} (hx : x ∈ a.entries) :
    ∃ y ∈ b.entries, Key.same x.1 y.1 = true ∧ x.2 = y.2 := by
  have hget : b.get? x.1 = some x.2 := by
    rw [← h x.1]
    exact a.get?_eq_some_of_mem hx
  obtain ⟨k, hk, hmem⟩ := b.get?_eq_some_iff.1 hget
  exact ⟨(k, x.2), hmem, Key.same_symm hk, rfl⟩

theorem SameBindings.insert (h : SameBindings a b) (key : K) (value : V) :
    SameBindings (a.insert key value) (b.insert key value) := by
  intro k
  rw [get?_insert, get?_insert, h k]

theorem get?_mapValues_of_some {W : Type} (change : K → V → W) {key : K} {v : V}
    (h : env.get? key = some v) : ∃ k ∈ env.keys, Key.same k key = true ∧
      (env.mapValues change).get? key = some (change k v) := by
  obtain ⟨k, hsame, hmem⟩ := env.get?_eq_some_iff.1 h
  refine ⟨k, List.mem_map_of_mem hmem, hsame, ?_⟩
  rw [← get?_congr _ hsame]
  exact env.get?_mapValues_of_mem change hmem

theorem isSome_get?_mapValues {W : Type} (change : K → V → W) (key : K) :
    ((env.mapValues change).get? key).isSome = (env.get? key).isSome := by
  obtain ⟨k, -, heq⟩ := env.get?_mapValues change key
  rw [heq, Option.isSome_map]

/-- A list still has all the keys of another list if it is left without a key that does not occur
there. -/
theorem exists_same_of_left_out {list before after : List K} {key : K}
    (h : ∀ k ∈ list, ∃ k' ∈ before ++ key :: after, Key.same k' k = true)
    (hkey : ∀ k ∈ list, Key.same key k = false) :
    ∀ k ∈ list, ∃ k' ∈ before ++ after, Key.same k' k = true := by
  intro k hk
  obtain ⟨k', hmem, hsame⟩ := h k hk
  refine ⟨k', ?_, hsame⟩
  rcases List.mem_append.1 hmem with hmem | hmem
  · exact List.mem_append_left after hmem
  · rcases List.mem_cons.1 hmem with rfl | hmem
    · rw [hkey k hk] at hsame
      cases hsame
    · exact List.mem_append_right before hmem

/-- A list of different keys is not longer than a list that has all of them. -/
theorem length_le_of_same {list list' : List K}
    (hdistinct : list.Pairwise fun a b => Key.same a b = false)
    (h : ∀ k ∈ list, ∃ k' ∈ list', Key.same k' k = true) : list.length ≤ list'.length := by
  induction list generalizing list' with
  | nil => exact Nat.zero_le _
  | cons head list ih =>
    obtain ⟨hhead, htail⟩ := List.pairwise_cons.1 hdistinct
    obtain ⟨k', hmem, hsame⟩ := h head List.mem_cons_self
    obtain ⟨before, after, rfl⟩ := List.append_of_mem hmem
    have hrest := exists_same_of_left_out (fun k hk => h k (List.mem_cons_of_mem head hk))
      fun k hk => by rw [Key.same_congr_left hsame, hhead k hk]
    have hlength := ih htail hrest
    simp only [List.length_append, List.length_cons] at hlength ⊢
    omega

/-- If a list of different keys is as long as a list that has all of them, then it has all keys of
that list. -/
theorem exists_same_of_length_le {list list' : List K}
    (hdistinct : list.Pairwise fun a b => Key.same a b = false)
    (h : ∀ k ∈ list, ∃ k' ∈ list', Key.same k' k = true) (hlength : list'.length ≤ list.length)
    {k' : K} (hk' : k' ∈ list') : ∃ k ∈ list, Key.same k k' = true := by
  refine Classical.byContradiction fun hnone => ?_
  obtain ⟨before, after, rfl⟩ := List.append_of_mem hk'
  have hrest := exists_same_of_left_out h fun k hk =>
    Bool.eq_false_iff.2 fun hsame => hnone ⟨k, hk, Key.same_symm hsame⟩
  have hle := length_le_of_same hdistinct hrest
  simp only [List.length_append, List.length_cons] at hle hlength
  omega

theorem SameBindings.size_le (h : SameBindings a b) : a.size ≤ b.size := by
  have hkeys : a.keys.length ≤ b.keys.length := by
    refine length_le_of_same (List.pairwise_map.2 a.distinct) fun k hk => ?_
    obtain ⟨x, hx, rfl⟩ := List.mem_map.1 hk
    obtain ⟨y, hy, hsame, -⟩ := h.exists_entry hx
    exact ⟨y.1, List.mem_map_of_mem hy, Key.same_symm hsame⟩
  simpa [keys, size] using hkeys

/-- Environments with the same bindings compare as the same. -/
theorem SameBindings.beq [DecidableEq V] (h : SameBindings a b) : (a == b) = true := by
  show a.agrees b = true
  have hsize : a.size = b.size := Nat.le_antisymm h.size_le h.symm.size_le
  simp only [agrees, hsize, decide_true, Bool.true_and, List.all_eq_true, decide_eq_true_eq]
  intro x hx
  rw [← h x.1]
  exact a.get?_eq_some_of_mem hx

/-- Environments that compare as the same have the same bindings: neither has room for a key that
the other one does not bind. -/
theorem sameBindings_of_beq [DecidableEq V] (h : (a == b) = true) : SameBindings a b := by
  have h : a.agrees b = true := h
  simp only [agrees, Bool.and_eq_true, decide_eq_true_eq, List.all_eq_true] at h
  obtain ⟨hsize, hagree⟩ := h
  have hright : ∀ {k v}, a.get? k = some v → b.get? k = some v := by
    intro k v hv
    obtain ⟨k', hsame, hmem⟩ := a.get?_eq_some_iff.1 hv
    rw [← b.get?_congr hsame]
    exact hagree (k', v) hmem
  have hstored : ∀ k ∈ a.keys, ∃ k' ∈ b.keys, Key.same k' k = true := by
    intro k hk
    obtain ⟨x, hx, rfl⟩ := List.mem_map.1 hk
    exact b.isSome_get?_iff.1 (Option.isSome_iff_exists.2 ⟨x.2, hagree x hx⟩)
  have hlength : b.keys.length ≤ a.keys.length := by
    simpa [keys, size] using Nat.le_of_eq hsize.symm
  have hleft : ∀ {k v}, b.get? k = some v → (a.get? k).isSome = true := by
    intro k v hv
    obtain ⟨k', hsame, hmem⟩ := b.get?_eq_some_iff.1 hv
    obtain ⟨key, hkey, hsame'⟩ := exists_same_of_length_le (List.pairwise_map.2 a.distinct) hstored
      hlength (List.mem_map_of_mem hmem)
    exact a.isSome_get?_iff.2 ⟨key, hkey, Key.same_trans hsame' hsame⟩
  intro k
  cases hb : b.get? k with
  | none =>
    refine Option.eq_none_iff_forall_ne_some.2 fun v hv => ?_
    rw [hright hv] at hb
    cases hb
  | some v =>
    obtain ⟨w, hw⟩ := Option.isSome_iff_exists.1 (hleft hb)
    rw [hw, ← hright hw, hb]

/-! ## Valid bindings -/

/-- All bindings satisfy the condition. -/
def EachBinding (P : K → V → Prop) (env : Environment K V) : Prop := ∀ x ∈ env.entries, P x.1 x.2

section EachBinding

variable {P : K → V → Prop}

theorem eachBinding_empty : (empty : Environment K V).EachBinding P := fun _ hx => by cases hx

theorem EachBinding.insert (h : env.EachBinding P) {key : K} {value : V} (hnew : P key value) :
    (env.insert key value).EachBinding P := fun x hx => by
  rcases mem_bind hx with rfl | hx
  · exact hnew
  · exact h x hx

/-- A change of all values may make use of the bindings that are there. -/
theorem EachBinding.mapValues (h : env.EachBinding P) {change : K → V → V}
    (hchange : ∀ k v, P k v → P k (change k v)) :
    (env.mapValues change).EachBinding P := fun x hx => by
  obtain ⟨y, hy, rfl⟩ := List.mem_map.1 hx
  exact hchange y.1 y.2 (h y hy)

/-- What a key is looked up to is bound to a stored key. -/
theorem EachBinding.exists_key (h : env.EachBinding P) {key : K} {v : V}
    (hv : env.get? key = some v) : ∃ k, Key.same k key = true ∧ P k v := by
  obtain ⟨k, hsame, hmem⟩ := env.get?_eq_some_iff.1 hv
  exact ⟨k, hsame, h (k, v) hmem⟩

end EachBinding

/-- All keys and all values are valid. -/
structure Within (known : K → Prop) (valid : V → Prop) (env : Environment K V) : Prop where
  keys : ∀ k ∈ env.keys, known k
  values : ∀ k v, env.get? k = some v → valid v

theorem Within.entry (h : env.Within known valid) {x : K × V} (hx : x ∈ env.entries) :
    known x.1 ∧ valid x.2 :=
  ⟨h.keys _ (List.mem_map_of_mem hx), h.values _ _ (env.get?_eq_some_of_mem hx)⟩

theorem within_iff : env.Within known valid ↔ env.EachBinding fun k v => known k ∧ valid v := by
  refine ⟨fun h _ hx => h.entry hx, fun h => ⟨fun k hk => ?_, fun k v hv => ?_⟩⟩
  · obtain ⟨x, hx, rfl⟩ := List.mem_map.1 hk
    exact (h x hx).1
  · obtain ⟨_, -, -, hvalid⟩ := h.exists_key hv
    exact hvalid

theorem Within.perm (h : env.Within known valid) {env' : Environment K V}
    (hperm : env'.entries.Perm env.entries) : env'.Within known valid :=
  within_iff.2 fun x hx => within_iff.1 h x (hperm.mem_iff.1 hx)

theorem within_empty : (empty : Environment K V).Within known valid :=
  within_iff.2 eachBinding_empty

theorem Within.insert (h : env.Within known valid) {key : K} {value : V} (hkey : known key)
    (hvalue : valid value) : (env.insert key value).Within known valid :=
  within_iff.2 ((within_iff.1 h).insert ⟨hkey, hvalue⟩)

theorem Within.mapValues (h : env.Within known valid) {change : K → V → V}
    (hchange : ∀ k v, valid v → valid (change k v)) :
    (env.mapValues change).Within known valid :=
  within_iff.2 ((within_iff.1 h).mapValues fun k v hkv => ⟨hkv.1, hchange k v hkv.2⟩)

/-- A change of all values that does not depend on how keys are stored. -/
theorem SameBindings.mapValues {W : Type} (h : SameBindings a b) (ha : ∀ k ∈ a.keys, known k)
    (hb : ∀ k ∈ b.keys, known k) {change : K → V → W}
    (hchange : ∀ {k k'} v, known k → known k' → Key.same k k' = true → change k v = change k' v) :
    SameBindings (a.mapValues change) (b.mapValues change) := by
  intro key
  cases hget : a.get? key with
  | none =>
    have hnone : ∀ env : Environment K V, env.get? key = none →
        (env.mapValues change).get? key = none := by
      intro env hnone
      rw [← Option.not_isSome_iff_eq_none, isSome_get?_mapValues, hnone]
      exact Bool.false_ne_true
    rw [hnone a hget, hnone b (h key ▸ hget)]
  | some v =>
    obtain ⟨k, hk, hsame, heq⟩ := get?_mapValues_of_some change hget
    obtain ⟨k', hk', hsame', heq'⟩ := get?_mapValues_of_some change (h key ▸ hget)
    rw [heq, heq', hchange v (ha k hk) (hb k' hk') (Key.same_trans hsame (Key.same_symm hsame'))]

/-- Environments have the same bindings if they agree on the valid keys. -/
theorem sameBindings_of_known (ha : ∀ k ∈ a.keys, known k) (hb : ∀ k ∈ b.keys, known k)
    (h : ∀ k, known k → a.get? k = b.get? k) : SameBindings a b := by
  have hstored : ∀ (env : Environment K V) {key : K} {v : V}, env.get? key = some v →
      ∃ k ∈ env.keys, Key.same k key = true := fun env _ _ hget =>
    env.isSome_get?_iff.1 (Option.isSome_iff_exists.2 ⟨_, hget⟩)
  have hagree : ∀ {k key : K}, known k → Key.same k key = true → a.get? key = b.get? key := by
    intro k key hk hsame
    rw [← a.get?_congr hsame, ← b.get?_congr hsame, h k hk]
  intro key
  cases hget : a.get? key with
  | some v =>
    obtain ⟨k, hk, hsame⟩ := hstored a hget
    rw [← hget]
    exact hagree (ha k hk) hsame
  | none =>
    cases hget' : b.get? key with
    | none => rfl
    | some v =>
      obtain ⟨k, hk, hsame⟩ := hstored b hget'
      rw [← hget', ← hget]
      exact hagree (hb k hk) hsame

end Environment
end HeapFlow
