import HeapFlow.Proofs.Environment.Congruence
import Mathlib.Data.List.Perm.Basic

/-! # Where the order of bindings matters to a merge

A merge takes up the pairs of bindings one after the other.  The value of a key that one of the
sides binds does not depend on the order (`Environment.MergeAlike.get?_mergeWith`).  The value of a
key that neither side binds is what the pairs add up to that land on it, in order
(`Environment.get?_mergeWith_of_free`), and here a pair that merges to the unknown value is passed
over as long as the key is not bound.  So such a pair counts if it comes after a pair that merges to
something else, and is lost if it comes before all of them.

A key is contested if the bindings can be put into an order in which the unknown values come first,
although something is known about what the other pairs merge to (`Environment.Contested`).  The
merge does not depend on the order of the bindings and of the sides exactly if no key is contested
(`Environment.orderFree_iff`).

In a given order, the values that count are those that are not passed over (`Environment.counted`).
If there are any, the key is bound to the least value above them
(`Environment.get?_mergeWith_of_counted`).
-/
namespace HeapFlow
namespace Environment

section Landings

variable {K V : Type} [InstanceKey K] [AbstractValue V] (env other : Environment K V) (k : K)

/-- True if the pair of bindings lands on the key. -/
def landsOn (x y : K × V) : Bool :=
  InstanceKey.sameFamily x.1 y.1 && Key.same (landing x.1 y.1) k

/-- What the pairs of a binding of the first side that land on the key merge to, in order. -/
def landingsOf (x : K × V) : List V :=
  (other.entries.filter (landsOn k x)).map fun y => AbstractValue.merge x.2 y.2

/-- What the pairs that land on the key merge to, in the order in which they are taken up. -/
def landings : List V := env.entries.flatMap (landingsOf other k)

variable {env other k}

theorem mem_landingsOf_iff {x : K × V} {v : V} : v ∈ landingsOf other k x ↔
    ∃ y ∈ other.entries, landsOn k x y = true ∧ AbstractValue.merge x.2 y.2 = v := by
  simp only [landingsOf, List.mem_map, List.mem_filter, and_assoc]

theorem mem_landings_iff {v : V} : v ∈ landings env other k ↔ Lands env other k v := by
  simp only [landings, List.mem_flatMap, mem_landingsOf_iff, landsOn, Bool.and_eq_true, and_assoc]
  rfl

omit [AbstractValue V] in
/-- The bindings of an environment can be put into any order. -/
theorem exists_of_perm (env : Environment K V) {entries : List (K × V)}
    (h : entries.Perm env.entries) : ∃ env' : Environment K V, env'.entries = entries :=
  ⟨⟨entries, env.distinct.perm h.symm fun hsame => by rwa [Key.same_comm]⟩, rfl⟩

omit [AbstractValue V] in
theorem exists_sorted (env : Environment K V) (rank : K × V → Nat) :
    ∃ env' : Environment K V, env'.entries.Perm env.entries ∧
      env'.entries.Pairwise fun x y => rank x ≤ rank y := by
  have hperm := List.mergeSort_perm env.entries fun x y => decide (rank x ≤ rank y)
  obtain ⟨env', hentries⟩ := env.exists_of_perm hperm
  refine ⟨env', hentries ▸ hperm, ?_⟩
  rw [hentries]
  refine (List.pairwise_mergeSort (fun a b c hab hbc => ?_) (fun a b => ?_) env.entries).imp
    fun h => of_decide_eq_true h
  · exact decide_eq_true (Nat.le_trans (of_decide_eq_true hab) (of_decide_eq_true hbc))
  · simpa using Nat.le_total (rank a) (rank b)

omit [AbstractValue V] in
theorem sameBindings_of_perm {env' : Environment K V} (h : env'.entries.Perm env.entries) :
    SameBindings env' env := by
  intro k
  refine Option.ext fun v => ?_
  simp only [get?_eq_some_iff, h.mem_iff]

/-- The reverse of both orders takes up the pairs that land on a key in the reverse order. -/
theorem landings_reverse {env' other' : Environment K V}
    (h : env'.entries = env.entries.reverse) (h' : other'.entries = other.entries.reverse) :
    landings env' other' k = (landings env other k).reverse := by
  have hrow : landingsOf other' k = List.reverse ∘ landingsOf other k := by
    funext x
    simp [landingsOf, h']
  rw [landings, landings, h, hrow, List.reverse_flatMap]

end Landings

/-! ## What the pairs add up to -/

section Sums

variable {V : Type} [DecidableEq V] [AbstractValue V]

/-- The value is the least valid one above the listed values. -/
structure LeastAbove (valid : V → Prop) (values : List V) (w : V) : Prop where
  isValid : valid w
  above : ∀ v ∈ values, AbstractValue.subset v w = true
  least : ∀ u, valid u → (∀ v ∈ values, AbstractValue.subset v u = true) →
    AbstractValue.subset w u = true

/-- What is known about a key that neither side binds once another pair has landed on it. -/
def addLanding : Option V → V → Option V
  | none, v => if v = AbstractValue.unknown then none else some v
  | some w, v => some (AbstractValue.merge v w)

variable {valid : V → Prop} (hjoin : AbstractValue.JoinOn valid) {values : List V}
include hjoin

theorem foldl_addLanding_some_of_unknown (hvalues : ∀ v ∈ values, valid v) {start : V}
    (hstart : valid start)
    (h : start = AbstractValue.unknown ∨ AbstractValue.unknown ∈ values) :
    values.foldl addLanding (some start) = some AbstractValue.unknown := by
  induction values generalizing start with
  | nil => simpa using h
  | cons v values ih =>
    have hv : valid v := hvalues v List.mem_cons_self
    refine ih (fun w hw => hvalues w (List.mem_cons_of_mem v hw)) (hjoin.merge hv hstart) ?_
    rcases h with rfl | h
    · exact .inl (hjoin.merge_unknown hv)
    · rcases List.mem_cons.1 h with rfl | h
      · exact .inl (hjoin.unknown_merge hstart)
      · exact .inr h

/-- Nothing is known about the key if an unknown value comes after another one. -/
theorem foldl_addLanding_eq_unknown {before after : List V} {v : V}
    (hvalues : ∀ w ∈ before ++ v :: after, valid w) (hv : v ≠ AbstractValue.unknown)
    (hafter : AbstractValue.unknown ∈ after) :
    (before ++ v :: after).foldl addLanding none = some AbstractValue.unknown := by
  have hbefore : ∀ start : Option V, (∀ w, start = some w → valid w) →
      ∀ w, before.foldl addLanding start = some w → valid w := by
    have hvalid : ∀ w ∈ before, valid w := fun w hw => hvalues w (List.mem_append_left _ hw)
    clear hvalues
    induction before with
    | nil => exact fun start h => h
    | cons u before ih =>
      intro start hstart
      have hu : valid u := hvalid u List.mem_cons_self
      refine ih (fun w hw => hvalid w (List.mem_cons_of_mem u hw)) _ fun w hw => ?_
      cases start with
      | none =>
        simp only [addLanding] at hw
        split at hw
        · cases hw
        · exact Option.some.inj hw ▸ hu
      | some start =>
        obtain rfl := Option.some.inj hw
        exact hjoin.merge hu (hstart start rfl)
  have hv' : valid v := hvalues v (by simp)
  have hvalid : ∀ w ∈ after, valid w := fun w hw => hvalues w (by simp [hw])
  rw [List.foldl_append, List.foldl_cons]
  cases hstart : before.foldl addLanding none with
  | none =>
    rw [addLanding, if_neg hv]
    exact foldl_addLanding_some_of_unknown hjoin hvalid hv' (.inr hafter)
  | some start =>
    have hstart' : valid start := hbefore none (fun w hw => by cases hw) start hstart
    exact foldl_addLanding_some_of_unknown hjoin hvalid (hjoin.merge hv' hstart') (.inr hafter)

theorem foldl_addLanding_some_subset {bound start w : V} (hbound : valid bound)
    (hvalues : ∀ v ∈ values, valid v ∧ AbstractValue.subset v bound = true)
    (hstart : valid start) (hle : AbstractValue.subset start bound = true)
    (hw : values.foldl addLanding (some start) = some w) :
    AbstractValue.subset w bound = true := by
  induction values generalizing start with
  | nil =>
    obtain rfl := Option.some.inj hw
    exact hle
  | cons v values ih =>
    obtain ⟨hv, hvle⟩ := hvalues v List.mem_cons_self
    exact ih (fun u hu => hvalues u (List.mem_cons_of_mem v hu)) (hjoin.merge hv hstart)
      (hjoin.merge_subset hv hstart hbound hvle hle) hw

/-- If the unknown values come first, the others add up to no more than what is above them all. -/
theorem foldl_addLanding_subset {bound w : V} (hbound : valid bound)
    (hsorted : values.Pairwise fun v u => u = AbstractValue.unknown → v = AbstractValue.unknown)
    (hvalues : ∀ v ∈ values, valid v)
    (hle : ∀ v ∈ values, v ≠ AbstractValue.unknown → AbstractValue.subset v bound = true)
    (hw : values.foldl addLanding none = some w) : AbstractValue.subset w bound = true := by
  induction values with
  | nil => cases hw
  | cons v values ih =>
    obtain ⟨hhead, htail⟩ := List.pairwise_cons.1 hsorted
    have hvalues' : ∀ u ∈ values, valid u := fun u hu => hvalues u (List.mem_cons_of_mem v hu)
    have hle' : ∀ u ∈ values, u ≠ AbstractValue.unknown → AbstractValue.subset u bound = true :=
      fun u hu => hle u (List.mem_cons_of_mem v hu)
    rw [List.foldl_cons, addLanding] at hw
    by_cases hv : v = AbstractValue.unknown
    · rw [if_pos hv] at hw
      exact ih htail hvalues' hle' hw
    · rw [if_neg hv] at hw
      have hknown : ∀ u ∈ values, u ≠ AbstractValue.unknown := fun u hu heq => hv (hhead u hu heq)
      exact foldl_addLanding_some_subset hjoin hbound
        (fun u hu => ⟨hvalues' u hu, hle' u hu (hknown u hu)⟩) (hvalues v List.mem_cons_self)
        (hle v List.mem_cons_self hv) hw

omit hjoin in
/-- Unknown values that come before all others are passed over. -/
theorem foldl_addLanding_none (values : List V) : values.foldl addLanding none =
    (values.dropWhile fun v => v = AbstractValue.unknown).foldl addLanding none := by
  induction values with
  | nil => rfl
  | cons v values ih =>
    by_cases hv : v = AbstractValue.unknown
    · rw [List.dropWhile_cons_of_pos (by simpa using hv), ← ih, List.foldl_cons, addLanding,
        if_pos hv]
    · rw [List.dropWhile_cons_of_neg (by simpa using hv)]

/-- The values add up to the least value above them. -/
theorem leastAbove_foldl_addLanding (hvalues : ∀ v ∈ values, valid v) {start : V}
    (hstart : valid start) :
    ∃ w, values.foldl addLanding (some start) = some w ∧ LeastAbove valid (start :: values) w := by
  induction values generalizing start with
  | nil =>
    refine ⟨start, rfl, hstart, ?_, fun u _ hle => hle start List.mem_cons_self⟩
    exact List.forall_mem_singleton.2 (hjoin.subset_refl hstart)
  | cons v values ih =>
    have hv : valid v := hvalues v List.mem_cons_self
    have hadded := hjoin.merge hv hstart
    obtain ⟨w, hw, hleast⟩ := ih (fun u hu => hvalues u (List.mem_cons_of_mem v hu)) hadded
    obtain ⟨hsum, hrest⟩ := List.forall_mem_cons.1 hleast.above
    have hvalid := hleast.isValid
    refine ⟨w, hw, hvalid, List.forall_mem_cons.2 ⟨?_, List.forall_mem_cons.2 ⟨?_, hrest⟩⟩,
      fun u hu hle => ?_⟩
    · exact hjoin.subset_trans hstart hadded hvalid (hjoin.subset_merge_right hv hstart) hsum
    · exact hjoin.subset_trans hv hadded hvalid (hjoin.subset_merge_left hv hstart) hsum
    · obtain ⟨hstartLe, hle⟩ := List.forall_mem_cons.1 hle
      obtain ⟨hvLe, hle⟩ := List.forall_mem_cons.1 hle
      exact hleast.least u hu
        (List.forall_mem_cons.2 ⟨hjoin.merge_subset hv hstart hu hvLe hstartLe, hle⟩)

end Sums

/-! ## Keys that neither side binds -/

section Free

variable {K V : Type} [InstanceKey K] [DecidableEq V] [AbstractValue V]
variable {env other : Environment K V} {absent : K → V → V} {k : K}
variable (henv : env.contains k = false) (hother : other.contains k = false)
include henv hother

theorem get?_mergePair_of_lands (result : Environment K V) {x y : K × V} (hx : x ∈ env.entries)
    (hlanding : Key.same (landing x.1 y.1) k = true) :
    (mergePair env other result x y).get? k =
      addLanding (result.get? k) (AbstractValue.merge x.2 y.2) := by
  have hinstance : InstanceKey.sameInstance x.1 y.1 = false := by
    refine Bool.eq_false_iff.2 fun hinstance => ?_
    rw [landing, if_pos hinstance] at hlanding
    rw [contains, ← env.get?_congr hlanding, env.get?_eq_some_of_mem hx] at henv
    cases henv
  have hfree : env.get? (landing x.1 y.1) = none ∧ other.get? (landing x.1 y.1) = none := by
    rw [env.get?_congr hlanding, other.get?_congr hlanding]
    exact ⟨Option.not_isSome_iff_eq_none.1 (by simpa [contains] using henv),
      Option.not_isSome_iff_eq_none.1 (by simpa [contains] using hother)⟩
  rw [mergePair_eq, pairValue, boundBefore, hinstance, hfree.1, hfree.2,
    result.get?_congr hlanding]
  cases hbound : result.get? k with
  | none =>
    by_cases hunknown : AbstractValue.merge x.2 y.2 = AbstractValue.unknown
    · simp [hunknown, hbound, addLanding]
    · simp [hunknown, get?_insert, hlanding, addLanding]
  | some w => simp [get?_insert, hlanding, addLanding]

theorem get?_foldl_mergePair {x : K × V} (hx : x ∈ env.entries) (ys : List (K × V))
    (result : Environment K V) :
    ((ys.filter fun y => InstanceKey.sameFamily x.1 y.1).foldl
      (fun result y => mergePair env other result x y) result).get? k =
        ((ys.filter (landsOn k x)).map fun y => AbstractValue.merge x.2 y.2).foldl addLanding
          (result.get? k) := by
  induction ys generalizing result with
  | nil => rfl
  | cons y ys ih =>
    by_cases hfamily : InstanceKey.sameFamily x.1 y.1 = true
    · rw [List.filter_cons_of_pos (p := fun y : K × V => InstanceKey.sameFamily x.1 y.1) hfamily,
        List.foldl_cons, ih]
      by_cases hlanding : Key.same (landing x.1 y.1) k = true
      · rw [List.filter_cons_of_pos (by simp [landsOn, hfamily, hlanding]), List.map_cons,
          List.foldl_cons, get?_mergePair_of_lands henv hother result hx hlanding]
      · rw [List.filter_cons_of_neg (by simp [landsOn, hlanding]),
          get?_mergePair_of_not_lands result (Bool.eq_false_iff.2 hlanding)]
    · rw [List.filter_cons_of_neg (p := fun y : K × V => InstanceKey.sameFamily x.1 y.1) hfamily,
        ih, List.filter_cons_of_neg (by simp [landsOn, hfamily])]

/-- **The value of a key that neither side binds** is what the pairs add up to that land on it, in
the order in which they are taken up. -/
theorem get?_mergeWith_of_free :
    (env.mergeWith other absent).get? k = (landings env other k).foldl addLanding none := by
  have hdiffers : ∀ x, x ∈ env.entries ∨ x ∈ other.entries → Key.same x.1 k = true → False := by
    intro x hx hsame
    have hbound : env.contains k = true ∨ other.contains k = true := by
      rw [contains, contains, ← env.get?_congr hsame, ← other.get?_congr hsame]
      exact hx.imp (fun h => by rw [env.get?_eq_some_of_mem h]; rfl) fun h => by
        rw [other.get?_eq_some_of_mem h]; rfl
    simp [henv, hother] at hbound
  -- Neither side binds the key, so that single bindings do not matter.
  have hlast : (env.mergeWith other absent).get? k =
      (env.entries.foldl (mergeEntry env other absent) empty).get? k := by
    refine List.foldlRecOn (motive := fun result => Environment.get? result k =
      (env.entries.foldl (mergeEntry env other absent) empty).get? k) other.entries _ rfl
      fun result hresult y hy => ?_
    rw [get?_mergeAlone result fun hsame => (hdiffers y (.inr hy) hsame).elim, hresult]
  have hentries : ∀ xs : List (K × V), (∀ x ∈ xs, x ∈ env.entries) → ∀ result : Environment K V,
      (xs.foldl (mergeEntry env other absent) result).get? k =
        (xs.flatMap (landingsOf other k)).foldl addLanding (result.get? k) := by
    intro xs
    induction xs with
    | nil => exact fun _ _ => rfl
    | cons x xs ih =>
      intro hxs result
      have hx : x ∈ env.entries := hxs x List.mem_cons_self
      have hentry : (mergeEntry env other absent result x).get? k =
          (landingsOf other k x).foldl addLanding (result.get? k) := by
        rw [mergeEntry, get?_mergeAlone _ fun hsame => (hdiffers x (.inl hx) hsame).elim,
          get?_foldl_mergePair henv hother hx, landingsOf]
      rw [List.foldl_cons, ih (fun y hy => hxs y (List.mem_cons_of_mem x hy)), hentry,
        List.flatMap_cons, List.foldl_append]
  rw [hlast, hentries env.entries (fun _ h => h), landings, get?_empty]

end Free

/-! ## The values that count -/

section Counted

variable {K V : Type} [InstanceKey K] [DecidableEq V] [AbstractValue V]
variable {env other : Environment K V} {absent : K → V → V} {k : K}
variable {known : K → Prop} {valid : V → Prop}

/-- What the pairs that land on a key merge to, but for the pairs that are passed over: unknown
values count once the key is bound. -/
def counted (env other : Environment K V) (k : K) : List V :=
  if env.contains k || other.contains k then landings env other k
  else (landings env other k).dropWhile fun v => v = AbstractValue.unknown

omit [DecidableEq V] in
theorem valid_of_mem_landings (hjoin : AbstractValue.JoinOn valid) (henv : env.Within known valid)
    (hother : other.Within known valid) {v : V} (h : v ∈ landings env other k) : valid v := by
  obtain ⟨x, hx, y, hy, -, -, rfl⟩ := mem_landings_iff.1 h
  exact hjoin.merge (henv.entry hx).2 (hother.entry hy).2

theorem counted_of_bound (h : env.contains k = true ∨ other.contains k = true) :
    counted env other k = landings env other k :=
  if_pos (Bool.or_eq_true _ _ |>.mpr h)

theorem counted_of_free (h : env.contains k = false) (h' : other.contains k = false) :
    counted env other k =
      (landings env other k).dropWhile fun v => v = AbstractValue.unknown := by
  rw [counted, h, h', Bool.or_false, if_neg Bool.false_ne_true]

/-- A key on which no pair lands that counts is bound on one side at most, as a pair of bindings of
the key would count. -/
theorem eq_of_not_counted (hkeys : InstanceKey.JoinOn known) (henv : env.Within known valid)
    (hother : other.Within known valid) (hk : known k) (h : counted env other k = [])
    {x y : K × V} (hx : x ∈ env.entries ∨ x ∈ other.entries)
    (hy : y ∈ env.entries ∨ y ∈ other.entries) (hxk : Key.same x.1 k = true)
    (hyk : Key.same y.1 k = true) : x = y := by
  have hsame : Key.same x.1 y.1 = true := Key.same_trans hxk (Key.same_symm hyk)
  have hboth : ∀ {x y : K × V}, x ∈ env.entries → y ∈ other.entries → Key.same x.1 k = true →
      Key.same y.1 k = true → False := by
    intro x y hx hy hxk hyk
    have hx := env.get?_eq_some_iff.2 ⟨x.1, hxk, hx⟩
    have hy := other.get?_eq_some_iff.2 ⟨y.1, hyk, hy⟩
    have hlands := mem_landings_iff.2 (lands_of_both hkeys henv hother hk hx hy)
    rw [← counted_of_bound (.inl (env.contains_of_get? hx)), h] at hlands
    cases hlands
  rcases hx with hx | hx <;> rcases hy with hy | hy
  · exact env.eq_of_same hx hy hsame
  · exact (hboth hx hy hxk hyk).elim
  · exact (hboth hy hx hyk hxk).elim
  · exact other.eq_of_same hx hy hsame

/-- A key on which no pair lands that counts is given the value of a key that was not observed, if
any. -/
theorem get?_mergeWith_of_not_counted {value : V} (h : counted env other k = [])
    (halone : ∀ x, x ∈ env.entries ∨ x ∈ other.entries → Key.same x.1 k = true →
      absent x.1 x.2 = value) {w : V} (hw : (env.mergeWith other absent).get? k = some w) :
    w = value := by
  by_cases hbound : env.contains k = true ∨ other.contains k = true
  · rw [counted_of_bound hbound] at h
    have hlands : ∀ v, ¬Lands env other k v := fun v hv => by
      have hmem := mem_landings_iff.2 hv
      rw [h] at hmem
      cases hmem
    exact get?_mergeWith_of_alone hlands halone w hw
  · obtain ⟨hfree, hfree'⟩ := not_or.1 hbound
    rw [Bool.not_eq_true] at hfree hfree'
    rw [get?_mergeWith_of_free hfree hfree', foldl_addLanding_none, ← counted_of_free hfree hfree',
      h] at hw
    cases hw

variable (hjoin : AbstractValue.JoinOn valid) (habsent : ∀ k v, valid v → valid (absent k v))
variable (henv : env.Within known valid) (hother : other.Within known valid)
include hjoin henv hother

include habsent in
theorem get?_mergeWith_of_counted_of_bound (hkeys : InstanceKey.JoinOn known) (hk : known k)
    (hbound : env.contains k = true ∨ other.contains k = true) (h : counted env other k ≠ []) :
    ∃ w, (env.mergeWith other absent).get? k = some w ∧
      LeastAbove valid (counted env other k) w := by
  rw [counted_of_bound hbound] at h ⊢
  have hcovered : ∀ v ∈ landings env other k, ∃ w,
      (env.mergeWith other absent).get? k = some w ∧ AbstractValue.subset v w = true := fun v hv =>
    le_get?_mergeWith hjoin habsent henv hother (mem_landings_iff.1 hv) (hbound.imp_right .inl)
  obtain ⟨v, hv⟩ := List.exists_mem_of_ne_nil _ h
  obtain ⟨w, hw, -⟩ := hcovered v hv
  have hvalid := AllValid.mergeWith henv.values hother.values hjoin habsent k w hw
  refine ⟨w, hw, hvalid, fun u hu => ?_, fun u hu hle => ?_⟩
  · obtain ⟨w', hw', hle⟩ := hcovered u hu
    obtain rfl := Option.some.inj (hw.symm.trans hw')
    exact hle
  · exact get?_mergeWith_le hkeys hjoin habsent henv hother hk hu hbound
      ⟨v, mem_landings_iff.1 hv⟩ (fun v hv => hle v (mem_landings_iff.2 hv)) hw

theorem get?_mergeWith_of_counted_of_free (hfree : env.contains k = false)
    (hfree' : other.contains k = false) (h : counted env other k ≠ []) :
    ∃ w, (env.mergeWith other absent).get? k = some w ∧
      LeastAbove valid (counted env other k) w := by
  have hcounted := counted_of_free hfree hfree'
  rw [get?_mergeWith_of_free hfree hfree', foldl_addLanding_none, ← hcounted]
  have hvalues : ∀ v ∈ counted env other k, valid v := by
    intro v hv
    rw [hcounted] at hv
    exact valid_of_mem_landings hjoin henv hother ((List.dropWhile_sublist _).subset hv)
  cases hlist : counted env other k with
  | nil => exact absurd hlist h
  | cons v rest =>
    -- The values that are passed over come before the first one that is known.
    have hfirst : v ≠ AbstractValue.unknown := by
      have hhead := List.head?_dropWhile_not (fun v => decide (v = AbstractValue.unknown))
        (landings env other k)
      rw [← hcounted, hlist] at hhead
      exact of_decide_eq_false hhead
    rw [hlist] at hvalues
    obtain ⟨hv, hrest⟩ := List.forall_mem_cons.1 hvalues
    rw [List.foldl_cons, addLanding, if_neg hfirst]
    exact leastAbove_foldl_addLanding hjoin hrest hv

include habsent in
/-- **The value of a key** is the least one above all values that count. -/
theorem get?_mergeWith_of_counted (hkeys : InstanceKey.JoinOn known) (hk : known k)
    (h : counted env other k ≠ []) :
    ∃ w, (env.mergeWith other absent).get? k = some w ∧
      LeastAbove valid (counted env other k) w := by
  by_cases hbound : env.contains k = true ∨ other.contains k = true
  · exact get?_mergeWith_of_counted_of_bound hjoin habsent henv hother hkeys hk hbound h
  · obtain ⟨hfree, hfree'⟩ := not_or.1 hbound
    exact get?_mergeWith_of_counted_of_free hjoin henv hother (Bool.eq_false_iff.2 hfree)
      (Bool.eq_false_iff.2 hfree') h

end Counted

/-! ## Contested keys -/

section Contested

variable {K V : Type} [InstanceKey K] [AbstractValue V]

/-- Some pairs of the binding that land on the key merge to the unknown value and others do not. -/
def Mixes (other : Environment K V) (k : K) (x : K × V) : Prop :=
  AbstractValue.unknown ∈ landingsOf other k x ∧
    ∃ v ∈ landingsOf other k x, v ≠ AbstractValue.unknown

/-- At most one binding of the first side mixes unknown values with others, so that all unknown
values can come first. -/
def MixesOnce (env other : Environment K V) (k : K) : Prop :=
  ∀ x ∈ env.entries, ∀ y ∈ env.entries, Mixes other k x → Mixes other k y → x = y

variable [DecidableEq V]

/-- What is known about the key after a merge depends on the order: some pairs that land on it merge
to the unknown value, something is known about the others, and all unknown values can come first. -/
structure Contested (valid : V → Prop) (env other : Environment K V) (k : K) : Prop where
  free_left : env.contains k = false
  free_right : other.contains k = false
  unknown : Lands env other k AbstractValue.unknown
  known : ∃ v, Lands env other k v ∧ v ≠ AbstractValue.unknown
  bounded : ∃ bound, valid bound ∧ bound ≠ AbstractValue.unknown ∧
    ∀ v, Lands env other k v → v ≠ AbstractValue.unknown → AbstractValue.subset v bound = true
  once : MixesOnce env other k ∨ MixesOnce other env k

/-- The result of the operation does not depend on the order of the bindings on either side, nor on
the order of the sides. -/
def OrderFree (operation : Environment K V → Environment K V → Environment K V)
    (env other : Environment K V) : Prop :=
  ∀ env' other' : Environment K V, env'.entries.Perm env.entries →
    other'.entries.Perm other.entries →
      SameBindings (operation env' other') (operation env other) ∧
        SameBindings (operation other' env') (operation env other)

variable {env other env' other' : Environment K V} {k : K}

omit [DecidableEq V] in
theorem mixes_of_perm (h : other'.entries.Perm other.entries) {x : K × V}
    (hx : Mixes other k x) : Mixes other' k x := by
  have hmem : ∀ v, v ∈ landingsOf other' k x ↔ v ∈ landingsOf other k x := by
    intro v
    simp only [mem_landingsOf_iff, h.mem_iff]
  simpa only [Mixes, hmem] using hx

omit [DecidableEq V] in
/-- If two bindings mix unknown values with others, then some unknown value comes after another
value, whatever the order is. -/
theorem exists_unknown_after (h : ¬MixesOnce env other k) (henv : env'.entries.Perm env.entries)
    (hother : other'.entries.Perm other.entries) :
    ∃ before v after, landings env' other' k = before ++ v :: after ∧
      v ≠ AbstractValue.unknown ∧ AbstractValue.unknown ∈ after := by
  -- The binding that comes first has a known value, the other one an unknown value.
  have hfirst : ∀ {x y : K × V} {before after : List (K × V)}, Mixes other' k x →
      Mixes other' k y → env'.entries = before ++ x :: after → y ∈ after →
      ∃ before v after, landings env' other' k = before ++ v :: after ∧
        v ≠ AbstractValue.unknown ∧ AbstractValue.unknown ∈ after := by
    intro x y before after hx hy hentries hmem
    obtain ⟨v, hv, hknown⟩ := hx.2
    obtain ⟨before', after', hrow⟩ := List.append_of_mem hv
    refine ⟨before.flatMap (landingsOf other' k) ++ before', v,
      after' ++ after.flatMap (landingsOf other' k), ?_, hknown, ?_⟩
    · rw [landings, hentries, List.flatMap_append, List.flatMap_cons, hrow]
      simp
    · exact List.mem_append_right _ (List.mem_flatMap.2 ⟨y, hmem, hy.1⟩)
  obtain ⟨x, hx, y, hy, hmixx, hmixy, hne⟩ : ∃ x ∈ env.entries, ∃ y ∈ env.entries,
      Mixes other k x ∧ Mixes other k y ∧ x ≠ y := by
    simpa only [MixesOnce, not_forall, exists_prop, and_assoc, and_left_comm] using h
  have hmixx := mixes_of_perm hother hmixx
  have hmixy := mixes_of_perm hother hmixy
  obtain ⟨before, after, hentries⟩ := List.append_of_mem (henv.mem_iff.2 hx)
  have hy' : y ∈ before ++ x :: after := hentries ▸ henv.mem_iff.2 hy
  rcases List.mem_append.1 hy' with hbefore | hafter
  · obtain ⟨before', between, hsplit⟩ := List.append_of_mem hbefore
    have hentries' : env'.entries = before' ++ y :: (between ++ x :: after) := by
      rw [hentries, hsplit]
      simp
    exact hfirst hmixy hmixx hentries' (by simp)
  · rcases List.mem_cons.1 hafter with heq | hafter
    · exact absurd heq.symm hne
    · exact hfirst hmixx hmixy hentries hafter

instance (x : K × V) : Decidable (Mixes other k x) :=
  inferInstanceAs (Decidable (AbstractValue.unknown ∈ landingsOf other k x ∧
    ∃ v ∈ landingsOf other k x, v ≠ AbstractValue.unknown))

/-- Bindings without known values come first, then those that mix values, then the others. -/
def rowRank (other : Environment K V) (k : K) (x : K × V) : Nat :=
  if ∀ v ∈ landingsOf other k x, v = AbstractValue.unknown then 0
  else if Mixes other k x then 1 else 2

/-- Bindings whose pair with a binding that mixes values is unknown come first. -/
def columnRank (env other : Environment K V) (k : K) (y : K × V) : Nat :=
  if ∃ x ∈ env.entries, Mixes other k x ∧ AbstractValue.merge x.2 y.2 = AbstractValue.unknown
  then 0 else 1

theorem eq_unknown_of_rowRank {x : K × V} (h : rowRank other k x = 0) :
    ∀ v ∈ landingsOf other k x, v = AbstractValue.unknown := by
  by_contra hnot
  rw [rowRank, if_neg hnot] at h
  split at h <;> omega

theorem rowRank_eq_one_iff {x : K × V} : rowRank other k x = 1 ↔ Mixes other k x := by
  unfold rowRank
  by_cases hall : ∀ v ∈ landingsOf other k x, v = AbstractValue.unknown
  · rw [if_pos hall]
    exact ⟨fun h => (by cases h), fun ⟨_, v, hv, hne⟩ => absurd (hall v hv) hne⟩
  · rw [if_neg hall]
    split
    · next hmix => exact ⟨fun _ => hmix, fun _ => rfl⟩
    · next hmix => exact ⟨fun h => (by cases h), fun h => absurd h hmix⟩

theorem mixes_of_unknown_mem {x : K × V}
    (h : AbstractValue.unknown ∈ landingsOf other k x) (hrank : rowRank other k x ≠ 0) :
    Mixes other k x := by
  refine ⟨h, ?_⟩
  by_contra hnot
  exact hrank (if_pos (by simpa using hnot))

/-- Within the pairs of one binding the unknown values come first, if the bindings of the other side
are sorted. -/
theorem pairwise_landingsOf (h : MixesOnce env other k) (hperm : other'.entries.Perm other.entries)
    (hsorted : other'.entries.Pairwise fun y z =>
      columnRank env other k y ≤ columnRank env other k z) {x : K × V} (hx : x ∈ env.entries) :
    (landingsOf other' k x).Pairwise fun v u =>
      u = AbstractValue.unknown → v = AbstractValue.unknown := by
  refine List.pairwise_map.2 ((hsorted.filter _).imp_of_mem ?_)
  intro y z hy hz hle heq
  have hlands : ∀ {y}, y ∈ other'.entries.filter (landsOn k x) →
      AbstractValue.merge x.2 y.2 ∈ landingsOf other k x := by
    intro y hy
    obtain ⟨hmem, hland⟩ := List.mem_filter.1 hy
    exact mem_landingsOf_iff.2 ⟨y, hperm.mem_iff.1 hmem, hland, rfl⟩
  by_cases hrank : rowRank other k x = 0
  · exact eq_unknown_of_rowRank hrank _ (hlands hy)
  · have hmix := mixes_of_unknown_mem (heq ▸ hlands hz) hrank
    have hz' : columnRank env other k z = 0 := if_pos ⟨x, hx, hmix, heq⟩
    have hy' : ∃ x ∈ env.entries, Mixes other k x ∧
        AbstractValue.merge x.2 y.2 = AbstractValue.unknown := by
      by_contra hnot
      have hone : columnRank env other k y = 1 := if_neg hnot
      omega
    obtain ⟨x', hx', hmix', heq'⟩ := hy'
    rwa [h x hx x' hx' hmix hmix']

/-- If at most one binding mixes unknown values with others, then the unknown values come first in
some order. -/
theorem exists_unknown_first (h : MixesOnce env other k) :
    ∃ env' other' : Environment K V, env'.entries.Perm env.entries ∧
      other'.entries.Perm other.entries ∧ (landings env' other' k).Pairwise fun v u =>
        u = AbstractValue.unknown → v = AbstractValue.unknown := by
  obtain ⟨env', hperm, hsorted⟩ := env.exists_sorted (rowRank other k)
  obtain ⟨other', hperm', hsorted'⟩ := other.exists_sorted (columnRank env other k)
  refine ⟨env', other', hperm, hperm', List.pairwise_flatMap.2 ⟨fun x hx =>
    pairwise_landingsOf h hperm' hsorted' (hperm.mem_iff.1 hx), ?_⟩⟩
  refine (hsorted.and env'.distinct).imp_of_mem ?_
  rintro x y hx hy ⟨hle, hdiffers⟩ v hv u hu rfl
  have hrow : ∀ {x : K × V} {v : V}, v ∈ landingsOf other' k x ↔ v ∈ landingsOf other k x := by
    intro x v
    simp only [mem_landingsOf_iff, hperm'.mem_iff]
  rw [hrow] at hv hu
  by_cases hrank : rowRank other k x = 0
  · exact eq_unknown_of_rowRank hrank v hv
  · -- Otherwise both bindings mix unknown values with others, but they are different bindings.
    have hmixy := mixes_of_unknown_mem hu (by omega)
    have hmixx : Mixes other k x := by
      have hone := rowRank_eq_one_iff.2 hmixy
      exact rowRank_eq_one_iff.1 (by omega)
    rw [h x (hperm.mem_iff.1 hx) y (hperm.mem_iff.1 hy) hmixx hmixy, Key.same_refl] at hdiffers
    cases hdiffers

end Contested

/-! ## Order freedom -/

section OrderFree

variable {K V : Type} [InstanceKey K] [DecidableEq V] [AbstractValue V]
variable {env other env' other' : Environment K V} {absent : K → V → V} {k : K}
variable {known : K → Prop} {valid : V → Prop}
variable (hcomm : ∀ {a b : K}, InstanceKey.sameFamily a b = true →
  InstanceKey.sameFamily b a = true ∧ Key.same (landing b a) (landing a b) = true)
variable (hjoin : AbstractValue.JoinOn valid)

section Swap

variable (henv : env.AllValid valid) (hother : other.AllValid valid)
include hcomm hjoin henv hother

omit [DecidableEq V] in
theorem Lands.swap {v : V} (h : Lands env other k v) : Lands other env k v := by
  obtain ⟨x, hx, y, hy, hfamily, hlanding, rfl⟩ := h
  obtain ⟨hfamily', hlanding'⟩ := hcomm hfamily
  refine ⟨y, hy, x, hx, hfamily', Key.same_trans hlanding' hlanding, ?_⟩
  exact hjoin.comm (hother _ _ (other.get?_eq_some_of_mem hy))
    (henv _ _ (env.get?_eq_some_of_mem hx))

theorem Contested.swap (h : Contested valid env other k) : Contested valid other env k where
  free_left := h.free_right
  free_right := h.free_left
  unknown := h.unknown.swap hcomm hjoin henv hother
  known := by
    obtain ⟨v, hv, hne⟩ := h.known
    exact ⟨v, hv.swap hcomm hjoin henv hother, hne⟩
  bounded := by
    obtain ⟨bound, hbound, hne, hle⟩ := h.bounded
    exact ⟨bound, hbound, hne, fun v hv => hle v (hv.swap hcomm hjoin hother henv)⟩
  once := h.once.symm

omit [DecidableEq V] in
theorem mergeAlike_swap (k : K) : MergeAlike other env env other k where
  bound _ := or_comm
  lands _ := ⟨fun h => h.swap hcomm hjoin hother henv, fun h => h.swap hcomm hjoin henv hother⟩

end Swap

variable (habsent : ∀ k v, valid v → valid (absent k v))
variable (henv : env.Within known valid) (hother : other.Within known valid)

include hjoin henv hother in
/-- If the unknown values can come first, there are two orders that give different values. -/
theorem Contested.exists_orders_differ (h : Contested valid env other k) (absent : K → V → V)
    (honce : MixesOnce env other k) :
    ∃ env₁ other₁ env₂ other₂ : Environment K V,
      (env₁.entries.Perm env.entries ∧ other₁.entries.Perm other.entries) ∧
      (env₂.entries.Perm env.entries ∧ other₂.entries.Perm other.entries) ∧
      (env₁.mergeWith other₁ absent).get? k ≠ (env₂.mergeWith other₂ absent).get? k := by
  obtain ⟨env₁, other₁, hperm, hperm', hsorted⟩ := exists_unknown_first honce
  obtain ⟨env₂, hreverse⟩ := env₁.exists_of_perm env₁.entries.reverse_perm
  obtain ⟨other₂, hreverse'⟩ := other₁.exists_of_perm other₁.entries.reverse_perm
  have hperm₂ : env₂.entries.Perm env.entries := (hreverse ▸ List.reverse_perm _).trans hperm
  have hperm₂' : other₂.entries.Perm other.entries := (hreverse' ▸ List.reverse_perm _).trans hperm'
  refine ⟨env₁, other₁, env₂, other₂, ⟨hperm, hperm'⟩, ⟨hperm₂, hperm₂'⟩, ?_⟩
  have hmem : ∀ {v}, v ∈ landings env₁ other₁ k ↔ Lands env other k v := by
    intro v
    rw [mem_landings_iff]
    simp only [Lands, hperm.mem_iff, hperm'.mem_iff]
  have hvalid : ∀ v ∈ landings env₁ other₁ k, valid v := fun v hv =>
    valid_of_mem_landings hjoin henv hother (mem_landings_iff.2 (hmem.1 hv))
  have hcontains : ∀ {a b : Environment K V}, a.entries.Perm b.entries → b.contains k = false →
      a.contains k = false := fun h hb => by rw [(sameBindings_of_perm h).contains, hb]
  rw [get?_mergeWith_of_free (hcontains hperm h.free_left) (hcontains hperm' h.free_right),
    get?_mergeWith_of_free (hcontains hperm₂ h.free_left) (hcontains hperm₂' h.free_right),
    landings_reverse hreverse hreverse']
  obtain ⟨v, hv, hne⟩ := h.known
  obtain ⟨before, after, hsplit⟩ := List.append_of_mem (hmem.2 hv)
  -- In the reverse order the unknown value comes after the known one.
  have hbefore : AbstractValue.unknown ∈ before := by
    have hmem' := hmem.2 h.unknown
    rw [hsplit] at hmem' hsorted
    rcases List.mem_append.1 hmem' with h | h
    · exact h
    · rcases List.mem_cons.1 h with h | h
      · exact absurd h.symm hne
      · have htail := (List.pairwise_append.1 hsorted).2.1
        exact absurd ((List.pairwise_cons.1 htail).1 _ h rfl) hne
  have hreversed : (landings env₁ other₁ k).reverse = after.reverse ++ v :: before.reverse := by
    simp [hsplit]
  rw [hreversed, foldl_addLanding_eq_unknown hjoin
    (fun w hw => hvalid w (List.mem_reverse.1 (hreversed ▸ hw))) hne (List.mem_reverse.2 hbefore)]
  intro heq
  obtain ⟨bound, hbound, hboundne, hle⟩ := h.bounded
  have hsubset := foldl_addLanding_subset hjoin hbound hsorted hvalid
    (fun u hu => hle u (hmem.1 hu)) heq
  exact hboundne (hjoin.eq_unknown_of_subset hbound hsubset)

include hjoin henv hother in
/-- If no pair that lands on a key merges to the unknown value, then the key is bound to no more
than what is above all that the pairs merge to. -/
theorem get?_mergeWith_subset_of_free (hfree : env.contains k = false)
    (hfree' : other.contains k = false) (hunknown : ¬Lands env other k AbstractValue.unknown)
    {bound w : V} (hbound : valid bound)
    (hle : ∀ v, Lands env other k v → AbstractValue.subset v bound = true)
    (hw : (env.mergeWith other absent).get? k = some w) : AbstractValue.subset w bound = true := by
  rw [get?_mergeWith_of_free hfree hfree'] at hw
  have hnone : ∀ v ∈ landings env other k, v ≠ AbstractValue.unknown := by
    rintro v hv rfl
    exact hunknown (mem_landings_iff.1 hv)
  refine foldl_addLanding_subset hjoin hbound ?_ (fun v hv =>
    valid_of_mem_landings hjoin henv hother hv) (fun v hv _ => hle v (mem_landings_iff.1 hv)) hw
  exact List.pairwise_of_forall_mem_list fun v _ u hu heq => absurd heq (hnone u hu)

include hjoin henv hother in
theorem get?_mergeWith_of_unknown_after (hfree : env.contains k = false)
    (hfree' : other.contains k = false)
    (h : ∃ before v after, landings env other k = before ++ v :: after ∧
      v ≠ AbstractValue.unknown ∧ AbstractValue.unknown ∈ after) :
    (env.mergeWith other absent).get? k = some AbstractValue.unknown := by
  obtain ⟨before, v, after, hsplit, hne, hafter⟩ := h
  rw [get?_mergeWith_of_free hfree hfree', hsplit]
  refine foldl_addLanding_eq_unknown hjoin (fun w hw => ?_) hne hafter
  exact valid_of_mem_landings hjoin henv hother (hsplit ▸ hw)

include hjoin habsent henv hother in
/-- If something is known about what a pair merges to that lands on a key, then the key is bound to
a value above all that is known. -/
theorem exists_get?_mergeWith_above (h : ∃ v, Lands env other k v ∧ v ≠ AbstractValue.unknown) :
    ∃ w, (env.mergeWith other absent).get? k = some w ∧ valid w ∧
      ∀ v, Lands env other k v → v ≠ AbstractValue.unknown → AbstractValue.subset v w = true := by
  have hcovered : ∀ v, Lands env other k v → v ≠ AbstractValue.unknown →
      ∃ w, (env.mergeWith other absent).get? k = some w ∧ AbstractValue.subset v w = true :=
    fun v hv hne => le_get?_mergeWith hjoin habsent henv hother hv (.inr (.inr hne))
  obtain ⟨v, hv, hne⟩ := h
  obtain ⟨w, hw, -⟩ := hcovered v hv hne
  refine ⟨w, hw, AllValid.mergeWith henv.values hother.values hjoin habsent k w hw,
    fun u hu hne => ?_⟩
  obtain ⟨w', hw', hle⟩ := hcovered u hu hne
  obtain rfl := Option.some.inj (hw.symm.trans hw')
  exact hle

variable (hkeys : InstanceKey.JoinOn known)
variable (habsent' : ∀ {k k'} v, known k → known k' → Key.same k k' = true →
  absent k v = absent k' v)

section Uncontested

variable (henv' : env'.Within known valid) (hother' : other'.Within known valid)
include hjoin habsent henv hother henv' hother'

/-- Two merges of the same agree on a key that neither side binds and that is not contested,
provided that an unknown value comes late in the second merge if none can come early in the first
one. -/
theorem MergeAlike.get?_mergeWith_of_free (halike : MergeAlike env other env' other' k)
    (hfree : env.contains k = false) (hfree' : other.contains k = false)
    (hlate : ¬MixesOnce env other k → ¬MixesOnce other env k →
      ∃ before v after, landings env' other' k = before ++ v :: after ∧
        v ≠ AbstractValue.unknown ∧ AbstractValue.unknown ∈ after)
    (hcontested : ¬Contested valid env other k) :
    (env.mergeWith other absent).get? k = (env'.mergeWith other' absent).get? k := by
  have hfrees : env'.contains k = false ∧ other'.contains k = false := by
    have h : ¬(env.contains k = true ∨ other.contains k = true) := by simp [hfree, hfree']
    rw [halike.contains] at h
    simpa [not_or] using h
  by_cases hknown : ∃ v, Lands env other k v ∧ v ≠ AbstractValue.unknown
  · obtain ⟨w, hw, hvalid, habove⟩ := exists_get?_mergeWith_above hjoin habsent henv hother hknown
    obtain ⟨w', hw', hvalid', habove'⟩ := exists_get?_mergeWith_above hjoin habsent henv' hother'
      (by simpa only [halike.lands] using hknown)
    simp only [← halike.lands] at habove'
    by_cases hbounded : ∃ bound, valid bound ∧ bound ≠ AbstractValue.unknown ∧
        ∀ v, Lands env other k v → v ≠ AbstractValue.unknown → AbstractValue.subset v bound = true
    · by_cases hunknown : Lands env other k AbstractValue.unknown
      · -- Unknown values come late in all orders.
        have honce : ¬(MixesOnce env other k ∨ MixesOnce other env k) := fun honce =>
          hcontested ⟨hfree, hfree', hunknown, hknown, hbounded, honce⟩
        obtain ⟨honce, honce'⟩ := not_or.1 honce
        rw [get?_mergeWith_of_unknown_after hjoin henv hother hfree hfree'
          (exists_unknown_after honce (.refl _) (.refl _)),
          get?_mergeWith_of_unknown_after hjoin henv' hother' hfrees.1 hfrees.2
            (hlate honce honce')]
      · -- Both values are the least one above what the pairs merge to.
        have hne : ∀ {u}, Lands env other k u → u ≠ AbstractValue.unknown := by
          rintro u hu rfl
          exact hunknown hu
        have hle := get?_mergeWith_subset_of_free hjoin henv hother hfree hfree' hunknown hvalid'
          (fun u hu => habove' u hu (hne hu)) hw
        have hge := get?_mergeWith_subset_of_free hjoin henv' hother' hfrees.1 hfrees.2
          (by rwa [← halike.lands]) hvalid
          (by simpa only [← halike.lands] using fun u hu => habove u hu (hne hu)) hw'
        rw [hw, hw', hjoin.subset_antisymm hvalid hvalid' hle hge]
    · -- Nothing but the unknown value is above all that the pairs merge to.
      have honly : ∀ u, valid u → (∀ v, Lands env other k v → v ≠ AbstractValue.unknown →
          AbstractValue.subset v u = true) → u = AbstractValue.unknown := by
        intro u hu hle
        by_contra hne
        exact hbounded ⟨u, hu, hne, hle⟩
      rw [hw, hw', honly w hvalid habove, honly w' hvalid' habove']
  · have hall : ∀ v, Lands env other k v → v = AbstractValue.unknown := by simpa using hknown
    rw [get?_mergeWith_eq_none hfree hfree' hall,
      get?_mergeWith_eq_none hfrees.1 hfrees.2 fun v hv => hall v ((halike.lands v).2 hv)]

include hkeys habsent'

/-- Two merges of the same have the same bindings if no key is contested. -/
theorem MergeAlike.sameBindings_mergeWith (halike : ∀ k, MergeAlike env other env' other' k)
    (hlate : ∀ k, ¬MixesOnce env other k → ¬MixesOnce other env k →
      ∃ before v after, landings env' other' k = before ++ v :: after ∧
        v ≠ AbstractValue.unknown ∧ AbstractValue.unknown ∈ after)
    (hcontested : ∀ k, ¬Contested valid env other k) :
    SameBindings (env.mergeWith other absent) (env'.mergeWith other' absent) := by
  have hmerged := henv.mergeWith hkeys hjoin habsent hother
  have hmerged' := henv'.mergeWith hkeys hjoin habsent hother'
  refine sameBindings_of_known hmerged.keys hmerged'.keys fun k hk => ?_
  by_cases hcontains : env.contains k = true ∨ other.contains k = true
  · exact (halike k).get?_mergeWith hkeys hjoin habsent henv hother henv' hother' habsent' hk
      hcontains
  · rw [not_or, Bool.not_eq_true, Bool.not_eq_true] at hcontains
    exact (halike k).get?_mergeWith_of_free hjoin habsent henv hother henv' hother' hcontains.1
      hcontains.2 (hlate k) (hcontested k)

end Uncontested

include hkeys hcomm hjoin habsent habsent' henv hother

/-- **A merge does not depend on the order exactly if no key is contested.** -/
theorem orderFree_iff : OrderFree (fun a b => a.mergeWith b absent) env other ↔
    ∀ k, ¬Contested valid env other k := by
  constructor
  · intro h k hcontested
    rcases hcontested.once with honce | honce
    · obtain ⟨env₁, other₁, env₂, other₂, ⟨h₁, h₁'⟩, ⟨h₂, h₂'⟩, hne⟩ :=
        hcontested.exists_orders_differ hjoin henv hother absent honce
      exact hne (((h env₁ other₁ h₁ h₁').1 k).trans ((h env₂ other₂ h₂ h₂').1 k).symm)
    · have hswapped := hcontested.swap hcomm hjoin henv.values hother.values
      obtain ⟨other₁, env₁, other₂, env₂, ⟨h₁', h₁⟩, ⟨h₂', h₂⟩, hne⟩ :=
        hswapped.exists_orders_differ hjoin hother henv absent honce
      exact hne (((h env₁ other₁ h₁ h₁').2 k).trans ((h env₂ other₂ h₂ h₂').2 k).symm)
  · intro hcontested env' other' hperm hperm'
    have henv' := henv.perm hperm
    have hother' := hother.perm hperm'
    have halike := SameBindings.mergeAlike hkeys henv hother henv' hother'
      (sameBindings_of_perm hperm).symm (sameBindings_of_perm hperm').symm
    constructor
    · exact (MergeAlike.sameBindings_mergeWith hjoin habsent henv hother hkeys habsent'
        henv' hother' halike (fun k honce _ => exists_unknown_after honce hperm hperm')
        hcontested).symm
    · have hswap := mergeAlike_swap hcomm hjoin hother'.values henv'.values
      exact (MergeAlike.sameBindings_mergeWith hjoin habsent henv hother hkeys habsent'
        hother' henv' (fun k => (halike k).trans (hswap k))
        (fun k _ honce => exists_unknown_after honce hperm' hperm) hcontested).symm

end OrderFree
end Environment
end HeapFlow
