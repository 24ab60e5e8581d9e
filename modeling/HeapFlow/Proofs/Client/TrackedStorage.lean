import HeapFlow.Proofs.Entity.Reference
import HeapFlow.Proofs.Interpreter.Comparison
import Mathlib.Data.Finite.Prod

/-! # The storage that an analysis tracks

A body mentions finitely many locations (`Routine.locations`), and there are finitely many values
over them.  The storage that its operations denote, if references refer to such values, is finite
as well (`Routine.finite_mentions`), and so is what merging makes of it by merging owners
(`Routine.finite_tracks`).

The type of storage is not part of its identity, and in a body whose references contradict each
other the copying of data depends on the reference that has been evaluated last.  If all references
to storage agree on whether its data is copied (`Routine.HasConsistentTypes`), then so does all
tracked storage (`Routine.Tracks.isCopied_eq`).
-/
namespace HeapFlow
namespace Routine

variable (routine : Routine)

/-- The locations that the operations of a body and the signature of the routine mention. -/
def locations : List Location :=
  (routine.nodes.flatMap fun operation =>
    [.creation operation.id operation.typeOrUnknown, .creation operation.id operation.resultType] ++
      match operation.form with
      | .parameterReference symbol => [.referent symbol]
      | _ => []) ++
    routine.parameters.map .referent ++ routine.containingType?.toList.map .self

/-- The values over these locations. -/
def Refers (value : PointsTo) : Prop := value.Over {l | l ∈ routine.locations}

/-- The storage that a body mentions, if references refer to values over its locations. -/
inductive Mentions : Entity → Prop
  | denoted {operation : Operation} {value : PointsTo} {e : Entity}
    (hmem : operation ∈ routine.nodes) (hvalue : routine.Refers value)
    (he : operation.denoted? routine.self? (fun _ => value) = some e) : Mentions e
  | declared {operation : Operation} {symbol : Symbol} (hmem : operation ∈ routine.nodes)
    (h : operation.declared? = some symbol) : Mentions (.ofLocal symbol)
  | parameter {symbol : Symbol} (hmem : symbol ∈ routine.parameters) :
    Mentions (.ofParameter symbol)
  | self {e : Entity} (h : routine.self? = some e) : Mentions e
  | result : Mentions (.ofResult routine.returnType)

/-- The storage that is tracked: what the body mentions, and what merging owners makes of it. -/
def Tracks (e : Entity) : Prop :=
  ∃ mentioned owner, routine.Mentions mentioned ∧ routine.Refers owner ∧
    e = { mentioned with owner }

/-- All references to a storage location agree on whether its data is copied.  Merging joins the
locations of different instances, so that the references have to agree whatever their instances
refer to: it is not enough that they agree for each instance (`HasTypedLocations`). -/
def HasConsistentTypes : Prop :=
  ∀ reference ∈ routine.nodes, ∀ reference' ∈ routine.nodes,
    ∀ (ownerOf ownerOf' : Operation → PointsTo) (e e' : Entity),
      reference.denoted? routine.self? ownerOf = some e →
        reference'.denoted? routine.self? ownerOf' = some e' → e.same e' = true →
          e.isCopied = e'.isCopied

variable {routine}

/-! ## Values -/

theorem refers_creation {operation : Operation} (h : operation ∈ routine.nodes) :
    routine.Refers (.ofLocation (.creation operation.id operation.typeOrUnknown)) := by
  refine PointsTo.over_ofLocation (List.mem_append_left _ (List.mem_append_left _ ?_))
  exact List.mem_flatMap.2 ⟨operation, h, List.mem_append_left _ List.mem_cons_self⟩

theorem refers_result {operation : Operation} (h : operation ∈ routine.nodes) :
    routine.Refers (.ofLocation (.creation operation.id operation.resultType)) := by
  refine PointsTo.over_ofLocation (List.mem_append_left _ (List.mem_append_left _ ?_))
  exact List.mem_flatMap.2
    ⟨operation, h, List.mem_append_left _ (List.mem_cons_of_mem _ List.mem_cons_self)⟩

theorem refers_referent_of_reference {operation : Operation} {symbol : Symbol}
    (h : operation ∈ routine.nodes) (hform : operation.form = .parameterReference symbol) :
    routine.Refers (.ofLocation (.referent symbol)) := by
  refine PointsTo.over_ofLocation (List.mem_append_left _ (List.mem_append_left _ ?_))
  exact List.mem_flatMap.2 ⟨operation, h, List.mem_append_right _ (by simp [hform])⟩

theorem refers_referent_of_parameter {symbol : Symbol} (h : symbol ∈ routine.parameters) :
    routine.Refers (.ofLocation (.referent symbol)) :=
  PointsTo.over_ofLocation
    (List.mem_append_left _ (List.mem_append_right _ (List.mem_map_of_mem h)))

theorem refers_selfValue : routine.Refers routine.selfValue := by
  unfold selfValue
  split
  · next type htype =>
    refine PointsTo.over_ofLocation (List.mem_append_right _ ?_)
    simp [htype]
  · exact PointsTo.over_undefined

theorem self?_eq_some {e : Entity} (h : routine.self? = some e) :
    e.place = .self ∧ e.enclosing = [] ∧ e.owner = routine.selfValue := by
  obtain ⟨type, -, rfl⟩ := Option.map_eq_some_iff.1 h
  exact ⟨rfl, rfl, rfl⟩

/-! ## Mentioned storage -/

namespace Mentions

variable {a b e : Entity}

theorem owner (h : routine.Mentions e) : routine.Refers e.owner := by
  cases h with
  | denoted hmem hvalue he =>
    cases Operation.denotesBy_of_denoted? he with
    | self h =>
      rw [(self?_eq_some h).2.2]
      exact refers_selfValue
    | selfMember symbol h =>
      show routine.Refers _
      rw [(self?_eq_some h).2.2]
      exact refers_selfValue
    | owned _ _ howner =>
      rw [howner] at hvalue
      exact hvalue
    | _ => exact PointsTo.over_noLocation
  | self h =>
    rw [(self?_eq_some h).2.2]
    exact refers_selfValue
  | _ => exact PointsTo.over_noLocation

/-- Storage that is named by a symbol has the type of the symbol. -/
theorem type_eq (h : routine.Mentions e) {symbol : Symbol} (hsymbol : e.symbol? = some symbol) :
    e.type = symbol.type := by
  have hself : ∀ {e : Entity}, routine.self? = some e → e.symbol? ≠ some symbol := by
    intro e h hsymbol
    rw [Entity.symbol?, (self?_eq_some h).1] at hsymbol
    cases hsymbol
  have hselected : ∀ {operation object : Operation} {place : Place} {type : StaticType},
      operation.selected? = some (object, place, type) → place.symbol? = some symbol →
        type = symbol.type := by
    intro operation object place type hselected hplace
    rcases Operation.place_of_selected hselected with ⟨member, rfl, rfl⟩ | ⟨indices, rfl⟩
    · rw [Option.some.inj hplace]
    · cases hplace
  cases h with
  | denoted hmem hvalue he =>
    cases Operation.denotesBy_of_denoted? he with
    | self h => exact absurd hsymbol (hself h)
    | capture id type => cases hsymbol
    | owned h _ _ => exact hselected h hsymbol
    | part h _ => exact hselected h hsymbol
    | _ =>
      obtain rfl := Option.some.inj hsymbol
      rfl
  | self h => exact absurd hsymbol (hself h)
  | result => cases hsymbol
  | _ =>
    obtain rfl := Option.some.inj hsymbol
    rfl

/-- Storage that is part of other storage has no owner of its own. -/
theorem owner_of_enclosing (h : routine.Mentions e) (henclosing : e.enclosing ≠ []) :
    e.owner = .noLocation := by
  cases h with
  | denoted hmem hvalue he =>
    cases Operation.denotesBy_of_denoted? he with
    | self h => exact absurd (self?_eq_some h).2.1 henclosing
    | part => rfl
    | _ => exact absurd rfl henclosing
  | self h => exact absurd (self?_eq_some h).2.1 henclosing
  | _ => exact absurd rfl henclosing

/-- Mentioned storage that is not selected from an instance. -/
theorem eq_of_not_selector (h : routine.Mentions e) (hplace : e.place.isSelector = false) :
    routine.self? = some e ∨ (∃ symbol, e = .ofLocal symbol) ∨
      (∃ symbol, e = .ofParameter symbol ∧ routine.Refers (.ofLocation (.referent symbol))) ∨
        (∃ id type, e = .ofCapture id type) ∨ e = .ofResult routine.returnType := by
  cases h with
  | denoted hmem hvalue he =>
    cases Operation.denotesBy_of_denoted? he with
    | self h => exact .inl h
    | localVariable symbol => exact .inr (.inl ⟨symbol, rfl⟩)
    | parameter symbol hform =>
      exact .inr (.inr (.inl ⟨symbol, rfl, refers_referent_of_reference hmem hform⟩))
    | capture id type => exact .inr (.inr (.inr (.inl ⟨id, type, rfl⟩)))
    | staticMember | selfMember => cases hplace
    | owned h _ _ | part h _ =>
      rcases Operation.place_of_selected h with ⟨member, rfl, -⟩ | ⟨indices, rfl⟩ <;> cases hplace
  | declared => exact .inr (.inl ⟨_, rfl⟩)
  | parameter hmem => exact .inr (.inr (.inl ⟨_, rfl, refers_referent_of_parameter hmem⟩))
  | self h => exact .inl h
  | result => exact .inr (.inr (.inr (.inr rfl)))

theorem self?_of_place (h : routine.Mentions e) (hplace : e.place = .self) :
    routine.self? = some e := by
  rcases h.eq_of_not_selector (by rw [hplace]; rfl) with
    h | ⟨symbol, rfl⟩ | ⟨symbol, rfl, -⟩ | ⟨id, type, rfl⟩ | rfl
  · exact h
  all_goals cases hplace

theorem eq_of_result (h : routine.Mentions e) (hplace : e.place = .result) :
    e = .ofResult routine.returnType := by
  rcases h.eq_of_not_selector (by rw [hplace]; rfl) with
    h | ⟨symbol, rfl⟩ | ⟨symbol, rfl, -⟩ | ⟨id, type, rfl⟩ | rfl
  · simp [(self?_eq_some h).1] at hplace
  · cases hplace
  · cases hplace
  · cases hplace
  · rfl

/-- A parameter refers to an object on entry, which is among the locations. -/
theorem refers_of_parameter (h : routine.Mentions e) {symbol : Symbol}
    (hplace : e.place = .parameter symbol) :
    routine.Refers (.ofLocation (.referent symbol)) := by
  rcases h.eq_of_not_selector (by rw [hplace]; rfl) with
    h | ⟨symbol, rfl⟩ | ⟨symbol, rfl, hrefers⟩ | ⟨id, type, rfl⟩ | rfl
  · simp [(self?_eq_some h).1] at hplace
  · cases hplace
  · cases hplace
    exact hrefers
  all_goals cases hplace

theorem owner_of_capture (h : routine.Mentions e) {id : CaptureId}
    (hplace : e.place = .capture id) : e.owner = .noLocation := by
  rcases h.eq_of_not_selector (by rw [hplace]; rfl) with
    h | ⟨symbol, rfl⟩ | ⟨symbol, rfl, -⟩ | ⟨id, type, rfl⟩ | rfl
  · simp [(self?_eq_some h).1] at hplace
  all_goals rfl

/-- Slots and elements that are not named by a symbol. -/
def IsUnnamed (e : Entity) : Prop :=
  (∃ id, e.place = .capture id) ∨ ∃ indices, e.place = .element indices

theorem exists_denoted (h : routine.Mentions e) (hplace : IsUnnamed e) :
    ∃ operation ∈ routine.nodes, ∃ value,
      operation.denoted? routine.self? (fun _ => value) = some e := by
  cases h with
  | denoted hmem hvalue he => exact ⟨_, hmem, _, he⟩
  | self h => simp [IsUnnamed, (self?_eq_some h).1] at hplace
  | declared | parameter | result =>
    rcases hplace with ⟨id, hplace⟩ | ⟨indices, hplace⟩ <;> cases hplace

theorem owner_of_element (h : routine.Mentions e) {indices : List Index}
    (hplace : e.place = .element indices) (henclosing : e.enclosing = []) :
    ∃ locations, e.owner = .known locations := by
  obtain ⟨operation, -, value, he⟩ := h.exists_denoted (.inr ⟨indices, hplace⟩)
  cases Operation.denotesBy_of_denoted? he with
  | self h => simp [(self?_eq_some h).1] at hplace
  | owned => exact ⟨_, rfl⟩
  | part => cases henclosing
  | _ => cases hplace

/-- A reference to a slot or an element may denote the storage of every other entity of the
family. -/
theorem denoted?_withOwner (ha : routine.Mentions a) (hfamily : a.family = b.family)
    (hunnamed : IsUnnamed b) {operation : Operation} {value : PointsTo}
    (hb : operation.denoted? routine.self? (fun _ => value) = some b) :
    ∃ ownerOf, operation.denoted? routine.self? ownerOf =
      some { b with owner := a.owner } := by
  obtain ⟨hplace, henclosing⟩ := Entity.family_eq_iff.1 hfamily
  have hlength : a.enclosing.length = b.enclosing.length := by
    simpa using congrArg List.length henclosing
  -- If the owners are the same, there is nothing to change.
  have hsame : a.owner = b.owner → ∃ ownerOf, operation.denoted? routine.self? ownerOf =
      some { b with owner := a.owner } := fun howner => ⟨fun _ => value, by rw [howner, hb]⟩
  cases Operation.denotesBy_of_denoted? hb with
  | self h => simp [IsUnnamed, (self?_eq_some h).1] at hunnamed
  | capture id type => exact hsame (ha.owner_of_capture hplace)
  | @owned object place type locations hselected hobject howner =>
    rcases Operation.place_of_selected hselected with ⟨member, rfl, -⟩ | ⟨indices, rfl⟩
    · rcases hunnamed with ⟨id, h⟩ | ⟨indices, h⟩ <;> cases h
    · obtain ⟨locations', howner'⟩ :=
        ha.owner_of_element hplace (List.length_eq_zero_iff.1 hlength)
      refine ⟨fun _ => .known locations', ?_⟩
      rw [Operation.denoted?_of_selected hselected, hobject, if_neg Bool.false_ne_true, howner']
      rfl
  | part _ _ =>
    refine hsame (ha.owner_of_enclosing fun hnil => ?_)
    rw [hnil] at hlength
    cases hlength
  | _ => rcases hunnamed with ⟨id, h⟩ | ⟨indices, h⟩ <;> cases h

/-- **Mentioned storage of one family agrees on whether its data is copied.** -/
theorem isCopied_eq (htypes : routine.HasConsistentTypes) (ha : routine.Mentions a)
    (hb : routine.Mentions b) (hfamily : a.family = b.family) : a.isCopied = b.isCopied := by
  have hplace := (Entity.family_eq_iff.1 hfamily).1
  have hunnamed : IsUnnamed a → a.isCopied = b.isCopied := by
    intro hname
    have hname' : IsUnnamed b := by
      unfold IsUnnamed
      rwa [← hplace]
    obtain ⟨operation, hmem, value, hdenoted⟩ := ha.exists_denoted hname
    obtain ⟨operation', hmem', value', hdenoted'⟩ := hb.exists_denoted hname'
    obtain ⟨ownerOf, hdenoted'⟩ := ha.denoted?_withOwner hfamily hname' hdenoted'
    have hsame : a.same { b with owner := a.owner } = true :=
      Entity.same_iff_family.2 ⟨hfamily, rfl⟩
    have hcopied : a.isCopied = ({ b with owner := a.owner } : Entity).isCopied :=
      htypes operation hmem operation' hmem' _ ownerOf a _ hdenoted hdenoted' hsame
    exact hcopied
  have hnamed : ∀ {symbol}, a.symbol? = some symbol → a.isCopied = b.isCopied := by
    intro symbol hsymbol
    have hsymbol' : b.symbol? = some symbol := by
      rwa [Entity.symbol?, ← hplace]
    unfold Entity.isCopied
    rw [ha.type_eq hsymbol, hb.type_eq hsymbol']
  cases hcase : a.place with
  | localVariable symbol | parameter symbol | member symbol =>
    exact hnamed (by rw [Entity.symbol?, hcase]; rfl)
  | self =>
    have hself := ha.self?_of_place hcase
    rw [hb.self?_of_place (hplace ▸ hcase)] at hself
    rw [Option.some.inj hself]
  | result => rw [ha.eq_of_result hcase, hb.eq_of_result (hplace ▸ hcase)]
  | capture id => exact hunnamed (.inl ⟨id, hcase⟩)
  | element indices => exact hunnamed (.inr ⟨indices, hcase⟩)

end Mentions

/-! ## Tracked storage -/

namespace Tracks

variable {a b e : Entity}

theorem refers_owner (h : routine.Tracks e) : routine.Refers e.owner := by
  obtain ⟨mentioned, owner, -, howner, rfl⟩ := h
  exact howner

/-- Merging owners keeps storage tracked. -/
theorem withOwner (h : routine.Tracks e) {owner : PointsTo} (howner : routine.Refers owner) :
    routine.Tracks { e with owner } := by
  obtain ⟨mentioned, -, hmentioned, -, rfl⟩ := h
  exact ⟨mentioned, owner, hmentioned, howner, rfl⟩

/-- **Tracked storage of one family agrees on whether its data is copied.** -/
theorem isCopied_eq_of_family (htypes : routine.HasConsistentTypes) (ha : routine.Tracks a)
    (hb : routine.Tracks b) (hfamily : a.family = b.family) : a.isCopied = b.isCopied := by
  obtain ⟨mentioned, owner, hmentioned, -, rfl⟩ := ha
  obtain ⟨mentioned', owner', hmentioned', -, rfl⟩ := hb
  have hcopied : mentioned.isCopied = mentioned'.isCopied :=
    hmentioned.isCopied_eq htypes hmentioned' hfamily
  exact hcopied

theorem isCopied_eq (htypes : routine.HasConsistentTypes) (ha : routine.Tracks a)
    (hb : routine.Tracks b) (hsame : a.same b = true) : a.isCopied = b.isCopied :=
  ha.isCopied_eq_of_family htypes hb (Entity.same_iff_family.1 hsame).1

end Tracks

theorem Mentions.tracks {e : Entity} (h : routine.Mentions e) : routine.Tracks e :=
  ⟨e, e.owner, h, h.owner, rfl⟩

variable (routine) in
theorem finite_refers : {value | routine.Refers value}.Finite :=
  PointsTo.finite_over routine.locations.finite_toSet

variable (routine) in
/-- A body mentions finitely much storage. -/
theorem finite_mentions : {e | routine.Mentions e}.Finite := by
  have hdenoted : {e | ∃ operation ∈ routine.nodes, ∃ value, routine.Refers value ∧
      operation.denoted? routine.self? (fun _ => value) = some e}.Finite := by
    have himage := Set.Finite.image2
      (fun (operation : Operation) value => operation.denoted? routine.self? fun _ => value)
      routine.nodes.finite_toSet routine.finite_refers
    refine (himage.preimage (Option.some_injective _).injOn).subset ?_
    rintro e ⟨operation, hmem, value, hvalue, he⟩
    exact ⟨operation, hmem, value, hvalue, he⟩
  have hlisted : {e | e ∈ (routine.nodes.filterMap Operation.declared?).map Entity.ofLocal ++
      routine.parameters.map Entity.ofParameter ++ routine.self?.toList ++
        [Entity.ofResult routine.returnType]}.Finite := List.finite_toSet _
  refine (hdenoted.union hlisted).subset fun e he => ?_
  cases he with
  | denoted hmem hvalue he => exact .inl ⟨_, hmem, _, hvalue, he⟩
  | declared hmem h =>
    refine .inr ?_
    refine List.mem_append_left _ (List.mem_append_left _ (List.mem_append_left _ ?_))
    exact List.mem_map_of_mem (List.mem_filterMap.2 ⟨_, hmem, h⟩)
  | parameter hmem =>
    refine .inr (List.mem_append_left _ (List.mem_append_left _ (List.mem_append_right _ ?_)))
    exact List.mem_map_of_mem hmem
  | self h => exact .inr (List.mem_append_left _ (List.mem_append_right _ (by simp [h])))
  | result => exact .inr (List.mem_append_right _ List.mem_cons_self)

variable (routine) in
/-- **Finitely much storage is tracked.** -/
theorem finite_tracks : {e | routine.Tracks e}.Finite := by
  refine (Set.Finite.image2 (fun (mentioned : Entity) owner => { mentioned with owner })
    routine.finite_mentions routine.finite_refers).subset ?_
  rintro e ⟨mentioned, owner, hmentioned, howner, rfl⟩
  exact ⟨mentioned, hmentioned, owner, howner, rfl⟩

end Routine
end HeapFlow
