import HeapFlow.Proofs.Domain.PointsTo
import HeapFlow.Proofs.Wire.PointsTo
import HeapFlow.Wire.Summary
import Mathlib.Data.Set.Insert

/-! # How points-to values come about

Points-to values are made from locations, merged and widened, and read from documents, which hold a
value alone or as part of a summary (`PointsTo.Built`).  What is made from locations is well-formed.
A merge is one of the two values, or unknown, or made from the locations of both
(`PointsTo.merge_eq_or`), and widening gives one of the two values or unknown
(`PointsTo.widen_eq_or`).  So the values that can be built are the well-formed ones, of which
`noLocation` has to be read, and those that stand in the documents.  Reading does not check them, so
that any value whatever stands in some document (`PointsTo.built_iff`).
-/
namespace HeapFlow
namespace PointsTo

/-- One of the documents is read as the value, or as a summary that has the value. -/
inductive ReadFrom (documents : Set String) : PointsTo → Prop
  | alone {text : String} {value : PointsTo} (hdocument : text ∈ documents)
      (hread : Json.ofText? text >>= ofJson? = some value) : ReadFrom documents value
  | returned {text : String} {summary : Summary} {value : PointsTo} (hdocument : text ∈ documents)
      (hread : Summary.ofText? text = some summary) (hvalue : summary.returnValue? = some value) :
      ReadFrom documents value
  | parameter {text : String} {summary : Summary} {parameter : ParameterSummary}
      (hdocument : text ∈ documents) (hread : Summary.ofText? text = some summary)
      (hparameter : parameter ∈ summary.parameters) : ReadFrom documents parameter.value

/-- The value can be made from locations and from what is read from the documents. -/
inductive Built (documents : Set String) : PointsTo → Prop
  | ofLocations (locations : List Location) : Built documents (.ofLocations locations)
  | ofLocation (location : Location) : Built documents (.ofLocation location)
  | read {value : PointsTo} (h : ReadFrom documents value) : Built documents value
  | merge {a b : PointsTo} (ha : Built documents a) (hb : Built documents b) :
      Built documents (a.merge b)
  | widen {value previous : PointsTo} (hvalue : Built documents value)
      (hprevious : Built documents previous) : Built documents (value.widen previous)

/-- A merge is one of the two values, or unknown, or made from locations. -/
theorem merge_eq_or (a b : PointsTo) :
    a.merge b = a ∨ a.merge b = b ∨ a.merge b = .unknown ∨ ∃ set, a.merge b = ofSet set := by
  cases a with
  | undefined => exact .inr (.inl (undefined_merge b))
  | noLocation =>
    cases b with
    | undefined | noLocation => exact .inl rfl
    | known | unknown => exact .inr (.inr (.inl rfl))
  | known a =>
    cases b with
    | undefined => exact .inl rfl
    | noLocation | unknown => exact .inr (.inr (.inl rfl))
    | known b => exact .inr (.inr (.inr ⟨a.union b, rfl⟩))
  | unknown => exact .inl (unknown_merge b)

/-- A value that is widened stays the value, or is replaced by the previous one or by unknown. -/
theorem widen_eq_or (value previous : PointsTo) : value.widen previous = value ∨
    value.widen previous = previous ∨ value.widen previous = .unknown := by
  unfold widen
  split
  · exact .inl rfl
  · split
    · exact .inr (.inl rfl)
    · exact .inr (.inr rfl)

theorem ofSet_ne_noLocation (set : LocationSet) : ofSet set ≠ .noLocation := by
  unfold ofSet
  split
  · nofun
  · split <;> nofun

/-- A well-formed value with locations is made from them. -/
theorem ofLocations_toList {set : LocationSet} (h : (known set).WellFormed) :
    ofLocations set.toList = known set := by
  obtain ⟨hpos, hle⟩ := h
  rw [ofLocations, set.ofList_toList, ofSet, if_neg (Nat.ne_of_gt hpos), if_neg (Nat.not_lt.2 hle)]

section

variable {documents : Set String} {value : PointsTo}

/-- A value that can be built is well-formed or stands in a document. -/
theorem Built.wellFormed_or_readFrom (h : Built documents value) :
    value.WellFormed ∧ value ≠ .noLocation ∨ ReadFrom documents value := by
  have hset : ∀ set, (ofSet set).WellFormed ∧ ofSet set ≠ .noLocation ∨
      ReadFrom documents (ofSet set) := fun set =>
    .inl ⟨wellFormed_ofSet set, ofSet_ne_noLocation set⟩
  have hunknown : PointsTo.unknown.WellFormed ∧ PointsTo.unknown ≠ .noLocation ∨
      ReadFrom documents .unknown := .inl ⟨trivial, nofun⟩
  induction h with
  | ofLocations locations => exact hset (.ofList locations)
  | ofLocation location => exact hset (.singleton location)
  | read h => exact .inr h
  | @merge a b _ _ iha ihb =>
    rcases merge_eq_or a b with hmerge | hmerge | hmerge | ⟨set, hmerge⟩
    · rwa [hmerge]
    · rwa [hmerge]
    · rwa [hmerge]
    · rw [hmerge]
      exact hset set
  | @widen value previous _ _ ihvalue ihprevious =>
    rcases widen_eq_or value previous with hwiden | hwiden | hwiden
    · rwa [hwiden]
    · rwa [hwiden]
    · rwa [hwiden]

/-- A well-formed value can be built without documents, unless it is the value of data that is
copied. -/
theorem WellFormed.built (hvalue : value.WellFormed) (hlocation : value ≠ .noLocation) :
    Built documents value := by
  cases value with
  | undefined => exact .ofLocations []
  | noLocation => exact absurd rfl hlocation
  | known set =>
    rw [← ofLocations_toList hvalue]
    exact .ofLocations set.toList
  | unknown =>
    have hwiden : (ofLocation .null).widen (ofLocation (.self .void)) = .unknown := by decide
    rw [← hwiden]
    exact .widen (.ofLocation _) (.ofLocation _)

end

/-- A value stands in the document that is its JSON form. -/
theorem readFrom_toText (value : PointsTo) : ReadFrom {value.toJson.toText} value := by
  refine .alone (Set.mem_singleton _) ?_
  rw [Json.ofText?_toText value.plain_toJson.isProper]
  exact value.ofJson?_toJson

/-- **The values that can be built** from documents are the well-formed values other than
`noLocation` and the values that stand in the documents, and each value, well-formed or not, stands
in some document. -/
theorem built_iff (value : PointsTo) :
    (∀ documents, Built documents value ↔
      value.WellFormed ∧ value ≠ .noLocation ∨ ReadFrom documents value) ∧
    ReadFrom {value.toJson.toText} value := by
  refine ⟨fun documents => ⟨fun h => h.wellFormed_or_readFrom, ?_⟩, readFrom_toText value⟩
  rintro (⟨hvalue, hlocation⟩ | hread)
  · exact hvalue.built hlocation
  · exact .read hread

/-- The document that lists no locations. -/
def emptyListing : String := "\x7b\"Known\":[]\x7d"

theorem emptyListing_eq : emptyListing = (known .empty).toJson.toText := rfl

/-- **Reading does not check locations.**  The document that lists no locations is read as a known
value without locations. -/
theorem built_not_wellFormed :
    ¬∀ (documents : Set String) (value : PointsTo), Built documents value → value.WellFormed := by
  intro h
  have hread : ReadFrom {emptyListing} (known .empty) := by
    rw [emptyListing_eq]
    exact readFrom_toText (known .empty)
  have hvalid : (known .empty).WellFormed := h {emptyListing} _ (.read hread)
  exact absurd hvalid (by decide)

end PointsTo
end HeapFlow
