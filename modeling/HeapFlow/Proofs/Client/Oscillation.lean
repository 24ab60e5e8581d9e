import HeapFlow.Proofs.Client.Alternatives
import HeapFlow.Proofs.Solver.Recurrence

/-! # A loop that does not become stable

For the points-to analysis to become stable it does not suffice that all references to a storage
location carry the same static type.  The elements of two arrays may have different types, and where
states meet they are covered by one key, which has the type of one of them: the one whose bindings
are taken up last.  With the type of the one array the element keeps referring to nothing when an
element is assigned to that may be the same, and with the type of the other it may refer to anything
then.

So the state at the end of a block depends on the order of the bindings at its start.  From the
third visit on, the loop below starts from the same bindings on each visit, but in another order,
and its exit state changes all the time.  Widening does not help (`Routine.arrayLoop_never_stable`).
-/
namespace HeapFlow
namespace Routine

open PointsToAnalysis

/-- A parameter that is an array of objects. -/
def nodesParameter : Symbol := .parameter ⟨1⟩ "nodes" 0 .byValue (.reference "Node[]")

/-- A parameter that is an array of numbers. -/
def numbersParameter : Symbol := .parameter ⟨2⟩ "numbers" 1 .byValue (.reference "int[]")

/-- A variable that refers to one of the two arrays. -/
def eitherArray : Symbol := .localVariable ⟨3⟩ "either" (.reference "Array")

/-- A reference to the parameter. -/
def parameterUse (id : UInt32) (parameter : Symbol) : Operation :=
  typedOperation id parameter.type (.parameterReference parameter)

/-- A conversion that keeps the identity of what is referred to. -/
def converted (id : UInt32) (type : StaticType) (operand : Operation) : Operation :=
  typedOperation id type (.conversion operand .reference)

/-- A condition of which nothing is known. -/
def condition (id : UInt32) : Operation := typedOperation id (.value "bool") .literal

/-- The choice of one of the two arrays. -/
def eitherDeclaration : Operation :=
  typedOperation 1 eitherArray.type (.variableDeclarator eitherArray
    (some (typedOperation 2 eitherArray.type (.conditional (condition 3)
      (converted 4 eitherArray.type (parameterUse 5 nodesParameter))
      (some (converted 6 eitherArray.type (parameterUse 7 numbersParameter)))))))

/-- An assignment of a constant to the first element of an array. -/
def firstAssignment (id : UInt32) (array : Operation) (type : StaticType) (constant : Constant) :
    Operation :=
  typedOperation id type (.simpleAssignment
    (typedOperation (id + 1) type (.arrayElementReference array
      [typedConstant (id + 2) (.value "int") (.int 0)])) (typedConstant (id + 3) type constant))

/-- An assignment of a number. -/
def numberAssignment (id : UInt32) : Operation :=
  firstAssignment id (parameterUse (id + 4) numbersParameter) (.value "int") (.int 5)

/-- An assignment to the array that was chosen, as an array of objects.  If it is the array of
numbers, the conversion fails before an element is referred to. -/
def eitherAssignment : Operation :=
  firstAssignment 20 (converted 24 nodesParameter.type
    (typedOperation 25 eitherArray.type (.localReference eitherArray))) (.reference "Node") .null

/-- A choice without effects, where the state meets itself. -/
def meeting : Operation :=
  typedOperation 30 (.value "bool") (.conditional (condition 31) (condition 32)
    (some (condition 33)))

/-- A routine that assigns to the first elements of the arrays in a loop.  It refers to elements of
the array of objects as objects only, and to elements of the array of numbers as numbers only. -/
def arrayLoop : Routine where
  name := ""
  containingType? := none
  parameters := [nodesParameter, numbersParameter]
  returnType := .void
  graph := ⟨[⟨⟨0⟩, [eitherDeclaration, numberAssignment 10], none, [.always ⟨1⟩]⟩,
    ⟨⟨1⟩, [eitherAssignment, meeting, numberAssignment 40], none, [.always ⟨1⟩]⟩,
    ⟨⟨2⟩, [], none, []⟩], by simp⟩

/-- Loops are widened on their second visit. -/
def widenEarly : Options := { widenAfter := 0 }

/-- The bindings before and after a visit, and where it goes on to. -/
def listing (visited : BlockId × Visit PointsToState) :
    BlockId × List (Entity × PointsTo) × List (Entity × PointsTo) × List BlockId :=
  (visited.1, visited.2.entry.entries, visited.2.exit.entries, visited.2.successors)

theorem listing_injective : Function.Injective listing := by
  rintro ⟨id, entry, exit, successors⟩ ⟨id', entry', exit', successors'⟩ h
  obtain ⟨hid, hentry, hexit, hsuccessors⟩ : id = id' ∧ entry.entries = entry'.entries ∧
      exit.entries = exit'.entries ∧ successors = successors' := by simpa [listing] using h
  rw [hid, Environment.eq_of_entries hentry, Environment.eq_of_entries hexit, hsuccessors]

/-- After the sixth step the loop is where it was after the fourth one. -/
theorem arrayLoop_circles : pointsToAnalysis.Circles arrayLoop widenEarly 4 6 where
  lt := by decide
  single := by decide +kernel
  overruns := by decide +kernel
  resembles := {
    routine := (pointsToAnalysis.machine_stateAfter arrayLoop widenEarly 6).1.trans
      (pointsToAnalysis.machine_stateAfter arrayLoop widenEarly 4).1.symm
    values := Environment.eq_of_entries (by decide +kernel)
    creations := (pointsToAnalysis.machine_stateAfter arrayLoop widenEarly 6).2.trans
      (pointsToAnalysis.machine_stateAfter arrayLoop widenEarly 4).2.symm
    pending := by decide +kernel
    visits := Environment.eq_of_entries
      (listing_injective.list_map (by decide +kernel))
    turns := fun id => by simp [widenEarly] }

/-- The storage that comes up: the variables, and the first elements of the array of numbers and of
the array that was chosen. -/
def loopStorage : List Entity :=
  [.ofParameter nodesParameter, .ofParameter numbersParameter, .ofLocal eitherArray,
    .ofStorage ⟨.element [.constant 0], .value "int", .ofLocation (.referent numbersParameter)⟩,
    .ofStorage ⟨.element [.constant 0], .reference "Node",
      (PointsTo.ofLocation (.referent nodesParameter)).merge
        (.ofLocation (.referent numbersParameter))⟩]

theorem mem_loopStorage {limit : Nat} {e : Entity}
    (h : arrayLoop.DenotesAtTimes (widenEarly.withLimit limit) e) : e ∈ loopStorage := by
  obtain ⟨⟨operation, n⟩, hinterprets, m, hm, node, hnode, hdenoted⟩ := h
  obtain ⟨step, hstep, ⟨found, n'⟩, hfound, rfl, hframe⟩ :=
    arrayLoop_circles.exists_evaluation hinterprets
  have hall : ∀ step < 6, ∀ part ∈ pointsToAnalysis.evaluationsAt arrayLoop widenEarly step,
      ∀ m ∈ [part.2, (outcome (pointsToAnalysis.evaluate part.1) part.2).2],
        ∀ node ∈ arrayLoop.nodes,
          ∀ e ∈ pointsToAnalysis.denoted? m.toFrame node, e ∈ loopStorage := by
    decide +kernel
  have hlisted := hall step hstep _ hfound
  rcases List.mem_cons.1 hm with rfl | hm
  · exact hlisted n' List.mem_cons_self node hnode e (hframe ▸ hdenoted)
  · obtain rfl := List.mem_singleton.1 hm
    have hafter := pointsToAnalysis.toFrame_evaluate found hframe
    exact hlisted _ (List.mem_cons_of_mem _ List.mem_cons_self) node hnode e (hafter ▸ hdenoted)

theorem arrayLoop_hasTypedLocations (limit : Nat) :
    arrayLoop.HasTypedLocations (widenEarly.withLimit limit) := by
  have hall : ∀ e ∈ loopStorage, ∀ e' ∈ loopStorage, e.same e' = true → e.type = e'.type := by
    decide
  exact fun e e' he he' => hall e (mem_loopStorage he) e' (mem_loopStorage he')

/-- **Widening need not force a loop to become stable**, even if all references to a storage
location carry the same static type. -/
theorem arrayLoop_never_stable :
    ¬∀ (routine : Routine) (options : Options), routine.graph.AnchorsCycles →
      (∀ limit, routine.HasTypedLocations (options.withLimit limit)) →
        routine.HasEnclosedReceivers → ∃ bound, ∀ limit, bound ≤ limit →
          (routine.analyze (options.withLimit limit)).flow.reachedLimit = false := by
  intro h
  have hcycles : arrayLoop.graph.AnchorsCycles :=
    ControlFlowGraph.anchorsCycles_of_leads (by decide)
  obtain ⟨bound, hbound⟩ := h arrayLoop widenEarly hcycles arrayLoop_hasTypedLocations (by decide)
  have hstable : (pointsToAnalysis.solve arrayLoop (widenEarly.withLimit bound)).reachedLimit =
      false := hbound bound le_rfl
  rw [arrayLoop_circles.reachedLimit bound] at hstable
  cases hstable

end Routine
end HeapFlow
