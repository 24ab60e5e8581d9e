import HeapFlow.Proofs.Wire.Operation
import HeapFlow.Wire.Routine

/-! # Routines are read back

A block is read back if its operations are, and a routine if its blocks are.  The blocks come with
the text that is read: a list without blocks is reported early, but no routine is written with one
(`Routine.lacksBlocks_leading`).  So a routine is read back from the text of its JSON form, unless
the arrays and objects of this form are nested too deep (`Routine.ofText_toText`).
-/
namespace HeapFlow

open Json (Access)

/-! ## Edges and blocks -/

namespace BlockId

@[simp] theorem plain_toJson (id : BlockId) : id.toJson.Plain := Json.plain_uint64 id.number

@[simp] theorem ofJson?_toJson (id : BlockId) : ofJson? id.toJson = some id := by
  rw [ofJson?, toJson, Json.uint64?_nat]
  rfl

end BlockId

@[simp] theorem EdgeCondition.choice?_name (access : Access) (condition : EdgeCondition) :
    Json.choice? access names (.text condition.name) = some condition := by
  cases condition <;> rfl

namespace Edge

@[simp] theorem plain_toJson (edge : Edge) : edge.toJson.Plain := by
  simp [toJson]

@[simp] theorem ofJson?_toJson (edge : Edge) : ofJson? edge.toJson = some edge := by
  simp -implicitDefEqProofs [ofJson?, toJson]

end Edge

namespace Block

@[simp] theorem plain_toJson (block : Block) : block.toJson.Plain := by
  simp [toJson]

theorem depth_operation_lt {block : Block} {operation : Operation}
    (h : operation ∈ block.operations) : operation.toJson.depth + 1 < block.toJson.depth := by
  have hoperation := Json.depth_lt_ofList Operation.toJson h
  have hoperations : (Json.ofList Operation.toJson block.operations).depth < block.toJson.depth :=
    Json.depth_lt_record "operations" (by simp)
  omega

theorem depth_branchValue_lt {block : Block} {operation : Operation}
    (h : block.branchValue? = some operation) : operation.toJson.depth < block.toJson.depth :=
  Json.depth_lt_record "branch_value" (by simp [h])

/-- A block is read back if there is room for its depth. -/
theorem ofJson?_toJson {block : Block} {outer : Nat}
    (h : block.toJson.depth + outer ≤ Json.depthLimit) :
    ofJson? outer block.toJson = some block := by
  have hoperations : Json.list? (Operation.ofJson? (outer + 2))
      (.ofList Operation.toJson block.operations) = some block.operations := by
    refine Json.list?_ofList fun operation hoperation => ?_
    have hlt := depth_operation_lt hoperation
    exact Operation.ofJson?_toJson (by omega)
  have hbranchValue : Json.option? (Operation.ofJson? (outer + 1))
      (.ofOption Operation.toJson block.branchValue?) = some block.branchValue? := by
    refine Json.option?_ofOption Operation.toJson_ne_null fun operation hoperation => ?_
    have hlt := depth_branchValue_lt hoperation
    exact Operation.ofJson?_toJson (by omega)
  simp -implicitDefEqProofs [ofJson?, toJson, hoperations, hbranchValue]

end Block

/-! ## Routines -/

@[simp] theorem ControlFlowGraph.ofBlocks?_blocks (graph : ControlFlowGraph) :
    ofBlocks? graph.blocks = some graph :=
  dif_neg graph.nonempty

namespace Routine

theorem plain_toJson (routine : Routine) : routine.toJson.Plain := by
  simp [toJson, ControlFlowGraph.toJson]

theorem depth_block_lt {routine : Routine} {block : Block} (h : block ∈ routine.graph.blocks) :
    block.toJson.depth + 1 < routine.toJson.depth := by
  have hblock := Json.depth_lt_ofList Block.toJson h
  have hblocks : routine.graph.toJson.depth < routine.toJson.depth :=
    Json.depth_lt_record "cfg" (by simp)
  exact Nat.lt_of_le_of_lt hblock hblocks

theorem blocksOfJson?_toJson {routine : Routine} (h : routine.toJson.depth ≤ Json.depthLimit) :
    blocksOfJson? routine.graph.toJson = some routine.graph.blocks := by
  refine Json.list?_ofList fun block hblock => ?_
  have hlt := depth_block_lt hblock
  exact Block.ofJson?_toJson (by omega)

theorem ofRecord?_toJson {routine : Routine} (h : routine.toJson.depth ≤ Json.depthLimit) :
    ofRecord? routine.toJson = some routine := by
  have hblocks := blocksOfJson?_toJson h
  simp -implicitDefEqProofs [ofRecord?, toJson, fields, hblocks]

/-- Members do not lack blocks if none of them is an empty list of blocks. -/
theorem membersLackBlocks_of_nonempty {given : List String}
    {members : List (Option String × Json)}
    (h : ∀ value, (some "cfg", value) ∈ members → isEmptyList value = false) :
    membersLackBlocks given members = false := by
  induction members generalizing given with
  | nil => rfl
  | cons member members ih =>
    have hmembers := fun value hvalue => h value (List.mem_cons_of_mem _ hvalue)
    obtain ⟨_ | name, value⟩ := member
    · rfl
    · rw [membersLackBlocks]
      split
      · rfl
      split
      · next hname =>
        obtain rfl := eq_of_beq hname
        exact h value List.mem_cons_self
      split
      · exact ih hmembers
      · rfl

theorem isEmptyList_toJson (graph : ControlFlowGraph) : isEmptyList graph.toJson = false := by
  obtain ⟨_ | ⟨block, blocks⟩, hnonempty⟩ := graph
  · exact absurd rfl hnonempty
  · rfl

/-- The list of blocks that a routine is written with is not empty. -/
theorem lacksBlocks_leading (routine : Routine) :
    lacksBlocks (Json.leading routine.toJson.toText) = false := by
  let members : List (Option String × Json) := [(some "name", .text routine.name),
    (some "containing_type", .ofOption StaticType.toJson routine.containingType?),
    (some "parameters", .ofList Symbol.toJson routine.parameters),
    (some "return_type", routine.returnType.toJson), (some "cfg", routine.graph.toJson)]
  have hproper : Json.membersAreProper members = true := routine.plain_toJson.isProper
  have hleading : Json.leading routine.toJson.toText = .members members :=
    Json.leading_toText_object hproper (List.cons_ne_nil _ _)
  rw [hleading]
  refine membersLackBlocks_of_nonempty fun value hvalue => ?_
  obtain rfl : value = routine.graph.toJson := by simpa [members] using hvalue
  exact isEmptyList_toJson routine.graph

/-- A routine is read back from its text, unless the arrays and objects in the text are nested
deeper than a text can be read. -/
theorem ofText_toText {routine : Routine} (h : routine.toJson.depth ≤ Json.depthLimit) :
    ofText routine.toJson.toText = .ok routine := by
  have hvalue : Json.ofText? routine.toJson.toText = some routine.toJson :=
    Json.ofText?_toText routine.plain_toJson.isProper
  have hread : Json.ofText? routine.toJson.toText >>= ofRecord? = some routine := by
    rw [hvalue]
    exact ofRecord?_toJson h
  rw [ofText, ofParts, lacksBlocks_leading, hread]
  rfl

/-- The routine that calls its parameter with a quotation mark and a control character, which have
to be escaped. -/
def quoting : Routine :=
  let callback : Symbol := .parameter ⟨0⟩ "callback" 0 .byValue (.reference "Callback")
  let quote := (Operation.ofForm ⟨1⟩ .literal).withConstant (.text "\"\x01")
  let call := Operation.ofForm ⟨2⟩
    (.invocation (.delegate (.ofForm ⟨0⟩ (.parameterReference callback))) none
      [⟨none, .byValue, quote⟩])
  ⟨"quote", none, [callback], .void,
    ⟨[⟨⟨0⟩, [call], none, [.always ⟨1⟩]⟩, ⟨⟨1⟩, [], none, []⟩], List.cons_ne_nil _ _⟩⟩

theorem ofText_quoting : quoting.toJson.depth ≤ Json.depthLimit ∧
    ofText quoting.toJson.toText = .ok quoting := by
  have hdepth : quoting.toJson.depth ≤ Json.depthLimit := by decide
  exact ⟨hdepth, ofText_toText hdepth⟩

end Routine
end HeapFlow
