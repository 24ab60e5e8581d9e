import HeapFlow.Client.PointsTo

/-! # Analysing sets of routines

The routines of a program are independent of each other.  If the options name a single routine, only
routines of that name are analysed.
-/
namespace HeapFlow
namespace RoutineSet

/-- True if a routine is to be analysed. -/
def isSelected (options : Options) (routine : Routine) : Bool :=
  match options.singleRoutine? with
  | some name => routine.name = name
  | none => true

/-- The results of the routines that are to be analysed, in the order of the routines. -/
def analyze (options : Options) (routines : List Routine) : List PointsToResult :=
  (routines.filter (isSelected options)).map (·.analyze options)

/-- What is logged about a result of a set of routines. -/
def logOf (options : Options) (result : PointsToResult) : List LogLine :=
  .info ("analyzing function " ++ result.flow.routineName) :: result.log options

/-- What is logged while a set of routines is analysed. -/
def log (options : Options) (results : List PointsToResult) : List LogLine :=
  results.flatMap (logOf options)

/-- The summaries by the names of the routines.  Of several routines of one name the last one
counts. -/
def summaries (results : List PointsToResult) : List (String × Summary) :=
  let named := results.map fun result => (result.flow.routineName, result.summary)
  (named.map (·.1)).eraseDups.filterMap fun name => named.reverse.find? (·.1 = name)

/-- The text that stands for the analysis of a set of routines in messages. -/
def briefText : String := "\"CrateVisitor\""

end RoutineSet
end HeapFlow
