import ActionTools.Catalog
import ActionTools.Scaffold.Basic
import ActionTools.Substitution

/-!
# The dispatch workflow

All tools of a catalog become one workflow. Its input is a dictionary with the name of a tool and
the parameters of a call. After a header that takes the name out of the input there is a branch for
each tool, entered when the name is the tool's. A branch copies each parameter into a variable of
its own, runs the template with these variables in the places of its references, and ends with the
encoded result.

Identifiers are drawn in the order of the actions that need one. `Dispatch.branchDemand` says how
many a branch draws, so each branch knows where its own begin, and no two draws coincide.
-/

namespace ActionTools.Dispatch

/-- The key of the input under which the name of the tool is. -/
def toolKey : String := "tool"

/-- The key of the input under which the parameters are. -/
def parametersKey : String := "params"

/-- The variable that carries a parameter of a tool. -/
def variableName (tool parameter : String) : String := s!"{tool}:{parameter}"

/-- The number of identifiers drawn for the header. -/
def headerDemand : Nat := 2

/-- The number of identifiers drawn for the branch of a tool. -/
def branchDemand (spec : Spec) : Nat := spec.metadata.paths.size + 4

/-- The number of identifiers drawn for a catalog. -/
def demand (catalog : Catalog) : Nat :=
  headerDemand + catalog.specs.foldr (fun tagged others ↦ branchDemand tagged.spec + others) 0

/-- The actions that copy one parameter from the input into its variable. -/
def copyParameter (inputId tool id parameter : String) : List Scaffold :=
  [.getValueForKey inputId (some parametersKey) parameter id,
    .setVariable id (variableName tool parameter)]

/-- The template of a tool with every reference naming the variable of its parameter. -/
def filledTemplate (spec : Spec) (id : String) : Except Failure Action :=
  let tool := spec.effectiveName
  let values := spec.metadata.paths.entries.map fun entry ↦
    (entry.2, Tree.string (variableName tool entry.1))
  match spec.metadata.template.tree.substituteAll values with
  | .error failure => .error failure
  | .ok filled =>
    let action := Action.ofTree spec.metadata.template.identifier filled
    .ok { action with parameters := action.parameters.set "UUID" (.string id) }

/-- The branch of a tool, its identifiers being those from number `first` on. -/
def branch (inputId toolId : String) (ids : IdSupply) (first : Nat) (spec : Spec) :
    Except Failure (List Action) :=
  let tool := spec.effectiveName
  let parameters := spec.metadata.paths.names
  let groupingId := ids first
  let instanceId := ids (first + parameters.length + 1)
  let encodedId := ids (first + parameters.length + 2)
  let endId := ids (first + parameters.length + 3)
  let copies := parameters.zipIdx.flatMap fun (parameter, position) ↦
    copyParameter inputId tool (ids (first + 1 + position)) parameter
  match filledTemplate spec instanceId with
  | .error failure => .error failure
  | .ok instanceAction =>
    .ok (Scaffold.action (.ifOutputEquals toolId tool groupingId) ::
      copies.map Scaffold.action ++
      [instanceAction, Scaffold.action (.base64Encode instanceId encodedId),
        Scaffold.action (.outputAndExit encodedId), Scaffold.action (.endIf endId groupingId)])

/-- The branches of several tools, one after the other. -/
def branches (inputId toolId : String) (ids : IdSupply) (first : Nat) :
    List TaggedSpec → Except Failure (List Action)
  | [] => .ok []
  | tagged :: rest =>
    match branch inputId toolId ids first tagged.spec with
    | .error failure => .error failure
    | .ok actions =>
      match branches inputId toolId ids (first + branchDemand tagged.spec) rest with
      | .error failure => .error failure
      | .ok others => .ok (actions ++ others)

/-- The actions before the branches. -/
def header (inputId toolId : String) (size : Nat) : List Action :=
  [Scaffold.action (.comment s!"Dispatches {size} tools"),
    Scaffold.action (.dictionaryInput inputId),
    Scaffold.action (.getValueForKey inputId none toolKey toolId)]

/-- The dispatch workflow of a catalog. -/
def workflow (catalog : Catalog) (ids : IdSupply) : Except Failure Workflow :=
  let inputId := ids 0
  let toolId := ids 1
  match branches inputId toolId ids headerDemand catalog.specs with
  | .error failure => .error failure
  | .ok actions =>
    .ok (Workflow.ofActions
      (header inputId toolId catalog.size ++ actions ++ [Scaffold.action .exit]))

end ActionTools.Dispatch
