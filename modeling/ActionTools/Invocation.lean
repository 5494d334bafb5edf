import ActionTools.Catalog
import ActionTools.Substitution

/-!
# Invocation

Calling a tool fills its template: each given parameter goes to the place of its reference. Before
that the parameters are checked against the tool. A parameter that has no place is reported first,
by the order in which the parameters are given; then a required parameter that is not given, by the
order of the names. An optional parameter that is not given keeps its reference.
-/

namespace ActionTools

namespace Spec

/-- Whether a parameter of the template has to be given. One that the generated definition does not
list has to be. -/
def isRequired (spec : Spec) (parameter : String) : Bool :=
  ((spec.definition.parameters.get? parameter).map ParameterSpec.required).getD true

/-- The first parameter given that has no place in the template. -/
def unknownParameter? (spec : Spec) (parameters : Mapping) : Option String :=
  parameters.keys.find? fun name ↦ !spec.metadata.paths.contains name

/-- The first required parameter that is not given. -/
def missingParameter? (spec : Spec) (parameters : Mapping) : Option String :=
  spec.metadata.paths.names.find? fun name ↦
    spec.isRequired name && (parameters.get? name).isNone

/-- The places to fill, with what is given for them. -/
def substitutions (spec : Spec) (parameters : Mapping) : List (Path × Tree) :=
  spec.metadata.paths.entries.filterMap fun entry ↦
    (parameters.get? entry.1).map fun value ↦ (entry.2, value)

/-- The action of one call of a tool. -/
def instantiate (spec : Spec) (parameters : Mapping) : Except Failure Action :=
  match spec.unknownParameter? parameters with
  | some name => .error (.unknownParameter spec.effectiveName name)
  | none =>
    match spec.missingParameter? parameters with
    | some name => .error (.missingParameter spec.effectiveName name)
    | none =>
      match spec.metadata.template.tree.substituteAll (spec.substitutions parameters) with
      | .ok filled => .ok (Action.ofTree spec.metadata.template.identifier filled)
      | .error failure => .error failure

end Spec

namespace Catalog

/-- The action of one call of a tool given by its effective name. -/
def invoke (catalog : Catalog) (name : String) (parameters : Mapping) : Except Failure Action :=
  match catalog.get name with
  | .ok tagged => tagged.spec.instantiate parameters
  | .error failure => .error failure

end Catalog

end ActionTools
