import ActionTools.Repository

/-!
# The scanning repository

`LinearRepository` is the repository without digests: a list of tools and a list of pending
overrides, in which equal actions and equal metadata are found by comparing one after the other. It
says what a repository is meant to do, and nothing about how it is found out.

A `Call` is one use of a repository, an `Answer` what the caller gets back; failing calls answer
too. `run` makes calls one after the other. Both repositories are driven by the same calls, so that
their answers can be compared.
-/

namespace ActionTools

/-! ### Calls -/

/-- One use of a repository. -/
inductive Call where
  /-- Add the tool of an action. -/
  | add (action : Action)
  /-- Register an override for metadata. -/
  | override (metadata : Metadata) (override : Override)
  /-- Register an override for the metadata of an action. -/
  | overrideFor (action : Action) (override : Override)
  /-- Register override entries. -/
  | register (entries : List OverrideEntry)
  /-- Add the actions of a workflow, on top of what has been counted so far. -/
  | workflow (skipScaffolding : Bool) (tally : Tally) (workflow : Workflow)

/-- What a use of a repository answers. -/
inductive Answer where
  /-- Whether the tool was added. -/
  | added (outcome : Except Failure Bool)
  /-- That the override is registered. -/
  | registered (outcome : Except Failure Unit)
  /-- How many overrides are registered. -/
  | counted (outcome : Except Failure Nat)
  /-- What became of the actions, and whether all of them were reached. -/
  | tallied (tally : Tally) (outcome : Except Failure Unit)

namespace Repository

variable {κ : Type} [BEq κ] [Hashable κ]

/-- One call: the repository after it, and the answer. -/
def call (repository : Repository κ) : Call → Repository κ × Answer
  | .add action =>
    match repository.add action with
    | .ok (next, inserted) => (next, .added (.ok inserted))
    | .error failure => (repository, .added (.error failure))
  | .override metadata override =>
    (repository.addOverride metadata override, .registered (.ok ()))
  | .overrideFor action override =>
    match repository.addOverrideFor action override with
    | .ok next => (next, .registered (.ok ()))
    | .error failure => (repository, .registered (.error failure))
  | .register entries =>
    let (next, outcome) := repository.registerOverrides entries
    (next, .counted outcome)
  | .workflow skipScaffolding tally workflow =>
    let (next, tally, outcome) := repository.addWorkflow skipScaffolding tally workflow
    (next, .tallied tally outcome)

/-- Calls one after the other: the repository after them, and their answers. -/
def run (repository : Repository κ) : List Call → Repository κ × List Answer
  | [] => (repository, [])
  | call :: rest =>
    let (next, answer) := repository.call call
    let (last, answers) := next.run rest
    (last, answer :: answers)

/-- Calls run in two parts are run in one. -/
theorem run_append (repository : Repository κ) (first second : List Call) :
    (repository.run (first ++ second)).1 = ((repository.run first).1.run second).1 := by
  induction first generalizing repository with
  | nil => rfl
  | cons call first ih => exact ih _

end Repository

/-! ### Scanning -/

/-- The tools of a compilation and the overrides registered so far, as plain lists. -/
structure LinearRepository where
  toolType : String
  lookup : Lookup
  policy : CollisionPolicy
  tools : List StoredTool
  pending : List PendingOverride

namespace LinearRepository

/-- A repository without tools and overrides. -/
def new (toolType : String) (lookup : Lookup) (policy : CollisionPolicy) : LinearRepository :=
  ⟨toolType, lookup, policy, [], []⟩

/-- Whether some tool has an equal action and equal metadata. -/
def holds (repository : LinearRepository) (action : Action) (metadata : Metadata) : Bool :=
  repository.tools.any fun tool ↦ tool.action.equal action && tool.spec.metadata.equal metadata

/-- The first pending override for equal metadata. -/
def pendingOverride? (repository : LinearRepository) (metadata : Metadata) : Option Override :=
  (repository.pending.find? fun pending ↦ pending.metadata.equal metadata).map
    PendingOverride.override

/-- The repository with one more tool. -/
def push (repository : LinearRepository) (action : Action) (spec : Spec) : LinearRepository :=
  { repository with tools := repository.tools ++ [⟨action, spec⟩] }

/-- Adds the tool of an action, unless there is one; the answer says whether it was added. -/
def add (repository : LinearRepository) (action : Action) :
    Except Failure (LinearRepository × Bool) :=
  match action.generate repository.lookup repository.policy with
  | .error failure => .error failure
  | .ok spec =>
    if repository.holds action spec.metadata then .ok (repository, false)
    else
      match repository.pendingOverride? spec.metadata with
      | some override => .ok (repository.push action (spec.mergeOverride override), true)
      | none => .ok (repository.push action spec, true)

/-- An override merged into the first one for equal metadata, or put at the end. -/
def register (metadata : Metadata) (override : Override) :
    List PendingOverride → List PendingOverride
  | [] => [⟨metadata, override⟩]
  | pending :: rest =>
    if pending.metadata.equal metadata then
      { pending with override := pending.override.merge override } :: rest
    else pending :: register metadata override rest

/-- Registers an override for tools with equal metadata that are added later. -/
def addOverride (repository : LinearRepository) (metadata : Metadata) (override : Override) :
    LinearRepository :=
  { repository with pending := register metadata override repository.pending }

/-- Registers an override for the tool of an action. -/
def addOverrideFor (repository : LinearRepository) (action : Action) (override : Override) :
    Except Failure LinearRepository :=
  match action.generate repository.lookup repository.policy with
  | .error failure => .error failure
  | .ok spec => .ok (repository.addOverride spec.metadata override)

/-- Registers the overrides that set something, up to the first failure, and counts them. -/
def registerOverrides (repository : LinearRepository) :
    List OverrideEntry → LinearRepository × Except Failure Nat
  | [] => (repository, .ok 0)
  | entry :: rest =>
    if entry.override.isEmpty then repository.registerOverrides rest
    else
      match repository.addOverrideFor entry.action entry.override with
      | .error failure => (repository, .error failure)
      | .ok next =>
        match next.registerOverrides rest with
        | (last, .error failure) => (last, .error failure)
        | (last, .ok count) => (last, .ok (count + 1))

/-- Adds actions up to the first failure, on top of what is counted in `tally`. With
`skipScaffolding`, actions that have the identifier of a scaffolding action are left out. -/
def addActions (repository : LinearRepository) (skipScaffolding : Bool) (tally : Tally) :
    List Action → LinearRepository × Tally × Except Failure Unit
  | [] => (repository, tally, .ok ())
  | action :: rest =>
    if skipScaffolding && action.hasScaffoldIdentifier then
      repository.addActions skipScaffolding tally.countSkipped rest
    else
      match repository.add action with
      | .error failure => (repository, tally, .error failure)
      | .ok (next, true) => next.addActions skipScaffolding tally.countInserted rest
      | .ok (next, false) => next.addActions skipScaffolding tally.countDuplicate rest

/-- The tagged tools, in the order of their arrival. -/
def list (repository : LinearRepository) : List TaggedSpec :=
  repository.tools.map fun tool ↦ ⟨repository.toolType, tool.spec⟩

/-- The tagged tools with their actions. -/
def listWithActions (repository : LinearRepository) : List (Action × TaggedSpec) :=
  repository.tools.map fun tool ↦ (tool.action, ⟨repository.toolType, tool.spec⟩)

/-- One call: the repository after it, and the answer. -/
def call (repository : LinearRepository) : Call → LinearRepository × Answer
  | .add action =>
    match repository.add action with
    | .ok (next, inserted) => (next, .added (.ok inserted))
    | .error failure => (repository, .added (.error failure))
  | .override metadata override =>
    (repository.addOverride metadata override, .registered (.ok ()))
  | .overrideFor action override =>
    match repository.addOverrideFor action override with
    | .ok next => (next, .registered (.ok ()))
    | .error failure => (repository, .registered (.error failure))
  | .register entries =>
    let (next, outcome) := repository.registerOverrides entries
    (next, .counted outcome)
  | .workflow skipScaffolding tally workflow =>
    let (next, tally, outcome) := repository.addActions skipScaffolding tally workflow.actions
    (next, .tallied tally outcome)

/-- Calls one after the other: the repository after them, and their answers. -/
def run (repository : LinearRepository) : List Call → LinearRepository × List Answer
  | [] => (repository, [])
  | call :: rest =>
    let (next, answer) := repository.call call
    let (last, answers) := next.run rest
    (last, answer :: answers)

end LinearRepository

end ActionTools
