import ActionTools.Catalog
import ActionTools.Generation
import ActionTools.Json.Canonical
import ActionTools.Scaffold.Recognition
import Std.Data.HashMap

/-!
# The repository of a compilation

A repository collects the tools of the actions it is given, one for each distinct action, in the
order of their arrival. Overrides are registered by the metadata they are for, and a tool takes the
one registered for equal metadata at the moment of its insertion; later registrations do not reach
it. Repeated registrations for equal metadata merge.

Equal actions and equal metadata are found by a digest of their canonical text. A digest only says
where to look: what is found there counts when it is equal as data.

An operation on several actions stops at the first failure and keeps what it did before; it answers
with the repository and its counts as they stand then, beside its result.
-/

namespace ActionTools

/-- A tool with the action it was generated from. -/
structure StoredTool where
  action : Action
  spec : Spec
  deriving DecidableEq

/-- An override that waits for tools with equal metadata. -/
structure PendingOverride where
  metadata : Metadata
  override : Override
  deriving DecidableEq

/-- An override for the tool of an action. -/
structure OverrideEntry where
  action : Action
  override : Override
  deriving DecidableEq

namespace OverrideEntry

/-- An override entry as a value. -/
def json (entry : OverrideEntry) : Json :=
  .object [("action", entry.action.json), ("override", entry.override.json)]

/-- Reads an override entry. -/
def ofDocument? (document : Document) : Option OverrideEntry := do
  let fields ← document.fields? ["action", "override"]
  let action ← fields.required "action" Action.ofDocument?
  let override ← fields.required "override" (Override.ofDocument? false)
  some ⟨action, override⟩

end OverrideEntry

/-- What became of the actions of workflows. -/
structure Tally where
  /-- Actions that became tools. -/
  inserted : Nat
  /-- Actions equal to the action of a tool that was there. -/
  duplicates : Nat
  /-- Scaffolding actions left out. -/
  skipped : Nat
  deriving DecidableEq

namespace Tally

/-- Nothing counted. -/
def zero : Tally := ⟨0, 0, 0⟩

instance : Inhabited Tally := ⟨zero⟩

/-- One more action inserted. -/
def countInserted (tally : Tally) : Tally := { tally with inserted := tally.inserted + 1 }

/-- One more duplicate. -/
def countDuplicate (tally : Tally) : Tally := { tally with duplicates := tally.duplicates + 1 }

/-- One more action skipped. -/
def countSkipped (tally : Tally) : Tally := { tally with skipped := tally.skipped + 1 }

end Tally

/-- The tools of a compilation, and the overrides registered so far. -/
structure Repository (κ : Type) [BEq κ] [Hashable κ] where
  /-- The collection that the tools are tagged with. -/
  toolType : String
  lookup : Lookup
  policy : CollisionPolicy
  /-- The digest of a canonical text. -/
  digest : String → κ
  tools : Array StoredTool
  /-- The position of the last tool with given digests of its action and of its metadata. -/
  index : Std.HashMap (κ × κ) Nat
  pending : Array PendingOverride
  /-- The position of the last pending override with a given digest of its metadata. -/
  pendingIndex : Std.HashMap κ Nat

namespace Repository

variable {κ : Type} [BEq κ] [Hashable κ]

/-- A repository without tools and overrides. -/
def new (digest : String → κ) (toolType : String) (lookup : Lookup) (policy : CollisionPolicy) :
    Repository κ :=
  ⟨toolType, lookup, policy, digest, #[], ∅, #[], ∅⟩

/-- The number of tools. -/
def size (repository : Repository κ) : Nat := repository.tools.size

/-- Whether there are no tools. -/
def isEmpty (repository : Repository κ) : Bool := repository.tools.isEmpty

/-- The digest of metadata. -/
def metadataKey (repository : Repository κ) (metadata : Metadata) : κ :=
  repository.digest metadata.json.canonical

/-- The digests of an action and of its metadata. -/
def key (repository : Repository κ) (action : Action) (metadata : Metadata) : κ × κ :=
  (repository.digest action.json.canonical, repository.metadataKey metadata)

/-- Whether there is a tool for an equal action with equal metadata. -/
def holds (repository : Repository κ) (action : Action) (metadata : Metadata) : Bool :=
  match repository.index[repository.key action metadata]?.bind (repository.tools[·]?) with
  | some tool => tool.action.equal action && tool.spec.metadata.equal metadata
  | none => false

/-- The position of the pending override for equal metadata. -/
def pendingPosition? (repository : Repository κ) (metadata : Metadata) : Option Nat :=
  repository.pendingIndex[repository.metadataKey metadata]?.filter fun position ↦
    match repository.pending[position]? with
    | some pending => pending.metadata.equal metadata
    | none => false

/-- The pending override for equal metadata. -/
def pendingOverride? (repository : Repository κ) (metadata : Metadata) : Option Override :=
  (repository.pendingPosition? metadata).bind fun position ↦
    (repository.pending[position]?).map PendingOverride.override

/-! ### Adding -/

/-- The repository with one more tool. -/
def push (repository : Repository κ) (action : Action) (spec : Spec) : Repository κ :=
  { repository with
    tools := repository.tools.push ⟨action, spec⟩
    index := repository.index.insert (repository.key action spec.metadata) repository.tools.size }

/-- Adds the tool of an action, unless there is one; the answer says whether it was added. -/
def add (repository : Repository κ) (action : Action) : Except Failure (Repository κ × Bool) :=
  match action.generate repository.lookup repository.policy with
  | .error failure => .error failure
  | .ok spec =>
    if repository.holds action spec.metadata then .ok (repository, false)
    else
      match repository.pendingOverride? spec.metadata with
      | some override => .ok (repository.push action (spec.mergeOverride override), true)
      | none => .ok (repository.push action spec, true)

/-- Registers an override for tools with equal metadata that are added later. -/
def addOverride (repository : Repository κ) (metadata : Metadata) (override : Override) :
    Repository κ :=
  match repository.pendingPosition? metadata with
  | some position =>
    { repository with
      pending := repository.pending.modify position fun pending ↦
        { pending with override := pending.override.merge override } }
  | none =>
    { repository with
      pending := repository.pending.push ⟨metadata, override⟩
      pendingIndex :=
        repository.pendingIndex.insert (repository.metadataKey metadata) repository.pending.size }

/-- Registers an override for the tool of an action. -/
def addOverrideFor (repository : Repository κ) (action : Action) (override : Override) :
    Except Failure (Repository κ) :=
  match action.generate repository.lookup repository.policy with
  | .error failure => .error failure
  | .ok spec => .ok (repository.addOverride spec.metadata override)

/-! ### Adding many -/

/-- Registers the overrides that set something, up to the first failure, and counts them. -/
def registerOverrides (repository : Repository κ) :
    List OverrideEntry → Repository κ × Except Failure Nat
  | [] => (repository, .ok 0)
  | entry :: rest =>
    if entry.override.isEmpty then repository.registerOverrides rest
    else
      match repository.addOverrideFor entry.action entry.override with
      | .error failure => (repository, .error failure)
      | .ok next =>
        match next.registerOverrides rest with
        | (last, .error failure) => (last, .error failure)
        | (last, .ok count) => (last, .ok (count + 1))

/-- Adds actions up to the first failure, on top of what is counted in `tally`. With
`skipScaffolding`, actions that have the identifier of a scaffolding action are left out. -/
def addActions (repository : Repository κ) (skipScaffolding : Bool) (tally : Tally) :
    List Action → Repository κ × Tally × Except Failure Unit
  | [] => (repository, tally, .ok ())
  | action :: rest =>
    if skipScaffolding && action.hasScaffoldIdentifier then
      repository.addActions skipScaffolding tally.countSkipped rest
    else
      match repository.add action with
      | .error failure => (repository, tally, .error failure)
      | .ok (next, true) => next.addActions skipScaffolding tally.countInserted rest
      | .ok (next, false) => next.addActions skipScaffolding tally.countDuplicate rest

/-- Adds the actions of a workflow. -/
def addWorkflow (repository : Repository κ) (skipScaffolding : Bool) (tally : Tally)
    (workflow : Workflow) : Repository κ × Tally × Except Failure Unit :=
  repository.addActions skipScaffolding tally workflow.actions

/-! ### Listing -/

/-- The tagged tools, in the order of their arrival. -/
def list (repository : Repository κ) : List TaggedSpec :=
  repository.tools.toList.map fun tool ↦ ⟨repository.toolType, tool.spec⟩

/-- The tagged tools with their actions. -/
def listWithActions (repository : Repository κ) : List (Action × TaggedSpec) :=
  repository.tools.toList.map fun tool ↦ (tool.action, ⟨repository.toolType, tool.spec⟩)

/-- The number of tools that have an override. -/
def overriddenCount (repository : Repository κ) : Nat :=
  repository.tools.toList.countP fun tool ↦ tool.spec.override.isSome

/-- The catalog of the tools. -/
def catalog (repository : Repository κ) : Catalog := ⟨repository.list⟩

end Repository

end ActionTools
