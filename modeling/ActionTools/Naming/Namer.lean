import ActionTools.Error
import ActionTools.Naming.Trimming

/-!
# Naming all references of a tool

A `Namer` gives each reference of one tool a name of its own while the keys come one by one. A
reference first claims its derived name. Names of single references stand; trimmed names yield. When
a trimmed name is claimed twice, or claimed by a single reference as well, every trimmed claimant
moves to its full path and the name stays contested, so that no later trimmed name takes it.

A move, like a claim that is empty, repeated among its siblings or already taken, is a collision.
Under `CollisionPolicy.fail` a collision is a failure. Under `CollisionPolicy.fallback` the
reference gets its full joined path as a name, and only if that is empty or taken the naming fails.

A failure does not undo what was done before it: `addKey` answers with the names as they stand then
beside its result.
-/

namespace ActionTools

/-- What to do when two references come to the same name. -/
inductive CollisionPolicy where
  /-- Name the reference by its full path. -/
  | fallback
  /-- Refuse to name the tool's parameters. -/
  | fail
  deriving DecidableEq

namespace CollisionPolicy

instance : Inhabited CollisionPolicy := ⟨fallback⟩

/-- The name of a policy. -/
def name : CollisionPolicy → String
  | fallback => "fallback"
  | fail => "fail"

/-- The policy of a name. -/
def ofName? : String → Option CollisionPolicy
  | "fallback" => some fallback
  | "fail" => some fail
  | _ => none

/-- Reads a policy. -/
def ofDocument? (document : Document) : Option CollisionPolicy :=
  (document.name? false).bind ofName?

end CollisionPolicy

/-- How a reference came by its name. -/
inductive Origin where
  /-- The name is the key, under which there is no other reference. -/
  | key
  /-- The name is what trimming left of the path. -/
  | trimmed
  /-- The name is the full joined path. -/
  | fullPath
  deriving DecidableEq

/-- A reference that has a name. -/
structure Claim where
  /-- The top-level key the reference is under. -/
  key : String
  /-- The place of the reference, from the key on. -/
  path : Path
  origin : Origin
  deriving DecidableEq

/-- The names given so far to the references of one tool. -/
structure Namer where
  /-- The tool, for messages. -/
  tool : String
  policy : CollisionPolicy
  names : NameMap Claim
  /-- The names no trimmed reference may have any more. -/
  contested : List String

namespace Namer

/-- No names given. -/
def new (tool : String) (policy : CollisionPolicy) : Namer := ⟨tool, policy, ∅, []⟩

/-- The collision over a derived name; an empty one is reported by the full path. -/
def collision (namer : Namer) (name : String) (path : Path) : Failure :=
  .namingCollision namer.tool (if name.isEmpty then path.join nameSeparator else name)

/-- The name of a reference that cannot have its derived name. -/
def fullName (namer : Namer) (name : String) (path : Path) : Except Failure String :=
  match namer.policy with
  | .fail => .error (namer.collision name path)
  | .fallback =>
    let full := path.join nameSeparator
    if full.isEmpty || namer.names.contains full then .error (namer.collision name path)
    else .ok full

/-- The namer after a name has become contested. -/
def contest (namer : Namer) (name : String) : Namer :=
  { namer with contested := name :: namer.contested }

/-- The namer after a reference has got a name. -/
def assign (namer : Namer) (name : String) (claim : Claim) : Namer :=
  { namer with names := namer.names.insert name claim }

/-- Moves the reference that holds `name` to its full path. -/
def relocate (namer : Namer) (name : String) (claim : Claim) : Namer × Except Failure Unit :=
  let without := { namer with names := namer.names.erase name }.contest name
  match without.fullName name claim.path with
  | .error failure => (without, .error failure)
  | .ok full => (without.assign full { claim with origin := .fullPath }, .ok ())

/-- Gives a reference its full path as a name. -/
def assignFull (namer : Namer) (name : String) (claim : Claim) : Namer × Except Failure String :=
  let contesting := namer.contest name
  match contesting.fullName name claim.path with
  | .error failure => (contesting, .error failure)
  | .ok full => (contesting.assign full { claim with origin := .fullPath }, .ok full)

/-- Names one reference. `repeated` says that a sibling derives the same name. -/
def addReference (namer : Namer) (name : String) (repeated : Bool) (claim : Claim) :
    Namer × Except Failure String :=
  if name.isEmpty || repeated || (claim.origin == .trimmed && namer.contested.contains name) then
    namer.assignFull name claim
  else
    match namer.names.get? name with
    | none => (namer.assign name claim, .ok name)
    | some holder =>
      if holder.origin = .trimmed then
        match namer.relocate name holder with
        | (moved, .error failure) => (moved, .error failure)
        | (moved, .ok ()) =>
          if claim.origin = .trimmed then moved.assignFull name claim
          else (moved.assign name claim, .ok name)
      else namer.assignFull name claim

/-- Names references one after the other, up to the first failure. Each comes with its derived
name, and with whether that is repeated among its siblings. -/
def addReferences (namer : Namer) :
    List (String × Bool × Claim) → Namer × Except Failure (List String)
  | [] => (namer, .ok [])
  | (name, repeated, claim) :: rest =>
    match namer.addReference name repeated claim with
    | (next, .error failure) => (next, .error failure)
    | (next, .ok given) =>
      match next.addReferences rest with
      | (last, .error failure) => (last, .error failure)
      | (last, .ok others) => (last, .ok (given :: others))

/-- The references at `paths` under `key`, with their derived names. -/
def claims (key : String) (paths : List Path) : List (String × Bool × Claim) :=
  let derived := Path.derivedNames key paths
  let origin := if paths.length = 1 then Origin.key else .trimmed
  (derived.zip paths).map fun (name, path) ↦
    (name, 1 < derived.count name, ⟨key, .key key :: path, origin⟩)

/-- Names the references at `paths` under `key`. The result lists the names in the order of the
paths, as they are given now; a later key can still move a trimmed one. -/
def addKey (namer : Namer) (key : String) (paths : List Path) :
    Namer × Except Failure (List String) :=
  namer.addReferences (claims key paths)

/-- Names the references under several keys, up to the first failure. -/
def addKeys (namer : Namer) : List (String × List Path) → Except Failure Namer
  | [] => .ok namer
  | (key, paths) :: rest =>
    match namer.addKey key paths with
    | (_, .error failure) => .error failure
    | (next, .ok _) => next.addKeys rest

/-- The names with the keys their references are under. -/
def sources (namer : Namer) : List (String × String) :=
  namer.names.entries.map fun entry ↦ (entry.1, entry.2.key)

/-- The names with the places of their references. -/
def paths (namer : Namer) : NameMap Path := namer.names.map fun _ claim ↦ claim.path

end Namer

end ActionTools
