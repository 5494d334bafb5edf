import ActionTools.Proofs.Repository.Linear
import ActionTools.Proofs.Repository.Keys

/-!
# The contents that events bring

A repository takes in two kinds of `Event`: actions that arrive with their generated tools, and
overrides that are registered. `Call.events` lists those of a call; what a failure cuts off is no
event. The `contents` are a function of the events alone: the first arrival of each action, with the
overrides combined that were registered for equal metadata before (`overridesFor`,
`Override.combined`).

What comes later leaves a tool as it is, since the contents after more events go on where those
before end (`contents_append`). There is a tool for an action exactly when an equal one has arrived
(`exists_mem_contents_iff`), so no two tools have equal actions (`pairwise_contents`).
-/

namespace ActionTools

/-! ### Combined overrides -/

namespace Override

/-- The last value that a field is set to. -/
def lastSet {α : Type} (field : Override → Option α) (overrides : List Override) : Option α :=
  overrides.reverse.findSome? field

/-- Overrides in one, field by field, when there are any. -/
def combined (overrides : List Override) : Option Override :=
  if overrides.isEmpty then none
  else some
    { name := lastSet name overrides
      description := lastSet description overrides
      parameters := lastSet parameters overrides
      responseType := lastSet responseType overrides }

theorem lastSet_concat {α : Type} (field : Override → Option α) (overrides : List Override)
    (override : Override) :
    lastSet field (overrides ++ [override]) = (field override <|> lastSet field overrides) := by
  rw [lastSet, List.reverse_append, List.reverse_singleton, List.singleton_append,
    List.findSome?_cons]
  cases field override <;> rfl

/-- One more override is merged into those before. -/
theorem combined_concat (overrides : List Override) (override : Override) :
    combined (overrides ++ [override]) =
      some (match combined overrides with
        | some earlier => earlier.merge override
        | none => override) := by
  cases overrides with
  | nil => simp [combined, lastSet]
  | cons first rest =>
    have hset {α : Type} (field : Override → Option α) :
        lastSet field (first :: (rest ++ [override])) =
          (field override <|> lastSet field (first :: rest)) :=
      lastSet_concat field (first :: rest) override
    simp [combined, merge, hset]

theorem merge_empty (override : Override) : (∅ : Override).merge override = override := by
  simp [merge, EmptyCollection.emptyCollection, empty]

end Override

/-! ### Events -/

/-- What a repository takes in. -/
inductive Event where
  /-- An action, with the tool generated for it. -/
  | arrival (action : Action) (spec : Spec)
  /-- An override for metadata. -/
  | registration (metadata : Metadata) (override : Override)

namespace Event

/-- The arrival of an action whose tool can be generated. -/
def ofAction (lookup : Lookup) (policy : CollisionPolicy) (action : Action) :
    Except Failure Event :=
  match action.generate lookup policy with
  | .ok spec => .ok (.arrival action spec)
  | .error failure => .error failure

/-- The registration of an override for an action whose tool can be generated. -/
def ofEntry (lookup : Lookup) (policy : CollisionPolicy) (entry : OverrideEntry) :
    Except Failure Event :=
  match entry.action.generate lookup policy with
  | .ok spec => .ok (.registration spec.metadata entry.override)
  | .error failure => .error failure

/-- The events of a list up to the first failure. -/
def upToFailure {α : Type} (event : α → Except Failure Event) : List α → List Event
  | [] => []
  | a :: rest =>
    match event a with
    | .ok event' => event' :: upToFailure event rest
    | .error _ => []

end Event

/-- The events of a call. -/
def Call.events (lookup : Lookup) (policy : CollisionPolicy) : Call → List Event
  | .add action => Event.upToFailure (Event.ofAction lookup policy) [action]
  | .override metadata extra => [.registration metadata extra]
  | .overrideFor action extra => Event.upToFailure (Event.ofEntry lookup policy) [⟨action, extra⟩]
  | .register entries =>
    Event.upToFailure (Event.ofEntry lookup policy)
      (entries.filter fun entry ↦ !entry.override.isEmpty)
  | .workflow skipScaffolding _ source =>
    Event.upToFailure (Event.ofAction lookup policy)
      (source.actions.filter fun action ↦ !(skipScaffolding && action.hasScaffoldIdentifier))

/-- The events of a sequence of calls. -/
def history (lookup : Lookup) (policy : CollisionPolicy) (calls : List Call) : List Event :=
  calls.flatMap (Call.events lookup policy)

/-! ### Contents -/

/-- The overrides registered for equal metadata, in their order. -/
def overridesFor (metadata : Metadata) (events : List Event) : List Override :=
  events.filterMap fun
    | .registration registered override =>
      if registered.equal metadata then some override else none
    | .arrival _ _ => none

/-- Whether an equal action has arrived. -/
def hasArrived (action : Action) (events : List Event) : Bool :=
  events.any fun
    | .arrival arrived _ => arrived.equal action
    | .registration _ _ => false

/-- The tools that events bring after others: one for each action that has not arrived before, with
the overrides registered for equal metadata by then. -/
def contentsAfter (past : List Event) : List Event → List StoredTool
  | [] => []
  | .arrival action spec :: rest =>
    let later := contentsAfter (past ++ [.arrival action spec]) rest
    if hasArrived action past then later
    else
      ⟨action, { spec with override := Override.combined (overridesFor spec.metadata past) }⟩ ::
        later
  | .registration metadata override :: rest =>
    contentsAfter (past ++ [.registration metadata override]) rest

/-- The tools that events bring. -/
def contents (events : List Event) : List StoredTool := contentsAfter [] events

/-- What later events add depends on the past that the earlier ones have become. -/
theorem contentsAfter_append (past first second : List Event) :
    contentsAfter past (first ++ second) =
      contentsAfter past first ++ contentsAfter (past ++ first) second := by
  induction first generalizing past with
  | nil => simp [contentsAfter]
  | cons event first ih =>
    cases event with
    | arrival action spec =>
      simp only [List.cons_append, contentsAfter, ih, List.append_assoc, List.nil_append]
      split <;> simp
    | registration metadata override => simp [contentsAfter, ih]

/-- **A longer history adds to the contents** and changes nothing in them. -/
theorem contents_append (first second : List Event) :
    contents (first ++ second) = contents first ++ contentsAfter first second := by
  rw [contents, contentsAfter_append, List.nil_append, contents]

/-- **A last arrival adds one tool, unless the action has arrived before**, and the tool has the
overrides registered up to then. -/
theorem contents_concat_arrival (events : List Event) (action : Action) (spec : Spec) :
    contents (events ++ [.arrival action spec]) =
      if hasArrived action events then contents events
      else contents events ++ [⟨action,
        { spec with override := Override.combined (overridesFor spec.metadata events) }⟩] := by
  rw [contents_append, contentsAfter]
  split <;> simp [contentsAfter]

/-- A last registration changes no tool. -/
theorem contents_concat_registration (events : List Event) (metadata : Metadata)
    (override : Override) :
    contents (events ++ [.registration metadata override]) = contents events := by
  rw [contents_append, contentsAfter, contentsAfter, List.append_nil]

/-- An action has arrived when it had before or arrives last. -/
theorem hasArrived_concat (action : Action) (events : List Event) (event : Event) :
    hasArrived action (events ++ [event]) =
      (hasArrived action events || hasArrived action [event]) :=
  List.any_append

/-- A tool is that of an arrival. -/
theorem arrival_of_mem_contents {events : List Event} {tool : StoredTool}
    (h : tool ∈ contents events) :
    ∃ spec override, .arrival tool.action spec ∈ events ∧
      tool.spec = { spec with override := override } := by
  induction events using List.reverseRecOn with
  | nil => cases h
  | append_singleton events event ih =>
    cases event with
    | registration metadata override =>
      rw [contents_concat_registration] at h
      obtain ⟨spec, override', hmem, hspec⟩ := ih h
      exact ⟨spec, override', List.mem_append_left _ hmem, hspec⟩
    | arrival action spec =>
      rw [contents_concat_arrival] at h
      split at h
      · obtain ⟨spec', override, hmem, hspec⟩ := ih h
        exact ⟨spec', override, List.mem_append_left _ hmem, hspec⟩
      · rcases List.mem_append.1 h with hold | hlast
        · obtain ⟨spec', override, hmem, hspec⟩ := ih hold
          exact ⟨spec', override, List.mem_append_left _ hmem, hspec⟩
        · obtain rfl := List.mem_singleton.1 hlast
          exact ⟨spec, _, List.mem_append_right _ (List.mem_singleton_self _), rfl⟩

/-- There is a tool for an equal action exactly when one has arrived. -/
theorem exists_mem_contents_iff {events : List Event} {action : Action} :
    (∃ tool ∈ contents events, tool.action.equal action = true) ↔
      hasArrived action events = true := by
  induction events using List.reverseRecOn generalizing action with
  | nil => simp [contents, contentsAfter, hasArrived]
  | append_singleton events event ih =>
    rw [hasArrived_concat, Bool.or_eq_true, ← ih]
    cases event with
    | registration metadata override => simp [contents_concat_registration, hasArrived]
    | arrival arrived spec =>
      rw [contents_concat_arrival]
      cases hpast : hasArrived arrived events with
      | false => simp [hasArrived, or_and_right, exists_or]
      | true =>
        -- The arrival brings nothing, as there is a tool for an equal action.
        simp only [if_true, hasArrived, List.any_cons, List.any_nil, Bool.or_false]
        refine ⟨.inl, fun h ↦ h.elim id fun hequal ↦ ?_⟩
        obtain ⟨tool, htool, htool'⟩ := ih.2 hpast
        exact ⟨tool, htool, Action.equal_trans htool' hequal⟩

/-- **No two tools have equal actions.** -/
theorem pairwise_contents (events : List Event) :
    (contents events).Pairwise fun tool later ↦ tool.action.equal later.action = false := by
  induction events using List.reverseRecOn with
  | nil => exact .nil
  | append_singleton events event ih =>
    cases event with
    | registration metadata override => rwa [contents_concat_registration]
    | arrival action spec =>
      rw [contents_concat_arrival]
      cases hpast : hasArrived action events with
      | true => exact ih
      | false =>
        have hnew : ∀ tool ∈ contents events, tool.action.equal action = false := by
          intro tool htool
          rw [← Bool.not_eq_true]
          intro hequal
          have harrived := exists_mem_contents_iff.1 ⟨tool, htool, hequal⟩
          rw [hpast] at harrived
          cases harrived
        refine List.pairwise_append.2
          ⟨ih, List.pairwise_singleton _ _, fun tool htool last hlast ↦ ?_⟩
        rw [List.mem_singleton.1 hlast]
        exact hnew tool htool

end ActionTools
