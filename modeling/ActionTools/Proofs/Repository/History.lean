import ActionTools.Proofs.Repository.Contents
import ActionTools.Proofs.Repository.Refinement

/-!
# What a repository holds, by its history

The contents of a repository are those of the events of its calls (`run_contents`). The scanning
repository takes in the events of a call one by one (`LinearRepository.call_eq`), and one event
changes it as it changes the contents (`Reflects.receive`). What a repository with digests holds
follows, as it simulates the scanning one.

Both repositories compare metadata besides actions, the contents compare actions only. Actions that
are equal have equal metadata (`Action.metadata_equal`), so that makes no difference.
-/

namespace ActionTools

/-! ### Taking in events -/

namespace Action

variable {lookup : Lookup} {policy : CollisionPolicy} {a : Action} {s : Spec}

/-- A generated tool has no override, and its template is the action. -/
theorem override_generate (h : a.generate lookup policy = .ok s) :
    s.override = none ∧ s.metadata.template = a := by
  obtain ⟨names, rfl, -⟩ := exists_names h
  exact ⟨rfl, rfl⟩

end Action

/-- The tool of an arrival is the one generated for its action. -/
def Event.Generated (lookup : Lookup) (policy : CollisionPolicy) : Event → Prop
  | .arrival action spec => action.generate lookup policy = .ok spec
  | .registration _ _ => True

/-- When each event made from an item has its generated tool, so have all events before a
failure. -/
theorem Event.generated_of_mem_upToFailure {α : Type} {lookup : Lookup} {policy : CollisionPolicy}
    {event : α → Except Failure Event}
    (hevent : ∀ a event', event a = .ok event' → event'.Generated lookup policy) {items : List α} :
    ∀ event' ∈ upToFailure event items, event'.Generated lookup policy := by
  induction items with
  | nil => exact fun event' h ↦ absurd h List.not_mem_nil
  | cons a rest ih =>
    rw [upToFailure]
    cases h : event a with
    | error failure => exact fun event' h ↦ absurd h List.not_mem_nil
    | ok event' => exact List.forall_mem_cons.2 ⟨hevent a event' h, ih⟩

namespace LinearRepository

/-- The repository after an event. -/
def receive (repository : LinearRepository) : Event → LinearRepository
  | .arrival action spec =>
    if repository.holds action spec.metadata then repository
    else repository.push action { spec with override := repository.pendingOverride? spec.metadata }
  | .registration metadata override => repository.addOverride metadata override

/-- An event leaves alone what a repository was made with. -/
theorem receive_settings (repository : LinearRepository) (event : Event) :
    (repository.receive event).toolType = repository.toolType ∧
      (repository.receive event).lookup = repository.lookup ∧
        (repository.receive event).policy = repository.policy := by
  cases event with
  | registration metadata override => exact ⟨rfl, rfl, rfl⟩
  | arrival action spec =>
    rw [receive]
    split <;> exact ⟨rfl, rfl, rfl⟩

theorem foldl_receive_settings (repository : LinearRepository) (events : List Event) :
    (events.foldl receive repository).toolType = repository.toolType ∧
      (events.foldl receive repository).lookup = repository.lookup ∧
        (events.foldl receive repository).policy = repository.policy := by
  induction events generalizing repository with
  | nil => exact ⟨rfl, rfl, rfl⟩
  | cons event rest ih =>
    obtain ⟨htype, hlookup, hpolicy⟩ := ih (repository.receive event)
    obtain ⟨htype', hlookup', hpolicy'⟩ := repository.receive_settings event
    exact ⟨htype.trans htype', hlookup.trans hlookup', hpolicy.trans hpolicy'⟩

variable (repository : LinearRepository)

/-- Adding an action takes in its arrival. -/
theorem add_eq {action : Action} {spec : Spec}
    (h : action.generate repository.lookup repository.policy = .ok spec) :
    ∃ inserted,
      repository.add action = .ok (repository.receive (.arrival action spec), inserted) := by
  obtain ⟨hoverride, -⟩ := Action.override_generate h
  cases hfound : repository.holds action spec.metadata with
  | true => exact ⟨false, by simp [add, h, receive, hfound]⟩
  | false =>
    cases hpending : repository.pendingOverride? spec.metadata with
    | none =>
      have hspec : { spec with override := none } = spec := by rw [← hoverride]
      exact ⟨true, by simp [add, h, receive, hfound, hpending, hspec]⟩
    | some override =>
      have hspec : spec.mergeOverride override = { spec with override := some override } := by
        simp only [Spec.mergeOverride, Interface.mergeOverride, hoverride, Option.getD_none,
          Override.merge_empty]
      exact ⟨true, by simp [add, h, receive, hfound, hpending, hspec]⟩

theorem add_error {action : Action} {failure : Failure}
    (h : action.generate repository.lookup repository.policy = .error failure) :
    repository.add action = .error failure := by
  rw [add, h]

/-- **Adding actions is receiving the events of those that are not left out**, up to the first that
fails. -/
theorem addActions_eq (skipScaffolding : Bool) (tally : Tally) (actions : List Action) :
    (repository.addActions skipScaffolding tally actions).1 =
      (Event.upToFailure (Event.ofAction repository.lookup repository.policy)
        (actions.filter fun action ↦ !(skipScaffolding && action.hasScaffoldIdentifier))).foldl
          receive repository := by
  induction actions generalizing repository tally with
  | nil => rfl
  | cons action rest ih =>
    rw [addActions]
    cases hskip : skipScaffolding && action.hasScaffoldIdentifier with
    | true =>
      rw [List.filter_cons_of_neg (by rw [hskip]; decide), if_pos rfl, ih]
    | false =>
      rw [List.filter_cons_of_pos (by rw [hskip]; decide), if_neg Bool.false_ne_true,
        Event.upToFailure, Event.ofAction]
      cases hgenerate : action.generate repository.lookup repository.policy with
      | error failure =>
        rw [repository.add_error hgenerate]
        rfl
      | ok spec =>
        obtain ⟨inserted, hadd⟩ := repository.add_eq hgenerate
        rw [hadd, List.foldl_cons]
        -- An event leaves the tables alone, so the later events are the same.
        have hnext := ih (repository.receive (.arrival action spec))
        rw [(repository.receive_settings _).2.1, (repository.receive_settings _).2.2] at hnext
        cases inserted with
        | true => exact hnext tally.countInserted
        | false => exact hnext tally.countDuplicate

/-- Overriding the tool of an action is receiving a registration for its metadata. -/
theorem addOverrideFor_eq {entry : OverrideEntry} {spec : Spec}
    (h : entry.action.generate repository.lookup repository.policy = .ok spec) :
    repository.addOverrideFor entry.action entry.override =
      .ok (repository.receive (.registration spec.metadata entry.override)) := by
  rw [addOverrideFor, h]
  rfl

/-- **Registering entries is receiving the events of those that are not empty**, up to the first
that fails. -/
theorem registerOverrides_eq (entries : List OverrideEntry) :
    (repository.registerOverrides entries).1 =
      (Event.upToFailure (Event.ofEntry repository.lookup repository.policy)
        (entries.filter fun entry ↦ !entry.override.isEmpty)).foldl receive repository := by
  induction entries generalizing repository with
  | nil => rfl
  | cons entry rest ih =>
    rw [registerOverrides]
    cases hempty : entry.override.isEmpty with
    | true => rw [List.filter_cons_of_neg (by rw [hempty]; decide), if_pos rfl, ih]
    | false =>
      rw [List.filter_cons_of_pos (by rw [hempty]; decide), if_neg Bool.false_ne_true,
        Event.upToFailure, Event.ofEntry]
      cases hgenerate : entry.action.generate repository.lookup repository.policy with
      | error failure =>
        rw [addOverrideFor, hgenerate]
        rfl
      | ok spec =>
        rw [repository.addOverrideFor_eq hgenerate, List.foldl_cons]
        have hnext := ih (repository.receive (.registration spec.metadata entry.override))
        rw [(repository.receive_settings _).2.1, (repository.receive_settings _).2.2] at hnext
        rw [← hnext]
        -- The count changes, the repository does not.
        dsimp only
        split
        · next hlast => rw [hlast]
        · next hlast => rw [hlast]

/-- **A call takes in its events** one by one. -/
theorem call_eq (call : Call) :
    (repository.call call).1 =
      (call.events repository.lookup repository.policy).foldl receive repository := by
  cases call with
  | add action =>
    rw [LinearRepository.call, Call.events, Event.upToFailure, Event.ofAction]
    cases hgenerate : action.generate repository.lookup repository.policy with
    | error failure => rw [repository.add_error hgenerate]; rfl
    | ok spec =>
      obtain ⟨inserted, hadd⟩ := repository.add_eq hgenerate
      rw [hadd]
      rfl
  | override metadata override => rfl
  | overrideFor action override =>
    rw [LinearRepository.call, Call.events, Event.upToFailure, Event.ofEntry, addOverrideFor]
    cases action.generate repository.lookup repository.policy <;> rfl
  | register entries => exact repository.registerOverrides_eq entries
  | workflow skipScaffolding tally source =>
    exact repository.addActions_eq skipScaffolding tally source.actions

/-- **A run is receiving the events of its calls**, by induction on the calls. The events of a call
depend on nothing that earlier events change. -/
theorem run_eq (calls : List Call) :
    (repository.run calls).1 =
      (history repository.lookup repository.policy calls).foldl receive repository := by
  induction calls generalizing repository with
  | nil => rfl
  | cons call rest ih =>
    show ((repository.call call).1.run rest).1 = _
    obtain ⟨-, hlookup, hpolicy⟩ := repository.foldl_receive_settings
      (call.events repository.lookup repository.policy)
    rw [ih, call_eq, hlookup, hpolicy, history, history, List.flatMap_cons, List.foldl_append]

/-! ### What events make of a repository -/

/-- What is pending for metadata after a registration: the two merged when it was for equal
metadata, else what was pending before. -/
theorem pendingOverride?_addOverride (metadata registered : Metadata) (override : Override) :
    (repository.addOverride registered override).pendingOverride? metadata =
      if registered.equal metadata then
        some (match repository.pendingOverride? metadata with
          | some earlier => earlier.merge override
          | none => override)
      else repository.pendingOverride? metadata := by
  show ((register registered override repository.pending).find? _).map _ = _
  rw [pendingOverride?]
  induction repository.pending with
  | nil => cases hequal : registered.equal metadata <;> simp [register, hequal]
  | cons first rest ih =>
    rw [register, List.find?_cons]
    cases hfirst : first.metadata.equal registered with
    | true =>
      -- What is equal to one of two equal metadata is equal to the other.
      have hsame : first.metadata.equal metadata = registered.equal metadata := by
        rw [Bool.eq_iff_iff]
        exact ⟨Metadata.equal_trans (Metadata.equal_symm hfirst), Metadata.equal_trans hfirst⟩
      cases hequal : registered.equal metadata <;> simp [hsame, hequal]
    | false =>
      cases hmetadata : first.metadata.equal metadata with
      | true =>
        have hother : registered.equal metadata = false := by
          rw [← Bool.not_eq_true] at hfirst ⊢
          exact fun hequal ↦
            hfirst (Metadata.equal_trans hmetadata (Metadata.equal_symm hequal))
        simp [hmetadata, hother]
      | false => simpa [hmetadata] using ih

end LinearRepository

/-- An arrival registers nothing. -/
theorem overridesFor_concat_arrival (metadata : Metadata) (events : List Event) (action : Action)
    (spec : Spec) :
    overridesFor metadata (events ++ [.arrival action spec]) = overridesFor metadata events := by
  simp [overridesFor]

/-- A registration counts for metadata equal to its own. -/
theorem overridesFor_concat_registration (metadata : Metadata) (events : List Event)
    (registered : Metadata) (override : Override) :
    overridesFor metadata (events ++ [.registration registered override]) =
      if registered.equal metadata then overridesFor metadata events ++ [override]
      else overridesFor metadata events := by
  cases hequal : registered.equal metadata <;> simp [overridesFor, hequal]

/-- The repository is what the events make of an empty one. -/
structure Reflects (repository : LinearRepository) (events : List Event) : Prop where
  tools : repository.tools = contents events
  pending : ∀ metadata, repository.pendingOverride? metadata =
    Override.combined (overridesFor metadata events)

namespace Reflects

variable {repository : LinearRepository} {events : List Event} {lookup : Lookup}
  {policy : CollisionPolicy}

theorem new (toolType : String) (lookup : Lookup) (policy : CollisionPolicy) :
    Reflects (.new toolType lookup policy) [] :=
  ⟨rfl, fun _ ↦ rfl⟩

/-- There is a tool for an action and its metadata exactly when an equal action has arrived. -/
theorem holds_eq (h : Reflects repository events)
    (hevents : ∀ event ∈ events, event.Generated lookup policy) {action : Action} {spec : Spec}
    (hspec : action.generate lookup policy = .ok spec) :
    repository.holds action spec.metadata = hasArrived action events := by
  rw [Bool.eq_iff_iff, ← exists_mem_contents_iff, LinearRepository.holds, h.tools, List.any_eq_true]
  refine exists_congr fun tool ↦ and_congr_right fun htool ↦ ?_
  rw [Bool.and_eq_true, and_iff_left_iff_imp]
  intro hequal
  obtain ⟨spec', override, hmem, hspec'⟩ := arrival_of_mem_contents htool
  have hmetadata : spec'.metadata.equal spec.metadata = true :=
    Action.metadata_equal hequal (hevents _ hmem) hspec
  rw [hspec']
  exact hmetadata

/-- **An event changes the repository as it changes the contents.** -/
theorem receive (h : Reflects repository events)
    (hevents : ∀ event ∈ events, event.Generated lookup policy) {event : Event}
    (hevent : event.Generated lookup policy) :
    Reflects (repository.receive event) (events ++ [event]) := by
  cases event with
  | registration metadata override =>
    refine ⟨h.tools.trans (contents_concat_registration ..).symm, fun metadata' ↦ ?_⟩
    show (repository.addOverride metadata override).pendingOverride? metadata' = _
    rw [LinearRepository.pendingOverride?_addOverride, h.pending,
      overridesFor_concat_registration]
    split
    · exact (Override.combined_concat _ _).symm
    · rfl
  | arrival action spec =>
    -- An arrival registers nothing, so only the tools can change.
    have hpending (metadata : Metadata) : repository.pendingOverride? metadata =
        Override.combined (overridesFor metadata (events ++ [.arrival action spec])) := by
      rw [overridesFor_concat_arrival, h.pending]
    rw [LinearRepository.receive, h.holds_eq hevents hevent]
    cases hpast : hasArrived action events with
    | true =>
      exact ⟨by rw [if_pos rfl, contents_concat_arrival, hpast, if_pos rfl, h.tools], hpending⟩
    | false =>
      refine ⟨?_, hpending⟩
      rw [if_neg Bool.false_ne_true, contents_concat_arrival, hpast, if_neg Bool.false_ne_true,
        ← h.tools, ← h.pending]
      rfl

/-- Any number of events make of an empty repository what they bring. -/
theorem foldl_receive (toolType : String)
    (hevents : ∀ event ∈ events, event.Generated lookup policy) :
    Reflects (events.foldl LinearRepository.receive (.new toolType lookup policy)) events := by
  induction events using List.reverseRecOn with
  | nil => exact .new toolType lookup policy
  | append_singleton events event ih =>
    obtain ⟨hbefore, hlast⟩ := List.forall_mem_append.1 hevents
    rw [List.foldl_append]
    exact (ih hbefore).receive hbefore (hlast event (List.mem_singleton_self event))

end Reflects

/-! ### Contents of runs -/

/-- Every arrival in a history brings the tool generated for its action. -/
theorem generated_of_mem_history {lookup : Lookup} {policy : CollisionPolicy} {calls : List Call} :
    ∀ event ∈ history lookup policy calls, event.Generated lookup policy := by
  have haction (action : Action) (event : Event)
      (h : Event.ofAction lookup policy action = .ok event) : event.Generated lookup policy := by
    rw [Event.ofAction] at h
    cases hgenerate : action.generate lookup policy with
    | error failure => rw [hgenerate] at h; cases h
    | ok spec => rw [hgenerate] at h; cases h; exact hgenerate
  have hentry (entry : OverrideEntry) (event : Event)
      (h : Event.ofEntry lookup policy entry = .ok event) : event.Generated lookup policy := by
    rw [Event.ofEntry] at h
    cases hgenerate : entry.action.generate lookup policy with
    | error failure => rw [hgenerate] at h; cases h
    | ok spec => rw [hgenerate] at h; cases h; trivial
  intro event hevent
  obtain ⟨call, -, hmem⟩ := List.mem_flatMap.1 hevent
  cases call with
  | add action => exact Event.generated_of_mem_upToFailure haction event hmem
  | override metadata override => obtain rfl := List.mem_singleton.1 hmem; trivial
  | overrideFor action override => exact Event.generated_of_mem_upToFailure hentry event hmem
  | register entries => exact Event.generated_of_mem_upToFailure hentry event hmem
  | workflow skipScaffolding tally source =>
    exact Event.generated_of_mem_upToFailure haction event hmem

/-- What tells the texts of all calls apart tells those of the earlier ones apart. -/
theorem Distinguishes.of_append {κ : Type} {digest : String → κ} {lookup : Lookup}
    {policy : CollisionPolicy} {earlier later : List Call}
    (h : Distinguishes digest lookup policy (earlier ++ later)) :
    Distinguishes digest lookup policy earlier where
  indexable call hcall := h.indexable call (List.mem_append_left _ hcall)
  injOn := by
    refine h.injOn.mono ?_
    rintro text ⟨call, hcall, htext⟩
    exact ⟨call, List.mem_append_left _ hcall, htext⟩

section Runs

variable {κ : Type} [BEq κ] [Hashable κ] {digest : String → κ} {lookup : Lookup}
  {policy : CollisionPolicy} {calls : List Call}

/-- A failed addition or registration leaves the repository as it was. -/
theorem Repository.call_of_error (repository : Repository κ) {call : Call} {failure : Failure}
    (h : (repository.call call).2 = .added (.error failure) ∨
      (repository.call call).2 = .registered (.error failure)) :
    (repository.call call).1 = repository := by
  cases call with
  | add action =>
    rw [Repository.call] at h ⊢
    cases hadd : repository.add action with
    | error failure => rfl
    | ok pair => simp [hadd] at h
  | override metadata override => simp [Repository.call] at h
  | overrideFor action override =>
    rw [Repository.call] at h ⊢
    cases hadd : repository.addOverrideFor action override with
    | error failure => rfl
    | ok next => simp [hadd] at h
  | register entries => simp [Repository.call] at h
  | workflow skipScaffolding tally source => simp [Repository.call] at h

variable [LawfulBEq κ]

/-- What a repository holds after a sequence of calls. -/
theorem tools_run (h : Distinguishes digest lookup policy calls) (toolType : String) :
    ((Repository.new digest toolType lookup policy).run calls).1.toolType = toolType ∧
      ((Repository.new digest toolType lookup policy).run calls).1.tools.toList =
        contents (history lookup policy calls) := by
  obtain ⟨-, hsimulates⟩ := Simulates.run_new h toolType
  have hrun := (LinearRepository.new toolType lookup policy).run_eq calls
  have hreflects : Reflects ((LinearRepository.new toolType lookup policy).run calls).1
      (history lookup policy calls) := by
    rw [hrun]
    exact .foldl_receive toolType generated_of_mem_history
  refine ⟨hsimulates.toolType.trans ?_, hsimulates.tools.trans hreflects.tools⟩
  rw [hrun]
  exact (LinearRepository.foldl_receive_settings _ _).1

/-- **The contents of a repository are a function of its history**: one tool for each action that
arrived, as it was generated, with the overrides registered for it by then. They only grow, and
failures leave no trace. -/
theorem run_contents (h : Distinguishes digest lookup policy calls) (toolType : String) :
    let repository := ((Repository.new digest toolType lookup policy).run calls).1
    repository.tools.toList = contents (history lookup policy calls) ∧
      repository.tools.toList.Pairwise
        (fun tool later ↦ tool.action.equal later.action = false) ∧
      (∀ tool ∈ repository.tools.toList,
        tool.action.generate lookup policy = .ok { tool.spec with override := none }) ∧
      (∀ earlier later, calls = earlier ++ later →
        ((Repository.new digest toolType lookup policy).run earlier).1.list <+: repository.list) ∧
      ∀ call failure, (repository.call call).2 = .added (.error failure) ∨
        (repository.call call).2 = .registered (.error failure) →
          (repository.call call).1 = repository := by
  intro repository
  obtain ⟨htype, htools⟩ := tools_run h toolType
  refine ⟨htools, htools ▸ pairwise_contents _, fun tool htool ↦ ?_, fun earlier later hcalls ↦ ?_,
    fun call failure ↦ repository.call_of_error⟩
  · obtain ⟨spec, override, hmem, hspec⟩ := arrival_of_mem_contents (htools ▸ htool)
    have hgenerate : tool.action.generate lookup policy = .ok spec :=
      generated_of_mem_history _ hmem
    have hnone := (Action.override_generate hgenerate).1
    rw [hgenerate, hspec, ← hnone]
  · subst hcalls
    obtain ⟨htype', htools'⟩ := tools_run h.of_append toolType
    -- The contents of a longer history begin with those of a shorter one.
    have hbegin : contents (history lookup policy earlier) <+:
        contents (history lookup policy (earlier ++ later)) := by
      rw [history, history, List.flatMap_append, contents_append]
      exact List.prefix_append _ _
    rw [Repository.list, Repository.list, htype, htype', htools, htools']
    exact hbegin.map _

end Runs

/-- Two overrides in time, the tool, an override too late, a failure, and the tool again. -/
def lateCalls : List Call :=
  [.overrideFor asking ⟨some "question", none, none, none⟩,
    .overrideFor askingReordered ⟨some "prompt", some "Asks.", none, none⟩, .add asking,
    .overrideFor asking ⟨some "late", none, none, none⟩, .add .contending,
    .workflow false .zero (.ofActions [askingReordered])]

/-- Texts that are taken as their own digests are told apart. -/
theorem distinguishes_lateCalls : Distinguishes id ∅ .fail lateCalls where
  indexable := by decide
  injOn := Function.injective_id.injOn

/-- The overrides in time are merged into the tool, the late one is not. -/
theorem run_lateCalls :
    ((Repository.new id "tools" ∅ .fail).run lateCalls).1.tools.toList.map
        (fun tool ↦ (tool.action, tool.spec.override)) =
      [(asking, some ⟨some "prompt", some "Asks.", none, none⟩)] := by
  obtain ⟨htools, -⟩ := run_contents distinguishes_lateCalls "tools"
  rw [htools]
  rfl

end ActionTools
