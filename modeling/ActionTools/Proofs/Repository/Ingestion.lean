import ActionTools.Proofs.Repository.Generated
import ActionTools.Proofs.Repository.History

/-!
# What becomes of the actions of a workflow

A repository takes in the actions of a workflow one by one (`Takes`): each is left out as
scaffolding, becomes a tool, or is a duplicate, and is counted as what it was. So the counts add up
to the number of actions (`TakesAll.total_eq`), and the list grows by the tools counted as inserted
(`TakesAll.exists_list_eq`). An action that fails ends the workflow, and what was done by then is
what the actions before it do alone (`addActions_eq_error`).

A workflow that got through leaves a tool for each of its actions that is not left out. From then on
equal actions find that tool, whatever happens in between, so adding the workflow again changes
nothing (`addActions_of_holds`). Whether an action is found is read off the history
(`holds_run`), which is where the digest has to tell texts apart.
-/

namespace ActionTools

/-- All actions counted. -/
def Tally.total (tally : Tally) : Nat := tally.inserted + tally.duplicates + tally.skipped

namespace Repository

variable {κ : Type} [BEq κ] [Hashable κ]

/-! ### Taking in actions -/

/-- What becomes of one action that does not fail. -/
inductive Takes (skipScaffolding : Bool) (repository : Repository κ) (tally : Tally)
    (action : Action) : Repository κ → Tally → Prop
  /-- The action is scaffolding and left out. -/
  | skipped (hskip : (skipScaffolding && action.hasScaffoldIdentifier) = true) :
    Takes skipScaffolding repository tally action repository tally.countSkipped
  /-- The action becomes a tool. -/
  | inserted {next : Repository κ}
    (hkeep : (skipScaffolding && action.hasScaffoldIdentifier) = false)
    (hadd : repository.add action = .ok (next, true)) :
    Takes skipScaffolding repository tally action next tally.countInserted
  /-- There is a tool for the action already. -/
  | duplicate {next : Repository κ}
    (hkeep : (skipScaffolding && action.hasScaffoldIdentifier) = false)
    (hadd : repository.add action = .ok (next, false)) :
    Takes skipScaffolding repository tally action next tally.countDuplicate

/-- Actions taken in one after the other, none of which fails. -/
inductive TakesAll (skipScaffolding : Bool) :
    Repository κ → Tally → List Action → Repository κ → Tally → Prop
  | nil {repository : Repository κ} {tally : Tally} :
    TakesAll skipScaffolding repository tally [] repository tally
  | cons {repository next last : Repository κ} {tally counted final : Tally} {action : Action}
    {rest : List Action} (htakes : Takes skipScaffolding repository tally action next counted)
    (hrest : TakesAll skipScaffolding next counted rest last final) :
    TakesAll skipScaffolding repository tally (action :: rest) last final

variable {skipScaffolding : Bool} {repository next last : Repository κ}
  {tally counted : Tally} {action : Action} {actions : List Action}

/-- Once an action has been taken in, the others follow. -/
theorem addActions_cons_of_takes (h : Takes skipScaffolding repository tally action next counted)
    (rest : List Action) :
    repository.addActions skipScaffolding tally (action :: rest) =
      next.addActions skipScaffolding counted rest := by
  cases h with
  | skipped hskip => rw [addActions, if_pos hskip]
  | inserted hkeep hadd => rw [addActions, hkeep, if_neg Bool.false_ne_true, hadd]
  | duplicate hkeep hadd => rw [addActions, hkeep, if_neg Bool.false_ne_true, hadd]

/-- An action is taken in, or it fails. -/
theorem exists_takes_or (skipScaffolding : Bool) (repository : Repository κ) (tally : Tally)
    (action : Action) :
    (∃ next counted, Takes skipScaffolding repository tally action next counted) ∨
      ∃ failure, (skipScaffolding && action.hasScaffoldIdentifier) = false ∧
        repository.add action = .error failure := by
  cases hskip : skipScaffolding && action.hasScaffoldIdentifier with
  | true => exact .inl ⟨_, _, .skipped hskip⟩
  | false =>
    cases hadd : repository.add action with
    | error failure => exact .inr ⟨failure, rfl, rfl⟩
    | ok pair =>
      obtain ⟨next, inserted⟩ := pair
      cases inserted with
      | true => exact .inl ⟨_, _, .inserted hskip hadd⟩
      | false => exact .inl ⟨_, _, .duplicate hskip hadd⟩

/-- When all actions are taken in, adding them succeeds with the final tally. -/
theorem addActions_of_takesAll
    (h : TakesAll skipScaffolding repository tally actions last counted) :
    repository.addActions skipScaffolding tally actions = (last, counted, .ok ()) := by
  induction h with
  | nil => rfl
  | cons htakes _ ih => rw [addActions_cons_of_takes htakes, ih]

/-- **All actions are taken in, or those before one that fails.** -/
theorem exists_takesAll_or (skipScaffolding : Bool) (repository : Repository κ) (tally : Tally)
    (actions : List Action) :
    (∃ last counted, TakesAll skipScaffolding repository tally actions last counted) ∨
      ∃ before failing after last counted failure, actions = before ++ failing :: after ∧
        TakesAll skipScaffolding repository tally before last counted ∧
        (skipScaffolding && failing.hasScaffoldIdentifier) = false ∧
        last.add failing = .error failure ∧
        repository.addActions skipScaffolding tally actions = (last, counted, .error failure) := by
  induction actions generalizing repository tally with
  | nil => exact .inl ⟨_, _, .nil⟩
  | cons action rest ih =>
    rcases exists_takes_or skipScaffolding repository tally action with
      ⟨next, counted, htakes⟩ | ⟨failure, hkeep, hadd⟩
    · rcases ih next counted with ⟨last, final, hrest⟩ |
        ⟨before, failing, after, last, final, failure, rfl, hbefore, hkeep, hadd, hrest⟩
      · exact .inl ⟨last, final, .cons htakes hrest⟩
      · exact .inr ⟨action :: before, failing, after, last, final, failure, rfl,
          .cons htakes hbefore, hkeep, hadd, (addActions_cons_of_takes htakes _).trans hrest⟩
    · exact .inr ⟨[], action, rest, repository, tally, failure, rfl, .nil, hkeep, hadd, by
        rw [addActions, hkeep, if_neg Bool.false_ne_true, hadd]⟩

/-- When adding them succeeds, all actions have been taken in. -/
theorem takesAll_of_addActions
    (h : repository.addActions skipScaffolding tally actions = (last, counted, .ok ())) :
    TakesAll skipScaffolding repository tally actions last counted := by
  rcases exists_takesAll_or skipScaffolding repository tally actions with
    ⟨last', counted', htakes⟩ | ⟨_, _, _, _, _, _, -, -, -, -, herror⟩
  · rw [addActions_of_takesAll htakes] at h
    cases h
    exact htakes
  · rw [herror] at h
    cases h

/-- **A failure ends a workflow** after what the actions before do alone. -/
theorem addActions_eq_error {failure : Failure}
    (h : repository.addActions skipScaffolding tally actions = (last, counted, .error failure)) :
    ∃ before failing after, actions = before ++ failing :: after ∧
      TakesAll skipScaffolding repository tally before last counted ∧
      (skipScaffolding && failing.hasScaffoldIdentifier) = false ∧
      last.add failing = .error failure := by
  rcases exists_takesAll_or skipScaffolding repository tally actions with
    ⟨last', counted', htakes⟩ |
      ⟨before, failing, after, _, _, _, hactions, hbefore, hkeep, hadd, herror⟩
  · rw [addActions_of_takesAll htakes] at h
    cases h
  · rw [herror] at h
    cases h
    exact ⟨before, failing, after, hactions, hbefore, hkeep, hadd⟩

/-! ### Counts and growth -/

theorem list_push (repository : Repository κ) (action : Action) (spec : Spec) :
    (repository.push action spec).list = repository.list ++ [⟨repository.toolType, spec⟩] := by
  simp [list, push]

/-- Every action is counted once. -/
theorem Takes.total_eq (h : Takes skipScaffolding repository tally action next counted) :
    counted.total = tally.total + 1 := by
  cases h <;> simp only [Tally.total, Tally.countSkipped, Tally.countInserted,
    Tally.countDuplicate] <;> omega

/-- The list grows by the tool that is counted as inserted, if there is one. -/
theorem Takes.exists_list_eq (h : Takes skipScaffolding repository tally action next counted) :
    ∃ added, next.list = repository.list ++ added ∧
      counted.inserted = tally.inserted + added.length := by
  cases h with
  | skipped => exact ⟨[], by simp, rfl⟩
  | inserted hkeep hadd =>
    obtain ⟨spec, -, ⟨-, hfalse, -⟩ | ⟨-, -, override, rfl⟩⟩ := add_eq_ok hadd
    · cases hfalse
    · exact ⟨_, list_push .., rfl⟩
  | duplicate hkeep hadd =>
    obtain ⟨spec, -, ⟨-, -, rfl⟩ | ⟨-, hfalse, -⟩⟩ := add_eq_ok hadd
    · exact ⟨[], by simp, rfl⟩
    · cases hfalse

/-- **Every action is counted.** -/
theorem TakesAll.total_eq (h : TakesAll skipScaffolding repository tally actions last counted) :
    counted.total = tally.total + actions.length := by
  induction h with
  | nil => rfl
  | cons htakes _ ih =>
    rw [ih, htakes.total_eq, List.length_cons]
    omega

/-- **The list grows by the tools counted as inserted.** -/
theorem TakesAll.exists_list_eq
    (h : TakesAll skipScaffolding repository tally actions last counted) :
    ∃ added, last.list = repository.list ++ added ∧
      counted.inserted = tally.inserted + added.length := by
  induction h with
  | nil => exact ⟨[], by simp, rfl⟩
  | cons htakes _ ih =>
    obtain ⟨first, hfirst, hcount⟩ := htakes.exists_list_eq
    obtain ⟨added, hadded, hcounts⟩ := ih
    refine ⟨first ++ added, by rw [hadded, hfirst, List.append_assoc], ?_⟩
    rw [hcounts, hcount, List.length_append]
    omega

/-! ### Actions that have been taken in -/

theorem Takes.settings (h : Takes skipScaffolding repository tally action next counted) :
    next.lookup = repository.lookup ∧ next.policy = repository.policy := by
  cases h with
  | skipped => exact ⟨rfl, rfl⟩
  | inserted _ hadd => exact settings_add hadd
  | duplicate _ hadd => exact settings_add hadd

theorem TakesAll.settings (h : TakesAll skipScaffolding repository tally actions last counted) :
    last.lookup = repository.lookup ∧ last.policy = repository.policy := by
  induction h with
  | nil => exact ⟨rfl, rfl⟩
  | cons htakes _ ih =>
    exact ⟨ih.1.trans htakes.settings.1, ih.2.trans htakes.settings.2⟩

/-- An action that is taken in and not left out has a tool. -/
theorem Takes.exists_generate (h : Takes skipScaffolding repository tally action next counted)
    (hkeep : (skipScaffolding && action.hasScaffoldIdentifier) = false) :
    ∃ spec, action.generate repository.lookup repository.policy = .ok spec := by
  cases h with
  | skipped hskip => rw [hskip] at hkeep; cases hkeep
  | inserted _ hadd => exact (add_eq_ok hadd).imp fun _ h ↦ h.1
  | duplicate _ hadd => exact (add_eq_ok hadd).imp fun _ h ↦ h.1

/-- Actions that are taken in have tools. -/
theorem TakesAll.exists_generate
    (h : TakesAll skipScaffolding repository tally actions last counted) :
    ∀ action ∈ actions, (skipScaffolding && action.hasScaffoldIdentifier) = false →
      ∃ spec, action.generate repository.lookup repository.policy = .ok spec := by
  induction h with
  | nil => exact fun action hmem ↦ absurd hmem List.not_mem_nil
  | cons htakes _ ih =>
    rw [htakes.settings.1, htakes.settings.2] at ih
    exact List.forall_mem_cons.2 ⟨htakes.exists_generate, ih⟩

/-- **Actions that are found are no news**: taking them in changes nothing and inserts nothing, be
there a failure or not. -/
theorem addActions_of_holds
    (hholds : ∀ action ∈ actions, (skipScaffolding && action.hasScaffoldIdentifier) = false →
      ∀ spec, action.generate repository.lookup repository.policy = .ok spec →
        repository.holds action spec.metadata = true) :
    (repository.addActions skipScaffolding tally actions).1 = repository ∧
      (repository.addActions skipScaffolding tally actions).2.1.inserted = tally.inserted := by
  induction actions generalizing tally with
  | nil => exact ⟨rfl, rfl⟩
  | cons action rest ih =>
    obtain ⟨haction, hrest⟩ := List.forall_mem_cons.1 hholds
    rw [addActions]
    cases hskip : skipScaffolding && action.hasScaffoldIdentifier with
    | true => exact ih hrest
    | false =>
      rw [if_neg Bool.false_ne_true]
      cases hadd : repository.add action with
      | error failure => exact ⟨rfl, rfl⟩
      | ok pair =>
        obtain ⟨next, inserted⟩ := pair
        obtain ⟨spec, hspec, ⟨-, rfl, rfl⟩ | ⟨hnew, -, -⟩⟩ := add_eq_ok hadd
        · exact ih hrest
        · rw [haction hskip spec hspec] at hnew
          cases hnew

/-- Actions that have tools do not fail. -/
theorem addActions_of_generate
    (hgenerate : ∀ action ∈ actions, (skipScaffolding && action.hasScaffoldIdentifier) = false →
      ∃ spec, action.generate repository.lookup repository.policy = .ok spec) :
    (repository.addActions skipScaffolding tally actions).2.2 = .ok () := by
  rcases exists_takesAll_or skipScaffolding repository tally actions with
    ⟨last, counted, htakes⟩ |
      ⟨before, failing, after, last, counted, failure, rfl, hbefore, hkeep, hadd, -⟩
  · rw [addActions_of_takesAll htakes]
  · obtain ⟨spec, hspec⟩ := hgenerate failing (by simp) hkeep
    rw [add, hbefore.settings.1, hbefore.settings.2, hspec] at hadd
    dsimp only at hadd
    split at hadd
    · cases hadd
    · split at hadd <;> cases hadd

end Repository

/-! ### What the history knows -/

/-- When nothing fails, the events of all items happen. -/
theorem Event.mem_upToFailure {α : Type} {event : α → Except Failure Event} {items : List α}
    (hevents : ∀ a ∈ items, ∃ event', event a = .ok event') {a : α} (ha : a ∈ items)
    {event' : Event} (h : event a = .ok event') : event' ∈ upToFailure event items := by
  induction items with
  | nil => cases ha
  | cons first rest ih =>
    obtain ⟨⟨event'', hfirst⟩, hrest⟩ := List.forall_mem_cons.1 hevents
    rw [upToFailure, hfirst]
    rcases List.mem_cons.1 ha with rfl | hmem
    · rw [h] at hfirst
      cases hfirst
      exact List.mem_cons_self
    · exact List.mem_cons_of_mem _ (ih hrest hmem)

/-- Every action of a workflow that gets through arrives, unless it is left out. -/
theorem hasArrived_workflow {lookup : Lookup} {policy : CollisionPolicy} {skipScaffolding : Bool}
    {tally : Tally} {source : Workflow}
    (hgenerate : ∀ action ∈ source.actions,
      (skipScaffolding && action.hasScaffoldIdentifier) = false →
        ∃ spec, action.generate lookup policy = .ok spec)
    {arrived action : Action} (hmem : arrived ∈ source.actions)
    (hkeep : (skipScaffolding && arrived.hasScaffoldIdentifier) = false)
    (hequal : arrived.equal action = true) :
    hasArrived action (Call.events lookup policy (.workflow skipScaffolding tally source)) =
      true := by
  -- Since none of them fails, all actions that are not left out arrive.
  have harrival : ∀ action ∈ source.actions.filter fun action ↦
      !(skipScaffolding && action.hasScaffoldIdentifier),
        ∃ spec, Event.ofAction lookup policy action = .ok (.arrival action spec) := by
    intro action haction
    rw [List.mem_filter, Bool.not_eq_true'] at haction
    obtain ⟨spec, hspec⟩ := hgenerate action haction.1 haction.2
    exact ⟨spec, by rw [Event.ofAction, hspec]⟩
  have hfiltered : arrived ∈ source.actions.filter fun action ↦
      !(skipScaffolding && action.hasScaffoldIdentifier) := by
    rw [List.mem_filter, Bool.not_eq_true']
    exact ⟨hmem, hkeep⟩
  obtain ⟨spec, hspec⟩ := harrival arrived hfiltered
  refine List.any_eq_true.2
    ⟨.arrival arrived spec, Event.mem_upToFailure ?_ hfiltered hspec, hequal⟩
  intro action haction
  obtain ⟨spec, hspec⟩ := harrival action haction
  exact ⟨_, hspec⟩

/-- What has arrived by a call has arrived. -/
theorem hasArrived_history {lookup : Lookup} {policy : CollisionPolicy} {calls : List Call}
    {call : Call} (hcall : call ∈ calls) {action : Action}
    (h : hasArrived action (call.events lookup policy) = true) :
    hasArrived action (history lookup policy calls) = true := by
  rw [history, hasArrived, List.any_flatMap, List.any_eq_true]
  exact ⟨call, hcall, h⟩

section Runs

variable {κ : Type} [BEq κ] [Hashable κ] {digest : String → κ} {lookup : Lookup}
  {policy : CollisionPolicy}

/-- **An action is found exactly when an equal one has arrived.** -/
theorem Repository.holds_run [LawfulBEq κ] {earlier later : List Call}
    (h : Distinguishes digest lookup policy (earlier ++ later)) (toolType : String)
    {call : Call} (hcall : call ∈ earlier ++ later) {action : Action}
    (haction : action ∈ call.actions) {spec : Spec}
    (hspec : action.generate lookup policy = .ok spec) :
    ((Repository.new digest toolType lookup policy).run earlier).1.holds action spec.metadata =
      hasArrived action (history lookup policy earlier) := by
  have hmem : action ∈ (Scope.ofCalls h).actions := ⟨call, hcall, haction⟩
  have hactions : ∀ call ∈ earlier, ∀ action ∈ call.actions, action ∈ (Scope.ofCalls h).actions :=
    fun call hearlier _ haction ↦ ⟨call, List.mem_append_left _ hearlier, haction⟩
  have hmetadata : ∀ call ∈ earlier, ∀ metadata ∈ call.metadata lookup policy,
      metadata ∈ (Scope.ofCalls h).metadata :=
    fun call hearlier _ hmetadata ↦ ⟨call, List.mem_append_left _ hearlier, hmetadata⟩
  obtain ⟨-, hsimulates⟩ := (Simulates.new (Scope.ofCalls h) toolType).run hactions hmetadata
  have hreflects : Reflects ((LinearRepository.new toolType lookup policy).run earlier).1
      (history lookup policy earlier) := by
    rw [LinearRepository.run_eq]
    exact .foldl_receive toolType generated_of_mem_history
  exact (hsimulates.holds_eq hmem ((Scope.ofCalls h).generated action hmem spec hspec)).trans
    (hreflects.holds_eq generated_of_mem_history hspec)

section Workflow

variable {calls : List Call} {toolType : String} {skipScaffolding : Bool} {tally counted : Tally}
  {source : Workflow} {next : Repository κ}
  (hnext : ((Repository.new digest toolType lookup policy).run calls).1.addWorkflow
    skipScaffolding tally source = (next, counted, .ok ()))

include hnext

/-- The calls after a workflow go on from where it ended. -/
theorem Repository.run_after_workflow (later : List Call) :
    (next.run later).1 = ((Repository.new digest toolType lookup policy).run
      (calls ++ .workflow skipScaffolding tally source :: later)).1 := by
  rw [Repository.run_append]
  show _ = ((((Repository.new digest toolType lookup policy).run calls).1.addWorkflow
    skipScaffolding tally source).1.run later).1
  rw [hnext]

/-- A workflow that got through has tools for all actions that are not left out. -/
theorem Repository.exists_generate_of_addWorkflow :
    ∀ action ∈ source.actions, (skipScaffolding && action.hasScaffoldIdentifier) = false →
      ∃ spec, action.generate lookup policy = .ok spec := by
  have hall := (takesAll_of_addActions hnext).exists_generate
  obtain ⟨hlookup, hpolicy⟩ := settings_run (Repository.new digest toolType lookup policy) calls
  rwa [hlookup, hpolicy] at hall

/-- **A workflow that got through is absorbed**: after whatever calls, a workflow of actions equal
to its own changes nothing. -/
theorem Repository.addWorkflow_absorbed [LawfulBEq κ] {later : List Call} {tally' : Tally}
    {again : Workflow}
    (h : Distinguishes digest lookup policy
      (calls ++ .workflow skipScaffolding tally source :: later ++
        [.workflow skipScaffolding tally' again]))
    (hagain : ∀ action ∈ again.actions, ∃ original ∈ source.actions,
      original.equal action = true) :
    let last := (next.run later).1
    (last.addWorkflow skipScaffolding tally' again).1 = last ∧
      (last.addWorkflow skipScaffolding tally' again).2.1.inserted = tally'.inserted ∧
        (again.actions ⊆ source.actions →
          (last.addWorkflow skipScaffolding tally' again).2.2 = .ok ()) := by
  intro last
  have hlast : last = _ := run_after_workflow hnext later
  have hgenerate := exists_generate_of_addWorkflow hnext
  obtain ⟨hlookup, hpolicy⟩ : last.lookup = lookup ∧ last.policy = policy := by
    rw [hlast]
    exact settings_run _ _
  -- What arrived with the workflow is still there, since tools are never taken away.
  have hholds : ∀ action ∈ again.actions,
      (skipScaffolding && action.hasScaffoldIdentifier) = false →
        ∀ spec, action.generate last.lookup last.policy = .ok spec →
          last.holds action spec.metadata = true := by
    intro action haction hkeep spec hspec
    rw [hlookup, hpolicy] at hspec
    obtain ⟨original, horiginal, hequal⟩ := hagain action haction
    have hkeep' : (skipScaffolding && original.hasScaffoldIdentifier) = false := by
      rwa [Action.hasScaffoldIdentifier, Action.identifier_of_equal hequal]
    have harrived : hasArrived action (history lookup policy
        (calls ++ .workflow skipScaffolding tally source :: later)) = true :=
      hasArrived_history (List.mem_append_right _ List.mem_cons_self)
        (hasArrived_workflow hgenerate horiginal hkeep' hequal)
    rw [hlast, holds_run h toolType (List.mem_append_right _ List.mem_cons_self) haction hspec,
      harrived]
  refine and_assoc.1 ⟨addActions_of_holds hholds, fun hsub ↦ ?_⟩
  refine addActions_of_generate fun action haction hkeep ↦ ?_
  rw [hlookup, hpolicy]
  exact hgenerate action (hsub haction) hkeep

end Workflow

/-- **Every action of a workflow is accounted for.** If the workflow gets through, all its actions
are counted, the list has grown by the tools counted as inserted, and from then on, whatever calls
follow, the same workflow again changes nothing, be it with the keys of its actions in another
order. If it fails, the actions before the failing one are counted, and nothing else has been
done. -/
theorem run_workflow_accounted [LawfulBEq κ] (digest : String → κ) (toolType : String)
    (lookup : Lookup) (policy : CollisionPolicy) (calls : List Call) (skipScaffolding : Bool)
    (tally : Tally) (source : Workflow) :
    let repository := ((Repository.new digest toolType lookup policy).run calls).1
    (∀ next counted, repository.addWorkflow skipScaffolding tally source =
        (next, counted, .ok ()) →
      counted.total = tally.total + source.actions.length ∧
      (∃ added, next.list = repository.list ++ added ∧
        counted.inserted = tally.inserted + added.length) ∧
      ∀ later tally' again,
        Distinguishes digest lookup policy
          (calls ++ .workflow skipScaffolding tally source :: later ++
            [.workflow skipScaffolding tally' again]) →
        (∀ action ∈ again.actions, ∃ original ∈ source.actions,
          original.equal action = true) →
        let last := (next.run later).1
        (last.addWorkflow skipScaffolding tally' again).1 = last ∧
          (last.addWorkflow skipScaffolding tally' again).2.1.inserted = tally'.inserted ∧
            (again.actions ⊆ source.actions →
              (last.addWorkflow skipScaffolding tally' again).2.2 = .ok ())) ∧
    ∀ stopped counted failure, repository.addWorkflow skipScaffolding tally source =
        (stopped, counted, .error failure) →
      ∃ before failing after, source.actions = before ++ failing :: after ∧
        counted.total = tally.total + before.length ∧
        repository.addWorkflow skipScaffolding tally { source with actions := before } =
          (stopped, counted, .ok ()) ∧
        (skipScaffolding && failing.hasScaffoldIdentifier) = false ∧
        stopped.add failing = .error failure := by
  intro repository
  constructor
  · intro next counted hnext
    have htakes := Repository.takesAll_of_addActions hnext
    exact ⟨htakes.total_eq, htakes.exists_list_eq, fun later tally' again h hagain ↦
      Repository.addWorkflow_absorbed hnext h hagain⟩
  · intro stopped counted failure hstopped
    obtain ⟨before, failing, after, hactions, hbefore, hkeep, hadd⟩ :=
      Repository.addActions_eq_error hstopped
    exact ⟨before, failing, after, hactions, hbefore.total_eq,
      Repository.addActions_of_takesAll hbefore, hkeep, hadd⟩

end Runs

/-- An action, the same written differently, and an exit. -/
def askings : Workflow :=
  .ofActions [asking, askingReordered, ⟨"is.workflow.actions.exit", .empty⟩]

/-- Two actions with one that fails between them. -/
def askingsBroken : Workflow := .ofActions [asking, .contending, askingReordered]

/-- A workflow that fails, one that gets through, an override, and a part of the latter again. -/
def askingCalls : List Call :=
  [.workflow true .zero askingsBroken, .workflow true .zero askings,
    .overrideFor asking ⟨some "question", none, none, none⟩,
    .workflow true .zero (.ofActions [askingReordered])]

/-- Texts that are taken as their own digests are told apart. -/
theorem distinguishes_askingCalls : Distinguishes id ∅ .fail askingCalls where
  indexable := by decide
  injOn := Function.injective_id.injOn

/-- The first workflow ends after one action, and the second has nothing new. -/
theorem exists_addWorkflow_askings :
    ∃ stopped next : Repository String,
      (Repository.new id "tools" ∅ .fail).addWorkflow true .zero askingsBroken =
        (stopped, ⟨1, 0, 0⟩, .error (.namingCollision "t" "x")) ∧
      stopped.addWorkflow true .zero askings = (next, ⟨0, 2, 1⟩, .ok ()) := by
  have hbegin : Distinguishes id ∅ .fail (askingCalls.take 2) :=
    Distinguishes.of_append (show Distinguishes id ∅ .fail
      (askingCalls.take 2 ++ askingCalls.drop 2) from distinguishes_askingCalls)
  -- A look into the hash table does not evaluate, so the counts are read off the scanning
  -- repository.
  have hanswers : ((Repository.new id "tools" ∅ .fail).run (askingCalls.take 2)).2 =
      [.tallied ⟨1, 0, 0⟩ (.error (.namingCollision "t" "x")), .tallied ⟨0, 2, 1⟩ (.ok ())] :=
    (Simulates.run_new hbegin "tools").1.trans rfl
  simp only [askingCalls, List.take_succ_cons, List.take_zero, Repository.run, Repository.call,
    List.cons.injEq, Answer.tallied.injEq, and_true] at hanswers
  obtain ⟨⟨hcounted, hfailure⟩, hcounted', hdone⟩ := hanswers
  exact ⟨_, _, Prod.ext rfl (Prod.ext hcounted hfailure), Prod.ext rfl (Prod.ext hcounted' hdone)⟩

/-- The failed workflow did what its first action does, and what gets through comes again for
nothing. -/
theorem run_workflow_askings :
    let start : Repository String := .new id "tools" ∅ .fail
    ∃ stopped next,
      start.addWorkflow true .zero askingsBroken =
        (stopped, ⟨1, 0, 0⟩, .error (.namingCollision "t" "x")) ∧
      (∃ before failing after, askingsBroken.actions = before ++ failing :: after ∧
        before.length = 1 ∧
        start.addWorkflow true .zero { askingsBroken with actions := before } =
          (stopped, ⟨1, 0, 0⟩, .ok ())) ∧
      stopped.addWorkflow true .zero askings = (next, ⟨0, 2, 1⟩, .ok ()) ∧
      Tally.total ⟨0, 2, 1⟩ = askings.actions.length ∧
      let last := (next.run [.overrideFor asking ⟨some "question", none, none, none⟩]).1
      (last.addWorkflow true .zero (.ofActions [askingReordered])).1 = last := by
  intro start
  obtain ⟨stopped, next, hstopped, hnext⟩ := exists_addWorkflow_askings
  have hrun : (start.run (askingCalls.take 1)).1 = stopped := congrArg Prod.fst hstopped
  obtain ⟨before, failing, after, hactions, htotal, hbefore, -⟩ :=
    (run_workflow_accounted id "tools" ∅ .fail [] true .zero askingsBroken).2 _ _ _ hstopped
  obtain ⟨hcounts, -, habsorbs⟩ := (run_workflow_accounted id "tools" ∅ .fail
    (askingCalls.take 1) true .zero askings).1 next _ (hrun ▸ hnext)
  obtain ⟨hlast, -, -⟩ := habsorbs [.overrideFor asking ⟨some "question", none, none, none⟩] .zero
    (.ofActions [askingReordered]) distinguishes_askingCalls fun action haction ↦
      ⟨asking, List.mem_cons_self, List.mem_singleton.1 haction ▸ by decide⟩
  have hlength : before.length = 1 := by
    rw [← Nat.zero_add before.length]
    exact htotal.symm
  exact ⟨stopped, next, hstopped, ⟨before, failing, after, hactions, hlength, hbefore⟩, hnext,
    hcounts.trans (Nat.zero_add _), hlast⟩

end ActionTools
