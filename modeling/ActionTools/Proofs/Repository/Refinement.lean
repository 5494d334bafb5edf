import ActionTools.Proofs.Generation
import ActionTools.Proofs.Repository.Keys
import ActionTools.Proofs.Repository.Linear
import Mathlib.Data.List.Find
import Mathlib.Data.Set.Function

/-!
# The repository with digests refines the scanning one

As long as different canonical texts have different digests, looking at one place is as good as
looking everywhere: every sequence of calls is answered by both repositories alike, and the lists of
tools agree (`run_eq_linear`).

The digest has to tell apart only what a sequence of calls brings up. `Scope` is such a set of
actions and metadata; in it, digests are equal exactly when the actions or metadata are
(`Scope.action_digest_eq_iff`, `Scope.metadata_digest_eq_iff`). `IndexedBy` says that an index
answers each key with the first position at which an item has it. `Simulates` is the relation
between the two repositories: the same lists, both indices up to date, nothing from outside the
scope. In related repositories the same is found (`Simulates.holds_eq`,
`Simulates.pendingPosition?_eq`), so each operation keeps them related and gives the same answer
(`Simulates.add`, `Simulates.addOverride`), and so do all runs (`Simulates.run`).
-/

namespace ActionTools

/-! ### Indices -/

section Index

variable {κ α : Type} [BEq κ] [Hashable κ] {index : Std.HashMap κ Nat} {items : List α}
  {key : α → κ}

/-- The index answers each key with the first position of an item that has it. -/
def IndexedBy (key : α → κ) (index : Std.HashMap κ Nat) (items : List α) : Prop :=
  ∀ k, index[k]? = items.findIdx? fun item ↦ key item == k

theorem IndexedBy.empty : IndexedBy key (∅ : Std.HashMap κ Nat) [] := by
  intro k
  rw [Std.HashMap.getElem?_empty, List.findIdx?_nil]

/-- What the index leads to is the first item with the key. -/
theorem IndexedBy.find?_eq (h : IndexedBy key index items) (k : κ) :
    (index[k]?.bind fun position ↦ items[position]?) = items.find? fun item ↦ key item == k := by
  rw [h, List.find?_eq_bind_findIdx?_getElem?]

/-- A new item goes to the end under a new key. -/
theorem IndexedBy.push [LawfulBEq κ] (h : IndexedBy key index items) (item : α)
    (hnew : ∀ other ∈ items, key other ≠ key item) :
    IndexedBy key (index.insert (key item) items.length) (items ++ [item]) := by
  intro k
  rw [Std.HashMap.getElem?_insert, h, List.findIdx?_append, List.findIdx?_singleton]
  cases hkey : key item == k with
  | true =>
    have hnone : (items.findIdx? fun other ↦ key other == k) = none := by
      refine List.findIdx?_eq_none_iff.2 fun other hother ↦ beq_false_of_ne ?_
      exact eq_of_beq hkey ▸ hnew other hother
    simp [hnone]
  | false => simp

/-- A change that does not touch what is tested leaves the position of the first item that
passes. -/
theorem findIdx?_modify {f : α → α} {p : α → Bool} (hf : ∀ item, p (f item) = p item)
    (items : List α) (position : Nat) :
    (items.modify position f).findIdx? p = items.findIdx? p := by
  induction items generalizing position with
  | nil => cases position <;> rfl
  | cons item items ih =>
    cases position with
    | zero => simp [List.modify, List.findIdx?_cons, hf]
    | succ position => simp [List.findIdx?_cons, ih]

/-- Items may change as long as they keep their keys. -/
theorem IndexedBy.modify (h : IndexedBy key index items) {f : α → α}
    (hf : ∀ item, key (f item) = key item) (position : Nat) :
    IndexedBy key index (items.modify position f) := by
  intro k
  rw [h, findIdx?_modify fun item ↦ by rw [hf item]]

theorem findIdx?_congr {p q : α → Bool} (h : ∀ item ∈ items, p item = q item) :
    items.findIdx? p = items.findIdx? q := by
  induction items with
  | nil => rfl
  | cons item items ih =>
    rw [List.findIdx?_cons, List.findIdx?_cons, h item (List.mem_cons_self ..),
      ih fun other hother ↦ h other (.tail _ hother)]

end Index

/-! ### What the digest has to tell apart -/

/-- Actions and metadata whose canonical texts the digest tells apart, under the tables and the
policy by which tools are generated. -/
structure Scope {κ : Type} (digest : String → κ) where
  lookup : Lookup
  policy : CollisionPolicy
  actions : Set Action
  metadata : Set Metadata
  generated : ∀ action ∈ actions, ∀ spec, action.generate lookup policy = .ok spec →
    spec.metadata ∈ metadata
  indexable : ∀ m ∈ metadata, m.Indexable
  injOn : Set.InjOn digest
    {text | (∃ action ∈ actions, action.json.canonical = text) ∨
      ∃ m ∈ metadata, m.json.canonical = text}

namespace Scope

variable {κ : Type} {digest : String → κ} (scope : Scope digest)

/-- Within the scope, equal digests of actions are those of equal actions. -/
theorem action_digest_eq_iff {a b : Action} (ha : a ∈ scope.actions) (hb : b ∈ scope.actions) :
    digest a.json.canonical = digest b.json.canonical ↔ a.equal b = true := by
  rw [scope.injOn.eq_iff (.inl ⟨a, ha, rfl⟩) (.inl ⟨b, hb, rfl⟩), Action.canonical_eq_iff]

/-- Within the scope, equal digests of metadata are those of equal metadata. -/
theorem metadata_digest_eq_iff {a b : Metadata} (ha : a ∈ scope.metadata)
    (hb : b ∈ scope.metadata) :
    digest a.json.canonical = digest b.json.canonical ↔ a.equal b = true := by
  rw [scope.injOn.eq_iff (.inr ⟨a, ha, rfl⟩) (.inr ⟨b, hb, rfl⟩),
    Metadata.canonical_eq_iff (scope.indexable a ha) (scope.indexable b hb)]

end Scope

/-! ### Registering by position -/

namespace LinearRepository

/-- Registering changes the first pending override for equal metadata, or adds one. -/
theorem register_eq (metadata : Metadata) (override : Override)
    (pending : List PendingOverride) :
    register metadata override pending =
      match pending.findIdx? fun pending ↦ pending.metadata.equal metadata with
      | some position => pending.modify position fun pending ↦
          { pending with override := pending.override.merge override }
      | none => pending ++ [⟨metadata, override⟩] := by
  induction pending with
  | nil => rfl
  | cons first rest ih =>
    rw [register, List.findIdx?_cons]
    cases hfirst : first.metadata.equal metadata with
    | true => rfl
    | false =>
      rw [ih]
      cases rest.findIdx? fun pending ↦ pending.metadata.equal metadata <;> simp

/-- A registration brings no metadata but its own. -/
theorem metadata_of_mem_register {metadata : Metadata} {override : Override}
    {pending : List PendingOverride} {entry : PendingOverride}
    (h : entry ∈ register metadata override pending) :
    entry.metadata = metadata ∨ ∃ old ∈ pending, old.metadata = entry.metadata := by
  induction pending with
  | nil => exact .inl (List.mem_singleton.1 h ▸ rfl)
  | cons first rest ih =>
    rw [register] at h
    split at h
    · rcases List.mem_cons.1 h with rfl | hrest
      · exact .inr ⟨first, List.mem_cons_self .., rfl⟩
      · exact .inr ⟨entry, .tail _ hrest, rfl⟩
    · rcases List.mem_cons.1 h with rfl | hrest
      · exact .inr ⟨entry, List.mem_cons_self .., rfl⟩
      · rcases ih hrest with hnew | ⟨old, hold, hsame⟩
        · exact .inl hnew
        · exact .inr ⟨old, .tail _ hold, hsame⟩

end LinearRepository

/-! ### The relation between the repositories -/

variable {κ : Type} [BEq κ] [Hashable κ]

/-- The repository holds what the scanning one holds, with both indices up to date. -/
structure Simulates {digest : String → κ} (scope : Scope digest) (repository : Repository κ)
    (linear : LinearRepository) : Prop where
  toolType : repository.toolType = linear.toolType
  lookup : repository.lookup = scope.lookup ∧ linear.lookup = scope.lookup
  policy : repository.policy = scope.policy ∧ linear.policy = scope.policy
  digest : repository.digest = digest
  tools : repository.tools.toList = linear.tools
  pending : repository.pending.toList = linear.pending
  index : IndexedBy (fun tool ↦ repository.key tool.action tool.spec.metadata) repository.index
    linear.tools
  pendingIndex : IndexedBy (fun pending ↦ repository.metadataKey pending.metadata)
    repository.pendingIndex linear.pending
  tools_mem : ∀ tool ∈ linear.tools,
    tool.action ∈ scope.actions ∧ tool.spec.metadata ∈ scope.metadata
  pending_mem : ∀ pending ∈ linear.pending, pending.metadata ∈ scope.metadata

namespace Simulates

variable {digest : String → κ} {scope : Scope digest} {repository : Repository κ}
  {linear : LinearRepository} {action : Action} {metadata : Metadata}

theorem new (scope : Scope digest) (toolType : String) :
    Simulates scope (.new digest toolType scope.lookup scope.policy)
      (.new toolType scope.lookup scope.policy) where
  toolType := rfl
  lookup := ⟨rfl, rfl⟩
  policy := ⟨rfl, rfl⟩
  digest := rfl
  tools := rfl
  pending := rfl
  index := .empty
  pendingIndex := .empty
  tools_mem := by simp [LinearRepository.new]
  pending_mem := by simp [LinearRepository.new]

theorem list_eq (h : Simulates scope repository linear) : repository.list = linear.list := by
  rw [Repository.list, LinearRepository.list, h.tools, h.toolType]

theorem listWithActions_eq (h : Simulates scope repository linear) :
    repository.listWithActions = linear.listWithActions := by
  rw [Repository.listWithActions, LinearRepository.listWithActions, h.tools, h.toolType]

theorem getElem?_tools (h : Simulates scope repository linear) (position : Nat) :
    repository.tools[position]? = linear.tools[position]? := by
  rw [← Array.getElem?_toList, h.tools]

theorem getElem?_pending (h : Simulates scope repository linear) (position : Nat) :
    repository.pending[position]? = linear.pending[position]? := by
  rw [← Array.getElem?_toList, h.pending]

theorem size_tools (h : Simulates scope repository linear) :
    repository.tools.size = linear.tools.length := by
  rw [← Array.length_toList, h.tools]

theorem size_pending (h : Simulates scope repository linear) :
    repository.pending.size = linear.pending.length := by
  rw [← Array.length_toList, h.pending]

/-! ### What is found -/

variable [LawfulBEq κ]

/-- A tool has the key of an action and metadata exactly when it is theirs. -/
theorem key_beq_eq (h : Simulates scope repository linear) (haction : action ∈ scope.actions)
    (hmetadata : metadata ∈ scope.metadata) {tool : StoredTool} (htool : tool ∈ linear.tools) :
    (repository.key tool.action tool.spec.metadata == repository.key action metadata) =
      (tool.action.equal action && tool.spec.metadata.equal metadata) := by
  obtain ⟨htool, htool'⟩ := h.tools_mem tool htool
  rw [Bool.eq_iff_iff, beq_iff_eq, Bool.and_eq_true, Repository.key, Repository.key,
    Repository.metadataKey, Repository.metadataKey, h.digest, Prod.mk.injEq,
    scope.action_digest_eq_iff htool haction, scope.metadata_digest_eq_iff htool' hmetadata]

/-- Pending overrides have the key of some metadata exactly when they are for equal metadata. -/
theorem metadataKey_beq_eq (h : Simulates scope repository linear)
    (hmetadata : metadata ∈ scope.metadata) {pending : PendingOverride}
    (hpending : pending ∈ linear.pending) :
    (repository.metadataKey pending.metadata == repository.metadataKey metadata) =
      pending.metadata.equal metadata := by
  rw [Bool.eq_iff_iff, beq_iff_eq, Repository.metadataKey, Repository.metadataKey, h.digest,
    scope.metadata_digest_eq_iff (h.pending_mem pending hpending) hmetadata]

/-- Looking at one place finds a tool exactly when looking at all does. -/
theorem holds_eq (h : Simulates scope repository linear) (haction : action ∈ scope.actions)
    (hmetadata : metadata ∈ scope.metadata) :
    repository.holds action metadata = linear.holds action metadata := by
  have hcongr := List.find?_congr fun tool htool ↦ h.key_beq_eq haction hmetadata htool
  simp only [Repository.holds, LinearRepository.holds, h.getElem?_tools, h.index.find?_eq, hcongr]
  cases hfind : linear.tools.find? fun tool ↦
      tool.action.equal action && tool.spec.metadata.equal metadata with
  | none => exact (List.any_eq_false.2 (List.find?_eq_none.1 hfind)).symm
  | some tool =>
    have hequal := List.find?_some hfind
    exact hequal.trans (List.any_eq_true.2 ⟨tool, List.mem_of_find?_eq_some hfind, hequal⟩).symm

/-- The index has the first pending override for equal metadata. -/
theorem pendingPosition?_eq (h : Simulates scope repository linear)
    (hmetadata : metadata ∈ scope.metadata) :
    repository.pendingPosition? metadata =
      linear.pending.findIdx? fun pending ↦ pending.metadata.equal metadata := by
  have hcongr := findIdx?_congr fun pending hpending ↦ h.metadataKey_beq_eq hmetadata hpending
  rw [Repository.pendingPosition?, h.pendingIndex, hcongr]
  cases hfind : linear.pending.findIdx? fun pending ↦ pending.metadata.equal metadata with
  | none => rfl
  | some position =>
    obtain ⟨hlt, hequal, -⟩ := List.findIdx?_eq_some_iff_getElem.1 hfind
    have hget : repository.pending[position]? = some linear.pending[position] := by
      rw [h.getElem?_pending, List.getElem?_eq_getElem hlt]
    exact Option.filter_some_pos (by rw [hget]; exact hequal)

/-- Both repositories have the same override pending for metadata of the scope. -/
theorem pendingOverride?_eq (h : Simulates scope repository linear)
    (hmetadata : metadata ∈ scope.metadata) :
    repository.pendingOverride? metadata = linear.pendingOverride? metadata := by
  simp only [Repository.pendingOverride?, h.pendingPosition?_eq hmetadata, h.getElem?_pending,
    LinearRepository.pendingOverride?, List.find?_eq_bind_findIdx?_getElem?, Option.map_bind]
  rfl

/-! ### What operations do -/

/-- A tool is added that is not there yet. -/
theorem push (h : Simulates scope repository linear) {spec : Spec}
    (haction : action ∈ scope.actions) (hmetadata : spec.metadata ∈ scope.metadata)
    (hnew : linear.holds action spec.metadata = false) :
    Simulates scope (repository.push action spec) (linear.push action spec) := by
  have hfresh : ∀ tool ∈ linear.tools, repository.key tool.action tool.spec.metadata ≠
      repository.key action spec.metadata := by
    intro tool htool heq
    have hequal := h.key_beq_eq haction hmetadata htool
    rw [heq, beq_self_eq_true] at hequal
    exact List.any_eq_false.1 hnew tool htool hequal.symm
  have hindex := h.index.push ⟨action, spec⟩ hfresh
  have htools : (repository.push action spec).tools.toList = linear.tools ++ [⟨action, spec⟩] := by
    rw [Repository.push, Array.toList_push, h.tools]
  have hmem : ∀ tool ∈ linear.tools ++ [⟨action, spec⟩],
      tool.action ∈ scope.actions ∧ tool.spec.metadata ∈ scope.metadata := by
    intro tool htool
    rcases List.mem_append.1 htool with hold | hlast
    · exact h.tools_mem tool hold
    · rw [List.mem_singleton.1 hlast]
      exact ⟨haction, hmetadata⟩
  rw [← h.size_tools] at hindex
  exact ⟨h.toolType, h.lookup, h.policy, h.digest, htools, h.pending, hindex, h.pendingIndex, hmem,
    h.pending_mem⟩

/-- **Adding** fails in both repositories alike or gives the same answer. -/
theorem add (h : Simulates scope repository linear) (haction : action ∈ scope.actions) :
    (∃ failure, repository.add action = .error failure ∧ linear.add action = .error failure) ∨
      ∃ repository' linear' inserted, repository.add action = .ok (repository', inserted) ∧
        linear.add action = .ok (linear', inserted) ∧ Simulates scope repository' linear' := by
  rw [Repository.add, LinearRepository.add, h.lookup.1, h.lookup.2, h.policy.1, h.policy.2]
  cases hgenerate : action.generate scope.lookup scope.policy with
  | error failure => exact .inl ⟨failure, rfl, rfl⟩
  | ok spec =>
    have hspec := scope.generated action haction spec hgenerate
    have hholds := h.holds_eq haction hspec
    have hpending := h.pendingOverride?_eq hspec
    cases hfound : linear.holds action spec.metadata with
    | true =>
      simp only [hholds, hfound, if_true]
      exact .inr ⟨_, _, _, rfl, rfl, h⟩
    | false =>
      simp only [hholds, hfound, hpending, Bool.false_eq_true, if_false]
      -- An override changes neither the action nor the metadata of the tool.
      cases linear.pendingOverride? spec.metadata with
      | none => exact .inr ⟨_, _, _, rfl, rfl, h.push haction hspec hfound⟩
      | some override => exact .inr ⟨_, _, _, rfl, rfl, h.push haction hspec hfound⟩

/-- **Registering** keeps the repositories related. -/
theorem addOverride (h : Simulates scope repository linear) (hmetadata : metadata ∈ scope.metadata)
    (override : Override) :
    Simulates scope (repository.addOverride metadata override)
      (linear.addOverride metadata override) := by
  have hmem : ∀ pending ∈ (linear.addOverride metadata override).pending,
      pending.metadata ∈ scope.metadata := by
    intro pending hpending
    rcases LinearRepository.metadata_of_mem_register hpending with hnew | ⟨old, hold, hsame⟩
    · exact hnew ▸ hmetadata
    · exact hsame ▸ h.pending_mem old hold
  have hregister : (linear.addOverride metadata override).pending = _ :=
    LinearRepository.register_eq metadata override linear.pending
  rw [Repository.addOverride, h.pendingPosition?_eq hmetadata]
  cases hfind : linear.pending.findIdx? fun pending ↦ pending.metadata.equal metadata with
  | some position =>
    rw [hfind] at hregister
    -- The keys stay, as a registration changes overrides only. So the index is still right.
    have hpending : (repository.pending.modify position fun pending ↦
        { pending with override := pending.override.merge override }).toList =
          (linear.addOverride metadata override).pending := by
      rw [Array.toList_modify, h.pending, hregister]
    have hindex := h.pendingIndex.modify (f := fun pending ↦
      { pending with override := pending.override.merge override }) (fun _ ↦ rfl) position
    exact ⟨h.toolType, h.lookup, h.policy, h.digest, h.tools, hpending, h.index, hregister ▸ hindex,
      h.tools_mem, hmem⟩
  | none =>
    rw [hfind] at hregister
    -- With the key of pending overrides the metadata would be equal to theirs.
    have hfresh : ∀ pending ∈ linear.pending, repository.metadataKey pending.metadata ≠
        repository.metadataKey metadata := by
      intro pending hpending heq
      have hequal := h.metadataKey_beq_eq hmetadata hpending
      rw [heq, beq_self_eq_true, List.findIdx?_eq_none_iff.1 hfind pending hpending] at hequal
      cases hequal
    have hindex := h.pendingIndex.push ⟨metadata, override⟩ hfresh
    have hpending : (repository.pending.push ⟨metadata, override⟩).toList =
        (linear.addOverride metadata override).pending := by
      rw [Array.toList_push, h.pending, hregister]
    rw [← h.size_pending] at hindex
    exact ⟨h.toolType, h.lookup, h.policy, h.digest, h.tools, hpending, h.index, hregister ▸ hindex,
      h.tools_mem, hmem⟩

/-- **Registering for an action** fails in both repositories alike or keeps them related. -/
theorem addOverrideFor (h : Simulates scope repository linear) (haction : action ∈ scope.actions)
    (override : Override) :
    (∃ failure, repository.addOverrideFor action override = .error failure ∧
        linear.addOverrideFor action override = .error failure) ∨
      ∃ repository' linear', repository.addOverrideFor action override = .ok repository' ∧
        linear.addOverrideFor action override = .ok linear' ∧
          Simulates scope repository' linear' := by
  rw [Repository.addOverrideFor, LinearRepository.addOverrideFor, h.lookup.1, h.lookup.2,
    h.policy.1, h.policy.2]
  cases hgenerate : action.generate scope.lookup scope.policy with
  | error failure => exact .inl ⟨failure, rfl, rfl⟩
  | ok spec =>
    have hspec := scope.generated action haction spec hgenerate
    exact .inr ⟨_, _, rfl, rfl, h.addOverride hspec override⟩

/-! ### What operations on many do -/

/-- **Registering entries keeps the repositories related**, with the same outcome, also when it
stops at an entry that fails. -/
theorem registerOverrides (h : Simulates scope repository linear) {entries : List OverrideEntry}
    (hentries : ∀ entry ∈ entries, entry.action ∈ scope.actions) :
    (repository.registerOverrides entries).2 = (linear.registerOverrides entries).2 ∧
      Simulates scope (repository.registerOverrides entries).1
        (linear.registerOverrides entries).1 := by
  induction entries generalizing repository linear with
  | nil => exact ⟨rfl, h⟩
  | cons entry rest ih =>
    obtain ⟨hentry, hrest⟩ := List.forall_mem_cons.1 hentries
    rw [Repository.registerOverrides, LinearRepository.registerOverrides]
    cases entry.override.isEmpty with
    | true => exact ih h hrest
    | false =>
      rcases h.addOverrideFor hentry entry.override with ⟨failure, hleft, hright⟩ |
        ⟨repository', linear', hleft, hright, hnext⟩
      · simp only [hleft, hright, Bool.false_eq_true, if_false]
        exact ⟨trivial, h⟩
      · obtain ⟨houtcome, hlast⟩ := ih hnext hrest
        simp only [hleft, hright, Bool.false_eq_true, if_false]
        generalize repository'.registerOverrides rest = left at houtcome hlast ⊢
        generalize linear'.registerOverrides rest = right at houtcome hlast ⊢
        obtain ⟨last, outcome⟩ := left
        obtain ⟨last', outcome'⟩ := right
        obtain rfl : outcome = outcome' := houtcome
        cases outcome <;> exact ⟨rfl, hlast⟩

/-- **Adding actions keeps the repositories related**, with the same tally and outcome, also when it
stops at an action that fails. -/
theorem addActions (h : Simulates scope repository linear) (skipScaffolding : Bool) (tally : Tally)
    {actions : List Action} (hactions : ∀ action ∈ actions, action ∈ scope.actions) :
    (repository.addActions skipScaffolding tally actions).2 =
        (linear.addActions skipScaffolding tally actions).2 ∧
      Simulates scope (repository.addActions skipScaffolding tally actions).1
        (linear.addActions skipScaffolding tally actions).1 := by
  induction actions generalizing repository linear tally with
  | nil => exact ⟨rfl, h⟩
  | cons action rest ih =>
    obtain ⟨haction, hrest⟩ := List.forall_mem_cons.1 hactions
    rw [Repository.addActions, LinearRepository.addActions]
    cases skipScaffolding && action.hasScaffoldIdentifier with
    | true => exact ih h tally.countSkipped hrest
    | false =>
      rcases h.add haction with ⟨failure, hleft, hright⟩ |
        ⟨repository', linear', inserted, hleft, hright, hnext⟩
      · simp only [hleft, hright, Bool.false_eq_true, if_false]
        exact ⟨trivial, h⟩
      · simp only [hleft, hright, Bool.false_eq_true, if_false]
        cases inserted with
        | true => exact ih hnext tally.countInserted hrest
        | false => exact ih hnext tally.countDuplicate hrest

end Simulates

/-! ### Calls and runs -/

namespace Call

/-- The actions that a call brings up. -/
def actions : Call → List Action
  | .add action => [action]
  | .override _ _ => []
  | .overrideFor action _ => [action]
  | .register entries => entries.map OverrideEntry.action
  | .workflow _ _ source => source.actions

/-- The metadata that a call brings up: those it gives, and those of its actions. -/
def metadata (lookup : Lookup) (policy : CollisionPolicy) (call : Call) : List Metadata :=
  (match call with
    | .override metadata _ => [metadata]
    | _ => []) ++
  call.actions.filterMap fun action ↦
    match action.generate lookup policy with
    | .ok spec => some spec.metadata
    | .error _ => none

/-- The canonical texts that a call brings up. -/
def texts (lookup : Lookup) (policy : CollisionPolicy) (call : Call) : List String :=
  call.actions.map (fun action ↦ action.json.canonical) ++
    (call.metadata lookup policy).map fun metadata ↦ metadata.json.canonical

end Call

namespace Simulates

variable {digest : String → κ} {scope : Scope digest} {repository : Repository κ}
  {linear : LinearRepository} [LawfulBEq κ]

/-- **A call** keeps the repositories related and is answered alike. -/
theorem call (h : Simulates scope repository linear) {call : Call}
    (hactions : ∀ action ∈ call.actions, action ∈ scope.actions)
    (hmetadata : ∀ metadata ∈ call.metadata scope.lookup scope.policy, metadata ∈ scope.metadata) :
    (repository.call call).2 = (linear.call call).2 ∧
      Simulates scope (repository.call call).1 (linear.call call).1 := by
  cases call with
  | add action =>
    have haction := hactions action (List.mem_singleton_self action)
    rcases h.add haction with ⟨failure, hleft, hright⟩ |
      ⟨repository', linear', inserted, hleft, hright, hnext⟩
    · simp only [Repository.call, LinearRepository.call, hleft, hright]
      exact ⟨trivial, h⟩
    · simp only [Repository.call, LinearRepository.call, hleft, hright]
      exact ⟨trivial, hnext⟩
  | override metadata override =>
    exact ⟨rfl, h.addOverride (hmetadata metadata (List.mem_cons_self ..)) override⟩
  | overrideFor action override =>
    have haction := hactions action (List.mem_singleton_self action)
    rcases h.addOverrideFor haction override with ⟨failure, hleft, hright⟩ |
      ⟨repository', linear', hleft, hright, hnext⟩
    · simp only [Repository.call, LinearRepository.call, hleft, hright]
      exact ⟨trivial, h⟩
    · simp only [Repository.call, LinearRepository.call, hleft, hright]
      exact ⟨trivial, hnext⟩
  | register entries =>
    obtain ⟨houtcome, hnext⟩ := h.registerOverrides fun entry hentry ↦
      hactions entry.action (List.mem_map_of_mem hentry)
    exact ⟨congrArg Answer.counted houtcome, hnext⟩
  | workflow skipScaffolding tally workflow =>
    obtain ⟨houtcome, hnext⟩ := h.addActions skipScaffolding tally hactions
    exact ⟨congrArg (fun pair : Tally × Except Failure Unit ↦ Answer.tallied pair.1 pair.2)
      houtcome, hnext⟩

/-- **Runs** of related repositories are answered alike and end in related ones. -/
theorem run (h : Simulates scope repository linear) {calls : List Call}
    (hactions : ∀ call ∈ calls, ∀ action ∈ call.actions, action ∈ scope.actions)
    (hmetadata : ∀ call ∈ calls, ∀ metadata ∈ call.metadata scope.lookup scope.policy,
      metadata ∈ scope.metadata) :
    (repository.run calls).2 = (linear.run calls).2 ∧
      Simulates scope (repository.run calls).1 (linear.run calls).1 := by
  induction calls generalizing repository linear with
  | nil => exact ⟨rfl, h⟩
  | cons call rest ih =>
    obtain ⟨haction, hactions⟩ := List.forall_mem_cons.1 hactions
    obtain ⟨hmeta, hmetadata⟩ := List.forall_mem_cons.1 hmetadata
    obtain ⟨hanswer, hnext⟩ := h.call haction hmeta
    obtain ⟨hanswers, hlast⟩ := ih hnext hactions hmetadata
    exact ⟨congrArg₂ List.cons hanswer hanswers, hlast⟩

end Simulates

/-! ### The refinement -/

/-- The digest is good enough for a sequence of calls: it tells apart all canonical texts that these
bring up, and no index in them is out of range. -/
structure Distinguishes (digest : String → κ) (lookup : Lookup) (policy : CollisionPolicy)
    (calls : List Call) : Prop where
  indexable : ∀ call ∈ calls, ∀ metadata ∈ call.metadata lookup policy, metadata.Indexable
  injOn : Set.InjOn digest {text | ∃ call ∈ calls, text ∈ call.texts lookup policy}

section Refinement

variable {digest : String → κ} {lookup : Lookup} {policy : CollisionPolicy} {calls : List Call}

/-- Everything that a sequence of calls brings up. -/
def Scope.ofCalls (h : Distinguishes digest lookup policy calls) : Scope digest where
  lookup := lookup
  policy := policy
  actions := {action | ∃ call ∈ calls, action ∈ call.actions}
  metadata := {metadata | ∃ call ∈ calls, metadata ∈ call.metadata lookup policy}
  generated := by
    rintro action ⟨call, hcall, haction⟩ spec hspec
    refine ⟨call, hcall, List.mem_append_right _ (List.mem_filterMap.2 ⟨action, haction, ?_⟩)⟩
    rw [hspec]
  indexable := by
    rintro metadata ⟨call, hcall, hmetadata⟩
    exact h.indexable call hcall metadata hmetadata
  injOn := by
    refine h.injOn.mono ?_
    rintro text (⟨action, ⟨call, hcall, haction⟩, rfl⟩ | ⟨metadata, ⟨call, hcall, hmetadata⟩, rfl⟩)
    · exact ⟨call, hcall, List.mem_append_left _ (List.mem_map_of_mem haction)⟩
    · exact ⟨call, hcall, List.mem_append_right _ (List.mem_map_of_mem hmetadata)⟩

variable [LawfulBEq κ]

/-- The repositories stay related over a whole sequence of calls. -/
theorem Simulates.run_new (h : Distinguishes digest lookup policy calls) (toolType : String) :
    ((Repository.new digest toolType lookup policy).run calls).2 =
        ((LinearRepository.new toolType lookup policy).run calls).2 ∧
      Simulates (Scope.ofCalls h) ((Repository.new digest toolType lookup policy).run calls).1
        ((LinearRepository.new toolType lookup policy).run calls).1 :=
  (Simulates.new (Scope.ofCalls h) toolType).run
    (fun call hcall _ haction ↦ ⟨call, hcall, haction⟩)
    fun call hcall _ hmetadata ↦ ⟨call, hcall, hmetadata⟩

/-- **Every sequence of calls is answered as by scanning**, and leaves the same lists of tools. -/
theorem run_eq_linear (h : Distinguishes digest lookup policy calls) (toolType : String) :
    let hashed := (Repository.new digest toolType lookup policy).run calls
    let linear := (LinearRepository.new toolType lookup policy).run calls
    hashed.2 = linear.2 ∧ hashed.1.list = linear.1.list ∧
      hashed.1.listWithActions = linear.1.listWithActions := by
  obtain ⟨hanswers, hsimulates⟩ := Simulates.run_new h toolType
  exact ⟨hanswers, hsimulates.list_eq, hsimulates.listWithActions_eq⟩

end Refinement

/-- An action with one reference and a zero. -/
def asking : Action :=
  ⟨"ask", ⟨[("text", .reference "v"), ("count", .number (.double (.zero false)))], by decide⟩⟩

/-- The same with its keys in the other order and a negative zero. -/
def askingReordered : Action :=
  ⟨"ask", ⟨[("count", .number (.double (.zero true))), ("text", .reference "v")], by decide⟩⟩

/-- An override, the tool it is for, one that fails, and a workflow with the first tool again. -/
def sampleCalls : List Call :=
  [.overrideFor asking ⟨some "question", none, none, none⟩, .add asking, .add .contending,
    .workflow false .zero (.ofActions [askingReordered])]

theorem distinguishes_sampleCalls : Distinguishes id ∅ .fail sampleCalls where
  indexable := by decide
  injOn := Function.injective_id.injOn

/-- The equal action is found although it is written differently. -/
theorem run_sampleCalls :
    let hashed := (Repository.new id "tools" ∅ .fail).run sampleCalls
    hashed.2 = [.registered (.ok ()), .added (.ok true),
        .added (.error (.namingCollision "t" "x")), .tallied ⟨0, 1, 0⟩ (.ok ())] ∧
      hashed.1.list.map (fun tagged ↦ tagged.spec.effectiveName) = ["question"] := by
  obtain ⟨hanswers, hlist, -⟩ := run_eq_linear distinguishes_sampleCalls "tools"
  exact ⟨hanswers.trans rfl, (congrArg _ hlist).trans rfl⟩

end ActionTools
