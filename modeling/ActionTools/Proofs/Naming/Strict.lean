import ActionTools.Proofs.Naming.Order

/-!
# Naming without collisions

Under the policy `fail` no full name is ever given, so of the four ways of a step only one is left:
a reference takes its derived name, which nobody has (`step_fail_iff`). A run then does nothing but
enter derived names (`Plain`), and it gets through exactly when none is empty and no two are the
same (`Plain.exists_run_iff`). This asks nothing of the keys; they need not even differ.

Taking a free name is a step under either policy. So where `fail` succeeds, `fallback` does the same
(`Run.fallback`), and the policies differ on keys with collisions only.
-/

namespace ActionTools

namespace Namer

open Candidate

/-! ### Steps -/

section Step

variable {namer next : Namer} {c : Candidate}

/-- **Without full names**, a step takes a free derived name. -/
theorem step_fail_iff (hpolicy : namer.policy = .fail) :
    Step namer c next ↔
      ¬ namer.Barred c ∧ namer.names.get? c.derived = none ∧
        next = namer.assign c.derived c.claim := by
  constructor
  · intro h
    have hdiff : namer.policy ≠ .fallback := by
      rw [hpolicy]
      decide
    cases h with
    | fall _ hcan => exact absurd hcan.policy hdiff
    | keep hbarred hfree => exact ⟨hbarred, hfree, rfl⟩
    | evict _ _ _ hcan => exact absurd hcan.policy hdiff
    | part _ _ _ hcan => exact absurd hcan.policy hdiff
  · rintro ⟨hbarred, hfree, rfl⟩
    exact .keep hbarred hfree

/-- The same step under the policy `fallback`. -/
theorem Step.fallback (h : Step namer c next) (hpolicy : namer.policy = .fail) :
    Step { namer with policy := .fallback } c { next with policy := .fallback } := by
  obtain ⟨hbarred, hfree, rfl⟩ := (step_fail_iff hpolicy).1 h
  exact .keep hbarred hfree

/-- **Where `fail` gets through, `fallback` does the same.** -/
theorem Run.fallback {last : Namer} {refs : List Candidate} (h : Run namer refs last)
    (hpolicy : namer.policy = .fail) :
    Run { namer with policy := .fallback } refs { last with policy := .fallback } := by
  induction h with
  | nil => exact .nil
  | cons hstep _ ih =>
    exact .cons (hstep.fallback hpolicy) (ih (hstep.policy_eq.trans hpolicy))

end Step

/-! ### Runs -/

/-- The namer has named references under the policy `fail`: each has its derived name, and there has
been no collision. -/
structure Plain (namer : Namer) (refs : List Candidate) : Prop where
  policy : namer.policy = .fail
  /-- No name is contested. -/
  contested : namer.contested = []
  /-- Nobody has another name than the derived one. -/
  records : Records namer.names (fun _ ↦ False) refs
  nodup : (refs.map derived).Nodup

theorem plain_new (tool : String) : Plain (new tool .fail) [] where
  policy := rfl
  contested := rfl
  records name claim := by simp [new]
  nodup := .nil

namespace Plain

variable {namer next : Namer} {refs rest : List Candidate} {c : Candidate}

/-- Under the policy `fail` no name is contested, so only empty and repeated ones are barred. -/
theorem barred_iff (h : Plain namer refs) :
    namer.Barred c ↔ c.derived = "" ∨ c.isRepeated = true := by
  simp [Barred, h.contested]

/-- A name is free when no reference has derived it. -/
theorem get?_eq_none_iff (h : Plain namer refs) {name : String} :
    namer.names.get? name = none ↔ name ∉ refs.map derived := by
  rw [Option.eq_none_iff_forall_ne_some, List.mem_map, not_exists]
  constructor
  · rintro hfree d ⟨hd, rfl⟩
    exact hfree d.claim (h.records.get?_derived hd id)
  · rintro hnone claim hget
    obtain ⟨d, hd, hplace⟩ := (h.records name claim).1 hget
    rw [place_of_not_gone id] at hplace
    exact hnone d ⟨hd, congrArg Prod.fst hplace⟩

/-- Each derived name leads to the place of its reference. -/
theorem get?_paths_eq_some_iff (h : Plain namer refs) {name : String} {place : Path} :
    namer.paths.get? name = some place ↔
      ∃ c ∈ refs, c.derived = name ∧ c.claim.path = place := by
  rw [Namer.paths, NameMap.get?_map, h.records.map_path_eq_some_iff]
  refine exists_congr fun c ↦ ?_
  rw [place_of_not_gone id]

/-- A step under the policy `fail` takes the derived name. -/
theorem step (h : Plain namer refs) (hstep : Step namer c next) : Plain next (refs ++ [c]) := by
  obtain ⟨-, hfree, rfl⟩ := (step_fail_iff h.policy).1 hstep
  have hrecords : Records (namer.names.insert c.derived c.claim) (fun _ ↦ False) (refs ++ [c]) :=
    h.records.insert (place_of_not_gone id) hfree fun _ _ ↦ Iff.rfl
  refine ⟨h.policy, h.contested, hrecords, ?_⟩
  rw [List.map_append, List.map_singleton, ← List.concat_eq_append]
  exact h.nodup.concat (h.get?_eq_none_iff.1 hfree)

/-- **A run enters the derived names** of all references it meets. -/
theorem run {last : Namer} (h : Plain namer refs) (hrun : Run namer rest last) :
    Plain last (refs ++ rest) := by
  induction hrun generalizing refs with
  | nil => simpa using h
  | cons hstep _ ih =>
    rw [List.append_cons]
    exact ih (h.step hstep)

/-- A step under the policy `fail` is possible when the derived name is not empty, not repeated and
not taken. -/
theorem exists_step_iff (h : Plain namer refs) :
    (∃ next, Step namer c next) ↔
      c.derived ≠ "" ∧ c.isRepeated = false ∧ c.derived ∉ refs.map derived := by
  simp only [step_fail_iff h.policy, h.barred_iff, h.get?_eq_none_iff, not_or, Bool.not_eq_true,
    exists_and_left, exists_eq, and_true, and_assoc]

/-- **A run gets through** exactly when no name is empty or repeated, be it among siblings or among
all. -/
theorem exists_run_iff (h : Plain namer refs) :
    (∃ last, Run namer rest last) ↔
      (∀ c ∈ rest, c.derived ≠ "" ∧ c.isRepeated = false) ∧
        ((refs ++ rest).map derived).Nodup := by
  induction rest generalizing namer refs with
  | nil => simp [run_nil_iff, h.nodup]
  | cons c rest ih =>
    simp only [run_cons_iff, List.forall_mem_cons]
    constructor
    · rintro ⟨last, next, hstep, hrest⟩
      obtain ⟨hempty, hrepeated, -⟩ := h.exists_step_iff.1 ⟨next, hstep⟩
      obtain ⟨hothers, hnodup⟩ := (ih (h.step hstep)).1 ⟨last, hrest⟩
      exact ⟨⟨⟨hempty, hrepeated⟩, hothers⟩, List.append_cons .. ▸ hnodup⟩
    · rintro ⟨⟨⟨hempty, hrepeated⟩, hothers⟩, hnodup⟩
      have hnew : c.derived ∉ refs.map derived := by
        rw [List.map_append, List.nodup_append] at hnodup
        exact fun hmem ↦ hnodup.2.2 _ hmem _ List.mem_cons_self rfl
      obtain ⟨next, hstep⟩ := h.exists_step_iff.2 ⟨hempty, hrepeated, hnew⟩
      rw [List.append_cons] at hnodup
      obtain ⟨last, hrest⟩ := (ih (h.step hstep)).2 ⟨hothers, hnodup⟩
      exact ⟨last, next, hstep, hrest⟩

end Plain

/-! ### Keys -/

section Keys

variable {keys : Entries (List Path)}

/-- Siblings that derive one name are seen among all references. -/
theorem isRepeated_eq_false (hnodup : (derivedNames keys).Nodup) {c : Candidate}
    (hc : c ∈ candidates keys) : c.isRepeated = false := by
  obtain ⟨entry, hentry, path, -, rfl⟩ := mem_candidates.1 hc
  have hsiblings : (Path.derivedNames entry.1 entry.2).Nodup :=
    (List.nodup_flatMap.1 hnodup).1 entry hentry
  rw [← Bool.not_eq_true, isRepeated_ofPath, Nat.not_lt]
  exact List.nodup_iff_count_le_one.1 hsiblings _

/-- **Under the policy `fail` references can be named exactly when they derive different names, none
of them empty.** -/
theorem exists_run_new_iff (tool : String) :
    (∃ last, Run (new tool .fail) (candidates keys) last) ↔
      "" ∉ derivedNames keys ∧ (derivedNames keys).Nodup := by
  rw [(plain_new tool).exists_run_iff, List.nil_append, map_derived_candidates]
  refine and_congr_left fun hnodup ↦ ?_
  rw [← map_derived_candidates, List.mem_map, not_exists]
  constructor
  · rintro h c ⟨hc, hempty⟩
    exact (h c hc).1 hempty
  · exact fun h c hc ↦ ⟨fun hempty ↦ h c ⟨hc, hempty⟩, isRepeated_eq_false hnodup hc⟩

/-- **Exactly the keys without collisions are named under the policy `fail`**: no derived name is
empty, and no two are the same. Each reference then has its derived name, and the policy `fallback`
names the keys alike. -/
theorem addKeys_fail_exact (tool : String) (keys : Entries (List Path)) :
    ((∃ last, (new tool .fail).addKeys keys = .ok last) ↔
        "" ∉ derivedNames keys ∧ (derivedNames keys).Nodup) ∧
      ∀ last, (new tool .fail).addKeys keys = .ok last →
        (∀ name place, last.paths.get? name = some place ↔
          ∃ entry ∈ keys, ∃ path ∈ entry.2,
            Path.derivedName entry.1 entry.2 path = name ∧ .key entry.1 :: path = place) ∧
        ∃ other, (new tool .fallback).addKeys keys = .ok other ∧ other.names = last.names ∧
          other.paths = last.paths := by
  simp only [addKeys_eq_ok_iff]
  refine ⟨exists_run_new_iff tool, fun last hrun ↦ ⟨fun name place ↦ ?_, ?_⟩⟩
  · have hplain : Plain last (candidates keys) := (plain_new tool).run hrun
    rw [hplain.get?_paths_eq_some_iff, exists_mem_candidates_iff]
    rfl
  · exact ⟨_, hrun.fallback rfl, rfl, rfl⟩

end Keys

/-- Two references under one key and one under another, without a collision. -/
theorem addKeys_fail_distinct :
    ∃ last, (new "t" .fail).addKeys
        [("A", [[.key "x", .key "n"], [.key "z", .key "n"]]), ("B", [[.index 0]])] = .ok last ∧
      last.paths.get? "z" = some [.key "A", .key "z", .key "n"] ∧
      ∃ other, (new "t" .fallback).addKeys
          [("A", [[.key "x", .key "n"], [.key "z", .key "n"]]), ("B", [[.index 0]])] = .ok other ∧
        other.paths = last.paths := by
  obtain ⟨hiff, hgiven⟩ := addKeys_fail_exact "t"
    [("A", [[.key "x", .key "n"], [.key "z", .key "n"]]), ("B", [[.index 0]])]
  obtain ⟨last, hlast⟩ := hiff.2 (by decide)
  obtain ⟨hpaths, other, hother, -, hsame⟩ := hgiven last hlast
  exact ⟨last, hlast, (hpaths _ _).2 (by decide), other, hother, hsame⟩

end Namer

end ActionTools
