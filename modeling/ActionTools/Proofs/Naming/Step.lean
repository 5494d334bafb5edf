import ActionTools.Naming.Namer
import ActionTools.Proofs.Naming.Displacement

/-!
# One reference gets its name

`Step namer c next` says what naming one more reference does when it succeeds, in the four ways in
which it can: the reference takes its full name (`fall`), it takes its derived name (`keep`), or it
finds a trimmed holder of that name, who moves, and then takes the name itself (`evict`) or moves
too (`part`). `addReference_eq_ok_iff` is the one place where the code of a step is opened; a run is
a sequence of steps (`addKeys_eq_ok_iff`).

A full name once given stays with its reference for the rest of the run (`Run.get?_of_fullPath`).
-/

namespace ActionTools

namespace Namer

/-! ### Taking a full name -/

/-- The reference at `path` can have its full name. -/
structure CanFall (namer : Namer) (path : Path) : Prop where
  policy : namer.policy = .fallback
  ne_empty : path.fullName ≠ ""
  free : namer.names.get? path.fullName = none

/-- The namer after a reference has lost the name it derives and got its full one. -/
def fall (namer : Namer) (name : String) (claim : Claim) : Namer :=
  (namer.contest name).assign claim.path.fullName { claim with origin := .fullPath }

/-- The namer without the holder of a name. -/
def release (namer : Namer) (name : String) : Namer :=
  { namer with names := namer.names.erase name }

theorem fullName_eq_ok_iff {namer : Namer} {name : String} {path : Path} {given : String} :
    namer.fullName name path = .ok given ↔ namer.CanFall path ∧ given = path.fullName := by
  have htext : path.join nameSeparator = path.fullName := rfl
  rw [fullName]
  cases hpolicy : namer.policy with
  | fail => simpa using fun hcan : namer.CanFall path ↦ absurd hcan.policy (by simp [hpolicy])
  | fallback =>
    simp only [htext, NameMap.contains]
    split
    · rename_i hbad
      constructor
      · intro h
        cases h
      · rintro ⟨hcan, -⟩
        simp [hcan.ne_empty, hcan.free] at hbad
    · rename_i hgood
      simp only [Bool.or_eq_true, String.isEmpty_iff, not_or, Bool.not_eq_true,
        Option.isSome_eq_false_iff, Option.isNone_iff_eq_none] at hgood
      rw [Except.ok.injEq]
      exact ⟨fun h ↦ ⟨⟨hpolicy, hgood.1, hgood.2⟩, h.symm⟩, fun h ↦ h.2.symm⟩

/-- That a name has become contested is no hindrance. -/
theorem canFall_contest_iff {namer : Namer} {name : String} {path : Path} :
    (namer.contest name).CanFall path ↔ namer.CanFall path :=
  ⟨fun h ↦ ⟨h.policy, h.ne_empty, h.free⟩, fun h ↦ ⟨h.policy, h.ne_empty, h.free⟩⟩

/-- Taking the full name succeeds exactly where it can be had, and gives up the derived one for
good. -/
theorem assignFull_eq_ok_iff {namer next : Namer} {name : String} {claim : Claim} :
    (∃ given, namer.assignFull name claim = (next, .ok given)) ↔
      namer.CanFall claim.path ∧ next = namer.fall name claim := by
  rw [assignFull]
  cases hfull : (namer.contest name).fullName name claim.path with
  | error failure =>
    constructor
    · rintro ⟨_, h⟩
      cases h
    · rintro ⟨hcan, -⟩
      rw [fullName_eq_ok_iff.2 ⟨canFall_contest_iff.2 hcan, rfl⟩] at hfull
      cases hfull
  | ok given =>
    obtain ⟨hcan, rfl⟩ := fullName_eq_ok_iff.1 hfull
    constructor
    · rintro ⟨_, h⟩
      exact ⟨canFall_contest_iff.1 hcan, (Prod.mk.inj h).1.symm⟩
    · rintro ⟨-, rfl⟩
      exact ⟨_, rfl⟩

/-- A holder moves exactly where its full name can be had once it has let go of its name. -/
theorem relocate_eq_ok_iff {namer next : Namer} {name : String} {claim : Claim} :
    namer.relocate name claim = (next, .ok ()) ↔
      (namer.release name).CanFall claim.path ∧ next = (namer.release name).fall name claim := by
  have hrelease : { namer with names := namer.names.erase name } = namer.release name := rfl
  simp only [relocate, hrelease]
  cases hfull : ((namer.release name).contest name).fullName name claim.path with
  | error failure =>
    constructor
    · intro h
      cases h
    · rintro ⟨hcan, -⟩
      rw [fullName_eq_ok_iff.2 ⟨canFall_contest_iff.2 hcan, rfl⟩] at hfull
      cases hfull
  | ok given =>
    obtain ⟨hcan, rfl⟩ := fullName_eq_ok_iff.1 hfull
    constructor
    · intro h
      exact ⟨canFall_contest_iff.1 hcan, (Prod.mk.inj h).1.symm⟩
    · rintro ⟨-, rfl⟩
      rfl

/-! ### Steps -/

/-- A candidate cannot even ask for its derived name. -/
def Barred (namer : Namer) (c : Candidate) : Prop :=
  c.derived = "" ∨ c.isRepeated = true ∨
    (c.claim.origin = .trimmed ∧ c.derived ∈ namer.contested)

/-- A candidate cannot have its derived name, nor is the holder to move. -/
def Clash (namer : Namer) (c : Candidate) : Prop :=
  namer.Barred c ∨
    ∃ holder, namer.names.get? c.derived = some holder ∧ holder.origin ≠ .trimmed

/-- What naming one reference does when it succeeds. -/
inductive Step (namer : Namer) (c : Candidate) : Namer → Prop
  /-- The reference takes its full name. -/
  | fall (hclash : namer.Clash c) (hcan : namer.CanFall c.claim.path) :
    Step namer c (namer.fall c.derived c.claim)
  /-- The reference takes its derived name, which is free. -/
  | keep (hbarred : ¬ namer.Barred c) (hfree : namer.names.get? c.derived = none) :
    Step namer c (namer.assign c.derived c.claim)
  /-- A trimmed holder moves, and the reference takes the name. -/
  | evict {holder : Claim} (hbarred : ¬ namer.Barred c)
    (hholder : namer.names.get? c.derived = some holder) (htrimmed : holder.origin = .trimmed)
    (hcan : (namer.release c.derived).CanFall holder.path)
    (horigin : c.claim.origin ≠ .trimmed) :
    Step namer c (((namer.release c.derived).fall c.derived holder).assign c.derived c.claim)
  /-- A trimmed holder moves, and so does the reference. -/
  | part {holder : Claim} (hbarred : ¬ namer.Barred c)
    (hholder : namer.names.get? c.derived = some holder) (htrimmed : holder.origin = .trimmed)
    (hcan : (namer.release c.derived).CanFall holder.path)
    (horigin : c.claim.origin = .trimmed)
    (hcan' : ((namer.release c.derived).fall c.derived holder).CanFall c.claim.path) :
    Step namer c (((namer.release c.derived).fall c.derived holder).fall c.derived c.claim)

section Cases

variable {namer next : Namer} {c : Candidate}

/-- A reference that cannot ask for its derived name takes its full one. -/
theorem addReference_of_barred (h : namer.Barred c) :
    namer.addReference c.derived c.isRepeated c.claim = namer.assignFull c.derived c.claim := by
  rw [addReference, if_pos]
  simpa [Barred, or_assoc] using h

/-- What becomes of any other reference depends on the holder of its derived name. -/
theorem addReference_of_not_barred (h : ¬ namer.Barred c) :
    namer.addReference c.derived c.isRepeated c.claim =
      match namer.names.get? c.derived with
      | none => (namer.assign c.derived c.claim, .ok c.derived)
      | some holder =>
        if holder.origin = .trimmed then
          match namer.relocate c.derived holder with
          | (moved, .error failure) => (moved, .error failure)
          | (moved, .ok ()) =>
            if c.claim.origin = .trimmed then moved.assignFull c.derived c.claim
            else (moved.assign c.derived c.claim, .ok c.derived)
        else namer.assignFull c.derived c.claim := by
  have hnot : ¬ (c.derived.isEmpty || c.isRepeated ||
      (c.claim.origin == .trimmed && namer.contested.contains c.derived)) = true := by
    simpa [Barred, or_assoc] using h
  rw [addReference]
  exact if_neg hnot

/-- A reference that meets a holder that does not move takes its full name. -/
theorem addReference_of_clash (h : namer.Clash c) :
    namer.addReference c.derived c.isRepeated c.claim = namer.assignFull c.derived c.claim := by
  by_cases hbarred : namer.Barred c
  · exact addReference_of_barred hbarred
  · obtain ⟨holder, hholder, horigin⟩ := h.resolve_left hbarred
    simp only [addReference_of_not_barred hbarred, hholder, horigin, if_false]

/-- A trimmed holder moves first. Then the reference takes the name, unless its own is trimmed
too. -/
theorem addReference_of_trimmed {holder : Claim} (hbarred : ¬ namer.Barred c)
    (hholder : namer.names.get? c.derived = some holder) (htrimmed : holder.origin = .trimmed) :
    (∃ given, namer.addReference c.derived c.isRepeated c.claim = (next, .ok given)) ↔
      ∃ moved, namer.relocate c.derived holder = (moved, .ok ()) ∧
        ∃ given, (if c.claim.origin = .trimmed then moved.assignFull c.derived c.claim
          else (moved.assign c.derived c.claim, .ok c.derived)) = (next, .ok given) := by
  simp only [addReference_of_not_barred hbarred, hholder, htrimmed, if_true]
  rcases hrelocate : namer.relocate c.derived holder with ⟨moved, failure | ⟨⟩⟩
  · simp
  · simp

/-- **What a step of the naming can do.** -/
theorem addReference_eq_ok_iff :
    (∃ given, namer.addReference c.derived c.isRepeated c.claim = (next, .ok given)) ↔
      Step namer c next := by
  constructor
  · intro h
    -- A clash leaves the full name only. Otherwise the holder decides, if there is one.
    by_cases hclash : namer.Clash c
    · rw [addReference_of_clash hclash, assignFull_eq_ok_iff] at h
      obtain ⟨hcan, rfl⟩ := h
      exact .fall hclash hcan
    · obtain ⟨hbarred, hholders⟩ := not_or.1 hclash
      cases hget : namer.names.get? c.derived with
      | none =>
        simp only [addReference_of_not_barred hbarred, hget] at h
        obtain ⟨_, h⟩ := h
        obtain rfl := (Prod.mk.inj h).1
        exact .keep hbarred hget
      | some holder =>
        -- A holder whose name is not trimmed would be a clash.
        have htrimmed : holder.origin = .trimmed := by
          by_contra horigin
          exact hholders ⟨holder, hget, horigin⟩
        obtain ⟨moved, hmoved, hrest⟩ := (addReference_of_trimmed hbarred hget htrimmed).1 h
        obtain ⟨hcan, rfl⟩ := relocate_eq_ok_iff.1 hmoved
        by_cases horigin : c.claim.origin = .trimmed
        · simp only [horigin, if_true, assignFull_eq_ok_iff] at hrest
          obtain ⟨hcan', rfl⟩ := hrest
          exact .part hbarred hget htrimmed hcan horigin hcan'
        · simp only [horigin, if_false] at hrest
          obtain ⟨_, hrest⟩ := hrest
          obtain rfl := (Prod.mk.inj hrest).1
          exact .evict hbarred hget htrimmed hcan horigin
  · intro h
    cases h with
    | fall hclash hcan =>
      rw [addReference_of_clash hclash, assignFull_eq_ok_iff]
      exact ⟨hcan, rfl⟩
    | keep hbarred hfree =>
      simp only [addReference_of_not_barred hbarred, hfree]
      exact ⟨_, rfl⟩
    | evict hbarred hholder htrimmed hcan horigin =>
      refine (addReference_of_trimmed hbarred hholder htrimmed).2
        ⟨_, relocate_eq_ok_iff.2 ⟨hcan, rfl⟩, ?_⟩
      rw [if_neg horigin]
      exact ⟨_, rfl⟩
    | part hbarred hholder htrimmed hcan horigin hcan' =>
      refine (addReference_of_trimmed hbarred hholder htrimmed).2
        ⟨_, relocate_eq_ok_iff.2 ⟨hcan, rfl⟩, ?_⟩
      rw [if_pos horigin, assignFull_eq_ok_iff]
      exact ⟨hcan', rfl⟩

end Cases

/-! ### Runs -/

/-- Naming several references, one after the other, without a failure. -/
inductive Run : Namer → List Candidate → Namer → Prop
  | nil {namer : Namer} : Run namer [] namer
  | cons {namer next last : Namer} {c : Candidate} {rest : List Candidate}
    (hstep : Step namer c next) (hrest : Run next rest last) : Run namer (c :: rest) last

theorem run_nil_iff {namer last : Namer} : Run namer [] last ↔ last = namer := by
  constructor
  · intro h
    cases h
    rfl
  · rintro rfl
    exact .nil

theorem run_cons_iff {namer last : Namer} {c : Candidate} {rest : List Candidate} :
    Run namer (c :: rest) last ↔ ∃ next, Step namer c next ∧ Run next rest last := by
  constructor
  · intro h
    cases h with
    | cons hstep hrest => exact ⟨_, hstep, hrest⟩
  · rintro ⟨next, hstep, hrest⟩
    exact .cons hstep hrest

/-- A run may be cut anywhere. -/
theorem run_append_iff {namer last : Namer} {refs refs' : List Candidate} :
    Run namer (refs ++ refs') last ↔ ∃ next, Run namer refs next ∧ Run next refs' last := by
  induction refs generalizing namer with
  | nil => simp [run_nil_iff]
  | cons c rest ih =>
    rw [List.cons_append, run_cons_iff]
    simp only [ih, run_cons_iff]
    constructor
    · rintro ⟨mid, hstep, next, hrest, hlast⟩
      exact ⟨next, ⟨mid, hstep, hrest⟩, hlast⟩
    · rintro ⟨next, ⟨mid, hstep, hrest⟩, hlast⟩
      exact ⟨mid, hstep, next, hrest, hlast⟩

/-- **Naming references succeeds exactly along a run**, by induction on the references. -/
theorem addReferences_eq_ok_iff {namer last : Namer} {refs : List Candidate} :
    (∃ given, namer.addReferences refs = (last, .ok given)) ↔ Run namer refs last := by
  induction refs generalizing namer with
  | nil => simp [addReferences, run_nil_iff, eq_comm]
  | cons c rest ih =>
    obtain ⟨name, repeated, claim⟩ := c
    rw [run_cons_iff]
    simp only [← ih, ← addReference_eq_ok_iff]
    show (∃ given, namer.addReferences ((name, repeated, claim) :: rest) = _) ↔
      ∃ next, (∃ given, namer.addReference name repeated claim = (next, .ok given)) ∧ _
    rw [addReferences]
    rcases hstep : namer.addReference name repeated claim with ⟨next, failure | given⟩
    · simp
    · rcases hrest : next.addReferences rest with ⟨end_, failure | others⟩
      · simp [hrest]
      · simp [hrest]

/-- **Naming keys succeeds exactly along a run of their candidates**: the keys matter only for the
order in which these come. -/
theorem addKeys_eq_ok_iff {namer last : Namer} {keys : Entries (List Path)} :
    namer.addKeys keys = .ok last ↔ Run namer (candidates keys) last := by
  induction keys generalizing namer with
  | nil => simp [addKeys, run_nil_iff, eq_comm]
  | cons entry rest ih =>
    obtain ⟨key, paths⟩ := entry
    rw [candidates_cons, run_append_iff]
    simp only [← ih, ← addReferences_eq_ok_iff]
    rw [addKeys, addKey]
    rcases hkey : namer.addReferences (claims key paths) with ⟨next, failure | given⟩
    · simp
    · simp

/-! ### Full names stay -/

/-- A full name is never taken from its holder. -/
theorem Step.get?_of_fullPath {namer next : Namer} {c : Candidate} (h : Step namer c next)
    {name : String} {claim : Claim} (hget : namer.names.get? name = some claim)
    (horigin : claim.origin = .fullPath) : next.names.get? name = some claim := by
  -- Only trimmed holders move.
  have hne : ∀ {holder : Claim}, namer.names.get? c.derived = some holder →
      holder.origin = .trimmed → name ≠ c.derived := by
    rintro holder hholder htrimmed rfl
    obtain rfl := Option.some.inj (hget.symm.trans hholder)
    rw [horigin] at htrimmed
    cases htrimmed
  cases h with
  | fall hclash hcan => exact NameMap.get?_insert_of_free hget hcan.free _
  | keep hbarred hfree => exact NameMap.get?_insert_of_free hget hfree _
  | evict hbarred hholder htrimmed hcan _ =>
    have herased := (NameMap.get?_erase_of_ne _ (hne hholder htrimmed)).trans hget
    exact (NameMap.get?_insert_of_ne _ (hne hholder htrimmed) _).trans
      (NameMap.get?_insert_of_free herased hcan.free _)
  | part hbarred hholder htrimmed hcan _ hcan' =>
    have herased := (NameMap.get?_erase_of_ne _ (hne hholder htrimmed)).trans hget
    exact NameMap.get?_insert_of_free (NameMap.get?_insert_of_free herased hcan.free _)
      hcan'.free _

/-- **A full name, once given, stays given.** -/
theorem Run.get?_of_fullPath {namer last : Namer} {refs : List Candidate} (h : Run namer refs last)
    {name : String} {claim : Claim} (hget : namer.names.get? name = some claim)
    (horigin : claim.origin = .fullPath) : last.names.get? name = some claim := by
  induction h with
  | nil => exact hget
  | cons hstep _ ih => exact ih (hstep.get?_of_fullPath hget horigin)

/-- A reference with an empty or repeated name ends under its full name. -/
theorem Run.get?_full_of_spoiled {namer last : Namer} {refs : List Candidate}
    (h : Run namer refs last) {c : Candidate} (hc : c ∈ refs)
    (hspoiled : c.derived = "" ∨ c.isRepeated = true) :
    last.names.get? c.full = some c.moved := by
  induction h with
  | nil => exact absurd hc List.not_mem_nil
  | @cons namer next last c' rest hstep hrest ih =>
    rcases List.mem_cons.1 hc with rfl | hmem
    · have hbarred : namer.Barred c := hspoiled.imp_right .inl
      refine hrest.get?_of_fullPath ?_ c.moved_origin
      cases hstep with
      | fall => exact NameMap.get?_insert_self _ _ _
      | keep hnot => exact absurd hbarred hnot
      | evict hnot => exact absurd hbarred hnot
      | part hnot => exact absurd hbarred hnot
    · exact ih hmem

end Namer

end ActionTools
