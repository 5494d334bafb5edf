import ActionTools.Proofs.Naming.Settling

/-!
# When keys can be named, and whether their order matters

Under the fallback policy the naming of references succeeds in a given order exactly when two things
hold (`exists_addKeys_iff`). The full names that are needed have to be there to be given: nobody
displaced has an empty full name, and no two have the same (`Nameable`). This depends on the
references as a set. And whenever a full name is needed, a reference that derives it must not stand
under it any more (`Timely`). This depends on the order: a reference named early may still hold its
derived name when another one falls back to it, while in another order it comes later, finds the
name taken and moves.

So two orders of the same keys agree on success exactly when they agree on `Timely`, unless the keys
cannot be named in any order (`addKeys_perm_iff`). They need not agree: a trimmed name does not
yield to a full name that arrives later (`addKeys_not_perm`).
-/

namespace ActionTools

namespace Namer

/-- The full names that the displaced need are non-empty and different. -/
def Nameable (refs : List Candidate) : Prop :=
  ∀ c, Displaced refs c → c.full ≠ "" ∧ ∀ c', Displaced refs c' → c'.full = c.full → c' = c

/-- Whenever a reference is displaced, every earlier one that derives its full name has lost it
before. -/
def Timely (refs : List Candidate) : Prop :=
  ∀ before c after, refs = before ++ c :: after → ∀ d ∈ before, ∀ e,
    Displaced (before ++ [c]) e → e ≠ d → e.full = d.derived → Displaced before d

theorem nameable_congr {refs refs' : List Candidate} (h : ∀ c, c ∈ refs ↔ c ∈ refs') :
    Nameable refs ↔ Nameable refs' := by
  simp only [Nameable, displaced_congr h]

/-- Fewer references displace fewer, so they can be named if all can. -/
theorem Nameable.of_append {refs rest : List Candidate} (h : Nameable (refs ++ rest)) :
    Nameable refs :=
  fun c hc ↦ ⟨(h c hc.append).1, fun c' hc' ↦ (h c hc.append).2 c' hc'.append⟩

/-- Without a derived name that is a full name too, every order is timely. -/
theorem timely_of_disjoint {refs : List Candidate}
    (h : ∀ c ∈ refs, ∀ c' ∈ refs, c ≠ c' → c.full ≠ c'.derived) : Timely refs := by
  rintro before c after rfl d hd e he hne hfull
  have hsub : ∀ x ∈ before ++ [c], x ∈ before ++ c :: after := by
    intro x hx
    rw [List.append_cons]
    exact List.mem_append_left _ hx
  exact absurd hfull (h e (hsub e he.mem) d (List.mem_append_left _ hd) hne)

namespace Settled

variable {namer next : Namer} {refs : List Candidate} {c : Candidate}

/-! ### What success needs -/

/-- What has been settled can be named: the displaced are found under their full names. -/
theorem nameable (h : Settled namer refs) (hwell : WellFormed refs) : Nameable refs := by
  intro c hc
  refine ⟨h.full_ne_empty c hc, fun c' hc' hfull ↦ ?_⟩
  have hget := h.records.get?_full hc.mem hc
  have hget' := h.records.get?_full hc'.mem hc'
  rw [hfull, hget] at hget'
  have hpath := congrArg Claim.path (Option.some.inj hget')
  exact hwell.eq_of_path_eq c' hc'.mem c hc.mem hpath.symm

/-- Nobody holds the full name of a reference that a step displaces. -/
theorem free_of_step (h : Settled namer refs) (hwell : WellFormed (refs ++ [c]))
    (hstep : Step namer c next) {d : Candidate} (hd : Displaced (refs ++ [c]) d)
    (hnot : ¬ Displaced refs d) : namer.names.get? d.full = none := by
  -- Each kind of step displaces the newcomer, the holder, both or nobody.
  cases hstep with
  | fall hclash hcan =>
    obtain rfl := ((h.displaced_append_of_clash hwell hclash hcan.free).1 hd).resolve_left hnot
    exact hcan.free
  | keep hbarred hfree => exact absurd ((h.displaced_append_of_free hbarred hfree).1 hd) hnot
  | evict hbarred hholder htrimmed hcan horigin =>
    obtain ⟨e, he, hkeeps, hderived, rfl⟩ := h.exists_trimmed hholder htrimmed
    have hgrow := displaced_append_of_holder he hkeeps hderived htrimmed h hwell hbarred hcan.free
      (fun hyes ↦ absurd hyes horigin) (e := d)
    rcases (hgrow.1 hd).resolve_left hnot with rfl | ⟨-, hyes⟩
    · exact free_of_holder he hkeeps hderived htrimmed hwell hcan.free
    · exact absurd hyes horigin
  | part hbarred hholder htrimmed hcan horigin hcan' =>
    obtain ⟨e, he, hkeeps, hderived, rfl⟩ := h.exists_trimmed hholder htrimmed
    have hfree' := free_of_part hwell hbarred horigin hcan'
    have hgrow := displaced_append_of_holder he hkeeps hderived htrimmed h hwell hbarred hcan.free
      (fun _ ↦ hfree') (e := d)
    rcases (hgrow.1 hd).resolve_left hnot with rfl | ⟨rfl, -⟩
    · exact free_of_holder he hkeeps hderived htrimmed hwell hcan.free
    · exact hfree'

/-- **A step succeeds only if it comes in time.** -/
theorem displaced_of_step (h : Settled namer refs) (hwell : WellFormed (refs ++ [c]))
    (hstep : Step namer c next) {d e : Candidate} (hd : d ∈ refs)
    (he : Displaced (refs ++ [c]) e) (hne : e ≠ d) (hfull : e.full = d.derived) :
    Displaced refs d := by
  by_contra hnot
  have hget := h.records.get?_derived hd hnot
  -- The full name is taken already, or it is given now; it cannot be the derived name of another.
  by_cases hold : Displaced refs e
  · rw [← hfull, h.records.get?_full hold.mem hold] at hget
    have hpath := congrArg Claim.path (Option.some.inj hget)
    exact hne (hwell.eq_of_path_eq e (List.mem_append_left _ hold.mem) d
      (List.mem_append_left _ hd) hpath)
  · rw [← hfull, h.free_of_step hwell hstep he hold] at hget
    cases hget

/-! ### What is enough for success -/

/-- A reference that is newly displaced can have its full name, if the step comes in time. -/
theorem free_of_timely (h : Settled namer refs) (hname : Nameable (refs ++ [c]))
    (htimely : ∀ d ∈ refs, ∀ e, Displaced (refs ++ [c]) e → e ≠ d → e.full = d.derived →
      Displaced refs d)
    {e : Candidate} (he : Displaced (refs ++ [c]) e) (hnot : ¬ Displaced refs e)
    (hself : e ∈ refs → e.full ≠ e.derived) : namer.names.get? e.full = none := by
  by_contra hsome
  obtain ⟨holder, hholder⟩ := Option.ne_none_iff_exists'.1 hsome
  rcases h.records.exists_holder hholder with
    ⟨d, hd, hgone, hfull, -⟩ | ⟨d, hd, hkeeps, hderived, -⟩
  · -- A displaced holder has the same full name, so it is the reference itself.
    exact hnot ((hname e he).2 d hgone.append hfull ▸ hgone)
  · by_cases heq : e = d
    · subst heq
      exact hself hd hderived.symm
    · exact hkeeps (htimely d hd e he heq hderived.symm)

/-- **A step that comes in time succeeds.** -/
theorem exists_step (h : Settled namer refs) (hwell : WellFormed (refs ++ [c]))
    (hpolicy : namer.policy = .fallback) (hname : Nameable (refs ++ [c]))
    (htimely : ∀ d ∈ refs, ∀ e, Displaced (refs ++ [c]) e → e ≠ d → e.full = d.derived →
      Displaced refs d) :
    ∃ next, Step namer c next := by
  have hmem : c ∈ refs ++ [c] := by simp
  have hsub : ∀ e ∈ refs, e ∈ refs ++ [c] := fun e he ↦ List.mem_append_left _ he
  have hfree := fun {e} ↦ h.free_of_timely hname htimely (e := e)
  have hfree' : Displaced (refs ++ [c]) c → namer.names.get? c.full = none := fun hc ↦
    hfree hc (fun hold ↦ hwell.not_mem hold.mem) fun hin ↦ absurd hin hwell.not_mem
  -- The cases are the four ways of a step; in each, what has to move is newly displaced.
  by_cases hclash : namer.Clash c
  · have hc := h.displaced_of_clash hwell hclash
    exact ⟨_, .fall hclash ⟨hpolicy, (hname c hc).1, hfree' hc⟩⟩
  · obtain ⟨hbarred, hholders⟩ := not_or.1 hclash
    cases hget : namer.names.get? c.derived with
    | none => exact ⟨_, .keep hbarred hget⟩
    | some holder =>
      have htrimmed : holder.origin = .trimmed := by
        by_contra horigin
        exact hholders ⟨holder, hget, horigin⟩
      obtain ⟨d, hd, hkeeps, hderived, rfl⟩ := h.exists_trimmed hget htrimmed
      have hne : d ≠ c := hwell.ne_of_mem hd
      have hd' : Displaced (refs ++ [c]) d :=
        .shared (hsub d hd) htrimmed hmem hne.symm hderived.symm
      have hdfree := hfree hd' hkeeps fun _ ↦ holder_full_ne hd hkeeps htrimmed hwell
      have hcan : (namer.release c.derived).CanFall d.claim.path :=
        ⟨hpolicy, (hname d hd').1, NameMap.get?_erase_of_none hdfree _⟩
      by_cases horigin : c.claim.origin = .trimmed
      · have hc : Displaced (refs ++ [c]) c := .shared hmem horigin (hsub d hd) hne hderived
        refine ⟨_, .part hbarred hget htrimmed hcan horigin ⟨hpolicy, (hname c hc).1, ?_⟩⟩
        -- The holder has just taken a full name, but not this one.
        have hdiff : c.full ≠ d.full := fun heq ↦ hne ((hname d hd').2 c hc heq).symm
        exact (NameMap.get?_insert_of_ne _ hdiff _).trans (NameMap.get?_erase_of_none (hfree' hc) _)
      · exact ⟨_, .evict hbarred hget htrimmed hcan horigin⟩

end Settled

theorem Step.policy_eq {namer next : Namer} {c : Candidate} (h : Step namer c next) :
    next.policy = namer.policy := by
  cases h <;> rfl

/-! ### Runs -/

/-- A successful run was in time at every step. -/
theorem Settled.timely {namer last : Namer} {refs : List Candidate} (h : Settled namer [])
    (hwell : WellFormed refs) (hrun : Run namer refs last) : Timely refs := by
  rintro before c after rfl d hd e he hne hfull
  rw [List.append_cons] at hrun hwell
  obtain ⟨next, hrun, -⟩ := run_append_iff.1 hrun
  obtain ⟨mid, hbefore, hlast⟩ := run_append_iff.1 hrun
  obtain ⟨_, hstep, -⟩ := run_cons_iff.1 hlast
  have hwell' := hwell.sublist (List.sublist_append_left (before ++ [c]) after)
  have hsettled := h.run (hwell'.sublist (List.sublist_append_left before [c])) hbefore
  exact hsettled.displaced_of_step hwell' hstep hd he hne hfull

/-- A run all of whose steps come in time succeeds. -/
theorem Settled.exists_run {namer : Namer} {refs rest : List Candidate} (h : Settled namer refs)
    (hpolicy : namer.policy = .fallback) (hwell : WellFormed (refs ++ rest))
    (hname : Nameable (refs ++ rest)) (htimely : Timely (refs ++ rest)) :
    ∃ last, Run namer rest last := by
  induction rest generalizing namer refs with
  | nil => exact ⟨namer, .nil⟩
  | cons c rest ih =>
    have hnow := htimely refs c rest rfl
    rw [List.append_cons] at hwell hname htimely
    have hwell' := hwell.sublist (List.sublist_append_left (refs ++ [c]) rest)
    obtain ⟨next, hstep⟩ := h.exists_step hwell' hpolicy hname.of_append hnow
    have hpolicy' := hstep.policy_eq.trans hpolicy
    obtain ⟨last, hlast⟩ := ih (h.step hwell' hstep) hpolicy' hwell hname htimely
    exact ⟨last, .cons hstep hlast⟩

section Keys

variable {keys : Entries (List Path)} (hkeys : (Entries.keys keys).Nodup)
  (hpaths : ∀ entry ∈ keys, entry.2.Nodup)

include hkeys hpaths

/-- Siblings that repeat a name would need the same full name. -/
theorem wellFormed_of_nameable (hname : Nameable (candidates keys)) :
    WellFormed (candidates keys) := by
  refine wellFormed_candidates hkeys hpaths fun c hc hrep ↦ ?_
  by_contra hne
  obtain ⟨c', hc', hdiff, hrep', hfull⟩ := exists_twin hpaths hc hrep hne
  exact hdiff ((hname c (.spoiled hc (.inr hrep))).2 c' (.spoiled hc' (.inr hrep')) hfull)

/-- **When distinct keys can be named in their order.** -/
theorem exists_addKeys_iff (tool : String) :
    (∃ last, (new tool .fallback).addKeys keys = .ok last) ↔
      Nameable (candidates keys) ∧ Timely (candidates keys) := by
  simp only [addKeys_eq_ok_iff]
  constructor
  · rintro ⟨last, hrun⟩
    have hwell := wellFormed_of_run hkeys hpaths hrun
    have hsettled : Settled last (candidates keys) := (settled_new tool .fallback).run hwell hrun
    exact ⟨hsettled.nameable hwell, (settled_new tool .fallback).timely hwell hrun⟩
  · rintro ⟨hname, htimely⟩
    have hwell := wellFormed_of_nameable hkeys hpaths hname
    exact (settled_new tool .fallback).exists_run rfl hwell hname htimely

/-! ### Two orders -/

variable {keys' : Entries (List Path)}

/-- In another order the names needed are the same, and only the time at which they are counts. -/
theorem exists_addKeys_iff_of_perm (hperm : keys.Perm keys') (tool : String) :
    (∃ last, (new tool .fallback).addKeys keys' = .ok last) ↔
      Nameable (candidates keys) ∧ Timely (candidates keys') := by
  have hkeys' : (Entries.keys keys').Nodup := (hperm.map Prod.fst).nodup_iff.1 hkeys
  have hpaths' : ∀ entry ∈ keys', entry.2.Nodup := fun entry hentry ↦
    hpaths entry (hperm.mem_iff.2 hentry)
  have hname : Nameable (candidates keys) ↔ Nameable (candidates keys') :=
    nameable_congr fun c ↦ (hperm.flatMap_right _).mem_iff
  rw [exists_addKeys_iff hkeys' hpaths' tool, hname]

/-- **When two orders of the same keys agree on success.** -/
theorem addKeys_perm_iff (hperm : keys.Perm keys') (tool : String) :
    ((∃ last, (new tool .fallback).addKeys keys = .ok last) ↔
        ∃ last, (new tool .fallback).addKeys keys' = .ok last) ↔
      (Nameable (candidates keys) → (Timely (candidates keys) ↔ Timely (candidates keys'))) := by
  rw [exists_addKeys_iff hkeys hpaths tool, exists_addKeys_iff_of_perm hkeys hpaths hperm tool]
  exact and_congr_right_iff

/-- Two orders agree on success when no derived name is the full name of another reference. -/
theorem exists_addKeys_perm (hperm : keys.Perm keys') (tool : String)
    (hdisjoint : ∀ c ∈ candidates keys, ∀ c' ∈ candidates keys, c ≠ c' → c.full ≠ c'.derived) :
    (∃ last, (new tool .fallback).addKeys keys = .ok last) ↔
      ∃ last, (new tool .fallback).addKeys keys' = .ok last := by
  have hmem : ∀ c, c ∈ candidates keys' ↔ c ∈ candidates keys := fun c ↦
    (hperm.flatMap_right _).mem_iff.symm
  have htimely : Timely (candidates keys) := timely_of_disjoint hdisjoint
  have htimely' : Timely (candidates keys') := timely_of_disjoint fun c hc c' hc' ↦
    hdisjoint c ((hmem c).1 hc) c' ((hmem c').1 hc')
  rw [exists_addKeys_iff hkeys hpaths tool, exists_addKeys_iff_of_perm hkeys hpaths hperm tool,
    and_iff_left htimely, and_iff_left htimely']

end Keys

/-- **Success depends on the order**: a reference under `A` takes the trimmed name `B.x.y` at once,
and one under `B` that falls back to that name finds it taken, unless `B` comes first. -/
theorem addKeys_not_perm :
    ¬ ((∃ last, (new "t" .fallback).addKeys
          [("A", [[.key "B", .key "x", .key "y"], [.key "c"]]),
            ("B", [[.key "x", .key "y"], [.key "x", .key "z", .key "y"]])] = .ok last) ↔
        ∃ last, (new "t" .fallback).addKeys
          [("B", [[.key "x", .key "y"], [.key "x", .key "z", .key "y"]]),
            ("A", [[.key "B", .key "x", .key "y"], [.key "c"]])] = .ok last) := by
  intro h
  obtain ⟨last, hlast⟩ := h.2 ⟨_, rfl⟩
  change Except.error (Failure.namingCollision "t" "B.x.y") = .ok last at hlast
  cases hlast

/-- These keys can be named, but only one of the orders is in time. -/
theorem not_timely_iff_timely :
    ¬ (Nameable (candidates
          [("A", [[.key "B", .key "x", .key "y"], [.key "c"]]),
            ("B", [[.key "x", .key "y"], [.key "x", .key "z", .key "y"]])]) →
        (Timely (candidates
            [("A", [[.key "B", .key "x", .key "y"], [.key "c"]]),
              ("B", [[.key "x", .key "y"], [.key "x", .key "z", .key "y"]])]) ↔
          Timely (candidates
            [("B", [[.key "x", .key "y"], [.key "x", .key "z", .key "y"]]),
              ("A", [[.key "B", .key "x", .key "y"], [.key "c"]])]))) := by
  rw [← addKeys_perm_iff (by decide) (by decide) (.swap _ _ _) "t"]
  intro h
  obtain ⟨last, hlast⟩ := h.2 ⟨_, rfl⟩
  change Except.error (Failure.namingCollision "t" "B.x.y") = .ok last at hlast
  cases hlast

end Namer

end ActionTools
