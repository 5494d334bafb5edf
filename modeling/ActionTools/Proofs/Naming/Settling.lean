import ActionTools.Proofs.Naming.Step

/-!
# What a run of the naming leaves behind

After a successful run the map of names is exactly the one that `Displaced` prescribes: who is
displaced stands under the full name, everybody else under the derived one (`Settled.records`), and
the contested names are those that somebody derived and lost. This holds after every step, with
"displaced" read among the references named so far (`Settled.step`); so it is the invariant of a run
(`Settled.run`), and it determines the result from the candidates as a set.

A step adds at most two references to the displaced, the new one and the trimmed holder of its name.
That nobody else loses a name at the same moment is what success means: a full name is given only
when no one holds it, so it never covers a derived name in use (`Settled.displaced_of_free`).
-/

namespace ActionTools

namespace Namer

/-- The namer has named the references, in some order. -/
structure Settled (namer : Namer) (refs : List Candidate) : Prop where
  /-- Who is displaced has the full name, everybody else the derived one. -/
  records : Records namer.names (Displaced refs) refs
  /-- A contested name is one that somebody derived and lost. -/
  contested_iff : ∀ name, name ∈ namer.contested ↔ ∃ c, Displaced refs c ∧ c.derived = name
  /-- Nobody has the empty full name. -/
  full_ne_empty : ∀ c, Displaced refs c → c.full ≠ ""

theorem not_displaced_nil {c : Candidate} : ¬ Displaced [] c :=
  fun h ↦ List.not_mem_nil h.mem

theorem settled_new (tool : String) (policy : CollisionPolicy) : Settled (new tool policy) [] where
  records name claim := by simp [new]
  contested_iff name := by simp [new, not_displaced_nil]
  full_ne_empty c h := absurd h not_displaced_nil

namespace Settled

variable {namer : Namer} {refs : List Candidate} {c : Candidate}

/-- Who could have a name that nobody holds has lost it. -/
theorem displaced_of_free (h : Settled namer refs) (hc : c ∈ refs)
    (hfree : namer.names.get? c.derived = none) : Displaced refs c := by
  by_contra hnot
  rw [h.records.get?_derived hc hnot] at hfree
  cases hfree

/-- A trimmed holder of a name derived it and is not displaced. -/
theorem exists_trimmed (h : Settled namer refs) {name : String} {holder : Claim}
    (hget : namer.names.get? name = some holder) (htrimmed : holder.origin = .trimmed) :
    ∃ d ∈ refs, ¬ Displaced refs d ∧ d.derived = name ∧ d.claim = holder := by
  rcases h.records.exists_holder hget with ⟨d, -, -, -, rfl⟩ | hholder
  · cases htrimmed
  · exact hholder

/-! ### The new reference takes its full name -/

/-- A reference that clashes is displaced, and nothing less displaces it. -/
theorem displaced_of_clash (h : Settled namer refs) (hwell : WellFormed (refs ++ [c]))
    (hclash : namer.Clash c) : Displaced (refs ++ [c]) c := by
  have hmem : c ∈ refs ++ [c] := by simp
  have hsub : ∀ d ∈ refs, d ∈ refs ++ [c] := fun d hd ↦ List.mem_append_left _ hd
  rcases hclash with (hempty | hrep | ⟨horigin, hcontested⟩) | ⟨holder, hholder, horigin⟩
  · exact .spoiled hmem (.inl hempty)
  · exact .spoiled hmem (.inr hrep)
  · obtain ⟨d, hd, hderived⟩ := (h.contested_iff _).1 hcontested
    exact .shared hmem horigin (hsub d hd.mem) (hwell.ne_of_mem hd.mem) hderived
  · rcases h.records.exists_holder hholder with ⟨d, hd, hgone, hfull, -⟩ | ⟨d, hd, -, hderived, rfl⟩
    · exact .covered hmem hgone.append (hwell.ne_of_mem hd) hfull
    · -- The holder is alone under its key, so the new reference is not alone under its own.
      by_cases htrimmed : c.claim.origin = .trimmed
      · exact .shared hmem htrimmed (hsub d hd) (hwell.ne_of_mem hd) hderived
      · have heq := hwell.eq_of_derived_eq d (hsub d hd) c hmem horigin htrimmed hderived
        exact absurd heq (hwell.ne_of_mem hd)

/-- A trimmed reference whose name is that of a clashing one is displaced as well. -/
theorem displaced_of_clash_of_derived_eq (h : Settled namer refs)
    (hwell : WellFormed (refs ++ [c])) (hclash : namer.Clash c) {d : Candidate} (hd : d ∈ refs)
    (htrimmed : d.claim.origin = .trimmed) (hderived : d.derived = c.derived) :
    Displaced refs d := by
  have hself : ∀ e, Displaced refs e → e.derived = d.derived → Displaced refs d := by
    intro e he hname
    by_cases heq : e = d
    · exact heq ▸ he
    · exact .shared hd htrimmed he.mem heq hname
  rcases hclash with (hempty | hrep | ⟨-, hcontested⟩) | ⟨holder, hholder, horigin⟩
  · exact .spoiled hd (.inl (hderived.trans hempty))
  · exact .spoiled hd (.inl (hderived.trans (hwell.derived_of_repeated c (by simp) hrep)))
  · obtain ⟨e, he, hname⟩ := (h.contested_iff _).1 hcontested
    exact hself e he (hname.trans hderived.symm)
  · rcases h.records.exists_holder hholder with ⟨e, he, hgone, hfull, -⟩ | ⟨e, he, -, hname, rfl⟩
    · by_cases heq : e = d
      · exact heq ▸ hgone
      · exact .covered hd hgone heq (hfull.trans hderived.symm)
    · refine .shared hd htrimmed he ?_ (hname.trans hderived.symm)
      rintro rfl
      exact horigin htrimmed

/-- A reference that has met a clash is displaced, and it displaces nobody else: a holder of its
full name would be in the way. -/
theorem displaced_append_of_clash (h : Settled namer refs) (hwell : WellFormed (refs ++ [c]))
    (hclash : namer.Clash c) (hfree : namer.names.get? c.full = none) {d : Candidate} :
    Displaced (refs ++ [c]) d ↔ Displaced refs d ∨ d = c := by
  constructor
  · -- Nobody but the new reference loses a name, since its full name was free.
    refine Displaced.of_append (· = c) (fun _ ↦ rfl) (fun _ _ ↦ rfl) ?_ (fun _ _ _ ↦ rfl) ?_
    · intro e he htrimmed hderived
      exact .inl (h.displaced_of_clash_of_derived_eq hwell hclash he htrimmed hderived)
    · rintro e rfl e' he' hne hfull
      have hmem : e' ∈ refs := by simpa [Ne.symm hne] using he'
      exact .inl (h.displaced_of_free hmem (hfull ▸ hfree))
  · rintro (hd | rfl)
    · exact hd.append
    · exact h.displaced_of_clash hwell hclash

/-- A reference that takes its full name is settled along with the others. -/
theorem fall (h : Settled namer refs) (hwell : WellFormed (refs ++ [c]))
    (hclash : namer.Clash c) (hcan : namer.CanFall c.claim.path) :
    Settled (namer.fall c.derived c.claim) (refs ++ [c]) := by
  have hgrow := fun {d} ↦ h.displaced_append_of_clash hwell hclash hcan.free (d := d)
  refine ⟨?_, fun name ↦ ?_, fun d hd ↦ ?_⟩
  · refine h.records.insert (Candidate.place_of_gone (hgrow.2 (.inr rfl))) hcan.free ?_
    intro d hd
    simp [hgrow, hwell.ne_of_mem hd]
  · show name ∈ c.derived :: namer.contested ↔ _
    simp only [List.mem_cons, h.contested_iff, hgrow, or_and_right, exists_or, exists_eq_left]
    rw [or_comm, eq_comm (a := name)]
  · rcases hgrow.1 hd with hd | rfl
    · exact h.full_ne_empty d hd
    · exact hcan.ne_empty

/-! ### The new reference takes its derived name -/

/-- A reference that finds its name free is not displaced, and it displaces nobody. -/
theorem displaced_append_of_free (h : Settled namer refs) (hbarred : ¬ namer.Barred c)
    (hfree : namer.names.get? c.derived = none) {d : Candidate} :
    Displaced (refs ++ [c]) d ↔ Displaced refs d := by
  simp only [Barred, not_or, not_and] at hbarred
  obtain ⟨hempty, hrep, hcontested⟩ := hbarred
  constructor
  · -- No rule applies to the new reference, and none newly applies to an earlier one.
    intro hd
    refine (Displaced.of_append (fun _ ↦ False) ?_ ?_ ?_ ?_ ?_ hd).resolve_right id
    · rintro (hspoiled | hspoiled)
      exacts [hempty hspoiled, hrep hspoiled]
    · rintro horigin ⟨e, he, hderived⟩
      have hdisplaced := h.displaced_of_free he (hderived ▸ hfree)
      exact hcontested horigin ((h.contested_iff _).2 ⟨e, hdisplaced, hderived⟩)
    · intro e he _ hderived
      exact .inl (h.displaced_of_free he (hderived ▸ hfree))
    · intro e he hfull
      rw [← hfull, h.records.get?_full he.mem he] at hfree
      cases hfree
    · exact fun _ hfalse ↦ hfalse.elim
  · exact Displaced.append

/-- A reference that takes a free name is settled along with the others. -/
theorem keep (h : Settled namer refs) (hwell : WellFormed (refs ++ [c]))
    (hbarred : ¬ namer.Barred c) (hfree : namer.names.get? c.derived = none) :
    Settled (namer.assign c.derived c.claim) (refs ++ [c]) := by
  have hgrow := fun {d} ↦ h.displaced_append_of_free hbarred hfree (d := d)
  refine ⟨?_, fun name ↦ ?_, fun d hd ↦ h.full_ne_empty d (hgrow.1 hd)⟩
  · refine h.records.insert (Candidate.place_of_not_gone ?_) hfree fun d _ ↦ hgrow.symm
    exact fun hc ↦ hwell.not_mem (hgrow.1 hc).mem
  · simp only [hgrow]
    exact h.contested_iff name

/-! ### A trimmed holder moves -/

section Holder

variable {d : Candidate} (hd : d ∈ refs) (hnot : ¬ Displaced refs d)
  (hderived : d.derived = c.derived) (htrimmed : d.claim.origin = .trimmed)

include hd hnot htrimmed

/-- The holder has a full name other than the name it holds. -/
theorem holder_full_ne (hwell : WellFormed (refs ++ [c])) : d.full ≠ d.derived :=
  (hwell.derived_ne_full d (List.mem_append_left _ hd) htrimmed fun hempty ↦
    hnot (.spoiled hd (.inl hempty))).symm

include hderived

/-- The holder can move only if nobody held its full name. -/
theorem free_of_holder (hwell : WellFormed (refs ++ [c]))
    (hfree : (namer.names.erase c.derived).get? d.full = none) :
    namer.names.get? d.full = none := by
  rwa [NameMap.get?_erase_of_ne _ (hderived ▸ holder_full_ne hd hnot htrimmed hwell)] at hfree

/-- The holder moves, and so does the new reference if its name is trimmed. -/
theorem displaced_append_of_holder (h : Settled namer refs) (hwell : WellFormed (refs ++ [c]))
    (hbarred : ¬ namer.Barred c) (hfree : (namer.names.erase c.derived).get? d.full = none)
    (hfree' : c.claim.origin = .trimmed → namer.names.get? c.full = none) {e : Candidate} :
    Displaced (refs ++ [c]) e ↔
      Displaced refs e ∨ e = d ∨ (e = c ∧ c.claim.origin = .trimmed) := by
  have hmem : c ∈ refs ++ [c] := by simp
  have hsub : ∀ e ∈ refs, e ∈ refs ++ [c] := fun e he ↦ List.mem_append_left _ he
  have hfull : d.full ≠ d.derived := holder_full_ne hd hnot htrimmed hwell
  simp only [Barred, not_or, not_and] at hbarred
  obtain ⟨hempty, hrep, -⟩ := hbarred
  constructor
  · refine Displaced.of_append (fun e ↦ e = d ∨ (e = c ∧ c.claim.origin = .trimmed)) ?_ ?_ ?_ ?_ ?_
    · rintro (hspoiled | hspoiled)
      exacts [absurd hspoiled hempty, absurd hspoiled hrep]
    · exact fun horigin _ ↦ .inr ⟨rfl, horigin⟩
    · -- Only the holder derives the name and is not displaced yet.
      intro e he horigin hname
      by_cases heq : e = d
      · exact .inr (.inl heq)
      · exact absurd (.shared hd htrimmed he heq (hname.trans hderived.symm)) hnot
    · intro e he hcovers
      refine absurd (.covered hd he ?_ (hcovers.trans hderived.symm)) hnot
      rintro rfl
      exact hnot he
    · rintro e (rfl | ⟨rfl, horigin⟩) e' he' hdiff hcovers
      · rcases List.mem_append.1 he' with hin | hin
        · refine .inl (h.displaced_of_free hin ?_)
          rwa [← hcovers, ← NameMap.get?_erase_of_ne _ (hderived ▸ hfull)]
        · rw [List.mem_singleton.1 hin, ← hderived] at hcovers
          exact absurd hcovers hfull
      · have hin : e' ∈ refs := by simpa [Ne.symm hdiff] using he'
        exact .inl (h.displaced_of_free hin (hcovers ▸ hfree' horigin))
  · rintro (he | rfl | ⟨rfl, horigin⟩)
    · exact he.append
    · exact .shared (hsub _ hd) htrimmed hmem (hwell.ne_of_mem hd).symm hderived.symm
    · exact .shared hmem horigin (hsub d hd) (hwell.ne_of_mem hd) hderived

omit htrimmed in
/-- The map of names after the holder has moved. -/
theorem records_move (h : Settled namer refs) (hwell : WellFormed (refs ++ [c]))
    (hfree : (namer.names.erase c.derived).get? d.full = none) :
    Records ((namer.names.erase c.derived).insert d.full d.moved)
      (fun e ↦ Displaced refs e ∨ e = d) refs := by
  rw [← hderived] at hfree ⊢
  refine h.records.move (hwell.sublist (List.sublist_append_left _ _)) hd hnot (.inr rfl) hfree ?_
  intro e _ hne
  simp [hne]

/-- A reference that takes the name of a trimmed holder is settled, and so is the holder under its
full name. -/
theorem evict (h : Settled namer refs) (hwell : WellFormed (refs ++ [c]))
    (hbarred : ¬ namer.Barred c) (hcan : (namer.release c.derived).CanFall d.claim.path)
    (horigin : c.claim.origin ≠ .trimmed) :
    Settled (((namer.release c.derived).fall c.derived d.claim).assign c.derived c.claim)
      (refs ++ [c]) := by
  -- The holder is displaced by the newcomer, and nobody else.
  have hgrow := fun {e} ↦ displaced_append_of_holder hd hnot hderived htrimmed h hwell hbarred
    hcan.free (fun hyes ↦ absurd hyes horigin) (e := e)
  refine ⟨?_, fun name ↦ ?_, fun e he ↦ ?_⟩
  · refine (records_move hd hnot hderived h hwell hcan.free).insert
      (Candidate.place_of_not_gone ?_) ?_ ?_
    · rw [hgrow]
      rintro (hc | rfl | ⟨-, hyes⟩)
      exacts [hwell.not_mem hc.mem, hwell.not_mem hd, horigin hyes]
    · rw [NameMap.get?_insert_of_ne _ (hderived ▸
        (holder_full_ne hd hnot htrimmed hwell).symm), NameMap.get?_erase_self]
    · intro e he
      simp [hgrow, hwell.ne_of_mem he]
  · show name ∈ c.derived :: namer.contested ↔ _
    simp only [List.mem_cons, h.contested_iff, hgrow, horigin, and_false, or_false, or_and_right,
      exists_or, exists_eq_left, hderived]
    rw [or_comm, eq_comm (a := name)]
  · rcases hgrow.1 he with he | rfl | ⟨-, hyes⟩
    · exact h.full_ne_empty e he
    · exact hcan.ne_empty
    · exact absurd hyes horigin

omit hd hnot hderived htrimmed in
/-- Both can move only if nobody held the new reference's full name. -/
theorem free_of_part (hwell : WellFormed (refs ++ [c])) (hbarred : ¬ namer.Barred c)
    (horigin : c.claim.origin = .trimmed)
    (hcan' : ((namer.release c.derived).fall c.derived d.claim).CanFall c.claim.path) :
    namer.names.get? c.full = none := by
  have hne : c.full ≠ c.derived := (hwell.derived_ne_full c (by simp) horigin fun hempty ↦
    hbarred (.inl hempty)).symm
  have hfree := hcan'.free
  change ((namer.names.erase c.derived).insert d.full d.moved).get? c.full = none at hfree
  rw [NameMap.get?_insert, NameMap.get?_erase_of_ne _ hne] at hfree
  split at hfree
  · cases hfree
  · exact hfree

/-- Two trimmed references that derive the same name are settled under their full names. -/
theorem part (h : Settled namer refs) (hwell : WellFormed (refs ++ [c]))
    (hbarred : ¬ namer.Barred c) (hcan : (namer.release c.derived).CanFall d.claim.path)
    (horigin : c.claim.origin = .trimmed)
    (hcan' : ((namer.release c.derived).fall c.derived d.claim).CanFall c.claim.path) :
    Settled (((namer.release c.derived).fall c.derived d.claim).fall c.derived c.claim)
      (refs ++ [c]) := by
  have hfree' := free_of_part hwell hbarred horigin hcan'
  -- Both the holder and the newcomer are displaced.
  have hgrow := fun {e} ↦ displaced_append_of_holder hd hnot hderived htrimmed h hwell hbarred
    hcan.free (fun _ ↦ hfree') (e := e)
  refine ⟨?_, fun name ↦ ?_, fun e he ↦ ?_⟩
  · refine (records_move hd hnot hderived h hwell hcan.free).insert
      (Candidate.place_of_gone (hgrow.2 (.inr (.inr ⟨rfl, horigin⟩)))) hcan'.free ?_
    intro e he
    simp [hgrow, hwell.ne_of_mem he]
  · show name ∈ c.derived :: c.derived :: namer.contested ↔ _
    simp only [List.mem_cons, h.contested_iff, hgrow, horigin, and_true, or_and_right, exists_or,
      exists_eq_left, hderived, or_self]
    rw [← or_assoc, or_self, or_comm, eq_comm (a := name)]
  · rcases hgrow.1 he with he | rfl | ⟨rfl, -⟩
    · exact h.full_ne_empty e he
    · exact hcan.ne_empty
    · exact hcan'.ne_empty

end Holder

/-! ### Every step, every run -/

/-- **A step settles the new reference among the earlier ones.** -/
theorem step (h : Settled namer refs) (hwell : WellFormed (refs ++ [c])) {next : Namer}
    (hstep : Step namer c next) : Settled next (refs ++ [c]) := by
  cases hstep with
  | fall hclash hcan => exact h.fall hwell hclash hcan
  | keep hbarred hfree => exact h.keep hwell hbarred hfree
  | evict hbarred hholder htrimmed hcan horigin =>
    obtain ⟨d, hd, hnot, hderived, rfl⟩ := h.exists_trimmed hholder htrimmed
    exact evict hd hnot hderived htrimmed h hwell hbarred hcan horigin
  | part hbarred hholder htrimmed hcan horigin hcan' =>
    obtain ⟨d, hd, hnot, hderived, rfl⟩ := h.exists_trimmed hholder htrimmed
    exact part hd hnot hderived htrimmed h hwell hbarred hcan horigin hcan'

/-- **A run settles all references it names.** -/
theorem run {last : Namer} {rest : List Candidate} (h : Settled namer refs)
    (hwell : WellFormed (refs ++ rest)) (hrun : Run namer rest last) :
    Settled last (refs ++ rest) := by
  induction hrun generalizing refs with
  | nil => simpa using h
  | @cons namer next last c rest hstep _ ih =>
    rw [List.append_cons] at hwell ⊢
    exact ih (h.step (hwell.sublist (List.sublist_append_left _ _)) hstep) hwell

end Settled

/-! ### The candidates of distinct keys -/

section Keys

variable {keys : Entries (List Path)} (hkeys : (Entries.keys keys).Nodup)
  (hpaths : ∀ entry ∈ keys, entry.2.Nodup)

include hkeys hpaths

/-- The candidates of distinct keys, unless siblings repeat a name. -/
theorem wellFormed_candidates
    (hrep : ∀ c ∈ candidates keys, c.isRepeated = true → c.derived = "") :
    WellFormed (candidates keys) where
  nodup := nodup_candidates hkeys hpaths
  eq_of_path_eq _ hc _ hc' := eq_of_path_eq hkeys hc hc'
  eq_of_derived_eq _ hc _ hc' := eq_of_key_origin hkeys hc hc'
  origin_ne _ hc := origin_ne_fullPath hc
  derived_ne_full _ hc := derived_ne_full hc
  derived_of_repeated := hrep

/-- Siblings that repeat a name have one full name, and only one of them can get it. -/
theorem wellFormed_of_run {namer last : Namer} (hrun : Run namer (candidates keys) last) :
    WellFormed (candidates keys) := by
  refine wellFormed_candidates hkeys hpaths fun c hc hrep ↦ ?_
  by_contra hne
  obtain ⟨c', hc', hdiff, hrep', hfull⟩ := exists_twin hpaths hc hrep hne
  have hget := hrun.get?_full_of_spoiled hc (.inr hrep)
  have hget' := hrun.get?_full_of_spoiled hc' (.inr hrep')
  rw [hfull, hget] at hget'
  have hpath := congrArg Claim.path (Option.some.inj hget')
  exact hdiff (eq_of_path_eq hkeys hc' hc hpath.symm)

/-- **When all keys are named, all their references are settled.** -/
theorem settled_of_addKeys {tool : String} {policy : CollisionPolicy} {last : Namer}
    (h : (new tool policy).addKeys keys = .ok last) :
    WellFormed (candidates keys) ∧ Settled last (candidates keys) := by
  have hrun := addKeys_eq_ok_iff.1 h
  have hwell := wellFormed_of_run hkeys hpaths hrun
  exact ⟨hwell, (settled_new tool policy).run hwell hrun⟩

end Keys

end Namer

end ActionTools
