import ActionTools.Proofs.Naming.Candidates

/-!
# Who loses a derived name

Whether a reference keeps its derived name is said here without a run. `Displaced refs c` is the
least predicate for which a candidate loses its name when the name is empty or repeated among its
siblings (`spoiled`), when its name is trimmed and any other reference derives the same (`shared`),
or when its name is the full name of another reference that has lost its own (`covered`). The last
rule is what makes this a fixed point: a full name given to one reference can take the derived name
of the next.

The predicate looks at the candidates as a set, so it does not know their order (`displaced_congr`),
and it grows with them (`Displaced.mono`). `Displaced.of_append` bounds the growth: it lists what
has to be checked to know all who lose their names when one candidate is added.

`Records` says that a map of names gives the displaced their full names and all others their derived
ones; `Records.insert` and `Records.move` are the two ways in which such a map changes.
-/

namespace ActionTools

namespace Namer

/-- What the naming relies on in its candidates. -/
structure WellFormed (refs : List Candidate) : Prop where
  nodup : refs.Nodup
  /-- A candidate is known by its path. -/
  eq_of_path_eq : ∀ c ∈ refs, ∀ c' ∈ refs, c.claim.path = c'.claim.path → c = c'
  /-- Names that are keys differ. -/
  eq_of_derived_eq : ∀ c ∈ refs, ∀ c' ∈ refs, c.claim.origin ≠ .trimmed →
    c'.claim.origin ≠ .trimmed → c.derived = c'.derived → c = c'
  /-- Nobody comes with a full name. -/
  origin_ne : ∀ c ∈ refs, c.claim.origin ≠ .fullPath
  /-- A trimmed name is not the full one. -/
  derived_ne_full : ∀ c ∈ refs, c.claim.origin = .trimmed → c.derived ≠ "" → c.derived ≠ c.full
  /-- Siblings repeat no name but the empty one. -/
  derived_of_repeated : ∀ c ∈ refs, c.isRepeated = true → c.derived = ""

/-- What naming relies on holds for fewer candidates. -/
theorem WellFormed.sublist {refs refs' : List Candidate} (h : WellFormed refs)
    (hsub : refs'.Sublist refs) : WellFormed refs' where
  nodup := h.nodup.sublist hsub
  eq_of_path_eq c hc c' hc' := h.eq_of_path_eq c (hsub.mem hc) c' (hsub.mem hc')
  eq_of_derived_eq c hc c' hc' := h.eq_of_derived_eq c (hsub.mem hc) c' (hsub.mem hc')
  origin_ne c hc := h.origin_ne c (hsub.mem hc)
  derived_ne_full c hc := h.derived_ne_full c (hsub.mem hc)
  derived_of_repeated c hc := h.derived_of_repeated c (hsub.mem hc)

/-- The candidate added last is a new one. -/
theorem WellFormed.not_mem {refs : List Candidate} {c : Candidate}
    (h : WellFormed (refs ++ [c])) : c ∉ refs := by
  have := List.nodup_append.1 h.nodup
  exact fun hmem ↦ this.2.2 c hmem c (List.mem_singleton_self c) rfl

theorem WellFormed.ne_of_mem {refs : List Candidate} {c d : Candidate}
    (h : WellFormed (refs ++ [c])) (hd : d ∈ refs) : d ≠ c :=
  fun heq ↦ h.not_mem (heq ▸ hd)

/-! ### Displacement -/

/-- A candidate that cannot keep its derived name. -/
inductive Displaced (refs : List Candidate) : Candidate → Prop
  /-- The name is empty, or a sibling derives it too. -/
  | spoiled {c : Candidate} (hc : c ∈ refs) (h : c.derived = "" ∨ c.isRepeated = true) :
    Displaced refs c
  /-- The name is trimmed and another reference derives it too. -/
  | shared {c c' : Candidate} (hc : c ∈ refs) (horigin : c.claim.origin = .trimmed)
    (hc' : c' ∈ refs) (hne : c' ≠ c) (h : c'.derived = c.derived) : Displaced refs c
  /-- The name is the full name of another reference that needs it. -/
  | covered {c c' : Candidate} (hc : c ∈ refs) (hc' : Displaced refs c') (hne : c' ≠ c)
    (h : c'.full = c.derived) : Displaced refs c

theorem Displaced.mem {refs : List Candidate} {c : Candidate} (h : Displaced refs c) :
    c ∈ refs := by
  cases h <;> assumption

/-- More references displace at least as many: what is said of a reference in the way is not undone
by others. -/
theorem Displaced.mono {refs refs' : List Candidate} (hsub : ∀ c ∈ refs, c ∈ refs')
    {c : Candidate} (h : Displaced refs c) : Displaced refs' c := by
  induction h with
  | spoiled hc h => exact .spoiled (hsub _ hc) h
  | shared hc horigin hc' hne h => exact .shared (hsub _ hc) horigin (hsub _ hc') hne h
  | covered hc _ hne h ih => exact .covered (hsub _ hc) ih hne h

/-- Whoever is displaced stays so when references are added. -/
theorem Displaced.append {refs rest : List Candidate} {c : Candidate} (h : Displaced refs c) :
    Displaced (refs ++ rest) c :=
  h.mono fun _ hc ↦ List.mem_append_left _ hc

/-- **Displacement does not know the order of the candidates.** -/
theorem displaced_congr {refs refs' : List Candidate} (h : ∀ c, c ∈ refs ↔ c ∈ refs')
    {c : Candidate} : Displaced refs c ↔ Displaced refs' c :=
  ⟨Displaced.mono fun c hc ↦ (h c).1 hc, Displaced.mono fun c hc ↦ (h c).2 hc⟩

/-- **Who may lose a name when a candidate is added.** `fresh` has to hold of the new candidate if a
rule applies to it, of every earlier one that now shares its name, and of every one whose name is
the full name of a fresh one. -/
theorem Displaced.of_append {refs : List Candidate} {new : Candidate} (fresh : Candidate → Prop)
    (hspoiled : new.derived = "" ∨ new.isRepeated = true → fresh new)
    (hnew : new.claim.origin = .trimmed → (∃ c ∈ refs, c.derived = new.derived) → fresh new)
    (hold : ∀ c ∈ refs, c.claim.origin = .trimmed → c.derived = new.derived →
      Displaced refs c ∨ fresh c)
    (hcovers : ∀ c, Displaced refs c → c.full = new.derived → fresh new)
    (hcovered : ∀ c, fresh c → ∀ c' ∈ refs ++ [new], c ≠ c' → c.full = c'.derived →
      Displaced refs c' ∨ fresh c')
    {c : Candidate} (h : Displaced (refs ++ [new]) c) : Displaced refs c ∨ fresh c := by
  -- The induction is on why the candidate is displaced. In each case it is an old one or the new
  -- one.
  have hcases : ∀ {c : Candidate}, c ∈ refs ++ [new] → c ∈ refs ∨ c = new := by
    intro c hc
    simpa using hc
  induction h with
  | @spoiled c hc h =>
    rcases hcases hc with hmem | rfl
    · exact .inl (.spoiled hmem h)
    · exact .inr (hspoiled h)
  | @shared c c' hc horigin hc' hne h =>
    rcases hcases hc with hmem | rfl
    · rcases hcases hc' with hmem' | rfl
      · exact .inl (.shared hmem horigin hmem' hne h)
      · exact hold c hmem horigin h.symm
    · rcases hcases hc' with hmem' | rfl
      · exact .inr (hnew horigin ⟨c', hmem', h⟩)
      · exact absurd rfl hne
  | @covered c c' hc hc' hne h ih =>
    rcases ih with hdisplaced | hfresh
    · rcases hcases hc with hmem | rfl
      · exact .inl (.covered hmem hdisplaced hne h)
      · exact .inr (hcovers c' hdisplaced h)
    · exact hcovered c' hfresh c hc hne h

/-! ### The map of names -/

end Namer

open Classical in
/-- Under which name a candidate stands, and how it is recorded, when those of `gone` have lost
their derived names. -/
noncomputable def Candidate.place (gone : Candidate → Prop) (c : Candidate) : String × Claim :=
  if gone c then (c.full, c.moved) else (c.derived, c.claim)

namespace Candidate

variable {gone gone' : Candidate → Prop} {c : Candidate}

theorem place_of_gone (h : gone c) : c.place gone = (c.full, c.moved) := if_pos h

theorem place_of_not_gone (h : ¬ gone c) : c.place gone = (c.derived, c.claim) := if_neg h

/-- A place depends on whether its own candidate is displaced, and on no other. -/
theorem place_congr (h : gone c ↔ gone' c) : c.place gone = c.place gone' := by
  by_cases hgone : gone c
  · rw [place_of_gone hgone, place_of_gone (h.1 hgone)]
  · rw [place_of_not_gone hgone, place_of_not_gone (mt h.2 hgone)]

/-- A reference keeps its path when it moves. -/
@[simp] theorem place_path : (c.place gone).2.path = c.claim.path := by
  by_cases h : gone c
  · rw [place_of_gone h, moved_path]
  · rw [place_of_not_gone h]

/-- A reference keeps its key when it moves. -/
@[simp] theorem place_key : (c.place gone).2.key = c.claim.key := by
  by_cases h : gone c
  · rw [place_of_gone h, moved_key]
  · rw [place_of_not_gone h]

theorem path_of_place {name : String} {claim : Claim} (h : c.place gone = (name, claim)) :
    claim.path = c.claim.path := by
  have hpath : (c.place gone).2.path = c.claim.path := place_path
  rwa [h] at hpath

theorem key_of_place {name : String} {claim : Claim} (h : c.place gone = (name, claim)) :
    claim.key = c.claim.key := by
  have hkey : (c.place gone).2.key = c.claim.key := place_key
  rwa [h] at hkey

end Candidate

namespace Namer

/-- The map gives every candidate its place, and nobody else. -/
def Records (names : NameMap Claim) (gone : Candidate → Prop) (refs : List Candidate) : Prop :=
  ∀ name claim, names.get? name = some claim ↔ ∃ c ∈ refs, c.place gone = (name, claim)

namespace Records

variable {names : NameMap Claim} {gone gone' : Candidate → Prop} {refs : List Candidate}

/-- A displaced reference is found under its full name. -/
theorem get?_full (h : Records names gone refs) {c : Candidate} (hc : c ∈ refs) (hgone : gone c) :
    names.get? c.full = some c.moved :=
  (h _ _).2 ⟨c, hc, Candidate.place_of_gone hgone⟩

/-- Any other reference is found under the name it derives. -/
theorem get?_derived (h : Records names gone refs) {c : Candidate} (hc : c ∈ refs)
    (hgone : ¬ gone c) : names.get? c.derived = some c.claim :=
  (h _ _).2 ⟨c, hc, Candidate.place_of_not_gone hgone⟩

/-- A holder of a name is a candidate in its place. -/
theorem exists_holder (h : Records names gone refs) {name : String} {claim : Claim}
    (hget : names.get? name = some claim) :
    (∃ c ∈ refs, gone c ∧ c.full = name ∧ c.moved = claim) ∨
      ∃ c ∈ refs, ¬ gone c ∧ c.derived = name ∧ c.claim = claim := by
  obtain ⟨c, hc, hplace⟩ := (h name claim).1 hget
  by_cases hgone : gone c
  · rw [Candidate.place_of_gone hgone, Prod.mk.injEq] at hplace
    exact .inl ⟨c, hc, hgone, hplace⟩
  · rw [Candidate.place_of_not_gone hgone, Prod.mk.injEq] at hplace
    exact .inr ⟨c, hc, hgone, hplace⟩

/-- Two candidates in one place have one path. -/
theorem path_eq_of_place_eq (h : Records names gone refs) {c c' : Candidate} (hc : c ∈ refs)
    (hc' : c' ∈ refs) (heq : (c.place gone).1 = (c'.place gone).1) :
    c.claim.path = c'.claim.path := by
  have hget := (h (c.place gone).1 (c.place gone).2).2 ⟨c, hc, rfl⟩
  have hget' := (h (c'.place gone).1 (c'.place gone).2).2 ⟨c', hc', rfl⟩
  rw [heq] at hget
  have := congrArg Claim.path (Option.some.inj (hget.symm.trans hget'))
  rwa [Candidate.place_path, Candidate.place_path] at this

/-- A path is recorded under the name of the candidate's place. -/
theorem map_path_eq_some_iff (h : Records names gone refs) {name : String} {path : Path} :
    (names.get? name).map Claim.path = some path ↔
      ∃ c ∈ refs, (c.place gone).1 = name ∧ c.claim.path = path := by
  constructor
  · intro hname
    obtain ⟨claim, hclaim, rfl⟩ := Option.map_eq_some_iff.1 hname
    obtain ⟨c, hc, hplace⟩ := (h name claim).1 hclaim
    exact ⟨c, hc, by rw [hplace], (Candidate.path_of_place hplace).symm⟩
  · rintro ⟨c, hc, rfl, rfl⟩
    have hget := (h (c.place gone).1 (c.place gone).2).2 ⟨c, hc, rfl⟩
    rw [hget, Option.map_some, Candidate.place_path]

/-- Every path of a candidate is recorded under some name. -/
theorem exists_path_iff (h : Records names gone refs) {path : Path} :
    (∃ name, (names.get? name).map Claim.path = some path) ↔ ∃ c ∈ refs, c.claim.path = path := by
  simp only [h.map_path_eq_some_iff]
  constructor
  · rintro ⟨_, c, hc, -, hpath⟩
    exact ⟨c, hc, hpath⟩
  · rintro ⟨c, hc, hpath⟩
    exact ⟨_, c, hc, rfl, hpath⟩

/-- No path of a candidate is recorded under two names. -/
theorem name_eq_of_path_eq (h : Records names gone refs) (hwell : WellFormed refs)
    {name name' : String} {claim claim' : Claim} (hget : names.get? name = some claim)
    (hget' : names.get? name' = some claim') (hpath : claim.path = claim'.path) : name = name' := by
  obtain ⟨c, hc, hplace⟩ := (h name claim).1 hget
  obtain ⟨c', hc', hplace'⟩ := (h name' claim').1 hget'
  have heq : c.claim.path = c'.claim.path := by
    rw [← Candidate.path_of_place hplace, hpath, Candidate.path_of_place hplace']
  obtain rfl := hwell.eq_of_path_eq c hc c' hc' heq
  exact congrArg Prod.fst (hplace.symm.trans hplace')

/-- The map is determined by who the candidates are and which of them have moved. -/
theorem eq_of_mem_iff {names' : NameMap Claim} {refs' : List Candidate}
    (h : Records names gone refs) (h' : Records names' gone' refs')
    (hrefs : ∀ c, c ∈ refs ↔ c ∈ refs') (hgone : ∀ c, gone c ↔ gone' c) : names = names' := by
  refine NameMap.ext_get? fun name ↦ Option.ext fun claim ↦ ?_
  rw [h name claim, h' name claim]
  exact exists_congr fun c ↦ and_congr (hrefs c) (by rw [Candidate.place_congr (hgone c)])

/-- A new candidate takes a free name. -/
theorem insert (h : Records names gone refs) {new : Candidate} {name : String} {claim : Claim}
    (hplace : new.place gone' = (name, claim)) (hfree : names.get? name = none)
    (hsame : ∀ c ∈ refs, gone c ↔ gone' c) :
    Records (names.insert name claim) gone' (refs ++ [new]) := by
  intro n w
  have hsplit : (∃ c ∈ refs ++ [new], c.place gone' = (n, w)) ↔
      (∃ c ∈ refs, c.place gone = (n, w)) ∨ new.place gone' = (n, w) := by
    simp only [List.mem_append, List.mem_singleton, or_and_right, exists_or, exists_eq_left]
    refine or_congr_left (exists_congr fun c ↦ and_congr_right fun hc ↦ ?_)
    rw [Candidate.place_congr (hsame c hc)]
  rw [hsplit, ← h n w, hplace, NameMap.get?_insert]
  by_cases hn : n = name
  · subst hn
    simp [hfree]
  · simp [hn, Ne.symm hn]

/-- A candidate moves from its derived name to its free full name. -/
theorem move (h : Records names gone refs) (hwell : WellFormed refs) {c : Candidate} (hc : c ∈ refs)
    (hgone : ¬ gone c) (hgone' : gone' c) (hfree : (names.erase c.derived).get? c.full = none)
    (hsame : ∀ c' ∈ refs, c' ≠ c → (gone c' ↔ gone' c')) :
    Records ((names.erase c.derived).insert c.full c.moved) gone' refs := by
  intro n w
  have hsplit : (∃ c' ∈ refs, c'.place gone' = (n, w)) ↔
      (n ≠ c.derived ∧ ∃ c' ∈ refs, c'.place gone = (n, w)) ∨ (c.full, c.moved) = (n, w) := by
    constructor
    · rintro ⟨c', hc', hplace⟩
      by_cases heq : c' = c
      · subst heq
        exact .inr (Candidate.place_of_gone hgone' ▸ hplace)
      · rw [← Candidate.place_congr (hsame c' hc' heq)] at hplace
        refine .inl ⟨?_, c', hc', hplace⟩
        rintro rfl
        -- Nobody else stood under the name that is given up.
        refine heq (hwell.eq_of_path_eq c' hc' c hc (h.path_eq_of_place_eq hc' hc ?_))
        rw [hplace, Candidate.place_of_not_gone hgone]
    · rintro (⟨hn, c', hc', hplace⟩ | heq)
      · have hne : c' ≠ c := by
          rintro rfl
          rw [Candidate.place_of_not_gone hgone, Prod.mk.injEq] at hplace
          exact hn hplace.1.symm
        exact ⟨c', hc', Candidate.place_congr (hsame c' hc' hne) ▸ hplace⟩
      · exact ⟨c, hc, (Candidate.place_of_gone hgone').trans heq⟩
  rw [hsplit, ← h n w, NameMap.get?_insert, NameMap.get?_erase]
  rw [NameMap.get?_erase] at hfree
  by_cases hn : n = c.full
  · subst hn
    by_cases hself : c.full = c.derived
    · simp [hself]
    · rw [if_neg hself] at hfree
      simp [hfree]
  · by_cases hn' : n = c.derived
    · subst hn'
      simp [hn, Ne.symm hn]
    · simp [hn, hn', Ne.symm hn]

end Records

end Namer

end ActionTools
