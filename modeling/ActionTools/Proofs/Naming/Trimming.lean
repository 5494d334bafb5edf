import ActionTools.Naming.Trimming

/-!
# What trimming takes away

The run of segments that paths share is the greatest number for which they all begin alike
(`le_leadingRun_iff`). The characterization is symmetric in the paths, so the runs, and with them
each derived name, do not depend on the order in which the paths are listed (`derivedName_congr`).

A path of which trimming leaves something is the shared beginning, what is left, and the shared end.
Two such paths therefore differ only in the middle, and if their middles have the same text, so have
the full paths (`fullName_eq_of_derivedName_eq`): no two references under one key can share a
derived name unless their full names clash as well. On the other hand a trimmed name is always
shorter than the full name of its reference (`derivedName_ne_fullName`), since the latter also has
the key.
-/

namespace ActionTools

namespace Path

/-! ### Shared runs -/

/-- The shared length is the greatest length up to which two paths agree. -/
theorem le_sharedLength_iff {n : Nat} {p q : Path} :
    n ≤ sharedLength p q ↔ n ≤ p.length ∧ n ≤ q.length ∧ p.take n = q.take n := by
  induction p generalizing q n with
  | nil => cases n <;> simp [sharedLength]
  | cons a p ih =>
    cases q with
    | nil => cases n <;> simp [sharedLength]
    | cons b q =>
      cases n with
      | zero => simp
      | succ n =>
        by_cases hab : a = b
        · simp [sharedLength, hab, ih]
        · simp [sharedLength, hab]

theorem le_foldr_min_iff {n bound : Nat} {f : Path → Nat} {paths : List Path} :
    n ≤ paths.foldr (fun path run ↦ min (f path) run) bound ↔
      n ≤ bound ∧ ∀ path ∈ paths, n ≤ f path := by
  induction paths with
  | nil => simp
  | cons path rest ih =>
    rw [List.foldr_cons, Nat.le_min, ih, List.forall_mem_cons]
    exact and_left_comm

/-- **The shared run is the greatest common beginning.** -/
theorem le_leadingRun_iff {n : Nat} {paths : List Path} (hne : paths ≠ []) :
    n ≤ leadingRun paths ↔ ∀ p ∈ paths, ∀ q ∈ paths, n ≤ p.length ∧ p.take n = q.take n := by
  obtain ⟨first, rest, rfl⟩ := List.exists_cons_of_ne_nil hne
  rw [leadingRun, le_foldr_min_iff]
  constructor
  · rintro ⟨hfirst, hrest⟩
    -- Every path begins like the first one, so any two begin alike.
    have hshared : ∀ p ∈ first :: rest, n ≤ p.length ∧ first.take n = p.take n := by
      intro p hp
      rcases List.mem_cons.1 hp with rfl | hp
      · exact ⟨hfirst, rfl⟩
      · exact (le_sharedLength_iff.1 (hrest p hp)).2
    intro p hp q hq
    exact ⟨(hshared p hp).1, (hshared p hp).2.symm.trans (hshared q hq).2⟩
  · intro h
    have hfirst := h first List.mem_cons_self
    refine ⟨(hfirst first List.mem_cons_self).1, fun p hp ↦ le_sharedLength_iff.2 ?_⟩
    have hp' := List.mem_cons_of_mem first hp
    exact ⟨(hfirst p hp').1, (h p hp' p hp').1, (hfirst p hp').2⟩

/-- **The trailing run is the greatest common end.** It is the leading run of the reversed paths. -/
theorem le_trailingRun_iff {n : Nat} {paths : List Path} (hne : paths ≠ []) :
    n ≤ trailingRun paths ↔
      ∀ p ∈ paths, ∀ q ∈ paths,
        n ≤ p.length ∧ p.drop (p.length - n) = q.drop (q.length - n) := by
  rw [trailingRun, le_leadingRun_iff (by simpa using hne)]
  simp only [List.forall_mem_map, List.length_reverse, List.take_reverse, List.reverse_inj]

/-- The leading run depends on the paths as a set. -/
theorem leadingRun_congr {paths paths' : List Path} (h : ∀ p, p ∈ paths ↔ p ∈ paths') :
    leadingRun paths = leadingRun paths' := by
  by_cases hne : paths = []
  · subst hne
    have hne' : paths' = [] := List.eq_nil_iff_forall_not_mem.2 fun p hp ↦
      List.not_mem_nil ((h p).2 hp)
    rw [hne']
  · have hne' : paths' ≠ [] := by
      rintro rfl
      exact hne (List.eq_nil_iff_forall_not_mem.2 fun p hp ↦ List.not_mem_nil ((h p).1 hp))
    have hle : ∀ n, n ≤ leadingRun paths ↔ n ≤ leadingRun paths' := by
      intro n
      rw [le_leadingRun_iff hne, le_leadingRun_iff hne']
      simp only [h]
    exact Nat.le_antisymm ((hle _).1 (Nat.le_refl _)) ((hle _).2 (Nat.le_refl _))

/-- The trailing run depends on the paths as a set. -/
theorem trailingRun_congr {paths paths' : List Path} (h : ∀ p, p ∈ paths ↔ p ∈ paths') :
    trailingRun paths = trailingRun paths' :=
  leadingRun_congr fun p ↦ by simp only [List.mem_map, h]

/-! ### Joined texts -/

/-- The name of a path as a whole. -/
def fullName (path : Path) : String := path.join nameSeparator

/-- The name of a path is made of the names of its parts, with the separator between. -/
theorem fullName_append {p q : Path} (hp : p ≠ []) (hq : q ≠ []) :
    (p ++ q).fullName = p.fullName ++ nameSeparator ++ q.fullName := by
  rw [fullName, join, List.map_append]
  exact String.intercalate_append_of_ne_nil (by simpa using hp) (by simpa using hq)

theorem fullName_cons {segment : Segment} {p : Path} (hp : p ≠ []) :
    fullName (segment :: p) = segment.text ++ nameSeparator ++ p.fullName :=
  String.intercalate_cons_of_ne_nil (by simpa using hp)

@[simp] theorem fullName_nil : fullName [] = "" := rfl

/-- Only the text of a part shows in the text of the whole. -/
theorem fullName_append_congr {p p' q q' : Path} (hp : p = [] ↔ p' = []) (hq : q = [] ↔ q' = [])
    (hpn : p.fullName = p'.fullName) (hqn : q.fullName = q'.fullName) :
    (p ++ q).fullName = (p' ++ q').fullName := by
  by_cases hp0 : p = []
  · simpa [hp0, hp.1 hp0] using hqn
  · by_cases hq0 : q = []
    · simpa [hq0, hq.1 hq0] using hpn
    · rw [fullName_append hp0 hq0, fullName_append (mt hp.2 hp0) (mt hq.2 hq0), hpn, hqn]

theorem length_fullName_le_append_left (p q : Path) :
    p.fullName.length ≤ (p ++ q).fullName.length := by
  by_cases hp : p = []
  · simp [hp]
  · by_cases hq : q = []
    · simp [hq]
    · rw [fullName_append hp hq, String.length_append, String.length_append]
      omega

theorem length_fullName_le_append_right (p q : Path) :
    q.fullName.length ≤ (p ++ q).fullName.length := by
  by_cases hp : p = []
  · simp [hp]
  · by_cases hq : q = []
    · simp [hq]
    · rw [fullName_append hp hq, String.length_append]
      omega

/-! ### Derived names -/

/-- The name that the reference at `path` derives among those at `paths` under `key`. -/
def derivedName (key : String) (paths : List Path) (path : Path) : String :=
  if paths.length = 1 then key
  else (path.trim (leadingRun paths) (trailingRun paths)).fullName

/-- Each path derives its name by itself, once it is known what the paths share. -/
theorem derivedNames_eq_map (key : String) (paths : List Path) :
    derivedNames key paths = paths.map (derivedName key paths) := by
  by_cases hone : paths.length = 1
  · obtain ⟨path, rfl⟩ := List.length_eq_one_iff.1 hone
    rfl
  · simp only [derivedNames, hone, if_false]
    exact List.map_congr_left fun path _ ↦ by simp only [derivedName, hone, if_false, fullName]

/-- **Derived names do not depend on the order of the paths.** -/
theorem derivedName_congr (key : String) {paths paths' : List Path} (h : paths.Perm paths')
    (path : Path) : derivedName key paths path = derivedName key paths' path := by
  have hmem : ∀ p, p ∈ paths ↔ p ∈ paths' := fun p ↦ h.mem_iff
  rw [derivedName, derivedName, h.length_eq, leadingRun_congr hmem, trailingRun_congr hmem]

/-- What trimming leaves stands between what it takes away. -/
theorem eq_append_trim_append {leading trailing : Nat} {path : Path}
    (h : path.trim leading trailing ≠ []) :
    path = path.take leading ++ (path.trim leading trailing ++
      path.drop (path.length - trailing)) := by
  have hlt : leading < path.length - trailing := by
    have := List.length_pos_iff.2 h
    simp only [trim, List.length_drop, List.length_take] at this
    omega
  have htake : (path.take (path.length - trailing)).take leading = path.take leading := by
    rw [List.take_take, Nat.min_eq_left (Nat.le_of_lt hlt)]
  rw [trim, ← List.append_assoc, ← htake, List.take_append_drop, List.take_append_drop]

/-- Of every path of which trimming leaves something, it takes the same beginning and end. -/
theorem exists_eq_append_trim_append (paths : List Path) :
    ∃ start finish : Path, ∀ p ∈ paths, p.trim (leadingRun paths) (trailingRun paths) ≠ [] →
      p = start ++ (p.trim (leadingRun paths) (trailingRun paths) ++ finish) := by
  by_cases hpaths : paths = []
  · exact ⟨[], [], fun p hp ↦ absurd (hpaths ▸ hp) List.not_mem_nil⟩
  obtain ⟨first, hfirst⟩ := List.exists_mem_of_ne_nil paths hpaths
  refine ⟨first.take (leadingRun paths), first.drop (first.length - trailingRun paths),
    fun p hp htrim ↦ ?_⟩
  have hlead := ((le_leadingRun_iff hpaths).1 (Nat.le_refl _) first hfirst p hp).2
  have htrail := ((le_trailingRun_iff hpaths).1 (Nat.le_refl _) first hfirst p hp).2
  rw [hlead, htrail]
  exact eq_append_trim_append htrim

/-- A trimmed path with a name has a segment. -/
theorem trim_ne_nil_of_fullName_ne {leading trailing : Nat} {path : Path}
    (h : (path.trim leading trailing).fullName ≠ "") : path.trim leading trailing ≠ [] := by
  intro hnil
  rw [hnil, fullName_nil] at h
  exact h rfl

/-- **References under one key that derive one name have the same full name.** -/
theorem fullName_eq_of_derivedName_eq {key : String} {paths : List Path} (hlen : paths.length ≠ 1)
    {p q : Path} (hp : p ∈ paths) (hq : q ∈ paths) (hne : derivedName key paths p ≠ "")
    (heq : derivedName key paths p = derivedName key paths q) :
    fullName (.key key :: p) = fullName (.key key :: q) := by
  simp only [derivedName, hlen, if_false] at hne heq
  have hptrim := trim_ne_nil_of_fullName_ne hne
  have hqtrim := trim_ne_nil_of_fullName_ne (heq ▸ hne)
  obtain ⟨start, finish, hsplit⟩ := exists_eq_append_trim_append paths
  rw [hsplit p hp hptrim, hsplit q hq hqtrim, ← List.cons_append, ← List.cons_append]
  -- The beginnings and the ends are the same segments, the middles have the same text.
  refine fullName_append_congr Iff.rfl (by simp [hptrim, hqtrim]) rfl ?_
  exact fullName_append_congr (by simp [hptrim, hqtrim]) Iff.rfl heq rfl

/-- **A trimmed name is never the full name of its reference.** -/
theorem derivedName_ne_fullName {key : String} {paths : List Path} (hlen : paths.length ≠ 1)
    {p : Path} (hne : derivedName key paths p ≠ "") :
    derivedName key paths p ≠ fullName (.key key :: p) := by
  simp only [derivedName, hlen, if_false] at hne ⊢
  have htrim := trim_ne_nil_of_fullName_ne hne
  have hsplit := eq_append_trim_append htrim
  have hp : p ≠ [] := by
    rintro rfl
    simp [trim] at htrim
  -- A trimmed path is a part of the path, and the full name has the key and a separator besides.
  have hle : (p.trim (leadingRun paths) (trailingRun paths)).fullName.length ≤
      p.fullName.length := by
    have hright := length_fullName_le_append_right (p.take (leadingRun paths))
      (p.trim (leadingRun paths) (trailingRun paths) ++ p.drop (p.length - trailingRun paths))
    rw [← hsplit] at hright
    exact Nat.le_trans (length_fullName_le_append_left _ _) hright
  intro heq
  rw [fullName_cons hp] at heq
  have hlength := congrArg String.length heq
  simp only [String.length_append] at hlength
  have hsep : nameSeparator.length = 1 := rfl
  omega

end Path

end ActionTools
