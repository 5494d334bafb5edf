import ActionTools.Naming.Namer
import ActionTools.Proofs.Naming.Trimming
import Mathlib.Data.List.Nodup

/-!
# The references that ask for names

`Namer.candidates` lists the references under several keys, each with the name it derives and with
whether a sibling derives the same. What the naming of all keys rests on is collected here for
arbitrary keys and paths, as long as keys differ and the paths under one key differ:

* a candidate is known by its path (`eq_of_path_eq`);
* two references that are alone under their keys derive different names (`eq_of_key_origin`);
* a trimmed name differs from the full name of its reference (`derived_ne_full`);
* a reference whose name a sibling repeats has such a sibling with the same full name
  (`exists_twin`).

The list matters only as a set: listing keys, or the paths under a key, in another order gives the
same candidates (`mem_candidates_of_perm`).
-/

namespace ActionTools

/-- A reference that asks for a name: the name it derives, whether a sibling derives the same, and
the reference itself. -/
abbrev Candidate := String × Bool × Claim

namespace Candidate

/-- The name derived. -/
def derived (c : Candidate) : String := c.1

/-- Whether a sibling derives the same name. -/
def isRepeated (c : Candidate) : Bool := c.2.1

/-- The reference, as it is recorded under its derived name. -/
def claim (c : Candidate) : Claim := c.2.2

/-- The full name of the reference. -/
def full (c : Candidate) : String := c.claim.path.fullName

/-- The reference, as it is recorded under its full name. -/
def moved (c : Candidate) : Claim := { c.claim with origin := .fullPath }

@[simp] theorem moved_path (c : Candidate) : c.moved.path = c.claim.path := rfl

@[simp] theorem moved_key (c : Candidate) : c.moved.key = c.claim.key := rfl

@[simp] theorem moved_origin (c : Candidate) : c.moved.origin = .fullPath := rfl

/-- The reference at `path` among those at `paths` under `key`. -/
def ofPath (key : String) (paths : List Path) (path : Path) : Candidate :=
  (Path.derivedName key paths path,
    1 < (Path.derivedNames key paths).count (Path.derivedName key paths path),
    ⟨key, .key key :: path, if paths.length = 1 then .key else .trimmed⟩)

@[simp] theorem derived_ofPath (key : String) (paths : List Path) (path : Path) :
    (ofPath key paths path).derived = Path.derivedName key paths path := rfl

@[simp] theorem claim_ofPath (key : String) (paths : List Path) (path : Path) :
    (ofPath key paths path).claim =
      ⟨key, .key key :: path, if paths.length = 1 then .key else .trimmed⟩ := rfl

/-- A name is repeated when it occurs twice among those of its siblings. -/
theorem isRepeated_ofPath {key : String} {paths : List Path} {path : Path} :
    (ofPath key paths path).isRepeated = true ↔
      1 < (Path.derivedNames key paths).count (Path.derivedName key paths path) :=
  decide_eq_true_iff

/-- A candidate does not depend on the order of its siblings. -/
theorem ofPath_congr (key : String) {paths paths' : List Path} (h : paths.Perm paths')
    (path : Path) : ofPath key paths path = ofPath key paths' path := by
  have hderived : ∀ p, Path.derivedName key paths p = Path.derivedName key paths' p :=
    Path.derivedName_congr key h
  have hnames : (Path.derivedNames key paths).Perm (Path.derivedNames key paths') := by
    rw [Path.derivedNames_eq_map, Path.derivedNames_eq_map, ← funext hderived]
    exact h.map _
  simp only [ofPath, hderived, hnames.count_eq, h.length_eq]

end Candidate

namespace Namer

open Candidate

/-- The claims under a key are made from its paths one by one. -/
theorem claims_eq_map (key : String) (paths : List Path) :
    claims key paths = paths.map (ofPath key paths) := by
  rw [claims, Path.derivedNames_eq_map, ← List.map_prod_right_eq_zip, List.map_map]
  exact List.map_congr_left fun path _ ↦ by simp [ofPath, Path.derivedNames_eq_map]

/-- The references under several keys, in the order in which they are named. -/
def candidates (keys : Entries (List Path)) : List Candidate :=
  keys.flatMap fun entry ↦ claims entry.1 entry.2

@[simp] theorem candidates_nil : candidates [] = [] := rfl

/-- The references under the first key are named first. -/
theorem candidates_cons (entry : String × List Path) (keys : Entries (List Path)) :
    candidates (entry :: keys) = claims entry.1 entry.2 ++ candidates keys :=
  List.flatMap_cons

/-- A candidate comes from a path under one of the keys. -/
theorem mem_candidates {keys : Entries (List Path)} {c : Candidate} :
    c ∈ candidates keys ↔
      ∃ entry ∈ keys, ∃ path ∈ entry.2, ofPath entry.1 entry.2 path = c := by
  simp only [candidates, List.mem_flatMap, claims_eq_map, List.mem_map]

/-- There is a candidate of a kind when some reference makes one. -/
theorem exists_mem_candidates_iff {keys : Entries (List Path)} {p : Candidate → Prop} :
    (∃ c ∈ candidates keys, p c) ↔
      ∃ entry ∈ keys, ∃ path ∈ entry.2, p (ofPath entry.1 entry.2 path) := by
  constructor
  · rintro ⟨c, hc, hp⟩
    obtain ⟨entry, hentry, path, hpath, rfl⟩ := mem_candidates.1 hc
    exact ⟨entry, hentry, path, hpath, hp⟩
  · rintro ⟨entry, hentry, path, hpath, hp⟩
    exact ⟨_, mem_candidates.2 ⟨entry, hentry, path, hpath, rfl⟩, hp⟩

/-- The names that the references under several keys derive. -/
def derivedNames (keys : Entries (List Path)) : List String :=
  keys.flatMap fun entry ↦ Path.derivedNames entry.1 entry.2

/-- The full names of the references under several keys. -/
def fullNames (keys : Entries (List Path)) : List String :=
  keys.flatMap fun entry ↦ entry.2.map fun path ↦ Path.fullName (.key entry.1 :: path)

/-- The names that candidates derive are those derived key by key. -/
theorem map_derived_candidates (keys : Entries (List Path)) :
    (candidates keys).map derived = derivedNames keys := by
  simp only [candidates, derivedNames, claims_eq_map, Path.derivedNames_eq_map, List.map_flatMap,
    List.map_map]
  rfl

/-- The full names of candidates are the keys put before their paths. -/
theorem map_full_candidates (keys : Entries (List Path)) :
    (candidates keys).map full = fullNames keys := by
  simp only [candidates, fullNames, claims_eq_map, List.map_flatMap, List.map_map]
  rfl

/-- **The order of keys, and of the paths under a key, does not matter to the candidates.** -/
theorem mem_candidates_of_perm {keys keys' : Entries (List Path)}
    (h : ∀ entry ∈ keys, ∃ entry' ∈ keys', entry'.1 = entry.1 ∧ entry.2.Perm entry'.2)
    {c : Candidate} (hc : c ∈ candidates keys) : c ∈ candidates keys' := by
  obtain ⟨entry, hentry, path, hpath, rfl⟩ := mem_candidates.1 hc
  obtain ⟨entry', hentry', hkey, hperm⟩ := h entry hentry
  refine mem_candidates.2 ⟨entry', hentry', path, hperm.mem_iff.1 hpath, ?_⟩
  rw [hkey, ofPath_congr entry.1 hperm]

/-! ### What is known of the candidates of distinct keys -/

section Distinct

variable {keys : Entries (List Path)} (hkeys : (Entries.keys keys).Nodup)

include hkeys

/-- The paths under a key are determined by the key. -/
theorem eq_of_mem_of_key_eq {entry entry' : String × List Path} (h : entry ∈ keys)
    (h' : entry' ∈ keys) (hkey : entry.1 = entry'.1) : entry = entry' :=
  List.inj_on_of_nodup_map hkeys h h' hkey

/-- A candidate is known by its path: the first segment is the key, and the others are a path under
it. -/
theorem eq_of_path_eq {c c' : Candidate} (hc : c ∈ candidates keys) (hc' : c' ∈ candidates keys)
    (h : c.claim.path = c'.claim.path) : c = c' := by
  obtain ⟨entry, hentry, path, hpath, rfl⟩ := mem_candidates.1 hc
  obtain ⟨entry', hentry', path', hpath', rfl⟩ := mem_candidates.1 hc'
  simp only [claim_ofPath, List.cons.injEq, Segment.key.injEq] at h
  obtain rfl := eq_of_mem_of_key_eq hkeys hentry hentry' h.1
  rw [h.2]

/-- The names of references alone under their keys are their keys. -/
theorem eq_of_key_origin {c c' : Candidate} (hc : c ∈ candidates keys)
    (hc' : c' ∈ candidates keys) (horigin : c.claim.origin ≠ .trimmed)
    (horigin' : c'.claim.origin ≠ .trimmed) (h : c.derived = c'.derived) : c = c' := by
  obtain ⟨entry, hentry, path, hpath, rfl⟩ := mem_candidates.1 hc
  obtain ⟨entry', hentry', path', hpath', rfl⟩ := mem_candidates.1 hc'
  have hone : entry.2.length = 1 := by simpa using horigin
  have hone' : entry'.2.length = 1 := by simpa using horigin'
  have hkey : entry.1 = entry'.1 := by simpa [Path.derivedName, hone, hone'] using h
  obtain rfl := eq_of_mem_of_key_eq hkeys hentry hentry' hkey
  obtain ⟨only, honly⟩ := List.length_eq_one_iff.1 hone
  rw [honly, List.mem_singleton] at hpath hpath'
  rw [hpath, hpath']

omit hkeys

/-- No reference asks for its full name at first. -/
theorem origin_ne_fullPath {c : Candidate} (hc : c ∈ candidates keys) :
    c.claim.origin ≠ .fullPath := by
  obtain ⟨entry, hentry, path, hpath, rfl⟩ := mem_candidates.1 hc
  by_cases hone : entry.2.length = 1 <;> simp [hone]

/-- A trimmed name is shorter than the full one, unless it is empty. -/
theorem derived_ne_full {c : Candidate} (hc : c ∈ candidates keys)
    (horigin : c.claim.origin = .trimmed) (hne : c.derived ≠ "") : c.derived ≠ c.full := by
  obtain ⟨entry, hentry, path, hpath, rfl⟩ := mem_candidates.1 hc
  have hlen : entry.2.length ≠ 1 := by
    intro hone
    simp [hone] at horigin
  exact Path.derivedName_ne_fullName hlen hne

/-- The path of a candidate starts with its key. -/
theorem path_eq_key_cons {c : Candidate} (hc : c ∈ candidates keys) :
    ∃ path, c.claim.path = .key c.claim.key :: path := by
  obtain ⟨entry, hentry, path, hpath, rfl⟩ := mem_candidates.1 hc
  exact ⟨path, rfl⟩

variable (hpaths : ∀ entry ∈ keys, entry.2.Nodup)

include hpaths

/-- **A repeated name has two bearers with the same full name.** They lose the name, and only one of
them can get the full one. -/
theorem exists_twin {c : Candidate} (hc : c ∈ candidates keys) (hrep : c.isRepeated = true)
    (hne : c.derived ≠ "") :
    ∃ c' ∈ candidates keys, c' ≠ c ∧ c'.isRepeated = true ∧ c'.full = c.full := by
  obtain ⟨entry, hentry, path, hpath, rfl⟩ := mem_candidates.1 hc
  obtain ⟨key, paths⟩ := entry
  have hcount : 1 < (Path.derivedNames key paths).count (Path.derivedName key paths path) :=
    isRepeated_ofPath.1 hrep
  -- The repeated name belongs to another path too, since the paths themselves are not repeated.
  have hother : ∃ path' ∈ paths, path' ≠ path ∧
      Path.derivedName key paths path' = Path.derivedName key paths path := by
    by_contra hnone
    push Not at hnone
    have hle : (Path.derivedNames key paths).count (Path.derivedName key paths path) ≤
        paths.count path := by
      rw [Path.derivedNames_eq_map, List.count, List.countP_map, List.count]
      refine List.countP_mono_left fun path' hpath' hname ↦ ?_
      by_contra hdiff
      exact hnone path' hpath' (by simpa using hdiff) (by simpa using hname)
    have hone : paths.count path ≤ 1 := List.nodup_iff_count.1 (hpaths _ hentry) path
    omega
  obtain ⟨path', hpath', hdiff, hname⟩ := hother
  have hlen : paths.length ≠ 1 := by
    intro hone
    obtain ⟨only, rfl⟩ := List.length_eq_one_iff.1 hone
    exact hdiff ((List.mem_singleton.1 hpath').trans (List.mem_singleton.1 hpath).symm)
  refine ⟨ofPath key paths path', mem_candidates.2 ⟨_, hentry, path', hpath', rfl⟩, ?_, ?_, ?_⟩
  · intro heq
    have := congrArg (fun c : Candidate ↦ c.claim.path) heq
    simp only [claim_ofPath, List.cons.injEq, true_and] at this
    exact hdiff this
  · rw [isRepeated_ofPath, hname]
    exact hcount
  · exact Path.fullName_eq_of_derivedName_eq hlen hpath' hpath (by rw [hname]; exact hne) hname

include hkeys

/-- No reference asks twice. -/
theorem nodup_candidates : (candidates keys).Nodup := by
  refine List.nodup_flatMap.2 ⟨fun entry hentry ↦ ?_, ?_⟩
  · rw [claims_eq_map]
    refine (hpaths entry hentry).map_on fun path _ path' _ heq ↦ ?_
    have := congrArg (fun c : Candidate ↦ c.claim.path) heq
    simpa only [claim_ofPath, List.cons.injEq, true_and] using this
  · refine (List.pairwise_map.1 hkeys).imp fun {entry entry'} hne c hc hc' ↦ hne ?_
    simp only [claims_eq_map, List.mem_map] at hc hc'
    obtain ⟨path, -, rfl⟩ := hc
    obtain ⟨path', -, heq⟩ := hc'
    exact (congrArg (fun c : Candidate ↦ c.claim.key) heq).symm

end Distinct

end Namer

end ActionTools
