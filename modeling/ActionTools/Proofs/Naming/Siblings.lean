import ActionTools.Proofs.Naming.Step
import Mathlib.Data.List.Perm.Subperm
import Mathlib.Order.Bounds.Basic

/-!
# References under one key

What trimming takes from the paths under one key is the longest beginning and the longest end that
all of them have (`isGreatest_leadingRun`, `isGreatest_trailingRun`). Neither looks at the order of
the paths, so listing them otherwise lists the same names otherwise
(`getElem?_derivedNames_of_perm`).

Trimming takes the same segments from every path of which it leaves something, so what it leaves
still tells the paths apart (`eq_of_trim_eq`). The derived name does not: it is a text, and segments
that differ may have the same text when joined. Such a clash cannot be resolved, since the segments
that were taken away are the same and the full names clash too. Both references ask for that one
name, and a full name once given stays given, so no policy names both
(`exists_addKey_eq_error`).
-/

namespace ActionTools

namespace Path

variable {paths : List Path}

/-! ### Shared runs -/

/-- The leading run is the length of the longest path with which all paths begin. -/
theorem le_leadingRun_iff_shared {n : Nat} (hne : paths ≠ []) :
    n ≤ leadingRun paths ↔ ∃ run : Path, run.length = n ∧ ∀ p ∈ paths, run <+: p := by
  rw [le_leadingRun_iff hne]
  constructor
  · intro h
    obtain ⟨first, hfirst⟩ := List.exists_mem_of_ne_nil paths hne
    refine ⟨first.take n, List.length_take_of_le (h first hfirst first hfirst).1, fun p hp ↦ ?_⟩
    rw [(h first hfirst p hp).2]
    exact List.take_prefix n p
  · rintro ⟨run, rfl, hrun⟩ p hp q hq
    have htake : ∀ r ∈ paths, r.take run.length = run := fun r hr ↦
      (List.prefix_iff_eq_take.1 (hrun r hr)).symm
    exact ⟨(hrun p hp).length_le, (htake p hp).trans (htake q hq).symm⟩

/-- The trailing run is the length of the longest path with which all paths end. -/
theorem le_trailingRun_iff_shared {n : Nat} (hne : paths ≠ []) :
    n ≤ trailingRun paths ↔ ∃ run : Path, run.length = n ∧ ∀ p ∈ paths, run <:+ p := by
  rw [trailingRun, le_leadingRun_iff_shared (by simpa using hne)]
  simp only [List.forall_mem_map]
  constructor
  · rintro ⟨run, hlen, hrun⟩
    refine ⟨run.reverse, by rw [List.length_reverse, hlen], fun p hp ↦ ?_⟩
    rw [← List.reverse_prefix, List.reverse_reverse]
    exact hrun p hp
  · rintro ⟨run, hlen, hrun⟩
    exact ⟨run.reverse, by rw [List.length_reverse, hlen], fun p hp ↦
      List.reverse_prefix.2 (hrun p hp)⟩

/-- **The leading run is the longest shared beginning**, and so no longer than any path. -/
theorem isGreatest_leadingRun (hne : paths ≠ []) :
    IsGreatest {n | ∃ run : Path, run.length = n ∧ ∀ p ∈ paths, run <+: p} (leadingRun paths) :=
  ⟨(le_leadingRun_iff_shared hne).1 (Nat.le_refl _), fun _ hn ↦
    (le_leadingRun_iff_shared hne).2 hn⟩

/-- **The trailing run is the longest shared end**, and so no longer than any path. -/
theorem isGreatest_trailingRun (hne : paths ≠ []) :
    IsGreatest {n | ∃ run : Path, run.length = n ∧ ∀ p ∈ paths, run <:+ p} (trailingRun paths) :=
  ⟨(le_trailingRun_iff_shared hne).1 (Nat.le_refl _), fun _ hn ↦
    (le_trailingRun_iff_shared hne).2 hn⟩

/-! ### Names by position -/

theorem getElem?_derivedNames (key : String) (paths : List Path) (i : Nat) :
    (derivedNames key paths)[i]? = (paths[i]?).map (derivedName key paths) := by
  rw [derivedNames_eq_map, List.getElem?_map]

/-- **Names move with their paths** when the paths are listed in another order. -/
theorem getElem?_derivedNames_of_perm (key : String) {paths' : List Path} (h : paths.Perm paths')
    {i j : Nat} (hij : paths[i]? = paths'[j]?) :
    (derivedNames key paths)[i]? = (derivedNames key paths')[j]? := by
  rw [getElem?_derivedNames, getElem?_derivedNames, hij, funext (derivedName_congr key h)]

theorem mem_zip_derivedNames {key : String} {p : Path} {name : String} :
    (p, name) ∈ paths.zip (derivedNames key paths) ↔
      p ∈ paths ∧ derivedName key paths p = name := by
  rw [derivedNames_eq_map, ← List.map_prod_left_eq_zip, List.mem_map]
  constructor
  · rintro ⟨path, hpath, heq⟩
    obtain ⟨rfl, rfl⟩ := Prod.mk.inj heq
    exact ⟨hpath, rfl⟩
  · rintro ⟨hp, rfl⟩
    exact ⟨p, hp, rfl⟩

/-! ### What trimming leaves -/

/-- **Trimming tells paths apart** as long as it leaves something of them. -/
theorem eq_of_trim_eq {p q : Path} (hp : p ∈ paths) (hq : q ∈ paths)
    (hne : p.trim (leadingRun paths) (trailingRun paths) ≠ [])
    (heq : p.trim (leadingRun paths) (trailingRun paths) =
      q.trim (leadingRun paths) (trailingRun paths)) : p = q := by
  obtain ⟨start, finish, hsplit⟩ := exists_eq_append_trim_append paths
  rw [hsplit p hp hne, hsplit q hq (heq ▸ hne), heq]

/-- A key does not show in the names of several references under it. -/
theorem derivedName_of_length_ne_one (key other : String) (hlen : paths.length ≠ 1) (p : Path) :
    derivedName key paths p = derivedName other paths p := by
  rw [derivedName, derivedName, if_neg hlen, if_neg hlen]

/-- A name that two paths derive is counted twice. -/
theorem one_lt_count_derivedName {key : String} {p q : Path} (hp : p ∈ paths) (hq : q ∈ paths)
    (hpq : p ≠ q) (heq : derivedName key paths p = derivedName key paths q) :
    1 < (derivedNames key paths).count (derivedName key paths p) := by
  obtain ⟨pair, hperm, hsub⟩ : List.Subperm [p, q] paths :=
    (List.nodup_cons.2 ⟨by simpa using hpq, List.nodup_singleton q⟩).subperm (by simp [hp, hq])
  have hcount := (hsub.map (derivedName key paths)).count_le (derivedName key paths p)
  rw [(hperm.map _).count_eq, List.map_cons, List.count_cons_self, List.map_singleton, ← heq,
    List.count_singleton_self] at hcount
  rw [derivedNames_eq_map]
  exact hcount

end Path

namespace Namer

open Candidate

variable {paths : List Path}

/-- **References under one key with one derived name are never both named**, whatever names have
been given before and under either policy. -/
theorem exists_addKey_eq_error (namer : Namer) {key : String} {p q : Path}
    (hlen : paths.length ≠ 1) (hp : p ∈ paths) (hq : q ∈ paths) (hpq : p ≠ q)
    (hne : Path.derivedName key paths p ≠ "")
    (heq : Path.derivedName key paths p = Path.derivedName key paths q) :
    ∃ failure, (namer.addKey key paths).2 = .error failure := by
  rcases hresult : namer.addKey key paths with ⟨last, failure | given⟩
  · exact ⟨failure, rfl⟩
  have hrun : Run namer (claims key paths) last := addReferences_eq_ok_iff.1 ⟨given, hresult⟩
  -- Both have to take their full names, of which there is only one.
  have hholds : ∀ r ∈ paths,
      1 < (Path.derivedNames key paths).count (Path.derivedName key paths r) →
      last.names.get? (Path.fullName (.key key :: r)) = some (ofPath key paths r).moved := by
    intro r hr hcount
    refine hrun.get?_full_of_spoiled ?_ (.inr (isRepeated_ofPath.2 hcount))
    rw [claims_eq_map]
    exact List.mem_map_of_mem hr
  have hpholds := hholds p hp (Path.one_lt_count_derivedName hp hq hpq heq)
  have hqholds := hholds q hq (Path.one_lt_count_derivedName hq hp hpq.symm heq.symm)
  rw [Path.fullName_eq_of_derivedName_eq hlen hp hq hne heq, hqholds] at hpholds
  have hpath := congrArg Claim.path (Option.some.inj hpholds)
  simp only [moved_path, claim_ofPath, List.cons.injEq, true_and] at hpath
  exact absurd hpath.symm hpq

/-- **Trimming is symmetric, and one-to-one up to joining.** Of several paths it takes the longest
beginning and the longest end that all share; names move with their paths when these are listed
otherwise; of different paths it leaves different segments, unless it leaves none. If two paths
derive the same name all the same, and it is not empty, then their full names are the same under any
key, and under no key do the paths get names. -/
theorem trimming_exact (key : String) (hlen : 2 ≤ paths.length) :
    (IsGreatest {n | ∃ run : Path, run.length = n ∧ ∀ p ∈ paths, run <+: p}
        (Path.leadingRun paths) ∧
      IsGreatest {n | ∃ run : Path, run.length = n ∧ ∀ p ∈ paths, run <:+ p}
        (Path.trailingRun paths)) ∧
    (∀ paths', paths.Perm paths' → ∀ i j : Nat, paths[i]? = paths'[j]? →
      (Path.derivedNames key paths)[i]? = (Path.derivedNames key paths')[j]?) ∧
    (∀ p ∈ paths, ∀ q ∈ paths, p ≠ q →
      p.trim (Path.leadingRun paths) (Path.trailingRun paths) ≠ [] →
      p.trim (Path.leadingRun paths) (Path.trailingRun paths) ≠
        q.trim (Path.leadingRun paths) (Path.trailingRun paths)) ∧
    ∀ p q name, p ≠ q → name ≠ "" → (p, name) ∈ paths.zip (Path.derivedNames key paths) →
      (q, name) ∈ paths.zip (Path.derivedNames key paths) →
      (∀ other, Path.fullName (.key other :: p) = Path.fullName (.key other :: q)) ∧
        ∀ (namer : Namer) (other : String),
          ∃ failure, (namer.addKey other paths).2 = .error failure := by
  have hne : paths ≠ [] := List.ne_nil_of_length_pos (by omega)
  have hseveral : paths.length ≠ 1 := by omega
  refine ⟨⟨Path.isGreatest_leadingRun hne, Path.isGreatest_trailingRun hne⟩, ?_, ?_, ?_⟩
  · exact fun paths' hperm i j hij ↦ Path.getElem?_derivedNames_of_perm key hperm hij
  · exact fun p hp q hq hpq hleft heq ↦ hpq (Path.eq_of_trim_eq hp hq hleft heq)
  · intro p q name hpq hname hpmem hqmem
    obtain ⟨hp, rfl⟩ := Path.mem_zip_derivedNames.1 hpmem
    obtain ⟨hq, heq⟩ := Path.mem_zip_derivedNames.1 hqmem
    -- The names are the same under any other key.
    have hother : ∀ other, Path.derivedName other paths p ≠ "" ∧
        Path.derivedName other paths p = Path.derivedName other paths q := by
      intro other
      rw [Path.derivedName_of_length_ne_one other key hseveral p,
        Path.derivedName_of_length_ne_one other key hseveral q]
      exact ⟨hname, heq.symm⟩
    constructor
    · exact fun other ↦
        Path.fullName_eq_of_derivedName_eq hseveral hp hq (hother other).1 (hother other).2
    · exact fun namer other ↦
        namer.exists_addKey_eq_error hseveral hp hq hpq (hother other).1 (hother other).2

/-- A key with a point in it reads like two keys. -/
theorem trimming_exact_pointed :
    2 ≤ [[Segment.key "x.y"], [.key "x", .key "y"], [.index 0]].length ∧
      Path.fullName [.key "K", .key "x.y"] = Path.fullName [.key "K", .key "x", .key "y"] ∧
      ∀ policy, ∃ failure, ((new "t" policy).addKey "K"
        [[.key "x.y"], [.key "x", .key "y"], [.index 0]]).2 = .error failure := by
  have hlen : 2 ≤ [[Segment.key "x.y"], [.key "x", .key "y"], [.index 0]].length := by decide
  obtain ⟨hfull, hfails⟩ := (trimming_exact "K" hlen).2.2.2 [.key "x.y"] [.key "x", .key "y"] "x.y"
    (by decide) (by decide) (by decide) (by decide)
  exact ⟨hlen, hfull "K", fun policy ↦ hfails (new "t" policy) "K"⟩

end Namer

end ActionTools
