import ActionTools.Proofs.Naming.Order

/-!
# The rule behind the names

A namer decides name by name and takes back what it decided before. Where full names are safe to
fall back to (`Reserved`: none is empty, no two are the same, none is what another reference
derives), all of this comes to one rule, which looks at all references at once: a reference keeps
its derived name if that is not empty and the reference is alone under its key, or alone in deriving
the name; otherwise it has its full name (`nameByRule`).

The rule is what is left of `Displaced` when no full name covers a derived one
(`displaced_iff_not_keeps`). That every call succeeds is then what `exists_addKeys_iff` says: full
names that differ can all be given, and none of them ever comes too late.
-/

namespace ActionTools

namespace Namer

open Candidate

/-- Full names are safe to fall back to. -/
structure Reserved (keys : Entries (List Path)) : Prop where
  /-- No full name is empty. -/
  full_ne_empty : "" ∉ fullNames keys
  /-- No two references have the same full name. -/
  nodup_full : (fullNames keys).Nodup
  /-- A reference that derives a full name is the one whose full name it is. -/
  eq_of_full_eq : ∀ entry ∈ keys, ∀ path ∈ entry.2, ∀ other ∈ keys, ∀ path' ∈ other.2,
    Path.fullName (.key entry.1 :: path) = Path.derivedName other.1 other.2 path' →
      other = entry ∧ path' = path

instance (keys : Entries (List Path)) : Decidable (Reserved keys) :=
  decidable_of_iff
    ("" ∉ fullNames keys ∧ (fullNames keys).Nodup ∧
      ∀ entry ∈ keys, ∀ path ∈ entry.2, ∀ other ∈ keys, ∀ path' ∈ other.2,
        Path.fullName (.key entry.1 :: path) = Path.derivedName other.1 other.2 path' →
          other = entry ∧ path' = path)
    ⟨fun h ↦ ⟨h.1, h.2.1, h.2.2⟩, fun h ↦ ⟨h.full_ne_empty, h.nodup_full, h.eq_of_full_eq⟩⟩

/-- The reference at `path` under the key of `entry` keeps its derived name: the name is not empty,
and the reference is alone under its key, or the only one of all to derive the name. -/
def Keeps (keys : Entries (List Path)) (entry : String × List Path) (path : Path) : Prop :=
  Path.derivedName entry.1 entry.2 path ≠ "" ∧
    (entry.2.length = 1 ∨
      ∀ other ∈ keys, ∀ path' ∈ other.2,
        Path.derivedName other.1 other.2 path' = Path.derivedName entry.1 entry.2 path →
          other = entry ∧ path' = path)

instance (keys : Entries (List Path)) (entry : String × List Path) (path : Path) :
    Decidable (Keeps keys entry path) :=
  inferInstanceAs (Decidable (_ ∧ (_ ∨ _)))

/-- The name of a reference by the rule. -/
def nameByRule (keys : Entries (List Path)) (entry : String × List Path) (path : Path) : String :=
  if Keeps keys entry path then Path.derivedName entry.1 entry.2 path
  else Path.fullName (.key entry.1 :: path)

section Keys

variable {keys : Entries (List Path)} (hkeys : (Entries.keys keys).Nodup)

/-! ### What reserved full names mean for the candidates -/

/-- References with different full names are different. -/
theorem Reserved.nodup (h : Reserved keys) : ∀ entry ∈ keys, entry.2.Nodup :=
  fun entry hentry ↦ ((List.nodup_flatMap.1 h.nodup_full).1 entry hentry).of_map _

/-- Different references have different full names. -/
theorem Reserved.eq_of_full {c c' : Candidate} (h : Reserved keys) (hc : c ∈ candidates keys)
    (hc' : c' ∈ candidates keys) (heq : c.full = c'.full) : c = c' := by
  have hnodup := h.nodup_full
  rw [← map_full_candidates] at hnodup
  exact List.inj_on_of_nodup_map hnodup hc hc' heq

/-- A full name is derived by no other reference. -/
theorem Reserved.full_ne_derived {c c' : Candidate} (h : Reserved keys) (hc : c ∈ candidates keys)
    (hc' : c' ∈ candidates keys) (hne : c ≠ c') : c.full ≠ c'.derived := by
  obtain ⟨entry, hentry, path, hpath, rfl⟩ := mem_candidates.1 hc
  obtain ⟨other, hother, path', hpath', rfl⟩ := mem_candidates.1 hc'
  intro heq
  obtain ⟨rfl, rfl⟩ := h.eq_of_full_eq entry hentry path hpath other hother path' hpath' heq
  exact hne rfl

/-- When full names are reserved, all references can be named. -/
theorem Reserved.nameable (h : Reserved keys) : Nameable (candidates keys) := by
  intro c hc
  refine ⟨fun hempty ↦ h.full_ne_empty ?_, fun c' hc' heq ↦ h.eq_of_full hc'.mem hc.mem heq⟩
  rw [← hempty, ← map_full_candidates]
  exact List.mem_map_of_mem hc.mem

/-- When full names are reserved, no order is too late. -/
theorem Reserved.timely (h : Reserved keys) : Timely (candidates keys) :=
  timely_of_disjoint fun _ hc _ hc' ↦ h.full_ne_derived hc hc'

/-! ### The rule -/

section Reference

variable {entry : String × List Path} (hentry : entry ∈ keys) {path : Path} (hpath : path ∈ entry.2)

include hentry hpath

theorem ofPath_mem : ofPath entry.1 entry.2 path ∈ candidates keys :=
  mem_candidates.2 ⟨entry, hentry, path, hpath, rfl⟩

include hkeys

/-- **With full names reserved, displacement is one look at all references.** -/
theorem displaced_iff_not_keeps (h : Reserved keys) :
    Displaced (candidates keys) (ofPath entry.1 entry.2 path) ↔ ¬ Keeps keys entry path := by
  have hmem := ofPath_mem hentry hpath
  constructor
  · rintro hdisplaced ⟨hne, hkeeps⟩
    cases hdisplaced with
    | spoiled _ hspoiled =>
      -- A repeated name would be that of two references with one full name.
      rcases hspoiled with hempty | hrep
      · exact hne hempty
      · obtain ⟨c', hc', hdiff, -, hfull⟩ := exists_twin h.nodup hmem hrep hne
        exact hdiff (h.eq_of_full hc' hmem hfull)
    | @shared _ c' _ horigin hc' hdiff hderived =>
      have hlen : entry.2.length ≠ 1 := fun hone ↦ by simp [hone] at horigin
      obtain ⟨other, hother, path', hpath', rfl⟩ := mem_candidates.1 hc'
      obtain ⟨rfl, rfl⟩ := hkeeps.resolve_left hlen other hother path' hpath' hderived
      exact hdiff rfl
    | covered _ hc' hdiff hfull => exact h.full_ne_derived hc'.mem hmem hdiff hfull
  · intro hnot
    by_cases hempty : Path.derivedName entry.1 entry.2 path = ""
    · exact .spoiled hmem (.inl hempty)
    · simp only [Keeps, not_and, not_or] at hnot
      obtain ⟨hlen, hshared⟩ := hnot hempty
      push Not at hshared
      obtain ⟨other, hother, path', hpath', hderived, hdiff⟩ := hshared
      refine .shared hmem (by simp [hlen]) (ofPath_mem hother hpath') (fun heq ↦ ?_) hderived
      have hplace := congrArg (fun c : Candidate ↦ c.claim.path) heq
      simp only [claim_ofPath, List.cons.injEq, Segment.key.injEq] at hplace
      exact hdiff (eq_of_mem_of_key_eq hkeys hother hentry hplace.1) hplace.2

/-- **The rule gives each reference the name it ends with.** A reference is displaced if the rule
does not let it keep its derived name, as no full name displaces another reference. -/
theorem place_eq_nameByRule (h : Reserved keys) :
    ((ofPath entry.1 entry.2 path).place (Displaced (candidates keys))).1 =
      nameByRule keys entry path := by
  have hiff := displaced_iff_not_keeps hkeys hentry hpath h
  by_cases hkeeps : Keeps keys entry path
  · rw [place_of_not_gone (fun hgone ↦ hiff.1 hgone hkeeps), nameByRule, if_pos hkeeps]
    rfl
  · rw [place_of_gone (hiff.2 hkeeps), nameByRule, if_neg hkeeps]
    rfl

omit hkeys in
/-- A reference that does not keep its derived name is named otherwise. -/
theorem nameByRule_eq_derived_iff (h : Reserved keys) :
    nameByRule keys entry path = Path.derivedName entry.1 entry.2 path ↔
      Keeps keys entry path := by
  constructor
  · intro heq
    by_contra hnot
    rw [nameByRule, if_neg hnot] at heq
    have hmem := ofPath_mem hentry hpath
    have hne : Path.derivedName entry.1 entry.2 path ≠ "" := by
      intro hempty
      refine h.full_ne_empty ?_
      rw [← hempty, ← heq, ← map_full_candidates]
      exact List.mem_map_of_mem (f := full) hmem
    have hlen : entry.2.length ≠ 1 := fun hone ↦ hnot ⟨hne, .inl hone⟩
    exact derived_ne_full hmem (by simp [hlen]) hne heq.symm
  · exact fun hkeeps ↦ if_pos hkeeps

end Reference

include hkeys

/-- The final map has each reference under its name by the rule. -/
theorem get?_paths_iff_nameByRule (h : Reserved keys) {tool : String} {last : Namer}
    (hlast : (new tool .fallback).addKeys keys = .ok last) {name : String} {place : Path} :
    last.paths.get? name = some place ↔
      ∃ entry ∈ keys, ∃ path ∈ entry.2,
        nameByRule keys entry path = name ∧ .key entry.1 :: path = place := by
  obtain ⟨-, hsettled⟩ := settled_of_addKeys hkeys h.nodup hlast
  rw [Namer.paths, NameMap.get?_map, hsettled.records.map_path_eq_some_iff,
    exists_mem_candidates_iff]
  refine exists_congr fun entry ↦ and_congr_right fun hentry ↦ ?_
  refine exists_congr fun path ↦ and_congr_right fun hpath ↦ ?_
  rw [place_eq_nameByRule hkeys hentry hpath h]
  rfl

/-- **Names follow the rule**: every key is named, and the final map has each reference under its
name by the rule and nothing else. So a reference has its derived name exactly when it keeps it. -/
theorem exists_addKeys_rule (h : Reserved keys) (tool : String) :
    ∃ last, (new tool .fallback).addKeys keys = .ok last ∧
      (∀ name place, last.paths.get? name = some place ↔
        ∃ entry ∈ keys, ∃ path ∈ entry.2,
          nameByRule keys entry path = name ∧ .key entry.1 :: path = place) ∧
      ∀ entry ∈ keys, ∀ path ∈ entry.2,
        (last.paths.get? (Path.derivedName entry.1 entry.2 path) = some (.key entry.1 :: path) ↔
          Keeps keys entry path) := by
  obtain ⟨last, hlast⟩ := (exists_addKeys_iff hkeys h.nodup tool).2 ⟨h.nameable, h.timely⟩
  refine ⟨last, hlast, fun _ _ ↦ get?_paths_iff_nameByRule hkeys h hlast,
    fun entry hentry path hpath ↦ ?_⟩
  rw [get?_paths_iff_nameByRule hkeys h hlast, ← nameByRule_eq_derived_iff hentry hpath h]
  constructor
  · rintro ⟨other, hother, path', hpath', hname, hplace⟩
    obtain ⟨hkey, rfl⟩ := List.cons.inj hplace
    obtain rfl := eq_of_mem_of_key_eq hkeys hother hentry (Segment.key.inj hkey)
    exact hname
  · exact fun hname ↦ ⟨entry, hentry, path, hpath, hname, rfl⟩

end Keys

/-- Three keys claim the name `x`, the last of them alone; under the fourth nothing is left of
either path. -/
def rivalKeys : Entries (List Path) :=
  [("A", [[.key "x", .key "n"], [.key "z", .key "n"]]),
    ("B", [[.key "x", .key "m"], [.key "w", .key "m"]]), ("x", [[.index 0]]),
    ("C", [[.key "s"], [.key "s", .key "s"]])]

/-- The trimmed rivals move to their full paths, and so do those whose derived name is empty. -/
theorem exists_addKeys_rivalKeys :
    (Entries.keys rivalKeys).Nodup ∧ Reserved rivalKeys ∧
      ∃ last, (new "t" .fallback).addKeys rivalKeys = .ok last ∧
        last.paths.get? "x" = some [.key "x", .index 0] ∧
        last.paths.get? "A.x.n" = some [.key "A", .key "x", .key "n"] ∧
        last.paths.get? "C.s.s" = some [.key "C", .key "s", .key "s"] := by
  have hkeys : (Entries.keys rivalKeys).Nodup := by decide
  have hreserved : Reserved rivalKeys := by decide
  obtain ⟨last, hlast, hpaths, -⟩ := exists_addKeys_rule hkeys hreserved "t"
  refine ⟨hkeys, hreserved, last, hlast, (hpaths _ _).2 ?_, (hpaths _ _).2 ?_, (hpaths _ _).2 ?_⟩
  · decide
  · decide
  · decide

end Namer

end ActionTools
