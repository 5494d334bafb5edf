import ActionTools.Json.Equality
import Mathlib.Data.List.Perm.Subperm

/-!
# Looking into equal values

Values that are equal as data are built alike but for the order of keys. So what is looked up in two
equal values is found in both or in neither, and what is found is equal again: `lookup_of_equal` and
`get?_of_equal` for keys, `getElem?_of_equal` for indices. Equal texts are the same text
(`string?_of_equal`).

Equality compares mappings by looking up the keys of the first in the second. That no key of the
second is left over is a matter of counting, and needs the keys of the first to be distinct
(`keys_perm_of_equal`).
-/

namespace ActionTools

namespace Json

/-- Nothing twice, or two equal values. -/
abbrev EqualFound : Option Json → Option Json → Prop := Option.Rel fun a b ↦ a.equal b = true

/-! ### Mappings -/

/-- Entries are equal to others when each finds an equal value under its key. The others may have
more. -/
theorem equalEntries_iff {as bs : Entries Json} :
    equalEntries as bs = true ↔
      ∀ entry ∈ as, ∃ b, bs.lookup entry.1 = some b ∧ entry.2.equal b = true := by
  induction as with
  | nil => simp [equalEntries]
  | cons entry rest ih =>
    obtain ⟨key, a⟩ := entry
    rw [equalEntries, Bool.and_eq_true, ih, List.forall_mem_cons]
    cases bs.lookup key <;> simp

/-- Mappings are equal when they have as many entries and each finds an equal value under its
key. -/
theorem equal_object_iff {as bs : Entries Json} :
    equal (.object as) (.object bs) = true ↔
      as.length = bs.length ∧
        ∀ entry ∈ as, ∃ b, bs.lookup entry.1 = some b ∧ entry.2.equal b = true := by
  rw [equal, Bool.and_eq_true, beq_iff_eq, equalEntries_iff]

/-- Equal mappings have the same keys. -/
theorem keys_perm_of_equal {as bs : Entries Json} (hkeys : (Entries.keys as).Nodup)
    (h : equal (.object as) (.object bs) = true) : (Entries.keys as).Perm (Entries.keys bs) := by
  obtain ⟨hlength, hentries⟩ := equal_object_iff.1 h
  have hsub : Entries.keys as ⊆ Entries.keys bs := by
    intro key hkey
    obtain ⟨entry, hentry, rfl⟩ := List.mem_map.1 hkey
    obtain ⟨b, hb, -⟩ := hentries entry hentry
    exact List.mem_map.2 ⟨_, Entries.mem_of_lookup hb, rfl⟩
  -- Distinct keys, all among the others, and as many of them.
  have hle : (Entries.keys bs).length ≤ (Entries.keys as).length := by
    simp [Entries.keys, hlength]
  exact (hkeys.subperm hsub).perm_of_length_le hle

/-- Equal mappings have equal values under a key, or both have none. -/
theorem lookup_of_equal {as bs : Entries Json} (hkeys : (Entries.keys as).Nodup)
    (h : equal (.object as) (.object bs) = true) (key : String) :
    EqualFound (as.lookup key) (bs.lookup key) := by
  cases hget : as.lookup key with
  | some a =>
    obtain ⟨b, hb, hequal⟩ := (equal_object_iff.1 h).2 _ (Entries.mem_of_lookup hget)
    rw [hb]
    exact .some hequal
  | none =>
    have hnot : key ∉ Entries.keys bs := fun hin ↦
      Entries.lookup_eq_none_iff.1 hget ((keys_perm_of_equal hkeys h).mem_iff.2 hin)
    rw [Entries.lookup_eq_none_iff.2 hnot]
    exact .none

/-- Each value of the first mapping has its equal in the second. -/
theorem exists_mem_of_equal_left {as bs : Entries Json}
    (h : equal (.object as) (.object bs) = true) {entry : String × Json} (hentry : entry ∈ as) :
    ∃ b, (entry.1, b) ∈ bs ∧ entry.2.equal b = true := by
  obtain ⟨b, hb, hequal⟩ := (equal_object_iff.1 h).2 entry hentry
  exact ⟨b, Entries.mem_of_lookup hb, hequal⟩

/-- Each value of the second mapping has its equal in the first. -/
theorem exists_mem_of_equal_right {as bs : Entries Json} (hkeys : (Entries.keys as).Nodup)
    (hkeys' : (Entries.keys bs).Nodup) (h : equal (.object as) (.object bs) = true)
    {entry : String × Json} (hentry : entry ∈ bs) :
    ∃ a, (entry.1, a) ∈ as ∧ a.equal entry.2 = true := by
  have hfound := lookup_of_equal hkeys h entry.1
  rw [Entries.lookup_of_mem hkeys' hentry] at hfound
  generalize hget : as.lookup entry.1 = found at hfound
  cases hfound with
  | some hequal => exact ⟨_, Entries.mem_of_lookup hget, hequal⟩

/-! ### Sequences -/

/-- Equal sequences have equal items at an index, or both have none. -/
theorem getElem?_of_equal {as bs : List Json} (h : equalItems as bs = true) (index : Nat) :
    EqualFound as[index]? bs[index]? := by
  induction as generalizing bs index with
  | nil =>
    cases bs with
    | nil => exact .none
    | cons b bs => cases h
  | cons a as ih =>
    cases bs with
    | nil => cases h
    | cons b bs =>
      obtain ⟨hfirst, hrest⟩ := Bool.and_eq_true_iff.1 h
      cases index with
      | zero => exact .some hfirst
      | succ index => exact ih hrest index

/-! ### Values -/

/-- Equal values have equal values under a key, or both have none. -/
theorem get?_of_equal {a b : Json} (ha : a.Distinct) (h : a.equal b = true) (key : String) :
    EqualFound (a.get? key) (b.get? key) := by
  cases a <;> cases b <;> first | exact .none | cases h | skip
  case object.object as bs => exact lookup_of_equal (distinct_object.1 ha).1 h key

theorem Distinct.get? {json child : Json} (h : json.Distinct) {key : String}
    (hchild : json.get? key = some child) : child.Distinct := by
  cases json with
  | object entries => exact h.of_mem_entries (Entries.mem_of_lookup hchild)
  | _ => cases hchild

theorem string?_of_equal {a b : Json} (h : a.equal b = true) : a.string? = b.string? := by
  cases a <;> cases b <;> first | rfl | cases h | skip
  case string.string s t => exact congrArg some (eq_of_beq h)

/-- A text found in equal values is the same text. -/
theorem EqualFound.bind_string? {a b : Option Json} (h : EqualFound a b) :
    a.bind string? = b.bind string? := by
  cases h with
  | none => rfl
  | some h => exact string?_of_equal h

end Json

end ActionTools
