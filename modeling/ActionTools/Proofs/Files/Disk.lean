import Mathlib.Tactic.SplitIfs
import ActionTools.Files.Disk
import ActionTools.Proofs.Files.Tree

/-!
# What a disk shows under a path text

A usable path text leads to a place of the disk's tree. What is seen there (`Disk.Shows`) is a part
of the tree, so it is well-formed if the whole is (`Shows.wellFormed`). In the directory where
locations start, the name of an entry shows that entry, and so does the name with slashes after it
when the entry is a directory (`shows_name_slashes`).
-/

namespace ActionTools

namespace Disk

/-- What is seen under a path text. Where nothing is, the path does not exist. -/
def Shows (disk : Disk) (text : String) (tree : FileTree ByteArray) : Prop :=
  located text disk.find = .ok tree

theorem pathError?_eq_none_iff {text : String} :
    pathError? text = none ↔
      '\x00' ∉ text.toList ∧ text ≠ "" ∧ text.utf8ByteSize < pathLengthLimit := by
  have hany : text.any (· == '\x00') = true ↔ '\x00' ∈ text.toList := by
    rw [show text.any (· == '\x00') = _ from String.contains_char_eq, decide_eq_true_iff]
  rw [pathError?]
  split_ifs with hnul hempty hlong
  · exact iff_of_false nofun fun h ↦ h.1 (hany.1 hnul)
  · exact iff_of_false nofun fun h ↦ h.2.1 (String.isEmpty_iff.1 hempty)
  · exact iff_of_false nofun fun h ↦ absurd h.2.2 (Nat.not_lt.2 hlong)
  · exact iff_of_true rfl ⟨mt hany.2 hnul, mt String.isEmpty_iff.2 hempty, Nat.not_le.1 hlong⟩

section Shows

variable {disk : Disk} {text : String} {tree : FileTree ByteArray}

/-- A path text shows what it leads to, unless the system refuses the text itself. -/
theorem shows_iff :
    disk.Shows text tree ↔
      pathError? text = none ∧ disk.find (Location.ofText text) = .ok tree := by
  rw [Shows, located]
  cases pathError? text with
  | none => simp
  | some error => simp

theorem exists_at?_of_find {location : Location} (h : disk.find location = .ok tree) :
    ∃ place, disk.root.at? place = some tree := by
  rw [find] at h
  split at h
  · cases h
  · rename_i place _
    split at h
    · cases h
    · rename_i found hfound
      split at h
      · cases h
      · exact ⟨place, Except.ok.inj h ▸ hfound⟩

namespace Shows

theorem wellFormed (h : disk.Shows text tree) (hdisk : disk.root.WellFormed) : tree.WellFormed := by
  obtain ⟨place, hplace⟩ := exists_at?_of_find (shows_iff.1 h).2
  exact hdisk.at? hplace

theorem ne_empty (h : disk.Shows text tree) : text ≠ "" :=
  (pathError?_eq_none_iff.1 (shows_iff.1 h).1).2.1

/-- A path text shows one tree at most. -/
theorem unique {tree' : FileTree ByteArray} (h : disk.Shows text tree)
    (h' : disk.Shows text tree') : tree = tree' :=
  Except.ok.inj (h.symm.trans h')

end Shows

end Shows

section Names

variable {entries : List (String × FileTree ByteArray)} {name : String} {tree : FileTree ByteArray}

/-- From the top, a name leads to the entry that has it. -/
theorem step_name (hdots : Location.isDots name = false) (hsize : name.utf8ByteSize ≤ maxNameLength)
    (hentry : entries.lookup name = some tree) :
    (Disk.mk (.directory entries) []).step [] name = .ok [name] := by
  obtain ⟨hdot, hdotdot⟩ : name ≠ "." ∧ name ≠ ".." := by
    simpa [Location.isDots] using hdots
  rw [step, FileTree.at?_nil]
  simp only [if_neg hdot, if_neg hdotdot, if_neg (Nat.not_lt.2 hsize), hentry, Option.isSome_some,
    if_true, List.nil_append]

section Shown

variable (hname : Location.IsFileName name) (hdots : Location.isDots name = false)
  (hnul : '\x00' ∉ name.toList) (hsize : name.utf8ByteSize ≤ maxNameLength)
  (hentry : entries.lookup name = some tree)

include hname hdots hnul hsize hentry

/-- **A name shows the entry that has it**, and with slashes after it too if that is a directory. -/
theorem shows_name_slashes (count : Nat) (hshort : name.utf8ByteSize + count < pathLengthLimit)
    (hdirectory : count ≠ 0 → tree.isDirectory = true) :
    (Disk.mk (.directory entries) []).Shows (name ++ Location.slashes count) tree := by
  refine shows_iff.2 ⟨pathError?_eq_none_iff.2 ⟨?_, ?_, ?_⟩, ?_⟩
  · rw [String.toList_append, List.mem_append, not_or]
    exact ⟨hnul, fun hmem ↦ absurd (Location.eq_slash_of_mem_slashes hmem) (by decide)⟩
  · exact fun hempty ↦ hname.ne_empty (String.append_eq_empty_iff.1 hempty).1
  · rwa [String.utf8ByteSize_append, Location.utf8ByteSize_slashes]
  · have hwalk : (Disk.mk (.directory entries) []).walk [] [name] = .ok [name] := by
      rw [walk, step_name hdots hsize hentry]
      rfl
    have hplace : (FileTree.directory entries).at? [name] = some tree :=
      FileTree.at?_directory_cons.2 ⟨tree, hentry, rfl⟩
    -- Slashes at the end are allowed behind directories only.
    have hends : (Location.ofText (name ++ Location.slashes count)).endsInSlash = true →
        tree.isDirectory = true := by
      intro hends
      refine hdirectory ?_
      rintro rfl
      rw [Location.slashes_zero, String.append_empty, Location.endsInSlash_name hname] at hends
      cases hends
    rw [find, Location.steps_name_slashes hname, start, ite_self, hwalk]
    simp only [hplace]
    refine if_neg ?_
    rw [Bool.and_eq_true, Bool.not_eq_true']
    rintro ⟨hslash, hfile⟩
    rw [hends hslash] at hfile
    cases hfile

theorem shows_name : (Disk.mk (.directory entries) []).Shows name tree := by
  have hshort : name.utf8ByteSize + 0 < pathLengthLimit := Nat.lt_of_le_of_lt hsize (by decide)
  have hshows := shows_name_slashes hname hdots hnul hsize hentry 0 hshort fun h ↦ absurd rfl h
  rwa [Location.slashes_zero, String.append_empty] at hshows

end Shown

end Names

end Disk

end ActionTools
