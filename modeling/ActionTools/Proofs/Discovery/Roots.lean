import Mathlib.Data.List.Forall2
import ActionTools.Proofs.Discovery.Listing
import ActionTools.Proofs.Files.Disk
import ActionTools.Proofs.FirstFailure

/-!
# The workflow files of roots

Roots are looked at one after the other. Each has its list (`Disk.Lists`) or is refused
(`Disk.Refuses`): there is nothing at it, or the walk from it comes to a directory that cannot be
listed since its path text is too long (`FileTree.HasOverlong`). The first root that is refused ends
the search (`Disk.RefusesFirst`), else the lists are put together (`Disk.ListsAll`).

This is what happens on every disk that can exist (`exists_run_workflowFiles`). Under roots below
which no path text is that long, only a missing root can be the reason of a failure
(`Disk.RefusesFirst.exists_missing`).
-/

namespace ActionTools

namespace FileTree

variable {α : Type} {path : String}

/-! ### Directories that cannot be listed -/

/-- A walk that leaves out hidden entries comes to a directory whose path text is too long. -/
def HasOverlong (tree : FileTree α) (path : String) : Prop :=
  ∃ names entries, tree.at? names = some (.directory entries) ∧
    (∀ name ∈ names, ¬ StartsWithDot name) ∧
    Disk.pathLengthLimit ≤ (Location.below path names).utf8ByteSize

/-- A file is not walked, however long its path is. -/
theorem not_hasOverlong_file (content : α) : ¬ (file content).HasOverlong path := by
  rintro ⟨names, entries, hfound, -⟩
  cases names <;> cases hfound

/-- The directory itself is at fault, or one of its entries. -/
theorem hasOverlong_directory_iff {entries : List (String × FileTree α)}
    (hnodup : (Entries.keys entries).Nodup) :
    (directory entries).HasOverlong path ↔
      Disk.pathLengthLimit ≤ path.utf8ByteSize ∨
        ∃ entry ∈ entries, ¬ StartsWithDot entry.1 ∧
          entry.2.HasOverlong (Location.join path entry.1) := by
  constructor
  · rintro ⟨names, inner, hfound, hvisible, hlong⟩
    cases names with
    | nil => exact .inl hlong
    | cons name rest =>
      obtain ⟨child, hchild, hfound⟩ := at?_directory_cons.1 hfound
      obtain ⟨hname, hrest⟩ := List.forall_mem_cons.1 hvisible
      exact .inr ⟨(name, child), Entries.mem_of_lookup hchild, hname, rest, inner, hfound, hrest,
        hlong⟩
  · rintro (hlong | ⟨⟨name, child⟩, hentry, hname, rest, inner, hfound, hrest, hlong⟩)
    · exact ⟨[], entries, rfl, List.forall_mem_nil _, hlong⟩
    · have hchild := Entries.lookup_of_mem hnodup hentry
      exact ⟨name :: rest, inner, at?_directory_cons.2 ⟨child, hchild, hfound⟩,
        List.forall_mem_cons.2 ⟨hname, hrest⟩, hlong⟩

end FileTree

namespace Disk

variable {α : Type}

/-- The entries of a directory can be walked if each one can, leaving out the hidden ones. -/
theorem canWalkEntries_iff {path : String} {entries : List (String × FileTree α)} :
    canWalkEntries path entries = true ↔
      ∀ entry ∈ entries, StartsWithDot entry.1 ∨
        canWalk (Location.join path entry.1) entry.2 = true := by
  induction entries with
  | nil => exact iff_of_true rfl (List.forall_mem_nil _)
  | cons entry rest ih =>
    obtain ⟨name, tree⟩ := entry
    rw [canWalkEntries, Bool.and_eq_true, Bool.or_eq_true, isHiddenName_iff, ih,
      List.forall_mem_cons]

/-- **A tree can be walked** if every directory that is entered has a path short enough. -/
theorem canWalk_iff {tree : FileTree α} (h : tree.WellFormed) (path : String) :
    canWalk path tree = true ↔ ¬ tree.HasOverlong path := by
  induction tree generalizing path with
  | file content => exact iff_of_true rfl (FileTree.not_hasOverlong_file content)
  | directory entries ih =>
    cases h with
    | directory hnodup _ hentries =>
    rw [canWalk, Bool.and_eq_true, decide_eq_true_iff, canWalkEntries_iff,
      FileTree.hasOverlong_directory_iff hnodup, not_or, Nat.not_le]
    refine and_congr_right fun _ ↦ ?_
    push Not
    refine forall₂_congr fun entry hentry ↦ ?_
    rw [ih entry hentry (hentries entry hentry), or_iff_not_imp_left]

variable {disk : Disk} {root : String} {roots files : List String} {failure : Failure}

/-! ### One root -/

/-- The workflow files of one root. -/
inductive Lists (disk : Disk) (root : String) : List String → Prop
  /-- A file is taken as it is. -/
  | file {content : ByteArray} (hshows : disk.Shows root (.file content)) : Lists disk root [root]
  /-- A directory is walked. -/
  | directory {entries : List (String × FileTree ByteArray)} {files : List String}
    (hshows : disk.Shows root (.directory entries))
    (hshort : ¬ (FileTree.directory entries).HasOverlong root)
    (hlists : (FileTree.directory entries).ListsWorkflows root files) (hnodup : files.Nodup) :
    Lists disk root files

/-- Why one root has no list of workflow files. -/
inductive Refuses (disk : Disk) (root : String) : Failure → Prop
  /-- There is nothing. -/
  | missing (hmissing : ∀ tree, ¬ disk.Shows root tree) :
    Refuses disk root (.file (.templateNotFound root))
  /-- A directory below cannot be listed. -/
  | overlong {tree : FileTree ByteArray} (hshows : disk.Shows root tree)
    (hlong : tree.HasOverlong root) : Refuses disk root (.file .nameTooLong)

/-- A root with a list is there, and nothing below it is too long to be walked. -/
theorem Lists.exists_shows (h : disk.Lists root files) :
    ∃ tree, disk.Shows root tree ∧ ¬ tree.HasOverlong root := by
  cases h with
  | file hshows => exact ⟨_, hshows, FileTree.not_hasOverlong_file _⟩
  | directory hshows hshort _ _ => exact ⟨_, hshows, hshort⟩

/-- A root has a list or is refused, and not both. -/
theorem Lists.not_refuses (h : disk.Lists root files) : ¬ disk.Refuses root failure := by
  obtain ⟨tree, hshows, hshort⟩ := h.exists_shows
  intro hrefuses
  cases hrefuses with
  | missing hmissing => exact hmissing tree hshows
  | overlong hshows' hlong => exact hshort (hshows'.unique hshows ▸ hlong)

/-- A root has one list at most: a directory lists its workflow files in the order of the places. -/
theorem Lists.unique {files' : List String} (h : disk.Lists root files)
    (h' : disk.Lists root files') : files = files' := by
  cases h with
  | file hshows =>
    cases h' with
    | file => rfl
    | directory hshows' => cases hshows.unique hshows'
  | directory hshows _ hlists _ =>
    cases h' with
    | file hshows' => cases hshows.unique hshows'
    | directory hshows' _ hlists' _ =>
      cases hshows.unique hshows'
      exact hlists.unique hlists'

/-- There is one reason at most for which a root is refused. -/
theorem Refuses.unique {failure' : Failure} (h : disk.Refuses root failure)
    (h' : disk.Refuses root failure') : failure = failure' := by
  cases h with
  | missing hmissing =>
    cases h' with
    | missing => rfl
    | overlong hshows => exact absurd hshows (hmissing _)
  | overlong hshows =>
    cases h' with
    | missing hmissing => exact absurd hshows (hmissing _)
    | overlong => rfl

/-- A root that can be walked is outlined as the tree that is there. -/
theorem outlineAt_of_shows {tree : FileTree ByteArray} (hshows : disk.Shows root tree)
    (hwalk : canWalk root tree = true) : disk.outlineAt root = .ok tree.outline := by
  rw [outlineAt, show located root disk.find = .ok tree from hshows]
  exact if_pos hwalk

/-- **The walk from a root** gives its list, or the reason why there is none. -/
theorem outlineAt_exact (hdisk : disk.root.WellFormed) (root : String) :
    (∃ outline, disk.outlineAt root = .ok outline ∧
      disk.Lists root (outline.workflowsOfRoot root)) ∨
    ∃ error, disk.outlineAt root = .error error ∧ disk.Refuses root (rootFailure root error) := by
  rw [outlineAt]
  cases hshows : located root disk.find with
  | error error =>
    refine .inr ⟨.notFound, rfl, .missing fun tree htree ↦ ?_⟩
    cases hshows.symm.trans htree
  | ok tree =>
    have htree := Shows.wellFormed hshows hdisk
    by_cases hlong : tree.HasOverlong root
    · refine .inr ⟨.nameTooLong, if_neg ?_, .overlong hshows hlong⟩
      exact mt (canWalk_iff htree root).1 (not_not_intro hlong)
    · refine .inl ⟨tree.outline, if_pos ((canWalk_iff htree root).2 hlong), ?_⟩
      cases tree with
      | file content => exact .file hshows
      | directory entries =>
        have hlists := htree.listsWorkflows root
        have hfiles : (FileTree.directory entries).outline.workflowsOfRoot root =
            (FileTree.directory entries).workflowsBelow root :=
          FileTree.workflowsBelow_map _ _ root
        rw [hfiles]
        exact .directory hshows hlong hlists (hlists.nodup htree (Shows.ne_empty hshows))

/-! ### Several roots -/

/-- The workflow files of several roots, root by root. -/
def ListsAll (disk : Disk) (roots files : List String) : Prop :=
  ∃ found, List.Forall₂ disk.Lists roots found ∧ files = found.flatten

/-- Some root is the first one that has no list of workflow files, for this reason. -/
def RefusesFirst (disk : Disk) (roots : List String) (failure : Failure) : Prop :=
  FirstFails (fun root ↦ ∃ files, disk.Lists root files) (fun root ↦ disk.Refuses root failure)
    roots

theorem listsAll_nil_iff : disk.ListsAll [] files ↔ files = [] := by
  simp [ListsAll]

/-- The files of several roots are those of the first root, followed by those of the others. -/
theorem listsAll_cons_iff :
    disk.ListsAll (root :: roots) files ↔
      ∃ own others, disk.Lists root own ∧ disk.ListsAll roots others ∧ files = own ++ others := by
  constructor
  · rintro ⟨found, hfound, rfl⟩
    obtain ⟨own, found, hown, hothers, rfl⟩ := List.forall₂_cons_left_iff.1 hfound
    exact ⟨own, found.flatten, hown, ⟨found, hothers, rfl⟩, rfl⟩
  · rintro ⟨own, _, hown, ⟨found, hothers, rfl⟩, rfl⟩
    exact ⟨own :: found, .cons hown hothers, rfl⟩

theorem not_refusesFirst_nil : ¬ disk.RefusesFirst [] failure := by
  rw [RefusesFirst]
  exact not_firstFails_nil

/-- Of several roots the first is refused, or it has a list and there is a first refusal among the
others. -/
theorem refusesFirst_cons_iff :
    disk.RefusesFirst (root :: roots) failure ↔
      disk.Refuses root failure ∨
        (∃ files, disk.Lists root files) ∧ disk.RefusesFirst roots failure := by
  rw [RefusesFirst, firstFails_cons_iff]
  exact Iff.rfl

theorem ListsAll.exists_shows (h : disk.ListsAll roots files) (hroot : root ∈ roots) :
    ∃ tree, disk.Shows root tree := by
  induction roots generalizing files with
  | nil => cases hroot
  | cons first rest ih =>
    obtain ⟨own, others, hown, hothers, -⟩ := listsAll_cons_iff.1 h
    rcases List.mem_cons.1 hroot with rfl | hroot
    · obtain ⟨tree, hshows, -⟩ := hown.exists_shows
      exact ⟨tree, hshows⟩
    · exact ih hothers hroot

/-- Where no path text is too long, the first root that is refused is missing. -/
theorem RefusesFirst.exists_missing (h : disk.RefusesFirst roots failure)
    (hshort : ∀ root ∈ roots, ∀ tree, disk.Shows root tree → ¬ tree.HasOverlong root) :
    ∃ root ∈ roots, failure = .file (.templateNotFound root) ∧ ∀ tree, ¬ disk.Shows root tree := by
  obtain ⟨before, root, after, rfl, -, hrefused⟩ := h
  have hmem : root ∈ before ++ root :: after :=
    List.mem_append_right before List.mem_cons_self
  refine ⟨root, hmem, ?_⟩
  cases hrefused with
  | missing hmissing => exact ⟨rfl, hmissing⟩
  | overlong hshows hlong => exact absurd hlong (hshort root hmem _ hshows)

end Disk

/-! ### The search -/

section Search

variable {disk : Disk} {root : String} {roots : List String}

theorem run_outline (disk : Disk) (root : String) :
    (FileAccess.outline root : StateM Disk _).run disk = pure (disk.outlineAt root, disk) := rfl

/-- A root that cannot be outlined ends the discovery. -/
theorem workflowFiles_cons_of_error {error : FileError} (h : disk.outlineAt root = .error error) :
    (workflowFiles (root :: roots) : StateM Disk _).run disk =
      (.error (rootFailure root error), disk) := by
  rw [workflowFiles, StateT.run_bind, run_outline, pure_bind, h]
  rfl

/-- The files of a root come before those of the roots behind it. -/
theorem workflowFiles_cons_of_ok {outline : FileTree Unit} {result : Except Failure (List String)}
    (h : disk.outlineAt root = .ok outline)
    (hrest : (workflowFiles roots : StateM Disk _).run disk = (result, disk)) :
    (workflowFiles (root :: roots) : StateM Disk _).run disk =
      (result.map (outline.workflowsOfRoot root ++ ·), disk) := by
  rw [workflowFiles, StateT.run_bind, run_outline, pure_bind, h]
  simp only [StateT.run_bind, hrest]
  cases result with
  | error failure => rfl
  | ok others => rfl

/-- **The search as a whole**: all roots have lists, or some root is refused first. -/
theorem exists_run_workflowFiles (hdisk : disk.root.WellFormed) (roots : List String) :
    ∃ result, (workflowFiles roots : StateM Disk _).run disk = (result, disk) ∧
      (∀ files, result = .ok files ↔ disk.ListsAll roots files) ∧
      ∀ failure, result = .error failure ↔ disk.RefusesFirst roots failure := by
  induction roots with
  | nil =>
    refine ⟨.ok [], rfl, fun files ↦ ?_, fun failure ↦ ?_⟩
    · rw [Disk.listsAll_nil_iff, Except.ok.injEq, eq_comm]
    · exact iff_of_false nofun Disk.not_refusesFirst_nil
  | cons root rest ih =>
    rcases disk.outlineAt_exact hdisk root with
      ⟨outline, houtline, hown⟩ | ⟨error, houtline, hrefused⟩
    · -- The root has its list, so the others decide.
      obtain ⟨result, hrun, hok, herror⟩ := ih
      refine ⟨_, workflowFiles_cons_of_ok houtline hrun, fun files ↦ ?_, fun failure ↦ ?_⟩
      · rw [Disk.listsAll_cons_iff]
        constructor
        · intro hfiles
          cases result with
          | error failure => cases hfiles
          | ok others => exact ⟨_, others, hown, (hok others).1 rfl, (Except.ok.inj hfiles).symm⟩
        · rintro ⟨own, others, hown', hothers, rfl⟩
          rw [(hok others).2 hothers, hown.unique hown']
          rfl
      · rw [Disk.refusesFirst_cons_iff, ← herror, or_iff_right hown.not_refuses,
          and_iff_right ⟨_, hown⟩]
        cases result with
        | error failure => rfl
        | ok others => exact iff_of_false nofun nofun
    · -- The root is refused, whatever comes after it.
      refine ⟨_, workflowFiles_cons_of_error houtline, fun files ↦ ?_, fun failure ↦ ?_⟩
      · rw [Disk.listsAll_cons_iff]
        refine iff_of_false nofun ?_
        rintro ⟨own, others, hown, -⟩
        exact hown.not_refuses hrefused
      · rw [Disk.refusesFirst_cons_iff, Except.error.injEq]
        constructor
        · rintro rfl
          exact .inl hrefused
        · rintro (hrefused' | ⟨⟨own, hown⟩, -⟩)
          · exact hrefused.unique hrefused'
          · exact absurd hrefused hown.not_refuses

/-- **Finding workflow files is exact.** The result is what the roots list, root by root, unless
some root is refused: then it is why the first such root is. The disk stays as it is. If no path
text of a directory that is entered is too long, the search fails exactly when a root is missing. -/
theorem workflowFiles_exact (hdisk : disk.root.WellFormed) (roots : List String) :
    ∃ result, (workflowFiles roots : StateM Disk _).run disk = (result, disk) ∧
      (∀ files, result = .ok files ↔ disk.ListsAll roots files) ∧
      (∀ failure, result = .error failure ↔ disk.RefusesFirst roots failure) ∧
      ((∀ root ∈ roots, ∀ tree, disk.Shows root tree → ¬ tree.HasOverlong root) →
        ((∃ root ∈ roots, result = .error (.file (.templateNotFound root))) ↔
          ∃ root ∈ roots, ∀ tree, ¬ disk.Shows root tree) ∧
        ((∀ root ∈ roots, ∃ tree, disk.Shows root tree) →
          ∃ files, disk.ListsAll roots files ∧ result = .ok files)) := by
  obtain ⟨result, hrun, hok, herror⟩ := exists_run_workflowFiles hdisk roots
  refine ⟨result, hrun, hok, herror, fun hshort ↦ ?_⟩
  cases result with
  | ok files =>
    have hall := (hok files).1 rfl
    refine ⟨iff_of_false ?_ ?_, fun _ ↦ ⟨files, hall, rfl⟩⟩
    · rintro ⟨root, -, hresult⟩
      cases hresult
    · rintro ⟨root, hroot, hmissing⟩
      obtain ⟨tree, hshows⟩ := hall.exists_shows hroot
      exact hmissing tree hshows
  | error failure =>
    -- Nothing is too long, so the root that is refused is one that is missing.
    obtain ⟨root, hroot, rfl, hmissing⟩ := ((herror failure).1 rfl).exists_missing hshort
    refine ⟨iff_of_true ⟨root, hroot, rfl⟩ ⟨root, hroot, hmissing⟩, fun hshown ↦ ?_⟩
    obtain ⟨tree, hshows⟩ := hshown root hroot
    exact absurd hshows (hmissing tree)

/-- A directory with a hidden directory and one that is named like a workflow file. -/
def mixedEntries : List (String × FileTree ByteArray) :=
  [("x.json", .directory [("b.json", .file .empty)]), ("a.json", .file .empty),
    ("a.txt", .file .empty), (".git", .directory [("c.json", .file .empty)])]

/-- A disk with a directory and a file beside it. -/
def mixedDisk : Disk where
  root := .directory [("notes", .file .empty), ("d", .directory mixedEntries)]
  workingDirectory := []

theorem wellFormed_mixedDisk : mixedDisk.root.WellFormed := by
  have hmixed : (FileTree.directory mixedEntries).WellFormed := by
    refine .directory (by decide) (by decide) ?_
    simp only [mixedEntries, List.forall_mem_cons]
    refine ⟨.directory (by decide) (by decide) ?_, .file _, .file _,
      .directory (by decide) (by decide) ?_, List.forall_mem_nil _⟩
    · exact List.forall_mem_singleton.2 (.file _)
    · exact List.forall_mem_singleton.2 (.file _)
  refine .directory (by decide) (by decide) ?_
  simp only [List.forall_mem_cons]
  exact ⟨.file _, hmixed, List.forall_mem_nil _⟩

/-- Hidden directories are left out, a directory is entered but not listed, a file is taken. -/
theorem workflowFiles_mixedDisk :
    mixedDisk.root.WellFormed ∧
      (workflowFiles ["d", "notes"] : StateM Disk _).run mixedDisk =
        (.ok ["d/a.json", "d/x.json/b.json", "notes"], mixedDisk) ∧
      mixedDisk.ListsAll ["d", "notes"] ["d/a.json", "d/x.json/b.json", "notes"] := by
  have hdirectory : mixedDisk.Shows "d" (.directory mixedEntries) :=
    Disk.shows_name (by decide) (by decide) (by decide) (by decide) rfl
  have hfile : mixedDisk.Shows "notes" (.file .empty) :=
    Disk.shows_name (by decide) (by decide) (by decide) (by decide) rfl
  have hwalk : Disk.canWalk "d" (FileTree.directory mixedEntries) = true := by
    simp only [mixedEntries, Disk.canWalk, Disk.canWalkEntries]
    decide +kernel
  have hlisted : (FileTree.directory mixedEntries).outline.workflowsOfRoot "d" =
      ["d/a.json", "d/x.json/b.json"] := by
    simp only [mixedEntries, FileTree.outline, FileTree.map, FileTree.mapEntries,
      FileTree.workflowsOfRoot, FileTree.workflowsBelow, FileTree.workflowsOfEntries,
      FileTree.isDirectory, if_true]
    decide +kernel
  have hrun : (workflowFiles ["d", "notes"] : StateM Disk _).run mixedDisk =
      (.ok ["d/a.json", "d/x.json/b.json", "notes"], mixedDisk) := by
    have hnone : (workflowFiles [] : StateM Disk _).run mixedDisk = (.ok [], mixedDisk) := rfl
    have hnotes := workflowFiles_cons_of_ok (Disk.outlineAt_of_shows hfile rfl) hnone
    rw [workflowFiles_cons_of_ok (Disk.outlineAt_of_shows hdirectory hwalk) hnotes, hlisted]
    rfl
  obtain ⟨result, hresult, hok, -⟩ := workflowFiles_exact wellFormed_mixedDisk ["d", "notes"]
  refine ⟨wellFormed_mixedDisk, hrun, (hok _).1 ?_⟩
  exact congrArg Prod.fst (hresult.symm.trans hrun)

/-- A directory with a directory in it. -/
def nestedEntries : List (String × FileTree ByteArray) :=
  [("a.json", .file .empty), ("subdirectory", .directory [])]

def nestedDisk : Disk where
  root := .directory [("d", .directory nestedEntries)]
  workingDirectory := []

/-- A long path text of the outer directory. -/
def longRoot : String := "d" ++ Location.slashes 4084

/-- **A root that exists can still make the search fail**: the path text of a directory below it is
too long for the directory to be listed. -/
theorem workflowFiles_longRoot :
    nestedDisk.root.WellFormed ∧ (∀ root ∈ [longRoot], ∃ tree, nestedDisk.Shows root tree) ∧
      (workflowFiles [longRoot] : StateM Disk _).run nestedDisk =
        (.error (.file .nameTooLong), nestedDisk) := by
  have hdisk : nestedDisk.root.WellFormed := by
    refine .directory (by decide) (by decide) (List.forall_mem_singleton.2 ?_)
    refine .directory (by decide) (by decide) ?_
    simp only [nestedEntries, List.forall_mem_cons]
    exact ⟨.file _, .directory (by decide) (by decide) (List.forall_mem_nil _),
      List.forall_mem_nil _⟩
  have hshows : nestedDisk.Shows longRoot (.directory nestedEntries) :=
    Disk.shows_name_slashes (by decide) (by decide) (by decide) (by decide) rfl 4084 (by decide)
      fun _ ↦ rfl
  have hlong : Disk.pathLengthLimit ≤
      (Location.below longRoot ["subdirectory"]).utf8ByteSize := by
    rw [Location.below_cons, Location.below_nil, Location.join_eq hshows.ne_empty (by decide),
      longRoot]
    simp only [String.utf8ByteSize_append, Location.utf8ByteSize_slashes,
      show "d".utf8ByteSize = 1 from rfl, show "subdirectory".utf8ByteSize = 12 from rfl,
      Disk.pathLengthLimit]
    omega
  have hrefused : nestedDisk.Refuses longRoot (.file .nameTooLong) :=
    .overlong hshows ⟨["subdirectory"], [], rfl, by decide, hlong⟩
  obtain ⟨result, hrun, -, herror⟩ := exists_run_workflowFiles hdisk [longRoot]
  refine ⟨hdisk, List.forall_mem_singleton.2 ⟨_, hshows⟩, ?_⟩
  rw [hrun, (herror _).2 ⟨[], longRoot, [], rfl, List.forall_mem_nil _, hrefused⟩]

end Search

end ActionTools
