import Mathlib.Data.List.Sort
import ActionTools.Discovery
import ActionTools.Proofs.ByteOrder
import ActionTools.Proofs.Files.Tree
import ActionTools.Proofs.NameMap

/-!
# The workflow files below a directory

A walk puts the lists of a directory's entries together in the order of the names. What comes out is
said here of the tree as a whole: the path texts of its workflow files (`FileTree.HoldsWorkflow`),
in the order of the places (`FileTree.ListsWorkflows`). A place is a workflow file if a file is
there, no name on the way starts with a dot, and the last one has the extension of workflow files.
So a hidden directory takes everything below it away, and a directory is not listed whatever its
name is.

Places are compared name by name, and names byte by byte (`PlaceLt`). There is only one list of all
places of some kind in this order (`ListsPlaces.unique`). The sorting of each directory gives the
order for the whole list, since two places differ first in the names of two entries of one directory
(`listsPlaces_flatten`). No path text is listed twice (`ListsWorkflows.nodup`).
-/

namespace ActionTools

/-! ### Names -/

/-- A name of a hidden entry. -/
def StartsWithDot (name : String) : Prop := ∃ rest, name = "." ++ rest

/-- A name whose extension is that of workflow files. -/
def HasWorkflowExtension (name : String) : Prop := ∃ stem, stem ≠ "" ∧ name = stem ++ ".json"

/-- A name is tested for its first character. -/
theorem isHiddenName_iff {name : String} :
    Location.isHiddenName name = true ↔ StartsWithDot name := by
  rw [Location.isHiddenName, beq_iff_eq, List.head?_eq_some_iff]
  constructor
  · rintro ⟨rest, hname⟩
    exact ⟨String.ofList rest, String.ext (by simpa using hname)⟩
  · rintro ⟨rest, rfl⟩
    exact ⟨rest.toList, by simp⟩

instance (name : String) : Decidable (StartsWithDot name) :=
  decidable_of_iff _ isHiddenName_iff

/-- A list splits at the first occurrence of a character. -/
theorem eq_append_cons_of_dropWhile {c first : Char} {cs rest : List Char}
    (h : cs.dropWhile (· != c) = first :: rest) :
    cs = cs.takeWhile (· != c) ++ c :: rest ∧ c ∉ cs.takeWhile (· != c) := by
  have hfirst := List.head?_dropWhile_not (· != c) cs
  rw [h] at hfirst
  obtain rfl : first = c := by simpa using hfirst
  refine ⟨?_, fun hmem ↦ ?_⟩
  · rw [← h, List.takeWhile_append_dropWhile]
  · have hdiff := List.all_eq_true.1 (List.all_takeWhile (p := (· != first))) first hmem
    exact absurd hdiff (by simp)

/-- **An extension** is what follows the last dot, when something stands before it. -/
theorem fileExtension?_eq_some_iff {name extension : String} :
    fileExtension? name = some extension ↔
      '.' ∉ extension.toList ∧ ∃ stem, stem ≠ "" ∧ name = stem ++ "." ++ extension := by
  rw [fileExtension?]
  constructor
  · intro h
    split at h
    · rename_i _ last before hdrop
      obtain rfl := Option.some.inj h
      obtain ⟨hname, hplain⟩ := eq_append_cons_of_dropWhile hdrop
      generalize name.toList.reverse.takeWhile (· != '.') = after at hname hplain
      refine ⟨by simpa using hplain, String.ofList (last :: before).reverse, by simp, ?_⟩
      rw [← String.toList_inj, ← List.reverse_inj, hname]
      simp
    · cases h
  · rintro ⟨hdot, stem, hstem, rfl⟩
    obtain ⟨last, before, hlast⟩ : ∃ last before, stem.toList.reverse = last :: before :=
      List.exists_cons_of_ne_nil (by simpa using hstem)
    have hbackwards : (stem ++ "." ++ extension).toList.reverse =
        extension.toList.reverse ++ '.' :: last :: before := by
      simp [hlast]
    have hplain : ∀ c ∈ extension.toList.reverse, (c != '.') = true := by
      intro c hc
      rw [bne_iff_ne]
      rintro rfl
      exact hdot (List.mem_reverse.1 hc)
    simp only [hbackwards, List.dropWhile_append_of_pos hplain, List.takeWhile_append_of_pos hplain]
    simp

/-- A name is tested for what follows its last dot. So a name that is nothing but the extension does
not pass. -/
theorem isWorkflowName_iff {name : String} :
    isWorkflowName name = true ↔ HasWorkflowExtension name := by
  rw [isWorkflowName, beq_iff_eq, fileExtension?_eq_some_iff, and_iff_right (by decide)]
  refine exists_congr fun stem ↦ and_congr_right fun _ ↦ ?_
  rw [String.append_assoc]
  exact Iff.rfl

/-! ### Places -/

/-- One place comes before another: by the bytes of their names, the first names first. -/
def PlaceLt (names names' : List String) : Prop := names.map utf8Bytes < names'.map utf8Bytes

/-- Below the same directory, places are ordered by what follows. -/
theorem placeLt_cons_iff {name : String} {names names' : List String} :
    PlaceLt (name :: names) (name :: names') ↔ PlaceLt names names' := by
  rw [PlaceLt, List.map_cons, List.map_cons, List.cons_lt_cons_iff]
  exact (or_iff_right (List.lt_irrefl _)).trans (and_iff_right rfl)

/-- Places in different entries are ordered as the entries are. -/
theorem placeLt_of_head? {name name' : String} (h : name < name') {names names' : List String}
    (hhead : names.head? = some name) (hhead' : names'.head? = some name') :
    PlaceLt names names' := by
  obtain ⟨rest, rfl⟩ := List.head?_eq_some_iff.1 hhead
  obtain ⟨rest', rfl⟩ := List.head?_eq_some_iff.1 hhead'
  exact List.cons_lt_cons_iff.2 (.inl (utf8Bytes_lt h))

theorem placeLt_irrefl (names : List String) : ¬ PlaceLt names names := List.lt_irrefl _

theorem PlaceLt.asymm {names names' : List String} (h : PlaceLt names names') :
    ¬ PlaceLt names' names := List.lt_asymm h

/-- The path texts of all places of some kind below a directory, in the order of the places. -/
def ListsPlaces (Held : List String → Prop) (path : String) (files : List String) : Prop :=
  ∃ places : List (List String), files = places.map (Location.below path) ∧
    places.Pairwise PlaceLt ∧ ∀ names, names ∈ places ↔ Held names

theorem listsPlaces_nil {Held : List String → Prop} {path : String} (h : ∀ names, ¬ Held names) :
    ListsPlaces Held path [] :=
  ⟨[], rfl, .nil, fun names ↦ iff_of_false List.not_mem_nil (h names)⟩

/-- Only one list has all places in order. -/
theorem ListsPlaces.unique {Held : List String → Prop} {path : String} {files files' : List String}
    (h : ListsPlaces Held path files) (h' : ListsPlaces Held path files') : files = files' := by
  obtain ⟨places, rfl, hsorted, hmem⟩ := h
  obtain ⟨places', rfl, hsorted', hmem'⟩ := h'
  have : Std.Irrefl PlaceLt := ⟨placeLt_irrefl⟩
  have : Std.Antisymm PlaceLt := ⟨fun _ _ hlt hgt ↦ absurd hgt hlt.asymm⟩
  rw [hsorted.eq_of_mem_iff hsorted' fun names ↦ (hmem names).trans (hmem' names).symm]

/-- **Lists under increasing names make one list.** -/
theorem listsPlaces_flatten (path : String) (Held : List String → Prop)
    {pairs : List (String × List String)} (hsorted : pairs.Pairwise fun a b ↦ a.1 < b.1)
    (h : ∀ pair ∈ pairs,
      ListsPlaces (fun names ↦ names.head? = some pair.1 ∧ Held names) path pair.2) :
    ListsPlaces (fun names ↦ (∃ pair ∈ pairs, names.head? = some pair.1) ∧ Held names) path
      (pairs.map Prod.snd).flatten := by
  induction pairs with
  | nil => exact listsPlaces_nil (by simp)
  | cons pair rest ih =>
    obtain ⟨hfirst, hrest⟩ := List.pairwise_cons.1 hsorted
    obtain ⟨⟨own, hown, hownSorted, hownMem⟩, hothers⟩ := List.forall_mem_cons.1 h
    obtain ⟨others, hothers, hothersSorted, hothersMem⟩ := ih hrest hothers
    refine ⟨own ++ others, ?_, ?_, fun names ↦ ?_⟩
    · rw [List.map_cons, List.flatten_cons, hown, hothers, List.map_append]
    · refine List.pairwise_append.2
        ⟨hownSorted, hothersSorted, fun names hplace names' hplace' ↦ ?_⟩
      obtain ⟨⟨other, hother, hhead'⟩, -⟩ := (hothersMem names').1 hplace'
      exact placeLt_of_head? (hfirst other hother) ((hownMem names).1 hplace).1 hhead'
    · simp only [List.mem_append, hownMem, hothersMem, ← or_and_right, List.exists_mem_cons_iff]

namespace FileTree

variable {α β : Type}

/-- At a place of a tree there is a workflow file, and no name that leads to it is hidden. -/
structure HoldsWorkflow (tree : FileTree α) (names : List String) : Prop where
  isFile : ∃ content, tree.at? names = some (.file content)
  visible : ∀ name ∈ names, ¬ StartsWithDot name
  extension : ∃ name, names.getLast? = some name ∧ HasWorkflowExtension name

/-- The path texts of all workflow files below a directory, in the order of their places. -/
def ListsWorkflows (tree : FileTree α) (path : String) (files : List String) : Prop :=
  ListsPlaces tree.HoldsWorkflow path files

section Holds

variable {tree child : FileTree α} {names rest : List String} {name : String}

/-- A workflow file is below the root of a tree, not at it. -/
theorem HoldsWorkflow.ne_nil (h : tree.HoldsWorkflow names) : names ≠ [] := by
  rintro rfl
  obtain ⟨name, hlast, -⟩ := h.extension
  cases hlast

/-- A file holds no workflow files. -/
theorem not_holdsWorkflow_file (content : α) : ¬ (file content).HoldsWorkflow names := by
  intro h
  obtain ⟨name, rest, rfl⟩ := List.exists_cons_of_ne_nil h.ne_nil
  obtain ⟨_, hat⟩ := h.isFile
  cases hat

/-- A workflow file of a directory is one of its entries or is below one. -/
theorem holdsWorkflow_cons_iff {entries : List (String × FileTree α)}
    (hchild : entries.lookup name = some child) :
    (directory entries).HoldsWorkflow (name :: rest) ↔
      ¬ StartsWithDot name ∧
        (child.HoldsWorkflow rest ∨
          rest = [] ∧ child.isDirectory = false ∧ HasWorkflowExtension name) := by
  have hat : ∀ found, (directory entries).at? (name :: rest) = some found ↔
      child.at? rest = some found := by
    intro found
    rw [at?_directory_cons, hchild]
    simp
  constructor
  · rintro ⟨⟨content, hfile⟩, hvisible, last, hlast, hextension⟩
    obtain ⟨hname, hrest⟩ := List.forall_mem_cons.1 hvisible
    rw [hat] at hfile
    refine ⟨hname, ?_⟩
    -- The last name is this one, or it is a name below.
    cases rest with
    | nil =>
      obtain rfl := Option.some.inj hfile
      obtain rfl := Option.some.inj hlast
      exact .inr ⟨rfl, rfl, hextension⟩
    | cons next rest =>
      rw [List.getLast?_cons_cons] at hlast
      exact .inl ⟨⟨content, hfile⟩, hrest, last, hlast, hextension⟩
  · rintro ⟨hname, hbelow | ⟨rfl, hfile, hextension⟩⟩
    · obtain ⟨next, rest, rfl⟩ := List.exists_cons_of_ne_nil hbelow.ne_nil
      obtain ⟨content, hfile⟩ := hbelow.isFile
      obtain ⟨last, hlast, hextension⟩ := hbelow.extension
      refine ⟨⟨content, (hat _).2 hfile⟩, List.forall_mem_cons.2 ⟨hname, hbelow.visible⟩, last, ?_,
        hextension⟩
      rw [List.getLast?_cons_cons]
      exact hlast
    · cases child with
      | file content =>
        exact ⟨⟨content, (hat _).2 rfl⟩, by simpa using hname, name, rfl, hextension⟩
      | directory entries => cases hfile

/-- The entry of a name decides on all places that the name leads to. -/
theorem head?_and_holdsWorkflow_iff {entries : List (String × FileTree α)}
    (hchild : entries.lookup name = some child) (hvisible : ¬ StartsWithDot name) :
    (names.head? = some name ∧ (directory entries).HoldsWorkflow names) ↔
      ∃ rest, names = name :: rest ∧ (child.HoldsWorkflow rest ∨
        rest = [] ∧ child.isDirectory = false ∧ HasWorkflowExtension name) := by
  rw [List.head?_eq_some_iff, exists_and_right.symm]
  refine exists_congr fun rest ↦ and_congr_right ?_
  rintro rfl
  rw [holdsWorkflow_cons_iff hchild, and_iff_right hvisible]

end Holds

/-! ### Entries -/

/-- What an entry of a directory contributes. -/
def workflowsOfEntry (path : String) (entry : String × FileTree α) : List String :=
  if Location.isHiddenName entry.1 then []
  else if entry.2.isDirectory then entry.2.workflowsBelow (Location.join path entry.1)
  else if isWorkflowName entry.1 then [Location.join path entry.1]
  else []

/-- The entries are listed one by one, each under its own name. -/
theorem workflowsOfEntries_eq_map (path : String) (entries : List (String × FileTree α)) :
    workflowsOfEntries path entries =
      entries.map fun entry ↦ (entry.1, workflowsOfEntry path entry) := by
  induction entries with
  | nil => rfl
  | cons entry rest ih =>
    obtain ⟨name, tree⟩ := entry
    rw [workflowsOfEntries, ih]
    rfl

/-- What an entry contributes are the workflow files that its name leads to. -/
theorem listsPlaces_workflowsOfEntry {entries : List (String × FileTree α)} {path name : String}
    {child : FileTree α} (hchild : entries.lookup name = some child)
    (hlists : child.ListsWorkflows (Location.join path name)
      (child.workflowsBelow (Location.join path name))) :
    ListsPlaces (fun names ↦ names.head? = some name ∧ (directory entries).HoldsWorkflow names) path
      (workflowsOfEntry path (name, child)) := by
  by_cases hhidden : StartsWithDot name
  · rw [show workflowsOfEntry path (name, child) = [] from if_pos (isHiddenName_iff.2 hhidden)]
    refine listsPlaces_nil ?_
    rintro names ⟨hhead, hholds⟩
    exact hholds.visible name (List.mem_of_head? hhead) hhidden
  -- An entry that is shown is walked if it is a directory, and else tested for its name.
  have hshown : ¬ Location.isHiddenName name = true := mt isHiddenName_iff.1 hhidden
  cases child with
  | directory inner =>
    obtain ⟨places, hfiles, hsorted, hmem⟩ := hlists
    refine ⟨places.map (name :: ·), ?_, ?_, fun names ↦ ?_⟩
    · calc workflowsOfEntry path (name, directory inner)
        _ = (directory inner).workflowsBelow (Location.join path name) :=
          (if_neg hshown).trans (if_pos rfl)
        _ = (places.map (name :: ·)).map (Location.below path) := by
          rw [hfiles, List.map_map]
          rfl
    · exact List.pairwise_map.2 (hsorted.imp placeLt_cons_iff.2)
    · refine List.mem_map.trans
        (.trans ?_ (head?_and_holdsWorkflow_iff hchild hhidden).symm)
      refine exists_congr fun rest ↦ ?_
      rw [hmem, and_comm, eq_comm]
      exact and_congr_right fun _ ↦ by simp [isDirectory]
  | file content =>
    by_cases hextension : HasWorkflowExtension name
    · refine ⟨[[name]], ?_, List.pairwise_singleton _ _, fun names ↦ ?_⟩
      · exact (if_neg hshown).trans ((if_neg Bool.false_ne_true).trans
          (if_pos (isWorkflowName_iff.2 hextension)))
      · simp [head?_and_holdsWorkflow_iff hchild hhidden, not_holdsWorkflow_file, isDirectory,
          hextension]
    · refine ⟨[], ?_, .nil, fun names ↦ ?_⟩
      · exact (if_neg hshown).trans ((if_neg Bool.false_ne_true).trans
          (if_neg (mt isWorkflowName_iff.1 hextension)))
      · simp [head?_and_holdsWorkflow_iff hchild hhidden, not_holdsWorkflow_file, hextension]

/-- **The walk lists the workflow files below a directory**, each once, in the order of places. -/
theorem WellFormed.listsWorkflows {tree : FileTree α} (h : tree.WellFormed) (path : String) :
    tree.ListsWorkflows path (tree.workflowsBelow path) := by
  induction tree generalizing path with
  | file content =>
    exact listsPlaces_nil fun names ↦ not_holdsWorkflow_file content
  | directory entries ih =>
    cases h with
    | directory hnodup hnames hentries =>
    have hkeys : (Entries.keys (workflowsOfEntries path entries)).Nodup := by
      rw [workflowsOfEntries_eq_map, Entries.keys, List.map_map]
      exact hnodup
    have hpairs : ∀ pair, pair ∈ (NameMap.ofList (workflowsOfEntries path entries)).entries ↔
        ∃ entry ∈ entries, (entry.1, workflowsOfEntry path entry) = pair := by
      intro pair
      rw [← NameMap.get?_eq_some_iff, NameMap.get?_ofList hkeys, Entries.lookup_eq_some_iff hkeys,
        workflowsOfEntries_eq_map, List.mem_map]
    obtain ⟨places, hfiles, hsorted, hmem⟩ := listsPlaces_flatten path
      (FileTree.directory entries).HoldsWorkflow
      (NameMap.ofList (workflowsOfEntries path entries)).sorted (by
        intro pair hpair
        obtain ⟨entry, hentry, rfl⟩ := (hpairs pair).1 hpair
        exact listsPlaces_workflowsOfEntry (Entries.lookup_of_mem hnodup hentry)
          (ih entry hentry (hentries entry hentry) _))
    refine ⟨places, hfiles, hsorted, fun names ↦ (hmem names).trans (and_iff_right_of_imp ?_)⟩
    -- A workflow file is under the name of some entry.
    intro hholds
    obtain ⟨name, rest, rfl⟩ := List.exists_cons_of_ne_nil hholds.ne_nil
    obtain ⟨content, hfile⟩ := hholds.isFile
    obtain ⟨child, hchild, -⟩ := at?_directory_cons.1 hfile
    exact ⟨_, (hpairs _).2 ⟨_, Entries.mem_of_lookup hchild, rfl⟩, rfl⟩

/-- The contents do not matter. -/
theorem workflowsBelow_map (f : α → β) (tree : FileTree α) (path : String) :
    (tree.map f).workflowsBelow path = tree.workflowsBelow path := by
  induction tree generalizing path with
  | file content => rfl
  | directory entries ih =>
    have hentries : workflowsOfEntries path (mapEntries f entries) =
        workflowsOfEntries path entries := by
      rw [workflowsOfEntries_eq_map, workflowsOfEntries_eq_map, mapEntries_eq_map, List.map_map]
      refine List.map_congr_left fun entry hentry ↦ Prod.ext rfl ?_
      simp only [Function.comp_apply, workflowsOfEntry, isDirectory_map, ih entry hentry]
    rw [map, workflowsBelow, workflowsBelow, hentries]

/-- No path text is listed twice. -/
theorem ListsWorkflows.nodup {tree : FileTree α} {path : String} {files : List String}
    (h : tree.ListsWorkflows path files) (htree : tree.WellFormed) (hpath : path ≠ "") :
    files.Nodup := by
  obtain ⟨places, rfl, hsorted, hmem⟩ := h
  have : Std.Irrefl PlaceLt := ⟨placeLt_irrefl⟩
  have hnames : ∀ names ∈ places,
      (∀ name ∈ names, Location.IsFileName name) ∧ names ≠ [] := by
    intro names hplace
    have hholds := (hmem names).1 hplace
    obtain ⟨content, hfile⟩ := hholds.isFile
    exact ⟨htree.isFileName_of_at? hfile, hholds.ne_nil⟩
  refine hsorted.nodup.map_on fun names hplace names' hplace' heq ↦ ?_
  exact Location.eq_of_below_eq hpath (hnames names hplace).1 (hnames names hplace).2
    (hnames names' hplace').1 (hnames names' hplace').2 heq

end FileTree

end ActionTools
