import ActionTools.Files.Tree
import ActionTools.Proofs.Files.Location

/-!
# Trees that a disk can hold

In a well-formed tree each directory has distinct names, and they are names that files can have
(`FileTree.WellFormed`). What such a tree has below it is then known place by place: a place is
there when each name on the way is that of exactly one entry (`at?_directory_cons`), and a part of a
well-formed tree is well-formed (`WellFormed.at?`).

`FileTree.induction` packs the recursion through the lists of entries into one principle.
-/

namespace ActionTools

namespace FileTree

variable {α β : Type}

/-- Structural induction, the hypothesis for directories ranging over the entries. -/
@[elab_as_elim, induction_eliminator]
theorem induction {motive : FileTree α → Prop} (file : ∀ content, motive (.file content))
    (directory : ∀ entries, (∀ entry ∈ entries, motive entry.2) → motive (.directory entries))
    (tree : FileTree α) : motive tree :=
  @FileTree.rec α motive (fun entries ↦ ∀ entry ∈ entries, motive entry.2)
    (fun entry ↦ motive entry.2) file (fun entries h ↦ directory entries h)
    (fun _ h ↦ absurd h List.not_mem_nil)
    (fun _ _ hhead htail entry h ↦ by
      rcases List.mem_cons.1 h with rfl | h
      · exact hhead
      · exact htail entry h)
    (fun _ _ h ↦ h) tree

/-- In every directory names are distinct, and possible names of files. -/
inductive WellFormed : FileTree α → Prop
  | file (content : α) : WellFormed (.file content)
  | directory {entries : List (String × FileTree α)} (nodup : (Entries.keys entries).Nodup)
    (isFileName : ∀ entry ∈ entries, Location.IsFileName entry.1)
    (wellFormed : ∀ entry ∈ entries, WellFormed entry.2) : WellFormed (.directory entries)

/-! ### Places -/

@[simp] theorem at?_nil (tree : FileTree α) : tree.at? [] = some tree := rfl

theorem at?_directory_cons {entries : List (String × FileTree α)} {name : String}
    {rest : List String} {found : FileTree α} :
    (directory entries).at? (name :: rest) = some found ↔
      ∃ child, entries.lookup name = some child ∧ child.at? rest = some found :=
  Option.bind_eq_some_iff

/-! ### Contents -/

theorem mapEntries_eq_map (f : α → β) (entries : List (String × FileTree α)) :
    mapEntries f entries = entries.map fun entry ↦ (entry.1, entry.2.map f) := by
  induction entries with
  | nil => rfl
  | cons entry rest ih =>
    obtain ⟨name, tree⟩ := entry
    rw [mapEntries, ih]
    rfl

@[simp] theorem isDirectory_map (f : α → β) (tree : FileTree α) :
    (tree.map f).isDirectory = tree.isDirectory := by
  cases tree with
  | file content => rfl
  | directory entries => rfl

/-! ### Well-formed trees -/

namespace WellFormed

variable {tree found : FileTree α} {names : List String}

/-- Parts of well-formed trees are well-formed. -/
theorem at? (h : tree.WellFormed) (hfound : tree.at? names = some found) : found.WellFormed := by
  induction names generalizing tree with
  | nil => exact Option.some.inj hfound ▸ h
  | cons name rest ih =>
    cases h with
    | file => cases hfound
    | directory _ _ hentries =>
      obtain ⟨child, hchild, hfound⟩ := at?_directory_cons.1 hfound
      exact ih (hentries _ (Entries.mem_of_lookup hchild)) hfound

/-- The names that lead to a place are names that files can have. -/
theorem isFileName_of_at? (h : tree.WellFormed) (hfound : tree.at? names = some found) :
    ∀ name ∈ names, Location.IsFileName name := by
  induction names generalizing tree with
  | nil => exact fun name hname ↦ absurd hname List.not_mem_nil
  | cons name rest ih =>
    cases h with
    | file => cases hfound
    | directory _ hnames hentries =>
      obtain ⟨child, hchild, hfound⟩ := at?_directory_cons.1 hfound
      have hmem := Entries.mem_of_lookup hchild
      exact List.forall_mem_cons.2 ⟨hnames _ hmem, ih (hentries _ hmem) hfound⟩

end WellFormed

end FileTree

end ActionTools
