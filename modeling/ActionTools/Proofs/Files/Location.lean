import ActionTools.Files.Location

/-!
# Path texts of what is below a directory

A walk names what it finds by the path text of the root with the names below it joined to it one
after the other (`Location.below`). For names that a directory can have this is the text of the
root, a slash unless it ends in one, and the names with slashes between (`below_eq`). Since the
names have no slashes of their own, the text tells them apart (`eq_of_below_eq`).

Slashes at the end of a path text make it longer, but do not change the steps it takes
(`steps_append_slashes`).
-/

namespace ActionTools

namespace Location

/-- A text that can be the name of a file or directory. -/
structure IsFileName (name : String) : Prop where
  ne_empty : name ≠ ""
  slash_not_mem : '/' ∉ name.toList

instance (name : String) : Decidable (IsFileName name) :=
  decidable_of_iff (name ≠ "" ∧ '/' ∉ name.toList) ⟨fun h ↦ ⟨h.1, h.2⟩, fun h ↦ ⟨h.1, h.2⟩⟩

/-- The path text of what several names lead to from a path. -/
def below (path : String) (names : List String) : String := names.foldl join path

@[simp] theorem below_nil (path : String) : below path [] = path := rfl

@[simp] theorem below_cons (path name : String) (names : List String) :
    below path (name :: names) = below (join path name) names := rfl

/-- What stands between a path text and a name joined to it. -/
def gap (path : String) : String := if path.endsWith "/" then "" else "/"

/-! ### Joining a name -/

theorem endsWith_slash_iff {text : String} :
    text.endsWith "/" = true ↔ text.toList.getLast? = some '/' := by
  rw [String.endsWith_eq_endsWith_toSlice, String.Slice.endsWith_string_iff, String.copy_toSlice,
    List.getLast?_eq_some_iff]
  exact exists_congr fun _ ↦ eq_comm

/-- A text that ends in a name does not end in a slash. -/
theorem endsWith_slash_append {name : String} (hname : IsFileName name) (text : String) :
    (text ++ name).endsWith "/" = false := by
  rw [← Bool.not_eq_true, endsWith_slash_iff]
  obtain ⟨last, hlast⟩ : ∃ last, name.toList.getLast? = some last :=
    Option.ne_none_iff_exists'.1 (by simpa using hname.ne_empty)
  rw [String.toList_append, List.getLast?_append, hlast, Option.some_or, Option.some_inj]
  rintro rfl
  exact hname.slash_not_mem (List.mem_of_getLast? hlast)

section Join

variable {path name : String} (hpath : path ≠ "") (hname : IsFileName name)

include hpath hname

/-- A file name is put behind the path, with a slash between unless the path ends in one. Joining
replaces the path only by an absolute name, and a file name is none. -/
theorem join_eq : join path name = path ++ gap path ++ name := by
  have hstart : name.startsWith "/" = false := by
    rw [String.startsWith_eq_startsWith_toSlice, String.Slice.startsWith_string_eq_false_iff,
      String.copy_toSlice]
    exact fun hslash ↦ hname.slash_not_mem (hslash.subset (by simp))
  have hempty : path.isEmpty = false := by simpa using hpath
  rw [join, hstart, hempty, gap]
  cases path.endsWith "/" <;> simp

theorem join_ne_empty : join path name ≠ "" := by
  rw [join_eq hpath hname]
  exact fun hempty ↦ hname.ne_empty (String.append_eq_empty_iff.1 hempty).2

/-- Behind a file name a slash is needed. -/
theorem gap_join : gap (join path name) = "/" := by
  rw [gap, join_eq hpath hname, endsWith_slash_append hname, if_neg Bool.false_ne_true]

end Join

/-! ### Several names -/

section Below

variable {path : String} {names names' : List String} (hpath : path ≠ "")
  (h : ∀ name ∈ names, IsFileName name) (hne : names ≠ [])

include hpath h hne

/-- **The text of a place below a path.** -/
theorem below_eq : below path names = path ++ gap path ++ "/".intercalate names := by
  induction names generalizing path with
  | nil => exact absurd rfl hne
  | cons name rest ih =>
    obtain ⟨hname, hrest⟩ := List.forall_mem_cons.1 h
    rw [below_cons]
    by_cases hlast : rest = []
    · rw [hlast, below_nil, join_eq hpath hname, String.intercalate_singleton]
    · rw [ih (join_ne_empty hpath hname) hrest hlast, gap_join hpath hname, join_eq hpath hname,
        String.intercalate_cons_of_ne_nil hlast]
      simp only [String.append_assoc]

/-- **The text tells the names apart.** -/
theorem eq_of_below_eq (h' : ∀ name ∈ names', IsFileName name) (hne' : names' ≠ [])
    (heq : below path names = below path names') : names = names' := by
  rw [below_eq hpath h hne, below_eq hpath h' hne'] at heq
  have htexts : "/".toList.intercalate (names.map String.toList) =
      "/".toList.intercalate (names'.map String.toList) := by
    rw [← String.toList_intercalate, ← String.toList_intercalate, (String.append_right_inj _).1 heq]
  have hslash : ∀ {list : List String}, (∀ name ∈ list, IsFileName name) →
      ∀ chars ∈ list.map String.toList, '/' ∉ chars := by
    intro list hlist chars hchars
    obtain ⟨name, hname, rfl⟩ := List.mem_map.1 hchars
    exact (hlist name hname).slash_not_mem
  have hsplit := congrArg (List.splitOn '/') htexts
  rw [show "/".toList = ['/'] by simp, List.splitOn_intercalate '/' (hslash h) (by simpa using hne),
    List.splitOn_intercalate '/' (hslash h') (by simpa using hne')] at hsplit
  exact (List.map_inj_right fun _ _ ↦ String.ext).1 hsplit

end Below

/-! ### Slashes at the end -/

/-- A text of slashes. -/
def slashes (count : Nat) : String := String.ofList (List.replicate count '/')

@[simp] theorem slashes_zero : slashes 0 = "" := rfl

theorem slashes_succ (count : Nat) : slashes (count + 1) = "/" ++ slashes count := by
  rw [← String.toList_inj]
  simp [slashes, List.replicate_succ]

theorem eq_slash_of_mem_slashes {count : Nat} {c : Char} (h : c ∈ (slashes count).toList) :
    c = '/' := by
  rw [slashes, String.toList_ofList] at h
  exact List.eq_of_mem_replicate h

/-- A slash separates the parts before it from those behind it. -/
theorem parts_append_slash (front back : String) :
    parts (front ++ "/" ++ back) = parts front ++ parts back := by
  have hslash : (front ++ "/" ++ back).toList = front.toList ++ '/' :: back.toList := by simp
  rw [parts, hslash, List.splitOn_append_cons_self, List.map_append]
  rfl

/-- Slashes at the end of a path text are no steps. -/
theorem steps_append_slashes (text : String) (count : Nat) :
    (ofText (text ++ slashes count)).steps = (ofText text).steps := by
  induction count generalizing text with
  | zero => rw [slashes_zero, String.append_empty]
  | succ count ih =>
    have hslash : parts (text ++ "/") = parts text ++ parts "" := by
      rw [← parts_append_slash, String.append_empty]
    calc (ofText (text ++ slashes (count + 1))).steps
      _ = (ofText (text ++ "/" ++ slashes count)).steps := by
        rw [slashes_succ, String.append_assoc]
      _ = (ofText (text ++ "/")).steps := ih _
      _ = (parts text ++ parts "").filter (· != "") := by rw [ofText, hslash]
      _ = (ofText text).steps := by
        rw [List.filter_append, show (parts "").filter (· != "") = [] from rfl, List.append_nil,
          ofText]

/-- A name leads one step, whatever slashes follow it. -/
theorem steps_name_slashes {name : String} (hname : IsFileName name) (count : Nat) :
    (ofText (name ++ slashes count)).steps = [name] := by
  rw [steps_append_slashes, ofText, parts, List.splitOn_eq_singleton hname.slash_not_mem]
  simp [hname.ne_empty]

theorem endsInSlash_name {name : String} (hname : IsFileName name) :
    (ofText name).endsInSlash = false := by
  rw [← String.empty_append (s := name)]
  exact endsWith_slash_append hname ""

/-- A slash is one byte, so slashes make a path text as long as is wanted. -/
theorem utf8ByteSize_slashes (count : Nat) : (slashes count).utf8ByteSize = count := by
  induction count with
  | zero => rfl
  | succ count ih =>
    rw [slashes_succ, String.utf8ByteSize_append, ih, show "/".utf8ByteSize = 1 from rfl]
    exact Nat.add_comm 1 count

end Location

end ActionTools
