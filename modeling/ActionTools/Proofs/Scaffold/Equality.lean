import ActionTools.Proofs.Json.Equality
import ActionTools.Scaffold.Recognition
import Mathlib.Data.Option.Basic

/-!
# Recognition and equality as data

Recognition looks up chains of keys and reads texts, numbers and truth values there, so it cannot
tell equal parameters apart (`recognize?_of_equal`). There is one exception. An end with an output
takes the *first* attachment of a text, and which one that is depends on the order of keys; with at
most one attachment it does not.
-/

namespace ActionTools

namespace Json

/-! ### Looking up chains of keys -/

/-- What keys lead to in a distinct value is distinct. -/
theorem Distinct.at? {json child : Json} (h : json.Distinct) {keys : List String}
    (hchild : json.at? keys = some child) : child.Distinct := by
  induction keys generalizing json with
  | nil => exact Option.some.inj hchild ▸ h
  | cons key rest ih =>
    obtain ⟨next, hnext, hchild⟩ := Option.bind_eq_some_iff.1 hchild
    exact ih (h.get? hnext) hchild

/-- Equal values are the same natural number, or neither is one. -/
theorem nat?_of_equal {a b : Json} (h : a.equal b = true) : a.nat? = b.nat? := by
  cases a <;> cases b <;> first | rfl | cases h | skip
  case number.number m n =>
    cases m <;> cases n <;> first | rfl | cases h | skip
    case whole.whole m n => exact congrArg (fun n ↦ Number.nat? (.whole n)) (eq_of_beq h)

/-- A natural number found in equal values is the same number. -/
theorem EqualFound.bind_nat? {a b : Option Json} (h : EqualFound a b) :
    a.bind nat? = b.bind nat? := by
  cases h with
  | none => rfl
  | some h => exact nat?_of_equal h

/-- Only a truth value equals it. -/
theorem eq_bool_iff_of_equal {a b : Json} (h : a.equal b = true) {value : Bool} :
    a = .bool value ↔ b = .bool value := by
  constructor
  · rintro rfl
    cases b with
    | bool value' => rw [eq_of_beq h]
    | _ => cases h
  · rintro rfl
    cases a with
    | bool value' => rw [eq_of_beq h]
    | _ => cases h

/-- Only the empty mapping equals the empty mapping. -/
theorem eq_object_nil_iff_of_equal {a b : Json} (h : a.equal b = true) :
    a = .object [] ↔ b = .object [] := by
  constructor
  · rintro rfl
    cases b with
    | object bs => rw [List.eq_nil_of_length_eq_zero (equal_object_iff.1 h).1.symm]
    | _ => cases h
  · rintro rfl
    cases a with
    | object as => rw [List.eq_nil_of_length_eq_zero (equal_object_iff.1 h).1]
    | _ => cases h

/-- Equal sequences are read alike when equal items are. -/
theorem mapM_of_equalItems {α : Type} {read : Json → Option α} {as bs : List Json}
    (hread : ∀ a ∈ as, ∀ b, a.equal b = true → read a = read b) (h : equalItems as bs = true) :
    as.mapM read = bs.mapM read := by
  induction as generalizing bs with
  | nil =>
    cases bs with
    | nil => rfl
    | cons b bs => cases h
  | cons a as ih =>
    cases bs with
    | nil => cases h
    | cons b bs =>
      obtain ⟨hfirst, hrest⟩ := Bool.and_eq_true_iff.1 h
      rw [List.mapM_cons, List.mapM_cons, hread a (List.mem_cons_self ..) b hfirst,
        ih (fun a ha ↦ hread a (.tail _ ha)) hrest]

section Lookup

variable {a b : Json} (ha : a.Distinct) (h : a.equal b = true)

include ha h

/-- Keys lead to equal values in equal values, or to nothing in both. -/
theorem at?_of_equal (keys : List String) : EqualFound (a.at? keys) (b.at? keys) := by
  induction keys generalizing a b with
  | nil => exact .some h
  | cons key rest ih =>
    have hfound := get?_of_equal ha h key
    rw [Json.at?, Json.at?]
    generalize hget : a.get? key = found at hfound ⊢
    generalize b.get? key = found' at hfound ⊢
    cases hfound with
    | none => exact .none
    | some hequal => exact ih (ha.get? hget) hequal

/-- Keys lead to the same text in equal values. -/
theorem textAt?_of_equal (keys : List String) : a.textAt? keys = b.textAt? keys :=
  (at?_of_equal ha h keys).bind_string?

theorem hasText_of_equal (keys : List String) (text : String) :
    a.hasText keys text = b.hasText keys text := by
  rw [hasText, hasText, textAt?_of_equal ha h]

/-- Keys lead to the same natural number in equal values. -/
theorem natAt?_of_equal (keys : List String) : a.natAt? keys = b.natAt? keys :=
  (at?_of_equal ha h keys).bind_nat?

/-- Keys lead to the same truth value in equal values. -/
theorem at?_eq_bool_iff (keys : List String) (value : Bool) :
    a.at? keys = some (.bool value) ↔ b.at? keys = some (.bool value) := by
  have hfound := at?_of_equal ha h keys
  generalize a.at? keys = found at hfound ⊢
  generalize b.at? keys = found' at hfound ⊢
  cases hfound with
  | none => exact Iff.rfl
  | some hequal => rw [Option.some.injEq, Option.some.injEq, eq_bool_iff_of_equal hequal]

/-- What is read item by item from equal sequences is the same when each item is read alike. -/
theorem bind_mapM_of_equal {α β : Type} {read : Json → Option α}
    (hread : ∀ {x y : Json}, x.Distinct → x.equal y = true → read x = read y) (keys : List String)
    (finish : List α → Option β) :
    (((a.at? keys).bind items?).bind fun items ↦ (items.mapM read).bind finish) =
      ((b.at? keys).bind items?).bind fun items ↦ (items.mapM read).bind finish := by
  have hfound := at?_of_equal ha h keys
  generalize hget : a.at? keys = found at hfound ⊢
  generalize b.at? keys = found' at hfound ⊢
  cases hfound with
  | none => rfl
  | @some x y hequal =>
    have hdistinct : x.Distinct := ha.at? hget
    cases x <;> cases y <;> first | rfl | cases hequal | skip
    case array.array as bs =>
      have hitems : as.mapM read = bs.mapM read :=
        mapM_of_equalItems (fun x hx y hxy ↦ hread (hdistinct.of_mem_items hx) hxy) hequal
      simp only [items?, Option.bind_some, hitems]

end Lookup

end Json

namespace Scaffold

/-! ### Recognizing -/

/-- The attachments of a text that is put out. -/
def attachments? (parameters : Json) : Option (List (String × Json)) :=
  (parameters.at? ["WFOutput", "Value", "attachmentsByRange"]).bind Json.entries?

section Recognition

variable {a b : Json} (ha : a.Distinct) (h : a.equal b = true)

include ha h

theorem dictionaryInput?_of_equal : dictionaryInput? a = dictionaryInput? b := by
  simp only [dictionaryInput?, Json.hasText_of_equal ha h, Json.textAt?_of_equal ha h]

/-- The key looked up is in the first item of a list, so the lists are compared item by item. -/
theorem dictionaryKey?_of_equal : dictionaryKey? a = dictionaryKey? b := by
  have hfound := Json.at?_of_equal ha h ["WFInput", "Value", "Aggrandizements"]
  rw [dictionaryKey?, dictionaryKey?]
  generalize hget : a.at? ["WFInput", "Value", "Aggrandizements"] = found at hfound ⊢
  generalize b.at? ["WFInput", "Value", "Aggrandizements"] = found' at hfound ⊢
  cases hfound with
  | none => rfl
  | @some x y hequal =>
    have hdistinct : x.Distinct := ha.at? hget
    cases x <;> cases y <;> first | rfl | cases hequal | skip
    case array.array as bs =>
      cases as <;> cases bs <;> first | rfl | cases hequal | skip
      case cons.cons x xs y ys =>
        have hfirst : x.Distinct := hdistinct.of_mem_items (List.mem_cons_self ..)
        have hxy : x.equal y = true := (Bool.and_eq_true_iff.1 hequal).1
        simp only [Json.hasText_of_equal hfirst hxy, Json.textAt?_of_equal hfirst hxy]

/-- Equal parameters are the same look-up of a key. -/
theorem getValueForKey?_of_equal : getValueForKey? a = getValueForKey? b := by
  simp only [getValueForKey?, Json.hasText_of_equal ha h, Json.textAt?_of_equal ha h,
    dictionaryKey?_of_equal ha h]

/-- Equal parameters begin or end the same branch. -/
theorem conditional?_of_equal : conditional? a = conditional? b := by
  simp only [conditional?, ifOutputEquals?, endIf?, Json.hasText_of_equal ha h,
    Json.textAt?_of_equal ha h, Json.natAt?_of_equal ha h]

/-- Equal parameters set the same variable to the same output. -/
theorem setVariable?_of_equal : setVariable? a = setVariable? b := by
  simp only [setVariable?, Json.hasText_of_equal ha h, Json.textAt?_of_equal ha h]

theorem fileSave?_of_equal : fileSave? a = fileSave? b := by
  simp only [fileSave?, Json.at?_eq_bool_iff ha h, Json.textAt?_of_equal ha h]

theorem base64Encode?_of_equal : base64Encode? a = base64Encode? b := by
  simp only [base64Encode?, Json.hasText_of_equal ha h, Json.textAt?_of_equal ha h]

/-- Equal items hold the same text under the same key. -/
theorem textItem?_of_equal : textItem? a = textItem? b := by
  simp only [textItem?, itemKey?, itemText?, Json.natAt?_of_equal ha h, Json.textAt?_of_equal ha h]

/-- Equal items hold the same text, or the same list of texts, under the same key. -/
theorem dictionaryItem?_of_equal : dictionaryItem? a = dictionaryItem? b := by
  simp only [dictionaryItem?, itemKey?, itemText?, Json.natAt?_of_equal ha h,
    Json.textAt?_of_equal ha h, Option.bind_eq_bind,
    Json.bind_mapM_of_equal ha h textItem?_of_equal]

/-- Equal parameters are the same dictionary. -/
theorem dictionary?_of_equal : dictionary? a = dictionary? b := by
  simp only [dictionary?, Json.hasText_of_equal ha h, Option.bind_eq_bind,
    Json.bind_mapM_of_equal ha h dictionaryItem?_of_equal]

/-- With at most one attachment it does not matter which is the first. -/
theorem outputAndExit?_of_equal
    (hone : ∀ entries, attachments? a = some entries → entries.length ≤ 1) :
    outputAndExit? a = outputAndExit? b := by
  have hfound := Json.at?_of_equal ha h ["WFOutput", "Value", "attachmentsByRange"]
  simp only [outputAndExit?, Json.hasText_of_equal ha h, Option.bind_eq_bind]
  rw [attachments?] at hone
  generalize hget : a.at? ["WFOutput", "Value", "attachmentsByRange"] = found at hfound hone ⊢
  generalize b.at? ["WFOutput", "Value", "attachmentsByRange"] = found' at hfound ⊢
  cases hfound with
  | none => rfl
  | @some x y hequal =>
    have hdistinct : x.Distinct := ha.at? hget
    cases x <;> cases y <;> first | rfl | cases hequal | skip
    case object.object as bs =>
      obtain ⟨hlength, hentries⟩ := Json.equal_object_iff.1 hequal
      -- With one attachment at most there is no first one to choose.
      have hle : as.length ≤ 1 := hone as rfl
      cases as with
      | nil => rw [List.eq_nil_of_length_eq_zero hlength.symm]
      | cons attachment rest =>
        obtain rfl : rest = [] :=
          List.eq_nil_of_length_eq_zero (Nat.le_zero.1 (Nat.le_of_succ_le_succ hle))
        obtain ⟨attachment', rfl⟩ := List.length_eq_one_iff.1 hlength.symm
        obtain ⟨found, hlookup, hfirst⟩ := hentries attachment (List.mem_cons_self ..)
        obtain rfl : (attachment.1, found) = attachment' :=
          List.mem_singleton.1 (Entries.mem_of_lookup hlookup)
        have hdistinct' : attachment.2.Distinct :=
          hdistinct.of_mem_entries (List.mem_cons_self ..)
        simp only [Json.entries?, Option.bind_some, Json.hasText_of_equal hdistinct' hfirst,
          Json.textAt?_of_equal hdistinct' hfirst]

/-- **Equal parameters are recognized alike**, but for the choice among several attachments. -/
theorem recognize?_of_equal {identifier : String}
    (hone : identifier = outputId →
      ∀ entries, attachments? a = some entries → entries.length ≤ 1) :
    recognize? identifier a = recognize? identifier b := by
  have hexit := Json.eq_object_nil_iff_of_equal h
  have houtput (hid : identifier = outputId) : outputAndExit? a = outputAndExit? b :=
    outputAndExit?_of_equal ha h (hone hid)
  rw [recognize?, recognize?]
  simp +contextual only [Json.textAt?_of_equal ha h, dictionaryInput?_of_equal ha h,
    getValueForKey?_of_equal ha h, conditional?_of_equal ha h, setVariable?_of_equal ha h,
    fileSave?_of_equal ha h, base64Encode?_of_equal ha h, hexit, houtput, dictionary?_of_equal ha h]

end Recognition

end Scaffold

end ActionTools
