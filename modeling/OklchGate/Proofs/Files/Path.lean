import OklchGate.Files.Path
import OklchGate.Proofs.Text.Search

/-!
# Paths and their texts

A path that was read is written so that the same path is read again.  So
different paths that were read have different texts.

`Path.Plain` is what is known of a path that was read, and `Path.ofText_toText`
reads what was written.  `Path.suffixOf_append` is the suffix of a name with a
dot in it.
-/

namespace OklchGate.Path

/-! ## Texts between slashes -/

theorem splitSlashes_slash (text : Text) :
    splitSlashes ('/' :: text) = [] :: splitSlashes text := rfl

theorem splitSlashes_of_not_mem {name : Text} (h : '/' ∉ name) :
    splitSlashes name = [name] := by
  induction name with
  | nil => rfl
  | cons c rest ih =>
    rw [List.mem_cons, not_or] at h
    rw [splitSlashes, if_neg (Ne.symm h.1), ih h.2]

theorem splitSlashes_append {name : Text} (h : '/' ∉ name) (rest : Text) :
    splitSlashes (name ++ '/' :: rest) = name :: splitSlashes rest := by
  induction name with
  | nil => rfl
  | cons c others ih =>
    rw [List.mem_cons, not_or] at h
    rw [List.cons_append, splitSlashes, if_neg (Ne.symm h.1), ih h.2]

/-- Names with slashes between them are taken apart again. -/
theorem splitSlashes_joinWith {names : List Text} (hne : names ≠ [])
    (h : ∀ name ∈ names, '/' ∉ name) :
    splitSlashes (Text.joinWith ['/'] names) = names := by
  induction names with
  | nil => exact absurd rfl hne
  | cons name rest ih =>
    rw [List.forall_mem_cons] at h
    cases rest with
    | nil => exact splitSlashes_of_not_mem h.1
    | cons second more =>
      rw [Text.joinWith, List.append_assoc, List.singleton_append,
        splitSlashes_append h.1, ih (List.cons_ne_nil _ _) h.2]
      exact nofun

/-- There is no slash between slashes. -/
theorem not_mem_of_mem_splitSlashes {text : Text} :
    ∀ name ∈ splitSlashes text, '/' ∉ name := by
  induction text with
  | nil => exact List.forall_mem_singleton.mpr List.not_mem_nil
  | cons c rest ih =>
    rw [splitSlashes]
    split
    · exact List.forall_mem_cons.mpr ⟨List.not_mem_nil, ih⟩
    · next hslash =>
      split
      · exact List.forall_mem_singleton.mpr (by simpa using Ne.symm hslash)
      · next part parts hparts =>
        rw [hparts, List.forall_mem_cons] at ih
        refine List.forall_mem_cons.mpr ⟨?_, ih.2⟩
        rw [List.mem_cons, not_or]
        exact ⟨Ne.symm hslash, ih.1⟩

/-! ## Paths that are read -/

/-- The root is one that a text can start with, and the names can stand between
slashes. -/
structure Plain (path : Path) : Prop where
  root : path.root ∈ [[], ['/'], ['/', '/']]
  names : ∀ name ∈ path.names, name ≠ [] ∧ name ≠ ['.'] ∧ '/' ∉ name

theorem plain_ofText (text : Text) : (ofText text).Plain where
  root := by
    show rootOf text ∈ _
    unfold rootOf
    dsimp only
    split
    · exact List.mem_cons_self
    · split <;> decide
  names := by
    intro name hname
    obtain ⟨hmem, hkept⟩ := List.mem_filter.mp hname
    have hslash := not_mem_of_mem_splitSlashes name hmem
    simp only [Bool.and_eq_true, Bool.not_eq_true', List.isEmpty_eq_false_iff,
      decide_eq_true_eq] at hkept
    exact ⟨hkept.1, hkept.2, hslash⟩

theorem plain_of_mem_map {texts : List Text} :
    ∀ path ∈ texts.map ofText, path.Plain :=
  List.forall_mem_map.mpr fun text _ => plain_ofText text

/-- The root of a root with a text after it that starts with no slash. -/
theorem rootOf_append {root : Text} (hroot : root ∈ [[], ['/'], ['/', '/']])
    {c : Char} (hc : c ≠ '/') (rest : Text) :
    rootOf (root ++ c :: rest) = root := by
  rw [List.mem_cons, List.mem_cons, List.mem_singleton] at hroot
  rcases hroot with rfl | rfl | rfl <;> simp [rootOf, hc]

/-- A path is read from its text. -/
theorem ofText_toText {path : Path} (h : path.Plain) :
    ofText path.toText = path := by
  obtain ⟨root, names⟩ := path
  obtain ⟨hroot, hnames⟩ := h
  dsimp only at hroot hnames
  cases names with
  | nil =>
    rw [List.mem_cons, List.mem_cons, List.mem_singleton] at hroot
    rcases hroot with rfl | rfl | rfl <;> rfl
  | cons name rest =>
    obtain ⟨c, tail, hname⟩ :=
      List.exists_cons_of_ne_nil (hnames name List.mem_cons_self).1
    have hc : c ≠ '/' := by
      rintro rfl
      exact (hnames name List.mem_cons_self).2.2 (hname ▸ List.mem_cons_self)
    have hsplit := splitSlashes_joinWith (List.cons_ne_nil name rest)
      fun other hother => (hnames other hother).2.2
    have hkept : (name :: rest).filter (fun name => !name.isEmpty &&
      name ≠ ['.']) = name :: rest := by
      rw [List.filter_eq_self]
      intro other hother
      simp [(hnames other hother).1, (hnames other hother).2.1]
    have htext : (Path.mk root (name :: rest)).toText =
        root ++ Text.joinWith ['/'] (name :: rest) := by
      simp [toText]
    have hhead : ∃ after, Text.joinWith ['/'] (name :: rest) = c :: after := by
      rw [hname]
      cases rest <;> exact ⟨_, rfl⟩
    obtain ⟨after, hafter⟩ := hhead
    rw [htext, ofText, hafter, rootOf_append hroot hc, ← hafter]
    congr 1
    rw [List.mem_cons, List.mem_cons, List.mem_singleton] at hroot
    rcases hroot with rfl | rfl | rfl
    · rw [List.nil_append, hsplit, hkept]
    · rw [List.singleton_append, splitSlashes_slash, hsplit,
        List.filter_cons_of_neg (by simp),
        hkept]
    · rw [List.cons_append, List.singleton_append, splitSlashes_slash,
        splitSlashes_slash, hsplit,
        List.filter_cons_of_neg (by simp), List.filter_cons_of_neg (by simp),
          hkept]

/-- Paths that were read are equal if their texts are. -/
theorem Plain.eq_of_toText {a b : Path} (ha : a.Plain) (hb : b.Plain)
    (h : a.toText = b.toText) : a = b := by
  rw [← ofText_toText ha, h, ofText_toText hb]

/-! ## Suffixes -/

/-- A suffix starts at the last dot, and a dot at the end makes none. -/
theorem suffixOf_append {stem last : Text} (hstem : stem ≠ [])
    (hlast : '.' ∉ last) :
    suffixOf (stem ++ '.' :: last) = if last = [] then [] else '.' :: last := by
  have hlength := List.length_pos_iff.mpr hstem
  rw [suffixOf, Text.findLast?_singleton hlast]
  dsimp only
  by_cases hempty : last = []
  · subst hempty
    rw [if_pos rfl, if_neg (by simp)]
  · have hrest := List.length_pos_iff.mpr hempty
    have hinner : 0 < stem.length ∧ stem.length + 1 <
        (stem ++ '.' :: last).length := by
      rw [List.length_append, List.length_cons]
      omega
    rw [if_neg hempty, if_pos hinner, List.drop_left]

end OklchGate.Path
