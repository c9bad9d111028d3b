import OklchGate.Proofs.Text.Slice

/-!
# Putting texts into a text

A patch is a text with the offset at which it is put in.  Weaving puts in all
patches of a list and remembers which characters were there before.

There are three groups.

* `weave` and its two readings: `Stitch.textOf` gives all characters, and
  `Stitch.keptOf` only those of the text.  `keptOf_weave` says that weaving
  changes, removes and moves none of these.
* `weaveAfter`, the woven text after a given offset.  `weaveAfter_append` takes
  it apart, and `weaveAfter_congr` says that only the patches at the offsets of
  a part count there.
* `length_textOf_weave`, the length of a woven text.
-/

namespace OklchGate.Text

/-! ## Weaving -/

/-- A text and the offset at which it is put in. -/
structure Patch where
  offset : Nat
  text : Text
  deriving DecidableEq, Repr

/-- A character of a woven text: one of the text, or one that was put in. -/
inductive Stitch where
  | kept (c : Char)
  | added (c : Char)
  deriving DecidableEq, Repr

namespace Stitch

/-- The character of a stitch. -/
def char : Stitch → Char
  | kept c => c
  | added c => c

/-- The character of a stitch, unless it was put in. -/
def kept? : Stitch → Option Char
  | kept c => some c
  | added _ => none

/-- All characters of a woven text. -/
def textOf (stitches : List Stitch) : Text := stitches.map char

/-- The characters of a woven text that were not put in. -/
def keptOf (stitches : List Stitch) : Text := stitches.filterMap kept?

end Stitch

/-- What is put in at an offset: the texts of its patches, in their order. -/
def patchesAt (patches : List Patch) (offset : Nat) : Text :=
  (patches.filter fun patch => patch.offset = offset).flatMap Patch.text

/-- The text that starts at an offset, with the patches from there on. -/
def weaveFrom (patches : List Patch) (offset : Nat) : Text → List Stitch
  | [] => (patchesAt patches offset).map .added
  | c :: rest =>
    (patchesAt patches offset).map .added ++ .kept c :: weaveFrom patches
      (offset + 1) rest

/-- The text with each patch put in at its offset. -/
def weave (patches : List Patch) (text : Text) : List Stitch :=
  weaveFrom patches 0 text

theorem keptOf_added (text : Text) : Stitch.keptOf (text.map .added) = [] := by
  induction text with
  | nil => rfl
  | cons c rest ih => exact ih

theorem keptOf_weaveFrom (patches : List Patch) (offset : Nat) (text : Text) :
    Stitch.keptOf (weaveFrom patches offset text) = text := by
  induction text generalizing offset with
  | nil => exact keptOf_added _
  | cons c rest ih =>
    rw [weaveFrom, Stitch.keptOf, List.filterMap_append, ← Stitch.keptOf,
      keptOf_added,
      List.nil_append,
        List.filterMap_cons_some (f := Stitch.kept?) (b := c) rfl,
      ← Stitch.keptOf, ih]

/-- Without what was put in, a woven text is the text. -/
theorem keptOf_weave (patches : List Patch) (text : Text) :
    Stitch.keptOf (weave patches text) = text :=
  keptOf_weaveFrom patches 0 text

/-! ## The woven text after an offset -/

/-- A text that starts at an offset, with what is put in after its
characters. -/
def weaveAfter (patches : List Patch) (offset : Nat) : Text → Text
  | [] => []
  | c :: rest =>
    c :: (patchesAt patches (offset + 1) ++
      weaveAfter patches (offset + 1) rest)

theorem textOf_weaveFrom (patches : List Patch) (offset : Nat) (text : Text) :
    Stitch.textOf (weaveFrom patches offset text) =
      patchesAt patches offset ++ weaveAfter patches offset text := by
  have hadded : ∀ added : Text, (added.map Stitch.added).map Stitch.char =
      added := by
    intro added
    rw [List.map_map]
    exact List.map_id added
  induction text generalizing offset with
  | nil => simp [weaveFrom, Stitch.textOf, weaveAfter, hadded]
  | cons c rest ih =>
    rw [weaveFrom, Stitch.textOf, List.map_append, hadded, List.map_cons,
      ← Stitch.textOf, ih]
    rfl

/-- The characters of a woven text. -/
theorem textOf_weave (patches : List Patch) (text : Text) :
    Stitch.textOf (weave patches text) = patchesAt patches 0 ++
      weaveAfter patches 0 text :=
  textOf_weaveFrom patches 0 text

/-- Weaving keeps every character of the text and their order. -/
theorem sublist_weaveAfter (patches : List Patch) (offset : Nat) (text : Text) :
    text.Sublist (weaveAfter patches offset text) := by
  induction text generalizing offset with
  | nil => exact List.Sublist.refl []
  | cons c rest ih =>
    rw [weaveAfter]
    exact ((ih (offset + 1)).trans (List.sublist_append_right _ _)).cons_cons c

theorem weaveAfter_append (patches : List Patch) (offset : Nat) (a b : Text) :
    weaveAfter patches offset (a ++ b) =
      weaveAfter patches offset a ++
        weaveAfter patches (offset + a.length) b := by
  induction a generalizing offset with
  | nil => rfl
  | cons c rest ih =>
    rw [List.cons_append, weaveAfter, weaveAfter, ih, List.length_cons,
      Nat.add_right_comm, ← Nat.add_assoc]
    simp

/-- Only the patches at the offsets of a part of the text count there. -/
theorem weaveAfter_congr {patches patches' : List Patch} {offset : Nat}
    {text : Text}
    (h : ∀ i, offset < i → i ≤ offset + text.length → patchesAt patches i =
      patchesAt patches' i) :
    weaveAfter patches offset text = weaveAfter patches' offset text := by
  induction text generalizing offset with
  | nil => rfl
  | cons c rest ih =>
    rw [List.length_cons] at h
    rw [weaveAfter, weaveAfter, h (offset + 1) (by omega) (by omega)]
    rw [ih fun i hlow hhigh => h i (by omega) (by omega)]

theorem patchesAt_append (a b : List Patch) (offset : Nat) :
    patchesAt (a ++ b) offset = patchesAt a offset ++ patchesAt b offset := by
  simp [patchesAt]

/-- Nothing is put in at an offset without a patch. -/
theorem patchesAt_eq_nil {patches : List Patch} {offset : Nat}
    (h : ∀ patch ∈ patches, patch.offset ≠ offset) :
    patchesAt patches offset = [] := by
  have hnone : patches.filter (fun patch => patch.offset = offset) = [] := by
    simpa [List.filter_eq_nil_iff] using h
  rw [patchesAt, hnone]
  rfl

/-- Without patches the text stays as it is. -/
theorem weaveAfter_nil (offset : Nat) (text : Text) :
    weaveAfter [] offset text = text := by
  induction text generalizing offset with
  | nil => rfl
  | cons c rest ih =>
    rw [weaveAfter, ih]
    rfl

/-- Weaving a part of a text may be done in two steps. -/
theorem weaveAfter_slice {text : Text} (patches : List Patch) {a b c : Nat}
    (hab : a ≤ b) (hbc : b ≤ c) (hc : c ≤ text.length) :
    weaveAfter patches a (text.slice a c) =
      weaveAfter patches a (text.slice a b) ++ weaveAfter patches b
        (text.slice b c) := by
  have hlength : a + (text.slice a b).length = b := by
    rw [length_slice (Nat.le_trans hbc hc)]
    omega
  rw [← slice_append_slice text hab hbc, weaveAfter_append, hlength]

/-- Only the patches after the start of a part of a text and up to its end
count there. -/
theorem weaveAfter_slice_congr {text : Text} {patches patches' : List Patch}
    {a b : Nat} (hab : a ≤ b) (hb : b ≤ text.length)
    (h : ∀ i, a < i → i ≤ b → patchesAt patches i = patchesAt patches' i) :
    weaveAfter patches a (text.slice a b) =
      weaveAfter patches' a (text.slice a b) := by
  apply weaveAfter_congr
  intro i hlow hhigh
  rw [length_slice hb] at hhigh
  exact h i hlow (by omega)

/-- No patch of a list stands after the start of a part of a text and up to its
end. -/
def Outside (a b : Nat) (patches : List Patch) : Prop :=
  ∀ patch ∈ patches, patch.offset ≤ a ∨ b < patch.offset

theorem Outside.patchesAt {patches : List Patch} {a b i : Nat}
    (h : Outside a b patches) (hlow : a < i) (hhigh : i ≤ b) :
    patchesAt patches i = [] := by
  apply patchesAt_eq_nil
  intro patch hpatch
  rcases h patch hpatch with h | h <;> omega

/-- Patches outside of a part of a text do not count there. -/
theorem weaveAfter_slice_of_left {text : Text} {others patches : List Patch}
    {a b : Nat} (hab : a ≤ b) (hb : b ≤ text.length) (h : Outside a b others) :
    weaveAfter (others ++ patches) a (text.slice a b) =
      weaveAfter patches a (text.slice a b) := by
  refine weaveAfter_slice_congr hab hb ?_
  intro i hlow hhigh
  rw [patchesAt_append, h.patchesAt hlow hhigh, List.nil_append]

theorem weaveAfter_slice_of_right {text : Text} {others patches : List Patch}
    {a b : Nat} (hab : a ≤ b) (hb : b ≤ text.length) (h : Outside a b others) :
    weaveAfter (patches ++ others) a (text.slice a b) =
      weaveAfter patches a (text.slice a b) := by
  refine weaveAfter_slice_congr hab hb ?_
  intro i hlow hhigh
  rw [patchesAt_append, h.patchesAt hlow hhigh, List.append_nil]

/-- A part of a text without patches stays as it is. -/
theorem weaveAfter_slice_eq_self {text : Text} {patches : List Patch}
    {a b : Nat} (hab : a ≤ b) (hb : b ≤ text.length) (h : Outside a b patches) :
    weaveAfter patches a (text.slice a b) = text.slice a b := by
  rw [← List.append_nil patches, weaveAfter_slice_of_left hab hb h,
    weaveAfter_nil]

/-- A last patch at the end of a part of a text stands after it. -/
theorem weaveAfter_slice_concat {text : Text} (patches : List Patch)
    (patch : Patch) {a : Nat} (ha : a < patch.offset)
    (hoffset : patch.offset ≤ text.length) :
    weaveAfter (patches ++ [patch]) a (text.slice a patch.offset) =
      weaveAfter patches a (text.slice a patch.offset) ++ patch.text := by
  obtain ⟨b, hb⟩ : ∃ b, patch.offset = b + 1 := ⟨patch.offset - 1, by omega⟩
  have hbefore : Outside a b [patch] := by
    simp only [Outside, List.mem_singleton, forall_eq]
    omega
  have hlt : b < text.length := by omega
  have hlast : text.slice b (b + 1) = [text[b]] := slice_one hlt
  rw [hb, weaveAfter_slice _ (b := b) (by omega) (by omega) (by omega),
    weaveAfter_slice patches (b := b) (by omega) (by omega) (by omega),
    weaveAfter_slice_of_right (by omega) (by omega) hbefore, hlast]
  simp [weaveAfter, patchesAt, hb]

/-! ## Lengths -/

theorem patchesAt_cons (patch : Patch) (patches : List Patch) (offset : Nat) :
    patchesAt (patch :: patches) offset =
      (if patch.offset = offset then patch.text else []) ++
        patchesAt patches offset := by
  by_cases h : patch.offset = offset
  · simp [patchesAt, h]
  · simp [patchesAt, h]

theorem length_weaveAfter_cons (patch : Patch) (patches : List Patch)
    (offset : Nat) (text : Text) :
    (weaveAfter (patch :: patches) offset text).length =
      (weaveAfter patches offset text).length +
        if offset < patch.offset ∧ patch.offset ≤ offset + text.length then
          patch.text.length
        else 0 := by
  induction text generalizing offset with
  | nil =>
    rw [if_neg (by simp only [List.length_nil]; omega)]
    rfl
  | cons c rest ih =>
    rw [weaveAfter, weaveAfter, List.length_cons, List.length_cons,
      List.length_append, List.length_append, ih, patchesAt_cons,
      List.length_append, List.length_cons]
    by_cases hhere : patch.offset = offset + 1
    · rw [if_pos hhere, if_neg (by omega), if_pos (by omega)]
      omega
    · rw [if_neg hhere]
      by_cases hlater : offset + 1 < patch.offset ∧ patch.offset ≤
        offset + 1 + rest.length
      · rw [if_pos hlater, if_pos (by omega)]
        simp only [List.length_nil]
        omega
      · rw [if_neg hlater, if_neg (by omega)]
        simp only [List.length_nil]
        omega

/-- A woven text is as long as the text and what is put in together. -/
theorem length_textOf_weave {patches : List Patch} {text : Text}
    (h : ∀ patch ∈ patches, 0 < patch.offset ∧ patch.offset ≤ text.length) :
    (Stitch.textOf (weave patches text)).length =
      text.length + (patches.flatMap Patch.text).length := by
  have hzero : patchesAt patches 0 = [] :=
    patchesAt_eq_nil fun patch hpatch =>
      Nat.pos_iff_ne_zero.mp (h patch hpatch).1
  rw [textOf_weave, hzero, List.nil_append]
  clear hzero
  induction patches with
  | nil => simp [weaveAfter_nil]
  | cons patch rest ih =>
    have hpatch := h patch List.mem_cons_self
    rw [length_weaveAfter_cons, ih fun p hp => h p (List.mem_cons_of_mem _ hp),
      if_pos (by omega), List.flatMap_cons, List.length_append]
    omega

end OklchGate.Text
