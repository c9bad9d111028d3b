import OklchGate.Text

/-!
# Slices of a text

A slice is a part of a text between two offsets.  Neighbouring slices join,
and a slice of a text that is known in three parts is the middle part.  The part
of a text up to a separator is determined by the text (`append_inj_of_not_mem`).
-/

namespace OklchGate.Text

/-- Two slices that meet at an offset make one slice. -/
theorem slice_append_slice (text : Text) {a b c : Nat} (hab : a ≤ b)
    (hbc : b ≤ c) :
    text.slice a b ++ text.slice b c = text.slice a c := by
  have hac : c - a = (b - a) + (c - b) := by omega
  have hdrop : text.drop b = (text.drop a).drop (b - a) := by
    rw [List.drop_drop]
    congr 1
    omega
  rw [slice, slice, slice, hac, hdrop, List.take_add]

/-- The text up to an offset, in two parts. -/
theorem take_eq_take_append_slice (text : Text) {a b : Nat} (h : a ≤ b) :
    text.take b = text.take a ++ text.slice a b := by
  rw [slice, ← List.take_add, Nat.add_sub_cancel' h]

/-- A slice that stops where it starts, or before, is empty. -/
theorem slice_eq_nil (text : Text) {a b : Nat} (h : b ≤ a) :
    text.slice a b = [] := by
  simp [slice, Nat.sub_eq_zero_of_le h]

/-- The slice from the start to the end is the whole text. -/
theorem slice_all (text : Text) : text.slice 0 text.length = text := by
  simp [slice]

/-- The length of a slice that lies in its text. -/
theorem length_slice {text : Text} {a b : Nat} (hb : b ≤ text.length) :
    (text.slice a b).length = b - a := by
  rw [slice, List.length_take, List.length_drop]
  omega

/-- The middle one of three parts of a text is a slice. -/
theorem slice_of_append (before part after : Text) :
    (before ++ part ++ after).slice before.length
      (before.length + part.length) = part := by
  simp [slice]

/-- A slice that starts inside the middle one of three parts and does not
leave it is a slice of that part. -/
theorem slice_append_of_le (before part after : Text) {a b : Nat}
    (hb : b ≤ part.length) :
    (before ++ part ++ after).slice (before.length + a) (before.length + b) =
      part.slice a b := by
  have hsub : before.length + b - (before.length + a) = b - a := by omega
  rw [slice, slice, hsub, List.append_assoc, List.drop_append,
    Nat.add_sub_cancel_left, List.drop_of_length_le (by omega), List.nil_append]
  rcases Nat.lt_or_ge part.length a with ha | ha
  · rw [show b - a = 0 by omega]
    simp
  · rw [List.drop_append, Nat.sub_eq_zero_of_le ha, List.drop_zero,
      List.take_append_of_le_length (by simp; omega)]

/-- One character of a text as a slice. -/
theorem slice_one {text : Text} {a : Nat} (h : a < text.length) :
    text.slice a (a + 1) = [text[a]] := by
  rw [slice, Nat.add_sub_cancel_left, List.drop_eq_getElem_cons h]
  rfl

/-- Up to a separator, a text without it is determined. -/
theorem append_inj_of_not_mem {separator : Char} {a b c d : Text}
    (ha : separator ∉ a) (hb : separator ∉ b) (hc : c = [] ∨ [separator] <+: c)
    (hd : d = [] ∨ [separator] <+: d) (h : a ++ c = b ++ d) :
    a = b ∧ c = d := by
  have htake : ∀ {text rest : Text}, separator ∉ text →
    (rest = [] ∨ [separator] <+: rest) →
      (text ++ rest).takeWhile (· ≠ separator) = text := by
    intro text rest htext hrest
    induction text with
    | nil =>
      rcases hrest with rfl | ⟨after, rfl⟩
      · rfl
      · exact List.takeWhile_cons_of_neg (by simp)
    | cons e text ih =>
      rw [List.mem_cons, not_or] at htext
      rw [List.cons_append,
        List.takeWhile_cons_of_pos (by simpa using Ne.symm htext.1),
        ih htext.2]
  have hab : a = b := by rw [← htake ha hc, h, htake hb hd]
  exact ⟨hab, List.append_cancel_left (hab ▸ h)⟩

end OklchGate.Text
