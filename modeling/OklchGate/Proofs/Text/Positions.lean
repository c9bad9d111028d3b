import Mathlib.Data.List.Induction
import Mathlib.Order.Fin.Basic
import OklchGate.Proofs.Text.Breaks
import OklchGate.Proofs.Text.Search

/-!
# Positions of a normalized text and offsets of its source

A position names an index of the normalized text by counting: the line feeds
before the index, and the characters since the last of them.  The starts of the
lines of the source, which are found without the normalized text, lead from it
back to the source.

There are three groups.

* `positionAt`, and `advance_eq_positionAt`: reading a text up to an index leads
  to the position that is counted there.
* `length_lineStarts`: each line that is counted starts somewhere in the source.
* `Became`, what stands at an offset of the source and at an index of the
  normalized text, and `offset_positionAt`, which puts this together.
-/

namespace OklchGate

/-! ## Positions by counting -/

/-- The position of an index of a text: one more than the number of line feeds
before the index, and its distance from the last of them, or from the place in
front of the text. -/
def positionAt (text : Text) (index : Nat) : Position where
  line := 1 + (text.take index).count '\n'
  column :=
    match Text.findLast? ['\n'] (text.take index) with
    | some last => index - last
    | none => index + 1

/-- The last place of a character, one character further. -/
theorem Text.findLast?_concat (c d : Char) (text : Text) :
    findLast? [c] (text ++ [d]) = if d = c then some text.length
      else findLast? [c] text := by
  induction text with
  | nil =>
    by_cases hd : d = c
    · rw [if_pos hd, hd]
      exact findLast?_singleton List.not_mem_nil []
    · simp [findLast?, hd, Ne.symm hd]
  | cons e rest ih =>
    rw [List.cons_append, findLast?, ih]
    by_cases hd : d = c
    · rw [if_pos hd, if_pos hd]
      rfl
    · rw [if_neg hd, if_neg hd, findLast?]
      cases hlast : findLast? [c] rest with
      | some offset => rfl
      | none => simp [List.isPrefixOf]

/-- Reading a whole text leads to the position that is counted at its end. -/
theorem Position.advance_eq (text : Text) :
    advance {} text = positionAt text text.length := by
  induction text using List.reverseRecOn with
  | nil => rfl
  | append_singleton text c ih =>
    have hstep : advance {} (text ++ [c]) = (advance {} text).next c := by
      rw [advance, List.foldl_append]
      rfl
    rw [positionAt, List.take_length] at ih
    rw [hstep, ih, positionAt, List.take_length, Text.findLast?_concat, next,
      List.count_append, List.length_append, List.length_singleton]
    by_cases hc : c = '\n'
    · rw [if_pos hc, if_pos hc, hc]
      simp [Nat.add_assoc]
    · rw [if_neg hc, if_neg hc, List.count_singleton,
        beq_eq_false_iff_ne.mpr hc]
      cases hlast : Text.findLast? ['\n'] text with
      | none => rfl
      | some last =>
        have hle := (Text.findLast?_eq_some hlast).1
        have hcolumn : text.length - last + 1 = text.length + 1 - last := by
          omega
        exact congrArg (Position.mk _) hcolumn

/-- Reading a text up to an index leads to the position that is counted
there. -/
theorem Position.advance_eq_positionAt {text : Text} {index : Nat}
    (h : index ≤ text.length) :
    advance {} (text.take index) = positionAt text index := by
  rw [advance_eq, positionAt, positionAt, List.length_take_of_le h,
    List.take_take, Nat.min_self]

/-! ## Lines of the source -/

theorem length_lineStartsFrom (offset : Nat) (text : Text) :
    (lineStartsFrom offset text).length =
      (normalizeBreaks text).count '\n' := by
  fun_induction lineStartsFrom offset text with
  | case1 => rfl
  | case2 offset rest ih => simp [normalizeBreaks, ih]
  | case3 offset c rest hne hbreak ih =>
    rw [normalizeBreaks.eq_3 _ _ hne, List.length_cons, ih, List.count_cons]
    rcases hbreak with rfl | rfl | rfl <;> rfl
  | case4 offset c rest hne hbreak ih =>
    have hchar : (if c = '\r' ∨ c = '\x0c' then '\n' else if c = '\x00' then
      '\uFFFD' else c) ≠ '\n' := by
      rw [if_neg fun h => hbreak (h.imp_right Or.inr)]
      split
      · decide
      · exact fun h => hbreak (Or.inr (Or.inl h))
    rw [normalizeBreaks.eq_3 _ _ hne, ih, List.count_cons_of_ne hchar]

/-- A line starts at the start of the source and after each line feed of the
normalized text. -/
theorem length_lineStarts (source : Text) :
    (lineStarts source).length = 1 + (normalizeBreaks source).count '\n' := by
  rw [lineStarts, List.length_cons, length_lineStartsFrom, Nat.add_comm]

/-! ## What became of a source -/

/-- What stands at an offset of a source became the character at an index of its
normalized text: what stands before the one became what stands before the other,
and so did what stands from the one on.  A CR stands for the line break that it
starts. -/
structure Became (source : Text) (offset index : Nat) : Prop where
  before : normalizeBreaks (source.take offset) =
    (normalizeBreaks source).take index
  after : normalizeBreaks (source.drop offset) =
    (normalizeBreaks source).drop index
  char : ∃ c, source[offset]? = some c ∧
    (normalizeBreaks source)[index]? = some (strokeChar [c])

/-- The first strokes of a source, and the others. -/
theorem take_length_strokes (source : Text) (k : Nat) :
    source.take ((strokes source).take k).flatten.length =
      ((strokes source).take k).flatten ∧
      source.drop ((strokes source).take k).flatten.length =
        ((strokes source).drop k).flatten := by
  have hparts := flatten_take_append_drop source k
  refine ⟨?_, ?_⟩
  · nth_rewrite 2 [← hparts]
    rw [List.take_left]
  · nth_rewrite 2 [← hparts]
    rw [List.drop_left]

/-- A stroke has a first character, and the stroke gives the character that this
one gives. -/
theorem exists_strokeChar_eq {source stroke : Text}
    (h : stroke ∈ strokes source) :
    ∃ c rest, stroke = c :: rest ∧ strokeChar stroke = strokeChar [c] := by
  rcases stroke_cases h with rfl | ⟨c, rfl⟩
  · exact ⟨'\r', ['\n'], rfl, by decide⟩
  · exact ⟨c, [], rfl, rfl⟩

/-- After `index` strokes, what stands in the source became the character at the
index. -/
theorem became_of_lt {source : Text} {index : Nat}
    (h : index < (normalizeBreaks source).length) :
    Became source ((strokes source).take index).flatten.length index := by
  obtain ⟨htake, hdrop⟩ := take_length_strokes source index
  obtain ⟨hfront, hback⟩ := strokes_take_flatten source index
  rw [length_normalizeBreaks] at h
  refine ⟨?_, ?_, ?_⟩
  · rw [htake, normalizeBreaks_eq_map, hfront, normalizeBreaks_eq_map,
      List.map_take]
  · rw [hdrop, normalizeBreaks_eq_map, hback, normalizeBreaks_eq_map,
      List.map_drop]
  · obtain ⟨c, rest, hstroke, hchar⟩ :=
      exists_strokeChar_eq (List.getElem_mem h)
    refine ⟨c, ?_, ?_⟩
    · rw [← List.head?_drop, hdrop, List.drop_eq_getElem_cons h, hstroke]
      rfl
    · rw [normalizeBreaks_eq_map, List.getElem?_map, List.getElem?_eq_getElem h,
        ← hchar]
      rfl

/-- More strokes take more characters. -/
theorem length_flatten_take_lt {source : Text} {a b : Nat} (hab : a < b)
    (ha : a < (strokes source).length) :
    ((strokes source).take a).flatten.length <
      ((strokes source).take b).flatten.length := by
  obtain ⟨count, rfl⟩ : ∃ count, b = a + (count + 1) := ⟨b - a - 1, by omega⟩
  obtain ⟨c, rest, hstroke, -⟩ := exists_strokeChar_eq (List.getElem_mem ha)
  rw [List.take_add, List.drop_eq_getElem_cons ha, hstroke, List.take_succ_cons,
    List.flatten_append, List.length_append, List.flatten_cons]
  simp

/-- The position of an index names a line that starts in the source, and leads
back to what became the character at the index.  Later indexes lead to later
offsets.  It is the position that is reached by reading up to the index. -/
theorem offset_positionAt (source : Text) :
    (∀ index : Fin (normalizeBreaks source).length,
      Position.advance {} ((normalizeBreaks source).take index) =
          positionAt (normalizeBreaks source) index ∧
        (positionAt (normalizeBreaks source) index).line - 1 <
          (lineStarts source).length ∧
        Became source
          ((positionAt (normalizeBreaks source) index).offset
            (lineStarts source)) index) ∧
    StrictMono fun index : Fin (normalizeBreaks source).length =>
      (positionAt (normalizeBreaks source) index).offset
        (lineStarts source) := by
  have hoffset : ∀ index : Fin (normalizeBreaks source).length,
      (positionAt (normalizeBreaks source) index).offset (lineStarts source) =
        ((strokes source).take index).flatten.length := by
    intro index
    rw [← Position.advance_eq_positionAt (Nat.le_of_lt index.isLt),
      Position.offset_advance]
  refine ⟨fun index =>
    ⟨Position.advance_eq_positionAt (Nat.le_of_lt index.isLt), ?_, ?_⟩, ?_⟩
  · have hcount :=
      (List.take_sublist index.val (normalizeBreaks source)).count_le '\n'
    rw [length_lineStarts, positionAt]
    dsimp only
    omega
  · rw [hoffset]
    exact became_of_lt index.isLt
  · intro a b hab
    dsimp only
    rw [hoffset, hoffset]
    exact length_flatten_take_lt hab (length_normalizeBreaks source ▸ a.isLt)

/-- CR CR LF is two line breaks, and LF CR is two, too. -/
example : (List.range 6).map (fun index =>
    (positionAt (normalizeBreaks "a\r\r\nb\n\rc".toList) index).offset
      (lineStarts "a\r\r\nb\n\rc".toList)) = [0, 1, 2, 4, 5, 6] := by decide

end OklchGate
