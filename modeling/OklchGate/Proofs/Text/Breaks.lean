import OklchGate.Text.Line

/-!
# Characters of a source and characters of its normalized text

A source is a sequence of strokes: a CR LF is one stroke, and any other
character is a stroke of its own.  Normalizing turns each stroke into one
character, so a place in the normalized text is a number of strokes.

There are three groups.

* `strokes`, and `normalizeBreaks_eq_map`, which reads the normalized text
  off the strokes.
* Cutting a source between two strokes: `strokes_append` and
  `strokes_take_flatten`.
* `Position.offset_advance`: the position that is reached after some strokes
  leads back to the source offset after them.
-/

namespace OklchGate

/-! ## Strokes -/

/-- The strokes of a source: a CR LF together, and every other character
alone. -/
def strokes : Text → List Text
  | [] => []
  | '\r' :: '\n' :: rest => ['\r', '\n'] :: strokes rest
  | c :: rest => [c] :: strokes rest

/-- The character of the normalized text that a stroke gives. -/
def strokeChar : Text → Char
  | [c] =>
    if c = '\r' ∨ c = '\x0c' then '\n' else if c = '\x00' then '\uFFFD' else c
  | _ => '\n'

/-- A stroke is a CR LF or one character. -/
theorem stroke_cases {text stroke : Text} (h : stroke ∈ strokes text) :
    stroke = ['\r', '\n'] ∨ ∃ c, stroke = [c] := by
  fun_induction strokes text with
  | case1 => simp at h
  | case2 rest ih =>
    rcases List.mem_cons.mp h with rfl | h
    · exact Or.inl rfl
    · exact ih h
  | case3 c rest _ ih =>
    rcases List.mem_cons.mp h with rfl | h
    · exact Or.inr ⟨c, rfl⟩
    · exact ih h

/-- A stroke that gives neither a line feed nor U+FFFD is the character that it
gives. -/
theorem stroke_eq_of_strokeChar {text stroke : Text} {c : Char}
    (h : stroke ∈ strokes text) (hc : strokeChar stroke = c) (hbreak : c ≠ '\n')
    (hnul : c ≠ '\uFFFD') : stroke = [c] := by
  rcases stroke_cases h with rfl | ⟨d, rfl⟩
  · exact absurd hc.symm hbreak
  · rw [strokeChar] at hc
    split at hc
    · exact absurd hc.symm hbreak
    · split at hc
      · exact absurd hc.symm hnul
      · rw [hc]

/-- A character that is neither a CR, a form feed nor a NUL is kept. -/
theorem strokeChar_singleton {c : Char} (hr : c ≠ '\r') (hf : c ≠ '\x0c')
    (hnul : c ≠ '\x00') :
    strokeChar [c] = c := by
  simp [strokeChar, hr, hf, hnul]

/-- The strokes put together are the source. -/
theorem flatten_strokes (text : Text) : (strokes text).flatten = text := by
  fun_induction strokes text with
  | case1 => rfl
  | case2 rest ih => simp [ih]
  | case3 c rest _ ih => simp [ih]

/-- Normalizing gives one character for each stroke. -/
theorem normalizeBreaks_eq_map (text : Text) :
    normalizeBreaks text = (strokes text).map strokeChar := by
  fun_induction strokes text with
  | case1 => rfl
  | case2 rest ih => simp [normalizeBreaks, strokeChar, ih]
  | case3 c rest hne ih =>
    rw [normalizeBreaks.eq_3 _ _ hne, List.map_cons, ih]
    rfl

theorem length_normalizeBreaks (text : Text) :
    (normalizeBreaks text).length = (strokes text).length := by
  rw [normalizeBreaks_eq_map, List.length_map]

/-! ## Cutting a source between two strokes -/

/-- A source may be cut wherever that does not part a CR LF. -/
theorem strokes_append {a b : Text}
    (h : a.getLast? ≠ some '\r' ∨ b.head? ≠ some '\n') :
    strokes (a ++ b) = strokes a ++ strokes b := by
  fun_induction strokes a with
  | case1 => rfl
  | case2 rest ih =>
    rw [List.cons_append, List.cons_append, strokes, List.cons_append, ih]
    rcases h with h | h
    · left
      intro hlast
      apply h
      cases rest with
      | nil => simp at hlast
      | cons d rest => simpa [List.getLast?_cons_cons] using hlast
    · exact Or.inr h
  | case3 c rest hne ih =>
    have hrest : rest.getLast? ≠ some '\r' ∨ b.head? ≠ some '\n' := by
      rcases h with h | h
      · left
        intro hlast
        apply h
        cases rest with
        | nil => simp at hlast
        | cons d rest => simpa [List.getLast?_cons_cons] using hlast
      · exact Or.inr h
    rw [List.cons_append, strokes.eq_3, ih hrest, List.cons_append]
    intro tail hc happ
    cases rest with
    | nil =>
      subst hc
      rw [List.nil_append] at happ
      rcases h with h | h
      · simp at h
      · simp [happ] at h
    | cons d rest =>
      obtain ⟨rfl, _⟩ := List.cons.inj happ
      exact hne rest hc rfl

/-- The first strokes of a source make a text that the others complete. -/
theorem flatten_take_append_drop (text : Text) (k : Nat) :
    ((strokes text).take k).flatten ++ ((strokes text).drop k).flatten =
      text := by
  rw [← List.flatten_append, List.take_append_drop, flatten_strokes]

/-- The first strokes of a source are the strokes of the text they make, and so
are the others. -/
theorem strokes_take_flatten (text : Text) (k : Nat) :
    strokes ((strokes text).take k).flatten = (strokes text).take k ∧
      strokes ((strokes text).drop k).flatten = (strokes text).drop k := by
  fun_induction strokes text generalizing k with
  | case1 => simp [strokes]
  | case2 rest ih =>
    cases k with
    | zero => simp [strokes, flatten_strokes]
    | succ k => simpa [strokes] using ih k
  | case3 c rest hne ih =>
    cases k with
    | zero =>
      refine ⟨by simp [strokes], ?_⟩
      rw [List.drop_zero, List.flatten_cons, flatten_strokes,
        List.singleton_append, strokes.eq_3 _ _ hne]
    | succ k =>
      refine ⟨?_, by simpa using (ih k).2⟩
      rw [List.take_succ_cons, List.flatten_cons, List.singleton_append,
        strokes.eq_3, (ih k).1]
      -- A LF after this stroke would stand right after it in the source, too.
      intro tail hc htake
      have hrest := flatten_take_append_drop rest k
      rw [htake] at hrest
      exact hne _ hc hrest.symm

/-- What is left after the first stroke has the other strokes. -/
theorem strokes_flatten_of_cons {text stroke : Text} {others : List Text}
    (h : strokes text = stroke :: others) :
    strokes others.flatten = others := by
  have hdrop := (strokes_take_flatten text 1).2
  rwa [h, List.drop_succ_cons, List.drop_zero] at hdrop

/-! ## Positions and offsets -/

/-- The lines that start in a text whose first stroke is known. -/
theorem lineStartsFrom_of_strokes {text stroke : Text} {others : List Text}
    (h : strokes text = stroke :: others) (offset : Nat) :
    (strokeChar stroke = '\n' ∧
        lineStartsFrom offset text =
          (offset + stroke.length) :: lineStartsFrom (offset + stroke.length)
            others.flatten) ∨
      (strokeChar stroke ≠ '\n' ∧ stroke.length = 1 ∧
        lineStartsFrom offset text =
          lineStartsFrom (offset + stroke.length) others.flatten) := by
  revert h
  fun_cases strokes text with
  | case1 => simp
  | case2 rest =>
    rintro ⟨⟩
    left
    simp [lineStartsFrom, flatten_strokes, strokeChar]
  | case3 c rest hne =>
    rintro ⟨⟩
    rw [lineStartsFrom.eq_3 _ _ _ hne, flatten_strokes]
    by_cases hbreak : c = '\r' ∨ c = '\n' ∨ c = '\x0c'
    · left
      rw [if_pos hbreak]
      refine ⟨?_, rfl⟩
      rcases hbreak with rfl | rfl | rfl <;> decide
    · right
      rw [if_neg hbreak]
      refine ⟨?_, rfl, rfl⟩
      simp only [strokeChar]
      split
      · grind
      · split
        · decide
        · grind

namespace Position

/-- A position that was reached by reading a source up to `offset`, with `rest`
still to read: it leads to `offset`, and the lines after its own are those that
start in the rest. -/
structure Tracks (starts : List Nat) (offset : Nat) (rest : Text)
    (position : Position) :
    Prop where
  column_pos : 1 ≤ position.column
  line_pos : 1 ≤ position.line
  later : starts.drop position.line = lineStartsFrom offset rest
  offset_eq : position.offset starts = offset

/-- Reading one more stroke keeps track. -/
theorem Tracks.next {starts : List Nat} {offset : Nat} {rest stroke : Text}
    {others : List Text} {position : Position}
    (h : Tracks starts offset rest position)
    (hstrokes : strokes rest = stroke :: others) :
    Tracks starts (offset + stroke.length) others.flatten
      (position.next (strokeChar stroke)) := by
  have hlater := h.later
  rcases lineStartsFrom_of_strokes hstrokes offset with
    ⟨hbreak, hstarts⟩ | ⟨hbreak, hlength, hstarts⟩
  · rw [hstarts] at hlater
    have hget : starts[position.line]? = some (offset + stroke.length) := by
      rw [← List.head?_drop, hlater]
      rfl
    rw [hbreak]
    refine ⟨Nat.le_refl 1, Nat.le_add_left 1 _, ?_, ?_⟩
    · simp [Position.next, ← List.drop_drop, hlater]
    · simp [Position.next, Position.offset, List.getD, hget]
  · have hnext : position.next (strokeChar stroke) =
        ⟨position.line, position.column + 1⟩ := by
      rw [Position.next, if_neg hbreak]
    rw [hnext]
    refine ⟨Nat.le_add_left 1 _, h.line_pos, by rw [hlater, hstarts], ?_⟩
    have hcolumn := h.column_pos
    have hoffset := h.offset_eq
    rw [Position.offset] at hoffset ⊢
    dsimp only
    omega

/-- Reading some more strokes keeps track. -/
theorem Tracks.advance {starts : List Nat} {offset : Nat} {rest : Text}
    {position : Position} (h : Tracks starts offset rest position) (k : Nat) :
    Tracks starts (offset + ((strokes rest).take k).flatten.length)
      ((strokes rest).drop k).flatten
      (position.advance (((strokes rest).take k).map strokeChar)) := by
  induction k generalizing offset rest position with
  | zero => simpa [Position.advance, flatten_strokes] using h
  | succ k ih =>
    cases hstrokes : strokes rest with
    | nil =>
      have hrest : rest = [] := by rw [← flatten_strokes rest, hstrokes]; rfl
      simpa [Position.advance, hrest] using h
    | cons stroke others =>
      have hnext := ih (h.next hstrokes)
      rw [strokes_flatten_of_cons hstrokes] at hnext
      simpa [Position.advance, Nat.add_assoc] using hnext

/-- The position after some strokes of a source leads back to the offset after
these strokes. -/
theorem offset_advance (text : Text) (k : Nat) :
    (advance {} ((normalizeBreaks text).take k)).offset (lineStarts text) =
      ((strokes text).take k).flatten.length := by
  have hstart : Tracks (lineStarts text) 0 text {} :=
    ⟨Nat.le_refl 1, Nat.le_refl 1, rfl, rfl⟩
  have h := (hstart.advance k).offset_eq
  rwa [Nat.zero_add, List.map_take, ← normalizeBreaks_eq_map] at h

end Position

end OklchGate
