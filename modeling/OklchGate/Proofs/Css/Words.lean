import OklchGate.Proofs.Css.Lexemes
import OklchGate.Proofs.Text.Breaks

/-!
# Lexemes with their source text

The lexemes of a source are those of its normalized text.  A word is a lexeme
together with the part of the source that it stands for.

* `words` gives the words of a source, and `textOf_words` says that their
  texts make up the source.
* `offset_of_words`: the position after the first words of a source leads
  back to the offset after their texts.
* `Word.text_of_plain`: a word of one character that normalizing keeps has
  that character as its text.
-/

namespace OklchGate.Css

/-- A lexeme and the part of the source that it stands for. -/
structure Word where
  lexeme : Lexeme
  text : Text
  deriving DecidableEq, Repr

namespace Word

/-- Gives lexemes the strokes that they are made of. -/
def cut : List Lexeme → List Text → List Word
  | [], _ => []
  | lexeme :: rest, strokes =>
    ⟨lexeme, (strokes.take lexeme.text.length).flatten⟩ ::
      cut rest (strokes.drop lexeme.text.length)

/-- The source text of some words. -/
def textOf (words : List Word) : Text := words.flatMap Word.text

/-- The normalized text of some words. -/
def plainOf (words : List Word) : Text :=
  words.flatMap fun word => word.lexeme.text

@[simp] theorem textOf_nil : textOf [] = [] := rfl

@[simp] theorem textOf_cons (word : Word) (words : List Word) :
    textOf (word :: words) = word.text ++ textOf words := rfl

@[simp] theorem textOf_append (a b : List Word) :
    textOf (a ++ b) = textOf a ++ textOf b := by
  simp [textOf]

@[simp] theorem plainOf_nil : plainOf [] = [] := rfl

@[simp] theorem plainOf_cons (word : Word) (words : List Word) :
    plainOf (word :: words) = word.lexeme.text ++ plainOf words := rfl

@[simp] theorem plainOf_append (a b : List Word) :
    plainOf (a ++ b) = plainOf a ++ plainOf b := by
  simp [plainOf]

theorem map_lexeme_cut (lexemes : List Lexeme) (strokes : List Text) :
    (cut lexemes strokes).map lexeme = lexemes := by
  induction lexemes generalizing strokes with
  | nil => rfl
  | cons lexeme rest ih => rw [cut, List.map_cons, ih]

/-- The first words take as many strokes as their lexemes have characters. -/
theorem textOf_of_cut {lexemes : List Lexeme} {strokes : List Text}
    {before after : List Word} (h : cut lexemes strokes = before ++ after) :
    textOf before = (strokes.take (plainOf before).length).flatten := by
  induction before generalizing lexemes strokes with
  | nil => simp
  | cons word before ih =>
    cases lexemes with
    | nil => simp [cut] at h
    | cons lexeme rest =>
      rw [cut, List.cons_append, List.cons.injEq] at h
      obtain ⟨hword, hrest⟩ := h
      rw [textOf_cons, plainOf_cons, ih hrest, ← hword, List.length_append,
        List.take_add, List.flatten_append]

end Word

open Word

/-- The words of a source. -/
def words (source : Text) : List Word :=
  cut (Lexeme.ofText (normalizeBreaks source)) (strokes source)

theorem map_lexeme_words (source : Text) :
    (words source).map Word.lexeme = Lexeme.ofText (normalizeBreaks source) :=
  map_lexeme_cut _ _

theorem plainOf_words (source : Text) :
    plainOf (words source) = normalizeBreaks source := by
  rw [← Lexeme.flatten_ofText (normalizeBreaks source), ← map_lexeme_words,
    List.map_map, plainOf, List.flatMap_def]
  rfl

/-- The texts of the words make up the source. -/
theorem textOf_words (source : Text) : textOf (words source) = source := by
  have hcut : cut (Lexeme.ofText (normalizeBreaks source)) (strokes source) =
      words source ++ [] := (List.append_nil _).symm
  rw [textOf_of_cut hcut, plainOf_words, length_normalizeBreaks,
    List.take_length, flatten_strokes]

/-- The position after the first words of a source leads back to the offset
after their texts. -/
theorem offset_of_words {source : Text} {before after : List Word}
    (h : words source = before ++ after) :
    (Position.advance {} (plainOf before)).offset (lineStarts source) =
      (textOf before).length := by
  have hplain : plainOf before =
      (normalizeBreaks source).take (plainOf before).length := by
    rw [← plainOf_words, h, plainOf_append, List.take_left]
  rw [textOf_of_cut h, hplain, Position.offset_advance, ← hplain]

theorem lexeme_mem_of_mem_words {source : Text} {word : Word}
    (h : word ∈ words source) :
    word.lexeme ∈ Lexeme.ofText (normalizeBreaks source) := by
  rw [← map_lexeme_words]
  exact List.mem_map_of_mem h

namespace Word

/-- A word of a source is made of strokes of the source, one for each character
of its lexeme. -/
theorem exists_strokes_of_mem_cut {lexemes : List Lexeme} {strokes : List Text}
    {word : Word}
    (hplain : (lexemes.map Lexeme.text).flatten = strokes.map strokeChar)
    (h : word ∈ cut lexemes strokes) :
    ∃ own : List Text, (∀ stroke ∈ own, stroke ∈ strokes) ∧ own.map strokeChar =
      word.lexeme.text ∧ own.flatten = word.text := by
  induction lexemes generalizing strokes with
  | nil => simp [cut] at h
  | cons lexeme rest ih =>
    rw [List.map_cons, List.flatten_cons] at hplain
    rw [cut, List.mem_cons] at h
    rcases h with rfl | h
    · refine ⟨strokes.take lexeme.text.length, fun _ => List.mem_of_mem_take,
        ?_, rfl⟩
      rw [List.map_take, ← hplain, List.take_left]
    · have hrest : (rest.map Lexeme.text).flatten =
          (strokes.drop lexeme.text.length).map strokeChar := by
        rw [List.map_drop, ← hplain, List.drop_left]
      obtain ⟨own, hmem, hown⟩ := ih hrest h
      exact ⟨own, fun stroke hs => List.mem_of_mem_drop (hmem stroke hs), hown⟩

theorem exists_strokes_of_mem {source : Text} {word : Word}
    (h : word ∈ words source) :
    ∃ own : List Text, (∀ stroke ∈ own, stroke ∈ strokes source) ∧
      own.map strokeChar = word.lexeme.text ∧ own.flatten = word.text := by
  refine exists_strokes_of_mem_cut ?_ h
  rw [Lexeme.flatten_ofText, normalizeBreaks_eq_map]

/-- A word has a text. -/
theorem text_ne_nil {source : Text} {word : Word} (h : word ∈ words source) :
    word.text ≠ [] := by
  obtain ⟨own, hmem, hplain, htext⟩ := exists_strokes_of_mem h
  intro hnil
  have hlexeme := Lexeme.text_ne_nil_of_mem (lexeme_mem_of_mem_words h)
  cases own with
  | nil => exact hlexeme hplain.symm
  | cons stroke own =>
    rw [← htext, List.flatten_cons, List.append_eq_nil_iff] at hnil
    rcases stroke_cases (hmem stroke List.mem_cons_self) with hs | ⟨c, hs⟩ <;>
      simp [hs] at hnil

/-- A word whose lexeme is one character that normalizing keeps is that
character. -/
theorem text_of_plain {source : Text} {word : Word} {c : Char}
    (h : word ∈ words source) (hc : word.lexeme.text = [c]) (hbreak : c ≠ '\n')
    (hnul : c ≠ '\uFFFD') :
    word.text = [c] := by
  obtain ⟨own, hmem, hplain, htext⟩ := exists_strokes_of_mem h
  rw [hc] at hplain
  obtain ⟨stroke, rfl, hstroke⟩ := List.map_eq_singleton_iff.mp hplain
  have hown := stroke_eq_of_strokeChar (hmem stroke List.mem_cons_self) hstroke
    hbreak hnul
  rw [← htext, hown]
  rfl

/-- The text of a word starts with a character that normalizing keeps when its
lexeme does, and conversely. -/
theorem head?_text {source : Text} {word : Word} {c : Char}
    (h : word ∈ words source) (hr : c ≠ '\r') (hf : c ≠ '\x0c')
    (hnul : c ≠ '\x00') (hbreak : c ≠ '\n') (hnul' : c ≠ '\uFFFD') :
    word.text.head? = some c ↔ word.lexeme.text.head? = some c := by
  obtain ⟨own, hmem, hplain, htext⟩ := exists_strokes_of_mem h
  rw [← hplain, ← htext]
  cases own with
  | nil => simp
  | cons stroke own =>
    have hs := hmem stroke List.mem_cons_self
    rw [List.map_cons, List.head?_cons, List.flatten_cons, Option.some.injEq]
    constructor
    · intro hhead
      rcases stroke_cases hs with rfl | ⟨d, rfl⟩
      · simp at hhead
        exact absurd hhead.symm hr
      · simp at hhead
        rw [hhead]
        exact strokeChar_singleton hr hf hnul
    · intro hchar
      rw [stroke_eq_of_strokeChar hs hchar hbreak hnul']
      rfl

end Word

end OklchGate.Css
