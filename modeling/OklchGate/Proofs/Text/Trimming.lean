import OklchGate.Text.Blank

/-!
# Trimmed texts

Trimming removes the blanks at both ends of a text.  `ends_of_trim` says that
none is left there, and `trim_eq_self` that a text without blanks at its ends
stays as it is.  So trimming twice is trimming once, and the start of a trimmed
text is trimmed unless it ends in a blank.
-/

namespace OklchGate.Text

theorem mem_of_mem_trim {text : Text} {c : Char} (h : c ∈ trim text) :
    c ∈ text := by
  rw [trim, trimEnd, List.mem_reverse] at h
  exact (List.dropWhile_subset _
    (List.mem_reverse.mp (List.dropWhile_subset _ h)))

/-- A text without blanks at its ends is trimmed. -/
theorem trim_eq_self {text : Text}
    (hstart : ∀ c ∈ text.head?, isBlank c = false)
    (hend : ∀ c ∈ text.getLast?, isBlank c = false) : trim text = text := by
  have hkeep : ∀ text : Text, (∀ c ∈ text.head?, isBlank c = false) →
      text.dropWhile isBlank = text := by
    intro text h
    cases text with
    | nil => rfl
    | cons c rest => exact List.dropWhile_cons_of_neg (by simp [h c rfl])
  rw [trim, trimStart, hkeep text hstart, trimEnd, hkeep, List.reverse_reverse]
  intro c hc
  rw [List.head?_reverse] at hc
  exact hend c hc

/-- Trimming leaves no blank at the ends of a text. -/
theorem ends_of_trim (text : Text) :
    (∀ c ∈ (trim text).head?, isBlank c = false) ∧
      ∀ c ∈ (trim text).getLast?, isBlank c = false := by
  have hhead : ∀ text : Text, ∀ c ∈ (text.dropWhile isBlank).head?,
      isBlank c = false := by
    intro text c hc
    have h := List.head?_dropWhile_not isBlank text
    rw [hc] at h
    exact h
  constructor
  · intro c hc
    have hprefix : trim text <+: trimStart text := by
      rw [trim, trimEnd, ← List.reverse_suffix, List.reverse_reverse]
      exact List.dropWhile_suffix _
    refine hhead text c ?_
    obtain ⟨back, hback⟩ := hprefix
    obtain ⟨rest, hrest⟩ := List.head?_eq_some_iff.mp hc
    rw [hrest] at hback
    exact List.head?_eq_some_iff.mpr ⟨rest ++ back, hback.symm⟩
  · intro c hc
    rw [trim, trimEnd, List.getLast?_reverse] at hc
    exact hhead _ c hc

/-- Trimming twice is trimming once. -/
theorem trim_trim (text : Text) : trim (trim text) = trim text :=
  trim_eq_self (ends_of_trim text).1 (ends_of_trim text).2

/-- A text is its trimmed text between blanks. -/
theorem exists_trim (text : Text) :
    ∃ front back, text = front ++ (trim text ++ back) ∧
      (∀ c ∈ front, isBlank c = true) ∧ ∀ c ∈ back, isBlank c = true := by
  refine ⟨text.takeWhile isBlank,
    ((trimStart text).reverse.takeWhile isBlank).reverse, ?_, ?_, ?_⟩
  · rw [trim, trimEnd, ← List.reverse_append, List.takeWhile_append_dropWhile,
      List.reverse_reverse, trimStart, List.takeWhile_append_dropWhile]
  · exact fun c hc => List.all_eq_true.mp List.all_takeWhile c hc
  · exact fun c hc => List.all_eq_true.mp List.all_takeWhile c
      (List.mem_reverse.mp hc)

/-- Blanks around a trimmed text are trimmed off. -/
theorem trim_of_blanks {front text back : Text} (h : trim text = text)
    (hfront : ∀ c ∈ front, isBlank c = true)
    (hback : ∀ c ∈ back, isBlank c = true) :
    trim (front ++ (text ++ back)) = text := by
  have hdrop : ∀ {blanks rest : Text}, (∀ c ∈ blanks, isBlank c = true) →
      (blanks ++ rest).dropWhile isBlank = rest.dropWhile isBlank :=
        fun hblanks =>
    List.dropWhile_append_of_pos hblanks
  rw [trim, trimStart, hdrop hfront]
  cases text with
  | nil =>
    have hnil : (back ++ []).dropWhile isBlank = [] := hdrop hback
    rw [List.append_nil] at hnil
    rw [List.nil_append, hnil]
    rfl
  | cons c text =>
    have hc := (ends_of_trim (c :: text)).1 c (by rw [h]; rfl)
    rw [List.cons_append, List.dropWhile_cons_of_neg (by simp [hc]), trimEnd,
      ← List.cons_append,
      List.reverse_append, hdrop fun c hc => hback c (List.mem_reverse.mp hc)]
    have hstart : trimStart (c :: text) = c :: text :=
      List.dropWhile_cons_of_neg (by simp [hc])
    rw [trim, hstart] at h
    exact h

/-- The start of a trimmed text is trimmed unless it ends in a blank. -/
theorem trim_of_prefix {text part : Text} (h : trim text = text)
    (hpart : part <+: text) (hend : ∀ c ∈ part.getLast?, isBlank c = false) :
    trim part = part := by
  refine trim_eq_self ?_ hend
  intro c hc
  have hstart := (ends_of_trim text).1
  rw [h] at hstart
  obtain ⟨back, hback⟩ := hpart
  obtain ⟨rest, hrest⟩ := List.head?_eq_some_iff.mp hc
  rw [hrest] at hback
  exact hstart c (List.head?_eq_some_iff.mpr ⟨rest ++ back, hback.symm⟩)

end OklchGate.Text
