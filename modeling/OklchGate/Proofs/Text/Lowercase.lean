import OklchGate.Text.Lowercase

/-!
# Lower case and dots

A dot is its own lower-case form, no other character becomes one, and casing
ignores it.  So a dot in front of a text changes nothing in the lower-case form
of the rest, a final sigma included.
-/

namespace OklchGate

/-! ## Single characters -/

/-- The shift of a run leads behind the dot. -/
theorem CaseRun.above_dot {run : CaseRun} (hrun : run ∈ CaseRun.all) {n : Nat}
    (h : run.holds n = true) : ('.'.toNat : Int) < n + run.shift := by
  have hall : CaseRun.all.all
    (fun run => decide (('.'.toNat : Int) < run.first + run.shift)) =
      true := by decide +kernel
  have hfirst := of_decide_eq_true (List.all_eq_true.mp hall run hrun)
  have hle : run.first ≤ n := by
    simp only [CaseRun.holds, Bool.and_eq_true, decide_eq_true_eq] at h
    exact h.1.1
  omega

theorem lowerChar_dot : lowerChar '.' = ['.'] := by decide +kernel

/-- A code point behind the dot is not the one of the dot. -/
theorem ofNat_ne_dot {n : Nat} (h : '.'.toNat < n) : Char.ofNat n ≠ '.' := by
  intro hdot
  by_cases hvalid : n.isValidChar
  · have hn : (Char.ofNat n).toNat = n := by
      rw [Char.ofNat, dif_pos hvalid]
      rfl
    rw [hdot] at hn
    omega
  · rw [Char.ofNat, dif_neg hvalid] at hdot
    exact absurd hdot (by decide)

/-- The lower-case form of a character has a first character, which is a dot
only for the dot. -/
theorem head?_lowerChar (c : Char) :
    ∃ first rest, lowerChar c = first :: rest ∧ (first = '.' ↔ c = '.') := by
  by_cases hdot : c = '.'
  · subst hdot
    exact ⟨'.', [], lowerChar_dot, by decide⟩
  by_cases hdotted : c = '\u0130'
  · subst hdotted
    exact ⟨'i', ['\u0307'], rfl, by decide⟩
  rw [lowerChar, if_neg hdotted]
  cases hrun : CaseRun.all.find? (·.holds c.toNat) with
  | none => exact ⟨c, [], rfl, Iff.rfl⟩
  | some run =>
    have hholds := List.find?_some hrun
    have habove := CaseRun.above_dot (List.mem_of_find?_eq_some hrun) hholds
    have hother : Char.ofNat (c.toNat + run.shift).toNat ≠ '.' :=
      ofNat_ne_dot (by omega)
    exact ⟨_, [], rfl, iff_of_false hother hdot⟩

/-! ## Texts -/

namespace Text

theorem meetsCased_cons_dot (text : Text) :
    meetsCased ('.' :: text) = meetsCased text := by
  have hignored : inRanges caseIgnorableRanges '.' = true := by decide
  rw [meetsCased, meetsCased, List.dropWhile_cons_of_pos hignored]

/-- A dot at the far end of what comes before a text changes no test for
case. -/
theorem meetsCased_append_dot (text : Text) :
    meetsCased (text ++ ['.']) = meetsCased text := by
  induction text with
  | nil => exact meetsCased_cons_dot []
  | cons c text ih =>
    rw [meetsCased, meetsCased, List.cons_append] at *
    by_cases hignored : inRanges caseIgnorableRanges c = true
    · rw [List.dropWhile_cons_of_pos hignored,
        List.dropWhile_cons_of_pos hignored]
      exact ih
    · rw [List.dropWhile_cons_of_neg hignored,
        List.dropWhile_cons_of_neg hignored]

theorem lowerAfter_append_dot (before text : Text) :
    lowerAfter (before ++ ['.']) text = lowerAfter before text := by
  induction text generalizing before with
  | nil => rfl
  | cons c text ih =>
    rw [lowerAfter, lowerAfter, meetsCased_append_dot, ← List.cons_append, ih]

/-- A dot in front of a text stays in front of its lower-case form. -/
theorem lower_cons_dot (text : Text) :
    lower ('.' :: text) = '.' :: lower text := by
  rw [lower, lowerAfter, if_neg (by decide), lowerChar_dot]
  exact congrArg ('.' :: ·) (lowerAfter_append_dot [] text)

/-- The lower-case form starts with a dot exactly if the text does, and it is
empty only for the empty text. -/
theorem lower_cons (c : Char) (rest : Text) :
    ∃ first others, lower (c :: rest) = first :: others ∧
      (first = '.' ↔ c = '.') := by
  rw [lower, lowerAfter]
  by_cases hsigma : c = 'Σ'
  · subst hsigma
    rw [if_pos rfl]
    refine ⟨_, _, rfl, ?_⟩
    split <;> decide
  · obtain ⟨first, others, hlower, hdot⟩ := head?_lowerChar c
    rw [if_neg hsigma, hlower]
    exact ⟨first, _, rfl, hdot⟩

end Text

end OklchGate
