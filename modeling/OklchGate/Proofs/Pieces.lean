import OklchGate.Pieces

/-!
# How far a reading in pieces goes

`Pieces.run` answers the pieces and the number of elements that it has read.
`Pieces.run_snd_cons` gives that number step by step, and `Pieces.flatten_cut`
says that pieces which are parts of the list make up the list.
`Pieces.exists_of_mem_cut` gives the place of a piece.
-/

namespace OklchGate.Pieces

variable {α β : Type}

theorem runAfter_snd (step : α → List α → Option (β × Nat)) (skip : Nat)
    (list : List α) :
    (runAfter step skip list).2 = min skip list.length +
      (run step (list.drop skip)).2 := by
  induction list generalizing skip with
  | nil => cases skip <;> simp [runAfter, run]
  | cons a rest ih =>
    cases skip with
    | zero => simp [run]
    | succ skip =>
      simp only [runAfter, ih skip, List.length_cons, List.drop_succ_cons]
      omega

/-- Skipping a whole text goes on with what follows it. -/
theorem runAfter_append (step : α → List α → Option (β × Nat)) (skip : Nat)
    (s t : List α) :
    runAfter step (s.length + skip) (s ++ t) =
      ((runAfter step skip t).1, s.length + (runAfter step skip t).2) := by
  induction s with
  | nil => simp
  | cons a s ih =>
    rw [List.length_cons, Nat.add_right_comm, List.cons_append, runAfter, ih]
    simp only [Prod.mk.injEq, true_and]
    omega

/-- The number of elements read: one and what the first piece takes, and then
what the pieces after it take. -/
theorem run_snd_cons (step : α → List α → Option (β × Nat)) (a : α)
    (rest : List α) :
    (run step (a :: rest)).2 =
      match step a rest with
      | none => 0
      | some (_, extra) =>
        1 + min extra rest.length + (run step (rest.drop extra)).2 := by
  simp only [run, runAfter]
  cases step a rest with
  | none => rfl
  | some answer =>
    have h := runAfter_snd step answer.2 rest
    simp only [run] at h
    simp only [h]
    omega

/-- A step that answers reads at least one element. -/
theorem run_snd_pos {step : α → List α → Option (β × Nat)} {a : α}
    {rest : List α} {answer : β × Nat} (h : step a rest = some answer) :
    1 ≤ (run step (a :: rest)).2 := by
  rw [run_snd_cons, h]
  exact Nat.le_add_right_of_le (Nat.le_add_right 1 _)

/-- Pieces that are parts of the list, one after the other, make up the
list. -/
theorem flatten_cut {step : α → List α → List α × Nat}
    (hstep : ∀ a rest, (step a rest).1 = a :: rest.take (step a rest).2)
    (list : List α) :
    (cut step list).flatten = list := by
  cases list with
  | nil => rfl
  | cons a rest =>
    have ih := flatten_cut hstep (rest.drop (step a rest).2)
    rw [cut_cons, List.flatten_cons, hstep, ih, List.cons_append,
      List.take_append_drop]
termination_by list.length
decreasing_by simp only [List.length_drop, List.length_cons]; omega

/-- A piece was read at one place of the list. -/
theorem exists_of_mem_cut {step : α → List α → β × Nat} {piece : β}
    (list : List α) :
    piece ∈ cut step list →
      ∃ before a rest, list = before ++ a :: rest ∧ (step a rest).1 =
        piece := by
  cases list with
  | nil => exact nofun
  | cons a rest =>
    intro h
    rw [cut_cons, List.mem_cons] at h
    rcases h with rfl | h
    · exact ⟨[], a, rest, rfl, rfl⟩
    · obtain ⟨before, b, after, hrest, hpiece⟩ :=
        exists_of_mem_cut (rest.drop (step a rest).2) h
      refine ⟨a :: rest.take (step a rest).2 ++ before, b, after, ?_, hpiece⟩
      rw [List.append_assoc, ← hrest, List.cons_append, List.take_append_drop]
termination_by list.length
decreasing_by simp only [List.length_drop, List.length_cons]; omega

end OklchGate.Pieces
