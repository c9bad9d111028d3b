/-!
# Reading a list in pieces

A list is read from left to right.  A step looks at the next element and at
what follows it; it answers a piece and the number of further elements that
the piece takes, or it refuses.

* `Pieces.run` reads pieces until the step refuses, and counts the elements
  that it has read.
* `Pieces.cut` reads pieces to the end, with a step that never refuses.
* `Pieces.run_cons` and `Pieces.cut_cons` are their equations.
-/

namespace OklchGate.Pieces

variable {α β : Type}

/-- Skips `skip` elements and then reads pieces as `run` does. -/
def runAfter (step : α → List α → Option (β × Nat)) :
    Nat → List α → List β × Nat
  | _, [] => ([], 0)
  | skip + 1, _ :: rest =>
    let (pieces, length) := runAfter step skip rest
    (pieces, length + 1)
  | 0, a :: rest =>
    match step a rest with
    | none => ([], 0)
    | some (piece, extra) =>
      let (pieces, length) := runAfter step extra rest
      (piece :: pieces, length + 1)

/-- Reads pieces from the start of a list until `step` refuses: the pieces, and
the number of elements read. -/
def run (step : α → List α → Option (β × Nat)) (list : List α) : List β × Nat :=
  runAfter step 0 list

/-- The pieces of a whole list. -/
def cut (step : α → List α → β × Nat) (list : List α) : List β :=
  (run (fun a rest => some (step a rest)) list).1

theorem runAfter_fst (step : α → List α → Option (β × Nat)) (skip : Nat)
    (list : List α) :
    (runAfter step skip list).1 = (run step (list.drop skip)).1 := by
  induction list generalizing skip with
  | nil => cases skip <;> rfl
  | cons a rest ih =>
    cases skip with
    | zero => rfl
    | succ skip => simpa [runAfter] using ih skip

/-- The pieces of a list that is not empty: the piece at its start, and then
the pieces of what that piece leaves. -/
theorem run_cons (step : α → List α → Option (β × Nat)) (a : α)
    (rest : List α) :
    (run step (a :: rest)).1 =
      match step a rest with
      | none => []
      | some (piece, extra) => piece :: (run step (rest.drop extra)).1 := by
  simp only [run, runAfter]
  cases step a rest with
  | none => rfl
  | some answer => simpa [run] using runAfter_fst step answer.2 rest

theorem cut_nil (step : α → List α → β × Nat) : cut step [] = [] := rfl

/-- `cut` reads one piece and goes on after it. -/
theorem cut_cons (step : α → List α → β × Nat) (a : α) (rest : List α) :
    cut step (a :: rest) =
      (step a rest).1 :: cut step (rest.drop (step a rest).2) :=
  run_cons _ a rest

end OklchGate.Pieces
