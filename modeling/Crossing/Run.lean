import Crossing.Evaluation.Apply
import Crossing.Script.Play

/-!
# Runs

Tasks are procedures that may contain tasks. A run follows them down to a given
depth, and repeats loops up to a given number of rounds.

- `Task.body` is the procedure that a task stands for;
- `Task.run` runs a task, `Proc.run` a procedure.
-/

namespace Crossing

/-- What a task does. -/
def Task.body {α : Type} : Task α → Proc α
  | .evaluate form => Host.evaluation form
  | .apply function args => Host.application function args
  | .close c => Border.closure c
  | .play steps args => Script.play args steps
  | .step s args => Script.playStep args s

/-- Runs a task whose tasks are nested less than `n` deep and whose loops have
at most as many rounds. -/
def Task.run {α : Type} : (n : Nat) → Task α → World → Proc.Result α
  | 0, _, w => (.error .exhausted, w)
  | n + 1, t, w => t.body.runWith n (fun t w => t.run n w) w

/-- How deep the tasks of a run may nest, and how many rounds a loop may have. -/
def budget : Nat := 1000000000

/-- Runs a procedure. -/
def Proc.run {α : Type} (p : Proc α) (w : World) : Result α :=
  p.runWith budget (fun t w => t.run budget w) w

end Crossing
