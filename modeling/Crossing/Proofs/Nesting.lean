import Crossing.Proofs.NestingLimit
import Crossing.Proofs.TwoRuns.Simulation

/-!
# Evaluations in progress

The host counts the evaluations in progress and refuses one that is too many. The count
is right at every moment: each evaluation takes itself out of it when it ends, with a value
or a failure, whatever has been evaluated, called back or refused inside of it. So an
evaluation is refused for those around it only, and never for what has failed before.

- `Moment.IsBalanced.becomes`: the count is right all along a run;
- `Moment.depth_le_next`: it stays within the limit;
- `Moment.nesting_is_balanced`: what this says of tasks, of the top, and of the limit;
- `Proc.depth_run`, `Transcript.depth_topStep`: whole runs leave the count as it was.
-/

namespace Crossing

variable {α β γ : Type} {p : Proc γ} {w w₁ : World} {m m' : Moment γ} {d : Nat}

/-! ### Steps -/

namespace World

theorem depth_sweep (w : World) : w.sweep.2.host.depth = w.host.depth :=
  depth_of_atDepth (f := fun w => w.sweep.2) (congrArg Prod.snd (w.sweep_atDepth w.host.depth))

end World

/-- No scope is entered beyond the limit. -/
theorem Scope.depth_enter_le {s : Scope} {u : Undo} (h : s.enter w = .ok (u, w₁))
    (hw : w.host.depth ≤ maxDepth) : w₁.host.depth ≤ maxDepth := by
  by_cases hs : s = .evaluation
  · subst hs
    rw [enter] at h
    split at h
    · cases h
    · rename_i hroom
      cases h
      exact Nat.succ_le_of_lt (Nat.not_le.mp hroom)
  · rwa [Scope.depth_enter hs h]

theorem Undo.depth_run_le (u : Undo) (w : World) : (u.run w).host.depth ≤ w.host.depth := by
  by_cases hu : u = .leaveEvaluation
  · subst hu
    exact Nat.sub_le _ _
  · exact (World.depth_of_atDepth (f := u.run) (u.run_atDepth hu w _)).le

/-- Nothing is evaluated at the top. -/
theorem Stack.evaluations_of_isTop {k : Stack γ α} (hk : k.isTop = true) : k.evaluations = 0 := by
  cases k with
  | top => rfl
  | push f rest => cases hk

namespace Moment

/-- A step stays within the limit. -/
theorem depth_le_next (h : m.next = some m') (hm : m.world.host.depth ≤ maxDepth) :
    m'.world.host.depth ≤ maxDepth := by
  obtain hworld | ⟨β, c, next, -, hworld⟩ | ⟨s, u, hentered⟩ | ⟨u, hworld⟩ := world_cases h
  · rwa [hworld]
  · rwa [hworld, c.depth_run]
  · exact Scope.depth_enter_le hentered hm
  · rw [hworld]
    exact (u.depth_run_le _).trans hm

/-! ### Runs -/

theorem IsBalanced.becomes (hm : m.IsBalanced d) (h : Becomes m m') : m'.IsBalanced d := by
  induction h with
  | refl => exact hm
  | @tail m₁ _ _ hgo ih =>
    cases hgo with
    | next h => exact ih.next h
    | sweep _ => exact (World.depth_sweep _).trans ih

theorem Becomes.depth_le (h : Becomes m m') (hm : m.world.host.depth ≤ maxDepth) :
    m'.world.host.depth ≤ maxDepth := by
  induction h with
  | refl => exact hm
  | tail _ hgo ih =>
    cases hgo with
    | next h => exact depth_le_next h ih
    | sweep _ => exact (World.depth_sweep _).le.trans ih

theorem isBalanced_start (p : Proc γ) (w : World) :
    IsBalanced w.host.depth (⟨p, .top, w⟩ : Moment γ) := rfl

/-- An evaluation is refused just where as many as the limit allows wait for it. -/
theorem IsBalanced.next_evaluation {part : Proc α} {next : α → Proc β} {k : Stack γ β}
    (hm : IsBalanced 0 (⟨.inside .evaluation part next, k, w⟩ : Moment γ)) :
    (⟨.inside .evaluation part next, k, w⟩ : Moment γ).next =
      if k.evaluations < maxDepth then
        some ⟨part, .push (.scope .leaveEvaluation next) k, w.deeper⟩
      else some ⟨.stop (.failure (.signal .nestingTooDeep)), k, w⟩ := by
  have hdepth : w.host.depth = k.evaluations := hm.trans (Nat.zero_add _)
  rw [← hdepth]
  split
  · rename_i hroom
    exact next_inside (World.enter_evaluation hroom)
  · rename_i hfull
    refine next_refused ?_
    rw [Scope.enter, if_pos (Nat.not_lt.mp hfull)]

/-- In a run that starts where no evaluation is in progress: the host counts just the
evaluations that wait, at most as many as the limit allows; a task, so every evaluation, gives
its result or failure to what waits for it with the count that it was started with; wherever
nothing waits, as at the end of all that is done at the top and between the steps of a session,
the count is zero; and an evaluation is refused just where it has as many around it as the
limit allows. -/
theorem nesting_is_balanced (hidle : w.host.depth = 0) (h : Becomes ⟨p, .top, w⟩ m) :
    (m.world.host.depth = m.stack.evaluations ∧ m.world.host.depth ≤ maxDepth) ∧
    (∀ {α β : Type} (t : Task α) (next : α → Proc β) (k : Stack γ β) (w₁ w₂ : World)
      (r : Except Failure α), m = ⟨.task t next, k, w₁⟩ →
      Becomes m ⟨Proc.ofExcept r, .push (.result t next) k, w₂⟩ →
      w₂.host.depth = w₁.host.depth) ∧
    (m.stack.isTop = true → m.world.host.depth = 0) ∧
    ∀ {α β : Type} (part : Proc α) (next : α → Proc β) (k : Stack γ β) (w₁ : World),
      m = ⟨.inside .evaluation part next, k, w₁⟩ →
      m.next =
        if k.evaluations < maxDepth then
          some ⟨part, .push (.scope .leaveEvaluation next) k, w₁.deeper⟩
        else some ⟨.stop (.failure (.signal .nestingTooDeep)), k, w₁⟩ := by
  have hstart : IsBalanced 0 (⟨p, .top, w⟩ : Moment γ) := hidle
  have hm : m.IsBalanced 0 := hstart.becomes h
  refine ⟨⟨hm.trans (Nat.zero_add _), h.depth_le (hidle.trans_le (Nat.zero_le _))⟩, ?_, ?_, ?_⟩
  · rintro α β t next k w₁ w₂ r rfl hreturn
    -- what waits for the task has started no evaluation by waiting
    have hback := hm.becomes hreturn
    calc w₂.host.depth = 0 + (0 + k.evaluations) := hback
      _ = 0 + k.evaluations := Nat.zero_add _
      _ = w₁.host.depth := Eq.symm hm
  · intro htop
    have hnone : m.stack.evaluations = 0 := Stack.evaluations_of_isTop htop
    exact (show m.world.host.depth = 0 + m.stack.evaluations from hm).trans (by rw [hnone])
  · rintro α β part next k w₁ rfl
    exact hm.next_evaluation

/-- A session in which an evaluation fails inside of another one, and then one succeeds. -/
def failingEvaluation : Moment (List (Except Failure Answer × List Answer)) :=
  Transcript.start .standard
    [.mk (.runSource "(car (car 5))") none false, .mk (.runSource "7") none false]

/-- Three evaluations are in progress when the innermost form is evaluated, none when the first
step has failed, and one when the second step evaluates its form. -/
theorem nesting_is_balanced_failure :
    (failingEvaluation.after 22).world.host.depth = 3 ∧
      (failingEvaluation.after 38).stack.isTop = true ∧
      (failingEvaluation.after 38).world.host.depth = 0 ∧
      (failingEvaluation.after 45).world.host.depth = 1 := by
  have hfacts : (failingEvaluation.after 22).stack.evaluations = 3 ∧
      (failingEvaluation.after 38).stack.isTop = true ∧
      (failingEvaluation.after 45).stack.evaluations = 1 := by
    rw [failingEvaluation, Transcript.start_eq]
    decide +kernel
  obtain ⟨hthree, htop, hone⟩ := hfacts
  have hidle : (World.initial .standard).host.depth = 0 := by
    rw [World.initial_eq]
    rfl
  obtain ⟨⟨hdepth, -⟩, -⟩ := nesting_is_balanced hidle (becomes_after failingEvaluation 22)
  obtain ⟨-, -, hzero, -⟩ := nesting_is_balanced hidle (becomes_after failingEvaluation 38)
  obtain ⟨⟨hagain, -⟩, -⟩ := nesting_is_balanced hidle (becomes_after failingEvaluation 45)
  exact ⟨hdepth.trans hthree, htop, hzero htop, hagain.trans hone⟩

end Moment

/-! ### Whole runs -/

/-- A run that gives a result or fails leaves as many evaluations in progress as there were. -/
theorem Proc.depth_run {r : Except Failure γ} (h : p.run w = (r.mapError .failure, w₁)) :
    w₁.host.depth = w.host.depth := by
  have hend : Moment.Becomes (⟨p, .top, w⟩ : Moment γ) ⟨ofExcept r, .top, w₁⟩ :=
    Relation.ReflTransGen.mono (fun _ _ hnext => .next hnext) _ _ (Moment.passes_of_run_eq h)
  exact (Moment.isBalanced_start p w).becomes hend

/-- So does a step at the top, whether it succeeds or fails. -/
theorem Transcript.depth_topStep {s : Step} {report : Except Failure Answer × List Answer}
    (h : (topStep s).run w = (.ok report, w₁)) : w₁.host.depth = w.host.depth :=
  Proc.depth_run (r := .ok report) h

end Crossing
