import Crossing.Proofs.Callbacks
import Crossing.Proofs.NestingLimit

/-!
# Bindings one after the other

A form that binds variables one after the other does what a nest of forms does that bind one
variable each. The nest evaluates its parts deeper, which counts for nothing below the nesting
limit, and it reads a form inside of it only when the variables before are bound. So what the
forms before have done to the form inside counts for the nest alone.

- `World.NestsInTurn`: nests whose forms still bind one variable each when they are read;
- `let_sequential_is_nested`: below the limit both end alike.
-/

namespace Crossing

open Proc

variable {w : World} {form head : Obj} {args : List Obj} {bindings : List (Addr × Obj)}
  {body : List Obj} {f : SpecialForm}

/-- A form binds the first variable, and inside of it another one the next, down to the body.
What is inside is read when its turn comes: the variable before it is bound then, and it is
evaluated one evaluation deeper. -/
def World.NestsInTurn (body : List Obj) : List (Addr × Obj) → Obj → World → Prop
  | [], _, _ => False
  | [b], form, w => w.host.heap.IsLet .letParallel form [b] body
  | b :: b' :: bindings, form, w =>
    ∃ inner, w.host.heap.IsLet .letParallel form [b] [inner] ∧
      ∀ o w₁, (Host.evaluate b.2).EndsIn w (.ok o) w₁ →
        NestsInTurn body (b' :: bindings) inner (w₁.bound [(b.1, o)]).deeper

namespace Host

/-- To bind one variable, its form is evaluated first. -/
theorem bindTogether_singleton (b : Addr × Obj) (body : List Obj) :
    bindTogether [b] body =
      evaluate b.2 >>= fun o => within (.binding [(b.1, o)]) (sequence body) := by
  simp [bindTogether]

/-- To bind variables one after the other is to evaluate a nest, but for the depth. -/
theorem mirrors_valueOf_nest (h : w.NestsInTurn body bindings form) :
    (bindOneByOne bindings body).Mirrors (valueOf form) w := by
  -- along the bindings; inside of the nest each is bound one evaluation deeper
  induction bindings generalizing form w with
  | nil => exact h.elim
  | cons b bindings ih =>
    cases bindings with
    | nil =>
      refine .asks_right (asks_valueOf_parallel h) ?_
      rw [bindTogether_singleton]
      exact .refl _ _
    | cons b' bindings =>
      obtain ⟨inner, houter, hinner⟩ := h
      refine .asks_right (asks_valueOf_parallel houter) ?_
      rw [bindTogether_singleton]
      refine .task fun o w₁ ho => ?_
      refine .within (w₁.enter_binding [(b.1, o)]) ?_
      rw [sequence_singleton]
      exact .perform_right (.evaluation_right (ih (hinner o w₁ (endsIn_perform_iff.mpr ho))))

/-- A number stands for itself. -/
theorem endsIn_evaluate_int (i : Fixnum) (hdepth : w.host.depth < maxDepth)
    {r : Except Failure Obj} {w₁ : World} (h : (evaluate (.int i)).EndsIn w r w₁) :
    r = .ok (.int i) ∧ w₁ = w := by
  have hvalue : (valueOf (.int i)).Asks w.deeper (ofExcept (.ok (.int i))) := asks_query_bind .refl
  obtain ⟨w₂, hend, rfl⟩ :=
    (endsIn_within_iff (World.enter_evaluation hdepth)).mp (endsIn_perform_iff.mp h)
  obtain ⟨rfl, rfl⟩ := endsIn_ended_iff.mp (hvalue.endsIn_iff.mp hend)
  exact ⟨rfl, rfl⟩

end Host

/-- Where the first variable is bound to a number, nothing comes between the two forms. -/
theorem World.nestsInTurn_int {a : Addr} {i : Fixnum} {b : Addr × Obj} {inner : Obj}
    (hdepth : w.deeper.host.depth < maxDepth)
    (houter : w.host.heap.IsLet .letParallel form [(a, .int i)] [inner])
    (hinner : (w.bound [(a, .int i)]).host.heap.IsLet .letParallel inner [b] body) :
    w.deeper.NestsInTurn body [(a, .int i), b] form := by
  refine ⟨inner, houter, fun o w₁ ho => ?_⟩
  obtain ⟨hvalue, rfl⟩ := Host.endsIn_evaluate_int i hdepth ho
  cases hvalue
  exact hinner

/-- Below the nesting limit, a form that binds variables one after the other does what the nest
does that has the same forms for the variables and the same body: it gives the same result or
the same failure and leaves the same world. Each form of the nest still has to bind its variable
when it is its turn. -/
theorem let_sequential_is_nested {sequential nested : Obj}
    (hsequential : w.host.heap.IsLet .letSequential sequential bindings body)
    (hnested : w.deeper.NestsInTurn body bindings nested)
    (hlimit : (Host.evaluate nested).StaysBelowLimit w) :
    (Host.evaluate sequential).StaysBelowLimit w ∧
      ∀ r w₁, (Host.evaluate sequential).EndsIn w r w₁ ↔ (Host.evaluate nested).EndsIn w r w₁ := by
  have hvalue : (Host.valueOf sequential).Mirrors (Host.valueOf nested) w.deeper :=
    (Host.mirrors_valueOf_nest hnested).asks_left (Host.asks_valueOf_sequential hsequential)
  have hevaluate : (Host.evaluate sequential).Mirrors (Host.evaluate nested) w :=
    .perform hvalue.evaluation
  exact hevaluate hlimit

/-- The world after source has been evaluated. -/
def World.afterText (source : String) : World :=
  ((Host.evaluateText source).run (.initial .standard)).2

/-- A world with a form that binds two variables one after the other, and the nest. -/
def nestWorld : World :=
  .afterText "'((let* ((x 1) (y x)) x y) (let ((x 1)) (let ((y x)) x y)))"

/-- The nest has a value, and so the form has the same. -/
theorem let_sequential_is_nested_pair :
    (Host.evaluate (.ref 169)).StaysBelowLimit nestWorld ∧
      (∀ r w₁, (Host.evaluate (.ref 169)).EndsIn nestWorld r w₁ ↔
        (Host.evaluate (.ref 183)).EndsIn nestWorld r w₁) ∧
      ∃ w₁, (Host.evaluate (.ref 183)).EndsIn nestWorld (.ok (.int (.ofNat 1))) w₁ := by
  have hfacts : nestWorld.deeper.host.depth < maxDepth ∧
      (⟨Host.evaluate (.ref 183), .top, nestWorld⟩ : Moment Obj).endsBelowLimit 100 = true ∧
      ((Host.evaluate (.ref 183)).run nestWorld).1.toOption = some (.int (.ofNat 1)) ∧
      nestWorld.host.heap.IsLet .letSequential (.ref 169)
        [(158, .int (.ofNat 1)), (161, .ref 158)] [.ref 158, .ref 161] ∧
      nestWorld.host.heap.IsLet .letParallel (.ref 183) [(158, .int (.ofNat 1))] [.ref 180] ∧
      (nestWorld.bound [(158, .int (.ofNat 1))]).host.heap.IsLet .letParallel
        (.ref 180) [(161, .ref 158)] [.ref 158, .ref 161] := by
    rw [nestWorld, World.afterText, World.initial_eq]
    decide +kernel
  obtain ⟨hdepth, hlimit, hvalue, hsequential, houter, hinner⟩ := hfacts
  obtain ⟨hbelow, hends⟩ := let_sequential_is_nested hsequential
    (World.nestsInTurn_int hdepth houter hinner)
    (Moment.staysBelowLimit_of_endsBelowLimit 100 hlimit)
  exact ⟨hbelow, hends, exists_endsIn_of_run hvalue⟩

/-- A world with a form that binds two variables one after the other, and a nest of the same
parts whose outer form changes what the inner one binds. -/
def changingWorld : World := .afterText
  ("(list (setq n '(let ((x (setcar (nth 1 (nth 2 n)) '(y 2)))) (let ((y 1)) y))) " ++
    "'let* (list (car (nth 1 n)) '(y 1)) 'y)")

/-- The form and the nest are made of the same parts and stay below the limit, but their values
differ. -/
theorem changed_nest_ends_otherwise :
    changingWorld.host.heap.IsLet .letSequential (.ref 218)
        [(160, .ref 174), (167, .int (.ofNat 1))] [.ref 167] ∧
      changingWorld.host.heap.IsLet .letParallel (.ref 186) [(160, .ref 174)] [.ref 183] ∧
      changingWorld.host.heap.IsLet .letParallel (.ref 183) [(167, .int (.ofNat 1))]
        [.ref 167] ∧
      (Host.evaluate (.ref 218)).StaysBelowLimit changingWorld ∧
      (Host.evaluate (.ref 186)).StaysBelowLimit changingWorld ∧
      (∃ w₁, (Host.evaluate (.ref 218)).EndsIn changingWorld (.ok (.int (.ofNat 1))) w₁) ∧
      ∃ w₁, (Host.evaluate (.ref 186)).EndsIn changingWorld (.ok (.int (.ofNat 2))) w₁ := by
  have hfacts : changingWorld.host.heap.IsLet .letSequential (.ref 218)
        [(160, .ref 174), (167, .int (.ofNat 1))] [.ref 167] ∧
      changingWorld.host.heap.IsLet .letParallel (.ref 186) [(160, .ref 174)] [.ref 183] ∧
      changingWorld.host.heap.IsLet .letParallel (.ref 183) [(167, .int (.ofNat 1))]
        [.ref 167] ∧
      ∀ c ∈ [(218, 1), (186, 2)],
        (⟨Host.evaluate (.ref c.1), .top, changingWorld⟩ : Moment Obj).endsBelowLimit 100 = true ∧
        ((Host.evaluate (.ref c.1)).run changingWorld).1.toOption = some (.int (.ofNat c.2)) := by
    rw [changingWorld, World.afterText, World.initial_eq]
    decide +kernel
  obtain ⟨hsequential, houter, hinner, hruns⟩ := hfacts
  obtain ⟨hform, hone⟩ := hruns (218, 1) (by decide)
  obtain ⟨hnest, htwo⟩ := hruns (186, 2) (by decide)
  exact ⟨hsequential, houter, hinner, Moment.staysBelowLimit_of_endsBelowLimit 100 hform,
    Moment.staysBelowLimit_of_endsBelowLimit 100 hnest, exists_endsIn_of_run hone,
    exists_endsIn_of_run htwo⟩

end Crossing
