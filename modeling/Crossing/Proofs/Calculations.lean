import Crossing.Proofs.Comparisons

/-!
# Calculations with integers

The host calculates with integers from left to right. The result is exact if every result on the
way is a fixnum and nothing is divided by zero, and otherwise an error is signalled, but for one
case: the quotient of the least fixnum and minus one stops the whole run.

- `Calculation`: the builtins that calculate, as operations on integers;
- `Calculation.Fits`, `Calculation.Traps`: when there is a result, and when the run stops;
- `Number.foldlM_combine`, `Number.foldlM_divide`: a calculation step by step;
- `integer_arithmetic_is_exact`: the result, the error or the stop of every calculation.
-/

namespace Crossing

open Proc

/-! ### Calculations -/

/-- A calculation with numbers. -/
inductive Calculation where
  | sum | product | difference | successor | quotient
deriving DecidableEq

/-- An integer is a fixnum. -/
def Fixnum.InRange (i : Int) : Prop := -9223372036854775808 ≤ i ∧ i ≤ 9223372036854775807

instance (i : Int) : Decidable (Fixnum.InRange i) := inferInstanceAs (Decidable (_ ∧ _))

/-- Every result is a fixnum as operands are taken from left to right. -/
def FitsFrom (op : Int → Int → Int) : Int → List Int → Prop
  | _, [] => True
  | a, x :: xs => Fixnum.InRange (op a x) ∧ FitsFrom op (op a x) xs

/-- A quotient on the way is the least fixnum, and it is to be divided by minus one. -/
def TrapsFrom (a : Int) (xs : List Int) : Prop :=
  ∃ ys zs, xs = ys ++ -1 :: zs ∧ 0 ∉ ys ∧ ys.foldl Int.tdiv a = -9223372036854775808

namespace Calculation

/-- The builtin that makes a calculation. -/
def builtin : Calculation → Builtin
  | .sum => .add
  | .product => .multiply
  | .difference => .subtract
  | .successor => .increment
  | .quotient => .divide

/-- What is done with the result so far and the next operand. -/
def operation : Calculation → Int → Int → Int
  | .sum | .successor => (· + ·)
  | .product => (· * ·)
  | .difference => (· - ·)
  | .quotient => Int.tdiv

/-- Where a calculation starts, and the operands that are left. -/
def parts : Calculation → List Int → Int × List Int
  | .sum, xs => (0, xs)
  | .product, xs => (1, xs)
  | .difference, [x] => (0, [x])
  | .difference, xs => (xs.headD 0, xs.tail)
  | .successor, xs => (xs.headD 0, [1])
  | .quotient, xs => (xs.headD 0, xs.tail)

/-- The result as an integer. -/
def exact (c : Calculation) (xs : List Int) : Int :=
  (c.parts xs).2.foldl c.operation (c.parts xs).1

/-- Every result on the way is a fixnum, and nothing is divided by zero. -/
def Fits (c : Calculation) (xs : List Int) : Prop :=
  FitsFrom c.operation (c.parts xs).1 (c.parts xs).2 ∧ (c = .quotient → 0 ∉ (c.parts xs).2)

/-- The calculation comes to divide the least fixnum by minus one. -/
def Traps (c : Calculation) (xs : List Int) : Prop :=
  c = .quotient ∧ TrapsFrom (c.parts xs).1 (c.parts xs).2

end Calculation

/-! ### One operand after the other -/

namespace Fixnum

/-- An integer in range is a fixnum. -/
theorem exists_ofInt? {i : Int} (h : InRange i) : ∃ r : Fixnum, ofInt? i = some r ∧ r.val = i :=
  ⟨⟨i, h⟩, dif_pos h, rfl⟩

/-- An integer out of range is no fixnum. -/
theorem ofInt?_eq_none {i : Int} (h : ¬InRange i) : ofInt? i = none := dif_neg h

/-- The quotient of fixnums is a fixnum, but for one case. -/
theorem inRange_tdiv_iff {i j : Fixnum} (hj : j.val ≠ 0) :
    InRange (i.val.tdiv j.val) ↔ ¬(i.val = -9223372036854775808 ∧ j.val = -1) := by
  obtain ⟨x, hx⟩ := i
  obtain ⟨y, hy⟩ := j
  dsimp only at *
  by_cases hone : y = -1
  · subst hone
    rw [Int.tdiv_neg, Int.tdiv_one, InRange]
    omega
  · refine iff_of_true ?_ fun h => hone h.2
    have habs : (x.tdiv y).natAbs = x.natAbs / y.natAbs := Int.natAbs_tdiv x y
    by_cases hy1 : y = 1
    · rw [hy1, Int.tdiv_one]
      exact hx
    · have hle : x.natAbs / y.natAbs ≤ x.natAbs / 2 := Nat.div_le_div_left (by omega) (by omega)
      rw [InRange]
      omega

end Fixnum

namespace Number

/-- Integers are combined exactly. -/
theorem combine_int (h : Heap) (op : Operation) (a j : Fixnum) :
    combine h op (.int a) (.int j) = Number.exact (op.onInts a.val j.val) j := rfl

/-- Operations on integers give the exact result, or overflow. -/
theorem foldlM_combine (h : Heap) (op : Operation) (a : Fixnum) (xs : List Fixnum) :
    (FitsFrom op.onInts a.val (xs.map (·.val)) → ∃ r : Fixnum,
      r.val = (xs.map (·.val)).foldl op.onInts a.val ∧
        (xs.map Obj.int).foldlM (combine h op) (.int a) = .ok (.int r)) ∧
    (¬FitsFrom op.onInts a.val (xs.map (·.val)) → ∃ text,
      (xs.map Obj.int).foldlM (combine h op) (.int a) = .error (.overflow text)) := by
  induction xs generalizing a with
  | nil => exact ⟨fun _ => ⟨a, rfl, rfl⟩, fun hnot => absurd trivial hnot⟩
  | cons j xs ih =>
    simp only [List.map_cons, List.foldlM_cons, List.foldl_cons, FitsFrom, combine_int]
    by_cases hfits : Fixnum.InRange (op.onInts a.val j.val)
    · obtain ⟨r, hr, hval⟩ := Fixnum.exists_ofInt? hfits
      have hstep : Number.exact (op.onInts a.val j.val) j = .ok (.int r) := by
        rw [Number.exact, hr]
      rw [hstep, ← hval]
      exact ⟨fun hrest => (ih r).1 hrest.2,
        fun hnot => (ih r).2 fun hrest => hnot ⟨r.inRange, hrest⟩⟩
    · refine ⟨fun h => absurd h.1 hfits, fun _ => ⟨j.text, ?_⟩⟩
      rw [Number.exact, Fixnum.ofInt?_eq_none hfits]
      rfl

end Number

/-- Divisions trap at the first step or later. -/
theorem trapsFrom_cons {a x : Int} {xs : List Int} :
    TrapsFrom a (x :: xs) ↔
      a = -9223372036854775808 ∧ x = -1 ∨ x ≠ 0 ∧ TrapsFrom (a.tdiv x) xs := by
  constructor
  · rintro ⟨ys, zs, hsplit, hzero, hfold⟩
    cases ys with
    | nil =>
      obtain ⟨rfl, -⟩ := List.cons.inj hsplit
      exact .inl ⟨hfold, rfl⟩
    | cons y ys =>
      obtain ⟨rfl, hrest⟩ := List.cons.inj hsplit
      rw [List.mem_cons, not_or] at hzero
      exact .inr ⟨fun h => hzero.1 h.symm, ys, zs, hrest, hzero.2, hfold⟩
  · rintro (⟨rfl, rfl⟩ | ⟨hx, ys, zs, rfl, hzero, hfold⟩)
    · exact ⟨[], xs, rfl, List.not_mem_nil, rfl⟩
    · refine ⟨x :: ys, zs, rfl, ?_, hfold⟩
      rw [List.mem_cons, not_or]
      exact ⟨fun h => hx h.symm, hzero⟩

/-- Without a divisor nothing traps. -/
theorem not_trapsFrom_nil {a : Int} : ¬TrapsFrom a [] := by
  rintro ⟨ys, zs, hsplit, -⟩
  exact List.append_ne_nil_of_right_ne_nil ys (List.cons_ne_nil _ zs) hsplit.symm

namespace Number

theorem divide_int (h : Heap) (a j : Fixnum) :
    divide h (.int a) (.int j) = divideInts a j := rfl

/-- Divisions give the exact quotient, fail, or stop the run. -/
theorem foldlM_divide (h : Heap) (a : Fixnum) (xs : List Fixnum) :
    (FitsFrom Int.tdiv a.val (xs.map (·.val)) ∧ 0 ∉ xs.map (·.val) → ∃ r : Fixnum,
      r.val = (xs.map (·.val)).foldl Int.tdiv a.val ∧
        (xs.map Obj.int).foldlM (divide h) (.int a) = .ok (.int r)) ∧
    (TrapsFrom a.val (xs.map (·.val)) →
      (xs.map Obj.int).foldlM (divide h) (.int a) = .error .trap) ∧
    (¬(FitsFrom Int.tdiv a.val (xs.map (·.val)) ∧ 0 ∉ xs.map (·.val)) →
      ¬TrapsFrom a.val (xs.map (·.val)) →
        (xs.map Obj.int).foldlM (divide h) (.int a) =
          .error (.failure (.signal .divisionByZero))) := by
  -- the induction is on the divisors, with what was divided so far as the first argument
  induction xs generalizing a with
  | nil =>
    exact ⟨fun _ => ⟨a, rfl, rfl⟩, fun h => absurd h not_trapsFrom_nil,
      fun hnot => absurd ⟨trivial, List.not_mem_nil⟩ hnot⟩
  | cons j xs ih =>
    simp only [List.map_cons, List.foldlM_cons, List.foldl_cons, FitsFrom, divide_int,
      trapsFrom_cons, List.mem_cons, not_or]
    -- a division by zero fails at once, whatever comes after
    by_cases hzero : j.val = 0
    · have hstep : divideInts a j = .error (.failure (.signal .divisionByZero)) := if_pos hzero
      rw [hstep]
      refine ⟨fun h => absurd hzero.symm h.2.1, fun h => ?_, fun _ _ => rfl⟩
      omega
    -- the quotient overflows only for the least integer by minus one
    obtain hfits | htrap := em (Fixnum.InRange (a.val.tdiv j.val))
    · have hleast := (Fixnum.inRange_tdiv_iff hzero).mp hfits
      obtain ⟨r, hr, hval⟩ := Fixnum.exists_ofInt? hfits
      have hstep : divideInts a j = .ok (.int r) := by
        rw [divideInts, if_neg hzero, hr]
      obtain ⟨hok, htraps, herror⟩ := ih r
      rw [hstep, ← hval]
      refine ⟨fun h => hok ⟨h.1.2, h.2.2⟩, fun h => htraps ?_, fun hnot htrap => herror ?_ ?_⟩
      · exact (h.resolve_left hleast).2
      · exact fun h => hnot ⟨⟨r.inRange, h.1⟩, fun h => hzero h.symm, h.2⟩
      · exact fun h => htrap.2 ⟨hzero, h⟩
    · have hleast := not_not.mp (mt (Fixnum.inRange_tdiv_iff hzero).mpr htrap)
      have hstep : divideInts a j = .error .trap := by
        rw [divideInts, if_neg hzero, Fixnum.ofInt?_eq_none htrap]
      rw [hstep]
      exact ⟨fun h => absurd h.1.1 htrap, fun _ => rfl, fun _ h => absurd hleast h.1⟩

end Number

/-! ### What the host answers -/

namespace Host

variable {w : World}

/-- A calculation gives its number, or its signal. -/
theorem gives_number {calculate : Heap → Except Signal Number} {r : Except Signal Number}
    (h : calculate w.host.heap = r) :
    (number calculate).Gives 0 w ((r.map Number.toObj).mapError .signal) w := by
  refine gives_query_bind ?_
  simp only [Query.ask, h]
  cases r with
  | ok n => exact gives_pure _
  | error s => exact gives_fail _

/-- A quotient is the number that the divisions come to. -/
theorem runWithin_quotient {o : Obj} {args : List Obj} {r : Except Stop Number}
    (h : Number.quotient w.host.heap o args = r) (n : Nat) :
    (quotient o args).runWithin n w = (r.map Number.toObj, w) := by
  have hask : ∀ f : Heap → Proc Obj,
      (heap >>= f).runWithin n w = (f w.host.heap).runWithin n w := fun _ => rfl
  rw [quotient, hask, h]
  cases r <;> rfl

end Host

namespace Calculation

variable {c : Calculation} {xs : List Fixnum}

/-- Each calculation but division combines operands one after the other. -/
theorem exists_compute_eq (hc : c ≠ .quotient) (haccepts : c.builtin.accepts xs.length = true) :
    ∃ (op : Number.Operation) (a : Fixnum) (ys : List Fixnum), op.onInts = c.operation ∧
      c.parts (xs.map (·.val)) = (a.val, ys.map (·.val)) ∧
      c.builtin.compute (xs.map .int) =
        Host.number fun h => (ys.map Obj.int).foldlM (Number.combine h op) (.int a) := by
  -- sums and products begin with their neutral element, the others with the first argument
  cases c with
  | sum => exact ⟨Number.addition, .zero, xs, rfl, rfl, rfl⟩
  | product => exact ⟨Number.multiplication, .one, xs, rfl, rfl, rfl⟩
  | difference =>
    obtain _ | ⟨x, _ | ⟨y, ys⟩⟩ := xs
    · exact ⟨Number.subtraction, .zero, [], rfl, rfl, rfl⟩
    · exact ⟨Number.subtraction, .zero, [x], rfl, rfl, rfl⟩
    · exact ⟨Number.subtraction, x, y :: ys, rfl, rfl, rfl⟩
  | successor =>
    obtain _ | ⟨x, _ | ⟨y, ys⟩⟩ := xs
    · cases haccepts
    · refine ⟨Number.addition, x, [.one], rfl, rfl, congrArg Host.number (funext fun h => ?_)⟩
      change [Obj.int x, .int .one].foldlM (Number.combine h Number.addition) (.int .zero) = _
      -- one argument is added to the neutral element first
      have hfirst : Number.combine h Number.addition (.int .zero) (.int x) = .ok (.int x) := by
        have hsum : Fixnum.ofInt? (Number.addition.onInts Fixnum.zero.val x.val) = some x := by
          change Fixnum.ofInt? (0 + x.val) = _
          rw [Int.zero_add, Fixnum.ofInt?_val]
        rw [Number.combine_int, Number.exact, hsum]
      rw [List.foldlM_cons, hfirst]
      rfl
    · cases haccepts
  | quotient => exact absurd rfl hc

end Calculation

/-- A calculation with integers gives the exact result of taking operands from left to right, if
every result on the way is a fixnum and nothing is divided by zero. Otherwise it fails, by
overflow or because of the division, unless it comes to divide the least fixnum by minus one:
then the whole run stops. -/
theorem integer_arithmetic_is_exact (c : Calculation) {xs : List Fixnum}
    (haccepts : c.builtin.accepts xs.length = true) (w : World) :
    (c.Fits (xs.map (·.val)) → ∃ r : Fixnum, r.val = c.exact (xs.map (·.val)) ∧
      (c.builtin.run (xs.map .int)).Gives 0 w (.ok (.int r)) w) ∧
    (¬c.Fits (xs.map (·.val)) → ¬c.Traps (xs.map (·.val)) → ∃ s : Signal,
      (s.symbol = "overflow-error" ∨ s.symbol = "arith-error") ∧
        (c.builtin.run (xs.map .int)).Gives 0 w (.error (.signal s)) w) ∧
    (c.Traps (xs.map (·.val)) →
      ∀ n, (c.builtin.run (xs.map .int)).runWithin n w = (.error .trap, w)) := by
  have hlength : c.builtin.accepts (xs.map Obj.int).length = true := by rwa [List.length_map]
  rw [Builtin.run, if_pos hlength]
  -- division is apart, since it alone can trap
  by_cases hc : c = .quotient
  · subst hc
    obtain _ | ⟨x, ys⟩ := xs
    · cases haccepts
    have hcompute : Calculation.quotient.builtin.compute ((x :: ys).map .int) =
        Host.quotient (.int x) (ys.map .int) := rfl
    have hquotient : ∀ h, Number.quotient h (.int x) (ys.map .int) =
        (ys.map Obj.int).foldlM (Number.divide h) (.int x) := fun _ => rfl
    have hstep := Number.foldlM_divide w.host.heap x ys
    rw [hcompute]
    refine ⟨fun h => ?_, fun hfits htraps => ?_, fun h n => ?_⟩
    · obtain ⟨r, hr, hfold⟩ := hstep.1 ⟨h.1, h.2 rfl⟩
      exact ⟨r, hr, fun n _ => Host.runWithin_quotient ((hquotient _).trans hfold) n⟩
    · have hfold := hstep.2.2 (fun h => hfits ⟨h.1, fun _ => h.2⟩) fun h => htraps ⟨rfl, h⟩
      exact ⟨.divisionByZero, .inr rfl,
        fun n _ => Host.runWithin_quotient ((hquotient _).trans hfold) n⟩
    · exact Host.runWithin_quotient ((hquotient _).trans (hstep.2.1 h.2)) n
  · obtain ⟨op, a, ys, hop, hparts, hcompute⟩ := c.exists_compute_eq hc haccepts
    have hstep := Number.foldlM_combine w.host.heap op a ys
    rw [hop] at hstep
    rw [hcompute, Calculation.Fits, Calculation.exact, hparts]
    refine ⟨fun h => ?_, fun hfits _ => ?_, fun h => absurd h.1 hc⟩
    · obtain ⟨r, hr, hfold⟩ := hstep.1 h.1
      exact ⟨r, hr, Host.gives_number (r := .ok (.int r)) hfold⟩
    · obtain ⟨text, hfold⟩ := hstep.2 fun h => hfits ⟨h, fun h => absurd h hc⟩
      exact ⟨.overflow text, .inl rfl,
        Host.gives_number (r := .error (.overflow text)) hfold⟩

/-- A product that is the least fixnum. -/
theorem integer_arithmetic_is_exact_least :
    Calculation.product.builtin.accepts
        ([⟨4611686018427387904, by decide⟩, ⟨-2, by decide⟩] : List Fixnum).length = true ∧
      ∃ r : Fixnum, r.val = -9223372036854775808 ∧
        (Builtin.multiply.run [.int ⟨4611686018427387904, by decide⟩,
          .int ⟨-2, by decide⟩]).Gives 0 (.initial .standard) (.ok (.int r))
            (.initial .standard) := by
  have haccepts : Calculation.product.builtin.accepts
      ([⟨4611686018427387904, by decide⟩, ⟨-2, by decide⟩] : List Fixnum).length = true := rfl
  refine ⟨rfl, (integer_arithmetic_is_exact .product haccepts (.initial .standard)).1
    ⟨⟨?_, ?_, trivial⟩, nofun⟩⟩ <;>
  decide

/-- Whether a run has stopped for good. -/
def Stop.isTrap : Stop → Bool
  | .trap => true
  | _ => false

/-- The quotient of two integers stops the run, although it could overflow like a product. -/
theorem Transcript.division_stops_the_run :
    ((Transcript.ofSources ["(/ -9223372036854775808 -1)"]).results.map fun r =>
        match r with
        | .error s => s.isTrap
        | .ok _ => false) = [true] ∧
      (Transcript.ofSources ["(* -9223372036854775808 -1)"]).results.map (fun r =>
        match r with
        | .error (.failure e) => some e.message
        | _ => none) = [some "Host error (overflow-error): -1"] := by
  rw [ofSources_eq, ofSources_eq]
  decide +kernel

end Crossing
