import Crossing.Proofs.Results
import Crossing.Proofs.RoundedIntegers
import Crossing.Proofs.Start

/-!
# Comparisons of integers

The host compares integers as the nearest doubles. The answer is that of the integers rounded to
53 bits, and it is the exact one unless neighbours are mistaken for equal.

- `Comparison`: the five comparisons, as builtins and as relations between integers;
- `Comparison.gives_run`: what a comparison of integers gives;
- `integers_compare_as_rounded`: that, and when it is the exact answer.
-/

namespace Crossing

open Proc

/-! ### The comparisons -/

/-- A comparison of numbers. -/
inductive Comparison where
  | equal | less | greater | lessEq | greaterEq

namespace Comparison

variable {c : Comparison} {i j : Fixnum} {xs : List Fixnum}

/-- The builtin that makes a comparison. -/
def builtin : Comparison → Builtin
  | .equal => .numEq
  | .less => .less
  | .greater => .greater
  | .lessEq => .lessEq
  | .greaterEq => .greaterEq

/-- How neighbours have to stand to each other as integers. -/
def Relates : Comparison → Int → Int → Prop
  | .equal => (· = ·)
  | .less => (· < ·)
  | .greater => (· > ·)
  | .lessEq => (· ≤ ·)
  | .greaterEq => (· ≥ ·)

instance (c : Comparison) (x y : Int) : Decidable (c.Relates x y) :=
  match c with
  | .equal => inferInstanceAs (Decidable (x = y))
  | .less => inferInstanceAs (Decidable (x < y))
  | .greater => inferInstanceAs (Decidable (x > y))
  | .lessEq => inferInstanceAs (Decidable (x ≤ y))
  | .greaterEq => inferInstanceAs (Decidable (x ≥ y))

/-- The comparison of fixnums as the integers that they are. -/
def Holds (c : Comparison) (i j : Fixnum) : Prop := c.Relates i.val j.val

/-- The comparison of fixnums as rounded integers. -/
def Computes (c : Comparison) (i j : Fixnum) : Prop := c.Relates i.rounded j.rounded

instance (c : Comparison) : DecidableRel c.Holds :=
  fun i j => inferInstanceAs (Decidable (c.Relates i.val j.val))

instance (c : Comparison) : DecidableRel c.Computes :=
  fun i j => inferInstanceAs (Decidable (c.Relates i.rounded j.rounded))

/-- Whether equal integers are not related. -/
def isStrict : Comparison → Bool
  | .less | .greater => true
  | .equal | .lessEq | .greaterEq => false

/-- Fixnums are taken for equal, and the comparison does not treat them like equal ones. -/
def Mistakes (c : Comparison) (i j : Fixnum) : Prop :=
  i.rounded = j.rounded ∧ ¬(c.Holds i j ↔ c.Holds i i)

/-! ### Two integers -/

/-- Rounding goes wrong exactly where integers are mistaken. -/
theorem computes_iff_holds : (c.Computes i j ↔ c.Holds i j) ↔ ¬c.Mistakes i j := by
  have hmono : i.val ≤ j.val → i.rounded ≤ j.rounded := Fixnum.rounded_le_rounded
  have hmono' : j.val ≤ i.val → j.rounded ≤ i.rounded := Fixnum.rounded_le_rounded
  have heq : i.val = j.val → i.rounded = j.rounded := fun h => by
    rw [Fixnum.rounded, Fixnum.rounded, h]
  unfold Mistakes Computes Holds
  cases c <;> simp only [Relates, gt_iff_lt, ge_iff_le] <;> grind

/-- Of integers that are mistaken, a comparison holds just if it is strict. -/
theorem Mistakes.holds_iff (h : c.Mistakes i j) : c.Holds i j ↔ c.isStrict = true := by
  obtain ⟨-, hne⟩ := h
  unfold Holds at *
  cases c <;> simp only [Relates, isStrict] at * <;> grind

/-- Of integers that are mistaken, a comparison computes truth just if it is not strict. -/
theorem Mistakes.computes_iff (h : c.Mistakes i j) : c.Computes i j ↔ c.isStrict = false := by
  rw [Computes, h.1]
  cases c <;> simp [Relates, isStrict]

/-- No integers up to `2 ^ 53` are mistaken. -/
theorem Mistakes.large (h : c.Mistakes i j) : 2 ^ 53 < i.val.natAbs ∨ 2 ^ 53 < j.val.natAbs := by
  by_contra hsmall
  rw [not_or, Nat.not_lt, Nat.not_lt] at hsmall
  obtain ⟨hrounded, hne⟩ := h
  rw [Fixnum.rounded_eq_val hsmall.1, Fixnum.rounded_eq_val hsmall.2] at hrounded
  exact hne (by rw [Holds, Holds, hrounded])

/-! ### Lists -/

/-- The exact answer is given unless there are neighbours that are mistaken and all others are
related. -/
theorem isChain_computes_iff : (xs.IsChain c.Computes ↔ xs.IsChain c.Holds) ↔
    xs.IsChain (fun i j => ¬c.Mistakes i j) ∨
      ¬xs.IsChain fun i j => c.Holds i j ∨ c.Mistakes i j := by
  -- a chain of what is computed is a chain of what holds or is mistaken
  have hwider : xs.IsChain c.Computes → xs.IsChain fun i j => c.Holds i j ∨ c.Mistakes i j :=
    fun h => h.imp fun i j hij => by
      have := computes_iff_holds (c := c) (i := i) (j := j)
      tauto
  have hwider' : xs.IsChain c.Holds → xs.IsChain fun i j => c.Holds i j ∨ c.Mistakes i j :=
    fun h => h.imp fun _ _ => .inl
  constructor
  · intro hagree
    by_contra hwrong
    rw [not_or, not_not] at hwrong
    obtain ⟨hmistaken, hall⟩ := hwrong
    -- strict comparisons are mistaken one way only, and the others the other way
    cases hstrict : c.isStrict with
    | true =>
      have hholds : xs.IsChain c.Holds := hall.imp fun i j h =>
        h.elim id fun h => h.holds_iff.mpr hstrict
      refine hmistaken ((hagree.mpr hholds).imp fun i j h hm => ?_)
      rw [hm.computes_iff, hstrict] at h
      cases h
    | false =>
      have hcomputes : xs.IsChain c.Computes := hall.imp fun i j h => by
        -- a mistaken link computes what the claim of the link excludes
        by_cases hm : c.Mistakes i j
        · exact hm.computes_iff.mpr hstrict
        · exact (computes_iff_holds.mpr hm).mpr (h.resolve_right hm)
      refine hmistaken ((hagree.mp hcomputes).imp fun i j h hm => ?_)
      rw [hm.holds_iff, hstrict] at h
      cases h
  · rintro (hexact | hnone)
    · rw [List.isChain_iff_getElem] at hexact ⊢
      rw [List.isChain_iff_getElem]
      exact forall₂_congr fun n hn => computes_iff_holds.mpr (hexact n hn)
    · exact ⟨fun h => absurd (hwider h) hnone, fun h => absurd (hwider' h) hnone⟩

/-- What the host does with doubles. -/
def test : Comparison → Float → Float → Bool
  | .equal => fun x y => x == y
  | .less => fun x y => decide (x < y)
  | .greater => fun x y => decide (x > y)
  | .lessEq => fun x y => decide (x ≤ y)
  | .greaterEq => fun x y => decide (x ≥ y)

/-- The test on doubles is the comparison of the rounded integers. -/
theorem test_toFloat : c.test i.toFloat j.toFloat = decide (c.Computes i j) := by
  rw [Bool.eq_iff_iff, decide_eq_true_iff]
  cases c with
  | equal => exact Fixnum.toFloat_beq_toFloat
  | less => exact decide_eq_true_iff.trans Fixnum.toFloat_lt_toFloat
  | greater => exact decide_eq_true_iff.trans Fixnum.toFloat_lt_toFloat
  | lessEq => exact decide_eq_true_iff.trans Fixnum.toFloat_le_toFloat
  | greaterEq => exact decide_eq_true_iff.trans Fixnum.toFloat_le_toFloat

/-- A chain is tested link by link. -/
theorem isChain_test :
    Number.isChain c.test (xs.map .int) = decide (xs.IsChain c.Computes) := by
  induction xs with
  | nil => rfl
  | cons i xs ih =>
    cases xs with
    | nil => rfl
    | cons j xs =>
      rw [List.map_cons, List.map_cons, Number.isChain]
      change (c.test i.toFloat j.toFloat && Number.isChain c.test ((j :: xs).map .int)) = _
      rw [ih, test_toFloat, ← Bool.decide_and]
      exact decide_eq_decide.mpr List.isChain_cons_cons.symm

end Comparison

/-! ### What the host answers -/

/-- Truth or `nil`, as the host has them. -/
def World.flag (w : World) (b : Bool) : Obj := if b then (w.host.intern truthName).1 else .nil

/-- The host gives the flag for a truth value. -/
theorem Host.exists_gives_ofFlag (b : Bool) (w : World) :
    ∃ w₁, (ofFlag b).Gives 0 w (.ok (w.flag b)) w₁ := by
  cases b with
  | false => exact ⟨w, gives_pure _⟩
  | true => exact ⟨_, gives_change _⟩

/-- Fixnums are numbers. -/
theorem Number.mapM_ofObj (h : Heap) (xs : List Fixnum) :
    (xs.map Obj.int).mapM (Number.ofObj h) = .ok (xs.map .int) := by
  induction xs with
  | nil => rfl
  | cons i xs ih =>
    rw [List.map_cons, List.mapM_cons, ih]
    rfl

namespace Comparison

variable {c : Comparison} {xs : List Fixnum}

/-- A comparison is what the host runs for its name. -/
theorem compute_builtin (c : Comparison) (args : List Obj) :
    c.builtin.compute args = Host.compare c.test args := by
  cases c <;> rfl

/-- A comparison of fixnums tells whether neighbours are related once they are rounded. -/
theorem exists_gives_run (c : Comparison) (hxs : xs ≠ []) (w : World) :
    ∃ w₁, (c.builtin.run (xs.map .int)).Gives 0 w
      (.ok (w.flag (decide (xs.IsChain c.Computes)))) w₁ := by
  have haccepts : c.builtin.accepts (xs.map Obj.int).length = true := by
    have hlength : 1 ≤ xs.length := List.length_pos_iff.mpr hxs
    cases c <;> simpa [builtin, Builtin.accepts, Builtin.range] using hlength
  obtain ⟨w₁, hflag⟩ := Host.exists_gives_ofFlag (decide (xs.IsChain c.Computes)) w
  refine ⟨w₁, ?_⟩
  rw [Builtin.run, if_pos haccepts, compute_builtin, Host.compare]
  refine gives_query_bind ?_
  rw [← isChain_test] at hflag ⊢
  rw [Number.mapM_ofObj]
  exact Gives.bind (gives_pure _) hflag

end Comparison

/-- The host compares integers after it has rounded them to 53 bits: it gives truth if every
two neighbours are related then. This is the exact answer unless there are neighbours that are
mistaken for equal, and all others are related. Up to `2 ^ 53` it always is. -/
theorem integers_compare_as_rounded (c : Comparison) {xs : List Fixnum} (hxs : xs ≠ [])
    (w : World) :
    (∃ w₁, (c.builtin.run (xs.map .int)).Gives 0 w
      (.ok (w.flag (decide (xs.IsChain c.Computes)))) w₁) ∧
    ((xs.IsChain c.Computes ↔ xs.IsChain c.Holds) ↔
      xs.IsChain (fun i j => ¬c.Mistakes i j) ∨
        ¬xs.IsChain fun i j => c.Holds i j ∨ c.Mistakes i j) ∧
    ((∀ i ∈ xs, i.val.natAbs ≤ 2 ^ 53) → (xs.IsChain c.Computes ↔ xs.IsChain c.Holds)) := by
  refine ⟨c.exists_gives_run hxs w, Comparison.isChain_computes_iff, fun hsmall => ?_⟩
  refine List.IsChain.iff_of_mem_imp fun i j hi hj => Comparison.computes_iff_holds.mpr fun h => ?_
  have hlarge := h.large
  have hi' := hsmall i hi
  have hj' := hsmall j hj
  omega

/-- Two integers beside `2 ^ 53`, of which the larger is rounded, are compared exactly. -/
theorem integers_compare_as_rounded_beside :
    ([⟨9007199254740991, by decide⟩, ⟨9007199254740993, by decide⟩] : List Fixnum) ≠ [] ∧
      ∃ w₁, (Builtin.less.run [.int ⟨9007199254740991, by decide⟩,
        .int ⟨9007199254740993, by decide⟩]).Gives 0 (.initial .standard)
        (.ok ((World.initial .standard).flag true)) w₁ := by
  have hne : ([⟨9007199254740991, by decide⟩, ⟨9007199254740993, by decide⟩] :
      List Fixnum) ≠ [] := nofun
  refine ⟨hne, ?_⟩
  obtain ⟨w₁, h⟩ := (integers_compare_as_rounded .less hne (.initial .standard)).1
  have hchain : decide (([⟨9007199254740991, by decide⟩, ⟨9007199254740993, by decide⟩] :
      List Fixnum).IsChain Comparison.less.Computes) = true := by decide +kernel
  rw [hchain] at h
  exact ⟨w₁, h⟩

/-- How the values of sources print. -/
def SourceReport.printed (r : SourceReport) : List (Option String) :=
  r.results.map fun o => o.toOption.map ObjectReport.printed

/-- Two integers that are not the same compare as equal, and neither of them is the smaller. -/
theorem Transcript.different_integers_compare_equal :
    (Transcript.ofSources ["(= 9007199254740993 9007199254740992)",
      "(eq 9007199254740993 9007199254740992)",
      "(< 9007199254740992 9007199254740993)"]).printed =
      [some "t", some "nil", some "nil"] := by
  rw [ofSources_eq]
  decide +kernel

end Crossing
