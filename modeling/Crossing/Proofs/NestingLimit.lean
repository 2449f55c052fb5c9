import Crossing.Proofs.Calls
import Crossing.Proofs.NamedCalls

/-!
# The nesting limit

How deep evaluations nest counts for nothing but the limit. A run that starts one evaluation
deeper does the same, and leaves the same world one evaluation deeper, as long as it never
comes to the limit.

- `World.atDepth`: the world with another number of evaluations in progress; nothing asks for
  the number, and what is done leaves it as it is, but for evaluations;
- `Stack.evaluations`: how many of the evaluations in progress a run itself has started;
- `Moment.IsBalanced.next`: what a run starts, it ends;
- `Moment.atLimit`: an evaluation is about to be refused;
- `Proc.EndsIn`, `Proc.StaysBelowLimit`: how a run ends, and runs that no evaluation is refused
  in, for tasks, scopes and evaluations;
- `Proc.endsIn_deeper_iff`: one evaluation deeper, a run ends alike.
-/

namespace Crossing

open Proc

variable {α β γ : Type} {w w₁ w₂ : World}

/-! ### Evaluations in progress -/

namespace World

/-- The world with a number of evaluations in progress. -/
def atDepth (w : World) (n : Nat) : World := { w with host := { w.host with depth := n } }

@[simp] theorem depth_atDepth (w : World) (n : Nat) : (w.atDepth n).host.depth = n := rfl

theorem deeper_eq (w : World) : w.deeper = w.atDepth (w.host.depth + 1) := rfl

/-- What does the same at every depth keeps the depth. -/
theorem depth_of_atDepth {f : World → World}
    (hf : f (w.atDepth w.host.depth) = (f w).atDepth w.host.depth) :
    (f w).host.depth = w.host.depth := by
  have hself : f w = (f w).atDepth w.host.depth := hf
  rw [hself, depth_atDepth]

theorem deeper_of_atDepth {f : World → World}
    (hf : ∀ n, f (w.atDepth n) = (f w).atDepth n) : f w.deeper = (f w).deeper := by
  rw [deeper_eq, hf, deeper_eq, depth_of_atDepth (hf _)]

theorem sweep_atDepth (w : World) (n : Nat) :
    (w.atDepth n).sweep = (w.sweep.1, w.sweep.2.atDepth n) := by
  have hbatch : (w.atDepth n).unreachable = w.unreachable := rfl
  cases hempty : w.unreachable.isEmpty <;> simp only [sweep, hbatch, hempty] <;> rfl

theorem adopt_atDepth (w : World) (id : ObjectId) (n : Nat) :
    (w.atDepth n).adopt id = ((w.adopt id).1, (w.adopt id).2.atDepth n) := by
  have hborder : (w.atDepth n).border = w.border := rfl
  simp only [adopt, hborder]
  cases w.border.record? id with
  | none => rfl
  | some t =>
    dsimp only
    by_cases hlive : w.isLive t.handle = true
    · have hlive' : (w.atDepth n).isLive t.handle = true := hlive
      rw [if_pos hlive, if_pos hlive']
      rfl
    · have hlive' : ¬(w.atDepth n).isLive t.handle = true := hlive
      rw [if_neg hlive, if_neg hlive']
      rfl

/-- Reviving a handle does not look at the depth. -/
theorem revive_atDepth (w : World) (cached : Option Handle) (n : Nat) :
    (w.atDepth n).revive cached = ((w.revive cached).1, (w.revive cached).2.atDepth n) := by
  cases cached with
  | none => rfl
  | some h =>
    by_cases hlive : w.isLive h = true
    · have hlive' : (w.atDepth n).isLive h = true := hlive
      rw [revive, revive, if_pos hlive, if_pos hlive']
      rfl
    · have hlive' : ¬(w.atDepth n).isLive h = true := hlive
      rw [revive, revive, if_neg hlive, if_neg hlive']

end World

namespace Interpreter

/-- The interpreter with a number of evaluations in progress. -/
def atDepth (i : Interpreter) (n : Nat) : Interpreter := { i with depth := n }

theorem intern_atDepth (i : Interpreter) (name : String) (n : Nat) :
    (i.atDepth n).intern name = ((i.intern name).1, (i.intern name).2.atDepth n) := by
  have hfind : (i.atDepth n).find? name = i.find? name := rfl
  unfold intern
  rw [hfind]
  split
  · rfl
  · cases i.find? name <;> rfl

/-- Finding or making a buffer does not look at the depth. -/
theorem ensureBuffer_atDepth (i : Interpreter) (name : String) (n : Nat) :
    (i.atDepth n).ensureBuffer name =
      ((i.ensureBuffer name).1, (i.ensureBuffer name).2.atDepth n) := by
  have hheap : (i.atDepth n).heap = i.heap := rfl
  simp only [ensureBuffer, hheap]
  cases i.heap.findBuffer? name <;> rfl

theorem retain_atDepth (i : Interpreter) (o : Obj) (n : Nat) :
    (i.atDepth n).retain o = ((i.retain o).1, (i.retain o).2.atDepth n) := by
  have hid : (i.atDepth n).idOf? o = i.idOf? o := rfl
  simp only [retain, hid]
  cases i.idOf? o <;> rfl

end Interpreter

/-- What is done to the host does the same at every depth, the world does it, too. -/
theorem World.onHost_atDepth {f : Interpreter → α × Interpreter} (w : World) (n : Nat)
    (hf : f (w.host.atDepth n) = ((f w.host).1, (f w.host).2.atDepth n)) :
    (w.atDepth n).onHost f = ((w.onHost f).1, (w.onHost f).2.atDepth n) := by
  have honHost : (w.atDepth n).onHost f =
      ((f (w.host.atDepth n)).1, { w with host := (f (w.host.atDepth n)).2 }) := rfl
  rw [honHost, hf]
  rfl

theorem Query.ask_deeper (q : Query α) (w : World) : q.ask w.deeper = q.ask w := by
  cases q <;> rfl

/-- Changes do the same at every depth. -/
theorem Change.run_atDepth (c : Change α) (w : World) (n : Nat) :
    c.run (w.atDepth n) = ((c.run w).1, (c.run w).2.atDepth n) := by
  cases c with
  | sweep => exact w.sweep_atDepth n
  | adopt id => exact w.adopt_atDepth id n
  | recallSymbol kind name => exact w.revive_atDepth _ n
  | recallNumber key => exact w.revive_atDepth _ n
  | intern name =>
    exact w.onHost_atDepth (f := fun i => i.intern name) n (w.host.intern_atDepth name n)
  | ensureBuffer name =>
    exact w.onHost_atDepth (f := fun i => i.ensureBuffer name) n
      (w.host.ensureBuffer_atDepth name n)
  | retain o =>
    exact w.onHost_atDepth (f := fun i => i.retain o) n (w.host.retain_atDepth o n)
  | register c =>
    have hborder : (w.atDepth n).border = w.border := rfl
    simp only [run, hborder]
    cases w.border.callbacks.insert c <;> rfl
  | wrap v =>
    have hborder : (w.atDepth n).border = w.border := rfl
    simp only [run, hborder]
    cases w.border.proxies.insert v <;> rfl
  | unwrap? key =>
    have hborder : (w.atDepth n).border = w.border := rfl
    simp only [run, hborder]
    cases w.border.proxies.get? key <;> rfl
  | recallVariable name =>
    have hscript : (w.atDepth n).script = w.script := rfl
    simp only [run, hscript]
    cases w.script.find? name <;> rfl
  | _ => rfl

theorem Change.run_deeper (c : Change α) (w : World) :
    c.run w.deeper = ((c.run w).1, (c.run w).2.deeper) := by
  have hself := congrArg Prod.snd (c.run_atDepth w w.host.depth)
  rw [World.deeper_eq, c.run_atDepth, World.deeper_eq,
    World.depth_of_atDepth (f := fun w => (c.run w).2) hself]

theorem Change.depth_run (c : Change α) (w : World) : (c.run w).2.host.depth = w.host.depth :=
  World.depth_of_atDepth (f := fun w => (c.run w).2)
    (congrArg Prod.snd (c.run_atDepth w w.host.depth))

/-! ### Scopes -/

/-- Other scopes than evaluations start alike. -/
theorem Scope.enter_atDepth {s : Scope} (hs : s ≠ .evaluation) (w : World) (n : Nat) :
    s.enter (w.atDepth n) = (s.enter w).map fun entered => (entered.1, entered.2.atDepth n) := by
  cases s with
  | evaluation => exact absurd rfl hs
  | source =>
    have hborder : (w.atDepth n).border = w.border := rfl
    simp only [enter, hborder]
    split <;> rfl
  | _ => rfl

theorem Scope.depth_enter {s : Scope} {u : Undo} (hs : s ≠ .evaluation)
    (h : s.enter w = .ok (u, w₁)) : w₁.host.depth = w.host.depth := by
  have hself : s.enter w = (s.enter w).map fun entered =>
    (entered.1, entered.2.atDepth w.host.depth) := s.enter_atDepth hs w w.host.depth
  rw [h] at hself
  have hworld : w₁ = w₁.atDepth w.host.depth := congrArg Prod.snd (Except.ok.inj hself)
  rw [hworld, World.depth_atDepth]

/-- Only an evaluation ends as evaluations do. -/
theorem Scope.undo_ne {s : Scope} {u : Undo} (hs : s ≠ .evaluation)
    (h : s.enter w = .ok (u, w₁)) : u ≠ .leaveEvaluation := by
  cases s with
  | evaluation => exact absurd rfl hs
  | source =>
    rw [enter] at h
    split at h <;> cases h
    exact Undo.noConfusion
  | _ =>
    cases h
    exact Undo.noConfusion

theorem Scope.enter_deeper {s : Scope} {u : Undo} (hs : s ≠ .evaluation)
    (h : s.enter w = .ok (u, w₁)) : s.enter w.deeper = .ok (u, w₁.deeper) := by
  rw [World.deeper_eq, s.enter_atDepth hs, h, World.deeper_eq, Scope.depth_enter hs h]
  rfl

/-- Every scope but that of an evaluation is refused one level deeper in the same way. -/
theorem Scope.enter_deeper_error {s : Scope} {f : Failure} (hs : s ≠ .evaluation)
    (h : s.enter w = .error f) : s.enter w.deeper = .error f := by
  rw [World.deeper_eq, s.enter_atDepth hs, h]
  rfl

/-- And so they end. -/
theorem Undo.run_atDepth {u : Undo} (hu : u ≠ .leaveEvaluation) (w : World) (n : Nat) :
    u.run (w.atDepth n) = (u.run w).atDepth n := by
  cases u with
  | leaveEvaluation => exact absurd rfl hu
  | _ => rfl

/-! ### Runs one evaluation deeper -/

/-- How many evaluations a part that waits has started. -/
def Frame.evaluations : Frame α β → Nat
  | .scope .leaveEvaluation _ => 1
  | _ => 0

/-- Only an evaluation that is left lowers the depth, and so only such a frame counts. -/
theorem Frame.evaluations_of_ne {u : Undo} {f : α → Proc β} (hu : u ≠ .leaveEvaluation) :
    (Frame.scope u f).evaluations = 0 := by
  cases u with
  | leaveEvaluation => exact absurd rfl hu
  | _ => rfl

/-- How many evaluations the parts that wait have started. -/
def Stack.evaluations : {α : Type} → Stack γ α → Nat
  | _, .top => 0
  | _, .push f rest => f.evaluations + rest.evaluations

namespace Moment

variable {m m' n : Moment γ}

/-- The same moment, one evaluation deeper. -/
def deeper (m : Moment γ) : Moment γ := { m with world := m.world.deeper }

/-- Whether an evaluation is about to be refused. -/
def atLimit (m : Moment γ) : Bool :=
  match m.proc with
  | .inside .evaluation _ _ => decide (maxDepth ≤ m.world.host.depth)
  | _ => false

/-- Whether a run is refused for its depth is a matter of what it does next, and not of the
frames below. -/
theorem atLimit_atop {k : Stack α β} (m : Moment β) : (m.atop k).atLimit = m.atLimit := by
  obtain ⟨p, k', w⟩ := m
  cases p with
  | inside x part next => cases x <;> rfl
  | _ => rfl

/-- The evaluations that a run has started are in progress. -/
def IsCounted (m : Moment γ) : Prop := m.stack.evaluations ≤ m.world.host.depth

/-- So are a number of others from before the run, and no more. -/
def IsBalanced (d : Nat) (m : Moment γ) : Prop := m.world.host.depth = d + m.stack.evaluations

/-- The end of a scope, with one evaluation in progress if that is what ends. -/
theorem run_undo_deeper {u : Undo} {f : α → Proc β}
    (h : (Frame.scope u f).evaluations ≤ w.host.depth) : u.run w.deeper = (u.run w).deeper := by
  by_cases hu : u = .leaveEvaluation
  · subst hu
    have hpos : 1 ≤ w.host.depth := h
    have hdepth : w.host.depth + 1 - 1 = w.host.depth - 1 + 1 := by omega
    simp only [Undo.run, World.deeper, hdepth]
  · exact World.deeper_of_atDepth fun n => u.run_atDepth hu w n

/-- Leaving a scope takes off the depth what its frame stands for. -/
theorem depth_run_undo {u : Undo} {f : α → Proc β} {n : Nat}
    (h : w.host.depth = n + (Frame.scope u f).evaluations) : (u.run w).host.depth = n := by
  by_cases hu : u = .leaveEvaluation
  · subst hu
    exact Nat.sub_eq_of_eq_add h
  · rw [World.depth_of_atDepth (f := u.run) (u.run_atDepth hu w _), h,
      Frame.evaluations_of_ne hu, Nat.add_zero]

/-- What goes on one evaluation deeper is the same, unless it comes to the limit. -/
theorem next_deeper (hm : m.IsCounted) (hlimit : m.deeper.atLimit = false) :
    m.deeper.next = m.next.map deeper := by
  obtain ⟨p, k, w⟩ := m
  have htold : w.deeper.sweep.1 = w.sweep.1 := by rw [World.deeper_eq, World.sweep_atDepth]
  unfold Moment.next nextTold
  simp only [deeper, htold]
  -- only the scope of an evaluation depends on the depth, and it is below the limit here
  cases p with
  | done a =>
    cases k with
    | top => rfl
    | push f rest =>
      cases f with
      | scope u next =>
        have hu : u.run w.deeper = (u.run w).deeper :=
          run_undo_deeper (Nat.le_trans (Nat.le_add_right _ _) hm)
        simp only [advance, Frame.resume, hu]
        rfl
      | loop part next => cases a <;> rfl
      | _ => rfl
  | stop x =>
    cases k with
    | top => cases x <;> rfl
    | push f rest =>
      cases x with
      | failure e =>
        cases f with
        | scope u next =>
          have hu : u.run w.deeper = (u.run w).deeper :=
            run_undo_deeper (Nat.le_trans (Nat.le_add_right _ _) hm)
          simp only [advance, Frame.unwind, hu]
          rfl
        | _ => rfl
      | _ => rfl
  | ask q next =>
    simp only [advance, q.ask_deeper]
    rfl
  | act c next =>
    simp only [advance, c.run_deeper]
    rfl
  | inside s part next =>
    by_cases hs : s = .evaluation
    · subst hs
      have hroom : w.host.depth + 1 < maxDepth := Nat.not_le.mp (of_decide_eq_false hlimit)
      simp only [advance, World.enter_evaluation (w := w.deeper) hroom,
        World.enter_evaluation (Nat.lt_of_succ_lt hroom)]
      rfl
    · cases hentered : s.enter w with
      | error f =>
        simp only [advance, hentered, Scope.enter_deeper_error hs hentered]
        rfl
      | ok entered =>
        obtain ⟨u, w₁⟩ := entered
        simp only [advance, hentered, Scope.enter_deeper hs hentered]
        rfl
  | _ => rfl

/-- What a run starts, it ends: beside the evaluations that wait, those from before the run are
in progress. -/
theorem IsBalanced.next {d : Nat} (hm : m.IsBalanced d) (h : m.next = some m') :
    m'.IsBalanced d := by
  obtain ⟨p, k, w⟩ := m
  unfold Moment.next nextTold at h
  unfold IsBalanced at hm ⊢
  -- the part that is innermost now, if it goes on, is only waited for by the others
  have hpop : ∀ {β δ : Type} (f : Frame β δ) (k : Stack γ δ),
      w.host.depth = d + (Stack.push f k).evaluations →
      w.host.depth = d + k.evaluations + f.evaluations := by
    intro β δ f k hdepth
    rw [hdepth, Stack.evaluations]
    omega
  cases p with
  | done a =>
    cases k with
    | top => cases h
    | push f rest =>
      cases h
      have hdepth := hpop f rest hm
      cases f with
      | scope u next => exact depth_run_undo hdepth
      | loop part next => cases a <;> exact hdepth
      | _ => exact hdepth
  | stop x =>
    cases k with
    | top => cases x <;> cases h
    | push f rest =>
      cases x with
      | failure e =>
        cases h
        have hdepth := hpop f rest hm
        cases f with
        | scope u next => exact depth_run_undo hdepth
        | _ => exact hdepth
      | _ => cases h
  | act c next =>
    cases h
    exact (c.depth_run w).trans hm
  | inside s part next =>
    simp only [advance] at h
    split at h
    · cases h
      exact hm
    · rename_i u w₁ hentered
      cases h
      have hm : w.host.depth = d + k.evaluations := hm
      by_cases hs : s = .evaluation
      · subst hs
        rw [Scope.enter] at hentered
        split at hentered
        · cases hentered
        · cases hentered
          change w.host.depth + 1 = d + (1 + k.evaluations)
          omega
      · have hnone := Frame.evaluations_of_ne (f := next) (s.undo_ne hs hentered)
        change w₁.host.depth = d + ((Frame.scope u next).evaluations + k.evaluations)
        rw [hnone, Nat.zero_add, s.depth_enter hs hentered, hm]
  | ask q next =>
    cases h
    exact hm
  | task t next | attempt part next | loop part next =>
    cases h
    exact hm.trans (congrArg _ (Nat.zero_add _).symm)

/-- A moment is counted if some depth balances it: that of the world less the evaluations on
the stack. -/
theorem isCounted_iff : m.IsCounted ↔ ∃ d, m.IsBalanced d := by
  refine ⟨fun hm => ⟨_, (Nat.sub_add_cancel hm).symm⟩, fun ⟨d, hm⟩ => ?_⟩
  rw [IsCounted, show m.world.host.depth = _ from hm]
  exact Nat.le_add_left _ _

/-- Each step keeps the count. -/
theorem isCounted_next (h : m.next = some m') (hm : m.IsCounted) : m'.IsCounted := by
  obtain ⟨d, hd⟩ := isCounted_iff.mp hm
  exact isCounted_iff.mpr ⟨d, hd.next h⟩

/-! ### Runs that stay below the limit -/

/-- No evaluation is refused in a run. -/
def StaysBelowLimit (m : Moment γ) : Prop := ∀ n, Passes m n → n.atLimit = false

/-- A run keeps the count. -/
theorem isCounted_of_passes (h : Passes m n) (hm : m.IsCounted) : n.IsCounted := by
  induction h with
  | refl => exact hm
  | tail _ hnext ih => exact isCounted_next hnext ih

/-- A run that stays below the limit goes on in the same way one level deeper. What varies
in the induction is where it ends. -/
theorem Passes.deeper (h : Passes m n) (hm : m.IsCounted) (hlimit : m.deeper.StaysBelowLimit) :
    Passes m.deeper n.deeper := by
  induction h with
  | refl => exact .refl
  | tail hn hnext ih =>
    refine ih.tail ?_
    rw [next_deeper (isCounted_of_passes hn hm) (hlimit _ ih), hnext]
    rfl

/-- One evaluation deeper, a run comes to nothing else than what it comes to otherwise. -/
theorem exists_of_passes_deeper (h : Passes m.deeper n) (hm : m.IsCounted)
    (hlimit : m.deeper.StaysBelowLimit) : ∃ n', n = n'.deeper ∧ Passes m n' := by
  induction h with
  | refl => exact ⟨m, rfl, .refl⟩
  | tail hn hnext ih =>
    obtain ⟨n', rfl, hn'⟩ := ih
    rw [next_deeper (isCounted_of_passes hn' hm) (hlimit _ hn)] at hnext
    obtain ⟨n'', hnext', rfl⟩ := Option.map_eq_some_iff.mp hnext
    exact ⟨n'', rfl, hn'.tail hnext'⟩

theorem atLimit_of_deeper (h : m.deeper.atLimit = false) : m.atLimit = false := by
  obtain ⟨p, k, w⟩ := m
  cases p with
  | inside s part next =>
    cases s with
    | evaluation =>
      have hroom : ¬maxDepth ≤ w.host.depth + 1 := of_decide_eq_false h
      exact decide_eq_false fun hfull => hroom (Nat.le_succ_of_le hfull)
    | _ => rfl
  | _ => rfl

theorem StaysBelowLimit.of_deeper (h : m.deeper.StaysBelowLimit) (hm : m.IsCounted) :
    m.StaysBelowLimit :=
  fun _ hn => atLimit_of_deeper (h _ (hn.deeper hm h))

/-- A run stays below the limit if its first step does and what is left to do after it. -/
theorem staysBelowLimit_next_iff (h : m.next = some m') :
    m.StaysBelowLimit ↔ m.atLimit = false ∧ m'.StaysBelowLimit := by
  refine ⟨fun hm => ⟨hm m .refl, fun n hn => hm n (.head h hn)⟩, fun ⟨hm, hm'⟩ n hn => ?_⟩
  obtain rfl | ⟨m₁, hnext, hn⟩ := hn.cases_head
  · exact hm
  · rw [h] at hnext
    obtain rfl := Option.some.inj hnext
    exact hm' n hn

/-- Whether a run comes to its end in so many moments, and no evaluation is refused in it. -/
def endsBelowLimit : Nat → Moment γ → Bool
  | 0, _ => false
  | n + 1, m => !m.atLimit &&
    match m.next with
    | some m' => m'.endsBelowLimit n
    | none => true

/-- To stay below the limit can be found out by running, for what ends within a bound. -/
theorem staysBelowLimit_of_endsBelowLimit (bound : Nat) (h : m.endsBelowLimit bound = true) :
    m.StaysBelowLimit := by
  induction bound generalizing m with
  | zero => cases h
  | succ bound ih =>
    rw [endsBelowLimit, Bool.and_eq_true, Bool.not_eq_true'] at h
    obtain ⟨hm, hrest⟩ := h
    cases hnext : m.next with
    | some m' =>
      rw [hnext] at hrest
      exact (staysBelowLimit_next_iff hnext).mpr ⟨hm, ih hrest⟩
    | none =>
      intro n hn
      obtain rfl | ⟨m', hnext', -⟩ := hn.cases_head
      · exact hm
      · rw [hnext] at hnext'
        cases hnext'

/-- What passes through an end either is at the end, or reaches it after its first step. -/
theorem passes_next_iff (h : m.next = some m') (hn : n.next = none) :
    Passes m n ↔ Passes m' n := by
  refine ⟨fun hm => ?_, fun hm => .head h hm⟩
  obtain rfl | ⟨m₁, hnext, hm⟩ := hm.cases_head
  · rw [h] at hn
    cases hn
  · rw [h] at hnext
    obtain rfl := Option.some.inj hnext
    exact hm

end Moment

/-! ### How procedures end -/

namespace Proc

variable {p q : Proc α} {t : Task α} {next : α → Proc β} {r s : Except Failure α}
  {s' : Except Failure β}

/-- A run of a procedure by itself ends. -/
def EndsIn (p : Proc α) (w : World) (r : Except Failure α) (w₁ : World) : Prop :=
  Moment.Passes (⟨p, .top, w⟩ : Moment α) ⟨ofExcept r, .top, w₁⟩

/-- No evaluation is refused in a run of a procedure by itself. -/
def StaysBelowLimit (p : Proc α) (w : World) : Prop :=
  (⟨p, .top, w⟩ : Moment α).StaysBelowLimit

theorem StaysBelowLimit.of_deeper (h : p.StaysBelowLimit w.deeper) : p.StaysBelowLimit w :=
  Moment.StaysBelowLimit.of_deeper (m := ⟨p, .top, w⟩) h (Nat.zero_le _)

/-- One evaluation deeper, a procedure ends alike, unless it comes to the limit. -/
theorem endsIn_deeper_iff (h : p.StaysBelowLimit w.deeper) :
    p.EndsIn w.deeper r w₂ ↔ ∃ w₁, w₂ = w₁.deeper ∧ p.EndsIn w r w₁ := by
  have hm : (⟨p, .top, w⟩ : Moment α).IsCounted := Nat.zero_le _
  constructor
  · intro hend
    obtain ⟨⟨q, k, w₁⟩, hn, hend'⟩ := Moment.exists_of_passes_deeper (m := ⟨p, .top, w⟩) hend hm h
    simp only [Moment.deeper] at hn
    cases hn
    exact ⟨w₁, rfl, hend'⟩
  · rintro ⟨w₁, rfl, hend⟩
    exact Moment.Passes.deeper hend hm h

/-- What has ended ends as it has, at once. -/
theorem endsIn_ended_iff : (ofExcept r).EndsIn w s w₁ ↔ r = s ∧ w = w₁ := by
  constructor
  · intro h
    obtain hsame | ⟨m, hnext, -⟩ := h.cases_head
    · cases r <;> cases s <;> cases hsame <;> exact ⟨rfl, rfl⟩
    · rw [Moment.next_ended] at hnext
      cases hnext
  · rintro ⟨rfl, rfl⟩
    exact .refl

/-- What has ended is not refused. -/
theorem staysBelowLimit_ended : (ofExcept r).StaysBelowLimit w := by
  intro m hm
  obtain rfl | ⟨m', hnext, -⟩ := hm.cases_head
  · cases r <;> rfl
  · rw [Moment.next_ended] at hnext
    cases hnext

/-- What a run gives, it ends with. -/
theorem exists_endsIn_of_run {a : α} (h : (p.run w).1.toOption = some a) :
    ∃ w₁, p.EndsIn w (.ok a) w₁ := by
  rcases hrun : p.run w with ⟨result, w₁⟩
  rw [hrun] at h
  cases result with
  | ok b =>
    obtain rfl : b = a := Option.some.inj h
    exact ⟨w₁, Moment.passes_of_run_eq (r := .ok b) hrun⟩
  | error x => cases h

/-- A larger run ends once the part has ended and what waits for it, too. -/
theorem passes_push_iff {f : Frame α β} :
    Moment.Passes ⟨p, .push f .top, w⟩ (⟨ofExcept s', .top, w₂⟩ : Moment β) ↔
      ∃ r w₁, p.EndsIn w r w₁ ∧
        Moment.Passes ⟨ofExcept r, .push f .top, w₁⟩ (⟨ofExcept s', .top, w₂⟩ : Moment β) := by
  constructor
  · intro h
    obtain ⟨⟨q, k, w₁⟩, -, hend⟩ | hend :=
      Moment.Passes.atop_cases (m := ⟨p, .top, w⟩) (k := .push f .top) h
    · have htop : (k.append (.push f .top)).isTop = true :=
        (congrArg (fun m : Moment β => m.stack.isTop) hend).symm
      cases k <;> cases htop
    · exact hend
  · rintro ⟨r, w₁, hp, hrest⟩
    exact (Moment.Passes.atop hp (.push f .top)).trans hrest

/-- A frame goes on from each way in which the procedure above it can end, and so a run
below the limit is cut at the frame. -/
theorem staysBelowLimit_push_iff {f : Frame α β} :
    (⟨p, .push f .top, w⟩ : Moment β).StaysBelowLimit ↔ p.StaysBelowLimit w ∧
      ∀ r w₁, p.EndsIn w r w₁ →
        (⟨ofExcept r, .push f .top, w₁⟩ : Moment β).StaysBelowLimit := by
  constructor
  · intro h
    exact ⟨fun m hm => m.atLimit_atop.symm.trans (h _ (hm.atop (.push f .top))),
      fun r w₁ hp m hm => h m ((Moment.Passes.atop hp (.push f .top)).trans hm)⟩
  · rintro ⟨hp, hrest⟩ m hm
    obtain ⟨m', hm', rfl⟩ | ⟨r, w₁, hr, hm⟩ :=
      Moment.Passes.atop_cases (m := ⟨p, .top, w⟩) (k := .push f .top) hm
    · exact m'.atLimit_atop.trans (hp m' hm')
    · exact hrest r w₁ hr m hm

/-- A procedure that waits for a task ends as what it does with the result. -/
theorem endsIn_task_iff : (task t next).EndsIn w s' w₂ ↔
    ∃ r w₁, t.body.EndsIn w r w₁ ∧ (ofExcept r >>= next).EndsIn w₁ s' w₂ := by
  refine (Moment.passes_next_iff rfl Moment.next_ended).trans (passes_push_iff.trans ?_)
  refine exists_congr fun r => exists_congr fun w₁ => and_congr_right fun _ => ?_
  cases r <;> exact Moment.passes_next_iff rfl Moment.next_ended

/-- A task stays below the limit if its body does, and then what goes on from there. -/
theorem staysBelowLimit_task_iff : (task t next).StaysBelowLimit w ↔
    t.body.StaysBelowLimit w ∧
      ∀ r w₁, t.body.EndsIn w r w₁ → (ofExcept r >>= next).StaysBelowLimit w₁ := by
  refine (Moment.staysBelowLimit_next_iff rfl).trans
    ((and_iff_right rfl).trans (staysBelowLimit_push_iff.trans (and_congr_right fun _ => ?_)))
  refine forall_congr' fun r => forall_congr' fun w₁ => imp_congr_right fun _ => ?_
  cases r <;> exact (Moment.staysBelowLimit_next_iff rfl).trans (and_iff_right rfl)

/-- A procedure inside of a scope ends as it does by itself, and then the scope ends. -/
theorem endsIn_within_iff {x : Scope} {u : Undo} (hx : x.enter w = .ok (u, w₁)) :
    (within x p).EndsIn w r w₂ ↔ ∃ w₃, p.EndsIn w₁ r w₃ ∧ w₂ = u.run w₃ := by
  refine (Moment.passes_next_iff (Moment.next_inside hx) Moment.next_ended).trans
    (passes_push_iff.trans ?_)
  have hleave : ∀ s w₃, Moment.Passes ⟨ofExcept s, .push (.scope u .done) .top, w₃⟩
      (⟨ofExcept r, .top, w₂⟩ : Moment α) ↔ s = r ∧ u.run w₃ = w₂ := by
    intro s w₃
    refine Iff.trans ?_ endsIn_ended_iff
    cases s <;> exact Moment.passes_next_iff rfl Moment.next_ended
  simp only [hleave]
  constructor
  · rintro ⟨s, w₃, hp, rfl, rfl⟩
    exact ⟨w₃, hp, rfl⟩
  · rintro ⟨w₃, hp, rfl⟩
    exact ⟨r, w₃, hp, rfl, rfl⟩

/-- A scope stays below the limit if it can be entered and its body does. -/
theorem staysBelowLimit_within_iff {x : Scope} {u : Undo} (hx : x.enter w = .ok (u, w₁)) :
    (within x p).StaysBelowLimit w ↔
      (⟨within x p, .top, w⟩ : Moment α).atLimit = false ∧ p.StaysBelowLimit w₁ := by
  refine (Moment.staysBelowLimit_next_iff (Moment.next_inside hx)).trans
    (and_congr_right fun _ => staysBelowLimit_push_iff.trans (and_iff_left ?_))
  intro s w₃ _
  cases s with
  | ok a =>
    exact (Moment.staysBelowLimit_next_iff rfl).mpr ⟨rfl, staysBelowLimit_ended (r := .ok a)⟩
  | error e =>
    exact (Moment.staysBelowLimit_next_iff rfl).mpr ⟨rfl, staysBelowLimit_ended (r := .error e)⟩

/-! ### Procedures that end alike below the limit -/

/-- Unless a procedure comes to the limit, another one does not either, and ends alike. -/
def Mirrors (q p : Proc α) (w : World) : Prop :=
  p.StaysBelowLimit w → q.StaysBelowLimit w ∧ ∀ r w₁, q.EndsIn w r w₁ ↔ p.EndsIn w r w₁

theorem depth_lt_of_staysBelowLimit (h : (within .evaluation p).StaysBelowLimit w) :
    w.host.depth < maxDepth :=
  Nat.not_le.mp (of_decide_eq_false (h _ .refl))

/-- A procedure comes to another one by questions alone. -/
inductive Asks : Proc α → World → Proc α → Prop where
  | refl {p : Proc α} {w : World} : Asks p w p
  | ask {β : Type} {x : Query β} {next : β → Proc α} {q : Proc α} {w : World}
    (h : Asks (next (x.ask w)) w q) : Asks (.ask x next) w q

theorem asks_query_bind {x : Query β} {f : β → Proc α} (h : (f (x.ask w)).Asks w q) :
    (query x >>= f).Asks w q := .ask h

theorem Asks.trans {q' : Proc α} (hp : p.Asks w q) (hq : q.Asks w q') : p.Asks w q' := by
  induction hp with
  | refl => exact hq
  | ask _ ih => exact .ask (ih hq)

/-- Questions change nothing about the end. -/
theorem Asks.endsIn_iff (h : p.Asks w q) : p.EndsIn w r w₁ ↔ q.EndsIn w r w₁ := by
  induction h with
  | refl => exact .rfl
  | ask _ ih => exact (Moment.passes_next_iff rfl Moment.next_ended).trans ih

/-- Questions are never refused. -/
theorem Asks.staysBelowLimit_iff (h : p.Asks w q) : p.StaysBelowLimit w ↔ q.StaysBelowLimit w := by
  induction h with
  | refl => exact .rfl
  | ask _ ih => exact (Moment.staysBelowLimit_next_iff rfl).trans ((and_iff_right rfl).trans ih)

/-- What waits for a task and then does nothing ends as the task. -/
theorem endsIn_perform_iff : (perform t).EndsIn w r w₁ ↔ t.body.EndsIn w r w₁ := by
  have hdone : ∀ s : Except Failure α, (ofExcept s >>= Proc.done) = ofExcept s := by
    intro s
    cases s <;> rfl
  simp only [perform, endsIn_task_iff, hdone, endsIn_ended_iff]
  constructor
  · rintro ⟨s, w₃, hbody, rfl, rfl⟩
    exact hbody
  · intro hbody
    exact ⟨r, w₁, hbody, rfl, rfl⟩

/-- A task stays below the limit if its body does. -/
theorem staysBelowLimit_perform_iff :
    (perform t).StaysBelowLimit w ↔ t.body.StaysBelowLimit w := by
  refine staysBelowLimit_task_iff.trans (and_iff_left ?_)
  intro s w₁ _
  cases s with
  | ok a => exact staysBelowLimit_ended (r := .ok a)
  | error e => exact staysBelowLimit_ended (r := .error e)

namespace Mirrors

theorem refl (p : Proc α) (w : World) : p.Mirrors p w := fun h => ⟨h, fun _ _ => .rfl⟩

/-- What is asked first on the left does not matter. -/
theorem asks_left {q' : Proc α} (hq : q'.Asks w q) (h : q.Mirrors p w) : q'.Mirrors p w := by
  intro hp
  obtain ⟨hlimit, hends⟩ := h hp
  exact ⟨hq.staysBelowLimit_iff.mpr hlimit, fun r w₁ => hq.endsIn_iff.trans (hends r w₁)⟩

/-- What is asked first on the right does not matter. -/
theorem asks_right {p' : Proc α} (hp : p'.Asks w p) (h : q.Mirrors p w) : q.Mirrors p' w := by
  intro hp'
  obtain ⟨hlimit, hends⟩ := h (hp.staysBelowLimit_iff.mp hp')
  exact ⟨hlimit, fun r w₁ => (hends r w₁).trans hp.endsIn_iff.symm⟩

/-- After the same task, what ends alike with its results is left. A failure goes through. -/
theorem task {next' : α → Proc β}
    (h : ∀ a w₁, t.body.EndsIn w (.ok a) w₁ → (next' a).Mirrors (next a) w₁) :
    (Proc.task t next').Mirrors (Proc.task t next) w := by
  have hrest : ∀ r w₁, t.body.EndsIn w r w₁ →
      (ofExcept r >>= next').Mirrors (ofExcept r >>= next) w₁ := by
    intro r w₁ hr
    cases r with
    | ok a => exact h a w₁ hr
    | error e => exact refl _ _
  intro hp
  obtain ⟨hbody, hnext⟩ := staysBelowLimit_task_iff.mp hp
  refine ⟨staysBelowLimit_task_iff.mpr ⟨hbody, fun r w₁ hr => ?_⟩, fun s w₂ => ?_⟩
  · exact (hrest r w₁ hr (hnext r w₁ hr)).1
  · rw [endsIn_task_iff, endsIn_task_iff]
    refine exists_congr fun r => exists_congr fun w₁ => and_congr_right fun hr => ?_
    exact (hrest r w₁ hr (hnext r w₁ hr)).2 s w₂

theorem perform {t' : Task α} (h : t'.body.Mirrors t.body w) :
    (Proc.perform t').Mirrors (Proc.perform t) w := by
  intro hp
  obtain ⟨hlimit, hends⟩ := h (staysBelowLimit_perform_iff.mp hp)
  exact ⟨staysBelowLimit_perform_iff.mpr hlimit, fun r w₁ =>
    endsIn_perform_iff.trans ((hends r w₁).trans endsIn_perform_iff.symm)⟩

/-- A task is mirrored by what its body is mirrored by. -/
theorem perform_right (h : q.Mirrors t.body w) : q.Mirrors (Proc.perform t) w := by
  intro hp
  obtain ⟨hlimit, hends⟩ := h (staysBelowLimit_perform_iff.mp hp)
  exact ⟨hlimit, fun r w₁ => (hends r w₁).trans endsIn_perform_iff.symm⟩

/-- Inside of the same scope, what ends alike ends alike. -/
theorem within {x : Scope} {u : Undo} (hx : x.enter w = .ok (u, w₁)) (h : q.Mirrors p w₁) :
    (Proc.within x q).Mirrors (Proc.within x p) w := by
  intro hp
  rw [staysBelowLimit_within_iff hx] at hp
  obtain ⟨hroom, hp⟩ := hp
  obtain ⟨hlimit, hends⟩ := h hp
  have hsame : (⟨Proc.within x q, .top, w⟩ : Moment α).atLimit =
      (⟨Proc.within x p, .top, w⟩ : Moment α).atLimit := by
    cases x <;> rfl
  refine ⟨(staysBelowLimit_within_iff hx).mpr ⟨hsame.trans hroom, hlimit⟩, fun r w₂ => ?_⟩
  rw [endsIn_within_iff hx, endsIn_within_iff hx]
  exact exists_congr fun w₃ => and_congr_left fun _ => hends r w₃

/-- Evaluations mirror each other if their bodies do one level deeper. -/
theorem evaluation (h : q.Mirrors p w.deeper) :
    (Proc.within .evaluation q).Mirrors (Proc.within .evaluation p) w := by
  intro hp
  exact within (World.enter_evaluation (depth_lt_of_staysBelowLimit hp)) h hp

/-- What is done without an evaluation in its place ends as it does one evaluation deeper. -/
theorem evaluation_right (h : q.Mirrors p w.deeper) :
    q.Mirrors (Proc.within .evaluation p) w := by
  intro hp
  have hentered := World.enter_evaluation (depth_lt_of_staysBelowLimit hp)
  obtain ⟨hlimit, hends⟩ := h ((staysBelowLimit_within_iff hentered).mp hp).2
  refine ⟨hlimit.of_deeper, fun r w₁ => ?_⟩
  rw [endsIn_within_iff hentered]
  constructor
  · intro hq
    exact ⟨w₁.deeper, (hends r _).mp ((endsIn_deeper_iff hlimit).mpr ⟨w₁, rfl, hq⟩), rfl⟩
  · rintro ⟨w₃, hp, rfl⟩
    obtain ⟨w₁, rfl, hq⟩ := (endsIn_deeper_iff hlimit).mp ((hends r w₃).mpr hp)
    exact hq

end Mirrors

end Proc

end Crossing
