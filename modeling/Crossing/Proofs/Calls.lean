import Crossing.Proofs.Moments

/-!
# Calls

A run of a task is a run by itself: what waits for the task has no part in it.

- `Moment.atop` is a moment of a part inside of a larger run;
- `Reaches.atop_cases` and the like: as long as a part has not come to its
  end, a larger run is at a moment of it;
- `Call` is a task that is started in some world, `Call.Ends` says how it ends;
- `becomes_task_iff`: a run that starts a task goes on with what the task ends with;
- `Evaluates` are evaluations of forms one after the other, up to the first that
  fails, and `becomes_sequence_iff` says that they are what the host does.
-/

namespace Crossing

variable {α β γ δ : Type}

/-! ### Parts of runs -/

namespace Stack

/-- What waits inside of a part, on top of what waits for the part. -/
def append {β γ : Type} : {α : Type} → Stack β α → Stack γ β → Stack γ α
  | _, .top, k => k
  | _, .push f rest, k => .push f (rest.append k)

/-- Stacks on top of each other may be put together in any order. -/
theorem append_assoc (k : Stack β α) (k₁ : Stack γ β) (k₂ : Stack δ γ) :
    (k.append k₁).append k₂ = k.append (k₁.append k₂) := by
  induction k with
  | top => rfl
  | push f rest ih => rw [append, append, append, ih]

end Stack

namespace Moment

/-- A moment of a part inside of a larger run. -/
def atop (m : Moment β) (k : Stack γ β) : Moment γ := ⟨m.proc, m.stack.append k, m.world⟩

/-- Runs with sweeps in between. -/
abbrev Becomes : Moment γ → Moment γ → Prop := Relation.ReflTransGen Goes

variable {m m' : Moment β} {k : Stack γ β}

/-- A part goes on the same inside of a larger run. -/
theorem next_atop (h : m.next = some m') : (m.atop k).next = some (m'.atop k) := by
  obtain ⟨p, s, w⟩ := m
  unfold Moment.next nextTold at h ⊢
  -- a result or a failure of the frames above stays above; only at their end are those below
  -- reached
  cases p with
  | done a =>
    cases s with
    | top => cases h
    | push f rest =>
      cases h
      rfl
  | stop x =>
    cases s with
    | top => cases x <;> cases h
    | push f rest =>
      cases x with
      | failure e =>
        cases h
        rfl
      | trap | exhausted => cases h
  | inside x part next =>
    simp only [advance] at h
    simp only [atop, advance]
    split at h
    all_goals
      cases h
      rfl
  | ask _ _ | act _ _ | task _ _ | attempt _ _ | loop _ _ =>
    cases h
    rfl

/-- Frames below do not keep a moment from being a safepoint. -/
theorem isSafepoint_atop (h : m.isSafepoint = true) : (m.atop k).isSafepoint = true := by
  obtain ⟨p, s, w⟩ := m
  cases s with
  | top =>
    have hstart : p.startsTask = true := by simpa [isSafepoint, Stack.awaitsTask] using h
    simp [isSafepoint, atop, hstart]
  | push f rest => exact h

/-- A step is one on top of any stack. -/
theorem Goes.atop (h : Goes m m') (k : Stack γ β) : Goes (m.atop k) (m'.atop k) := by
  cases h with
  | next h => exact .next (next_atop h)
  | sweep h => exact .sweep (isSafepoint_atop h)

/-- A run is one on top of any stack. -/
theorem Becomes.atop (h : Becomes m m') (k : Stack γ β) : Becomes (m.atop k) (m'.atop k) :=
  Relation.ReflTransGen.lift (fun m : Moment β => m.atop k) (fun _ _ hgo => Goes.atop hgo k) _ _ h

/-- A part that does not go on has come to its end, or nothing goes on. -/
theorem ends_of_next_eq_none (h : m.next = none) :
    (∃ r w, m = ⟨Proc.ofExcept r, .top, w⟩) ∨ (m.atop k).next = none := by
  obtain ⟨p, s, w⟩ := m
  unfold Moment.next nextTold at h ⊢
  -- what has no next moment has ended: a result at the top, or a stop that no frame takes
  cases p with
  | done a =>
    cases s with
    | top => exact .inl ⟨.ok a, w, rfl⟩
    | push f rest => cases h
  | stop x =>
    cases x with
    | failure e =>
      cases s with
      | top => exact .inl ⟨.error e, w, rfl⟩
      | push f rest => cases h
    | trap | exhausted => exact .inr rfl
  | inside x part next =>
    simp only [advance] at h
    split at h <;> cases h
  | ask _ _ | act _ _ | task _ _ | attempt _ _ | loop _ _ => cases h

/-- A sweep may come in between where it may in the part, or at the end of the part. -/
theorem isSafepoint_of_atop (h : (m.atop k).isSafepoint = true) :
    m.isSafepoint = true ∨ ∃ r w, m = ⟨Proc.ofExcept r, .top, w⟩ := by
  obtain ⟨p, s, w⟩ := m
  cases s with
  | push f rest => exact .inl h
  | top =>
    cases p with
    | done a => exact .inr ⟨.ok a, w, rfl⟩
    | stop x =>
      cases x with
      | failure e => exact .inr ⟨.error e, w, rfl⟩
      | trap | exhausted => cases h
    | task t next => exact .inl rfl
    | ask _ _ | act _ _ | inside _ _ _ | attempt _ _ | loop _ _ => cases h

/-- A larger run is at a moment of the part, or the part has come to its end. -/
theorem Reaches.atop_cases {ok : Moment γ → Prop} {n : Moment γ} (h : Reaches ok (m.atop k) n) :
    (∃ m', Reaches (fun m => ok (m.atop k)) m m' ∧ n = m'.atop k) ∨
      ∃ r w, Reaches (fun m => ok (m.atop k)) m ⟨Proc.ofExcept r, .top, w⟩ ∧
        Reaches ok ⟨Proc.ofExcept r, k, w⟩ n := by
  -- the induction is on the run from its start, with the last step added
  induction h with
  | refl => exact .inl ⟨m, .refl, rfl⟩
  | @tail n n' _ hgo ih =>
    -- the run so far is still above the stack, or has come down to it
    obtain ⟨m', hm, rfl⟩ | ⟨r, w, hm, hn⟩ := ih
    · obtain ⟨hok, hgo⟩ := hgo
      -- a sweep may come at any safepoint, above the stack or below
      cases hgo with
      | next h =>
        cases hm' : m'.next with
        | some m'' =>
          rw [next_atop hm'] at h
          exact .inl ⟨m'', hm.tail ⟨hok, .next hm'⟩, (Option.some.inj h).symm⟩
        | none =>
          obtain ⟨r, w, rfl⟩ | hnone := ends_of_next_eq_none (k := k) hm'
          · exact .inr ⟨r, w, hm, .single ⟨hok, .next h⟩⟩
          · rw [hnone] at h
            cases h
      | sweep hs =>
        obtain hs' | ⟨r, w, rfl⟩ := isSafepoint_of_atop hs
        · exact .inl ⟨m'.swept, hm.tail ⟨hok, .sweep hs'⟩, rfl⟩
        · exact .inr ⟨r, w, hm, .single ⟨hok, .sweep hs⟩⟩
    · exact .inr ⟨r, w, hm, hn.tail hgo⟩

/-- To become is to reach under no condition. -/
theorem becomes_iff_reaches {m m' : Moment γ} : Becomes m m' ↔ Reaches (fun _ => True) m m' :=
  ⟨Relation.ReflTransGen.mono (fun _ _ hgo => ⟨trivial, hgo⟩) _ _,
    Relation.ReflTransGen.mono (fun _ _ hgo => hgo.2) _ _⟩

/-- A run on top of a stack is a run, or has come to its end and goes on below it. -/
theorem Becomes.atop_cases {n : Moment γ} (h : Becomes (m.atop k) n) :
    (∃ m', Becomes m m' ∧ n = m'.atop k) ∨
      ∃ r w, Becomes m ⟨Proc.ofExcept r, .top, w⟩ ∧ Becomes ⟨Proc.ofExcept r, k, w⟩ n := by
  simp only [becomes_iff_reaches] at h ⊢
  exact h.atop_cases

/-- What passes does so on top of any stack. -/
theorem Passes.atop (h : Passes m m') (k : Stack γ β) : Passes (m.atop k) (m'.atop k) :=
  Relation.ReflTransGen.lift (fun m : Moment β => m.atop k) (fun _ _ h => next_atop h) _ _ h

/-- Without sweeps in between, too, a larger run is at a moment of the part, or the part
has come to its end. -/
theorem Passes.atop_cases {n : Moment γ} (h : Passes (m.atop k) n) :
    (∃ m', Passes m m' ∧ n = m'.atop k) ∨
      ∃ r w, Passes m ⟨Proc.ofExcept r, .top, w⟩ ∧ Passes ⟨Proc.ofExcept r, k, w⟩ n := by
  induction h with
  | refl => exact .inl ⟨m, .refl, rfl⟩
  | @tail n n' _ h ih =>
    obtain ⟨m', hm, rfl⟩ | ⟨r, w, hm, hn⟩ := ih
    · cases hm' : m'.next with
      | some m'' =>
        rw [next_atop hm'] at h
        exact .inl ⟨m'', hm.tail hm', (Option.some.inj h).symm⟩
      | none =>
        obtain ⟨r, w, rfl⟩ | hnone := ends_of_next_eq_none (k := k) hm'
        · exact .inr ⟨r, w, hm, .single h⟩
        · rw [hnone] at h
          cases h
    · exact .inr ⟨r, w, hm, hn.tail h⟩

/-! ### Steps of a run that comes to its end -/

variable {m m' : Moment γ}

/-- What comes after some steps is become. -/
theorem becomes_after (m : Moment γ) (n : Nat) : Becomes m (m.after n) := by
  exact becomes_iff_reaches.mpr (reaches_after fun _ _ => trivial)

/-- What goes on after a moment where no sweep may come in between, goes on after
the following moment. -/
theorem becomes_next_iff {m₁ : Moment γ} (h : m.next = some m₁) (hsafe : m.isSafepoint = false)
    (hend : m'.next = none) : Becomes m m' ↔ Becomes m₁ m' := by
  refine ⟨fun hm => ?_, fun hm => .head (.next h) hm⟩
  cases hm using Relation.ReflTransGen.head_induction_on with
  | refl =>
    rw [h] at hend
    cases hend
  | head hgo hm =>
    cases hgo with
    | next h' =>
      rw [h] at h'
      cases h'
      exact hm
    | sweep hs =>
      rw [hsafe] at hs
      cases hs

end Moment

/-! ### Sweeps in between -/

/-- Sweeps, one after the other. -/
abbrev World.Sweeps : World → World → Prop :=
  Relation.ReflTransGen fun w w' => w' = w.sweep.2

/-- Whether nothing waits. -/
def Stack.isTop : Stack γ α → Bool
  | .top => true
  | .push _ _ => false

namespace Moment

variable {p : Proc α} {k : Stack γ α} {w w' : World} {r : Except Failure α}
  {s : Except Failure γ}

/-- Sweeps at a safepoint are part of a run. -/
theorem becomes_of_sweeps (h : (⟨p, k, w⟩ : Moment γ).isSafepoint = true) (hw : w.Sweeps w') :
    Becomes (⟨p, k, w⟩ : Moment γ) ⟨p, k, w'⟩ := by
  induction hw with
  | refl => exact .refl
  | @tail w₁ w₂ _ hsweep ih =>
    obtain rfl := hsweep
    exact ih.tail (Goes.sweep (m := ⟨p, k, w₁⟩) h)

/-- Nothing comes after the end. -/
theorem next_ended : (⟨Proc.ofExcept s, .top, w'⟩ : Moment γ).next = none := by
  cases s <;> rfl

/-- A run that has come to its end stays there. -/
theorem becomes_ended_iff {s' : Except Failure γ} :
    Becomes (⟨Proc.ofExcept s, .top, w⟩ : Moment γ) ⟨Proc.ofExcept s', .top, w'⟩ ↔
      s = s' ∧ w = w' := by
  constructor
  · intro hm
    obtain hsame | ⟨m, hgo, -⟩ := hm.cases_head
    · cases s <;> cases s' <;> cases hsame <;> exact ⟨rfl, rfl⟩
    · cases hgo with
      | next h =>
        rw [next_ended] at h
        cases h
      | sweep h => cases s <;> cases h
  · rintro ⟨rfl, rfl⟩
    exact .refl

/-- From a moment where sweeps may come in between, sweeps come and then the step. -/
theorem becomes_safepoint_iff (h : (⟨p, k, w⟩ : Moment γ).isSafepoint = true)
    (hstep : ∀ w, ∃ m, (⟨p, k, w⟩ : Moment γ).next = some m) :
    Becomes ⟨p, k, w⟩ (⟨Proc.ofExcept s, .top, w'⟩ : Moment γ) ↔
      ∃ w₁ m, w.Sweeps w₁ ∧ (⟨p, k, w₁⟩ : Moment γ).next = some m ∧
        Becomes m ⟨Proc.ofExcept s, .top, w'⟩ := by
  constructor
  · intro hm
    generalize hstart : (⟨p, k, w⟩ : Moment γ) = m at hm
    induction hm using Relation.ReflTransGen.head_induction_on generalizing w with
    | refl =>
      obtain ⟨m, hnext⟩ := hstep w
      rw [hstart, next_ended] at hnext
      cases hnext
    | head hgo hm ih =>
      subst hstart
      cases hgo with
      | next hnext => exact ⟨w, _, .refl, hnext, hm⟩
      | sweep hsafe =>
        obtain ⟨w₁, m, hw, hnext, hend⟩ := ih (w := w.sweep.2) hsafe rfl
        exact ⟨w₁, m, .head rfl hw, hnext, hend⟩
  · rintro ⟨w₁, m, hw, hnext, hm⟩
    exact (becomes_of_sweeps h hw).trans (.head (.next hnext) hm)

end Moment

/-! ### Calls -/

/-- A task that is started in some world. -/
structure Call (α : Type) where
  task : Task α
  world : World

namespace Call

/-- The start of a run of the task by itself. -/
def start (c : Call α) : Moment α := ⟨c.task.body, .top, c.world⟩

/-- A run of the task ends. -/
def Ends (c : Call α) (r : Except Failure α) (w : World) : Prop :=
  c.start.Becomes ⟨Proc.ofExcept r, .top, w⟩

/-- A run of the task ends, with sweeps right before it and right after it. -/
def EndsAmid (c : Call α) (r : Except Failure α) (w : World) : Prop :=
  ∃ w₀ w₁, c.world.Sweeps w₀ ∧ (Call.mk c.task w₀).Ends r w₁ ∧ w₁.Sweeps w

end Call

namespace Moment

variable {t : Task α} {next : α → Proc β} {k : Stack γ β} {w w' : World}
  {s : Except Failure γ}

/-- A run that waits for a task goes on with what the task ends with. -/
theorem becomes_result_iff {r : Except Failure α} :
    Becomes ⟨Proc.ofExcept r, .push (.result t next) k, w⟩
        (⟨Proc.ofExcept s, .top, w'⟩ : Moment γ) ↔
      ∃ w₁, w.Sweeps w₁ ∧
        Becomes ⟨Proc.ofExcept r >>= next, k, w₁⟩ (⟨Proc.ofExcept s, .top, w'⟩ : Moment γ) := by
  have hsafe : (⟨Proc.ofExcept r, .push (.result t next) k, w⟩ : Moment γ).isSafepoint = true := by
    cases r <;> rfl
  have hstep : ∀ w, (⟨Proc.ofExcept r, .push (.result t next) k, w⟩ : Moment γ).next =
      some ⟨Proc.ofExcept r >>= next, k, w⟩ := by
    intro w
    cases r <;> rfl
  rw [becomes_safepoint_iff hsafe fun w => ⟨_, hstep w⟩]
  constructor
  · rintro ⟨w₁, m, hw, hnext, hm⟩
    rw [hstep] at hnext
    obtain rfl := Option.some.inj hnext
    exact ⟨w₁, hw, hm⟩
  · rintro ⟨w₁, hw, hm⟩
    exact ⟨w₁, _, hw, hstep w₁, hm⟩

/-- A run that starts a task goes on with what the task ends with. -/
theorem becomes_task_iff :
    Becomes ⟨.task t next, k, w⟩ (⟨Proc.ofExcept s, .top, w'⟩ : Moment γ) ↔
      ∃ r w₁, (Call.mk t w).EndsAmid r w₁ ∧
        Becomes ⟨Proc.ofExcept r >>= next, k, w₁⟩ (⟨Proc.ofExcept s, .top, w'⟩ : Moment γ) := by
  rw [becomes_safepoint_iff rfl fun _ => ⟨_, rfl⟩]
  constructor
  -- the body runs on top of the frame for its result, and so it ends before that is used
  · rintro ⟨w₀, m, hw, hnext, hm⟩
    cases hnext
    obtain ⟨m', -, hend⟩ | ⟨r, w₁, hbody, hrest⟩ :=
      Becomes.atop_cases (m := (Call.mk t w₀).start) (k := .push (.result t next) k) hm
    -- the run is not over while the frame is there
    · have htop : (m'.atop (.push (.result t next) k)).stack.isTop = true := by
        rw [← hend]
        rfl
      obtain ⟨p, k', w₁⟩ := m'
      cases k' <;> cases htop
    · obtain ⟨w₂, hw₂, hrest⟩ := becomes_result_iff.mp hrest
      exact ⟨r, w₂, ⟨w₀, w₁, hw, hbody, hw₂⟩, hrest⟩
  · rintro ⟨r, w₂, ⟨w₀, w₁, hw, hbody, hw₂⟩, hrest⟩
    refine ⟨w₀, _, hw, rfl, ?_⟩
    exact (Becomes.atop hbody (.push (.result t next) k)).trans
      (becomes_result_iff.mpr ⟨w₂, hw₂, hrest⟩)

end Moment

/-! ### Evaluations one after the other -/

/-- Evaluations of forms, one after the other, up to the first that fails. -/
inductive Evaluates : List Obj → World → Option Failure → World → Prop where
  | nil {w : World} : Evaluates [] w none w
  | cons {form : Obj} {forms : List Obj} {o : Obj} {w w₁ w₂ : World} {s : Option Failure}
    (hform : (Call.mk (.evaluate form) w).EndsAmid (.ok o) w₁) (h : Evaluates forms w₁ s w₂) :
    Evaluates (form :: forms) w s w₂
  | fails {form : Obj} {forms : List Obj} {e : Failure} {w w₁ : World}
    (hform : (Call.mk (.evaluate form) w).EndsAmid (.error e) w₁) :
    Evaluates (form :: forms) w (some e) w₁

namespace Moment

open Proc

/-- A run that evaluates forms one after the other goes on when they have values,
and fails with the first that fails. -/
theorem becomes_sequence_iff {forms : List Obj} {last : Obj} {p : Proc β} {k : Stack γ β}
    {w w' : World} {s : Except Failure γ} :
    Becomes ⟨forms.foldlM (fun _ form => Host.evaluate form) last >>= fun _ => p, k, w⟩
        (⟨ofExcept s, .top, w'⟩ : Moment γ) ↔
      ∃ e w₁, Evaluates forms w e w₁ ∧
        Becomes ⟨e.elim p fail, k, w₁⟩ (⟨ofExcept s, .top, w'⟩ : Moment γ) := by
  -- the induction is on the forms; what the last one gave is the result of none
  induction forms generalizing last w with
  | nil =>
    refine ⟨fun hm => ⟨none, w, .nil, hm⟩, ?_⟩
    rintro ⟨_, _, ⟨⟩, hm⟩
    exact hm
  | cons form forms ih =>
    change Becomes ⟨.task (.evaluate form) fun o =>
      forms.foldlM (fun _ form => Host.evaluate form) o >>= fun _ => p, k, w⟩ _ ↔ _
    rw [becomes_task_iff]
    constructor
    · rintro ⟨r, w₁, hform, hm⟩
      -- a failure is the result of the whole, and the other forms are not evaluated
      cases r with
      | ok o =>
        obtain ⟨e, w₂, hforms, hm⟩ := ih.mp hm
        exact ⟨e, w₂, .cons hform hforms, hm⟩
      | error e => exact ⟨some e, w₁, .fails hform, hm⟩
    · rintro ⟨_, w₂, hforms, hm⟩
      cases hforms with
      | cons hform hforms => exact ⟨_, _, hform, ih.mpr ⟨_, w₂, hforms, hm⟩⟩
      | fails hform => exact ⟨_, _, hform, hm⟩

end Moment

end Crossing
