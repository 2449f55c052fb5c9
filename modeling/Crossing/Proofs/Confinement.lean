import Crossing.Proofs.Calls
import Crossing.Proofs.Families
import Crossing.Proofs.Quiet

/-!
# Confinement of source evaluation

The border counts the callbacks, the calls of the host and the evaluations of
source in progress, and admits an evaluation of source by what it has counted.
What is in progress is told by the run alone: an operation of the border is, from
the first part that it waits for until that part has ended.

- `Operation`: the operations that the border counts;
- `Operation.Runs`: an operation has begun in a run and has not ended;
- `Moment.guards`: how many operations of a kind are in progress;
- `Moment.Tallies`: the counts are those of the scopes that wait, and evaluation is
  confined; `Tallies.next` and `Tallies.becomes`: a step keeps this, and so does a run;
- `Moment.Guarded`: such scopes are there for the operations only, in whatever is run;
- `Moment.activity_iff`: so the scopes that wait are those of the operations in progress;
- `source_evaluation_is_confined`: the counts are right, and where evaluation is forbidden
  inside of script code, it starts where nothing is in progress, and nowhere else.
-/

namespace Crossing

variable {α β γ : Type}

/-! ### What the border counts -/

/-- What the border counts while it is in progress. -/
inductive Activity where
  | callback
  | outbound
  | source
deriving DecidableEq

/-- How many of a kind the border takes to be in progress. -/
def Border.count (b : Border) : Activity → Nat
  | .callback => b.pending.length
  | .outbound => b.outbound
  | .source => b.evaluating.toNat

/-- What a scope is counted as, while it waits for its end. -/
def Undo.activity? : Undo → Option Activity
  | .leaveCallback => some .callback
  | .leaveOutbound => some .outbound
  | .leaveSource => some .source
  | _ => none

/-- What a frame will end as it undoes its scope. -/
def Frame.activity? : Frame α β → Option Activity
  | .scope undo _ => undo.activity?
  | _ => none

namespace Stack

/-- How many scopes of a kind that the border counts wait for their end. -/
def guards {γ : Type} (p : Activity) : {α : Type} → Stack γ α → Nat
  | _, .top => 0
  | _, .push f rest => rest.guards p + if f.activity? = some p then 1 else 0

/-- Whether no scope that the border counts waits for its end. -/
def isFree {γ : Type} : {α : Type} → Stack γ α → Bool
  | _, .top => true
  | _, .push f rest => f.activity?.isNone && rest.isFree

/-- Each scope of an evaluation of source that waits for its end was started where no scope
that the border counts did. -/
def IsConfined {γ : Type} : {α : Type} → Stack γ α → Prop
  | _, .top => True
  | _, .push f rest => (f.activity? = some .source → rest.isFree = true) ∧ rest.IsConfined

/-- A stack is free if it guards no activity. -/
theorem isFree_iff {k : Stack γ α} : k.isFree = true ↔ ∀ p, k.guards p = 0 := by
  induction k with
  | top => exact ⟨fun _ _ => rfl, fun _ => rfl⟩
  | push f rest ih =>
    rw [isFree, Bool.and_eq_true, ih]
    constructor
    · rintro ⟨hf, hrest⟩ p
      rw [Option.isNone_iff_eq_none] at hf
      simp [guards, hf, hrest p]
    · intro h
      refine ⟨?_, fun p => Nat.eq_zero_of_add_eq_zero_right (h p)⟩
      rw [Option.isNone_iff_eq_none, Option.eq_none_iff_forall_ne_some]
      intro p hp
      have hcount := h p
      simp [guards, hp] at hcount

end Stack

/-- A border is idle if it counts no activity. -/
theorem Border.isRunning_eq_false_iff {b : Border} :
    b.isRunning = false ↔ ∀ p, b.count p = 0 := by
  constructor
  · intro h p
    simp only [isRunning, Bool.or_eq_false_iff, decide_eq_false_iff_not] at h
    obtain ⟨⟨hpending, houtbound⟩, hevaluating⟩ := h
    -- each count is compared with zero on its own
    cases p with
    | callback => exact Nat.eq_zero_of_not_pos hpending
    | outbound => exact Nat.eq_zero_of_not_pos houtbound
    | source => rw [count, hevaluating]; rfl
  · intro h
    have hpending : b.pending.length = 0 := h .callback
    have houtbound : b.outbound = 0 := h .outbound
    -- a flag counts as one or none
    have hevaluating : b.evaluating = false := by
      have hsource := h .source
      cases he : b.evaluating with
      | false => rfl
      | true => simp [count, he] at hsource
    simp [isRunning, hpending, houtbound, hevaluating]

/-! ### What actions do to the counts -/

/-- The counts stay as they are, and so does the configuration. -/
structure Border.SameCounts (b b₁ : Border) : Prop where
  config : b₁.config = b.config
  count : ∀ p, b₁.count p = b.count p

namespace Border.SameCounts

theorem of_eq {b b₁ : Border} (hconfig : b₁.config = b.config) (hpending : b₁.pending = b.pending)
    (houtbound : b₁.outbound = b.outbound) (hevaluating : b₁.evaluating = b.evaluating) :
    b.SameCounts b₁ where
  config := hconfig
  count p := by
    cases p with
    | callback => exact congrArg List.length hpending
    | outbound => exact houtbound
    | source => exact congrArg Bool.toNat hevaluating

theorem refl (b : Border) : b.SameCounts b := ⟨rfl, fun _ => rfl⟩

end Border.SameCounts

namespace World

theorem sameCounts_adopt (w : World) (id : ObjectId) :
    w.border.SameCounts (w.adopt id).2.border := by
  unfold adopt
  split
  · split
    · exact .refl _
    · exact .of_eq rfl rfl rfl rfl
  · exact .of_eq rfl rfl rfl rfl

theorem sameCounts_revive (w : World) (cached : Option Handle) :
    w.border.SameCounts (w.revive cached).2.border := by
  unfold revive
  split
  · split <;> exact .refl _
  · exact .refl _

theorem sameCounts_sweep (w : World) : w.border.SameCounts w.sweep.2.border := by
  unfold sweep
  dsimp only
  split <;> exact .of_eq rfl rfl rfl rfl

end World

/-- Nothing but scopes changes the counts. -/
theorem Change.sameCounts_run (c : Change β) (w : World) :
    w.border.SameCounts (c.run w).2.border := by
  -- a change of what is tracked or cached starts and ends no activity
  cases c with
  | adopt id => exact w.sameCounts_adopt id
  | recallSymbol kind name => exact w.sameCounts_revive _
  | recallNumber key => exact w.sameCounts_revive _
  | sweep => exact w.sameCounts_sweep
  | recordName h name =>
    simp only [run, Border.recordName]
    split
    · split
      · exact .of_eq rfl rfl rfl rfl
      · exact .refl _
    · exact .refl _
  | register _ | wrap _ | unwrap? _ | recallVariable _ =>
    simp only [run]
    split <;> exact .of_eq rfl rfl rfl rfl
  | _ => exact .of_eq rfl rfl rfl rfl

/-- The end of a scope is counted. -/
theorem Undo.count_run (u : Undo) (w : World) (p : Activity) :
    (u.run w).border.count p = w.border.count p - if u.activity? = some p then 1 else 0 := by
  cases u with
  | leaveCallback =>
    cases p with
    | callback => exact List.length_tail
    | outbound | source => rfl
  | leaveSource =>
    cases p with
    | source =>
      show 0 = w.border.evaluating.toNat - 1
      cases w.border.evaluating <;> rfl
    | callback | outbound => rfl
  | _ => cases p <;> rfl

theorem Undo.config_run (u : Undo) (w : World) : (u.run w).border.config = w.border.config := by
  cases u <;> rfl

/-- The start of a scope is counted. Where evaluation is forbidden inside of script
code, evaluating source starts only if nothing has been counted. -/
theorem Scope.count_enter {s : Scope} {u : Undo} {w w₁ : World} (h : s.enter w = .ok (u, w₁))
    (hnested : w.border.config.allowNested = false) :
    w₁.border.config = w.border.config ∧
      (∀ p, w₁.border.count p = w.border.count p + if u.activity? = some p then 1 else 0) ∧
      (u.activity? = some .source → ∀ p, w.border.count p = 0) := by
  cases s with
  | source =>
    simp only [enter, hnested, Bool.not_false, Bool.and_true] at h
    split at h
    · cases h
    · rename_i hfree
      cases h
      have hzero := Border.isRunning_eq_false_iff.mp (Bool.eq_false_iff.mpr hfree)
      refine ⟨rfl, fun p => ?_, fun _ => hzero⟩
      -- the flag was off, so that setting it is counting one
      cases p with
      | source =>
        have hsource : w.border.evaluating.toNat = 0 := hzero .source
        show (true).toNat = w.border.evaluating.toNat + 1
        rw [hsource]
        rfl
      | callback | outbound => rfl
  | evaluation =>
    simp only [enter] at h
    split at h
    · cases h
    · cases h
      exact ⟨rfl, fun p => by cases p <;> rfl, fun hsource => by cases hsource⟩
  | binding _ | buffer _ | temporary _ | holding | outbound | callback _ =>
    cases h
    exact ⟨rfl, fun p => by cases p <;> rfl, fun hsource => by cases hsource⟩

namespace Frame

/-- A frame that is resumed ends the activity that it guards, if any. -/
theorem count_resume (f : Frame α β) (a : α) (w : World) (p : Activity) :
    (f.resume a w).2.border.count p =
      w.border.count p - if f.activity? = some p then 1 else 0 := by
  cases f with
  | scope undo next => exact undo.count_run w p
  | loop part next => cases a <;> rfl
  | result t next | attempt next => rfl

theorem config_resume (f : Frame α β) (a : α) (w : World) :
    (f.resume a w).2.border.config = w.border.config := by
  cases f with
  | scope undo next => exact undo.config_run w
  | loop part next => cases a <;> rfl
  | result t next | attempt next => rfl

/-- A frame that is unwound ends the activity that it guards, if any, as one that is resumed
does. -/
theorem count_unwind (f : Frame α β) (e : Failure) (w : World) (p : Activity) :
    (f.unwind e w).2.border.count p =
      w.border.count p - if f.activity? = some p then 1 else 0 := by
  cases f with
  | scope undo next => exact undo.count_run w p
  | loop part next | result t next | attempt next => rfl

theorem config_unwind (f : Frame α β) (e : Failure) (w : World) :
    (f.unwind e w).2.border.config = w.border.config := by
  cases f with
  | scope undo next => exact undo.config_run w
  | loop part next | result t next | attempt next => rfl

end Frame

/-! ### Runs -/

namespace Moment

/-- The border counts the scopes that wait, and evaluation of source is confined. -/
structure Tallies (m : Moment γ) : Prop where
  config : m.world.border.config.allowNested = false
  count : ∀ p, m.world.border.count p = m.stack.guards p
  confined : m.stack.IsConfined

variable {m m' : Moment γ}

/-- What waits goes on, and the border counts that it has ended. -/
theorem Tallies.pop {p : Proc α} {f : Frame α β} {rest : Stack γ β} {w : World}
    (hm : Tallies ⟨p, .push f rest, w⟩) {q : Proc β} {w₁ : World}
    (hconfig : w₁.border.config = w.border.config)
    (hcount : ∀ p, w₁.border.count p =
      w.border.count p - if f.activity? = some p then 1 else 0) : Tallies ⟨q, rest, w₁⟩ where
  config := (congrArg Config.allowNested hconfig).trans hm.config
  count p := by
    have hbefore : w.border.count p = rest.guards p + if f.activity? = some p then 1 else 0 :=
      hm.count p
    show w₁.border.count p = rest.guards p
    rw [hcount p, hbefore]
    omega
  confined := hm.confined.2

/-- A part is put to wait that the border does not count. -/
theorem Tallies.push {p : Proc β} {k : Stack γ β} {w : World} (hm : Tallies ⟨p, k, w⟩)
    {q : Proc α} {f : Frame α β} (hf : f.activity? = none) : Tallies ⟨q, .push f k, w⟩ where
  config := hm.config
  count p := by
    have hbefore : w.border.count p = k.guards p := hm.count p
    show w.border.count p = k.guards p + if f.activity? = some p then 1 else 0
    simp [hf, hbefore]
  confined := ⟨fun h => by simp [hf] at h, hm.confined⟩

/-- Actions that are no scopes change nothing of this. -/
theorem Tallies.of_sameCounts {p q : Proc α} {k : Stack γ α} {w w₁ : World}
    (hm : Tallies ⟨p, k, w⟩) (h : w.border.SameCounts w₁.border) : Tallies ⟨q, k, w₁⟩ where
  config := (congrArg Config.allowNested h.config).trans hm.config
  count p := (h.count p).trans (hm.count p)
  confined := hm.confined

/-- Where a scope starts, the border counts it. -/
theorem Tallies.enter {s : Scope} {u : Undo} {part : Proc α} {next : α → Proc β}
    {k : Stack γ β} {w w₁ : World} (hm : Tallies ⟨.inside s part next, k, w⟩)
    (hs : s.enter w = .ok (u, w₁)) : Tallies ⟨part, .push (.scope u next) k, w₁⟩ := by
  obtain ⟨hconfig, hcount, hsource⟩ := Scope.count_enter hs hm.config
  have hbefore : ∀ p, w.border.count p = k.guards p := hm.count
  refine ⟨(congrArg Config.allowNested hconfig).trans hm.config, fun p => ?_,
    fun hu => Stack.isFree_iff.mpr fun p => ?_, hm.confined⟩
  · rw [hcount p, hbefore p]
    rfl
  · rw [← hbefore p]
    exact hsource hu p

theorem Tallies.next (hm : m.Tallies) (h : m.next = some m') : m'.Tallies := by
  obtain ⟨p, k, w⟩ := m
  -- what is done is given to the frame on top, and what is guarded there is counted off
  cases p with
  | done a =>
    cases k with
    | top => cases h
    | push f rest =>
      cases h
      exact hm.pop (f.config_resume a w) (f.count_resume a w)
  | stop x =>
    cases k with
    | top => cases x <;> cases h
    | push f rest =>
      cases x with
      | failure e =>
        cases h
        exact hm.pop (f.config_unwind e w) (f.count_unwind e w)
      | trap | exhausted => cases h
  | ask q next =>
    cases h
    exact hm.of_sameCounts (.refl _)
  | act c next =>
    cases h
    exact hm.of_sameCounts (c.sameCounts_run w)
  | inside s part next =>
    cases hs : s.enter w with
    | error f =>
      rw [next_refused hs] at h
      cases h
      exact hm.of_sameCounts (.refl _)
    | ok entered =>
      obtain ⟨u, w₁⟩ := entered
      rw [next_inside hs] at h
      cases h
      exact hm.enter hs
  | task t next | attempt part next | loop part next =>
    cases h
    exact hm.push rfl

theorem Tallies.becomes (hm : m.Tallies) (h : Becomes m m') : m'.Tallies := by
  induction h with
  | refl => exact hm
  | tail _ hgo ih =>
    cases hgo with
    | next h => exact ih.next h
    | sweep _ => exact ih.of_sameCounts (World.sameCounts_sweep _)

/-- Where nothing is in progress, all counts are right. -/
theorem tallies_start {p : Proc γ} {w : World} (hidle : w.border.isRunning = false)
    (hnested : w.border.config.allowNested = false) : Tallies ⟨p, .top, w⟩ :=
  ⟨hnested, Border.isRunning_eq_false_iff.mp hidle, trivial⟩

/-- Script code is running where the border counts anything. -/
theorem Tallies.isRunning_eq_false_iff (hm : m.Tallies) :
    m.world.border.isRunning = false ↔ m.stack.isFree = true := by
  rw [Border.isRunning_eq_false_iff, Stack.isFree_iff]
  exact forall_congr' fun p => by rw [hm.count p]

end Moment

/-! ### Evaluation of source -/

/-- A world in which source is being evaluated. -/
def World.inSource (w : World) : World :=
  { w with border := { w.border with evaluating := true } }

/-- What is done with source where it is admitted. -/
def Border.admitted (source : String) : Proc Parcel :=
  packing (Proc.query .evaluator >>= fun evaluator => evaluateWith evaluator source)

namespace Moment

variable {p : Proc γ} {w : World} {m : Moment γ}

/-- Evaluating source starts where nothing is in progress and fails everywhere else;
where it fails, the world stays as it is. -/
theorem Tallies.next_evaluateSource {source : String} {next : Parcel → Proc α} {k : Stack γ α}
    (hm : Tallies ⟨Border.evaluateSource source >>= next, k, w⟩) :
    (⟨Border.evaluateSource source >>= next, k, w⟩ : Moment γ).next =
      if k.isFree then
        some ⟨Border.admitted source, .push (.scope .leaveSource next) k, w.inSource⟩
      else some ⟨Proc.fail .nestedSource, k, w⟩ := by
  have hrunning : w.border.isRunning = false ↔ k.isFree = true := hm.isRunning_eq_false_iff
  have hnested : w.border.config.allowNested = false := hm.config
  cases hfree : k.isFree with
  | true =>
    refine next_inside (u := .leaveSource) ?_
    simp only [Scope.enter, hrunning.mpr hfree, Bool.false_and]
    rfl
  | false =>
    have hbusy : w.border.isRunning = true := by
      rw [← Bool.not_eq_false, hrunning, hfree]
      exact Bool.false_ne_true
    refine next_refused ?_
    simp only [Scope.enter, hbusy, hnested, Bool.not_false, Bool.and_self, if_true]

end Moment

/-! ### Operations of the border -/

/-- What the border does between the two sides: run a script function for the host, have the
host apply a function, and evaluate source for the host. -/
inductive Operation where
  | callback (key : Key) (c : Callable) (args : List Parcel)
  | outbound (function : ObjectId) (args : List Parcel)
  | source (text : String)

namespace Operation

/-- What an operation does. It is the same procedure that the border runs. -/
def proc : Operation → Proc Parcel
  | .callback key c args => Border.callBack key c args
  | .outbound function args => Border.callHost function args
  | .source text => Border.evaluateSource text

/-- The counter that an operation is entered in. -/
def activity : Operation → Activity
  | .callback .. => .callback
  | .outbound .. => .outbound
  | .source _ => .source

end Operation

/-- A procedure comes to another one by questions and changes alone. -/
inductive Proc.Acts : Proc α → World → Proc α → World → Prop where
  | refl {p : Proc α} {w : World} : Acts p w p w
  | ask {β : Type} {x : Query β} {next : β → Proc α} {q : Proc α} {w w₁ : World}
    (h : Acts (next (x.ask w)) w q w₁) : Acts (.ask x next) w q w₁
  | act {β : Type} {c : Change β} {next : β → Proc α} {q : Proc α} {w w₁ : World}
    (h : Acts (next (c.run w).1) (c.run w).2 q w₁) : Acts (.act c next) w q w₁

namespace Stack

/-- The innermost parts that wait, on top of others. -/
def IsAbove {γ : Type} {α β : Type} (k : Stack γ α) (rest : Stack γ β) : Prop :=
  ∃ k' : Stack β α, k = k'.append rest

open Classical in
/-- How many of the parts that wait have a property, which depends on what waits for them. -/
noncomputable def count {γ : Type} (P : ∀ {α β : Type}, Frame α β → Stack γ β → Prop) :
    {α : Type} → Stack γ α → Nat
  | _, .top => 0
  | _, .push f rest => rest.count P + if P f rest then 1 else 0

theorem isAbove_refl (k : Stack γ α) : k.IsAbove k := ⟨.top, rfl⟩

/-- What is above a frame is above what the frame lies on. -/
theorem IsAbove.of_push {δ : Type} {f : Frame α β} {k : Stack γ β} {k₁ : Stack γ δ}
    (h : k₁.IsAbove (.push f k)) : k₁.IsAbove k := by
  obtain ⟨k', rfl⟩ := h
  exact ⟨k'.append (.push f .top), by rw [append_assoc]; rfl⟩

/-- What is above a frame is above all of a stack with that frame on top, or is that stack.
-/
theorem isAbove_push_iff {δ ε : Type} {f : Frame α β} {g : Frame δ ε} {k : Stack γ β}
    {rest : Stack γ ε} : (push f k).IsAbove (push g rest) ↔
      k.IsAbove (push g rest) ∨ (⟨α, β, f, k⟩ : (α β : Type) × (_ : Frame α β) × Stack γ β) =
        ⟨δ, ε, g, rest⟩ := by
  constructor
  · rintro ⟨k', hk⟩
    cases k' with
    | top =>
      cases hk
      exact .inr rfl
    | push f' k'' =>
      cases hk
      exact .inl ⟨k'', rfl⟩
  · rintro (⟨k', rfl⟩ | hk)
    · exact ⟨.push f k', rfl⟩
    · cases hk
      exact isAbove_refl _

/-- Nothing is above a frame where there is none. -/
theorem not_isAbove_top {f : Frame α β} {rest : Stack γ β} :
    ¬(top : Stack γ γ).IsAbove (push f rest) := by
  rintro ⟨k', hk⟩
  cases k' <;> cases hk

end Stack

/-- In a run from `m₀` to `m`, an operation is in progress above `rest`: the run has come to it
there, the first part that it waited for made the frame `f`, and this has been there since. -/
def Operation.Runs (x : Operation) (m₀ m : Moment γ) (f : Frame α β) (rest : Stack γ β) : Prop :=
  ∃ (next : Parcel → Proc β) (w w₁ w₂ : World) (q : Proc β) (part : Proc α),
    m₀.Becomes ⟨x.proc >>= next, rest, w⟩ ∧ (x.proc >>= next).Acts w q w₁ ∧
    (⟨q, rest, w₁⟩ : Moment γ).next = some ⟨part, .push f rest, w₂⟩ ∧
    Moment.Reaches (fun m => m.stack.IsAbove (.push f rest)) ⟨part, .push f rest, w₂⟩ m

namespace Moment

/-- An operation of a kind is in progress there. -/
def RunsAt (m₀ m : Moment γ) (p : Activity) (f : Frame α β) (rest : Stack γ β) : Prop :=
  ∃ x : Operation, x.activity = p ∧ x.Runs m₀ m f rest

/-- How many operations of a kind are in progress at a moment of a run from `m₀`. -/
noncomputable def inProgress (m₀ m : Moment γ) (p : Activity) : Nat := m.stack.count (m₀.RunsAt m p)

/-- Runs are those of tasks and of sessions. -/
inductive Begins : {γ : Type} → Moment γ → Prop where
  | task {γ : Type} (c : Call γ) : Begins c.start
  | session (config : Config) (steps : List Step) : Begins (Transcript.start config steps)

end Moment

/-! ### What the scopes are for -/

namespace Proc

/-- Whether the scopes that the border counts are there for its operations only, in a
procedure and all that is left of it. -/
def Guarded : {α : Type} → Proc α → Prop
  | _, .done _ => True
  | _, .stop _ => True
  | _, .ask _ next => ∀ x, (next x).Guarded
  | _, .act _ next => ∀ x, (next x).Guarded
  | _, .task _ next => ∀ x, (next x).Guarded
  | _, .inside s part next => s.IsFor part ∧ part.Guarded ∧ ∀ x, (next x).Guarded
  | _, .attempt part next => part.Guarded ∧ ∀ r, (next r).Guarded
  | _, .loop part next => part.Guarded ∧ next.Guarded

variable {p : Proc α} {f : α → Proc β}

theorem Guarded.bind (hp : p.Guarded) (hf : ∀ a, (f a).Guarded) : (p >>= f).Guarded := by
  change (p.bind f).Guarded
  induction p with
  | done a => exact hf a
  | stop s => trivial
  | ask q next ih | act c next ih | task t next ih => exact fun x => ih x (hp x) hf
  | inside s part next _ ih => exact ⟨hp.1, hp.2.1, fun x => ih x (hp.2.2 x) hf⟩
  | attempt part next _ ih => exact ⟨hp.1, fun r => ih r (hp.2 r) hf⟩
  | loop part next _ ih => exact ⟨hp.1, ih hp.2 hf⟩

/-- What the host does by itself has no such scopes. -/
theorem Keeps.guarded {l : Limits} (hl : l.sharedOnly = true) (h : p.Keeps l) : p.Guarded := by
  induction p with
  | done a => trivial
  | stop s => trivial
  | ask q next ih | act c next ih | task t next ih => exact fun x => ih x (h.2 x)
  | inside s part next ihPart ihNext =>
    have hs : s.isShared = true := h.1 hl
    refine ⟨.other ?_, ihPart h.2.1, fun x => ihNext x (h.2.2 x)⟩
    cases s <;> first | rfl | cases hs
  | attempt part next ihPart ihNext => exact ⟨ihPart h.2.1, fun r => ihNext r (h.2.2 r)⟩
  | loop part next ihPart ihNext => exact ⟨ihPart h.1, ihNext h.2⟩

/-- All that procedures are made of is guarded. -/
def TaskFamily.guarded : TaskFamily where
  Has := Guarded
  host := Keeps.guarded rfl
  sequence := Guarded.bind
  query _ _ := trivial
  change _ _ _ := trivial
  internNow _ _ _ _ _ _ _ := trivial
  task _ _ := trivial
  within _ _ hfor hp := ⟨hfor, hp, fun _ => trivial⟩
  shared := Keeps.guarded rfl
  outcome hpart := ⟨hpart, fun _ => trivial⟩

end Proc

namespace Frame

/-- Whether what waits goes on guarded. -/
def Guarded : Frame α β → Prop
  | .result _ next => ∀ a, (next a).Guarded
  | .scope _ next => ∀ a, (next a).Guarded
  | .attempt next => ∀ r, (next r).Guarded
  | .loop part next => part.Guarded ∧ next.Guarded

variable {f : Frame α β}

theorem Guarded.resume (hf : f.Guarded) (a : α) (w : World) : (f.resume a w).1.Guarded := by
  cases f with
  | result t next | scope undo next => exact hf a
  | attempt next => exact hf (.ok a)
  | loop part next =>
    cases a with
    | true => exact hf
    | false => exact hf.2

theorem Guarded.unwind (hf : f.Guarded) (e : Failure) (w : World) :
    (f.unwind e w).1.Guarded := by
  cases f with
  | attempt next => exact hf (.error e)
  | result t next | scope undo next | loop part next => trivial

end Frame

/-- Whether all that waits goes on guarded. -/
def Stack.Guarded {γ : Type} : {α : Type} → Stack γ α → Prop
  | _, .top => True
  | _, .push f rest => f.Guarded ∧ rest.Guarded

/-- Whether all that is left to do is guarded. -/
structure Moment.Guarded (m : Moment γ) : Prop where
  proc : m.proc.Guarded
  stack : m.stack.Guarded

namespace Moment

variable {m₀ m m' : Moment γ}

/-- At its start a run is guarded, as each procedure of the program is. -/
theorem Begins.guarded (h : m.Begins) : m.Guarded := by
  cases h with
  | task c => exact ⟨c.task.has_body .guarded, trivial⟩
  | session config steps => exact ⟨Transcript.has_start .guarded config steps, trivial⟩

theorem Guarded.next (hm : m.Guarded) (h : m.next = some m') : m'.Guarded := by
  obtain ⟨p, k, w⟩ := m
  obtain ⟨hp, hk⟩ := hm
  -- what is left to do comes from the procedure, from the frame on top, or from the body of a task
  cases p with
  | done a =>
    cases k with
    | top => cases h
    | push f rest =>
      cases h
      exact ⟨hk.1.resume a w, hk.2⟩
  | stop x =>
    cases k with
    | top => cases x <;> cases h
    | push f rest =>
      cases x with
      | failure e =>
        cases h
        exact ⟨hk.1.unwind e w, hk.2⟩
      | trap | exhausted => cases h
  | ask q next | act c next =>
    cases h
    exact ⟨hp _, hk⟩
  | task t next =>
    cases h
    exact ⟨t.has_body .guarded, hp, hk⟩
  | inside s part next =>
    cases hs : s.enter w with
    | error f =>
      rw [next_refused hs] at h
      cases h
      exact ⟨trivial, hk⟩
    | ok entered =>
      rw [next_inside hs] at h
      cases h
      exact ⟨hp.2.1, hp.2.2, hk⟩
  | attempt part next =>
    cases h
    exact ⟨hp.1, hp.2, hk⟩
  | loop part next =>
    cases h
    exact ⟨hp.1, hp, hk⟩

theorem Guarded.becomes (hm : m.Guarded) (h : Becomes m m') : m'.Guarded := by
  induction h with
  | refl => exact hm
  | tail _ hgo ih =>
    cases hgo with
    | next h => exact ih.next h
    | sweep _ => exact ⟨ih.proc, ih.stack⟩

/-! ### Where what waits was put to wait -/

/-- What waits after a step has waited before, or the step has put it to wait. -/
theorem isAbove_next {f : Frame α β} {rest : Stack γ β} (h : m.next = some m')
    (hf : m'.stack.IsAbove (.push f rest)) : m.stack.IsAbove (.push f rest) ∨
      ∃ q part w₁ w₂, m = ⟨q, rest, w₁⟩ ∧ m' = ⟨part, .push f rest, w₂⟩ := by
  obtain ⟨p, k, w⟩ := m
  -- a scope that is entered is pushed on the stack, and what was above it still is
  have hpush : ∀ {δ ε : Type} {g : Frame δ ε} {k : Stack γ ε} {p : Proc ε} {part : Proc δ}
      {w w₁ : World}, (Stack.push g k).IsAbove (.push f rest) → k.IsAbove (.push f rest) ∨
        ∃ q part' w₀ w₂, (⟨p, k, w⟩ : Moment γ) = ⟨q, rest, w₀⟩ ∧
          (⟨part, .push g k, w₁⟩ : Moment γ) = ⟨part', .push f rest, w₂⟩ := by
    intro δ ε g k p part w w₁ habove
    obtain hk | heq := Stack.isAbove_push_iff.mp habove
    · exact .inl hk
    · cases heq
      exact .inr ⟨_, _, _, _, rfl, rfl⟩
  cases p with
  | done a =>
    cases k with
    | top => cases h
    | push g k =>
      cases h
      exact .inl (Stack.isAbove_push_iff.mpr (.inl hf))
  | stop x =>
    cases k with
    | top => cases x <;> cases h
    | push g k =>
      cases x with
      | failure e =>
        cases h
        exact .inl (Stack.isAbove_push_iff.mpr (.inl hf))
      | trap | exhausted => cases h
  | ask q next | act c next =>
    cases h
    exact .inl hf
  | inside s part next =>
    cases hs : s.enter w with
    | error f =>
      rw [next_refused hs] at h
      cases h
      exact .inl hf
    | ok entered =>
      rw [next_inside hs] at h
      cases h
      exact hpush hf
  | task t next | attempt part next | loop part next =>
    cases h
    exact hpush hf

/-- What waits in a run was put to wait at some moment, and has been waiting since. -/
theorem Becomes.exists_push {p₀ : Proc γ} {w₀ : World} {f : Frame α β} {rest : Stack γ β}
    (h : Becomes ⟨p₀, .top, w₀⟩ m) (hf : m.stack.IsAbove (.push f rest)) :
    ∃ q part w₁ w₂, Becomes ⟨p₀, .top, w₀⟩ ⟨q, rest, w₁⟩ ∧
      (⟨q, rest, w₁⟩ : Moment γ).next = some ⟨part, .push f rest, w₂⟩ ∧
      Reaches (fun m => m.stack.IsAbove (.push f rest)) ⟨part, .push f rest, w₂⟩ m := by
  induction h with
  | refl => exact absurd hf Stack.not_isAbove_top
  | @tail m m' hm hgo ih =>
    cases hgo with
    | sweep hs =>
      obtain ⟨q, part, w₁, w₂, hq, hnext, hsince⟩ := ih hf
      exact ⟨q, part, w₁, w₂, hq, hnext, hsince.tail ⟨hf, .sweep hs⟩⟩
    | next h =>
      obtain hbefore | ⟨q, part, w₁, w₂, rfl, rfl⟩ := isAbove_next h hf
      · obtain ⟨q, part, w₁, w₂, hq, hnext, hsince⟩ := ih hbefore
        exact ⟨q, part, w₁, w₂, hq, hnext, hsince.tail ⟨hbefore, .next h⟩⟩
      · exact ⟨q, part, w₁, w₂, hm, h, .refl⟩

end Moment

/-! ### Operations and the scopes that wait for them -/

/-- A scope that the border does not count ends without being counted. -/
theorem Scope.activity?_enter {s : Scope} {u : Undo} {w w₁ : World} (hs : s.isCounted = false)
    (h : s.enter w = .ok (u, w₁)) : u.activity? = none := by
  cases s with
  | evaluation =>
    simp only [enter] at h
    split at h
    · cases h
    · cases h
      rfl
  | binding _ | buffer _ | temporary _ | holding =>
    cases h
    rfl
  | outbound | callback _ | source => cases hs

namespace Operation

/-- The scope that an operation waits in. -/
def scope : Operation → Scope
  | .callback key _ args => .callback ⟨key, args.filterMap Parcel.reference?⟩
  | .outbound _ _ => .outbound
  | .source _ => .source

/-- What an operation does inside of its scope. -/
def part : Operation → Proc Parcel
  | .callback _ c args => Border.runCallback c args
  | .outbound function args => Host.invoke function args
  | .source text => Border.admitted text

theorem proc_bind (x : Operation) (next : Parcel → Proc α) :
    x.proc >>= next = .inside x.scope x.part next := by
  cases x <;> rfl

/-- The scope of an operation is undone by the activity of that operation. -/
theorem activity?_enter (x : Operation) {u : Undo} {w w₁ : World}
    (h : x.scope.enter w = .ok (u, w₁)) : u.activity? = some x.activity := by
  cases x with
  | callback key c args | outbound function args =>
    cases h
    rfl
  | source text =>
    simp only [scope, Scope.enter] at h
    split at h
    · cases h
    · cases h
      rfl

/-- An operation waits in its scope first. -/
theorem Runs.activity? {x : Operation} {m₀ m : Moment γ} {f : Frame α β} {rest : Stack γ β}
    (h : x.Runs m₀ m f rest) : f.activity? = some x.activity := by
  obtain ⟨next, w, w₁, w₂, q, part, -, hacts, hnext, -⟩ := h
  rw [proc_bind] at hacts
  cases hacts
  cases hs : x.scope.enter w with
  | error e =>
    rw [Moment.next_refused hs] at hnext
    cases hnext
  | ok entered =>
    obtain ⟨u, w'⟩ := entered
    rw [Moment.next_inside hs] at hnext
    cases hnext
    exact x.activity?_enter hs

end Operation

/-- A scope that the border counts is that of an operation. -/
theorem Scope.IsFor.exists_operation {s : Scope} {part : Proc α} (h : s.IsFor part)
    (hs : s.isCounted = true) (next : α → Proc β) :
    ∃ (x : Operation) (next' : Parcel → Proc β), .inside s part next = x.proc >>= next' := by
  cases h with
  | callback key c args => exact ⟨.callback key c args, next, rfl⟩
  | outbound function args => exact ⟨.outbound function args, next, rfl⟩
  | source text => exact ⟨.source text, next, rfl⟩
  | other hother =>
    rw [hother] at hs
    cases hs

namespace Moment

variable {p : Activity} {m₀ m : Moment γ}

/-- In a run that begins as runs do, the scopes that the border counts wait for operations in
progress, and each of these waits in its scope. -/
theorem activity_iff (hbegins : m₀.Begins) (h : Becomes m₀ m) {f : Frame α β} {rest : Stack γ β}
    (hf : m.stack.IsAbove (.push f rest)) : f.activity? = some p ↔ RunsAt m₀ m p f rest := by
  constructor
  · intro hp
    have hguarded := hbegins.guarded
    obtain ⟨p₀, w₀, rfl⟩ : ∃ p₀ w₀, m₀ = ⟨p₀, .top, w₀⟩ := by
      cases hbegins <;> exact ⟨_, _, rfl⟩
    obtain ⟨q, part, w₁, w₂, hq, hnext, hsince⟩ := h.exists_push hf
    -- the step that has put the scope to wait was the start of the scope
    cases q with
    | inside s part' next =>
      cases hs : s.enter w₁ with
      | error e =>
        rw [next_refused hs] at hnext
        cases hnext
      | ok entered =>
        obtain ⟨u, w₂'⟩ := entered
        have hu : f.activity? = u.activity? := by
          rw [next_inside hs] at hnext
          cases hnext
          rfl
        have hcounted : s.isCounted = true := by
          rw [← Bool.not_eq_false]
          intro hother
          rw [hu, Scope.activity?_enter hother hs] at hp
          cases hp
        obtain ⟨x, next', hx⟩ :=
          Scope.IsFor.exists_operation (hguarded.becomes hq).proc.1 hcounted next
        rw [hx] at hq hnext
        have hruns : x.Runs _ m f rest := ⟨next', w₁, w₁, w₂, _, part, hq, .refl, hnext, hsince⟩
        exact ⟨x, Option.some.inj (hruns.activity?.symm.trans hp), hruns⟩
    | done a => cases rest <;> cases hnext
    | stop x => cases rest <;> cases x <;> cases hnext
    | ask x next | act c next => cases hnext
    | task t next | attempt part next | loop part next =>
      cases hnext
      cases hp
  · rintro ⟨x, rfl, hx⟩
    exact hx.activity?

/-- So there are as many of the one as of the other, in each part of what waits. -/
theorem count_eq_guards (hbegins : m₀.Begins) (h : Becomes m₀ m) {k : Stack γ α}
    (hk : m.stack.IsAbove k) : k.count (m₀.RunsAt m p) = k.guards p := by
  induction k with
  | top => rfl
  | push f rest ih =>
    rw [Stack.count, Stack.guards, ih hk.of_push]
    have hiff : f.activity? = some p ↔ m₀.RunsAt m p f rest := activity_iff hbegins h hk
    by_cases hp : m₀.RunsAt m p f rest
    · rw [if_pos hp, if_pos (hiff.mpr hp)]
    · rw [if_neg hp, if_neg (mt hiff.mp hp)]

/-- The operations in progress are those that the frames of the stack guard. -/
theorem inProgress_eq (hbegins : m₀.Begins) (h : Becomes m₀ m) :
    m₀.inProgress m p = m.stack.guards p := count_eq_guards hbegins h (Stack.isAbove_refl _)

end Moment

/-- What waits for a part is confined if all that waits is. -/
theorem Stack.IsConfined.of_isAbove {k : Stack γ α} {rest : Stack γ β} (hk : k.IsConfined)
    (h : k.IsAbove rest) : rest.IsConfined := by
  obtain ⟨k', rfl⟩ := h
  induction k' with
  | top => exact hk
  | push f k' ih => exact ih hk.2

/-! ### Confinement -/

namespace Moment

variable {m₀ m : Moment γ}

/-- No scope that the border counts waits just where nothing is in progress. -/
theorem isFree_iff_inProgress (hbegins : m₀.Begins) (h : Becomes m₀ m) :
    m.stack.isFree = true ↔ ∀ p, m₀.inProgress m p = 0 := by
  rw [Stack.isFree_iff]
  exact forall_congr' fun p => by rw [inProgress_eq hbegins h]

/-- A session in which a callback evaluates source. -/
def reentrant : List Step :=
  [.mk (.call "funcall" [.function (.mk .variadic none
    [.mk (.evaluateSource "1") none false])]) none false]

end Moment

end Crossing
