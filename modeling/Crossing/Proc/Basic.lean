import Crossing.Proc.Action

/-!
# Procedures

A procedure is a tree of actions and tasks: what to do next, depending on what
came back. Running one changes the world and ends with a result or a `Stop`.

- `Proc` is the type of procedures, a monad;
- `Proc.runWith` runs one, given how tasks are run;
- `runWith_bind`: running a sequence is running its parts in sequence;
- `Proc.within` runs a part inside of a scope, `Proc.keeping` runs a part and
  holds only what it gives back.
-/

namespace Crossing

/-- Why a procedure ends without a result. -/
inductive Stop where
  | failure (f : Failure)
  /-- Integer division whose quotient is no fixnum. It ends the whole run, and
  nothing is undone or cleaned up. -/
  | trap
  /-- Tasks are nested too deep, or a loop runs too long, to be run at all. -/
  | exhausted

/-- A procedure with results of type `α`. -/
inductive Proc : Type → Type 1 where
  | done {α : Type} (a : α) : Proc α
  | stop {α : Type} (s : Stop) : Proc α
  | ask {α β : Type} (q : Query β) (next : β → Proc α) : Proc α
  | act {α β : Type} (c : Change β) (next : β → Proc α) : Proc α
  | task {α β : Type} (t : Task β) (next : β → Proc α) : Proc α
  /-- Runs a part inside of a scope, unless the scope is refused. The scope ends
  with the part, whether that gives a result or fails. -/
  | inside {α β : Type} (s : Scope) (part : Proc β) (next : β → Proc α) : Proc α
  /-- Runs a part and goes on with its result or failure. -/
  | attempt {α β : Type} (part : Proc β) (next : Except Failure β → Proc α) : Proc α
  /-- Repeats a part for as long as it gives `true`. -/
  | loop {α : Type} (part : Proc Bool) (next : Proc α) : Proc α

namespace Proc

variable {α β γ : Type}

/-! ## Sequence -/

def bind {α β : Type} : Proc α → (α → Proc β) → Proc β
  | .done a, f => f a
  | .stop s, _ => .stop s
  | .ask q next, f => .ask q fun x => (next x).bind f
  | .act c next, f => .act c fun x => (next x).bind f
  | .task t next, f => .task t fun x => (next x).bind f
  | .inside s part next, f => .inside s part fun x => (next x).bind f
  | .attempt part next, f => .attempt part fun x => (next x).bind f
  | .loop part next, f => .loop part (next.bind f)

instance : Monad Proc where
  pure := .done
  bind := Proc.bind

theorem bind_done (p : Proc α) : p.bind .done = p := by
  induction p with
  | done a => rfl
  | stop s => rfl
  | ask q next ih => simp [bind, ih]
  | act c next ih => simp [bind, ih]
  | task t next ih => simp [bind, ih]
  | inside s part next _ ih => simp [bind, ih]
  | attempt part next _ ih => simp [bind, ih]
  | loop part next _ ih => simp [bind, ih]

theorem bind_bind (p : Proc α) (f : α → Proc β) (g : β → Proc γ) :
    (p.bind f).bind g = p.bind fun a => (f a).bind g := by
  induction p with
  | done a => rfl
  | stop s => rfl
  | ask q next ih => simp [bind, ih]
  | act c next ih => simp [bind, ih]
  | task t next ih => simp [bind, ih]
  | inside s part next _ ih => simp [bind, ih]
  | attempt part next _ ih => simp [bind, ih]
  | loop part next _ ih => simp [bind, ih]

instance : LawfulMonad Proc := LawfulMonad.mk'
  Proc bind_done (fun _ _ => rfl) bind_bind

/-! ## Running -/

/-- How a run ends, and the world then. -/
abbrev Result (α : Type) := Except Stop α × World

/-- How tasks are run. -/
abbrev Runner := {β : Type} → Task β → World → Result β

/-- Repeats a run for as long as it gives `true`, at most `n` times. -/
def iterate (body : World → Result Bool) : (n : Nat) → World → Result Unit
  | 0, w => (.error .exhausted, w)
  | n + 1, w =>
    match body w with
    | (.ok true, w) => iterate body n w
    | (.ok false, w) => (.ok (), w)
    | (.error s, w) => (.error s, w)

/-- Runs a procedure, given how often a loop is repeated at most and how tasks
are run. -/
def runWith (rounds : Nat) (runner : Runner) {α : Type} : Proc α → World → Result α
  | .done a, w => (.ok a, w)
  | .stop s, w => (.error s, w)
  | .ask q next, w => (next (q.ask w)).runWith rounds runner w
  | .act c next, w =>
    match c.run w with
    | (x, w) => (next x).runWith rounds runner w
  | .task t next, w =>
    match runner t w with
    | (.ok x, w) => (next x).runWith rounds runner w
    | (.error s, w) => (.error s, w)
  | .inside s part next, w =>
    match s.enter w with
    | .error f => (.error (.failure f), w)
    | .ok (undo, w) =>
      match part.runWith rounds runner w with
      | (.ok x, w) => (next x).runWith rounds runner (undo.run w)
      | (.error (.failure f), w) => (.error (.failure f), undo.run w)
      | (.error s, w) => (.error s, w)
  | .attempt part next, w =>
    match part.runWith rounds runner w with
    | (.ok x, w) => (next (.ok x)).runWith rounds runner w
    | (.error (.failure f), w) => (next (.error f)).runWith rounds runner w
    | (.error s, w) => (.error s, w)
  | .loop part next, w =>
    match iterate (part.runWith rounds runner) rounds w with
    | (.ok (), w) => next.runWith rounds runner w
    | (.error s, w) => (.error s, w)

/-- Running a sequence is running its parts in sequence. -/
theorem runWith_bind (rounds : Nat) (runner : Runner) (p : Proc α) (f : α → Proc β) (w : World) :
    (p.bind f).runWith rounds runner w =
      match p.runWith rounds runner w with
      | (.ok a, w) => (f a).runWith rounds runner w
      | (.error s, w) => (.error s, w) := by
  induction p generalizing w with
  | done a => rfl
  | stop s => rfl
  | ask q next ih => simp only [bind, runWith, ih]
  | act c next ih => simp only [bind, runWith, ih]
  | task t next ih =>
    simp only [bind, runWith]
    rcases runner t w with ⟨x | x, w⟩ <;> simp only [ih]
  | inside s part next _ ih =>
    simp only [bind, runWith]
    rcases s.enter w with f | ⟨undo, w⟩
    · rfl
    · dsimp only
      rcases part.runWith rounds runner w with ⟨x | x, w⟩
      · cases x <;> rfl
      · simp only [ih]
  | attempt part next _ ih =>
    simp only [bind, runWith]
    rcases part.runWith rounds runner w with ⟨x | x, w⟩
    · cases x <;> simp only [ih]
    · simp only [ih]
  | loop part next _ ih =>
    simp only [bind, runWith]
    rcases iterate (part.runWith rounds runner) rounds w with ⟨x | x, w⟩ <;> simp only [ih]

/-! ## Building blocks -/

def query (q : Query α) : Proc α := .ask q .done

def change (c : Change α) : Proc α := .act c .done

def perform (t : Task α) : Proc α := .task t .done

def fail (f : Failure) : Proc α := .stop (.failure f)

/-- Fails with an error of the host. -/
def signal (s : Signal) : Proc α := fail (.signal s)

/-- Gives a result that is there already, or fails. -/
def ofExcept : Except Failure α → Proc α
  | .ok a => .done a
  | .error f => fail f

def heap : Proc Heap := query .heap

/-- Makes an object. -/
def make (f : Fresh) : Proc Obj := change (.make f)

/-- Runs a part inside of a scope. -/
def within (s : Scope) (part : Proc α) : Proc α := .inside s part .done

/-- Runs a part and gives its result or failure. -/
def outcome (part : Proc α) : Proc (Except Failure α) := .attempt part .done

/-- Repeats a part for as long as it gives `true`. -/
def repeating (part : Proc Bool) : Proc Unit := .loop part (.done ())

/-- Runs a part; the handles it comes to hold are given up at its end. -/
def holding (part : Proc α) : Proc α := within .holding part

end Proc

/-- Results that may contain handles. -/
class Holds (α : Type) where
  handles : α → List Handle

instance : Holds Value := ⟨Value.handles⟩

instance : Holds Handle := ⟨fun h => [h]⟩

instance : Holds Unit := ⟨fun _ => []⟩

instance {α β : Type} [Holds α] [Holds β] : Holds (α × β) :=
  ⟨fun p => Holds.handles p.1 ++ Holds.handles p.2⟩

/-- Runs a part and then holds what it gives back; the other handles that it
came to hold are given up at its end. -/
def Proc.keeping {α : Type} [Holds α] (part : Proc α) : Proc α := do
  let a ← holding part
  change (.hold (Holds.handles a))
  pure a

end Crossing
