import Crossing.Proofs.Families

/-!
# Failures in the exchange and in script code

Nothing that the border does goes on after a failure, and of what script code
does only the step that is for it.

- `Proc.HostFamily.strict`: procedures that do not go on after a failure are closed
  under what procedures are made of;
- `Script.strict_playStep`: what steps of script code do.
-/

namespace Crossing

variable {α : Type}

namespace Proc

/-- What keeps to its own does not go on after a failure. -/
theorem Keeps.strict {p : Proc α} (h : p.Keeps .own) : p.Keeps .strict := by
  induction p with
  | done a => trivial
  | stop s => trivial
  | ask q next ih => exact ⟨nofun, fun x => ih x (h.2 x)⟩
  | act c next ih => exact ⟨nofun, fun x => ih x (h.2 x)⟩
  | task t next ih => exact ⟨nofun, fun x => ih x (h.2 x)⟩
  | inside s part next ihPart ihNext =>
    exact ⟨nofun, ihPart h.2.1, fun x => ihNext x (h.2.2 x)⟩
  | attempt part next _ _ => exact absurd h.1 Bool.false_ne_true
  | loop part next ihPart ihNext => exact ⟨ihPart h.1, ihNext h.2⟩

theorem strict_query (q : Query α) : (query q).Keeps .strict := keeps_query nofun

theorem strict_change (c : Change α) : (change c).Keeps .strict := keeps_change nofun

theorem strict_internNow (name : String) (kind : SymbolKind) :
    (Border.internNow name kind).Keeps .strict :=
  (strict_change _).bind fun _ => (strict_change _).bind fun _ => (strict_change _).bind fun _ =>
    (strict_change _).bind fun _ => (strict_change _).bind fun _ => trivial

/-- Procedures that do not go on after a failure. -/
def HostFamily.strict : HostFamily where
  Has p := p.Keeps .strict
  host := Keeps.strict
  sequence := Keeps.bind
  query := strict_query
  change c _ := strict_change c
  internNow := strict_internNow
  task _ := ⟨nofun, fun _ => trivial⟩
  within _ _ _ := keeps_within nofun

/-- The procedures that recover from nothing. -/
def Family.strict : Family := HostFamily.strict.toFamily

end Proc

/-- No builtin goes on after a failure. -/
theorem Builtin.strict_run (b : Builtin) (args : List Obj) : (b.run args).Keeps .strict :=
  b.has_run .strict args

/-- The only step that goes on after a failure is the one that is for it. -/
theorem Script.strict_playStep (args : List Value) {deed : Deed} (hdeed : deed.recovers = false)
    (target : Option String) (logged : Bool) :
    (playStep args (.mk deed target logged)).Keeps .strict :=
  has_playStep (F := .strict) args (fun h => absurd (h.symm.trans hdeed) Bool.noConfusion) target
    logged

end Crossing
