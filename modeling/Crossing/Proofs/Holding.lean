import Crossing.Proofs.Calls
import Crossing.Proofs.Growth
import Crossing.Proofs.LiveHandles

/-!
# Handles that are held

A handle that running code holds stays held until the part of the run that holds it has
come to its end. Inside of the part further handles may come to be held, and go again
with the scopes that they came in.

- `Change.held_run`: changes let nothing go;
- `Moment.Holds`: some handles are held, and still will be when the scopes inside of the
  part have ended;
- `Moment.Holds.reaches`: so it is at every moment of the part;
- `Moment.KeepsUntilEnd`, `Moment.keepsUntilEnd`: a session keeps the object of such a
  handle at least as long.
-/

namespace Crossing

variable {α β γ : Type} {hs : List Handle} {w w₁ : World}

/-! ### Changes -/

namespace World

theorem held_hold (w : World) (hs : List Handle) : w.script.held <:+ (w.hold hs).script.held :=
  List.suffix_append hs _

theorem held_adopt (w : World) (id : ObjectId) :
    w.script.held <:+ (w.adopt id).2.script.held := by
  unfold adopt
  split
  · split
    · exact held_hold w _
    · exact List.suffix_cons _ _
  · exact List.suffix_cons _ _

theorem held_revive (w : World) (cached : Option Handle) :
    w.script.held <:+ (w.revive cached).2.script.held := by
  obtain ⟨h, -, -, heq⟩ | heq := w.revive_cases cached
  · rw [heq]
    exact held_hold w _
  · simp only [heq, List.suffix_rfl]

theorem held_sweep (w : World) : w.sweep.2.script.held = w.script.held := by
  unfold sweep
  dsimp only
  split <;> rfl

end World

/-- Changes let no handle go. -/
theorem Change.held_run (c : Change α) (w : World) :
    w.script.held <:+ (c.run w).2.script.held := by
  -- handles are only ever put in front of those that are held
  cases c with
  | adopt id => exact w.held_adopt id
  | recallSymbol _ _ => exact w.held_revive _
  | recallNumber _ => exact w.held_revive _
  | unwrap? key =>
    rw [run]
    split
    · exact w.held_hold _
    · exact List.suffix_rfl
  | hold hs => exact w.held_hold hs
  | recallVariable name =>
    rw [run]
    split
    · exact w.held_hold _
    · exact List.suffix_rfl
  | sweep => exact w.held_sweep ▸ List.suffix_rfl
  | register _ | wrap _ =>
    rw [run]
    split <;> exact List.suffix_rfl
  | _ => exact List.suffix_rfl

/-! ### Scopes -/

/-- The end of a scope leaves some handles held. -/
def Undo.Holds (hs : List Handle) : Undo → Prop
  | .holdOnly hs' => hs <:+ hs'
  | _ => True

/-- What holds more handles holds fewer. -/
theorem Undo.Holds.of_suffix {hs' : List Handle} {u : Undo} (hu : u.Holds hs)
    (h : hs' <:+ hs) : u.Holds hs' := by
  cases u with
  | holdOnly held => exact h.trans hu
  | _ => trivial

theorem Undo.held_run {u : Undo} (hu : u.Holds hs) (hw : hs <:+ w.script.held) :
    hs <:+ (u.run w).script.held := by
  cases u with
  | holdOnly hs' => exact hu
  | _ => exact hw

/-- At the end of a scope, what was held at its start is held. -/
theorem Scope.holds_enter {s : Scope} {u : Undo} (hs : s.enter w = .ok (u, w₁)) :
    u.Holds w.script.held ∧ w₁.script.held = w.script.held := by
  cases s with
  | holding =>
    cases hs
    exact ⟨List.suffix_rfl, rfl⟩
  | evaluation | source =>
    simp only [enter] at hs
    split at hs
    · cases hs
    · cases hs
      exact ⟨trivial, rfl⟩
  | _ =>
    cases hs
    exact ⟨trivial, rfl⟩

/-! ### Moments -/

/-- Whatever ends of what waits, some handles stay held. -/
def Stack.Holds (hs : List Handle) : {α : Type} → Stack γ α → Prop
  | _, .top => True
  | _, .push (.scope u _) rest => u.Holds hs ∧ rest.Holds hs
  | _, .push _ rest => rest.Holds hs

namespace Moment

variable {m m' : Moment γ}

/-- Running code holds some handles, and still will when the scopes that wait have ended. -/
structure Holds (hs : List Handle) (m : Moment γ) : Prop where
  held : hs <:+ m.world.script.held
  stack : m.stack.Holds hs

theorem Holds.next (hm : m.Holds hs) (h : m.next = some m') : m'.Holds hs := by
  obtain ⟨p, k, w⟩ := m
  obtain ⟨hheld, hstack⟩ := hm
  unfold Moment.next nextTold at h
  -- what a frame relies on is held while it is on the stack
  cases p with
  | done a =>
    cases k with
    | top => cases h
    | push f rest =>
      cases h
      cases f with
      | scope u next => exact ⟨u.held_run hstack.1 hheld, hstack.2⟩
      | loop part next => cases a <;> exact ⟨hheld, hstack⟩
      | result t next | attempt next => exact ⟨hheld, hstack⟩
  | stop s =>
    cases k with
    | top => cases s <;> cases h
    | push f rest =>
      cases s with
      | failure e =>
        cases h
        cases f with
        | scope u next => exact ⟨u.held_run hstack.1 hheld, hstack.2⟩
        | result t next | attempt next | loop part next => exact ⟨hheld, hstack⟩
      | trap | exhausted => cases h
  | act c next =>
    cases h
    exact ⟨hheld.trans (c.held_run w), hstack⟩
  | inside s part next =>
    simp only [advance] at h
    split at h
    · cases h
      exact ⟨hheld, hstack⟩
    · rename_i u w₁ hs
      cases h
      obtain ⟨hu, hsame⟩ := Scope.holds_enter hs
      refine ⟨?_, ?_, hstack⟩
      · change _ <:+ w₁.script.held
        rw [hsame]
        exact hheld
      · exact hu.of_suffix hheld
  | ask _ _ | task _ _ | attempt _ _ | loop _ _ =>
    cases h
    exact ⟨hheld, hstack⟩

/-- Each step, sweeps among them, holds what frames below rely on. -/
theorem Holds.goes (hm : m.Holds hs) (h : Goes m m') : m'.Holds hs := by
  cases h with
  | next h => exact hm.next h
  | sweep h =>
    refine ⟨?_, hm.stack⟩
    change hs <:+ m.world.sweep.2.script.held
    rw [World.held_sweep]
    exact hm.held

theorem Holds.reaches {ok : Moment γ → Prop} (hm : m.Holds hs) (h : Reaches ok m m') :
    m'.Holds hs := by
  induction h with
  | refl => exact hm
  | tail _ hgo ih => exact ih.goes hgo.2

end Moment

/-! ### Objects of held handles -/

/-- A handle is live, and the host keeps an object for it. -/
structure World.Refers (w : World) (h : Handle) (o : Obj) : Prop where
  live : h ∈ w.roots
  kept : w.host.resolve? h.id = some o

/-- What running code holds is live. -/
theorem World.mem_roots_of_held {h : Handle} (hh : h ∈ w.script.held) : h ∈ w.roots :=
  List.mem_append_left _ (List.mem_append_left _ hh)

namespace Moment

variable {Z : γ → γ → Prop} {p : Proc α} {k : Stack γ α} {h : Handle} {o : Obj}

/-- In a session that goes on with `p` on top of `k`, a handle stays live and stands for the
same object, with sweeps anywhere, at every moment until `p` has come to its end, and at
that moment. -/
def KeepsUntilEnd (h : Handle) (o : Obj) (p : Proc α) (k : Stack γ α) (w : World) : Prop :=
  ∀ n : Moment γ, Reaches (Licensed .careful) ⟨p, k, w⟩ n → n.world.Refers h o ∨
    ∃ r w₁, Reaches (Licensed .careful) ⟨p, k, w⟩ ⟨Proc.ofExcept r, k, w₁⟩ ∧ w₁.Refers h o ∧
      Reaches (Licensed .careful) ⟨Proc.ofExcept r, k, w₁⟩ n

/-- What running code holds when a part begins, it holds until the part ends. -/
theorem keepsUntilEnd (hm : Alike .careful Z (⟨p, k, w⟩ : Moment γ) ⟨p, k, w⟩)
    (hheld : h ∈ w.script.held) (ho : w.host.resolve? h.id = some o) :
    KeepsUntilEnd h o p k w := by
  let part : Moment α := ⟨p, .top, w⟩
  have hstart : part.Holds w.script.held := ⟨List.suffix_rfl, trivial⟩
  -- what is held by the frames below stays live, and so it resolves to the same object
  have hrefers : ∀ l : Moment α, Reaches (fun m => (m.atop k).Licensed .careful) part l →
      Reaches (Licensed .careful) ⟨p, k, w⟩ (l.atop k) ∧ l.world.Refers h o := by
    intro l hl
    have hsession : Reaches (Licensed .careful) (part.atop k) (l.atop k) :=
      Relation.ReflTransGen.lift (fun m : Moment α => m.atop k)
        (fun _ _ hgo => ⟨hgo.1, hgo.2.atop k⟩) _ _ hl
    have hlive := World.mem_roots_of_held ((hstart.reaches hl).held.subset hheld)
    refine ⟨hsession, hlive, ?_⟩
    exact (hm.resolve?_eq nofun hsession (World.mem_roots_of_held hheld) hlive).trans ho
  intro n hn
  obtain ⟨l, hl, rfl⟩ | ⟨r, w₁, hl, hrest⟩ := Reaches.atop_cases (m := part) hn
  · exact .inl (hrefers l hl).2
  · obtain ⟨hsession, hend⟩ := hrefers _ hl
    exact .inr ⟨r, w₁, hsession, hend, hrest⟩

end Moment

end Crossing
