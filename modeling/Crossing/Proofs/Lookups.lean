import Crossing.Proofs.Families
import Crossing.Proofs.Growth
import Crossing.Proofs.LiveHandles
import Crossing.Proofs.Quiet

/-!
# Lookups in runs

A lookup that is not answered from memory asks the host, notes the name for the
handle, and remembers the handle, all in five changes one right after the other.
Names are noted and remembered in no other way, so that what is remembered in a run
was looked up before.

- `Proc.Orderly`: procedures in which these five changes come together;
- `Task.orderly_body`, `Transcript.orderly_start`: all procedures of a session are such;
- `Moment.orderly_or_asking`: a moment of a run is inside of a lookup that asks the
  host, or what is left to do is orderly;
- `Moment.Reaches.exists_lookup`: whoever remembers a handle has looked it up;
- `Moment.Reaches.remembers`: a live handle is remembered until the name is looked up
  afresh.
-/

namespace Crossing

variable {α β γ : Type}

namespace Proc

/-- Whether the lookups of a procedure that ask the host come as a whole: names are
noted and remembered nowhere else. -/
inductive Orderly : {α : Type} → Proc α → Prop where
  | done {α : Type} (a : α) : Orderly (.done a)
  | stop {α : Type} (s : Stop) : Orderly (.stop s : Proc α)
  | ask {α β : Type} {q : Query β} {next : β → Proc α} (h : ∀ x, Orderly (next x)) :
    Orderly (.ask q next)
  | act {α β : Type} {c : Change β} {next : β → Proc α} (hc : c.notesName = false)
    (h : ∀ x, Orderly (next x)) : Orderly (.act c next)
  | internNow {α : Type} {name : String} {kind : SymbolKind} {next : Handle → Proc α}
    (h : ∀ x, Orderly (next x)) : Orderly (Border.internNow name kind >>= next)
  | task {α β : Type} {t : Task β} {next : β → Proc α} (h : ∀ x, Orderly (next x)) :
    Orderly (.task t next)
  | inside {α β : Type} {s : Scope} {part : Proc β} {next : β → Proc α}
    (hpart : Orderly part) (h : ∀ x, Orderly (next x)) : Orderly (.inside s part next)
  | attempt {α β : Type} {part : Proc β} {next : Except Failure β → Proc α}
    (hpart : Orderly part) (h : ∀ x, Orderly (next x)) : Orderly (.attempt part next)
  | loop {α : Type} {part : Proc Bool} {next : Proc α} (hpart : Orderly part)
    (h : Orderly next) : Orderly (.loop part next)

variable {p : Proc α} {f : α → Proc β} {name : String} {kind : SymbolKind}

theorem Orderly.bind (hp : p.Orderly) (hf : ∀ a, (f a).Orderly) : (p >>= f).Orderly := by
  induction hp with
  | done a => exact hf a
  | stop s => exact .stop s
  | ask _ ih => exact .ask fun x => ih x hf
  | act hc _ ih => exact .act hc fun x => ih x hf
  | internNow _ ih =>
    rw [bind_assoc]
    exact .internNow fun x => ih x hf
  | task _ ih => exact .task fun x => ih x hf
  | inside hpart _ _ ih => exact .inside hpart fun x => ih x hf
  | attempt hpart _ _ ih => exact .attempt hpart fun x => ih x hf
  | loop hpart _ _ ih => exact .loop hpart (ih hf)

/-- What the host does by itself notes no names. -/
theorem Keeps.orderly {l : Limits} (hl : l.sharedOnly = true) (h : p.Keeps l) : p.Orderly := by
  induction p with
  | done a => exact .done a
  | stop s => exact .stop s
  | ask q next ih => exact .ask fun x => ih x (h.2 x)
  | act c next ih =>
    have hc : c.isShared = true := h.1 hl
    refine .act ?_ fun x => ih x (h.2 x)
    cases c <;> first | rfl | cases hc
  | task t next ih => exact .task fun x => ih x (h.2 x)
  | inside s part next ihPart ihNext =>
    exact .inside (ihPart h.2.1) fun x => ihNext x (h.2.2 x)
  | attempt part next ihPart ihNext =>
    exact .attempt (ihPart h.2.1) fun x => ihNext x (h.2.2 x)
  | loop part next ihPart ihNext => exact .loop (ihPart h.1) (ihNext h.2)

theorem orderly_internNow (name : String) (kind : SymbolKind) :
    (Border.internNow name kind).Orderly :=
  bind_pure (Border.internNow name kind) ▸ Orderly.internNow fun h => Orderly.done h

theorem Orderly.within (hp : p.Orderly) (s : Scope) : (within s p).Orderly :=
  .inside hp fun _ => .done _

/-- Orderly procedures are closed under what procedures are made of. -/
def HostFamily.orderly : HostFamily where
  Has := Orderly
  host := Keeps.orderly rfl
  sequence := Orderly.bind
  query _ := .ask fun _ => .done _
  change _ hc := .act hc fun _ => .done _
  internNow := orderly_internNow
  task _ := .task fun _ => .done _
  within s _ _ hp := hp.within s

/-! ### What is left of a lookup -/

/-- Whether a name is about to be interned. -/
def interns : Proc α → Bool
  | .act (.intern _) _ => true
  | _ => false

/-- Whether a procedure may be about to look up a symbol. -/
def startsLookup : Proc α → Bool
  | .act (.intern _) _ => true
  | .act (.recallSymbol _ _) _ => true
  | _ => false

/-- A change other than the first one of a lookup comes by itself. -/
theorem Orderly.of_act {c : Change β} {next : β → Proc α}
    (hp : (Proc.act c next).Orderly) (hc : (Proc.act c next).interns = false) :
    c.notesName = false ∧ ∀ x, (next x).Orderly := by
  generalize hact : Proc.act c next = p at hp
  cases hp with
  | act hc' h =>
    cases hact
    exact ⟨hc', h⟩
  | internNow h =>
    rw [hact] at hc
    cases hc
  | _ => cases hact

/-- What follows a lookup is orderly. -/
theorem Orderly.of_internNow {next : Handle → Proc α}
    (hp : (Border.internNow name kind >>= next).Orderly) (h : Handle) : (next h).Orderly := by
  generalize hlook : Border.internNow name kind >>= next = p at hp
  cases hp with
  | @act _ _ c next' hc' hnext =>
    -- the fourth change of a lookup does not come by itself
    cases hlook
    obtain ⟨-, hnext⟩ := (hnext .nil).of_act rfl
    obtain ⟨-, hnext⟩ := (hnext ⟨0⟩).of_act rfl
    exact absurd ((hnext h).of_act rfl).1 Bool.noConfusion
  | @internNow _ name' kind' next' hnext =>
    have hchanges := (Proc.act.inj hlook).2.2
    have hadopt := Proc.act.inj (congrFun (eq_of_heq hchanges) .nil)
    have hrecord := Proc.act.inj (congrFun (eq_of_heq hadopt.2.2) ⟨0⟩)
    have hcache := Proc.act.inj (congrFun (eq_of_heq hrecord.2.2) h)
    have hrest := Proc.act.inj (congrFun (eq_of_heq hcache.2.2) ())
    have heq : next h = next' h := congrFun (eq_of_heq hrest.2.2) ()
    rw [heq]
    exact hnext h
  | _ => cases hlook

/-- What goes on from a lookup is orderly, whatever handle it gets. -/
theorem Orderly.of_lookup {cached : Bool} {next : Handle → Proc α}
    (hp : (Border.lookup name kind cached >>= next).Orderly) (h : Handle) :
    (next h).Orderly := by
  cases cached with
  | false => exact Orderly.of_internNow hp h
  | true => exact (Orderly.of_act hp rfl).2 (some h)

end Proc

/-! ### Procedures of sessions -/

/-- Orderly procedures may go on after a failure. -/
def Proc.TaskFamily.orderly : Proc.TaskFamily where
  toHostFamily := .orderly
  shared := Proc.Keeps.orderly rfl
  outcome hpart := .attempt hpart fun r => .done r

/-- All that tasks do is orderly. -/
theorem Task.orderly_body (t : Task α) : t.body.Orderly := t.has_body .orderly

namespace Frame

/-- Whether what waits goes on in an orderly way. -/
def Orderly : Frame α β → Prop
  | .result _ next => ∀ a, (next a).Orderly
  | .scope _ next => ∀ a, (next a).Orderly
  | .attempt next => ∀ r, (next r).Orderly
  | .loop part next => part.Orderly ∧ next.Orderly

variable {f : Frame α β}

theorem Orderly.resume (hf : f.Orderly) (a : α) (w : World) : (f.resume a w).1.Orderly := by
  cases f with
  | result t next | scope undo next => exact hf a
  | attempt next => exact hf (.ok a)
  | loop part next =>
    cases a with
    | true => exact .loop hf.1 hf.2
    | false => exact hf.2

theorem Orderly.unwind (hf : f.Orderly) (e : Failure) (w : World) :
    (f.unwind e w).1.Orderly := by
  cases f with
  | attempt next => exact hf (.error e)
  | result t next | scope undo next | loop part next => exact .stop _

end Frame

/-- Whether all that waits goes on in an orderly way. -/
def Stack.Orderly : {α : Type} → Stack γ α → Prop
  | _, .top => True
  | _, .push f rest => f.Orderly ∧ rest.Orderly

/-- Whether all that is left to do is orderly. -/
structure Moment.Orderly (m : Moment γ) : Prop where
  proc : m.proc.Orderly
  stack : m.stack.Orderly

/-- Sessions are orderly. -/
theorem Transcript.orderly_start (config : Config) (steps : List Step) :
    (start config steps).Orderly where
  proc := has_start .orderly config steps
  stack := trivial

/-! ### Lookups that ask the host -/

theorem Interpreter.heap_retain (i : Interpreter) (o : Obj) : (i.retain o).2.heap = i.heap := by
  unfold retain
  split <;> rfl

theorem Interpreter.symbols_retain (i : Interpreter) (o : Obj) :
    (i.retain o).2.symbols = i.symbols := by
  unfold retain
  split <;> rfl

/-- A lookup that asks the host, where it starts. -/
structure Lookup (γ : Type) where
  {α : Type}
  name : String
  kind : SymbolKind
  next : Handle → Proc α
  stack : Stack γ α
  world : World

namespace Lookup

variable (l : Lookup γ)

def start : Moment γ := ⟨Border.internNow l.name l.kind >>= l.next, l.stack, l.world⟩

/-- What the host interns the name to. -/
def object : Obj := (l.world.host.intern l.name).1

/-- The host has interned the name. -/
def interned : World := ((Change.intern l.name).run l.world).2

/-- The number under which the host keeps the object. -/
def id : ObjectId := ((Change.retain l.object).run l.interned).1

/-- The world once the symbol is retained. -/
def retained : World := ((Change.retain l.object).run l.interned).2

/-- The handle that the lookup gives. -/
def handle : Handle := (l.retained.adopt l.id).1

/-- The world once the handle is made. -/
def adopted : World := (l.retained.adopt l.id).2

/-- The name has been noted for the handle. -/
def noted : World := ((Change.recordName l.handle l.name).run l.adopted).2

/-- The handle has been remembered for the name. -/
def remembered : World := ((Change.cacheSymbol l.kind l.name l.handle).run l.noted).2

/-- The lookup has given the handle. -/
def finish : Moment γ := ⟨l.next l.handle, l.stack, l.remembered⟩

/-- The handle is for the number of the symbol. -/
theorem id_handle : l.handle.id = l.id := World.id_adopt _ _

/-- After the lookup, the host keeps the object and is otherwise as it was. -/
theorem host_remembered : l.remembered.host = (l.interned.host.retain l.object).2 :=
  World.host_adopt _ _

/-- The host keeps the object that the handle is for. -/
theorem resolve?_handle (hw : l.world.Sound) :
    l.remembered.host.resolve? l.handle.id = some l.object := by
  have hrest : l.world.SameRest l.interned := Change.sameRest_run rfl l.world
  rw [l.host_remembered, l.id_handle]
  exact Interpreter.resolve?_retain_self (hw.of_rest hrest).host l.object

/-- The name that a lookup is for is a name of the object that its handle is for. -/
theorem names_object (hi : l.world.host.Interned) :
    l.remembered.host.heap.Names l.object l.name := by
  rw [l.host_remembered, Interpreter.heap_retain]
  exact Interpreter.names_intern hi l.name

/-- Running code holds the handle at once. -/
theorem mem_held : l.handle ∈ l.adopted.script.held := World.mem_held_adopt _ _

/-- The handle is live as soon as it is made. -/
theorem mem_roots_adopted : l.handle ∈ l.adopted.roots :=
  List.mem_append_left _ (List.mem_append_left _ l.mem_held)

/-- Running code holds the handle. -/
theorem mem_roots : l.handle ∈ l.remembered.roots :=
  List.mem_append_left _ (List.mem_append_left _ l.mem_held)

/-- The cache remembers the handle. -/
theorem mem_symbolCache : ((l.kind, l.name), l.handle) ∈ l.remembered.border.symbolCache :=
  List.mem_cons_self

/-- Inside of a lookup, no sweep comes in between. -/
theorem goes_after {n : Nat} {m : Moment γ} (hpos : 0 < n) (hn : n < 5)
    (h : Moment.Goes (l.start.after n) m) : m = l.start.after (n + 1) := by
  cases h with
  | next h =>
    have hnext : (l.start.after n).next = some (l.start.after (n + 1)) := by
      obtain rfl | rfl | rfl | rfl : n = 1 ∨ n = 2 ∨ n = 3 ∨ n = 4 := by omega
      all_goals rfl
    exact (Option.some.inj (hnext.symm.trans h)).symm
  | sweep h =>
    have hsafe : (l.start.after n).isSafepoint = false := by
      obtain rfl | rfl | rfl | rfl : n = 1 ∨ n = 2 ∨ n = 3 ∨ n = 4 := by omega
      all_goals rfl
    rw [hsafe] at h
    cases h

end Lookup

namespace Moment

variable {m m' m₀ m₁ : Moment γ} {ok : Moment γ → Prop} {kind : SymbolKind} {name : String}
  {h : Handle}

/-- What is left to do stays orderly, unless a lookup asks the host. -/
theorem Orderly.next (hm : m.Orderly) (hnext : m.next = some m') :
    m'.Orderly ∨ ∃ l : Lookup γ, m = l.start ∧ ∀ x, (l.next x).Orderly := by
  obtain ⟨p, k, w⟩ := m
  have hp : p.Orderly := hm.proc
  have hk : k.Orderly := hm.stack
  unfold Moment.next nextTold at hnext
  -- what is orderly is done in order, so that a lookup that was begun is ended first
  cases hp with
  | done a =>
    cases k with
    | top => cases hnext
    | push f rest =>
      cases hnext
      exact .inl ⟨hk.1.resume a w, hk.2⟩
  | stop s =>
    cases k with
    | top => cases s <;> cases hnext
    | push f rest =>
      cases s with
      | failure e =>
        cases hnext
        exact .inl ⟨hk.1.unwind e w, hk.2⟩
      | trap | exhausted => cases hnext
  | ask h =>
    cases hnext
    exact .inl ⟨h _, hk⟩
  | act hc h =>
    cases hnext
    exact .inl ⟨h _, hk⟩
  | @internNow _ name kind next h => exact .inr ⟨⟨name, kind, next, k, w⟩, rfl, h⟩
  | @task _ _ t next h =>
    cases hnext
    exact .inl ⟨t.orderly_body, h, hk⟩
  | inside hpart h =>
    simp only [advance] at hnext
    split at hnext
    · cases hnext
      exact .inl ⟨.stop _, hk⟩
    · cases hnext
      exact .inl ⟨hpart, h, hk⟩
  | attempt hpart h =>
    cases hnext
    exact .inl ⟨hpart, h, hk⟩
  | loop hpart h =>
    cases hnext
    exact .inl ⟨hpart, ⟨hpart, h⟩, hk⟩

/-- A moment of a run is inside of a lookup that asks the host, or what is left to do
is orderly. -/
theorem Reaches.orderly_or_asking (hr : Reaches ok m₀ m) (hm₀ : m₀.Orderly) :
    m.Orderly ∨ ∃ l : Lookup γ, (Reaches ok m₀ l.start ∧ ok l.start) ∧
      (l.stack.Orderly ∧ ∀ x, (l.next x).Orderly) ∧ ∃ n, 0 < n ∧ n < 5 ∧ m = l.start.after n := by
  -- the induction is on the run; at each moment no lookup is open, or one is under way
  induction hr with
  | refl => exact .inl hm₀
  | @tail m m' hr hgo ih =>
    obtain ⟨hok, hgo⟩ := hgo
    obtain hm | ⟨l, hl, horderly, n, hpos, hn, rfl⟩ := ih
    · cases hgo with
      | sweep _ => exact .inl ⟨hm.proc, hm.stack⟩
      | next hnext =>
        obtain hm' | ⟨l, rfl, hl⟩ := hm.next hnext
        · exact .inl hm'
        · obtain rfl : l.start.after 1 = m' := Option.some.inj hnext
          exact .inr ⟨l, ⟨hr, hok⟩, ⟨hm.stack, hl⟩, 1, Nat.one_pos, by decide, rfl⟩
    · obtain rfl := l.goes_after hpos hn hgo
      -- a lookup takes five steps, and so this one is within it or is its last
      obtain hlt | rfl : n + 1 < 5 ∨ n = 4 := by omega
      · exact .inr ⟨l, hl, horderly, n + 1, Nat.succ_pos n, hlt, rfl⟩
      · exact .inl ⟨horderly.2 l.handle, horderly.1⟩

/-! ### What is remembered -/

end Moment

namespace Change

variable {w : World} {e : (SymbolKind × String) × Handle}

/-- What a change remembers of a lookup. -/
def remembers? : Change α → Option ((SymbolKind × String) × Handle)
  | .cacheSymbol kind name h => some ((kind, name), h)
  | _ => none

/-- Whether a change is a sweep. -/
def isSweep : Change α → Bool
  | .sweep => true
  | _ => false

theorem symbolCache_adopt (w : World) (id : ObjectId) :
    (w.adopt id).2.border.symbolCache = w.border.symbolCache := by
  unfold World.adopt
  split
  · split <;> rfl
  · rfl

theorem symbolCache_revive (w : World) (cached : Option Handle) :
    (w.revive cached).2.border.symbolCache = w.border.symbolCache := by
  unfold World.revive
  split
  · split <;> rfl
  · rfl

/-- Only lookups and sweeps change what is remembered of lookups. -/
theorem symbolCache_run {c : Change α} (hc : c.remembers? = none) (hsweep : c.isSweep = false)
    (w : World) : (c.run w).2.border.symbolCache = w.border.symbolCache := by
  cases c with
  | adopt id => exact symbolCache_adopt w id
  | recallSymbol kind name => exact symbolCache_revive w _
  | recallNumber key => exact symbolCache_revive w _
  | recordName h name =>
    simp only [run, Border.recordName]
    split
    · split <;> rfl
    · rfl
  | register _ | wrap _ | unwrap? _ | recallVariable _ =>
    simp only [run]
    split <;> rfl
  | cacheSymbol _ _ _ => cases hc
  | sweep => cases hsweep
  | _ => rfl

/-- What is remembered after a change has been remembered before, or is what the change
remembers. -/
theorem mem_symbolCache_of_run {c : Change α} (he : e ∈ (c.run w).2.border.symbolCache) :
    e ∈ w.border.symbolCache ∨ c.remembers? = some e := by
  -- a change remembers a symbol, sweeps the cache, or leaves it alone
  cases hc : c.remembers? with
  | some f =>
    cases c with
    | cacheSymbol kind name h =>
      cases hc
      obtain ⟨hkey, hh⟩ | ⟨-, he⟩ := mem_put.mp (show (e.1, e.2) ∈ _ from he)
      · exact .inr (congrArg some (Prod.ext hkey.symm hh.symm))
      · exact .inl he
    | _ => cases hc
  | none =>
    cases hsweep : c.isSweep with
    | false =>
      rw [symbolCache_run hc hsweep] at he
      exact .inl he
    | true =>
      cases c with
      | sweep =>
        change e ∈ w.sweep.2.border.symbolCache at he
        rw [World.border_sweep] at he
        exact .inl (List.mem_filter.mp he).1
      | _ => cases hsweep

/-- What is remembered of a live handle stays remembered, unless another one is
remembered for the name. -/
theorem mem_symbolCache_run {c : Change α} (he : e ∈ w.border.symbolCache)
    (hsweep : c.isSweep = true → e.2 ∈ w.roots) (hc : ∀ f, c.remembers? = some f → e.1 ≠ f.1) :
    e ∈ (c.run w).2.border.symbolCache := by
  by_cases hs : c.isSweep = true
  · cases c with
    | sweep =>
      change e ∈ w.sweep.2.border.symbolCache
      rw [World.border_sweep]
      exact List.mem_filter.mpr ⟨he, World.isLive_iff.mpr (hsweep hs)⟩
    | _ => cases hs
  · cases hr : c.remembers? with
    | none => rwa [symbolCache_run hr (Bool.eq_false_iff.mpr hs)]
    | some f =>
      cases c with
      | cacheSymbol kind name h =>
        cases hr
        exact mem_put.mpr (.inr ⟨hc _ rfl, he⟩)
      | _ => cases hr

end Change

/-- The border remembers the same handles and names. -/
structure Border.SameTables (b b₁ : Border) : Prop where
  config : b₁.config = b.config
  tracked : b₁.tracked = b.tracked
  lastSerial : b₁.lastSerial = b.lastSerial
  symbolCache : b₁.symbolCache = b.symbolCache

/-- Scopes leave what the border remembers as it is. -/
theorem Scope.sameTables_enter {s : Scope} {u : Undo} {w w₁ : World}
    (h : s.enter w = .ok (u, w₁)) : w.border.SameTables w₁.border := by
  cases s with
  | evaluation | source =>
    simp only [enter] at h
    split at h
    · cases h
    · cases h
      exact ⟨rfl, rfl, rfl, rfl⟩
  | _ =>
    cases h
    exact ⟨rfl, rfl, rfl, rfl⟩

/-- To leave a scope leaves the tables alone. -/
theorem Undo.sameTables_run (u : Undo) (w : World) : w.border.SameTables (u.run w).border := by
  cases u <;> exact ⟨rfl, rfl, rfl, rfl⟩

namespace Proc

/-- What a procedure is about to remember of a lookup. -/
def remembers? : Proc α → Option ((SymbolKind × String) × Handle)
  | .act c _ => c.remembers?
  | _ => none

/-- Whether a procedure is about to sweep. -/
def sweeps : Proc α → Bool
  | .act c _ => c.isSweep
  | _ => false

/-- By itself, an orderly procedure remembers nothing. -/
theorem Orderly.remembers? {p : Proc α} (hp : p.Orderly) : p.remembers? = none := by
  cases hp with
  | @act _ _ c next hc _ =>
    change c.remembers? = none
    cases c with
    | cacheSymbol _ _ _ => cases hc
    | _ => rfl
  | _ => rfl

end Proc

namespace Moment

variable {m m' m₀ m₁ : Moment γ} {ok : Moment γ → Prop} {kind : SymbolKind} {name : String}
  {h : Handle} {e : (SymbolKind × String) × Handle}

/-- Whether a sweep may come next, in between or by itself. -/
def maySweep (m : Moment γ) : Bool := m.isSafepoint || m.proc.sweeps

/-- What is in the cache was there before, or is what the step remembers. -/
theorem Goes.mem_symbolCache_of (hgo : Goes m m') (he : e ∈ m'.world.border.symbolCache) :
    e ∈ m.world.border.symbolCache ∨ m.proc.remembers? = some e := by
  -- what is remembered comes from a change; all else leaves the cache alone
  cases hgo with
  | next hnext =>
    obtain heq | ⟨β, c, next, hp, heq⟩ | ⟨s, u, hs⟩ | ⟨u, heq⟩ := world_cases hnext
    · rw [heq] at he
      exact .inl he
    · rw [heq] at he
      rw [hp]
      exact Change.mem_symbolCache_of_run he
    · rw [(Scope.sameTables_enter hs).symbolCache] at he
      exact .inl he
    · rw [heq, (u.sameTables_run _).symbolCache] at he
      exact .inl he
  | sweep _ =>
    obtain he | he := Change.mem_symbolCache_of_run (c := .sweep) he
    · exact .inl he
    · cases he

/-- What is in the cache stays there, unless a sweep takes it or another handle replaces it.
-/
theorem Goes.mem_symbolCache (hgo : Goes m m') (he : e ∈ m.world.border.symbolCache)
    (hsweep : m.maySweep = true → e.2 ∈ m.world.roots)
    (hm : ∀ f, m.proc.remembers? = some f → e.1 ≠ f.1) :
    e ∈ m'.world.border.symbolCache := by
  cases hgo with
  | next hnext =>
    obtain heq | ⟨β, c, next, hp, heq⟩ | ⟨s, u, hs⟩ | ⟨u, heq⟩ := world_cases hnext
    · rwa [heq]
    · rw [heq]
      rw [hp] at hm
      refine Change.mem_symbolCache_run he (fun hc => hsweep ?_) hm
      rw [maySweep, hp, show (Proc.act c next).sweeps = true from hc, Bool.or_true]
    · rwa [(Scope.sameTables_enter hs).symbolCache]
    · rwa [heq, (u.sameTables_run _).symbolCache]
  | sweep hsafe =>
    refine Change.mem_symbolCache_run (c := .sweep) he (fun _ => hsweep ?_) nofun
    rw [maySweep, hsafe, Bool.true_or]

/-- What is about to be remembered in a run has been looked up. -/
theorem Reaches.exists_asking (hr : Reaches ok m₀ m) (hm₀ : m₀.Orderly)
    (he : m.proc.remembers? = some e) :
    ∃ l : Lookup γ, (Reaches ok m₀ l.start ∧ ok l.start) ∧ m = l.start.after 4 ∧
      e = ((l.kind, l.name), l.handle) := by
  obtain hm | ⟨l, hl, -, n, hpos, hn, rfl⟩ := hr.orderly_or_asking hm₀
  · rw [hm.proc.remembers?] at he
    cases he
  · obtain rfl | rfl | rfl | rfl : n = 1 ∨ n = 2 ∨ n = 3 ∨ n = 4 := by omega
    · cases he
    · cases he
    · cases he
    · exact ⟨l, hl, rfl, (Option.some.inj he).symm⟩

/-- Whoever remembers a handle has looked it up. -/
theorem Reaches.exists_lookup (hr : Reaches ok m₀ m) (hm₀ : m₀.Orderly)
    (he : e ∈ m.world.border.symbolCache) :
    e ∈ m₀.world.border.symbolCache ∨
      ∃ l : Lookup γ, Reaches ok m₀ l.start ∧ Reaches ok m₀ l.finish ∧ Reaches ok l.finish m ∧
        e = ((l.kind, l.name), l.handle) := by
  induction hr with
  | refl => exact .inl he
  | @tail m m' hr hgo ih =>
    obtain hbefore | hnow := hgo.2.mem_symbolCache_of he
    · obtain hstart | ⟨l, hl, hfinish, hm, heq⟩ := ih hbefore
      · exact .inl hstart
      · exact .inr ⟨l, hl, hfinish, hm.tail hgo, heq⟩
    · obtain ⟨l, hl, rfl, heq⟩ := Reaches.exists_asking hr hm₀ hnow
      obtain rfl : m' = l.finish := l.goes_after (by decide) (by decide) hgo.2
      exact .inr ⟨l, hl.1, hr.tail hgo, .refl, heq⟩

/-- Whether the host is about to be asked for the symbol of a name. -/
def Asks (kind : SymbolKind) (name : String) (m : Moment γ) : Prop :=
  ∃ l : Lookup γ, m = l.start ∧ l.kind = kind ∧ l.name = name

/-- A handle is remembered for as long as sweeps find it live and the host is not asked
for the name again. -/
theorem Reaches.remembers (hr : Reaches (fun m => (m.maySweep = true → h ∈ m.world.roots) ∧
      ¬m.Asks kind name) m₀ m)
    (hm₀ : m₀.Orderly) (he : ((kind, name), h) ∈ m₀.world.border.symbolCache) :
    ((kind, name), h) ∈ m.world.border.symbolCache := by
  induction hr with
  | refl => exact he
  | @tail m m' hr hgo ih =>
    refine hgo.2.mem_symbolCache ih hgo.1.1 fun f hf heq => ?_
    obtain ⟨l, ⟨-, hok⟩, -, rfl⟩ := Reaches.exists_asking hr hm₀ hf
    obtain ⟨hkind, hname⟩ := Prod.mk.inj heq
    exact hok.2 ⟨l, rfl, hkind.symm, hname.symm⟩

/-! ### Lookups from memory -/

/-- What goes on with the handle of a lookup is orderly. -/
theorem Reaches.orderly_of_lookup {n : String} {cached : Bool} {next : Handle → Proc m.α}
    (hr : Reaches ok m₀ m) (hm₀ : m₀.Orderly)
    (hnext : m.proc = Border.lookup n kind cached >>= next) (h : Handle) (w : World) :
    (⟨next h, m.stack, w⟩ : Moment γ).Orderly := by
  have hstarts : m.proc.startsLookup = true := by
    rw [hnext]
    cases cached <;> rfl
  obtain hm | ⟨l, -, -, i, hpos, hi, rfl⟩ := hr.orderly_or_asking hm₀
  · exact ⟨Proc.Orderly.of_lookup (hnext ▸ hm.proc) h, hm.stack⟩
  · have hinside : (l.start.after i).proc.startsLookup = false := by
      obtain rfl | rfl | rfl | rfl : i = 1 ∨ i = 2 ∨ i = 3 ∨ i = 4 := by omega
      all_goals rfl
    rw [hinside] at hstarts
    cases hstarts

/-- What is remembered for a name is found. -/
theorem find?_symbolCache {w : World} (hw : w.Sound) :
    (w.border.symbolCache.find? fun e => e.1 == (kind, name)).map Prod.snd = some h ↔
      ((kind, name), h) ∈ w.border.symbolCache := find?_key_iff hw.border.symbolKeys

end Moment

namespace Border

variable {n name : String} {kind : SymbolKind} {cached : Bool} {w w₁ : World} {h : Handle}

/-- A lookup gives a handle, and so does a run that goes on with it. -/
structure LooksUp (n : String) (kind : SymbolKind) (cached : Bool) (w : World) (h : Handle)
    (w₁ : World) : Prop where
  run : (lookup n kind cached).run w = (.ok h, w₁)
  passes : ∀ {γ α : Type} (next : Handle → Proc α) (k : Stack γ α),
    Moment.Passes ⟨lookup n kind cached >>= next, k, w⟩ ⟨next h, k, w₁⟩

/-- What is remembered and live is looked up, without asking the host. -/
theorem looksUp_of_mem (hw : w.Sound) (he : ((kind, hostName n kind), h) ∈ w.border.symbolCache)
    (hh : h ∈ w.roots) : LooksUp n kind true w h (w.hold [h]) := by
  have hrecall : (Change.recallSymbol kind (hostName n kind)).run w = (some h, w.hold [h]) := by
    change w.revive _ = _
    rw [(Moment.find?_symbolCache hw).mpr he, World.revive, if_pos (World.isLive_iff.mpr hh)]
  constructor
  · change (Proc.change (.recallSymbol kind (hostName n kind)) >>= _).run w = _
    rw [run_change_bind, hrecall]
    rfl
  · intro γ α next k
    change Moment.Passes ⟨.act (.recallSymbol kind (hostName n kind)) _, k, w⟩ _
    refine .single (Moment.next_act.trans ?_)
    rw [hrecall]
    rfl

/-- A lookup that is not answered from memory asks the host. -/
theorem passes_start (l : Lookup γ) (hname : l.name = hostName n l.kind)
    (hmemory : cached = true →
      (Change.recallSymbol l.kind (hostName n l.kind)).run l.world = (none, l.world)) :
    Moment.Passes ⟨lookup n l.kind cached >>= l.next, l.stack, l.world⟩ l.start := by
  obtain ⟨name, kind, next, k, w⟩ := l
  obtain rfl : name = hostName n kind := hname
  cases cached with
  | false => exact .refl
  | true =>
    change Moment.Passes ⟨.act (.recallSymbol kind (hostName n kind)) _, k, w⟩ _
    refine .single (Moment.next_act.trans ?_)
    rw [hmemory rfl]
    rfl

/-- What the host interns is looked up. -/
theorem looksUp_asking (l : Lookup γ) (hname : l.name = hostName n l.kind)
    (hmemory : cached = true →
      (Change.recallSymbol l.kind (hostName n l.kind)).run l.world = (none, l.world)) :
    LooksUp n l.kind cached l.world l.handle l.remembered where
  run := by
    obtain ⟨name, kind, next, k, w⟩ := l
    obtain rfl : name = hostName n kind := hname
    cases cached with
    | false => rfl
    | true =>
      change (Proc.change (.recallSymbol kind (hostName n kind)) >>= _).run w = _
      rw [run_change_bind, hmemory rfl]
      rfl
  passes next k := by
    -- what goes on with the handle is no part of the lookup
    let asking : Lookup _ := ⟨l.name, l.kind, next, k, l.world⟩
    exact (passes_start asking hname hmemory).trans (Moment.passes_after asking.start 5)

/-- A lookup is answered from memory, or asks the host. -/
theorem looksUp_cases (l : Lookup γ) (hname : l.name = hostName n l.kind) (cached : Bool)
    (hw : l.world.Sound) :
    (∃ h, cached = true ∧ ((l.kind, l.name), h) ∈ l.world.border.symbolCache ∧
      h ∈ l.world.roots ∧ LooksUp n l.kind cached l.world h (l.world.hold [h])) ∨
    (Moment.Passes ⟨lookup n l.kind cached >>= l.next, l.stack, l.world⟩ l.start ∧
      LooksUp n l.kind cached l.world l.handle l.remembered) := by
  obtain ⟨h, hfound, hh, -⟩ | hnone := l.world.revive_cases
    ((l.world.border.symbolCache.find? fun e => e.1 == (l.kind, hostName n l.kind)).map Prod.snd)
  · cases cached with
    | false => exact .inr ⟨passes_start l hname nofun, looksUp_asking l hname nofun⟩
    | true =>
      have he := (Moment.find?_symbolCache hw).mp hfound
      exact .inl ⟨h, rfl, hname ▸ he, hh, looksUp_of_mem hw he hh⟩
  · exact .inr ⟨passes_start l hname fun _ => hnone, looksUp_asking l hname fun _ => hnone⟩

end Border

end Crossing
