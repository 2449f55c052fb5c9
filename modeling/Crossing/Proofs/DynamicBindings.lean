import Crossing.Proofs.Failures
import Crossing.Proofs.NestingLimit
import Crossing.Proofs.Scopes
import Crossing.Proofs.TwoRuns.Simulation

/-!
# Dynamic bindings

Variables are bound by giving their symbols other values for a while. The values that
were there come back in reverse order, so that each symbol ends with the value that it
had before it was bound for the first time.

- `Heap.value?_restore_bind`: bringing back the values that binding has put aside,
  whatever has happened to the heap in between;
- `Moment.Binds`: a task itself is about to bind a symbol;
- `Heap.readLet?`, `Heap.appliedClosure?`: the binding list of a form, and the closure
  that an object is applied by;
- `Call.boundSymbols`: the symbols of the binding list, or the parameters of the closure;
- `Call.BindsFirst`, `Call.FailsBefore`: a task comes to bind such a symbol, or fails before;
- `Call.bindings_are_undone`: it does one or the other with each of them, and however it
  ends, a symbol that it has bound has the value from before.
-/

namespace Crossing

variable {α β γ : Type}

/-! ### Values of symbols -/

namespace Heap

variable {h h₁ : Heap} {a b : Addr} {value : Option Obj}

theorem value?_setValue_self {name : String} {v f : Option Obj}
    (ha : h.get? a = some (.symbol name v f)) : (h.setValue a value).value? a = value := by
  simp [value?, setValue, ha]

/-- A variable without a value has none, whatever it was. -/
theorem value?_setValue_none (h : Heap) (a : Addr) : (h.setValue a none).value? a = none := by
  unfold value? setValue
  rw [get?_modify_self]
  cases h.get? a with
  | none => rfl
  | some c => cases c <;> rfl

/-- The values of other variables stay. -/
theorem value?_setValue_other (hb : b ≠ a) : (h.setValue a value).value? b = h.value? b := by
  unfold value? setValue
  rw [get?_modify_other h _ hb]

theorem value?_kill (h : Heap) (a b : Addr) : (h.kill a).value? b = h.value? b := by
  unfold value?
  rw [get?_kill]
  by_cases hb : b = a
  · subst hb
    rw [get?_modify_self]
    cases h.get? b with
    | none => rfl
    | some c => cases c <;> rfl
  · rw [get?_modify_other h _ hb]

/-! ### Binding and bringing back -/

/-- What binding puts aside comes before what has been put aside already. -/
theorem bind_eq (h : Heap) (bindings : List (Addr × Obj)) (saved : List (Addr × Option Obj)) :
    h.bind bindings saved = ((h.bind bindings []).1 ++ saved, (h.bind bindings []).2) := by
  induction bindings generalizing h saved with
  | nil => rfl
  | cons b bindings ih =>
    obtain ⟨a, o⟩ := b
    rw [bind, bind, ih _ ((a, h.value? a) :: saved), ih _ [(a, h.value? a)]]
    simp

/-- The symbols that are bound are those whose values are put aside. -/
theorem mem_saved_iff (h : Heap) (bindings : List (Addr × Obj)) :
    a ∈ (h.bind bindings []).1.map Prod.fst ↔ a ∈ bindings.map Prod.fst := by
  induction bindings generalizing h with
  | nil => rfl
  | cons b bindings ih =>
    rw [bind, bind_eq]
    simp only [List.map_append, List.mem_append, ih, List.map_cons, List.map_nil, List.mem_cons,
      List.not_mem_nil, or_false]
    exact or_comm

/-- What is put aside in parts can be restored in parts. -/
theorem restore_append (h : Heap) (saved saved' : List (Addr × Option Obj)) :
    h.restore (saved ++ saved') = (h.restore saved).restore saved' := by
  induction saved generalizing h with
  | nil => rfl
  | cons s saved ih => exact ih _

/-- A symbol that is not among those whose values come back keeps its value. -/
theorem value?_restore_of_notMem {saved : List (Addr × Option Obj)}
    (ha : a ∉ saved.map Prod.fst) : (h.restore saved).value? a = h.value? a := by
  induction saved generalizing h with
  | nil => rfl
  | cons s saved ih =>
    rw [List.map_cons, List.mem_cons, not_or] at ha
    rw [restore, ih ha.2, value?_setValue_other ha.1]

/-- When what was put aside comes back, each symbol that was bound has the value from
before its first binding, whatever the heap has become in between. -/
theorem value?_restore_bind {bindings : List (Addr × Obj)}
    (hd : (h.bind bindings []).2.Develops [] h₁) (ha : a ∈ bindings.map Prod.fst) :
    (h₁.restore (h.bind bindings []).1).value? a = h.value? a := by
  induction bindings generalizing h with
  | nil => exact absurd ha List.not_mem_nil
  | cons b bindings ih =>
    obtain ⟨b, o⟩ := b
    have hdevelops : h.Develops [] h₁ := (develops_bind [] h _ []).trans hd
    rw [bind, bind_eq] at hd ⊢
    rw [restore_append]
    -- the value of this binding's own symbol comes back last of all
    show ((h₁.restore ((h.setValue b (some o)).bind bindings []).1).setValue b
      (h.value? b)).value? a = h.value? a
    by_cases hab : a = b
    · subst hab
      cases hv : h.value? a with
      | none => exact value?_setValue_none _ a
      | some v =>
        obtain ⟨name, f, hsymbol⟩ : ∃ name f, h.get? a = some (.symbol name (some v) f) := by
          unfold value? at hv
          split at hv
          · subst hv
            exact ⟨_, _, ‹_›⟩
          · cases hv
        obtain ⟨v', f', hlater⟩ :=
          (hdevelops.trans (develops_restore [] h₁ _)).symbol hsymbol
        exact value?_setValue_self hlater
    · rw [value?_setValue_other hab]
      rw [List.map_cons, List.mem_cons] at ha
      rw [ih hd (ha.resolve_left hab), value?_setValue_other hab]

end Heap

/-! ### Scopes that bind -/

/-- The symbols whose values come back when a scope ends. -/
def Undo.restored : Undo → List Addr
  | .restore saved => saved.map Prod.fst
  | _ => []

/-- The symbols that are bound by the scope that a procedure is about to start. -/
def Proc.bound : Proc α → List Addr
  | .inside (.binding bindings) _ _ => bindings.map Prod.fst
  | _ => []

/-- To leave a scope changes the values of those variables only that it restores. -/
theorem Undo.value?_run {u : Undo} {a : Addr} (ha : a ∉ u.restored) (w : World) :
    (u.run w).host.heap.value? a = w.host.heap.value? a := by
  cases u with
  | restore saved => exact Heap.value?_restore_of_notMem ha
  | killAndSelect temporary b => exact Heap.value?_kill _ _ _
  | leaveEvaluation | select b | holdOnly hs | leaveOutbound | leaveCallback | leaveSource => rfl

/-- A scope restores those variables only that it binds. -/
theorem Scope.restored_enter {s : Scope} {u : Undo} {w w₁ : World} (h : s.enter w = .ok (u, w₁))
    {part : Proc β} {next : β → Proc α} {a : Addr} (ha : a ∉ (Proc.inside s part next).bound) :
    a ∉ u.restored := by
  cases s with
  | binding bindings =>
    cases h
    exact fun hmem => ha ((Heap.mem_saved_iff _ bindings).mp hmem)
  | evaluation | source =>
    simp only [enter] at h
    split at h
    · cases h
    · cases h
      exact List.not_mem_nil
  | buffer _ | temporary _ | holding | outbound | callback _ =>
    cases h
    exact List.not_mem_nil

namespace Moment

/-- Whether a task itself, and no task that it waits for, is about to bind a symbol. -/
def Binds (a : Addr) (m : Moment γ) : Prop := m.stack.isOwn = true ∧ a ∈ m.proc.bound

instance (a : Addr) (m : Moment γ) : Decidable (m.Binds a) := by
  unfold Binds
  infer_instance

/-- Unless a task binds a symbol, the ends of its scopes do not bring its value back. -/
theorem opensAs_of_not_binds {m : Moment γ} {a : Addr} (hm : ¬m.Binds a) :
    m.OpensAs fun u => a ∉ u.restored := by
  intro β s part next u w₁ hp hown hs
  have hbound : a ∉ (Proc.inside s part next).bound := by
    rw [← hp]
    exact fun ha => hm ⟨hown, ha⟩
  exact Scope.restored_enter hs hbound

end Moment

/-! ### Bindings are undone -/

/-- A heap only develops between two moments of a run. -/
theorem Moment.Becomes.develops {m m' : Moment γ} (h : Becomes m m') :
    m.world.host.heap.Develops [] m'.world.host.heap :=
  Reaches.develops (Relation.ReflTransGen.mono (fun m₁ _ hgo => ⟨m₁.spares_nil, hgo⟩) _ _ h)

/-- Whether a task binds variables: it evaluates a form that does, or applies a closure. -/
def Call.bindsVariables (c : Call α) : Bool :=
  match c.task with
  | .evaluate form =>
    match c.world.host.heap.specialForm? form with
    | some .letParallel | some .letSequential => true
    | _ => false
  | .apply f _ => c.world.host.heap.appliesClosure f
  | _ => false

/-- A call that binds variables is one of those that put something back. -/
theorem Call.isScoped_of_bindsVariables {c : Call α} (hc : c.bindsVariables = true) :
    c.task.isScoped c.world.host.heap = true := by
  obtain ⟨t, w⟩ := c
  cases t with
  | evaluate form =>
    simp only [bindsVariables] at hc
    simp only [Task.isScoped]
    split at hc
    all_goals simp_all [SpecialForm.isScoped]
  | apply f args => exact hc
  | close c | play steps args | step s args => cases hc

/-! ### Forms that bind variables -/

section Lets

variable {w : World} {form head : Obj} {args : List Obj} {bindings : List (Addr × Obj)}
  {body : List Obj} {f : SpecialForm}

/-- A form binds variables, in the way of a special form: it has bindings and a body. -/
def Heap.IsLet (h : Heap) (f : SpecialForm) (form : Obj) (bindings : List (Addr × Obj))
    (body : List Obj) : Prop :=
  ∃ head spec items, h.IsCall form head (spec :: body) ∧ Host.specialForm? h head = some f ∧
    h.list? spec = some items ∧ items.mapM (Host.readBinding h) = .ok bindings

/-- Reads a form that binds variables: its special form, its bindings and its body. -/
def Heap.readLet? (h : Heap) (form : Obj) :
    Option (SpecialForm × List (Addr × Obj) × List Obj) :=
  match h.shape form with
  | .cell (.cons head tail) =>
    match h.list? tail with
    | some (spec :: body) => do
      let f ← Host.specialForm? h head
      let items ← h.list? spec
      let bindings ← (items.mapM (Host.readBinding h)).toOption
      pure (f, bindings, body)
    | _ => none
  | _ => none

/-- A form is a `let` of either kind if it reads as one. -/
theorem Heap.isLet_iff {h : Heap} :
    h.IsLet f form bindings body ↔ h.readLet? form = some (f, bindings, body) := by
  constructor
  · rintro ⟨head, spec, items, ⟨tail, hshape, hlist⟩, hspecial, hspec, hitems⟩
    simp [readLet?, hshape, hlist, hspecial, hspec, hitems, Except.toOption]
  -- the form is taken apart as the reader of forms does it
  · intro hread
    unfold readLet? at hread
    split at hread
    · rename_i head tail hshape
      split at hread
      · rename_i spec body' hlist
        simp only [Option.bind_eq_bind, Option.bind_eq_some_iff] at hread
        obtain ⟨f', hspecial, items, hspec, bindings', hitems, hsame⟩ := hread
        cases hsame
        refine ⟨head, spec, items, ⟨tail, hshape, hlist⟩, hspecial, hspec, ?_⟩
        generalize items.mapM (Host.readBinding h) = read at hitems ⊢
        cases read with
        | ok bindings =>
          cases hitems
          rfl
        | error e => cases hitems
      · cases hread
    · cases hread

instance {h : Heap} : Decidable (h.IsLet f form bindings body) :=
  decidable_of_iff' _ h.isLet_iff

/-- The special form that a form which binds variables is. -/
theorem Heap.IsLet.specialForm? {h : Heap} (hlet : h.IsLet f form bindings body) :
    h.specialForm? form = some f := by
  obtain ⟨head, spec, items, ⟨tail, hshape, -⟩, hspecial, -, -⟩ := hlet
  simp only [Heap.specialForm?, hshape]
  exact hspecial

namespace Host

open Proc

/-- A form whose head names a special form does what that does with the arguments. -/
theorem asks_valueOf_special (hcall : w.host.heap.IsCall form head args)
    (hspecial : specialForm? w.host.heap head = some f) :
    (valueOf form).Asks w (f.run args) := by
  obtain ⟨tail, hshape, hlist⟩ := hcall
  refine asks_query_bind ?_
  simp only [Query.ask, hshape]
  refine asks_query_bind ?_
  simp only [Query.ask, hlist, hspecial]
  exact .refl

/-- A `let` whose binding list is well formed comes to its bindings after questions only. -/
theorem asks_letForm {spec : Obj} {items : List Obj} (sequential : Bool)
    (hspec : w.host.heap.list? spec = some items)
    (hitems : items.mapM (readBinding w.host.heap) = .ok bindings) :
    (letForm sequential (spec :: body)).Asks w
      (if sequential then bindOneByOne bindings body else bindTogether bindings body) := by
  refine asks_query_bind ?_
  simp only [Query.ask, Heap.asList, hspec]
  change (check (items.mapM (readBinding w.host.heap)) >>= _).Asks w _
  rw [hitems]
  exact .refl

/-- A `let*` form comes to binding one after the other. -/
theorem asks_valueOf_sequential
    (h : w.host.heap.IsLet .letSequential form bindings body) :
    (valueOf form).Asks w (bindOneByOne bindings body) := by
  obtain ⟨head, spec, items, hcall, hspecial, hspec, hitems⟩ := h
  exact (asks_valueOf_special hcall hspecial).trans (asks_letForm true hspec hitems)

/-- A `let` form comes to binding all together. -/
theorem asks_valueOf_parallel (h : w.host.heap.IsLet .letParallel form bindings body) :
    (valueOf form).Asks w (bindTogether bindings body) := by
  obtain ⟨head, spec, items, hcall, hspecial, hspec, hitems⟩ := h
  exact (asks_valueOf_special hcall hspecial).trans (asks_letForm false hspec hitems)

end Host

end Lets

/-! ### Closures that are applied -/

/-- The parameters of a closure, in the order in which they are bound. -/
def Lambda.parameters (l : Lambda) : List Addr := l.required ++ l.optional ++ l.rest.toList

namespace Heap

/-- The code of an object that is a closure. -/
def closure? (h : Heap) (o : Obj) : Option Lambda :=
  match h.shape o with
  | .cell (.closure l) => some l
  | _ => none

/-- The code of the closure that is run when an object is applied: of the object itself, of
what is the function of a symbol, or what a lambda list says. -/
def appliedClosure? (h : Heap) (o : Obj) : Option Lambda :=
  match h.shape o with
  | .cell (.symbol _ _ function) => function.bind h.closure?
  | .cell (.cons _ _) =>
    if h.isLambda o then (Lambda.ofForms h (h.lambdaForms o)).toOption else none
  | _ => h.closure? o

/-- What is applied as a closure has the cell of one. -/
theorem shape_of_closure? {h : Heap} {o : Obj} {l : Lambda} (ho : h.closure? o = some l) :
    h.shape o = .cell (.closure l) := by
  unfold closure? at ho
  split at ho
  · cases ho
    assumption
  · cases ho

/-- What is made is no symbol, so that no symbol gets a value. -/
theorem value?_make (h : Heap) (x : Fresh) (a : Addr) : (h.make x).2.value? a = h.value? a := by
  simp only [value?, make, allocate, get?, Array.getElem?_push]
  by_cases ha : a = h.cells.size
  · rw [if_pos ha, ha, Array.getElem?_size]
    cases x <;> rfl
  · rw [if_neg ha]

end Heap

namespace Proc

/-- A procedure comes to another one by questions and by making objects. -/
inductive Prepares : Proc α → World → Proc α → World → Prop where
  | refl {p : Proc α} {w : World} : Prepares p w p w
  | ask {β : Type} {x : Query β} {next : β → Proc α} {q : Proc α} {w w₁ : World}
    (h : Prepares (next (x.ask w)) w q w₁) : Prepares (.ask x next) w q w₁
  | make {x : Fresh} {next : Obj → Proc α} {q : Proc α} {w w₁ : World}
    (h : Prepares (next ((Change.make x).run w).1) ((Change.make x).run w).2 q w₁) :
    Prepares (.act (.make x) next) w q w₁

namespace Prepares

variable {p q q' : Proc α} {w w₁ w₂ : World}

theorem trans (hp : p.Prepares w q w₁) (hq : q.Prepares w₁ q' w₂) : p.Prepares w q' w₂ := by
  induction hp with
  | refl => exact hq
  | ask _ ih => exact .ask (ih hq)
  | make _ ih => exact .make (ih hq)

theorem bind (h : p.Prepares w q w₁) (f : α → Proc β) : (p >>= f).Prepares w (q >>= f) w₁ := by
  induction h with
  | refl => exact .refl
  | ask _ ih => exact .ask ih
  | make _ ih => exact .make ih

/-- No symbol gets a value by that. -/
theorem value?_eq (h : p.Prepares w q w₁) (a : Addr) :
    w₁.host.heap.value? a = w.host.heap.value? a := by
  induction h with
  | refl => rfl
  | ask _ ih => exact ih
  | make _ ih => exact ih.trans (Heap.value?_make _ _ a)

end Prepares

/-- Questions are a preparation. -/
theorem Asks.prepares {p q : Proc α} {w : World} (h : p.Asks w q) : p.Prepares w q w := by
  induction h with
  | refl => exact .refl
  | ask _ ih => exact .ask ih

/-- A question before a preparation is part of it. -/
theorem prepares_query_bind {x : Query β} {f : β → Proc α} {q : Proc α} {w w₁ : World}
    (h : (f (x.ask w)).Prepares w q w₁) : (query x >>= f).Prepares w q w₁ := .ask h

end Proc

namespace Host

open Proc

variable {w : World} {o : Obj} {l : Lambda}

/-- The list of further arguments is made without anything being evaluated. -/
theorem prepares_dotted (items : List Obj) (last : Obj) (w : World) :
    ∃ o w₁, (dotted items last).Prepares w (.done o) w₁ := by
  induction items with
  | nil => exact ⟨last, w, .refl⟩
  | cons o items ih =>
    obtain ⟨tail, w₁, htail⟩ := ih
    exact ⟨_, _, (htail.bind fun tail => make (.cons o tail)).trans (.make .refl)⟩

/-- A closure that takes the arguments binds its parameters, and its body follows. -/
theorem prepares_callClosure {args : List Obj} (hargs : l.accepts args.length = true)
    (w : World) : ∃ bindings w₁, bindings.map Prod.fst = l.parameters ∧
      (callClosure l args).Prepares w (within (.binding bindings) (sequence l.body)) w₁ := by
  have hpair : ∀ (as : List Addr) (os : List Obj), (Lambda.pair as os).map Prod.fst = as := by
    intro as
    -- there may be more symbols than values, and the others get none
    induction as with
    | nil => exact fun _ => rfl
    | cons a as ih =>
      intro os
      cases os <;> simp only [Lambda.pair, List.map_cons, ih]
  rw [callClosure, if_pos hargs]
  -- further arguments are put into a list first, if there is a symbol for them
  cases hrest : l.rest with
  | none =>
    refine ⟨l.bindings args ++ [], w, ?_, .refl⟩
    simp [Lambda.parameters, Lambda.bindings, hrest, hpair]
  | some a =>
    obtain ⟨items, w₁, hitems⟩ := prepares_dotted (args.drop l.most) .nil w
    refine ⟨l.bindings args ++ [(a, items)], w₁, ?_, ?_⟩
    · simp [Lambda.parameters, Lambda.bindings, hrest, hpair]
    · exact hitems.bind fun items =>
        within (.binding (l.bindings args ++ [(a, items)])) (sequence l.body)

/-- A closure that is applied comes to calling it. -/
theorem prepares_applyFunction (ho : w.host.heap.closure? o = some l) (args : List Obj) :
    (applyFunction o args).Prepares w (callClosure l args) w := by
  refine prepares_query_bind ?_
  simp only [Query.ask, Heap.shape_of_closure? ho]
  exact .refl

/-- The function that a symbol names. -/
theorem prepares_functionOf_symbol {name : String} {value : Option Obj} {f : Obj}
    (hshape : w.host.heap.shape o = .cell (.symbol name value (some f))) :
    (functionOf o).Prepares w (.done f) w := by
  refine prepares_query_bind ?_
  simp only [Query.ask, hshape]
  exact .refl

/-- The function that a lambda list names is made. -/
theorem prepares_functionOf_lambda {head tail : Obj}
    (hshape : w.host.heap.shape o = .cell (.cons head tail))
    (hlambda : w.host.heap.isLambda o = true)
    (hcode : Lambda.ofForms w.host.heap (w.host.heap.lambdaForms o) = .ok l) :
    (functionOf o).Prepares w (.done ((Change.make (.closure l)).run w).1)
      ((Change.make (.closure l)).run w).2 := by
  refine prepares_query_bind ?_
  simp only [Query.ask, hshape, hlambda, if_true]
  refine prepares_query_bind ?_
  simp only [Query.ask, hcode]
  exact .make .refl

/-- Applying an object comes to what the closure that it is applied by does. -/
theorem prepares_application (ho : w.host.heap.appliedClosure? o = some l) (args : List Obj) :
    ∃ w₁, (application o args).Prepares w (callClosure l args) w₁ := by
  simp only [Heap.appliedClosure?] at ho
  -- a function is a symbol with one, a list that is made into a closure, or itself
  split at ho
  · rename_i name value function hshape
    obtain ⟨f, rfl, hf⟩ := Option.bind_eq_some_iff.mp ho
    refine ⟨w, prepares_query_bind ?_⟩
    simp only [Query.ask, hshape]
    exact ((prepares_functionOf_symbol hshape).bind _).trans (prepares_applyFunction hf args)
  · rename_i head tail hshape
    split at ho
    · rename_i hlambda
      cases hcode : Lambda.ofForms w.host.heap (w.host.heap.lambdaForms o) with
      | error e =>
        rw [hcode] at ho
        cases ho
      | ok code =>
        rw [hcode] at ho
        cases ho
        refine ⟨((Change.make (.closure l)).run w).2, prepares_query_bind ?_⟩
        simp only [Query.ask, hshape]
        refine ((prepares_functionOf_lambda hshape hlambda hcode).bind _).trans
          (prepares_applyFunction ?_ args)
        simp [Change.run, World.onHost, Interpreter.make, Heap.closure?, Heap.shape, Heap.make,
          Heap.allocate, Heap.cellOf, Heap.get?]
    · cases ho
  · refine ⟨w, prepares_query_bind ?_⟩
    simp only [Query.ask, Heap.shape_of_closure? ho]
    exact prepares_applyFunction ho args

end Host

/-! ### The variables of a call -/

namespace Call

/-- The symbols that a call binds unless it fails before: those of the binding list of a
form, in order, and the parameters of a closure that takes the arguments. -/
def boundSymbols (c : Call α) : List Addr :=
  match c.task with
  | .evaluate form =>
    match c.world.host.heap.readLet? form with
    | some (_, bindings, _) => bindings.map Prod.fst
    | none => []
  | .apply f args =>
    match c.world.host.heap.appliedClosure? f with
    | some l => if l.accepts args.length then l.parameters else []
    | none => []
  | _ => []

/-- The forms up to that of the first binding of a symbol. -/
def formsUpTo (a : Addr) : List (Addr × Obj) → List Obj
  | [] => []
  | (b, form) :: bindings => form :: if b = a then [] else formsUpTo a bindings

/-- The forms that are evaluated before a symbol is bound: all of them if the bindings are made
together, and those up to its own if they are made one after the other. A closure has none. -/
def valueForms (c : Call α) (a : Addr) : List Obj :=
  match c.task with
  | .evaluate form =>
    match c.world.host.heap.readLet? form with
    | some (.letSequential, bindings, _) => formsUpTo a bindings
    | some (_, bindings, _) => bindings.map Prod.snd
    | none => []
  | _ => []

/-- A run of the call comes to an end by way of a moment, and has not bound the symbol
before. -/
structure ComesBy (c : Call α) (a : Addr) (r : Except Failure α) (w : World) (m : Moment α) :
    Prop where
  reaches : Moment.Reaches (fun m => ¬m.Binds a) c.start m
  becomes : m.Becomes ⟨Proc.ofExcept r, .top, w⟩

/-- In a run of the call to an end, the task is about to bind the symbol for the first time. -/
structure BindsFirst (c : Call α) (a : Addr) (r : Except Failure α) (w : World) (m : Moment α) :
    Prop extends c.ComesBy a r w m where
  binds : m.Binds a

/-- A run of the call fails before it has bound the symbol: one evaluation more is too many, or
a form fails that is evaluated before. Nothing has been done to the symbol but by the forms. -/
inductive FailsBefore (c : Call α) (a : Addr) : Except Failure α → World → Prop where
  | refused {e : Failure} (h : Scope.evaluation.enter c.world = .error e) :
    FailsBefore c a (.error e) c.world
  | form {form : Obj} {β : Type} {next : Obj → Proc β} {k : Stack α β} {e : Failure}
    {w₀ w₁ w : World} (hform : form ∈ c.valueForms a) (hown : k.isOwn = true)
    (hm : c.ComesBy a (.error e) w ⟨.task (.evaluate form) next, k, w₀⟩)
    (hfails : (Call.mk (.evaluate form) w₀).EndsAmid (.error e) w₁)
    (hvalue : w.host.heap.value? a = w₁.host.heap.value? a) : FailsBefore c a (.error e) w

end Call

/-! ### On the way to the bindings -/

namespace Moment

/-- A run goes past a task, if the moments before it and inside of it are as `ok` says. -/
theorem reaches_task {ok : Moment γ → Prop} {t : Task α} {next : α → Proc β} {k : Stack γ β}
    {w w₁ : World} {r : Except Failure α} (hstart : ∀ w, ok ⟨.task t next, k, w⟩)
    (hinside : ∀ m : Moment α, ok (m.atop (.push (.result t next) k)))
    (h : (Call.mk t w).EndsAmid r w₁) :
    Reaches ok ⟨.task t next, k, w⟩ ⟨Proc.ofExcept r >>= next, k, w₁⟩ := by
  obtain ⟨w', w₁', hbefore, hbody, hafter⟩ := h
  have hsweeps : ∀ {δ : Type} {p : Proc δ} {k : Stack γ δ} {w w' : World},
      (∀ w, ok ⟨p, k, w⟩) → (⟨p, k, w⟩ : Moment γ).isSafepoint = true → w.Sweeps w' →
      Reaches ok ⟨p, k, w⟩ ⟨p, k, w'⟩ := by
    intro δ p k w w' hok hsafe hw
    induction hw with
    | refl => exact .refl
    | @tail w₁ w₂ _ hsweep ih =>
      obtain rfl := hsweep
      exact ih.tail ⟨hok w₁, Goes.sweep (m := ⟨p, k, w₁⟩) hsafe⟩
  have htask : Reaches ok ⟨t.body, .push (.result t next) k, w'⟩
      ⟨Proc.ofExcept r, .push (.result t next) k, w₁'⟩ :=
    Relation.ReflTransGen.lift (fun m : Moment α => m.atop (.push (.result t next) k))
      (fun m _ hgo => ⟨hinside m, Goes.atop hgo _⟩) _ _ hbody
  have hend : ∀ w, ok ⟨Proc.ofExcept r, .push (.result t next) k, w⟩ :=
    fun w => hinside ⟨Proc.ofExcept r, .top, w⟩
  -- first the task is started, then its body runs, and then its result goes on
  refine (hsweeps hstart rfl hbefore).trans (.head ⟨hstart w', .next rfl⟩ (htask.trans ?_))
  refine (hsweeps hend (by cases r <;> rfl) hafter).tail ⟨hend w₁, .next ?_⟩
  cases r <;> rfl

/-- What waits for a task is not the task itself. -/
theorem not_binds_atop (m : Moment α) {t : Task α} {next : α → Proc β} {k : Stack γ β} {a : Addr} :
    ¬(m.atop (.push (.result t next) k)).Binds a := by
  have hown : ∀ {δ : Type} (s : Stack α δ),
      (s.append (.push (.result t next) k)).isOwn = false := by
    intro δ s
    induction s with
    | top => rfl
    | push f rest ih => rw [Stack.append, Stack.isOwn, ih, Bool.and_false]
  exact fun h => Bool.false_ne_true ((hown m.stack).symm.trans h.1)

end Moment

/-- Where only scopes wait, nothing waits for failures. -/
theorem Stack.ScopesOnly.isClear {ok : Undo → Prop} {k : Stack γ α} (hk : k.ScopesOnly ok) :
    k.isClear = true := by
  induction k with
  | top => rfl
  | push f rest ih =>
    cases f with
    | scope u next => exact ih hk.2.2
    | result t next | attempt next | loop part next => exact hk.elim

namespace Call

variable {c : Call α} {a : Addr} {r : Except Failure α} {w : World}

theorem comesBy_start (hend : c.Ends r w) : c.ComesBy a r w c.start := ⟨.refl, hend⟩

namespace ComesBy

variable {p q : Proc β} {k : Stack α β} {w₀ w₁ : World} {m m₁ : Moment α}

/-- The run goes on to the next moment. -/
theorem next (h : c.ComesBy a r w m) (hbinds : ¬m.Binds a) (hnext : m.next = some m₁)
    (hsafe : m.isSafepoint = false) : c.ComesBy a r w m₁ :=
  ⟨h.reaches.tail ⟨hbinds, .next hnext⟩,
    (Moment.becomes_next_iff hnext hsafe Moment.next_ended).mp h.becomes⟩

/-- A run goes on through preparations. -/
theorem prepares (h : c.ComesBy a r w ⟨p, k, w₀⟩) (hp : p.Prepares w₀ q w₁) :
    c.ComesBy a r w ⟨q, k, w₁⟩ := by
  induction hp with
  | refl => exact h
  | ask _ ih | make _ ih => exact ih (h.next (fun hm => List.not_mem_nil hm.2) rfl rfl)

/-- The run goes past a task that it starts. -/
theorem task {t : Task γ} {next : γ → Proc β} (h : c.ComesBy a r w ⟨.task t next, k, w₀⟩) :
    ∃ s w₁, (Call.mk t w₀).EndsAmid s w₁ ∧ c.ComesBy a r w ⟨Proc.ofExcept s >>= next, k, w₁⟩ := by
  obtain ⟨s, w₁, hends, hrest⟩ := Moment.becomes_task_iff.mp h.becomes
  have hpast : Moment.Reaches (fun m : Moment α => ¬m.Binds a) ⟨.task t next, k, w₀⟩
      ⟨Proc.ofExcept s >>= next, k, w₁⟩ :=
    Moment.reaches_task (fun _ hm => List.not_mem_nil hm.2) (fun m => m.not_binds_atop) hends
  exact ⟨s, w₁, hends, h.reaches.trans hpast, hrest⟩

/-- Around what belongs to the task itself only scopes wait, and their ends do not bring back
the value of the symbol. -/
theorem scopesOnly (hc : c.bindsVariables = true) (h : c.ComesBy a r w ⟨p, k, w₀⟩)
    (hown : k.isOwn = true) : k.ScopesOnly fun u => a ∉ u.restored := by
  have hlast : (⟨p, k, w₀⟩ : Moment α).ScopesLast fun u => a ∉ u.restored :=
    (scopesLast_start (isScoped_of_bindsVariables hc)).reaches
      (Moment.reaches_mono (fun _ => Moment.opensAs_of_not_binds) h.reaches)
  obtain ⟨-, hk⟩ | hk := hlast
  · exact hk
  · rw [hk.isOwn] at hown
    cases hown

/-- If a form fails that is evaluated before the symbol is bound, the call fails with that. -/
theorem failsBefore (hc : c.bindsVariables = true) {form : Obj} (hform : form ∈ c.valueForms a)
    {next : Obj → Proc β} {e : Failure} (hown : k.isOwn = true)
    (h : c.ComesBy a r w ⟨.task (.evaluate form) next, k, w₀⟩)
    (hfails : (Call.mk (.evaluate form) w₀).EndsAmid (.error e) w₁)
    (hrest : c.ComesBy a r w ⟨Proc.fail e, k, w₁⟩) : c.FailsBefore a r w := by
  have hk := h.scopesOnly hc hown
  have hstop := (Stack.unwinds (e := e) (w := w₁) hk.isClear).only _ hrest.becomes
  cases r with
  | ok v => cases hstop
  | error e' =>
    cases hstop
    refine .form hform hown h hfails ?_
    rw [hk.ends (r := .error e) hrest.becomes]
    exact hk.leave (fun w => w.host.heap.value? a) (fun u w hu => Undo.value?_run hu w) _

/-- The scope that binds symbols is started. -/
theorem bindsFirst {bindings : List (Addr × Obj)} {part : Proc γ} {next : γ → Proc β}
    (h : c.ComesBy a r w ⟨.inside (.binding bindings) part next, k, w₀⟩) (hown : k.isOwn = true)
    (ha : a ∈ bindings.map Prod.fst) :
    c.BindsFirst a r w ⟨.inside (.binding bindings) part next, k, w₀⟩ := ⟨h, hown, ha⟩

/-- Bindings are made one after the other, each when its form has a value, up to the first
form that fails. -/
theorem bindOneByOne (hc : c.bindsVariables = true) {bindings : List (Addr × Obj)}
    {body : List Obj} {k : Stack α Obj}
    (h : c.ComesBy a r w ⟨Host.bindOneByOne bindings body, k, w₀⟩) (hown : k.isOwn = true)
    (hforms : ∀ form ∈ formsUpTo a bindings, form ∈ c.valueForms a)
    (ha : a ∈ bindings.map Prod.fst) :
    (∃ m, c.BindsFirst a r w m) ∨ c.FailsBefore a r w := by
  -- along the bindings; what waits grows by the scope of each
  induction bindings generalizing k w₀ with
  | nil => cases ha
  | cons b bindings ih =>
    obtain ⟨s, w₁, hform, hrest⟩ := task h
    rw [formsUpTo, List.forall_mem_cons] at hforms
    cases s with
    | error e => exact .inr (failsBefore hc hforms.1 hown h hform hrest)
    | ok o =>
      have hinside : c.ComesBy a r w ⟨.inside (.binding [(b.1, o)])
        (Host.bindOneByOne bindings body) .done, k, w₁⟩ := hrest
      by_cases hb : a = b.1
      · exact .inl ⟨_, hinside.bindsFirst hown (List.mem_singleton.mpr hb)⟩
      · have hnot : ¬(⟨.inside (.binding [(b.1, o)]) (Host.bindOneByOne bindings body) .done,
            k, w₁⟩ : Moment α).Binds a := fun hm => hb (List.mem_singleton.mp hm.2)
        rw [if_neg (Ne.symm hb)] at hforms
        refine ih (hinside.next hnot rfl rfl) hown hforms.2 ?_
        exact (List.mem_cons.mp ha).resolve_left hb

/-- The forms are evaluated one after the other, up to the first that fails. -/
theorem values (hc : c.bindsVariables = true) {bindings : List (Addr × Obj)}
    {f : List (Addr × Obj) → Proc β}
    (h : c.ComesBy a r w ⟨(bindings.mapM fun b => do
      let o ← Host.evaluate b.2
      pure (b.1, o)) >>= f, k, w₀⟩) (hown : k.isOwn = true)
    (hforms : ∀ b ∈ bindings, b.2 ∈ c.valueForms a) :
    (∃ values w₁, values.map Prod.fst = bindings.map Prod.fst ∧
      c.ComesBy a r w ⟨f values, k, w₁⟩) ∨ c.FailsBefore a r w := by
  -- along the bindings; what follows is given the values so far
  induction bindings generalizing f w₀ with
  | nil => exact .inl ⟨[], w₀, rfl, h⟩
  | cons b bindings ih =>
    rw [List.mapM_cons] at h
    simp only [bind_assoc, pure_bind] at h
    obtain ⟨s, w₁, hform, hrest⟩ := task h
    cases s with
    | error e => exact .inr (failsBefore hc (hforms b List.mem_cons_self) hown h hform hrest)
    | ok o =>
      obtain ⟨values, w₂, hvalues, hrest⟩ | hfails := ih (f := fun values => f ((b.1, o) :: values))
        hrest fun b' hb' => hforms b' (List.mem_cons_of_mem _ hb')
      · exact .inl ⟨(b.1, o) :: values, w₂, by rw [List.map_cons, hvalues, List.map_cons], hrest⟩
      · exact .inr hfails

/-- A `let` evaluates all values first, and then binds all symbols at once. The induction
over the values is that of `evaluateAll`. -/
theorem bindTogether (hc : c.bindsVariables = true) {bindings : List (Addr × Obj)}
    {body : List Obj} {k : Stack α Obj}
    (h : c.ComesBy a r w ⟨Host.bindTogether bindings body, k, w₀⟩) (hown : k.isOwn = true)
    (hforms : ∀ b ∈ bindings, b.2 ∈ c.valueForms a) (ha : a ∈ bindings.map Prod.fst) :
    (∃ m, c.BindsFirst a r w m) ∨ c.FailsBefore a r w := by
  obtain ⟨values, w₁, hvalues, hrest⟩ | hfails := values hc h hown hforms
  · exact .inl ⟨_, hrest.bindsFirst hown (hvalues ▸ ha)⟩
  · exact .inr hfails

end ComesBy

/-! ### Bindings are made -/

/-- A form binds the variables of its binding list, unless it fails before. -/
theorem binds_or_fails_evaluate {form : Obj} {w₀ : World} {r : Except Failure Obj}
    (hc : (Call.mk (.evaluate form) w₀).bindsVariables = true)
    (hend : (Call.mk (.evaluate form) w₀).Ends r w)
    (ha : a ∈ (Call.mk (.evaluate form) w₀).boundSymbols) :
    (∃ m, (Call.mk (.evaluate form) w₀).BindsFirst a r w m) ∨
      (Call.mk (.evaluate form) w₀).FailsBefore a r w := by
  obtain ⟨f, bindings, body, hread⟩ : ∃ f bindings body,
      w₀.host.heap.readLet? form = some (f, bindings, body) := by
    simp only [boundSymbols] at ha
    split at ha
    · exact ⟨_, _, _, ‹_›⟩
    · cases ha
  simp only [boundSymbols, hread] at ha
  have hlet := Heap.isLet_iff.mpr hread
  have hstart := comesBy_start (a := a) hend
  -- a form that is nested too deeply is refused, and then nothing was bound
  cases henter : Scope.evaluation.enter w₀ with
  | error e =>
    have hstop : (⟨Proc.fail e, .top, w₀⟩ : Moment Obj).Becomes ⟨Proc.ofExcept r, .top, w⟩ :=
      (Moment.becomes_next_iff (Moment.next_refused henter) rfl Moment.next_ended).mp
        hstart.becomes
    obtain ⟨rfl, rfl⟩ := Moment.becomes_ended_iff (s := .error e).mp hstop
    exact .inr (.refused henter)
  | ok entered =>
    obtain ⟨u, w₁⟩ := entered
    have hinside := hstart.next (fun hm => List.not_mem_nil hm.2) (Moment.next_inside henter) rfl
    have hlet₁ : w₁.host.heap.IsLet f form bindings body := by
      rw [Scope.heap_of_evaluation henter]
      exact hlet
    simp only [bindsVariables, hlet.specialForm?] at hc
    split at hc
    · cases ‹some f = _›
      refine (hinside.prepares (Host.asks_valueOf_parallel hlet₁).prepares).bindTogether
        (by simp only [bindsVariables, hlet.specialForm?]) rfl (fun b hb => ?_) ha
      simp only [valueForms, hread]
      exact List.mem_map_of_mem hb
    · cases ‹some f = _›
      refine (hinside.prepares (Host.asks_valueOf_sequential hlet₁).prepares).bindOneByOne
        (by simp only [bindsVariables, hlet.specialForm?]) rfl (fun form hform => ?_) ha
      simp only [valueForms, hread]
      exact hform
    · cases hc

/-- A closure that takes its arguments binds its parameters, and nothing has been done to their
values before. -/
theorem exists_bindsFirst_apply {f : Obj} {args : List Obj} {w₀ : World}
    {r : Except Failure Obj} (hend : (Call.mk (.apply f args) w₀).Ends r w)
    (ha : a ∈ (Call.mk (.apply f args) w₀).boundSymbols) :
    ∃ m, (Call.mk (.apply f args) w₀).BindsFirst a r w m ∧
      m.world.host.heap.value? a = w₀.host.heap.value? a := by
  simp only [boundSymbols] at ha
  split at ha
  · rename_i l hl
    split at ha
    · rename_i hargs
      obtain ⟨w₁, happlication⟩ := Host.prepares_application hl args
      obtain ⟨bindings, w₂, hbindings, hclosure⟩ := Host.prepares_callClosure hargs w₁
      have hprepares := happlication.trans hclosure
      refine ⟨_, ((comesBy_start hend).prepares hprepares).bindsFirst rfl (hbindings ▸ ha), ?_⟩
      exact hprepares.value?_eq a
    · cases ha
  · cases ha

/-- A symbol that a task has bound ends with the value from before. -/
theorem BindsFirst.value?_eq (hc : c.bindsVariables = true) {m : Moment α}
    (h : c.BindsFirst a r w m) : w.host.heap.value? a = m.world.host.heap.value? a := by
  have hlast : m.ScopesLast fun u => a ∉ u.restored :=
    (Call.scopesLast_start (isScoped_of_bindsVariables hc)).reaches
      (Moment.reaches_mono (fun _ => Moment.opensAs_of_not_binds) h.reaches)
  obtain ⟨⟨-, hend⟩, hown, ha⟩ := h
  obtain ⟨p, k, w₀⟩ := m
  -- the moment enters the scope of the binding, and the run goes on to the end of that
  cases p with
  | inside s part next =>
    cases s with
    | binding bindings =>
      obtain ⟨hnext, hk⟩ := hlast.of_isOwn hown
      obtain ⟨r', w₂, hpart, rfl⟩ := Moment.exists_end_of_inside hnext hk rfl hend
      -- nothing in between writes to the symbol in a way that the end of the scope does not undo
      have hd : (w₀.host.heap.bind bindings []).2.Develops [] w₂.host.heap := hpart.develops
      calc (k.leave ((Undo.restore (w₀.host.heap.bind bindings []).1).run w₂)).host.heap.value? a
          = ((Undo.restore (w₀.host.heap.bind bindings []).1).run w₂).host.heap.value? a :=
            hk.leave (fun w => w.host.heap.value? a) (fun u w hu => Undo.value?_run hu w) _
        _ = w₀.host.heap.value? a := Heap.value?_restore_bind hd ha
    | _ => exact absurd ha List.not_mem_nil
  | _ => exact absurd ha List.not_mem_nil

/-- A task that binds variables binds each of its symbols, unless it fails before. -/
theorem binds_or_fails (hc : c.bindsVariables = true) (hend : c.Ends r w)
    (ha : a ∈ c.boundSymbols) : (∃ m, c.BindsFirst a r w m) ∨ c.FailsBefore a r w := by
  obtain ⟨t, w₀⟩ := c
  cases t with
  | evaluate form => exact binds_or_fails_evaluate hc hend ha
  | apply f args =>
    obtain ⟨m, hm, -⟩ := exists_bindsFirst_apply hend ha
    exact .inl ⟨m, hm⟩
  | close c | play steps args | step s args => cases hc

/-- Where nothing is evaluated for the values, a symbol ends with the value from the start. -/
theorem value?_eq_of_valueForms (hc : c.bindsVariables = true) (hend : c.Ends r w)
    (ha : a ∈ c.boundSymbols) (hnone : c.valueForms a = []) :
    w.host.heap.value? a = c.world.host.heap.value? a := by
  obtain ⟨t, w₀⟩ := c
  cases t with
  | evaluate form =>
    -- a form with bindings evaluates the form of the first one, whatever the symbol
    simp only [valueForms, boundSymbols] at hnone ha
    split at ha
    · rename_i f bindings body hread
      cases bindings with
      | nil => cases ha
      | cons b bindings =>
        rw [hread] at hnone
        cases f <;> cases hnone
    · cases ha
  | apply f args =>
    obtain ⟨m, hm, hvalue⟩ := exists_bindsFirst_apply hend ha
    exact (hm.value?_eq hc).trans hvalue
  | close c | play steps args | step s args => cases hc

/-- Bindings are undone. The evaluation of a form that binds variables and the application of a
closure bind each symbol of the binding list, or each parameter, unless they fail before they
have come to it. However they end, with a value or a failure, a symbol that they have bound has
the value that it had when they were about to bind it for the first time, or has none again.
Where no form is evaluated for the values, as for a closure, that is the value from the start. -/
theorem bindings_are_undone (hc : c.bindsVariables = true) (hend : c.Ends r w) :
    (∀ a ∈ c.boundSymbols, (∃ m, c.BindsFirst a r w m) ∨ c.FailsBefore a r w) ∧
    (∀ a m, c.BindsFirst a r w m → w.host.heap.value? a = m.world.host.heap.value? a) ∧
    (∀ a ∈ c.boundSymbols, c.valueForms a = [] →
      w.host.heap.value? a = c.world.host.heap.value? a) :=
  ⟨fun _ => binds_or_fails hc hend, fun _ _ hm => hm.value?_eq hc,
    fun _ => value?_eq_of_valueForms hc hend⟩

end Call

/-! ### A form of each kind, and a closure -/

/-- The result that a run has given at its end. -/
def Moment.given? : Moment γ → Option γ
  | ⟨.done a, .top, _⟩ => some a
  | _ => none

namespace Call

variable {c : Call α}

/-- The evaluation of a form that binds a variable with the value 7 twice and fails
before its last binding, for which the variable is set once more. -/
def failingBindings : Call Obj :=
  ⟨.evaluate (.ref 183), ((Transcript.start .standard [.mk (.runSource
    "(progn (setq x 7) (let* ((x 1) (x 2) (y (progn (setq x 3) (car 5)))) x))") none
      false]).after 59).world⟩

/-- The evaluation of a form that binds that variable and another one together. -/
def parallelBindings : Call Obj :=
  ⟨.evaluate (.ref 176), ((Transcript.start .standard [.mk (.runSource
    "(progn (setq x 7) (let ((x 1) (y x)) (setq x 3) y))") none false]).after 50).world⟩

/-- The application of a closure with that variable as a parameter, and one for the rest. -/
def closureBindings : Call Obj :=
  ⟨.apply (.ref 181) [.int (.ofNat 1), .int (.ofNat 2)], ((Transcript.start .standard
    [.mk (.runSource "(progn (setq x 7) (funcall (lambda (x &rest y) (setq x 5)) 1 2))") none
      false]).after 76).world⟩

/-- A call that was run to its value ends with that. -/
theorem ends_of_given? {v : α} {n : Nat} (h : (c.start.after n).given? = some v) :
    c.Ends (.ok v) (c.start.after n).world := by
  have hm := Moment.becomes_after c.start n
  generalize c.start.after n = m at h hm
  unfold Moment.given? at h
  split at h
  · cases h
    exact hm
  · cases h

/-- The variable is 7 again when the form has failed that had bound it twice, when the form has
given a result that bound it together with another one, and when the closure has been applied;
the other variables have no value again. -/
theorem bindings_are_undone_each :
    (∃ m e w, failingBindings.boundSymbols = [158, 158, 167] ∧
      failingBindings.BindsFirst 158 (.error e) w m ∧
      e.message = "Host error (wrong-type-argument): listp 5" ∧
      m.world.host.heap.value? 158 = some (.int (.ofNat 7)) ∧
      w.host.heap.value? 158 = some (.int (.ofNat 7))) ∧
    (∃ m v w, parallelBindings.boundSymbols = [158, 165] ∧
      parallelBindings.BindsFirst 158 (.ok v) w m ∧ v = .int (.ofNat 7) ∧
      w.host.heap.value? 158 = m.world.host.heap.value? 158) ∧
    (∃ v w, closureBindings.boundSymbols = [158, 164] ∧ closureBindings.Ends (.ok v) w ∧
      v = .int (.ofNat 5) ∧ w.host.heap.value? 158 = some (.int (.ofNat 7)) ∧
      w.host.heap.value? 164 = none) := by
  refine ⟨?_, ?_, ?_⟩
  · have hfacts : failingBindings.bindsVariables = true ∧
        failingBindings.boundSymbols = [158, 158, 167] ∧
        (∀ i < 9, ¬(failingBindings.start.after i).Binds 158) ∧
        (failingBindings.start.after 9).Binds 158 ∧
        (failingBindings.start.after 9).world.host.heap.value? 158 = some (.int (.ofNat 7)) ∧
        ((failingBindings.start.after 9).after 46).failure?.map Failure.message =
          some "Host error (wrong-type-argument): listp 5" := by
      rw [failingBindings, Transcript.start_eq]
      decide +kernel
    obtain ⟨hbinding, hsymbols, hbefore, hbinds, hvalue, hmessage⟩ := hfacts
    obtain ⟨e, he, hmessage⟩ := Option.map_eq_some_iff.mp hmessage
    have hm : failingBindings.BindsFirst 158 (.error e) _ (failingBindings.start.after 9) :=
      ⟨⟨Moment.reaches_after hbefore, Moment.becomes_of_failure? he⟩, hbinds⟩
    obtain ⟨-, hundone, -⟩ :=
      bindings_are_undone hbinding ((Moment.becomes_after _ _).trans hm.becomes)
    exact ⟨_, e, _, hsymbols, hm, hmessage, hvalue, (hundone 158 _ hm).trans hvalue⟩
  · have hfacts : parallelBindings.bindsVariables = true ∧
        parallelBindings.boundSymbols = [158, 165] ∧
        (parallelBindings.start.after 35).given? = some (.int (.ofNat 7)) := by
      rw [parallelBindings, Transcript.start_eq]
      decide +kernel
    obtain ⟨hbinding, hsymbols, hgiven⟩ := hfacts
    obtain ⟨hbinds, hundone, -⟩ := bindings_are_undone hbinding (ends_of_given? hgiven)
    -- the form has given a result, so that it cannot have failed before
    obtain ⟨m, hm⟩ | hfails := hbinds 158 (by rw [hsymbols]; exact List.mem_cons_self)
    · exact ⟨m, _, _, hsymbols, hm, rfl, hundone 158 m hm⟩
    · cases hfails
  · have hfacts : closureBindings.bindsVariables = true ∧
        closureBindings.boundSymbols = [158, 164] ∧
        (closureBindings.start.after 18).given? = some (.int (.ofNat 5)) ∧
        closureBindings.world.host.heap.value? 158 = some (.int (.ofNat 7)) ∧
        closureBindings.world.host.heap.value? 164 = none := by
      rw [closureBindings, Transcript.start_eq]
      decide +kernel
    obtain ⟨hbinding, hsymbols, hgiven, hx, hy⟩ := hfacts
    have hend := ends_of_given? hgiven
    obtain ⟨-, -, hundone⟩ := bindings_are_undone hbinding hend
    refine ⟨_, _, hsymbols, hend, rfl, (hundone 158 ?_ rfl).trans hx, (hundone 164 ?_ rfl).trans hy⟩
    all_goals
      rw [hsymbols]
      decide

end Call

end Crossing
