import Crossing.Proofs.BufferScopes
import Crossing.Proofs.FormCalls
import Crossing.Proofs.ReservedNames

/-!
# Bound variables

Script code has a script function run while variables of the host are bound. The function may
take the values of the variables as arguments.

- `Host.enters_let`: the body of a form that binds variables is evaluated while they have the
  values, and then they have the values from before;
- `World.IsBindable`, `World.IsBindable.comesBack`: what variables may be bound to;
- `Border.succeedsUnless_bindingForms`, `Border.succeeds_letForm`: the form is made;
- `functions_run_while_variables_are_bound`: the function runs once with the values, or without
  arguments.
-/

namespace Crossing

open Proc

variable {α β δ ι : Type} {w w₀ w₁ w₂ : World} {c : Callable} {a : Addr} {o r form : Obj}
  {g : Handle} {v : Value} {vs : List Value} {b : String × Value} {bs : List (String × Value)}
  {ts : List (Addr × Handle × Value)} {us : List (Addr × Obj × Obj)}

/-! ### Symbols with values -/

/-- A cell is a symbol that has a value, or none. -/
def World.HasValue (w : World) (a : Addr) (value : Option Obj) : Prop :=
  ∃ name function, w.host.heap.get? a = some (.symbol name value function)

/-- Values that variables have last for as long as nothing binds or assigns them. -/
theorem World.durable_hasValues (as : List Addr) (value : Addr → Option Obj) :
    Durable fun w => ∀ a ∈ as, w.HasValue a (value a) := by
  refine ⟨fun hr h a ha => ?_⟩
  obtain ⟨name, function, hcell⟩ := h a ha
  exact ⟨name, function, hr.cells _ _ hcell⟩

namespace Heap

variable {h h₁ : Heap} {name : String}

/-- The value of a symbol is the content of its value cell. -/
theorem value?_of_symbol {value function : Option Obj}
    (ha : h.get? a = some (.symbol name value function)) : h.value? a = value := by
  rw [value?, ha]

end Heap

/-- When what binding has put aside comes back, a symbol that was bound has the value from
before. -/
theorem World.hasValue_restore {bindings : List (Addr × Obj)}
    (hd : (w.bound bindings).host.heap.Develops [] w₁.host.heap)
    (hsymbol : ∃ value, w.HasValue a value) (ha : a ∈ bindings.map Prod.fst) :
    ((Undo.restore (w.host.heap.bind bindings []).1).run w₁).HasValue a
      (w.host.heap.value? a) := by
  obtain ⟨value, name, function, hcell⟩ := hsymbol
  have hwhole : w.host.heap.Develops []
      (w₁.host.heap.restore (w.host.heap.bind bindings []).1) :=
    (Heap.develops_bind [] _ _ []).trans (hd.trans (Heap.develops_restore [] _ _))
  obtain ⟨value', function', hcell'⟩ := hwhole.symbol hcell
  have hback : (w₁.host.heap.restore (w.host.heap.bind bindings []).1).value? a =
      w.host.heap.value? a := Heap.value?_restore_bind hd ha
  rw [Heap.value?_of_symbol hcell'] at hback
  subst hback
  exact ⟨name, function', hcell'⟩

/-! ### Forms that bind variables -/

namespace Host

/-- An item of a form that binds variables: a symbol, and a form that is a literal. -/
structure Binds (h : Heap) (item : Obj) (u : Addr × Obj × Obj) : Prop where
  item : h.list? item = some [.ref u.1, u.2.1]
  assigns : Assigns h u.1 u.2.1 u.2.2

/-- A binding is read as its symbol and the form for its value. -/
theorem Binds.readBinding {h : Heap} {item : Obj} {u : Addr × Obj × Obj}
    (hu : Binds h item u) : Host.readBinding h item = .ok (u.1, u.2.1) := by
  obtain ⟨p, tail, rfl, hpair, htail⟩ := Heap.exists_pair_of_list? hu.item
  obtain ⟨name, value, function, hsymbol⟩ := hu.assigns.symbol
  have hnone : h.symbol? (.ref p) = none := by simp only [Heap.symbol?, hpair]
  have hsome : h.asSymbol (.ref u.1) = .ok u.1 := by
    simp only [Heap.asSymbol, Heap.symbol?, hsymbol]
  simp only [Host.readBinding, hnone, Heap.shape_ref hpair, hsome, Heap.head_of_list? htail]
  rfl

/-- Bindings are read one by one. -/
theorem readBindings {h : Heap} {items : List Obj} (hus : List.Forall₂ (Binds h) items us) :
    items.mapM (readBinding h) = .ok (us.map fun u => (u.1, u.2.1)) := by
  induction hus with
  | nil => rfl
  | cons hu _ ih =>
    rw [List.mapM_cons, hu.readBinding, ih]
    rfl

/-- The forms of bindings are evaluated one after the other, and leave everything as it is. -/
theorem succeeds_evaluateBindings (hdepth : w.host.depth < maxDepth)
    (hus : ∀ u ∈ us, w.host.heap.literal? u.2.1 = some u.2.2) :
    ((us.map fun u => (u.1, u.2.1)).mapM fun (b : Addr × Obj) => evaluate b.2 >>= fun o =>
      pure (b.1, o)).Succeeds w fun bindings w₁ =>
        bindings = us.map (fun u => (u.1, u.2.2)) ∧ w₁ = w := by
  induction us with
  | nil => exact succeeds_pure ⟨rfl, rfl⟩
  | cons u us ih =>
    rw [List.map_cons, List.mapM_cons, bind_assoc]
    have hfirst : (evaluate u.2.1).Succeeds w fun r w₁ => r = u.2.2 ∧ w₁ = w :=
      ends_evaluate_literal hdepth (hus u List.mem_cons_self) ⟨u.2.2, rfl, .refl w, rfl, rfl⟩
    refine hfirst.bind fun r w₁ _ h => ?_
    obtain ⟨rfl, rfl⟩ := h
    rw [pure_bind]
    refine (ih fun u hu => hus u (List.mem_cons_of_mem _ hu)).bind fun bindings w₂ _ h =>
      succeeds_pure ?_
    obtain ⟨rfl, rfl⟩ := h
    exact ⟨rfl, rfl⟩

/-- The body of a form that binds variables is evaluated while the symbols have the values that
the forms are literals for. At the end each symbol has the value that it had before. -/
theorem enters_let {x spec body : Obj} {items : List Obj} {Q : Proc β → World → Prop}
    {S : Upshot Obj β} (hdepth : w.host.depth + 1 < maxDepth)
    (hlist : w.host.heap.list? form = some [x, spec, body]) (hx : w.host.heap.Names x "let")
    (hspec : w.host.heap.list? spec = some items)
    (hus : List.Forall₂ (Binds w.host.heap) items us)
    (hbody : (evaluate body).Enters (w.deeper.bound (us.map fun u => (u.1, u.2.2))) Q S) :
    (evaluate form).Enters w Q fun _ _ _ w₃ =>
      ∀ a ∈ us.map Prod.fst, w₃.HasValue a (w.host.heap.value? a) := by
  -- the values are evaluated before any symbol is bound, so that all are found in the same heap
  have hassigns : ∀ u ∈ us, Assigns w.host.heap u.1 u.2.1 u.2.2 := fun u hu => by
    obtain ⟨item, -, hitem⟩ := exists_mem_of_forall₂ hus.flip hu
    exact hitem.assigns
  refine enters_evaluate_special (k := .letParallel) (by omega) hlist hx
    (R := fun _ _ _ w₃ => ∀ a ∈ us.map Prod.fst, w₃.HasValue a (w.host.heap.value? a)) ?_
    fun _ _ _ _ h => h
  refine (turns_query_bind .heap _ _).enters ?_
  simp only [Query.ask, World.heap_deeper, Heap.asList, hspec]
  change (check (items.mapM (readBinding w.host.heap)) >>= fun bindings =>
    bindTogether bindings [body]).Enters _ _ _
  rw [readBindings hus]
  change (bindTogether _ _).Enters _ _ _
  refine (succeeds_evaluateBindings (w := w.deeper) hdepth fun u hu =>
    (hassigns u hu).literal).enters_bind fun bindings w₁ _ h => ?_
  obtain ⟨rfl, rfl⟩ := h
  refine enters_within (w.deeper.enter_binding _) (by rwa [sequence_singleton])
    fun r w₂ s w₃ hends _ a ha => ?_
  obtain ⟨u, hu, rfl⟩ := List.mem_map.mp ha
  obtain ⟨name, value, function, hsymbol⟩ := (hassigns u hu).symbol
  exact World.hasValue_restore (w := w.deeper) hends.develops ⟨value, name, function, hsymbol⟩
    (List.mem_map.mpr ⟨_, List.mem_map.mpr ⟨u, hu, rfl⟩, rfl⟩)

end Host

/-! ### What variables are bound to -/

/-- What the host makes of data is there, and is not like the marker of a wrapped value. -/
theorem Interpreter.Embodies.plain {i : Interpreter} {below : Nat} {j : Json}
    (hi : i.Interned) (h : i.Embodies below j o) : i.heap.known o = o ∧
      ∀ head x y, i.heap.list? o ≠ some [head, .int x, .int y] := by
  have hcell : ∀ {a d}, i.heap.get? a = some d → (∀ head tail, d ≠ .cons head tail) →
      i.heap.known (.ref a) = .ref a ∧
        ∀ head x y, i.heap.list? (.ref a) ≠ some [head, .int x, .int y] := by
    refine fun {a d} hd hcons => ⟨if_pos (Heap.lt_size_of_get? hd), fun head x y hlist => ?_⟩
    obtain ⟨a', tail, heq, hpair, -⟩ := Heap.exists_pair_of_list? hlist
    cases heq
    exact hcons _ _ (Option.some.inj (hd.symm.trans hpair))
  have hplain : o.isHeap = false → i.heap.known o = o ∧
      ∀ head x y, i.heap.list? o ≠ some [head, .int x, .int y] := by
    refine fun hheap => ⟨?_, fun head x y hlist => ?_⟩
    · cases o with
      | ref a => exact absurd hheap.symm Bool.false_ne_true
      | _ => rfl
    · obtain ⟨a, tail, rfl, -, -⟩ := Heap.exists_pair_of_list? hlist
      exact absurd hheap.symm Bool.false_ne_true
  cases j with
  | null => exact hplain (h ▸ rfl)
  | bool t =>
    cases t with
    | false => exact hplain (h ▸ rfl)
    | true =>
      obtain ⟨a, rfl, ha⟩ := h
      obtain ⟨value, function, hsymbol⟩ := hi.symbol (by decide) ha
      exact hcell hsymbol fun _ _ heq => by cases heq
  | int n =>
    refine hplain ?_
    obtain rfl := h
    unfold Obj.ofInt
    split <;> rfl
  | float x _ => exact hplain (h ▸ rfl)
  | text s =>
    obtain ⟨a, rfl, ha⟩ := h
    exact hcell ha fun _ _ heq => by cases heq
  | list items =>
    obtain ⟨a, os, rfl, -, ha, -⟩ := h
    exact hcell ha fun _ _ heq => by cases heq
  | object fields =>
    obtain ⟨lo, os, hlist, -, hos⟩ := h
    refine ⟨Heap.known_of_isList hlist.isList, fun head x y hmark => ?_⟩
    -- in a list of keywords and values, a keyword is in the third place
    obtain rfl := Option.some.inj (hlist.list?.symm.trans hmark)
    cases fields with
    | nil => cases hos
    | cons field fields =>
      obtain ⟨_, _, rest, heq, -, -, hrest⟩ := hos
      cases heq
      cases fields with
      | nil => cases hrest
      | cons field fields =>
        obtain ⟨_, _, _, heq, -⟩ := hrest
        cases heq

namespace World

/-- A variable may be bound to a script value: it is a function, or does as an argument of a
form, and is not for the marker of a wrapped value that is gone. -/
def IsBindable (w : World) : Value → Prop
  | .function _ => True
  | v => w.IsSpliceable v ∧ ∀ g o, v = .handle g → w.host.resolve? g.id = some o →
    w.CanComeBack (w.host.heap.unquoted o)

/-- Plain data that the host can read may be bound. -/
theorem IsBindable.data {j : Json} (hj : v.toJson = .ok j)
    (htruth : v = .bool true → w.KnowsTruth)
    (hplain : j.isNulFree = true ∧ j.isDatum = true ∧ j.nesting < Json.maxNesting) :
    w.IsBindable v := by
  cases v with
  | handle g | function c' | native n => cases hj
  | _ => exact ⟨⟨htruth, j, hj, hplain⟩, fun g o heq => by cases heq⟩

/-- A binding is of a variable that is no constant and is not used by the border itself. -/
structure IsBinding (w : World) (b : String × Value) : Prop where
  nil : canonicalName b.1 ≠ "nil"
  keyword : isKeywordName (canonicalName b.1) = false
  arguments : canonicalName b.1 ≠ argumentsName
  value : w.IsBindable b.2

/-- A function goes into a form as a closure, which stands for itself. -/
theorem splicesAs_function (w₀ w : World) (c : Callable) :
    w₀.SplicesAs w (.function c) (.function c) := by
  intro w₁ form hs hform
  obtain ⟨f, a, rfl, hclosure⟩ := id hform
  refine ⟨.ref a, hform, ?_, fun name hn => ?_⟩
  · simp only [Heap.literal?, Heap.shape_ref hclosure.1.closure]
  · simp [Heap.symbolName?, Heap.shape_ref hclosure.1.closure] at hn

end World

/-- What a quoted object stands for does not dangle. -/
theorem Interpreter.IsClosed.known_unquoted {i : Interpreter} (hi : i.IsClosed)
    (ho : i.heap.known o = o) : i.heap.known (i.heap.unquoted o) = i.heap.unquoted o := by
  have hhead : ∀ x, i.heap.known (i.heap.head x) = i.heap.head x := by
    intro x
    unfold Heap.head
    split
    · rename_i hshape
      obtain ⟨a, rfl, ha⟩ := Heap.exists_ref_of_shape hshape
      exact (hi.pair ha).1
    · rfl
  unfold Heap.unquoted
  split
  · exact hhead _
  · exact ho

/-- What a variable is bound to comes back. -/
theorem World.IsBindable.comesBack (h : w₀.IsBindable v) (hclosed : w₀.host.IsClosed)
    (hinterned : w.host.Interned) (hs : w₀.Sustains w) (hr : w₀.Supplies w v r) :
    w.host.heap.known r = r ∧ w.CanComeBack r := by
  have hdata : w.EmbodiesData v r → w.host.heap.known r = r ∧ w.CanComeBack r := by
    rintro ⟨j, k, -, -, hembodies⟩
    obtain ⟨hknown, hplain⟩ := hembodies.plain hinterned
    refine ⟨hknown, fun key hkey => ?_⟩
    obtain ⟨head, x, y, hlist, -⟩ := World.passage_eq_wrapped.mp hkey
    exact absurd hlist (hplain head x y)
  -- a function is a closure, a handle an object that is there, and all else is data
  cases v with
  | function c' =>
    obtain ⟨f, a, rfl, hclosure⟩ := hr
    have hcell := hclosure.1.closure
    refine ⟨if_pos (Heap.lt_size_of_get? hcell), fun key hkey => ?_⟩
    simp only [World.passage, Heap.shape_ref hcell] at hkey
    cases hkey
  | handle g =>
    obtain ⟨o, ho, rfl⟩ := hr
    have hknown := hclosed.known_unquoted (hclosed.kept ho)
    refine ⟨hs.grown.host.heap.known hknown, fun key hkey => ?_⟩
    rw [hs.grown.passage_of_known hclosed hknown] at hkey
    obtain ⟨x, hx⟩ := h.2 g o rfl ho key hkey
    exact ⟨x, (congrArg (·.get? key) hs.grown.proxies).trans hx⟩
  | native n => exact absurd hr (by rintro ⟨_, _, hj, -⟩; cases hj)
  | _ => exact hdata hr

/-! ### Making the form -/

namespace World

/-- What a binding becomes: a handle for a symbol of its name, and a list of that and of what
goes into the form for the value. -/
structure IsBindingForm (w₀ w : World) (b : String × Value) (t : Addr × Handle × Value) :
    Prop where
  symbol : w.host.resolve? t.2.1.id = some (.ref t.1)
  names : w.host.heap.Names (.ref t.1) (canonicalName b.1)
  form : ∃ q, w₀.SplicesAs w b.2 q ∧ w.IsListFor t.2.2 [.handle t.2.1, q]

/-- A binding form stays one as the world goes on. -/
theorem Sustains.isBindingForm {t : Addr × Handle × Value} (hs : w.Sustains w₁)
    (h : w₀.IsBindingForm w b t) : w₀.IsBindingForm w₁ b t where
  symbol := hs.grown.host.kept h.symbol
  names := hs.grown.host.heap.names h.names
  form := by
    obtain ⟨q, hq, hlist⟩ := h.form
    exact ⟨q, hs.splicesAs hq, (lasting_isListFor _ _).grows hs.grown hlist⟩

/-- A script value is for a list of what other values stand for, which may be empty. -/
def ListsFor (w : World) (v : Value) (vs : List Value) : Prop :=
  w.IsListFor v vs ∨ v = .null ∧ vs = []

theorem ListsFor.crosses (h : w.ListsFor v vs) : w.Crosses v := by
  obtain hlist | ⟨rfl, -⟩ := h
  · exact hlist.crosses
  · exact crosses_data (j := .null) rfl rfl rfl (Nat.succ_pos _)

/-- A list of values stays one as the world goes on. -/
theorem Sustains.listsFor (hs : w.Sustains w₁) (h : w.ListsFor v vs) : w₁.ListsFor v vs :=
  h.imp_left ((lasting_isListFor v vs).grows hs.grown)

/-- What stands for a list of values lists what stands for them. -/
theorem ListsFor.exists_items (h : w.ListsFor v vs) (ho : w.StandsFor v o) :
    ∃ os, w.host.heap.list? o = some os ∧ List.Forall₂ w.StandsFor vs os := by
  obtain ⟨g, o', os, rfl, ho', hlist, hos⟩ | ⟨rfl, rfl⟩ := h
  · obtain rfl := Option.some.inj (ho'.symm.trans ho)
    exact ⟨os, hlist, hos⟩
  · obtain ⟨rfl, -⟩ := ho
    exact ⟨[], Heap.list?_iff.mpr ⟨.nil, Nat.zero_le _⟩, .nil⟩

/-- Handles of what lives in the heap make no list that is like a marker. -/
theorem avoidsMark_of_handles
    (h : ∀ u ∈ vs, ∃ g a, u = .handle g ∧ w.host.resolve? g.id = some (.ref a)) :
    w.AvoidsMark vs := by
  rintro w₁ os hs hos x i n rfl
  cases hos with
  | cons _ hrest =>
    cases hrest with
    | cons hsecond _ =>
      obtain ⟨g, a, rfl, hg⟩ := h _ (List.mem_cons_of_mem _ List.mem_cons_self)
      cases (hs.grown.host.kept hg).symm.trans hsecond

/-- A script value is for a form that binds variables around the call of a script function. -/
def IsLetForm (w₀ w : World) (c : Callable) (bs : List (String × Value))
    (ts : List (Addr × Handle × Value)) (passes : Bool) (v : Value) : Prop :=
  ∃ g x spec body, w.host.resolve? g.id = some x ∧ w.host.heap.Names x "let" ∧
    List.Forall₂ (w₀.IsBindingForm w) bs ts ∧ w.ListsFor spec (ts.map fun t => t.2.2) ∧
    w.IsCallOf c body (if passes then ts.map fun t => .handle t.2.1 else []) ∧
    w.IsListFor v [.handle g, spec, body]

/-- The form for bindings stays one as the world goes on. -/
theorem Sustains.isLetForm {passes : Bool} (hs : w.Sustains w₁)
    (h : w₀.IsLetForm w c bs ts passes v) : w₀.IsLetForm w₁ c bs ts passes v := by
  obtain ⟨g, x, spec, body, hx, hname, hts, hspec, hbody, hlist⟩ := h
  exact ⟨g, x, spec, body, hs.grown.host.kept hx, hs.grown.host.heap.names hname,
    hts.imp fun _ _ => hs.isBindingForm, hs.listsFor hspec,
    (lasting_isCallOf c body _).grows hs.grown hbody, (lasting_isListFor v _).grows hs.grown hlist⟩

end World

namespace Border

/-- What a name is looked up as is named with dashes. -/
theorem succeeds_symbol_canonical (name : String) : (symbol name).Succeeds w fun h w₁ =>
    ∃ o, w₁.host.resolve? h.id = some o ∧ w₁.host.heap.Names o (canonicalName name) := by
  have hsame : symbol name = symbol (canonicalName name) := by
    simp only [symbol, lookup, hostName, canonicalName_canonicalName]
  rw [hsame]
  exact (succeeds_symbol (canonicalName_canonicalName name)).mono fun h w₁ _ hh => hh.1

/-- What goes into a form for a value that a variable may be bound to. -/
theorem succeeds_quoteIfList_bindable (hsteady : w₀.Steady) (hclosed : w₀.host.IsClosed)
    (hoffers : w₀.OffersForms) (hdepth : w₀.host.depth < maxDepth) (hv : w₀.IsBindable v)
    (hs : w₀.Sustains w) : (quoteIfList v).Succeeds w fun v' w₁ =>
      w₁.CrossesUnless Failure.IsFull v' ∧ w₀.SplicesAs w₁ v v' := by
  have hspliceable : w₀.IsSpliceable v → (quoteIfList v).Succeeds w fun v' w₁ =>
      w₁.CrossesUnless Failure.IsFull v' ∧ w₀.SplicesAs w₁ v v' := fun h =>
    (succeeds_quoteIfList hsteady hclosed hoffers h hs).mono fun v' w₁ _ hv' =>
      ⟨hv'.1.unless, hv'.2⟩
  cases v with
  | function c' =>
    have hforms := hs.offersForms hoffers
    exact succeeds_pure ⟨World.crossesUnless_function c' hforms.list hforms.evaluate
      (by rwa [hs.depth]), World.splicesAs_function w₀ w c'⟩
  | _ => exact hspliceable hv.1

/-- The forms of bindings are made, unless the registry is full. -/
theorem succeedsUnless_bindingForms (hsteady : w₀.Steady) (hclosed : w₀.host.IsClosed)
    (hoffers : w₀.OffersForms) (hdepth : w₀.host.depth < maxDepth)
    (hbs : ∀ b ∈ bs, w₀.IsBinding b) (hs : w₀.Sustains w) :
    (bindingForms bs).SucceedsUnless Failure.IsFull w fun fs w₁ =>
      ∃ ts, fs = ts.map (fun t => (.handle t.2.1, t.2.2)) ∧
        List.Forall₂ (w₀.IsBindingForm w₁) bs ts := by
  induction bs generalizing w with
  | nil => exact succeedsUnless_pure ⟨[], rfl, .nil⟩
  | cons b bs ih =>
    have hb := hbs b List.mem_cons_self
    obtain ⟨name, v⟩ := b
    rw [bindingForms]
    refine SucceedsUnless.bind (succeeds_symbol_canonical name).unless fun g w₁ hs₁ hg => ?_
    obtain ⟨o, hg, hname⟩ := hg
    -- `nil` cannot be bound, and so the name is that of a symbol
    obtain ⟨hnil, -⟩ | ⟨a, value, function, rfl, ha⟩ := id hname
    · exact absurd hnil hb.nil
    have hs₀₁ := hs.trans hs₁
    -- each binding is a list of its own, which the registry may have no room for
    have hform : (keeping (quoteIfList v >>= fun q => list [.handle g, q])).SucceedsUnless
        Failure.IsFull w₁ fun f w₂ => ∃ q, w₀.SplicesAs w₂ v q ∧ w₂.IsListFor f [.handle g, q] := by
      refine succeedsUnless_keeping_sustained (fun f w₂ w₃ hs₃ h => ?_) ?_
      · obtain ⟨q, hq, hlist⟩ := h
        exact ⟨q, hs₃.splicesAs hq, (World.lasting_isListFor _ _).grows hs₃.grown hlist⟩
      refine SucceedsUnless.bind (succeeds_quoteIfList_bindable hsteady hclosed hoffers hdepth
        hb.value hs₀₁).unless fun q w₂ hs₂ hq => ?_
      refine (succeedsUnless_list (hs₀₁.trans hs₂ |>.offersForms hoffers).list ?_
        (World.avoidsMark_of_length (by simp))).mono fun f w₃ hs₃ hf => ⟨q, hs₃.splicesAs hq.2, hf⟩
      simpa using ⟨(World.crosses_handle (hs₂.grown.host.kept hg)).unless, hq.1⟩
    refine hform.bind fun f w₂ hs₂ hf => ?_
    refine (ih (fun b hb => hbs b (List.mem_cons_of_mem _ hb)) (hs₀₁.trans hs₂)).bind
      fun fs w₃ hs₃ hfs => succeedsUnless_pure ?_
    obtain ⟨ts, rfl, hts⟩ := hfs
    have hnew : w₀.IsBindingForm w₂ (name, v) (a, g, f) :=
      ⟨hs₂.grown.host.kept hg, hs₂.grown.host.heap.names hname, hf⟩
    exact ⟨(a, g, f) :: ts, rfl, .cons (hs₃.isBindingForm hnew) hts⟩

/-- The host makes a list of what values stand for, which may be empty. -/
theorem succeeds_listAll (hoffers : w.Offers .list) (hvs : ∀ u ∈ vs, w.Crosses u)
    (hmark : w.AvoidsMark vs) : (list vs).Succeeds w fun u w₁ => w₁.ListsFor u vs := by
  cases vs with
  | cons v vs => exact (succeeds_list hoffers hvs hmark).mono fun _ _ _ h => .inl h
  | nil =>
    refine (succeeds_call (b := .list) (Q := fun u _ => u = .null) (R := fun o _ => o = .nil)
      (by cbv) hoffers hvs (fun u => World.lasting_const _) (fun os w₁ _ hos => ?_)
      fun o w₁ _ ho => ?_).mono fun u w₁ _ hu => .inr ⟨hu.1, rfl⟩
    · cases hos
      exact succeeds_pure rfl
    · subst ho
      have hread : Json.ofText Json.null.render = .ok .null := by cbv
      exact (handsOver_data rfl hread).mono fun u _ _ hu => hu

/-- The form that binds variables around a call is made of what it consists of. -/
theorem succeeds_letForm (passes : Bool) {h : Handle} {x : Obj} {q : Value}
    (hoffers : w.OffersForms) (hts : List.Forall₂ (w₀.IsBindingForm w) bs ts)
    (hx : w.host.resolve? h.id = some x) (hname : w.host.heap.Names x "funcall")
    (hq : w.IsQuoteFor q (.function c)) :
    (keeping (symbol "let" >>= fun letHead => list (ts.map fun t => t.2.2) >>= fun spec =>
      list (.handle h :: q :: if passes then ts.map fun t => .handle t.2.1 else []) >>= fun body =>
        list [.handle letHead, spec, body])).SucceedsUnless Failure.IsFull w fun v w₁ =>
          w₀.IsLetForm w₁ c bs ts passes v := by
  refine succeedsUnless_keeping_sustained (fun v w₁ w₂ hs h => hs.isLetForm h) (Succeeds.unless ?_)
  -- the bindings so far stay bindings while the head is looked up
  have hmem : ∀ t ∈ ts, ∃ b, w₀.IsBindingForm w b t := fun t ht => by
    obtain ⟨b, -, hb⟩ := exists_mem_of_forall₂ hts.flip ht
    exact ⟨b, hb⟩
  refine (succeeds_symbol (by cbv)).bind fun g w₁ hs₁ hg => ?_
  obtain ⟨⟨y, hy, hlet⟩, -⟩ := hg
  have hforms : ∀ u ∈ ts.map fun t => t.2.2, ∃ g a, u = .handle g ∧
      w₁.host.resolve? g.id = some (.ref a) := by
    intro u hu
    obtain ⟨t, ht, rfl⟩ := List.mem_map.mp hu
    obtain ⟨b, hb⟩ := hmem t ht
    obtain ⟨q, -, g, o, os, hf, ho, hlist, hos⟩ := hb.form
    cases hos
    obtain ⟨a, tail, rfl, -, -⟩ := Heap.exists_pair_of_list? hlist
    exact ⟨g, a, hf, hs₁.grown.host.kept ho⟩
  refine (succeeds_listAll (hs₁.offersForms hoffers).list (fun u hu => ?_)
    (World.avoidsMark_of_handles hforms)).bind fun spec w₂ hs₂ hspec => ?_
  · obtain ⟨g, a, rfl, hg⟩ := hforms u hu
    exact World.crosses_handle hg
  have hs₀₂ := hs₁.trans hs₂
  have hq₂ := (World.lasting_isQuoteFor q _).grows hs₀₂.grown hq
  obtain ⟨g', z, o', q', rfl, hz, hquote, -⟩ := id hq₂
  obtain ⟨p, tail, rfl, -, -⟩ := Heap.exists_pair_of_list? hquote
  have hx₂ := hs₀₂.grown.host.kept hx
  have hnames : ∀ u ∈ if passes then ts.map fun t => .handle t.2.1 else [], w₂.Crosses u := by
    cases passes with
    | false => exact List.forall_mem_nil _
    | true =>
      intro u hu
      obtain ⟨t, ht, rfl⟩ := List.mem_map.mp hu
      obtain ⟨b, hb⟩ := hmem t ht
      exact World.crosses_handle (hs₀₂.grown.host.kept hb.symbol)
  refine (succeeds_list (hs₀₂.offersForms hoffers).list (List.forall_mem_cons.mpr
    ⟨World.crosses_handle hx₂, List.forall_mem_cons.mpr ⟨World.crosses_handle hz, hnames⟩⟩)
    (World.avoidsMark_of_second hz)).bind fun body w₃ hs₃ hbody => ?_
  have hs₀₃ := hs₀₂.trans hs₃
  have hy₃ := (hs₂.trans hs₃).grown.host.kept hy
  have hspec₃ := hs₃.listsFor hspec
  have hcall : w₃.IsCallOf c body (if passes then ts.map fun t => .handle t.2.1 else []) :=
    ⟨h, x, _, hs₀₃.grown.host.kept hx, hs₀₃.grown.host.heap.names hname,
      (World.lasting_isQuoteFor _ _).grows hs₃.grown hq₂, hbody⟩
  refine (succeeds_list (hs₀₃.offersForms hoffers).list ?_ hbody.avoidsMark).mono
    fun v w₄ hs₄ hv => ?_
  · simpa using ⟨World.crosses_handle hy₃, hspec₃.crosses, hbody.crosses⟩
  · exact ⟨g, y, spec, body, hs₄.grown.host.kept hy₃,
      (hs₂.trans (hs₃.trans hs₄)).grown.host.heap.names hlet,
      hts.imp fun _ _ => (hs₀₃.trans hs₄).isBindingForm, hs₄.listsFor hspec₃,
      (World.lasting_isCallOf c body _).grows hs₄.grown hcall, hv⟩

end Border

/-! ### Evaluating the form -/

namespace World

/-- What data and closures are made of has stayed as it was. -/
structure Upholds (w w₁ : World) : Prop where
  develops : ∀ spared, w.host.heap.Develops spared w₁.host.heap
  names : ∀ {name a}, w.host.find? name = some a → w₁.host.find? name = some a
  registered : ∀ {key c}, w.border.callbacks.get? key = some c →
    w₁.border.callbacks.get? key = some c

theorem Upholds.trans (h₀₁ : w.Upholds w₁) (h₁₂ : w₁.Upholds w₂) : w.Upholds w₂ where
  develops spared := (h₀₁.develops spared).trans (h₁₂.develops spared)
  names h := h₁₂.names (h₀₁.names h)
  registered h := h₁₂.registered (h₀₁.registered h)

theorem IsCalling.upholds (h : w.IsCalling w₁) : w.Upholds w₁ := ⟨h.develops, h.names, h.registered⟩

theorem upholds_bound (w : World) (bindings : List (Addr × Obj)) : w.Upholds (w.bound bindings) :=
  ⟨fun spared => Heap.develops_bind spared _ _ [], fun h => h, fun h => h⟩

/-- What is upheld is spared. -/
theorem Upholds.spares (h : w.Upholds w₁) : w.host.Spares w₁.host where
  text ha := (h.develops []).text ha
  vector ha := (h.develops [_]).vector List.mem_cons_self ha
  pair ha := (h.develops [_]).pair List.mem_cons_self ha
  names := h.names

/-- A closure for a callback stays one. -/
theorem Upholds.hasClosure {f : CallForm} (h : w.Upholds w₁) (hf : w.HasClosure c f a) :
    w₁.HasClosure c f a := ⟨hf.1.develops (h.develops f.places), h.registered hf.2.1, hf.2.2⟩

/-- What a value supplies stays so. -/
theorem Upholds.supplies (h : w.Upholds w₁) (hr : w₀.Supplies w v r) : w₀.Supplies w₁ v r := by
  cases v with
  | handle g => exact hr
  | function c' =>
    obtain ⟨f, a, rfl, hclosure⟩ := hr
    exact ⟨f, a, rfl, h.hasClosure hclosure⟩
  | _ => exact EmbodiesData.of_spares hr h.spares (h.develops []).size_le

/-- A variable is bound: a symbol of its name has what a script value stands for as its value. -/
def HasBound (w₀ w : World) (b : String × Value) (t : Addr × Obj) : Prop :=
  (∃ function, w.host.heap.get? t.1 = some (.symbol (canonicalName b.1) (some t.2) function)) ∧
    w₀.Supplies w b.2 t.2

/-- A binding is to be made: of a symbol of its name, to what its value stands for. -/
structure Provides (w₀ w : World) (b : String × Value) (u : Addr × Obj × Obj) : Prop where
  names : w.host.heap.Names (.ref u.1) (canonicalName b.1)
  supplies : w₀.Supplies w b.2 u.2.2

/-- The items of the form are for the bindings. -/
theorem exists_binds {os : List Obj} (hts : List.Forall₂ (w₀.IsBindingForm w) bs ts)
    (hos : List.Forall₂ w.StandsFor (ts.map fun t => t.2.2) os) :
    ∃ us, us.map Prod.fst = ts.map Prod.fst ∧ List.Forall₂ (Host.Binds w.host.heap) os us ∧
      List.Forall₂ (w₀.Provides w) bs us := by
  induction hts generalizing os with
  | nil =>
    cases hos
    exact ⟨[], rfl, .nil, .nil⟩
  | @cons b t bs ts ht _ ih =>
    cases hos with
    | @cons _ item _ os hitem hos =>
      obtain ⟨us, hsame, hbinds, hprovides⟩ := ih hos
      obtain ⟨q, hq, g, o, parts, hf, ho, hlist, hparts⟩ := ht.form
      change w.StandsFor t.2.2 item at hitem
      rw [hf] at hitem
      obtain rfl := Option.some.inj (ho.symm.trans hitem)
      cases hparts with
      | @cons _ x _ _ hx hparts =>
        cases hparts with
        | @cons _ form _ _ hform hnil =>
          cases hnil
          obtain rfl := Option.some.inj (ht.symbol.symm.trans hx)
          obtain ⟨r, hr, hfirm⟩ := hq w form (.refl w) hform
          -- what is bound is no constant, since it can be given a value
          obtain ⟨hnil, hnone⟩ | ⟨a, value, function, heq, ha⟩ := id ht.names
          · cases hnone
          cases heq
          exact ⟨(t.1, form, r) :: us, by rw [List.map_cons, List.map_cons, hsame],
            .cons ⟨hlist, ⟨_, value, function, ha⟩, hfirm.literal⟩ hbinds,
            .cons ⟨ht.names, hr⟩ hprovides⟩

/-- Symbols of different names are different. -/
theorem pairwise_of_provides (hdistinct : bs.Pairwise fun b b' =>
      canonicalName b.1 ≠ canonicalName b'.1) (hus : List.Forall₂ (w₀.Provides w) bs us) :
    (us.map fun u => (u.1, u.2.2)).Pairwise fun t t' => t.1 ≠ t'.1 := by
  refine List.pairwise_map.mpr (pairwise_of_forall₂ hus (fun b b' u u' _ hu hu' hne heq => ?_)
    hdistinct)
  obtain ⟨-, hnone⟩ | ⟨_, _, _, hsame, ha⟩ := hu.names
  · cases hnone
  obtain ⟨-, hnone⟩ | ⟨_, _, _, hsame', ha'⟩ := hu'.names
  · cases hnone
  cases hsame
  cases hsame'
  rw [heq] at ha
  exact hne (Cell.symbol.inj (Option.some.inj (ha.symm.trans ha'))).1

/-- The symbols that are handed over are those of the bindings. -/
theorem arguments_eq {passes : Bool} {args : List Obj}
    (hts : List.Forall₂ (w₀.IsBindingForm w) bs ts) (hsame : us.map Prod.fst = ts.map Prod.fst)
    (hargs : List.Forall₂ w.StandsFor
      (if passes then ts.map fun t => .handle t.2.1 else []) args) :
    args = (if passes then us else []).map fun u => .ref u.1 := by
  -- with arguments the symbols are named in the call, and without them there are none
  cases passes with
  | false =>
    cases hargs
    rfl
  | true =>
    -- each argument is the symbol of its binding
    have hrefs : args = (ts.map Prod.fst).map .ref := by
      simp only [if_true] at hargs
      clear hsame
      induction hts generalizing args with
      | nil =>
        cases hargs
        rfl
      | cons ht _ ih =>
        cases hargs with
        | cons hfirst hrest =>
          rw [ih hrest]
          obtain rfl := Option.some.inj (ht.symbol.symm.trans hfirst)
          rfl
    rw [hrefs, ← hsame, List.map_map]
    rfl

/-- A symbol that is bound has the value that it is bound to. -/
theorem Provides.hasBound {u : Addr × Obj × Obj} (h : w₀.Provides w b u) (hu : u ∈ us)
    (hdistinct : (us.map fun u => (u.1, u.2.2)).Pairwise fun t t' => t.1 ≠ t'.1) :
    w₀.HasBound (w.deeper.bound (us.map fun u => (u.1, u.2.2))) b (u.1, u.2.2) := by
  obtain ⟨-, hnone⟩ | ⟨_, value, function, hsame, ha⟩ := h.names
  · cases hnone
  cases hsame
  have hupholds := w.isCalling_deeper.upholds.trans
    (w.deeper.upholds_bound (us.map fun u => (u.1, u.2.2)))
  exact ⟨⟨function, Heap.get?_bind_of_mem hdistinct (List.mem_map.mpr ⟨u, hu, rfl⟩) ha⟩,
    hupholds.supplies h.supplies⟩

/-- A variable that is not for the arguments of calls stays bound while a callback is made. -/
theorem IsCalling.hasBound {t : Addr × Obj} (h : w.IsCalling w₁)
    (hb : canonicalName b.1 ≠ argumentsName) (hbound : w₀.HasBound w b t) :
    w₀.HasBound w₁ b t := by
  obtain ⟨⟨function, ha⟩, hsupplies⟩ := hbound
  refine ⟨⟨function, ?_⟩, h.upholds.supplies hsupplies⟩
  obtain ha₁ | ⟨_, _, _, heq, -⟩ := h.cell ha
  · exact ha₁
  · exact absurd (Cell.symbol.inj heq).1 hb

end World

/-- The evaluation of such a form runs the script function while the variables are bound. -/
theorem Host.enters_evaluate_letForm {passes : Bool} (hoffers : w.OffersCalls)
    (hdepth : w.host.depth + 3 < maxDepth) (hclosed : w₀.host.IsClosed) (hs : w₀.Sustains w)
    (hbs : ∀ b ∈ bs, w₀.IsBinding b)
    (hdistinct : bs.Pairwise fun b b' => canonicalName b.1 ≠ canonicalName b'.1)
    (harity : c.arity.accepts (if passes then bs.length else 0) = true)
    (hform : w₀.IsLetForm w c bs ts passes v) (ho : w.StandsFor v o) :
    (evaluate o).Enters w
      (Border.Runs c fun vs w₁ => ∃ rs : List (Addr × Obj), rs.map Prod.fst = ts.map Prod.fst ∧
        List.Forall₂ (w₀.HasBound w₁) bs rs ∧
        List.Forall₂ w₁.ComesBackAs (if passes then rs.map Prod.snd else []) vs)
      fun _ _ _ w₃ => ∀ a ∈ ts.map Prod.fst, w₃.HasValue a (w.host.heap.value? a) := by
  intro hdue
  have hinterned := hdue.steady.interned
  revert hdue
  obtain ⟨g, x, spec, body, hx, hname, hts, hspec, hbody, _, _, parts, rfl, hform, hlist, hparts⟩ :=
    hform
  obtain rfl := Option.some.inj (hform.symm.trans ho)
  cases hparts with
  | cons hx' hparts => cases hparts with
    | cons hspecFor hparts => cases hparts with
      | cons hbodyFor hnil =>
        cases hnil
        obtain rfl := Option.some.inj (hx.symm.trans hx')
        obtain ⟨os, hos, hstands⟩ := hspec.exists_items hspecFor
        obtain ⟨us, hsame, hbinds, hprovides⟩ := World.exists_binds hts hstands
        obtain ⟨z, q, f, p, args, hcall, hz, hq, hclosure, hargs⟩ := hbody.exists_items hbodyFor
        obtain rfl := World.arguments_eq hts hsame hargs
        rw [← hsame]
        refine enters_let (S := fun r w₂ s _ => TakesIn r w₂ s) (by omega) hlist hname hos hbinds ?_
        -- the variables are bound
        have hpairwise := World.pairwise_of_provides hdistinct hprovides
        have hr : w.Revalues (w.deeper.bound (us.map fun u => (u.1, u.2.2))) :=
          ⟨w.host.heap.revalues_bind _, rfl, rfl⟩
        have hupholds := w.isCalling_deeper.upholds.trans
          (w.deeper.upholds_bound (us.map fun u => (u.1, u.2.2)))
        have hchosen : ∀ u ∈ if passes then us else [], ∃ b ∈ bs, w₀.Provides w b u ∧ u ∈ us := by
          intro u hu
          have hmem : u ∈ us := by
            cases passes with
            | false => cases hu
            | true => exact hu
          obtain ⟨b, hb, hprov⟩ := exists_mem_of_forall₂ hprovides.flip hmem
          exact ⟨b, hb, hprov, hmem⟩
        have hback : ∀ u ∈ if passes then us else [], w.host.heap.known u.2.2 = u.2.2 ∧
            w.CanComeBack u.2.2 := fun u hu => by
          obtain ⟨b, hb, hprov, -⟩ := hchosen u hu
          exact (hbs b hb).value.comesBack hclosed hinterned hs hprov.supplies
        have hargs' : List.Forall₂ (fun o r => (w.deeper.bound (us.map fun u =>
            (u.1, u.2.2))).host.heap.literal? o = some r) ((if passes then us else []).map
              fun u => .ref u.1) ((if passes then us else []).map fun u => u.2.2) := by
          refine List.forall₂_map_left_iff.mpr (List.forall₂_map_right_iff.mpr
            (List.forall₂_same.mpr fun u hu => ?_))
          obtain ⟨b, hb, hprov, hmem⟩ := hchosen u hu
          obtain ⟨⟨function, ha⟩, -⟩ := hprov.hasBound hmem hpairwise
          simp only [Heap.literal?, Heap.shape_ref ha, (hbs b hb).keyword]
          rfl
        refine (enters_evaluate_funcall (hr.offersCalls hoffers) (by exact hdepth) (hr.heap.list? hcall)
          (hr.heap.names hz) (hr.heap.literal? hq.literal
            fun name hn => (hq.symbol name hn).resolve_right fun h => by cases h.1)
          (hupholds.hasClosure hclosure) hargs' ?_ ?_ ?_).mono fun q w₁ hq =>
            hq.mono fun vs w₂ hvs => ?_
        · rw [List.length_map, hprovides.length_eq] at *
          cases passes <;> exact harity
        · intro r hmem
          obtain ⟨u, hu, rfl⟩ := List.mem_map.mp hmem
          exact World.known_bound _ (hback u hu).1
        · intro r hmem key hkey
          obtain ⟨u, hu, rfl⟩ := List.mem_map.mp hmem
          rw [World.passage_bound, World.passage_deeper] at hkey
          exact (hback u hu).2 key hkey
        · refine ⟨us.map fun u => (u.1, u.2.2), by rw [List.map_map]; rfl, ?_, ?_⟩
          · have hleft := (List.forall₂_and_left _ _).mpr ⟨fun b (hb : b ∈ bs) => hb, hprovides⟩
            have hboth := (List.forall₂_and_left _ _).mpr ⟨fun u (hu : u ∈ us) => hu, hleft.flip⟩
            refine List.forall₂_map_right_iff.mpr (hboth.flip.imp fun b u h => ?_)
            obtain ⟨hu, hb, hprov⟩ := h
            exact hvs.2.hasBound (hbs b hb).arguments (hprov.hasBound hu hpairwise)
          · cases passes with
            | false => exact hvs.1
            | true =>
              rw [if_pos rfl, List.map_map]
              exact hvs.1

/-! ### The whole call -/

/-- What follows on what succeeds may depend on what that has come to. -/
theorem Proc.SucceedsUnless.exists_enters_bind [Nonempty ι] {E : Failure → Prop} {p : Proc δ}
    {f : δ → Proc α} {T : δ → World → Prop} {Q : ι → Proc β → World → Prop} {S : ι → Upshot α β}
    (hp : p.SucceedsUnless E w T)
    (hf : ∀ a w₁, w.Sustains w₁ → T a w₁ → ∃ i, (f a).EntersUnless E w₁ (Q i) (S i)) :
    ∃ i, (p >>= f).EntersUnless E w (Q i) (S i) := by
  by_cases hdue : (p >>= f).IsDue w
  · obtain ⟨r, w₁, hcomes, hs, hok, herror⟩ := hp hdue.bind_left
    cases r with
    | error e =>
      exact ⟨Classical.arbitrary ι, fun _ => .inl ⟨e, w₁, hcomes.bind_error, herror e rfl, hs⟩⟩
    | ok a =>
      obtain ⟨i, hi⟩ := hf a w₁ hs (hok a rfl)
      refine ⟨i, SucceedsUnless.enters_bind (T := fun a' w' => a' = a ∧ w' = w₁)
        (fun _ => ⟨.ok a, w₁, hcomes, hs, fun a' h => ⟨(Except.ok.inj h).symm, rfl⟩, nofun⟩)
        fun a' w' _ h => ?_⟩
      obtain ⟨rfl, rfl⟩ := h
      exact hi
  · exact ⟨Classical.arbitrary ι, fun h => absurd h hdue⟩

namespace Border

/-- An arity that accepts the bindings, or none, passes them on accordingly. -/
theorem takesBindings_of_arity {passes : Bool} {n : Nat} (harity : if passes then
      c.arity = .variadic ∨ c.arity = .exactly n ∧ n ≠ 0 else c.arity = .exactly 0) :
    takesBindings c.arity n = .ok passes ∧
      c.arity.accepts (if passes then n else 0) = true := by
  cases passes with
  | false =>
    rw [show c.arity = .exactly 0 from harity]
    exact ⟨rfl, rfl⟩
  | true =>
    obtain hvariadic | ⟨hexactly, hn⟩ := harity
    · rw [hvariadic]
      exact ⟨rfl, rfl⟩
    · obtain ⟨m, rfl⟩ := Nat.exists_eq_succ_of_ne_zero hn
      rw [hexactly]
      exact ⟨if_pos rfl, Arity.accepts_exactly_iff.mpr rfl⟩

/-- Script code has a script function run while variables are bound. -/
theorem entersUnless_bindVariables {passes : Bool} (hoffers : w.OffersCalls)
    (hdepth : w.host.depth + 3 < maxDepth) (hbs : ∀ b ∈ bs, w.IsBinding b)
    (hdistinct : bs.Pairwise fun b b' => canonicalName b.1 ≠ canonicalName b'.1)
    (harity : if passes then c.arity = .variadic ∨ c.arity = .exactly bs.length ∧ bs.length ≠ 0
      else c.arity = .exactly 0) :
    ∃ as : List Addr, (bindVariables bs c).EntersUnless Failure.IsFull w
      (Runs c fun vs w₁ => ∃ rs : List (Addr × Obj), rs.map Prod.fst = as ∧
        List.Forall₂ (w.HasBound w₁) bs rs ∧
        List.Forall₂ w₁.ComesBackAs (if passes then rs.map Prod.snd else []) vs)
      fun _ _ _ w₃ => ∀ a ∈ as, w₃.HasValue a (w.host.heap.value? a) := by
  -- which symbols are bound is known only once the forms are made, and so only if the call is due
  by_cases hdue : (bindVariables bs c).IsDue w
  swap
  · exact ⟨[], fun h => absurd h hdue⟩
  have hsteady := hdue.steady
  have hclosed := hdue.isReached.isClosed
  obtain ⟨hpasses, haccepts⟩ := takesBindings_of_arity harity
  -- the values last until the function is called, as nothing that comes between sets any
  refine Exists.imp (fun as h => entersUnless_keeping h (World.durable_hasValues as _)) ?_
  rw [hpasses]
  refine SucceedsUnless.exists_enters_bind (p := bindingForms bs) (succeedsUnless_bindingForms
    hsteady hclosed hoffers.forms (by omega) hbs (.refl w)) fun fs w₁ hs₁ hfs => ?_
  obtain ⟨ts, rfl, hts⟩ := hfs
  refine ⟨ts.map Prod.fst, ?_⟩
  refine (Succeeds.unless (succeeds_symbol (by cbv))).enters_bind fun h w₂ hs₂ hh => ?_
  obtain ⟨⟨x, hx, hname⟩, -⟩ := hh
  have hs₀₂ := hs₁.trans hs₂
  refine (succeedsUnless_quoteFunction c (hs₀₂.offersForms hoffers.forms)
    (by rw [hs₀₂.depth]; omega)).enters_bind fun q w₃ hs₃ hq => ?_
  have hs₀₃ := hs₀₂.trans hs₃
  have hforms := succeeds_letForm passes (hs₀₃.offersForms hoffers.forms)
    (hts.imp fun _ _ => (hs₂.trans hs₃).isBindingForm) (hs₃.grown.host.kept hx)
    (hs₃.grown.host.heap.names hname) hq
  simp only [List.map_map]
  refine hforms.enters_bind fun v w₄ hs₄ hform => Enters.unless ?_
  have hs₀₄ := hs₀₃.trans hs₄
  obtain ⟨_, _, _, _, _, _, _, _, _, hlist⟩ := id hform
  refine enters_evaluate (hs₀₄.offersCalls hoffers).forms.evaluate hlist.crosses
    (fun o w₅ hs₅ ho => ?_) (World.durable_hasValues _ _)
  have hs := hs₀₄.trans hs₅
  have hvalue : w₅.host.heap.value? = w.host.heap.value? :=
    funext fun a => hs.grown.host.heap.value?_eq a
  rw [← hvalue]
  exact Host.enters_evaluate_letForm (hs.offersCalls hoffers) (by rwa [hs.depth]) hclosed hs hbs
    hdistinct haccepts (hs₅.isLetForm hform) ho

/-- A function that takes neither the values nor nothing is refused first. -/
theorem comes_bindVariables_of_arity {n : Nat} (hc : c.arity = .exactly n) (hzero : n ≠ 0)
    (hn : n ≠ bs.length) : Comes w.scene (bindVariables bs c) w
      (.error (.arityMismatch none bs.length n)) w := by
  obtain ⟨m, rfl⟩ := Nat.exists_eq_succ_of_ne_zero hzero
  have hrefused : takesBindings c.arity bs.length =
      .error (.arityMismatch none bs.length (m + 1)) := by
    rw [hc]
    exact if_neg hn
  have henter : Scope.holding.enter w = .ok (.holdOnly w.script.held, w) := rfl
  rw [bindVariables, hrefused]
  exact .insideFails rfl henter (.fail rfl) rfl

end Border

/-- Script code has a script function run while variables are bound. A function that takes any
number of values, or one for each variable, is run once with what the values of the variables
come back as; one without parameters is run once without arguments. While the function runs,
each variable is bound to what the script value for it stands for, and at the end it has the
value that it had before. Any other function is refused, and nothing is done. -/
theorem functions_run_while_variables_are_bound (hoffers : w.OffersCalls)
    (hdepth : w.host.depth + 3 < maxDepth) (hbs : ∀ b ∈ bs, w.IsBinding b)
    (hdistinct : bs.Pairwise fun b b' => canonicalName b.1 ≠ canonicalName b'.1) :
    (∀ passes : Bool, (if passes then c.arity = .variadic ∨
        c.arity = .exactly bs.length ∧ bs.length ≠ 0 else c.arity = .exactly 0) →
      ∃ as : List Addr, (Border.bindVariables bs c).EntersUnless Failure.IsFull w
        (Border.Runs c fun vs w₁ => ∃ rs : List (Addr × Obj), rs.map Prod.fst = as ∧
          List.Forall₂ (w.HasBound w₁) bs rs ∧
          List.Forall₂ w₁.ComesBackAs (if passes then rs.map Prod.snd else []) vs)
        fun _ _ _ w₃ => ∀ a ∈ as, w₃.HasValue a (w.host.heap.value? a)) ∧
    ∀ n, c.arity = .exactly n → n ≠ 0 → n ≠ bs.length →
      Comes w.scene (Border.bindVariables bs c) w (.error (.arityMismatch none bs.length n)) w := by
  refine ⟨fun passes harity => ?_, fun n => Border.comes_bindVariables_of_arity⟩
  exact Border.entersUnless_bindVariables hoffers hdepth hbs hdistinct harity

/-- The operands of some bindings. -/
def boundOperands : List (String × Operand) :=
  [("x", .text "v"), ("the_flag", .bool true), ("z", .object [("k", .list [.text "v"])])]

/-- The bindings that the operands are for. -/
def boundValues : List (String × Value) :=
  [("x", .text "v"), ("the_flag", .bool true), ("z", .object [("k", .list [.text "v"])])]

/-- A script function without a body is run with a string, truth and an object. -/
theorem functions_run_while_variables_are_bound_three : ∃ as : List Addr,
    (∃ e w₁, Comes functionMade.scene (Border.bindVariables boundValues ⟨1, .variadic, none, []⟩)
      functionMade (.error e) w₁ ∧ e.IsFull ∧ functionMade.Sustains w₁) ∨
    ∃ q w₁, (Border.bindVariables boundValues ⟨1, .variadic, none, []⟩).Wraps functionMade q w₁
      (fun _ _ _ w₃ => ∀ a ∈ as, w₃.HasValue a (functionMade.host.heap.value? a)) ∧
      Border.Runs ⟨1, .variadic, none, []⟩ (fun vs w₁ => ∃ rs : List (Addr × Obj),
        rs.map Prod.fst = as ∧ List.Forall₂ (functionMade.HasBound w₁) boundValues rs ∧
        List.Forall₂ w₁.ComesBackAs (rs.map Prod.snd) vs) q w₁ := by
  have hfacts : functionMade.OffersCalls ∧ functionMade.host.depth + 3 < maxDepth ∧
      functionMade.host.find? truthName = some 1 ∧
      functionMade.host.heap.get? 1 = some (.symbol truthName (some (.ref 1)) none) := by
    rw [functionMade, World.initial_eq]
    decide +kernel
  obtain ⟨hoffers, hdepth, htruth, ht⟩ := hfacts
  have hnames : ∀ b ∈ boundValues, canonicalName b.1 ≠ "nil" ∧
      isKeywordName (canonicalName b.1) = false ∧ canonicalName b.1 ≠ argumentsName := by
    decide +kernel
  have hvalues : ∀ b ∈ boundValues, functionMade.IsBindable b.2 :=
    List.forall_mem_cons.mpr ⟨.data rfl (fun h => by cases h) (by decide +kernel),
      List.forall_mem_cons.mpr ⟨.data rfl (fun _ => ⟨1, none, htruth, ht⟩) (by decide +kernel),
        List.forall_mem_cons.mpr ⟨.data rfl (fun h => by cases h) (by decide +kernel),
          List.forall_mem_nil _⟩⟩⟩
  have hbs : ∀ b ∈ boundValues, functionMade.IsBinding b := fun b hb =>
    ⟨(hnames b hb).1, (hnames b hb).2.1, (hnames b hb).2.2, hvalues b hb⟩
  -- the call is due in a session that makes the function first
  have hdeed : (Script.perform [] (.bindVariables boundOperands
      (.mk .variadic none []))).IsDue (.initial .standard) :=
    isDue_perform .standard (by decide) rfl
  simp only [Script.perform, boundOperands, Script.operandFields, Script.operand,
    Script.operands, pure_bind] at hdeed
  have hdue := (hdeed.bind_right (comes_makeFunction _ _)).bind_left
  obtain ⟨as, henters⟩ := (functions_run_while_variables_are_bound
    (c := ⟨1, .variadic, none, []⟩) hoffers hdepth hbs (by decide +kernel)).1 true (.inl rfl)
  exact ⟨as, henters hdue⟩

/-! ### Sessions -/

/-- A session in which truth is given a value before a variable is bound to truth. -/
def bindingTruth : List Step := [
  .mk (.runSource "(setq t \"other\")") none false,
  .mk (.bindVariables [("x", .bool true)] (.mk (.exactly 1) none
    [.mk (.value (.argument 0)) none false])) none false]

/-- The host functions are in place when the variable is bound, but the function gets the value
that truth has, not truth. -/
theorem Transcript.truth_is_bound_by_value :
    ((start .standard bindingTruth).after 40).world.OffersCalls ∧
      (Transcript.ofSteps .standard bindingTruth).map StepReport.valueText? =
        [none, some "other"] := by
  rw [start_eq, ofSteps_eq]
  exact ⟨by decide +kernel, by decide +kernel⟩

end Crossing
