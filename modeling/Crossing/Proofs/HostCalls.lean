import Mathlib.Data.List.Nodup
import Crossing.Proofs.Exchanges
import Crossing.Proofs.Start

/-!
# Calls of host functions

What comes of it when the border calls functions of the host, has it make lists, and
has it evaluate special forms. All that is around the function or the form is quiet,
so that what can be said of its run can be said of the whole call.

- `World.IsNamed`: a handle is for what a name stands for;
- `Heap.Keeps`: no symbol of a builtin's name has got another function;
- `Proc.Composes`: a way to say how procedures end that goes from one part to the
  whole, `Proc.composes_yields` is one;
- `Composes.funcall`, `Composes.call`: calls of host functions;
- `World.IsListOf`, `World.IsForm`, `Border.adds_formOf`: lists and forms that the
  host has made;
- `Composes.evaluate`: the evaluation of a special form.
-/

namespace Crossing

open Proc

variable {α β : Type} {w w₁ : World}

/-! ### Symbols -/

namespace World

/-- A handle is for what a name stands for. -/
def IsNamed (w : World) (h : Handle) (name : String) : Prop :=
  w.host.Promises h.id fun o => w.host.heap.Names o name

theorem lasting_isNamed (h : Handle) (name : String) : Lasting fun w => w.IsNamed h name :=
  ⟨fun hg hn => hn.of_ages hg.host.ages fun _ => hg.host.heap.names⟩

end World

namespace Border

/-- A name that is looked up gives a handle for its symbol. -/
theorem adds_internNow (name : String) (kind : SymbolKind) :
    (internNow name kind).Adds w fun h w₁ => w₁.IsNamed h name := by
  refine (adds_intern name).bind fun o w₁ _ ho => (adds_retain o).bind fun id w₂ hg₂ hid => ?_
  refine (adds_adopt id).bind fun h w₃ hg₃ hh => ?_
  have hnamed : w₃.IsNamed h name := by
    have hn := hg₃.host.heap.names (hg₂.host.heap.names ho)
    rw [World.IsNamed, hh.1]
    refine (hid.2.of_ages hg₃.host.ages fun _ h => h).imp fun o' ho' => ?_
    exact ho' ▸ hn
  refine (adds_change rfl).bind fun _ w₄ hg₄ _ => (adds_change rfl).bind fun _ w₅ hg₅ _ => ?_
  exact adds_pure ((World.lasting_isNamed h name).grows (hg₄.trans hg₅) hnamed)

/-- A symbol that is looked up has the name. -/
theorem adds_lookup (name : String) (kind : SymbolKind) (cached : Bool) :
    (lookup name kind cached).Adds w fun h w₁ => w₁.IsNamed h (hostName name kind) := by
  unfold lookup
  split
  · refine (adds_recallSymbol kind (hostName name kind)).bind fun r w₁ _ hr => ?_
    cases r with
    | some h => exact adds_pure (hr h rfl)
    | none => exact adds_internNow _ kind
  · exact adds_internNow _ kind

end Border

/-! ### Builtins -/

/-- Different functions of the host have different names. -/
theorem Builtin.name_injective : Function.Injective name :=
  fun b d h => List.inj_on_of_nodup_map nodup_names b.mem_all d.mem_all h

/-- No symbol of a builtin's name has another function. -/
def Heap.Keeps (h : Heap) (b : Builtin) : Prop :=
  ∀ a value f, h.get? a = some (.symbol b.name value (some f)) →
    ∃ c, f = .ref c ∧ h.get? c = some (.builtin b)

/-- A function of the host stays in place as the heap grows. -/
theorem Heap.GrowsTo.keeps {h h₁ : Heap} {b : Builtin} (hg : h.GrowsTo h₁) (hk : h.Keeps b) :
    h₁.Keeps b := by
  intro a value f ha
  obtain ⟨c, rfl, hc⟩ := hk a value f (hg.function ha)
  exact ⟨c, rfl, hg.cell hc⟩

namespace Heap
variable {h : Heap} {b d : Builtin} {s n : Addr} {value function : Option Obj}

/-- A builtin becomes the function of a symbol of its name. -/
theorem Keeps.setFunction (hk : h.Keeps d) (hs : h.get? s = some (.symbol b.name value function))
    (hn : h.get? n = some (.builtin b)) : (h.setFunction s (some (.ref n))).Keeps d := by
  -- no symbol is a builtin
  have hbuiltin : ∀ {c e}, h.get? c = some (.builtin e) →
      (h.setFunction s (some (.ref n))).get? c = some (.builtin e) := by
    intro c e hc
    have hne : c ≠ s := by
      rintro rfl
      cases hc.symm.trans hs
    rw [Heap.setFunction, get?_modify_other _ _ hne]
    exact hc
  intro a v f ha
  rw [Heap.setFunction] at ha
  by_cases has : a = s
  · subst has
    rw [get?_modify_self, hs] at ha
    simp only [Option.map_some, Option.some.injEq, Cell.symbol.injEq] at ha
    obtain ⟨hname, -, rfl⟩ := ha
    obtain rfl := Builtin.name_injective hname
    exact ⟨n, rfl, hbuiltin hn⟩
  · rw [get?_modify_other _ _ has] at ha
    obtain ⟨c, rfl, hc⟩ := hk a v f ha
    exact ⟨c, rfl, hbuiltin hc⟩

end Heap

namespace Interpreter

variable {i : Interpreter} {b d : Builtin}

theorem keeps_define (hi : i.Interned) (hk : i.heap.Keeps d) (b : Builtin) :
    (i.define b).heap.Keeps d := by
  let j : Interpreter := { i with heap := (i.heap.allocate (.builtin b)).2 }
  have hj : j.Interned := hi.of_symbols (Heap.develops_allocate [] _ _) fun _ h => h
  have hallocated : i.heap.GrowsTo j.heap := i.heap.growsTo_allocate rfl
  have hn : j.heap.get? i.heap.size = some (.builtin b) := Heap.get?_allocate_self _ _
  have hg := (growsTo_intern j b.name).heap
  have hname := names_intern hj b.name
  have hinterned := (hallocated.trans hg).keeps hk
  unfold define
  dsimp only
  -- the symbol for the name may be new, or be there already with another function
  split
  · rename_i s i₁ hs
    rw [show j.intern b.name = _ from hs] at hg hname hinterned
    obtain ⟨hnil, -⟩ | ⟨_, value, function, hsame, ha⟩ := hname
    · exact absurd hnil b.name_ne_nil
    · cases hsame
      exact hinterned.setFunction ha (hg.cell hn)
  · rename_i hs
    rw [show j.intern b.name = _ from hs] at hinterned
    exact hinterned

/-- At the start, no symbol of a builtin's name has another function. -/
theorem keeps_initial (d : Builtin) : initial.heap.Keeps d := by
  have hfold : ∀ (bs : List Builtin) (i : Interpreter), i.Interned → i.heap.Keeps d →
      (bs.foldl define i).heap.Keeps d := by
    intro bs
    induction bs with
    | nil => exact fun i _ hk => hk
    | cons b bs ih => exact fun i hi hk => ih _ (hi.define b) (keeps_define hi hk b)
  refine hfold _ _ (fun e he => ?_) fun a value f ha => ?_
  · obtain rfl := List.mem_singleton.mp he
    exact .inr ⟨1, some (.ref 1), none, rfl, rfl⟩
  · -- the two objects that are there have no functions
    match a, ha with
    | 0, ha => exact Cell.noConfusion (Option.some.inj ha)
    | 1, ha =>
      obtain ⟨-, -, hf⟩ := Cell.symbol.inj (Option.some.inj ha)
      cases hf

end Interpreter

/-- The function of a symbol. -/
theorem Host.adds_functionOf_symbol {a : Addr} {name : String} {value function : Option Obj}
    (ha : w.host.heap.get? a = some (.symbol name value function)) :
    (functionOf (.ref a)).Adds w fun f w₁ => function = some f ∧ w₁ = w := by
  refine (adds_query .heap).bind fun h w₁ _ heq => ?_
  obtain ⟨rfl, rfl⟩ := heq
  simp only [Query.ask, Heap.shape_ref ha]
  cases function with
  | some f => exact adds_pure ⟨rfl, rfl⟩
  | none => exact adds_fail _

/-! ### From a part to the whole -/

/-- A way `P` to say how procedures end, if they do, that goes from a part to the whole
as long as everything before and after the part is quiet. -/
structure Proc.Composes (P : {α : Type} → Proc α → World → (α → World → Prop) → Prop) : Prop where
  of_yields {α : Type} {p : Proc α} {w : World} {Q : α → World → Prop} :
    p.Yields w Q → P p w Q
  bind {α β : Type} {p : Proc α} {f : α → Proc β} {w : World} {Q : α → World → Prop}
    {R : β → World → Prop} :
    p.Yields w Q → (∀ a w₁, Q a w₁ → P (f a) w₁ R) → P (p >>= f) w R
  task {α β : Type} {t : Task α} {next : α → Proc β} {w : World} {Q : α → World → Prop}
    {R : β → World → Prop} :
    t.isScript = false → P t.body w Q → (∀ a w₁, Q a w₁ → (next a).Yields w₁ R) →
      P (.task t next) w R
  /-- What lasts of the result of a part holds where the part's scope has ended. -/
  inside {α β : Type} {s : Scope} {part : Proc α} {next : α → Proc β} {w : World}
    {Q : α → World → Prop} {R : β → World → Prop} :
    s.isAdditive = true → (∀ a, World.Lasting (Q a)) →
      (∀ u w₁, s.enter w = .ok (u, w₁) → P part w₁ Q) →
      (∀ a w₁, Q a w₁ → (next a).Yields w₁ R) → P (.inside s part next) w R

/-- To come to an end quietly goes from the parts to the whole. -/
theorem Proc.composes_yields : Composes Yields where
  of_yields h := h
  bind hp hf := hp.bind hf
  task ht hbody hnext := (yields_perform ht hbody).bind hnext
  inside hs hQ hpart hnext := (yields_within hs hQ hpart).bind hnext

namespace Proc.Composes

variable {P : {α : Type} → Proc α → World → (α → World → Prop) → Prop}
  {Q : Value → World → Prop} {R : Obj → World → Prop}

theorem bind_adds (hP : Composes P) {p : Proc α} {f : α → Proc β} {S : α → World → Prop}
    {T : β → World → Prop} (hp : p.Adds w S)
    (hf : ∀ a w₁, w.GrowsTo w₁ → S a w₁ → P (f a) w₁ T) : P (p >>= f) w T :=
  hP.bind hp fun a w₁ ha => hf a w₁ ha.1 ha.2

theorem keeping [Holds α] (hP : Composes P) {p : Proc α} {S : α → World → Prop}
    (hS : ∀ a, World.Lasting (S a)) (hp : P p w S) : P (keeping p) w S := by
  refine hP.inside rfl hS (fun u w₁ henter => ?_) fun a w₁ ha => ?_
  · cases henter
    exact hp
  · exact (adds_change rfl).yields_bind fun _ w₂ hg _ => yields_pure ((hS a).grows hg ha)

/-- Applying the symbol of a builtin that kept its function is running the builtin. -/
theorem apply_builtin (hP : Composes P) {b : Builtin} {f : Obj} {os : List Obj}
    {next : Obj → Proc β} {T : β → World → Prop} (hname : w.host.heap.Names f b.name)
    (hkeeps : w.host.heap.Keeps b) (hrun : P (b.run os) w R)
    (hnext : ∀ o w₁, R o w₁ → (next o).Yields w₁ T) : P (Host.apply f os >>= next) w T := by
  obtain ⟨hnil, -⟩ | ⟨a, value, function, rfl, ha⟩ := hname
  · exact absurd hnil b.name_ne_nil
  refine hP.task rfl (hP.bind_adds (adds_query .heap) fun h w₁ _ heq => ?_) hnext
  obtain ⟨rfl, rfl⟩ := heq
  simp only [Query.ask, Heap.shape_ref ha]
  refine hP.bind_adds (Host.adds_functionOf_symbol ha) fun g w₁ _ hg => ?_
  obtain ⟨rfl, rfl⟩ := hg
  obtain ⟨c, rfl, hc⟩ := hkeeps a value g ha
  refine hP.bind_adds (adds_query .heap) fun h w₁ _ heq => ?_
  obtain ⟨rfl, rfl⟩ := heq
  simp only [Query.ask, Heap.shape_ref hc]
  exact hrun

end Proc.Composes

/-! ### Calls -/

namespace Border

/-- A check of a name adds nothing. -/
theorem adds_refuseForbidden (name : String) :
    (refuseForbidden name).Adds w fun _ _ => True := by
  refine (adds_query .config).bind fun config w₁ _ _ => ?_
  split
  · exact adds_fail _
  · exact adds_pure trivial

/-- A check of a handle adds nothing. -/
theorem adds_refuseForbiddenHandle (h : Handle) :
    (refuseForbiddenHandle h).Adds w fun _ _ => True := by
  refine (adds_query (.nameOf? h)).bind fun name w₁ _ _ => ?_
  cases name with
  | some name => exact adds_refuseForbidden name
  | none => exact adds_pure trivial

/-- From now on, what is sent of an object arrives as `Q` says. -/
def Delivers (Q : Value → World → Prop) (o : Obj) (w : World) : Prop :=
  (Host.send o).Adds w fun p w₁ => ∀ w₂, w₁.GrowsTo w₂ → (unpack p).Adds w₂ Q

namespace Delivers

variable {Q : Value → World → Prop} {o : Obj}

/-- What is delivered yields a value on the other side, in any world that grew meanwhile. -/
theorem yields (h : Delivers Q o w) : (Host.send o).Yields w fun p w₁ =>
    ∀ w₂, w₁.GrowsTo w₂ → (unpack p).Yields w₂ Q :=
  Yields.mono h fun _ _ hp w₂ hg => Yields.mono (hp.2 w₂ hg) fun _ _ hv => hv.2

/-- The world has only grown when an object has arrived. -/
theorem grown {w₀ : World} (hg : w₀.GrowsTo w) (h : Delivers Q o w) :
    Delivers (fun v w₁ => w₀.GrowsTo w₁ ∧ Q v w₁) o w :=
  h.mono fun _ _ hg₁ hp w₂ hg₂ => (hp w₂ hg₂).mono fun _ _ hg₃ hv =>
    ⟨hg.trans (hg₁.trans (hg₂.trans hg₃)), hv⟩

end Delivers

/-- An object that is sent by reference arrives as a handle of it. -/
theorem delivers_reference {o : Obj} {Q : Value → World → Prop}
    (h : (Host.send o).Adds w fun p w₁ =>
      ∃ id, p = .reference id ∧ w₁.host.resolve? id = some o)
    (hQ : ∀ g w₁, w.GrowsTo w₁ → w₁.host.resolve? g.id = some o → Q (.handle g) w₁) :
    Delivers Q o w := by
  refine h.mono fun p w₁ hg₁ hp w₂ hg₂ => ?_
  obtain ⟨id, rfl, hid⟩ := hp
  refine (adds_adopt id).bind fun g w₃ hg₃ hg => adds_pure ?_
  refine hQ g w₃ (hg₁.trans (hg₂.trans hg₃)) ?_
  rw [hg.1]
  exact hg₃.host.kept (hg₂.host.kept hid)

/-- What lasts holds when an object has arrived. -/
theorem delivers_of_lasting {o : Obj} {S : World → Prop} (hS : World.Lasting S) (h : S w) :
    Delivers (fun _ w₁ => S w₁) o w :=
  (Host.isAdditive_send o).adds.mono fun p _ hg₁ _ _ hg₂ =>
    (isAdditive_unpack p).adds.mono fun _ _ hg₃ _ => hS.grows (hg₁.trans (hg₂.trans hg₃)) h

end Border

namespace Proc.Composes

variable {P : {α : Type} → Proc α → World → (α → World → Prop) → Prop}
  {Q : Value → World → Prop} {R : Obj → World → Prop}

/-- A call of a host function comes to what comes of applying it. -/
theorem funcall (hP : Composes P) {function : Handle} {vs : List Value}
    (hvs : ∀ v ∈ vs, w.Packs v) (hQ : ∀ v, World.Lasting (Q v))
    (happly : ∀ f os w₁, w.GrowsTo w₁ → w₁.host.resolve? function.id = some f →
      List.Forall₂ (fun v o => w₁.Shows v o) vs os →
      P (Host.apply f os >>= Host.send) w₁
        fun p w₂ => ∀ w₃, w₂.GrowsTo w₃ → (Border.unpack p).Yields w₃ Q) :
    P (Border.funcall function vs) w Q := by
  refine hP.bind_adds (Border.adds_refuseForbiddenHandle function) fun _ w₁ hg₁ _ => ?_
  have hvs₁ : ∀ v ∈ vs, w₁.Packs v := fun v hv => (World.lasting_packs v).grows hg₁ (hvs v hv)
  refine hP.keeping hQ (hP.bind_adds (Border.adds_packAll hvs₁) fun ps w₂ hg₂ hps => ?_)
  have hlasting : ∀ p, World.Lasting fun w₂ =>
      ∀ w₃, w₂.GrowsTo w₃ → (Border.unpack p).Yields w₃ Q :=
    fun p => ⟨fun hg h w₃ hg₃ => h w₃ (hg.trans hg₃)⟩
  refine hP.inside rfl hlasting (fun u w₃ henter => ?_) fun p w₃ hp => hp w₃ (.refl w₃)
  have hg₃ := (Scope.growsTo_enter rfl henter).1
  refine hP.bind_adds (Host.adds_resolve function.id) fun f w₄ hg₄ hf => ?_
  have hps₄ := hps.imp fun v p h => (World.lasting_brings v p).grows (hg₃.trans hg₄) h
  refine hP.bind_adds (Host.adds_receiveAll hps₄) fun os w₅ hg₅ hos => ?_
  have hg := hg₁.trans (hg₂.trans (hg₃.trans (hg₄.trans hg₅)))
  exact happly f os w₅ hg (hg₅.host.kept hf) hos

/-- A call of a builtin that kept its function comes to what comes of the builtin: `R`
says what this gives, `Q` what arrives of it. -/
theorem call (hP : Composes P) {b : Builtin} {vs : List Value}
    (hname : hostName (canonicalName b.name) .symbol = b.name) (hkeeps : w.host.heap.Keeps b)
    (hvs : ∀ v ∈ vs, w.Packs v) (hQ : ∀ v, World.Lasting (Q v))
    (hrun : ∀ os w₁, w.GrowsTo w₁ → List.Forall₂ (fun v o => w₁.Shows v o) vs os →
      P (b.run os) w₁ R)
    (hsend : ∀ o w₁, R o w₁ → Border.Delivers Q o w₁) : P (Border.call b.name vs) w Q := by
  refine hP.bind_adds (Border.adds_refuseForbidden _) fun _ w₁ hg₁ _ => hP.keeping hQ ?_
  refine hP.bind_adds (Border.adds_lookup _ .symbol true) fun function w₂ hg₂ hfunction => ?_
  rw [hname] at hfunction
  have hvs₂ : ∀ v ∈ vs, w₂.Packs v := fun v hv =>
    (World.lasting_packs v).grows (hg₁.trans hg₂) (hvs v hv)
  refine hP.funcall hvs₂ hQ fun f os w₃ hg₃ hf hos => ?_
  have hg := hg₁.trans (hg₂.trans hg₃)
  have hnamed := (World.lasting_isNamed _ _).grows hg₃ hfunction
  exact hP.apply_builtin (hnamed.2 f hf) (hg.host.heap.keeps hkeeps) (hrun os w₃ hg hos)
    fun o w₄ ho => (hsend o w₄ ho).yields

end Proc.Composes

/-- A call of a builtin that kept its function only adds if the builtin only adds. -/
theorem Border.adds_call {Q : Value → World → Prop} {R : Obj → World → Prop} {b : Builtin}
    {vs : List Value} (hname : hostName (canonicalName b.name) .symbol = b.name)
    (hkeeps : w.host.heap.Keeps b) (hvs : ∀ v ∈ vs, w.Packs v) (hQ : ∀ v, World.Lasting (Q v))
    (hrun : ∀ os w₁, w.GrowsTo w₁ → List.Forall₂ (fun v o => w₁.Shows v o) vs os →
      (b.run os).Adds w₁ R)
    (hsend : ∀ o w₁, w.GrowsTo w₁ → R o w₁ → Delivers Q o w₁) :
    (call b.name vs).Adds w Q :=
  composes_yields.call (R := fun o w₁ => w.GrowsTo w₁ ∧ R o w₁) hname hkeeps hvs
    (fun v => w.lasting_growsTo.and (hQ v))
    (fun os w₁ hg hos => Yields.mono (hrun os w₁ hg hos) fun _ _ ho => ⟨hg.trans ho.1, ho.2⟩)
    fun o w₁ ho => (hsend o w₁ ho.1 ho.2).grown ho.1

/-! ### Lists -/

/-- Related lists are cut where the first is cut. -/
theorem exists_append_of_forall₂ {α β : Type} {R : α → β → Prop} {l₁ l₂ : List α} {os : List β}
    (h : List.Forall₂ R (l₁ ++ l₂) os) :
    ∃ os₁ os₂, os = os₁ ++ os₂ ∧ List.Forall₂ R l₁ os₁ ∧ List.Forall₂ R l₂ os₂ := by
  induction l₁ generalizing os with
  | nil => exact ⟨[], os, rfl, .nil, h⟩
  | cons a l₁ ih =>
    cases h with
    | cons ha h =>
      obtain ⟨os₁, os₂, rfl, h₁, h₂⟩ := ih h
      exact ⟨_, os₂, rfl, .cons ha h₁, h₂⟩

/-- What is in a list is related to something in the other. -/
theorem exists_mem_of_forall₂ {α β : Type} {R : α → β → Prop} {l : List α} {os : List β}
    (h : List.Forall₂ R l os) {a : α} (ha : a ∈ l) : ∃ o ∈ os, R a o := by
  induction h with
  | nil => cases ha
  | cons hR _ ih =>
    obtain rfl | ha := List.mem_cons.mp ha
    · exact ⟨_, List.mem_cons_self, hR⟩
    · obtain ⟨o, ho, hR⟩ := ih ha
      exact ⟨o, List.mem_cons_of_mem _ ho, hR⟩

namespace World

/-- A script value is for a list of what some script values stand for. -/
def IsListOf (w : World) (v : Value) (vs : List Value) : Prop :=
  ∃ h o os, v = .handle h ∧ w.host.resolve? h.id = some o ∧
    w.host.heap.list? o = some os ∧ List.Forall₂ (fun v o => w.Shows v o) vs os

theorem lasting_isListOf (v : Value) (vs : List Value) : Lasting fun w => w.IsListOf v vs := by
  refine ⟨fun hg h => ?_⟩
  obtain ⟨g, o, os, rfl, ho, hos, hvs⟩ := h
  exact ⟨g, o, os, rfl, hg.host.kept ho, hg.host.heap.list? hos,
    hvs.imp fun v o hv => (lasting_shows v o).grows hg hv⟩

theorem IsListOf.packs {v : Value} {vs : List Value} (h : w.IsListOf v vs) : w₁.Packs v := by
  obtain ⟨g, _, _, rfl, _⟩ := h
  exact World.packs nofun

/-- Objects that some script values stand for never look like what follows the head of
the marker of a wrapped object. -/
def NeverMark (w : World) (vs : List Value) : Prop :=
  ∀ os w₁, w.GrowsTo w₁ → List.Forall₂ (fun v o => w₁.Shows v o) vs os →
    ∀ i g, os ≠ [.int i, .int g]

theorem lasting_neverMark (vs : List Value) : Lasting fun w => w.NeverMark vs :=
  ⟨fun hg h os w₁ hg₁ => h os w₁ (hg.trans hg₁)⟩

/-- A list of another length is no marker. -/
theorem neverMark_of_length {vs : List Value} (h : vs.length ≠ 2) : w.NeverMark vs := by
  rintro os w₁ - hos i g rfl
  exact h hos.length_eq

/-- A list with items is no number. -/
theorem IsListOf.neverMark {v v₁ : Value} {vs vs₁ : List Value} (h : w.IsListOf v (v₁ :: vs₁))
    (hv : v ∈ vs) : w.NeverMark vs := by
  rintro os w₁ hg hos i g rfl
  obtain ⟨g', o, os', rfl, ho, hos', hvs⟩ := (lasting_isListOf _ _).grows hg h
  cases hvs with
  | cons _ _ =>
    obtain ⟨a, _, rfl, -⟩ := Heap.exists_pair_of_list? hos'
    obtain ⟨o', ho', hshows⟩ := exists_mem_of_forall₂ hos hv
    obtain rfl : .ref a = o' := Option.some.inj (ho.symm.trans hshows)
    simp at ho'

end World

namespace Border

/-- To have the host make a list of what some script values stand for. -/
theorem adds_list {v : Value} {vs : List Value} (hkeeps : w.host.heap.Keeps .list)
    (hvs : ∀ u ∈ v :: vs, w.Packs u) (hmarker : w.NeverMark vs) :
    (Border.list (v :: vs)).Adds w fun u w₁ => w₁.IsListOf u (v :: vs) := by
  refine adds_call (b := .list) (R := fun o w₁ => ∃ os, w₁.host.heap.list? o = some os ∧
    List.Forall₂ (fun v o => w₁.Shows v o) (v :: vs) os) (by cbv) hkeeps hvs
    (fun u => World.lasting_isListOf u _) ?_ ?_
  -- the host lists the objects, and that list is a reference as it crosses
  · intro os w₁ hg hos
    refine (Host.adds_list os).mono fun o w₂ hg₂ ho => ?_
    exact ⟨os, ho, hos.imp fun v o hv => (World.lasting_shows v o).grows hg₂ hv⟩
  · rintro o w₁ hg ⟨os, hlist, hos⟩
    -- an empty list is nothing to refer to, and there is none here
    cases hos with
    | @cons _ head _ items hhead hitems =>
      obtain ⟨a, _, rfl, -⟩ := Heap.exists_pair_of_list? hlist
      refine delivers_reference (Host.adds_send_pair hlist fun head' i g heq => ?_) ?_
      · cases heq
        exact hmarker _ w₁ hg hitems i g rfl
      · intro g w₂ hg₂ hid
        refine ⟨g, .ref a, head :: items, rfl, hid, hg₂.host.heap.list? hlist, ?_⟩
        exact .cons ((World.lasting_shows _ _).grows hg₂ hhead)
          (hitems.imp fun v o hv => (World.lasting_shows v o).grows hg₂ hv)

end Border

/-! ### Forms -/

namespace World

/-- A script value is for a list of a symbol and what some script values stand for. -/
def IsForm (w : World) (v : Value) (head : String) (args : List Value) : Prop :=
  ∃ h, w.IsNamed h head ∧ w.IsListOf v (.handle h :: args)

theorem lasting_isForm (v : Value) (head : String) (args : List Value) :
    Lasting fun w => w.IsForm v head args := by
  refine ⟨fun hg h => ?_⟩
  obtain ⟨g, hnamed, hlist⟩ := h
  exact ⟨g, (lasting_isNamed g head).grows hg hnamed, (lasting_isListOf v _).grows hg hlist⟩

namespace IsForm

variable {v : Value} {head : String} {args : List Value}

theorem packs (h : w.IsForm v head args) : w₁.Packs v := by
  obtain ⟨_, -, hlist⟩ := h
  exact hlist.packs

/-- What holds a form is no marker, as a marker holds no pairs. -/
theorem neverMark (h : w.IsForm v head args) {vs : List Value} (hv : v ∈ vs) :
    w.NeverMark vs := by
  obtain ⟨_, -, hlist⟩ := h
  exact hlist.neverMark hv

/-- The list that a form is. -/
theorem list? {o : Obj} (h : w.IsForm v head args) (ho : w.Shows v o) :
    ∃ x os, w.host.heap.list? o = some (x :: os) ∧ w.host.heap.Names x head ∧
      List.Forall₂ (fun v o => w.Shows v o) args os := by
  obtain ⟨g, hnamed, g', o', os', rfl, ho', hlist, hos⟩ := h
  obtain rfl : o' = o := Option.some.inj (ho'.symm.trans ho)
  cases hos with
  | cons hx hos => exact ⟨_, _, hlist, hnamed.2 _ hx, hos⟩

end IsForm

end World

/-- To have the host make a form. -/
theorem Border.adds_formOf {head : String} {args : List Value}
    (hname : hostName head .symbol = head) (hkeeps : w.host.heap.Keeps .list)
    (hargs : ∀ v ∈ args, w.Packs v) (hmarker : w.NeverMark args) :
    (formOf head args).Adds w fun v w₁ => w₁.IsForm v head args := by
  refine adds_keeping (fun v => World.lasting_isForm v head args) ?_
  refine (adds_lookup head .symbol true).bind fun h w₁ hg hh => ?_
  rw [hname] at hh
  have hparts : ∀ v ∈ Value.handle h :: args, w₁.Packs v := by
    intro v hv
    obtain rfl | hv := List.mem_cons.mp hv
    · exact World.packs nofun
    · exact (World.lasting_packs v).grows hg (hargs v hv)
  have hlist := adds_list (hg.host.heap.keeps hkeeps) hparts
    ((World.lasting_neverMark args).grows hg hmarker)
  exact hlist.mono fun v w₂ hg₂ hv => ⟨h, (World.lasting_isNamed h head).grows hg₂ hh, hv⟩

/-! ### Evaluation of special forms -/

/-- What names a symbol gives its name, unless it is the empty list. -/
theorem Heap.Names.symbolName? {h : Heap} {o : Obj} {name : String} (hn : h.Names o name)
    (hnil : name ≠ "nil") : h.symbolName? o = some name := by
  obtain ⟨rfl, -⟩ | ⟨a, value, function, rfl, ha⟩ := hn
  · exact absurd rfl hnil
  · simp only [Heap.symbolName?, Heap.shape_ref ha]

namespace Proc.Composes

variable {P : {α : Type} → Proc α → World → (α → World → Prop) → Prop}
  {Q : Value → World → Prop} {R : Obj → World → Prop}

/-- Evaluating a list that is a special form comes to what comes of the special form. -/
theorem evaluate_list (hP : Composes P) {f : SpecialForm} {o head : Obj} {args : List Obj}
    {name : String} (hlist : w.host.heap.list? o = some (head :: args))
    (hhead : w.host.heap.Names head name) (hspecial : SpecialForm.ofName? name = some f)
    (hR : ∀ o, World.Lasting (R o)) (hrun : ∀ w₁, w.GrowsTo w₁ → P (f.run args) w₁ R) :
    P (Host.evaluate o) w R := by
  have hnil : name ≠ "nil" := by
    rintro rfl
    cases hspecial
  obtain ⟨a, tail, rfl, hpair, htail⟩ := Heap.exists_pair_of_list? hlist
  refine hP.task rfl (hP.inside rfl hR (fun u w₁ henter => ?_) fun o w₁ ho => yields_pure ho)
    fun o w₁ ho => yields_pure ho
  have hg := (Scope.growsTo_enter rfl henter).1
  refine hP.bind_adds (adds_query .heap) fun h w₂ _ heq => ?_
  obtain ⟨rfl, rfl⟩ := heq
  simp only [Query.ask, Heap.shape_ref (hg.host.heap.cell hpair)]
  -- the head of the list is the name of a special form, and so its rule is followed
  have hform : Host.specialForm? w₂.host.heap head = some f := by
    rw [Host.specialForm?, (hg.host.heap.names hhead).symbolName? hnil]
    exact hspecial
  refine hP.bind_adds (adds_query .heap) fun h w₃ _ heq => ?_
  obtain ⟨rfl, rfl⟩ := heq
  simp only [Query.ask, hg.host.heap.list? htail, hform]
  exact hrun w₃ hg

/-- To have the host evaluate a special form: `R` says what the special form gives, `Q`
what arrives of it. -/
theorem evaluate (hP : Composes P) {f : SpecialForm} {v : Value} {head : String}
    {args : List Value} (hkeeps : w.host.heap.Keeps .evaluate) (hform : w.IsForm v head args)
    (hspecial : SpecialForm.ofName? head = some f) (hR : ∀ o, World.Lasting (R o))
    (hQ : ∀ v, World.Lasting (Q v))
    (hrun : ∀ os w₁, w.GrowsTo w₁ → List.Forall₂ (fun v o => w₁.Shows v o) args os →
      P (f.run os) w₁ R)
    (hsend : ∀ o w₁, R o w₁ → Border.Delivers Q o w₁) : P (Border.evaluate v) w Q := by
  refine hP.call (b := .evaluate) (by cbv) hkeeps
    (List.forall_mem_singleton.mpr hform.packs) hQ ?_ hsend
  intro os w₁ hg hos
  cases hos with
  | cons ho hnil =>
    cases hnil
    obtain ⟨x, os, hlist, hx, hos⟩ := ((World.lasting_isForm _ _ _).grows hg hform).list? ho
    refine hP.evaluate_list hlist hx hspecial hR fun w₂ hg₂ => ?_
    refine hrun os w₂ (hg.trans hg₂) (hos.imp fun v o hv => ?_)
    exact (World.lasting_shows v o).grows hg₂ hv

end Proc.Composes

/-- To have the host evaluate a special form only adds if the special form only adds. -/
theorem Border.adds_evaluate {Q : Value → World → Prop} {R : Obj → World → Prop}
    {f : SpecialForm} {v : Value} {head : String} {args : List Value}
    (hkeeps : w.host.heap.Keeps .evaluate) (hform : w.IsForm v head args)
    (hspecial : SpecialForm.ofName? head = some f) (hR : ∀ o, World.Lasting (R o))
    (hQ : ∀ v, World.Lasting (Q v))
    (hrun : ∀ os w₁, w.GrowsTo w₁ → List.Forall₂ (fun v o => w₁.Shows v o) args os →
      (f.run os).Adds w₁ R)
    (hsend : ∀ o w₁, w.GrowsTo w₁ → R o w₁ → Delivers Q o w₁) : (evaluate v).Adds w Q :=
  composes_yields.evaluate (R := fun o w₁ => w.GrowsTo w₁ ∧ R o w₁) hkeeps hform hspecial
    (fun o => w.lasting_growsTo.and (hR o)) (fun v => w.lasting_growsTo.and (hQ v))
    (fun os w₁ hg hos => Yields.mono (hrun os w₁ hg hos) fun _ _ ho => ⟨hg.trans ho.1, ho.2⟩)
    fun o w₁ ho => (hsend o w₁ ho.1 ho.2).grown ho.1

end Crossing
