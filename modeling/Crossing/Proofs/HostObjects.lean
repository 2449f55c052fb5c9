import Crossing.Proofs.Addresses
import Crossing.Proofs.HostFunctions

/-!
# What the host makes of objects

The host makes objects out of those that it is given, of what it finds in the heap, and of new
ones. It never makes up a reference.

- `Lambda.below_ofForms`: closures are made of what a lambda list is made of;
- `Host.below_evaluation`, `Host.below_application`: what is evaluated and applied;
- `Builtin.below_compute`: what the builtins outside of the exchange give.
-/

namespace Crossing

variable {n : Nat} {α β : Type} {o : Obj}

namespace Proc

variable {p : Proc α} {Q : α → Prop}

/-! ### Building blocks -/

theorem below_pure {a : α} (h : Q a) : (pure a : Proc α).Below n Q := h

@[simp] theorem below_signal (s : Signal) : (signal s : Proc α).Below n Q := trivial

theorem below_query (q : Query α) : (query q).Below n (q.GivesBelow n) := fun _ hx => hx

theorem below_heap : heap.Below n (Heap.Below n) := below_query .heap

theorem below_change {c : Change α} (hc : c.Below n) : (change c).Below n (c.GivesBelow n) :=
  ⟨hc, fun _ hx => hx⟩

theorem below_make {f : Fresh} (hf : ∀ o ∈ f.objects, o.Below n) :
    (make f).Below n (Obj.Below n) := below_change (c := .make f) hf

theorem below_within {s : Scope} (hs : s.Below n) (hp : p.Below n Q) :
    (within s p).Below n Q := ⟨hs, hp⟩

theorem below_outcome (hp : p.Below n Q) :
    (outcome p).Below n fun r => ∀ a, r = .ok a → Q a := by
  refine ⟨hp.mono fun a ha b hb => ?_, fun f b hb => ?_⟩
  · cases hb
    exact ha
  · cases hb

theorem below_ofExcept {r : Except Failure α} (h : ∀ a, r = .ok a → Q a) :
    (ofExcept r).Below n Q := by
  cases r with
  | ok a => exact h a rfl
  | error f => trivial

theorem below_mapM {δ : Type} {P : δ → Prop} {g : δ → Proc α} (hg : ∀ d, P d → (g d).Below n Q)
    {ds : List δ} (hds : ∀ d ∈ ds, P d) : (ds.mapM g).Below n fun as => ∀ a ∈ as, Q a := by
  induction ds with
  | nil => exact List.forall_mem_nil _
  | cons d ds ih =>
    obtain ⟨hd, hds⟩ := List.forall_mem_cons.mp hds
    rw [List.mapM_cons]
    exact (hg d hd).bind fun a ha => (ih hds).bind fun as has =>
      List.forall_mem_cons.mpr ⟨ha, has⟩

end Proc

/-! ### Readings of the heap -/

namespace Heap

variable {h : Heap}

theorem Below.asList (hh : h.Below n) {predicate : String} :
    ∀ items, h.asList predicate o = .ok items → ∀ p ∈ items, p.Below n := by
  intro items hitems
  unfold Heap.asList at hitems
  split at hitems
  · rename_i items' hlist
    cases hitems
    exact hh.list? hlist
  · cases hitems

theorem Below.asBuffer (hh : h.Below n) (ho : o.Below n) :
    ∀ a, h.asBuffer o = .ok a → a < n := by
  intro a ha
  unfold Heap.asBuffer at ha
  split at ha
  · split at ha
    · cases ha
      exact ho
    · cases ha
  · split at ha
    · rename_i b hb
      cases ha
      exact hh.findBuffer? _ hb
    · cases ha
  · cases ha

theorem Below.asTable (hh : h.Below n) {predicate : String} :
    ∀ t, h.asTable predicate o = .ok t → ∀ e ∈ t.2, e.1.Below n ∧ e.2.Below n := by
  intro t ht
  unfold Heap.asTable at ht
  split at ht
  · rename_i a entries hentries
    cases ht
    exact hh.entries? hentries
  · cases ht

end Heap

/-! ### Lambda lists -/

namespace Lambda

variable {h : Heap} {l : Lambda}

theorem below_addParameter (hl : ∀ o ∈ l.objects, o.Below n) {kind : ParameterKind} {a : Addr}
    (ha : a < n) : ∀ o ∈ (l.addParameter kind a).objects, o.Below n := by
  cases kind <;> simp [addParameter, objects] at hl ⊢ <;> grind [Obj.below_ref]

theorem below_readParameter {state state' : ParameterKind × Lambda}
    (hl : ∀ o ∈ state.2.objects, o.Below n) (ho : o.Below n)
    (hs : readParameter h state o = .ok state') : ∀ o ∈ state'.2.objects, o.Below n := by
  unfold readParameter at hs
  split at hs
  · split at hs
    · cases hs
      exact hl
    · split at hs
      · cases hs
        exact hl
      · cases hs
        exact below_addParameter hl ho
  · cases hs

theorem below_readParameters {items : List Obj} {state state' : ParameterKind × Lambda}
    (hl : ∀ o ∈ state.2.objects, o.Below n) (hitems : ∀ o ∈ items, o.Below n)
    (hs : items.foldlM (readParameter h) state = .ok state') :
    ∀ o ∈ state'.2.objects, o.Below n := by
  induction items generalizing state with
  | nil =>
    cases hs
    exact hl
  | cons o items ih =>
    obtain ⟨ho, hitems⟩ := List.forall_mem_cons.mp hitems
    rw [List.foldlM_cons] at hs
    cases hstate : readParameter h state o with
    | error e =>
      rw [hstate] at hs
      cases hs
    | ok state₁ =>
      rw [hstate] at hs
      exact ih (below_readParameter hl ho hstate) hitems hs

theorem mem_splitDoc {body : List Obj} {p : Obj} (hp : p ∈ (splitDoc h body).2) : p ∈ body := by
  unfold splitDoc at hp
  split at hp
  · split at hp
    · exact List.mem_cons_of_mem _ hp
    · exact hp
  · exact hp

theorem below_splitCommand (hh : h.Below n) {body : List Obj} (hbody : ∀ o ∈ body, o.Below n) :
    (∀ o ∈ (splitCommand h body).1, o.Below n) ∧ ∀ o ∈ (splitCommand h body).2, o.Below n := by
  unfold splitCommand
  split
  · split
    · refine ⟨fun o ho => ?_, (List.forall_mem_cons.mp hbody).2⟩
      cases ho
      exact hh.head
    · exact ⟨by simp, hbody⟩
  · exact ⟨by simp, hbody⟩

/-- A closure is made of what its lambda list is made of. -/
theorem below_ofForms (hh : h.Below n) {forms : List Obj} (hforms : ∀ o ∈ forms, o.Below n) :
    ∀ l, ofForms h forms = .ok l → ∀ o ∈ l.objects, o.Below n := by
  intro l hl
  cases forms with
  | nil => cases hl
  -- the lambda list is read first, and the body may start with a text and a command
  | cons parameters body =>
    obtain ⟨-, hbody⟩ := List.forall_mem_cons.mp hforms
    rw [ofForms] at hl
    cases hlist : h.list? parameters with
    | none =>
      rw [hlist] at hl
      cases hl
    | some items =>
      rw [hlist] at hl
      simp only [pure_bind] at hl
      -- what the reader of parameters has got so far lies below the bound
      cases hstate : items.foldlM (readParameter h) (.required, empty) with
      | error e =>
        rw [hstate] at hl
        cases hl
      | ok state =>
        rw [hstate] at hl
        cases hl
        have hread := below_readParameters (by simp [empty, objects]) (hh.list? hlist) hstate
        obtain ⟨hcommand, hrest⟩ := below_splitCommand hh fun p hp => hbody p (mem_splitDoc hp)
        simp only [objects, List.mem_append, or_imp, forall_and] at hread ⊢
        exact ⟨⟨hread.1.1, by simpa using hcommand⟩, hrest⟩

end Lambda

namespace Host

open Proc

theorem below_check {r : Except Signal α} {Q : α → Prop} (h : ∀ a, r = .ok a → Q a) :
    (check r).Below n Q := by
  cases r with
  | ok a => exact h a rfl
  | error s => trivial

/-- A check of which nothing is needed but that it has been made. -/
theorem below_checked (r : Except Signal α) : (check r).Below n fun _ => True :=
  below_check fun _ _ => trivial

theorem below_evaluate (ho : o.Below n) : (evaluate o).Below n (Obj.Below n) :=
  ⟨ho, fun _ hx => hx⟩

theorem below_apply (ho : o.Below n) {args : List Obj} (hargs : ∀ o ∈ args, o.Below n) :
    (apply o args).Below n (Obj.Below n) := ⟨⟨ho, hargs⟩, fun _ hx => hx⟩

/-! ### Building objects -/

theorem below_intern (name : String) : (change (.intern name)).Below n (Obj.Below n) :=
  below_change (c := .intern name) trivial

theorem below_truth : truth.Below n (Obj.Below n) := below_intern truthName

theorem below_ofFlag (b : Bool) : (ofFlag b).Below n (Obj.Below n) := by
  cases b with
  | true => exact below_truth
  | false => exact below_pure Obj.below_nil

theorem below_ofText (s : String) : (ofText s).Below n (Obj.Below n) :=
  below_make (List.forall_mem_nil _)

theorem below_dotted {items : List Obj} {last : Obj} (hitems : ∀ o ∈ items, o.Below n)
    (hlast : last.Below n) : (dotted items last).Below n (Obj.Below n) := by
  induction items with
  | nil => exact hlast
  | cons o items ih =>
    obtain ⟨ho, hitems⟩ := List.forall_mem_cons.mp hitems
    exact (ih hitems).bind fun tail htail =>
      below_make (List.forall_mem_cons.mpr ⟨ho, List.forall_mem_singleton.mpr htail⟩)

theorem below_list {items : List Obj} (hitems : ∀ o ∈ items, o.Below n) :
    (list items).Below n (Obj.Below n) := below_dotted hitems Obj.below_nil

theorem below_marker (key : Key) : (marker key).Below n (Obj.Below n) :=
  (below_intern _).bind fun head hhead => below_list (by simpa using hhead)

mutual

theorem below_ofDatum : ∀ j : Json, (ofDatum j).Below n (Obj.Below n)
  | .null => Obj.below_nil
  | .bool b => by
    rw [ofDatum]
    exact below_ofFlag b
  | .int i => by
    rw [ofDatum]
    split <;> exact below_pure (by simp)
  | .float x raw => by
    rw [ofDatum]
    exact below_pure (Obj.below_float x)
  | .text s => by
    rw [ofDatum]
    exact below_ofText s
  | .list items => by
    rw [ofDatum]
    exact (below_ofData items).bind fun _ hos => below_make hos
  | .object fields => by
    rw [ofDatum]
    exact (below_ofFields fields).bind fun _ hos => below_list hos

theorem below_ofData : ∀ js : List Json, (ofData js).Below n fun os => ∀ o ∈ os, o.Below n
  | [] => List.forall_mem_nil _
  | j :: js => by
    rw [ofData]
    exact (below_ofDatum j).bind fun o ho => (below_ofData js).bind fun os hos =>
      List.forall_mem_cons.mpr ⟨ho, hos⟩

theorem below_ofFields : ∀ fields : List (String × Json),
    (ofFields fields).Below n fun os => ∀ o ∈ os, o.Below n
  | [] => List.forall_mem_nil _
  | (name, j) :: fields => by
    rw [ofFields]
    exact (below_intern _).bind fun keyword hkeyword => (below_ofDatum j).bind fun o ho =>
      (below_ofFields fields).bind fun os hos =>
        List.forall_mem_cons.mpr ⟨hkeyword, List.forall_mem_cons.mpr ⟨ho, hos⟩⟩

end

mutual

theorem below_ofForm : ∀ f : Form, (ofForm f).Below n (Obj.Below n)
  | .int _ | .float _ => by
    rw [ofForm]
    trivial
  | .text s => by
    rw [ofForm]
    exact below_ofText s
  | .symbol name => by
    rw [ofForm]
    exact below_intern name
  | .list items => by
    rw [ofForm]
    exact (below_ofForms items).bind fun _ hos => below_list hos
  | .dotted items last => by
    rw [ofForm]
    exact (below_ofForms items).bind fun _ hos => (below_ofForm last).bind fun _ ho =>
      below_dotted hos ho
  | .vector items => by
    rw [ofForm]
    exact (below_ofForms items).bind fun _ hos => below_make hos

theorem below_ofForms : ∀ fs : List Form, (ofForms fs).Below n fun os => ∀ o ∈ os, o.Below n
  | [] => List.forall_mem_nil _
  | f :: fs => by
    rw [ofForms]
    exact (below_ofForm f).bind fun o ho => (below_ofForms fs).bind fun os hos =>
      List.forall_mem_cons.mpr ⟨ho, hos⟩

end

/-! ### Sequences, symbols and tables -/

theorem below_car (o : Obj) : (car o).Below n (Obj.Below n) := by
  refine below_heap.bind fun h hh => ?_
  split
  · rename_i head tail ho
    exact below_pure ((hh.of_shape ho).2 head List.mem_cons_self)
  · trivial
  · exact below_signal _

theorem below_cdr (o : Obj) : (cdr o).Below n (Obj.Below n) := by
  refine below_heap.bind fun h hh => ?_
  split
  · rename_i head tail ho
    exact below_pure ((hh.of_shape ho).2 tail (List.mem_cons_of_mem _ List.mem_cons_self))
  · trivial
  · exact below_signal _

theorem below_setCar (pair : Obj) (ho : o.Below n) : (setCar pair o).Below n (Obj.Below n) := by
  refine below_heap.bind fun h hh => ?_
  split
  · rename_i a _ _ _
    exact (below_change (c := .setHead a o) ho).bind fun _ _ => below_pure ho
  · exact below_signal _

theorem below_getD {items : List Obj} (hitems : ∀ o ∈ items, o.Below n) (i : Nat) :
    (items.getD i .nil).Below n := by
  rw [List.getD_eq_getElem?_getD]
  cases hi : items[i]? with
  | none => exact Obj.below_nil
  | some o => exact hitems o (List.mem_of_getElem? hi)

theorem below_nth (place items : Obj) : (nth place items).Below n (Obj.Below n) :=
  below_heap.bind fun _ hh => (below_checked _).bind fun _ _ =>
    (below_check hh.asList).bind fun _ hos => below_pure (below_getD hos _)

theorem below_length (o : Obj) : (length o).Below n (Obj.Below n) := by
  refine below_heap.bind fun h _ => ?_
  split
  · trivial
  · trivial
  · exact (below_checked _).bind fun _ _ => below_pure (Obj.below_int _)

theorem below_reverse (o : Obj) : (reverse o).Below n (Obj.Below n) := by
  refine below_heap.bind fun h hh => ?_
  split
  · rename_i items ho
    exact below_make fun o ho' => (hh.of_shape ho).2 o (List.mem_reverse.mp ho')
  · exact (below_check hh.asList).bind fun items hitems =>
      below_list fun o ho => hitems o (List.mem_reverse.mp ho)

theorem below_valueAfter (key : Obj) : ∀ {items : List Obj}, (∀ o ∈ items, o.Below n) →
    ∀ o ∈ valueAfter key items, o.Below n
  | [], _ => by simp [valueAfter]
  | [_], _ => by simp [valueAfter]
  | k :: v :: rest, hitems => by
    obtain ⟨hv, hrest⟩ := List.forall_mem_cons.mp (List.forall_mem_cons.mp hitems).2
    rw [valueAfter]
    split
    · simpa using hv
    · exact below_valueAfter key hrest

theorem below_optional {p : Option Obj} (hp : ∀ o ∈ p, o.Below n) (hdefault : o.Below n) :
    (p.getD o).Below n := by
  cases p with
  | none => exact hdefault
  | some p => exact hp p rfl

theorem below_plistGet (items key : Obj) : (plistGet items key).Below n (Obj.Below n) := by
  refine below_heap.bind fun h hh => below_pure ?_
  refine below_optional (below_valueAfter key fun o ho => ?_) Obj.below_nil
  cases hlist : h.list? items with
  | none =>
    rw [hlist] at ho
    cases ho
  | some os =>
    rw [hlist] at ho
    exact hh.list? hlist o ho

theorem below_concat (args : List Obj) : (concat args).Below n (Obj.Below n) :=
  below_heap.bind fun _ _ => (below_checked _).bind fun _ _ => below_ofText _

theorem below_makeVector (count : Obj) (ho : o.Below n) :
    (makeVector count o).Below n (Obj.Below n) :=
  below_heap.bind fun _ _ => (below_checked _).bind fun _ _ =>
    below_make fun _ hp => List.eq_of_mem_replicate hp ▸ ho

theorem below_place {h : Heap} (hh : h.Below n) {vector index : Obj} :
    ∀ p, place h vector index = .ok p → ∀ o ∈ p.2.1, o.Below n := by
  intro p hp
  unfold place at hp
  split at hp
  · rename_i a items hitems
    cases hi : h.asNat "natnump" index with
    | error e =>
      rw [hi] at hp
      cases hp
    | ok i =>
      rw [hi] at hp
      dsimp only [Bind.bind, Except.bind] at hp
      split at hp
      · cases hp
        exact (hh.of_shape hitems).2
      · cases hp
  · cases hp

theorem below_aref (vector index : Obj) : (aref vector index).Below n (Obj.Below n) :=
  below_heap.bind fun _ hh => (below_check (below_place hh)).bind fun _ hos =>
    below_pure (below_getD hos _)

theorem below_aset (vector index : Obj) (ho : o.Below n) :
    (aset vector index o).Below n (Obj.Below n) :=
  below_heap.bind fun _ _ => (below_checked _).bind fun p _ =>
    (below_change (c := .setItem p.1 p.2.2 o) ho).bind fun _ _ => below_pure ho

theorem below_internText (o : Obj) : (internText o).Below n (Obj.Below n) :=
  below_heap.bind fun _ _ => (below_checked _).bind fun _ _ => below_intern _

theorem below_uninternName (o : Obj) : (uninternName o).Below n (Obj.Below n) := by
  have hrest : ∀ name : String,
      (change (.unintern name) >>= ofFlag).Below n (Obj.Below n) := fun name =>
    (below_change (c := .unintern name) trivial).bind fun _ _ => below_ofFlag _
  refine below_heap.bind fun h _ => ?_
  split
  · exact hrest _
  · exact (below_checked _).bind fun name _ => hrest name

theorem below_symbolName (o : Obj) : (symbolName o).Below n (Obj.Below n) := by
  refine below_heap.bind fun h _ => ?_
  split
  · exact below_ofText _
  · exact below_ofText _
  · exact below_signal _

theorem below_symbolValue (o : Obj) : (symbolValue o).Below n (Obj.Below n) := by
  refine below_heap.bind fun h hh => ?_
  split
  · trivial
  · rename_i name value function ho
    obtain ⟨hself, hparts⟩ := hh.of_shape ho
    split
    · exact hself
    · split
      · exact hparts _ (List.mem_append_left _ (List.mem_singleton_self _))
      · exact below_signal _
  · exact below_signal _

theorem below_symbolFunction (o : Obj) : (symbolFunction o).Below n (Obj.Below n) :=
  below_heap.bind fun _ hh => (below_checked _).bind fun _ _ =>
    below_pure (below_optional hh.function? Obj.below_nil)

theorem below_setValue (symbol : Obj) (ho : o.Below n) :
    (setValue symbol o).Below n (Obj.Below n) :=
  below_heap.bind fun _ _ => (below_checked _).bind fun a _ =>
    (below_change (c := .setValue a o) ho).bind fun _ _ => below_pure ho

theorem below_setFunction (symbol : Obj) (ho : o.Below n) :
    (setFunction symbol o).Below n (Obj.Below n) :=
  below_heap.bind fun _ _ => (below_checked _).bind fun a _ =>
    (below_change (c := .setFunction a o) ho).bind fun _ _ => below_pure ho

theorem below_documentation (o : Obj) : (documentation o).Below n (Obj.Below n) := by
  refine below_heap.bind fun h _ => ?_
  split
  · exact below_signal _
  · split
    · exact below_ofText _
    · trivial
  · trivial

theorem below_signalUnder (symbol data : Obj) :
    (signalUnder symbol data).Below n (Obj.Below n) := by
  refine below_heap.bind fun h _ => ?_
  split <;> exact below_signal _

theorem below_raise (format : Obj) (args : List Obj) : (raise format args).Below n (Obj.Below n) :=
  below_heap.bind fun _ _ => (below_checked _).bind fun _ _ =>
    (below_checked _).bind fun _ _ => below_signal _

theorem below_putEntry (predicate : String) {key value : Obj} (hkey : key.Below n)
    (hvalue : value.Below n) (table : Obj) :
    (putEntry predicate key value table).Below n (Obj.Below n) :=
  below_heap.bind fun _ _ => (below_checked _).bind fun t _ =>
    (below_change (c := .putEntry t.1 key value) ⟨hkey, hvalue⟩).bind fun _ _ => below_pure hvalue

theorem below_getEntry (predicate : String) (key table : Obj) (ho : o.Below n) :
    (getEntry predicate key table o).Below n (Obj.Below n) :=
  below_heap.bind fun _ hh => (below_check hh.asTable).bind fun _ he =>
    below_pure (below_optional (Heap.Below.lookup? he) ho)

theorem below_countEntries (table : Obj) : (countEntries table).Below n (Obj.Below n) :=
  below_heap.bind fun _ _ => (below_checked _).bind fun _ _ => below_pure (Obj.below_int _)

/-! ### Buffers -/

theorem below_currentBuffer : currentBuffer.Below n (Obj.Below n) :=
  (below_query .currentBuffer).bind fun _ ha => below_pure ha

theorem below_bufferOr {p : Option Obj} (hp : ∀ o ∈ p, o.Below n) :
    (bufferOr p).Below n (· < n) := by
  unfold bufferOr
  split
  · exact below_query .currentBuffer
  · exact below_heap.bind fun h hh => below_check (hh.asBuffer (hp _ rfl))

theorem below_bufferName {p : Option Obj} (hp : ∀ o ∈ p, o.Below n) :
    (bufferName p).Below n (Obj.Below n) := by
  refine below_heap.bind fun h _ => ?_
  split
  · trivial
  · exact (below_bufferOr hp).bind fun _ _ => below_ofText _

theorem below_getBuffer (name : Obj) : (getBuffer name).Below n (Obj.Below n) := by
  refine below_heap.bind fun h hh => (below_checked _).bind fun s _ => below_pure ?_
  cases hfind : h.findBuffer? s with
  | none => trivial
  | some a => exact hh.findBuffer? a hfind

theorem below_createBuffer (name : Obj) : (createBuffer name).Below n (Obj.Below n) :=
  below_heap.bind fun _ _ => (below_checked _).bind fun s _ =>
    (below_change (c := .ensureBuffer s) trivial).bind fun _ ha => below_pure ha

theorem below_selectBuffer (ho : o.Below n) : (selectBuffer o).Below n (Obj.Below n) :=
  below_heap.bind fun _ hh => (below_check (hh.asBuffer ho)).bind fun a ha =>
    (below_change (c := .selectBuffer a) ha).bind fun _ _ => below_pure ha

theorem below_killBuffer {p : Option Obj} (hp : ∀ o ∈ p, o.Below n) :
    (killBuffer p).Below n (Obj.Below n) :=
  (below_bufferOr hp).bind fun a _ =>
    (below_change (c := .killBuffer a) trivial).bind fun _ _ => below_truth

theorem below_appendTexts (a : Addr) (os : List Obj) :
    (appendTexts a os).Below n (Obj.Below n) := by
  induction os with
  | nil => trivial
  | cons o rest ih =>
    exact below_heap.bind fun _ _ => (below_checked _).bind fun s _ =>
      (below_change (c := .appendText a s) trivial).bind fun _ _ => ih

theorem below_insert (args : List Obj) : (insert args).Below n (Obj.Below n) :=
  (below_query .currentBuffer).bind fun a _ => below_appendTexts a args

theorem below_bufferText : bufferText.Below n (Obj.Below n) :=
  below_heap.bind fun _ _ => (below_query .currentBuffer).bind fun _ _ => below_ofText _

/-! ### Control -/

variable {args forms : List Obj}

theorem below_sequence (hforms : ∀ o ∈ forms, o.Below n) :
    (sequence forms).Below n (Obj.Below n) := by
  have hfold : ∀ (os : List Obj) (last : Obj), (∀ o ∈ os, o.Below n) → last.Below n →
      (os.foldlM (fun _ form => evaluate form) last).Below n (Obj.Below n) := by
    intro os
    induction os with
    | nil => exact fun last _ hlast => hlast
    | cons o os ih =>
      intro last hos _
      obtain ⟨ho, hos⟩ := List.forall_mem_cons.mp hos
      exact (below_evaluate ho).bind fun value hvalue => ih value hos hvalue
  exact hfold forms .nil hforms Obj.below_nil

theorem below_makeClosure (hforms : ∀ o ∈ forms, o.Below n) :
    (makeClosure forms).Below n (Obj.Below n) :=
  below_heap.bind fun _ hh => (below_check (Lambda.below_ofForms hh hforms)).bind fun l hl =>
    below_make (f := .closure l) hl

theorem below_lambdaForms {h : Heap} (hh : h.Below n) (o : Obj) :
    ∀ p ∈ h.lambdaForms o, p.Below n := by
  unfold Heap.lambdaForms
  cases hlist : h.list? (h.tail o) with
  | none => exact List.forall_mem_nil _
  | some items => exact hh.list? hlist

theorem below_quote (hargs : ∀ o ∈ args, o.Below n) : (quote args).Below n (Obj.Below n) := by
  unfold quote
  split
  · exact below_pure (List.forall_mem_singleton.mp hargs)
  · exact below_signal _

theorem below_function (hargs : ∀ o ∈ args, o.Below n) :
    (function args).Below n (Obj.Below n) := by
  unfold function
  split
  · refine below_heap.bind fun h hh => ?_
    split
    · exact below_makeClosure (below_lambdaForms hh _)
    · exact below_pure (List.forall_mem_singleton.mp hargs)
  · exact below_signal _

theorem below_defun (hargs : ∀ o ∈ args, o.Below n) : (defun args).Below n (Obj.Below n) := by
  unfold defun
  split
  · exact below_signal _
  · obtain ⟨hname, hforms⟩ := List.forall_mem_cons.mp hargs
    exact below_heap.bind fun _ _ => (below_checked _).bind fun a _ =>
      (below_makeClosure hforms).bind fun closure hclosure =>
        (below_change (c := .setFunction a closure) hclosure).bind fun _ _ => below_pure hname

theorem below_cond (hargs : ∀ o ∈ args, o.Below n) : (cond args).Below n (Obj.Below n) := by
  unfold cond
  split
  · obtain ⟨hcondition, hrest⟩ := List.forall_mem_cons.mp hargs
    obtain ⟨hconsequence, halternative⟩ := List.forall_mem_cons.mp hrest
    refine (below_evaluate hcondition).bind fun o _ => ?_
    split
    · exact below_sequence halternative
    · exact below_evaluate hconsequence
  · exact below_signal _

theorem below_conjunction (hforms : ∀ o ∈ forms, o.Below n) {last : Obj} (hlast : last.Below n) :
    (conjunction forms last).Below n (Obj.Below n) := by
  induction forms generalizing last with
  | nil => exact hlast
  | cons form forms ih =>
    obtain ⟨hform, hforms⟩ := List.forall_mem_cons.mp hforms
    refine (below_evaluate hform).bind fun o ho => ?_
    split
    · exact below_pure ho
    · exact ih hforms ho

theorem below_disjunction (hforms : ∀ o ∈ forms, o.Below n) :
    (disjunction forms).Below n (Obj.Below n) := by
  induction forms with
  | nil => trivial
  | cons form forms ih =>
    obtain ⟨hform, hforms⟩ := List.forall_mem_cons.mp hforms
    refine (below_evaluate hform).bind fun o ho => ?_
    split
    · exact ih hforms
    · exact below_pure ho

theorem below_loop (hargs : ∀ o ∈ args, o.Below n) : (loop args).Below n (Obj.Below n) := by
  unfold loop
  split
  · exact below_signal _
  · obtain ⟨hcondition, hbody⟩ := List.forall_mem_cons.mp hargs
    refine ⟨(below_evaluate hcondition).bind fun o _ => ?_, Obj.below_nil⟩
    split
    · trivial
    · exact (below_sequence hbody).bind fun _ _ => trivial

theorem below_unwindProtect (hargs : ∀ o ∈ args, o.Below n) :
    (unwindProtect args).Below n (Obj.Below n) := by
  unfold unwindProtect
  split
  · exact below_signal _
  · obtain ⟨hbody, hcleanup⟩ := List.forall_mem_cons.mp hargs
    exact (below_outcome (below_evaluate hbody)).bind fun _ hr =>
      (below_sequence hcleanup).bind fun _ _ => below_ofExcept hr

/-! ### Variables and modes -/

theorem below_assignPairs : ∀ {args : List Obj} {last : Obj}, (∀ o ∈ args, o.Below n) →
    last.Below n → (assignPairs args last).Below n (Obj.Below n)
  | [], _, _, hlast => hlast
  | [_], _, _, hlast => hlast
  | _ :: form :: rest, _, hargs, _ => by
    obtain ⟨hform, hrest⟩ := List.forall_mem_cons.mp (List.forall_mem_cons.mp hargs).2
    exact below_heap.bind fun _ _ => (below_checked _).bind fun a _ =>
      (below_evaluate hform).bind fun o ho =>
        (below_change (c := .setValue a o) ho).bind fun _ _ => below_assignPairs hrest ho

theorem below_setq (hargs : ∀ o ∈ args, o.Below n) : (setq args).Below n (Obj.Below n) := by
  unfold setq
  split
  · exact below_assignPairs hargs Obj.below_nil
  · exact below_signal _

theorem below_defvar (hargs : ∀ o ∈ args, o.Below n) : (defvar args).Below n (Obj.Below n) := by
  unfold defvar
  split
  · exact below_signal _
  · exact below_heap.bind fun _ _ => (below_checked _).bind fun _ _ =>
      below_pure (List.forall_mem_singleton.mp hargs)
  · obtain ⟨hname, hrest⟩ := List.forall_mem_cons.mp hargs
    refine below_heap.bind fun _ _ => (below_checked _).bind fun a _ => ?_
    split
    · exact below_pure hname
    · exact (below_evaluate (List.forall_mem_cons.mp hrest).1).bind fun o ho =>
        (below_change (c := .setValue a o) ho).bind fun _ _ => below_pure hname

theorem below_readBinding {h : Heap} (hh : h.Below n) :
    ∀ b, readBinding h o = .ok b → b.2.Below n := by
  intro b hb
  unfold readBinding at hb
  split at hb
  · cases hb
    exact Obj.below_nil
  · split at hb
    · rename_i head tail _
      cases ha : h.asSymbol head with
      | error e =>
        rw [ha] at hb
        cases hb
      | ok a =>
        rw [ha] at hb
        cases hb
        exact hh.head
    · cases hb

theorem below_readBindings {h : Heap} (hh : h.Below n) {items : List Obj} :
    ∀ bs, items.mapM (readBinding h) = .ok bs → ∀ b ∈ bs, b.2.Below n := by
  induction items with
  | nil =>
    intro bs hbs
    cases hbs
    exact List.forall_mem_nil _
  | cons o items ih =>
    intro bs hbs
    rw [List.mapM_cons] at hbs
    cases hb : readBinding h o with
    | error e =>
      rw [hb] at hbs
      cases hbs
    | ok b =>
      rw [hb] at hbs
      cases hrest : items.mapM (readBinding h) with
      | error e =>
        rw [hrest] at hbs
        cases hbs
      | ok rest =>
        rw [hrest] at hbs
        cases hbs
        exact List.forall_mem_cons.mpr ⟨below_readBinding hh b hb, ih rest hrest⟩

theorem below_bindOneByOne {bindings : List (Addr × Obj)} {body : List Obj}
    (hbindings : ∀ b ∈ bindings, b.2.Below n) (hbody : ∀ o ∈ body, o.Below n) :
    (bindOneByOne bindings body).Below n (Obj.Below n) := by
  induction bindings with
  | nil => exact below_sequence hbody
  | cons b bindings ih =>
    obtain ⟨hform, hbindings⟩ := List.forall_mem_cons.mp hbindings
    exact (below_evaluate hform).bind fun o ho =>
      below_within (s := .binding [(b.1, o)]) (List.forall_mem_singleton.mpr ho) (ih hbindings)

theorem below_bindTogether {bindings : List (Addr × Obj)} {body : List Obj}
    (hbindings : ∀ b ∈ bindings, b.2.Below n) (hbody : ∀ o ∈ body, o.Below n) :
    (bindTogether bindings body).Below n (Obj.Below n) := by
  have hvalue : ∀ b : Addr × Obj, b.2.Below n →
      (do let o ← evaluate b.2; pure (b.1, o) : Proc (Addr × Obj)).Below n fun b => b.2.Below n :=
    fun b hb => (below_evaluate hb).bind fun _ ho => below_pure ho
  exact (below_mapM hvalue hbindings).bind fun values hvalues =>
    below_within (s := .binding values) hvalues (below_sequence hbody)

theorem below_letForm (sequential : Bool) (hargs : ∀ o ∈ args, o.Below n) :
    (letForm sequential args).Below n (Obj.Below n) := by
  unfold letForm
  split
  · exact below_signal _
  · obtain ⟨-, hbody⟩ := List.forall_mem_cons.mp hargs
    refine below_heap.bind fun h hh => (below_checked _).bind fun items _ =>
      (below_check (below_readBindings hh)).bind fun bindings hbindings => ?_
    split
    · exact below_bindOneByOne hbindings hbody
    · exact below_bindTogether hbindings hbody

theorem below_withBuffer (hargs : ∀ o ∈ args, o.Below n) :
    (withBuffer args).Below n (Obj.Below n) := by
  unfold withBuffer
  split
  · exact below_signal _
  · obtain ⟨hform, hbody⟩ := List.forall_mem_cons.mp hargs
    exact (below_evaluate hform).bind fun _ ho => below_heap.bind fun _ hh =>
      (below_check (hh.asBuffer ho)).bind fun a ha =>
        below_within (s := .buffer a) ha (below_sequence hbody)

theorem below_withTemporaryBuffer (hargs : ∀ o ∈ args, o.Below n) :
    (withTemporaryBuffer args).Below n (Obj.Below n) :=
  (below_change (c := .temporaryName) trivial).bind fun name _ =>
    (below_change (c := .ensureBuffer name) trivial).bind fun a ha =>
      below_within (s := .temporary a) ha (below_sequence hargs)

theorem below_formOf (name : String) (hargs : ∀ o ∈ args, o.Below n) :
    (formOf name args).Below n (Obj.Below n) :=
  (below_intern name).bind fun _ hhead => below_list (List.forall_mem_cons.mpr ⟨hhead, hargs⟩)

theorem below_minorMode (hargs : ∀ o ∈ args, o.Below n) :
    (minorMode args).Below n (Obj.Below n) := by
  unfold minorMode
  split
  · exact below_signal _
  · rename_i name rest
    obtain ⟨hname, hrest⟩ := List.forall_mem_cons.mp hargs
    refine below_heap.bind fun h _ => (below_checked _).bind fun a _ => ?_
    split
    rename_i doc body heq
    -- a text may come before the body
    have hparts : (∀ o ∈ doc, o.Below n) ∧ ∀ o ∈ body, o.Below n := by
      split at heq
      · split at heq
        · cases heq
          obtain ⟨ho, hbody⟩ := List.forall_mem_cons.mp hrest
          exact ⟨List.forall_mem_singleton.mpr ho, hbody⟩
        · cases heq
          exact ⟨List.forall_mem_nil _, hrest⟩
      · cases heq
        exact ⟨List.forall_mem_nil _, List.forall_mem_nil _⟩
    extract_lets rest'
    have hrest' : ∀ r, (rest' r).Below n (Obj.Below n) := by
      refine fun r => (below_formOf _ (List.forall_mem_singleton.mpr hname)).bind
        fun inverse hinverse => (below_formOf _ (List.forall_mem_cons.mpr
          ⟨hname, List.forall_mem_singleton.mpr hinverse⟩)).bind fun toggle htoggle =>
        (below_formOf _ (List.forall_mem_nil _)).bind fun command hcommand =>
        (below_makeClosure ?_).bind fun closure hclosure =>
        (below_change (c := .setFunction a closure) hclosure).bind fun _ _ => below_pure hname
      intro o ho
      simp only [List.cons_append, List.mem_cons, List.mem_append, List.not_mem_nil, or_false]
        at ho
      rcases ho with rfl | ((ho | rfl | rfl) | ho) | rfl
      · exact Obj.below_nil
      · exact hparts.1 o ho
      · exact hcommand
      · exact htoggle
      · exact hparts.2 o ho
      · exact hname
    split
    · exact (below_change (n := n) (c := .setValue a .nil) trivial).bind fun r _ => hrest' r
    · exact hrest' ()

theorem below_derivedMode (hargs : ∀ o ∈ args, o.Below n) :
    (derivedMode args).Below n (Obj.Below n) := by
  unfold derivedMode
  split
  · rename_i child parent modeName rest
    obtain ⟨hchild, hrest⟩ := List.forall_mem_cons.mp hargs
    obtain ⟨hparent, hrest⟩ := List.forall_mem_cons.mp hrest
    obtain ⟨hmode, hrest⟩ := List.forall_mem_cons.mp hrest
    refine below_heap.bind fun h _ => (below_checked _).bind fun a _ => ?_
    extract_lets body
    -- the body may start with a text too
    have hbody : ∀ o ∈ body, o.Below n := by
      unfold body
      split
      · split
        · exact (List.forall_mem_cons.mp hrest).2
        · exact hrest
      · exact List.forall_mem_nil _
    refine (below_formOf _ (List.forall_mem_nil _)).bind fun command hcommand => ?_
    extract_lets rest'
    have hrest' : ∀ inherit : List Obj, (∀ o ∈ inherit, o.Below n) →
        (rest' inherit).Below n (Obj.Below n) := by
      refine fun inherit hinherit => (below_intern _).bind fun mode hmajor =>
        (below_formOf _ (List.forall_mem_singleton.mpr hchild)).bind fun quoted hquoted =>
        (below_intern _).bind fun nameOfMode hname => (below_formOf _ ?_).bind
          fun settings hsettings => (below_makeClosure ?_).bind fun closure hclosure =>
        (below_change (c := .setFunction a closure) hclosure).bind fun _ _ => below_pure hchild
      · exact List.forall_mem_cons.mpr ⟨hmajor, List.forall_mem_cons.mpr ⟨hquoted,
          List.forall_mem_cons.mpr ⟨hname, List.forall_mem_singleton.mpr hmode⟩⟩⟩
      · intro o ho
        simp only [List.cons_append, List.mem_cons, List.mem_append, List.not_mem_nil, or_false]
          at ho
        rcases ho with rfl | rfl | (ho | rfl) | ho
        · exact Obj.below_nil
        · exact hcommand
        · exact hinherit o ho
        · exact hsettings
        · exact hbody o ho
    split
    · refine (below_formOf _ (List.forall_mem_singleton.mpr hparent)).bind fun quoted hquoted =>
        (below_formOf _ (List.forall_mem_singleton.mpr hquoted)).bind fun test htest =>
        (below_list (List.forall_mem_singleton.mpr hparent)).bind fun call hcall =>
        (below_formOf _ (List.forall_mem_cons.mpr
          ⟨htest, List.forall_mem_singleton.mpr hcall⟩)).bind fun form hform =>
        hrest' [form] (List.forall_mem_singleton.mpr hform)
    · exact hrest' [] (List.forall_mem_nil _)
  · exact below_signal _

/-! ### Evaluation -/

theorem below_run (f : SpecialForm) (hargs : ∀ o ∈ args, o.Below n) :
    (f.run args).Below n (Obj.Below n) := by
  cases f with
  | quote => exact below_quote hargs
  | function => exact below_function hargs
  | lambda => exact below_makeClosure hargs
  | progn => exact below_sequence hargs
  | cond => exact below_cond hargs
  | and => exact below_truth.bind fun _ ht => below_conjunction hargs ht
  | or => exact below_disjunction hargs
  | «while» => exact below_loop hargs
  | setq => exact below_setq hargs
  | defvar => exact below_defvar hargs
  | defun => exact below_defun hargs
  | letParallel => exact below_letForm false hargs
  | letSequential => exact below_letForm true hargs
  | unwindProtect => exact below_unwindProtect hargs
  | withBuffer => exact below_withBuffer hargs
  | withTemporaryBuffer => exact below_withTemporaryBuffer hargs
  | interactive => trivial
  | minorMode => exact below_minorMode hargs
  | derivedMode => exact below_derivedMode hargs

theorem below_functionOf (ho : o.Below n) : (functionOf o).Below n (Obj.Below n) := by
  refine below_heap.bind fun h hh => ?_
  split
  · rename_i name value function hshape
    split
    · exact (hh.of_shape hshape).2 _ (List.mem_append_right _ (List.mem_singleton_self _))
    · exact below_signal _
  · split
    · exact below_makeClosure (below_lambdaForms hh _)
    · exact below_pure ho
  · exact below_pure ho

theorem below_evaluateList {head tail form : Obj} (hhead : head.Below n) :
    (evaluateList head tail form).Below n (Obj.Below n) := by
  refine below_heap.bind fun h hh => ?_
  split
  · exact below_signal _
  · rename_i args hlist
    split
    · exact below_run _ (hh.list? hlist)
    · exact (below_functionOf hhead).bind fun f hf =>
        (below_mapM (fun _ ho => below_evaluate ho) (hh.list? hlist)).bind fun values hvalues =>
          below_apply hf hvalues

/-- The value of a form is made of what the form is made of, and of what is in the heap. -/
theorem below_evaluation (ho : o.Below n) : (evaluation o).Below n (Obj.Below n) := by
  refine below_within (s := .evaluation) trivial (below_heap.bind fun h hh => ?_)
  split
  · rename_i name value function hshape
    split
    · exact below_pure ho
    · split
      · exact (hh.of_shape hshape).2 _ (List.mem_append_left _ (List.mem_singleton_self _))
      · exact below_signal _
  · rename_i head tail hshape
    exact below_evaluateList ((hh.of_shape hshape).2 head List.mem_cons_self)
  · exact below_pure ho

theorem below_pair {as : List Addr} (hargs : ∀ o ∈ args, o.Below n) :
    ∀ b ∈ Lambda.pair as args, b.2.Below n := by
  induction as generalizing args with
  | nil => exact List.forall_mem_nil _
  | cons a as ih =>
    cases args with
    | nil => exact List.forall_mem_cons.mpr ⟨Obj.below_nil, ih (List.forall_mem_nil _)⟩
    | cons o os =>
      obtain ⟨ho, hos⟩ := List.forall_mem_cons.mp hargs
      exact List.forall_mem_cons.mpr ⟨ho, ih hos⟩

theorem below_callClosure {l : Lambda} (hl : ∀ o ∈ l.objects, o.Below n)
    (hargs : ∀ o ∈ args, o.Below n) : (callClosure l args).Below n (Obj.Below n) := by
  have hbody : (sequence l.body).Below n (Obj.Below n) :=
    below_sequence fun o ho => hl o (List.mem_append_right _ ho)
  have hbind : ∀ rest : List (Addr × Obj), (∀ b ∈ rest, b.2.Below n) →
      (within (.binding (l.bindings args ++ rest)) (sequence l.body)).Below n (Obj.Below n) :=
    fun rest hrest => below_within (s := .binding _)
      (List.forall_mem_append.mpr ⟨below_pair hargs, hrest⟩) hbody
  unfold callClosure
  split
  · split
    · exact (below_list fun o ho => hargs o (List.mem_of_mem_drop ho)).bind fun items hitems =>
        hbind _ (List.forall_mem_singleton.mpr hitems)
    · exact hbind [] (List.forall_mem_nil _)
  · exact below_signal _

/-! ### Builtins -/

theorem below_number (calculate : Heap → Except Signal Number) :
    (number calculate).Below n (Obj.Below n) :=
  below_heap.bind fun _ _ => (below_checked _).bind fun x _ => by cases x <;> trivial

theorem below_quotient (o : Obj) (args : List Obj) : (quotient o args).Below n (Obj.Below n) := by
  refine below_heap.bind fun h _ => ?_
  split
  · rename_i x _
    cases x <;> trivial
  · trivial

theorem below_compare (holds : Float → Float → Bool) (args : List Obj) :
    (compare holds args).Below n (Obj.Below n) :=
  below_heap.bind fun _ _ => (below_checked _).bind fun _ _ => below_ofFlag _

theorem below_test (q : Shape → Bool) (o : Obj) : (test q o).Below n (Obj.Below n) :=
  below_heap.bind fun _ _ => below_ofFlag _

theorem below_applyList (hargs : ∀ o ∈ args, o.Below n) :
    (applyList args).Below n (Obj.Below n) := by
  refine below_heap.bind fun h hh => (below_check hh.asList).bind fun items hitems => ?_
  have hall : ∀ o ∈ args.dropLast ++ items, o.Below n :=
    List.forall_mem_append.mpr ⟨fun o ho => hargs o (List.dropLast_subset _ ho), hitems⟩
  split
  · rename_i f rest heq
    rw [heq] at hall
    obtain ⟨hf, hrest⟩ := List.forall_mem_cons.mp hall
    exact below_apply hf hrest
  · exact below_signal _

end Host

open Host in
/-- What a builtin outside of the exchange gives is made of its arguments, and of what is in
the heap. -/
theorem Builtin.below_compute (b : Builtin) (hb : b.isExchange = false) {args : List Obj}
    (hargs : ∀ o ∈ args, o.Below n) : (b.compute args).Below n (Obj.Below n) := by
  have hget : ∀ i, (args.getD i .nil).Below n := below_getD hargs
  have htail : ∀ o ∈ args.tail, o.Below n := fun o ho => hargs o (List.mem_of_mem_tail ho)
  have hhead : ∀ o ∈ args.head?, o.Below n := fun o ho => hargs o (List.mem_of_mem_head? ho)
  -- what a builtin gives is made of its arguments, or of objects that they lead to
  cases b with
  | list => exact below_list hargs
  | cons => exact Proc.below_make (List.forall_mem_cons.mpr
      ⟨hget 0, List.forall_mem_singleton.mpr (hget 1)⟩)
  | car => exact below_car _
  | cdr => exact below_cdr _
  | setCar => exact below_setCar _ (hget 1)
  | nth => exact below_nth _ _
  | length => exact below_length _
  | reverse => exact below_reverse _
  | plistGet => exact below_plistGet _ _
  | isCons | isList | isText | isNumber | isInteger | isSymbol | isVector | isBuffer
  | isTable | isFunction => exact below_test _ _
  | isNull | not | eq => exact below_ofFlag _
  | equal | isBound | hasFunction | isCommand =>
    exact Proc.below_heap.bind fun _ _ => below_ofFlag _
  | identity => exact hget 0
  | ignore | recursiveEdit => trivial
  | add | multiply | subtract | increment => exact below_number _
  | divide => exact below_quotient _ _
  | numEq | less | greater | lessEq | greaterEq => exact below_compare _ _
  | concat => exact below_concat _
  | vector => exact Proc.below_make hargs
  | makeVector => exact below_makeVector _ (hget 1)
  | aref => exact below_aref _ _
  | aset => exact below_aset _ _ (hget 2)
  | intern => exact below_internText _
  | unintern => exact below_uninternName _
  | symbolName => exact below_symbolName _
  | symbolValue => exact below_symbolValue _
  | symbolFunction => exact below_symbolFunction _
  | setValue => exact below_setValue _ (hget 1)
  | setFunction => exact below_setFunction _ (hget 1)
  | funcall => exact below_apply (hget 0) htail
  | apply => exact below_applyList hargs
  | evaluate => exact below_evaluate (hget 0)
  | error => exact below_raise _ _
  | signal => exact below_signalUnder _ _
  | documentation => exact below_documentation _
  | makeTable | makeKeymap => exact Proc.below_make (List.forall_mem_nil _)
  | putEntry => exact below_putEntry _ (hget 0) (hget 1) _
  | defineKey => exact below_putEntry _ (hget 1) (hget 2) _
  | getEntry => exact below_getEntry _ _ _ (hget 2)
  | lookupKey => exact below_getEntry _ _ _ Obj.below_nil
  | countEntries => exact below_countEntries _
  | currentBuffer => exact below_currentBuffer
  | bufferName => exact below_bufferName hhead
  | getBuffer => exact below_getBuffer _
  | createBuffer => exact below_createBuffer _
  | selectBuffer => exact below_selectBuffer (hget 0)
  | killBuffer => exact below_killBuffer hhead
  | insert => exact below_insert _
  | bufferText => exact below_bufferText
  | clearCallback =>
    exact Proc.below_heap.bind fun _ _ => (below_checked _).bind fun key _ =>
      (Proc.below_change (c := .clearCallback key) trivial).bind fun _ _ => below_truth
  | reenter | clearProxy | collect | evaluateScript => exact absurd hb Bool.noConfusion

end Crossing
