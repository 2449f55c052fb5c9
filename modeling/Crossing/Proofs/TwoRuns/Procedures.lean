import Crossing.Proofs.HostFunctions
import Crossing.Proofs.TwoRuns.Values

/-!
# Procedures of two runs

Two procedures are alike if they do the same, but for the numbers of objects and
the handles that they work with, and if they work only with numbers and handles
that they may rely on: an object is taken in only while the host keeps it, and
only handles of tracked objects are held or stored.

- `Pairing` says which numbers and handles two runs may rely on, and what they
  correspond to;
- `Query.Alike`, `Change.Alike`, `Task.Alike` and `Scope.Alike` are what the two
  runs may do at one moment, and what they get out of it;
- `Proc.Alike` is likeness of procedures, with a clause for each of their forms;
- `Proc.Alike.bind`, `Proc.Alike.keeping`: procedures that are put together out
  of parts that are alike;
- `Proc.Keeps.alike`: what the host does by itself, it does alike in both runs.
-/

namespace Crossing

variable {L : License} {α β : Type}

/-! ### What two runs rely on -/

/-- What two runs rely on at some moment. A task may sweep, so that only the
handles that are held outlast one. -/
structure Pairing (L : License) where
  /-- The handles that the running code of both holds, newest first. -/
  held : List (Handle × Handle)
  /-- The numbers under which both hosts keep an object. -/
  known : Renaming L
  /-- The handles of tracked objects. -/
  loose : Handle → Handle → Prop
  /-- What a number stands for in the first run, as long as it stands for anything. -/
  stands : ObjectId → Obj → Prop
  /-- The names that objects of the first run stand for. -/
  named : Obj → String → Prop
  loose_of_held : ∀ {h h'}, (h, h') ∈ held → loose h h'
  known_of_loose : ∀ {h h'}, loose h h' → known.rel h.id h'.id
  serial_eq : ∀ {h h'}, loose h h' → h.serial = h'.serial
  loose_inj : ∀ {h h' g g'}, loose h h' → loose g g' → (h = g ↔ h' = g')

namespace Pairing

/-- Handles that the running code of both runs holds. -/
def Held (P : Pairing L) (h h' : Handle) : Prop := (h, h') ∈ P.held

variable {P P' P₁ P₂ P₃ : Pairing L} {h h' g g' : Handle}

/-- What is held in step is loosely so. -/
theorem loose_held (hh : P.Held h h') : P.loose h h' := P.loose_of_held hh

/-- What is held in step has numbers that are known in step. -/
theorem known_held (hh : P.Held h h') : P.known.rel h.id h'.id :=
  P.known_of_loose (P.loose_held hh)

theorem held_inj (hh : P.Held h h') (hg : P.Held g g') : h = g ↔ h' = g' :=
  P.loose_inj (P.loose_held hh) (P.loose_held hg)

/-- Under an exact license handles that are loosely in step are equal. -/
theorem eq_of_loose (hL : L.IsExact) (hh : P.loose h h') : h' = h := by
  obtain ⟨s, i⟩ := h
  obtain ⟨s', i'⟩ := h'
  obtain rfl : s = s' := P.serial_eq hh
  obtain rfl : i = i' := P.known.eq_of_exact hL (P.known_of_loose hh)
  rfl

/-- What the runs relied on before, they rely on still. -/
structure Grows (P P' : Pairing L) : Prop where
  held : P.held <:+ P'.held
  known : ∀ i i', P.known.rel i i' → P'.known.rel i i'
  stands : ∀ i o, P.stands i o → P'.stands i o
  named : ∀ o name, P.named o name → P'.named o name

theorem Grows.refl (P : Pairing L) : P.Grows P :=
  ⟨List.suffix_rfl, fun _ _ h => h, fun _ _ h => h, fun _ _ h => h⟩

theorem Grows.trans (h₁ : P₁.Grows P₂) (h₂ : P₂.Grows P₃) : P₁.Grows P₃ where
  held := h₁.held.trans h₂.held
  known i i' h := h₂.known i i' (h₁.known i i' h)
  stands i o h := h₂.stands i o (h₁.stands i o h)
  named o name h := h₂.named o name (h₁.named o name h)

theorem held_of_suffix (hP : P.held <:+ P'.held) (hh : P.Held h h') : P'.Held h h' :=
  hP.subset hh

/-- The runs rely on the same, but that they hold only some of the handles. -/
structure GivesUp (P : Pairing L) (held : List (Handle × Handle)) (P' : Pairing L) : Prop where
  held_eq : P'.held = held
  known_eq : P'.known = P.known
  loose_eq : P'.loose = P.loose

/-- Holding fewer handles. -/
def givingUp (P : Pairing L) (held : List (Handle × Handle)) (h : held <:+ P.held) :
    Pairing L where
  held := held
  known := P.known
  loose := P.loose
  stands := P.stands
  named := P.named
  loose_of_held hh := P.loose_of_held (h.subset hh)
  known_of_loose := P.known_of_loose
  serial_eq := P.serial_eq
  loose_inj := P.loose_inj

/-- To give up handles is to go back to fewer of them. -/
theorem givesUp_givingUp (P : Pairing L) {held : List (Handle × Handle)}
    (h : held <:+ P.held) : P.GivesUp held (P.givingUp held h) := ⟨rfl, rfl, rfl⟩

end Pairing

/-! ### What two runs do at one moment -/

/-- Queries of two runs, and how the answers are related. -/
inductive Query.Alike (P : Pairing L) :
    {α : Type} → Query α → Query α → (α → α → Prop) → Prop where
  | shared {α : Type} {q : Query α} (hq : q.isShared = true) : Alike P q q Eq
  | resolve {i i' : ObjectId} (hi : P.known.rel i i') :
    Alike P (.resolve? i) (.resolve? i') fun o o' => o = o' ∧ (o = none → i = i')
  | nameOf {h h' : Handle} (hh : P.Held h h') : Alike P (.nameOf? h) (.nameOf? h') Eq
  | stats : Alike P .stats .stats fun s s' => L.IsExact → s = s'
  | exact {α : Type} (hL : L.IsExact) (q : Query α) : Alike P q q Eq

/-- The object of a number of the exchange. -/
def Json.number? : Json → Option Obj
  | .int i => some (match Fixnum.ofInt? i with
    | some i => .int i
    | none => .float (Float.ofInt i))
  | .float x _ => some (.float x)
  | _ => none

/-- Whether an object is what the host makes of the text that a number crosses in. -/
def NumberKey.Crosses (key : NumberKey) (o : Obj) : Prop :=
  ∃ (v : Value) (j : Json) (text : String) (d : Json),
    v.numberKey? = some key ∧ v.toJson = .ok j ∧ j.toText = .ok text ∧
      Json.parse text = .ok d ∧ ∀ o', d.number? = some o' → o = o'

/-- Changes of two runs, and how the results are related afterwards. What is noted or
remembered under a name stands for the name, what is remembered under a number
is the number. -/
inductive Change.Alike (P : Pairing L) :
    {α : Type} → Change α → Change α → (Pairing L → α → α → Prop) → Prop where
  | shared {α : Type} {c : Change α} (hc : c.isShared = true) : Alike P c c fun _ => Eq
  | intern (name : String) :
    Alike P (.intern name) (.intern name) fun P' o o' => o = o' ∧ P'.named o name
  | retain (o : Obj) :
    Alike P (.retain o) (.retain o) fun P' i i' => P'.known.rel i i' ∧ P'.stands i o
  | release (hL : L = .free) (ids : List ObjectId) :
    Alike P (.release ids) (.release ids) fun _ _ _ => True
  | adopt {i i' : ObjectId} (hi : P.known.rel i i') :
    Alike P (.adopt i) (.adopt i') fun P' h h' => P'.Held h h' ∧ h.id = i
  | recordName {h h' : Handle} (hh : P.Held h h') (name : String) {o : Obj}
    (hstands : P.stands h.id o) (hnamed : P.named o name) :
    Alike P (.recordName h name) (.recordName h' name) fun _ _ _ => True
  | recallSymbol (kind : SymbolKind) (name : String) :
    Alike P (.recallSymbol kind name) (.recallSymbol kind name) fun P' => Option.Rel P'.Held
  | cacheSymbol (kind : SymbolKind) (name : String) {h h' : Handle} (hh : P.Held h h') {o : Obj}
    (hstands : P.stands h.id o) (hnamed : P.named o name) :
    Alike P (.cacheSymbol kind name h) (.cacheSymbol kind name h') fun _ _ _ => True
  | recallNumber (key : NumberKey) :
    Alike P (.recallNumber key) (.recallNumber key) fun P' => Option.Rel P'.Held
  | cacheNumber (key : NumberKey) {h h' : Handle} (hh : P.Held h h') {o : Obj}
    (hstands : P.stands h.id o) (hcrosses : key.Crosses o) :
    Alike P (.cacheNumber key h) (.cacheNumber key h') fun _ _ _ => True
  | wrap {v v' : Value} (hv : v.Alike P.Held v') : Alike P (.wrap v) (.wrap v') fun _ => Eq
  | unwrap (key : Key) :
    Alike P (.unwrap? key) (.unwrap? key) fun P' => Option.Rel (Value.Alike P'.Held)
  | clearProxy (key : Key) : Alike P (.clearProxy key) (.clearProxy key) fun _ _ _ => True
  | hold {hs hs' : List Handle} (hhs : List.Forall₂ P.loose hs hs') :
    Alike P (.hold hs) (.hold hs') fun P' _ _ => List.Forall₂ P'.Held hs hs'
  | recallVariable (name : String) :
    Alike P (.recallVariable name) (.recallVariable name) fun P' =>
      Option.Rel (Value.Alike P'.Held)
  | assign (name : String) {v v' : Value} (hv : v.Alike P.Held v') :
    Alike P (.assign name v) (.assign name v') fun _ _ _ => True
  | forget (name : String) : Alike P (.forget name) (.forget name) fun _ _ _ => True
  | log {a a' : Answer} (ha : a.Alike L a') : Alike P (.log a) (.log a') fun _ _ _ => True
  | takeLog : Alike P .takeLog .takeLog fun _ => List.Forall₂ (Answer.Alike L)

/-- Tasks of two runs. -/
inductive Task.Alike (R : Handle → Handle → Prop) : {α : Type} → Task α → Task α → Prop where
  | evaluate (form : Obj) : Alike R (.evaluate form) (.evaluate form)
  | apply (function : Obj) (args : List Obj) : Alike R (.apply function args) (.apply function args)
  | close (c : Callable) : Alike R (.close c) (.close c)
  | play (steps : List Step) {args args' : List Value}
    (hargs : List.Forall₂ (Value.Alike R) args args') : Alike R (.play steps args) (.play steps args')
  | step (s : Step) {args args' : List Value} (hargs : List.Forall₂ (Value.Alike R) args args') :
    Alike R (.step s args) (.step s args')

/-- Results that are related, or the same error. -/
def ResultAlike {ε : Type} (R : α → α → Prop) (r r' : Except ε α) : Prop :=
  (∃ a a', r = .ok a ∧ r' = .ok a' ∧ R a a') ∨ ∃ e, r = .error e ∧ r' = .error e

/-- How the results of two runs of a task are related. -/
def Task.Gives (L : License) (R : Handle → Handle → Prop) : Task α → α → α → Prop
  | .evaluate _, o, o' => o = o'
  | .apply _ _, o, o' => o = o'
  | .close _, h, h' => R h h'
  | .play _ _, v, v' => v.Alike R v'
  | .step _ _, r, r' => r.Alike L R r'

/-- Scopes of two runs, those apart that give up handles. -/
inductive Scope.Alike (P : Pairing L) : Scope → Scope → Prop where
  | evaluation : Alike P .evaluation .evaluation
  | binding (bindings : List (Addr × Obj)) : Alike P (.binding bindings) (.binding bindings)
  | buffer (a : Addr) : Alike P (.buffer a) (.buffer a)
  | temporary (a : Addr) : Alike P (.temporary a) (.temporary a)
  | outbound : Alike P .outbound .outbound
  | callback (key : Key) {ids ids' : List ObjectId} (hids : List.Forall₂ P.known.rel ids ids') :
    Alike P (.callback ⟨key, ids⟩) (.callback ⟨key, ids'⟩)
  | source : Alike P .source .source

/-! ### Procedures -/

/-- Procedures of two runs that do the same, starting from what `P` says that
they rely on. `Q` is how the results are related in the end. -/
inductive Proc.Alike {L : License} : {α : Type} → (P : Pairing L) → Proc α → Proc α →
    (Q : Pairing L → α → α → Prop) → Prop where
  | done {α : Type} {P : Pairing L} {a a' : α} {Q : Pairing L → α → α → Prop} (h : Q P a a') :
    Alike P (.done a) (.done a') Q
  | stop {α : Type} {P : Pairing L} (s : Stop) {Q : Pairing L → α → α → Prop} :
    Alike P (.stop s) (.stop s) Q
  | ask {α β : Type} {P : Pairing L} {q q' : Query β} {next next' : β → Proc α}
    {A : β → β → Prop} {Q : Pairing L → α → α → Prop} (hq : q.Alike P q' A)
    (h : ∀ x x', A x x' → Alike P (next x) (next' x') Q) :
    Alike P (.ask q next) (.ask q' next') Q
  | act {α β : Type} {P : Pairing L} {c c' : Change β} {next next' : β → Proc α}
    {A : Pairing L → β → β → Prop} {Q : Pairing L → α → α → Prop} (hc : c.Alike P c' A)
    (h : ∀ P' x x', P.Grows P' → A P' x x' → Alike P' (next x) (next' x') Q) :
    Alike P (.act c next) (.act c' next') Q
  | sweep {α : Type} {P : Pairing L} {next next' : Nat → Proc α}
    {Q : Pairing L → α → α → Prop}
    (h : ∀ P' n, P.held <:+ P'.held → Alike P' (next n) (next' n) Q) :
    Alike P (.act .sweep next) (.act .sweep next') Q
  | task {α β : Type} {P : Pairing L} {t t' : Task β} {next next' : β → Proc α}
    {Q : Pairing L → α → α → Prop} (ht : t.Alike P.Held t')
    (h : ∀ P' x x', P.held <:+ P'.held → t.Gives L P'.Held x x' →
      Alike P' (next x) (next' x') Q) :
    Alike P (.task t next) (.task t' next') Q
  | inside {α β : Type} {P : Pairing L} {s s' : Scope} {part part' : Proc β}
    {next next' : β → Proc α} {Q₁ : Pairing L → β → β → Prop}
    {Q : Pairing L → α → α → Prop} (hs : s.Alike P s') (hpart : Alike P part part' Q₁)
    (h : ∀ P' x x', P.held <:+ P'.held → Q₁ P' x x' → Alike P' (next x) (next' x') Q) :
    Alike P (.inside s part next) (.inside s' part' next') Q
  | holding {α β : Type} {P : Pairing L} {part part' : Proc β}
    {next next' : β → Proc α} {Q₁ : Pairing L → β → β → Prop}
    {Q : Pairing L → α → α → Prop} (hpart : Alike P part part' Q₁)
    (h : ∀ P₁ P₂ x x', P.held <:+ P₁.held → P₁.GivesUp P.held P₂ → Q₁ P₁ x x' →
      Alike P₂ (next x) (next' x') Q) :
    Alike P (.inside .holding part next) (.inside .holding part' next') Q
  | attempt {α β : Type} {P : Pairing L} {part part' : Proc β}
    {next next' : Except Failure β → Proc α} {Q₁ : Pairing L → β → β → Prop}
    {Q : Pairing L → α → α → Prop} (hpart : Alike P part part' Q₁)
    (hok : ∀ P' x x', P.held <:+ P'.held → Q₁ P' x x' →
      Alike P' (next (.ok x)) (next' (.ok x')) Q)
    (herror : ∀ P' f, P.held <:+ P'.held → Alike P' (next (.error f)) (next' (.error f)) Q) :
    Alike P (.attempt part next) (.attempt part' next') Q
  | loop {α : Type} {P : Pairing L} {part part' : Proc Bool} {next next' : Proc α}
    {Q : Pairing L → α → α → Prop}
    (hpart : ∀ P' : Pairing L, P.held <:+ P'.held → Alike P' part part' fun _ => Eq)
    (h : ∀ P' : Pairing L, P.held <:+ P'.held → Alike P' next next' Q) :
    Alike P (.loop part next) (.loop part' next') Q

namespace Proc

variable {P : Pairing L} {p p' : Proc α} {f f' : α → Proc β} {a a' : α}
  {Q Q₁ : Pairing L → α → α → Prop} {Q₂ : Pairing L → β → β → Prop}

/-! ### Sequences -/

/-- Procedures are alike if they are made of a part that is alike and what
follows it, which may rely on the handles held before and on how the results of
the part are related. -/
theorem Alike.bind (hp : Alike P p p' Q)
    (hf : ∀ P' a a', P.held <:+ P'.held → Q P' a a' → Alike P' (f a) (f' a') Q₂) :
    Alike P (p >>= f) (p' >>= f') Q₂ := by
  -- the induction is on how the procedures are alike; what goes on is left open
  induction hp with
  | done h => exact hf _ _ _ List.suffix_rfl h
  | stop s => exact .stop s
  | ask hq _ ih => exact .ask hq fun x x' hx => ih x x' hx hf
  | act hc _ ih =>
    exact .act hc fun P' x x' hP hx =>
      ih P' x x' hP hx fun P₁ a a' hP₁ ha => hf P₁ a a' (hP.held.trans hP₁) ha
  | sweep _ ih =>
    exact .sweep fun P' n hP =>
      ih P' n hP fun P₁ a a' hP₁ ha => hf P₁ a a' (hP.trans hP₁) ha
  | task ht _ ih =>
    exact .task ht fun P' x x' hP hx =>
      ih P' x x' hP hx fun P₁ a a' hP₁ ha => hf P₁ a a' (hP.trans hP₁) ha
  | inside hs hpart _ _ ih =>
    exact .inside hs hpart fun P' x x' hP hx =>
      ih P' x x' hP hx fun P₁ a a' hP₁ ha => hf P₁ a a' (hP.trans hP₁) ha
  | holding hpart _ _ ih =>
    refine .holding hpart fun P₁ P₂ x x' hP hgive hx =>
      ih P₁ P₂ x x' hP hgive hx fun P₃ a a' hP₃ ha => hf P₃ a a' ?_ ha
    rwa [hgive.held_eq] at hP₃
  | attempt hpart _ _ _ ihOk ihError =>
    exact .attempt hpart
      (fun P' x x' hP hx =>
        ihOk P' x x' hP hx fun P₁ a a' hP₁ ha => hf P₁ a a' (hP.trans hP₁) ha)
      (fun P' e hP => ihError P' e hP fun P₁ a a' hP₁ ha => hf P₁ a a' (hP.trans hP₁) ha)
  | loop hpart _ _ ih =>
    exact .loop hpart fun P' hP => ih P' hP fun P₁ a a' hP₁ ha => hf P₁ a a' (hP.trans hP₁) ha

/-- Results that are related end alike. -/
theorem Alike.pure (h : Q P a a') : Alike P (pure a) (pure a') Q := .done h

/-- A weaker relation between the results does. -/
theorem Alike.weaken (hp : Alike P p p' Q₁)
    (h : ∀ P' a a', P.held <:+ P'.held → Q₁ P' a a' → Q P' a a') : Alike P p p' Q := by
  have hdone : ∀ P' a a', P.held <:+ P'.held → Q₁ P' a a' →
      Alike P' (Proc.done a) (Proc.done a') Q := fun P' a a' hP ha => .done (h P' a a' hP ha)
  have := hp.bind hdone
  rwa [show p >>= Proc.done = p from bind_done p,
    show p' >>= Proc.done = p' from bind_done p'] at this

/-- Results that are mapped to related ones end alike. -/
theorem Alike.map {g : α → β} {g' : α → β} (hp : Alike P p p' Q)
    (h : ∀ P' a a', P.held <:+ P'.held → Q P' a a' → Q₂ P' (g a) (g' a')) :
    Alike P (g <$> p) (g' <$> p') Q₂ := by
  rw [map_eq_pure_bind, map_eq_pure_bind]
  exact hp.bind fun P' a a' hP ha => .pure (h P' a a' hP ha)

/-! ### Building blocks -/

/-- Questions with related answers. -/
theorem Alike.query {q q' : Query α} {A : α → α → Prop} (hq : q.Alike P q' A) :
    Alike P (query q) (query q') fun P' x x' => P' = P ∧ A x x' :=
  .ask hq fun _ _ hx => .done ⟨rfl, hx⟩

/-- Changes with related results. -/
theorem Alike.change {c c' : Change α} {A : Pairing L → α → α → Prop} (hc : c.Alike P c' A) :
    Alike P (change c) (change c') fun P' x x' => P.Grows P' ∧ A P' x x' :=
  .act hc fun _ _ _ hP hx => .done ⟨hP, hx⟩

theorem Alike.perform {t t' : Task α} (ht : t.Alike P.Held t') :
    Alike P (perform t) (perform t') fun P' => t.Gives L P'.Held :=
  .task ht fun _ _ _ _ hx => .done hx

/-- The same failure ends both runs. -/
theorem Alike.fail (e : Failure) : Alike P (fail e : Proc α) (Proc.fail e) Q := .stop _

/-- The same result or failure ends both runs. -/
theorem Alike.ofExcept (r : Except Failure α) :
    Alike P (ofExcept r) (Proc.ofExcept r) fun P' x x' => P' = P ∧ x = x' := by
  cases r with
  | ok a => exact .done ⟨rfl, rfl⟩
  | error e => exact .fail e

theorem Alike.within {s s' : Scope} (hs : s.Alike P s') (hp : Alike P p p' Q) :
    Alike P (within s p) (within s' p') Q :=
  .inside hs hp fun _ _ _ _ hx => .done hx

theorem Alike.outcome (hp : Alike P p p' Q) :
    Alike P (outcome p) (outcome p') fun P' => ResultAlike (Q P') :=
  .attempt hp (fun _ a a' _ ha => .done (.inl ⟨a, a', rfl, rfl, ha⟩))
    fun _ e _ => .done (.inr ⟨e, rfl, rfl⟩)

/-- A part whose handles are given up: its results may be related by the numbers
that are known then and by loose handles. -/
theorem Alike.held (hp : Alike P p p' Q₁)
    (h : ∀ P₁ P₂ a a', P₁.GivesUp P.held P₂ → Q₁ P₁ a a' → Q P₂ a a') :
    Alike P (Proc.holding p) (Proc.holding p') Q :=
  .holding hp fun P₁ P₂ a a' _ hgive ha => .done (h P₁ P₂ a a' hgive ha)

/-- A part that gives back what it holds: its handles are held afterwards. -/
theorem Alike.keeping [Holds α] {T : α → α → Prop} (hp : Alike P p p' Q)
    (hQ : ∀ P' a a', Q P' a a' →
      List.Forall₂ P'.loose (Holds.handles a) (Holds.handles a') ∧ T a a') :
    Alike P (keeping p) (Proc.keeping p') fun P' a a' =>
      List.Forall₂ P'.Held (Holds.handles a) (Holds.handles a') ∧ T a a' := by
  have hheld : Alike P (Proc.holding p) (Proc.holding p') fun P' a a' =>
      List.Forall₂ P'.loose (Holds.handles a) (Holds.handles a') ∧ T a a' :=
    hp.held fun P₁ P₂ a a' hgive ha => by
      rw [hgive.loose_eq]
      exact hQ P₁ a a' ha
  refine hheld.bind fun P₁ a a' _ ⟨hloose, hT⟩ => ?_
  exact (Alike.change (.hold hloose)).bind fun P₂ _ _ _ ⟨_, hh⟩ => .pure ⟨hh, hT⟩

/-- Values are held afterwards. -/
theorem Alike.keeping_value {p p' : Proc Value}
    (hp : Alike P p p' fun P' => Value.Alike P'.Held) :
    Alike P (Proc.keeping p) (Proc.keeping p') fun P' => Value.Alike P'.Held := by
  refine (hp.keeping (T := Value.Alike fun _ _ => True) fun P' v v' hv => ⟨?_, ?_⟩).weaken
    fun P' v v' _ ⟨hh, hv⟩ => hv.of_handles hh
  · exact hv.handles.imp fun _ _ => P'.loose_held
  · exact hv.mono fun _ _ _ => trivial

/-- Handles that are kept in step stay held. -/
theorem Alike.keeping_handle {p p' : Proc Handle} (hp : Alike P p p' fun P' => P'.Held) :
    Alike P (Proc.keeping p) (Proc.keeping p') fun P' => P'.Held := by
  refine (hp.keeping (T := fun _ _ => True) fun P' h h' hh => ⟨?_, trivial⟩).weaken
    fun P' h h' _ ⟨hh, _⟩ => (List.forall₂_cons.mp hh).1
  exact .cons (P'.loose_held hh) .nil

/-- Pairs of values that are kept in step stay held. -/
theorem Alike.keeping_pair {p p' : Proc (Value × Value)}
    (hp : Alike P p p' fun P' u u' => u.1.Alike P'.Held u'.1 ∧ u.2.Alike P'.Held u'.2) :
    Alike P (Proc.keeping p) (Proc.keeping p') fun P' u u' =>
      u.1.Alike P'.Held u'.1 ∧ u.2.Alike P'.Held u'.2 := by
  refine (hp.keeping (T := fun u u' => u.1.Alike (fun _ _ => True) u'.1 ∧
    u.2.Alike (fun _ _ => True) u'.2) fun P' u u' ⟨h₁, h₂⟩ => ⟨?_, ?_⟩).weaken
    fun P' u u' _ ⟨hh, h₁, h₂⟩ => ?_
  · exact List.rel_append (h₁.handles.imp fun _ _ => P'.loose_held)
      (h₂.handles.imp fun _ _ => P'.loose_held)
  · exact ⟨h₁.mono fun _ _ _ => trivial, h₂.mono fun _ _ _ => trivial⟩
  · obtain ⟨hh₁, hh₂⟩ := Value.forall₂_append_inv h₁.handles.length_eq hh
    exact ⟨h₁.of_handles hh₁, h₂.of_handles hh₂⟩

/-- The outcome of a step that is kept in step stays held. -/
theorem Alike.keeping_outcome {p p' : Proc Outcome}
    (hp : Alike P p p' fun P' => Outcome.Alike L P'.Held) :
    Alike P (Proc.keeping p) (Proc.keeping p') fun P' => Outcome.Alike L P'.Held := by
  refine (hp.keeping (T := Outcome.Alike L fun _ _ => True) fun P' r r' hr => ?_).weaken
    fun P' r r' _ ⟨hh, hr⟩ => ?_
  · cases hr with
    | value h =>
      exact ⟨h.handles.imp fun _ _ => P'.loose_held, .value (h.mono fun _ _ _ => trivial)⟩
    | answer h => exact ⟨.nil, .answer h⟩
  · cases hr with
    | value h => exact .value (h.of_handles hh)
    | answer h => exact .answer h

/-! ### Lists -/

/-- Procedures for the items of two lists, one after the other. `R` is what each
of them keeps of what the runs rely on. -/
theorem Alike.mapM {ι : Type} {R : Pairing L → Pairing L → Prop} (hrefl : ∀ P, R P P)
    (htrans : ∀ P₁ P₂ P₃, R P₁ P₂ → R P₂ P₃ → R P₁ P₃) {g g' : ι → Proc α}
    {E : Pairing L → ι → ι → Prop} (hE : ∀ P₁ P₂ x x', R P₁ P₂ → E P₁ x x' → E P₂ x x')
    (hQ : ∀ P₁ P₂ a a', R P₁ P₂ → Q P₁ a a' → Q P₂ a a')
    (hg : ∀ P x x', E P x x' → Alike P (g x) (g' x') fun P' a a' => R P P' ∧ Q P' a a')
    {xs xs' : List ι} (hxs : List.Forall₂ (E P) xs xs') :
    Alike P (xs.mapM g) (xs'.mapM g') fun P' as as' =>
      R P P' ∧ List.Forall₂ (Q P') as as' := by
  induction xs generalizing P xs' with
  | nil =>
    obtain rfl := List.forall₂_nil_left_iff.mp hxs
    exact .pure ⟨hrefl P, .nil⟩
  | cons x xs ih =>
    obtain ⟨x', us', hx, hus, rfl⟩ := List.forall₂_cons_left_iff.mp hxs
    rw [List.mapM_cons, List.mapM_cons]
    refine (hg P x x' hx).bind fun P₁ a a' _ ⟨hP₁, ha⟩ => ?_
    refine (ih (hus.imp fun _ _ => hE P P₁ _ _ hP₁)).bind fun P₂ as as' _ ⟨hP₂, has⟩ => ?_
    exact .pure ⟨htrans P P₁ P₂ hP₁ hP₂, .cons (hQ P₁ P₂ a a' hP₂ ha) has⟩

/-- The same for what lasts as long as the handles that are held. -/
theorem Alike.mapM_held {ι : Type} {g g' : ι → Proc α} {E : Pairing L → ι → ι → Prop}
    (hE : ∀ P₁ P₂ x x', P₁.held <:+ P₂.held → E P₁ x x' → E P₂ x x')
    (hQ : ∀ P₁ P₂ a a', P₁.held <:+ P₂.held → Q P₁ a a' → Q P₂ a a')
    (hg : ∀ P x x', E P x x' → Alike P (g x) (g' x') Q) {xs xs' : List ι}
    (hxs : List.Forall₂ (E P) xs xs') :
    Alike P (xs.mapM g) (xs'.mapM g') fun P' => List.Forall₂ (Q P') := by
  have hg' : ∀ P x x', E P x x' →
      Alike P (g x) (g' x') fun P' a a' => P.held <:+ P'.held ∧ Q P' a a' :=
    fun P x x' hx => (hg P x x' hx).weaken fun _ _ _ hP ha => ⟨hP, ha⟩
  exact (Alike.mapM (R := fun P P' => P.held <:+ P'.held) (fun _ => List.suffix_rfl)
    (fun _ _ _ h₁ h₂ => h₁.trans h₂) hE hQ hg' hxs).weaken fun _ _ _ _ h => h.2

/-! ### What the host does by itself -/

/-- A procedure that keeps to what two runs share is like itself, with the same
result. -/
theorem Keeps.alike {p : Proc α} (h : p.Keeps .shared) {P : Pairing L} :
    p.Alike P p fun _ => Eq := by
  induction p generalizing P with
  | done a => exact .done rfl
  | stop s => exact .stop s
  | ask q next ih =>
    refine .ask (.shared (h.1 rfl)) ?_
    rintro x _ rfl
    exact ih x (h.2 x)
  | act c next ih =>
    refine .act (.shared (h.1 rfl)) ?_
    rintro P' x _ - rfl
    exact ih x (h.2 x)
  | task t next ih =>
    cases t with
    | evaluate form =>
      refine .task (.evaluate form) ?_
      rintro P' x _ - rfl
      exact ih x (h.2 x)
    | apply function args =>
      refine .task (.apply function args) ?_
      rintro P' x _ - rfl
      exact ih x (h.2 x)
    | close c | play steps args | step s args => exact absurd (h.1 rfl) Bool.false_ne_true
  | inside s part next ihPart ihNext =>
    have hs : s.Alike P s := by
      cases s with
      | evaluation => exact .evaluation
      | binding bindings => exact .binding bindings
      | buffer a => exact .buffer a
      | temporary a => exact .temporary a
      | holding | outbound | callback _ | source => exact absurd (h.1 rfl) Bool.false_ne_true
    refine .inside hs (ihPart h.2.1) ?_
    rintro P' x _ - rfl
    exact ihNext x (h.2.2 x)
  | attempt part next ihPart ihNext =>
    refine .attempt (ihPart h.2.1) ?_ fun P' f _ => ihNext (.error f) (h.2.2 _)
    rintro P' x _ - rfl
    exact ihNext (.ok x) (h.2.2 _)
  | loop part next ihPart ihNext =>
    exact .loop (fun P' _ => ihPart h.1) fun P' _ => ihNext h.2

end Proc

end Crossing
