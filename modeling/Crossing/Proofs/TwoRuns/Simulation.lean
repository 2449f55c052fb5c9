import Crossing.Proofs.Moments
import Crossing.Proofs.Start
import Crossing.Proofs.TwoRuns.Sweeps

/-!
# Two runs, moment by moment

Two runs that start alike stay alike, at every moment and at any depth: each step
of one is a step of the other, and a sweep in between may come in one of them
only.

- `Stack.Alike`: parts that wait for results that are related, and go on alike;
- `Moment.Alike`: moments of two runs that are alike;
- `Moment.Alike.next`: they stay so by one step, if the license is for it;
- `Moment.Alike.swept`: they stay so by a sweep in between;
- `Moment.Alike.reaches`: a run without sweeps in between follows one with them;
- `Moment.Alike.reaches_self`: where the two runs are one, what two runs keep to
  is an invariant.
-/

namespace Crossing

variable {L : License} {α β γ : Type} {Z : γ → γ → Prop}

/-! ### Stacks -/

/-- Parts of two runs that wait for results related by `Q`, and go on alike.
They hold the handles in `held`. The outermost parts give results related
by `Z`. -/
inductive Stack.Alike (Z : γ → γ → Prop) : {α : Type} → (held : List (Handle × Handle)) →
    (Q : Pairing L → α → α → Prop) → Stack γ α → Stack γ α → Prop where
  | top {Q : Pairing L → γ → γ → Prop} (h : ∀ P a a', Q P a a' → Z a a') :
    Alike Z [] Q .top .top
  | result {α β : Type} {held held₀ : List (Handle × Handle)} {t t' : Task α}
    {next next' : α → Proc β} {rest rest' : Stack γ β} {Q : Pairing L → β → β → Prop}
    (hheld : held₀ <:+ held)
    (h : ∀ P' x x', held <:+ P'.held → t.Gives L P'.Held x x' →
      Proc.Alike P' (next x) (next' x') Q)
    (hrest : Alike Z held₀ Q rest rest') :
    Alike Z held (fun P => t.Gives L P.Held) (.push (.result t next) rest)
      (.push (.result t' next') rest')
  | scope {α β : Type} {held held₀ : List (Handle × Handle)} {undo : Undo}
    {next next' : α → Proc β} {rest rest' : Stack γ β} {Q₁ : Pairing L → α → α → Prop}
    {Q : Pairing L → β → β → Prop} (hheld : held₀ <:+ held) (hundo : undo.isShared = true)
    (h : ∀ P' x x', held <:+ P'.held → Q₁ P' x x' → Proc.Alike P' (next x) (next' x') Q)
    (hrest : Alike Z held₀ Q rest rest') :
    Alike Z held Q₁ (.push (.scope undo next) rest) (.push (.scope undo next') rest')
  | holding {α β : Type} {held held₀ : List (Handle × Handle)}
    {next next' : α → Proc β} {rest rest' : Stack γ β} {Q₁ : Pairing L → α → α → Prop}
    {Q : Pairing L → β → β → Prop} (hheld : held₀ <:+ held)
    (h : ∀ P₁ P₂ x x', held <:+ P₁.held → P₁.GivesUp held P₂ → Q₁ P₁ x x' →
      Proc.Alike P₂ (next x) (next' x') Q)
    (hrest : Alike Z held₀ Q rest rest') :
    Alike Z held Q₁ (.push (.scope (.holdOnly (held.map Prod.fst)) next) rest)
      (.push (.scope (.holdOnly (held.map Prod.snd)) next') rest')
  | attempt {α β : Type} {held held₀ : List (Handle × Handle)}
    {next next' : Except Failure α → Proc β} {rest rest' : Stack γ β}
    {Q₁ : Pairing L → α → α → Prop} {Q : Pairing L → β → β → Prop} (hheld : held₀ <:+ held)
    (hok : ∀ P' x x', held <:+ P'.held → Q₁ P' x x' →
      Proc.Alike P' (next (.ok x)) (next' (.ok x')) Q)
    (herror : ∀ P' f, held <:+ P'.held → Proc.Alike P' (next (.error f)) (next' (.error f)) Q)
    (hrest : Alike Z held₀ Q rest rest') :
    Alike Z held Q₁ (.push (.attempt next) rest) (.push (.attempt next') rest')
  | loop {β : Type} {held held₀ : List (Handle × Handle)} {part part' : Proc Bool}
    {next next' : Proc β} {rest rest' : Stack γ β} {Q : Pairing L → β → β → Prop}
    (hheld : held₀ <:+ held)
    (hpart : ∀ P' : Pairing L, held <:+ P'.held → Proc.Alike P' part part' fun _ => Eq)
    (h : ∀ P' : Pairing L, held <:+ P'.held → Proc.Alike P' next next' Q)
    (hrest : Alike Z held₀ Q rest rest') :
    Alike Z held (fun _ => Eq) (.push (.loop part next) rest) (.push (.loop part' next') rest')

/-! ### Moments -/

/-- Moments of two runs that are alike. -/
inductive Moment.Alike (L : License) (Z : γ → γ → Prop) : Moment γ → Moment γ → Prop where
  | mk {α : Type} {P : Pairing L} {held : List (Handle × Handle)}
    {Q : Pairing L → α → α → Prop} {p p' : Proc α} {k k' : Stack γ α} {w w' : World}
    (hheld : held <:+ P.held) (hproc : p.Alike P p' Q) (hstack : k.Alike Z held Q k')
    (hworld : Fits P w w') : Alike L Z ⟨p, k, w⟩ ⟨p', k', w'⟩

/-- Whether a license is for the step of script code that is about to be played:
a careful one only if the host keeps the objects that the step takes in. -/
def Moment.Licensed (L : License) (m : Moment γ) : Prop :=
  ∀ s, m.step? = some s → L.Admits s.deed ∧
    (L = .careful → ∀ i ∈ s.deed.references, (m.world.host.resolve? i).isSome)

instance (L : License) (m : Moment γ) : Decidable (m.Licensed L) :=
  decidable_of_iff (∀ s ∈ m.step?, L.Admits s.deed ∧
    (L = .careful → ∀ i ∈ s.deed.references, (m.world.host.resolve? i).isSome)) Iff.rfl

/-- Deeds without bare numbers mention none. -/
theorem references_eq_nil {d : Deed} (h : d.isRaw = false) : d.references = [] := by
  cases d with
  | unpack p => cases p <;> first | rfl | cases h
  | invoke key ps =>
    refine List.filterMap_eq_nil_iff.mpr fun p hp => ?_
    have := List.any_eq_false.mp h p hp
    simpa using this
  | _ => rfl

/-- The runs may rely on what a licensed step takes in. -/
theorem Fits.licensed {P : Pairing L} {w w' : World} {s : Step} {args : List Value}
    (hf : Fits P w w') (hL : L.Admits s.deed)
    (hkept : L = .careful → ∀ i ∈ s.deed.references, (w.host.resolve? i).isSome) :
    ∃ P' : Pairing L, P'.held = P.held ∧ Fits P' w w' ∧ (Task.step s args).Licensed P' := by
  by_cases hexact : L.IsExact
  · obtain ⟨P', -, hheld, hfits, hknown⟩ := hf.learn hexact hkept
    exact ⟨P', hheld, hfits, hL, hknown⟩
  · obtain rfl : L = .blind := not_not.mp hexact
    refine ⟨P, rfl, hf, hL, ?_⟩
    rw [references_eq_nil hL]
    nofun

/-- What is told matters to sweeps only. -/
theorem Change.Alike.tell_eq {P : Pairing L} {c c' : Change α} {A : Pairing L → α → α → Prop}
    (hc : c.Alike P c' A) (told : Nat) (x x' : α) : c.tell told x = x ∧ c'.tell told x' = x' := by
  cases hc with
  | shared hs => cases c <;> first | exact ⟨rfl, rfl⟩ | cases hs
  | _ => exact ⟨rfl, rfl⟩

namespace Moment

variable {m m' : Moment γ}

/-! ### Steps -/

/-- Results that are related go to the frames below in step. -/
theorem alike_done {P : Pairing L} {held : List (Handle × Handle)}
    {Q : Pairing L → α → α → Prop} {a a' : α} {k k' : Stack γ α} {w w' : World} (told : Nat)
    (hheld : held <:+ P.held) (ha : Q P a a') (hk : k.Alike Z held Q k') (hf : Fits P w w') :
    Option.Rel (Alike L Z) (advance told (.done a) k w) (advance told (.done a') k' w') := by
  cases hk with
  | top _ => exact .none
  | result hheld₀ h hrest => exact .some (.mk (hheld₀.trans hheld) (h P a a' hheld ha) hrest hf)
  | scope hheld₀ hundo h hrest =>
    exact .some (.mk (hheld₀.trans hheld) (h P a a' hheld ha) hrest (hf.leave hundo))
  | holding hheld₀ h hrest =>
    -- what was held for the frame is given up as it ends
    have hgive := P.givesUp_givingUp hheld
    exact .some (.mk hheld₀ (h P _ a a' hheld hgive ha) hrest (hf.holdOnly hheld))
  | attempt hheld₀ hok _ hrest =>
    exact .some (.mk (hheld₀.trans hheld) (hok P a a' hheld ha) hrest hf)
  | loop hheld₀ hpart h hrest =>
    obtain rfl : a = a' := ha
    cases a with
    | true =>
      refine .some (.mk (hheld₀.trans hheld) (.loop ?_ ?_) hrest hf)
      · exact fun P' hP => hpart P' (hheld.trans hP)
      · exact fun P' hP => h P' (hheld.trans hP)
    | false => exact .some (.mk (hheld₀.trans hheld) (h P hheld) hrest hf)

/-- The same failure goes to the frames below in step. -/
theorem alike_failure {P : Pairing L} {held : List (Handle × Handle)}
    {Q : Pairing L → α → α → Prop} {k k' : Stack γ α} {w w' : World} (told : Nat) (f : Failure)
    (hheld : held <:+ P.held) (hk : k.Alike Z held Q k') (hf : Fits P w w') :
    Option.Rel (Alike L Z) (advance told (.stop (.failure f)) k w)
      (advance told (.stop (.failure f)) k' w') := by
  cases hk with
  | top _ => exact .none
  | result hheld₀ _ hrest => exact .some (.mk (hheld₀.trans hheld) (.stop _) hrest hf)
  | scope hheld₀ hundo _ hrest =>
    exact .some (.mk (hheld₀.trans hheld) (.stop _) hrest (hf.leave hundo))
  | holding hheld₀ _ hrest => exact .some (.mk hheld₀ (.stop _) hrest (hf.holdOnly hheld))
  | attempt hheld₀ _ herror hrest =>
    exact .some (.mk (hheld₀.trans hheld) (herror P f hheld) hrest hf)
  | loop hheld₀ _ _ hrest => exact .some (.mk (hheld₀.trans hheld) (.stop _) hrest hf)

/-- Moments that are alike stay so by one step, sweeps telling the same. -/
theorem Alike.next (h : Alike L Z m m') (hl : m.Licensed L) (told : Nat) :
    Option.Rel (Alike L Z) (m.nextTold told) (m'.nextTold told) := by
  obtain @⟨α, P, held, Q, p, p', k, k', w, w', hheld, hproc, hk, hf⟩ := h
  unfold nextTold
  cases hproc with
  | done ha => exact alike_done told hheld ha hk hf
  | stop s =>
    cases s with
    | failure f => exact alike_failure told f hheld hk hf
    | trap => cases hk <;> exact .none
    | exhausted => cases hk <;> exact .none
  | ask hq h => exact .some (.mk hheld (h _ _ (hf.ask hq)) hk hf)
  | @act _ β _ c c' _ _ A _ hc h =>
    obtain ⟨P', hP, hf', hA⟩ := hf.act hc
    obtain ⟨ht, ht'⟩ := hc.tell_eq told (c.run w).1 (c'.run w').1
    simp only [advance, ht, ht']
    exact .some (.mk (hheld.trans hP.held) (h P' _ _ hP hA) hk hf')
  | sweep h =>
    exact .some (.mk (P := hf.keeping) hheld (h hf.keeping told List.suffix_rfl) hk hf.sweep)
  | @task _ β _ t t' _ _ _ ht h =>
    have hstart : ∃ P' : Pairing L, P'.held = P.held ∧ Fits P' w w' ∧ t.Licensed P' := by
      cases t with
      | step s args =>
        obtain ⟨hL, hkept⟩ := hl s rfl
        exact hf.licensed hL hkept
      | _ => exact ⟨P, rfl, hf, trivial⟩
    obtain ⟨P', hP, hf', hlicensed⟩ := hstart
    have ht' : t.Alike P'.Held t' := by
      unfold Pairing.Held
      rwa [hP]
    exact .some (.mk (hP ▸ List.suffix_rfl) (Task.body_alike ht' hlicensed)
      (.result hheld h hk) hf')
  | inside hs hpart h =>
    rcases hf.enter hs with ⟨f, he, he'⟩ | ⟨u, w₁, w₁', hu, he, he', hf'⟩
    · simp only [advance, he, he']
      exact .some (.mk hheld (.stop _) hk hf)
    · simp only [advance, he, he']
      exact .some (.mk List.suffix_rfl hpart (.scope hheld hu h hk) hf')
  | holding hpart h =>
    simp only [advance, Scope.enter, hf.held, hf.held']
    exact .some (.mk List.suffix_rfl hpart (.holding hheld h hk) hf)
  | attempt hpart hok herror =>
    exact .some (.mk List.suffix_rfl hpart (.attempt hheld hok herror hk) hf)
  | loop hpart h =>
    exact .some (.mk List.suffix_rfl (hpart P List.suffix_rfl) (.loop hheld hpart h hk) hf)

/-! ### Sweeps in between -/

/-- At a safepoint, nothing is relied on but handles that are held. -/
theorem alike_safepoint {P P' : Pairing L} {held : List (Handle × Handle)}
    {Q : Pairing L → α → α → Prop} {p p' : Proc α} {k k' : Stack γ α} {w' w₁ w₁' : World}
    (hs : (Moment.mk p' k' w').isSafepoint = true) (hP : P'.held = P.held)
    (hheld : held <:+ P.held) (hproc : p.Alike P p' Q) (hk : k.Alike Z held Q k')
    (hf : Fits P' w₁ w₁') : Alike L Z ⟨p, k, w₁⟩ ⟨p', k', w₁'⟩ := by
  have hheld' : held <:+ P'.held := hP ▸ hheld
  have hHeld : P'.Held = P.Held := by
    unfold Pairing.Held
    rw [hP]
  cases hproc with
  | task ht h => exact .mk hheld' (.task (hHeld ▸ ht) (hP ▸ h)) hk hf
  | done ha =>
    cases hk with
    | result hheld₀ h hrest => exact .mk hheld' (.done (hHeld ▸ ha)) (.result hheld₀ h hrest) hf
    | _ => cases hs
  | stop s => exact .mk hheld' (.stop s) hk hf
  | _ => cases hs

/-- Moments that are alike stay so by sweeps of both. -/
theorem Alike.swept (h : Alike L Z m m') (hs : m'.isSafepoint = true) :
    Alike L Z m.swept m'.swept := by
  obtain @⟨_, P, _, _, _, _, _, _, _, _, hheld, hproc, hk, hf⟩ := h
  exact alike_safepoint (P := P) hs (rfl : hf.keeping.held = P.held) hheld hproc hk hf.sweep

/-- If nothing looks at numbers, they stay so by a sweep of one of them. -/
theorem Alike.sweptRight (h : Alike .blind Z m m') (hs : m'.isSafepoint = true) :
    Alike .blind Z m m'.swept := by
  obtain @⟨_, P, _, _, _, _, _, _, _, _, hheld, hproc, hk, hf⟩ := h
  exact alike_safepoint (P := P) hs (rfl : hf.keeping.held = P.held) hheld hproc hk (hf.sweepRight rfl)

/-! ### Runs -/

/-- Where the two runs are one, what two runs keep to is an invariant. -/
theorem Alike.reaches_self {m₁ : Moment γ} (h : Alike L Z m m)
    (hr : Reaches (Licensed L) m m₁) : Alike L Z m₁ m₁ := by
  induction hr with
  | refl => exact h
  | @tail m₂ _ _ hgo ih =>
    obtain ⟨hl, hgo⟩ := hgo
    cases hgo with
    | next hnext =>
      have hrel := ih.next hl m₂.world.sweep.1
      rw [show m₂.nextTold _ = some _ from hnext] at hrel
      cases hrel with
      | some h => exact h
    | sweep hs => exact ih.swept hs

/-- If nothing looks at numbers, a run without sweeps in between follows a run
with them, if its own sweeps tell the same. -/
theorem Alike.reaches {ok : Moment γ → Prop} {m₁' : Moment γ} (h : Alike .blind Z m m')
    (hl : ∀ m₁, PassesTold m m₁ → m₁.Licensed .blind) (hr : Reaches ok m' m₁') :
    ∃ m₁, PassesTold m m₁ ∧ Alike .blind Z m₁ m₁' := by
  induction hr with
  | refl => exact ⟨m, .refl, h⟩
  | @tail m₂' _ _ hgo ih =>
    obtain ⟨m₂, hm₂, h₂⟩ := ih
    cases hgo.2 with
    | next hnext =>
      have hrel := h₂.next (hl m₂ hm₂) m₂'.world.sweep.1
      rw [show m₂'.nextTold _ = some _ from hnext] at hrel
      generalize hm₁ : m₂.nextTold _ = m₁ at hrel
      cases hrel with
      | some h => exact ⟨_, hm₂.tail ⟨_, hm₁⟩, h⟩
    | sweep hs => exact ⟨m₂, hm₂, h₂.sweptRight hs⟩

/-! ### Ends -/

/-- Runs in step end together, with results that are related. -/
theorem Alike.ending (h : Alike L Z m m') :
    Option.Rel (ResultAlike Z) m.ending? m'.ending? := by
  obtain ⟨-, hproc, hk, -⟩ := h
  cases hproc with
  | done ha =>
    cases hk with
    | top h => exact .some (.inl ⟨_, _, rfl, rfl, h _ _ _ ha⟩)
    | _ => exact .none
  | stop s =>
    cases s with
    | failure f =>
      cases hk with
      | top _ => exact .some (.inr ⟨_, rfl, rfl⟩)
      | _ => exact .none
    | trap => exact .some (.inr ⟨_, rfl, rfl⟩)
    | exhausted => exact .some (.inr ⟨_, rfl, rfl⟩)
  | _ => exact .none

end Moment

/-! ### Starts -/

/-- What is relied on at the start: nothing. -/
def Pairing.nothing (L : License) : Pairing L where
  held := []
  known := ⟨fun _ _ => False, nofun, nofun⟩
  loose _ _ := False
  stands _ _ := False
  named _ _ := False
  loose_of_held := nofun
  known_of_loose := nofun
  serial_eq := nofun
  loose_inj := nofun

namespace Interpreter

/-- The same objects are kept under the same numbers, and the same batches have been released. -/
structure KeepsSame (i j : Interpreter) : Prop where
  retained : j.retained = i.retained
  identities : j.identities = i.identities
  lastId : j.lastId = i.lastId
  batches : j.batches = i.batches

theorem keepsSame_intern (i : Interpreter) (name : String) : i.KeepsSame (i.intern name).2 := by
  unfold intern
  split
  · exact ⟨rfl, rfl, rfl, rfl⟩
  · split <;> exact ⟨rfl, rfl, rfl, rfl⟩

theorem keepsSame_define (i : Interpreter) (b : Builtin) : i.KeepsSame (i.define b) := by
  obtain ⟨hr, hi, hl, hb⟩ :=
    keepsSame_intern { i with heap := (i.heap.allocate (.builtin b)).2 } b.name
  unfold define
  dsimp only
  split <;> rename_i heq <;> rw [heq] at hr hi hl hb <;> exact ⟨hr, hi, hl, hb⟩

/-- At the start, the host keeps nothing, and has released nothing. -/
theorem retained_initial : initial.retained = [] ∧ initial.identities = [] ∧
    initial.lastId = 0 ∧ initial.batches = [] := by
  have h : ∀ (bs : List Builtin) (i : Interpreter), i.KeepsSame (bs.foldl define i) := by
    intro bs
    induction bs with
    | nil => exact fun i => ⟨rfl, rfl, rfl, rfl⟩
    | cons b bs ih =>
      intro i
      obtain ⟨hr, hi, hl, hb⟩ := keepsSame_define i b
      obtain ⟨hr', hi', hl', hb'⟩ := ih (i.define b)
      exact ⟨hr'.trans hr, hi'.trans hi, hl'.trans hl, hb'.trans hb⟩
  obtain ⟨hr, hi, hl, hb⟩ := h Builtin.all _
  exact ⟨hr, hi, hl, hb⟩

end Interpreter

/-- The first interpreter retains nothing. -/
theorem Interpreter.sound_initial : initial.Sound := by
  obtain ⟨hr, hi, -, -⟩ := retained_initial
  constructor
  · rw [hr]
    exact .nil
  · rw [hr]
    exact fun _ h => absurd h List.not_mem_nil
  · rw [hi]
    exact .nil
  · rw [hr, hi]
    exact fun {_ _} => ⟨nofun, nofun⟩

/-- The first border tracks nothing. -/
theorem Border.sound_initial (config : Config) : (initial config).Sound where
  ids := .nil
  serials _ h := absurd h List.not_mem_nil
  symbolKeys := .nil
  symbolSerials _ h := absurd h List.not_mem_nil
  numberKeys := .nil
  numberSerials _ h := absurd h List.not_mem_nil

/-- A world is sound if its host and its border are. -/
theorem World.sound_mk {i : Interpreter} {b : Border} (hi : i.Sound) (hb : b.Sound) (m : Memory)
    (c : Clock) : (World.mk i b m c).Sound := ⟨hi, hb⟩

/-- The first world is sound. -/
theorem World.sound_initial (config : Config) : (World.initial config).Sound :=
  World.sound_mk Interpreter.sound_initial (Border.sound_initial config) .initial .initial

/-- To define a function keeps the table of symbols in order. -/
theorem Interpreter.Interned.define {i : Interpreter} (hi : i.Interned) (b : Builtin) :
    (i.define b).Interned := by
  have hfunction : Interned { i with heap := (i.heap.allocate (.builtin b)).2 } :=
    hi.of_symbols (Heap.develops_allocate [] _ _) fun _ h => h
  have hsymbol := hfunction.intern b.name
  unfold Interpreter.define
  dsimp only
  split
  · rename_i j hj
    rw [hj] at hsymbol
    exact hsymbol.of_symbols (Heap.develops_modify fun c => by cases c <;> rfl) fun _ h => h
  · rename_i j hj
    rwa [hj] at hsymbol

/-- At the start, every name is interned to its symbol. -/
theorem Interpreter.interned_initial : initial.Interned := by
  have hfold : ∀ (bs : List Builtin) (i : Interpreter), i.Interned →
      (bs.foldl Interpreter.define i).Interned := by
    intro bs
    induction bs with
    | nil => exact fun i hi => hi
    | cons b bs ih => exact fun i hi => ih _ (hi.define b)
  refine hfold _ _ fun e he => ?_
  obtain rfl := List.mem_singleton.mp he
  exact .inr ⟨1, some (.ref 1), none, rfl, rfl⟩

/-- A world is grounded if its table of symbols is in order and all else is empty. -/
theorem World.grounded_mk {i : Interpreter} (hi : i.Interned) (config : Config) (m : Memory)
    (c : Clock) :
    Grounded (fun _ _ => False) (fun _ _ => False) (World.mk i (.initial config) m c).host
      (World.mk i (.initial config) m c).border.tracked
      (World.mk i (.initial config) m c).border.symbolCache
      (World.mk i (.initial config) m c).border.numberCache where
  interned := hi
  stands := nofun
  named := nofun
  noted _ ht := absurd ht List.not_mem_nil
  symbols _ he := absurd he List.not_mem_nil
  numbers _ he := absurd he List.not_mem_nil

/-- The first world is grounded. -/
theorem World.grounded_initial (config : Config) :
    Grounded (fun _ _ => False) (fun _ _ => False) (World.initial config).host
      (World.initial config).border.tracked (World.initial config).border.symbolCache
      (World.initial config).border.numberCache :=
  World.grounded_mk Interpreter.interned_initial config .initial .initial

/-- Two runs start in the same world. -/
theorem fits_initial (config : Config) :
    Fits (.nothing L) (.initial config) (.initial config) where
  same _ := rfl
  left := World.sound_initial config
  right := World.sound_initial config
  shared := rfl
  held := rfl
  held' := rfl
  assigned := .nil
  proxies := ⟨.nil, rfl, rfl⟩
  log := .nil
  tracks := nofun
  tracks' := nofun
  names := nofun
  symbols _ := nofun
  numbers _ := nofun
  known _ := nofun
  grounded := World.grounded_initial config

/-- The start of a session. -/
def Transcript.start (config : Config) (steps : List Step) :
    Moment (List (Except Failure Answer × List Answer)) :=
  ⟨steps.mapM topStep, .top, .initial config⟩

/-- The start of a session, with the first world written out. -/
theorem Transcript.start_eq (config : Config) (steps : List Step) :
    start config steps = ⟨steps.mapM topStep, .top, .atStart config⟩ := by
  rw [start, World.initial_eq]

/-- Sessions start alike. -/
theorem Transcript.start_alike (config : Config) (steps : List Step) :
    (start config steps).Alike L (List.Forall₂ (ReportAlike (Answer.Alike L)))
      (start config steps) :=
  .mk (P := .nothing L) List.suffix_rfl (session_alike steps) (.top fun _ _ _ h => h)
    (fits_initial config)

end Crossing
