import Crossing.Proofs.TwoRuns.Steps
import Crossing.Proofs.Development

/-!
# Worlds of two runs

The worlds of two runs share the heap, everything that is registered by keys, and
the clock. They differ in the numbers of kept objects, and in what is tracked and
remembered that no handle keeps alive.

- `World.shared` is what two runs share;
- `Fits P w w'`: the worlds agree, and what `P` says they rely on is so;
- `Fits.roots`: the live handles of the two correspond one by one;
- `Fits.ask` and `Fits.act`: at every moment two runs get corresponding answers,
  and go on to worlds that agree;
- `Fits.tidied`: sweeps, in one of the runs or in both, leave worlds that agree.
-/

namespace Crossing

variable {L : License} {P P' : Pairing L} {α : Type} {w w' w₁ w₁' : World} {h h' : Handle}

/-! ### What two runs share -/

/-- The interpreter without the tables of kept objects. -/
def Interpreter.unnumbered (i : Interpreter) : Interpreter :=
  { i with retained := [], identities := [], lastId := 0, batches := [] }

/-- The part of a world that two runs share. -/
structure Shared where
  host : Interpreter
  config : Config
  lastSerial : Nat
  callbacks : Registry Callable
  /-- The callbacks in progress. -/
  pending : List Key
  outbound : Nat
  evaluating : Bool
  evaluator : Option (List Step)
  lastFunction : Nat
  clock : Clock

namespace World

/-- What two runs have in common whatever numbers they use. -/
def shared (w : World) : Shared where
  host := w.host.unnumbered
  config := w.border.config
  lastSerial := w.border.lastSerial
  callbacks := w.border.callbacks
  pending := w.border.pending.map PendingCall.callback
  outbound := w.border.outbound
  evaluating := w.border.evaluating
  evaluator := w.border.evaluator
  lastFunction := w.script.lastFunction
  clock := w.clock

/-- The rest is the same in both worlds. -/
structure SameRest (w w₁ : World) : Prop where
  retained : w₁.host.retained = w.host.retained
  identities : w₁.host.identities = w.host.identities
  lastId : w₁.host.lastId = w.host.lastId
  tracked : w₁.border.tracked = w.border.tracked
  lastSerial : w₁.border.lastSerial = w.border.lastSerial
  symbolCache : w₁.border.symbolCache = w.border.symbolCache
  numberCache : w₁.border.numberCache = w.border.numberCache
  proxies : w₁.border.proxies = w.border.proxies
  held : w₁.script.held = w.script.held
  assigned : w₁.script.assigned = w.script.assigned
  log : w₁.script.log = w.script.log

/-- A world is sound if all but the current buffer and the open calls is that of one. -/
theorem Sound.of_rest (hw : w.Sound) (hr : w.SameRest w₁) : w₁.Sound := by
  obtain ⟨⟨ids, ids_le, addresses, known⟩, ⟨tids, serials, sk, ss, nk, ns⟩⟩ := hw
  obtain ⟨h₁, h₂, h₃, h₄, h₅, h₆, h₇, -, -, -, -⟩ := hr
  constructor
  · constructor
    · rwa [h₁]
    · rwa [h₁, h₃]
    · rwa [h₂]
    · rwa [h₁, h₂]
  · constructor
    · rwa [h₄]
    · rwa [h₄, h₅]
    · rwa [h₆]
    · rwa [h₆, h₅]
    · rwa [h₇]
    · rwa [h₇, h₅]

/-- Worlds with the same rest have the same live handles. -/
theorem roots_of_rest (hr : w.SameRest w₁) : w₁.roots = w.roots := by
  rw [roots, roots, hr.held, hr.assigned, hr.proxies]

end World

/-! ### Worlds that agree -/

/-- Places of registries with values that are alike. -/
def Slot.Alike (R : Handle → Handle → Prop) (s s' : Slot Value) : Prop :=
  s.generation = s'.generation ∧ Option.Rel (Value.Alike R) s.value s'.value

theorem Slot.Alike.mono {R S : Handle → Handle → Prop} {s s' : Slot Value} (h : s.Alike R s')
    (hRS : ∀ h h', R h h' → S h h') : s.Alike S s' := by
  obtain ⟨g, v⟩ := s
  obtain ⟨g', v'⟩ := s'
  refine ⟨h.1, ?_⟩
  cases h.2 with
  | none => exact .none
  | some hv => exact .some (hv.mono hRS)

/-- Registries of values that are alike. -/
structure Registry.Alike (R : Handle → Handle → Prop) (r r' : Registry Value) : Prop where
  slots : List.Forall₂ (Slot.Alike R) r.slots r'.slots
  free : r.free = r'.free
  count : r.count = r'.count

/-- The host keeps under a number what is as `S` says, or nothing; so it will. -/
def Interpreter.Promises (i : Interpreter) (id : ObjectId) (S : Obj → Prop) : Prop :=
  id.val ≤ i.lastId ∧ ∀ o, i.resolve? id = some o → S o

/-- What a number promises it promises later, in weaker words. -/
theorem Interpreter.Promises.of_ages {i j : Interpreter} {id : ObjectId} {S T : Obj → Prop}
    (h : i.Promises id S) (ha : i.Ages j) (hST : ∀ o, S o → T o) : j.Promises id T :=
  ⟨Nat.le_trans h.1 ha.lastId_le, fun o ho => hST o (h.2 o (ha.resolve? h.1 ho))⟩

/-- What two runs rely on of the host, and what the border remembers of it, is so. -/
structure Grounded (stands : ObjectId → Obj → Prop) (named : Obj → String → Prop)
    (i : Interpreter) (tracked : List Tracked) (symbols : List ((SymbolKind × String) × Handle))
    (numbers : List (NumberKey × Handle)) : Prop where
  interned : i.Interned
  stands : ∀ {id o}, stands id o → i.Promises id fun o' => o' = o
  named : ∀ {o name}, named o name → i.heap.Names o name
  /-- A noted name is the name of what its handle is for. -/
  noted : ∀ t ∈ tracked, ∀ name, t.name = some name →
    i.Promises t.id fun o => i.heap.Names o name
  /-- A remembered name is the name of what its handle is for. -/
  symbols : ∀ e ∈ symbols, i.Promises e.2.id fun o => i.heap.Names o e.1.2
  /-- A remembered number is the one that its handle is for. -/
  numbers : ∀ e ∈ numbers, i.Promises e.2.id e.1.Crosses

/-- What is so, stays so. -/
theorem Grounded.of_precedes {stands : ObjectId → Obj → Prop} {named : Obj → String → Prop}
    {i j : Interpreter} {tracked tracked' : List Tracked}
    {symbols symbols' : List ((SymbolKind × String) × Handle)}
    {numbers numbers' : List (NumberKey × Handle)}
    (hg : Grounded stands named i tracked symbols numbers) (hp : i.Precedes j)
    (htracked : ∀ t ∈ tracked', t ∈ tracked) (hsymbols : ∀ e ∈ symbols', e ∈ symbols)
    (hnumbers : ∀ e ∈ numbers', e ∈ numbers) :
    Grounded stands named j tracked' symbols' numbers' where
  interned := hp.interned hg.interned
  stands h := (hg.stands h).of_ages hp.ages fun _ h => h
  named h := (hg.named h).of_develops hp.heap
  noted t ht name hname := (hg.noted t (htracked t ht) name hname).of_ages hp.ages
    fun _ h => h.of_develops hp.heap
  symbols e he := (hg.symbols e (hsymbols e he)).of_ages hp.ages fun _ h => h.of_develops hp.heap
  numbers e he := (hg.numbers e (hnumbers e he)).of_ages hp.ages fun _ h => h

/-- Worlds that agree, in which what `P` says that the runs rely on is so. Every
live handle is among the loose ones. -/
structure Fits (P : Pairing L) (w w' : World) : Prop where
  same : L.IsExact → w' = w
  left : w.Sound
  right : w'.Sound
  shared : w.shared = w'.shared
  held : w.script.held = P.held.map Prod.fst
  held' : w'.script.held = P.held.map Prod.snd
  assigned : List.Forall₂ (FieldAlike P.loose) w.script.assigned w'.script.assigned
  proxies : w.border.proxies.Alike P.loose w'.border.proxies
  log : List.Forall₂ (Answer.Alike L) w.script.log w'.script.log
  tracks : ∀ {h h'}, P.loose h h' → w.border.Tracks h
  tracks' : ∀ {h h'}, P.loose h h' → w'.border.Tracks h'
  names : ∀ {h h'}, P.loose h h' → w.border.nameOf? h = w'.border.nameOf? h'
  symbols : ∀ {h h'} k, P.loose h h' →
    ((k, h) ∈ w.border.symbolCache ↔ (k, h') ∈ w'.border.symbolCache)
  numbers : ∀ {h h'} k, P.loose h h' →
    ((k, h) ∈ w.border.numberCache ↔ (k, h') ∈ w'.border.numberCache)
  known : L ≠ .free → ∀ {i i'}, P.known.rel i i' →
    ∃ o, w.host.resolve? i = some o ∧ w'.host.resolve? i' = some o
  grounded : Grounded P.stands P.named w.host w.border.tracked w.border.symbolCache
    w.border.numberCache

namespace Fits

/-- Worlds that differ only in what the runs share. -/
theorem of_rest (hf : Fits P w w') (hr : w.SameRest w₁) (hr' : w'.SameRest w₁')
    (hp : w.host.Precedes w₁.host) (hshared : w₁.shared = w₁'.shared)
    (hsame : L.IsExact → w₁' = w₁) : Fits P w₁ w₁' where
  same := hsame
  left := hf.left.of_rest hr
  right := hf.right.of_rest hr'
  shared := hshared
  held := by rw [hr.held, hf.held]
  held' := by rw [hr'.held, hf.held']
  assigned := by rw [hr.assigned, hr'.assigned]; exact hf.assigned
  proxies := by rw [hr.proxies, hr'.proxies]; exact hf.proxies
  log := by rw [hr.log, hr'.log]; exact hf.log
  tracks hh := by
    rw [Border.Tracks, hr.tracked]
    exact hf.tracks hh
  tracks' hh := by
    rw [Border.Tracks, hr'.tracked]
    exact hf.tracks' hh
  names hh := by
    have := hf.names hh
    unfold Border.nameOf? Border.record? at this ⊢
    rw [hr.tracked, hr'.tracked, this]
  symbols k hh := by rw [hr.symbolCache, hr'.symbolCache]; exact hf.symbols k hh
  numbers k hh := by rw [hr.numberCache, hr'.numberCache]; exact hf.numbers k hh
  known hL _ _ hi := by
    have := hf.known hL hi
    unfold Interpreter.resolve? at this ⊢
    rwa [hr.retained, hr'.retained]
  grounded := hf.grounded.of_precedes hp (fun t ht => hr.tracked ▸ ht)
    (fun e he => hr.symbolCache ▸ he) fun e he => hr.numberCache ▸ he

/-! ### Live handles -/

/-- Pairs from a relation, taken apart, are related lists. -/
theorem forall₂_map_pairs {R : Handle → Handle → Prop} {l : List (Handle × Handle)}
    (h : ∀ p ∈ l, R p.1 p.2) : List.Forall₂ R (l.map Prod.fst) (l.map Prod.snd) := by
  induction l with
  | nil => exact .nil
  | cons p l ih =>
    exact .cons (h p List.mem_cons_self) (ih fun q hq => h q (List.mem_cons_of_mem _ hq))

/-- The handles in alike slots are related in order. -/
theorem forall₂_values {R : Handle → Handle → Prop} {slots slots' : List (Slot Value)}
    (h : List.Forall₂ (Slot.Alike R) slots slots') :
    List.Forall₂ R ((slots.filterMap Slot.value).flatMap Value.handles)
      ((slots'.filterMap Slot.value).flatMap Value.handles) := by
  induction h with
  | nil => exact .nil
  | @cons s s' _ _ hs _ ih =>
    obtain ⟨g, v⟩ := s
    obtain ⟨g', v'⟩ := s'
    cases hs.2 with
    | some hv => exact List.rel_append hv.handles ih
    | none => exact ih

/-- The live handles of two runs correspond one by one. -/
theorem roots (hf : Fits P w w') : List.Forall₂ P.loose w.roots w'.roots := by
  refine List.rel_append (List.rel_append ?_ ?_) (forall₂_values hf.proxies.slots)
  · rw [hf.held, hf.held']
    exact forall₂_map_pairs fun p hp => P.loose_of_held hp
  · exact List.rel_flatMap hf.assigned fun _ _ hv => hv.2.handles

/-- What is in a list is related to something in the other. -/
theorem exists_of_mem {R : Handle → Handle → Prop} {hs hs' : List Handle}
    (h : List.Forall₂ R hs hs') {a : Handle} (ha : a ∈ hs) : ∃ a' ∈ hs', R a a' := by
  induction h with
  | nil => cases ha
  | cons hR _ ih =>
    rcases List.mem_cons.mp ha with rfl | ha
    · exact ⟨_, List.mem_cons_self, hR⟩
    · obtain ⟨a', ha', hR'⟩ := ih ha
      exact ⟨a', List.mem_cons_of_mem _ ha', hR'⟩

/-- A root of the first run is in step with one of the second. -/
theorem exists_root (hf : Fits P w w') (hh : h ∈ w.roots) : ∃ h' ∈ w'.roots, P.loose h h' :=
  exists_of_mem hf.roots hh

/-- A root of the second run is in step with one of the first. -/
theorem exists_root' (hf : Fits P w w') (hh : h' ∈ w'.roots) : ∃ h ∈ w.roots, P.loose h h' :=
  exists_of_mem hf.roots.flip hh

end Fits

/-! ### Queries and changes of what is shared -/

/-- A change of what is shared leaves the rest as it is. -/
theorem Change.sameRest_run {c : Change α} (hc : c.isShared = true) (w : World) :
    w.SameRest (c.run w).2 := by
  -- a change of what two runs share leaves all numbers alone
  cases c with
  | intern name =>
    simp only [run, World.onHost, Interpreter.intern]
    split
    · constructor <;> rfl
    · split <;> constructor <;> rfl
  | ensureBuffer name =>
    simp only [run, World.onHost, Interpreter.ensureBuffer]
    split <;> constructor <;> rfl
  | register c =>
    simp only [run]
    split <;> constructor <;> rfl
  | make _ | unintern _ | setHead _ _ | setValue _ _ | setFunction _ _ | setItem _ _ _
  | putEntry _ _ _ | killBuffer _ | selectBuffer _ | appendText _ _ | temporaryName
  | clearCallback _ | setEvaluator _ | newIdentity | startSweeper | advance _ =>
    constructor <;> rfl
  | _ => exact absurd hc Bool.false_ne_true

/-- A change of what is shared does the same to both worlds. -/
theorem Change.shared_run {c : Change α} (hc : c.isShared = true) (h : w.shared = w'.shared) :
    (c.run w).1 = (c.run w').1 ∧ (c.run w).2.shared = (c.run w').2.shared := by
  obtain ⟨⟨heap, symbols, current, temporaries, depth, retained, identities, lastId, batches⟩,
    ⟨config, tracked, lastSerial, symbolCache, numberCache, callbacks, proxies, pending, outbound,
      evaluating, evaluator, released⟩, ⟨held, assigned, log, lastFunction⟩, clock⟩ := w
  obtain ⟨⟨heap', symbols', current', temporaries', depth', retained', identities', lastId', batches'⟩,
    ⟨config', tracked', lastSerial', symbolCache', numberCache', callbacks', proxies', pending',
      outbound', evaluating', evaluator', released'⟩, ⟨held', assigned', log', lastFunction'⟩,
      clock'⟩ := w'
  simp only [World.shared, Interpreter.unnumbered, Shared.mk.injEq, Interpreter.mk.injEq,
    and_true] at h
  obtain ⟨⟨rfl, rfl, rfl, rfl, rfl⟩, rfl, rfl, rfl, hpending, rfl, rfl, rfl, rfl, rfl⟩ := h
  -- a change of what two runs share gives both the same
  cases c with
  | intern name =>
    simp only [run, World.onHost, Interpreter.intern, Interpreter.find?]
    split
    · exact ⟨rfl, by simp only [World.shared, Interpreter.unnumbered, hpending]⟩
    · split <;> exact ⟨rfl, by simp only [World.shared, Interpreter.unnumbered, hpending]⟩
  | ensureBuffer name =>
    simp only [run, World.onHost, Interpreter.ensureBuffer, Interpreter.openBuffer]
    split <;> exact ⟨rfl, by simp only [World.shared, Interpreter.unnumbered, hpending]⟩
  | register c =>
    simp only [run]
    split <;> exact ⟨rfl, by simp only [World.shared, Interpreter.unnumbered, hpending]⟩
  | make _ | unintern _ | setHead _ _ | setValue _ _ | setFunction _ _ | setItem _ _ _
  | putEntry _ _ _ | killBuffer _ | selectBuffer _ | appendText _ _ | temporaryName
  | clearCallback _ | setEvaluator _ | newIdentity | startSweeper | advance _ =>
    exact ⟨rfl, congrArg (Shared.mk _ _ _ _ · _ _ _ _ _) hpending⟩
  | _ => exact absurd hc Bool.false_ne_true

namespace Fits

/-- Two runs get corresponding answers. -/
theorem ask {q q' : Query α} {A : α → α → Prop} (hf : Fits P w w') (hq : q.Alike P q' A) :
    A (q.ask w) (q'.ask w') := by
  cases hq with
  -- what is asked is about what the runs share, or about numbers that are in step
  | shared hq =>
    cases q with
    | heap => exact congrArg (fun s => s.host.heap) hf.shared
    | symbol? name => exact congrArg (fun s => s.host.find? name) hf.shared
    | currentBuffer => exact congrArg (fun s => s.host.current) hf.shared
    | config => exact congrArg (fun s => s.config) hf.shared
    | callback? key => exact congrArg (fun s => s.callbacks.get? key) hf.shared
    | evaluator => exact congrArg (fun s => s.evaluator) hf.shared
    | _ => exact absurd hq Bool.false_ne_true
  | resolve hi =>
    -- a number resolves in step if it is known in step
    by_cases hL : L = .free
    · have hexact : L.IsExact := hL ▸ License.noConfusion
      rw [hf.same hexact, P.known.eq_of_exact hexact hi]
      exact ⟨rfl, fun _ => rfl⟩
    · obtain ⟨o, ho, ho'⟩ := hf.known hL hi
      rw [Query.ask, Query.ask, ho, ho']
      exact ⟨rfl, nofun⟩
  | nameOf hh => exact hf.names (P.loose_held hh)
  | stats => exact fun hL => by rw [hf.same hL]
  | exact hL q => rw [hf.same hL]

/-- A change to what both runs share does the same in both. -/
theorem act_shared {c : Change α} (hf : Fits P w w') (hc : c.isShared = true) :
    Fits P (c.run w).2 (c.run w').2 ∧ (c.run w).1 = (c.run w').1 := by
  obtain ⟨hresult, hshared⟩ := Change.shared_run hc hf.shared
  exact ⟨hf.of_rest (Change.sameRest_run hc w) (Change.sameRest_run hc w')
    (Change.precedes_run c hf.left) hshared fun hL => by rw [hf.same hL], hresult⟩

/-- Both hosts intern a name to the same object, which the name then stands for. -/
theorem intern (hf : Fits P w w') (name : String) :
    ∃ P' : Pairing L, P.Grows P' ∧
      Fits P' ((Change.intern name).run w).2 ((Change.intern name).run w').2 ∧
      ((Change.intern name).run w).1 = ((Change.intern name).run w').1 ∧
      P'.named ((Change.intern name).run w).1 name := by
  obtain ⟨hfits, hresult⟩ := hf.act_shared (c := .intern name) rfl
  let P' : Pairing L := { P with
    named := fun o n => P.named o n ∨ o = ((Change.intern name).run w).1 ∧ n = name }
  refine ⟨P', ⟨List.suffix_rfl, fun _ _ h => h, fun _ _ h => h, fun _ _ => .inl⟩, ?_, hresult,
    .inr ⟨rfl, rfl⟩⟩
  exact {
    hfits with
    grounded := { hfits.grounded with
      named := by
        rintro o n (hn | ⟨rfl, rfl⟩)
        · exact hfits.grounded.named hn
        · exact Interpreter.names_intern hf.grounded.interned n } }

/-! ### Keeping objects -/

/-- Once both hosts keep an object, its numbers are known. -/
theorem retain (hf : Fits P w w') (o : Obj) :
    ∃ P' : Pairing L, P.Grows P' ∧
      Fits P' ((Change.retain o).run w).2 ((Change.retain o).run w').2 ∧
      P'.known.rel (w.host.retain o).1 (w'.host.retain o).1 ∧
      P'.stands (w.host.retain o).1 o := by
  have hl := hf.left.host
  have hr := hf.right.host
  have heq : L.IsExact → (w.host.retain o).1 = (w'.host.retain o).1 := fun hL => by rw [hf.same hL]
  have hiff : ∀ {j j'}, P.known.rel j j' →
      (j = (w.host.retain o).1 ↔ j' = (w'.host.retain o).1) := by
    intro j j' hj
    -- under an exact license the numbers are the same, and otherwise both are promised the object
    by_cases hL : L.IsExact
    · rw [P.known.eq_of_exact hL hj, heq hL]
    · obtain ⟨x, hx, hx'⟩ := hf.known (fun h => hL (h ▸ License.noConfusion)) hj
      constructor
      · rintro rfl
        have ho := Interpreter.isHeap_of_resolve?_retain hl hx
        rw [Interpreter.eq_of_resolve?_retain hl hx] at hx'
        rw [Interpreter.retain_of_resolve? hr ho hx']
      · rintro rfl
        have ho := Interpreter.isHeap_of_resolve?_retain hr hx'
        rw [Interpreter.eq_of_resolve?_retain hr hx'] at hx
        rw [Interpreter.retain_of_resolve? hl ho hx]
  let known : Renaming L := {
    rel := fun j j' => P.known.rel j j' ∨ j = (w.host.retain o).1 ∧ j' = (w'.host.retain o).1
    inj := by
      rintro j j' k k' (hj | ⟨rfl, rfl⟩) (hk | ⟨rfl, rfl⟩)
      · exact P.known.inj hj hk
      · exact hiff hj
      · rw [eq_comm, hiff hk, eq_comm]
      · exact ⟨fun _ => rfl, fun _ => rfl⟩
    eq_of_exact := by
      rintro j j' hL (hj | ⟨rfl, rfl⟩)
      · exact P.known.eq_of_exact hL hj
      · exact heq hL }
  let P' : Pairing L := { P with
    known
    stands := fun id x => P.stands id x ∨ id = (w.host.retain o).1 ∧ x = o
    known_of_loose := fun hh => .inl (P.known_of_loose hh) }
  have hkept := Interpreter.resolve?_retain_self hl o
  have hgrounded := hf.grounded.of_precedes (Change.precedes_run (.retain o) hf.left)
    (fun _ h => h) (fun _ h => h) fun _ h => h
  refine ⟨P', ⟨List.suffix_rfl, fun _ _ => .inl, fun _ _ => .inl, fun _ _ h => h⟩, ?_,
    .inr ⟨rfl, rfl⟩, .inr ⟨rfl, rfl⟩⟩
  exact {
    hf with
    same := fun hL => by rw [hf.same hL]
    left := ⟨hl.retain o, hf.left.border⟩
    right := ⟨hr.retain o, hf.right.border⟩
    shared := by
      have : ∀ w : World, ((Change.retain o).run w).2.shared = w.shared := fun w => by
        simp only [Change.run, World.onHost, World.shared, Interpreter.retain]
        split <;> rfl
      rw [this, this, hf.shared]
    known := by
      rintro hL j j' (hj | ⟨rfl, rfl⟩)
      · obtain ⟨x, hx, hx'⟩ := hf.known hL hj
        exact ⟨x, Interpreter.resolve?_retain hl o hx, Interpreter.resolve?_retain hr o hx'⟩
      · exact ⟨o, hkept, Interpreter.resolve?_retain_self hr o⟩
    grounded := { hgrounded with
      stands := by
        rintro id x (hx | ⟨rfl, rfl⟩)
        · exact hgrounded.stands hx
        · refine ⟨Interpreter.le_of_resolve? (hl.retain x) hkept, fun y hy => ?_⟩
          exact Option.some.inj (hy.symm.trans hkept) } }

/-- The host may release anything if nothing relies on it. -/
theorem release (hf : Fits P w w') (hL : L = .free) (ids : List ObjectId) :
    Fits P ((Change.release ids).run w).2 ((Change.release ids).run w').2 :=
  { hf with
    same := fun hL => by rw [hf.same hL]
    left := ⟨hf.left.host.release ids, hf.left.border⟩
    right := ⟨hf.right.host.release ids, hf.right.border⟩
    shared := hf.shared
    known := fun hfree => absurd hL hfree
    grounded := hf.grounded.of_precedes (Change.precedes_run (.release ids) hf.left)
      (fun _ h => h) (fun _ h => h) fun _ h => h }

/-! ### Holding handles -/

/-- Handles of tracked objects may be held. -/
theorem hold (hf : Fits P w w') {hs hs' : List Handle} (hhs : List.Forall₂ P.loose hs hs') :
    ∃ P' : Pairing L, P.Grows P' ∧ Fits P' (w.hold hs) (w'.hold hs') ∧
      List.Forall₂ P'.Held hs hs' := by
  obtain ⟨hlen, hzip⟩ := List.forall₂_iff_zip.mp hhs
  let P' : Pairing L := { P with
    held := hs.zip hs' ++ P.held
    loose_of_held := fun hh => (List.mem_append.mp hh).elim (fun h => hzip h) P.loose_of_held }
  refine ⟨P', ⟨List.suffix_append _ _, fun _ _ h => h, fun _ _ h => h, fun _ _ h => h⟩, ?_, ?_⟩
  -- what holds of both worlds does so with more held
  · exact {
      hf with
      same := fun hL => by
        have : hs' = hs := by
          refine (List.forall₂_eq_eq_eq ▸ hhs.imp fun _ _ hh => ?_ : hs = hs').symm
          exact (P.eq_of_loose hL hh).symm
        rw [hf.same hL, this]
      left := ⟨hf.left.host, hf.left.border⟩
      right := ⟨hf.right.host, hf.right.border⟩
      held := by
        change hs ++ w.script.held = (hs.zip hs' ++ P.held).map Prod.fst
        rw [List.map_append, List.map_fst_zip (Nat.le_of_eq hlen), hf.held]
      held' := by
        change hs' ++ w'.script.held = (hs.zip hs' ++ P.held).map Prod.snd
        rw [List.map_append, List.map_snd_zip (Nat.le_of_eq hlen.symm), hf.held'] }
  · refine List.forall₂_iff_zip.mpr ⟨hlen, fun hh => List.mem_append_left _ hh⟩

/-- Live handles that correspond. -/
def RootPair (w w' : World) (h h' : Handle) : Prop := h ∈ w.roots ∧ h' ∈ w'.roots

/-- Handles held in step are roots of both runs. -/
theorem rootPair_of_held (hf : Fits P w w') (hh : (h, h') ∈ P.held) : RootPair w w' h h' := by
  constructor
  · refine List.mem_append_left _ (List.mem_append_left _ ?_)
    rw [hf.held]
    exact List.mem_map_of_mem (f := Prod.fst) hh
  · refine List.mem_append_left _ (List.mem_append_left _ ?_)
    rw [hf.held']
    exact List.mem_map_of_mem (f := Prod.snd) hh

/-- Relying on live handles only. -/
def narrow (hf : Fits P w w') : Pairing L := { P with
  loose := fun h h' => P.loose h h' ∧ RootPair w w' h h'
  loose_of_held := fun hh => ⟨P.loose_of_held hh, hf.rootPair_of_held hh⟩
  known_of_loose := fun hh => P.known_of_loose hh.1
  serial_eq := fun hh => P.serial_eq hh.1
  loose_inj := fun hh hg => P.loose_inj hh.1 hg.1 }

/-- Related lists are so for a relation that holds of their members. -/
theorem forall₂_of_mem {α : Type} {R S : α → α → Prop} {as as' : List α}
    (h : List.Forall₂ R as as') (hS : ∀ {a a'}, a ∈ as → a' ∈ as' → R a a' → S a a') :
    List.Forall₂ S as as' := by
  obtain ⟨hlen, hzip⟩ := List.forall₂_iff_zip.mp h
  refine List.forall₂_iff_zip.mpr ⟨hlen, fun {a a'} ha => ?_⟩
  exact hS (List.of_mem_zip ha).1 (List.of_mem_zip ha).2 (hzip ha)

/-- The handles in an assigned value are live. -/
theorem mem_roots_of_assigned {f : String × Value} (hf : f ∈ w.script.assigned)
    (hh : h ∈ f.2.handles) : h ∈ w.roots :=
  List.mem_append_left _ (List.mem_append_right _ (List.mem_flatMap.mpr ⟨f, hf, hh⟩))

/-- The handles in a wrapped value are live. -/
theorem mem_roots_of_slot {s : Slot Value} {v : Value} (hs : s ∈ w.border.proxies.slots)
    (hv : s.value = some v) (hh : h ∈ v.handles) : h ∈ w.roots :=
  List.mem_append_right _ (List.mem_flatMap.mpr ⟨v, List.mem_filterMap.mpr ⟨s, hs, hv⟩, hh⟩)

/-- Two runs that fit do so with no more than their roots in step. -/
theorem fits_narrow (hf : Fits P w w') : Fits hf.narrow w w' where
  same := hf.same
  left := hf.left
  right := hf.right
  shared := hf.shared
  held := hf.held
  held' := hf.held'
  assigned := forall₂_of_mem hf.assigned fun hm hm' hv =>
    ⟨hv.1, hv.2.of_handles (forall₂_of_mem hv.2.handles fun hh hh' hloose =>
      ⟨hloose, mem_roots_of_assigned hm hh, mem_roots_of_assigned hm' hh'⟩)⟩
  proxies := {
    slots := forall₂_of_mem hf.proxies.slots fun {s s'} hm hm' hs => by
      obtain ⟨g, v⟩ := s
      obtain ⟨g', v'⟩ := s'
      refine ⟨hs.1, ?_⟩
      cases hs.2 with
      | none => exact .none
      | some hv =>
        exact .some (hv.of_handles (forall₂_of_mem hv.handles fun hh hh' hloose =>
          ⟨hloose, mem_roots_of_slot hm rfl hh, mem_roots_of_slot hm' rfl hh'⟩))
    free := hf.proxies.free
    count := hf.proxies.count }
  log := hf.log
  tracks hh := hf.tracks hh.1
  tracks' hh := hf.tracks' hh.1
  names hh := hf.names hh.1
  symbols k hh := hf.symbols k hh.1
  numbers k hh := hf.numbers k hh.1
  known := hf.known
  grounded := hf.grounded

/-- Relying on a new handle. -/
def adding (P : Pairing L) (h h' : Handle) (hknown : P.known.rel h.id h'.id)
    (hserial : h.serial = h'.serial) (hfresh : ∀ {g g'}, P.loose g g' → g ≠ h ∧ g' ≠ h') :
    Pairing L where
  held := (h, h') :: P.held
  known := P.known
  loose := fun g g' => P.loose g g' ∨ g = h ∧ g' = h'
  stands := P.stands
  named := P.named
  loose_of_held := by
    intro g g' hg
    rcases List.mem_cons.mp hg with heq | hg
    · exact .inr (Prod.mk.inj heq)
    · exact .inl (P.loose_of_held hg)
  known_of_loose := by
    rintro g g' (hg | ⟨rfl, rfl⟩)
    · exact P.known_of_loose hg
    · exact hknown
  serial_eq := by
    rintro g g' (hg | ⟨rfl, rfl⟩)
    · exact P.serial_eq hg
    · exact hserial
  loose_inj := by
    rintro g g' k k' (hg | ⟨rfl, rfl⟩) (hk | ⟨rfl, rfl⟩)
    · exact P.loose_inj hg hk
    · exact iff_of_false (hfresh hg).1 (hfresh hg).2
    · exact iff_of_false (hfresh hk).1.symm (hfresh hk).2.symm
    · exact ⟨fun _ => rfl, fun _ => rfl⟩

/-- An object that has no live handle gets a new one in both runs. -/
theorem makeHandle (hf : Fits P w w') {i i' : ObjectId} (hi : P.known.rel i i')
    (hnone : ∀ g ∈ w.roots, g.id ≠ i) :
    ∃ P' : Pairing L, P.Grows P' ∧ Fits P' (w.makeHandle i).2 (w'.makeHandle i').2 ∧
      P'.Held (w.makeHandle i).1 (w'.makeHandle i').1 := by
  have hserial : w.border.lastSerial = w'.border.lastSerial :=
    congrArg Shared.lastSerial hf.shared
  have hnone' : ∀ g' ∈ w'.roots, g'.id ≠ i' := by
    rintro g' hg' rfl
    obtain ⟨g, hg, hgg⟩ := hf.exists_root' hg'
    exact hnone g hg ((P.known.inj (P.known_of_loose hgg) hi).mpr rfl)
  -- the entry of a dead handle is replaced, so that only live ones can be relied on
  have hfresh : ∀ {g g'}, hf.narrow.loose g g' →
      g ≠ (w.makeHandle i).1 ∧ g' ≠ (w'.makeHandle i').1 := fun hg =>
    ⟨fun heq => hnone _ hg.2.1 (heq ▸ rfl), fun heq => hnone' _ hg.2.2 (heq ▸ rfl)⟩
  let P' := adding hf.narrow (w.makeHandle i).1 (w'.makeHandle i').1 hi
    (congrArg Nat.succ hserial) hfresh
  have hn := hf.fits_narrow
  have hmono : ∀ {v v' : Value}, v.Alike hf.narrow.loose v' → v.Alike P'.loose v' :=
    fun hv => hv.mono fun _ _ => .inl
  refine ⟨P', ⟨List.suffix_cons _ _, fun _ _ h => h, fun _ _ h => h, fun _ _ h => h⟩, ?_,
    List.mem_cons_self⟩
  have hcache : ∀ {κ : Type} {w : World} {cache : List (κ × Handle)} (k : κ) (i : ObjectId),
      (∀ e ∈ cache, e.2.serial ≤ w.border.lastSerial) → (k, (w.makeHandle i).1) ∉ cache :=
    fun k i hle hm => Nat.not_succ_le_self _ (hle _ hm)
  exact {
    same := fun hL => by rw [hf.same hL, P.known.eq_of_exact hL hi]
    left := hf.left.makeHandle i
    right := hf.right.makeHandle i'
    shared := by
      have := hf.shared
      simp only [World.shared, Shared.mk.injEq] at this
      simp only [World.shared, World.makeHandle, World.hold, this]
    held := congrArg (_ :: ·) hf.held
    held' := congrArg (_ :: ·) hf.held'
    assigned := hn.assigned.imp fun _ _ hv => ⟨hv.1, hmono hv.2⟩
    proxies := {
      slots := hn.proxies.slots.imp fun _ _ hs => hs.mono fun _ _ => .inl
      free := hn.proxies.free
      count := hn.proxies.count }
    log := hf.log
    tracks := by
      rintro g g' (⟨hg, hr, -⟩ | ⟨rfl, rfl⟩)
      · exact (World.tracks_makeHandle hf.left (hf.tracks hg) (hnone g hr)).1
      · exact World.tracks_makeHandle_self hf.left i
    tracks' := by
      rintro g g' (⟨hg, -, hr⟩ | ⟨rfl, rfl⟩)
      · exact (World.tracks_makeHandle hf.right (hf.tracks' hg) (hnone' g' hr)).1
      · exact World.tracks_makeHandle_self hf.right i'
    names := by
      rintro g g' (⟨hg, hr, hr'⟩ | ⟨rfl, rfl⟩)
      · rw [(World.tracks_makeHandle hf.left (hf.tracks hg) (hnone g hr)).2,
          (World.tracks_makeHandle hf.right (hf.tracks' hg) (hnone' g' hr')).2, hf.names hg]
      · rw [World.nameOf?_makeHandle_self hf.left, World.nameOf?_makeHandle_self hf.right]
    symbols := by
      rintro g g' k (⟨hg, -, -⟩ | ⟨rfl, rfl⟩)
      · exact hf.symbols k hg
      · exact iff_of_false (hcache k i hf.left.border.symbolSerials)
          (hcache k i' hf.right.border.symbolSerials)
    numbers := by
      rintro g g' k (⟨hg, -, -⟩ | ⟨rfl, rfl⟩)
      · exact hf.numbers k hg
      · exact iff_of_false (hcache k i hf.left.border.numberSerials)
          (hcache k i' hf.right.border.numberSerials)
    known := hf.known
    grounded := { hf.grounded with
      noted := by
        intro t ht name hname
        -- the new handle has no name
        obtain rfl | ⟨ht, -⟩ := (Border.mem_track hf.left.border.ids).mp ht
        · cases hname
        · exact hf.grounded.noted t ht name hname } }

/-- An object is taken in by handles that correspond. -/
theorem adopt (hf : Fits P w w') {i i' : ObjectId} (hi : P.known.rel i i') :
    ∃ P' : Pairing L, P.Grows P' ∧ Fits P' (w.adopt i).2 (w'.adopt i').2 ∧
      P'.Held (w.adopt i).1 (w'.adopt i').1 ∧ (w.adopt i).1.id = i := by
  -- a handle that is live is found again, and otherwise a new one is made in both
  by_cases hroot : ∃ h ∈ w.roots, h.id = i
  · obtain ⟨h, hh, rfl⟩ := hroot
    obtain ⟨h', hh', hloose⟩ := hf.exists_root hh
    obtain rfl : h'.id = i' := (P.known.inj (P.known_of_loose hloose) hi).mp rfl
    rw [World.adopt_of_mem_roots hf.left (hf.tracks hloose) hh,
      World.adopt_of_mem_roots hf.right (hf.tracks' hloose) hh']
    obtain ⟨P', hP, hfits, hheld⟩ := hf.hold (.cons hloose .nil)
    exact ⟨P', hP, hfits, (List.forall₂_cons.mp hheld).1, rfl⟩
  · have hnone : ∀ g ∈ w.roots, g.id ≠ i := fun g hg hid => hroot ⟨g, hg, hid⟩
    have hnone' : ∀ g' ∈ w'.roots, g'.id ≠ i' := by
      rintro g' hg' rfl
      obtain ⟨g, hg, hgg⟩ := hf.exists_root' hg'
      exact hnone g hg ((P.known.inj (P.known_of_loose hgg) hi).mpr rfl)
    rw [World.adopt_of_forall_ne hnone, World.adopt_of_forall_ne hnone']
    obtain ⟨P', hP, hfits, hheld⟩ := hf.makeHandle hi hnone
    exact ⟨P', hP, hfits, hheld, rfl⟩

end Fits

end Crossing
