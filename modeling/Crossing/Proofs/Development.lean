import Crossing.Proofs.Moments
import Crossing.Proofs.Tracking

/-!
# Development

What never changes as a run goes on, whatever the run does.

- `Heap.Develops`: a cell is never removed and keeps what it is: texts, closures
  and builtins stay as they are, symbols keep their names and pairs their second
  halves; pairs that are spared keep their first halves too, and vectors that are
  spared their items;
- `Interpreter.Ages`: numbers go up, and one that has been given out never comes
  to stand for another object;
- `Interpreter.Interned`: names are interned to symbols of these names;
- `Interpreter.Precedes`: all of this;
- `Change.develops_run`, `Change.precedes_run`: so it is with every change;
- `Moment.Goes.develops`, `Moment.Goes.precedes`: and so with each step of a run;
- `Moment.Reaches.find?`: what a name stands for is lost only by uninterning it.
-/

namespace Crossing

variable {α β γ : Type} {spared : List Addr}

/-! ### Cells -/

/-- The part of a cell that never changes. The first half of a pair and the items of
a vector are part of it if they are spared. -/
def Cell.fixed (isSpared : Bool) : Cell → Cell
  | .symbol name _ _ => .symbol name none none
  | .cons head tail => .cons (if isSpared then head else .nil) tail
  | .vector items => .vector (if isSpared then items else [])
  | .table _ => .table []
  | .buffer name _ _ => .buffer name "" true
  | c => c

/-! ### Heaps -/

namespace Heap

variable {h h₁ h₂ : Heap} {a : Addr} {o : Obj}

/-- The heap has gone on. Nobody has replaced the first half of a spared pair or an
item of a spared vector. -/
structure Develops (spared : List Addr) (h h₁ : Heap) : Prop where
  cell : ∀ {a c}, h.get? a = some c →
    ∃ c₁, h₁.get? a = some c₁ ∧ c₁.fixed (decide (a ∈ spared)) = c.fixed (decide (a ∈ spared))

theorem Develops.refl (spared : List Addr) (h : Heap) : h.Develops spared h :=
  ⟨fun {_ c} hc => ⟨c, hc, rfl⟩⟩

theorem Develops.trans (h₀₁ : h.Develops spared h₁) (h₁₂ : h₁.Develops spared h₂) :
    h.Develops spared h₂ := by
  refine ⟨fun {a c} hc => ?_⟩
  obtain ⟨c₁, hc₁, hfixed₁⟩ := h₀₁.cell hc
  obtain ⟨c₂, hc₂, hfixed₂⟩ := h₁₂.cell hc₁
  exact ⟨c₂, hc₂, hfixed₂.trans hfixed₁⟩

/-- Addresses in use are below the size. -/
theorem lt_size_of_get? {c : Cell} (hc : h.get? a = some c) : a < h.size :=
  (Array.getElem?_eq_some_iff.mp hc).1

/-- A new cell is one more cell. -/
theorem size_allocate (h : Heap) (c : Cell) : (h.allocate c).2.size = h.size + 1 :=
  Array.size_push _

/-- A cell after an allocation was there before, or is the new one. -/
theorem get?_allocate_cases {c d : Cell} (ha : (h.allocate c).2.get? a = some d) :
    h.get? a = some d ∨ a = h.size ∧ d = c := by
  have hlt := lt_size_of_get? ha
  rw [size_allocate] at hlt
  by_cases hold : a < h.size
  · rw [get?_allocate_of_lt c hold] at ha
    exact .inl ha
  · obtain rfl : a = h.size := Nat.le_antisymm (Nat.le_of_lt_succ hlt) (Nat.le_of_not_lt hold)
    rw [get?_allocate_self] at ha
    exact .inr ⟨rfl, (Option.some.inj ha).symm⟩

/-- A heap that keeps its cells in some form does not get smaller. -/
theorem size_le_of_get? (h₀₁ : ∀ {a c}, h.get? a = some c → ∃ c₁, h₁.get? a = some c₁) :
    h.size ≤ h₁.size := by
  by_contra hlt
  have hlast : h₁.size < h.size := Nat.lt_of_not_le hlt
  obtain ⟨c, hc⟩ : ∃ c, h.get? h₁.size = some c := ⟨_, Array.getElem?_eq_getElem hlast⟩
  obtain ⟨c₁, hc₁⟩ := h₀₁ hc
  exact absurd (lt_size_of_get? hc₁) (Nat.lt_irrefl _)

theorem develops_allocate (spared : List Addr) (h : Heap) (c : Cell) :
    h.Develops spared (h.allocate c).2 := by
  refine ⟨fun {a d} hd => ⟨d, ?_, rfl⟩⟩
  rw [get?_allocate_of_lt c (lt_size_of_get? hd), hd]

/-- Changing a cell is development if what never changes stays. -/
theorem develops_modify {f : Cell → Cell}
    (hf : ∀ c, (f c).fixed (decide (a ∈ spared)) = c.fixed (decide (a ∈ spared))) :
    h.Develops spared (h.modify a f) := by
  refine ⟨fun {b c} hc => ?_⟩
  by_cases hb : b = a
  · obtain rfl := hb
    refine ⟨f c, ?_, hf c⟩
    rw [get?_modify_self, hc]
    rfl
  · refine ⟨c, ?_, rfl⟩
    rw [get?_modify_other h f hb, hc]

theorem develops_setValue (spared : List Addr) (h : Heap) (a : Addr) (value : Option Obj) :
    h.Develops spared (h.setValue a value) :=
  develops_modify fun c => by cases c <;> rfl

theorem develops_setHead (ha : a ∉ spared) : h.Develops spared (h.setHead a o) := by
  refine develops_modify fun c => ?_
  rw [decide_eq_false ha]
  cases c <;> rfl

theorem develops_setItem {i : Nat} (ha : a ∉ spared) : h.Develops spared (h.setItem a i o) := by
  refine develops_modify fun c => ?_
  rw [decide_eq_false ha]
  cases c <;> rfl

theorem develops_openBuffer (spared : List Addr) (h : Heap) (name : String) :
    h.Develops spared (h.openBuffer name).2 :=
  ⟨(develops_allocate spared h (.buffer name "" true)).cell⟩

theorem develops_kill (spared : List Addr) (h : Heap) (a : Addr) :
    h.Develops spared (h.kill a) := by
  have hmodified : h.Develops spared (h.modify a Cell.killed) :=
    develops_modify fun c => by cases c <;> rfl
  exact ⟨hmodified.cell⟩

/-- To bind variables is to change the values of symbols. -/
theorem develops_bind (spared : List Addr) (h : Heap) (bindings : List (Addr × Obj))
    (saved : List (Addr × Option Obj)) : h.Develops spared (h.bind bindings saved).2 := by
  induction bindings generalizing h saved with
  | nil => exact .refl spared h
  | cons b bindings ih => exact (develops_setValue spared h b.1 (some b.2)).trans (ih _ _)

theorem develops_restore (spared : List Addr) (h : Heap) (saved : List (Addr × Option Obj)) :
    h.Develops spared (h.restore saved) := by
  induction saved generalizing h with
  | nil => exact .refl spared h
  | cons s saved ih => exact (develops_setValue spared h s.1 s.2).trans (ih _)

/-! ### What stays -/

/-- A closure never changes. -/
theorem Develops.closure {l : Lambda} (hd : h.Develops spared h₁)
    (hc : h.get? a = some (.closure l)) : h₁.get? a = some (.closure l) := by
  obtain ⟨c₁, hc₁, hfixed⟩ := hd.cell hc
  cases c₁ <;> cases hfixed
  exact hc₁

/-- A symbol keeps its name, though neither its value nor its function. -/
theorem Develops.symbol {name : String} {value function : Option Obj}
    (hd : h.Develops spared h₁) (hc : h.get? a = some (.symbol name value function)) :
    ∃ value function, h₁.get? a = some (.symbol name value function) := by
  obtain ⟨c₁, hc₁, hfixed⟩ := hd.cell hc
  cases c₁ <;> cases hfixed
  exact ⟨_, _, hc₁⟩

/-- A spared pair stays as it is. -/
theorem Develops.pair {head tail : Obj} (hd : h.Develops spared h₁) (ha : a ∈ spared)
    (hc : h.get? a = some (.cons head tail)) : h₁.get? a = some (.cons head tail) := by
  obtain ⟨c₁, hc₁, hfixed⟩ := hd.cell hc
  rw [decide_eq_true ha] at hfixed
  cases c₁ <;> cases hfixed
  exact hc₁

/-- A spared vector stays as it is. -/
theorem Develops.vector {items : List Obj} (hd : h.Develops spared h₁) (ha : a ∈ spared)
    (hc : h.get? a = some (.vector items)) : h₁.get? a = some (.vector items) := by
  obtain ⟨c₁, hc₁, hfixed⟩ := hd.cell hc
  rw [decide_eq_true ha] at hfixed
  cases c₁ <;> cases hfixed
  exact hc₁

/-- A text never changes. -/
theorem Develops.text {s : String} (hd : h.Develops spared h₁) (hc : h.get? a = some (.text s)) :
    h₁.get? a = some (.text s) := by
  obtain ⟨c₁, hc₁, hfixed⟩ := hd.cell hc
  cases c₁ <;> cases hfixed
  exact hc₁

theorem Develops.size_le (hd : h.Develops spared h₁) : h.size ≤ h₁.size :=
  size_le_of_get? fun hc => (hd.cell hc).imp fun _ h => h.1

/-- Less may have to be spared. -/
theorem Develops.mono {spared' : List Addr} (hd : h.Develops spared h₁)
    (hs : ∀ a ∈ spared', a ∈ spared) : h.Develops spared' h₁ := by
  refine ⟨fun {a c} hc => ?_⟩
  obtain ⟨c₁, hc₁, hfixed⟩ := hd.cell hc
  refine ⟨c₁, hc₁, ?_⟩
  by_cases ha : a ∈ spared'
  · rwa [decide_eq_true (hs a ha), ← decide_eq_true ha] at hfixed
  · rw [decide_eq_false ha]
    cases c <;> cases c₁ <;> simp_all [Cell.fixed]

/-- Whether an object is what a name stands for: `nil`, or a symbol of the name. -/
def Names (h : Heap) (o : Obj) (name : String) : Prop :=
  (name = "nil" ∧ o = .nil) ∨
    ∃ a value function, o = .ref a ∧ h.get? a = some (.symbol name value function)

/-- What names a symbol goes on naming it. -/
theorem Names.of_develops {name : String} (hn : h.Names o name) (hd : h.Develops spared h₁) :
    h₁.Names o name := by
  obtain ⟨rfl, rfl⟩ | ⟨a, value, function, rfl, ha⟩ := hn
  · exact .inl ⟨rfl, rfl⟩
  · obtain ⟨value, function, ha₁⟩ := hd.symbol ha
    exact .inr ⟨a, value, function, rfl, ha₁⟩

end Heap

/-! ### Numbers -/

/-- The host has gone on. A number that was given out before may be released, but
it does not stand for another object. -/
structure Interpreter.Ages (i j : Interpreter) : Prop where
  lastId_le : i.lastId ≤ j.lastId
  resolve? : ∀ {id o}, id.val ≤ i.lastId → j.resolve? id = some o → i.resolve? id = some o

namespace Interpreter

variable {i j k : Interpreter}

theorem Ages.refl (i : Interpreter) : i.Ages i := ⟨Nat.le_refl _, fun _ h => h⟩

theorem Ages.trans (hij : i.Ages j) (hjk : j.Ages k) : i.Ages k where
  lastId_le := Nat.le_trans hij.lastId_le hjk.lastId_le
  resolve? hid h := hij.resolve? hid (hjk.resolve? (Nat.le_trans hid hij.lastId_le) h)

theorem ages_of_eq (hr : j.retained = i.retained) (hl : j.lastId = i.lastId) : i.Ages j where
  lastId_le := Nat.le_of_eq hl.symm
  resolve? _ h := by
    unfold Interpreter.resolve? at h ⊢
    rwa [hr] at h

theorem ages_retain (hi : i.Sound) (o : Obj) : i.Ages (i.retain o).2 := by
  obtain ⟨_, -, -, h⟩ | ⟨-, h⟩ := retain_cases hi o
  · rw [h]
    exact .refl i
  · have hs := hi.retain o
    rw [h] at hs ⊢
    refine ⟨Nat.le_succ _, fun {id o'} hid ho' => ?_⟩
    rcases List.mem_cons.mp ((resolve?_iff hs).mp ho') with heq | hm
    · obtain rfl := congrArg Prod.fst heq
      exact absurd hid (Nat.not_succ_le_self _)
    · exact (resolve?_iff hi).mpr hm

theorem ages_release (hi : i.Sound) (ids : List ObjectId) : i.Ages (i.release ids) where
  lastId_le := Nat.le_refl _
  resolve? {id o} _ h := by
    by_cases hid : id ∈ ids
    · rw [resolve?_release_of_mem hi hid] at h
      cases h
    · rwa [resolve?_release hi hid] at h

/-! ### Names -/

/-- Every interned name is interned to a symbol of this name. -/
def Interned (i : Interpreter) : Prop := ∀ e ∈ i.symbols, i.heap.Names (.ref e.2) e.1

/-- The symbols of the table stay as they are while none goes in. -/
theorem Interned.of_symbols (hi : i.Interned) (hd : i.heap.Develops [] j.heap)
    (hs : ∀ e ∈ j.symbols, e ∈ i.symbols) : j.Interned :=
  fun e he => (hi e (hs e he)).of_develops hd

/-- A symbol that is found is in the table. -/
theorem mem_symbols_of_find? {name : String} {a : Addr} (h : i.find? name = some a) :
    (name, a) ∈ i.symbols := by
  obtain ⟨⟨n, b⟩, hfind, rfl⟩ := Option.map_eq_some_iff.mp h
  have hname : n = name := by simpa using List.find?_some hfind
  exact hname ▸ List.mem_of_find?_eq_some hfind

/-- Interning gives what the name stands for. -/
theorem names_intern (hi : i.Interned) (name : String) :
    (i.intern name).2.heap.Names (i.intern name).1 name := by
  unfold intern
  split
  · rename_i hnil
    exact .inl ⟨hnil, rfl⟩
  · split
    · rename_i a hfind
      exact hi _ (mem_symbols_of_find? hfind)
    · exact .inr ⟨_, none, none, rfl, Heap.get?_allocate_self _ _⟩

/-- A symbol goes into the table under its own name, and only if there is none. -/
theorem Interned.intern (hi : i.Interned) (name : String) : (i.intern name).2.Interned := by
  have hnames := names_intern hi name
  unfold Interpreter.intern at hnames ⊢
  split
  · exact hi
  · rename_i hnil
    rw [if_neg hnil] at hnames
    split
    · exact hi
    · rename_i hfind
      simp only [hfind] at hnames
      intro e he
      rcases List.mem_cons.mp he with rfl | he
      · exact hnames
      · exact (hi e he).of_develops (Heap.develops_allocate [] _ _)

/-- Interning leaves what names stand for. -/
theorem find?_intern {name : String} {a : Addr} (n : String) (h : i.find? name = some a) :
    (i.intern n).2.find? name = some a := by
  unfold intern
  split
  · exact h
  · split
    · exact h
    · rename_i hfind
      have hne : n ≠ name := by
        rintro rfl
        rw [hfind] at h
        cases h
      unfold find? at h ⊢
      rwa [List.find?_cons_of_neg (by simpa using hne)]

/-- A name that is interned stands for a symbol, unless it is `nil`. -/
theorem exists_find?_intern (i : Interpreter) {name : String} (hnil : name ≠ "nil") :
    ∃ a, (i.intern name).1 = .ref a ∧ (i.intern name).2.find? name = some a := by
  unfold intern
  rw [if_neg hnil]
  split
  · rename_i a hfind
    exact ⟨a, rfl, hfind⟩
  · exact ⟨_, rfl, by simp [find?]⟩

/-- Uninterning leaves what other names stand for. -/
theorem find?_unintern {n name : String} {a : Addr} (hne : n ≠ name)
    (h : i.find? name = some a) : (i.unintern n).2.find? name = some a := by
  have hsame : (i.symbols.filter fun s => s.1 != n).find? (fun s => s.1 == name) =
      i.symbols.find? fun s => s.1 == name := by
    rw [List.find?_filter]
    refine congrArg (fun p => i.symbols.find? p) (funext fun s => ?_)
    by_cases hs : s.1 = name
    · simp [hs, Ne.symm hne]
    · simp [hs]
  unfold find? at h ⊢
  rwa [unintern, hsame]

/-! ### The host goes on -/

/-- The host has gone on from one state to another. -/
structure Precedes (i j : Interpreter) : Prop where
  heap : i.heap.Develops [] j.heap
  ages : i.Ages j
  interned : i.Interned → j.Interned

theorem Precedes.refl (i : Interpreter) : i.Precedes i := ⟨.refl _ _, .refl i, id⟩

theorem Precedes.trans (hij : i.Precedes j) (hjk : j.Precedes k) : i.Precedes k :=
  ⟨hij.heap.trans hjk.heap, hij.ages.trans hjk.ages, hjk.interned ∘ hij.interned⟩

end Interpreter

/-! ### Changes -/

section Changes

variable {w w₁ : World}

theorem World.ages_sweep (hw : w.Sound) : w.host.Ages w.sweep.2.host := by
  rw [World.host_sweep]
  split
  · exact .refl _
  · exact Interpreter.ages_release hw.host _

theorem World.precedes_sweep (hw : w.Sound) : w.host.Precedes w.sweep.2.host where
  heap := by
    rw [World.host_sweep]
    split <;> exact .refl _ _
  ages := World.ages_sweep hw
  interned hi := by
    rw [World.host_sweep]
    split <;> exact hi

theorem World.heap_sweep (w : World) : w.sweep.2.host.heap = w.host.heap := by
  rw [World.host_sweep]
  split <;> rfl

theorem World.host_adopt (w : World) (id : ObjectId) : (w.adopt id).2.host = w.host := by
  unfold World.adopt
  split
  · split <;> rfl
  · rfl

theorem World.id_adopt (w : World) (id : ObjectId) : (w.adopt id).1.id = id := by
  unfold World.adopt
  split
  · rename_i t ht
    have hid : t.id = id := by simpa using List.find?_some ht
    split
    · exact hid
    · rfl
  · rfl

theorem World.host_revive (w : World) (cached : Option Handle) :
    (w.revive cached).2.host = w.host := by
  unfold World.revive
  split
  · split <;> rfl
  · rfl

namespace Change

/-- What is done on the script side of the border does not change the host. -/
theorem host_run {c : Change α} (w : World)
    (hc : match c with
      | .adopt _ | .recordName _ _ | .recallSymbol _ _ | .cacheSymbol _ _ _ | .recallNumber _
      | .cacheNumber _ _ | .register _ | .clearCallback _ | .wrap _ | .unwrap? _ | .clearProxy _
      | .setEvaluator _ | .hold _ | .recallVariable _ | .assign _ _ | .forget _ | .log _ | .takeLog
      | .newIdentity | .startSweeper | .advance _ => True
      | _ => False) : (c.run w).2.host = w.host := by
  cases c with
  | adopt id => exact w.host_adopt id
  | recallSymbol kind name => exact w.host_revive _
  | recallNumber key => exact w.host_revive _
  | register c | wrap v | unwrap? key | recallVariable name =>
    simp only [run]
    split <;> rfl
  | recordName _ _ | cacheSymbol _ _ _ | cacheNumber _ _ | clearCallback _ | clearProxy _
  | setEvaluator _ | hold _ | assign _ _ | forget _ | log _ | takeLog | newIdentity | startSweeper
  | advance _ => rfl
  | _ => exact hc.elim

/-- Whether a change leaves the first halves of the spared pairs and the items of the
spared vectors. -/
def Spares (spared : List Addr) : Change α → Prop
  | .setHead a _ => a ∉ spared
  | .setItem a _ _ => a ∉ spared
  | _ => True

instance (c : Change α) : Decidable (c.Spares spared) := by
  cases c <;> unfold Spares <;> infer_instance

/-- Where nothing is spared, anything may be replaced. -/
theorem spares_nil (c : Change α) : c.Spares [] := by
  cases c <;> first | trivial | exact List.not_mem_nil

/-- The heap develops with every change. -/
theorem develops_run {c : Change α} (hc : c.Spares spared) (w : World) :
    w.host.heap.Develops spared (c.run w).2.host.heap := by
  have hsame : (c.run w).2.host = w.host →
      w.host.heap.Develops spared (c.run w).2.host.heap := fun h => h ▸ .refl _ _
  -- new cells, new values, new heads and items, and buffers: all else leaves the heap alone
  cases c with
  | make f => exact Heap.develops_allocate _ _ _
  | intern name =>
    simp only [run, World.onHost, Interpreter.intern]
    split
    · exact .refl _ _
    · split
      · exact .refl _ _
      · exact Heap.develops_allocate _ _ _
  | ensureBuffer name =>
    simp only [run, World.onHost, Interpreter.ensureBuffer]
    split
    · exact .refl _ _
    · exact Heap.develops_openBuffer _ _ _
  | retain o =>
    simp only [run, World.onHost, Interpreter.retain]
    split <;> exact .refl _ _
  | sweep =>
    change w.host.heap.Develops spared w.sweep.2.host.heap
    rw [World.heap_sweep]
    exact .refl _ _
  | setHead a o => exact Heap.develops_setHead hc
  | setItem a i o => exact Heap.develops_setItem hc
  | killBuffer a => exact Heap.develops_kill _ _ _
  | setValue _ _ | setFunction _ _ | putEntry _ _ _ | appendText _ _ =>
    exact Heap.develops_modify fun c => by cases c <;> rfl
  | unintern _ | selectBuffer _ | temporaryName | release _ => exact .refl _ _
  | _ => exact hsame (host_run w trivial)

/-- No change makes a number stand for another object. -/
theorem ages_run (c : Change α) (hw : w.Sound) : w.host.Ages (c.run w).2.host := by
  have hsame : (c.run w).2.host = w.host → w.host.Ages (c.run w).2.host :=
    fun h => h ▸ .refl _
  -- numbers are given out as objects are retained, and taken back in releases and sweeps
  cases c with
  | retain o => exact Interpreter.ages_retain hw.host o
  | release ids => exact Interpreter.ages_release hw.host ids
  | sweep => exact World.ages_sweep hw
  | intern name =>
    simp only [run, World.onHost, Interpreter.intern]
    split
    · exact .refl _
    · split <;> exact Interpreter.ages_of_eq rfl rfl
  | ensureBuffer name =>
    simp only [run, World.onHost, Interpreter.ensureBuffer]
    split <;> exact Interpreter.ages_of_eq rfl rfl
  | make _ | unintern _ | setHead _ _ | setValue _ _ | setFunction _ _ | setItem _ _ _
  | putEntry _ _ _ | killBuffer _ | selectBuffer _ | appendText _ _ | temporaryName =>
    exact Interpreter.ages_of_eq rfl rfl
  | _ => exact hsame (host_run w trivial)

/-- Every change keeps the table of symbols in order. -/
theorem interned_run (c : Change α) (hw : w.host.Interned) : (c.run w).2.host.Interned := by
  have hsame : (c.run w).2.host = w.host → (c.run w).2.host.Interned := fun h => h ▸ hw
  have hsub : (∀ e ∈ (c.run w).2.host.symbols, e ∈ w.host.symbols) →
      (c.run w).2.host.Interned := hw.of_symbols (develops_run c.spares_nil w)
  -- one change adds a symbol and one takes one out
  cases c with
  | intern name => exact hw.intern name
  | unintern name => exact hsub fun e he => (List.mem_filter.mp he).1
  | ensureBuffer name =>
    refine hsub fun e he => ?_
    simp only [run, World.onHost, Interpreter.ensureBuffer] at he
    split at he <;> exact he
  | retain o =>
    refine hsub fun e he => ?_
    simp only [run, World.onHost, Interpreter.retain] at he
    split at he <;> exact he
  | sweep =>
    refine hsub fun e he => ?_
    change e ∈ w.sweep.2.host.symbols at he
    rw [World.host_sweep] at he
    split at he <;> exact he
  | make _ | setHead _ _ | setValue _ _ | setFunction _ _ | setItem _ _ _ | putEntry _ _ _
  | killBuffer _ | selectBuffer _ | appendText _ _ | temporaryName | release _ =>
    exact hsub fun e he => he
  | _ => exact hsame (host_run w trivial)

/-- The host goes on with every change. -/
theorem precedes_run (c : Change α) (hw : w.Sound) : w.host.Precedes (c.run w).2.host where
  heap := develops_run (by cases c <;> first | trivial | exact List.not_mem_nil) w
  ages := ages_run c hw
  interned := interned_run c

/-! ### Names that stay interned -/

/-- Whether a change uninterns a name. -/
def Uninterns (name : String) : Change α → Prop
  | .unintern n => n = name
  | _ => False

instance (name : String) (c : Change α) : Decidable (c.Uninterns name) := by
  cases c <;> unfold Uninterns <;> infer_instance

/-- A name that is not uninterned keeps its symbol. -/
theorem find?_run {c : Change α} {name : String} {a : Addr} (hc : ¬c.Uninterns name)
    (ha : w.host.find? name = some a) : (c.run w).2.host.find? name = some a := by
  have hsame : (c.run w).2.host.symbols = w.host.symbols →
      (c.run w).2.host.find? name = some a := fun h => by
    rwa [Interpreter.find?, h]
  -- only what takes a symbol out could take this one, and that is excluded
  cases c with
  | intern n => exact Interpreter.find?_intern n ha
  | unintern n => exact Interpreter.find?_unintern (fun h => hc h) ha
  | ensureBuffer n =>
    refine hsame ?_
    simp only [run, World.onHost, Interpreter.ensureBuffer]
    split <;> rfl
  | retain o =>
    refine hsame ?_
    simp only [run, World.onHost, Interpreter.retain]
    split <;> rfl
  | sweep =>
    refine hsame ?_
    change w.sweep.2.host.symbols = _
    rw [World.host_sweep]
    split <;> rfl
  | make _ | setHead _ _ | setValue _ _ | setFunction _ _ | setItem _ _ _ | putEntry _ _ _
  | killBuffer _ | selectBuffer _ | appendText _ _ | temporaryName | release _ => exact hsame rfl
  | _ => exact hsame (congrArg Interpreter.symbols (host_run w trivial))

end Change

/-! ### Scopes -/

theorem Undo.develops_run (spared : List Addr) (u : Undo) (w : World) :
    w.host.heap.Develops spared (u.run w).host.heap := by
  cases u with
  | restore saved => exact Heap.develops_restore _ _ _
  | killAndSelect a b => exact Heap.develops_kill _ _ _
  | _ => exact .refl _ _

theorem Undo.precedes_run (u : Undo) (w : World) : w.host.Precedes (u.run w).host where
  heap := u.develops_run [] w
  ages := by cases u <;> exact Interpreter.ages_of_eq rfl rfl
  interned hi := hi.of_symbols (u.develops_run [] w) fun e he => by cases u <;> exact he

/-- What a scope starts with, it does to one part of the world. -/
theorem Scope.enter_cases {s : Scope} {u : Undo} (h : s.enter w = .ok (u, w₁)) :
    (w₁.host.retained = w.host.retained ∧ w₁.host.lastId = w.host.lastId ∧
      w₁.host.symbols = w.host.symbols) ∧
      (w₁.host.heap = w.host.heap ∨
        ∃ bindings, w₁.host.heap = (w.host.heap.bind bindings []).2) := by
  -- only a binding writes to the heap as it is entered
  cases s with
  | evaluation =>
    simp only [Scope.enter] at h
    split at h
    · cases h
    · cases h
      exact ⟨⟨rfl, rfl, rfl⟩, .inl rfl⟩
  | source =>
    simp only [Scope.enter] at h
    split at h
    · cases h
    · cases h
      exact ⟨⟨rfl, rfl, rfl⟩, .inl rfl⟩
  | binding bindings =>
    cases h
    exact ⟨⟨rfl, rfl, rfl⟩, .inr ⟨bindings, rfl⟩⟩
  | _ =>
    cases h
    exact ⟨⟨rfl, rfl, rfl⟩, .inl rfl⟩

/-- To enter a scope changes values of symbols and the current buffer, and no pair or
vector. -/
theorem Scope.develops_enter (spared : List Addr) {s : Scope} {u : Undo}
    (h : s.enter w = .ok (u, w₁)) : w.host.heap.Develops spared w₁.host.heap := by
  obtain ⟨-, heq | ⟨bindings, heq⟩⟩ := Scope.enter_cases h
  · rw [heq]
    exact .refl _ _
  · rw [heq]
    exact Heap.develops_bind _ _ _ _

theorem Scope.precedes_enter {s : Scope} {u : Undo} (h : s.enter w = .ok (u, w₁)) :
    w.host.Precedes w₁.host := by
  obtain ⟨⟨hretained, hlast, hsymbols⟩, -⟩ := Scope.enter_cases h
  have hd := Scope.develops_enter [] h
  refine ⟨hd, Interpreter.ages_of_eq hretained hlast, fun hi => ?_⟩
  exact hi.of_symbols hd (by simp [hsymbols])

end Changes

/-! ### Moments -/

namespace Moment

variable {m m₁ : Moment γ}

/-- Whether what is about to be done leaves the first halves of the spared pairs and
the items of the spared vectors. -/
def Spares (spared : List Addr) (m : Moment γ) : Prop :=
  match m.proc with
  | .act c _ => c.Spares spared
  | _ => True

instance (m : Moment γ) : Decidable (m.Spares spared) := by
  unfold Spares
  split <;> infer_instance

/-- Each moment spares no cells at all. -/
theorem spares_nil (m : Moment γ) : m.Spares [] := by
  unfold Spares
  split
  · exact Change.spares_nil _
  · trivial

/-- A step that spares cells develops the heap without writing to them. The cases are those
of what is left to do. -/
theorem develops_next (hm : m.Spares spared) {told : Nat} (h : m.nextTold told = some m₁) :
    m.world.host.heap.Develops spared m₁.world.host.heap := by
  obtain heq | ⟨β, c, next, hp, heq⟩ | ⟨s, u, hs⟩ | ⟨u, heq⟩ := world_cases h
  · rw [heq]
    exact .refl _ _
  · rw [heq]
    unfold Spares at hm
    rw [hp] at hm
    exact Change.develops_run hm _
  · exact Scope.develops_enter spared hs
  · rw [heq]
    exact Undo.develops_run spared u _

/-- The heap develops with each step of a run. -/
theorem Goes.develops (hm : m.Spares spared) (h : Goes m m₁) :
    m.world.host.heap.Develops spared m₁.world.host.heap := by
  cases h with
  | next h => exact develops_next hm h
  | sweep _ =>
    change Heap.Develops spared _ m.world.sweep.2.host.heap
    rw [World.heap_sweep]
    exact .refl _ _

/-- A run that spares cells at each moment does so as a whole. -/
theorem Reaches.develops (h : Reaches (Spares spared) m m₁) :
    m.world.host.heap.Develops spared m₁.world.host.heap := by
  induction h with
  | refl => exact .refl _ _
  | tail _ hgo ih => exact ih.trans (hgo.2.develops hgo.1)

/-- Whether a name is about to be uninterned. -/
def Uninterns (name : String) (m : Moment γ) : Prop :=
  match m.proc with
  | .act c _ => c.Uninterns name
  | _ => False

instance (name : String) (m : Moment γ) : Decidable (m.Uninterns name) := by
  unfold Uninterns
  split <;> infer_instance

/-- A name that is not uninterned keeps its symbol at each step of a run. -/
theorem Goes.find? {name : String} {a : Addr} (hm : ¬m.Uninterns name) (h : Goes m m₁)
    (ha : m.world.host.find? name = some a) : m₁.world.host.find? name = some a := by
  cases h with
  | next h =>
    obtain heq | ⟨β, c, next, hp, heq⟩ | ⟨s, u, hs⟩ | ⟨u, heq⟩ := world_cases h
    · rwa [heq]
    · rw [heq]
      unfold Uninterns at hm
      rw [hp] at hm
      exact Change.find?_run hm ha
    · obtain ⟨⟨-, -, hsymbols⟩, -⟩ := Scope.enter_cases hs
      rwa [Interpreter.find?, hsymbols]
    · rw [heq]
      cases u <;> exact ha
  | sweep _ => exact Change.find?_run (c := .sweep) (fun h => h) ha

/-- A symbol that is found is found for as long as nothing takes it out of the table. -/
theorem Reaches.find? {name : String} {a : Addr} (h : Reaches (fun m => ¬m.Uninterns name) m m₁)
    (ha : m.world.host.find? name = some a) : m₁.world.host.find? name = some a := by
  induction h with
  | refl => exact ha
  | tail _ hgo ih => exact hgo.2.find? hgo.1 ih

/-- The host goes on with each step of a run. -/
theorem Goes.precedes (hw : m.world.Sound) (h : Goes m m₁) :
    m.world.host.Precedes m₁.world.host := by
  cases h with
  | next h =>
    obtain heq | ⟨β, c, next, -, heq⟩ | ⟨s, u, hs⟩ | ⟨u, heq⟩ := world_cases h
    · rw [heq]
      exact .refl _
    · rw [heq]
      exact Change.precedes_run c hw
    · exact Scope.precedes_enter hs
    · rw [heq]
      exact Undo.precedes_run u _
  | sweep _ => exact World.precedes_sweep hw

end Moment

end Crossing
