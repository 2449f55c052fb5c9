import Crossing.Proofs.Development
import Crossing.Proofs.Registries

/-!
# Growth

Much of what crosses only adds to what is there: it makes objects, keeps them,
interns names and takes in handles. What was there before stays as it was.

- `Heap.IsList`: a chain of pairs, which `list?_iff` tells from the heap's own list;
- `Heap.GrowsTo`, `Interpreter.GrowsTo`, `World.GrowsTo`: nothing is taken away;
- `Change.growsTo_run`: so it is with the changes that only add;
- `Scope.growsTo_enter`: and with scopes, where they start and where they end.
-/

namespace Crossing

variable {α : Type}

/-! ### Lists -/

namespace Heap

variable {h h₁ h₂ : Heap} {a : Addr} {o head tail : Obj} {items : List Obj}

/-- A chain of pairs that ends in `nil`, and its items. -/
inductive IsList (h : Heap) : Obj → List Obj → Prop where
  | nil : IsList h .nil []
  | cons {a : Addr} {head tail : Obj} {items : List Obj}
    (hpair : h.get? a = some (.cons head tail)) (htail : IsList h tail items) :
    IsList h (.ref a) (head :: items)

/-- A reference in use has the shape of its cell. -/
theorem shape_ref {c : Cell} (hc : h.get? a = some c) : h.shape (.ref a) = .cell c := by
  simp only [shape, hc]

/-- What has a cell is a reference to it. -/
theorem exists_ref_of_shape {c : Cell} (hc : h.shape o = .cell c) :
    ∃ a, o = .ref a ∧ h.get? a = some c := by
  cases o with
  | ref a =>
    simp only [shape] at hc
    split at hc
    · rename_i d hd
      cases hc
      exact ⟨a, rfl, hd⟩
    · cases hc
  | _ => cases hc

/-- A reference to a cell does not count as `nil`. -/
theorem exists_get?_of_known (hknown : h.known (.ref a) = .ref a) : ∃ c, h.get? a = some c := by
  by_cases hlt : a < h.size
  · exact ⟨_, Array.getElem?_eq_getElem hlt⟩
  · rw [known, if_neg hlt] at hknown
    cases hknown

/-- What is called a function of the host is one of its builtins. -/
theorem exists_builtin_of_typeName {s : Shape} (h : s.typeName = "subr") :
    ∃ b, s = .cell (.builtin b) := by
  cases s with
  | cell c =>
    cases c with
    | builtin b => exact ⟨b, rfl⟩
    | _ => simp [Shape.typeName] at h
  | _ => simp [Shape.typeName] at h

/-- A spine that is followed far enough ends, and has the items of the list. -/
theorem spineWithin_eq_iff {n : Nat} :
    h.spineWithin n o = (items, .nil) ↔ h.IsList o items ∧ items.length ≤ n := by
  -- the induction is on how many pairs may be followed
  induction n generalizing o items with
  | zero =>
    rw [spineWithin]
    constructor
    · intro heq
      cases heq
      exact ⟨.nil, Nat.le_refl _⟩
    · rintro ⟨hlist, hlen⟩
      cases hlist with
      | nil => rfl
      | cons _ _ => exact absurd hlen (Nat.not_succ_le_zero _)
  | succ n ih =>
    rw [spineWithin]
    -- the spine goes on at a pair, and ends at anything else
    split
    · rename_i head tail hshape
      constructor
      · intro heq
        cases hspine : h.spineWithin n tail with
        | mk items₁ last =>
          rw [hspine] at heq
          cases heq
          obtain ⟨a, rfl, hpair⟩ := exists_ref_of_shape hshape
          obtain ⟨htail, hlen⟩ := ih.mp hspine
          exact ⟨.cons hpair htail, Nat.succ_le_succ hlen⟩
      · rintro ⟨hlist, hlen⟩
        cases hlist with
        | nil => cases hshape
        | cons hpair htail =>
          rw [shape_ref hpair] at hshape
          cases hshape
          rw [ih.mpr ⟨htail, Nat.le_of_succ_le_succ hlen⟩]
    · rename_i hshape
      constructor
      · intro heq
        cases heq
        exact ⟨.nil, Nat.zero_le _⟩
      · rintro ⟨hlist, -⟩
        cases hlist with
        | nil => rfl
        | cons hpair _ => exact absurd (shape_ref hpair) (hshape _ _)

/-- The heap sees a list that has no more pairs than the heap has cells. -/
theorem list?_iff : h.list? o = some items ↔ h.IsList o items ∧ items.length ≤ h.size := by
  rw [← spineWithin_eq_iff, list?, spine]
  constructor
  · intro heq
    split at heq
    · rename_i hspine
      cases heq
      exact hspine
    · cases heq
  · intro hspine
    rw [hspine]

end Heap

/-! ### Heaps that grow -/

/-- Whether a cell is one that is just added: no buffer, and no symbol that has a value
or a function. -/
def Cell.isBare : Cell → Bool
  | .symbol _ none none => true
  | .symbol .. => false
  | .buffer .. => false
  | _ => true

namespace Heap

variable {h h₁ h₂ : Heap} {a : Addr} {o : Obj}

/-- Cells have been added, and those that were there are as they were. -/
structure GrowsTo (h h₁ : Heap) : Prop where
  cell : ∀ {a c}, h.get? a = some c → h₁.get? a = some c
  added : ∀ {a c}, h₁.get? a = some c → h.get? a = some c ∨ c.isBare = true
  buffers : h₁.buffers = h.buffers

namespace GrowsTo

theorem refl (h : Heap) : h.GrowsTo h := ⟨fun hc => hc, .inl, rfl⟩

theorem trans (h₀₁ : h.GrowsTo h₁) (h₁₂ : h₁.GrowsTo h₂) : h.GrowsTo h₂ where
  cell hc := h₁₂.cell (h₀₁.cell hc)
  buffers := h₁₂.buffers.trans h₀₁.buffers
  added hc := by
    obtain hc₁ | hbare := h₁₂.added hc
    · exact h₀₁.added hc₁
    · exact .inr hbare

/-- No symbol has got a function. -/
theorem function {name : String} {value : Option Obj} {f : Obj} (hg : h.GrowsTo h₁)
    (hc : h₁.get? a = some (.symbol name value (some f))) :
    h.get? a = some (.symbol name value (some f)) := by
  obtain hc | hbare := hg.added hc
  · exact hc
  · cases value <;> cases hbare

/-- No buffer has been made. -/
theorem buffer {name text : String} {live : Bool} (hg : h.GrowsTo h₁)
    (hc : h₁.get? a = some (.buffer name text live)) :
    h.get? a = some (.buffer name text live) := by
  obtain hc | hbare := hg.added hc
  · exact hc
  · cases hbare

theorem names {name : String} (hg : h.GrowsTo h₁) (hn : h.Names o name) : h₁.Names o name := by
  obtain ⟨rfl, rfl⟩ | ⟨a, value, function, rfl, ha⟩ := hn
  · exact .inl ⟨rfl, rfl⟩
  · exact .inr ⟨a, value, function, rfl, hg.cell ha⟩

theorem size_le (hg : h.GrowsTo h₁) : h.size ≤ h₁.size :=
  size_le_of_get? fun hc => ⟨_, hg.cell hc⟩

theorem known (hg : h.GrowsTo h₁) (ho : h.known o = o) : h₁.known o = o := by
  cases o with
  | ref a =>
    obtain ⟨c, hc⟩ := exists_get?_of_known ho
    rw [Heap.known, if_pos (lt_size_of_get? (hg.cell hc))]
  | _ => rfl

theorem isList {items : List Obj} (hg : h.GrowsTo h₁) (hl : h.IsList o items) :
    h₁.IsList o items := by
  induction hl with
  | nil => exact .nil
  | cons hpair _ ih => exact .cons (hg.cell hpair) ih

/-- The items that are listed stay so as the heap grows. -/
theorem list? {items : List Obj} (hg : h.GrowsTo h₁) (hl : h.list? o = some items) :
    h₁.list? o = some items := by
  obtain ⟨hlist, hlen⟩ := list?_iff.mp hl
  exact list?_iff.mpr ⟨hg.isList hlist, Nat.le_trans hlen hg.size_le⟩

end GrowsTo

/-- A bare cell is new in every way: no symbol, closure or buffer comes with it. -/
theorem growsTo_allocate (h : Heap) {c : Cell} (hc : c.isBare = true) :
    h.GrowsTo (h.allocate c).2 where
  cell hd := by rw [get?_allocate_of_lt c (lt_size_of_get? hd), hd]
  buffers := rfl
  added {a d} ha := by
    have hlt := lt_size_of_get? ha
    have hsize : (h.allocate c).2.size = h.size + 1 := Array.size_push _
    by_cases hold : a < h.size
    · rw [get?_allocate_of_lt c hold] at ha
      exact .inl ha
    · rw [hsize] at hlt
      obtain rfl := Nat.le_antisymm (Nat.le_of_lt_succ hlt) (Nat.le_of_not_lt hold)
      rw [get?_allocate_self] at ha
      exact .inr (Option.some.inj ha ▸ hc)

theorem growsTo_make (h : Heap) (f : Fresh) : h.GrowsTo (h.make f).2 :=
  h.growsTo_allocate (by cases f <;> rfl)

end Heap

/-! ### Hosts that grow -/

/-- Objects have been made and kept, and names interned. -/
structure Interpreter.GrowsTo (i j : Interpreter) : Prop where
  heap : i.heap.GrowsTo j.heap
  ages : i.Ages j
  kept : ∀ {id o}, i.resolve? id = some o → j.resolve? id = some o
  names : ∀ {name a}, i.find? name = some a → j.find? name = some a
  /-- A name that has got a symbol has got a new one. -/
  newNames : ∀ {name a}, j.find? name = some a → i.find? name = some a ∨ i.heap.get? a = none

namespace Interpreter

variable {i j k : Interpreter}

theorem GrowsTo.refl (i : Interpreter) : i.GrowsTo i :=
  ⟨.refl _, .refl i, fun h => h, fun h => h, .inl⟩

theorem GrowsTo.trans (hij : i.GrowsTo j) (hjk : j.GrowsTo k) : i.GrowsTo k where
  heap := hij.heap.trans hjk.heap
  ages := hij.ages.trans hjk.ages
  kept h := hjk.kept (hij.kept h)
  names h := hjk.names (hij.names h)
  newNames {_ a} h := by
    obtain hold | hnew := hjk.newNames h
    · exact hij.newNames hold
    · refine .inr ?_
      cases hc : i.heap.get? a with
      | none => rfl
      | some c => exact absurd ((hij.heap.cell hc).symm.trans hnew) nofun

/-- The heap has grown, and the tables are as they were. -/
theorem GrowsTo.of_heap (hg : i.heap.GrowsTo j.heap) (hretained : j.retained = i.retained)
    (hlast : j.lastId = i.lastId) (hsymbols : j.symbols = i.symbols) : i.GrowsTo j where
  heap := hg
  ages := ages_of_eq hretained hlast
  kept h := by
    unfold resolve? at h ⊢
    rwa [hretained]
  names h := by
    unfold find? at h ⊢
    rwa [hsymbols]
  newNames h := by
    unfold find? at h ⊢
    rw [hsymbols] at h
    exact .inl h

theorem growsTo_intern (i : Interpreter) (name : String) : i.GrowsTo (i.intern name).2 := by
  have hnames : ∀ {n a}, i.find? n = some a → (i.intern name).2.find? n = some a :=
    fun h => find?_intern name h
  unfold intern at hnames ⊢
  -- `nil` needs no symbol, a name that is there has one, and for any other one is made
  split
  · exact .refl i
  · rename_i hnil
    rw [if_neg hnil] at hnames
    split
    · exact .refl i
    · rename_i hfind
      simp only [hfind] at hnames
      have hheap : i.heap.GrowsTo (i.heap.allocate (.symbol name none none)).2 :=
        i.heap.growsTo_allocate rfl
      refine ⟨hheap, ages_of_eq rfl rfl, fun h => h, hnames, fun {n a} h => ?_⟩
      -- the new symbol is that of the new name, and hides none
      by_cases hn : name = n
      · subst hn
        simp only [find?, List.find?_cons_of_pos, beq_self_eq_true, Option.map_some] at h
        obtain rfl := Option.some.inj h
        exact .inr (Array.getElem?_eq_none (Nat.le_refl _))
      · refine .inl ?_
        simpa only [find?, List.find?_cons_of_neg, beq_iff_eq, hn, not_false_eq_true] using h

theorem growsTo_retain (hi : i.Sound) (o : Obj) : i.GrowsTo (i.retain o).2 where
  heap := by
    unfold retain
    split <;> exact .refl _
  ages := ages_retain hi o
  kept h := resolve?_retain hi o h
  names h := by
    unfold retain
    split <;> exact h
  newNames h := by
    unfold retain at h
    split at h <;> exact .inl h

theorem current_intern (i : Interpreter) (name : String) :
    (i.intern name).2.current = i.current := by
  unfold intern
  split
  · rfl
  · split <;> rfl

theorem current_retain (i : Interpreter) (o : Obj) : (i.retain o).2.current = i.current := by
  unfold retain
  split <;> rfl

end Interpreter

/-! ### Worlds that grow -/

/-- The host has grown, and the border has only taken in what it did not have. -/
structure World.GrowsTo (w w₁ : World) : Prop where
  host : w.host.GrowsTo w₁.host
  current : w₁.host.current = w.host.current
  pending : w₁.border.pending = w.border.pending
  proxies : w₁.border.proxies = w.border.proxies
  registered : ∀ {k c}, w.border.callbacks.get? k = some c → w₁.border.callbacks.get? k = some c
  spent : ∀ {k}, w.border.callbacks.Spent k → w₁.border.callbacks.Spent k

namespace World

variable {w w₁ w₂ : World}

theorem GrowsTo.refl (w : World) : w.GrowsTo w :=
  ⟨.refl _, rfl, rfl, rfl, fun h => h, fun h => h⟩

theorem GrowsTo.trans (h₀₁ : w.GrowsTo w₁) (h₁₂ : w₁.GrowsTo w₂) : w.GrowsTo w₂ where
  host := h₀₁.host.trans h₁₂.host
  current := h₁₂.current.trans h₀₁.current
  pending := h₁₂.pending.trans h₀₁.pending
  proxies := h₁₂.proxies.trans h₀₁.proxies
  registered h := h₁₂.registered (h₀₁.registered h)
  spent h := h₁₂.spent (h₀₁.spent h)

/-- What grows on the host side only, with the registries and the open calls as they were.
-/
theorem GrowsTo.of_border (hhost : w.host.GrowsTo w₁.host)
    (hcurrent : w₁.host.current = w.host.current)
    (hpending : w₁.border.pending = w.border.pending)
    (hproxies : w₁.border.proxies = w.border.proxies)
    (hcallbacks : w₁.border.callbacks = w.border.callbacks) : w.GrowsTo w₁ :=
  ⟨hhost, hcurrent, hpending, hproxies, fun h => hcallbacks ▸ h, fun h => hcallbacks ▸ h⟩

/-- What grows on the host side only, with the border as it was. -/
theorem GrowsTo.of_host (hhost : w.host.GrowsTo w₁.host)
    (hcurrent : w₁.host.current = w.host.current) (hborder : w₁.border = w.border) :
    w.GrowsTo w₁ :=
  .of_border hhost hcurrent (by rw [hborder]) (by rw [hborder]) (by rw [hborder])

theorem growsTo_hold (w : World) (hs : List Handle) : w.GrowsTo (w.hold hs) :=
  .of_host (.refl _) rfl rfl

theorem growsTo_adopt (w : World) (id : ObjectId) : w.GrowsTo (w.adopt id).2 := by
  unfold adopt
  split
  · split
    · exact growsTo_hold w _
    · exact .of_border (.refl _) rfl rfl rfl rfl
  · exact .of_border (.refl _) rfl rfl rfl rfl

/-- A remembered handle is found if it is live, and then it is held. -/
theorem revive_cases (w : World) (cached : Option Handle) :
    (∃ h, cached = some h ∧ h ∈ w.roots ∧ w.revive cached = (some h, w.hold [h])) ∨
      w.revive cached = (none, w) := by
  unfold revive
  split
  · rename_i h
    split
    · rename_i hlive
      exact .inl ⟨h, rfl, isLive_iff.mp hlive, rfl⟩
    · exact .inr rfl
  · exact .inr rfl

/-- Running code holds a handle that it is given. -/
theorem mem_held_adopt (w : World) (id : ObjectId) :
    (w.adopt id).1 ∈ (w.adopt id).2.script.held := by
  unfold adopt
  split
  · split <;> exact List.mem_cons_self
  · exact List.mem_cons_self

theorem growsTo_revive (w : World) (cached : Option Handle) : w.GrowsTo (w.revive cached).2 := by
  obtain ⟨h, -, -, heq⟩ | heq := revive_cases w cached
  · rw [heq]
    exact growsTo_hold w _
  · rw [heq]
    exact .refl w

end World

/-! ### Changes -/

/-- Whether a change only adds. -/
def Change.isAdditive : Change α → Bool
  | .make _ | .intern _ | .retain _ | .adopt _ | .recordName _ _ | .recallSymbol _ _
  | .cacheSymbol _ _ _ | .recallNumber _ | .cacheNumber _ _ | .register _ | .unwrap? _
  | .hold _ => true
  | _ => false

section Changes

variable {w w₁ : World}

/-- The world grows with the changes that only add. -/
theorem Change.growsTo_run {c : Change α} (hc : c.isAdditive = true) (hw : w.Sound)
    (hr : w.border.callbacks.Sound) : w.GrowsTo (c.run w).2 := by
  -- a change that only adds makes, retains, takes in or remembers something
  cases c with
  | make f => exact .of_host (.of_heap (w.host.heap.growsTo_make f) rfl rfl rfl) rfl rfl
  | intern name => exact .of_host (w.host.growsTo_intern name) (w.host.current_intern name) rfl
  | retain o => exact .of_host (Interpreter.growsTo_retain hw.host o) (w.host.current_retain o) rfl
  | adopt id => exact w.growsTo_adopt id
  | recallSymbol kind name => exact w.growsTo_revive _
  | recallNumber key => exact w.growsTo_revive _
  | recordName h name =>
    simp only [run, Border.recordName]
    split
    · split <;> exact .of_border (.refl _) rfl rfl rfl rfl
    · exact .refl w
  | register c =>
    simp only [run]
    split
    · rename_i key callbacks hinsert
      exact ⟨.refl _, rfl, rfl, rfl, Registry.get?_insert_of_get? hr hinsert,
        fun hk => hk.insert hr hinsert⟩
    · exact .refl w
  | unwrap? key =>
    simp only [run]
    split
    · exact w.growsTo_hold _
    · exact .refl w
  | cacheSymbol _ _ _ | cacheNumber _ _ | hold _ => exact .of_border (.refl _) rfl rfl rfl rfl
  | _ => exact absurd hc Bool.false_ne_true

end Changes

/-! ### Scopes -/

/-- Whether a scope takes nothing away, neither where it starts nor where it ends. -/
def Scope.isAdditive : Scope → Bool
  | .evaluation | .holding | .outbound => true
  | _ => false

/-- The world grows where such a scope starts, and where it ends. -/
theorem Scope.growsTo_enter {s : Scope} {u : Undo} {w w₁ : World} (hs : s.isAdditive = true)
    (h : s.enter w = .ok (u, w₁)) : w.GrowsTo w₁ ∧ ∀ w : World, w.GrowsTo (u.run w) := by
  cases s with
  | evaluation =>
    simp only [enter] at h
    split at h
    · cases h
    · cases h
      exact ⟨.of_host (.of_heap (.refl _) rfl rfl rfl) rfl rfl,
        fun w => .of_host (.of_heap (.refl _) rfl rfl rfl) rfl rfl⟩
  | holding =>
    cases h
    exact ⟨.refl w, fun w => .of_host (.refl _) rfl rfl⟩
  | outbound =>
    cases h
    exact ⟨.of_border (.refl _) rfl rfl rfl rfl, fun w => .of_border (.refl _) rfl rfl rfl rfl⟩
  | _ => exact absurd hs Bool.false_ne_true

end Crossing
