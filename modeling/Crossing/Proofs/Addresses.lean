import Crossing.Proofs.Growth

/-!
# Addresses

Only the heap gives out addresses. So whatever an object refers to by then, all along a run,
lies below the size that the heap has in the end. The bound stays the same throughout: it is
the heap that stays below it.

- `Obj.Below`, `Interpreter.Below`: objects that refer below a bound, and a host all of whose
  objects do;
- `Change.below_run`, `Scope.below_enter`: changes and scopes of such objects;
- `Proc.Below`: what a procedure has to be given below the bound, so that all that it makes of
  it is there too;
- `Moment.Goes.below`: a step keeps below the bound, as long as the heap does.
-/

namespace Crossing

variable {n : Nat} {α β γ : Type} {w w₁ : World} {o : Obj} {a : Addr}

/-! ### Objects -/

/-- Whether an object refers to one of the first `n` cells, if to any. -/
def Obj.Below (n : Nat) : Obj → Prop
  | .ref a => a < n
  | _ => True

@[simp] theorem Obj.below_nil : Obj.nil.Below n := trivial

@[simp] theorem Obj.below_int (i : Fixnum) : (Obj.int i).Below n := trivial

@[simp] theorem Obj.below_float (x : Float) : (Obj.float x).Below n := trivial

@[simp] theorem Obj.below_ref : (Obj.ref a).Below n ↔ a < n := Iff.rfl

/-- The objects of a closure, its parameters among them. -/
def Lambda.objects (l : Lambda) : List Obj :=
  (l.required ++ l.optional ++ l.rest.toList).map .ref ++ l.interactive.toList ++ l.body

/-- The objects that a cell refers to. -/
def Cell.objects : Cell → List Obj
  | .text _ | .builtin _ | .buffer .. => []
  | .symbol _ value function => value.toList ++ function.toList
  | .cons head tail => [head, tail]
  | .vector items => items
  | .table entries => entries.flatMap fun e => [e.1, e.2]
  | .closure code => code.objects

/-- The objects that something is made of. -/
def Fresh.objects : Fresh → List Obj
  | .text _ | .table => []
  | .cons head tail => [head, tail]
  | .vector items => items
  | .closure code => code.objects

/-! ### The host -/

/-- A heap of at most `n` cells, all of whose objects refer to the first `n` cells. -/
structure Heap.Below (n : Nat) (h : Heap) : Prop where
  size_le : h.size ≤ n
  cells : ∀ {a c}, h.get? a = some c → ∀ o ∈ c.objects, o.Below n

/-- A host all of whose objects refer to the first `n` cells. -/
structure Interpreter.Below (n : Nat) (i : Interpreter) : Prop where
  heap : i.heap.Below n
  symbols : ∀ s ∈ i.symbols, s.2 < n
  current : i.current < n
  retained : ∀ r ∈ i.retained, r.2.Below n

namespace Heap

variable {h : Heap} {c : Cell} {f : Cell → Cell}

/-- An address that is in use lies below the bound. -/
theorem Below.lt (hh : h.Below n) (hc : h.get? a = some c) : a < n :=
  Nat.lt_of_lt_of_le (lt_size_of_get? hc) hh.size_le

/-- An object that has a cell lies below the bound, with all that the cell refers to. -/
theorem Below.of_shape (hh : h.Below n) (hc : h.shape o = .cell c) :
    o.Below n ∧ ∀ p ∈ c.objects, p.Below n := by
  obtain ⟨a, rfl, ha⟩ := exists_ref_of_shape hc
  exact ⟨hh.lt ha, hh.cells ha⟩

/-- A new cell is below a bound that leaves room for it. -/
theorem Below.allocate (hh : h.Below n) (hc : ∀ o ∈ c.objects, o.Below n)
    (hn : (h.allocate c).2.size ≤ n) : (h.allocate c).2.Below n := by
  refine ⟨hn, fun {a d} hd => ?_⟩
  obtain hold | ⟨-, rfl⟩ := get?_allocate_cases hd
  · exact hh.cells hold
  · exact hc

/-- A cell changes within the bound if its new objects lie below it. -/
theorem Below.modify (hh : h.Below n)
    (hf : ∀ c, (∀ o ∈ c.objects, o.Below n) → ∀ o ∈ (f c).objects, o.Below n) :
    (h.modify a f).Below n := by
  refine ⟨by simpa [Heap.modify, size] using hh.size_le, fun {b c} hc => ?_⟩
  by_cases hb : b = a
  · subst hb
    rw [get?_modify_self] at hc
    obtain ⟨d, hd, rfl⟩ := Option.map_eq_some_iff.mp hc
    exact hf d (hh.cells hd)
  · rw [get?_modify_other h f hb] at hc
    exact hh.cells hc

/-- A value below the bound can become that of a symbol. -/
theorem Below.setValue (hh : h.Below n) {value : Option Obj} (hv : ∀ o ∈ value, o.Below n) :
    (h.setValue a value).Below n := by
  refine hh.modify fun c hc => ?_
  cases c with
  | symbol name old function =>
    intro o ho
    rcases List.mem_append.mp ho with ho | ho
    · exact hv o (Option.mem_toList.mp ho)
    · exact hc o (List.mem_append_right _ ho)
  | _ => exact hc

/-- A function below the bound can become that of a symbol. -/
theorem Below.setFunction (hh : h.Below n) {function : Option Obj}
    (hf : ∀ o ∈ function, o.Below n) : (h.setFunction a function).Below n := by
  refine hh.modify fun c hc => ?_
  cases c with
  | symbol name value old =>
    intro o ho
    rcases List.mem_append.mp ho with ho | ho
    · exact hc o (List.mem_append_left _ ho)
    · exact hf o (Option.mem_toList.mp ho)
  | _ => exact hc

/-- An object below the bound can become the head of a pair. -/
theorem Below.setHead (hh : h.Below n) (ho : o.Below n) : (h.setHead a o).Below n := by
  refine hh.modify fun c hc => ?_
  cases c with
  | cons head tail => exact List.forall_mem_cons.mpr ⟨ho, (List.forall_mem_cons.mp hc).2⟩
  | _ => exact hc

/-- An object below the bound can go into a vector. -/
theorem Below.setItem (hh : h.Below n) {i : Nat} (ho : o.Below n) :
    (h.setItem a i o).Below n := by
  refine hh.modify fun c hc => ?_
  cases c with
  | vector items =>
    intro p hp
    rcases List.mem_or_eq_of_mem_set hp with hp | rfl
    · exact hc p hp
    · exact ho
  | _ => exact hc

/-- The objects of a table are its keys and values. -/
theorem below_entries_iff {entries : List (Obj × Obj)} :
    (∀ o ∈ (Cell.table entries).objects, o.Below n) ↔
      ∀ e ∈ entries, e.1.Below n ∧ e.2.Below n := by
  simp [Cell.objects, List.mem_flatMap]
  grind

/-- An entry below the bound goes among entries below it. -/
theorem below_insertEntry {key value : Obj} {entries : List (Obj × Obj)} (hk : key.Below n)
    (hv : value.Below n) (he : ∀ e ∈ entries, e.1.Below n ∧ e.2.Below n) :
    ∀ e ∈ h.insertEntry key value entries, e.1.Below n ∧ e.2.Below n := by
  induction entries with
  | nil => exact List.forall_mem_singleton.mpr ⟨hk, hv⟩
  | cons e rest ih =>
    obtain ⟨⟨hk₀, hv₀⟩, hrest⟩ := List.forall_mem_cons.mp he
    rw [insertEntry]
    split
    · exact List.forall_mem_cons.mpr ⟨⟨hk₀, hv⟩, hrest⟩
    · exact List.forall_mem_cons.mpr ⟨⟨hk₀, hv₀⟩, ih hrest⟩

/-- An entry below the bound goes into a table. -/
theorem Below.putEntry (hh : h.Below n) {key value : Obj} (hk : key.Below n)
    (hv : value.Below n) : (h.putEntry a key value).Below n := by
  refine hh.modify fun c hc => ?_
  cases c with
  | table entries =>
    exact below_entries_iff.mpr (below_insertEntry hk hv (below_entries_iff.mp hc))
  | _ => exact hc

/-- A buffer that is killed refers to nothing. -/
theorem Below.kill (hh : h.Below n) : (h.kill a).Below n := by
  have hmodified : (h.modify a Cell.killed).Below n := by
    refine hh.modify fun c hc => ?_
    cases c <;> exact hc
  exact ⟨hmodified.size_le, hmodified.cells⟩

/-- A text refers to nothing. -/
theorem Below.appendText (hh : h.Below n) {s : String} : (h.appendText a s).Below n := by
  refine hh.modify fun c hc => ?_
  cases c <;> exact hc

/-- The value of a symbol lies below the bound. -/
theorem Below.value? (hh : h.Below n) : ∀ o ∈ h.value? a, o.Below n := by
  unfold Heap.value?
  split
  · rename_i name value function ha
    exact fun o ho => hh.cells ha o (List.mem_append_left _ (Option.mem_toList.mpr ho))
  · simp

/-- The function of a symbol lies below the bound. -/
theorem Below.function? (hh : h.Below n) : ∀ o ∈ h.function? a, o.Below n := by
  unfold Heap.function?
  split
  · rename_i name value function ha
    exact fun o ho => hh.cells ha o (List.mem_append_right _ (Option.mem_toList.mpr ho))
  · simp

theorem Below.bind (hh : h.Below n) {bindings : List (Addr × Obj)}
    {saved : List (Addr × Option Obj)} (hb : ∀ b ∈ bindings, b.2.Below n)
    (hs : ∀ s ∈ saved, ∀ o ∈ s.2, o.Below n) :
    (∀ s ∈ (h.bind bindings saved).1, ∀ o ∈ s.2, o.Below n) ∧
      (h.bind bindings saved).2.Below n := by
  induction bindings generalizing h saved with
  | nil => exact ⟨hs, hh⟩
  | cons b bindings ih =>
    obtain ⟨ho, hb⟩ := List.forall_mem_cons.mp hb
    exact ih (hh.setValue (by simpa using ho)) hb
      (List.forall_mem_cons.mpr ⟨hh.value?, hs⟩)

/-- What was put aside below the bound can come back. -/
theorem Below.restore (hh : h.Below n) {saved : List (Addr × Option Obj)}
    (hs : ∀ s ∈ saved, ∀ o ∈ s.2, o.Below n) : (h.restore saved).Below n := by
  induction saved generalizing h with
  | nil => exact hh
  | cons s saved ih =>
    obtain ⟨ho, hs⟩ := List.forall_mem_cons.mp hs
    exact ih (hh.setValue ho) hs

/-! ### What is found in a heap -/

/-- The head of an object lies below the bound. -/
theorem Below.head (hh : h.Below n) : (h.head o).Below n := by
  unfold Heap.head
  split
  · rename_i head tail ho
    exact (hh.of_shape ho).2 head List.mem_cons_self
  · trivial

/-- The items along a spine lie below the bound, however far it is followed. -/
theorem Below.spineWithin (hh : h.Below n) (k : Nat) (o : Obj) :
    ∀ p ∈ (h.spineWithin k o).1, p.Below n := by
  induction k generalizing o with
  | zero => exact List.forall_mem_nil _
  | succ k ih =>
    rw [Heap.spineWithin]
    split
    · rename_i head tail ho
      exact List.forall_mem_cons.mpr ⟨(hh.of_shape ho).2 head List.mem_cons_self, ih tail⟩
    · exact List.forall_mem_nil _

/-- The items of a list lie below the bound. -/
theorem Below.list? (hh : h.Below n) {items : List Obj} (hl : h.list? o = some items) :
    ∀ p ∈ items, p.Below n := by
  unfold Heap.list? spine at hl
  have hspine := hh.spineWithin h.size o
  split at hl
  · rename_i items' heq
    obtain rfl := Option.some.inj hl
    rwa [heq] at hspine
  · cases hl

/-- The entries of a table lie below the bound. -/
theorem Below.entries? (hh : h.Below n) {entries : List (Obj × Obj)}
    (he : h.entries? o = some entries) : ∀ e ∈ entries, e.1.Below n ∧ e.2.Below n := by
  unfold Heap.entries? at he
  split at he
  · rename_i entries' ho
    obtain rfl := Option.some.inj he
    exact below_entries_iff.mp (hh.of_shape ho).2
  · cases he

/-- A value that is found in a table lies below the bound. -/
theorem Below.lookup? {key : Obj} {entries : List (Obj × Obj)}
    (he : ∀ e ∈ entries, e.1.Below n ∧ e.2.Below n) :
    ∀ p ∈ h.lookup? key entries, p.Below n := by
  intro p hp
  obtain ⟨e, hfind, rfl⟩ := Option.map_eq_some_iff.mp hp
  exact (he e (List.mem_of_find?_eq_some hfind)).2

/-- A buffer that is found lies below the bound. -/
theorem Below.findBuffer? (hh : h.Below n) {name : String} : ∀ a ∈ h.findBuffer? name, a < n := by
  intro a ha
  have hlive := (of_findBuffer? ha).1
  unfold isLiveBuffer at hlive
  split at hlive
  · rename_i hc
    exact hh.lt hc
  · cases hlive

end Heap

/-! ### What is done to the host -/

namespace Interpreter

variable {i : Interpreter} {name : String}

/-- Interpreters that differ in their heaps only, with both below the bound. -/
theorem Below.of_heap {j : Interpreter} (hi : i.Below n) (hheap : j.heap.Below n)
    (hsymbols : j.symbols = i.symbols) (hcurrent : j.current = i.current)
    (hretained : j.retained = i.retained) : j.Below n :=
  ⟨hheap, hsymbols ▸ hi.symbols, hcurrent ▸ hi.current, hretained ▸ hi.retained⟩

/-- A symbol that is found lies below the bound. -/
theorem Below.find? (hi : i.Below n) : ∀ a ∈ i.find? name, a < n := by
  intro a ha
  obtain ⟨s, hs, rfl⟩ := Option.map_eq_some_iff.mp ha
  exact hi.symbols s (List.mem_of_find?_eq_some hs)

/-- A retained object lies below the bound. -/
theorem Below.resolve? (hi : i.Below n) {id : ObjectId} : ∀ o ∈ i.resolve? id, o.Below n := by
  intro o ho
  obtain ⟨r, hr, rfl⟩ := Option.map_eq_some_iff.mp ho
  exact hi.retained r (List.mem_of_find?_eq_some hr)

/-- Interning gives a symbol below a bound that leaves room for it. -/
theorem Below.intern (hi : i.Below n) (hn : (i.intern name).2.heap.size ≤ n) :
    (i.intern name).1.Below n ∧ (i.intern name).2.Below n := by
  unfold Interpreter.intern at hn ⊢
  split
  · exact ⟨trivial, hi⟩
  · cases hfind : i.find? name with
    | some a => exact ⟨hi.find? a hfind, hi⟩
    | none =>
      rw [if_neg ‹_›, hfind] at hn
      have hlt : i.heap.size < n := Nat.lt_of_lt_of_le
        (Heap.size_allocate i.heap (.symbol name none none) ▸ Nat.lt_succ_self _) hn
      exact ⟨hlt, hi.heap.allocate (List.forall_mem_nil _) hn, List.forall_mem_cons.mpr ⟨hlt, hi.symbols⟩,
        hi.current, hi.retained⟩

/-- An object below the bound can be retained. -/
theorem Below.retain (hi : i.Below n) (ho : o.Below n) : (i.retain o).2.Below n := by
  unfold Interpreter.retain
  split
  · exact hi
  · exact ⟨hi.heap, hi.symbols, hi.current, List.forall_mem_cons.mpr ⟨ho, hi.retained⟩⟩

/-- Release forgets objects, and so keeps to the bound. -/
theorem Below.release (hi : i.Below n) (ids : List ObjectId) : (i.release ids).Below n :=
  ⟨hi.heap, hi.symbols, hi.current, fun r hr => by
    rw [Interpreter.retained_release] at hr
    exact hi.retained r (List.mem_filter.mp hr).1⟩

/-- A new object is below a bound that leaves room for it. -/
theorem Below.make (hi : i.Below n) {f : Fresh} (hf : ∀ o ∈ f.objects, o.Below n)
    (hn : (i.make f).2.heap.size ≤ n) :
    (i.make f).1.Below n ∧ (i.make f).2.Below n := by
  have hobjects : ∀ o ∈ (i.heap.cellOf f).objects, o.Below n := by
    -- the cell of a new object refers to what the object is made of, and to nothing else
    cases f with
    | cons head tail =>
      obtain ⟨hhead, htail⟩ := List.forall_mem_cons.mp hf
      refine List.forall_mem_cons.mpr ⟨hhead, List.forall_mem_singleton.mpr ?_⟩
      have ht := List.forall_mem_singleton.mp htail
      unfold Heap.known
      split
      · split
        · exact ht
        · trivial
      · exact ht
    | table => exact List.forall_mem_nil _
    | _ => exact hf
  have hlt : i.heap.size < n := Nat.lt_of_lt_of_le
    (Heap.size_allocate i.heap (i.heap.cellOf f) ▸ Nat.lt_succ_self _) hn
  exact ⟨hlt, hi.of_heap (hi.heap.allocate hobjects hn) rfl rfl rfl⟩

/-- A buffer that is found or made is below a bound that leaves room for it. -/
theorem Below.ensureBuffer (hi : i.Below n) (hn : (i.ensureBuffer name).2.heap.size ≤ n) :
    (i.ensureBuffer name).1 < n ∧ (i.ensureBuffer name).2.Below n := by
  unfold Interpreter.ensureBuffer at hn ⊢
  cases hfind : i.heap.findBuffer? name with
  | some a => exact ⟨hi.heap.findBuffer? a hfind, hi⟩
  | none =>
    rw [hfind] at hn
    have hlt : i.heap.size < n := Nat.lt_of_lt_of_le
      (Heap.size_allocate i.heap (.buffer name "" true) ▸ Nat.lt_succ_self _) hn
    have hheap := hi.heap.allocate (List.forall_mem_nil _) hn
    exact ⟨hlt, hi.of_heap ⟨hheap.size_le, hheap.cells⟩ rfl rfl rfl⟩

end Interpreter

/-! ### Actions -/

/-- What is known of an answer, if the host lies below the bound. -/
def Query.GivesBelow (n : Nat) : Query α → α → Prop
  | .heap, h => h.Below n
  | .symbol? _, a => ∀ b ∈ a, b < n
  | .currentBuffer, a => a < n
  | .resolve? _, o => ∀ p ∈ o, p.Below n
  | _, _ => True

/-- Whether what a change is about lies below the bound. -/
def Change.Below (n : Nat) : Change α → Prop
  | .make f => ∀ o ∈ f.objects, o.Below n
  | .setHead _ o | .setValue _ o | .setFunction _ o | .setItem _ _ o | .retain o => o.Below n
  | .putEntry _ key value => key.Below n ∧ value.Below n
  | .selectBuffer a => a < n
  | _ => True

/-- What is known of what a change gives. -/
def Change.GivesBelow (n : Nat) : Change α → α → Prop
  | .make _, o | .intern _, o => o.Below n
  | .ensureBuffer _, a => a < n
  | _, _ => True

/-- Whether what a task is about lies below the bound. -/
def Task.Below (n : Nat) : Task α → Prop
  | .evaluate form => form.Below n
  | .apply function args => function.Below n ∧ ∀ o ∈ args, o.Below n
  | _ => True

/-- What is known of what a task gives. -/
def Task.GivesBelow (n : Nat) : Task α → α → Prop
  | .evaluate _, o | .apply _ _, o => o.Below n
  | _, _ => True

/-- Whether what a scope is about lies below the bound. -/
def Scope.Below (n : Nat) : Scope → Prop
  | .binding bindings => ∀ b ∈ bindings, b.2.Below n
  | .buffer a | .temporary a => a < n
  | _ => True

/-- Whether what is to be done at the end of a scope lies below the bound. -/
def Undo.Below (n : Nat) : Undo → Prop
  | .restore saved => ∀ s ∈ saved, ∀ o ∈ s.2, o.Below n
  | .select a | .killAndSelect _ a => a < n
  | _ => True

/-- Each answer about the host lies below the bound that its objects lie below. -/
theorem Query.givesBelow_ask (q : Query α) (hw : w.host.Below n) : q.GivesBelow n (q.ask w) := by
  cases q with
  | heap => exact hw.heap
  | symbol? name => exact hw.find?
  | currentBuffer => exact hw.current
  | resolve? id => exact hw.resolve?
  | _ => trivial

/-- A change of what lies below the bound gives what lies there, if the heap still does. -/
theorem Change.below_run {c : Change α} (hc : c.Below n) (hw : w.host.Below n)
    (hn : (c.run w).2.host.heap.size ≤ n) :
    c.GivesBelow n (c.run w).1 ∧ (c.run w).2.host.Below n := by
  have hsame : (c.run w).2.host = w.host → (c.run w).2.host.Below n := fun h => h ▸ hw
  -- a change stays within the bound for what it is given, or leaves the host alone
  cases c with
  | make f => exact hw.make hc hn
  | intern name => exact hw.intern hn
  | ensureBuffer name => exact hw.ensureBuffer hn
  | unintern name =>
    exact ⟨trivial, hw.heap, fun s hs => hw.symbols s (List.mem_filter.mp hs).1, hw.current,
      hw.retained⟩
  | setHead a o => exact ⟨trivial, hw.of_heap (hw.heap.setHead hc) rfl rfl rfl⟩
  | setValue a o =>
    exact ⟨trivial, hw.of_heap (hw.heap.setValue fun _ h => Option.mem_some.mp h ▸ hc) rfl rfl rfl⟩
  | setFunction a o =>
    exact ⟨trivial, hw.of_heap (hw.heap.setFunction fun _ h => Option.mem_some.mp h ▸ hc) rfl rfl rfl⟩
  | setItem a i o => exact ⟨trivial, hw.of_heap (hw.heap.setItem hc) rfl rfl rfl⟩
  | putEntry a key value =>
    exact ⟨trivial, hw.of_heap (hw.heap.putEntry hc.1 hc.2) rfl rfl rfl⟩
  | killBuffer a => exact ⟨trivial, hw.of_heap hw.heap.kill rfl rfl rfl⟩
  | appendText a s => exact ⟨trivial, hw.of_heap hw.heap.appendText rfl rfl rfl⟩
  | selectBuffer a => exact ⟨trivial, hw.heap, hw.symbols, hc, hw.retained⟩
  | temporaryName => exact ⟨trivial, hw.of_heap hw.heap rfl rfl rfl⟩
  | retain o => exact ⟨trivial, hw.retain hc⟩
  | release ids => exact ⟨trivial, hw.release ids⟩
  | sweep =>
    refine ⟨trivial, ?_⟩
    change w.sweep.2.host.Below n
    rw [World.host_sweep]
    split
    · exact hw
    · exact hw.release _
  | _ => exact ⟨trivial, hsame (host_run w trivial)⟩

/-- A scope that is entered keeps to the bound, and so does what leaving it will put back.
-/
theorem Scope.below_enter {s : Scope} {u : Undo} (hs : s.Below n) (hw : w.host.Below n)
    (h : s.enter w = .ok (u, w₁)) : u.Below n ∧ w₁.host.Below n := by
  -- an evaluation and a source may be refused, and then nothing was entered
  cases s with
  | evaluation =>
    simp only [Scope.enter] at h
    split at h
    · cases h
    · cases h
      exact ⟨trivial, hw.of_heap hw.heap rfl rfl rfl⟩
  | source =>
    simp only [Scope.enter] at h
    split at h
    · cases h
    · cases h
      exact ⟨trivial, hw⟩
  | binding bindings =>
    cases h
    have hbound := hw.heap.bind hs (List.forall_mem_nil _)
    exact ⟨hbound.1, hw.of_heap hbound.2 rfl rfl rfl⟩
  | buffer a | temporary a =>
    cases h
    exact ⟨hw.current, hw.heap, hw.symbols, hs, hw.retained⟩
  | holding | outbound | callback _ =>
    cases h
    exact ⟨trivial, hw⟩

theorem Undo.below_run {u : Undo} (hu : u.Below n) (hw : w.host.Below n) :
    (u.run w).host.Below n := by
  cases u with
  | restore saved => exact hw.of_heap (hw.heap.restore hu) rfl rfl rfl
  | select a => exact ⟨hw.heap, hw.symbols, hu, hw.retained⟩
  | killAndSelect temporary a => exact ⟨hw.heap.kill, hw.symbols, hu, hw.retained⟩
  | leaveEvaluation => exact hw.of_heap hw.heap rfl rfl rfl
  | _ => exact hw

/-! ### Procedures -/

namespace Proc

/-- Whether all that a procedure does is about what lies below the bound, where it is given
only that, so that its results are as `Q` says. -/
def Below (n : Nat) {α : Type} : Proc α → (α → Prop) → Prop
  | .done a, Q => Q a
  | .stop _, _ => True
  | .ask q next, Q => ∀ x, q.GivesBelow n x → (next x).Below n Q
  | .act c next, Q => c.Below n ∧ ∀ x, c.GivesBelow n x → (next x).Below n Q
  | .task t next, Q => t.Below n ∧ ∀ x, t.GivesBelow n x → (next x).Below n Q
  | .inside s part next, Q => s.Below n ∧ part.Below n fun x => (next x).Below n Q
  | .attempt part next, Q =>
    (part.Below n fun x => (next (.ok x)).Below n Q) ∧ ∀ f, (next (.error f)).Below n Q
  | .loop part next, Q => (part.Below n fun _ => True) ∧ next.Below n Q

variable {p : Proc α} {f : α → Proc β} {Q Q' : α → Prop} {R : β → Prop}

theorem Below.mono (hp : p.Below n Q) (h : ∀ a, Q a → Q' a) : p.Below n Q' := by
  induction p with
  | done a => exact h a hp
  | stop s => trivial
  | ask q next ih => exact fun x hx => ih x (hp x hx) h
  | act c next ih | task t next ih => exact ⟨hp.1, fun x hx => ih x (hp.2 x hx) h⟩
  | inside s part next ihPart ih => exact ⟨hp.1, ihPart hp.2 fun x hx => ih x hx h⟩
  | attempt part next ihPart ih =>
    exact ⟨ihPart hp.1 fun x hx => ih (.ok x) hx h, fun f => ih (.error f) (hp.2 f) h⟩
  | loop part next _ ih => exact ⟨hp.1, ih hp.2 h⟩

theorem below_bind : (p >>= f).Below n R ↔ p.Below n fun a => (f a).Below n R := by
  change (p.bind f).Below n R ↔ _
  induction p with
  | done a => rfl
  | stop s => rfl
  | ask q next ih => simp only [Proc.bind, Below, ih]
  | act c next ih => simp only [Proc.bind, Below, ih]
  | task t next ih => simp only [Proc.bind, Below, ih]
  | inside s part next _ ih => simp only [Proc.bind, Below, ih]
  | attempt part next _ ih => simp only [Proc.bind, Below, ih]
  | loop part next _ ih => simp only [Proc.bind, Below, ih]

theorem Below.bind (hp : p.Below n Q) (hf : ∀ a, Q a → (f a).Below n R) : (p >>= f).Below n R :=
  below_bind.mpr (hp.mono hf)

end Proc

/-! ### Moments -/

/-- Whether the parts that wait go on below the bound with results that are as `Q` says. -/
def Stack.Below (n : Nat) {γ : Type} : {α : Type} → Stack γ α → (α → Prop) → Prop
  | _, .top, _ => True
  | _, .push (.result _ next) rest, Q =>
    ∃ R, (∀ x, Q x → (next x).Below n R) ∧ rest.Below n R
  | _, .push (.scope undo next) rest, Q =>
    undo.Below n ∧ ∃ R, (∀ x, Q x → (next x).Below n R) ∧ rest.Below n R
  | _, .push (.attempt next) rest, Q =>
    ∃ R, (∀ x, Q x → (next (.ok x)).Below n R) ∧ (∀ f, (next (.error f)).Below n R) ∧
      rest.Below n R
  | _, .push (.loop part next) rest, _ =>
    ∃ R, (part.Below n fun _ => True) ∧ next.Below n R ∧ rest.Below n R

/-- Whether all that is left to do, and the host, lie below the bound. -/
structure Moment.Below (n : Nat) (m : Moment γ) : Prop where
  proc : ∃ Q, m.proc.Below n Q ∧ m.stack.Below n Q
  host : m.world.host.Below n

namespace Moment

variable {m m₁ : Moment γ} {Q : α → Prop} {k : Stack γ α}

/-- A result that goes to the frames below keeps to the bound. -/
theorem below_done {b : α} (told : Nat) (hb : Q b) (hk : k.Below n Q) (hw : w.host.Below n)
    (h : advance told (.done b) k w = some m₁) : m₁.Below n := by
  -- a result goes to the frame on top, whose rest was below the bound for each such result
  cases k with
  | top => cases h
  | push f rest =>
    cases h
    cases f with
    | result t next =>
      obtain ⟨R, hnext, hrest⟩ := hk
      exact ⟨⟨R, hnext b hb, hrest⟩, hw⟩
    | scope undo next =>
      obtain ⟨hu, R, hnext, hrest⟩ := hk
      exact ⟨⟨R, hnext b hb, hrest⟩, Undo.below_run hu hw⟩
    | attempt next =>
      obtain ⟨R, hnext, -, hrest⟩ := hk
      exact ⟨⟨R, hnext b hb, hrest⟩, hw⟩
    | loop part next =>
      obtain ⟨R, hpart, hnext, hrest⟩ := hk
      cases b with
      | true => exact ⟨⟨R, ⟨hpart, hnext⟩, hrest⟩, hw⟩
      | false => exact ⟨⟨R, hnext, hrest⟩, hw⟩

/-- A failure that goes to the frames below keeps to the bound. -/
theorem below_failure (told : Nat) (f : Failure) (hk : k.Below n Q) (hw : w.host.Below n)
    (h : advance told (.stop (.failure f)) k w = some m₁) : m₁.Below n := by
  -- a failure goes on to the frame below, unless the frame on top recovers from it
  cases k with
  | top => cases h
  | push g rest =>
    cases h
    cases g with
    | result t next =>
      obtain ⟨R, -, hrest⟩ := hk
      exact ⟨⟨R, trivial, hrest⟩, hw⟩
    | scope undo next =>
      obtain ⟨hu, R, -, hrest⟩ := hk
      exact ⟨⟨R, trivial, hrest⟩, Undo.below_run hu hw⟩
    | attempt next =>
      obtain ⟨R, -, hfail, hrest⟩ := hk
      exact ⟨⟨R, hfail f, hrest⟩, hw⟩
    | loop part next =>
      obtain ⟨R, -, -, hrest⟩ := hk
      exact ⟨⟨R, trivial, hrest⟩, hw⟩

/-- A step keeps below the bound if the heap does and tasks do. -/
theorem below_nextTold (htasks : ∀ {β : Type} (t : Task β), t.Below n → t.body.Below n (t.GivesBelow n))
    {told : Nat} (hm : m.Below n) (h : m.nextTold told = some m₁)
    (hn : m₁.world.host.heap.size ≤ n) : m₁.Below n := by
  obtain ⟨p, k, w⟩ := m
  obtain ⟨⟨Q, hp, hk⟩, hw⟩ := hm
  unfold nextTold at h
  cases p with
  | done b => exact below_done (Q := Q) told hp hk hw h
  | stop s =>
    cases s with
    | failure f => exact below_failure told f hk hw h
    | trap | exhausted => cases k <;> cases h
  | ask q next =>
    cases h
    exact ⟨⟨Q, hp _ (q.givesBelow_ask hw), hk⟩, hw⟩
  | act c next =>
    cases h
    obtain ⟨hgives, hw₁⟩ := Change.below_run hp.1 hw hn
    have htell : c.GivesBelow n (c.tell told (c.run w).1) := by
      cases c with
      | sweep => trivial
      | _ => exact hgives
    exact ⟨⟨Q, hp.2 _ htell, hk⟩, hw₁⟩
  | task t next =>
    cases h
    exact ⟨⟨_, htasks t hp.1, Q, hp.2, hk⟩, hw⟩
  | inside s part next =>
    simp only [advance] at h
    split at h
    · cases h
      exact ⟨⟨Q, trivial, hk⟩, hw⟩
    · rename_i u w₁ hs
      cases h
      obtain ⟨hu, hw₁⟩ := Scope.below_enter hp.1 hw hs
      exact ⟨⟨_, hp.2, hu, Q, fun _ hx => hx, hk⟩, hw₁⟩
  | attempt part next =>
    cases h
    exact ⟨⟨_, hp.1, Q, fun _ hx => hx, hp.2, hk⟩, hw⟩
  | loop part next =>
    cases h
    exact ⟨⟨_, hp.1, Q, hp.1, hp.2, hk⟩, hw⟩

/-- So does a sweep in between. -/
theorem Goes.below (htasks : ∀ {β : Type} (t : Task β), t.Below n → t.body.Below n (t.GivesBelow n))
    (hm : m.Below n) (h : Goes m m₁) (hn : m₁.world.host.heap.size ≤ n) : m₁.Below n := by
  cases h with
  | next h => exact below_nextTold htasks hm h hn
  | sweep _ => exact ⟨hm.proc, (Change.below_run (c := .sweep) trivial hm.host hn).2⟩

/-- All along a run, what is left to do and the host lie below the size that the heap has at
the end. -/
theorem Reaches.below {ok : Moment γ → Prop}
    (htasks : ∀ {β : Type} (t : Task β), t.Below n → t.body.Below n (t.GivesBelow n))
    (hm : m.world.host.heap.size ≤ n → m.Below n) (h : Reaches ok m m₁)
    (hn : m₁.world.host.heap.size ≤ n) : m₁.Below n := by
  induction h with
  | refl => exact hm hn
  | @tail m₂ m₃ _ hgo ih =>
    have hgrows := (hgo.2.develops m₂.spares_nil).size_le
    exact hgo.2.below htasks (ih (Nat.le_trans hgrows hn)) hn

end Moment

end Crossing
