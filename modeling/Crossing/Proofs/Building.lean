import Crossing.Proofs.Growth
import Crossing.Proofs.Results

/-!
# Building objects

What procedures do that only make objects and intern names: they always come to a
result, and everything that was there before stays exactly as it was.

- `Heap.ListFrom`: a list all of whose pairs have addresses from some address on,
  so that it can be told from what was there before;
- `Interpreter.Extends`, `World.BuildsTo`: objects have been made and names interned;
- `Proc.Builds`: a procedure does no more than that, and what its result is;
- `Host.builds_list`: the list that the host makes of items;
- `ListFrom.develops`: it stays a list of these items as long as its pairs are spared.
-/

namespace Crossing

variable {α β : Type} {lo : Nat}

/-! ### New lists -/

namespace Heap

variable {h h₁ : Heap} {o : Obj} {items : List Obj}

/-- A list whose pairs have addresses from `lo` on. A pair has a later address than
the pairs after it, so that there is room for all of them. -/
inductive ListFrom (lo : Nat) (h : Heap) : Obj → List Obj → Prop where
  | nil : ListFrom lo h .nil []
  | cons {a : Addr} {head tail : Obj} {items : List Obj} (ha : lo + items.length ≤ a)
    (hpair : h.get? a = some (.cons head tail)) (htail : ListFrom lo h tail items) :
    ListFrom lo h (.ref a) (head :: items)

theorem ListFrom.mono {lo' : Nat} (hl : ListFrom lo h o items) (hlo : lo' ≤ lo) :
    ListFrom lo' h o items := by
  induction hl with
  | nil => exact .nil
  | cons ha hpair _ ih => exact .cons (by omega) hpair ih

theorem ListFrom.isList (hl : ListFrom lo h o items) : h.IsList o items := by
  induction hl with
  | nil => exact .nil
  | cons _ hpair _ ih => exact .cons hpair ih

/-- The heap sees such a list. -/
theorem ListFrom.list? (hl : ListFrom lo h o items) : h.list? o = some items := by
  refine list?_iff.mpr ⟨hl.isList, ?_⟩
  cases hl with
  | nil => exact Nat.zero_le _
  | cons ha hpair _ =>
    have hlt := Nat.lt_of_le_of_lt ha (lt_size_of_get? hpair)
    exact Nat.lt_of_le_of_lt (Nat.le_add_left _ lo) hlt

/-- It stays a list of the same items as long as its pairs stay. -/
theorem ListFrom.of_pairs (hl : ListFrom lo h o items)
    (hpairs : ∀ {a x y}, h.get? a = some (.cons x y) → h₁.get? a = some (.cons x y)) :
    ListFrom lo h₁ o items := by
  induction hl with
  | nil => exact .nil
  | cons ha hpair _ ih => exact .cons ha (hpairs hpair) ih

/-- The addresses from `lo` up to the end of the heap. -/
def since (lo : Nat) (h : Heap) : List Addr := List.range' lo (h.size - lo)

/-- The addresses since a bound are those in use from it on. -/
theorem mem_since {a : Nat} : a ∈ h.since lo ↔ lo ≤ a ∧ a < h.size := by
  rw [since, List.mem_range'_1]
  omega

/-- It stays a list of the same items as long as the pairs made since `lo` are spared. -/
theorem ListFrom.develops (hl : ListFrom lo h o items) (hd : h.Develops (h.since lo) h₁) :
    ListFrom lo h₁ o items := by
  induction hl with
  | nil => exact .nil
  | cons ha hpair _ ih =>
    have hmem := mem_since.mpr ⟨Nat.le_trans (Nat.le_add_right lo _) ha, lt_size_of_get? hpair⟩
    exact .cons ha (hd.pair hmem hpair) ih

end Heap

/-! ### Hosts that are extended -/

/-- Objects have been made and names interned. What was there before is as it was. -/
structure Interpreter.Extends (i j : Interpreter) : Prop where
  cell : ∀ {a c}, i.heap.get? a = some c → j.heap.get? a = some c
  names : ∀ {name a}, i.find? name = some a → j.find? name = some a
  interned : i.Interned → j.Interned

namespace Interpreter

variable {i j k : Interpreter}

theorem Extends.refl (i : Interpreter) : i.Extends i := ⟨fun h => h, fun h => h, fun h => h⟩

theorem Extends.trans (hij : i.Extends j) (hjk : j.Extends k) : i.Extends k where
  cell h := hjk.cell (hij.cell h)
  names h := hjk.names (hij.names h)
  interned h := hjk.interned (hij.interned h)

theorem Extends.size_le (h : i.Extends j) : i.heap.size ≤ j.heap.size :=
  Heap.size_le_of_get? fun hc => ⟨_, h.cell hc⟩

/-- A list above a bound stays one. -/
theorem Extends.listFrom {o : Obj} {items : List Obj} (h : i.Extends j)
    (hl : i.heap.ListFrom lo o items) : j.heap.ListFrom lo o items :=
  hl.of_pairs fun hc => h.cell hc

/-- An extended heap is developed without a cell being written to. -/
theorem Extends.develops (h : i.Extends j) (spared : List Addr) :
    i.heap.Develops spared j.heap := ⟨fun hc => ⟨_, h.cell hc, rfl⟩⟩

theorem extends_retain (i : Interpreter) (o : Obj) : i.Extends (i.retain o).2 := by
  unfold retain
  split
  · exact .refl i
  · exact ⟨fun h => h, fun h => h, fun h => h⟩

theorem extends_make (i : Interpreter) (f : Fresh) : i.Extends (i.make f).2 where
  cell hc := by
    rw [← hc]
    exact Heap.get?_allocate_of_lt _ (Heap.lt_size_of_get? hc)
  names h := h
  interned hi := hi.of_symbols (Heap.develops_allocate [] _ _) fun _ he => he

theorem extends_intern (i : Interpreter) (name : String) : i.Extends (i.intern name).2 where
  cell {a c} hc := by
    unfold intern
    split
    · exact hc
    · split
      · exact hc
      · rw [← hc]
        exact Heap.get?_allocate_of_lt _ (Heap.lt_size_of_get? hc)
  names h := find?_intern name h
  interned hi := hi.intern name

/-- To intern a name that is interned changes nothing. -/
theorem intern_of_find? {i : Interpreter} {name : String} {a : Addr} (hnil : name ≠ "nil")
    (h : i.find? name = some a) : i.intern name = (.ref a, i) := by
  rw [intern, if_neg hnil]
  simp only [h]

end Interpreter

/-- The host has made objects and interned names, and nothing else has happened. -/
structure World.BuildsTo (w w₁ : World) : Prop where
  host : w.host.Extends w₁.host
  retained : w₁.host.retained = w.host.retained
  identities : w₁.host.identities = w.host.identities
  lastId : w₁.host.lastId = w.host.lastId
  border : w₁.border = w.border
  script : w₁.script = w.script
  clock : w₁.clock = w.clock

namespace World

variable {w w₁ w₂ : World}

theorem BuildsTo.refl (w : World) : w.BuildsTo w :=
  ⟨.refl _, rfl, rfl, rfl, rfl, rfl, rfl⟩

theorem BuildsTo.trans (h₀₁ : w.BuildsTo w₁) (h₁₂ : w₁.BuildsTo w₂) : w.BuildsTo w₂ where
  host := h₀₁.host.trans h₁₂.host
  retained := h₁₂.retained.trans h₀₁.retained
  identities := h₁₂.identities.trans h₀₁.identities
  lastId := h₁₂.lastId.trans h₀₁.lastId
  border := h₁₂.border.trans h₀₁.border
  script := h₁₂.script.trans h₀₁.script
  clock := h₁₂.clock.trans h₀₁.clock

theorem BuildsTo.host_sound (h : w.BuildsTo w₁) (hw : w.host.Sound) : w₁.host.Sound := by
  obtain ⟨ids, ids_le, addresses, mem_identities⟩ := hw
  exact ⟨by rwa [h.retained], by rwa [h.retained, h.lastId], by rwa [h.identities],
    by rwa [h.retained, h.identities]⟩

theorem BuildsTo.size_le (h : w.BuildsTo w₁) : w.host.heap.size ≤ w₁.host.heap.size :=
  h.host.size_le

theorem buildsTo_make (w : World) (f : Fresh) : w.BuildsTo ((Change.make f).run w).2 :=
  ⟨w.host.extends_make f, rfl, rfl, rfl, rfl, rfl, rfl⟩

theorem buildsTo_intern (w : World) (name : String) :
    w.BuildsTo ((Change.intern name).run w).2 := by
  refine ⟨w.host.extends_intern name, ?_, ?_, ?_, rfl, rfl, rfl⟩ <;>
  · simp only [Change.run, World.onHost, Interpreter.intern]
    split
    · rfl
    · split <;> rfl

end World

/-! ### Procedures that build -/

/-- A procedure only makes objects and interns names, and comes to a result, which is
as `Q` says. -/
def Proc.Builds (p : Proc α) (w : World) (Q : α → World → Prop) : Prop :=
  ∃ a w₁, p.Gives 0 w (.ok a) w₁ ∧ w.BuildsTo w₁ ∧ Q a w₁

namespace Proc

variable {p : Proc α} {f : α → Proc β} {w w₁ : World} {Q Q' : α → World → Prop}
  {R : β → World → Prop}

theorem builds_pure {a : α} (ha : Q a w) : (pure a : Proc α).Builds w Q :=
  ⟨a, w, gives_pure a, .refl w, ha⟩

theorem Builds.bind (hp : p.Builds w Q)
    (hf : ∀ a w₁, w.BuildsTo w₁ → Q a w₁ → (f a).Builds w₁ R) : (p >>= f).Builds w R := by
  obtain ⟨a, w₁, hgives, hbuilds, ha⟩ := hp
  obtain ⟨b, w₂, hgives₂, hbuilds₂, hb⟩ := hf a w₁ hbuilds ha
  exact ⟨b, w₂, hgives.bind hgives₂, hbuilds.trans hbuilds₂, hb⟩

theorem Builds.mono (hp : p.Builds w Q) (h : ∀ a w₁, w.BuildsTo w₁ → Q a w₁ → Q' a w₁) :
    p.Builds w Q' := by
  obtain ⟨a, w₁, hgives, hbuilds, ha⟩ := hp
  exact ⟨a, w₁, hgives, hbuilds, h a w₁ hbuilds ha⟩

/-- What is made goes to the end of the heap. -/
theorem builds_make (x : Fresh) : (make x).Builds w fun o w₁ =>
    o = .ref w.host.heap.size ∧
      w₁.host.heap.get? w.host.heap.size = some (w.host.heap.cellOf x) ∧
      w₁.host.heap.size = w.host.heap.size + 1 :=
  ⟨_, _, gives_change _, w.buildsTo_make x, rfl, Heap.get?_allocate_self _ _, Array.size_push _⟩

/-- A name is interned as the symbol that is then found. -/
theorem builds_intern {name : String} (hnil : name ≠ "nil") :
    (change (.intern name)).Builds w fun o w₁ => ∃ a, o = .ref a ∧ w₁.host.find? name = some a :=
  ⟨_, _, gives_change _, w.buildsTo_intern name, w.host.exists_find?_intern hnil⟩

end Proc

namespace Host

variable {w : World}

/-- The host makes a new list of items. -/
theorem builds_list (items : List Obj) (hlo : lo ≤ w.host.heap.size) :
    (list items).Builds w fun o w₁ => w₁.host.heap.ListFrom lo o items ∧
      lo + items.length ≤ w₁.host.heap.size := by
  induction items with
  | nil => exact Proc.builds_pure ⟨.nil, hlo⟩
  | cons head items ih =>
    -- the pairs of the tail are made first
    refine ih.bind fun tail w₁ _ htail => (Proc.builds_make _).mono fun o w₂ hb ho => ?_
    obtain ⟨hlist, hsize⟩ := htail
    obtain ⟨rfl, hcell, hsize₂⟩ := ho
    have hknown : w₁.host.heap.known tail = tail := by
      cases hlist with
      | nil => rfl
      | cons _ hpair _ => rw [Heap.known, if_pos (Heap.lt_size_of_get? hpair)]
    rw [Heap.cellOf, hknown] at hcell
    refine ⟨.cons hsize hcell (hb.host.listFrom hlist), ?_⟩
    rw [List.length_cons, hsize₂]
    omega

end Host

end Crossing
