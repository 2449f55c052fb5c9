import Crossing.Proofs.Outcomes
import Crossing.Proofs.Scopes

/-!
# Buffers

A form that chooses a buffer ends with the buffer current that was current before it
chose, whatever its body does to buffers. A temporary buffer is dead by then.

- `Heap.Lives`: a live buffer of a name; `Heap.ListsBuffers`: those that live are listed, and no
  two of them have one name;
- `Change.buffers_run`, `Moment.Goes.buffers`: all that is done to buffers is to open one whose
  name is not found, and to kill one;
- `Moment.Becomes.lives`: a buffer that lives has lived before, or has been made since;
- `Proc.IsReached.listsBuffers`: in sessions the buffers that live are listed;
- `Call.current_restored`, `Call.temporary_killed`: how a form ends that chooses a
  buffer.
-/

namespace Crossing

variable {α β γ : Type}

/-! ### Live buffers -/

/-- The name that a cell has as a live buffer. -/
def Cell.liveName? : Cell → Option String
  | .buffer name _ true => some name
  | _ => none

namespace Heap

variable {h h₁ h₂ : Heap} {a b : Addr} {name : String}

/-- There is a live buffer of a name. -/
def Lives (h : Heap) (a : Addr) (name : String) : Prop :=
  ∃ text, h.get? a = some (.buffer name text true)

/-- No two live buffers have one name. -/
def NamesBuffers (h : Heap) : Prop := ∀ a b name, h.Lives a name → h.Lives b name → a = b

/-- A buffer lives under a name if its cell has that name. -/
theorem lives_iff_liveName? :
    h.Lives a name ↔ ∃ c, h.get? a = some c ∧ c.liveName? = some name := by
  constructor
  · rintro ⟨text, ha⟩
    exact ⟨_, ha, rfl⟩
  · rintro ⟨c, ha, hc⟩
    unfold Cell.liveName? at hc
    split at hc
    · cases hc
      exact ⟨_, ha⟩
    · cases hc

/-- What lives is live. -/
theorem Lives.isLiveBuffer (ha : h.Lives a name) : h.isLiveBuffer a = true := by
  obtain ⟨text, ha⟩ := ha
  simp only [Heap.isLiveBuffer, ha]

/-- A live buffer has the name under which it lives. -/
theorem Lives.bufferName (ha : h.Lives a name) : h.bufferName a = name := by
  obtain ⟨text, ha⟩ := ha
  simp only [Heap.bufferName, ha]

/-- A live buffer lives under its name. -/
theorem lives_of_isLiveBuffer (ha : h.isLiveBuffer a = true) : h.Lives a (h.bufferName a) := by
  unfold Heap.isLiveBuffer at ha
  split at ha
  · rename_i name text live hcell
    subst ha
    rw [Heap.bufferName, hcell]
    exact ⟨text, hcell⟩
  · cases ha

/-- A live buffer has an address in use. -/
theorem Lives.lt_size (ha : h.Lives a name) : a < h.size := by
  obtain ⟨text, ha⟩ := ha
  exact lt_size_of_get? ha

/-- What is found by a name lives. -/
theorem lives_of_findBuffer? (ha : h.findBuffer? name = some a) : h.Lives a name := by
  obtain ⟨hlive, rfl⟩ := of_findBuffer? ha
  exact lives_of_isLiveBuffer hlive

/-! ### The list of the buffers -/

/-- The heap lists the buffers that live, each of them once, and no two of them have one name. -/
structure ListsBuffers (h : Heap) : Prop where
  mem_iff : ∀ {a}, a ∈ h.buffers ↔ h.isLiveBuffer a = true
  nodup : h.buffers.Nodup
  names : h.NamesBuffers

namespace ListsBuffers

/-- A name finds the live buffer that has it. -/
theorem findBuffer?_iff (hl : h.ListsBuffers) : h.findBuffer? name = some a ↔ h.Lives a name := by
  refine ⟨lives_of_findBuffer?, fun ha => ?_⟩
  cases hfind : h.findBuffer? name with
  | none =>
    have hother := List.find?_eq_none.mp hfind a (hl.mem_iff.mpr ha.isLiveBuffer)
    simp [ha.isLiveBuffer, ha.bufferName] at hother
  | some b => rw [hl.names b a name (lives_of_findBuffer? hfind) ha]

/-- A buffer of a name that is not found does not live. -/
theorem not_lives (hl : h.ListsBuffers) (hnone : h.findBuffer? name = none) :
    ¬h.Lives a name := by
  intro ha
  rw [hl.findBuffer?_iff.mpr ha] at hnone
  cases hnone

end ListsBuffers

/-! ### What is done to buffers -/

/-- The same buffers live, and are listed. -/
structure SameBuffers (h h₁ : Heap) : Prop where
  lives_iff : ∀ {a name}, h₁.Lives a name ↔ h.Lives a name
  buffers : h₁.buffers = h.buffers

namespace SameBuffers

theorem refl (h : Heap) : h.SameBuffers h := ⟨.rfl, rfl⟩

theorem trans (h₀₁ : h.SameBuffers h₁) (h₁₂ : h₁.SameBuffers h₂) : h.SameBuffers h₂ :=
  ⟨h₁₂.lives_iff.trans h₀₁.lives_iff, h₁₂.buffers.trans h₀₁.buffers⟩

/-- The same buffers are live. -/
theorem isLiveBuffer (hs : h.SameBuffers h₁) : h₁.isLiveBuffer a = h.isLiveBuffer a :=
  Bool.eq_iff_iff.mpr
    ⟨fun ha => (hs.lives_iff.mp (lives_of_isLiveBuffer ha)).isLiveBuffer,
      fun ha => (hs.lives_iff.mpr (lives_of_isLiveBuffer ha)).isLiveBuffer⟩

/-- A name finds what it has found. -/
theorem findBuffer? (hs : h.SameBuffers h₁) : h₁.findBuffer? name = h.findBuffer? name := by
  rw [Heap.findBuffer?, Heap.findBuffer?, hs.buffers]
  refine congrArg (List.find? · h.buffers) (funext fun a => ?_)
  rw [hs.isLiveBuffer]
  cases ha : h.isLiveBuffer a with
  | false => rfl
  | true => rw [(hs.lives_iff.mpr (lives_of_isLiveBuffer ha)).bufferName]

/-- A list of the live buffers is one for each heap with the same buffers. -/
theorem listsBuffers (hs : h.SameBuffers h₁) (hl : h.ListsBuffers) : h₁.ListsBuffers where
  mem_iff := by
    intro a
    rw [hs.buffers, hs.isLiveBuffer]
    exact hl.mem_iff
  nodup := hs.buffers ▸ hl.nodup
  names a b name ha hb := hl.names a b name (hs.lives_iff.mp ha) (hs.lives_iff.mp hb)

end SameBuffers

theorem sameBuffers_allocate (h : Heap) {c : Cell} (hc : c.liveName? = none) :
    h.SameBuffers (h.allocate c).2 where
  lives_iff {a name} := by
    rw [lives_iff_liveName?, lives_iff_liveName?]
    constructor
    · rintro ⟨d, hd, hname⟩
      obtain hold | ⟨-, rfl⟩ := get?_allocate_cases hd
      · exact ⟨d, hold, hname⟩
      · rw [hc] at hname
        cases hname
    · rintro ⟨d, hd, hname⟩
      exact ⟨d, by rw [get?_allocate_of_lt c (lt_size_of_get? hd), hd], hname⟩
  buffers := rfl

/-- To change a cell, but not whether it is a live buffer of a name, changes no buffers. -/
theorem sameBuffers_modify (h : Heap) (a : Addr) {f : Cell → Cell}
    (hf : ∀ c, (f c).liveName? = c.liveName?) : h.SameBuffers (h.modify a f) where
  lives_iff {b name} := by
    rw [lives_iff_liveName?, lives_iff_liveName?]
    by_cases hb : b = a
    · subst hb
      rw [get?_modify_self]
      cases h.get? b with
      | none => exact Iff.rfl
      | some c => simp [hf]
    · rw [get?_modify_other h f hb]
  buffers := rfl

theorem sameBuffers_setValue (h : Heap) (a : Addr) (value : Option Obj) :
    h.SameBuffers (h.setValue a value) :=
  sameBuffers_modify h a fun c => by cases c <;> rfl

theorem sameBuffers_setFunction (h : Heap) (a : Addr) (function : Option Obj) :
    h.SameBuffers (h.setFunction a function) :=
  sameBuffers_modify h a fun c => by cases c <;> rfl

theorem sameBuffers_bind (h : Heap) (bindings : List (Addr × Obj))
    (saved : List (Addr × Option Obj)) : h.SameBuffers (h.bind bindings saved).2 := by
  induction bindings generalizing h saved with
  | nil => exact .refl h
  | cons b bindings ih => exact (sameBuffers_setValue h b.1 (some b.2)).trans (ih _ _)

theorem sameBuffers_restore (h : Heap) (saved : List (Addr × Option Obj)) :
    h.SameBuffers (h.restore saved) := by
  induction saved generalizing h with
  | nil => exact .refl h
  | cons s saved ih => exact (sameBuffers_setValue h s.1 s.2).trans (ih _)

/-- What has been added is no buffer. -/
theorem GrowsTo.sameBuffers (hg : h.GrowsTo h₁) : h.SameBuffers h₁ where
  lives_iff := ⟨fun ⟨text, ha⟩ => ⟨text, hg.buffer ha⟩, fun ⟨text, ha⟩ => ⟨text, hg.cell ha⟩⟩
  buffers := hg.buffers

/-- A buffer that is opened lives under its name, besides those that did before. -/
theorem lives_openBuffer_iff {n : String} :
    (h.openBuffer n).2.Lives a name ↔ h.Lives a name ∨ a = h.size ∧ name = n := by
  constructor
  · rintro ⟨text, ha⟩
    rw [get?_openBuffer] at ha
    obtain hold | ⟨rfl, hnew⟩ := get?_allocate_cases ha
    · exact .inl ⟨text, hold⟩
    · cases hnew
      exact .inr ⟨rfl, rfl⟩
  · rintro (⟨text, ha⟩ | ⟨rfl, rfl⟩)
    · refine ⟨text, ?_⟩
      rw [get?_openBuffer, get?_allocate_of_lt _ (lt_size_of_get? ha), ha]
    · refine ⟨"", ?_⟩
      rw [get?_openBuffer, get?_allocate_self]

/-- A buffer that is killed lives no more, and the others still do. -/
theorem lives_kill_iff : (h.kill a).Lives b name ↔ h.Lives b name ∧ b ≠ a := by
  rw [lives_iff_liveName?, get?_kill]
  by_cases hb : b = a
  · subst hb
    refine iff_of_false ?_ fun h => h.2 rfl
    rw [get?_modify_self]
    rintro ⟨c, hc, hname⟩
    obtain ⟨d, -, rfl⟩ := Option.map_eq_some_iff.mp hc
    cases d <;> cases hname
  · rw [get?_modify_other h _ hb, ← lives_iff_liveName?]
    exact (and_iff_left hb).symm

theorem isLiveBuffer_kill (h : Heap) (a : Addr) : (h.kill a).isLiveBuffer a = false :=
  Bool.eq_false_iff.mpr fun ha => (lives_kill_iff.mp (lives_of_isLiveBuffer ha)).2 rfl

/-- A buffer whose name is not found is listed when it has been opened. -/
theorem ListsBuffers.openBuffer (hl : h.ListsBuffers) (hnone : h.findBuffer? name = none) :
    (h.openBuffer name).2.ListsBuffers where
  mem_iff {a} := by
    change a ∈ h.buffers ++ [h.size] ↔ _
    rw [List.mem_append, List.mem_singleton, hl.mem_iff]
    constructor
    · rintro (ha | rfl)
      · exact (lives_openBuffer_iff.mpr (.inl (lives_of_isLiveBuffer ha))).isLiveBuffer
      · exact (lives_openBuffer_iff.mpr (.inr ⟨rfl, rfl⟩)).isLiveBuffer
    · intro ha
      -- a live buffer was listed before, or is the new one
      obtain hold | ⟨hnew, -⟩ := lives_openBuffer_iff.mp (lives_of_isLiveBuffer ha)
      · exact .inl hold.isLiveBuffer
      · exact .inr hnew
  nodup := by
    refine List.nodup_append.mpr ⟨hl.nodup, List.pairwise_singleton _ _, fun a ha b hb => ?_⟩
    obtain rfl := List.mem_singleton.mp hb
    have hlives := lives_of_isLiveBuffer (hl.mem_iff.mp ha)
    exact Nat.ne_of_lt hlives.lt_size
  names a b n ha hb := by
    obtain hold | ⟨rfl, rfl⟩ := lives_openBuffer_iff.mp ha
    -- two buffers of one name were both there before, as the new name was not
    · obtain hold' | ⟨rfl, rfl⟩ := lives_openBuffer_iff.mp hb
      · exact hl.names a b n hold hold'
      · exact absurd hold (hl.not_lives hnone)
    · obtain hold' | ⟨rfl, -⟩ := lives_openBuffer_iff.mp hb
      · exact absurd hold' (hl.not_lives hnone)
      · rfl

/-- A buffer that has been killed is listed no more. -/
theorem ListsBuffers.kill (hl : h.ListsBuffers) (a : Addr) : (h.kill a).ListsBuffers where
  mem_iff {b} := by
    change b ∈ h.buffers.filter (fun b => b != a) ↔ _
    rw [List.mem_filter, hl.mem_iff, bne_iff_ne]
    constructor
    · rintro ⟨hlive, hne⟩
      exact (lives_kill_iff.mpr ⟨lives_of_isLiveBuffer hlive, hne⟩).isLiveBuffer
    · intro hb
      obtain ⟨hlives, hne⟩ := lives_kill_iff.mp (lives_of_isLiveBuffer hb)
      exact ⟨hlives.isLiveBuffer, hne⟩
  nodup := hl.nodup.filter _
  names b c n hb hc := hl.names b c n (lives_kill_iff.mp hb).1 (lives_kill_iff.mp hc).1

end Heap

/-! ### Buffers in runs -/

section Runs

variable {w w₁ : World} {a b : Addr} {name : String}

/-- The name of the buffer that a procedure is about to have made unless it is there. -/
def Proc.ensures? : Proc α → Option String
  | .act (.ensureBuffer name) _ => some name
  | _ => none

/-- All that a change does to buffers is to open one whose name is not found, or to kill one. -/
theorem Change.buffers_run (c : Change α) (w : World) :
    w.host.heap.SameBuffers (c.run w).2.host.heap ∨
      (∃ name, (∀ next : α → Proc β, (Proc.act c next).ensures? = some name) ∧
        w.host.heap.findBuffer? name = none ∧
        (c.run w).2.host.heap = (w.host.heap.openBuffer name).2) ∨
      ∃ a, (c.run w).2.host.heap = w.host.heap.kill a := by
  have hsame : (c.run w).2.host = w.host → w.host.heap.SameBuffers (c.run w).2.host.heap :=
    fun h => h ▸ .refl _
  -- buffers are made and killed by one change each
  cases c with
  | ensureBuffer n =>
    simp only [run, World.onHost, Interpreter.ensureBuffer]
    split
    · exact .inl (.refl _)
    · rename_i hnone
      exact .inr (.inl ⟨n, fun _ => rfl, hnone, rfl⟩)
  | killBuffer a => exact .inr (.inr ⟨a, rfl⟩)
  | make f => exact .inl (Heap.sameBuffers_allocate _ (by cases f <;> rfl))
  | intern n => exact .inl (Interpreter.growsTo_intern w.host n).heap.sameBuffers
  | retain o =>
    simp only [run, World.onHost, Interpreter.retain]
    split <;> exact .inl (.refl _)
  | sweep =>
    change w.host.heap.SameBuffers w.sweep.2.host.heap ∨ _
    rw [World.heap_sweep]
    exact .inl (.refl _)
  | setValue a o => exact .inl (Heap.sameBuffers_setValue _ _ _)
  | setFunction a o => exact .inl (Heap.sameBuffers_setFunction _ _ _)
  | setHead _ _ | setItem _ _ _ | putEntry _ _ _ =>
    exact .inl (Heap.sameBuffers_modify _ _ fun c => by cases c <;> rfl)
  | appendText a s =>
    refine .inl (Heap.sameBuffers_modify _ _ fun c => ?_)
    cases c with
    | buffer name text live => cases live <;> rfl
    | _ => rfl
  | unintern _ | selectBuffer _ | temporaryName | release _ => exact .inl (.refl _)
  | _ => exact .inl (hsame (host_run w trivial))

theorem Scope.sameBuffers_enter {s : Scope} {u : Undo} (hs : s.enter w = .ok (u, w₁)) :
    w.host.heap.SameBuffers w₁.host.heap := by
  obtain ⟨-, heq | ⟨bindings, heq⟩⟩ := Scope.enter_cases hs
  · rw [heq]
    exact .refl _
  · rw [heq]
    exact Heap.sameBuffers_bind _ _ _

/-- The end of a scope changes no buffers, or kills one. -/
theorem Undo.buffers_run (u : Undo) (w : World) :
    w.host.heap.SameBuffers (u.run w).host.heap ∨ ∃ a, (u.run w).host.heap = w.host.heap.kill a := by
  cases u with
  | restore saved => exact .inl (Heap.sameBuffers_restore _ _)
  | killAndSelect b c => exact .inr ⟨b, rfl⟩
  | _ => exact .inl (.refl _)

/-- A scope that is left makes no buffer: what lives then lived before. -/
theorem Undo.lives_run {u : Undo} (ha : (u.run w).host.heap.Lives a name) :
    w.host.heap.Lives a name := by
  obtain hsame | ⟨b, hkill⟩ := u.buffers_run w
  · exact hsame.lives_iff.mp ha
  · rw [hkill] at ha
    exact (Heap.lives_kill_iff.mp ha).1

/-- Ending scopes makes no buffer live. -/
theorem Stack.lives_leave {k : Stack γ α} (ha : (k.leave w).host.heap.Lives a name) :
    w.host.heap.Lives a name := by
  induction k generalizing w with
  | top => exact ha
  | push f rest ih =>
    cases f with
    | scope u next => exact Undo.lives_run (ih ha)
    | result t next | attempt next | loop part next => exact ih ha

namespace Moment

variable {m m' : Moment γ}

/-- A buffer of a name is about to be made, as there is none that lives. -/
def Makes (name : String) (m : Moment γ) : Prop :=
  m.proc.ensures? = some name ∧ m.world.host.heap.findBuffer? name = none

instance (name : String) (m : Moment γ) : Decidable (m.Makes name) := by
  unfold Makes
  infer_instance

/-- All that a step does to buffers is to open one that is about to be made, or to kill one. -/
theorem Goes.buffers (h : Goes m m') :
    m.world.host.heap.SameBuffers m'.world.host.heap ∨
      (∃ name, m.Makes name ∧ m'.world.host.heap = (m.world.host.heap.openBuffer name).2) ∨
      ∃ a, m'.world.host.heap = m.world.host.heap.kill a := by
  cases h with
  | next h =>
    -- a step is a change, an end of a scope, or leaves the heap alone
    obtain heq | ⟨β, c, next, hp, heq⟩ | ⟨s, u, hs⟩ | ⟨u, heq⟩ := world_cases h
    · rw [heq]
      exact .inl (.refl _)
    · rw [heq]
      obtain hsame | ⟨name, hensures, hnone, hopen⟩ | hkill := c.buffers_run m.world
      · exact .inl hsame
      · exact .inr (.inl ⟨name, ⟨by rw [hp]; exact hensures next, hnone⟩, hopen⟩)
      · exact .inr (.inr hkill)
    · exact .inl (Scope.sameBuffers_enter hs)
    · rw [heq]
      exact (u.buffers_run m.world).imp id .inr
  | sweep _ =>
    change _ ∨ (∃ name, m.Makes name ∧ m.world.sweep.2.host.heap = _) ∨
      ∃ a, m.world.sweep.2.host.heap = _
    refine .inl ?_
    change m.world.host.heap.SameBuffers m.world.sweep.2.host.heap
    rw [World.heap_sweep]
    exact .refl _

/-- A buffer that lives has lived before, or it is new. -/
theorem Goes.lives (h : Goes m m') (ha : m'.world.host.heap.Lives a name) :
    m.world.host.heap.Lives a name ∨ m.Makes name ∧ a = m.world.host.heap.size := by
  obtain hsame | ⟨n, hmakes, hopen⟩ | ⟨b, hkill⟩ := h.buffers
  · exact .inl (hsame.lives_iff.mp ha)
  · rw [hopen] at ha
    obtain hold | ⟨hnew, rfl⟩ := Heap.lives_openBuffer_iff.mp ha
    · exact .inl hold
    · exact .inr ⟨hmakes, hnew⟩
  · rw [hkill] at ha
    exact .inl (Heap.lives_kill_iff.mp ha).1

/-- A buffer that lives has lived before, or one of its name has been made since. -/
theorem Becomes.lives (h : Becomes m m') (ha : m'.world.host.heap.Lives a name) :
    m.world.host.heap.Lives a name ∨
      ∃ m₁, Becomes m m₁ ∧ m₁.Makes name ∧ Becomes m₁ m' := by
  induction h using Relation.ReflTransGen.head_induction_on with
  | refl => exact .inl ha
  | @head m m₁ hgo hm ih =>
    obtain hlives | ⟨m₂, hm₂, hmakes, hend⟩ := ih
    · obtain hold | ⟨hmakes, -⟩ := hgo.lives hlives
      · exact .inl hold
      · exact .inr ⟨m, .refl, hmakes, .head hgo hm⟩
    · exact .inr ⟨m₂, .head hgo hm₂, hmakes, hend⟩

/-- The buffers that live are listed after a step if they were before. -/
theorem Goes.listsBuffers (h : Goes m m') (hm : m.world.host.heap.ListsBuffers) :
    m'.world.host.heap.ListsBuffers := by
  obtain hsame | ⟨name, hmakes, hopen⟩ | ⟨a, hkill⟩ := h.buffers
  · exact hsame.listsBuffers hm
  · rw [hopen]
    exact hm.openBuffer hmakes.2
  · rw [hkill]
    exact hm.kill a

/-- A run keeps the list of live buffers. -/
theorem Becomes.listsBuffers (h : Becomes m m') (hm : m.world.host.heap.ListsBuffers) :
    m'.world.host.heap.ListsBuffers := by
  induction h with
  | refl => exact hm
  | tail _ hgo ih => exact hgo.listsBuffers ih

theorem Reaches.becomes {ok : Moment γ → Prop} (h : Reaches ok m m') : Becomes m m' :=
  Relation.ReflTransGen.mono (fun _ _ hgo => hgo.2) _ _ h

end Moment

namespace Interpreter

theorem sameBuffers_define (i : Interpreter) (b : Builtin) :
    i.heap.SameBuffers (i.define b).heap := by
  let j : Interpreter := { i with heap := (i.heap.allocate (.builtin b)).2 }
  have hsame : i.heap.SameBuffers (j.intern b.name).2.heap :=
    (Heap.sameBuffers_allocate i.heap rfl).trans (growsTo_intern j b.name).heap.sameBuffers
  unfold define
  dsimp only
  split
  · rename_i hs
    rw [show j.intern b.name = _ from hs] at hsame
    exact hsame.trans (Heap.sameBuffers_setFunction _ _ _)
  · rename_i hs
    rw [show j.intern b.name = _ from hs] at hsame
    exact hsame

theorem sameBuffers_foldl_define (bs : List Builtin) (i : Interpreter) :
    i.heap.SameBuffers (bs.foldl define i).heap := by
  induction bs generalizing i with
  | nil => exact .refl _
  | cons b bs ih => exact (i.sameBuffers_define b).trans (ih _)

/-- The builtins bring no buffers with them. -/
theorem sameBuffers_initial : Heap.SameBuffers
    ⟨#[.buffer "*scratch*" "" true, .symbol truthName (some (.ref 1)) none], [0]⟩ initial.heap :=
  sameBuffers_foldl_define Builtin.all ⟨_, _, _, _, _, _, _, _, _⟩

/-- At the start there is one buffer. -/
theorem lives_initial (ha : initial.heap.Lives a name) : a = 0 ∧ name = "*scratch*" := by
  replace ha := sameBuffers_initial.lives_iff.mp ha
  obtain ⟨text, hcell⟩ := ha
  match a, hcell with
  | 0, hcell => exact ⟨rfl, (Cell.buffer.inj (Option.some.inj hcell)).1.symm⟩
  | 1, hcell => exact Cell.noConfusion (Option.some.inj hcell)

/-- The first interpreter lists its only buffer. -/
theorem listsBuffers_initial : initial.heap.ListsBuffers where
  mem_iff {a} := by
    rw [sameBuffers_initial.buffers, List.mem_singleton]
    constructor
    · rintro rfl
      exact sameBuffers_initial.isLiveBuffer
    · intro ha
      exact (lives_initial (Heap.lives_of_isLiveBuffer ha)).1
  nodup := by
    rw [sameBuffers_initial.buffers]
    exact List.pairwise_singleton _ _
  names a b name ha hb := by rw [(lives_initial ha).1, (lives_initial hb).1]

end Interpreter

/-- In sessions the buffers that live are listed. -/
theorem Proc.IsReached.listsBuffers {p : Proc α} (h : p.IsReached w) :
    w.host.heap.ListsBuffers := by
  obtain ⟨config, steps, _, f, k, hr⟩ := h
  exact (Moment.Reaches.becomes hr).listsBuffers Interpreter.listsBuffers_initial

end Runs

/-! ### Scopes that choose a buffer -/

/-- Whether a scope makes a buffer current. -/
def Scope.chooses : Scope → Bool
  | .buffer _ | .temporary _ => true
  | _ => false

/-- Whether another buffer is current when a scope has ended. -/
def Undo.selects : Undo → Bool
  | .select _ | .killAndSelect _ _ => true
  | _ => false

/-- The scope that a procedure is about to start. -/
def Proc.scope? : Proc α → Option Scope
  | .inside s _ _ => some s
  | _ => none

/-- To leave a scope that selects no buffer leaves the current one alone. -/
theorem Undo.current_run {u : Undo} (hu : u.selects = false) (w : World) :
    (u.run w).host.current = w.host.current := by
  cases u with
  | select _ | killAndSelect _ _ => cases hu
  | _ => rfl

/-- To leave a scope selects a buffer if entering it did. -/
theorem Scope.selects_of_enter {s : Scope} {u : Undo} {w w₁ : World}
    (hs : s.enter w = .ok (u, w₁)) : u.selects = s.chooses := by
  cases s with
  | evaluation | source =>
    simp only [enter] at hs
    split at hs
    · cases hs
    · cases hs
      rfl
  | _ =>
    cases hs
    rfl

namespace Moment

variable {m m' : Moment γ}

/-- Whether a task itself, and no task that it waits for, is about to make a buffer
current. -/
def Chooses (m : Moment γ) : Prop :=
  m.stack.isOwn = true ∧ m.proc.scope?.any Scope.chooses = true

instance (m : Moment γ) : Decidable m.Chooses := by
  unfold Chooses
  infer_instance

/-- Unless a task chooses a buffer, the ends of its scopes do not choose one. -/
theorem opensAs_of_not_chooses (hm : ¬m.Chooses) : m.OpensAs fun u => u.selects = false := by
  intro β s part next u w₁ hp hown hs
  rw [Scope.selects_of_enter hs]
  refine Bool.eq_false_iff.mpr fun hchooses => hm ⟨hown, ?_⟩
  rw [hp]
  exact hchooses

/-- A run that chooses later goes on with the next step. -/
theorem reaches_of_next {m₀ m₁ : Moment γ} (h : Reaches (fun m => ¬m.Chooses) m₀ m)
    (hm : m.Chooses) (hnext : m₀.next = some m₁) (hsafe : m₀.isSafepoint = false)
    (h₀ : m₀.proc.scope?.any Scope.chooses = false) : Reaches (fun m => ¬m.Chooses) m₁ m := by
  obtain rfl | ⟨m', ⟨-, hgo⟩, hrest⟩ := h.cases_head
  · rw [hm.2] at h₀
    cases h₀
  · cases hgo with
    | next h' =>
      obtain rfl := Option.some.inj (hnext.symm.trans h')
      exact hrest
    | sweep hs =>
      rw [hsafe] at hs
      cases hs

/-- A run that fails where nothing waits for failures chooses nothing any more. -/
theorem not_chooses_of_failed {e : Failure} {k : Stack γ α} {w : World}
    (hk : k.isClear = true) (h : Becomes ⟨.stop (.failure e), k, w⟩ m) : ¬m.Chooses := by
  intro hm
  have hscope := hm.2
  rw [(Stack.unwinds hk).only m h] at hscope
  cases hscope

end Moment

/-! ### Forms that choose a buffer -/

/-- Whether a task evaluates a form that makes a buffer current for its body. -/
def Call.choosesBuffer (c : Call α) : Bool :=
  match c.task with
  | .evaluate form =>
    match c.world.host.heap.specialForm? form with
    | some .withBuffer | some .withTemporaryBuffer => true
    | _ => false
  | _ => false

/-- A form that starts with `with-temp-buffer` chooses a buffer when it is evaluated. -/
theorem Call.choosesBuffer_of_specialForm? {form : Obj} {w : World}
    (hform : w.host.heap.specialForm? form = some .withTemporaryBuffer) :
    (Call.mk (.evaluate form) w).choosesBuffer = true := by
  simp only [Call.choosesBuffer, hform]

/-- A call that chooses a buffer is one of those that put something back. -/
theorem Call.isScoped_of_choosesBuffer {c : Call α} (hc : c.choosesBuffer = true) :
    c.task.isScoped c.world.host.heap = true := by
  obtain ⟨t, w⟩ := c
  cases t with
  | evaluate form =>
    simp only [choosesBuffer] at hc
    simp only [Task.isScoped]
    split at hc
    all_goals simp_all [SpecialForm.isScoped]
  | apply f args | close c | play steps args | step s args => cases hc

/-- A form that has made a buffer current ends with the end of this scope: nothing is done
any more but to end the scopes around it, which choose no buffer. -/
theorem Call.ends_of_chooses {c : Call α} (hc : c.choosesBuffer = true) {m : Moment α}
    (hm : Moment.Reaches (fun m => ¬m.Chooses) c.start m) (hchooses : m.Chooses)
    {r : Except Failure α} {w : World} (hend : m.Becomes ⟨Proc.ofExcept r, .top, w⟩) :
    ∃ s u w₁ w₂, m.proc.scope? = some s ∧ s.chooses = true ∧ s.enter m.world = .ok (u, w₁) ∧
      w = m.stack.leave (u.run w₂) ∧ m.stack.ScopesOnly fun u => u.selects = false := by
  have hlast : m.ScopesLast fun u => u.selects = false :=
    (Call.scopesLast_start (isScoped_of_choosesBuffer hc)).reaches
      (Moment.reaches_mono (fun _ => Moment.opensAs_of_not_chooses) hm)
  obtain ⟨p, k, w₀⟩ := m
  obtain ⟨hown, hp⟩ := hchooses
  cases p with
  | inside s part next =>
    obtain ⟨hnext, hk⟩ := hlast.of_isOwn hown
    obtain ⟨u, w₁, hs⟩ : ∃ u w₁, s.enter w₀ = .ok (u, w₁) := by
      cases s with
      | buffer a | temporary a => exact ⟨_, _, rfl⟩
      | _ => cases hp
    obtain ⟨r', w₂, -, rfl⟩ := Moment.exists_end_of_inside hnext hk hs hend
    exact ⟨s, u, w₁, w₂, rfl, hp, hs, rfl, hk⟩
  | _ => cases hp

/-- When a form ends that has made a buffer current, the buffer is current that was so
right before. -/
theorem Call.current_restored {c : Call α} (hc : c.choosesBuffer = true) {m : Moment α}
    (hm : Moment.Reaches (fun m => ¬m.Chooses) c.start m) (hchooses : m.Chooses)
    {r : Except Failure α} {w : World} (hend : m.Becomes ⟨Proc.ofExcept r, .top, w⟩) :
    w.host.current = m.world.host.current := by
  obtain ⟨s, u, w₁, w₂, -, hs, henter, rfl, hk⟩ := ends_of_chooses hc hm hchooses hend
  have hrest : (m.stack.leave (u.run w₂)).host.current = (u.run w₂).host.current :=
    hk.leave (fun w => w.host.current) (fun _ w hu => Undo.current_run hu w) _
  rw [hrest]
  cases s with
  | buffer a | temporary a =>
    cases henter
    rfl
  | _ => cases hs

/-! ### Temporary buffers -/

/-- The buffer of a name is the live one that there is, or it is new. -/
theorem Interpreter.ensureBuffer_cases (i : Interpreter) (name : String) :
    (∃ a, i.heap.findBuffer? name = some a ∧ i.ensureBuffer name = (a, i)) ∨
      i.heap.findBuffer? name = none ∧ i.ensureBuffer name = i.openBuffer name := by
  unfold ensureBuffer
  cases h : i.heap.findBuffer? name with
  | some a => exact .inl ⟨a, rfl, rfl⟩
  | none => exact .inr ⟨rfl, rfl⟩

/-- The buffer of a name that there is to be lives. -/
theorem Interpreter.lives_ensureBuffer (i : Interpreter) (name : String) :
    (i.ensureBuffer name).2.heap.Lives (i.ensureBuffer name).1 name := by
  unfold ensureBuffer
  split
  · rename_i a hfind
    exact Heap.lives_of_findBuffer? hfind
  · exact ⟨"", Heap.get?_allocate_self _ _⟩

/-- A body is about to be evaluated in a temporary buffer that lives. -/
theorem Moment.exists_temporary {body : List Obj} {k : Stack γ Obj} {w : World} {m : Moment γ}
    (hk : k.isOwn = true)
    (hm : Reaches (fun m => ¬m.Chooses) ⟨Host.withTemporaryBuffer body, k, w⟩ m)
    (hchooses : m.Chooses) :
    ∃ a name, m.proc.scope? = some (.temporary a) ∧ m.world.host.heap.Lives a name := by
  let w₁ : World := (Change.temporaryName.run w).2
  let name : String := w.host.temporaryName
  -- first the name, then the buffer, and then the scope starts
  have hname : Reaches (fun m => ¬m.Chooses) ⟨Proc.change (.ensureBuffer name) >>= fun a =>
      Proc.within (.temporary a) (Host.sequence body), k, w₁⟩ m :=
    reaches_of_next hm hchooses rfl rfl rfl
  have hbuffer : Reaches (fun m => ¬m.Chooses)
      ⟨Proc.within (.temporary (w₁.host.ensureBuffer name).1) (Host.sequence body), k,
        ((Change.ensureBuffer name).run w₁).2⟩ m :=
    reaches_of_next hname hchooses rfl rfl rfl
  obtain rfl | ⟨m', ⟨hnot, -⟩, -⟩ := hbuffer.cases_head
  · exact ⟨_, name, rfl, w₁.host.lives_ensureBuffer name⟩
  · exact absurd ⟨hk, rfl⟩ hnot

/-- A form with a temporary buffer is about to make it current, and it lives. -/
theorem Call.exists_temporary {form : Obj} {w : World}
    (hform : w.host.heap.specialForm? form = some .withTemporaryBuffer) {m : Moment Obj}
    (hm : Moment.Reaches (fun m => ¬m.Chooses) (Call.mk (.evaluate form) w).start m)
    (hchooses : m.Chooses) :
    ∃ a name, m.proc.scope? = some (.temporary a) ∧ m.world.host.heap.Lives a name := by
  change Moment.Reaches _ ⟨.inside .evaluation (Host.valueOf form) .done, .top, w⟩ m at hm
  -- the evaluation goes on to the name, the buffer and the scope, with nothing chosen before
  cases hs : Scope.evaluation.enter w with
  | error f =>
    have hfails := Moment.reaches_of_next hm hchooses (Moment.next_refused hs) rfl rfl
    exact absurd hchooses (Moment.not_chooses_of_failed rfl hfails.becomes)
  | ok entered =>
    obtain ⟨u, w₁⟩ := entered
    have hheap := Scope.heap_of_evaluation hs
    have hvalue := Moment.reaches_of_next hm hchooses (Moment.next_inside hs) rfl rfl
    have hshaped := Moment.reaches_of_next hvalue hchooses rfl rfl rfl
    unfold Heap.specialForm? at hform
    split at hform
    · rename_i head tail hshape
      simp only [Proc.bind, Query.ask, hheap, hshape] at hshaped
      have hlisted := Moment.reaches_of_next hshaped hchooses rfl rfl rfl
      simp only [Proc.bind, Query.ask, hheap, hform] at hlisted
      cases hargs : w.host.heap.list? tail with
      | none =>
        rw [hargs] at hlisted
        exact absurd hchooses (Moment.not_chooses_of_failed rfl hlisted.becomes)
      | some args =>
        rw [hargs] at hlisted
        exact Moment.exists_temporary rfl hlisted hchooses
    · cases hform

/-- When a form with a temporary buffer ends, the buffer is dead, and it is found by its
name only if one of that name has been made since, after all of that name were dead. -/
theorem Call.temporary_killed {form : Obj} {w : World}
    (hreached : (Proc.perform (.evaluate form)).IsReached w)
    (hform : w.host.heap.specialForm? form = some .withTemporaryBuffer) {m : Moment Obj}
    (hm : Moment.Reaches (fun m => ¬m.Chooses) (Call.mk (.evaluate form) w).start m)
    (hchooses : m.Chooses) {r : Except Failure Obj} {w₁ : World}
    (hend : m.Becomes ⟨Proc.ofExcept r, .top, w₁⟩) :
    ∃ a name, m.proc.scope? = some (.temporary a) ∧ m.world.host.heap.Lives a name ∧
      w₁.host.heap.isLiveBuffer a = false ∧
      ∀ b, w₁.host.heap.findBuffer? name = some b → ∃ m₁, m.Becomes m₁ ∧ m₁.Makes name ∧
        m₁.Becomes ⟨Proc.ofExcept r, .top, w₁⟩ := by
  obtain ⟨a, name, ha, hlives⟩ := Call.exists_temporary hform hm hchooses
  have hlists : m.world.host.heap.ListsBuffers :=
    hm.becomes.listsBuffers (Proc.IsReached.listsBuffers hreached.task)
  have hdead : w₁.host.heap.isLiveBuffer a = false := by
    have hc := Call.choosesBuffer_of_specialForm? hform
    obtain ⟨s, u, w₂, w₃, hs, -, henter, rfl, -⟩ := Call.ends_of_chooses hc hm hchooses hend
    obtain rfl := Option.some.inj (hs.symm.trans ha)
    cases henter
    refine Bool.eq_false_iff.mpr fun hlive => ?_
    have hkilled := (Stack.lives_leave (Heap.lives_of_isLiveBuffer hlive)).isLiveBuffer
    rw [show (Undo.run _ w₃).host.heap = w₃.host.heap.kill a from rfl,
      Heap.isLiveBuffer_kill] at hkilled
    cases hkilled
  refine ⟨a, name, ha, hlives, hdead, fun b hb => ?_⟩
  have hb := Heap.lives_of_findBuffer? hb
  obtain hold | hmade := hend.lives hb
  · -- the buffer of the name was the temporary one, and that is dead
    obtain rfl := hlists.names b a name hold hlives
    rw [hb.isLiveBuffer] at hdead
    cases hdead
  · exact hmade

end Crossing
