import Crossing.Proofs.PrintedObjects
import Crossing.Proofs.References
import Crossing.Proofs.Start

/-!
# Chains of pairs

An object may come to contain itself: a program can replace the first half of a pair, an item of
a vector, an entry of a table and the value of a symbol by any object. But it cannot replace the
second half of a pair, and this has been there before the pair. So whoever goes on from pair to
second half comes to an end.

- `Heap.Ordered`: the second half of each pair is older than the pair;
- `Change.ordered_run`, `Moment.Goes.ordered`: so it stays, whatever is done;
- `Heap.Ordered.wellFounded_follows`: one cannot go on from pair to second half for ever;
- `Heap.Ordered.exists_walks`: what such a walk sees, and the heap sees no less;
- `Transcript.chains_end`: so it is in all sessions.
-/

namespace Crossing

variable {α γ : Type} {n : Nat} {w w₁ : World} {a : Addr} {o p last tail : Obj} {items : List Obj}

/-! ### Second halves -/

/-- The second half of a pair. -/
def Cell.tail? : Cell → Option Obj
  | .cons _ tail => some tail
  | _ => none

namespace Heap

variable {h h₁ : Heap} {c : Cell} {f : Cell → Cell}

/-- The second half of each pair is older than the pair. -/
def Ordered (h : Heap) : Prop :=
  ∀ a c tail, h.get? a = some c → c.tail? = some tail → tail.Below a

namespace Ordered

/-- A new cell keeps the order if its tail lies below it. -/
theorem allocate (ho : h.Ordered) (hc : ∀ tail, c.tail? = some tail → tail.Below h.size) :
    (h.allocate c).2.Ordered := by
  intro a d tail hd htail
  obtain hold | ⟨rfl, rfl⟩ := get?_allocate_cases hd
  · exact ho a d tail hold htail
  · exact hc tail htail

/-- To change a cell leaves the order, unless a second half is replaced. -/
theorem modify (ho : h.Ordered) (hf : ∀ c, (f c).tail? = c.tail?) : (h.modify a f).Ordered := by
  intro b c tail hc htail
  by_cases hb : b = a
  · subst hb
    rw [get?_modify_self] at hc
    obtain ⟨d, hd, rfl⟩ := Option.map_eq_some_iff.mp hc
    rw [hf] at htail
    exact ho b d tail hd htail
  · rw [get?_modify_other h f hb] at hc
    exact ho b c tail hc htail

/-- To set a value keeps the order, as a symbol is no pair. -/
theorem setValue (ho : h.Ordered) (value : Option Obj) : (h.setValue a value).Ordered :=
  ho.modify fun c => by cases c <;> rfl

/-- A new buffer keeps the order, as it is no pair. -/
theorem openBuffer (ho : h.Ordered) (name : String) : (h.openBuffer name).2.Ordered := by
  have hallocated : (h.allocate (.buffer name "" true)).2.Ordered :=
    ho.allocate fun tail htail => by cases htail
  exact fun b c tail hc => hallocated b c tail hc

/-- To kill a buffer keeps the order, as it is no pair. -/
theorem kill (ho : h.Ordered) (a : Addr) : (h.kill a).Ordered := by
  have hmodified : (h.modify a Cell.killed).Ordered := ho.modify fun c => by cases c <;> rfl
  exact fun b c tail hc => hmodified b c tail hc

theorem bind (ho : h.Ordered) (bindings : List (Addr × Obj)) (saved : List (Addr × Option Obj)) :
    (h.bind bindings saved).2.Ordered := by
  induction bindings generalizing h saved with
  | nil => exact ho
  | cons b bindings ih => exact ih (ho.setValue (some b.2)) _

/-- To restore variables keeps the order. -/
theorem restore (ho : h.Ordered) (saved : List (Addr × Option Obj)) :
    (h.restore saved).Ordered := by
  induction saved generalizing h with
  | nil => exact ho
  | cons s saved ih => exact ih (ho.setValue s.2)

end Ordered

theorem below_known (h : Heap) (o : Obj) : (h.known o).Below h.size := by
  cases o with
  | ref a =>
    simp only [known]
    by_cases ha : a < h.size
    · rwa [if_pos ha]
    · rw [if_neg ha]
      trivial
  | _ => trivial

/-- A pair is made of an object that is there already. -/
theorem Ordered.make (ho : h.Ordered) (f : Fresh) : (h.make f).2.Ordered := by
  refine ho.allocate fun tail htail => ?_
  cases f with
  | cons head t =>
    obtain rfl := Option.some.inj htail
    exact h.below_known t
  | _ => cases htail

end Heap

/-! ### Runs -/

/-- No change brings the order of second halves to an end. -/
theorem Change.ordered_run (c : Change α) (hw : w.host.heap.Ordered) :
    (c.run w).2.host.heap.Ordered := by
  have hsame : (c.run w).2.host = w.host → (c.run w).2.host.heap.Ordered := fun h => h ▸ hw
  -- pairs come from new objects only, and their tails are older than they are
  cases c with
  | make f => exact hw.make f
  | intern name =>
    simp only [run, World.onHost, Interpreter.intern]
    split
    · exact hw
    · split
      · exact hw
      · exact hw.allocate fun tail htail => by cases htail
  | ensureBuffer name =>
    simp only [run, World.onHost, Interpreter.ensureBuffer]
    split
    · exact hw
    · exact hw.openBuffer name
  | killBuffer a => exact hw.kill a
  | setValue a o => exact hw.setValue (some o)
  | setHead _ _ | setFunction _ _ | setItem _ _ _ | putEntry _ _ _ | appendText _ _ =>
    exact hw.modify fun c => by cases c <;> rfl
  | retain o =>
    simp only [run, World.onHost, Interpreter.retain]
    split <;> exact hw
  | sweep =>
    change w.sweep.2.host.heap.Ordered
    rwa [World.heap_sweep]
  | unintern _ | selectBuffer _ | temporaryName | release _ => exact hw
  | _ => exact hsame (host_run w trivial)

/-- To enter a scope keeps the order. -/
theorem Scope.ordered_enter {s : Scope} {u : Undo} (hs : s.enter w = .ok (u, w₁))
    (hw : w.host.heap.Ordered) : w₁.host.heap.Ordered := by
  obtain ⟨-, heq | ⟨bindings, heq⟩⟩ := Scope.enter_cases hs
  · rwa [heq]
  · rw [heq]
    exact hw.bind bindings []

/-- To leave a scope keeps the order. -/
theorem Undo.ordered_run (u : Undo) (hw : w.host.heap.Ordered) :
    (u.run w).host.heap.Ordered := by
  cases u with
  | restore saved => exact hw.restore saved
  | killAndSelect a b => exact hw.kill a
  | _ => exact hw

namespace Moment

variable {m m' : Moment γ}

/-- Each step keeps the order. -/
theorem Goes.ordered (h : Goes m m') (hm : m.world.host.heap.Ordered) :
    m'.world.host.heap.Ordered := by
  cases h with
  | next h =>
    obtain heq | ⟨β, c, next, -, heq⟩ | ⟨s, u, hs⟩ | ⟨u, heq⟩ := world_cases h
    · rwa [heq]
    · rw [heq]
      exact c.ordered_run hm
    · exact Scope.ordered_enter hs hm
    · rw [heq]
      exact u.ordered_run hm
  | sweep _ => exact Change.sweep.ordered_run hm

/-- A run keeps the order. -/
theorem Reaches.ordered {ok : Moment γ → Prop} (h : Reaches ok m m')
    (hm : m.world.host.heap.Ordered) : m'.world.host.heap.Ordered := by
  induction h with
  | refl => exact hm
  | tail _ hgo ih => exact hgo.2.ordered ih

end Moment

/-- Builtins and their symbols are no pairs. -/
theorem Builtin.tail?_of_mem_cells {bs : List Builtin} {c : Cell} (hc : c ∈ cells bs a) :
    c.tail? = none := by
  induction bs generalizing a with
  | nil => exact absurd hc List.not_mem_nil
  | cons b bs ih =>
    rcases List.mem_cons.mp hc with rfl | hc
    · rfl
    · rcases List.mem_cons.mp hc with rfl | hc
      · rfl
      · exact ih hc

/-- At the start there are no pairs. -/
theorem Interpreter.ordered_initial : initial.heap.Ordered := by
  rw [initial_eq]
  intro a c tail hc htail
  have hmem : c ∈ laidOut.heap.cells.toList := Array.mem_toList_iff.mpr (Array.mem_of_getElem? hc)
  have hnone : c.tail? = none := by
    rcases List.mem_cons.mp hmem with rfl | hmem
    · rfl
    · rcases List.mem_cons.mp hmem with rfl | hmem
      · rfl
      · exact Builtin.tail?_of_mem_cells hmem
  rw [hnone] at htail
  cases htail

/-! ### Walks along chains -/

/-- How far up in the heap an object lies. What lies nowhere in it lies at the bottom. -/
def Obj.height : Obj → Nat
  | .ref a => a + 1
  | _ => 0

/-- The height of an object is a bound for it. -/
theorem Obj.height_le_iff : o.height ≤ n ↔ o.Below n := by
  cases o with
  | ref a => exact Iff.rfl
  | _ => exact iff_of_true (Nat.zero_le n) trivial

namespace Heap

variable {h : Heap}

/-- An object is what a walk comes to next from a pair: its second half. -/
def Follows (h : Heap) (o p : Obj) : Prop := ∃ a head, p = .ref a ∧ h.get? a = some (.cons head o)

/-- What follows an object lies above it. -/
theorem Ordered.height_lt (ho : h.Ordered) (hf : h.Follows o p) : o.height < p.height := by
  obtain ⟨a, head, rfl, ha⟩ := hf
  exact Nat.lt_succ_of_le (Obj.height_le_iff.mpr (ho a _ o ha rfl))

/-- There is no walk without an end. -/
theorem Ordered.wellFounded_follows (ho : h.Ordered) : WellFounded h.Follows :=
  Subrelation.wf ho.height_lt (InvImage.wf Obj.height Nat.lt_wfRel.wf)

/-- A walk from an object sees these first halves and ends at what is no pair. The heap sees the
same however many more pairs it is ready for. It takes the object for a list only if `nil` is at
the end, and a pair is printed as these items and what is at the end. -/
structure Walks (h : Heap) (o : Obj) (items : List Obj) (last : Obj) : Prop where
  chain : h.Chain o items last
  ends : ∀ head tail, h.shape last ≠ .cell (.cons head tail)
  length_le : items.length ≤ h.size
  spineWithin : ∀ n, items.length ≤ n → h.spineWithin n o = (items, last)
  list? : h.list? o = if last.isNil then some items else none
  printWithin : items ≠ [] → ∀ n, h.printWithin (n + 1) o =
    "(" ++ " ".intercalate (items.map (h.printWithin n)) ++
      if last.isNil then ")" else " . " ++ h.printWithin n last ++ ")"

/-- A chain with an end that is no pair is walked to that end, if the heap has room for it.
-/
theorem Chain.walks (hc : h.Chain o items last)
    (hend : ∀ head tail, h.shape last ≠ .cell (.cons head tail))
    (hlength : items.length ≤ h.size) : h.Walks o items last where
  chain := hc
  ends := hend
  length_le := hlength
  spineWithin _ hn := hc.spineWithin hend hn
  list? := by
    rw [Heap.list?, spine, hc.spineWithin hend hlength]
    cases last <;> rfl
  printWithin hitems n := by
    have hspine : h.spine o = (items, last) := hc.spineWithin hend hlength
    cases hc with
    | nil => exact absurd rfl hitems
    | cons ha _ =>
      simp only [Heap.printWithin, shape_ref ha, hspine]
      by_cases hlast : last.isNil = true
      · rw [if_pos hlast, if_pos hlast]
      · rw [if_neg hlast, if_neg hlast]
        simp only [String.append_assoc]

/-- A chain of as many pairs as its first one lies high has no more pairs than the heap. -/
theorem Chain.length_le (hc : h.Chain o items last) (hlength : items.length ≤ o.height) :
    items.length ≤ h.size := by
  cases hc with
  | nil => exact Nat.zero_le _
  | cons ha _ => exact Nat.le_trans hlength (Nat.succ_le_of_lt (lt_size_of_get? ha))

/-- Each object starts a walk that ends. -/
theorem Ordered.exists_walks (ho : h.Ordered) (o : Obj) : ∃ items last, h.Walks o items last := by
  suffices hchain : ∃ items last, h.Chain o items last ∧
      (∀ head tail, h.shape last ≠ .cell (.cons head tail)) ∧ items.length ≤ o.height by
    obtain ⟨items, last, hc, hend, hlength⟩ := hchain
    exact ⟨items, last, hc.walks hend (hc.length_le hlength)⟩
  -- the walk goes down in the heap, to a second half that has been there before its pair
  induction o using ho.wellFounded_follows.induction with
  | h o ih =>
    by_cases hpair : ∃ head tail, h.shape o = .cell (.cons head tail)
    · obtain ⟨head, tail, hshape⟩ := hpair
      obtain ⟨a, rfl, ha⟩ := exists_ref_of_shape hshape
      have hfollows : h.Follows tail (.ref a) := ⟨a, head, rfl, ha⟩
      obtain ⟨items, last, hc, hend, hlength⟩ := ih tail hfollows
      have hlt : items.length < (Obj.ref a).height := Nat.lt_of_le_of_lt hlength (ho.height_lt hfollows)
      exact ⟨head :: items, last, .cons ha hc, hend, hlt⟩
    · exact ⟨[], o, .nil, fun head tail hshape => hpair ⟨head, tail, hshape⟩, Nat.zero_le _⟩

end Heap

/-! ### Sessions -/

/-- The halves of the pair that a procedure makes next. -/
def Proc.pair? : Proc α → Option (Obj × Obj)
  | .act (.make (.cons head tail)) _ => some (head, tail)
  | _ => none

/-- The parts of a new pair lie below the bound. -/
theorem Proc.Below.pair {Q : α → Prop} {proc : Proc α} (h : proc.Below n Q)
    (hp : proc.pair? = some (o, p)) : o.Below n ∧ p.Below n := by
  unfold Proc.pair? at hp
  split at hp
  · cases hp
    exact ⟨h.1 _ (by simp [Fresh.objects]), h.1 _ (by simp [Fresh.objects])⟩
  · cases hp

namespace Transcript

open Moment

/-- At every moment of every session: one cannot go on from pair to second half for ever. From each
object the walk sees some first halves and comes to an end, and the heap sees just these where
it follows the pairs, as for a list of arguments or to print. A pair that is about to be made is
made with the second half that was asked for. -/
theorem chains_end (config : Config) (steps : List Step)
    {m : Moment (List (Except Failure Answer × List Answer))}
    (hm : Reaches (fun _ => True) (start config steps) m) :
    WellFounded m.world.host.heap.Follows ∧
      (∀ o, ∃ items last, m.world.host.heap.Walks o items last) ∧
      ∀ head tail, m.proc.pair? = some (head, tail) →
        m.world.host.heap.cellOf (.cons head tail) = .cons head tail := by
  have hordered : m.world.host.heap.Ordered := hm.ordered Interpreter.ordered_initial
  refine ⟨hordered.wellFounded_follows, hordered.exists_walks, fun head tail hp => ?_⟩
  obtain ⟨Q, hproc, -⟩ := (below_of_reaches hm).proc
  rw [Heap.cellOf, Heap.known_of_below (hproc.pair hp).2]

/-- A program that puts a list at its own head, and then makes a pair whose second half it is. -/
def selfHeaded : Moment (List (Except Failure Answer × List Answer)) :=
  start .standard [.mk (.runSource "(setq x (list 1 2)) (setcar x x) (cons 3 x) nil") none false]

/-- The list is its own head, but it has two items, and the pair is made. -/
theorem chains_end_self_headed :
    (selfHeaded.after 97).world.host.heap.get? 171 = some (.cons (.ref 171) (.ref 170)) ∧
      (∀ n, 2 ≤ n → (selfHeaded.after 97).world.host.heap.spineWithin n (.ref 171) =
        ([.ref 171, .int (.ofNat 2)], .nil)) ∧
      (selfHeaded.after 97).world.host.heap.cellOf (.cons (.int (.ofNat 3)) (.ref 171)) =
        .cons (.int (.ofNat 3)) (.ref 171) := by
  have hfacts : (selfHeaded.after 97).world.host.heap.get? 171 =
        some (.cons (.ref 171) (.ref 170)) ∧
      (selfHeaded.after 97).world.host.heap.spine (.ref 171) =
        ([.ref 171, .int (.ofNat 2)], .nil) ∧
      (selfHeaded.after 97).proc.pair? = some (.int (.ofNat 3), .ref 171) := by
    rw [selfHeaded, start_eq]
    decide +kernel
  obtain ⟨hpair, hspine, hmakes⟩ := hfacts
  have hm : Reaches (fun _ => True) selfHeaded (selfHeaded.after 97) :=
    reaches_after fun _ _ => trivial
  obtain ⟨-, hwalks, hmade⟩ := chains_end .standard _ hm
  obtain ⟨items, last, hwalk⟩ := hwalks (.ref 171)
  have hseen := hwalk.spineWithin _ hwalk.length_le
  rw [← Heap.spine, hspine] at hseen
  cases hseen
  exact ⟨hpair, hwalk.spineWithin, hmade _ _ hmakes⟩

end Transcript

end Crossing
