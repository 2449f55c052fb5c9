import Crossing.Proofs.LiveHandles

/-!
# The two tables of kept objects

The host looks up what it keeps by number in one table and by identity in the other.
Each operation changes both, numbers and `nil` stand in the first one only, and
batches may name what is not kept.

- `Interpreter.InStep`: each table has the heap objects of the other;
- `Interpreter.Releases`: a batch takes out what it names, and nothing else;
- `Request`, `Request.sound_serve`: what may be asked of the tables, at any moment and in
  any order;
- `kept_objects_stay_in_step`: the tables stay in step whatever is kept and released.
-/

namespace Crossing

namespace Interpreter

variable {i j : Interpreter} {o : Obj} {id : ObjectId} {ids : List ObjectId} {a : Addr}

/-! ### Tables in step -/

/-- The two tables of kept objects are the converse of each other on heap objects, and
all numbers in them have been given out. -/
structure InStep (i : Interpreter) : Prop where
  /-- A heap object is known by a number just if it is kept under this number. -/
  known : ∀ a id, i.idOf? (.ref a) = some id ↔ i.resolve? id = some (.ref a)
  /-- A heap object is kept under one number at most. -/
  unique : ∀ o, o.isHeap = true → ∀ id id',
    i.resolve? id = some o → i.resolve? id' = some o → id = id'
  given : ∀ id o, i.resolve? id = some o → id.val ≤ i.lastId

theorem Sound.inStep (hi : i.Sound) : i.InStep where
  known _ _ := idOf?_ref_iff hi
  unique _ ho _ _ := eq_of_resolve? hi ho
  given _ _ := le_of_resolve? hi

/-! ### Released batches -/

/-- What the host keeps in `j` is what it keeps in `i`, less the objects of a batch. -/
structure Releases (ids : List ObjectId) (i j : Interpreter) : Prop where
  kept : ∀ id, j.resolve? id = if id ∈ ids then none else i.resolve? id
  known : ∀ a id, j.idOf? (.ref a) = some id ↔ i.idOf? (.ref a) = some id ∧ id ∉ ids
  /-- The batch is remembered, and all but the two tables is the same. -/
  rest : j = { i with
    retained := j.retained, identities := j.identities, batches := i.batches ++ [ids] }

/-- What is released resolves no more, and all else does as before. -/
theorem resolve?_release_eq (hi : i.Sound) (ids : List ObjectId) (id : ObjectId) :
    (i.release ids).resolve? id = if id ∈ ids then none else i.resolve? id := by
  split
  · rename_i hid
    exact resolve?_release_of_mem hi hid
  · rename_i hid
    exact resolve?_release hi hid

/-- A release does what it says. -/
theorem Sound.releases (hi : i.Sound) (ids : List ObjectId) : i.Releases ids (i.release ids) where
  kept := resolve?_release_eq hi ids
  known a id := by
    -- each side is known by the number that it is kept under
    rw [idOf?_ref_iff (hi.release ids), idOf?_ref_iff hi, resolve?_release_eq hi]
    by_cases hid : id ∈ ids <;> simp [hid]
  rest := rfl

end Interpreter

/-! ### Requests -/

/-- What may be asked of the tables of kept objects. -/
inductive Request where
  /-- To keep an object: one that is sent, interned, made from a text or made as a marker. -/
  | retain (o : Obj)
  /-- To release a batch, which may name a number twice, or one that nothing is kept under. -/
  | release (ids : List ObjectId)

namespace Request

/-- What each request does to the tables. -/
def serve : Interpreter → Request → Interpreter
  | i, .retain o => (i.retain o).2
  | i, .release ids => i.release ids

variable {i : Interpreter}

/-- A request keeps the tables sound. -/
theorem sound_serve (hi : i.Sound) (r : Request) : (serve i r).Sound := by
  cases r with
  | retain o => exact hi.retain o
  | release ids => exact hi.release ids

/-- Requests keep the tables sound. -/
theorem sound_foldl_serve (hi : i.Sound) (rs : List Request) : (rs.foldl serve i).Sound := by
  induction rs generalizing i with
  | nil => exact hi
  | cons r rs ih => exact ih (sound_serve hi r)

end Request

namespace Transcript

open Moment

/-- At every moment of every session, and after any requests from there: the host knows a
heap object by a number just if it keeps it under this number, so by one number at most,
all numbers in use have been given out, and the release of a batch takes out what the batch
names and nothing else. -/
theorem kept_objects_stay_in_step (config : Config) (steps : List Step)
    {m : Moment (List (Except Failure Answer × List Answer))}
    (hm : Reaches (fun _ => True) (start config steps) m) (requests : List Request) :
    (requests.foldl Request.serve m.world.host).InStep ∧
      ∀ ids, (requests.foldl Request.serve m.world.host).Releases ids
        ((requests.foldl Request.serve m.world.host).release ids) := by
  have hsound := Request.sound_foldl_serve (alike_of_reaches hm).sound.host requests
  exact ⟨hsound.inStep, hsound.releases⟩

/-- A symbol that has been looked up is kept under the first number. A batch that names this
number twice, and one that is not in use, takes it out; then the symbol gets a new number. -/
theorem kept_objects_stay_in_step_lookup :
    let i := (lookupAndSweep.after 22).world.host
    let released := [Request.retain (.ref 7), .release [⟨1⟩, ⟨9⟩, ⟨1⟩]].foldl Request.serve i
    i.idOf? (.ref 7) = some ⟨1⟩ ∧ i.resolve? ⟨1⟩ = some (.ref 7) ∧
      released.idOf? (.ref 7) = none ∧ released.resolve? ⟨1⟩ = none ∧
      (Request.serve released (.retain (.ref 7))).idOf? (.ref 7) = some ⟨2⟩ ∧
      (Request.serve released (.retain (.ref 7))).resolve? ⟨2⟩ = some (.ref 7) := by
  have hm : Reaches (fun _ => True) lookupAndSweep (lookupAndSweep.after 22) :=
    reaches_after fun _ _ => trivial
  obtain ⟨hstep, hrelease⟩ := kept_objects_stay_in_step .standard _ hm [.retain (.ref 7)]
  obtain ⟨hnew, -⟩ := kept_objects_stay_in_step .standard _ hm
    [.retain (.ref 7), .release [⟨1⟩, ⟨9⟩, ⟨1⟩], .retain (.ref 7)]
  have hfacts : let i := (lookupAndSweep.after 22).world.host
      let released := [Request.retain (.ref 7), .release [⟨1⟩, ⟨9⟩, ⟨1⟩]].foldl Request.serve i
      i.idOf? (.ref 7) = some ⟨1⟩ ∧ released.idOf? (.ref 7) = none ∧
        (Request.serve released (.retain (.ref 7))).idOf? (.ref 7) = some ⟨2⟩ := by
    rw [lookupAndSweep, start_eq]
    decide +kernel
  obtain ⟨i, hi⟩ : ∃ i, (lookupAndSweep.after 22).world.host = i := ⟨_, rfl⟩
  rw [hi] at hstep hrelease hnew hfacts ⊢
  intro _ released
  obtain ⟨hknown, hgone, hagain⟩ := hfacts
  -- an object that is retained already keeps its number, and nothing changes
  have hsame : Request.serve i (.retain (.ref 7)) = i := by
    rw [Request.serve, Interpreter.retain, hknown]
  refine ⟨hknown, ?_, hgone, (hrelease [⟨1⟩, ⟨9⟩, ⟨1⟩]).kept ⟨1⟩, hagain, ?_⟩
  · have hkept := (hstep.known 7 ⟨1⟩).mp
    rw [List.foldl_cons, List.foldl_nil, hsame] at hkept
    exact hkept hknown
  · exact (hnew.known 7 ⟨2⟩).mp hagain

end Transcript

end Crossing
