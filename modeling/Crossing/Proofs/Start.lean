import Crossing.Transcript

/-!
# The state at the start

At the start the builtins lie in the heap one after the other, each right before its symbol. To
define them one by one looks for every name among all before it; the state that they are laid out
in is the same and says at once where everything is.

- `Interpreter.laidOut`: the builtins with their symbols, laid out;
- `Interpreter.initial_eq`: this is the state at the start;
- `World.initial_eq`, `Transcript.ofSteps_eq`: what starts, starts from it.
-/

namespace Crossing

/-! ### Names of builtins -/

/-- No function is named as the empty list is. -/
theorem Builtin.name_ne_nil (b : Builtin) : b.name ≠ "nil" := by
  cases b <;> decide

/-- The functions have different names. -/
theorem Builtin.nodup_names : (all.map name).Nodup := by decide +kernel

/-! ### Builtins laid out -/

/-- Builtins laid out from an address on, each with its symbol after it. -/
def Builtin.cells : List Builtin → Addr → List Cell
  | [], _ => []
  | b :: bs, a => .builtin b :: .symbol b.name none (some (.ref a)) :: cells bs (a + 2)

/-- The names of builtins that are laid out from an address on, before other names. -/
def Builtin.symbols : List Builtin → Addr → List (String × Addr) → List (String × Addr)
  | [], _, others => others
  | b :: bs, a, others => symbols bs (a + 2) ((b.name, a + 1) :: others)

namespace Interpreter

variable {i : Interpreter} {b : Builtin}

/-- An empty buffer, the symbol of truth, and the builtins laid out. -/
def laidOut : Interpreter where
  heap := ⟨⟨.buffer "*scratch*" "" true :: .symbol truthName (some (.ref 1)) none ::
    Builtin.cells Builtin.all 2⟩, [0]⟩
  symbols := Builtin.symbols Builtin.all 2 [(truthName, 1)]
  current := 0
  temporaries := 0
  depth := 0
  retained := []
  identities := []
  lastId := 0
  batches := []

/-- What is done to the last cell. -/
theorem modify_push (cells : Array Cell) (c : Cell) (f : Cell → Cell) {a : Addr}
    (ha : a = cells.size) : (cells.push c).modify a f = cells.push (f c) := by
  subst ha
  apply Array.ext
  · simp
  · intro j hj hj'
    rw [Array.getElem_modify]
    split
    · rename_i h
      subst h
      simp only [Array.getElem_push_eq]
    · rename_i h
      rw [Array.size_push] at hj'
      rw [Array.getElem_push_lt (by omega), Array.getElem_push_lt (by omega)]

/-- A builtin whose name is new comes to lie after what there is, and its symbol after it. -/
theorem define_eq (hnew : i.find? b.name = none) :
    i.define b = { i with
      heap := ⟨(i.heap.cells.push (.builtin b)).push
        (.symbol b.name none (some (.ref i.heap.size))), i.heap.buffers⟩
      symbols := (b.name, i.heap.size + 1) :: i.symbols } := by
  have hfind : ({ i with heap := (i.heap.allocate (.builtin b)).2 } : Interpreter).find? b.name =
      none := hnew
  simp only [define, Heap.allocate] at hfind ⊢
  simp only [intern, if_neg b.name_ne_nil, hfind, Heap.allocate, Heap.setFunction, Heap.modify, Heap.size]
  rw [modify_push _ _ _ rfl]
  simp only [Array.size_push]

/-- To define new functions one after the other is to put all their cells behind those that
are there. -/
theorem foldl_define_eq (bs : List Builtin) (i : Interpreter)
    (hdistinct : (bs.map Builtin.name).Nodup)
    (hnew : ∀ b ∈ bs, i.find? b.name = none) :
    bs.foldl define i = { i with
      heap := ⟨⟨i.heap.cells.toList ++ Builtin.cells bs i.heap.size⟩, i.heap.buffers⟩
      symbols := Builtin.symbols bs i.heap.size i.symbols } := by
  induction bs generalizing i with
  | nil => simp [Builtin.cells, Builtin.symbols]
  | cons b bs ih =>
    rw [List.foldl_cons, define_eq (hnew b (.head _))]
    rw [ih]
    · simp [Builtin.cells, Builtin.symbols, Heap.size]
    · exact (List.nodup_cons.mp hdistinct).2
    · intro b' hb'
      have hne : (b.name == b'.name) = false := beq_eq_false_iff_ne.mpr fun h =>
        (List.nodup_cons.mp hdistinct).1 (List.mem_map.mpr ⟨b', hb', h.symm⟩)
      simp only [find?, List.find?_cons, hne]
      exact hnew b' (.tail _ hb')

/-- At the start the builtins are laid out. -/
theorem initial_eq : initial = laidOut := by
  rw [initial, foldl_define_eq _ _ Builtin.nodup_names (by decide +kernel)]
  rfl

end Interpreter

/-- A world in which nothing has happened, with the builtins laid out. -/
def World.atStart (config : Config) : World := ⟨.laidOut, .initial config, .initial, .initial⟩

/-- The first world, written out. -/
theorem World.initial_eq (config : Config) : World.initial config = .atStart config := by
  rw [initial, Interpreter.initial_eq, atStart]

namespace Transcript

/-- A session starts in the world that is written out. -/
theorem ofSteps_eq (config : Config) (steps : List Step) :
    ofSteps config steps = playAll steps (.atStart config) := by
  rw [ofSteps, World.initial_eq]

/-- Sources are evaluated from the world that is written out. -/
theorem ofSources_eq (sources : List String) :
    ofSources sources = ⟨(evaluateAll sources (.atStart .standard)).1,
      let host := (evaluateAll sources (.atStart .standard)).2.host
      host.heap.bufferName host.current,
      (evaluateAll sources (.atStart .standard)).2.host.retained.length⟩ := by
  rw [ofSources, World.initial_eq]

end Transcript

end Crossing
