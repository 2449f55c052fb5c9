import Crossing.Proofs.Families
import Crossing.Proofs.Outcomes

/-!
# References

No reference of the host ever dangles. What the host keeps for script code and what its cells
are made of are objects that have been made, in whatever state a session comes to. So what an
object is stays what it is while the heap grows.

- `Task.below_body`: tasks of what lies below a bound keep below it, script code among them,
  which has no references of its own;
- `Moment.Reaches.below_start`: sessions keep below the size of the heap;
- `Proc.IsReached.isClosed`: no reference dangles.
-/

namespace Crossing

open Proc

variable {n : Nat} {α β γ : Type} {w : World} {o : Obj}

/-! ### The exchange -/

namespace Host

theorem below_refer (ho : o.Below n) : (refer o).Below n fun _ => True :=
  (below_change (c := .retain o) ho).bind fun _ _ => trivial

theorem below_send (ho : o.Below n) : (send o).Below n fun _ => True := by
  refine below_heap.bind fun h _ => ?_
  split
  · trivial
  · trivial
  · split
    · trivial
    · exact below_refer ho
  · trivial
  · split
    · refine below_truth.bind fun t _ => ?_
      split
      · trivial
      · exact below_refer ho
    · exact below_refer ho
  · refine Below.bind (Q := fun _ => True) ?_ fun key _ => ?_
    · unfold wrapped?
      split
      · exact (below_intern _).bind fun _ _ => trivial
      · trivial
    · split
      · trivial
      · exact below_refer ho
  · exact below_refer ho

theorem below_resolve (id : ObjectId) : (resolve id).Below n (Obj.Below n) := by
  refine (below_query (.resolve? id)).bind fun o ho => ?_
  split
  · exact below_pure (ho _ rfl)
  · trivial

theorem below_readDatum (text : String) : (readDatum text).Below n fun _ => True := by
  unfold readDatum
  split <;> trivial

theorem below_receive (p : Parcel) : (receive p).Below n (Obj.Below n) := by
  cases p with
  | data text => exact (below_readDatum text).bind fun j _ => below_ofDatum j
  | reference id => exact below_resolve id
  | wrapped key => exact below_marker key

theorem below_invoke (function : ObjectId) (args : List Parcel) :
    (invoke function args).Below n fun _ => True :=
  (below_resolve function).bind fun _ hf =>
    (below_mapM (P := fun _ => True) (fun p _ => below_receive p) fun _ _ => trivial).bind
      fun _ hos => (below_apply hf hos).bind fun _ ho => below_send ho

theorem below_internAll (names : List String) : (internAll names).Below n fun _ => True := by
  induction names with
  | nil => trivial
  | cons name names ih => exact (below_intern name).bind fun _ _ => ih

theorem below_evaluateText (source : String) : (evaluateText source).Below n fun _ => True := by
  refine Below.bind (Q := fun os => ∀ o ∈ os, o.Below n) ?_ fun os hos =>
    (below_sequence hos).mono fun _ _ => trivial
  unfold read
  split
  · exact below_ofForms _
  · exact (below_internAll _).bind fun _ _ => trivial

end Host

/-! ### Script code -/

theorem Border.below_internNow (name : String) (kind : SymbolKind) :
    (internNow name kind).Below n fun _ => True :=
  (Host.below_intern name).bind fun o ho => (below_change (c := .retain o) ho).bind fun id _ =>
    (below_change (c := .adopt id) trivial).bind fun h _ =>
      (below_change (c := .recordName h name) trivial).bind fun _ _ =>
        (below_change (c := .cacheSymbol kind name h) trivial).bind fun _ _ => trivial

/-- Procedures that keep below the bound, whatever they give. -/
def Proc.Family.below (n : Nat) : Family where
  Has p := p.Below n fun _ => True
  done _ := trivial
  fail _ := trivial
  sequence hp hf := hp.bind fun a _ => hf a
  query _ _ _ := trivial
  change c _ hcarries := by
    refine (below_change ?_).mono fun _ _ => trivial
    cases c <;> trivial
  internNow := Border.below_internNow
  kept hpart := (hpart.below n).bind fun o ho =>
    (below_change (c := .retain o) ho).mono fun _ _ => trivial
  invoke := Host.below_invoke
  evaluateText := Host.below_evaluateText
  task t ht := by
    refine ⟨?_, fun _ _ => trivial⟩
    cases t <;> trivial
  within s _ hs _ hp := by
    refine below_within ?_ hp
    cases s <;> trivial

/-! ### Tasks -/

/-- What a builtin gives is made of its arguments, and of what is in the heap. -/
theorem Builtin.below_run (b : Builtin) {args : List Obj} (hargs : ∀ o ∈ args, o.Below n) :
    (b.run args).Below n (Obj.Below n) := by
  have hexchange : b.isExchange = true → (b.compute args).Below n (Obj.Below n) := by
    intro hb
    -- five functions of the host go over to script code, and the others stay on the host
    cases b with
    | reenter =>
      exact below_heap.bind fun _ hh => (Host.below_checked _).bind fun key _ =>
        (Host.below_check hh.asList).bind fun objects hobjects =>
          (below_mapM (fun _ ho => Host.below_send ho) hobjects).bind fun parcels _ =>
            Below.bind (Border.has_invoke (F := .below n) key parcels) fun p _ =>
              Host.below_receive p
    | clearProxy =>
      exact below_heap.bind fun _ _ => (Host.below_checked _).bind fun key _ =>
        (below_change (c := .clearProxy key) trivial).bind fun _ _ => Host.below_truth
    | collect => exact (below_change (c := .sweep) trivial).bind fun _ _ => trivial
    | evaluateScript =>
      exact below_heap.bind fun _ _ => (Host.below_checked _).bind fun source _ =>
        Below.bind (Border.has_evaluateSource (F := .below n) source) fun p _ =>
          Host.below_receive p
    | _ => cases hb
  unfold run
  split
  · cases hb : b.isExchange with
    | false => exact b.below_compute hb hargs
    | true => exact hexchange hb
  · trivial

theorem Host.below_applyFunction {args : List Obj} (hargs : ∀ o ∈ args, o.Below n) :
    (applyFunction o args).Below n (Obj.Below n) := by
  refine below_heap.bind fun h hh => ?_
  split
  · exact Builtin.below_run _ hargs
  · rename_i l hshape
    exact below_callClosure (hh.of_shape hshape).2 hargs
  · trivial

/-- An object is applied to objects below the bound within it. -/
theorem Host.below_application (ho : o.Below n) {args : List Obj}
    (hargs : ∀ o ∈ args, o.Below n) : (application o args).Below n (Obj.Below n) := by
  refine below_heap.bind fun h _ => ?_
  split
  · exact (below_functionOf ho).bind fun f _ => below_applyFunction hargs
  · exact (below_functionOf ho).bind fun f _ => below_applyFunction hargs
  · exact below_applyFunction hargs

/-- The step that goes on after a failure plays its steps as a task. -/
theorem Script.below_perform (args : List Value) {deed : Deed} (hdeed : deed.recovers = true) :
    (perform args deed).Below n fun _ => True := by
  cases deed with
  | attempt steps =>
    refine Below.bind (Q := fun _ => True) ?_ fun _ _ => trivial
    have hplay : (Border.play steps args).Below n fun _ => True := ⟨trivial, fun _ _ => trivial⟩
    refine (below_outcome hplay).bind fun r _ => ?_
    cases r <;> trivial
  | _ => cases hdeed

/-- Tasks give what they are about and what is in the heap, and objects made of that. -/
theorem Task.below_body (t : Task α) (ht : t.Below n) : t.body.Below n (t.GivesBelow n) := by
  cases t with
  | evaluate form => exact Host.below_evaluation ht
  | apply function args => exact Host.below_application ht.1 ht.2
  | close c => exact Border.has_closure (F := .below n) c
  | play steps args => exact Script.has_play (F := .below n) args steps
  | step s args =>
    obtain ⟨deed, target, logged⟩ := s
    change (Family.below n).Has (Script.playStep args (.mk deed target logged))
    exact Script.has_playStep (F := .below n) args (Script.below_perform args) target logged

/-! ### Sessions -/

/-- Whether an object refers to a cell of the heap, if to any. -/
instance (n : Nat) (o : Obj) : Decidable (o.Below n) := by
  cases o <;> unfold Obj.Below <;> infer_instance

theorem Interpreter.below_initial : initial.Below initial.heap.size := by
  have hcells : (∀ a < initial.heap.size, ∀ c ∈ initial.heap.get? a, ∀ o ∈ c.objects,
      o.Below initial.heap.size) ∧ (∀ s ∈ initial.symbols, s.2 < initial.heap.size) ∧
      initial.current < initial.heap.size ∧ initial.retained = [] := by
    rw [initial_eq]
    decide +kernel
  obtain ⟨hcells, hsymbols, hcurrent, hretained⟩ := hcells
  refine ⟨⟨Nat.le_refl _, fun {a c} hc => hcells a (Heap.lt_size_of_get? hc) c hc⟩, hsymbols,
    hcurrent, ?_⟩
  rw [hretained]
  exact List.forall_mem_nil _

theorem Obj.Below.mono {m : Nat} {o : Obj} (ho : o.Below n) (hm : n ≤ m) : o.Below m := by
  cases o with
  | ref a => exact Nat.lt_of_lt_of_le ho hm
  | _ => trivial

theorem Interpreter.Below.mono {m : Nat} {i : Interpreter} (hi : i.Below n) (hm : n ≤ m) :
    i.Below m :=
  ⟨⟨Nat.le_trans hi.heap.size_le hm, fun hc o ho => (hi.heap.cells hc o ho).mono hm⟩,
    fun s hs => Nat.lt_of_lt_of_le (hi.symbols s hs) hm, Nat.lt_of_lt_of_le hi.current hm,
    fun r hr => (hi.retained r hr).mono hm⟩

theorem Transcript.below_topStep (s : Step) : (topStep s).Below n fun _ => True := by
  have hstep : (Family.below n).Has (holding do
      let r ← perform (.step s [])
      Script.describe r) :=
    Proc.has_holding ((Proc.has_task (t := .step s []) rfl).bind fun r => Script.has_describe r)
  exact (below_outcome hstep).bind fun _ _ =>
    (below_change (c := .takeLog) trivial).bind fun _ _ => trivial

/-- Where a run starts with a host below the size of its heap, the run keeps below that. -/
theorem Moment.Reaches.below_size {ok : Moment γ → Prop} {i : Interpreter} {b : Border}
    {m : Memory} {c : Clock} {p : Proc γ} {m₁ : Moment γ}
    (h : Reaches ok ⟨p, .top, ⟨i, b, m, c⟩⟩ m₁) (hp : ∀ n, p.Below n fun _ => True)
    (hi : i.Below i.heap.size) : m₁.Below m₁.world.host.heap.size := by
  have hstart : ∀ n, i.heap.size ≤ n → (⟨p, .top, ⟨i, b, m, c⟩⟩ : Moment γ).Below n :=
    fun n hn => ⟨⟨fun _ => True, hp n, trivial⟩, hi.mono hn⟩
  exact h.below Task.below_body (hstart _) (Nat.le_refl _)

/-- All that a session is made of lies below the size of the heap. -/
theorem Transcript.below_of_reaches {ok : Moment _ → Prop} {config : Config} {steps : List Step}
    {m : Moment (List (Except Failure Answer × List Answer))}
    (h : Moment.Reaches ok (start config steps) m) : m.Below m.world.host.heap.size :=
  Moment.Reaches.below_size h (fun n => Proc.has_mapM (F := .below n) below_topStep steps)
    Interpreter.below_initial

/-! ### References that do not dangle -/

/-- No pair, and nothing that is kept for script code, refers to what was never made. -/
structure Interpreter.IsClosed (i : Interpreter) : Prop where
  pair : ∀ {a head tail}, i.heap.get? a = some (.cons head tail) →
    i.heap.known head = head ∧ i.heap.known tail = tail
  kept : ∀ {id o}, i.resolve? id = some o → i.heap.known o = o

/-- What is below the size of the heap does not dangle. -/
theorem Heap.known_of_below {h : Heap} (ho : o.Below h.size) : h.known o = o := by
  cases o with
  | ref a => exact if_pos ho
  | _ => rfl

/-- An interpreter within its own heap has no dangling reference. -/
theorem Interpreter.Below.isClosed {i : Interpreter} (hi : i.Below i.heap.size) : i.IsClosed where
  pair ha := by
    obtain ⟨hhead, htail⟩ := List.forall_mem_cons.mp (hi.heap.cells ha)
    exact ⟨Heap.known_of_below hhead, Heap.known_of_below (List.forall_mem_singleton.mp htail)⟩
  kept ho := Heap.known_of_below (hi.resolve? _ ho)

/-- In sessions, no reference dangles. -/
theorem Proc.IsReached.isClosed {p : Proc α} (h : p.IsReached w) : w.host.IsClosed := by
  obtain ⟨config, steps, _, g, k, hr⟩ := h
  exact (Transcript.below_of_reaches hr).host.isClosed

end Crossing
