import Crossing.Proofs.Buffers
import Crossing.Proofs.CallForms

/-!
# Script functions in buffers

The border runs a script function in a buffer by having the host evaluate a form. The
form is made of what the script function and the value for the buffer stand for, and
nothing else is run until the form has made a buffer current.

- `Proc.Restores`: a procedure leaves the current buffer as it was, and
  `Proc.composes_restores` goes from a part to the whole;
- `Heap.IsLiteral`, `World.Quotes`: forms whose evaluation calls nothing, and what the
  border makes of values so that they are such forms;
- `World.Denotes`: a value is for a live buffer;
- `Composes.inBuffer`: what comes of a call is what comes of the body where a buffer
  that the value denotes is current;
- `Border.restores_inBuffer`, `Border.restores_inTemporaryBuffer`: calls leave the
  current buffer as it was;
- `Border.comes_of_not_denotes`, `Border.comes_of_arity`: which calls fail and run nothing.
-/

namespace Crossing

open Proc

variable {α β : Type} {w w₁ w₂ : World}

/-! ### Procedures that restore the buffer -/

namespace Moment

/-- A run that has come to its end passes to nothing else. -/
theorem eq_of_passes_ended {r r' : Except Failure α}
    (h : Passes ⟨Proc.ofExcept r, .top, w⟩ (⟨Proc.ofExcept r', .top, w₁⟩ : Moment α)) :
    r = r' ∧ w = w₁ :=
  becomes_ended_iff.mp (Relation.ReflTransGen.mono (fun _ _ h => .next h) _ _ h)

/-- If a run ends that waits for a part, the part has failed and so has the run, or the
run has gone on with the result of the part. -/
theorem end_of_pushed {part : Proc α} {f : Frame α β} {r : Except Failure β}
    (hf : ∀ e w, (f.unwind e w).1 = .stop (.failure e))
    (h : Passes ⟨part, .push f .top, w⟩ (⟨Proc.ofExcept r, .top, w₁⟩ : Moment β)) :
    (∃ e w₂, Passes ⟨part, .top, w⟩ (⟨.stop (.failure e), .top, w₂⟩ : Moment α) ∧
      r = .error e ∧ w₁ = (f.unwind e w₂).2) ∨
    ∃ a w₂, Passes ⟨part, .top, w⟩ (⟨.done a, .top, w₂⟩ : Moment α) ∧
      Passes ⟨(f.resume a w₂).1, .top, (f.resume a w₂).2⟩
        (⟨Proc.ofExcept r, .top, w₁⟩ : Moment β) := by
  obtain ⟨m', -, hend⟩ | ⟨r', w₂, hpart, hrest⟩ :=
    Passes.atop_cases (m := ⟨part, .top, w⟩) (k := .push f .top) h
  · -- something still waits at a moment inside of the part
    have htop : (m'.atop (.push f .top)).stack.isTop = true := by
      rw [← hend]
      rfl
    obtain ⟨p, k', w₂⟩ := m'
    cases k' <;> cases htop
  · cases r' with
    | error e =>
      have hunwound : Passes ⟨(f.unwind e w₂).1, .top, (f.unwind e w₂).2⟩
          (⟨Proc.ofExcept r, .top, w₁⟩ : Moment β) :=
        Passes.from_passed (.single rfl) hrest next_ended
      rw [hf] at hunwound
      obtain ⟨rfl, rfl⟩ := eq_of_passes_ended (r := .error e) hunwound
      exact .inl ⟨e, w₂, hpart, rfl, rfl⟩
    | ok a => exact .inr ⟨a, w₂, hpart, Passes.from_passed (.single rfl) hrest next_ended⟩

end Moment

namespace Proc

variable {p : Proc α} {Q : α → World → Prop}

/-- Where a session is about to do it, a procedure that comes to an end leaves the current
buffer as it was, and a result is as `Q` says. -/
def Restores (p : Proc α) (w : World) (Q : α → World → Prop) : Prop :=
  p.IsReached w → ∀ r w₁, Moment.Passes ⟨p, .top, w⟩ (⟨ofExcept r, .top, w₁⟩ : Moment α) →
    w₁.host.current = w.host.current ∧ ∀ a, r = .ok a → Q a w₁

/-- What comes to an end quietly leaves the current buffer as it was. -/
theorem Yields.restores (hp : p.Yields w Q) : p.Restores w Q := by
  intro hr r w₁ hend
  obtain ⟨r', w', hcomes, hok⟩ := hp hr
  have hquiet := (hcomes.passes .top).passes.from_passed hend Moment.next_ended
  obtain ⟨rfl, rfl⟩ := Moment.eq_of_passes_ended hquiet
  exact ⟨congrArg Scene.current hcomes.scene_end, hok⟩

/-- What follows on a task is about to be done where the task has come to a result. -/
theorem IsReached.of_task {t : Task α} {next : α → Proc β} {a : α}
    (h : (Proc.task t next).IsReached w)
    (ht : Moment.Passes ⟨t.body, .top, w⟩ (⟨.done a, .top, w₁⟩ : Moment α)) :
    (next a).IsReached w₁ := by
  obtain ⟨config, steps, _, g, k, hr⟩ := h
  have hrest := (ht.atop (.push (.result t fun x => next x >>= g) k)).tail
    (c := ⟨next a >>= g, k, w₁⟩) rfl
  exact ⟨config, steps, _, g, k, hr.trans (Moment.reaches_of_passes (.head rfl hrest))⟩

/-- What follows on a scope is about to be done where the scope has ended. -/
theorem IsReached.of_inside {s : Scope} {u : Undo} {part : Proc α} {next : α → Proc β} {a : α}
    (h : (Proc.inside s part next).IsReached w) (hs : s.enter w = .ok (u, w₁))
    (hpart : Moment.Passes ⟨part, .top, w₁⟩ (⟨.done a, .top, w₂⟩ : Moment α)) :
    (next a).IsReached (u.run w₂) := by
  obtain ⟨config, steps, _, g, k, hr⟩ := h
  have hrest := (hpart.atop (.push (.scope u fun x => next x >>= g) k)).tail
    (c := ⟨next a >>= g, k, u.run w₂⟩) rfl
  exact ⟨config, steps, _, g, k,
    hr.trans (Moment.reaches_of_passes (.head (Moment.next_inside hs) hrest))⟩

/-- To leave the current buffer as it was goes from a part to the whole. -/
theorem composes_restores : Composes Restores where
  of_yields := Yields.restores
  bind hp hf := by
    intro hr r w₂ hend
    obtain ⟨r', w₁, hcomes, hok⟩ := hp hr.bind_left
    -- what runs quietly leaves the current buffer alone
    have hrest := (hcomes.passes_bind _ .top).passes.from_passed hend Moment.next_ended
    have hsame := congrArg Scene.current hcomes.scene_end
    cases r' with
    | error e =>
      obtain ⟨rfl, rfl⟩ := Moment.eq_of_passes_ended (r := .error e) hrest
      exact ⟨hsame, nofun⟩
    | ok a =>
      obtain ⟨hcurrent, hR⟩ := hf a w₁ (hok a rfl) (hr.bind_right hcomes) r w₂ hrest
      exact ⟨hcurrent.trans hsame, hR⟩
  task _ hbody hnext := by
    intro hr r w₂ hend
    have hstart := Moment.Passes.from_passed (.single rfl) hend Moment.next_ended
    -- a scope is entered and left, or its end is never reached
    obtain ⟨e, w₁, hpart, rfl, rfl⟩ | ⟨a, w₁, hpart, hrest⟩ :=
      Moment.end_of_pushed (fun _ _ => rfl) hstart
    · exact ⟨(hbody hr.bind_left.task (.error e) _ hpart).1, nofun⟩
    · obtain ⟨hcurrent, hQ⟩ := hbody hr.bind_left.task (.ok a) w₁ hpart
      obtain ⟨hsame, hR⟩ := (hnext a w₁ (hQ a rfl)).restores (hr.of_task hpart) r w₂ hrest
      exact ⟨hsame.trans hcurrent, hR⟩
  inside {_ _ s part next w _ _} hs hQ hpart hnext := by
    intro hr r w₂ hend
    -- a scope that is refused is a failure like any other
    cases henter : s.enter w with
    | error e =>
      have hrest := Moment.Passes.from_passed (.single (Moment.next_refused henter)) hend
        Moment.next_ended
      obtain ⟨rfl, rfl⟩ := Moment.eq_of_passes_ended (r := .error e) hrest
      exact ⟨rfl, nofun⟩
    | ok entered =>
      obtain ⟨u, w₁⟩ := entered
      obtain ⟨hg, hleave⟩ := Scope.growsTo_enter hs henter
      have hreached := (show (within s part >>= next).IsReached w from hr).bind_left.within henter
      have hstart := Moment.Passes.from_passed (.single (Moment.next_inside henter)) hend
        Moment.next_ended
      obtain ⟨e, w₃, hend₃, rfl, rfl⟩ | ⟨a, w₃, hend₃, hrest⟩ :=
        Moment.end_of_pushed (fun _ _ => rfl) hstart
      · have hcurrent := (hpart u w₁ henter hreached (.error e) w₃ hend₃).1
        exact ⟨(hleave w₃).current.trans (hcurrent.trans hg.current), nofun⟩
      · obtain ⟨hcurrent, hQ₃⟩ := hpart u w₁ henter hreached (.ok a) w₃ hend₃
        have ha := (hQ a).grows (hleave w₃) (hQ₃ a rfl)
        have hreached₃ := hr.of_inside henter hend₃
        obtain ⟨hsame, hR⟩ := (hnext a (u.run w₃) ha).restores hreached₃ r w₂ hrest
        refine ⟨hsame.trans ((hleave w₃).current.trans ?_), hR⟩
        exact hcurrent.trans hg.current

/-- Inside of a scope that makes a buffer current, anything may be done. -/
theorem current_of_within {s : Scope} {r : Except Failure α} (hs : s.chooses = true)
    (hend : Moment.Passes ⟨within s p, .top, w⟩ (⟨ofExcept r, .top, w₁⟩ : Moment α)) :
    w₁.host.current = w.host.current := by
  obtain ⟨u, w₂, henter, hu⟩ : ∃ u w₂, s.enter w = .ok (u, w₂) ∧
      ∀ w' : World, (u.run w').host.current = w.host.current := by
    cases s with
    | buffer a | temporary a => exact ⟨_, _, rfl, fun _ => rfl⟩
    | _ => cases hs
  have hstart := Moment.Passes.from_passed (.single (Moment.next_inside henter)) hend
    Moment.next_ended
  obtain ⟨e, w₃, -, rfl, rfl⟩ | ⟨a, w₃, -, hrest⟩ := Moment.end_of_pushed (fun _ _ => rfl) hstart
  · exact hu w₃
  · obtain ⟨-, rfl⟩ := Moment.eq_of_passes_ended (r := .ok a) hrest
    exact hu w₃

/-- A scope that chooses a buffer goes back to the one before. -/
theorem restores_within {s : Scope} (hs : s.chooses = true) :
    (within s p).Restores w fun _ _ => True :=
  fun _ _ _ hend => ⟨current_of_within hs hend, fun _ _ => trivial⟩

end Proc

/-! ### Forms whose evaluation calls nothing -/

namespace Heap

variable {h h₁ : Heap} {o r : Obj} {a : Addr}

/-- What a form stands for whose evaluation calls nothing: a symbol for its value, a
quoting form for what is quoted, and anything but a list for itself. -/
def literal? (h : Heap) (o : Obj) : Option Obj :=
  match h.shape o with
  | .cell (.symbol name value _) => if isKeywordName name then some o else value
  | .cell (.cons head tail) =>
    match h.list? tail with
    | some [quoted] => if h.symbolName? head = some "quote" then some quoted else none
    | _ => none
  | _ => some o

/-- The evaluation of a form calls nothing: it is no list, or one that quotes. -/
def IsLiteral (h : Heap) (o : Obj) : Prop :=
  ∀ head tail, h.shape o = .cell (.cons head tail) → h.Names head "quote"

/-- A buffer or its name stands for itself. -/
theorem literal?_of_asBuffer (ha : h.asBuffer o = .ok a) : h.literal? o = some o := by
  unfold asBuffer at ha
  unfold literal?
  split at ha
  · rename_i hshape
    rw [hshape]
  · rename_i hshape
    rw [hshape]
  · cases ha

/-- A symbol keeps its name as the heap grows. -/
theorem GrowsTo.symbolName? {name : String} (hg : h.GrowsTo h₁)
    (hn : h.symbolName? o = some name) : h₁.symbolName? o = some name := by
  unfold Heap.symbolName? at hn ⊢
  split at hn
  · rename_i hshape
    obtain ⟨b, rfl, hb⟩ := exists_ref_of_shape hshape
    rw [shape_ref (hg.cell hb)]
    exact hn
  · cases hn

/-- What a form is a literal for, it stays one for, if that is a buffer. -/
theorem GrowsTo.literal? (hg : h.GrowsTo h₁) (hr : h.literal? o = some r)
    (ha : h₁.asBuffer r = .ok a) : h₁.literal? o = some r := by
  cases o with
  | ref b =>
    -- a reference that dangles stands for itself
    cases hb : h.get? b with
    | none =>
      have hself : h.literal? (.ref b) = some (.ref b) := by
        simp only [Heap.literal?, shape, hb]
      obtain rfl := Option.some.inj (hself.symm.trans hr)
      exact literal?_of_asBuffer ha
    | some c =>
      rw [Heap.literal?, shape_ref hb] at hr
      rw [Heap.literal?, shape_ref (hg.cell hb)]
      cases c with
      | cons head tail =>
        simp only at hr ⊢
        split at hr
        · rename_i quoted hquoted
          split at hr
          · rename_i hhead
            simp only [hg.list? hquoted, if_pos (hg.symbolName? hhead)]
            exact hr
          · cases hr
        · cases hr
      | _ => exact hr
  | _ => exact hr

end Heap

namespace Host

/-- The function `quote` gives what it is applied to. -/
theorem adds_quote (args : List Obj) : (quote args).Adds w fun r _ => args = [r] := by
  unfold quote
  split
  · exact adds_pure rfl
  · exact adds_fail _

/-- Evaluating a literal gives what it stands for. -/
theorem adds_evaluate_literal {o : Obj} (ho : w.host.heap.IsLiteral o) :
    (evaluate o).Adds w fun r _ => w.host.heap.literal? o = some r := by
  refine yields_perform rfl (adds_within rfl (fun r => World.lasting_const _) fun u w₁ henter => ?_)
  have hheap := Scope.heap_of_evaluation henter
  refine (adds_query .heap).bind fun h w₂ _ heq => ?_
  obtain ⟨rfl, rfl⟩ := heq
  rw [← hheap] at ho ⊢
  simp only [Query.ask, Heap.literal?]
  -- a literal is not called: it is a symbol, quotes, or is itself
  cases hshape : w₂.host.heap.shape o with
  | cell c =>
    cases c with
    | symbol name value function =>
      by_cases hkeyword : isKeywordName name = true
      · simp only [if_pos hkeyword]
        exact adds_pure rfl
      · simp only [if_neg hkeyword]
        cases value with
        | some o => exact adds_pure rfl
        | none => exact adds_fail _
    | cons head tail =>
      have hhead := (ho head tail hshape).symbolName? (show "quote" ≠ "nil" by decide)
      refine (adds_query .heap).bind fun h w₃ _ heq => ?_
      obtain ⟨rfl, rfl⟩ := heq
      cases htail : w₃.host.heap.list? tail with
      | none =>
        simp only [Query.ask, htail]
        exact adds_fail _
      | some args =>
        have hspecial : specialForm? w₃.host.heap head = some .quote := by
          rw [specialForm?, hhead]
          rfl
        simp only [Query.ask, htail, hspecial]
        refine (adds_quote args).mono fun r w₄ _ hargs => ?_
        subst hargs
        simp only [if_pos hhead]
    | _ => exact adds_pure rfl
  | _ => exact adds_pure rfl

end Host

/-! ### Values for buffers -/

/-- A literal that is in the heap stays one. -/
theorem Heap.GrowsTo.isLiteral {h h₁ : Heap} {o : Obj} (hg : h.GrowsTo h₁)
    (ho : h.known o = o) (hl : h.IsLiteral o) : h₁.IsLiteral o := by
  intro head tail hshape
  obtain ⟨a, rfl, ha⟩ := exists_ref_of_shape hshape
  obtain ⟨c, hc⟩ := exists_get?_of_known ho
  obtain rfl := Option.some.inj ((hg.cell hc).symm.trans ha)
  exact hg.names (hl head tail (shape_ref hc))

namespace World

/-- Something holds now, or once things have been added. -/
def Soon (w : World) (Q : World → Prop) : Prop := ∃ w₁, w.GrowsTo w₁ ∧ Q w₁

/-- What will hold soon will hold soon in what grew. -/
theorem GrowsTo.soon {Q : World → Prop} (hg : w.GrowsTo w₁) (h : w₁.Soon Q) : w.Soon Q := by
  obtain ⟨w₂, hg₂, hQ⟩ := h
  exact ⟨w₂, hg.trans hg₂, hQ⟩

/-- A script value denotes a live buffer: what it stands for is a literal for one, or for
the name of one. -/
def Denotes (w : World) (v : Value) (a : Addr) : Prop :=
  ∃ o r, w.Shows v o ∧ w.host.heap.literal? o = some r ∧ w.host.heap.asBuffer r = .ok a

/-- A script value is for a list whose head is the marker of a wrapped handle of the symbol
of quoting. -/
def WrapsQuote (w : World) (v : Value) : Prop :=
  ∃ o head tail key g, w.Shows v o ∧ w.host.heap.shape o = .cell (.cons head tail) ∧
    w.host.IsMarker head key ∧ w.border.proxies.get? key = some (.handle g) ∧ w.IsNamed g "quote"

/-- A handle is for an object of the heap: its number has been given out, and what the host
keeps under it is there. -/
def AtHand (w : World) (g : Handle) : Prop :=
  w.host.Promises g.id fun o => w.host.heap.known o = o

theorem lasting_atHand (g : Handle) : Lasting fun w => w.AtHand g :=
  ⟨fun hg h => h.of_ages hg.host.ages fun _ => hg.host.heap.known⟩

/-- Evaluating what a handle is for calls nothing. -/
def HasLiteral (w : World) (g : Handle) : Prop :=
  w.host.Promises g.id fun o => w.host.heap.known o = o ∧ w.host.heap.IsLiteral o

theorem lasting_hasLiteral (g : Handle) : Lasting fun w => w.HasLiteral g := by
  refine ⟨fun hg h => h.of_ages hg.host.ages fun o ho => ?_⟩
  exact ⟨hg.host.heap.known ho.1, hg.host.heap.isLiteral ho.1 ho.2⟩

/-- What is at hand and stands for a literal has that literal. -/
theorem AtHand.hasLiteral {g : Handle} {o : Obj} (hg : w.AtHand g)
    (ho : w.host.resolve? g.id = some o) (hl : w.host.heap.IsLiteral o) : w.HasLiteral g := by
  refine ⟨hg.1, fun o' ho' => ?_⟩
  obtain rfl := Option.some.inj (ho.symm.trans ho')
  exact ⟨hg.2 o ho, hl⟩

/-- From now on, evaluating what one script value stands for calls nothing. It is what
another value stands for, or it gives this. -/
def Quotes (w : World) (v v' : Value) : Prop :=
  ∀ w₁ o', w.GrowsTo w₁ → w₁.Shows v' o' → w₁.host.heap.IsLiteral o' ∧
    ∃ o, w₁.Shows v o ∧ (o' = o ∨ w₁.host.heap.literal? o' = some o)

theorem lasting_quotes (v v' : Value) : Lasting fun w => w.Quotes v v' :=
  ⟨fun hg h w₁ o' hg₁ => h w₁ o' (hg.trans hg₁)⟩

/-- A literal quotes itself. -/
theorem HasLiteral.quotes {g : Handle} (h : w.HasLiteral g) :
    w.Quotes (.handle g) (.handle g) := by
  intro w₁ o hg ho
  exact ⟨(((lasting_hasLiteral g).grows hg h).2 o ho).2, o, ho, .inl rfl⟩

/-- Plain data but for an object with fields, and functions, are no lists. -/
theorem quotes_self {v : Value} (hhandle : ∀ g, v ≠ .handle g)
    (hobject : ∀ field fields, v ≠ .object (field :: fields)) : w.Quotes v v := by
  refine fun w₁ o hg ho => ⟨fun head tail hshape => ?_, o, ho, .inl rfl⟩
  obtain ⟨a, rfl, ha⟩ := Heap.exists_ref_of_shape hshape
  cases v with
  | bool b =>
    -- false is the empty list, and truth is the symbol of that name
    cases b with
    | false => cases ho
    | true =>
      obtain ⟨_, -, -, hname⟩ := ho
      obtain ⟨hnil, -⟩ | ⟨_, _, _, hsame, hs⟩ := hname
      · exact absurd hnil (by decide)
      · cases hsame
        cases ha.symm.trans hs
  | float x => cases ho
  | null | int i => cases ho
  | text s =>
    obtain ⟨_, hsame, hs⟩ := ho
    cases hsame
    cases ha.symm.trans hs
  | list items =>
    obtain ⟨_, _, hsame, hs⟩ := ho
    cases hsame
    cases ha.symm.trans hs
  | object fields =>
    cases fields with
    | nil => cases ho
    | cons field fields => exact absurd rfl (hobject field fields)
  | handle g => exact absurd rfl (hhandle g)
  | function c =>
    obtain ⟨_, _, hsame, hs⟩ := ho
    cases hsame
    cases ha.symm.trans hs
  | native name => cases ho

/-- A form that quotes a value. -/
theorem IsForm.quotes {v v' : Value} (h : w.IsForm v' "quote" [v]) : w.Quotes v v' := by
  intro w₁ o' hg ho'
  obtain ⟨x, os, hlist, hx, hos⟩ := ((lasting_isForm _ _ _).grows hg h).list? ho'
  cases hos with
  | @cons _ o _ _ ho hnil =>
    cases hnil
    obtain ⟨a, tail, rfl, hpair, htail⟩ := Heap.exists_pair_of_list? hlist
    refine ⟨fun head tail' hshape => ?_, o, ho, .inr ?_⟩
    · rw [Heap.shape_ref hpair] at hshape
      cases hshape
      exact hx
    · rw [Heap.literal?, Heap.shape_ref hpair]
      simp only [htail, if_pos (hx.symbolName? (show "quote" ≠ "nil" by decide))]

end World

/-! ### Asking the host about a value -/

namespace Host

/-- A flag that is set is the object for truth. -/
theorem adds_ofFlag (b : Bool) : (ofFlag b).Adds w fun t w₁ => b = true →
    ∃ a, t = .ref a ∧ w₁.host.find? truthName = some a := by
  cases b with
  | false => exact adds_pure nofun
  | true =>
    refine adds_truth.mono fun t w₁ _ ht _ => ?_
    obtain ⟨a, ha, hfind, -⟩ := ht
    exact ⟨a, ha, hfind⟩

/-- A test that an object passes gives the symbol of truth. -/
theorem adds_test (p : Shape → Bool) (o : Obj) :
    (test p o).Adds w fun t w₁ => p (w.host.heap.shape o) = true →
      ∃ a, t = .ref a ∧ w₁.host.find? truthName = some a := by
  refine (adds_query .heap).bind fun h w₁ _ heq => ?_
  obtain ⟨rfl, rfl⟩ := heq
  exact adds_ofFlag _

/-- The symbol of truth is sent as data. -/
theorem adds_send_truth {a : Addr} (ha : w.host.find? truthName = some a) :
    (send (.ref a)).Adds w fun p _ => p = .data (Json.bool true).render := by
  intro hr
  have hname : w.host.heap.Names (.ref a) truthName :=
    hr.grounded.1 _ (Interpreter.mem_symbols_of_find? ha)
  obtain ⟨hnil, -⟩ | ⟨_, value, function, hsame, hs⟩ := hname
  · exact absurd hnil (by decide)
  cases hsame
  revert hr
  refine (adds_query .heap).bind fun h w₁ _ heq => ?_
  obtain ⟨rfl, rfl⟩ := heq
  simp only [Query.ask, Heap.shape_ref hs, if_true]
  refine adds_truth.bind fun t w₂ hg ht => ?_
  obtain ⟨b, rfl, hb, -⟩ := ht
  obtain rfl := Option.some.inj ((hg.host.names ha).symm.trans hb)
  rw [if_pos (Obj.eq_refl _)]
  exact adds_pure rfl

/-- The first half of a pair; without a pair there is only `nil`. -/
theorem adds_car (o : Obj) :
    (car o).Adds w fun r w₁ => r = .nil ∨ ∃ tail, w₁.host.heap.shape o = .cell (.cons r tail) := by
  refine (adds_query .heap).bind fun h w₁ _ heq => ?_
  obtain ⟨rfl, rfl⟩ := heq
  simp only [Query.ask]
  split
  · rename_i head tail hshape
    exact adds_pure (.inr ⟨tail, hshape⟩)
  · exact adds_pure (.inl rfl)
  · exact adds_fail _

end Host

namespace World

/-- A script value that has arrived for the head of a list that a handle is for: if it is a
handle, it is for the head, or the head is the marker of it. -/
def HasHead (w : World) (g : Handle) (v : Value) : Prop :=
  ∀ f, v = .handle f → ∃ a head tail, w.host.resolve? g.id = some (.ref a) ∧
    w.host.heap.get? a = some (.cons head tail) ∧
    (w.host.resolve? f.id = some head ∨
      ∃ key, w.host.IsMarker head key ∧ w.border.proxies.get? key = some (.handle f))

theorem lasting_hasHead (g : Handle) (v : Value) : Lasting fun w => w.HasHead g v := by
  refine ⟨fun {w w₁} hg h f hf => ?_⟩
  obtain ⟨a, head, tail, hid, ha, hhead⟩ := h f hf
  refine ⟨a, head, tail, hg.host.kept hid, hg.host.heap.cell ha, ?_⟩
  obtain hid | ⟨key, hmarks, hkey⟩ := hhead
  · exact .inl (hg.host.kept hid)
  · refine .inr ⟨key, hg.host.isMarker hmarks, ?_⟩
    rw [hg.proxies]
    exact hkey

end World

/-- Only a handle is the same as a handle. -/
theorem Value.eq_handle_of_same {v : Value} {h : Handle} (hsame : v.same (.handle h) = true) :
    v = .handle h := by
  cases v with
  | handle f => exact congrArg Value.handle (by simpa [same] using hsame)
  | _ => cases hsame

namespace Border

variable {g : Handle}

/-- Data brings no handle. -/
theorem adds_unpack_data (text : String) :
    (unpack (.data text)).Adds w fun v _ => ∀ f, v ≠ .handle f := by
  refine (isAdditive_ofExcept _).adds.bind fun j w₁ _ _ => adds_pure fun f hf => ?_
  cases j with
  | int i =>
    rw [Value.ofJson, Value.ofInt] at hf
    split at hf <;> cases hf
  | _ => cases hf

/-- Truth crosses as data. -/
theorem adds_unpack_truth :
    (unpack (.data (Json.bool true).render)).Adds w fun v _ => v = .bool true := by
  have hread : Json.ofText (Json.bool true).render = .ok (.bool true) := by cbv
  rw [unpack, hread]
  exact adds_pure rfl

/-- What is unwrapped is what was wrapped. -/
theorem adds_unwrap (key : Key) :
    (unwrap key).Adds w fun v w₁ => w₁.border.proxies.get? key = some v := by
  refine (adds_change (c := .unwrap? key) rfl).bind fun r w₁ hg hr => ?_
  obtain ⟨rfl, rfl⟩ := hr
  cases hkey : w.border.proxies.get? key with
  | none =>
    have hnone : (Change.unwrap? key).run w = (none, w) := by simp only [Change.run, hkey]
    rw [hnone]
    exact adds_fail _
  | some v =>
    have hsome : (Change.unwrap? key).run w = (some v, w.hold v.handles) := by
      simp only [Change.run, hkey]
    rw [hsome]
    exact adds_pure hkey

/-- The empty list is delivered as null, which is no head. -/
theorem delivers_nil : Delivers (fun v w₁ => w₁.HasHead g v) .nil w := by
  refine (adds_query .heap).bind fun h w₁ _ _ => adds_pure fun w₂ _ => ?_
  exact (adds_unpack_data _).mono fun v _ _ hv f hf => absurd hf (hv f)

/-- What arrives for the head of a list. -/
theorem delivers_head {a : Addr} {head tail : Obj} (hid : w.host.resolve? g.id = some (.ref a))
    (ha : w.host.heap.get? a = some (.cons head tail)) :
    Delivers (fun v w₁ => w₁.HasHead g v) head w := by
  refine (Host.adds_send head).mono fun p w₁ hg₁ hp w₂ hg₂ => ?_
  obtain ⟨text, rfl⟩ | ⟨id, rfl, hhead⟩ | ⟨key, rfl, hmarks⟩ := hp
  · exact (adds_unpack_data text).mono fun v _ _ hv f hf => absurd hf (hv f)
  · refine (adds_adopt id).bind fun f w₃ hg₃ hf => adds_pure fun f' hf' => ?_
    cases hf'
    have hg := hg₁.trans (hg₂.trans hg₃)
    refine ⟨a, head, tail, hg.host.kept hid, hg.host.heap.cell ha, .inl ?_⟩
    rw [hf.1]
    exact (hg₂.trans hg₃).host.kept hhead
  · refine (adds_unwrap key).mono fun v w₃ hg₃ hv f hf => ?_
    have hg := hg₁.trans (hg₂.trans hg₃)
    exact ⟨a, head, tail, hg.host.kept hid, hg.host.heap.cell ha,
      .inr ⟨key, (hg₂.trans hg₃).host.isMarker hmarks, hf ▸ hv⟩⟩

/-- What the host takes for no pair is evaluated as a literal. -/
theorem adds_isPair (hkeeps : w.host.heap.Keeps .isCons) (hat : w.AtHand g) :
    (isPair (.handle g)).Adds w fun b w₁ => b = false → w₁.HasLiteral g := by
  have hS : ∀ b : Bool, World.Lasting fun w₁ => b = false → w₁.HasLiteral g := fun b =>
    ⟨fun hg h hb => (World.lasting_hasLiteral g).grows hg (h hb)⟩
  have hQ : ∀ v : Value, World.Lasting fun w₁ => v.isTruthy = false → w₁.HasLiteral g :=
    fun v => hS v.isTruthy
  have hcall : (call "consp" [.handle g]).Adds w fun v w₁ =>
      v.isTruthy = false → w₁.HasLiteral g := by
    refine adds_call (b := .isCons) (R := fun t w₁ => w₁.HasLiteral g ∨
      ∃ a, t = .ref a ∧ w₁.host.find? truthName = some a)
      (by cbv) hkeeps (by simp) hQ ?_ ?_
    · intro os w₁ hg hos
      cases hos with
      | @cons _ o _ _ ho hnil =>
        cases hnil
        refine (Host.adds_test Host.isConsShape o).mono fun t w₂ hg₂ ht => ?_
        by_cases hpair : Host.isConsShape (w₁.host.heap.shape o) = true
        · exact .inr (ht hpair)
        · -- what is no pair is no list that could call anything
          have hliteral : w₁.host.heap.IsLiteral o := fun head tail hshape => by
            rw [hshape] at hpair
            exact absurd rfl hpair
          have hhas := ((World.lasting_atHand g).grows hg hat).hasLiteral ho hliteral
          exact .inl ((World.lasting_hasLiteral g).grows hg₂ hhas)
    · rintro t w₁ - (hliteral | ⟨a, rfl, ha⟩)
      · exact (delivers_of_lasting (World.lasting_hasLiteral g) hliteral).mono
          fun _ _ _ h w₂ hg₂ => (h w₂ hg₂).mono fun _ _ _ h _ => h
      · refine (Host.adds_send_truth ha).mono fun p w₂ _ hp w₃ _ => ?_
        subst hp
        exact adds_unpack_truth.mono fun v _ _ hv hfalse => by
          subst hv
          cases hfalse
  exact adds_holding hS (hcall.bind fun v w₁ _ hv => adds_pure hv)

/-- What starts with the symbol of quoting is evaluated as a literal. -/
theorem adds_isQuoted (hkeeps : w.host.heap.Keeps .car) (hat : w.AtHand g)
    (hwraps : ¬w.Soon fun w₁ => w₁.WrapsQuote (.handle g)) :
    (isQuoted (.handle g)).Adds w fun b w₁ => b = true → w₁.HasLiteral g := by
  have hS : ∀ b : Bool, World.Lasting fun w₁ => b = true → w₁.HasLiteral g := fun b =>
    ⟨fun hg h hb => (World.lasting_hasLiteral g).grows hg (h hb)⟩
  -- the head is asked for, and it is delivered as what it crosses as
  have hcall : (call "car" [.handle g]).Adds w fun v w₁ => w₁.HasHead g v := by
    refine adds_call (b := .car) (R := fun r w₁ => r = .nil ∨
      ∃ a tail, w₁.host.resolve? g.id = some (.ref a) ∧
        w₁.host.heap.get? a = some (.cons r tail)) (by cbv) hkeeps (by simp)
        (World.lasting_hasHead g) ?_ ?_
    · intro os w₁ hg hos
      cases hos with
      | @cons _ o _ _ ho hnil =>
        cases hnil
        refine (Host.adds_car o).mono fun r w₂ hg₂ hr => ?_
        obtain rfl | ⟨tail, hshape⟩ := hr
        · exact .inl rfl
        · obtain ⟨a, rfl, ha⟩ := Heap.exists_ref_of_shape hshape
          exact .inr ⟨a, tail, hg₂.host.kept ho, ha⟩
    · rintro r w₁ - (rfl | ⟨a, tail, hid, ha⟩)
      · exact delivers_nil
      · exact delivers_head hid ha
  have hname : hostName "quote" .symbol = "quote" := by cbv
  refine adds_holding hS (hcall.bind fun v w₁ hg₁ hv => ?_)
  -- the head is compared with the symbol that quotes
  refine (adds_lookup "quote" .symbol true).bind fun h w₂ hg₂ hh => adds_pure fun hsame => ?_
  rw [hname] at hh
  obtain rfl := Value.eq_handle_of_same hsame
  obtain ⟨a, head, tail, hid, ha, hhead⟩ := (World.lasting_hasHead g _).grows hg₂ hv h rfl
  have hat₂ := (World.lasting_atHand g).grows (hg₁.trans hg₂) hat
  obtain hhead | ⟨key, hmarks, hkey⟩ := hhead
  · refine hat₂.hasLiteral hid fun head' tail' hshape => ?_
    rw [Heap.shape_ref ha] at hshape
    cases hshape
    exact hh.2 _ hhead
  · refine absurd ⟨w₂, hg₁.trans hg₂, ?_⟩ hwraps
    exact ⟨_, head, tail, key, h, hid, Heap.shape_ref ha, hmarks, hkey, hh⟩

end Border

/-! ### Building the forms -/

/-- The builtins that the border makes forms of values with keep their functions. -/
structure Heap.KeepsForms (h : Heap) : Prop where
  list : h.Keeps .list
  evaluate : h.Keeps .evaluate
  isCons : h.Keeps .isCons
  car : h.Keeps .car

/-- The functions that forms are made with stay as the heap grows. -/
theorem Heap.GrowsTo.keepsForms {h h₁ : Heap} (hg : h.GrowsTo h₁) (hk : h.KeepsForms) :
    h₁.KeepsForms where
  list := hg.keeps hk.list
  evaluate := hg.keeps hk.evaluate
  isCons := hg.keeps hk.isCons
  car := hg.keeps hk.car

theorem Heap.KeepsForms.packs (hk : w.host.heap.KeepsForms) (v : Value) : w.Packs v :=
  World.packs_of_keeps hk.list hk.evaluate v

/-- A value that does as a form: if it is a handle, it is for an object of the heap, and it
is for no list whose head is the marker of a wrapped handle of the symbol of quoting. -/
structure World.Quotable (w : World) (v : Value) : Prop where
  atHand : ∀ g, v = .handle g → w.AtHand g
  not_wraps : ¬w.Soon fun w₁ => w₁.WrapsQuote v

/-- What can be quoted stays so as the world grows. -/
theorem World.GrowsTo.quotable {v : Value} (hg : w.GrowsTo w₁) (hv : w.Quotable v) :
    w₁.Quotable v where
  atHand g hg' := (lasting_atHand g).grows hg (hv.atHand g hg')
  not_wraps h := hv.not_wraps (hg.soon h)

namespace Border

/-- A value is quoted by a list that the host makes of it. -/
theorem adds_quote (hkeeps : w.host.heap.KeepsForms) (v : Value) :
    (quote v).Adds w fun v' w₁ => w₁.Quotes v v' := by
  have hform : (formOf "quote" [v]).Adds w fun v' w₁ => w₁.IsForm v' "quote" [v] :=
    adds_formOf (by cbv) hkeeps.list (fun u _ => hkeeps.packs u)
      (World.neverMark_of_length (by simp))
  exact hform.mono fun v' w₁ _ hv' => hv'.quotes

/-- What the border puts into a form for a value does not call anything. -/
theorem adds_quoteIfList (hkeeps : w.host.heap.KeepsForms) {v : Value} (hv : w.Quotable v) :
    (quoteIfList v).Adds w fun v' w₁ => w₁.Quotes v v' := by
  unfold quoteIfList
  split
  · exact adds_quote hkeeps _
  · rename_i g
    have hat := hv.atHand g rfl
    refine (adds_isPair hkeeps.isCons hat).bind fun b w₁ hg₁ hb => ?_
    -- what is no pair goes into the form as it is; of a pair it depends on the head
    cases b with
    | false => exact adds_pure (hb rfl).quotes
    | true =>
      have hwraps := (hg₁.quotable hv).not_wraps
      refine (adds_isQuoted (hg₁.host.heap.keeps hkeeps.car)
        ((World.lasting_atHand g).grows hg₁ hat) hwraps).bind fun c w₂ hg₂ hc => ?_
      cases c with
      | true => exact adds_pure (hc rfl).quotes
      | false => exact adds_quote ((hg₁.trans hg₂).host.heap.keepsForms hkeeps) _
  · rename_i hobject hhandle
    refine adds_pure (World.quotes_self (fun g hg => hhandle g hg) fun field fields hf => ?_)
    exact hobject field fields hf

/-- The form that calls a script function. -/
theorem adds_callForm (hkeeps : w.host.heap.KeepsForms) (c : Callable) :
    (callForm c).Adds w fun v w₁ => ∃ args, w₁.IsForm v "funcall" args := by
  have hlasting : ∀ v : Value, World.Lasting fun w₁ => ∃ args, w₁.IsForm v "funcall" args := by
    refine fun v => ⟨fun hg h => ?_⟩
    obtain ⟨args, hform⟩ := h
    exact ⟨args, (World.lasting_isForm v _ args).grows hg hform⟩
  have hname : hostName "funcall" .symbol = "funcall" := by cbv
  refine adds_keeping hlasting ?_
  refine (adds_lookup "funcall" .symbol true).bind fun h w₁ hg₁ hh => ?_
  rw [hname] at hh
  refine (adds_quote (hg₁.host.heap.keepsForms hkeeps) _).bind fun quoted w₂ hg₂ _ => ?_
  have hkeeps₂ := (hg₁.trans hg₂).host.heap.keepsForms hkeeps
  refine (adds_list hkeeps₂.list (fun u _ => hkeeps₂.packs u)
    (World.neverMark_of_length (by simp))).mono fun v w₃ hg₃ hv => ⟨_, h, ?_, hv⟩
  exact (World.lasting_isNamed h _).grows (hg₂.trans hg₃) hh

/-- The form that has a script function called while a buffer is current. -/
theorem adds_bufferForm {buffer : Value} (c : Callable) (hkeeps : w.host.heap.KeepsForms)
    (hbuffer : w.Quotable buffer) :
    (keeping (callForm c >>= fun body => symbol "with-current-buffer" >>= fun head =>
      quoteIfList buffer >>= fun v => list [.handle head, v, body])).Adds w fun form w₁ =>
        ∃ v body, w₁.IsForm form "with-current-buffer" [v, body] ∧ w₁.Quotes buffer v := by
  have hlasting : ∀ form : Value, World.Lasting fun w₁ => ∃ v body,
      w₁.IsForm form "with-current-buffer" [v, body] ∧ w₁.Quotes buffer v := by
    refine fun form => ⟨fun hg h => ?_⟩
    obtain ⟨v, body, hform, hv⟩ := h
    exact ⟨v, body, (World.lasting_isForm _ _ _).grows hg hform,
      (World.lasting_quotes _ _).grows hg hv⟩
  -- the name is the same on both sides
  have hname : hostName "with-current-buffer" .symbol = "with-current-buffer" := by
    cbv
  refine adds_keeping hlasting ?_
  refine (adds_callForm hkeeps c).bind fun body w₁ hg₁ hbody => ?_
  refine (adds_lookup "with-current-buffer" .symbol true).bind fun head w₂ hg₂ hhead => ?_
  rw [hname] at hhead
  have hg := hg₁.trans hg₂
  refine (adds_quoteIfList (hg.host.heap.keepsForms hkeeps) (hg.quotable hbuffer)).bind
    fun v w₃ hg₃ hv => ?_
  obtain ⟨args, hbody⟩ := hbody
  have hkeeps₃ := (hg.trans hg₃).host.heap.keepsForms hkeeps
  have hbody₃ := (World.lasting_isForm body _ args).grows (hg₂.trans hg₃) hbody
  refine (adds_list hkeeps₃.list (fun u _ => hkeeps₃.packs u) (hbody₃.neverMark (by simp))).mono
    fun form w₄ hg₄ hform => ⟨v, body, ⟨head, ?_, hform⟩, ?_⟩
  · exact (World.lasting_isNamed head _).grows (hg₃.trans hg₄) hhead
  · exact (World.lasting_quotes _ _).grows hg₄ hv

/-- The form that has a script function called in a temporary buffer. -/
theorem adds_temporaryForm (c : Callable) (hkeeps : w.host.heap.KeepsForms) :
    (keeping (callForm c >>= fun body => symbol "with-temp-buffer" >>= fun head =>
      list [.handle head, body])).Adds w fun form w₁ =>
        ∃ body, w₁.IsForm form "with-temp-buffer" [body] := by
  have hlasting : ∀ form : Value, World.Lasting fun w₁ => ∃ body,
      w₁.IsForm form "with-temp-buffer" [body] := by
    refine fun form => ⟨fun hg h => ?_⟩
    obtain ⟨body, hform⟩ := h
    exact ⟨body, (World.lasting_isForm _ _ _).grows hg hform⟩
  have hname : hostName "with-temp-buffer" .symbol = "with-temp-buffer" := by cbv
  refine adds_keeping hlasting ?_
  refine (adds_callForm hkeeps c).bind fun body w₁ hg₁ hbody => ?_
  refine (adds_lookup "with-temp-buffer" .symbol true).bind fun head w₂ hg₂ hhead => ?_
  rw [hname] at hhead
  have hkeeps₂ := (hg₁.trans hg₂).host.heap.keepsForms hkeeps
  refine (adds_list hkeeps₂.list (fun u _ => hkeeps₂.packs u)
    (World.neverMark_of_length (by simp))).mono fun form w₃ hg₃ hform =>
      ⟨body, head, ?_, hform⟩
  exact (World.lasting_isNamed head _).grows hg₃ hhead

/-- A body with parameters is refused, and one without is not. -/
theorem adds_requireNullary (c : Callable) : (requireNullary c).Adds w fun _ _ => True := by
  unfold requireNullary
  split
  · exact adds_fail _
  · exact adds_pure trivial

end Border

/-! ### Script functions in buffers -/

namespace Proc.Composes

variable {P : {α : Type} → Proc α → World → (α → World → Prop) → Prop} {S : Prop}

/-- A form with a buffer comes to what comes of its body in the buffer that a literal
stands for. -/
theorem withBuffer (hP : Composes P) {o : Obj} {body : List Obj}
    (ho : w.host.heap.IsLiteral o)
    (hbody : ∀ r a w₁, w.GrowsTo w₁ → w.host.heap.literal? o = some r →
      w₁.host.heap.asBuffer r = .ok a →
      P (within (.buffer a) (Host.sequence body)) w₁ fun _ _ => S) :
    P (Host.withBuffer (o :: body)) w fun _ _ => S := by
  refine hP.bind_adds (Host.adds_evaluate_literal ho) fun r w₁ hg hr => ?_
  refine hP.bind_adds (adds_query .heap) fun h w₂ _ heq => ?_
  obtain ⟨rfl, rfl⟩ := heq
  -- the buffer is looked for where it is then chosen
  cases ha : w₂.host.heap.asBuffer r with
  | error s =>
    simp only [Query.ask, ha]
    exact hP.of_yields (yields_fail _)
  | ok a =>
    simp only [Query.ask, ha]
    exact hbody r a w₂ hg hr ha

/-- A call with a buffer comes to what comes of the body in a buffer that the value
denotes. -/
theorem inBuffer (hP : Composes P) {buffer : Value} (c : Callable)
    (hkeeps : w.host.heap.KeepsForms) (hbuffer : w.Quotable buffer)
    (hbody : ∀ a body w₁, w.GrowsTo w₁ → w₁.Denotes buffer a →
      P (within (.buffer a) (Host.sequence body)) w₁ fun _ _ => S) :
    P (Border.inBuffer buffer c) w fun _ _ => S := by
  refine hP.keeping (fun _ => World.lasting_const S) ?_
  refine hP.bind_adds (Border.adds_requireNullary c) fun _ w₁ hg₁ _ => ?_
  refine hP.bind_adds (Border.adds_bufferForm c (hg₁.host.heap.keepsForms hkeeps)
    (hg₁.quotable hbuffer)) fun form w₂ hg₂ hform => ?_
  obtain ⟨v, body, hform, hv⟩ := hform
  have hg := hg₁.trans hg₂
  -- the body is evaluated by the rule of the form, with the buffer that the value is for
  refine hP.evaluate (f := .withBuffer) (R := fun _ _ => S) (hg.host.heap.keeps hkeeps.evaluate)
    hform rfl (fun _ => World.lasting_const S) (fun _ => World.lasting_const S) ?_
    fun o w₃ ho => Border.delivers_of_lasting (World.lasting_const S) ho
  intro os w₃ hg₃ hos
  -- the form has three items: the head, the buffer, and the call
  cases hos with
  | cons ho hrest =>
    obtain ⟨hliteral, o, hshows, hsame⟩ := hv w₃ _ hg₃ ho
    refine hP.withBuffer hliteral fun r a w₄ hg₄ hr ha => ?_
    refine hbody a _ w₄ (hg.trans (hg₃.trans hg₄)) ?_
    have hshows₄ := (World.lasting_shows buffer o).grows hg₄ hshows
    obtain rfl | hquoted := hsame
    · exact ⟨_, r, hshows₄, hg₄.host.heap.literal? hr ha, ha⟩
    · obtain rfl := Option.some.inj (hquoted.symm.trans hr)
      exact ⟨o, o, hshows₄, Heap.literal?_of_asBuffer ha, ha⟩

end Proc.Composes

/-! ### What is left of the calls -/

/-- To find or make a buffer does not select it. -/
theorem Interpreter.current_ensureBuffer (i : Interpreter) (name : String) :
    (i.ensureBuffer name).2.current = i.current := by
  unfold ensureBuffer
  split <;> rfl

/-- A form with a temporary buffer leaves the current buffer as it was. -/
theorem Host.restores_withTemporaryBuffer (body : List Obj) :
    (withTemporaryBuffer body).Restores w fun _ _ => True := by
  intro _ r w₁ hend
  have hnamed := Moment.Passes.from_passed (.single Moment.next_act) hend Moment.next_ended
  have hmade := Moment.Passes.from_passed (.single Moment.next_act) hnamed Moment.next_ended
  refine ⟨(current_of_within (s := .temporary _) rfl hmade).trans ?_, fun _ _ => trivial⟩
  exact Interpreter.current_ensureBuffer _ _

namespace Border

/-- A call with a buffer leaves the current buffer as it was, whatever the body does. -/
theorem restores_inBuffer {buffer : Value} (c : Callable) (hkeeps : w.host.heap.KeepsForms)
    (hbuffer : w.Quotable buffer) : (inBuffer buffer c).Restores w fun _ _ => True :=
  composes_restores.inBuffer c hkeeps hbuffer fun _ _ _ _ _ => restores_within rfl

/-- So does a call with a temporary buffer. -/
theorem restores_inTemporaryBuffer (c : Callable) (hkeeps : w.host.heap.KeepsForms) :
    (inTemporaryBuffer c).Restores w fun _ _ => True := by
  have hconst : ∀ _ : Value, World.Lasting fun _ => True := fun _ => World.lasting_const True
  refine composes_restores.keeping hconst ?_
  refine composes_restores.bind_adds (adds_requireNullary c) fun _ w₁ hg₁ _ => ?_
  refine composes_restores.bind_adds (adds_temporaryForm c (hg₁.host.heap.keepsForms hkeeps))
    fun form w₂ hg₂ hform => ?_
  obtain ⟨body, hform⟩ := hform
  exact composes_restores.evaluate (f := .withTemporaryBuffer) (R := fun _ _ => True)
    ((hg₁.trans hg₂).host.heap.keeps hkeeps.evaluate) hform rfl
    (fun _ => World.lasting_const True) hconst
    (fun os _ _ _ => Host.restores_withTemporaryBuffer os)
    fun o _ _ => delivers_of_lasting (World.lasting_const True) trivial

/-- A call with a value that denotes no live buffer fails. No script code is run, and the
current buffer stays the same. -/
theorem comes_of_not_denotes {buffer : Value} (c : Callable)
    (hreached : (inBuffer buffer c).IsReached w) (hkeeps : w.host.heap.KeepsForms)
    (hbuffer : w.Quotable buffer) (hdenotes : ¬w.Soon fun w₁ => ∃ a, w₁.Denotes buffer a) :
    ∃ e w₁, Comes w.scene (inBuffer buffer c) w (.error e) w₁ := by
  have hnone : (inBuffer buffer c).Yields w fun _ _ => False :=
    composes_yields.inBuffer c hkeeps hbuffer fun a _ w₁ hg ha =>
      absurd ⟨w₁, hg, a, ha⟩ hdenotes
  obtain ⟨r, w₁, hcomes, hok⟩ := hnone hreached
  cases r with
  | error e => exact ⟨e, w₁, hcomes⟩
  | ok v => exact (hok v rfl).elim

/-- Whatever is to be done with a function without arguments, one that needs some is
refused first. -/
theorem comes_of_arity {c : Callable} {n : Nat} (hc : c.arity = .exactly (n + 1))
    (next : Unit → Proc Value) : Comes w.scene (keeping (requireNullary c >>= next)) w
      (.error (.arityMismatch none 0 (n + 1))) w := by
  have hrefused : requireNullary c = fail (.arityMismatch none 0 (n + 1)) := by
    rw [requireNullary, hc]
  have hpart : Comes w.scene (requireNullary c >>= next) w
      (.error (.arityMismatch none 0 (n + 1))) w := by
    rw [hrefused]
    exact .fail rfl
  -- what the call has come to hold is nothing
  have henter : Scope.holding.enter w = .ok (.holdOnly w.script.held, w) := rfl
  exact .insideFails rfl henter hpart rfl

end Border

end Crossing
