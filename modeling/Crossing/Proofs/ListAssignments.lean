import Crossing.Proofs.Passages

/-!
# Lists that variables are set to

A list that script code has a handle of is quoted before it is put into a form, unless it is
quoted already. To tell, the border takes in the head of the list, as the value that the head
comes back as. So two kinds of lists are told wrong: that of a list whose head is the marker of a
value that is gone cannot be told at all, and one whose head is the marker of a handle of the
symbol of quoting is taken for quoted.

- `World.IsGone`, `World.MarksQuote`: the markers at the head that make a difference;
- `Border.ends_unpack`: a parcel is taken in, or it is for a value that is gone;
- `Border.succeedsUnless_quoteIfList_gone`, `Border.succeeds_quoteIfList_marksQuote`: what becomes
  of the two kinds of lists;
- `lists_are_assigned_unless_marked`: a variable is set to any other list.
-/

namespace Crossing

open Proc

variable {w w₀ w₁ : World} {o head tail : Obj} {g s : Handle} {a b : Addr} {key : Key}
  {parcel : Parcel} {name : String}

/-! ### Markers -/

namespace World

/-- An object is the marker of a wrapped value that is gone. -/
def IsGone (w : World) (o : Obj) (key : Key) : Prop :=
  w.passage o = .wrapped key ∧ w.border.proxies.get? key = none

/-- An object is the marker of a handle of the symbol of quoting. -/
def MarksQuote (w : World) (o : Obj) : Prop :=
  ∃ key f y, w.passage o = .wrapped key ∧ w.border.proxies.get? key = some (.handle f) ∧
    w.host.resolve? f.id = some y ∧ w.host.heap.Names y "quote"

/-- What an object crosses as stays so as the world goes on. -/
theorem Sustains.passage (hs : w.Sustains w₁) (hclosed : w.host.IsClosed)
    (ho : w.host.heap.known o = o) : w₁.passage o = w.passage o :=
  hs.grown.passage_of_known hclosed ho

/-- What is gone stays so as the world goes on. -/
theorem IsGone.sustained (h : w.IsGone o key) (hs : w.Sustains w₁) (hclosed : w.host.IsClosed)
    (ho : w.host.heap.known o = o) : w₁.IsGone o key :=
  ⟨by rw [hs.passage hclosed ho, h.1], by rw [hs.grown.proxies, h.2]⟩

/-- A pair whose head is neither of these markers, nor the symbol of quoting, does as an argument
of a form, and stands for itself. -/
theorem isArgument_of_head (hb : w.host.heap.get? b = some (.cons head tail))
    (hquote : ¬w.host.heap.Names head "quote") (hgone : ∀ key, ¬w.IsGone head key)
    (hmarks : ¬w.MarksQuote head) : w.IsArgument (.ref b) := by
  simp only [IsArgument, Heap.shape_ref hb]
  refine ⟨fun hn => absurd hn hquote, fun key hkey => ?_⟩
  cases hx : w.border.proxies.get? key with
  | none => exact absurd ⟨hkey, hx⟩ (hgone key)
  | some x =>
    exact ⟨x, rfl, fun f y hf hy hn => hmarks ⟨key, f, y, hkey, hf ▸ hx, hy, hn⟩⟩

end World

/-! ### What is taken in -/

namespace Border

/-- A key that is gone is refused, with nothing else. -/
theorem ends_unwrap_gone (hgone : w.border.proxies.get? key = none) :
    (unwrap key).SucceedsUnless (· = .invalidProxy key) w fun _ _ => False := by
  refine SucceedsUnless.bind (succeeds_change (c := .unwrap? key) rfl).unless fun r w₁ hs h => ?_
  have hnone : r = none := by rw [h.1, Change.run, hgone]
  subst hnone
  refine ends_fail ⟨.refl w₁, fun v hv => ?_, fun e he => (Except.error.inj he).symm⟩
  cases hv

/-- A marker that is gone is not handed over. -/
theorem handsOverUnless_gone {Q : Value → World → Prop} (hgone : w.IsGone o key) :
    HandsOverUnless (· = .invalidProxy key) Q o w := by
  refine (Host.succeeds_send o).mono fun p w₁ hs₁ hp w₂ hs₂ => ?_
  rw [hgone.1] at hp
  obtain rfl := hp
  have hnone : w₂.border.proxies.get? key = none := by
    rw [(hs₁.trans hs₂).grown.proxies, hgone.2]
  exact (ends_unwrap_gone hnone).mono fun _ _ _ => False.elim

/-- What is sent of an object is taken in, unless it is for a wrapped value that is gone. -/
theorem ends_unpack (hsent : Host.IsSentAs w o (w₀.passage o) parcel)
    (hproxies : w.border.proxies = w₀.border.proxies) :
    (unpack parcel).Ends w fun r w₁ => w.Sustains w₁ ∧
      (∀ v, r = .ok v → w₁.ReceivesAs o (w₀.passage o) v) ∧
      ∀ e, r = .error e → ∃ key, w₀.IsGone o key ∧ e = .invalidProxy key := by
  by_cases hgone : ∃ key, w₀.IsGone o key
  · obtain ⟨key, hpassage, hnone⟩ := hgone
    rw [hpassage] at hsent
    obtain rfl := hsent
    rw [← hproxies] at hnone
    refine Ends.mono (ends_unwrap_gone hnone) fun r w₁ h =>
      ⟨h.1, fun v hv => (h.2.1 v hv).elim, ?_⟩
    exact fun e he => ⟨key, ⟨hpassage, hproxies ▸ hnone⟩, h.2.2 e he⟩
  · refine Ends.mono (attains_unpack hsent fun key hkey => ?_).succeeds fun r w₁ h => ?_
    · cases hx : w.border.proxies.get? key with
      | some x => exact ⟨x, rfl⟩
      | none => exact absurd ⟨key, hkey, hproxies ▸ hx⟩ hgone
    · obtain ⟨v, rfl, hs, hv⟩ := h
      exact ⟨hs, fun v' hv' => Except.ok.inj hv' ▸ hv, nofun⟩

/-! ### Lists that are told wrong -/

/-- A list cannot be put into a form whose head is the marker of a value that is gone. -/
theorem succeedsUnless_quoteIfList_gone (hclosed : w₀.host.IsClosed) (hoffers : w₀.OffersForms)
    (hg : w₀.host.resolve? g.id = some (.ref b))
    (hb : w₀.host.heap.get? b = some (.cons head tail)) (hgone : w₀.IsGone head key)
    (hs : w₀.Sustains w) :
    (quoteIfList (.handle g)).SucceedsUnless (· = .invalidProxy key) w fun _ _ => False :=
  succeedsUnless_quoteIfList_pair (P := fun _ => False) hclosed hoffers hg hb hs
    (fun _ hs₁ => handsOverUnless_gone (hgone.sustained hs₁ hclosed (hclosed.pair hb).1))
    fun _ _ _ => False.elim

/-- A list goes into a form as it is, and will be evaluated as a call, whose head is the marker of
a handle of the symbol of quoting. -/
theorem succeeds_quoteIfList_marksQuote (hclosed : w₀.host.IsClosed) (hoffers : w₀.OffersForms)
    (hg : w₀.host.resolve? g.id = some (.ref b))
    (hb : w₀.host.heap.get? b = some (.cons head tail)) (hmarks : w₀.MarksQuote head)
    (hs : w₀.Sustains w) : (quoteIfList (.handle g)).Succeeds w fun v _ => v = .handle g := by
  obtain ⟨key, f, y, hpassage, hx, hy, hn⟩ := hmarks
  refine SucceedsUnless.succeeds (succeedsUnless_quoteIfList_pair (P := fun quotes => quotes = true)
    hclosed hoffers hg hb hs (fun w₁ hs₁ => HandsOver.unless ?_) fun quotes w₁ _ hquotes => ?_)
  · have hpassage₁ := (hs₁.passage hclosed (hclosed.pair hb).1).trans hpassage
    have hx₁ : w₁.border.proxies.get? key = some (.handle f) := by rw [hs₁.grown.proxies, hx]
    refine (handsOver_wrapped hpassage₁ hx₁).mono fun v w₂ hs₂ hv => ⟨true, rfl, f, y, hv, ?_⟩
    have hg₂ := hs₁.grown.trans hs₂.grown
    exact ⟨hg₂.host.kept hy, hg₂.host.heap.names hn⟩
  · subst hquotes
    exact succeedsUnless_pure rfl

end Border

/-! ### Setting a variable to a list -/

section Assignment

variable {value function : Option Obj}

/-- The call that sets a variable to a list whose head is the marker of a value that is gone fails
before anything is evaluated. -/
theorem Border.succeedsUnless_setq_gone (hoffers : w.OffersForms)
    (hs : w.host.resolve? s.id = some (.ref a))
    (ha : w.host.heap.get? a = some (.symbol name value function))
    (hg : w.host.resolve? g.id = some (.ref b))
    (hb : w.host.heap.get? b = some (.cons head tail)) (hgone : w.IsGone head key) :
    (specialForm "setq" [.handle s, .handle g]).SucceedsUnless (· = .invalidProxy key) w
      fun _ _ => False := by
  intro hdue
  have hclosed := hdue.isReached.isClosed
  revert hdue
  refine (succeedsUnless_keeping (fun _ => World.lasting_const _) ?_).mono fun _ _ _ h => h.1
  refine SucceedsUnless.bind (succeeds_symbol (by cbv)).unless fun _ w₁ hs₁ _ => ?_
  have hatom : Host.isConsShape (w₁.host.heap.shape (.ref a)) = false := by
    rw [Heap.shape_ref (hs₁.grown.host.heap.cell ha)]
    rfl
  simp only [List.mapM_cons, List.mapM_nil, bind_assoc, pure_bind]
  refine SucceedsUnless.bind (succeeds_quoteIfList_atom (hs₁.offersForms hoffers)
    (hs₁.grown.host.kept hs) (hs₁.grown.host.heap.known (hclosed.kept hs)) hatom).unless
      fun _ w₂ hs₂ _ => ?_
  exact (succeedsUnless_quoteIfList_gone hclosed hoffers hg hb hgone (hs₁.trans hs₂)).bind
    fun _ _ _ => False.elim

/-- Where the head of a list is neither the symbol of quoting nor one of the two markers, a
variable is set to that very list. The call gives what the list comes back as, unless the list
itself is the marker of a value that is gone. -/
theorem Border.ends_setq_list (hoffers : w.OffersForms) (hdepth : w.host.depth + 1 < maxDepth)
    (hs : w.host.resolve? s.id = some (.ref a))
    (ha : w.host.heap.get? a = some (.symbol name value function))
    (hg : w.host.resolve? g.id = some (.ref b))
    (hb : w.host.heap.get? b = some (.cons head tail))
    (hquote : ¬w.host.heap.Names head "quote") (hgone : ∀ key, ¬w.IsGone head key)
    (hmarks : ¬w.MarksQuote head) :
    (specialForm "setq" [.handle s, .handle g]).Ends w fun r w₁ =>
      w₁.host.heap.value? a = some (.ref b) ∧
      (∀ v, r = .ok v → w₁.ReceivesAs (.ref b) (w.passage (.ref b)) v) ∧
      ∀ e, r = .error e → ∃ key, w.IsGone (.ref b) key ∧ e = .invalidProxy key := by
  intro hdue
  have hclosed := hdue.isReached.isClosed
  revert hdue
  -- a list that does not quote is nothing but itself as an argument
  have hself : w.host.heap.unquoted (.ref b) = .ref b := by
    refine Heap.unquoted_eq_self fun head' tail' hshape => ?_
    rw [Heap.shape_ref hb] at hshape
    cases hshape
    exact hquote
  have hassignment : w.IsAssignment (s, .handle g) :=
    ⟨⟨a, name, value, function, hs, ha⟩, _, hg, w.isArgument_of_head hb hquote hgone hmarks⟩
  have hbs : ∀ b ∈ [(s, Value.handle g)], w.IsAssignment b := by
    simpa only [List.forall_mem_singleton] using hassignment
  change (specialForm "setq" (assignments [(s, .handle g)])).Ends w _
  refine ends_setq hoffers hdepth hbs (List.pairwise_singleton _ _)
    (fun r w₁ w₂ hs₂ h => ?_) fun w₁ ts hs₁ hts => ?_
  · obtain ⟨hvalue, hok, herror⟩ := h
    refine ⟨?_, fun v hv => (World.lasting_receivesAs _ _ v).grows hs₂.grown (hok v hv), herror⟩
    exact (hs₂.grown.host.heap.value?_eq a).trans hvalue
  -- there is one assignment, and so one value
  · cases hts with
    | @cons _ t _ _ ht hnil =>
      cases hnil
      have hassigned := World.hasAssigned_bound hbs (List.pairwise_singleton _ _) (.cons ht .nil)
      obtain ⟨a', o, ha', hvalue, o₁, ho₁, ho⟩ := hassigned _ List.mem_cons_self
      obtain ⟨o₂, ho₂, hlast⟩ := ht.supplies
      obtain rfl := Obj.ref.inj (Option.some.inj (hs.symm.trans ha'))
      obtain rfl := Option.some.inj (hg.symm.trans ho₁)
      obtain rfl := Option.some.inj (hg.symm.trans ho₂)
      rw [ho, hself] at hvalue
      rw [hself] at hlast
      have hpassage : (w₁.bound [(t.1, t.2.2)]).passage (.ref b) = w.passage (.ref b) := by
        rw [World.passage_bound, hs₁.passage hclosed (hclosed.kept hg)]
      simp only [List.map_cons, List.map_nil, List.getLastD_cons, List.getLastD_nil, hlast]
        at hvalue hpassage ⊢
      refine (Host.succeeds_send _).mono fun p w₂ hs₂ hp w₃ hs₃ => ?_
      rw [hpassage] at hp
      have hproxies : w₃.border.proxies = w.border.proxies :=
        (hs₂.trans hs₃).grown.proxies.trans hs₁.grown.proxies
      refine Ends.mono (ends_unpack ((World.lasting_isSentAs _ _ p).grows hs₃.grown hp) hproxies)
        fun r w₄ h => ⟨?_, h.2⟩
      exact ((hs₂.trans (hs₃.trans h.1)).grown.host.heap.value?_eq a).trans hvalue

/-- Script code has the host set a variable to a list that is not headed by the symbol of quoting.
If the head is neither the marker of a value that is gone nor that of a handle of the symbol of
quoting, the variable is set to that very list, and the call gives what the list comes back as,
unless the list itself is the marker of a value that is gone. If the head is the marker of a value
that is gone, the call fails with that, and the variable keeps its value. If it is the marker of a
handle of the symbol of quoting, the list goes into the form unquoted. -/
theorem lists_are_assigned_unless_marked
    (hdue : (Border.specialForm "setq" [.handle s, .handle g]).IsDue w) (hoffers : w.OffersForms)
    (hdepth : w.host.depth + 1 < maxDepth) (hs : w.host.resolve? s.id = some (.ref a))
    (ha : w.host.heap.get? a = some (.symbol name value function))
    (hg : w.host.resolve? g.id = some (.ref b))
    (hb : w.host.heap.get? b = some (.cons head tail))
    (hquote : ¬w.host.heap.Names head "quote") :
    ((∀ key, ¬w.IsGone head key) → ¬w.MarksQuote head →
      ∃ r w₁, Comes w.scene (Border.specialForm "setq" [.handle s, .handle g]) w r w₁ ∧
        w₁.host.heap.value? a = some (.ref b) ∧
        (∀ v, r = .ok v → w₁.ReceivesAs (.ref b) (w.passage (.ref b)) v) ∧
        ∀ e, r = .error e → ∃ key, w.IsGone (.ref b) key ∧ e = .invalidProxy key) ∧
    (∀ key, w.IsGone head key → ∃ w₁,
      Comes w.scene (Border.specialForm "setq" [.handle s, .handle g]) w
        (.error (.invalidProxy key)) w₁ ∧ w₁.host.heap.value? a = w.host.heap.value? a) ∧
    (w.MarksQuote head → ∀ w₁, w.Sustains w₁ →
      (Border.quoteIfList (.handle g)).Succeeds w₁ fun v _ => v = .handle g) := by
  have hclosed := hdue.isReached.isClosed
  refine ⟨fun hgone hmarks => ?_, fun key hgone => ?_, fun hmarks w₁ hs₁ => ?_⟩
  · exact Border.ends_setq_list hoffers hdepth hs ha hg hb hquote hgone hmarks hdue
  · obtain ⟨r, w₁, hcomes, hs₁, hok, herror⟩ :=
      Border.succeedsUnless_setq_gone hoffers hs ha hg hb hgone hdue
    cases r with
    | ok v => exact (hok v rfl).elim
    | error e =>
      rw [herror e rfl] at hcomes
      exact ⟨w₁, hcomes, hs₁.grown.host.heap.value?_eq a⟩
  · exact Border.succeeds_quoteIfList_marksQuote hclosed hoffers hg hb hmarks hs₁

end Assignment

/-! ### A session -/

/-- Whether a run has come to its end after `n` steps, and is as `ok` says until then. -/
def Moment.endsBy {γ : Type} (ok : Moment γ → Prop) [DecidablePred ok] : (n : Nat) → Moment γ → Bool
  | 0, m => m.ending?.isSome
  | n + 1, m =>
    match m.next with
    | some m' => decide (ok m) && endsBy ok n m'
    | none => true

/-- Such a run comes that way to all that it comes to without sweeps in between. -/
theorem Moment.reaches_of_endsBy {γ : Type} {ok : Moment γ → Prop} [DecidablePred ok]
    {m m' : Moment γ} {n : Nat} (hends : m.endsBy ok n = true) (h : Passes m m') :
    Reaches ok m m' := by
  induction h using Relation.ReflTransGen.head_induction_on generalizing n with
  | refl => exact .refl
  | @head m m₁ hnext _ ih =>
    cases n with
    | zero =>
      have hnone : m.next = none := (nextTold_eq_none_iff _ m).mpr hends
      rw [hnone] at hnext
      cases hnext
    | succ n =>
      rw [endsBy, hnext] at hends
      obtain ⟨hok, hrest⟩ := Bool.and_eq_true_iff.mp hends
      exact .head ⟨of_decide_eq_true hok, .next hnext⟩ (ih hrest)

/-- What is caught is what was run. -/
theorem Proc.run_outcome {α : Type} {p : Proc α} {r : Except Failure α}
    (h : (outcome p).run w = (.ok r, w₁)) : p.run w = (r.mapError .failure, w₁) := by
  unfold run at h ⊢
  rw [outcome, runWith] at h
  split at h
  · rename_i x w' hpart
    cases h
    exact hpart
  · rename_i e w' hpart
    cases h
    exact hpart
  · cases h

/-- What follows on the recalling of a variable is due where it has been recalled. -/
theorem Proc.IsDue.recall {α : Type} {f : Option Value → Proc α}
    (h : (change (.recallVariable name) >>= f).IsDue w) :
    (f ((Change.recallVariable name).run w).1).IsDue ((Change.recallVariable name).run w).2 := by
  refine h.bind_right (.act rfl (.done ?_))
  simp only [Change.run]
  split <;> rfl

namespace Transcript

/-- The world after steps at the top, if no trap ends them. -/
def afterSteps : List Step → World → Option World
  | [], w => some w
  | s :: steps, w =>
    match (topStep s).run w with
    | (.ok _, w) => afterSteps steps w
    | (.error _, _) => none

/-- What a step at the top gives, a session comes to that goes on with it. -/
theorem passes_topStep {α γ : Type} {s : Step} {report : Except Failure Answer × List Answer}
    (h : (topStep s).run w = (.ok report, w₁)) (f : Except Failure Answer × List Answer → Proc α)
    (k : Stack γ α) : Moment.Passes ⟨topStep s >>= f, k, w⟩ ⟨f report, k, w₁⟩ := by
  obtain ⟨r, w', hplay, hlog⟩ := run_bind_eq_ok.mp h
  obtain ⟨log, w'', htake, hdone⟩ := run_bind_eq_ok.mp hlog
  cases htake
  cases hdone
  refine .head rfl ((Moment.passes_of_run_eq (run_outcome hplay)).trans ?_)
  cases r <;> exact .head rfl (.single rfl)

/-- A session goes through its first steps. -/
theorem passes_afterSteps {α γ : Type} {steps : List Step}
    (h : afterSteps steps w = some w₁) (rest : List Step)
    (f : List (Except Failure Answer × List Answer) → Proc α) (k : Stack γ α) :
    ∃ f', Moment.Passes ⟨(steps ++ rest).mapM topStep >>= f, k, w⟩
      ⟨rest.mapM topStep >>= f', k, w₁⟩ := by
  induction steps generalizing w f with
  | nil =>
    obtain rfl := Option.some.inj h
    exact ⟨f, .refl⟩
  | cons s steps ih =>
    rw [afterSteps] at h
    split at h
    · rename_i report w' hrun
      obtain ⟨f', hf'⟩ := ih h fun reports => f (report :: reports)
      refine ⟨f', ?_⟩
      rw [List.cons_append, List.mapM_cons, bind_assoc]
      refine (passes_topStep hrun _ k).trans ?_
      simpa only [bind_assoc, pure_bind] using hf'
    · cases h

/-- The rest of a session is due after its first steps, if all that it does is licensed. -/
theorem isDue_afterSteps {config : Config} {steps rest : List Step} {n : Nat}
    (h : afterSteps steps (.initial config) = some w)
    (hends : (start config (steps ++ rest)).endsBy (Moment.Licensed .careful) n = true) :
    (rest.mapM topStep).IsDue w := by
  obtain ⟨f, hpasses⟩ := passes_afterSteps h rest .done
    (.top : Stack (List (Except Failure Answer × List Answer)) _)
  rw [show (steps ++ rest).mapM topStep >>= Proc.done = (steps ++ rest).mapM topStep from
    bind_done _] at hpasses
  exact ⟨config, steps ++ rest, _, f, .top, Moment.reaches_of_endsBy hends hpasses⟩

/-- Steps that have the host make a list of the marker of a wrapped number and a number. -/
def makingMarkedList : List Step := [
  .mk (.wrap (.int (.ofNat 1))) (some "p") false,
  .mk (.call "list" [.variable "p", .int (.ofNat 2)]) (some "l") false]

/-- A step that sets a variable to the list. -/
def settingToList : Step := .mk (.specialForm "setq" [.symbol "x", .variable "l"]) none false

/-- The world in which the list has been made. -/
def listedWorld : World :=
  (afterSteps makingMarkedList (.atStart .standard)).getD (.atStart .standard)

/-- The world in which the variable is about to be set. -/
def settingWorld : World :=
  ((Change.recallVariable "l").run ((Border.lookup "x" .symbol true).run listedWorld).2).2

/-- The assignment of the example is due. -/
theorem isDue_setting : (Border.specialForm "setq" [.handle ⟨5, ⟨5⟩⟩, .handle ⟨4, ⟨4⟩⟩]).IsDue
    settingWorld := by
  obtain ⟨w, hw⟩ : ∃ w, afterSteps makingMarkedList (.atStart .standard) = some w :=
    Option.isSome_iff_exists.mp (by decide +kernel)
  obtain rfl : listedWorld = w := by rw [listedWorld, hw, Option.getD_some]
  have hends : (start .standard (makingMarkedList ++ [settingToList])).endsBy
      (Moment.Licensed .careful) 309 = true := by
    rw [start_eq]
    decide +kernel
  rw [← World.initial_eq] at hw
  have hdue : ([settingToList].mapM topStep).IsDue listedWorld := isDue_afterSteps hw hends
  have hdeed := hdue.next_deed (by decide) rfl
  simp only [Script.perform, Script.operands, Script.operand, bind_assoc, pure_bind] at hdeed
  -- the session makes the handle for the variable before it sets it
  have hrecall := hdeed.lookup (g := ⟨5, ⟨5⟩⟩) (by decide +kernel)
  have hset := hrecall.recall
  have hsame : ((Change.recallVariable "l").run
      ((Border.lookup "x" .symbol true).run listedWorld).2).1.any
        (·.same (.handle ⟨4, ⟨4⟩⟩)) = true := by
    decide +kernel
  obtain ⟨v, hv, hsame⟩ := (Option.any_eq_true _ _).mp hsame
  obtain rfl := Value.eq_handle_of_same hsame
  rw [hv] at hset
  exact hset.bind_left

/-- The marker at the head of the list is for a number that is there, so the variable is set to the
list. -/
theorem lists_are_assigned_unless_marked_number :
    ∃ r w₁, Comes settingWorld.scene
      (Border.specialForm "setq" [.handle ⟨5, ⟨5⟩⟩, .handle ⟨4, ⟨4⟩⟩]) settingWorld r w₁ ∧
        w₁.host.heap.value? 162 = some (.ref 161) := by
  have hfacts : settingWorld.OffersForms ∧ settingWorld.host.depth + 1 < maxDepth ∧
      settingWorld.host.resolve? ⟨5⟩ = some (.ref 162) ∧
      settingWorld.host.heap.get? 162 = some (.symbol "x" none none) ∧
      settingWorld.host.resolve? ⟨4⟩ = some (.ref 161) ∧
      settingWorld.host.heap.get? 161 = some (.cons (.ref 159) (.ref 160)) ∧
      settingWorld.host.heap.symbolName? (.ref 159) = none ∧
      settingWorld.host.heap.list? (.ref 159) =
        some [.ref 156, .int (.ofNat 0), .int (.ofNat 0)] ∧
      Host.keyOf? (.ofNat 0) (.ofNat 0) = some ⟨0, 0⟩ ∧
      (settingWorld.border.proxies.get? ⟨0, 0⟩).map Value.handles = some [] := by
    decide +kernel
  obtain ⟨hoffers, hdepth, hs, ha, hg, hb, hnameless, hlist, hkey, hheld⟩ := hfacts
  -- the head has no name, and so it is not that of quoting
  have hquote : ¬settingWorld.host.heap.Names (.ref 159) "quote" := by
    rintro (⟨hname, -⟩ | ⟨a, value, function, ha', hcell⟩)
    · exact absurd hname (by decide)
    · obtain rfl := Obj.ref.inj ha'
      rw [Heap.symbolName?, Heap.shape_ref hcell] at hnameless
      cases hnameless
  -- the two integers in the list are the key
  have hmarker : ∀ key, settingWorld.passage (.ref 159) = .wrapped key → key = ⟨0, 0⟩ := by
    intro key hpassage
    obtain ⟨head, index, generation, hlist', -, hkey'⟩ := World.passage_eq_wrapped.mp hpassage
    rw [hlist] at hlist'
    cases hlist'
    exact Option.some.inj (hkey'.symm.trans hkey)
  obtain ⟨v, hv, hhandles⟩ := Option.map_eq_some_iff.mp hheld
  -- the wrapped value is still there, so that the head is handed over
  have hthere : ∀ key, ¬settingWorld.IsGone (.ref 159) key := by
    intro key hgone
    have hnone := hgone.2
    rw [hmarker key hgone.1, hv] at hnone
    cases hnone
  have hmarks : ¬settingWorld.MarksQuote (.ref 159) := by
    rintro ⟨key, f, y, hpassage, hf, -⟩
    rw [hmarker key hpassage, hv] at hf
    rw [Option.some.inj hf] at hhandles
    cases hhandles
  obtain ⟨r, w₁, hcomes, hvalue, -⟩ :=
    (lists_are_assigned_unless_marked isDue_setting hoffers hdepth hs ha hg hb hquote).1 hthere
      hmarks
  exact ⟨r, w₁, hcomes, hvalue⟩

/-- A session in which the wrapped number is taken out before the variable is set. -/
def settingToGone : List Step :=
  makingMarkedList ++ [
    .mk (.clearProxy ⟨0, 0⟩) none false,
    settingToList,
    .mk (.runSource "(boundp 'x)") none false]

/-- A session in which the head of the list is the marker of a handle of the symbol of quoting. -/
def settingToMarkedQuote : List Step := [
  .mk (.wrap (.symbol "quote")) (some "p") false,
  .mk (.call "list" [.variable "p", .int (.ofNat 2)]) (some "l") false,
  settingToList,
  .mk (.runSource "(boundp 'x)") none false]

/-- The host functions are in place when the variable is set to the lists of the two kinds, but
neither is what it is set to: the one fails to be told, and the other is evaluated. -/
theorem marked_lists_are_told_wrong :
    ((start .standard settingToGone).after 240).world.OffersForms ∧
      (Transcript.ofSteps .standard settingToGone).map StepReport.outcome? =
        [none, none, none, some (.error "Invalid reverse proxy: 0#0"), some (.ok "nil")] ∧
    ((start .standard settingToMarkedQuote).after 240).world.OffersForms ∧
      (Transcript.ofSteps .standard settingToMarkedQuote).map StepReport.outcome? =
        [none, none, some (.error "Host error (invalid-function): (bridge--proxy 0 0)"),
          some (.ok "nil")] := by
  rw [start_eq, start_eq, ofSteps_eq, ofSteps_eq]
  refine ⟨?_, ?_, ?_, ?_⟩
  · decide +kernel
  · decide +kernel
  · decide +kernel
  · decide +kernel

end Transcript

end Crossing
