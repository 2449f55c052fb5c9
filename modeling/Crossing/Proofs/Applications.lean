import Crossing.Proofs.Callbacks

/-!
# Applications of script functions

The host has a function that calls a script function, made for it by the border. Whenever it
applies that function, however much later, the script function itself runs, or nothing does.

- `Proc.Surrounds`: a procedure does a task, and nothing else that runs script code;
- `Border.Answers`: what the host gets of what the body of a script function has come to;
- `Border.surrounds_invoke`, `Border.turns_invoke`: a script function is run by its key, unless
  an argument is in the way;
- `Host.HasRun`: what comes of applying the function to some arguments;
- `Border.Makes`: the two ways in which the border has the host make such a function;
- `functions_run_their_own`: what such a function does at any later time.
-/

namespace Crossing

open Proc

variable {α β γ δ : Type} {w w₁ w₂ : World} {c : Callable} {f : CallForm} {a : Addr} {o : Obj}
  {os : List Obj} {v : Value} {p : Proc α}

/-! ### Parts that come to their end -/

/-- The end of a part in a scope. -/
theorem Moment.passes_scope (u : Undo) (r : Except Failure α) (f : α → Proc β) (k : Stack γ β)
    (w : World) : PassesAs IsSilent ⟨ofExcept r, .push (.scope u f) k, w⟩
      ⟨ofExcept r >>= f, k, u.run w⟩ := by
  refine .single ⟨isSilent_ofExcept, ?_⟩
  cases r <;> rfl

/-- A task that is about to be started comes to the end of a run of it. -/
theorem Call.EndsAmid.becomes {t : Task α} {r : Except Failure α}
    (h : (Call.mk t w).EndsAmid r w₁) (next : α → Proc β) (k : Stack γ β) :
    Moment.Becomes (⟨.task t next, k, w⟩ : Moment γ) ⟨ofExcept r >>= next, k, w₁⟩ := by
  obtain ⟨w₀, w₂, hbefore, hbody, hafter⟩ := h
  have hstart := Moment.becomes_of_sweeps (p := .task t next) (k := k) rfl hbefore
  have hrun := Moment.Becomes.atop hbody (.push (.result t next) k)
  have hsafe : (⟨ofExcept r, .push (.result t next) k, w₂⟩ : Moment γ).isSafepoint = true := by
    cases r <;> rfl
  have hend := Moment.becomes_of_sweeps hsafe hafter
  have hstep : (⟨.task t next, k, w₀⟩ : Moment γ).next =
      some ((Call.mk t w₀).start.atop (.push (.result t next) k)) := rfl
  refine (hstart.tail (.next hstep)).trans ((hrun.trans hend).tail (.next ?_))
  cases r <;> rfl

namespace Proc

/-- In whatever run it is done, a procedure silently comes to an end. -/
def EndsSilently (p : Proc α) (w : World) (r : Except Failure α) (w₁ : World) : Prop :=
  ∀ {γ δ : Type} (f : α → Proc δ) (k : Stack γ δ),
    Moment.PassesAs Moment.IsSilent ⟨p >>= f, k, w⟩ ⟨ofExcept r >>= f, k, w₁⟩

/-- What comes to an end does so silently. -/
theorem Comes.endsSilently {scene : Scene} {r : Except Failure α} (h : Comes scene p w r w₁) :
    p.EndsSilently w r w₁ :=
  fun f k => (h.passes_bind f k).mono fun _ h => h.isSilent

/-- A procedure does a task, and nothing else that runs script code. Where that has ended as `C`
says, `S` says what the end of the procedure is, given that of the task. -/
def Surrounds (C : World → Prop) (p : Proc α) (w : World) (t : Task β) (w₁ : World)
    (S : Except Failure β → World → Except Failure α → Prop) : Prop :=
  ∀ {γ δ : Type} (f : α → Proc δ) (k : Stack γ δ),
    ∃ (ε : Type) (next : β → Proc ε) (k' : Stack γ ε),
      Moment.PassesAs Moment.IsSilent ⟨p >>= f, k, w⟩ ⟨.task t next, k', w₁⟩ ∧
      ∀ r w₂, (Call.mk t w₁).EndsAmid r w₂ → C w₂ → ∃ s w₃, S r w₂ s ∧
        Moment.PassesAs Moment.IsSilent ⟨ofExcept r >>= next, k', w₂⟩ ⟨ofExcept s >>= f, k, w₃⟩

section Surrounds

variable {C : World → Prop} {q : Proc α} {t : Task β} {g : Except Failure α → World → World}
  {S : Except Failure β → World → Except Failure α → Prop}

/-- What a procedure leads to may be surrounded in its place. -/
theorem Leads.surrounds (hp : p.Leads w q w₁ g) (hq : q.Surrounds C w₁ t w₂ S) :
    p.Surrounds C w t w₂ S := by
  intro γ δ f k
  obtain ⟨_, f', k', hlead, hback⟩ := hp.passes f k
  obtain ⟨_, next, k₁, hstart, hend⟩ := hq f' k'
  refine ⟨_, next, k₁, hlead.trans hstart, fun r w₃ hr hC => ?_⟩
  obtain ⟨s, w₄, hS, hrest⟩ := hend r w₃ hr hC
  exact ⟨s, _, hS, hrest.trans (hback s w₄)⟩

/-- Where what leads to a task has come to a result, what follows is about to be done. -/
theorem Leads.isReached_after {t : Task α} {f : α → Proc β} {x : α}
    (hp : p.Leads w (Proc.perform t) w₁ g) (hr : (p >>= f).IsReached w)
    (hend : (Call.mk t w₁).EndsAmid (.ok x) w₂) : (f x).IsReached (g (.ok x) w₂) := by
  obtain ⟨config, steps, _, f₀, k, hreaches⟩ := hr
  obtain ⟨_, f', k', hlead, hback⟩ := hp.passes (fun y => f y >>= f₀) k
  rw [bind_assoc] at hreaches
  have hrun := Moment.becomes_iff_reaches.mp (hend.becomes f' k')
  exact ⟨config, steps, _, f₀, k, ((hreaches.trans (Moment.reaches_of_passes hlead.passes)).trans
    hrun).trans (Moment.reaches_of_passes (hback (.ok x) w₂).passes)⟩

end Surrounds

/-- What fails in a scope, fails. -/
theorem turns_within_error {s : Scope} {u : Undo} {scene : Scene} {e : Failure}
    (hs : s.enter w = .ok (u, w₁)) (hp : Comes scene p w₁ (.error e) w₂) :
    (within s p).Turns w (fail e) (u.run w₂) := by
  refine ⟨fun f k => ?_⟩
  have hpart := (hp.passes (.push (.scope u f) k)).mono fun _ h => h.isSilent
  exact .head ⟨rfl, Moment.next_inside hs⟩ (hpart.trans (Moment.passes_scope u (.error e) f k w₂))

theorem Turns.bind_error {f : α → Proc β} {e : Failure} (hp : p.Turns w (fail e) w₁) :
    (p >>= f).Turns w (fail e) w₁ := by
  refine ⟨fun f' k => ?_⟩
  rw [bind_assoc]
  exact hp.passes _ k

end Proc

/-! ### Answers -/

/-- What the host gets of what the body of a script function has come to: its failure, or what it
takes in of the packed value, or the failure to pack that. -/
inductive Border.Answers (w : World) : Except Failure Value → Except Failure Obj → Prop where
  | fails (e : Failure) : Answers w (.error e) (.error e)
  | unpacked {v : Value} {e : Failure} {w₁ : World} (held : List Handle)
    (hpack : (pack v).EndsSilently ((Undo.holdOnly held).run w) (.error e) w₁) :
    Answers w (.ok v) (.error e)
  | packed {v : Value} {p : Parcel} {hs : List Handle} {s : Except Failure Obj} {w₁ w₂ : World}
    (held held' : List Handle)
    (hpack : (pack v).EndsSilently ((Undo.holdOnly held).run w) (.ok (p, hs)) w₁)
    (hreceive : (Host.receive p).EndsSilently
      (Undo.leaveCallback.run ((Undo.holdOnly held').run w₁)) s w₂) :
    Answers w (.ok v) s

/-- The builtins that functions are made with keep their functions. -/
structure World.KeepsMaking (w : World) : Prop where
  list : w.host.heap.Keeps .list
  evaluate : w.host.heap.Keeps .evaluate

namespace Border

/-- The value of a body is packed, if that can be done. -/
theorem exists_packed (hkeeps : w.KeepsMaking) (hr : (pack v).IsReached w) :
    ∃ t w₁, (pack v).EndsSilently w t w₁ := by
  obtain ⟨t, w₁, hcomes, -⟩ := World.packs_of_keeps hkeeps.list hkeeps.evaluate v w (.refl w) hr
  exact ⟨t, w₁, hcomes.endsSilently⟩

/-- What a callback has come to goes to the host. -/
theorem passes_leaveCallback (t : Except Failure Parcel) (f : Parcel → Proc δ) (k : Stack γ δ)
    (held : List Handle) (w : World) : Moment.PassesAs Moment.IsSilent
      ⟨ofExcept t, .push (.scope (.holdOnly held) .done) (.push (.scope .leaveCallback f) k), w⟩
      ⟨ofExcept t >>= f, k, Undo.leaveCallback.run ((Undo.holdOnly held).run w)⟩ := by
  have hinner := Moment.passes_scope (.holdOnly held) t .done (.push (.scope .leaveCallback f) k) w
  rw [show ofExcept t >>= Proc.done = ofExcept t from bind_done _] at hinner
  exact hinner.trans (Moment.passes_scope .leaveCallback t f k _)

/-- What the body of a script function has come to goes to the host, packed if it is a value. -/
theorem exists_answer {r : Except Failure Value} {f : Obj → Proc δ} {k : Stack γ δ}
    (held held' : List Handle) (hkeeps : w.KeepsMaking)
    (hr : ∀ v, r = .ok v → (pack v).IsReached ((Undo.holdOnly held).run w)) :
    ∃ s w₁, Answers w r s ∧ Moment.PassesAs Moment.IsSilent
      ⟨ofExcept r >>= fun v => pack v >>= fun r => pure r.1,
        .push (.scope (.holdOnly held') .done) (.push (.scope .leaveCallback fun p =>
          Host.receive p >>= f) k), (Undo.holdOnly held).run w⟩
      ⟨ofExcept s >>= f, k, w₁⟩ := by
  -- a result is packed before the callback is left; a failure leaves at once
  cases r with
  | error e => exact ⟨.error e, _, .fails e, passes_leaveCallback (.error e) _ k held' _⟩
  | ok v =>
    obtain ⟨t, w₁, hpack⟩ :=
      exists_packed (w := (Undo.holdOnly held).run w) ⟨hkeeps.1, hkeeps.2⟩ (hr v rfl)
    have hstart := hpack (fun r => pure r.1) (.push (.scope (.holdOnly held') .done)
      (.push (.scope .leaveCallback fun p => Host.receive p >>= f) k))
    cases t with
    | error e =>
      exact ⟨.error e, _, .unpacked held hpack,
        hstart.trans (passes_leaveCallback (.error e) _ k held' w₁)⟩
    | ok packed =>
      have hout := passes_leaveCallback (.ok packed.1) (fun p => Host.receive p >>= f) k held' w₁
      obtain ⟨s, w₂, -, hreceive⟩ := (Host.isAdditive_receive packed.1).passes
        (Undo.leaveCallback.run ((Undo.holdOnly held').run w₁))
      exact ⟨s, w₂, .packed held held' hpack hreceive, (hstart.trans hout).trans (hreceive f k)⟩

variable {ps : List Parcel} {key : Key}

/-- Where the arguments can be taken in, the body of a script function runs with what they are
taken in as, and what comes of that goes to the host. -/
theorem surrounds_invoke {P : List Value → World → Prop}
    (hc : w.border.callbacks.get? key = some c) (harity : c.arity.accepts ps.length = true)
    (hps : (ps.mapM unpack).Attains (w.running ⟨key, ps.filterMap Parcel.reference?⟩) P)
    (hr : (invoke key ps >>= Host.receive).IsReached w) :
    ∃ vs w₁, P vs w₁ ∧ (w.running ⟨key, ps.filterMap Parcel.reference?⟩).Sustains w₁ ∧
      (invoke key ps >>= Host.receive).Surrounds World.KeepsMaking w (.play c.body vs) w₁
        (fun r w₂ s => Answers w₂ r s) := by
  have hlead := Host.leads_invoke (w := w) hc harity
  have hrun := ((hlead.isReached hr).bind_left.within rfl).within (s := .holding) rfl
  obtain ⟨vs, w₁, hcomes, hs, hP⟩ := hps (hrun.bind_left.bind_left.within rfl).bind_left
  -- the body runs on top of what holds the arguments and counts the callback
  have hplay := (hcomes.leads_bind (leads_refl (play c.body vs) w₁)).keeping
  refine ⟨vs, w₁, hP, hs, ?_⟩
  intro γ δ f k
  obtain ⟨_, f₁, k₁, hstart₁, hend₁⟩ := hlead.passes f k
  obtain ⟨_, f₂, k₂, hstart₂, hend₂⟩ := hplay.passes (fun v => pack v >>= fun r => pure r.1)
    (.push (.scope (.holdOnly w.script.held) .done)
      (.push (.scope .leaveCallback fun p => Host.receive p >>= f₁) k₁))
  refine ⟨_, f₂, k₂, ?_, fun r w₂ hplayed hkeeps => ?_⟩
  · exact hstart₁.trans (.head ⟨rfl, Moment.next_inside rfl⟩
      (.head ⟨rfl, Moment.next_inside rfl⟩ hstart₂))
  -- the end of the body is answered, and then the callback is left
  · obtain ⟨s, w₃, hanswers, hout⟩ := exists_answer (r := r) (f := f₁) (k := k₁)
      (r.toOption.elim [] Holds.handles ++ w.script.held) w.script.held hkeeps
      fun v hv => by
        subst hv
        exact (hplay.isReached_after hrun hplayed).bind_left
    exact ⟨s, _, hanswers, ((hend₂ r w₂).trans hout).trans (hend₁ s w₃)⟩

/-- A key that stands for nothing runs nothing. -/
theorem comes_invoke_unknown (hc : w.border.callbacks.get? key = none) :
    Comes w.scene (invoke key ps >>= Host.receive) w (.error (.invalidCallback key)) w := by
  refine Comes.bind_error (comes_query_bind rfl ?_)
  simp only [Query.ask, hc]
  exact .fail rfl

/-- A wrong number of arguments runs nothing. -/
theorem comes_invoke_mismatch {n : Nat} (hc : w.border.callbacks.get? key = some c)
    (harity : c.arity = .exactly n) (hn : n ≠ ps.length) :
    Comes w.scene (invoke key ps >>= Host.receive) w
      (.error (.arityMismatch (some key) n ps.length)) w := by
  refine Comes.bind_error (comes_query_bind rfl ?_)
  simp only [Query.ask, hc, harity, if_neg hn]
  exact .fail rfl

/-- Up to the marker of a wrapped value that is gone, parcels are taken in. -/
theorem comes_unpackAll_gone {w₀ : World} {pre post : List Obj}
    (hsent : List.Forall₂ (fun o p => Host.IsSentAs w o (w₀.passage o) p) (pre ++ o :: post) ps)
    (hlive : ∀ x ∈ pre, ∀ key, w₀.passage x = .wrapped key →
      ∃ y, w.border.proxies.get? key = some y)
    (hpassage : w₀.passage o = .wrapped key) (hgone : w.border.proxies.get? key = none)
    (hr : (ps.mapM unpack).IsReached w) :
    ∃ w₁, Comes w.scene (ps.mapM unpack) w (.error (.invalidProxy key)) w₁ := by
  obtain ⟨ps₁, _, rfl, hsent₁, hsent₂⟩ := exists_append_of_forall₂ hsent
  obtain ⟨p, ps₂, hp, -, rfl⟩ := List.forall₂_cons_left_iff.mp hsent₂
  rw [List.mapM_append] at hr ⊢
  obtain ⟨vs, w₁, hcomes, hs, -⟩ := attains_unpackAll hsent₁ hlive hr.bind_left
  have hfails : Comes w₁.scene (unpack p) w₁ (.error (.invalidProxy key)) w₁ := by
    have hnone : w₁.border.proxies.get? key = none := by rw [hs.grown.proxies, hgone]
    rw [hpassage] at hp
    obtain rfl := hp
    refine .act rfl ?_
    simp only [Change.run, hnone]
    exact .fail rfl
  rw [hcomes.scene_end] at hfails
  refine ⟨w₁, hcomes.bind (Comes.bind_error ?_)⟩
  rw [List.mapM_cons]
  exact hfails.bind_error

/-- Where the arguments cannot be taken in, a script function that would be run is not. -/
theorem turns_invoke {e : Failure} (hc : w.border.callbacks.get? key = some c)
    (harity : c.arity.accepts ps.length = true)
    (hps : (ps.mapM unpack).IsReached (w.running ⟨key, ps.filterMap Parcel.reference?⟩) →
      ∃ w₁, Comes (w.running ⟨key, ps.filterMap Parcel.reference?⟩).scene (ps.mapM unpack)
        (w.running ⟨key, ps.filterMap Parcel.reference?⟩) (.error e) w₁)
    (hr : (invoke key ps >>= Host.receive).IsReached w) :
    ∃ w₁, (invoke key ps >>= Host.receive).Turns w (fail e) w₁ := by
  have hlead := Host.leads_invoke (w := w) hc harity
  have hrun := ((hlead.isReached hr).bind_left.within rfl).within (s := .holding) rfl
  obtain ⟨w₁, hcomes⟩ := hps (hrun.bind_left.bind_left.within rfl).bind_left
  have hkept := (leads_refl (ps.mapM unpack >>= play c.body)
    (w.running ⟨key, ps.filterMap Parcel.reference?⟩)).keeping.comes hcomes.bind_error
  have hpacking : Comes _ (runCallback c ps) _ (.error e) _ :=
    ((leads_refl (keeping (ps.mapM unpack >>= play c.body) >>= fun v =>
      pack v >>= fun r => pure r.1) _).within (s := .holding) rfl rfl fun _ => rfl).comes
        hkept.bind_error
  have hcallback : (within (.callback ⟨key, ps.filterMap Parcel.reference?⟩) (runCallback c ps) >>=
      Host.receive).Turns w (ofExcept (.error e)) _ :=
    Turns.bind_error (turns_within_error rfl hpacking)
  exact ⟨_, hlead.turns hcallback⟩

end Border

/-! ### Applying the functions -/

/-- A spent key of a callback stays so on the way. -/
theorem Proc.Leads.spent {q : Proc α} {g : Except Failure α → World → World} {key : Key}
    (hp : p.Leads w q w₁ g) (hw : w.border.callbacks.Sound) (hkey : w.border.callbacks.Spent key) :
    w₁.border.callbacks.Spent key := by
  obtain ⟨_, f', k', hstart, -⟩ := hp.passes .done .top
  exact (Moment.Reaches.callbacks (Moment.reaches_of_passes hstart.passes) hw).2.1 hkey

/-- An object is applied as the closure of a call form, whose form calls what it should. The limit
of nesting is not in the way. -/
structure World.CanApply (w : World) (f : CallForm) (a : Addr) (o : Obj) : Prop where
  applies : w.AppliesAs o a
  calls : f.Calls w.host.heap
  depth : w.host.depth + 1 < maxDepth

namespace Host

/-- What comes of applying the function of a script function that is registered. A wrong number
of arguments runs nothing, and neither does the marker of a wrapped value that is gone. Otherwise
the body runs with what the arguments come back as, and the host gets what comes of it. -/
structure RunsCallable (c : Callable) (key : Key) (p : Proc Obj) (w : World) (os : List Obj) :
    Prop where
  mismatch : ∀ n, c.arity = .exactly n → n ≠ os.length →
    ∃ w₁, Comes w.scene p w (.error (.arityMismatch (some key) n os.length)) w₁
  gone : c.arity.accepts os.length = true → ∀ pre o post key', os = pre ++ o :: post →
    (∀ x ∈ pre, w.CanComeBack x) → w.passage o = .wrapped key' →
      w.border.proxies.get? key' = none → ∃ w₁, p.Turns w (fail (.invalidProxy key')) w₁
  runs : c.arity.accepts os.length = true → (∀ x ∈ os, w.CanComeBack x) →
    ∃ vs w₁, List.Forall₂ w₁.ComesBackAs os vs ∧ w.IsCalling w₁ ∧
      p.Surrounds World.KeepsMaking w (.play c.body vs) w₁ fun r w₂ s => Border.Answers w₂ r s

/-- Applying the function runs the script function or nothing. -/
theorem runsCallable_apply (happly : w.CanApply f a o) (hclosure : w.HasClosure c f a)
    (hknown : ∀ x ∈ os, w.host.heap.known x = x) (hr : (apply o os).IsReached w) :
    RunsCallable c f.key (apply o os) w os := by
  obtain ⟨hstands, hc, hkey⟩ := hclosure
  obtain ⟨ps, w₁, g, hleads, hps, hcalling, hproxies⟩ := leads_apply_closure happly.applies
    hstands hkey happly.calls happly.depth hknown hr
  have hc₁ := hcalling.registered hc
  have hr₁ := hleads.isReached hr
  have hsent : List.Forall₂ (fun x p => IsSentAs
      (w₁.running ⟨f.key, ps.filterMap Parcel.reference?⟩) x (w.passage x) p) os ps :=
    hps.imp fun _ _ h => h
  have hlive : ∀ x, w.CanComeBack x → ∀ key, w.passage x = .wrapped key →
      ∃ y, w₁.border.proxies.get? key = some y := by
    intro x hx key hpassage
    obtain ⟨y, hy⟩ := hx key hpassage
    exact ⟨y, (congrArg (·.get? key) hproxies).trans hy⟩
  -- a wrong number of arguments fails, an argument that is gone fails, and else the function runs
  refine ⟨fun n harity hn => ?_, fun haccepts pre x post key hos hpre hpassage hgone => ?_,
    fun haccepts hall => ?_⟩
  · rw [hps.length_eq] at hn ⊢
    have hcomes := Border.comes_invoke_mismatch hc₁ harity hn
    rw [hleads.scene] at hcomes
    exact ⟨_, hleads.comes hcomes⟩
  · subst hos
    rw [hps.length_eq] at haccepts
    have hgone₁ : w₁.border.proxies.get? key = none := (congrArg (·.get? key) hproxies).trans hgone
    obtain ⟨w₂, hturns⟩ := Border.turns_invoke hc₁ haccepts (fun hunpack =>
      Border.comes_unpackAll_gone hsent (fun y hy => hlive y (hpre y hy)) hpassage hgone₁ hunpack)
        hr₁
    exact ⟨_, hleads.turns (r := .error _) hturns⟩
  · rw [hps.length_eq] at haccepts
    obtain ⟨vs, w₂, hvs, hs₂, hsurrounds⟩ := Border.surrounds_invoke hc₁ haccepts
      (Border.attains_unpackAll hsent fun x hx => hlive x (hall x hx)) hr₁
    have hclosed₁ : (w₁.running ⟨f.key, ps.filterMap Parcel.reference?⟩).host.IsClosed :=
      hr₁.isClosed
    have hcalling₂ := hcalling.trans ((w₁.isCalling_running _).trans (hs₂.isCalling hclosed₁))
    exact ⟨vs, w₂, hcalling₂.comesBackAs hknown hvs, hcalling₂, hleads.surrounds hsurrounds⟩

/-- Once the script function is not registered any more, applying the function runs nothing. -/
theorem comes_apply_spent (happly : w.CanApply f a o) (hstands : f.StandsAt w.host.heap a)
    (hkey : f.key.index < keyBound ∧ f.key.generation < keyBound)
    (hspent : w.border.callbacks.Spent f.key) (hknown : ∀ x ∈ os, w.host.heap.known x = x)
    (hr : (apply o os).IsReached w) :
    ∃ w₁, Comes w.scene (apply o os) w (.error (.invalidCallback f.key)) w₁ := by
  obtain ⟨ps, w₁, g, hleads, -⟩ := leads_apply_closure happly.applies hstands hkey happly.calls
    happly.depth hknown hr
  have hcomes : Comes w₁.scene (Border.invoke f.key ps >>= receive) w₁ _ w₁ :=
    Border.comes_invoke_unknown (hleads.spent hr.callbacks hspent).get?
  rw [hleads.scene] at hcomes
  exact ⟨_, hleads.comes hcomes⟩

end Host

/-! ### Later applications -/

/-- What a session applies is there. -/
theorem Transcript.known_of_applies {config : Config} {steps : List Step}
    {next : Obj → Proc β} {k : Stack (List (Except Failure Answer × List Answer)) β}
    (h : Moment.Reaches (fun _ => True) (start config steps) ⟨Host.apply o os >>= next, k, w⟩) :
    ∀ x ∈ os, w.host.heap.known x = x := by
  obtain ⟨⟨Q, hproc, -⟩, -⟩ := below_of_reaches h
  exact fun x hx => Heap.known_of_below (hproc.1.2 x hx)

/-- What clears the key of a callback changes no cell. -/
theorem Moment.spares_of_dismissed {m : Moment γ} {key : Key} (h : m.dismissed? = some key)
    (spared : List Addr) : m.Spares spared := by
  obtain ⟨q, k, w⟩ := m
  cases q with
  | act d next => cases d <;> trivial
  | _ => cases h

/-- From a moment on, the closure of a call form runs a script function or nothing, whoever applies
it, as long as nobody changes the pairs of its form: it runs the script function as long as the key
of that is not cleared, and fails ever after. -/
structure Moment.RunsOnly (m : Moment γ) (c : Callable) (f : CallForm) (a : Addr) : Prop where
  registered : ∀ {δ : Type} {o : Obj} {os : List Obj} {next : Obj → Proc δ} {k : Stack γ δ}
    {w : World}, Reaches (fun m => m.Spares f.places ∧ m.dismissed? ≠ some f.key) m
      ⟨Host.apply o os >>= next, k, w⟩ → w.CanApply f a o →
        Host.RunsCallable c f.key (Host.apply o os) w os
  dismissed : ∀ {δ : Type} {o : Obj} {os : List Obj} {next : Obj → Proc δ} {k : Stack γ δ}
    {w : World} {m₁ m₂ : Moment γ}, Reaches (Spares f.places) m m₁ → m₁.dismissed? = some f.key →
      Goes m₁ m₂ → Reaches (Spares f.places) m₂ ⟨Host.apply o os >>= next, k, w⟩ →
        w.CanApply f a o →
          ∃ w₁, Comes w.scene (Host.apply o os) w (.error (.invalidCallback f.key)) w₁

/-- In sessions, it does so wherever there is such a closure. -/
theorem Transcript.runsOnly_of_hasClosure {config : Config} {steps : List Step}
    {m : Moment (List (Except Failure Answer × List Answer))}
    (h : Moment.Reaches (fun _ => True) (start config steps) m)
    (hclosure : m.world.HasClosure c f a) : m.RunsOnly c f a := by
  obtain ⟨hstands, hc, hkey⟩ := hclosure
  have hsound := (Moment.Reaches.callbacks h Registry.sound_empty).1
  have hany : ∀ {ok : Moment (List (Except Failure Answer × List Answer)) → Prop} {m₁ m₂},
      Moment.Reaches ok m₁ m₂ → Moment.Reaches (fun _ => True) m₁ m₂ :=
    fun hm => Moment.reaches_mono (fun _ _ => trivial) hm
  refine ⟨fun {δ o os next k w} hlater happly => ?_,
    fun {δ o os next k w m₁ m₂} hbefore hgone hgo hlater happly => ?_⟩
  · have hreached := h.trans (hany hlater)
    have hspares := Moment.reaches_mono (fun _ hm => hm.1) hlater
    have hkept := Moment.reaches_mono (fun _ hm => hm.2) hlater
    have hc' : w.border.callbacks.get? f.key = some c :=
      Moment.Reaches.registered (R := Border.callbacks) (fun hgo => hgo.registers.callbacks) hkept
        hsound hc
    exact Host.runsCallable_apply happly ⟨hstands.develops hspares.develops, hc', hkey⟩
      (known_of_applies hreached) ⟨config, steps, δ, next, k, hreached⟩
  -- once the callback was dismissed its key is spent, and so it is not given out again
  · have hreached := (h.trans (hany hbefore)).trans (.head ⟨trivial, hgo⟩ (hany hlater))
    have hdevelops := (hbefore.develops.trans
      (hgo.develops (Moment.spares_of_dismissed hgone f.places))).trans hlater.develops
    have hspent : w.border.callbacks.Spent f.key :=
      Moment.Reaches.unregistered (R := Border.callbacks) (fun hgo => hgo.registers.callbacks)
        hbefore hgone hgo hlater hsound (.inl hc)
    exact Host.comes_apply_spent happly (hstands.develops hdevelops) hkey hspent
      (known_of_applies hreached) ⟨config, steps, δ, next, k, hreached⟩

/-! ### Making the functions -/

/-- The two ways in which the border has the host make a function of a script function, and how
the closure at an address is found by the handle that is given for it. -/
inductive Border.Makes (c : Callable) : Proc Handle → (World → Handle → Addr → Prop) → Prop where
  | closure : Makes c (Border.closure c) fun w h a => w.host.resolve? h.id = some (.ref a)
  | define (name : String) (doc : Option String) (command : Option Command) :
    Makes c (Border.define name c doc command) World.IsDefined

namespace Border

/-- What is made is a closure that calls the script function. -/
theorem Makes.yields {build : Proc Handle} {Stands : World → Handle → Addr → Prop}
    (h : Makes c build Stands) (hkeeps : w.KeepsMaking) :
    build.Yields w fun h w₁ => ∃ f a, w₁.HasClosure c f a ∧ Stands w₁ h a := by
  cases h with
  | closure =>
    exact Yields.mono (adds_closure c hkeeps.list hkeeps.evaluate) fun _ _ h => h.2
  | define name doc command => exact yields_define name c doc command hkeeps.list hkeeps.evaluate

end Border

/-- The border has the host make a function of a script function, while the builtins that such
functions are made with keep their functions. If that gives a handle, the handle is for a function
that runs the script function or nothing, however much later it is applied. -/
theorem functions_run_their_own {config : Config} {steps : List Step} {build : Proc Handle}
    {Stands : World → Handle → Addr → Prop} {next : Handle → Proc β}
    {k : Stack (List (Except Failure Answer × List Answer)) β} (hmakes : Border.Makes c build Stands)
    (hreached : Moment.Reaches (fun _ => True) (Transcript.start config steps)
      ⟨build >>= next, k, w⟩) (hkeeps : w.KeepsMaking) :
    ∃ r w₁, Comes w.scene build w r w₁ ∧ ∀ h, r = .ok h → ∃ f a, w₁.HasClosure c f a ∧
      Stands w₁ h a ∧ (⟨next h, k, w₁⟩ : Moment _).RunsOnly c f a := by
  obtain ⟨r, w₁, hcomes, hmade⟩ := hmakes.yields hkeeps ⟨config, steps, β, next, k, hreached⟩
  refine ⟨r, w₁, hcomes, fun h hh => ?_⟩
  subst hh
  obtain ⟨f, a, hclosure, hstands⟩ := hmade h rfl
  have hbuilt := hreached.trans (Moment.reaches_of_passes (hcomes.passes_bind next k).passes)
  exact ⟨f, a, hclosure, hstands, Transcript.runsOnly_of_hasClosure hbuilt hclosure⟩

end Crossing
