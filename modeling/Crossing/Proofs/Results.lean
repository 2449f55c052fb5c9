import Crossing.Run

/-!
# What runs of procedures give

A procedure whose tasks are nested no deeper than `d` gives the same result in every
run that may nest them so deep. What a procedure gives follows from what its parts
give.

- `Proc.runWithin`: a run with tasks nested at most so deep;
- `Proc.Gives`: what a procedure gives, and the world that it leaves;
- `Gives.bind`, `Gives.within`, `Gives.keeping`, `Gives.perform`: from parts to the
  whole;
- `Gives.run`: and so to runs.
-/

namespace Crossing

variable {α β : Type} {d e n : Nat} {w w₁ w₂ : World}

namespace Proc

variable {p : Proc α} {f : α → Proc β} {a : α} {r : Except Failure α} {s : Except Failure β}
  {x : Failure}

/-- Runs a procedure whose tasks are nested at most `n` deep and whose loops have at
most as many rounds. -/
def runWithin (n : Nat) (p : Proc α) (w : World) : Result α :=
  p.runWith n (fun t w => t.run n w) w

/-- A procedure gives a result or a failure and leaves the world `w₁`, however deep
tasks may nest, if it is `d` deep. With `d = 0` it does no tasks. -/
def Gives (d : Nat) (p : Proc α) (w : World) (r : Except Failure α) (w₁ : World) : Prop :=
  ∀ n, d ≤ n → p.runWithin n w = (r.mapError .failure, w₁)

theorem Gives.mono (h : p.Gives d w r w₁) (hd : d ≤ e) : p.Gives e w r w₁ :=
  fun n hn => h n (Nat.le_trans hd hn)

/-- What is given is what a run with enough depth gives. -/
theorem Gives.run (h : p.Gives d w r w₁) (hd : d ≤ budget) :
    p.run w = (r.mapError .failure, w₁) := h budget hd

/-- Runs give one result. -/
theorem Gives.eq_of_run {w₂ : World} (h : p.Gives d w r w₁) (hd : d ≤ budget)
    (hrun : p.run w = (.ok a, w₂)) : r = .ok a ∧ w₂ = w₁ := by
  have heq := (h.run hd).symm.trans hrun
  cases r with
  | error x => cases heq
  | ok b =>
    cases heq
    exact ⟨rfl, rfl⟩

/-! ### Sequences -/

theorem gives_pure (a : α) : (pure a : Proc α).Gives d w (.ok a) w := fun _ _ => rfl

theorem gives_fail (x : Failure) : (fail x : Proc α).Gives d w (.error x) w := fun _ _ => rfl

/-- What has ended is given. -/
theorem gives_ofExcept (r : Except Failure α) : (ofExcept r).Gives d w r w := by
  cases r with
  | ok a => exact gives_pure a
  | error x => exact gives_fail x

theorem Gives.bind (hp : p.Gives d w (.ok a) w₁) (hf : (f a).Gives d w₁ s w₂) :
    (p >>= f).Gives d w s w₂ := by
  intro n hn
  have hpart : p.runWith n (fun t w => t.run n w) w = (.ok a, w₁) := hp n hn
  have hrest : (f a).runWith n (fun t w => t.run n w) w₁ = (s.mapError .failure, w₂) := hf n hn
  change (p.bind f).runWith n (fun t w => t.run n w) w = _
  rw [runWith_bind, hpart]
  exact hrest

theorem Gives.bind_error (hp : p.Gives d w (.error x) w₁) :
    (p >>= f).Gives d w (.error x) w₁ := by
  intro n hn
  have hpart : p.runWith n (fun t w => t.run n w) w = (.error (.failure x), w₁) := hp n hn
  change (p.bind f).runWith n (fun t w => t.run n w) w = _
  rw [runWith_bind, hpart]
  rfl

/-- What follows a query depends on what it tells. -/
theorem gives_query_bind {q : Query α} (hf : (f (q.ask w)).Gives d w s w₁) :
    (query q >>= f).Gives d w s w₁ := Gives.bind (fun _ _ => rfl) hf

/-- What follows a check of what the heap says depends on what is found there. -/
theorem gives_check_bind {x : Heap → Except Signal α} {f : Heap → α → Proc β}
    (hx : x w.host.heap = .ok a) (hf : (f w.host.heap a).Gives d w s w₁) :
    (heap >>= fun h => Host.check (x h) >>= f h).Gives d w s w₁ := by
  refine gives_query_bind ?_
  change (Host.check (x w.host.heap) >>= f w.host.heap).Gives d w s w₁
  rw [hx]
  exact Gives.bind (gives_pure a) hf

/-- What follows a change depends on what it gives back and leaves. -/
theorem gives_change_bind {c : Change α} (hf : (f (c.run w).1).Gives d (c.run w).2 s w₁) :
    (change c >>= f).Gives d w s w₁ := Gives.bind (fun _ _ => rfl) hf

theorem gives_change (c : Change α) : (change c).Gives d w (.ok (c.run w).1) (c.run w).2 :=
  fun _ _ => rfl

/-! ### Runs that give results -/

/-- A run to a result is cut where its first part ends. -/
theorem run_bind_eq_ok {b : β} :
    (p >>= f).run w = (.ok b, w₂) ↔
      ∃ a w₁, p.run w = (.ok a, w₁) ∧ (f a).run w₁ = (.ok b, w₂) := by
  change (p.bind f).runWith budget (fun t w => t.run budget w) w = _ ↔ _
  rw [runWith_bind]
  constructor
  · intro h
    split at h
    · exact ⟨_, _, by assumption, h⟩
    · cases h
  · rintro ⟨a, w₁, hp, hf⟩
    have hpart : p.runWith budget (fun t w => t.run budget w) w = (.ok a, w₁) := hp
    rw [hpart]
    exact hf

/-- If the same is done with each of several things, so with the one at a place, in a
world where everything holds that each of them keeps. -/
theorem exists_run_of_mapM {I : World → Prop} {f : α → Proc β} {as : List α} {bs : List β}
    (hI : ∀ a w b w₁, I w → (f a).run w = (.ok b, w₁) → I w₁) (hw : I w)
    (hrun : (as.mapM f).run w = (.ok bs, w₁)) (ha : as[n]? = some a) :
    ∃ w' b w'', I w' ∧ (f a).run w' = (.ok b, w'') ∧ bs[n]? = some b := by
  induction as generalizing w bs n with
  | nil => cases ha
  | cons c as ih =>
    rw [List.mapM_cons] at hrun
    obtain ⟨b, w', hfirst, hrun⟩ := run_bind_eq_ok.mp hrun
    obtain ⟨bs', w'', hrest, hdone⟩ := run_bind_eq_ok.mp hrun
    cases hdone
    cases n with
    | zero =>
      obtain rfl := Option.some.inj ha
      exact ⟨w, b, w', hw, hfirst, rfl⟩
    | succ n =>
      obtain ⟨v, b', v', hv, hat, hplace⟩ := ih (hI c w b w' hw hfirst) hrest ha
      exact ⟨v, b', v', hv, hat, hplace⟩

/-! ### Parts -/

theorem Gives.within {c : Scope} {u : Undo} (hc : c.enter w = .ok (u, w₁))
    (hp : p.Gives d w₁ r w₂) : (Proc.within c p).Gives d w r (u.run w₂) := by
  intro n hn
  have hpart : p.runWith n (fun t w => t.run n w) w₁ = (r.mapError .failure, w₂) := hp n hn
  rw [runWithin, Proc.within, runWith, hc]
  dsimp only
  rw [hpart]
  cases r <;> rfl

theorem Gives.keeping [Holds α] (hp : p.Gives d w (.ok a) w₁) :
    (Proc.keeping p).Gives d w (.ok a)
      ((Undo.holdOnly w.script.held).run w₁ |>.hold (Holds.handles a)) :=
  (hp.within rfl).bind (gives_change_bind (gives_pure a))

/-- A failure leaves nothing in the hands of running code. -/
theorem Gives.keeping_error [Holds α] (hp : p.Gives d w (.error x) w₁) :
    (Proc.keeping p).Gives d w (.error x) ((Undo.holdOnly w.script.held).run w₁) :=
  (hp.within rfl).bind_error

/-- A task gives what its body gives. -/
theorem Gives.perform {t : Task α} (ht : t.body.Gives d w r w₁) :
    (Proc.perform t).Gives (d + 1) w r w₁ := by
  intro n hn
  obtain ⟨n, rfl⟩ : ∃ k, n = k + 1 := ⟨n - 1, by omega⟩
  have htask : t.run (n + 1) w = (r.mapError .failure, w₁) := ht n (Nat.le_of_succ_le_succ hn)
  rw [runWithin, Proc.perform, runWith, htask]
  cases r <;> rfl

end Proc

end Crossing
