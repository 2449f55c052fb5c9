import Crossing.Proofs.TwoRuns.Changes

/-!
# Scopes and sweeps of two worlds

Scopes start and end alike in two worlds that agree. A sweep takes nothing away
that a live handle is for, so that worlds still agree after it, even if only one
of the two has been swept: what is relied on then is what is live.

- `Fits.enter`, `Fits.leave`, `Fits.holdOnly`: scopes;
- `World.Keeps`, `World.keeps_sweep`: what a sweep leaves as it is;
- `Fits.kept`: worlds agree after sweeps of one or both;
- `Fits.learn`: where the two runs are one, a number may be relied on as soon as
  the host keeps an object under it.
-/

namespace Crossing

variable {L : License} {P P₁ : Pairing L} {w w' w₁ w₁' : World} {s s' : Scope} {h : Handle}

/-! ### Scopes -/

/-- The undoing of what two runs share. -/
def Undo.isShared : Undo → Bool
  | .holdOnly _ => false
  | _ => true

/-- To leave a scope that both runs share leaves the rest alone. -/
theorem Undo.sameRest_run {u : Undo} (hu : u.isShared = true) (w : World) :
    w.SameRest (u.run w) := by
  cases u with
  | holdOnly _ => cases hu
  | _ => constructor <;> rfl

/-- To leave a scope that both runs share does the same in both. -/
theorem Undo.shared_run {u : Undo} (hu : u.isShared = true) (h : w.shared = w'.shared) :
    (u.run w).shared = (u.run w').shared := by
  simp only [World.shared, Interpreter.unnumbered, Shared.mk.injEq, Interpreter.mk.injEq,
    and_true] at h
  obtain ⟨⟨hheap, hsymbols, hcurrent, htemp, hdepth⟩, hconfig, hserial, hcallbacks, hpending,
    houtbound, hevaluating, hevaluator, hfunction, hclock⟩ := h
  cases u with
  | holdOnly _ => cases hu
  | leaveCallback =>
    have htail := congrArg List.tail hpending
    rw [← List.map_tail, ← List.map_tail] at htail
    simp only [run, World.shared, Interpreter.unnumbered, *]
  | _ => simp only [run, World.mapHeap, World.onHost, Interpreter.mapHeap, World.shared,
      Interpreter.unnumbered, *]

namespace Fits

/-- Both runs have calls open, or neither does. -/
theorem isRunning_eq (hf : Fits P w w') : w.border.isRunning = w'.border.isRunning := by
  have hpending := congrArg (List.length ∘ Shared.pending) hf.shared
  have houtbound := congrArg Shared.outbound hf.shared
  have hevaluating := congrArg Shared.evaluating hf.shared
  simp only [World.shared, Function.comp_apply, List.length_map] at hpending houtbound hevaluating
  rw [Border.isRunning, Border.isRunning, hpending, houtbound, hevaluating]

/-- A scope starts in both runs or is refused in both. -/
theorem enter (hf : Fits P w w') (hs : s.Alike P s') :
    (∃ f, s.enter w = .error f ∧ s'.enter w' = .error f) ∨
      ∃ (u : Undo) (w₁ w₁' : World), u.isShared = true ∧ s.enter w = .ok (u, w₁) ∧
        s'.enter w' = .ok (u, w₁') ∧ Fits P w₁ w₁' := by
  -- a scope that both runs share is entered in the same way
  have hstart : ∀ {u : Undo} {w₁ w₁' : World}, u.isShared = true → s.enter w = .ok (u, w₁) →
      s'.enter w' = .ok (u, w₁') → w.SameRest w₁ → w'.SameRest w₁' → w₁.shared = w₁'.shared →
      (∃ f, s.enter w = .error f ∧ s'.enter w' = .error f) ∨
        ∃ (u : Undo) (w₁ w₁' : World), u.isShared = true ∧ s.enter w = .ok (u, w₁) ∧
          s'.enter w' = .ok (u, w₁') ∧ Fits P w₁ w₁' := by
    intro u w₁ w₁' hu he he' hr hr' hshared
    refine .inr ⟨u, w₁, w₁', hu, he, he',
      hf.of_rest hr hr' (Scope.precedes_enter he) hshared fun hL => ?_⟩
    have heq : s' = s := by
      cases hs with
      | callback key hids =>
        have : _ = _ := List.forall₂_eq_eq_eq ▸ hids.imp fun _ _ => P.known.eq_of_exact hL
        rw [this]
      | _ => rfl
    rw [heq, hf.same hL, he] at he'
    exact (congrArg Prod.snd (Except.ok.inj he')).symm
  have hshared := hf.shared
  simp only [World.shared, Interpreter.unnumbered, Shared.mk.injEq, Interpreter.mk.injEq,
    and_true] at hshared
  obtain ⟨⟨hheap, hsymbols, hcurrent, htemp, hdepth⟩, hconfig, hserial, hcallbacks, hpending,
    houtbound, hevaluating, hevaluator, hfunction, hclock⟩ := hshared
  -- the depth and what is in progress are the same in both runs, and so they are refused together
  cases hs with
  | evaluation =>
    by_cases hmax : maxDepth ≤ w.host.depth
    · exact .inl ⟨_, if_pos hmax, if_pos (hdepth ▸ hmax)⟩
    · refine hstart (u := .leaveEvaluation) rfl (if_neg hmax) (if_neg (hdepth ▸ hmax)) ?_ ?_ ?_
      · constructor <;> rfl
      · constructor <;> rfl
      · simp only [World.shared, Interpreter.unnumbered, *]
  | binding bindings =>
    refine hstart (u := .restore (w.host.heap.bind bindings []).1) rfl rfl (by rw [hheap]; rfl)
      ?_ ?_ ?_
    · constructor <;> rfl
    · constructor <;> rfl
    · simp only [World.shared, Interpreter.unnumbered, *]
  | buffer a =>
    refine hstart (u := .select w.host.current) rfl rfl (by rw [hcurrent]; rfl) ?_ ?_ ?_
    · constructor <;> rfl
    · constructor <;> rfl
    · simp only [World.shared, Interpreter.unnumbered, *]
  | temporary a =>
    refine hstart (u := .killAndSelect a w.host.current) rfl rfl (by rw [hcurrent]; rfl) ?_ ?_ ?_
    · constructor <;> rfl
    · constructor <;> rfl
    · simp only [World.shared, Interpreter.unnumbered, *]
  | outbound =>
    refine hstart (u := .leaveOutbound) rfl rfl rfl ?_ ?_ ?_
    · constructor <;> rfl
    · constructor <;> rfl
    · simp only [World.shared, Interpreter.unnumbered, *]
  | callback key hids =>
    refine hstart (u := .leaveCallback) rfl rfl rfl ?_ ?_ ?_
    · constructor <;> rfl
    · constructor <;> rfl
    · simp only [World.shared, Interpreter.unnumbered, List.map_cons, *]
  | source =>
    by_cases hnested : (w.border.isRunning && !w.border.config.allowNested) = true
    · refine .inl ⟨_, if_pos hnested, if_pos ?_⟩
      rwa [← hf.isRunning_eq, ← hconfig]
    · refine hstart (u := .leaveSource) rfl (if_neg hnested) (if_neg ?_) ?_ ?_ ?_
      · rwa [← hf.isRunning_eq, ← hconfig]
      · constructor <;> rfl
      · constructor <;> rfl
      · simp only [World.shared, Interpreter.unnumbered, *]

/-- Scopes end alike. -/
theorem leave {u : Undo} (hf : Fits P w w') (hu : u.isShared = true) :
    Fits P (u.run w) (u.run w') :=
  hf.of_rest (Undo.sameRest_run hu w) (Undo.sameRest_run hu w') (Undo.precedes_run u w)
    (Undo.shared_run hu hf.shared) fun hL => by rw [hf.same hL]

/-- At the end of a part, the handles are given up that it held. -/
theorem holdOnly (hf : Fits P w w') {held : List (Handle × Handle)} (hheld : held <:+ P.held) :
    Fits (P.givingUp held hheld) ((Undo.holdOnly (held.map Prod.fst)).run w)
      ((Undo.holdOnly (held.map Prod.snd)).run w') :=
  { hf with
    same := fun hL => by
      have heq : held.map Prod.snd = held.map Prod.fst := by
        refine List.map_congr_left fun p hp => ?_
        exact P.eq_of_loose hL (P.loose_of_held (hheld.subset hp))
      rw [hf.same hL, heq]
    left := ⟨hf.left.host, hf.left.border⟩
    right := ⟨hf.right.host, hf.right.border⟩
    shared := hf.shared
    held := rfl
    held' := rfl }

end Fits

/-! ### Sweeps -/

namespace World

/-- What all that works with live handles only can tell of a world, stays. -/
structure Keeps (w w₁ : World) : Prop where
  sound : w₁.Sound
  shared : w₁.shared = w.shared
  script : w₁.script = w.script
  proxies : w₁.border.proxies = w.border.proxies
  tracks : ∀ {h}, w.border.Tracks h → h ∈ w.roots →
    w₁.border.Tracks h ∧ w₁.border.nameOf? h = w.border.nameOf? h
  symbols : ∀ {h k}, h ∈ w.roots → ((k, h) ∈ w₁.border.symbolCache ↔ (k, h) ∈ w.border.symbolCache)
  numbers : ∀ {h k}, h ∈ w.roots → ((k, h) ∈ w₁.border.numberCache ↔ (k, h) ∈ w.border.numberCache)
  kept : ∀ {h}, w.border.Tracks h → h ∈ w.roots →
    w₁.host.resolve? h.id = w.host.resolve? h.id
  precedes : w.host.Precedes w₁.host
  tracked_subset : ∀ t ∈ w₁.border.tracked, t ∈ w.border.tracked
  symbols_subset : ∀ e ∈ w₁.border.symbolCache, e ∈ w.border.symbolCache
  numbers_subset : ∀ e ∈ w₁.border.numberCache, e ∈ w.border.numberCache

theorem keeps_refl (hw : w.Sound) : w.Keeps w where
  sound := hw
  shared := rfl
  script := rfl
  proxies := rfl
  tracks ht _ := ⟨ht, rfl⟩
  symbols _ := Iff.rfl
  numbers _ := Iff.rfl
  kept _ _ := rfl
  precedes := .refl _
  tracked_subset _ h := h
  symbols_subset _ h := h
  numbers_subset _ h := h

theorem unnumbered_sweep : w.sweep.2.host.unnumbered = w.host.unnumbered := by
  rw [host_sweep]
  split
  · rfl
  · rfl

theorem clock_sweep : w.sweep.2.clock = w.clock := by
  simp only [sweep]
  split <;> rfl

theorem shared_sweep : w.sweep.2.shared = w.shared := by
  rw [shared, shared, unnumbered_sweep, border_sweep, script_sweep, clock_sweep]

/-- A sweep leaves everything as it is that a live handle is for. -/
theorem keeps_sweep (hw : w.Sound) : w.Keeps w.sweep.2 where
  sound := hw.sweep
  shared := shared_sweep
  script := script_sweep
  proxies := by rw [border_sweep]
  tracks ht hh := tracks_sweep hw ht hh
  symbols hh := by
    rw [border_sweep, List.mem_filter]
    exact and_iff_left (isLive_iff.mpr hh)
  numbers hh := by
    rw [border_sweep, List.mem_filter]
    exact and_iff_left (isLive_iff.mpr hh)
  kept ht hh := by rw [resolve?_sweep hw, if_neg (id_notMem_unreachable hw ht hh)]
  precedes := precedes_sweep hw
  tracked_subset t ht := by
    rw [border_sweep] at ht
    exact (List.mem_filter.mp ht).1
  symbols_subset e he := by
    rw [border_sweep] at he
    exact (List.mem_filter.mp he).1
  numbers_subset e he := by
    rw [border_sweep] at he
    exact (List.mem_filter.mp he).1

end World

namespace Fits

/-- What is relied on when only live handles count. -/
def keeping (hf : Fits P w w') : Pairing L where
  held := P.held
  loose := hf.narrow.loose
  stands := P.stands
  named := P.named
  known := {
    rel := fun i i' => ∃ h h', hf.narrow.loose h h' ∧ h.id = i ∧ h'.id = i'
    inj := by
      rintro i i' j j' ⟨h, h', hh, rfl, rfl⟩ ⟨g, g', hg, rfl, rfl⟩
      exact P.known.inj (P.known_of_loose hh.1) (P.known_of_loose hg.1)
    eq_of_exact := by
      rintro i i' hL ⟨h, h', hh, rfl, rfl⟩
      exact P.known.eq_of_exact hL (P.known_of_loose hh.1) }
  loose_of_held := hf.narrow.loose_of_held
  known_of_loose := fun {h h'} hh => ⟨h, h', hh, rfl, rfl⟩
  serial_eq := hf.narrow.serial_eq
  loose_inj := hf.narrow.loose_inj

/-- Worlds agree after sweeps, of one of them or of both. -/
theorem kept (hf : Fits P w w') (hk : w.Keeps w₁) (hk' : w'.Keeps w₁')
    (hsame : L.IsExact → w₁' = w₁) : Fits hf.keeping w₁ w₁' :=
  have hn := hf.fits_narrow
  { same := hsame
    left := hk.sound
    right := hk'.sound
    shared := by rw [hk.shared, hk'.shared, hf.shared]
    held := by rw [hk.script]; exact hn.held
    held' := by rw [hk'.script]; exact hn.held'
    assigned := by rw [hk.script, hk'.script]; exact hn.assigned
    proxies := by rw [hk.proxies, hk'.proxies]; exact hn.proxies
    log := by rw [hk.script, hk'.script]; exact hn.log
    tracks := fun hh => (hk.tracks (hf.tracks hh.1) hh.2.1).1
    tracks' := fun hh => (hk'.tracks (hf.tracks' hh.1) hh.2.2).1
    names := fun hh => by
      rw [(hk.tracks (hf.tracks hh.1) hh.2.1).2, (hk'.tracks (hf.tracks' hh.1) hh.2.2).2,
        hf.names hh.1]
    symbols := fun k hh => by rw [hk.symbols hh.2.1, hk'.symbols hh.2.2, hf.symbols k hh.1]
    numbers := fun k hh => by rw [hk.numbers hh.2.1, hk'.numbers hh.2.2, hf.numbers k hh.1]
    known := by
      rintro hL i i' ⟨h, h', hh, rfl, rfl⟩
      rw [hk.kept (hf.tracks hh.1) hh.2.1, hk'.kept (hf.tracks' hh.1) hh.2.2]
      exact hf.known hL (P.known_of_loose hh.1)
    grounded := hf.grounded.of_precedes hk.precedes hk.tracked_subset hk.symbols_subset
      hk.numbers_subset }

/-- Sweeps of both runs. -/
theorem sweep (hf : Fits P w w') : Fits hf.keeping w.sweep.2 w'.sweep.2 :=
  hf.kept (World.keeps_sweep hf.left) (World.keeps_sweep hf.right) fun hL => by rw [hf.same hL]

/-- A sweep of the second run only. -/
theorem sweepRight (hf : Fits P w w') (hL : L = .blind) : Fits hf.keeping w w'.sweep.2 :=
  hf.kept (World.keeps_refl hf.left) (World.keeps_sweep hf.right) fun hexact => absurd hL hexact

/-! ### Numbers that are looked at -/

/-- Where the two runs are one, they may rely on numbers under which the host
keeps objects. -/
theorem learn (hf : Fits P w w') (hL : L.IsExact) {ids : List ObjectId}
    (hids : L = .careful → ∀ i ∈ ids, (w.host.resolve? i).isSome) :
    ∃ P' : Pairing L, P.Grows P' ∧ P'.held = P.held ∧ Fits P' w w' ∧
      ∀ i ∈ ids, P'.known.rel i i := by
  have heq : ∀ {i i'}, P.known.rel i i' ∨ i = i' ∧ i ∈ ids → i = i' := by
    rintro i i' (hi | ⟨rfl, -⟩)
    · exact P.known.eq_of_exact hL hi
    · rfl
  let known : Renaming L := {
    rel := fun i i' => P.known.rel i i' ∨ i = i' ∧ i ∈ ids
    inj := fun hi hj => by rw [heq hi, heq hj]
    eq_of_exact := fun _ => heq }
  let P' : Pairing L := { P with known, known_of_loose := fun hh => .inl (P.known_of_loose hh) }
  refine ⟨P', ⟨List.suffix_rfl, fun _ _ => .inl, fun _ _ h => h, fun _ _ h => h⟩, rfl, ?_,
    fun i hi => .inr ⟨rfl, hi⟩⟩
  exact {
    hf with
    known := by
      rintro hfree i i' (hi | ⟨rfl, hi⟩)
      · exact hf.known hfree hi
      · have hcareful : L = .careful := by
          cases L with
          | free => exact absurd rfl hfree
          | careful => rfl
          | blind => exact absurd rfl hL
        obtain ⟨o, ho⟩ := Option.isSome_iff_exists.mp (hids hcareful i hi)
        exact ⟨o, ho, by rw [hf.same hL, ho]⟩ }

end Fits

end Crossing
