import Crossing.Proofs.TwoRuns.Simulation

/-!
# Sweeps are transparent

Sweeps put into a session do not show, if its script code works with handles only
and nothing looks at how much a sweep released.

- `Moment.IsOblivious` says so of a run, in terms of runs without sweeps in between
  whose own sweeps tell anything;
- `Moment.Concurs`: how runs have ended and what they leave behind is the same, up
  to a renaming of numbers;
- `Transcript.sweeps_are_transparent`: a session with sweeps put in at any
  safepoints ends if it does without them, and then in the same way.
-/

namespace Crossing

variable {γ : Type} {Z : γ → γ → Prop}

/-- Reports that are the same, unless they are counts. -/
def Answer.SameButCounts (a a' : Answer) : Prop := a = a' ∨ ∃ n n', a = .count n ∧ a' = .count n'

/-- Reports that are the same up to a renaming of numbers, unless they are counts or
statistics. -/
def Answer.AlikeButCounts (a a' : Answer) : Prop :=
  a.Alike .blind a' ∨ ∃ n n', a = .count n ∧ a' = .count n'

/-- A world without its log. -/
def World.unlogged (w : World) : World := { w with script := { w.script with log := [] } }

namespace Moment

variable {m m' m₁ m₁' : Moment γ}

/-- Whether a run without sweeps in between works with handles only and comes to the
same whatever its own sweeps tell. `Z` says which results are the same. -/
structure IsOblivious (Z : γ → γ → Prop) (m : Moment γ) : Prop where
  handlesOnly : ∀ m₁, PassesTold m m₁ → m₁.Licensed .blind
  same : ∀ m₁ r₁, PassesTold m m₁ → m₁.ending? = some r₁ →
    ∃ m₂ r₂, Passes m m₂ ∧ m₂.ending? = some r₂ ∧ ResultAlike Z r₂ r₁ ∧
      m₂.world.unlogged = m₁.world.unlogged
  ends : ∀ m₂, Passes m m₂ → m₂.ending?.isSome = true →
    Acc (fun m' m => ∃ told, m.nextTold told = some m') m

/-- What two runs leave behind is the same, up to a renaming of numbers: all of the
host but the table of kept objects, and the variables of script code, in which
corresponding handles stand for the same objects. -/
structure Concurs (w w' : World) : Prop where
  shared : w.shared = w'.shared
  assigned : ∃ ρ : Renaming .blind, List.Forall₂ (FieldAlike fun h h' =>
    ρ.rel h.id h'.id ∧ w.host.resolve? h.id = w'.host.resolve? h'.id)
      w.script.assigned w'.script.assigned

/-- Runs in step concur. -/
theorem Alike.concurs (h : Alike .blind Z m m') : Concurs m.world m'.world := by
  obtain @⟨_, P, _, _, _, _, _, _, _, _, -, -, -, hf⟩ := h
  refine ⟨hf.shared, P.known, hf.assigned.imp fun _ _ hv => ⟨hv.1, hv.2.mono fun _ _ hh => ?_⟩⟩
  obtain ⟨o, ho, ho'⟩ := hf.known nofun (P.known_of_loose hh)
  exact ⟨P.known_of_loose hh, ho.trans ho'.symm⟩

/-- A run that corresponds to one that has to end, ends. -/
theorem Alike.exists_passes_end (h : Alike .blind Z m m')
    (hacc : Acc (fun m' m => ∃ told, m.nextTold told = some m') m)
    (hl : ∀ m₁, PassesTold m m₁ → m₁.Licensed .blind) :
    ∃ m₁', Passes m' m₁' ∧ m₁'.ending?.isSome = true := by
  induction hacc generalizing m' with
  | intro m _ ih =>
    cases hnext : m'.next with
    | none => exact ⟨m', .refl, (nextTold_eq_none_iff _ m').mp hnext⟩
    | some m₁' =>
      have hrel := h.next (hl m .refl) m'.world.sweep.1
      rw [show m'.nextTold _ = some m₁' from hnext] at hrel
      generalize hm₁ : m.nextTold _ = m₁ at hrel
      cases hrel with
      | @some m₁ _ h₁ =>
        obtain ⟨m₂', hm₂', hend⟩ := ih m₁ ⟨_, hm₁⟩ h₁ fun m₂ hm₂ => hl m₂ (.head ⟨_, hm₁⟩ hm₂)
        exact ⟨m₂', .head hnext hm₂', hend⟩

/-! ### Runs that do not sweep themselves -/

/-- Whether the run itself is about to sweep. -/
def sweeps (m : Moment γ) : Bool :=
  match m.proc with
  | .act .sweep _ => true
  | _ => false

/-- Without a sweep the next moment does not depend on what was told of one. -/
theorem nextTold_eq_next (h : m.sweeps = false) (told : Nat) : m.nextTold told = m.next := by
  obtain ⟨p, k, w⟩ := m
  cases p with
  | act c next =>
    cases c with
    | sweep => cases h
    | _ => rfl
  | done a => cases k <;> rfl
  | stop s => cases s <;> cases k <;> rfl
  | _ => rfl

/-- A moment after some steps has a next one. -/
theorem after_succ_of_next {n : Nat} (h : (m.after n).next = some m₁) : m.after (n + 1) = m₁ := by
  induction n generalizing m with
  | zero =>
    have hm : m.next = some m₁ := h
    rw [after, hm]
    rfl
  | succ n ih =>
    cases hm : m.next with
    | none =>
      have hstay : m.after (n + 1) = m := by rw [after, hm]
      rw [hstay, hm] at h
      cases h
    | some m' =>
      have hafter : ∀ i, m.after (i + 1) = m'.after i := fun i => by rw [after, hm]
      rw [hafter] at h ⊢
      exact ih h

variable {n : Nat}

/-- What sweeps tell cannot matter to a run that does not sweep. -/
theorem exists_after_of_passesTold (h : ∀ i < n, (m.after i).sweeps = false)
    (hend : (m.after n).ending?.isSome = true) (hm₁ : PassesTold m m₁) :
    ∃ i ≤ n, m.after i = m₁ := by
  induction hm₁ with
  | refl => exact ⟨0, Nat.zero_le n, rfl⟩
  | tail _ hnext ih =>
    obtain ⟨i, hi, rfl⟩ := ih
    obtain ⟨told, hnext⟩ := hnext
    rcases Nat.lt_or_eq_of_le hi with hlt | rfl
    · rw [nextTold_eq_next (h i hlt)] at hnext
      exact ⟨i + 1, hlt, after_succ_of_next hnext⟩
    · rw [(nextTold_eq_none_iff told _).mpr hend] at hnext
      cases hnext

/-- A run that ends is well founded, backwards from its end. The induction is on the steps
that are left. -/
theorem acc_after (h : ∀ i < n, (m.after i).sweeps = false)
    (hend : (m.after n).ending?.isSome = true) {k i : Nat} (hi : i + k = n) :
    Acc (fun m' m => ∃ told, m.nextTold told = some m') (m.after i) := by
  induction k generalizing i with
  | zero =>
    obtain rfl : i = n := hi
    refine ⟨_, fun m' ⟨told, hnext⟩ => ?_⟩
    rw [(nextTold_eq_none_iff told _).mpr hend] at hnext
    cases hnext
  | succ k ih =>
    refine ⟨_, fun m' ⟨told, hnext⟩ => ?_⟩
    rw [nextTold_eq_next (h i (by omega))] at hnext
    rw [← after_succ_of_next hnext]
    exact ih (by omega)

/-- A run that does not sweep itself and works with handles only is oblivious. -/
theorem isOblivious_of_sweeps (hZ : ∀ a, Z a a) (h : ∀ i < n, (m.after i).sweeps = false)
    (hl : ∀ i ≤ n, (m.after i).Licensed .blind) (hend : (m.after n).ending?.isSome = true) :
    IsOblivious Z m where
  handlesOnly m₁ hm₁ := by
    obtain ⟨i, hi, rfl⟩ := exists_after_of_passesTold h hend hm₁
    exact hl i hi
  same m₁ r₁ hm₁ hr₁ := by
    obtain ⟨i, -, rfl⟩ := exists_after_of_passesTold h hend hm₁
    refine ⟨_, r₁, passes_after m i, hr₁, ?_, rfl⟩
    cases r₁ with
    | ok a => exact .inl ⟨a, a, rfl, rfl, hZ a⟩
    | error s => exact .inr ⟨s, rfl, rfl⟩
  ends _ _ _ := acc_after (i := 0) h hend (Nat.zero_add n)

end Moment

/-! ### Reports one after the other -/

section Composition

variable {α β ε : Type} {R S T : α → α → Prop}

/-- Results that are related twice are related. -/
theorem ResultAlike.comp {r₁ r₂ r₃ : Except ε α} (h : ResultAlike R r₁ r₂)
    (h' : ResultAlike S r₂ r₃) (hT : ∀ a b c, R a b → S b c → T a c) :
    ResultAlike T r₁ r₃ := by
  rcases h with ⟨a, b, rfl, rfl, hR⟩ | ⟨e, rfl, rfl⟩
  · rcases h' with ⟨_, c, hb, rfl, hS⟩ | ⟨_, hb, -⟩
    · cases hb
      exact .inl ⟨a, c, rfl, rfl, hT a b c hR hS⟩
    · cases hb
  · rcases h' with ⟨_, _, hb, -, -⟩ | ⟨_, hb, rfl⟩
    · cases hb
    · cases hb
      exact .inr ⟨e, rfl, rfl⟩

/-- Lists that are related twice are related. -/
theorem forall₂_comp {as bs cs : List α} (h : List.Forall₂ R as bs) (h' : List.Forall₂ S bs cs)
    (hT : ∀ a b c, R a b → S b c → T a c) : List.Forall₂ T as cs := by
  induction h generalizing cs with
  | nil =>
    cases h'
    exact .nil
  | cons hR _ ih =>
    cases h' with
    | cons hS h' => exact .cons (hT _ _ _ hR hS) (ih h')

end Composition

/-- Answers that differ by counts and by numbers differ by both. -/
theorem Answer.SameButCounts.comp {a b c : Answer} (h : a.SameButCounts b)
    (h' : b.Alike .blind c) : a.AlikeButCounts c := by
  rcases h with rfl | ⟨n, n', rfl, rfl⟩
  · exact .inl h'
  · obtain ⟨ρ, h'⟩ := h'
    cases h' with
    | same _ => exact .inr ⟨n, n', rfl, rfl⟩

/-- Worlds that concur do so whatever is logged. -/
theorem Moment.Concurs.of_unlogged {w w₁ w' : World} (h : Concurs w w')
    (heq : w₁.unlogged = w.unlogged) : Concurs w₁ w' := by
  have hshared : w₁.unlogged.shared = w.unlogged.shared := by rw [heq]
  have hhost : w₁.unlogged.host = w.unlogged.host := by rw [heq]
  have hassigned : w₁.unlogged.script.assigned = w.unlogged.script.assigned := by rw [heq]
  obtain ⟨hsh, ρ, hvars⟩ := h
  refine ⟨Eq.trans hshared hsh, ρ, ?_⟩
  change w₁.host = w.host at hhost
  change w₁.script.assigned = w.script.assigned at hassigned
  rwa [hassigned, hhost]

namespace Transcript

open Moment

/-- Reports of a session that are the same but for counts. -/
abbrev SameReports := List.Forall₂ (ReportAlike Answer.SameButCounts)

/-- Reports of two sessions that are the same up to a renaming of numbers in each,
but for counts and statistics. -/
abbrev AlikeReports := List.Forall₂ (ReportAlike Answer.AlikeButCounts)

/-- Sweeps do not show. Let a session work with handles only, and let what its sweeps
tell make no difference. With sweeps put in at any safepoints, it ends just if it ends
without them, and its end is the same: the reports up to renamings of numbers, the
host, and the variables of script code. -/
theorem sweeps_are_transparent (config : Config) (steps : List Step)
    (h : IsOblivious SameReports (start config steps)) :
    (∀ m' r', Reaches (fun _ => True) (start config steps) m' → m'.ending? = some r' →
      ∃ m r, Passes (start config steps) m ∧ m.ending? = some r ∧
        ResultAlike AlikeReports r r' ∧ Concurs m.world m'.world) ∧
    ∀ m m', Passes (start config steps) m → m.ending?.isSome = true →
      Reaches (fun _ => True) (start config steps) m' →
      ∃ m₁', Passes m' m₁' ∧ m₁'.ending?.isSome = true := by
  have hstart := start_alike (L := .blind) config steps
  constructor
  -- what the run with sweeps comes to is what the one without them comes to
  · intro m' r' hm' hr'
    obtain ⟨m₁, hm₁, halike⟩ := hstart.reaches h.handlesOnly hm'
    have hends := halike.ending
    rw [hr'] at hends
    generalize hr₁ : m₁.ending? = r₁ at hends
    cases hends with
    | @some r₁ _ hresult =>
      obtain ⟨m, r, hm, hr, hsame, heq⟩ := h.same m₁ r₁ hm₁ hr₁
      refine ⟨m, r, hm, hr, hsame.comp hresult fun _ _ _ hab hbc => ?_,
        halike.concurs.of_unlogged heq⟩
      refine forall₂_comp hab hbc fun _ _ _ hrs hrs' => ⟨?_, ?_⟩
      · exact hrs.1.comp hrs'.1 fun _ _ _ ha ha' => ha.comp ha'
      · exact forall₂_comp hrs.2 hrs'.2 fun _ _ _ ha ha' => ha.comp ha'
  -- the run without sweeps ends after some steps, and each of them is matched
  · intro m m' hm hend hm'
    obtain ⟨m₁, hm₁, halike⟩ := hstart.reaches h.handlesOnly hm'
    refine halike.exists_passes_end ?_ fun m₂ hm₂ => h.handlesOnly m₂ (hm₁.trans hm₂)
    have hacc := h.ends m hm hend
    clear halike hm' hm hend
    -- the induction is on the way to the moment, each step being one of the run without sweeps
    induction hm₁ with
    | refl => exact hacc
    | tail _ hnext ih => exact ih.inv hnext

/-- A session that looks up a symbol twice and logs what it gets. -/
def lookupTwice : Moment (List (Except Failure Answer × List Answer)) :=
  start .standard [.mk (.lookup "car" .symbol false) none true,
    .mk (.lookup "car" .symbol false) none true]

/-- The session with a sweep before the second look-up. The host keeps the symbol
under a second number then. -/
def sweptLookups : Moment (List (Except Failure Answer × List Answer)) :=
  (lookupTwice.after 26).swept.after 22

theorem sameReports_self (rs : List (Except Failure Answer × List Answer)) : SameReports rs rs := by
  refine List.forall₂_same.mpr fun r _ => ⟨?_, List.forall₂_same.mpr fun _ _ => .inl rfl⟩
  obtain ⟨r | a, _⟩ := r
  · exact .inr ⟨r, rfl, rfl⟩
  · exact .inl ⟨a, a, rfl, rfl, .inl rfl⟩

theorem sweeps_are_transparent_lookups :
    lookupTwice.IsOblivious SameReports ∧ sweptLookups.world.host.lastId = 2 ∧
      (lookupTwice.after 48).world.host.lastId = 1 ∧
      ∃ m r r', Passes lookupTwice m ∧ m.ending? = some r ∧ sweptLookups.ending? = some r' ∧
        ResultAlike AlikeReports r r' ∧ Concurs m.world sweptLookups.world := by
  have hfacts : (∀ i < 48, (lookupTwice.after i).sweeps = false) ∧
      (∀ i ≤ 48, (lookupTwice.after i).Licensed .blind) ∧
      (lookupTwice.after 48).ending?.isSome = true ∧
      (lookupTwice.after 26).isSafepoint = true ∧ sweptLookups.ending?.isSome = true ∧
      sweptLookups.world.host.lastId = 2 ∧ (lookupTwice.after 48).world.host.lastId = 1 := by
    rw [sweptLookups, lookupTwice, start_eq]
    decide +kernel
  obtain ⟨hsweeps, hlicensed, hended, hsafe, hend, htwo, hone⟩ := hfacts
  have hoblivious : lookupTwice.IsOblivious SameReports :=
    isOblivious_of_sweeps sameReports_self hsweeps hlicensed hended
  have hreaches : Reaches (fun _ => True) lookupTwice sweptLookups :=
    (reaches_after fun _ _ => trivial).trans
      (.head ⟨trivial, .sweep hsafe⟩ (reaches_after fun _ _ => trivial))
  obtain ⟨r', hr'⟩ := Option.isSome_iff_exists.mp hend
  obtain ⟨m, r, hm, hr, hsame, hconcurs⟩ :=
    (sweeps_are_transparent .standard _ hoblivious).1 _ r' hreaches hr'
  exact ⟨hoblivious, htwo, hone, m, r, r', hm, hr, hr', hsame, hconcurs⟩

end Transcript

end Crossing
