import Crossing.Proofs.LiveHandles
import Mathlib.Algebra.GroupWithZero.Nat

/-!
# Batches of released objects

The host is told in batches what to stop keeping. The books of the two sides agree at
every moment of a session in which script code takes in references only while the host
keeps them.

- `World.Books`: the host keeps whatever is tracked, and nothing that was released;
- `Change.books_run`, `World.books_sweep`: a change keeps them in order, and a sweep does;
- `Moment.Goes.books`: so does each step of a run;
- `sweeps_release_once`: what that means for the batches of a session.
-/

namespace Crossing

variable {α β γ : Type} {w w₁ : World} {i : ObjectId}

/-! ### The books -/

/-- The books of the two sides: what is tracked is kept; what was released is kept no
longer, and its number is not above the last one; it was released once, and is counted. -/
structure World.Books (w : World) : Prop where
  kept : ∀ t ∈ w.border.tracked, ∃ o, w.host.resolve? t.id = some o
  gone : ∀ i ∈ w.host.batches.flatten, i.val ≤ w.host.lastId ∧ w.host.resolve? i = none
  once : w.host.batches.flatten.Nodup
  total : w.border.released = (w.host.batches.map List.length).sum

namespace World

/-- Nothing is kept or released, and nothing else is tracked. -/
structure SameBooks (w w₁ : World) : Prop where
  retained : w₁.host.retained = w.host.retained
  lastId : w₁.host.lastId = w.host.lastId
  batches : w₁.host.batches = w.host.batches
  released : w₁.border.released = w.border.released
  tracked : ∀ t ∈ w₁.border.tracked, ∃ u ∈ w.border.tracked, u.id = t.id

/-- Worlds that keep the same books, with what is tracked told apart by numbers. -/
theorem SameBooks.of_tracked (hretained : w₁.host.retained = w.host.retained)
    (hlastId : w₁.host.lastId = w.host.lastId) (hbatches : w₁.host.batches = w.host.batches)
    (hreleased : w₁.border.released = w.border.released)
    (htracked : w₁.border.tracked = w.border.tracked) : w.SameBooks w₁ :=
  ⟨hretained, hlastId, hbatches, hreleased, fun t ht => ⟨t, htracked ▸ ht, rfl⟩⟩

/-- Worlds with the same books have them in order together. -/
theorem SameBooks.books (hs : w.SameBooks w₁) (hw : w.Books) : w₁.Books where
  kept t ht := by
    obtain ⟨u, hu, hid⟩ := hs.tracked t ht
    rw [Interpreter.resolve?, hs.retained, ← hid]
    exact hw.kept u hu
  gone i hi := by
    rw [hs.batches] at hi
    rw [Interpreter.resolve?, hs.retained, hs.lastId]
    exact hw.gone i hi
  once := by
    rw [hs.batches]
    exact hw.once
  total := by
    rw [hs.batches, hs.released]
    exact hw.total

/-! ### Changes -/

/-- What is kept from now on gets a number that was not released. -/
theorem retain_notMem_batches (hs : w.Sound) (hw : w.Books) (o : Obj) :
    (w.host.retain o).1 ∉ w.host.batches.flatten := by
  intro hmem
  obtain ⟨hle, hnone⟩ := hw.gone _ hmem
  obtain ⟨id, -, hid, h⟩ | ⟨-, h⟩ := Interpreter.retain_cases hs.host o
  · rw [h, hid] at hnone
    cases hnone
  · rw [h] at hle
    exact Nat.not_succ_le_self _ hle

theorem batches_retain (hs : w.Sound) (o : Obj) :
    ((Change.retain o).run w).2.host.batches = w.host.batches := by
  change (w.host.retain o).2.batches = w.host.batches
  obtain ⟨_, -, -, h⟩ | ⟨-, h⟩ := Interpreter.retain_cases hs.host o <;> rw [h]
  rfl

theorem books_retain (hs : w.Sound) (hw : w.Books) (o : Obj) :
    ((Change.retain o).run w).2.Books := by
  have hbatches := batches_retain hs o
  have hages := Interpreter.ages_retain hs.host o
  constructor
  · intro t ht
    obtain ⟨o', ho'⟩ := hw.kept t ht
    exact ⟨o', Interpreter.resolve?_retain hs.host o ho'⟩
  · intro i hi
    have hmem : i ∈ w.host.batches.flatten := hbatches ▸ hi
    obtain ⟨hle, hnone⟩ := hw.gone i hmem
    refine ⟨Nat.le_trans hle hages.lastId_le, Option.eq_none_iff_forall_ne_some.mpr fun o' ho' => ?_⟩
    rw [hages.resolve? hle ho'] at hnone
    cases hnone
  · exact (congrArg (fun bs : List (List ObjectId) => bs.flatten.Nodup) hbatches).mpr hw.once
  · exact hw.total.trans (congrArg (fun bs : List (List ObjectId) => (bs.map List.length).sum)
      hbatches.symm)

/-- An object that the host keeps may be taken in. -/
theorem books_adopt (hs : w.Sound) (hw : w.Books) (hi : ∃ o, w.host.resolve? i = some o) :
    (w.adopt i).2.Books := by
  have hmake : (w.makeHandle i).2.Books := by
    refine ⟨fun t ht => ?_, hw.gone, hw.once, hw.total⟩
    rcases (Border.mem_track hs.border.ids).mp ht with rfl | ⟨ht, -⟩
    · exact hi
    · exact hw.kept t ht
  unfold adopt
  split
  · split
    · exact SameBooks.books (w := w) (.of_tracked rfl rfl rfl rfl rfl) hw
    · exact hmake
  · exact hmake

/-- The numbers that a sweep releases, once each. -/
theorem pairwise_unreachable (hs : w.Sound) : w.unreachable.Pairwise fun i j => i.val < j.val :=
  List.pairwise_map.mpr (hs.border.ids.filter _)

/-- What is unreachable is listed once. -/
theorem nodup_unreachable (hs : w.Sound) : w.unreachable.Nodup :=
  (pairwise_unreachable hs).imp fun hlt heq => Nat.ne_of_lt hlt (congrArg ObjectId.val heq)

theorem batches_sweep (w : World) : w.sweep.2.host.batches =
    if w.unreachable = [] then w.host.batches else w.host.batches ++ [w.unreachable] := by
  rw [host_sweep]
  cases w.unreachable <;> rfl

theorem flatten_batches_sweep (w : World) :
    w.sweep.2.host.batches.flatten = w.host.batches.flatten ++ w.unreachable := by
  rw [batches_sweep]
  split
  · rename_i h
    rw [h, List.append_nil]
  · rw [List.flatten_append, List.flatten_singleton]

theorem books_sweep (hs : w.Sound) (hw : w.Books) : w.sweep.2.Books := by
  have hborder := border_sweep (w := w)
  constructor
  · intro t ht
    rw [hborder, List.mem_filter] at ht
    have hnot : t.id ∉ w.unreachable := by simpa using ht.2
    rw [resolve?_sweep hs, if_neg hnot]
    exact hw.kept t ht.1
  · intro i hi
    rw [flatten_batches_sweep, List.mem_append] at hi
    have hages := ages_sweep hs
    rw [resolve?_sweep hs]
    split
    · rename_i hmem
      obtain ⟨t, ht, rfl, -⟩ := mem_unreachable_iff.mp hmem
      obtain ⟨o, ho⟩ := hw.kept t ht
      exact ⟨Nat.le_trans (Interpreter.le_of_resolve? hs.host ho) hages.lastId_le, rfl⟩
    · rename_i hmem
      obtain ⟨hle, hnone⟩ := hw.gone i (hi.resolve_right hmem)
      exact ⟨Nat.le_trans hle hages.lastId_le, hnone⟩
  · rw [flatten_batches_sweep, List.nodup_append]
    refine ⟨hw.once, nodup_unreachable hs, ?_⟩
    -- what is released now was tracked, and so kept until now
    rintro i hi _ hmem rfl
    obtain ⟨t, ht, rfl, -⟩ := mem_unreachable_iff.mp hmem
    obtain ⟨o, ho⟩ := hw.kept t ht
    rw [(hw.gone _ hi).2] at ho
    cases ho
  · have htotal : w.sweep.2.border.released = w.border.released + w.unreachable.length := by
      rw [hborder]
    rw [htotal, hw.total, batches_sweep]
    split
    · rename_i h
      rw [h]
      rfl
    · rw [List.map_append, List.sum_append]
      rfl

/-- Right after a sweep there is nothing to release. -/
theorem unreachable_sweep (w : World) : w.sweep.2.unreachable = [] := by
  refine List.eq_nil_iff_forall_not_mem.mpr fun i hi => ?_
  obtain ⟨t, ht, rfl, hlive, hpin⟩ := mem_unreachable_iff.mp hi
  rw [roots_sweep] at hlive
  rw [border_sweep] at ht hpin
  obtain ⟨ht, hnot⟩ := List.mem_filter.mp ht
  have hmem : t.id ∈ w.unreachable := mem_unreachable_iff.mpr ⟨t, ht, rfl, hlive, hpin⟩
  simp [hmem] at hnot

end World

/-! ### Steps -/

/-- What a change may take in and release: nothing is released but by sweeps, and
nothing is taken in that the host does not keep. -/
def Change.Minds (w : World) : Change α → Prop
  | .adopt i => ∃ o, w.host.resolve? i = some o
  | .release _ => False
  | _ => True

/-- What a change does to the books. -/
theorem Change.books_cases (c : Change α) (hs : w.Sound) :
    w.SameBooks (c.run w).2 ∨
    (∃ o, (c.run w).2 = ((Change.retain o).run w).2) ∨
    (∃ i, (c.Minds w → ∃ o, w.host.resolve? i = some o) ∧ (c.run w).2 = (w.adopt i).2) ∨
    (∃ ids, ¬c.Minds w ∧ (c.run w).2 = { w with host := w.host.release ids }) ∨
    (c.run w).2 = w.sweep.2 := by
  -- what touches the books is to retain, to take in, to release, or to sweep; all else does not
  cases c with
  | retain o => exact .inr (.inl ⟨o, rfl⟩)
  | adopt i => exact .inr (.inr (.inl ⟨i, id, rfl⟩))
  | release ids => exact .inr (.inr (.inr (.inl ⟨ids, id, rfl⟩)))
  | sweep => exact .inr (.inr (.inr (.inr rfl)))
  | recordName h name =>
    refine .inl ⟨rfl, rfl, rfl, ?_, ?_⟩
    · simp only [run, Border.recordName]
      split
      · split <;> rfl
      · rfl
    · intro t ht
      simp only [run, Border.recordName] at ht
      split at ht
      · rename_i u hu
        obtain ⟨hmem, -⟩ := (Border.record?_iff hs.border).mp hu
        split at ht
        · rcases (Border.mem_track hs.border.ids).mp ht with rfl | ⟨ht, -⟩
          · exact ⟨u, hmem, rfl⟩
          · exact ⟨t, ht, rfl⟩
        · exact ⟨t, ht, rfl⟩
      · exact ⟨t, ht, rfl⟩
  | intern name =>
    refine .inl ?_
    simp only [run, World.onHost, Interpreter.intern]
    split
    · exact .of_tracked rfl rfl rfl rfl rfl
    · split <;> exact .of_tracked rfl rfl rfl rfl rfl
  | ensureBuffer name =>
    refine .inl ?_
    simp only [run, World.onHost, Interpreter.ensureBuffer]
    split <;> exact .of_tracked rfl rfl rfl rfl rfl
  | recallSymbol _ _ | recallNumber _ =>
    refine .inl ?_
    simp only [run, World.revive]
    split
    · split <;> exact .of_tracked rfl rfl rfl rfl rfl
    · exact .of_tracked rfl rfl rfl rfl rfl
  | register c | wrap v | unwrap? key | recallVariable name =>
    refine .inl ?_
    simp only [run]
    split <;> exact .of_tracked rfl rfl rfl rfl rfl
  | _ => exact .inl (.of_tracked rfl rfl rfl rfl rfl)

theorem Change.books_run {c : Change α} (hc : c.Minds w) (hs : w.Sound) (hw : w.Books) :
    (c.run w).2.Books := by
  obtain hsame | ⟨o, h⟩ | ⟨i, hi, h⟩ | ⟨ids, hnot, -⟩ | h := c.books_cases hs
  · exact hsame.books hw
  · rw [h]
    exact World.books_retain hs hw o
  · rw [h]
    exact World.books_adopt hs hw (hi hc)
  · exact absurd hc hnot
  · rw [h]
    exact World.books_sweep hs hw

/-- To enter a scope leaves the books alone. -/
theorem Scope.sameBooks_enter {s : Scope} {u : Undo} (h : s.enter w = .ok (u, w₁)) :
    w.SameBooks w₁ := by
  cases s with
  | evaluation | source =>
    simp only [Scope.enter] at h
    split at h
    · cases h
    · cases h
      exact .of_tracked rfl rfl rfl rfl rfl
  | _ =>
    cases h
    exact .of_tracked rfl rfl rfl rfl rfl

/-- To leave a scope leaves the books alone. -/
theorem Undo.sameBooks_run (u : Undo) (w : World) : w.SameBooks (u.run w) := by
  cases u <;> exact .of_tracked rfl rfl rfl rfl rfl

theorem prefix_of_eq {l l₁ : List α} (h : l₁ = l) : l <+: l₁ := h ▸ List.prefix_rfl

/-- Batches are only added. -/
theorem Change.batches_run (c : Change α) (hs : w.Sound) :
    w.host.batches <+: (c.run w).2.host.batches := by
  obtain hsame | ⟨o, h⟩ | ⟨i, -, h⟩ | ⟨ids, -, h⟩ | h := c.books_cases hs
  · exact prefix_of_eq hsame.batches
  · exact prefix_of_eq (h ▸ World.batches_retain hs o)
  · exact prefix_of_eq (congrArg Interpreter.batches (h ▸ World.host_adopt w i))
  · rw [h]
    exact List.prefix_append _ _
  · rw [h, World.batches_sweep]
    split
    · exact List.prefix_rfl
    · exact List.prefix_append _ _

namespace Moment

variable {m m₁ : Moment γ} {Z : γ → γ → Prop}

/-- Careful script code takes in what the host keeps, and releases nothing. -/
theorem Alike.minds (hm : Alike .careful Z m m) {c : Change β} {next : β → Proc m.α}
    (hc : m.proc = .act c next) : c.Minds m.world := by
  obtain @⟨_, P, _, Q, p, _, _, _, w, _, -, hproc, -, hf⟩ := hm
  have hact : Proc.Alike P (.act c next) (.act c next) Q := hc ▸ hproc
  change c.Minds w
  cases hact with
  | act hc _ =>
    cases hc with
    | adopt hi =>
      obtain ⟨o, ho, -⟩ := hf.known nofun hi
      exact ⟨o, ho⟩
    | release hL => cases hL
    | shared hshared => cases c <;> trivial
    | _ => trivial
  | sweep _ => trivial

/-- The books are in order at each step of a run. -/
theorem Goes.books (hgo : Goes m m₁) (hm : Alike .careful Z m m) (hw : m.world.Books) :
    m₁.world.Books := by
  have hs := hm.sound
  cases hgo with
  | next h =>
    obtain heq | ⟨β, c, next, hc, heq⟩ | ⟨s, u, henter⟩ | ⟨u, heq⟩ := world_cases h
    · rwa [heq]
    · rw [heq]
      exact Change.books_run (hm.minds hc) hs hw
    · exact (Scope.sameBooks_enter henter).books hw
    · rw [heq]
      exact (Undo.sameBooks_run u _).books hw
  | sweep _ => exact World.books_sweep hs hw

/-- Batches are only added at each step of a run. -/
theorem Goes.batches (hgo : Goes m m₁) (hs : m.world.Sound) :
    m.world.host.batches <+: m₁.world.host.batches := by
  cases hgo with
  | next h =>
    obtain heq | ⟨β, c, next, -, heq⟩ | ⟨s, u, henter⟩ | ⟨u, heq⟩ := world_cases h
    · exact prefix_of_eq (congrArg (·.host.batches) heq)
    · rw [heq]
      exact c.batches_run hs
    · exact prefix_of_eq (Scope.sameBooks_enter henter).batches
    · exact prefix_of_eq (heq ▸ (Undo.sameBooks_run u _).batches)
  | sweep _ => exact (Change.sweep).batches_run hs

/-- A careful run keeps the books in order. -/
theorem Alike.books (hm : Alike .careful Z m m) (hw : m.world.Books)
    (hr : Reaches (Licensed .careful) m m₁) : m₁.world.Books := by
  induction hr with
  | refl => exact hw
  | tail hr hgo ih => exact hgo.2.books (hm.reaches_self hr) ih

/-- Batches are only ever added. -/
theorem Alike.batches {L : License} (hm : Alike L Z m m)
    (hr : Reaches (Licensed L) m m₁) : m.world.host.batches <+: m₁.world.host.batches := by
  induction hr with
  | refl => exact List.prefix_rfl
  | tail hr hgo ih => exact ih.trans (hgo.2.batches (hm.reaches_self hr).sound)

end Moment

/-! ### Each object is released once, when it is due -/

/-- At the start, nothing is tracked and nothing has been released. -/
theorem World.books_initial (config : Config) : (initial config).Books := by
  have hbatches : (initial config).host.batches = [] := Interpreter.retained_initial.2.2.2
  constructor
  · exact fun _ ht => absurd ht List.not_mem_nil
  · rw [hbatches]
    exact fun _ hi => absurd hi List.not_mem_nil
  · rw [hbatches]
    exact .nil
  · rw [hbatches]
    rfl

namespace Transcript

open Moment

/-- At every moment of a session in which script code takes in references only while
the host keeps them, with sweeps anywhere: a sweep has the host release exactly what is
tracked and has neither a live handle nor a pin, which it kept until then, by ascending
number and in one batch, or in none if there is nothing to release; it tells how much
that was, and the next sweep finds nothing. What has been released is kept no longer, is
in one batch only, once, and its number is not given out again; and the total is that of
all batches. -/
theorem sweeps_release_once (config : Config) (steps : List Step)
    {m m₁ : Moment (List (Except Failure Answer × List Answer))}
    (hm : Reaches (Licensed .careful) (start config steps) m)
    (hm₁ : Reaches (Licensed .careful) m m₁) :
    let w := m.world
    let batch := w.unreachable
    (∀ i, i ∈ batch ↔ (∃ t ∈ w.border.tracked, t.id = i) ∧ (∀ h ∈ w.roots, h.id ≠ i) ∧
      ∀ call ∈ w.border.pending, i ∉ call.pinned) ∧
    (∀ i ∈ batch, ∃ o, w.host.resolve? i = some o) ∧
    (batch.Pairwise fun i j => i.val < j.val) ∧
    w.sweep.2.host.batches = (if batch = [] then w.host.batches else w.host.batches ++ [batch]) ∧
    w.sweep.1 = batch.length ∧
    (w.sweep.2.sweep.1 = 0 ∧ w.sweep.2.sweep.2.host.batches = w.sweep.2.host.batches) ∧
    w.host.batches.flatten.Nodup ∧
    w.host.batches <+: m₁.world.host.batches ∧
    (∀ i ∈ w.host.batches.flatten, m₁.world.host.resolve? i = none ∧
      ∀ o, (m₁.world.host.retain o).1 ≠ i) ∧
    w.border.released = (w.host.batches.map List.length).sum := by
  intro w batch
  have hinv := (start_alike (L := .careful) config steps).reaches_self hm
  have hinv₁ := hinv.reaches_self hm₁
  -- the books of both moments are in order, and the batches of the first begin those of the second
  have hbooks : w.Books :=
    (start_alike config steps).books (World.books_initial config) hm
  have hbooks₁ := hinv.books hbooks hm₁
  have hprefix := hinv.batches hm₁
  have hnone : w.sweep.2.unreachable = [] := w.unreachable_sweep
  refine ⟨?due, ?kept, World.pairwise_unreachable hinv.sound, w.batches_sweep, rfl,
    ⟨?next, ?silent⟩, hbooks.once, hprefix, ?gone, hbooks.total⟩
  -- what is due is not tracked any more, but has been
  case due =>
    intro i
    constructor
    · intro hi
      obtain ⟨t, ht, hid, -, hpin⟩ := World.mem_unreachable_iff.mp hi
      refine ⟨⟨t, ht, hid⟩, ?_, fun call hcall hpinned => hpin ?_⟩
      · rintro h hh rfl
        exact World.id_notMem_unreachable hinv.sound (hinv.tracks hh) hh hi
      · exact List.mem_flatMap.mpr ⟨call, hcall, hpinned⟩
    · rintro ⟨⟨t, ht, rfl⟩, hlive, hpin⟩
      refine World.mem_unreachable_iff.mpr ⟨t, ht, rfl, fun hh => hlive _ hh rfl, fun hp => ?_⟩
      obtain ⟨call, hcall, hpinned⟩ := List.mem_flatMap.mp hp
      exact hpin call hcall hpinned
  -- what is kept has a live handle, or was never tracked
  case kept =>
    intro i hi
    obtain ⟨t, ht, rfl, -⟩ := World.mem_unreachable_iff.mp hi
    exact hbooks.kept t ht
  case next =>
    change w.sweep.2.unreachable.length = 0
    rw [hnone, List.length_nil]
  case silent => rw [World.batches_sweep, if_pos hnone]
  case gone =>
    intro i hi
    have hi₁ : i ∈ m₁.world.host.batches.flatten := by
      obtain ⟨later, hlater⟩ := hprefix
      rw [← hlater, List.flatten_append]
      exact List.mem_append_left _ hi
    refine ⟨(hbooks₁.gone i hi₁).2, ?_⟩
    rintro o rfl
    exact World.retain_notMem_batches hinv₁.sound hbooks₁ o hi₁

/-- A session that looks up a symbol, keeps no handle of it, and sweeps. -/
def lookupThenSweep : Moment (List (Except Failure Answer × List Answer)) :=
  start .standard [.mk (.lookup "car" .symbol false) none false, .mk .sweep none false]

/-- The sweep releases the symbol, in a batch of its own, and no object gets its number. -/
theorem sweeps_release_once_lookup :
    (lookupThenSweep.after 23).world.sweep.1 = 1 ∧
      (lookupThenSweep.after 23).world.sweep.2.host.batches = [[⟨1⟩]] ∧
      (lookupThenSweep.after 23).world.sweep.2.sweep.1 = 0 ∧
      ∀ o, ((lookupThenSweep.after 24).world.host.retain o).1 ≠ ⟨1⟩ := by
  have hfacts : (∀ i < 24, (lookupThenSweep.after i).Licensed .careful) ∧
      (lookupThenSweep.after 23).world.unreachable = [⟨1⟩] ∧
      (lookupThenSweep.after 23).world.host.batches = [] ∧
      (lookupThenSweep.after 24).world.host.batches.flatten = [⟨1⟩] := by
    rw [lookupThenSweep, start_eq]
    decide +kernel
  obtain ⟨hlicensed, hunreachable, hnone, hreleased⟩ := hfacts
  have hm : Reaches (Licensed .careful) lookupThenSweep (lookupThenSweep.after 23) :=
    reaches_after fun i hi => hlicensed i (Nat.lt_succ_of_lt hi)
  have hm₁ : Reaches (Licensed .careful) lookupThenSweep (lookupThenSweep.after 24) :=
    reaches_after hlicensed
  obtain ⟨-, -, -, hbatches, htold, ⟨hnext, -⟩, -⟩ := sweeps_release_once .standard _ hm .refl
  obtain ⟨-, -, -, -, -, -, -, -, hgone, -⟩ := sweeps_release_once .standard _ hm₁ .refl
  -- one number is unreachable after the lookup, and the sweep releases that
  refine ⟨?_, ?_, hnext, (hgone ⟨1⟩ ?_).2⟩
  · exact htold.trans (congrArg List.length hunreachable)
  · exact hbatches.trans (by rw [hunreachable, hnone]; rfl)
  · rw [hreleased]
    exact List.mem_cons_self

end Transcript

end Crossing
