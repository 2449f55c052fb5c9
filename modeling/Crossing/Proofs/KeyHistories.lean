import Crossing.Proofs.Registries
import Crossing.Proofs.TwoRuns.Simulation
import Mathlib.Data.List.Induction

/-!
# Histories of keys

What a registry answers can be told from the requests and answers before, without
looking inside: it is a map whose keys never come back.

- `Registry.Request`, `Registry.Event`: what is asked, and that with the answer;
- `Registry.replay`: the history of a list of requests, and the registry then;
- `Registry.issued`, `Registry.Live`, `Registry.freed`: the keys given out so far,
  what they stand for, and the indices that wait to be used again, read off a
  history;
- `Registry.Agrees`: a registry is as its history says;
- `Agrees.answer`: each answer keeps it so;
- `replay_refines_map`: what that means for all that can be asked;
- `Transcript.registries_have_histories`: both registries of a session come about so.
-/

namespace Crossing

namespace Registry

variable {α : Type} {r r' : Registry α} {a b : α} {j k : Key}

/-! ### Requests and answers -/

/-- What can be asked of a registry. -/
inductive Request (α : Type) where
  | insert (a : α)
  | get (k : Key)
  | remove (k : Key)

/-- A request that was answered. -/
inductive Event (α : Type) where
  /-- A value went in under a key, or was refused. -/
  | inserted (a : α) (k : Option Key)
  | got (k : Key) (a : Option α)
  | removed (k : Key) (a : Option α)

namespace Event

/-- The key whose value may have changed. -/
def changed? : Event α → Option Key
  | .inserted _ k => k
  | .got _ _ => none
  | .removed k _ => some k

/-- The key that was given out. -/
def issue? : Event α → Option Key
  | .inserted _ k => k
  | _ => none

/-- The indices that wait after an event, if `free` waited before: the index of a
new key no longer waits, and the index of a removed value comes last, unless its
generations are used up. -/
def freeAfter (free : List Nat) : Event α → List Nat
  | .inserted _ (some k) => free.erase k.index
  | .removed k (some _) => if k.generation + 1 < keyBound then free ++ [k.index] else free
  | _ => free

end Event

/-- Answers a request. -/
def answer (r : Registry α) : Request α → Event α × Registry α
  | .insert a =>
    match r.insert a with
    | some (k, r) => (.inserted a (some k), r)
    | none => (.inserted a none, r)
  | .get k => (.got k (r.get? k), r)
  | .remove k => (.removed k (r.take k).1, (r.take k).2)

/-- What happens when a new registry gets requests, the first one first, and the
registry then. -/
def replay (requests : List (Request α)) : List (Event α) × Registry α :=
  requests.foldl (fun s q => (s.1 ++ [(s.2.answer q).1], (s.2.answer q).2)) ([], empty)

/-- The last request comes after what the others did. -/
theorem replay_concat (requests : List (Request α)) (q : Request α) :
    replay (requests ++ [q]) =
      ((replay requests).1 ++ [((replay requests).2.answer q).1],
        ((replay requests).2.answer q).2) := by
  simp only [replay, List.foldl_append, List.foldl_cons, List.foldl_nil]

/-! ### What a history says -/

/-- The keys that were given out. -/
def issued (history : List (Event α)) : List Key := history.filterMap Event.issue?

/-- The indices that wait to be used again, the one that has waited longest first. -/
def freed (history : List (Event α)) : List Nat := history.foldl Event.freeAfter []

/-- A key was given out for a value, and has not been removed since. -/
def Live (history : List (Event α)) (k : Key) (a : α) : Prop :=
  ∃ earlier later, history = earlier ++ .inserted a (some k) :: later ∧
    ∀ b, .removed k b ∉ later

/-- The last event may give out one more key. -/
theorem issued_concat (history : List (Event α)) (e : Event α) :
    issued (history ++ [e]) = issued history ++ e.issue?.toList := by
  cases h : e.issue? <;> simp [issued, h]

/-- The last event may take an index from those that wait, or add one. -/
theorem freed_concat (history : List (Event α)) (e : Event α) :
    freed (history ++ [e]) = e.freeAfter (freed history) := by
  simp only [freed, List.foldl_append, List.foldl_cons, List.foldl_nil]

/-- A key is live after an event that gave it out, or if it was live and the event did not
remove it. -/
theorem live_concat {history : List (Event α)} {e : Event α} :
    Live (history ++ [e]) k a ↔
      e = .inserted a (some k) ∨ Live history k a ∧ ∀ b, e ≠ .removed k b := by
  constructor
  -- the event is the last one, or lies in what came later
  · rintro ⟨earlier, later, heq, hlater⟩
    rcases List.eq_nil_or_concat later with rfl | ⟨later, e', rfl⟩
    · exact .inl (List.singleton_inj.mp (List.append_inj' heq rfl).2)
    · rw [List.concat_eq_append, ← List.cons_append, ← List.append_assoc] at heq
      obtain ⟨hhistory, he⟩ := List.append_inj' heq rfl
      obtain rfl := List.singleton_inj.mp he
      refine .inr ⟨⟨earlier, later, hhistory, fun b hb => hlater b ?_⟩, fun b hb => hlater b ?_⟩
      · exact List.concat_eq_append ▸ List.mem_append_left _ hb
      · exact List.concat_eq_append ▸ hb ▸ List.mem_append_right _ List.mem_cons_self
  -- an event in front of all others is given out now
  · rintro (rfl | ⟨⟨earlier, later, rfl, hlater⟩, he⟩)
    · exact ⟨history, [], rfl, fun _ => List.not_mem_nil⟩
    · refine ⟨earlier, later ++ [e], by simp, fun b hb => ?_⟩
      rcases List.mem_append.mp hb with hb | hb
      · exact hlater b hb
      · exact he b (List.mem_singleton.mp hb).symm

/-! ### What keys stand for after an answer -/

/-- To insert does nothing to other keys, even those of the same index. -/
theorem get?_insert_other (hr : r.Sound) (h : r.insert a = some (k, r')) (hne : j ≠ k) :
    r'.get? j = r.get? j := by
  by_cases hidx : j.index = k.index
  · -- nothing is inside at the index of the new key, before, and no other generation, after
    have hg : k.generation ≠ j.generation := fun hg => hne (Key.ext hidx hg.symm)
    have hafter : r'.get? j = none := by
      simp only [get?, slots_insert hr h, if_pos hidx, if_neg hg]
    have hbefore : r.get? j = none := by
      obtain ⟨-, -, rfl, -⟩ | ⟨free, -, hslot, -⟩ := insert_cases hr h
      · simp only [get?, hidx, List.getElem?_eq_none (Nat.le_refl _)]
      · simp only [get?, hidx, hslot, if_neg hg]
    rw [hafter, hbefore]
  · simp only [get?, slots_insert hr h, if_neg hidx]

/-! ### The keys that were given out -/

/-- A key has been given out: its index has a later generation, or this generation
and does not wait to be used. -/
def HasIssued (r : Registry α) (k : Key) : Prop :=
  ∃ s, r.slots[k.index]? = some s ∧
    (k.generation < s.generation ∨ k.generation = s.generation ∧ k.index ∉ r.free)

/-- A key that stands for something was given out. -/
theorem hasIssued_of_get? (hr : r.Sound) (h : r.get? k = some a) : r.HasIssued k :=
  ⟨_, get?_iff.mp h, .inr ⟨rfl, index_notMem_free hr h⟩⟩

/-- A key that is given out is new. -/
theorem not_hasIssued_of_insert (hr : r.Sound) (h : r.insert a = some (k, r')) :
    ¬r.HasIssued k := by
  rintro ⟨s, hs, hcases⟩
  obtain ⟨-, -, rfl, -⟩ | ⟨free, hfree, hslot, -⟩ := insert_cases hr h
  · rw [List.getElem?_eq_none (Nat.le_refl _)] at hs
    cases hs
  · rw [hslot] at hs
    cases hs
    rcases hcases with hlt | ⟨-, hnot⟩
    · exact Nat.lt_irrefl _ hlt
    · exact hnot (hfree ▸ List.mem_cons_self)

/-- The keys that were given out are those before and the new one. -/
theorem hasIssued_insert_iff (hr : r.Sound) (h : r.insert a = some (k, r')) :
    r'.HasIssued j ↔ r.HasIssued j ∨ j = k := by
  have hslots := slots_insert hr h j.index
  by_cases hidx : j.index = k.index
  · rw [if_pos hidx] at hslots
    -- the index of the new key does not wait any more
    have hnot : j.index ∉ r'.free := by
      obtain ⟨-, -, -, rfl⟩ | ⟨free, hfree, -, rfl⟩ := insert_cases hr h
      · exact List.not_mem_nil
      · have honce := hr.once
        rw [hfree] at honce
        exact hidx ▸ (List.nodup_cons.mp honce).1
    have hafter : r'.HasIssued j ↔ j.generation < k.generation ∨ j.generation = k.generation := by
      simp only [HasIssued, hslots, Option.some.injEq, exists_eq_left', hnot, not_false_eq_true,
        and_true]
    have hbefore : r.HasIssued j ↔ j.generation < k.generation := by
      obtain ⟨-, -, rfl, -⟩ | ⟨free, hfree, hslot, -⟩ := insert_cases hr h
      · simp [HasIssued, hidx]
      · simp [HasIssued, hidx, hslot, hfree]
    rw [hafter, hbefore, Key.ext_iff, and_iff_right hidx]
  · rw [if_neg hidx] at hslots
    have hfree : j.index ∈ r'.free ↔ j.index ∈ r.free := by
      obtain ⟨hfree, -, -, rfl⟩ | ⟨free, hfree, -, rfl⟩ := insert_cases hr h
      · rw [hfree]
      · rw [hfree, List.mem_cons, or_iff_right hidx]
    have hne : j ≠ k := fun heq => hidx (heq ▸ rfl)
    simp only [HasIssued, hslots, hfree, hne, or_false]

/-- A key that is removed was still given out. -/
theorem hasIssued_remove_iff (hr : r.Sound) : (r.remove k).HasIssued j ↔ r.HasIssued j := by
  obtain ⟨-, h⟩ | ⟨a, ha, hcases⟩ := remove_cases r k
  · rw [h]
  · have hnot := index_notMem_free hr ha
    by_cases hidx : j.index = k.index
    · have hbefore : r.HasIssued j ↔
          j.generation < k.generation ∨ j.generation = k.generation := by
        simp [HasIssued, hidx, get?_iff.mp ha, hnot]
      obtain ⟨-, h⟩ | ⟨-, h⟩ := hcases
      · rw [hbefore, ← Nat.le_iff_lt_or_eq, ← Nat.lt_succ_iff]
        simp [HasIssued, h, getElem?_set_of_get? ha, hidx]
      · rw [hbefore]
        simp [HasIssued, h, getElem?_set_of_get? ha, hidx, hnot]
    · obtain ⟨-, h⟩ | ⟨-, h⟩ := hcases <;>
      · simp [HasIssued, h, getElem?_set_of_get? ha, hidx]

/-! ### A registry is as its history says -/

/-- The live keys among some keys. -/
def countLive (r : Registry α) (keys : List Key) : Nat :=
  keys.countP fun k => (r.get? k).isSome

/-- A new key is one more that stands for something. -/
theorem countLive_insert {keys : List Key} (hr : r.Sound) (h : r.insert a = some (k, r'))
    (hk : k ∉ keys) : r'.countLive (keys ++ [k]) = r.countLive keys + 1 := by
  have hsame : r'.countLive keys = r.countLive keys :=
    List.countP_congr fun j hj => by
      rw [get?_insert_other hr h fun heq => hk (heq ▸ hj)]
  have hnew : r'.countLive [k] = 1 := by
    simp [countLive, get?_insert_self hr h]
  calc r'.countLive (keys ++ [k]) = r'.countLive keys + r'.countLive [k] := List.countP_append
    _ = r.countLive keys + 1 := by rw [hsame, hnew]

/-- A key that is removed is one less that stands for something. -/
theorem countLive_remove {keys : List Key} (hkeys : keys.Nodup) (hk : k ∈ keys)
    (ha : r.get? k = some a) : r.countLive keys = (r.remove k).countLive keys + 1 := by
  have hperm := List.perm_cons_erase hk
  have hsame : (r.remove k).countLive (keys.erase k) = r.countLive (keys.erase k) :=
    List.countP_congr fun j hj => by
      have hne : j ≠ k := ((hkeys.mem_erase_iff).mp hj).1
      rw [get?_remove_other r hne]
  calc r.countLive keys = r.countLive (k :: keys.erase k) := hperm.countP_eq _
    _ = r.countLive (keys.erase k) + 1 := List.countP_cons_of_pos (by simp [ha])
    _ = (r.remove k).countLive (keys.erase k) + 1 := by rw [hsame]
    _ = (r.remove k).countLive (k :: keys.erase k) + 1 := by
      rw [countLive, countLive, List.countP_cons_of_neg (by simp [get?_remove_self])]
    _ = (r.remove k).countLive keys + 1 := congrArg (· + 1) (hperm.countP_eq _).symm

/-- A registry is as its history says. -/
structure Agrees (history : List (Event α)) (r : Registry α) : Prop where
  sound : r.Sound
  issued : ∀ k, k ∈ issued history ↔ r.HasIssued k
  once : (Registry.issued history).Nodup
  live : ∀ k a, r.get? k = some a ↔ Live history k a
  free : r.free = freed history
  count : r.count = r.countLive (Registry.issued history)

theorem agrees_empty : Agrees [] (empty : Registry α) where
  sound := sound_empty
  issued k := by simp [Registry.issued, HasIssued, empty]
  once := .nil
  live k a := by simp [Live, get?, empty]
  free := rfl
  count := rfl

namespace Agrees

variable {history : List (Event α)}

/-- An answer after which everything is as before. -/
theorem same {e : Event α} (h : Agrees history r) (hissue : e.issue? = none)
    (hfree : e.freeAfter (freed history) = freed history)
    (hins : ∀ k a, e ≠ .inserted a (some k))
    (hrem : ∀ k b, e = .removed k b → r.get? k = none) : Agrees (history ++ [e]) r := by
  -- no key was given out, and so the count and the order stay
  have hissued : Registry.issued (history ++ [e]) = Registry.issued history := by
    rw [issued_concat, hissue, Option.toList_none, List.append_nil]
  constructor
  · exact h.sound
  · rw [hissued]
    exact h.issued
  · rw [hissued]
    exact h.once
  · intro k a
    rw [live_concat, ← h.live, or_iff_right (hins k a), iff_self_and]
    intro ha b he
    rw [hrem k b he] at ha
    cases ha
  · rw [freed_concat, hfree]
    exact h.free
  · rw [hissued]
    exact h.count

theorem insert (h : Agrees history r) (hins : r.insert a = some (k, r')) :
    Agrees (history ++ [.inserted a (some k)]) r' := by
  have hr := h.sound
  -- the key is of an index that was free, or new, and so it was not given out before
  have hnew : k ∉ Registry.issued history := fun hk =>
    not_hasIssued_of_insert hr hins ((h.issued k).mp hk)
  have hissued : Registry.issued (history ++ [.inserted a (some k)]) =
      Registry.issued history ++ [k] := issued_concat _ _
  constructor
  · exact hr.insert hins
  · intro j
    rw [hissued, List.mem_append, List.mem_singleton, h.issued, hasIssued_insert_iff hr hins]
  · rw [hissued, List.nodup_append]
    refine ⟨h.once, List.pairwise_singleton _ _, ?_⟩
    rintro j hj _ hk rfl
    exact hnew (List.mem_singleton.mp hk ▸ hj)
  · intro j b
    rw [live_concat, ← h.live]
    -- the new key stands for the value, and no other key is touched
    by_cases hj : j = k
    · subst hj
      have hbefore : r.get? j ≠ some b := fun hb =>
        not_hasIssued_of_insert hr hins (hasIssued_of_get? hr hb)
      simp [get?_insert_self hr hins, hbefore]
    · simp [get?_insert_other hr hins hj, Ne.symm hj]
  · rw [freed_concat, ← h.free]
    obtain ⟨hfree, -, -, rfl⟩ | ⟨free, hfree, -, rfl⟩ := insert_cases hr hins
    · rw [hfree]
      rfl
    · rw [hfree]
      exact (List.erase_cons_head _ _).symm
  · rw [hissued, countLive_insert hr hins hnew, ← h.count]
    obtain ⟨-, -, -, rfl⟩ | ⟨free, -, -, rfl⟩ := insert_cases hr hins <;> rfl

theorem remove (h : Agrees history r) (ha : r.get? k = some a) :
    Agrees (history ++ [.removed k (some a)]) (r.remove k) := by
  have hr := h.sound
  have hissued : Registry.issued (history ++ [.removed k (some a)]) = Registry.issued history := by
    rw [issued_concat]
    exact List.append_nil _
  have hold : k ∈ Registry.issued history := (h.issued k).mpr (hasIssued_of_get? hr ha)
  constructor
  · exact hr.remove k
  · intro j
    rw [hissued, h.issued, hasIssued_remove_iff hr]
  · rw [hissued]
    exact h.once
  · intro j b
    rw [live_concat, ← h.live]
    -- the key that was removed is live no more, and no other key is touched
    by_cases hj : j = k
    · subst hj
      simp [get?_remove_self]
    · simp [get?_remove_other r hj, Ne.symm hj]
  · rw [freed_concat, ← h.free]
    obtain ⟨hnone, -⟩ | ⟨b, -, ⟨hlt, hrem⟩ | ⟨hge, hrem⟩⟩ := remove_cases r k
    · rw [hnone] at ha
      cases ha
    · rw [hrem]
      exact (if_pos hlt).symm
    · rw [hrem]
      exact (if_neg hge).symm
  · have hcount := countLive_remove h.once hold ha
    have hone : (r.remove k).count = r.count - 1 := by
      obtain ⟨hnone, -⟩ | ⟨b, -, ⟨-, hrem⟩ | ⟨-, hrem⟩⟩ := remove_cases r k
      · rw [hnone] at ha
        cases ha
      · rw [hrem]
      · rw [hrem]
    rw [hissued, hone, h.count]
    omega

/-- Each answer keeps a registry as its history says. -/
theorem answer (h : Agrees history r) (q : Request α) :
    Agrees (history ++ [(r.answer q).1]) (r.answer q).2 := by
  cases q with
  | insert a =>
    simp only [Registry.answer]
    split
    · rename_i k r' hins
      exact h.insert hins
    · exact h.same rfl rfl (fun _ _ => nofun) nofun
  | get k => exact h.same rfl rfl nofun nofun
  | remove k =>
    cases ha : r.get? k with
    | none =>
      have htake := take_of_get?_eq_none ha
      simp only [Registry.answer, htake]
      refine h.same rfl rfl nofun fun j b he => ?_
      cases he
      exact ha
    | some a =>
      have htake : (r.take k).1 = some a := (take_fst r k).trans ha
      simp only [Registry.answer, htake]
      exact h.remove ha

end Agrees

/-- A registry is as its history says, by induction on the requests from the last one on. -/
theorem agrees_replay (requests : List (Request α)) :
    Agrees (replay requests).1 (replay requests).2 := by
  induction requests using List.reverseRecOn with
  | nil => exact agrees_empty
  | append_singleton requests q ih =>
    rw [replay_concat]
    exact ih.answer q

/-! ### A map whose keys never come back -/

namespace Agrees

variable {history : List (Event α)}

/-- The indices of the keys given out are the places, if none of them waits. -/
theorem lt_length_iff (h : Agrees history r) (hfree : freed history = []) (i : Nat) :
    i < r.slots.length ↔ ∃ k ∈ Registry.issued history, k.index = i := by
  constructor
  · intro hi
    have hnot : i ∉ r.free := by
      rw [h.free, hfree]
      exact List.not_mem_nil
    refine ⟨⟨i, r.slots[i].generation⟩, (h.issued _).mpr ?_, rfl⟩
    exact ⟨r.slots[i], List.getElem?_eq_getElem hi, .inr ⟨rfl, hnot⟩⟩
  · rintro ⟨k, hk, rfl⟩
    obtain ⟨s, hs, -⟩ := (h.issued k).mp hk
    exact (List.getElem?_eq_some_iff.mp hs).1

/-- A value gets the index that has waited longest. -/
theorem insert_of_freed {i : Nat} {free : List Nat} (h : Agrees history r)
    (hfree : freed history = i :: free) (a : α) :
    ∃ g r', r.insert a = some (⟨i, g⟩, r') := by
  rw [← h.free] at hfree
  obtain ⟨g, hg⟩ := h.sound.free i (hfree ▸ List.mem_cons_self)
  have hins : r.insert a =
      some (⟨i, g⟩, ⟨r.slots.set i ⟨g, some a⟩, free, r.count + 1⟩) := by
    simp only [Registry.insert, hfree, hg]
  exact ⟨g, _, hins⟩

/-- If none waits, a value gets the next index, if there is one. -/
theorem insert_of_freed_eq_nil (h : Agrees history r) (hfree : freed history = []) (a : α) :
    (r.insert a).map Prod.fst =
      if r.slots.length < keyBound then some ⟨r.slots.length, 0⟩ else none := by
  rw [← h.free] at hfree
  simp only [Registry.insert, hfree, append]
  split <;> rfl

end Agrees

/-- Whatever a registry is asked: the keys that it gives out are different; a key
stands for a value exactly from the time when it was given out for it until it is
removed, and nothing that is about other keys changes that; removing what is not
there gives nothing and changes nothing; the count is the number of live keys; and
a value gets the index that was freed first of those that are free, or else the
next new one, unless there is none. -/
theorem replay_refines_map (requests : List (Request α)) :
    let history := (replay requests).1
    let r := (replay requests).2
    (issued history).Nodup ∧
    (∀ k a, r.get? k = some a ↔ Live history k a) ∧
    (∀ q k, (r.answer q).1.changed? ≠ some k → (r.answer q).2.get? k = r.get? k) ∧
    (∀ k a, Live history k a → (r.take k).1 = some a ∧ (r.remove k).get? k = none) ∧
    (∀ k, (∀ a, ¬Live history k a) → r.take k = (none, r)) ∧
    r.count = ((issued history).filter fun k => (r.get? k).isSome).length ∧
    (∀ i free, freed history = i :: free → ∀ a, ∃ g r', r.insert a = some (⟨i, g⟩, r')) ∧
    (freed history = [] → ∃ n, (∀ i, i < n ↔ ∃ k ∈ issued history, k.index = i) ∧
      ∀ a, (r.insert a).map Prod.fst = if n < keyBound then some ⟨n, 0⟩ else none) := by
  intro history r
  have h : Agrees history r := agrees_replay requests
  refine ⟨h.once, h.live, ?others, ?taken, ?absent, ?count, ?reused, ?next⟩
  case others =>
    intro q k hne
    -- none of the requests touches a key but its own
    cases q with
    | insert a =>
      simp only [answer] at hne ⊢
      split at hne
      · rename_i j r' hins
        exact get?_insert_other h.sound hins fun heq => hne (congrArg some heq.symm)
      · rfl
    | get j => rfl
    | remove j => exact get?_remove_other r fun heq => hne (congrArg some heq.symm)
  case taken =>
    intro k a hlive
    have ha := (h.live k a).mpr hlive
    exact ⟨(take_fst r k).trans ha, get?_remove_self r k⟩
  case absent =>
    intro k hnot
    have hnone : r.get? k = none := by
      cases ha : r.get? k with
      | none => rfl
      | some a => exact absurd ((h.live k a).mp ha) (hnot a)
    exact take_of_get?_eq_none hnone
  case count => rw [h.count, countLive, List.countP_eq_length_filter]
  case reused => exact fun i free hfree a => h.insert_of_freed hfree a
  case next =>
    exact fun hfree => ⟨r.slots.length, h.lt_length_iff hfree, h.insert_of_freed_eq_nil hfree⟩

/-- The index that was freed first is used again first, for its next generation. -/
example :
    ((replay [.insert 'a', .insert 'b', .remove ⟨1, 0⟩, .remove ⟨0, 0⟩, .remove ⟨0, 0⟩]).2.insert
      'c').map Prod.fst = some ⟨1, 1⟩ := rfl

/-! ### The registries of a run -/

/-- A registry comes about by requests. -/
def HasHistory (r : Registry α) : Prop := ∃ requests, (replay requests).2 = r

theorem hasHistory_empty : (empty : Registry α).HasHistory := ⟨[], rfl⟩

/-- Each step of a registry is a request, or nothing. -/
theorem HasHistory.steps {gone : Option Key} (h : r.HasHistory) (hsteps : r.Steps gone r') :
    r'.HasHistory := by
  obtain ⟨requests, rfl⟩ := h
  cases hsteps with
  | refl => exact ⟨requests, rfl⟩
  | @insert a k r' hins =>
    refine ⟨requests ++ [.insert a], ?_⟩
    rw [replay_concat]
    simp only [answer, hins]
  | remove k => exact ⟨requests ++ [.remove k], by rw [replay_concat]; rfl⟩

end Registry

/-- A run asks the registries of callbacks and of wrapped values, and does nothing
else to them. -/
theorem Moment.Reaches.haveHistories {γ : Type} {ok : Moment γ → Prop} {m m₁ : Moment γ}
    (h : Reaches ok m m₁) (hcallbacks : m.world.border.callbacks.HasHistory)
    (hproxies : m.world.border.proxies.HasHistory) :
    m₁.world.border.callbacks.HasHistory ∧ m₁.world.border.proxies.HasHistory := by
  induction h with
  | refl => exact ⟨hcallbacks, hproxies⟩
  | tail _ hgo ih =>
    have hsteps := hgo.2.registers
    exact ⟨ih.1.steps hsteps.callbacks, ih.2.steps hsteps.proxies⟩

/-- The callbacks and the wrapped values of a session come about by requests to new
registries, so that `Registry.replay_refines_map` tells what both are at each moment. -/
theorem Transcript.registries_have_histories {config : Config} {steps : List Step}
    {ok : Moment (List (Except Failure Answer × List Answer)) → Prop}
    {m : Moment (List (Except Failure Answer × List Answer))}
    (h : Moment.Reaches ok (start config steps) m) :
    m.world.border.callbacks.HasHistory ∧ m.world.border.proxies.HasHistory :=
  h.haveHistories Registry.hasHistory_empty Registry.hasHistory_empty

end Crossing
