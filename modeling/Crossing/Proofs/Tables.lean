import Crossing.Proofs.References
import Crossing.Proofs.StructuralEquality
import Mathlib.Data.Set.Card

/-!
# Hash tables

A hash table is a finite map modulo `equal`, whatever else the run does, as long as nobody
replaces a part of a key that the table has been given. What makes it one is that the table is
what its puts make of it, one after the other: a step of a run is a put, or it leaves the table
as it is and the comparisons of the keys too.

- `Heap.record`: the entries that puts make, `Heap.lookup?_record`, `Heap.ncard_classes`;
- `Moment.Records`: the puts that a run makes into a table;
- `Moment.Goes.table`: what a step does to a table;
- `World.IsMapOf`: what the functions of the host tell of a table, and what a put does to it;
- `Transcript.tables_are_finite_maps`: all of it of every table of every session.
-/

namespace Crossing

variable {α γ : Type} {h h₁ : Heap} {a : Addr} {key key' value : Obj}
  {entries puts : List (Obj × Obj)} {w w₁ : World}

/-! ### Entries -/

namespace Heap

/-- A put gives a new value to the first entry with an `equal` key, or there is none and the put
adds an entry. -/
theorem insertEntry_cases (h : Heap) (key value : Obj) (entries : List (Obj × Obj)) :
    (∃ before e after, entries = before ++ e :: after ∧ h.equal e.1 key = true ∧
      h.insertEntry key value entries = before ++ (e.1, value) :: after) ∨
    ((∀ e ∈ entries, h.equal e.1 key = false) ∧
      h.insertEntry key value entries = entries ++ [(key, value)]) := by
  induction entries with
  | nil => exact .inr ⟨List.forall_mem_nil _, rfl⟩
  | cons e rest ih =>
    cases he : h.equal e.1 key with
    | true => exact .inl ⟨[], e, rest, rfl, he, by simp only [insertEntry, he, if_true]; rfl⟩
    | false =>
      have hinsert : h.insertEntry key value (e :: rest) = e :: h.insertEntry key value rest := by
        simp only [insertEntry, he, Bool.false_eq_true, if_false]
      rw [hinsert]
      obtain ⟨before, e', after, rfl, he', hput⟩ | ⟨hnone, hput⟩ := ih
      · exact .inl ⟨e :: before, e', after, rfl, he', by rw [hput]; rfl⟩
      · exact .inr ⟨List.forall_mem_cons.mpr ⟨he, hnone⟩, by rw [hput]; rfl⟩

/-- The first entry whose key is equal is the one that is found. -/
theorem lookup?_cons (h : Heap) (key : Obj) (e : Obj × Obj) (rest : List (Obj × Obj)) :
    h.lookup? key (e :: rest) = if h.equal e.1 key then some e.2 else h.lookup? key rest := by
  rw [lookup?, List.find?_cons]
  cases h.equal e.1 key <;> rfl

/-- A put changes what is found for the `equal` keys, and for no others. -/
theorem lookup?_insertEntry (h : Heap) (key value key' : Obj) (entries : List (Obj × Obj)) :
    h.lookup? key' (h.insertEntry key value entries) =
      if h.equal key key' then some value else h.lookup? key' entries := by
  induction entries with
  | nil => exact lookup?_cons h key' (key, value) []
  | cons e rest ih =>
    rw [insertEntry, lookup?_cons h key' e]
    cases he : h.equal e.1 key with
    | true =>
      rw [if_pos rfl, lookup?_cons, equal_congr_left he key']
      cases h.equal key key' <;> rfl
    | false =>
      rw [if_neg Bool.false_ne_true, lookup?_cons, ih]
      by_cases he' : h.equal e.1 key' = true
      · -- the key of the entry is not `equal` to both keys
        have hne : ¬h.equal key key' = true := fun hkey => by
          rw [equal_congr_right hkey e.1, he'] at he
          cases he
        rw [if_pos he', if_neg hne, if_pos he']
      · rw [if_neg he', if_neg he']

/-- The entries that puts make, from the first to the last. -/
def record (h : Heap) (puts : List (Obj × Obj)) : List (Obj × Obj) :=
  puts.foldl (fun entries e => h.insertEntry e.1 e.2 entries) []

/-- The last entry that is put goes into what the others left. -/
theorem record_concat (h : Heap) (puts : List (Obj × Obj)) (e : Obj × Obj) :
    h.record (puts ++ [e]) = h.insertEntry e.1 e.2 (h.record puts) := by
  rw [record, List.foldl_append]
  rfl

/-- What is found is the value of the latest put with an `equal` key. -/
theorem lookup?_record (h : Heap) (puts : List (Obj × Obj)) (key : Obj) :
    h.lookup? key (h.record puts) = h.lookup? key puts.reverse := by
  induction puts using List.reverseRecOn with
  | nil => rfl
  | append_singleton puts e ih =>
    rw [record_concat, lookup?_insertEntry, ih, List.reverse_concat, lookup?_cons]

/-- Each key in a table was put as it is. The value need not be the one that it was put
with. -/
theorem exists_of_mem_record {e : Obj × Obj} (he : e ∈ h.record puts) :
    ∃ e' ∈ puts, e'.1 = e.1 := by
  -- the induction is on the entries, with the last one that was put taken off
  induction puts using List.reverseRecOn generalizing e with
  | nil => cases he
  | append_singleton puts f ih =>
    rw [record_concat] at he
    -- an equal key keeps its place, and a new one goes to the end
    obtain ⟨before, g, after, hsplit, -, hput⟩ | ⟨-, hput⟩ :=
      h.insertEntry_cases f.1 f.2 (h.record puts)
    · have hg : g.1 ∈ (h.record puts).map Prod.fst :=
        List.mem_map_of_mem (hsplit ▸ List.mem_append_right _ List.mem_cons_self)
      have hkey : e.1 ∈ (h.record puts).map Prod.fst := by
        rw [hput] at he
        rcases List.mem_append.mp he with he | he
        · exact List.mem_map_of_mem (hsplit ▸ List.mem_append_left _ he)
        · rcases List.mem_cons.mp he with rfl | he
          · exact hg
          · exact List.mem_map_of_mem
              (hsplit ▸ List.mem_append_right _ (List.mem_cons_of_mem _ he))
      obtain ⟨e', he', heq⟩ := List.mem_map.mp hkey
      obtain ⟨p, hp, hpe⟩ := ih he'
      exact ⟨p, List.mem_append_left _ hp, hpe.trans heq⟩
    · rw [hput] at he
      rcases List.mem_append.mp he with he | he
      · obtain ⟨p, hp, hpe⟩ := ih he
        exact ⟨p, List.mem_append_left _ hp, hpe⟩
      · obtain rfl := List.mem_singleton.mp he
        exact ⟨_, List.mem_append_right _ (List.mem_singleton_self _), rfl⟩

/-- Where an entry goes depends only on which keys are equal to its own. -/
theorem insertEntry_congr (hkeys : ∀ e ∈ entries, h₁.equal e.1 key = h.equal e.1 key) :
    h₁.insertEntry key value entries = h.insertEntry key value entries := by
  induction entries with
  | nil => rfl
  | cons e rest ih =>
    obtain ⟨he, hrest⟩ := List.forall_mem_cons.mp hkeys
    rw [insertEntry, insertEntry, he, ih hrest]

/-- Heaps that compare the keys alike make the same entries. -/
theorem record_congr (hkeys : ∀ e ∈ puts, ∀ e' ∈ puts, h₁.equal e.1 e'.1 = h.equal e.1 e'.1) :
    h₁.record puts = h.record puts := by
  induction puts using List.reverseRecOn with
  | nil => rfl
  | append_singleton puts e ih =>
    have hold : h₁.record puts = h.record puts := ih fun p hp p' hp' =>
      hkeys p (List.mem_append_left _ hp) p' (List.mem_append_left _ hp')
    rw [record_concat, record_concat, hold]
    refine insertEntry_congr fun p hp => ?_
    obtain ⟨p', hp', heq⟩ := exists_of_mem_record hp
    rw [← heq]
    exact hkeys p' (List.mem_append_left _ hp') e (List.mem_append_right _ (List.mem_singleton_self e))

/-! ### Classes -/

/-- The objects that an object is `equal` to. -/
def classOf (h : Heap) (o : Obj) : Set Obj := {p | h.equal o p = true}

/-- Equal keys are of one class. -/
theorem classOf_eq_of_equal (he : h.equal key key' = true) : h.classOf key = h.classOf key' :=
  Set.ext fun p => by
    change h.equal key p = true ↔ h.equal key' p = true
    rw [equal_congr_left he p]

/-- Keys without cycles are of one class only if they are equal. -/
theorem IsAcyclic.classOf_eq_iff (hkey : h.IsAcyclic key') :
    h.classOf key = h.classOf key' ↔ h.equal key key' = true := by
  refine ⟨fun heq => ?_, classOf_eq_of_equal⟩
  have hmem : key' ∈ h.classOf key' := hkey.equal_refl
  rw [← heq] at hmem
  exact hmem

/-- Entries have keys of different classes, and of those classes that have been put. -/
theorem classes_record (hkeys : ∀ e ∈ puts, h.IsAcyclic e.1) :
    ((h.record puts).map fun e => h.classOf e.1).Nodup ∧
      ∀ c, c ∈ (h.record puts).map (fun e => h.classOf e.1) ↔
        c ∈ h.classOf '' {key | ∃ value, (key, value) ∈ puts} := by
  induction puts using List.reverseRecOn with
  | nil =>
    refine ⟨.nil, fun c => ⟨nofun, ?_⟩⟩
    rintro ⟨key, ⟨value, hmem⟩, -⟩
    cases hmem
  | append_singleton puts e ih =>
    obtain ⟨hnodup, hmem⟩ := ih fun p hp => hkeys p (List.mem_append_left _ hp)
    have he : h.IsAcyclic e.1 := hkeys e (List.mem_append_right _ (List.mem_singleton_self e))
    have himage : ∀ c, c ∈ h.classOf '' {key | ∃ value, (key, value) ∈ puts ++ [e]} ↔
        c ∈ (h.record puts).map (fun p => h.classOf p.1) ∨ c = h.classOf e.1 := by
      intro c
      rw [hmem]
      constructor
      · rintro ⟨key, ⟨value, hput⟩, rfl⟩
        rcases List.mem_append.mp hput with hput | hput
        · exact .inl ⟨key, ⟨value, hput⟩, rfl⟩
        · obtain rfl := List.mem_singleton.mp hput
          exact .inr rfl
      · rintro (⟨key, ⟨value, hput⟩, rfl⟩ | rfl)
        · exact ⟨key, ⟨value, List.mem_append_left _ hput⟩, rfl⟩
        · exact ⟨e.1, ⟨e.2, List.mem_append_right _ (List.mem_singleton_self e)⟩, rfl⟩
    rw [record_concat]
    obtain ⟨before, p, after, hsplit, hp, hput⟩ | ⟨hnone, hput⟩ :=
      h.insertEntry_cases e.1 e.2 (h.record puts)
    · -- the keys are the same as before, and the class of the new key is among theirs
      have hsame : (h.insertEntry e.1 e.2 (h.record puts)).map (fun p => h.classOf p.1) =
          (h.record puts).map fun p => h.classOf p.1 := by
        rw [hput, hsplit, List.map_append, List.map_append]
        rfl
      have hclass : h.classOf e.1 ∈ (h.record puts).map fun p => h.classOf p.1 := by
        refine List.mem_map.mpr ⟨p, ?_, classOf_eq_of_equal hp⟩
        rw [hsplit]
        exact List.mem_append_right _ List.mem_cons_self
      rw [hsame]
      refine ⟨hnodup, fun c => ⟨fun hc => (himage c).mpr (.inl hc), fun hc => ?_⟩⟩
      rcases (himage c).mp hc with hc | rfl
      · exact hc
      · exact hclass
    · rw [hput, List.map_append]
      constructor
      · refine List.nodup_append.mpr ⟨hnodup, List.nodup_singleton _, ?_⟩
        rintro c hc _ hc' rfl
        obtain rfl := List.mem_singleton.mp hc'
        obtain ⟨p, hp, hclass⟩ := List.mem_map.mp hc
        have hequal := he.classOf_eq_iff.mp hclass
        rw [hnone p hp] at hequal
        cases hequal
      · intro c
        rw [himage, List.mem_append]
        exact or_congr_right List.mem_singleton

/-- There are as many entries as classes of keys have been put. -/
theorem ncard_classes (hkeys : ∀ e ∈ puts, h.IsAcyclic e.1) :
    (h.classOf '' {key | ∃ value, (key, value) ∈ puts}).ncard = (h.record puts).length := by
  classical
  obtain ⟨hnodup, hmem⟩ := classes_record hkeys
  have hset : h.classOf '' {key | ∃ value, (key, value) ∈ puts} =
      (((h.record puts).map fun e => h.classOf e.1).toFinset : Set (Set Obj)) := by
    ext c
    rw [List.coe_toFinset]
    exact (hmem c).symm
  rw [hset, Set.ncard_coe_finset, List.toFinset_card_of_nodup hnodup, List.length_map]

/-- A table is a cell with entries. -/
theorem entries?_iff : h.entries? (.ref a) = some entries ↔ h.get? a = some (.table entries) := by
  rw [entries?]
  cases ha : h.get? a with
  | none => simp [shape, ha]
  | some c => cases c <;> simp [shape_ref ha]

/-- An entry goes into the table that it is put into. -/
theorem get?_putEntry (ha : h.get? a = some (.table entries)) :
    (h.putEntry a key value).get? a = some (.table (h.insertEntry key value entries)) := by
  rw [putEntry, get?_modify_self, ha]
  rfl

end Heap

/-! ### Steps -/

/-- The key and the value that a change puts into a table. -/
def Change.put? (a : Addr) : Change α → Option (Obj × Obj)
  | .putEntry b key value => if b = a then some (key, value) else none
  | _ => none

section Steps

variable {m m₁ m₂ : Moment γ} {f : Cell → Cell} {b : Addr}

/-- A cell that is changed elsewhere leaves a table alone. -/
theorem Heap.table_modify (ht : h.get? a = some (.table entries))
    (hf : b = a → f (.table entries) = .table entries) :
    (h.modify b f).get? a = some (.table entries) := by
  by_cases hb : a = b
  · subst hb
    rw [get?_modify_self, ht, Option.map_some, hf rfl]
  · rw [get?_modify_other h f hb, ht]

/-- To bind variables leaves tables alone. -/
theorem Heap.table_bind (bindings : List (Addr × Obj)) (saved : List (Addr × Option Obj))
    (ht : h.get? a = some (.table entries)) :
    (h.bind bindings saved).2.get? a = some (.table entries) := by
  induction bindings generalizing h saved with
  | nil => exact ht
  | cons b bindings ih => exact ih _ (table_modify ht fun _ => rfl)

/-- To restore variables leaves tables alone. -/
theorem Heap.table_restore (saved : List (Addr × Option Obj))
    (ht : h.get? a = some (.table entries)) :
    (h.restore saved).get? a = some (.table entries) := by
  induction saved generalizing h with
  | nil => exact ht
  | cons s saved ih => exact ih (table_modify ht fun _ => rfl)

/-- A change that does not put anything into a table leaves it as it is. -/
theorem Change.table_run {c : Change α} (hc : c.put? a = none)
    (ht : w.host.heap.get? a = some (.table entries)) :
    (c.run w).2.host.heap.get? a = some (.table entries) := by
  have hallocate : ∀ c : Cell, (w.host.heap.allocate c).2.get? a = some (.table entries) :=
    fun c => (Heap.get?_allocate_of_lt c (Heap.lt_size_of_get? ht)).trans ht
  -- only a change of entries goes into a table; all others write elsewhere or not at all
  cases c with
  | make f => exact hallocate _
  | intern name =>
    simp only [run, World.onHost, Interpreter.intern]
    split
    · exact ht
    · split
      · exact ht
      · exact hallocate _
  | ensureBuffer name =>
    simp only [run, World.onHost, Interpreter.ensureBuffer]
    split
    · exact ht
    · exact hallocate _
  | retain o =>
    simp only [run, World.onHost, Interpreter.retain]
    split <;> exact ht
  | sweep =>
    change w.sweep.2.host.heap.get? a = _
    rw [World.heap_sweep, ht]
  | putEntry b key value =>
    refine Heap.table_modify ht fun hb => ?_
    rw [put?, if_pos hb] at hc
    cases hc
  | setHead _ _ | setValue _ _ | setFunction _ _ | setItem _ _ _ | killBuffer _
  | appendText _ _ => exact Heap.table_modify ht fun _ => rfl
  | unintern _ | selectBuffer _ | temporaryName | release _ => exact ht
  | _ => rw [host_run w trivial, ht]

/-- To enter a scope leaves tables alone. -/
theorem Scope.table_enter {s : Scope} {u : Undo} (h : s.enter w = .ok (u, w₁))
    (ht : w.host.heap.get? a = some (.table entries)) :
    w₁.host.heap.get? a = some (.table entries) := by
  obtain ⟨-, heq | ⟨bindings, heq⟩⟩ := Scope.enter_cases h
  · rw [heq, ht]
  · rw [heq]
    exact Heap.table_bind bindings [] ht

/-- To leave a scope leaves tables alone. -/
theorem Undo.table_run (u : Undo) (ht : w.host.heap.get? a = some (.table entries)) :
    (u.run w).host.heap.get? a = some (.table entries) := by
  cases u with
  | restore saved => exact Heap.table_restore saved ht
  | killAndSelect b c => exact Heap.table_modify ht fun _ => rfl
  | _ => exact ht

namespace Moment

/-- The key and the value that are about to be put into a table. -/
def put? (a : Addr) (m : Moment γ) : Option (Obj × Obj) :=
  match m.proc with
  | .act c _ => c.put? a
  | _ => none

/-- The entries of a table after the step that comes. -/
def entriesNext (a : Addr) (m : Moment γ) (entries : List (Obj × Obj)) : List (Obj × Obj) :=
  match m.put? a with
  | some (key, value) => m.world.host.heap.insertEntry key value entries
  | none => entries

/-- A change leaves the entries of a table alone, unless it puts one there. -/
theorem table_act {c : Change α} (ht : w.host.heap.get? a = some (.table entries)) :
    (c.run w).2.host.heap.get? a = some (.table (match c.put? a with
      | some (key, value) => w.host.heap.insertEntry key value entries
      | none => entries)) := by
  cases hput : c.put? a with
  | none => exact c.table_run hput ht
  | some e =>
    cases c with
    | putEntry b key value =>
      rw [Change.put?] at hput
      split_ifs at hput with hb
      subst hb
      cases hput
      exact Heap.get?_putEntry ht
    | _ => cases hput

/-- A step puts something into a table, or leaves the table as it is. -/
theorem Goes.table (h : Goes m m₁) (ht : m.world.host.heap.get? a = some (.table entries)) :
    m₁.world.host.heap.get? a = some (.table (m.entriesNext a entries)) := by
  cases h with
  | sweep hsafe =>
    have hnone : m.entriesNext a entries = entries := by
      unfold entriesNext put?
      unfold isSafepoint at hsafe
      cases hproc : m.proc with
      | act c next =>
        rw [hproc] at hsafe
        cases hsafe
      | _ => rfl
    change m.world.sweep.2.host.heap.get? a = _
    rw [World.heap_sweep, hnone, ht]
  | next h =>
    obtain ⟨p, k, w⟩ := m
    cases p with
    | act c next =>
      cases h
      exact table_act ht
    | _ =>
      change m₁.world.host.heap.get? a = some (.table entries)
      obtain heq | ⟨β, c, next, hproc, -⟩ | ⟨s, u, hs⟩ | ⟨u, heq⟩ := world_cases h
      · rw [heq, ht]
      · cases hproc
      · exact Scope.table_enter hs ht
      · rw [heq]
        exact u.table_run ht

/-! ### Runs -/

/-- A run makes puts into a table, from the first to the last, and nobody replaces a part of a
key that has been put, or of its parts. -/
inductive Records (a : Addr) (m : Moment γ) : List (Obj × Obj) → Moment γ → Prop where
  | start : Records a m [] m
  | step {puts : List (Obj × Obj)} {m₁ m₂ : Moment γ} (h : Records a m puts m₁)
    (hkeys : ∀ e ∈ puts, ∀ b, m₁.world.host.heap.Inside e.1 (.ref b) → m₁.Spares [b])
    (hgo : m₁.Goes m₂) : Records a m (puts ++ (m₁.put? a).toList) m₂

/-- Whether what is about to be done replaces no part of any pair or vector. -/
def isMild (m : Moment γ) : Bool :=
  match m.proc with
  | .act (.setHead _ _) _ | .act (.setItem _ _ _) _ => false
  | _ => true

/-- A mild moment writes to no pair or vector, and so spares them all. -/
theorem spares_of_isMild {spared : List Addr} (hm : m.isMild = true) : m.Spares spared := by
  unfold Spares
  unfold isMild at hm
  split
  · rename_i c _ hproc
    rw [hproc] at hm
    cases c with
    | setHead b o | setItem b i o => cases hm
    | _ => trivial
  · trivial

/-- The puts of the steps that come. -/
def putsFor (a : Addr) : (n : Nat) → Moment γ → List (Obj × Obj)
  | 0, _ => []
  | n + 1, m =>
    match m.next with
    | some m' => (m.put? a).toList ++ m'.putsFor a n
    | none => []

/-- Whether the steps that come replace no part of any pair or vector. -/
def isMildFor : (n : Nat) → Moment γ → Bool
  | 0, _ => true
  | n + 1, m => m.isMild && match m.next with
    | some m' => m'.isMildFor n
    | none => true

/-- The record goes on with what a run puts. The induction is on the number of steps. -/
theorem Records.after {n : Nat} (h : m.Records a puts m₁) (hmild : m₁.isMildFor n = true) :
    m.Records a (puts ++ m₁.putsFor a n) (m₁.after n) := by
  induction n generalizing puts m₁ with
  | zero =>
    rw [putsFor, List.append_nil]
    exact h
  | succ n ih =>
    obtain ⟨hm, hrest⟩ := Bool.and_eq_true_iff.mp hmild
    cases hnext : m₁.next with
    | none =>
      rw [putsFor, Moment.after, hnext, List.append_nil]
      exact h
    | some m₂ =>
      rw [hnext] at hrest
      rw [putsFor, Moment.after, hnext, ← List.append_assoc]
      exact ih (h.step (fun _ _ _ _ => spares_of_isMild hm) (.next hnext)) hrest

theorem Records.reaches (h : m.Records a puts m₁) : Reaches (fun _ => True) m m₁ := by
  induction h with
  | start => exact .refl
  | step _ _ hgo ih => exact ih.tail ⟨trivial, hgo⟩

/-- What is about to be put refers to cells of the heap. -/
theorem Below.put? {n : Nat} {e : Obj × Obj} (hm : m.Below n) (he : m.put? a = some e) :
    e.1.Below n := by
  obtain ⟨p, k, w⟩ := m
  obtain ⟨⟨Q, hp, -⟩, -⟩ := hm
  unfold Moment.put? at he
  cases p with
  | act c next =>
    cases c with
    | putEntry b key value =>
      have hput : (Change.putEntry b key value).put? a = some e := he
      rw [Change.put?] at hput
      split_ifs at hput
      cases hput
      exact hp.1.1
    | _ => cases he
  | _ => cases he

/-- A put replaces no part of an object. -/
theorem spares_of_put? {e : Obj × Obj} {spared : List Addr} (he : m.put? a = some e) :
    m.Spares spared := by
  obtain ⟨p, k, w⟩ := m
  unfold Moment.put? at he
  cases p with
  | act c next =>
    cases c with
    | putEntry b key value => trivial
    | _ => cases he
  | _ => cases he

end Moment

end Steps

/-! ### Sessions -/

namespace Transcript

variable {config : Config} {steps : List Step}
  {m m₁ m₂ : Moment (List (Except Failure Answer × List Answer))}

/-- The keys of a table refer to cells of the heap. -/
theorem below_of_records (hr : Moment.Reaches (fun _ => True) (start config steps) m)
    (hputs : m.Records a puts m₁) : ∀ e ∈ puts, e.1.Below m₁.world.host.heap.size := by
  induction hputs with
  | start => exact List.forall_mem_nil _
  | @step puts m₁ m₂ hputs _ hgo ih =>
    have hgrows := (hgo.develops m₁.spares_nil).size_le
    have hbelow := below_of_reaches (hr.trans hputs.reaches)
    refine List.forall_mem_append.mpr ⟨fun e he => (ih e he).mono hgrows, fun e he => ?_⟩
    exact (hbelow.put? (Option.mem_toList.mp he)).mono hgrows

/-- A step leaves the keys as they are, that of a put among them. -/
theorem untouched_of_records (hr : Moment.Reaches (fun _ => True) (start config steps) m)
    (hputs : m.Records a puts m₁)
    (hkeys : ∀ e ∈ puts, ∀ b, m₁.world.host.heap.Inside e.1 (.ref b) → m₁.Spares [b])
    (hgo : m₁.Goes m₂) : ∀ e ∈ puts ++ (m₁.put? a).toList,
      m₁.world.host.heap.Untouched m₂.world.host.heap e.1 := by
  have hbelow := below_of_reaches (hr.trans hputs.reaches)
  have huntouched : ∀ e : Obj × Obj, e.1.Below m₁.world.host.heap.size →
      (∀ b, m₁.world.host.heap.Inside e.1 (.ref b) → m₁.Spares [b]) →
      m₁.world.host.heap.Untouched m₂.world.host.heap e.1 := fun e he hspares =>
    Heap.untouched_of_develops (fun b hb => Heap.below_of_inside hb hbelow.host.heap he)
      fun b hb => hgo.develops (hspares b hb)
  refine List.forall_mem_append.mpr ⟨fun e he => ?_, fun e he => ?_⟩
  · exact huntouched e (below_of_records hr hputs e he) (hkeys e he)
  · have hput := Option.mem_toList.mp he
    exact huntouched e (hbelow.put? hput) fun _ _ => Moment.spares_of_put? hput

/-- In a session, a table is what its puts have made of it. -/
theorem table_of_records (hr : Moment.Reaches (fun _ => True) (start config steps) m)
    (hnew : m.world.host.heap.get? a = some (.table [])) (hputs : m.Records a puts m₁)
    (hend : ∀ e ∈ puts, m₁.world.host.heap.IsAcyclic e.1) :
    m₁.world.host.heap.get? a = some (.table (m₁.world.host.heap.record puts)) := by
  induction hputs with
  | start => exact hnew
  | @step puts m₁ m₂ hputs hkeys hgo ih =>
    have huntouched := untouched_of_records hr hputs hkeys hgo
    have hend₁ : ∀ e ∈ puts ++ (m₁.put? a).toList, m₁.world.host.heap.IsAcyclic e.1 :=
      fun e he => (huntouched e he).isAcyclic_iff.mp (hend e he)
    -- both heaps compare the keys alike, so that they make the same entries of the puts
    have hsame : m₂.world.host.heap.record (puts ++ (m₁.put? a).toList) =
        m₁.world.host.heap.record (puts ++ (m₁.put? a).toList) :=
      Heap.record_congr fun e he e' he' =>
        (huntouched e he).equal_eq (huntouched e' he') (hend₁ e he)
    rw [hsame, hgo.table (ih fun e he => hend₁ e (List.mem_append_left _ he)),
      Moment.entriesNext]
    cases m₁.put? a with
    | none => rw [Option.toList_none, List.append_nil]
    | some e => rw [Option.toList_some, Heap.record_concat]

end Transcript

/-! ### Finite maps -/

namespace Heap

/-- The value of the latest put with an `equal` key. -/
def latest? (h : Heap) (key : Obj) (puts : List (Obj × Obj)) : Option Obj :=
  (puts.reverse.find? fun e => h.equal e.1 key).map Prod.snd

/-- Two lists of entries are the same but for the value of an entry with an `equal` key. -/
def Replaces (h : Heap) (key value : Obj) (entries entries' : List (Obj × Obj)) : Prop :=
  ∃ before e after, entries = before ++ e :: after ∧ h.equal e.1 key = true ∧
    entries' = before ++ (e.1, value) :: after

/-- A key is in the record if one equal to it was put. -/
theorem exists_mem_record_iff : (∃ e ∈ h.record puts, h.equal e.1 key = true) ↔
    ∃ e ∈ puts, h.equal e.1 key = true := by
  have hfound : ∀ entries : List (Obj × Obj), (h.lookup? key entries).isSome = true ↔
      ∃ e ∈ entries, h.equal e.1 key = true := fun entries => by
    rw [lookup?, Option.isSome_map, List.find?_isSome]
  rw [← hfound, lookup?_record, hfound]
  simp only [List.mem_reverse]

end Heap

/-- The table at an address is the finite map modulo `equal` that puts make. A lookup gives the
value of the latest put with an `equal` key, or else the default. The count is the number of
classes of keys. A put with a key of one of these classes replaces the value of the entry of the
class and nothing else, and any other put adds an entry at the end. -/
structure World.IsMapOf (w : World) (a : Addr) (puts : List (Obj × Obj)) : Prop where
  get : ∀ key default, (Builtin.getEntry.run [key, .ref a, default]).Gives 0 w
    (.ok ((w.host.heap.latest? key puts).getD default)) w
  getOrNil : ∀ key, (Builtin.getEntry.run [key, .ref a]).Gives 0 w
    (.ok ((w.host.heap.latest? key puts).getD .nil)) w
  lookupKey : ∀ key, (Builtin.lookupKey.run [.ref a, key]).Gives 0 w
    (.ok ((w.host.heap.latest? key puts).getD .nil)) w
  count : (Builtin.countEntries.run [.ref a]).Gives 0 w (.ok (.int (.ofNat
    (w.host.heap.classOf '' {key | ∃ value, (key, value) ∈ puts}).ncard))) w
  put : ∀ key value, ∃ w₁ entries entries',
    (Builtin.putEntry.run [key, value, .ref a]).Gives 0 w (.ok value) w₁ ∧
    (Builtin.defineKey.run [.ref a, key, value]).Gives 0 w (.ok value) w₁ ∧
    (∀ b, b ≠ a → w₁.host.heap.get? b = w.host.heap.get? b) ∧
    w.host.heap.entries? (.ref a) = some entries ∧
    w₁.host.heap.entries? (.ref a) = some entries' ∧
    ((∃ e ∈ puts, w.host.heap.equal e.1 key = true) →
      w.host.heap.Replaces key value entries entries') ∧
    ((¬∃ e ∈ puts, w.host.heap.equal e.1 key = true) → entries' = entries ++ [(key, value)])

namespace Host

open Proc

variable {predicate : String} {default : Obj}

/-- A table is taken as one. -/
theorem asTable_eq (ha : h.get? a = some (.table entries)) :
    h.asTable predicate (.ref a) = .ok (a, entries) := by
  simp only [Heap.asTable, Heap.entries?_iff.mpr ha]

/-- To look a key up gives the entry found, or the default. -/
theorem gives_getEntry (ha : w.host.heap.get? a = some (.table entries)) :
    (getEntry predicate key (.ref a) default).Gives 0 w
      (.ok ((w.host.heap.lookup? key entries).getD default)) w := by
  refine gives_check_bind (asTable_eq ha) ?_
  exact gives_pure _

/-- To count gives the number of entries. -/
theorem gives_countEntries (ha : w.host.heap.get? a = some (.table entries)) :
    (countEntries (.ref a)).Gives 0 w (.ok (.int (.ofNat entries.length))) w := by
  refine gives_check_bind (asTable_eq ha) ?_
  exact gives_pure _

/-- To put an entry gives its value, and changes the table. -/
theorem gives_putEntry (ha : w.host.heap.get? a = some (.table entries)) :
    (putEntry predicate key value (.ref a)).Gives 0 w (.ok value)
      ((Change.putEntry a key value).run w).2 := by
  refine gives_check_bind (asTable_eq ha) ?_
  exact gives_change_bind (gives_pure _)

end Host

/-- A table with the entries that puts make is the finite map that they make. -/
theorem World.isMapOf_of_record (hkeys : ∀ e ∈ puts, w.host.heap.IsAcyclic e.1)
    (ha : w.host.heap.get? a = some (.table (w.host.heap.record puts))) : w.IsMapOf a puts := by
  have hlatest : ∀ key, w.host.heap.latest? key puts =
      w.host.heap.lookup? key (w.host.heap.record puts) := fun key =>
    (w.host.heap.lookup?_record puts key).symm
  -- what is looked up, what is put, and what is counted
  refine ⟨fun key default => ?_, fun key => ?_, fun key => ?_, ?_, fun key value => ?_⟩
  · rw [hlatest]
    exact Host.gives_getEntry ha
  · rw [hlatest]
    exact Host.gives_getEntry ha
  · rw [hlatest]
    exact Host.gives_getEntry ha
  · rw [Heap.ncard_classes hkeys]
    exact Host.gives_countEntries ha
  · refine ⟨((Change.putEntry a key value).run w).2, w.host.heap.record puts,
      w.host.heap.insertEntry key value (w.host.heap.record puts), Host.gives_putEntry ha,
      Host.gives_putEntry ha, fun b hb => Heap.get?_modify_other _ _ hb, Heap.entries?_iff.mpr ha,
      Heap.entries?_iff.mpr (Heap.get?_putEntry ha), ?_⟩
    rw [← Heap.exists_mem_record_iff]
    -- an equal key gets the new value, and a new one comes at the end
    obtain ⟨before, e, after, hsplit, he, hput⟩ | ⟨hnone, hput⟩ :=
      w.host.heap.insertEntry_cases key value (w.host.heap.record puts)
    · have hmem : e ∈ w.host.heap.record puts :=
        hsplit ▸ List.mem_append_right _ List.mem_cons_self
      exact ⟨fun _ => ⟨before, e, after, hsplit, he, hput⟩, fun hnot => absurd ⟨e, hmem, he⟩ hnot⟩
    · refine ⟨fun ⟨e, hmem, he⟩ => ?_, fun _ => hput⟩
      rw [hnone e hmem] at he
      cases he

namespace Transcript

variable {config : Config} {steps : List Step}
  {m m₁ : Moment (List (Except Failure Answer × List Answer))}

/-- Hash tables are finite maps modulo `equal`. On objects that do not contain themselves,
`equal` is an equivalence, and objects that are `eq` are `equal`. In every session, a table that
was empty at some moment is, at any later moment, the finite map that the puts in between make,
if the keys do not contain themselves and nobody has replaced a part of them since they were
put. -/
theorem tables_are_finite_maps
    (hr : Moment.Reaches (fun _ => True) (start config steps) m)
    (hnew : m.world.host.heap.entries? (.ref a) = some []) (hputs : m.Records a puts m₁)
    (hend : ∀ e ∈ puts, m₁.world.host.heap.IsAcyclic e.1) :
    (∀ h : Heap, (Equivalence fun o p : {o // h.IsAcyclic o} => h.equal o p = true) ∧
      ∀ o p, h.IsAcyclic o → o.eq p = true → h.equal o p = true) ∧
    m₁.world.IsMapOf a puts := by
  refine ⟨fun h => ⟨⟨fun o => o.2.equal_refl, Heap.equal_symm, Heap.equal_trans⟩,
    fun o p ho => ho.equal_of_eq⟩, ?_⟩
  exact World.isMapOf_of_record hend (table_of_records hr (Heap.entries?_iff.mp hnew) hputs hend)

/-- A session that has the host make a table of three entries, two of them of one string. -/
def tableMade : Moment (List (Except Failure Answer × List Answer)) :=
  start .standard
    [.mk (.table [(.text "k", .null), (.text "k", .bool true), (.text "j", .null)]) none false]

/-- The second string is another object than the first one, and its value is what is found. -/
theorem tables_are_finite_maps_made :
    ((tableMade.after 38).after 95).world.IsMapOf 157
      [(.ref 158, .nil), (.ref 159, .ref 1), (.ref 160, .nil)] ∧
    ((tableMade.after 38).after 95).world.host.heap.latest? (.ref 158)
      [(.ref 158, .nil), (.ref 159, .ref 1), (.ref 160, .nil)] = some (.ref 1) := by
  obtain ⟨hnew, hmild, hputs, hparts, hlatest⟩ :
      (tableMade.after 38).world.host.heap.entries? (.ref 157) = some [] ∧
      (tableMade.after 38).isMildFor 95 = true ∧
      [] ++ (tableMade.after 38).putsFor 157 95 =
        [(.ref 158, .nil), (.ref 159, .ref 1), (.ref 160, .nil)] ∧
      (∀ e ∈ [(Obj.ref 158, Obj.nil), (.ref 159, .ref 1), (.ref 160, .nil)],
        ((tableMade.after 38).after 95).world.host.heap.parts e.1 = []) ∧
      ((tableMade.after 38).after 95).world.host.heap.latest? (.ref 158)
        [(.ref 158, .nil), (.ref 159, .ref 1), (.ref 160, .nil)] = some (.ref 1) := by
    rw [tableMade, start_eq]
    decide +kernel
  have hrecords := (Moment.Records.start (a := 157) (m := tableMade.after 38)).after hmild
  rw [hputs] at hrecords
  have hreaches : Moment.Reaches (fun _ => True) tableMade (tableMade.after 38) :=
    Moment.reaches_after fun _ _ => trivial
  have hmap := tables_are_finite_maps hreaches hnew hrecords fun e he => ⟨0, hparts e he⟩
  exact ⟨hmap.2, hlatest⟩

end Transcript

end Crossing
