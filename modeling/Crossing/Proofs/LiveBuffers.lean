import Crossing.Proofs.CurrentBuffers

/-!
# Live buffers

Whether a buffer lives is known in two places: the buffer itself says so, and the heap lists the
buffers that live. Both change when a buffer is opened and when one is killed, which a program
can do from inside of scopes that kill a buffer at their end. The two never disagree, and who
has been killed stays so. So a name means one buffer, or none.

- `Heap.Killed`, `Moment.Goes.killed`: a buffer that has been killed, and stays so;
- `World.MeansBuffer`: what the host functions take a name for;
- `World.meansBuffer`: where the buffers that live are listed, a name means the one that it finds;
- `Transcript.live_buffers_are_listed`: so it is in all sessions.
-/

namespace Crossing

open Proc

variable {γ : Type} {w : World} {a : Addr} {o : Obj} {name : String}

/-! ### Killed buffers -/

namespace Heap

variable {h h₁ : Heap}

/-- There is a buffer of a name that has been killed. -/
def Killed (h : Heap) (a : Addr) (name : String) : Prop :=
  ∃ text, h.get? a = some (.buffer name text false)

/-- A buffer that was killed lives under no name. -/
theorem Killed.not_lives {n : String} (ha : h.Killed a name) : ¬h.Lives a n := by
  obtain ⟨text, ha⟩ := ha
  rintro ⟨text', ha'⟩
  rw [ha] at ha'
  cases ha'

/-- A buffer that was killed has an address in use. -/
theorem Killed.lt_size (ha : h.Killed a name) : a < h.size := by
  obtain ⟨text, ha⟩ := ha
  exact lt_size_of_get? ha

/-- A buffer that was killed stays so as the heap grows. -/
theorem Killed.grown (ha : h.Killed a name) (hg : h.GrowsTo h₁) : h₁.Killed a name := by
  obtain ⟨text, ha⟩ := ha
  exact ⟨text, hg.cell ha⟩

theorem Lives.killed_kill (ha : h.Lives a name) : (h.kill a).Killed a name := by
  obtain ⟨text, ha⟩ := ha
  refine ⟨text, ?_⟩
  rw [get?_kill, get?_modify_self, ha]
  rfl

/-- A buffer is always a buffer of its name. -/
theorem Develops.buffer {text : String} {live : Bool} (hd : h.Develops [] h₁)
    (ha : h.get? a = some (.buffer name text live)) : h₁.Lives a name ∨ h₁.Killed a name := by
  obtain ⟨c, hc, hfixed⟩ := hd.cell ha
  cases c with
  | buffer name' text' live' =>
    cases hfixed
    cases live' with
    | true => exact .inl ⟨text', hc⟩
    | false => exact .inr ⟨text', hc⟩
  | _ => cases hfixed

end Heap

namespace Moment

variable {m m' : Moment γ}

/-- No step brings a killed buffer to life: one that is opened has not been there before. -/
theorem Goes.killed (h : Goes m m') (ha : m.world.host.heap.Killed a name) :
    m'.world.host.heap.Killed a name := by
  obtain ⟨text, hcell⟩ := id ha
  rcases (h.develops m.spares_nil).buffer hcell with hlives | hkilled
  · rcases h.lives hlives with hold | ⟨-, hnew⟩
    · exact absurd hold ha.not_lives
    · exact absurd ha.lt_size (hnew ▸ Nat.lt_irrefl _)
  · exact hkilled

/-- A buffer that was killed never lives again. -/
theorem Reaches.killed {ok : Moment γ → Prop} (h : Reaches ok m m')
    (ha : m.world.host.heap.Killed a name) : m'.world.host.heap.Killed a name := by
  induction h with
  | refl => exact ha
  | tail _ hgo ih => exact hgo.2.killed ih

end Moment

/-! ### What a name means -/

/-- What the host functions take a name for: the one live buffer of that name, or none. A string
of the name gets that buffer as an argument, so it can be made current. To look it up gives it too,
and to have it made gives it unless there is none; then it is new. When it has been killed, there
is none. -/
structure World.MeansBuffer (w : World) (name : String) (found : Option Addr) : Prop where
  lives_iff : ∀ a, w.host.heap.Lives a name ↔ found = some a
  argument : ∀ o, w.host.heap.text? o = some name →
    w.host.heap.asBuffer o = found.elim (.error (.noSuchBuffer name)) .ok
  get : ∀ o, w.host.heap.text? o = some name →
    (Builtin.getBuffer.run [o]).Gives 0 w (.ok (found.elim .nil .ref)) w
  create : ∀ o, w.host.heap.text? o = some name → ∃ a w₁,
    (Builtin.createBuffer.run [o]).Gives 0 w (.ok (.ref a)) w₁ ∧ w₁.host.heap.Lives a name ∧
      (found = some a ∧ w₁ = w ∨ found = none ∧ w.host.heap.size ≤ a)
  select : ∀ o a, w.host.heap.text? o = some name → found = some a →
    (Builtin.selectBuffer.run [o]).Gives 0 w (.ok (.ref a)) (w.selecting a)
  kill : ∀ o a, w.host.heap.text? o = some name → found = some a → ∃ r w₁,
    (Builtin.killBuffer.run [o]).Gives 0 w (.ok r) w₁ ∧ w₁.host.heap.Killed a name ∧
      ∀ b, ¬w₁.host.heap.Lives b name

/-- A text is taken as one. -/
theorem Heap.asText_of_text {h : Heap} (ho : h.text? o = some name) : h.asText o = .ok name := by
  rw [Heap.asText, ho]

/-- A text is taken as a buffer if it names one. -/
theorem Heap.asBuffer_of_text {h : Heap} (ho : h.text? o = some name) :
    h.asBuffer o = (h.findBuffer? name).elim (.error (.noSuchBuffer name)) .ok := by
  unfold Heap.text? at ho
  split at ho
  · rename_i hshape
    cases ho
    obtain ⟨b, rfl, -⟩ := Heap.exists_ref_of_shape hshape
    simp only [Heap.asBuffer, hshape]
    cases h.findBuffer? name <;> rfl
  · cases ho

namespace Host

/-- The host finds a buffer by its name, or gives the empty list. -/
theorem gives_getBuffer (ho : w.host.heap.text? o = some name) :
    (getBuffer o).Gives 0 w (.ok ((w.host.heap.findBuffer? name).elim .nil .ref)) w := by
  refine gives_check_bind (Heap.asText_of_text ho) ?_
  cases w.host.heap.findBuffer? name with
  | none => exact gives_pure _
  | some a => exact gives_pure _

/-- The host finds or makes a buffer by its name. -/
theorem gives_createBuffer (ho : w.host.heap.text? o = some name) :
    (createBuffer o).Gives 0 w (.ok (.ref (w.host.ensureBuffer name).1))
      ((Change.ensureBuffer name).run w).2 := by
  refine gives_check_bind (Heap.asText_of_text ho) ?_
  exact gives_change_bind (gives_pure _)

/-- The host selects a buffer. -/
theorem gives_selectBuffer (ha : w.host.heap.asBuffer o = .ok a) :
    (selectBuffer o).Gives 0 w (.ok (.ref a)) (w.selecting a) := by
  refine gives_check_bind ha ?_
  exact gives_change_bind (gives_pure _)

/-- The host kills a buffer. -/
theorem gives_killBuffer (ha : w.host.heap.asBuffer o = .ok a) :
    (killBuffer (some o)).Gives 0 w
      (.ok ((Change.intern truthName).run ((Change.killBuffer a).run w).2).1)
      ((Change.intern truthName).run ((Change.killBuffer a).run w).2).2 := by
  have hargument : (bufferOr (some o)).Gives 0 w (.ok a) w := by
    refine gives_query_bind ?_
    change (check (w.host.heap.asBuffer o)).Gives 0 w _ w
    rw [ha]
    exact gives_pure a
  exact hargument.bind (gives_change_bind (gives_change _))

end Host

/-- A text that names a buffer is taken as that. -/
theorem Heap.asBuffer_of_findBuffer? {h : Heap} (ho : h.text? o = some name)
    (ha : h.findBuffer? name = some a) : h.asBuffer o = .ok a := by
  rw [asBuffer_of_text ho, ha]
  rfl

/-- Where the buffers that live are listed, a name means the one that it finds. -/
theorem World.meansBuffer (hl : w.host.heap.ListsBuffers) (name : String) :
    w.MeansBuffer name (w.host.heap.findBuffer? name) where
  lives_iff a := hl.findBuffer?_iff.symm
  argument o ho := Heap.asBuffer_of_text ho
  get o ho := Host.gives_getBuffer ho
  create o ho := by
    refine ⟨_, _, Host.gives_createBuffer ho, w.host.lives_ensureBuffer name, ?_⟩
    obtain ⟨a, hfind, heq⟩ | ⟨hnone, heq⟩ := w.host.ensureBuffer_cases name
    · rw [Change.run, World.onHost, heq]
      exact .inl ⟨hfind, rfl⟩
    · rw [heq]
      exact .inr ⟨hnone, Nat.le_refl _⟩
  select o a ho hfind := Host.gives_selectBuffer (Heap.asBuffer_of_findBuffer? ho hfind)
  kill o a ho hfind := by
    have hlives : w.host.heap.Lives a name := Heap.lives_of_findBuffer? hfind
    -- the symbol that is given is made anew if it is interned no more
    have hgrown := (Interpreter.growsTo_intern ((Change.killBuffer a).run w).2.host truthName).heap
    refine ⟨_, _, Host.gives_killBuffer (Heap.asBuffer_of_findBuffer? ho hfind),
      hlives.killed_kill.grown hgrown, fun b hb => ?_⟩
    obtain ⟨hold, hne⟩ := Heap.lives_kill_iff.mp (hgrown.sameBuffers.lives_iff.mp hb)
    exact hne (hl.names b a name hold hlives)

/-! ### Sessions -/

namespace Transcript

open Moment

/-- At every moment of every session: the heap lists the buffers that live, and no two of them have
one name. One that has been killed is dead at any later moment. So each name means the one live
buffer that has it, or none. -/
theorem live_buffers_are_listed (config : Config) (steps : List Step)
    {m : Moment (List (Except Failure Answer × List Answer))}
    (hm : Reaches (fun _ => True) (start config steps) m) :
    m.world.host.heap.ListsBuffers ∧
      (∀ a name m', m.world.host.heap.Killed a name → Reaches (fun _ => True) m m' →
        m'.world.host.heap.Killed a name) ∧
      ∀ name, ∃ found, m.world.MeansBuffer name found := by
  have hl : m.world.host.heap.ListsBuffers :=
    hm.becomes.listsBuffers Interpreter.listsBuffers_initial
  exact ⟨hl, fun a name m' ha hm' => hm'.killed ha, fun name => ⟨_, World.meansBuffer hl name⟩⟩

/-- A program that kills the temporary buffer that it is in and makes one of the same name. Then it
fails, and the end of the form kills the temporary buffer once more. -/
def remaking : Moment (List (Except Failure Answer × List Answer)) :=
  start .standard [.mk (.runSource
    "(with-temp-buffer (kill-buffer) (get-buffer-create \" *temp*\") (car 1))") none false]

/-- When the form has ended the first buffer is still dead, and the name means the second one. -/
theorem live_buffers_are_listed_remade :
    ((remaking.after 35).after 45).world.host.heap.Killed 167 " *temp*" ∧
      (Builtin.getBuffer.run [.ref 158]).Gives 0 ((remaking.after 35).after 45).world
        (.ok (.ref 168)) ((remaking.after 35).after 45).world ∧
      ((remaking.after 35).after 45).world.host.heap.asBuffer (.ref 158) = .ok 168 := by
  have hfacts :
      (remaking.after 35).world.host.heap.get? 167 = some (.buffer " *temp*" "" false) ∧
      ((remaking.after 35).after 45).world.host.heap.get? 168 =
        some (.buffer " *temp*" "" true) ∧
      ((remaking.after 35).after 45).world.host.heap.text? (.ref 158) = some " *temp*" := by
    rw [remaking, start_eq]
    decide +kernel
  obtain ⟨hdead, hlives, htext⟩ := hfacts
  -- the buffer is killed in the first part of the session, and one of its name made in the second
  have hkilled : Reaches (fun _ => True) remaking (remaking.after 35) :=
    reaches_after fun _ _ => trivial
  have hended : Reaches (fun _ => True) (remaking.after 35) ((remaking.after 35).after 45) :=
    reaches_after fun _ _ => trivial
  obtain ⟨-, hstays, -⟩ := live_buffers_are_listed .standard _ hkilled
  obtain ⟨-, -, hmeans⟩ := live_buffers_are_listed .standard _ (hkilled.trans hended)
  obtain ⟨found, hfound⟩ := hmeans " *temp*"
  obtain rfl : found = some 168 := (hfound.lives_iff 168).mp ⟨"", hlives⟩
  exact ⟨hstays 167 _ _ ⟨"", hdead⟩ hended, hfound.get _ htext, hfound.argument _ htext⟩

end Transcript

end Crossing
