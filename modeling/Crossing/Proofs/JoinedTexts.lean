import Crossing.Proofs.Phrases
import Crossing.Proofs.PrintedObjects

/-!
# Texts that are joined

A text that the reader accepts and another one on a new line are read like the one text and
then the other: the forms come one after the other, and so does what is wrong with the second
text. The host makes the same objects of the joined text, and where it reads that text later,
objects that are `equal` to them.

- `Form.readAll_line`, `Form.readAll_line_error`: what is read of the joined text;
- `Interpreter.exists_within_of_means`: what is read is a finite tree;
- `Host.read_line`: the host reads the joined text by reading one text after the other;
- `Host.reading_is_compositional`: all of it together.
-/

namespace Crossing

/-! ### Forms -/

namespace Form

variable {fs gs : List Form} {halt : Halt} {text more : String}

/-- An accepted text is scanned to its end before what comes on the next line. -/
theorem scan_line_of_accepted (h : readAll text = .ok fs) (more : String) :
    Token.scan (text ++ "\n" ++ more).toList = Token.scan text.toList ++ Token.scan more.toList := by
  have hwhole := (readAll_eq_ok_iff.mp h).isWhole
  rw [String.toList_append, String.toList_append, List.append_assoc]
  exact Token.scan_line hwhole more.toList

/-- Accepted texts on lines of their own are accepted together, with the forms of both. -/
theorem readAll_line (h : readAll text = .ok fs) (hmore : readAll more = .ok gs) :
    readAll (text ++ "\n" ++ more) = .ok (fs ++ gs) := by
  refine readAll_eq_ok_iff.mpr ?_
  rw [scan_line_of_accepted h]
  exact (readAll_eq_ok_iff.mp h).append (readAll_eq_ok_iff.mp hmore)

/-- The error is that of the second text, and the symbols of the first text have been named
before it. -/
theorem readAll_line_error (h : readAll text = .ok fs) (hmore : readAll more = .error halt) :
    readAll (text ++ "\n" ++ more) = .error ⟨halt.error, namesIn fs ++ halt.named⟩ := by
  obtain ⟨before, rest, hsplit, hhalt⟩ := readAll_eq_error_iff.mp hmore
  refine readAll_eq_error_iff.mpr
    ⟨Token.scan text.toList ++ before, rest, ?_, hhalt.append_left (readAll_eq_ok_iff.mp h)⟩
  rw [scan_line_of_accepted h, hsplit, List.append_assoc]

end Form

/-! ### Finite trees -/

variable {i : Interpreter} {o p : Obj} {os : List Obj}

/-- A chain has a depth if its objects and its end do. -/
theorem Heap.Chain.exists_within {h : Heap} (hc : h.Chain o os p)
    (hos : ∀ q ∈ os, ∃ n, h.Within n q) (hp : ∃ n, h.Within n p) : ∃ n, h.Within n o := by
  induction hc with
  | nil => exact hp
  | cons hpair _ ih =>
    obtain ⟨m, hm⟩ := hos _ List.mem_cons_self
    obtain ⟨n, hn⟩ := ih (fun q hq => hos q (List.mem_cons_of_mem _ hq)) hp
    refine ⟨max m n + 1, fun q hq => ?_⟩
    rcases (Heap.mem_parts_pair hpair).mp hq with rfl | rfl
    · exact hm.mono (Nat.le_max_left m n)
    · exact hn.mono (Nat.le_max_right m n)

namespace Interpreter

mutual

/-- What a form says is a finite tree. -/
theorem exists_within_of_means : ∀ (f : Form) {o : Obj}, i.Means f o → ∃ n, i.heap.Within n o
  | .int _, _, rfl | .float _, _, rfl | .symbol _, _, .inl ⟨_, rfl⟩ => ⟨0, rfl⟩
  | .text _, _, ⟨a, rfl, ha⟩ | .symbol _, _, .inr ⟨_, a, _, _, rfl, _, ha⟩ =>
    ⟨0, by simp only [Heap.Within, Heap.parts, Heap.shape_ref ha]⟩
  | .list items, _, ⟨_, hchain, hos⟩ =>
    hchain.exists_within (exists_within_of_meansIn items hos) ⟨0, rfl⟩
  | .dotted items last, _, ⟨_, _, hchain, hos, hp⟩ =>
    hchain.exists_within (exists_within_of_meansIn items hos) (exists_within_of_means last hp)
  | .vector items, _, ⟨_, _, rfl, ha, hos⟩ => by
    obtain ⟨n, hn⟩ := Heap.exists_within_all (exists_within_of_meansIn items hos)
    exact ⟨n + 1, fun p hp => hn p (Heap.parts_vector ha ▸ hp)⟩

theorem exists_within_of_meansIn : ∀ (fs : List Form) {os : List Obj}, i.MeansIn fs os →
    ∀ o ∈ os, ∃ n, i.heap.Within n o
  | [], _, rfl => List.forall_mem_nil _
  | f :: fs, _, ⟨_, _, rfl, ho, hrest⟩ =>
    List.forall_mem_cons.mpr ⟨exists_within_of_means f ho, exists_within_of_meansIn fs hrest⟩

end

/-- Objects of the same forms are equal one by one. -/
theorem equal_of_meansIn {fs : List Form} {os' : List Obj} (hos' : i.MeansIn fs os')
    (hos : i.MeansIn fs os) : List.Forall₂ (fun o' o => i.heap.equal o' o = true) os' os := by
  have hmatches := List.forall₂_iff_zip.mp (matches_of_meansIn fs hos' hos)
  refine List.forall₂_iff_zip.mpr ⟨hmatches.1, fun hpair => ?_⟩
  obtain ⟨n, hn⟩ := exists_within_of_meansIn fs hos _ (List.of_mem_zip hpair).2
  exact hmatches.2 hpair _ (Heap.within_size hn)

/-- Objects and their meanings may be put together. -/
theorem meansIn_append {fs gs : List Form} {os' : List Obj} (hos : i.MeansIn fs os)
    (hos' : i.MeansIn gs os') : i.MeansIn (fs ++ gs) (os ++ os') := by
  induction fs generalizing os with
  | nil =>
    cases hos
    exact hos'
  | cons f fs ih =>
    obtain ⟨o, rest, rfl, ho, hrest⟩ := hos
    exact ⟨o, rest ++ os', rfl, ho, ih hrest⟩

end Interpreter

/-! ### Objects -/

namespace Host

open Proc

variable {fs gs : List Form} {halt : Form.Halt} {text more : String} {w w₁ w₂ : World}

/-- The objects of forms are made one after the other. -/
theorem ofForms_append (fs gs : List Form) : ofForms (fs ++ gs) =
    ofForms fs >>= fun os => ofForms gs >>= fun os' => pure (os ++ os') := by
  induction fs with
  | nil => exact (bind_pure (ofForms gs)).symm
  | cons f fs ih =>
    rw [List.cons_append, ofForms, ofForms, ih]
    simp only [bind_assoc, pure_bind, List.cons_append]

/-- An accepted text is read as its forms. -/
theorem read_of_accepted (h : Form.readAll text = .ok fs) : read text = ofForms fs := by
  rw [read, h]

/-- A rejected text interns the names that it had come to, and signals. -/
theorem read_of_rejected (h : Form.readAll text = .error halt) :
    read text = internAll halt.named >>= fun _ => signal (.badSyntax halt.error) := by
  rw [read, h]

/-- The host reads the joined text by reading one text after the other. -/
theorem read_line (h : Form.readAll text = .ok fs) (hmore : Form.readAll more = .ok gs) :
    read (text ++ "\n" ++ more) =
      read text >>= fun os => read more >>= fun os' => pure (os ++ os') := by
  rw [read_of_accepted h, read_of_accepted hmore, read_of_accepted (Form.readAll_line h hmore),
    ofForms_append]

/-- Names are interned without fail. -/
theorem exists_gives_internAll (names : List String) (w : World) :
    ∃ w₁, (internAll names).Gives 0 w (.ok ()) w₁ := by
  induction names generalizing w with
  | nil => exact ⟨w, gives_pure ()⟩
  | cons name names ih =>
    obtain ⟨w₁, hrest⟩ := ih ((Change.intern name).run w).2
    exact ⟨w₁, gives_change_bind hrest⟩

/-- What is wrong with a text is all that reading it gives. -/
theorem run_read_of_rejected (h : Form.readAll text = .error halt) (w : World) :
    ((read text).run w).1 = .error (.failure (.signal (.badSyntax halt.error))) := by
  obtain ⟨w₁, hgives⟩ := exists_gives_internAll halt.named w
  rw [read_of_rejected h, (hgives.bind (gives_fail _)).run (Nat.zero_le _)]
  rfl

/-- Reading is compositional. A text that is accepted and another one on a new line are read as
the forms of the one and then those of the other. In any state where names are interned to
symbols of these names, the host makes the same objects of the joined text as of one text after
the other, and leaves the same state; what it makes of the joined text there is `equal` to
these objects, one by one. If the second text is rejected, the joined text is, with the same
error. -/
theorem reading_is_compositional (h : Form.readAll text = .ok fs) (more : String)
    (w : World) (hw : w.host.Interned) :
    (∀ gs, Form.readAll more = .ok gs →
      Form.readAll (text ++ "\n" ++ more) = .ok (fs ++ gs) ∧
      ∃ os w₁ os' w₂ again w₃, (read text).run w = (.ok os, w₁) ∧
        (read more).run w₁ = (.ok os', w₂) ∧
        (read (text ++ "\n" ++ more)).run w = (.ok (os ++ os'), w₂) ∧
        (read (text ++ "\n" ++ more)).run w₂ = (.ok again, w₃) ∧
        List.Forall₂ (fun o' o => w₃.host.heap.equal o' o = true) again (os ++ os')) ∧
    (∀ halt, Form.readAll more = .error halt →
      (∃ named, Form.readAll (text ++ "\n" ++ more) = .error ⟨halt.error, named⟩) ∧
      ((read (text ++ "\n" ++ more)).run w).1 = ((read more).run w).1) := by
  constructor
  -- both parts are accepted, and so is the text of both
  · intro gs hmore
    obtain ⟨os, w₁, hgives, hb₁, hos⟩ := builds_ofForms fs fun name _ => hw.interns name
    obtain ⟨os', w₂, hgives', hb₂, hos'⟩ :=
      builds_ofForms gs fun name _ => (hb₁.host.interned hw).interns name
    have hw₂ := hb₂.host.interned (hb₁.host.interned hw)
    obtain ⟨again, w₃, hagain, hb₃, hmeans⟩ :=
      builds_ofForms (fs ++ gs) fun name _ => hw₂.interns name
    rw [← read_of_accepted h] at hgives
    rw [← read_of_accepted hmore] at hgives'
    have hjoined := Form.readAll_line h hmore
    rw [← read_of_accepted hjoined] at hagain
    -- the forms of the first part are made before the second is read
    have hboth : (read text >>= fun os => read more >>= fun os' => pure (os ++ os')).Gives 0 w
        (.ok (os ++ os')) w₂ := hgives.bind (hgives'.bind (gives_pure _))
    refine ⟨hjoined, os, w₁, os', w₂, again, w₃, hgives.run (Nat.zero_le _),
      hgives'.run (Nat.zero_le _), ?_, hagain.run (Nat.zero_le _), ?_⟩
    · rw [read_line h hmore]
      exact hboth.run (Nat.zero_le _)
    · have hmade := Interpreter.meansIn_append (hos.of_extends hb₂.host) hos'
      exact Interpreter.equal_of_meansIn hmeans (hmade.of_extends hb₃.host)
  -- the second part is rejected, and the text of both for the same reason
  · intro halt hmore
    have hjoined := Form.readAll_line_error h hmore
    exact ⟨⟨_, hjoined⟩, (run_read_of_rejected hjoined w).trans (run_read_of_rejected hmore w).symm⟩

/-- A comment at the end of the first text does not reach into the second one. -/
theorem reading_is_compositional_comment :
    Form.readAll "(f .5) 'a ; (" = .ok [.list [.symbol "f", .symbol ".5"],
      .list [.symbol "quote", .symbol "a"]] ∧
    Form.readAll ("(f .5) 'a ; (" ++ "\n" ++ "b") = .ok [.list [.symbol "f", .symbol ".5"],
      .list [.symbol "quote", .symbol "a"], .symbol "b"] := by
  have hfirst : Form.readAll "(f .5) 'a ; (" = .ok [.list [.symbol "f", .symbol ".5"],
      .list [.symbol "quote", .symbol "a"]] := rfl
  obtain ⟨haccepted, -⟩ := reading_is_compositional hfirst "b" (.initial .standard)
    (World.grounded_initial .standard).interned
  exact ⟨hfirst, (haccepted [.symbol "b"] rfl).1⟩

end Host

end Crossing
