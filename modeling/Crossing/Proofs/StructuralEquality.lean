import Crossing.Proofs.PrintedObjects
import Crossing.Proofs.Renderings
import Crossing.Proofs.Addresses

/-!
# Structural equality

`equal` compares what two objects are by themselves, and then their parts one by one. It is
symmetric and transitive. On objects that do not contain themselves it is reflexive too, and it
says the same as long as nobody replaces a part of them, however many cells the heap gets.

- `Heap.label`, `Heap.equalWithin_succ_iff`: one level of the comparison;
- `Heap.equal_symm`, `Heap.equal_trans`, `Heap.IsAcyclic.equal_refl`: the equivalence;
- `Heap.Untouched`: what an object is made of has stayed as it was, `Heap.Untouched.equal_eq`;
- `Heap.untouched_of_develops`: so it is if no part has been replaced.
-/

namespace Crossing

variable {h h₁ : Heap} {m n : Nat} {o p q : Obj}

/-- What an object is for `equal` apart from its parts. -/
inductive Label where
  | text (s : String)
  | pair
  | vector
  /-- Anything else is `equal` to nothing but itself. -/
  | self (o : Obj)

/-- The equality of the host on objects is equality. -/
theorem Obj.eq_iff : o.eq p = true ↔ o = p := by
  constructor
  · intro h
    cases o <;> cases p <;> simp only [Obj.eq, decide_eq_true_eq, Bool.false_eq_true] at h
    · rfl
    · rw [h]
    · rw [Json.eq_of_toBits h]
    · rw [h]
  · rintro rfl
    exact o.eq_refl

namespace Heap

/-! ### One level -/

/-- What an object is at its own level, with its parts left out. -/
def label (h : Heap) (o : Obj) : Label :=
  match h.shape o with
  | .cell (.text s) => .text s
  | .cell (.cons _ _) => .pair
  | .cell (.vector _) => .vector
  | _ => .self o

/-- An object is a text, a pair, a vector, or something that is equal to itself only. -/
theorem label_cases (h : Heap) (o : Obj) :
    (∃ s, h.shape o = .cell (.text s) ∧ h.label o = .text s) ∨
    (∃ head tail, h.shape o = .cell (.cons head tail) ∧ h.label o = .pair) ∨
    (∃ items, h.shape o = .cell (.vector items) ∧ h.label o = .vector) ∨
    (h.label o = .self o ∧ h.parts o = []) := by
  unfold label parts
  cases h.shape o with
  | nil | int | float => exact .inr (.inr (.inr ⟨rfl, rfl⟩))
  | cell c =>
    cases c with
    | text s => exact .inl ⟨s, rfl, rfl⟩
    | cons head tail => exact .inr (.inl ⟨head, tail, rfl, rfl⟩)
    | vector items => exact .inr (.inr (.inl ⟨items, rfl, rfl⟩))
    | _ => exact .inr (.inr (.inr ⟨rfl, rfl⟩))

/-- Down to some levels, all the parts of two objects are equal one by one. -/
def EqualParts (h : Heap) (n : Nat) (o p : Obj) : Prop :=
  List.Forall₂ (fun x y => h.equalWithin n x y = true) (h.parts o) (h.parts p)

/-- Two objects are equal if they have the same label and their parts are equal. -/
theorem equalWithin_succ_iff :
    h.equalWithin (n + 1) o p = true ↔ h.label o = h.label p ∧ h.EqualParts n o p := by
  rw [equalWithin, EqualParts]
  split
  · rename_i s t ho hp
    simp [label, parts, ho, hp]
  · rename_i ho hp
    simp [label, parts, ho, hp]
  · rename_i xs ys ho hp
    simp [label, parts, ho, hp, List.forall₂_iff_zip]
  · rename_i htext hpair hvector
    -- nothing but identity counts unless both objects have the same kind of parts
    rw [Obj.eq_iff]
    constructor
    · rintro rfl
      obtain ⟨s, ho, -⟩ | ⟨head, tail, ho, -⟩ | ⟨items, ho, -⟩ | ⟨-, hparts⟩ := h.label_cases o
      · exact (htext _ _ ho ho).elim
      · exact (hpair _ _ _ _ ho ho).elim
      · exact (hvector _ _ ho ho).elim
      · rw [hparts]
        exact ⟨rfl, .nil⟩
    · rintro ⟨hlabel, -⟩
      obtain ⟨s, ho, hlo⟩ | ⟨head, tail, ho, hlo⟩ | ⟨items, ho, hlo⟩ | ⟨hlo, -⟩ := h.label_cases o <;>
        obtain ⟨t, hp, hlp⟩ | ⟨head', tail', hp, hlp⟩ | ⟨items', hp, hlp⟩ | ⟨hlp, -⟩ :=
          h.label_cases p <;>
        rw [hlo, hlp] at hlabel <;> cases hlabel
      · exact (htext _ _ ho hp).elim
      · exact (hpair _ _ _ _ ho hp).elim
      · exact (hvector _ _ ho hp).elim
      · rfl

/-! ### The equivalence -/

/-- Being equal is symmetric within each number of levels. -/
theorem equalWithin_symm (he : h.equalWithin n o p = true) : h.equalWithin n p o = true := by
  induction n generalizing o p with
  | zero => cases he
  | succ n ih =>
    obtain ⟨hlabel, hparts⟩ := equalWithin_succ_iff.mp he
    exact equalWithin_succ_iff.mpr ⟨hlabel.symm, (hparts.imp fun _ _ hxy => ih hxy).flip⟩

/-- Being equal is transitive within each number of levels. -/
theorem equalWithin_trans (hop : h.equalWithin n o p = true) (hpq : h.equalWithin n p q = true) :
    h.equalWithin n o q = true := by
  -- the induction is on how far down is looked; parts are compared one level further down
  induction n generalizing o p q with
  | zero => cases hop
  | succ n ih =>
    have hparts : ∀ {xs ys zs : List Obj},
        List.Forall₂ (fun x y => h.equalWithin n x y = true) xs ys →
        List.Forall₂ (fun y z => h.equalWithin n y z = true) ys zs →
        List.Forall₂ (fun x z => h.equalWithin n x z = true) xs zs := by
      intro xs ys zs hxy
      induction hxy generalizing zs with
      | nil =>
        intro hyz
        cases hyz
        exact .nil
      | cons hx _ ihxy =>
        intro hyz
        cases hyz with
        | cons hy hyz => exact .cons (ih hx hy) (ihxy hyz)
    obtain ⟨hlabel, hxy⟩ := equalWithin_succ_iff.mp hop
    obtain ⟨hlabel', hyz⟩ := equalWithin_succ_iff.mp hpq
    exact equalWithin_succ_iff.mpr ⟨hlabel.trans hlabel', hparts hxy hyz⟩

/-- Being equal is symmetric. -/
theorem equal_symm (he : h.equal o p = true) : h.equal p o = true := equalWithin_symm he

/-- Being equal is transitive. -/
theorem equal_trans (hop : h.equal o p = true) (hpq : h.equal p q = true) :
    h.equal o q = true := equalWithin_trans hop hpq

/-- What is equal to one of two equal objects is equal to the other. -/
theorem equal_congr_left (he : h.equal o p = true) (q : Obj) : h.equal o q = h.equal p q := by
  rw [Bool.eq_iff_iff]
  exact ⟨equal_trans (equal_symm he), equal_trans he⟩

/-- Equal objects are equal to the same ones. -/
theorem equal_congr_right (he : h.equal o p = true) (q : Obj) : h.equal q o = h.equal q p := by
  rw [Bool.eq_iff_iff]
  exact ⟨fun hq => equal_trans hq he, fun hq => equal_trans hq (equal_symm he)⟩

/-! ### Objects that end -/

/-- An object does not contain itself, and neither does any part of it. -/
def IsAcyclic (h : Heap) (o : Obj) : Prop := ∃ n, h.Within n o

theorem equalWithin_refl (ho : h.Within n o) : h.equalWithin (n + 1) o o = true := by
  induction n generalizing o with
  | zero =>
    refine equalWithin_succ_iff.mpr ⟨rfl, ?_⟩
    rw [EqualParts, show h.parts o = [] from ho]
    exact .nil
  | succ n ih => exact equalWithin_succ_iff.mpr ⟨rfl, List.forall₂_same.mpr fun p hp => ih (ho p hp)⟩

/-- As many levels as one of two equal objects has are enough to tell that they are equal. -/
theorem equalWithin_of_within (ho : h.Within n o) (he : h.equalWithin m o p = true) :
    h.equalWithin (n + 1) o p = true := by
  -- the induction is on the depth of the first object
  induction n generalizing m o p with
  | zero =>
    cases m with
    | zero => cases he
    | succ m =>
      obtain ⟨hlabel, hparts⟩ := equalWithin_succ_iff.mp he
      refine equalWithin_succ_iff.mpr ⟨hlabel, ?_⟩
      rw [EqualParts, show h.parts o = [] from ho] at hparts ⊢
      rw [List.forall₂_nil_left_iff.mp hparts]
      exact .nil
  | succ n ih =>
    cases m with
    | zero => cases he
    | succ m =>
      obtain ⟨hlabel, hparts⟩ := equalWithin_succ_iff.mp he
      refine equalWithin_succ_iff.mpr ⟨hlabel, ?_⟩
      refine List.forall₂_iff_zip.mpr ⟨hparts.length_eq, fun hxy => ?_⟩
      exact ih (ho _ (List.of_mem_zip hxy).1) (List.forall₂_zip hparts hxy)

/-- Objects without cycles that are equal within some levels are equal. -/
theorem equal_of_equalWithin (ho : h.IsAcyclic o) (he : h.equalWithin m o p = true) :
    h.equal o p = true := by
  obtain ⟨n, hn⟩ := ho
  exact equalWithin_of_within (within_size hn) he

theorem IsAcyclic.equal_refl (ho : h.IsAcyclic o) : h.equal o o = true := by
  obtain ⟨n, hn⟩ := ho
  exact equalWithin_refl (within_size hn)

/-- Objects that are `eq` are `equal`. -/
theorem IsAcyclic.equal_of_eq (ho : h.IsAcyclic o) (heq : o.eq p = true) :
    h.equal o p = true := by
  obtain rfl := Obj.eq_iff.mp heq
  exact ho.equal_refl

/-! ### Objects that stay as they are -/

/-- An object, what it is made of, and so on down to any depth. -/
inductive Inside (h : Heap) : Obj → Obj → Prop where
  | self (o : Obj) : Inside h o o
  | part {o p q : Obj} (hp : p ∈ h.parts o) (hq : Inside h p q) : Inside h o q

/-- All that an object is made of has stayed as it was. -/
def Untouched (h h₁ : Heap) (o : Obj) : Prop :=
  ∀ q, h.Inside o q → h₁.label q = h.label q ∧ h₁.parts q = h.parts q

/-- The parts of what is left untouched are left untouched. -/
theorem Untouched.part (hu : h.Untouched h₁ o) (hp : p ∈ h.parts o) : h.Untouched h₁ p :=
  fun q hq => hu q (.part hp hq)

/-- What is left untouched has the same depth. -/
theorem Untouched.within_iff (hu : h.Untouched h₁ o) : h₁.Within n o ↔ h.Within n o := by
  induction n generalizing o with
  | zero => rw [Within, Within, (hu o (.self o)).2]
  | succ n ih =>
    rw [Within, Within, (hu o (.self o)).2]
    exact forall₂_congr fun p hp => ih (hu.part hp)

/-- What is left untouched has cycles if it had. -/
theorem Untouched.isAcyclic_iff (hu : h.Untouched h₁ o) : h₁.IsAcyclic o ↔ h.IsAcyclic o :=
  exists_congr fun _ => hu.within_iff

/-- Objects that are left untouched are equal if they were. -/
theorem Untouched.equalWithin_iff (ho : h.Untouched h₁ o) (hp : h.Untouched h₁ p) :
    h₁.equalWithin n o p = true ↔ h.equalWithin n o p = true := by
  induction n generalizing o p with
  | zero => exact Iff.rfl
  | succ n ih =>
    rw [equalWithin_succ_iff, equalWithin_succ_iff, (ho o (.self o)).1, (hp p (.self p)).1,
      EqualParts, EqualParts, (ho o (.self o)).2, (hp p (.self p)).2]
    refine and_congr_right fun _ => ?_
    rw [List.forall₂_iff_zip, List.forall₂_iff_zip]
    refine and_congr_right fun _ => ?_
    constructor <;> intro hall x y hxy <;> obtain ⟨hx, hy⟩ := List.of_mem_zip hxy
    · exact (ih (ho.part hx) (hp.part hy)).mp (hall hxy)
    · exact (ih (ho.part hx) (hp.part hy)).mpr (hall hxy)

/-- Objects that have stayed as they were are equal if they were. -/
theorem Untouched.equal_eq (ho : h.Untouched h₁ o) (hp : h.Untouched h₁ p)
    (hend : h.IsAcyclic o) : h₁.equal o p = h.equal o p := by
  rw [Bool.eq_iff_iff]
  constructor
  · exact fun he => equal_of_equalWithin hend ((ho.equalWithin_iff hp).mp he)
  · exact fun he => equal_of_equalWithin (ho.isAcyclic_iff.mpr hend) ((ho.equalWithin_iff hp).mpr he)

/-! ### Heaps that go on -/

/-- What is inside an object of a heap refers to cells of the heap. -/
theorem below_of_inside (hq : h.Inside o q) (hh : h.Below n) (ho : o.Below n) : q.Below n := by
  induction hq with
  | self o => exact ho
  | @part o p q hp _ ih =>
    refine ih ?_
    unfold parts at hp
    split at hp
    · rename_i hshape
      exact (hh.of_shape hshape).2 p hp
    · rename_i hshape
      exact (hh.of_shape hshape).2 p hp
    · cases hp

/-- An object stays as it is unless someone replaces a part of it, or of its parts. -/
theorem untouched_of_develops (hknown : ∀ a, h.Inside o (.ref a) → a < h.size)
    (hd : ∀ a, h.Inside o (.ref a) → h.Develops [a] h₁) : h.Untouched h₁ o := by
  intro q hq
  cases q with
  | nil | int | float => exact ⟨rfl, rfl⟩
  | ref a =>
    obtain ⟨c, hc⟩ : ∃ c, h.get? a = some c := ⟨_, Array.getElem?_eq_getElem (hknown a hq)⟩
    obtain ⟨c₁, hc₁, hfixed⟩ := (hd a hq).cell hc
    rw [decide_eq_true (List.mem_singleton_self a)] at hfixed
    simp only [label, parts, shape_ref hc, shape_ref hc₁]
    cases c <;> cases c₁ <;> cases hfixed <;> exact ⟨rfl, rfl⟩

end Heap

end Crossing
