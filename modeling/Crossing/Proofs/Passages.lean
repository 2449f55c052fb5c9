import Crossing.Proofs.Assignments

/-!
# What objects come back as

What an object crosses as depends on what it is and on which symbols two names stand for. It
does not change while things are added to the heap, nor when variables get other values.

- `Heap.Revalues`: heaps that differ in values of variables at most;
- `World.GrowsTo.passage_of_known`, `World.passage_of_revalues`: an object crosses as before;
- `World.ComesBackAs`: the script value that an object comes back as;
- `World.CanComeBack`: an object is not the marker of a wrapped value that is gone;
- `Host.attains_sendAll`, `Border.attains_unpackAll`: objects come back, one after the other.
-/

namespace Crossing

open Proc

variable {w w₀ w₁ w₂ : World} {o : Obj} {v : Value} {a : Addr} {name : String}

/-! ### Heaps that differ in values -/

/-- A cell with the value of a symbol left out. -/
def Cell.unvalued : Cell → Cell
  | .symbol name _ function => .symbol name none function
  | c => c

namespace Heap

variable {h h₁ h₂ : Heap} {items : List Obj} {ts : List (Addr × Obj)}

/-- Heaps differ in the values of symbols at most. -/
def Revalues (h h₁ : Heap) : Prop :=
  ∀ a, (h₁.get? a).map Cell.unvalued = (h.get? a).map Cell.unvalued

theorem revalues_setValue (h : Heap) (a : Addr) (value : Option Obj) :
    h.Revalues (h.setValue a value) := by
  intro b
  by_cases hb : b = a
  · subst hb
    rw [setValue, get?_modify_self]
    cases h.get? b with
    | none => rfl
    | some c => cases c <;> rfl
  · rw [setValue, get?_modify_other h _ hb]

theorem revalues_bind (h : Heap) (ts : List (Addr × Obj)) : h.Revalues (h.bind ts []).2 := by
  induction ts generalizing h with
  | nil => exact fun _ => rfl
  | cons t ts ih =>
    rw [bind_cons_snd]
    exact fun a => (ih _ a).trans (h.revalues_setValue t.1 (some t.2) a)

namespace Revalues

theorem symm (hr : h.Revalues h₁) : h₁.Revalues h := fun a => (hr a).symm

theorem get? (hr : h.Revalues h₁) {c : Cell} (hc : h.get? a = some c)
    (hsymbol : c.isSymbol = false) : h₁.get? a = some c := by
  have heq := hr a
  rw [hc, Option.map_some] at heq
  obtain ⟨d, hd, hdc⟩ := Option.map_eq_some_iff.mp heq
  rw [hd]
  cases c with
  | symbol _ _ _ => cases hsymbol
  | _ => cases d <;> simp_all [Cell.unvalued]

/-- A symbol keeps its name and its function. -/
theorem symbol (hr : h.Revalues h₁) {value function : Option Obj}
    (hc : h.get? a = some (.symbol name value function)) :
    ∃ value', h₁.get? a = some (.symbol name value' function) := by
  have heq := hr a
  rw [hc, Option.map_some] at heq
  obtain ⟨d, hd, hdc⟩ := Option.map_eq_some_iff.mp heq
  cases d with
  | symbol _ value' _ =>
    cases hdc
    exact ⟨value', hd⟩
  | _ => cases hdc

theorem size_le (hr : h.Revalues h₁) : h.size ≤ h₁.size := by
  refine size_le_of_get? fun {a c} hc => ?_
  have heq := hr a
  rw [hc, Option.map_some] at heq
  obtain ⟨d, hd, -⟩ := Option.map_eq_some_iff.mp heq
  exact ⟨d, hd⟩

/-- No cell comes or goes. -/
theorem size_eq (hr : h.Revalues h₁) : h₁.size = h.size := Nat.le_antisymm hr.symm.size_le hr.size_le

theorem names (hr : h.Revalues h₁) (hn : h.Names o name) : h₁.Names o name := by
  obtain hnil | ⟨a, value, function, rfl, ha⟩ := hn
  · exact .inl hnil
  · obtain ⟨value', ha'⟩ := hr.symbol ha
    exact .inr ⟨a, value', function, rfl, ha'⟩

/-- A list stays that list. -/
theorem list? (hr : h.Revalues h₁) (hl : h.list? o = some items) : h₁.list? o = some items := by
  obtain ⟨hlist, -⟩ := list?_iff.mp hl
  have hlist₁ : h₁.IsList o items := by
    clear hl
    induction hlist with
    | nil => exact .nil
    | cons hpair _ ih => exact .cons (hr.get? hpair rfl) ih
  exact list?_iff.mpr ⟨hlist₁, hlist₁.length_le⟩

/-- The same objects are lists, of the same items. -/
theorem list?_eq (hr : h.Revalues h₁) (o : Obj) : h₁.list? o = h.list? o := by
  cases hl : h.list? o with
  | some items => exact hr.list? hl
  | none =>
    cases hl₁ : h₁.list? o with
    | none => rfl
    | some items => rw [hr.symm.list? hl₁] at hl; cases hl

/-- What a form is a literal for that is no variable, it stays one for. -/
theorem literal? {r : Obj} (hr : h.Revalues h₁) (hl : h.literal? o = some r)
    (ho : ∀ name, h.symbolName? o = some name → isKeywordName name = true) :
    h₁.literal? o = some r := by
  cases o with
  | ref b =>
    cases hb : h.get? b with
    | none =>
      have hb₁ : h₁.get? b = none := Option.map_eq_none_iff.mp ((hr b).trans (by rw [hb]; rfl))
      simp only [Heap.literal?, shape, hb] at hl
      simp only [Heap.literal?, shape, hb₁, hl]
    | some c =>
      -- only a symbol has a value that could differ, and it is none here unless a keyword
      cases c with
      | symbol name value function =>
        obtain ⟨value', hb₁⟩ := hr.symbol hb
        have hkeyword := ho name (by simp only [symbolName?, shape_ref hb])
        simp only [Heap.literal?, shape_ref hb, if_pos hkeyword] at hl
        simp only [Heap.literal?, shape_ref hb₁, if_pos hkeyword, hl]
      | cons head tail =>
        simp only [Heap.literal?, shape_ref hb] at hl
        simp only [Heap.literal?, shape_ref (hr.get? hb rfl), hr.list?_eq]
        split at hl
        · split at hl
          · rename_i hhead
            rw [if_pos ((hr.names (names_of_symbolName? hhead)).symbolName? (by decide))]
            exact hl
          · cases hl
        · cases hl
      | _ =>
        simp only [Heap.literal?, shape_ref hb] at hl
        simp only [Heap.literal?, shape_ref (hr.get? hb rfl), hl]
  | _ => exact hl

end Revalues

end Heap

/-! ### Objects cross as before -/

/-- Whether an object that is there is the symbol of a name does not change as symbols are
added. -/
theorem Interpreter.GrowsTo.eq_intern {i j : Interpreter} (hg : i.GrowsTo j)
    (ho : i.heap.known o = o) (hnil : name ≠ "nil") :
    o.eq (j.intern name).1 = o.eq (i.intern name).1 := by
  -- a symbol that is made later is at an address that did not exist
  have hnew : ∀ b, i.heap.get? b = none → o.eq (.ref b) = false := by
    refine fun b hb => Bool.eq_false_iff.mpr fun heq => ?_
    obtain rfl := (Obj.eq_iff_of_isHeap rfl).mp heq
    obtain ⟨c, hc⟩ := Heap.exists_get?_of_known ho
    exact nomatch hc.symm.trans hb
  have hsize : i.heap.get? i.heap.size = none := Array.getElem?_eq_none (Nat.le_refl _)
  unfold intern
  rw [if_neg hnil, if_neg hnil]
  -- the name stood for a symbol before, or for a new one
  cases hi : i.find? name with
  | some b => simp only [hg.names hi]
  | none =>
    simp only [hnew _ hsize]
    cases hj : j.find? name with
    | none => exact hnew _ (Array.getElem?_eq_none hg.heap.size_le)
    | some b =>
      obtain hold | hb := hg.newNames hj
      · rw [hi] at hold
        cases hold
      · exact hnew b hb

namespace World

/-- Where no reference dangles, an object crosses as before once things have been added. -/
theorem GrowsTo.passage_of_known (hg : w.GrowsTo w₁) (hclosed : w.host.IsClosed)
    (ho : w.host.heap.known o = o) : w₁.passage o = w.passage o := by
  have hshape := hg.host.heap.shape_of_known ho
  -- a list that is known has all its pairs in the smaller heap
  have hlist : w₁.host.heap.list? o = w.host.heap.list? o := by
    cases hl : w.host.heap.list? o with
    | some items => exact hg.host.heap.list? hl
    | none =>
      cases hl₁ : w₁.host.heap.list? o with
      | none => rfl
      | some items =>
        rw [hg.host.heap.list?_of_known (fun h => (hclosed.pair h).2) ho hl₁] at hl
        cases hl
  unfold passage
  rw [hshape, hlist]
  split
  -- the marks for truth and for wrapped values are symbols, and new ones match no known object
  case h_5 => rw [hg.host.eq_intern ho (by decide)]
  case h_6 =>
    split
    · rename_i head index generation hitems
      obtain ⟨a, tail, rfl, hpair, -⟩ := Heap.exists_pair_of_list? hitems
      rw [hg.host.eq_intern (hclosed.pair hpair).1 (by decide)]
    · rfl
  all_goals rfl

/-- An object crosses as before when variables have got other values. -/
theorem passage_of_revalues (hr : w.host.heap.Revalues w₁.host.heap)
    (hsymbols : w₁.host.symbols = w.host.symbols) (o : Obj) : w₁.passage o = w.passage o := by
  -- symbols are found by name, and their values do not matter
  have hintern : ∀ name, (w₁.host.intern name).1 = (w.host.intern name).1 := by
    intro name
    have hfind : w₁.host.find? name = w.host.find? name := by
      rw [Interpreter.find?, Interpreter.find?, hsymbols]
    unfold Interpreter.intern
    rw [hfind, hr.size_eq]
    split
    · rfl
    · split <;> rfl
  cases o with
  | ref b =>
    cases hb : w.host.heap.get? b with
    | none =>
      have hb₁ : w₁.host.heap.get? b = none :=
        Option.map_eq_none_iff.mp ((hr b).trans (by rw [hb]; rfl))
      simp only [passage, Heap.shape, hb, hb₁]
    | some c =>
      cases c with
      | symbol name value function =>
        obtain ⟨value', hb₁⟩ := hr.symbol hb
        simp only [passage, Heap.shape_ref hb, Heap.shape_ref hb₁, hintern]
      | _ =>
        simp only [passage, Heap.shape_ref hb, Heap.shape_ref (hr.get? hb rfl), hr.list?_eq,
          hintern]
  | _ => rfl

theorem passage_bound (w : World) (ts : List (Addr × Obj)) (o : Obj) :
    (w.bound ts).passage o = w.passage o := by
  have hr : w.host.heap.Revalues (w.bound ts).host.heap := w.host.heap.revalues_bind ts
  exact passage_of_revalues hr rfl o

/-! ### What objects come back as -/

/-- A script value is what an object is taken in as that crosses in some way. -/
def ReceivesAs (w : World) (o : Obj) : Passage → Value → Prop
  | .data j, v => ∃ k, Json.ofText j.render = .ok k ∧ v = .ofJson k
  | .wrapped key, v => w.border.proxies.get? key = some v
  | .reference, v => ∃ h, v = .handle h ∧ w.host.resolve? h.id = some o

/-- A script value is what an object comes back as. -/
def ComesBackAs (w : World) (o : Obj) (v : Value) : Prop := w.ReceivesAs o (w.passage o) v

/-- An object is not the marker of a wrapped value that is gone. -/
def CanComeBack (w : World) (o : Obj) : Prop :=
  ∀ key, w.passage o = .wrapped key → ∃ x, w.border.proxies.get? key = some x

theorem lasting_receivesAs (o : Obj) (p : Passage) (v : Value) :
    Lasting fun w => w.ReceivesAs o p v := by
  refine ⟨fun hg h => ?_⟩
  cases p with
  | data j => exact h
  | wrapped key =>
    change _ = _
    rw [hg.proxies]
    exact h
  | reference =>
    obtain ⟨g, hv, hg'⟩ := h
    exact ⟨g, hv, hg.host.kept hg'⟩

theorem lasting_isSentAs (o : Obj) (p : Passage) (parcel : Parcel) :
    Lasting fun w => Host.IsSentAs w o p parcel := by
  refine ⟨fun hg h => ?_⟩
  cases p with
  | data j => exact h
  | wrapped key => exact h
  | reference =>
    obtain ⟨id, hp, hid⟩ := h
    exact ⟨id, hp, hg.host.kept hid⟩

end World

/-- Objects are sent as what they cross as. -/
theorem Host.attains_sendAll {os : List Obj} (hclosed : w.host.IsClosed)
    (hos : ∀ o ∈ os, w.host.heap.known o = o) : (sendAll os).Attains w fun ps w₁ =>
      List.Forall₂ (fun o p => IsSentAs w₁ o (w.passage o) p) os ps := by
  refine attains_mapM (R := fun o p w₁ => IsSentAs w₁ o (w.passage o) p)
    (fun o p _ _ hs h => (World.lasting_isSentAs o _ p).grows hs.grown h) ?_
  refine List.forall₂_same.mpr fun o ho w₁ hs => ?_
  rw [← hs.grown.passage_of_known hclosed (hos o ho)]
  exact attains_send o

namespace Border

/-- A parcel is taken in as what its object comes back as. -/
theorem attains_unpack {p : Parcel} (hsent : Host.IsSentAs w o (w₀.passage o) p)
    (hlive : ∀ key, w₀.passage o = .wrapped key → ∃ x, w.border.proxies.get? key = some x) :
    (unpack p).Attains w fun v w₁ => w₁.ReceivesAs o (w₀.passage o) v := by
  -- what arrives is as the object was sent: as data, as a key, or as a reference
  cases hpassage : w₀.passage o with
  | data j =>
    rw [hpassage] at hsent
    obtain rfl := hsent
    obtain ⟨k, hk⟩ := World.exists_ofText_of_passage hpassage
    rw [unpack, hk]
    exact attains_pure ⟨k, hk, rfl⟩
  | wrapped key =>
    rw [hpassage] at hsent
    obtain rfl := hsent
    obtain ⟨x, hx⟩ := hlive key hpassage
    refine (attains_change (c := .unwrap? key) rfl).bind fun r w₁ hs heq => ?_
    obtain ⟨rfl, -⟩ := heq
    simp only [Change.run, hx]
    refine attains_pure ?_
    change _ = _
    rw [hs.grown.proxies, hx]
  | reference =>
    rw [hpassage] at hsent
    obtain ⟨id, rfl, hid⟩ := hsent
    refine (attains_unpack_reference id).mono fun v w₁ hs hv => ?_
    obtain ⟨h, rfl, rfl⟩ := hv
    exact ⟨h, rfl, hs.grown.host.kept hid⟩

/-- Parcels are taken in, one after the other. -/
theorem attains_unpackAll {os : List Obj} {ps : List Parcel}
    (hsent : List.Forall₂ (fun o p => Host.IsSentAs w o (w₀.passage o) p) os ps)
    (hlive : ∀ o ∈ os, ∀ key, w₀.passage o = .wrapped key →
      ∃ x, w.border.proxies.get? key = some x) :
    (ps.mapM unpack).Attains w fun vs w₁ =>
      List.Forall₂ (fun o v => w₁.ReceivesAs o (w₀.passage o) v) os vs := by
  refine attains_mapM (R := fun o v w₁ => w₁.ReceivesAs o (w₀.passage o) v)
    (fun o v _ _ hs h => (World.lasting_receivesAs o _ v).grows hs.grown h) ?_
  have hmem : List.Forall₂ (fun o p => o ∈ os ∧ Host.IsSentAs w o (w₀.passage o) p) os ps :=
    (List.forall₂_and_left _ _).mpr ⟨fun _ ho => ho, hsent⟩
  refine hmem.imp fun o p h w₁ hs => attains_unpack
    ((World.lasting_isSentAs o _ p).grows hs.grown h.2) fun key hkey => ?_
  obtain ⟨x, hx⟩ := hlive o h.1 key hkey
  exact ⟨x, (congrArg (·.get? key) hs.grown.proxies).trans hx⟩

end Border

end Crossing
