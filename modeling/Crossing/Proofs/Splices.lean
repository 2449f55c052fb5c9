import Crossing.Proofs.References
import Crossing.Proofs.Services

/-!
# Values spliced into forms

What the border puts into a form for a script value. The host is asked whether it would
evaluate the value as a call, and if so the value is quoted.

- `World.GrowsTo.wrapped_of_known`: no reference dangles, so that what an object is stays what
  it is as the heap grows;
- `Host.succeeds_send`, `Border.handsOver_reference`: what is sent of an object;
- `Border.succeeds_isPair`, `Border.succeedsUnless_isQuoted`: what the host is asked;
- `Border.succeeds_list`, `Border.succeeds_quote`: the lists that the host makes;
- `Heap.unquoted`, `World.Supplies`: what a value stands for as an argument of a form;
- `Border.succeeds_quoteIfList`: the form for a value evaluates to that.
-/

namespace Crossing

open Proc

variable {α β : Type} {w w₁ w₂ : World} {v v' : Value} {o : Obj} {j : Json} {g : Handle}
  {a : Addr} {key : Key} {name : String} {E : Failure → Prop}

/-! ### What objects are -/

namespace Heap

variable {h h₁ : Heap} {items items' : List Obj}

/-- A list has one way to be listed. -/
theorem IsList.unique (hl : h.IsList o items) (hl' : h.IsList o items') : items' = items := by
  induction hl generalizing items' with
  | nil =>
    cases hl'
    rfl
  | cons hpair _ ih =>
    cases hl' with
    | cons hpair' htail' =>
      cases hpair.symm.trans hpair'
      rw [ih htail']

/-- A list has no more pairs than the heap has cells, as each pair starts another list. -/
theorem IsList.length_le (hl : h.IsList o items) : items.length ≤ h.size := by
  -- the pairs of a list have different addresses, and each of them is in the heap
  have hpairs : ∃ as : List Addr, as.length = items.length ∧ as.Nodup ∧
      ∀ a ∈ as, a < h.size ∧ ∃ rest, h.IsList (.ref a) rest ∧ rest.length ≤ items.length := by
    induction hl with
    | nil => exact ⟨[], rfl, List.nodup_nil, nofun⟩
    | @cons a head tail items hpair htail ih =>
      obtain ⟨as, hlength, hnodup, has⟩ := ih
      refine ⟨a :: as, by simp [hlength], List.nodup_cons.mpr ⟨fun ha => ?_, hnodup⟩, ?_⟩
      · obtain ⟨-, rest, hrest, hle⟩ := has a ha
        rw [(IsList.cons hpair htail).unique hrest, List.length_cons] at hle
        exact absurd hle (Nat.not_succ_le_self _)
      · intro b hb
        obtain rfl | hb := List.mem_cons.mp hb
        · exact ⟨lt_size_of_get? hpair, _, .cons hpair htail, Nat.le_refl _⟩
        · obtain ⟨hlt, rest, hrest, hle⟩ := has b hb
          exact ⟨hlt, rest, hrest, Nat.le_succ_of_le hle⟩
  obtain ⟨as, hlength, hnodup, has⟩ := hpairs
  rw [← hlength, ← List.length_range (n := h.size)]
  exact hnodup.length_le_of_subset fun a ha => List.mem_range.mpr (has a ha).1

namespace GrowsTo

/-- What is known of a reference in a larger heap was known before. -/
theorem get?_of_known (hg : h.GrowsTo h₁) {c : Cell} (ha : h.known (.ref a) = .ref a)
    (hc : h₁.get? a = some c) : h.get? a = some c := by
  obtain ⟨d, hd⟩ := exists_get?_of_known ha
  obtain rfl := Option.some.inj ((hg.cell hd).symm.trans hc)
  exact hd

/-- What is known of an object keeps its shape as the heap grows. -/
theorem shape_of_known (hg : h.GrowsTo h₁) (ho : h.known o = o) : h₁.shape o = h.shape o := by
  cases o with
  | ref a =>
    obtain ⟨c, hc⟩ := exists_get?_of_known ho
    rw [shape_ref hc, shape_ref (hg.cell hc)]
  | _ => rfl

/-- What a known symbol is named it was named before. -/
theorem names_of_known (hg : h.GrowsTo h₁) (ho : h.known o = o) (hn : h₁.Names o name) :
    h.Names o name := by
  obtain hnil | ⟨a, value, function, rfl, ha⟩ := hn
  · exact .inl hnil
  · exact .inr ⟨a, value, function, rfl, hg.get?_of_known ho ha⟩

/-- What no reference dangles in, no list turns up in that was none. -/
theorem list?_of_known (hg : h.GrowsTo h₁)
    (hclosed : ∀ {a head tail}, h.get? a = some (.cons head tail) → h.known tail = tail)
    (ho : h.known o = o) (hl : h₁.list? o = some items) : h.list? o = some items := by
  have hlist : h.IsList o items := by
    obtain ⟨hl, -⟩ := list?_iff.mp hl
    clear * - hl ho hclosed hg
    induction hl with
    | nil => exact .nil
    | cons hpair _ ih =>
      have hc := hg.get?_of_known ho hpair
      exact .cons hc (ih (hclosed hc))
  exact list?_iff.mpr ⟨hlist, hlist.length_le⟩

end GrowsTo

end Heap

namespace World

/-- An object crosses as a wrapped value if it is a marker: three items, of which the first
is the symbol for markers and the others are a key. -/
theorem passage_eq_wrapped : w.passage o = .wrapped key ↔ ∃ head index generation,
    w.host.heap.list? o = some [head, .int index, .int generation] ∧
      head.eq (w.host.intern markerName).1 = true ∧
        Host.keyOf? index generation = some key := by
  constructor
  -- an object that is sent as a key is a list of three, headed by the mark
  · intro h
    unfold passage at h
    split at h
    · cases h
    · cases h
    · split at h <;> cases h
    · cases h
    · split at h <;> cases h
    · split at h
      · rename_i head index generation hlist
        split at h
        · rename_i hhead
          split at h
          · rename_i k hkey
            cases h
            exact ⟨head, index, generation, hlist, hhead, hkey⟩
          · cases h
        · cases h
      · cases h
    · cases h
  · rintro ⟨head, index, generation, hlist, hhead, hkey⟩
    obtain ⟨a, tail, rfl, hpair, -⟩ := Heap.exists_pair_of_list? hlist
    simp only [passage, Heap.shape_ref hpair, hlist, hhead, hkey, if_true]

/-- A list crosses by reference if it is not like a marker. -/
theorem passage_of_list? {head : Obj} {items : List Obj}
    (hlist : w.host.heap.list? o = some (head :: items))
    (hmark : ∀ i g, items ≠ [.int i, .int g]) : w.passage o = .reference := by
  obtain ⟨a, tail, rfl, hpair, -⟩ := Heap.exists_pair_of_list? hlist
  simp only [passage, Heap.shape_ref hpair, hlist]
  split
  · rename_i heq
    exact absurd (List.cons.inj (Option.some.inj heq)).2 (hmark _ _)
  · rfl

/-- Where no reference dangles, no marker turns up that was none. -/
theorem GrowsTo.wrapped_of_known (hg : w.GrowsTo w₁) (hclosed : w.host.IsClosed)
    (ho : w.host.heap.known o = o) (hp : w₁.passage o = .wrapped key) :
    w.passage o = .wrapped key := by
  obtain ⟨head, index, generation, hlist, hhead, hkey⟩ := passage_eq_wrapped.mp hp
  have hlist₀ := hg.host.heap.list?_of_known (fun h => (hclosed.pair h).2) ho hlist
  refine passage_eq_wrapped.mpr ⟨head, index, generation, hlist₀, ?_, hkey⟩
  obtain ⟨a, tail, rfl, hpair, -⟩ := Heap.exists_pair_of_list? hlist₀
  have hknown := (hclosed.pair hpair).1
  unfold Interpreter.intern at hhead ⊢
  rw [if_neg (show markerName ≠ "nil" by decide)] at hhead ⊢
  cases hfind : w₁.host.find? markerName with
  | some b =>
    simp only [hfind] at hhead
    obtain rfl := (Obj.eq_iff_of_isHeap rfl).mp hhead
    obtain ⟨c, hc⟩ := Heap.exists_get?_of_known hknown
    obtain hold | hnew := hg.host.newNames hfind
    · simp only [hold]
      exact Obj.eq_refl _
    · exact absurd (hc.symm.trans hnew) nofun
  | none =>
    -- a symbol that is yet to be made is not in the list
    simp only [hfind] at hhead
    obtain rfl := (Obj.eq_iff_of_isHeap rfl).mp hhead
    obtain ⟨c, hc⟩ := Heap.exists_get?_of_known hknown
    exact absurd (Heap.lt_size_of_get? hc) (Nat.not_lt.mpr hg.host.heap.size_le)

end World

/-! ### What is sent, and what arrives -/

namespace Host

/-- What is sent of an object, going by what it crosses as. -/
def IsSentAs (w : World) (o : Obj) : Passage → Parcel → Prop
  | .data j, p => p = .data j.render
  | .wrapped key, p => p = .wrapped key
  | .reference, p => ∃ id, p = .reference id ∧ w.host.resolve? id = some o

/-- In any session, an object is sent as what it crosses as. -/
theorem attains_send (o : Obj) :
    (send o).Attains w fun p w₁ => IsSentAs w₁ o (w.passage o) p := by
  intro hr
  have hsound := hr.sound.host
  revert hr
  have hsends := gives_send w o
  cases hpassage : w.passage o with
  | data j =>
    rw [hpassage] at hsends
    obtain ⟨w₁, -, hgives⟩ := hsends
    exact ((isAdditive_send o).attains hgives).mono fun p w₂ _ h => h.1
  | wrapped key =>
    rw [hpassage] at hsends
    exact ((isAdditive_send o).attains hsends).mono fun p w₂ _ h => h.1
  | reference =>
    rw [hpassage] at hsends
    obtain ⟨w₁, hb, hgives⟩ := hsends
    refine ((isAdditive_send o).attains hgives).mono fun p w₂ _ h => ?_
    obtain ⟨rfl, rfl⟩ := h
    exact ⟨_, rfl, Interpreter.resolve?_retain_self (hb.host_sound hsound) o⟩

/-- An object is sent as its passage says. -/
theorem succeeds_send (o : Obj) :
    (send o).Succeeds w fun p w₁ => IsSentAs w₁ o (w.passage o) p := (attains_send o).succeeds

end Host

/-- What an object crosses as can be read back. -/
theorem World.exists_ofText_of_passage (ho : w.passage o = .data j) :
    ∃ k, Json.ofText j.render = .ok k := by
  have hdatum : j.isDatum = true ∧ j.nesting = 0 := by
    by_cases hknown : w.host.heap.known o = o
    · exact (denotes_of_passage hknown ho).isDatum
    · -- what the heap never gave out counts as `nil`
      cases o with
      | ref a =>
        have hnone : w.host.heap.get? a = none := by
          cases hc : w.host.heap.get? a with
          | none => rfl
          | some c => exact absurd (if_pos (Heap.lt_size_of_get? hc)) hknown
        simp only [passage, Heap.shape, hnone] at ho
        cases ho
        exact ⟨rfl, rfl⟩
      | _ => exact absurd rfl hknown
  obtain ⟨k, hk⟩ := Json.exists_parse_render hdatum.1 (by rw [hdatum.2]; decide)
  exact ⟨k, by rw [Json.ofText, hk]⟩

/-- An object is the symbol of truth, or `nil` for falsehood. -/
def World.IsFlag (w : World) (o : Obj) : Bool → Prop
  | true => ∃ a, o = .ref a ∧ w.host.find? truthName = some a
  | false => o = .nil

namespace Border

variable {k : Json} {x : Value} {Q Q' : Value → World → Prop}

/-- A number is unpacked as a handle for it. -/
theorem attains_unpack_reference (id : ObjectId) :
    (unpack (.reference id)).Attains w fun v _ => ∃ h, v = .handle h ∧ h.id = id := by
  refine (attains_change (c := .adopt id) rfl).bind fun h w₁ _ heq => attains_pure ⟨h, rfl, ?_⟩
  rw [heq.1]
  exact World.id_adopt w id

theorem HandsOver.mono (h : HandsOver Q o w) (hQ : ∀ v w₁, w.Sustains w₁ → Q v w₁ → Q' v w₁) :
    HandsOver Q' o w :=
  Succeeds.mono h fun _ _ hs hp w₂ hs₂ => (hp w₂ hs₂).mono fun v w₃ hs₃ hv =>
    hQ v w₃ (hs.trans (hs₂.trans hs₃)) hv

/-- What crosses as a reference is handed over as a handle that stands for it. -/
theorem handsOver_reference (ho : w.passage o = .reference) :
    HandsOver (fun v w₁ => ∃ h, v = .handle h ∧ w₁.host.resolve? h.id = some o) o w := by
  refine (Host.succeeds_send o).mono fun p w₁ _ hp w₂ hs₂ => ?_
  rw [ho] at hp
  obtain ⟨id, rfl, hid⟩ := hp
  refine (attains_unpack_reference id).succeeds.mono fun v w₃ hs₃ hv => ?_
  obtain ⟨h, rfl, rfl⟩ := hv
  exact ⟨h, rfl, (hs₂.trans hs₃).grown.host.kept hid⟩

/-- What crosses as data is handed over as the value that the data are read as. -/
theorem handsOver_data (ho : w.passage o = .data j) (hread : Json.ofText j.render = .ok k) :
    HandsOver (fun v _ => v = .ofJson k) o w := by
  refine (Host.succeeds_send o).mono fun p w₁ _ hp w₂ _ => ?_
  rw [ho] at hp
  obtain rfl := hp
  rw [unpack, hread]
  exact succeeds_pure rfl

/-- A marker is handed over as the value that was wrapped, if it still is. -/
theorem handsOver_wrapped (ho : w.passage o = .wrapped key)
    (hx : w.border.proxies.get? key = some x) : HandsOver (fun v _ => v = x) o w := by
  refine (Host.succeeds_send o).mono fun p w₁ hs₁ hp w₂ hs₂ => ?_
  rw [ho] at hp
  obtain rfl := hp
  refine (succeeds_change (c := .unwrap? key) rfl).bind fun r w₃ _ heq => ?_
  obtain ⟨rfl, -⟩ := heq
  have hkept : w₂.border.proxies.get? key = some x := by
    rw [(hs₁.trans hs₂).grown.proxies, hx]
  simp only [Change.run, hkept]
  exact succeeds_pure rfl

/-! ### What the host is asked -/

/-- Truth arrives as such. -/
theorem handsOver_truth (ha : w.host.find? truthName = some a) :
    HandsOver (fun v _ => v = .bool true) (.ref a) w := by
  intro hdue
  obtain ⟨value, function, hsymbol⟩ := hdue.steady.interned.symbol (by decide) ha
  revert hdue
  have hread : Json.ofText (Json.bool true).render = .ok (.bool true) := by cbv
  exact handsOver_data (Interpreter.Denotes.truth hsymbol ha).passage hread

/-- Truth and falsehood arrive as such. -/
theorem handsOver_flag {b : Bool} (hb : w.IsFlag o b) :
    HandsOver (fun v _ => v.isTruthy = b) o w := by
  cases b with
  | false =>
    obtain rfl := hb
    have hread : Json.ofText Json.null.render = .ok .null := by cbv
    exact (handsOver_data rfl hread).mono fun v _ _ hv => hv ▸ rfl
  | true =>
    obtain ⟨a, rfl, ha⟩ := hb
    exact (handsOver_truth ha).mono fun v _ _ hv => hv ▸ rfl

end Border

/-- The answer to a test is the flag for it. -/
theorem Host.succeeds_test (p : Shape → Bool) (o : Obj) :
    (test p o).Succeeds w fun t w₁ => w₁.IsFlag t (p (w.host.heap.shape o)) := by
  refine (succeeds_query .heap).bind fun h w₁ _ heq => ?_
  obtain ⟨rfl, rfl⟩ := heq
  simp only [Query.ask]
  cases p (w₁.host.heap.shape o) with
  | false => exact succeeds_pure rfl
  | true =>
    exact (builds_intern (show truthName ≠ "nil" by decide)).succeeds (isAdditive_change rfl)

namespace Border

/-- The host takes pairs for pairs, and nothing else. -/
theorem succeeds_isPair (hoffers : w.Offers .isCons) (ho : w.host.resolve? g.id = some o)
    (hknown : w.host.heap.known o = o) :
    (isPair (.handle g)).Succeeds w fun b _ => b = Host.isConsShape (w.host.heap.shape o) := by
  have hcall : (call "consp" [.handle g]).Succeeds w fun v _ =>
      v.isTruthy = Host.isConsShape (w.host.heap.shape o) := by
    refine (succeeds_call (b := .isCons) (by cbv) hoffers (by
      simpa using World.crosses_handle ho) (fun v => World.lasting_const _)
      (fun os w₁ hs hos => ?_) fun t w₁ _ ht => handsOver_flag ht).mono fun v w₁ _ h => h.1
    cases hos with
    | @cons _ o' _ _ ho' hnil =>
      cases hnil
      obtain rfl := Option.some.inj ((hs.grown.host.kept ho).symm.trans ho')
      rw [← hs.grown.host.heap.shape_of_known hknown]
      exact Host.succeeds_test _ o
  exact succeeds_holding (fun b => World.lasting_const _)
    (hcall.bind fun v w₁ _ hv => succeeds_pure hv)

end Border

namespace World

/-- The host can tell whether an object at the head of a list is the symbol of quoting: if it
crosses as a wrapped value, then there is such a value, and it is not for that symbol. -/
def Discerns (w : World) (head : Obj) : Prop :=
  w.host.heap.known head = head ∧ ∀ w₁ key, w.Sustains w₁ → w₁.passage head = .wrapped key →
    ∃ x, w₁.border.proxies.get? key = some x ∧ ∀ f w₂ y, x = .handle f → w₁.GrowsTo w₂ →
      w₂.host.resolve? f.id = some y → ¬w₂.host.heap.Names y "quote"

/-- Whether a value that has arrived for the head of a list is a handle of the symbol of
quoting. If it is not, it will not be. -/
def Tells (w : World) (v : Value) : (quotes : Bool) → Prop
  | true => ∃ f y, v = .handle f ∧ w.host.resolve? f.id = some y ∧ w.host.heap.Names y "quote"
  | false => ∀ f w₁ y, v = .handle f → w.GrowsTo w₁ → w₁.host.resolve? f.id = some y →
    ¬w₁.host.heap.Names y "quote"

theorem lasting_tells (v : Value) (quotes : Bool) : Lasting fun w => w.Tells v quotes := by
  refine ⟨fun {w w₁} hg h => ?_⟩
  cases quotes with
  | true =>
    obtain ⟨f, y, hv, hy, hn⟩ := h
    exact ⟨f, y, hv, hg.host.kept hy, hg.host.heap.names hn⟩
  | false => exact fun f w₂ y hv hg₂ => h f w₂ y hv (hg.trans hg₂)

/-- A symbol crosses as a reference, unless it is the empty list or truth. -/
theorem passage_of_names (hn : w.host.heap.Names o name) (hnil : name ≠ "nil")
    (htruth : name ≠ truthName) : w.passage o = .reference := by
  obtain ⟨h, -⟩ | ⟨a, value, function, rfl, ha⟩ := hn
  · exact absurd h hnil
  · simp only [passage, Heap.shape_ref ha]
    exact if_neg fun h => htruth h.1

end World

namespace Border

/-- The head of a list tells whether it is `quote`, once it is handed over. -/
theorem handsOver_head {head : Obj} (hhead : w.Discerns head) (hs : w.Sustains w₁) :
    HandsOver (fun v w₂ => ∃ quotes, (quotes = true ↔ w.host.heap.Names head "quote") ∧
      w₂.Tells v quotes) head w₁ := by
  by_cases hquote : w.host.heap.Names head "quote"
  · have hnames := hs.grown.host.heap.names hquote
    have hpassage := World.passage_of_names hnames (by decide) (by decide)
    refine (handsOver_reference hpassage).mono fun v w₂ hs₂ hv => ⟨true, by simpa using hquote, ?_⟩
    obtain ⟨f, hf, hkept⟩ := hv
    exact ⟨f, head, hf, hkept, hs₂.grown.host.heap.names hnames⟩
  · refine HandsOver.mono (Q := fun v w₂ => w₂.Tells v false) ?_
      fun v w₂ _ hv => ⟨false, by simpa using hquote, hv⟩
    cases hpassage : w₁.passage head with
    | data j =>
      obtain ⟨k, hk⟩ := World.exists_ofText_of_passage hpassage
      refine (handsOver_data hpassage hk).mono fun v _ _ hv f w₃ y hf => ?_
      -- data bring no handle
      subst hv
      cases k with
      | int i =>
        rw [Value.ofJson, Value.ofInt] at hf
        split at hf <;> cases hf
      | _ => cases hf
    | reference =>
      refine (handsOver_reference hpassage).mono fun v w₂ hs₂ hv f w₃ y hf hg₃ hy hnamed => ?_
      obtain ⟨f', rfl, hf'⟩ := hv
      obtain rfl := Value.handle.inj hf
      obtain rfl := Option.some.inj ((hg₃.host.kept hf').symm.trans hy)
      have hg := hs.grown.trans (hs₂.grown.trans hg₃)
      exact hquote (hg.host.heap.names_of_known hhead.1 hnamed)
    | wrapped key =>
      obtain ⟨x, hx, hnot⟩ := hhead.2 w₁ key hs hpassage
      refine (handsOver_wrapped hpassage hx).mono fun v w₂ hs₂ hv f w₃ y hf hg₃ => ?_
      exact hnot f w₃ y (hv.symm.trans hf) (hs₂.grown.trans hg₃)

/-- Two live handles of the symbol of a name that only one symbol has are the same. -/
theorem eq_of_sole {f h : Handle} {x y : Obj} (hw : w.Steady) (hsole : w.host.IsSole name)
    (hnil : name ≠ "nil") (hf : f ∈ w.script.held) (hh : h ∈ w.script.held)
    (hx : w.host.resolve? f.id = some x) (hy : w.host.resolve? h.id = some y)
    (hfx : w.host.heap.Names x name) (hhy : w.host.heap.Names y name) : f = h := by
  obtain ⟨heq, -⟩ | ⟨a, value, function, rfl, ha⟩ := hfx
  · exact absurd heq hnil
  obtain ⟨heq, -⟩ | ⟨b, value', function', rfl, hb⟩ := hhy
  · exact absurd heq hnil
  obtain rfl := Option.some.inj ((hsole _ _ _ ha).symm.trans (hsole _ _ _ hb))
  have hroots : ∀ {g}, g ∈ w.script.held → g ∈ w.roots := fun hg =>
    List.mem_append_left _ (List.mem_append_left _ hg)
  exact eq_of_tracks hw.sound.border (hw.tracks (hroots hf)) (hw.tracks (hroots hh))
    (Interpreter.eq_of_resolve? hw.sound.host rfl hx hy)

/-- The host takes a pair for a quoting form if what arrives for its head is a handle of the
symbol of quoting, unless it cannot be taken in. -/
theorem succeedsUnless_isQuoted {head tail : Obj} {P : Bool → Prop} (hoffers : w.Offers .car)
    (hsole : w.host.IsSole "quote") (ho : w.host.resolve? g.id = some (.ref a))
    (ha : w.host.heap.get? a = some (.cons head tail))
    (hhead : ∀ w₁, w.Sustains w₁ →
      HandsOverUnless E (fun v w₂ => ∃ quotes, P quotes ∧ w₂.Tells v quotes) head w₁) :
    (isQuoted (.handle g)).SucceedsUnless E w fun b _ => P b := by
  -- what is learned of the head lasts until it is compared
  have hlasting : ∀ v, World.Lasting fun w => ∃ quotes, P quotes ∧ w.Tells v quotes := by
    refine fun v => ⟨fun hg h => ?_⟩
    obtain ⟨quotes, hP, hv⟩ := h
    exact ⟨quotes, hP, (World.lasting_tells v quotes).grows hg hv⟩
  have hcall : (call "car" [.handle g]).SucceedsUnless E w fun v w₁ =>
      (∃ quotes, P quotes ∧ w₁.Tells v quotes) ∧ ∀ h ∈ v.handles, h ∈ w₁.script.held := by
    refine succeedsUnless_call (b := .car) (R := fun r _ => r = head) (by cbv) hoffers (by
      simpa using (World.crosses_handle ho).unless) hlasting
      (fun os w₁ hs hos => ?_) fun r w₁ hs (hr : r = head) => by
        rw [hr]
        exact hhead w₁ hs
    -- the pair that the handle is for is the one whose head is asked for
    cases hos with
    | @cons _ o' _ _ ho' hnil =>
      cases hnil
      obtain rfl := Option.some.inj ((hs.grown.host.kept ho).symm.trans ho')
      have hpair := Heap.shape_ref (hs.grown.host.heap.cell ha)
      have hcar : (Host.car (.ref a)).Succeeds w₁ fun r _ => r = head := by
        refine (succeeds_query .heap).bind fun h w₂ _ heq => ?_
        obtain ⟨rfl, rfl⟩ := heq
        simp only [Query.ask, hpair]
        exact succeeds_pure rfl
      exact hcar
  refine succeedsUnless_holding (fun b => World.lasting_const _)
    (hcall.bind fun v w₁ hs₁ hv => ?_)
  -- the symbol of quoting is looked up, and the head compared with it
  refine SucceedsUnless.bind (succeeds_symbol (by cbv)).unless fun h w₂ hs₂ hh => ?_
  intro hdue
  have hsteady := hdue.steady
  revert hdue
  refine succeedsUnless_pure ?_
  obtain ⟨⟨y, hy, hnames⟩, hheld, hsuffix⟩ := hh
  obtain ⟨⟨quotes, hP, htells⟩, hvheld⟩ := hv
  have htells₂ := (World.lasting_tells v quotes).grows hs₂.grown htells
  have hsame : v.same (.handle h) = quotes := by
    cases quotes with
    | true =>
      obtain ⟨f, x, rfl, hx, hxnames⟩ := htells₂
      have hfheld := hsuffix.subset (hvheld f List.mem_cons_self)
      obtain rfl := eq_of_sole hsteady ((hs₁.trans hs₂).sole hsole) (by decide) hfheld hheld hx hy
        hxnames hnames
      simp [Value.same]
    | false =>
      refine Bool.eq_false_iff.mpr fun hsame => ?_
      exact htells₂ h w₂ y (Value.eq_handle_of_same hsame) (.refl w₂) hy hnames
  rwa [hsame]

end Border

/-! ### Lists that the host makes -/

namespace World

/-- A script value is a handle of a list of what other values stand for. -/
def IsListFor (w : World) (v : Value) (vs : List Value) : Prop :=
  ∃ g o os, v = .handle g ∧ w.host.resolve? g.id = some o ∧ w.host.heap.list? o = some os ∧
    List.Forall₂ w.StandsFor vs os

theorem lasting_isListFor (v : Value) (vs : List Value) : Lasting fun w => w.IsListFor v vs := by
  refine ⟨fun hg h => ?_⟩
  obtain ⟨g, o, os, hv, ho, hlist, hos⟩ := h
  exact ⟨g, o, os, hv, hg.host.kept ho, hg.host.heap.list? hlist,
    hos.imp fun v o hvo => (lasting_standsFor v o).grows hg hvo⟩

/-- From now on, what values stand for is not like a marker. -/
def AvoidsMark (w : World) (vs : List Value) : Prop :=
  ∀ w₁ os, w.Sustains w₁ → List.Forall₂ w₁.StandsFor vs os → ∀ x i g, os ≠ [x, .int i, .int g]

/-- A list of another length is no marker. -/
theorem avoidsMark_of_length {vs : List Value} (h : vs.length ≠ 3) : w.AvoidsMark vs := by
  rintro w₁ os - hos x i g rfl
  exact h hos.length_eq

/-- A list whose second item is no number is not like a marker. -/
theorem avoidsMark_of_second {vs : List Value} (ho : w.host.resolve? g.id = some (.ref a)) :
    w.AvoidsMark (v :: .handle g :: vs) := by
  rintro w₁ os hs hos x i n rfl
  cases hos with
  | cons _ hrest =>
    cases hrest with
    | cons hsecond _ =>
      cases (hs.grown.host.kept ho).symm.trans hsecond

end World

namespace Border

/-- The host makes a list of what values stand for, unless one of them cannot be packed. -/
theorem succeedsUnless_list {vs : List Value} (hoffers : w.Offers .list)
    (hvs : ∀ u ∈ v :: vs, w.CrossesUnless E u) (hmark : w.AvoidsMark (v :: vs)) :
    (list (v :: vs)).SucceedsUnless E w fun u w₁ => w₁.IsListFor u (v :: vs) := by
  refine (succeedsUnless_call (b := .list) (R := fun o w₁ => ∃ os,
    w₁.host.heap.list? o = some os ∧ List.Forall₂ w₁.StandsFor (v :: vs) os) (by cbv) hoffers hvs
    (Q := fun u w₁ => w₁.IsListFor u (v :: vs)) (fun u => World.lasting_isListFor u _)
    (fun os w₁ hs hos => ?_) fun o w₁ hs ho => ?_).mono fun u w₁ _ h => h.1
  · have hlist : (Host.list os).Succeeds w₁ fun o w₂ => w₂.host.heap.list? o = some os :=
      ((Host.builds_list os (Nat.zero_le _)).succeeds (Host.isAdditive_list os)).mono
        fun o w₂ _ h => h.1.list?
    exact hlist.mono fun o w₂ hs₂ ho => ⟨os, ho, hos.imp fun u x hx =>
      (World.lasting_standsFor u x).grows hs₂.grown hx⟩
  · obtain ⟨os, hlist, hos⟩ := ho
    -- the list could be taken for a marker by its first three items
    have hnot := hmark w₁ os hs hos
    cases hos with
    | @cons _ x _ xs hx hxs =>
      have hpassage := World.passage_of_list? hlist fun i g heq => hnot x i g (by rw [heq])
      refine HandsOver.unless ((handsOver_reference hpassage).mono fun u w₂ hs₂ hu => ?_)
      obtain ⟨h, rfl, hh⟩ := hu
      exact ⟨h, o, x :: xs, rfl, hh, hs₂.grown.host.heap.list? hlist,
        (List.Forall₂.cons hx hxs).imp fun u y hy =>
          (World.lasting_standsFor u y).grows hs₂.grown hy⟩

/-- The host makes a list of what values stand for. -/
theorem succeeds_list {vs : List Value} (hoffers : w.Offers .list)
    (hvs : ∀ u ∈ v :: vs, w.Crosses u) (hmark : w.AvoidsMark (v :: vs)) :
    (list (v :: vs)).Succeeds w fun u w₁ => w₁.IsListFor u (v :: vs) :=
  (succeedsUnless_list hoffers (fun u hu => (hvs u hu).unless) hmark).succeeds

end Border

namespace World

/-- A script value is a handle of a form that quotes what another value stands for. -/
def IsQuoteFor (w : World) (v' v : Value) : Prop :=
  ∃ g x o q, v' = .handle g ∧ w.host.resolve? g.id = some x ∧
    w.host.heap.list? x = some [q, o] ∧ w.host.heap.Names q "quote" ∧ w.StandsFor v o

theorem IsQuoteFor.crosses (h : w.IsQuoteFor v' v) : w.Crosses v' := by
  obtain ⟨g, x, o, q, rfl, hx, -⟩ := h
  exact crosses_handle hx

theorem lasting_isQuoteFor (v' v : Value) : Lasting fun w => w.IsQuoteFor v' v := by
  refine ⟨fun hg h => ?_⟩
  obtain ⟨g, x, o, q, hv, hx, hlist, hq, ho⟩ := h
  exact ⟨g, x, o, q, hv, hg.host.kept hx, hg.host.heap.list? hlist, hg.host.heap.names hq,
    (lasting_standsFor v o).grows hg ho⟩

end World

namespace Border

/-- What a value is quoted as, unless it cannot be packed. -/
theorem succeedsUnless_quote (hoffers : w.Offers .list) (hv : w.CrossesUnless E v) :
    (quote v).SucceedsUnless E w fun v' w₁ => w₁.IsQuoteFor v' v := by
  refine (succeedsUnless_keeping (fun v' => World.lasting_isQuoteFor v' v) ?_).mono
    fun _ _ _ h => h.1
  refine SucceedsUnless.bind (succeeds_symbol (by cbv)).unless fun h w₁ hs₁ hh => ?_
  obtain ⟨⟨q, hq, hnames⟩, -⟩ := hh
  refine (succeedsUnless_list (hs₁.offers hoffers) ?_
    (World.avoidsMark_of_length (by simp))).mono fun v' w₂ hs₂ hv' => ?_
  -- the form has two items, the symbol of quoting and the value
  · rintro u (_ | ⟨_, _ | ⟨_, hnil⟩⟩)
    · exact (World.crosses_handle hq).unless
    · exact hs₁.crossesUnless hv
    · cases hnil
  · obtain ⟨g, x, os, rfl, hx, hlist, hos⟩ := hv'
    cases hos with
    | @cons _ q' _ _ hq' hrest =>
      cases hrest with
      | @cons _ o _ _ ho hnil =>
        cases hnil
        obtain rfl := Option.some.inj ((hs₂.grown.host.kept hq).symm.trans hq')
        exact ⟨g, x, o, q, rfl, hx, hlist, hs₂.grown.host.heap.names hnames, ho⟩

/-- What a value is quoted as. -/
theorem succeeds_quote (hoffers : w.Offers .list) (hv : w.Crosses v) :
    (quote v).Succeeds w fun v' w₁ => w₁.IsQuoteFor v' v :=
  (succeedsUnless_quote hoffers hv.unless).succeeds

end Border

/-! ### Arguments of forms -/

namespace Heap

variable {h h₁ : Heap} {head tail x r : Obj}

/-- What an object stands for as an argument of a form: a quoting form for what it quotes,
and anything else for itself. -/
def unquoted (h : Heap) (o : Obj) : Obj :=
  if h.symbolName? (h.head o) = some "quote" then h.head (h.tail o) else o

/-- What has the name of a symbol is named so. -/
theorem names_of_symbolName? (hn : h.symbolName? o = some name) : h.Names o name := by
  unfold symbolName? at hn
  split at hn
  · rename_i n value function hshape
    obtain rfl := Option.some.inj hn
    obtain ⟨a, rfl, ha⟩ := exists_ref_of_shape hshape
    exact .inr ⟨a, value, function, rfl, ha⟩
  · cases hn

/-- What starts with no symbol of quoting stands for itself. -/
theorem unquoted_eq_self
    (ho : ∀ head tail, h.shape o = .cell (.cons head tail) → ¬h.Names head "quote") :
    h.unquoted o = o := by
  refine if_neg fun hquote => ?_
  unfold Heap.head at hquote
  split at hquote
  · rename_i hshape
    exact ho _ _ hshape (names_of_symbolName? hquote)
  · cases hquote

/-- A quoted object stands for what is quoted. -/
theorem unquoted_of_quote (hshape : h.shape o = .cell (.cons head tail))
    (hn : h.Names head "quote") (ht : h.list? tail = some [x]) : h.unquoted o = x := by
  rw [unquoted, Heap.head, Heap.tail, hshape]
  simp only [hn.symbolName? (show "quote" ≠ "nil" by decide), if_true]
  exact head_of_list? ht

/-- The literal of a quoting form. -/
theorem literal?_of_quote (hshape : h.shape o = .cell (.cons head tail))
    (hn : h.Names head "quote") (ht : h.list? tail = some [x]) : h.literal? o = some x := by
  simp only [literal?, hshape, ht, if_pos (hn.symbolName? (show "quote" ≠ "nil" by decide))]

/-- What a form in the heap is a literal for, it stays one for. -/
theorem GrowsTo.literal?_of_known (hg : h.GrowsTo h₁) (ho : h.known o = o)
    (hr : h.literal? o = some r) : h₁.literal? o = some r := by
  unfold Heap.literal? at hr ⊢
  rw [hg.shape_of_known ho]
  split at hr
  · exact hr
  · split at hr
    · rename_i hquoted
      split at hr
      · rename_i hhead
        simp only [hg.list? hquoted, if_pos (hg.symbolName? hhead)]
        exact hr
      · cases hr
    · cases hr
  · exact hr

end Heap

namespace Registry

/-- A value that a registry gives is among its values. -/
theorem mem_values_of_get? {r : Registry α} {x : α} (h : r.get? key = some x) :
    x ∈ r.values := by
  unfold get? at h
  split at h
  · rename_i slot hslot
    split at h
    · exact List.mem_filterMap.mpr ⟨slot, List.mem_of_getElem? hslot, h⟩
    · cases h
  · cases h

end Registry

namespace World

/-- The symbol of truth has itself as its value. -/
def KnowsTruth (w : World) : Prop :=
  ∃ a function, w.host.find? truthName = some a ∧
    w.host.heap.get? a = some (.symbol truthName (some (.ref a)) function)

theorem lasting_knowsTruth : Lasting KnowsTruth := by
  refine ⟨fun hg h => ?_⟩
  obtain ⟨a, function, hfind, ha⟩ := h
  exact ⟨a, function, hg.host.names hfind, hg.host.heap.cell ha⟩

/-- An object does as an argument of a form. If it is a symbol, it is a keyword; if it starts
with the symbol of quoting, it quotes one thing; and if it starts with the marker of a wrapped
value, the value is there and is not for that symbol. -/
def IsArgument (w : World) (o : Obj) : Prop :=
  match w.host.heap.shape o with
  | .cell (.symbol name _ _) => isKeywordName name = true
  | .cell (.cons head tail) =>
    (w.host.heap.Names head "quote" → ∃ x, w.host.heap.list? tail = some [x]) ∧
      ∀ key, w.passage head = .wrapped key → ∃ x, w.border.proxies.get? key = some x ∧
        ∀ f y, x = .handle f → w.host.resolve? f.id = some y → ¬w.host.heap.Names y "quote"
  | _ => True

/-- A script value does as an argument of a form: a handle if its object does, and plain data
that the host can read. Truth does if its symbol stands for itself. -/
def IsSpliceable (w : World) : Value → Prop
  | .handle g => ∃ o, w.host.resolve? g.id = some o ∧ w.IsArgument o
  | v => (v = .bool true → w.KnowsTruth) ∧ ∃ j, v.toJson = .ok j ∧ j.isNulFree = true ∧
    j.isDatum = true ∧ j.nesting < Json.maxNesting

/-- What a script value stands for as an argument of a form, where a handle stands for what
it is for in a world before. -/
def Supplies (w w₁ : World) : Value → Obj → Prop
  | .handle g, r => ∃ o, w.host.resolve? g.id = some o ∧ r = w.host.heap.unquoted o
  | .function c, r => w₁.StandsFor (.function c) r
  | v, r => w₁.EmbodiesData v r

/-- Data supply what embodies them. -/
theorem supplies_data (hj : v.toJson = .ok j) : w.Supplies w₁ v o ↔ w₁.EmbodiesData v o := by
  cases v with
  | handle _ | function _ => cases hj
  | _ => exact Iff.rfl

/-- A form evaluates to an object whatever values variables have, but that the form of truth
is a variable. -/
structure IsFirm (w : World) (v : Value) (form r : Obj) : Prop where
  literal : w.host.heap.literal? form = some r
  symbol : ∀ name, w.host.heap.symbolName? form = some name →
    isKeywordName name = true ∨ v = .bool true ∧ (w.host.find? truthName).map .ref = some form

/-- From now on, what one script value stands for evaluates to what another one stands for as
an argument of a form. -/
def SplicesAs (w₀ w : World) (v v' : Value) : Prop :=
  ∀ w₁ form, w.Sustains w₁ → w₁.StandsFor v' form →
    ∃ r, w₀.Supplies w₁ v r ∧ w₁.IsFirm v form r

/-- What a value is spliced as later it is spliced as from the start. -/
theorem Sustains.splicesAs {w₀ : World} (hs : w.Sustains w₁) (h : w₀.SplicesAs w v v') :
    w₀.SplicesAs w₁ v v' := fun w₂ form hs₂ => h w₂ form (hs.trans hs₂)

/-- A handle is discerned by what its object starts with, where no reference dangles. -/
theorem discerns_of_isArgument {head tail : Obj} (hw : w.Steady) (hclosed : w.host.IsClosed)
    (ha : w.host.heap.get? a = some (.cons head tail)) (ho : w.IsArgument (.ref a)) :
    w.Discerns head := by
  have hknown := (hclosed.pair ha).1
  simp only [IsArgument, Heap.shape_ref ha] at ho
  refine ⟨hknown, fun w₁ key hs hp => ?_⟩
  obtain ⟨x, hx, hnot⟩ := ho.2 key (hs.grown.wrapped_of_known hclosed hknown hp)
  refine ⟨x, by rw [hs.grown.proxies, hx], fun f w₂ y hf hg hy hnamed => ?_⟩
  -- a value that is wrapped is live
  have hroot : f ∈ w.roots := List.mem_append_right _
    (List.mem_flatMap.mpr ⟨x, Registry.mem_values_of_get? hx, by simp [hf, Value.handles]⟩)
  obtain ⟨y', hy'⟩ := hw.resolves hroot
  have hg₂ := hs.grown.trans hg
  obtain rfl := Option.some.inj ((hg₂.host.kept hy').symm.trans hy)
  exact hnot f y' hf hy' (hg₂.host.heap.names_of_known (hclosed.kept hy') hnamed)

/-- The object of a handle that is no list to be called evaluates to what the handle stands
for as an argument. -/
theorem splicesAs_handle {w₀ : World} (hs : w₀.Sustains w) (hclosed : w₀.host.IsClosed)
    (ho : w₀.host.resolve? g.id = some o) (harg : w₀.IsArgument o)
    (hquote : ∀ head tail, w₀.host.heap.shape o = .cell (.cons head tail) →
      w₀.host.heap.Names head "quote") : w₀.SplicesAs w (.handle g) (.handle g) := by
  intro w₁ form hs₁ hform
  have hg := (hs.trans hs₁).grown
  obtain rfl := Option.some.inj ((hg.host.kept ho).symm.trans hform)
  have hknown := hclosed.kept ho
  -- an argument quotes, or stands for itself
  have hliteral : w₀.host.heap.literal? o = some (w₀.host.heap.unquoted o) := by
    unfold IsArgument at harg
    cases hshape : w₀.host.heap.shape o with
    | cell c =>
      cases c with
      | cons head tail =>
        rw [hshape] at harg
        have hn := hquote head tail hshape
        obtain ⟨x, hx⟩ := harg.1 hn
        rw [Heap.literal?_of_quote hshape hn hx, Heap.unquoted_of_quote hshape hn hx]
      | symbol name value function =>
        rw [hshape] at harg
        rw [Heap.unquoted_eq_self (by simp [hshape])]
        simp only [Heap.literal?, hshape]
        exact if_pos harg
      | _ =>
        rw [Heap.unquoted_eq_self (by simp [hshape])]
        simp only [Heap.literal?, hshape]
    | _ =>
      rw [Heap.unquoted_eq_self (by simp [hshape])]
      simp only [Heap.literal?, hshape]
  refine ⟨_, ⟨o, ho, rfl⟩, hg.host.heap.literal?_of_known hknown hliteral, fun name hn => ?_⟩
  rw [Heap.symbolName?, hg.host.heap.shape_of_known hknown] at hn
  unfold IsArgument at harg
  split at hn
  · rename_i n value function hshape
    obtain rfl := Option.some.inj hn
    rw [hshape] at harg
    exact .inl harg
  · cases hn

/-- Plain data but for an object with fields evaluate to themselves. -/
theorem splicesAs_data {w₀ : World} (hs : w₀.Sustains w) (hj : v.toJson = .ok j)
    (htruth : v = .bool true → w₀.KnowsTruth)
    (hobject : ∀ field fields, v ≠ .object (field :: fields)) : w₀.SplicesAs w v v := by
  intro w₁ form hs₁ hform
  obtain ⟨hshows, hdata⟩ := (standsFor_data hj).mp hform
  refine ⟨form, (supplies_data hj).mpr hdata, ?_⟩
  cases v with
  | handle _ | function _ | native _ => cases hj
  | bool b =>
    -- false is the empty list, and truth the symbol of that name
    cases b with
    | false =>
      cases hshows
      exact ⟨rfl, fun _ hn => by cases hn⟩
    | true =>
      obtain ⟨a, rfl, ha, -⟩ := hshows
      obtain ⟨a', function, hfind, hcell⟩ :=
        lasting_knowsTruth.grows (hs.trans hs₁).grown (htruth rfl)
      obtain rfl := Option.some.inj (hfind.symm.trans ha)
      refine ⟨?_, fun _ _ => .inr ⟨rfl, by rw [ha]; rfl⟩⟩
      simp only [Heap.literal?, Heap.shape_ref hcell]
      exact if_neg (by decide)
  | null | int _ =>
    cases hshows
    exact ⟨rfl, fun _ hn => by cases hn⟩
  | float x =>
    cases form with
    | int _ | float _ => exact ⟨rfl, fun _ hn => by cases hn⟩
    | nil | ref _ => cases hshows
  | text s =>
    obtain ⟨a, rfl, ha⟩ := hshows
    exact ⟨by simp only [Heap.literal?, Heap.shape_ref ha],
      fun name hn => by simp [Heap.symbolName?, Heap.shape_ref ha] at hn⟩
  | list items =>
    obtain ⟨a, os, rfl, ha⟩ := hshows
    exact ⟨by simp only [Heap.literal?, Heap.shape_ref ha],
      fun name hn => by simp [Heap.symbolName?, Heap.shape_ref ha] at hn⟩
  | object fields =>
    cases fields with
    | nil =>
      cases hshows
      exact ⟨rfl, fun _ hn => by cases hn⟩
    | cons field fields => exact absurd rfl (hobject field fields)

/-- A form that quotes a value evaluates to what the value stands for. -/
theorem IsQuoteFor.splicesAs {w₀ : World} (h : w.IsQuoteFor v' v)
    (hv : ∀ w₁ o, w.Sustains w₁ → w₁.StandsFor v o → w₀.Supplies w₁ v o) :
    w₀.SplicesAs w v v' := by
  intro w₁ form hs hform
  obtain ⟨g, x, o, q, rfl, hx, hlist, hq, ho⟩ := (lasting_isQuoteFor v' v).grows hs.grown h
  obtain rfl := Option.some.inj (hx.symm.trans hform)
  obtain ⟨a, tail, rfl, hpair, htail⟩ := Heap.exists_pair_of_list? hlist
  refine ⟨o, hv w₁ o hs ho, Heap.literal?_of_quote (Heap.shape_ref hpair) hq htail, ?_⟩
  intro name hn
  simp [Heap.symbolName?, Heap.shape_ref hpair] at hn

end World

/-- The builtins that forms are made with are offered, and one symbol is named for quoting. -/
structure World.OffersForms (w : World) : Prop where
  list : w.Offers .list
  isCons : w.Offers .isCons
  car : w.Offers .car
  evaluate : w.Offers .evaluate
  quote : w.host.IsSole "quote"

instance (w : World) : Decidable w.OffersForms :=
  decidable_of_iff' (w.Offers .list ∧ w.Offers .isCons ∧ w.Offers .car ∧ w.Offers .evaluate ∧
    w.host.IsSole "quote") ⟨fun ⟨a, b, c, d, e⟩ => ⟨a, b, c, d, e⟩, fun ⟨a, b, c, d, e⟩ =>
      ⟨a, b, c, d, e⟩⟩

/-- What sustains a world offers its functions. -/
theorem World.Sustains.offersForms (hs : w.Sustains w₁) (h : w.OffersForms) :
    w₁.OffersForms where
  list := hs.offers h.list
  isCons := hs.offers h.isCons
  car := hs.offers h.car
  evaluate := hs.offers h.evaluate
  quote := hs.sole h.quote

namespace Border

/-- What is no pair goes into a form as it is. -/
theorem succeeds_quoteIfList_atom (hoffers : w.OffersForms)
    (ho : w.host.resolve? g.id = some o) (hknown : w.host.heap.known o = o)
    (hatom : Host.isConsShape (w.host.heap.shape o) = false) :
    (quoteIfList (.handle g)).Succeeds w fun v _ => v = .handle g := by
  refine (succeeds_isPair hoffers.isCons ho hknown).bind fun b w₁ _ hb => ?_
  obtain rfl := hb.trans hatom
  exact succeeds_pure rfl

/-- What becomes of a pair depends on what arrives for its head: it goes into the form as it is
if that is a handle of the symbol of quoting, and is quoted otherwise. -/
theorem succeedsUnless_quoteIfList_pair {w₀ : World} {head tail : Obj} {P : Bool → Prop}
    {S : Value → World → Prop} (hclosed : w₀.host.IsClosed) (hoffers : w₀.OffersForms)
    (ho : w₀.host.resolve? g.id = some (.ref a))
    (ha : w₀.host.heap.get? a = some (.cons head tail)) (hs : w₀.Sustains w)
    (hhead : ∀ w₁, w₀.Sustains w₁ →
      HandsOverUnless E (fun v w₂ => ∃ quotes, P quotes ∧ w₂.Tells v quotes) head w₁)
    (hend : ∀ quotes w₁, w.Sustains w₁ → P quotes →
      (if quotes then pure (.handle g) else quote (.handle g)).SucceedsUnless E w₁ S) :
    (quoteIfList (.handle g)).SucceedsUnless E w S := by
  have hknown := hclosed.kept ho
  refine SucceedsUnless.bind (succeeds_isPair (hs.offersForms hoffers).isCons
    (hs.grown.host.kept ho) (hs.grown.host.heap.known hknown)).unless fun b w₁ hs₁ hb => ?_
  rw [hs.grown.host.heap.shape_of_known hknown, Heap.shape_ref ha] at hb
  obtain rfl := hb
  have hs₀ := hs.trans hs₁
  refine (succeedsUnless_isQuoted (P := P) (hs₀.offersForms hoffers).car
    (hs₀.offersForms hoffers).quote (hs₀.grown.host.kept ho) (hs₀.grown.host.heap.cell ha)
    fun w₂ hs₂ => hhead w₂ (hs₀.trans hs₂)).bind fun quotes w₂ hs₂ hquotes => ?_
  exact hend quotes w₂ (hs₁.trans hs₂) hquotes

/-- The form for a handle evaluates to what the handle stands for as an argument. -/
theorem succeeds_quoteIfList_handle {w₀ : World} (hsteady : w₀.Steady)
    (hclosed : w₀.host.IsClosed) (hoffers : w₀.OffersForms)
    (ho : w₀.host.resolve? g.id = some o) (harg : w₀.IsArgument o) (hs : w₀.Sustains w) :
    (quoteIfList (.handle g)).Succeeds w fun v' w₁ =>
      w₁.Crosses v' ∧ w₀.SplicesAs w₁ (.handle g) v' := by
  have hknown := hclosed.kept ho
  have hshape := hs.grown.host.heap.shape_of_known hknown
  have hcrosses := World.crosses_handle (hs.grown.host.kept ho)
  -- only a pair could be called; an atom goes into the form as it is
  by_cases hpair : ∃ a head tail, o = .ref a ∧ w₀.host.heap.get? a = some (.cons head tail)
  · obtain ⟨a, head, tail, rfl, ha⟩ := hpair
    have hdiscerns := World.discerns_of_isArgument hsteady hclosed ha harg
    refine SucceedsUnless.succeeds (succeedsUnless_quoteIfList_pair hclosed hoffers ho ha hs
      (fun w₁ hs₁ => (handsOver_head hdiscerns hs₁).unless) fun quotes w₂ hs₂ hiff => ?_)
    have hs₂₀ := hs.trans hs₂
    -- a pair that does not quote is quoted, and one that does is left alone
    cases quotes with
    | true =>
      refine succeedsUnless_pure ⟨hs₂.crosses hcrosses, ?_⟩
      refine World.splicesAs_handle hs₂₀ hclosed ho harg fun head' tail' hcons => ?_
      rw [Heap.shape_ref ha] at hcons
      cases hcons
      exact hiff.mp rfl
    | false =>
      refine Succeeds.unless ((succeeds_quote (hs₂₀.offersForms hoffers).list
        (hs₂.crosses hcrosses)).mono fun v' w₃ hs₃ hv' => ?_)
      refine ⟨hv'.crosses, hv'.splicesAs fun w₄ x hs₄ hx => ?_⟩
      have hg := (hs₂₀.trans (hs₃.trans hs₄)).grown
      obtain rfl := Option.some.inj ((hg.host.kept ho).symm.trans hx)
      refine ⟨_, ho, (Heap.unquoted_eq_self fun head' tail' hcons hn => ?_).symm⟩
      rw [Heap.shape_ref ha] at hcons
      cases hcons
      exact Bool.false_ne_true (hiff.mpr hn)
  · have hnone : ∀ head tail, w₀.host.heap.shape o ≠ .cell (.cons head tail) := by
      intro head tail hcons
      obtain ⟨a, rfl, ha⟩ := Heap.exists_ref_of_shape hcons
      exact hpair ⟨a, head, tail, rfl, ha⟩
    have hatom : Host.isConsShape (w.host.heap.shape o) = false := by
      rw [hshape]
      unfold Host.isConsShape
      split
      · rename_i head tail hcons
        exact absurd hcons (hnone head tail)
      · rfl
    refine (succeeds_quoteIfList_atom (hs.offersForms hoffers) (hs.grown.host.kept ho)
      (hs.grown.host.heap.known hknown) hatom).mono fun v' w₁ hs₁ hv' => ?_
    obtain rfl := hv'
    exact ⟨hs₁.crosses hcrosses, World.splicesAs_handle (hs.trans hs₁) hclosed ho harg
      fun head tail hcons => absurd hcons (hnone head tail)⟩

/-- The form for plain data evaluates to what the host makes of them. -/
theorem succeeds_quoteIfList_data {w₀ : World} (hoffers : w₀.OffersForms)
    (hj : v.toJson = .ok j) (htruth : v = .bool true → w₀.KnowsTruth) (hcrosses : w.Crosses v)
    (hs : w₀.Sustains w) : (quoteIfList v).Succeeds w fun v' w₁ =>
      w₁.Crosses v' ∧ w₀.SplicesAs w₁ v v' := by
  have hself : (∀ field fields, v ≠ .object (field :: fields)) →
      (pure v : Proc Value).Succeeds w fun v' w₁ => w₁.Crosses v' ∧ w₀.SplicesAs w₁ v v' :=
    fun hobject => succeeds_pure ⟨hcrosses, World.splicesAs_data hs hj htruth hobject⟩
  cases v with
  | handle _ | function _ | native _ => cases hj
  | object fields =>
    cases fields with
    | nil => exact hself nofun
    | cons field fields =>
      refine (succeeds_quote (hs.offersForms hoffers).list hcrosses).mono fun v' w₁ _ hv' => ?_
      refine ⟨hv'.crosses, hv'.splicesAs fun w₂ o _ ho => ?_⟩
      exact (World.supplies_data hj).mpr ((World.standsFor_data hj).mp ho).2
  | null | bool _ | int _ | float _ | text _ | list _ => exact hself nofun

/-- What the border puts into a form for a value evaluates to what the value stands for as an
argument. -/
theorem succeeds_quoteIfList {w₀ : World} (hsteady : w₀.Steady) (hclosed : w₀.host.IsClosed)
    (hoffers : w₀.OffersForms) (hv : w₀.IsSpliceable v) (hs : w₀.Sustains w) :
    (quoteIfList v).Succeeds w fun v' w₁ => w₁.Crosses v' ∧ w₀.SplicesAs w₁ v v' := by
  have hdata : ((v = .bool true → w₀.KnowsTruth) ∧ ∃ j, v.toJson = .ok j ∧
      j.isNulFree = true ∧ j.isDatum = true ∧ j.nesting < Json.maxNesting) →
      (quoteIfList v).Succeeds w fun v' w₁ => w₁.Crosses v' ∧ w₀.SplicesAs w₁ v v' := by
    rintro ⟨htruth, j, hj, hnul, hdatum, hnest⟩
    exact succeeds_quoteIfList_data hoffers hj htruth
      (World.crosses_data hj hnul hdatum hnest) hs
  cases v with
  | handle g =>
    obtain ⟨o, ho, harg⟩ := hv
    exact succeeds_quoteIfList_handle hsteady hclosed hoffers ho harg hs
  | _ => exact hdata hv

end Border

end Crossing
