import Crossing.Proofs.TwoRuns.Worlds

/-!
# Changes of two worlds

What one change of two worlds that agree leaves behind: worlds that agree, and
results that are related as likeness of changes says.

- `Registry.Alike.insert`, `Registry.Alike.get?`, `Registry.Alike.remove`: a
  registry gives the same keys out in both runs;
- `Fits.recordName`, `Fits.revive`, `Fits.cacheSymbol`, `Fits.cacheNumber`: what
  the border remembers of handles;
- `Fits.act`: the changes taken together.
-/

namespace Crossing

/-! ### Registries -/

section Lists

variable {α : Type} {R : α → α → Prop} {as as' : List α} {a a' : α}

/-- Related lists are related at each place. -/
theorem getElem?_rel (h : List.Forall₂ R as as') (i : Nat) : Option.Rel R as[i]? as'[i]? := by
  induction h generalizing i with
  | nil => exact .none
  | cons ha _ ih =>
    cases i with
    | zero => exact .some ha
    | succ i => exact ih i

/-- Related values go to the same place of related lists. -/
theorem set_rel (h : List.Forall₂ R as as') (ha : R a a') (i : Nat) :
    List.Forall₂ R (as.set i a) (as'.set i a') := by
  induction h generalizing i with
  | nil => exact .nil
  | cons hb hbs ih =>
    cases i with
    | zero => exact .cons ha hbs
    | succ i => exact .cons hb (ih i)

end Lists

namespace Registry.Alike

variable {R : Handle → Handle → Prop} {r r' : Registry Value} {v v' : Value}

/-- Related values go into alike registries under the same key. -/
theorem append (h : r.Alike R r') (hv : v.Alike R v') :
    Option.Rel (fun e e' => e.1 = e'.1 ∧ e.2.Alike R e'.2) (r.append v) (r'.append v') := by
  have hlen : r.slots.length = r'.slots.length := h.slots.length_eq
  unfold Registry.append
  rw [← hlen]
  split
  · exact .some ⟨rfl, List.rel_append h.slots (.cons ⟨rfl, .some hv⟩ .nil), h.free,
      congrArg (· + 1) h.count⟩
  · exact .none

/-- Values that are put in at the same time get the same key. -/
theorem insert (h : r.Alike R r') (hv : v.Alike R v') :
    Option.Rel (fun e e' => e.1 = e'.1 ∧ e.2.Alike R e'.2) (r.insert v) (r'.insert v') := by
  have happend := h.append hv
  obtain ⟨slots, free, count⟩ := r
  obtain ⟨slots', free', count'⟩ := r'
  obtain ⟨hslots, rfl, rfl⟩ := h
  -- a key is used again, or one more slot is made
  cases free with
  | nil => exact happend
  | cons i free =>
    unfold Registry.insert
    have hi := getElem?_rel hslots i
    cases hs : slots[i]? with
    | none =>
      rw [hs] at hi
      cases hs' : slots'[i]? with
      | none => simpa only [hs, hs'] using happend
      | some s' =>
        rw [hs'] at hi
        cases hi
    | some s =>
      rw [hs] at hi
      cases hs' : slots'[i]? with
      | none =>
        rw [hs'] at hi
        cases hi
      | some s' =>
        rw [hs'] at hi
        obtain ⟨hg, -⟩ : s.Alike R s' := by cases hi; assumption
        have hvalue : Slot.Alike R ⟨s'.generation, some v⟩ ⟨s'.generation, some v'⟩ :=
          ⟨rfl, .some hv⟩
        have hset := set_rel hslots hvalue i
        simp only [hs, hs', hg]
        exact .some ⟨rfl, hset, rfl, rfl⟩

theorem get? (h : r.Alike R r') (k : Key) :
    Option.Rel (Value.Alike R) (r.get? k) (r'.get? k) := by
  have hi := getElem?_rel h.slots k.index
  unfold Registry.get?
  generalize r.slots[k.index]? = s, r'.slots[k.index]? = s' at hi
  cases hi with
  | none => exact .none
  | @some s s' hs =>
    dsimp only
    rw [← hs.1]
    split
    · exact hs.2
    · exact .none

theorem remove (h : r.Alike R r') (k : Key) : (r.remove k).Alike R (r'.remove k) := by
  have hk := h.get? k
  unfold Registry.remove Registry.take
  generalize r.get? k = v, r'.get? k = v' at hk
  cases hk with
  | none => exact h
  | some _ =>
    dsimp only
    split
    · exact ⟨set_rel h.slots ⟨rfl, .none⟩ _, by rw [h.free], by rw [h.count]⟩
    · exact ⟨set_rel h.slots ⟨rfl, .none⟩ _, h.free, by rw [h.count]⟩

end Registry.Alike

variable {L : License} {P : Pairing L} {α : Type} {w w' : World} {h h' : Handle} {v v' : Value}

/-- A result that two runs get by a change, the worlds agreeing afterwards. -/
def Fits.After (P : Pairing L) (r r' : α × World) (A : Pairing L → α → α → Prop) : Prop :=
  ∃ P' : Pairing L, P.Grows P' ∧ Fits P' r.2 r'.2 ∧ A P' r.1 r'.1

namespace Fits

/-- A change after which the runs rely on what they relied on before. -/
theorem after_same {r r' : α × World} {A : Pairing L → α → α → Prop} (hf : Fits P r.2 r'.2)
    (hr : A P r.1 r'.1) : After P r r' A := ⟨P, .refl P, hf, hr⟩

/-! ### Names -/

/-- To record a name is a matter of what is tracked. -/
theorem recordName_eq (b : Border) (h : Handle) (name : String) :
    ∃ ts, b.recordName h name = { b with tracked := ts } := by
  unfold Border.recordName
  split
  · split
    · exact ⟨_, rfl⟩
    · exact ⟨_, rfl⟩
  · exact ⟨_, rfl⟩

/-- What holds of the entries that have a name holds after one more is noted. -/
theorem forall_recordName {b : Border} (hb : b.Sound) (hh : b.Tracks h) {name : String}
    {T : ObjectId → String → Prop} (hT : ∀ t ∈ b.tracked, ∀ n, t.name = some n → T t.id n)
    (hname : T h.id name) :
    ∀ t ∈ (b.recordName h name).tracked, ∀ n, t.name = some n → T t.id n := by
  obtain ⟨u, hu, rfl⟩ := hh
  rw [Border.recordName_of_mem hb hu]
  split
  · intro t ht n hn
    obtain rfl | ⟨ht, -⟩ := (Border.mem_track hb.ids).mp ht
    · obtain rfl := Option.some.inj hn
      exact hname
    · exact hT t ht n hn
  · exact hT

/-- A name is noted for corresponding handles. -/
theorem recordName (hf : Fits P w w') (hh : P.Held h h') (name : String) {o : Obj}
    (hstands : P.stands h.id o) (hnamed : P.named o name) :
    Fits P ((Change.recordName h name).run w).2 ((Change.recordName h' name).run w').2 := by
  have ht := hf.tracks (P.loose_held hh)
  have ht' := hf.tracks' (P.loose_held hh)
  have hb := hf.left.border
  have hb' := hf.right.border
  obtain ⟨ts, hts⟩ := recordName_eq w.border h name
  obtain ⟨ts', hts'⟩ := recordName_eq w'.border h' name
  exact {
    same := fun hL => by rw [hf.same hL, P.eq_of_loose hL (P.loose_held hh)]
    left := ⟨hf.left.host, hb.recordName ht name⟩
    right := ⟨hf.right.host, hb'.recordName ht' name⟩
    shared := by
      have := hf.shared
      simp only [World.shared, Change.run, hts, hts'] at this ⊢
      exact this
    held := hf.held
    held' := hf.held'
    assigned := hf.assigned
    proxies := by
      simp only [Change.run, hts, hts']
      exact hf.proxies
    log := hf.log
    tracks := fun hg => (Border.tracks_recordName_iff hb ht name).mpr (hf.tracks hg)
    tracks' := fun hg => (Border.tracks_recordName_iff hb' ht' name).mpr (hf.tracks' hg)
    names := by
      intro g g' hg
      change (w.border.recordName h name).nameOf? g = (w'.border.recordName h' name).nameOf? g'
      -- the record has the new name, and all others are as they were
      by_cases heq : g = h
      · obtain rfl := heq
        obtain rfl := (P.loose_inj hg (P.loose_held hh)).mp rfl
        rw [Border.nameOf?_recordName_self hb ht, Border.nameOf?_recordName_self hb' ht',
          hf.names hg]
      · have heq' : g' ≠ h' := fun h => heq ((P.loose_inj hg (P.loose_held hh)).mpr h)
        rw [Border.nameOf?_recordName_other hb ht (hf.tracks hg) heq,
          Border.nameOf?_recordName_other hb' ht' (hf.tracks' hg) heq', hf.names hg]
    symbols := fun k hg => by
      simp only [Change.run, hts, hts']
      exact hf.symbols k hg
    numbers := fun k hg => by
      simp only [Change.run, hts, hts']
      exact hf.numbers k hg
    known := hf.known
    grounded := {
      interned := hf.grounded.interned
      stands := hf.grounded.stands
      named := hf.grounded.named
      noted := by
        obtain ⟨hle, hstands⟩ := hf.grounded.stands hstands
        exact forall_recordName (T := fun i n => w.host.Promises i fun o => w.host.heap.Names o n)
          hb ht hf.grounded.noted ⟨hle, fun o' ho' => hstands o' ho' ▸ hf.grounded.named hnamed⟩
      symbols := by
        simp only [Change.run, hts]
        exact hf.grounded.symbols
      numbers := by
        simp only [Change.run, hts]
        exact hf.grounded.numbers } }

/-! ### Remembered handles -/

/-- A cached handle that is live is revived. -/
theorem revive_of_mem_roots {cached : Option Handle} (hc : cached = some h) (hh : h ∈ w.roots) :
    w.revive cached = (some h, w.hold [h]) := by
  rw [hc]
  exact if_pos (World.isLive_iff.mpr hh)

/-- A cached handle that is not live is not revived. -/
theorem revive_of_notMem_roots {cached : Option Handle} (hc : ∀ h, cached = some h → h ∉ w.roots) :
    w.revive cached = (none, w) := by
  cases cached with
  | none => rfl
  | some h => exact if_neg fun hlive => hc h rfl (World.isLive_iff.mp hlive)

/-- A remembered handle that is live is found in both runs, or in none. -/
theorem revive (hf : Fits P w w') {cached cached' : Option Handle}
    (hc : ∀ {h h'}, P.loose h h' → (cached = some h ↔ cached' = some h')) :
    After P (w.revive cached) (w'.revive cached') fun P' => Option.Rel P'.Held := by
  by_cases hlive : ∃ h ∈ w.roots, cached = some h
  · obtain ⟨h, hh, hsome⟩ := hlive
    obtain ⟨h', hh', hloose⟩ := hf.exists_root hh
    rw [revive_of_mem_roots hsome hh, revive_of_mem_roots ((hc hloose).mp hsome) hh']
    obtain ⟨P', hP, hfits, hheld⟩ := hf.hold (.cons hloose .nil)
    exact ⟨P', hP, hfits, .some (List.forall₂_cons.mp hheld).1⟩
  · have hdead : ∀ h, cached = some h → h ∉ w.roots := fun h hsome hh => hlive ⟨h, hh, hsome⟩
    have hdead' : ∀ h', cached' = some h' → h' ∉ w'.roots := by
      intro h' hsome hh'
      obtain ⟨h, hh, hloose⟩ := hf.exists_root' hh'
      exact hdead h ((hc hloose).mpr hsome) hh
    rw [revive_of_notMem_roots hdead, revive_of_notMem_roots hdead']
    exact after_same hf .none

/-- Both runs find the same symbol in their caches, or neither does. -/
theorem recallSymbol (hf : Fits P w w') (kind : SymbolKind) (name : String) :
    After P ((Change.recallSymbol kind name).run w) ((Change.recallSymbol kind name).run w')
      fun P' => Option.Rel P'.Held := by
  refine hf.revive fun {h h'} hloose => ?_
  rw [find?_key_iff hf.left.border.symbolKeys, find?_key_iff hf.right.border.symbolKeys]
  exact hf.symbols _ hloose

/-- Both runs find the same number in their caches, or neither does. -/
theorem recallNumber (hf : Fits P w w') (key : NumberKey) :
    After P ((Change.recallNumber key).run w) ((Change.recallNumber key).run w')
      fun P' => Option.Rel P'.Held := by
  refine hf.revive fun {h h'} hloose => ?_
  rw [find?_key_iff hf.left.border.numberKeys, find?_key_iff hf.right.border.numberKeys]
  exact hf.numbers _ hloose

/-- Handles put under the same key correspond to each other and to no other. -/
theorem mem_put_iff {κ : Type} [BEq κ] [LawfulBEq κ] {l l' : List (κ × Handle)}
    (hl : ∀ {g g'} k, P.loose g g' → ((k, g) ∈ l ↔ (k, g') ∈ l')) (hh : P.loose h h') (k : κ)
    {g g' : Handle} (j : κ) (hg : P.loose g g') :
    (j, g) ∈ ((k, h) :: l.filter fun e => e.1 != k) ↔
      (j, g') ∈ ((k, h') :: l'.filter fun e => e.1 != k) := by
  rw [mem_put, mem_put, P.loose_inj hg hh, hl j hg]

/-- What holds of entries holds with one put in. -/
theorem forall_put {κ : Type} [BEq κ] {l : List (κ × Handle)} {k : κ} {T : κ × Handle → Prop}
    (hl : ∀ e ∈ l, T e) (hk : T (k, h)) : ∀ e ∈ (k, h) :: l.filter fun e => e.1 != k, T e := by
  intro e he
  rcases List.mem_cons.mp he with rfl | he
  · exact hk
  · exact hl e (List.mem_filter.mp he).1

/-- Both runs remember a symbol under its name. -/
theorem cacheSymbol (hf : Fits P w w') (kind : SymbolKind) (name : String) (hh : P.Held h h')
    {o : Obj} (hstands : P.stands h.id o) (hnamed : P.named o name) :
    Fits P ((Change.cacheSymbol kind name h).run w).2
      ((Change.cacheSymbol kind name h').run w').2 :=
  have hb := hf.left.border
  have hb' := hf.right.border
  have hs := Border.serial_le_of_tracks hb (hf.tracks (P.loose_held hh))
  have hs' := Border.serial_le_of_tracks hb' (hf.tracks' (P.loose_held hh))
  { hf with
    same := fun hL => by rw [hf.same hL, P.eq_of_loose hL (P.loose_held hh)]
    left := ⟨hf.left.host, { hb with
      symbolKeys := pairwise_put _ _ hb.symbolKeys
      symbolSerials := forall_put hb.symbolSerials hs }⟩
    right := ⟨hf.right.host, { hb' with
      symbolKeys := pairwise_put _ _ hb'.symbolKeys
      symbolSerials := forall_put hb'.symbolSerials hs' }⟩
    shared := hf.shared
    symbols := fun j hg => mem_put_iff hf.symbols (P.loose_held hh) _ j hg
    grounded := { hf.grounded with
      symbols := by
        refine forall_put hf.grounded.symbols ?_
        obtain ⟨hle, hstands⟩ := hf.grounded.stands hstands
        exact ⟨hle, fun o' ho' => hstands o' ho' ▸ hf.grounded.named hnamed⟩ } }

/-- Both runs remember a number under its key. -/
theorem cacheNumber (hf : Fits P w w') (key : NumberKey) (hh : P.Held h h') {o : Obj}
    (hstands : P.stands h.id o) (hcrosses : key.Crosses o) :
    Fits P ((Change.cacheNumber key h).run w).2 ((Change.cacheNumber key h').run w').2 :=
  have hb := hf.left.border
  have hb' := hf.right.border
  have hs := Border.serial_le_of_tracks hb (hf.tracks (P.loose_held hh))
  have hs' := Border.serial_le_of_tracks hb' (hf.tracks' (P.loose_held hh))
  { hf with
    same := fun hL => by rw [hf.same hL, P.eq_of_loose hL (P.loose_held hh)]
    left := ⟨hf.left.host, { hb with
      numberKeys := pairwise_put _ _ hb.numberKeys
      numberSerials := forall_put hb.numberSerials hs }⟩
    right := ⟨hf.right.host, { hb' with
      numberKeys := pairwise_put _ _ hb'.numberKeys
      numberSerials := forall_put hb'.numberSerials hs' }⟩
    shared := hf.shared
    numbers := fun j hg => mem_put_iff hf.numbers (P.loose_held hh) _ j hg
    grounded := { hf.grounded with
      numbers := by
        refine forall_put hf.grounded.numbers ?_
        obtain ⟨hle, hstands⟩ := hf.grounded.stands hstands
        exact ⟨hle, fun o' ho' => hstands o' ho' ▸ hcrosses⟩ } }

/-! ### Wrapped values and variables -/

theorem eq_of_alike (hL : L.IsExact) (hv : v.Alike P.Held v') : v' = v :=
  (hv.mono fun _ _ hh => (P.eq_of_loose hL (P.loose_held hh)).symm).eq

/-- Other wrapped values that are alike. -/
theorem withProxies (hf : Fits P w w') {r r' : Registry Value} (hr : r.Alike P.loose r')
    (hsame : L.IsExact → r' = r) :
    Fits P { w with border := { w.border with proxies := r } }
      { w' with border := { w'.border with proxies := r' } } :=
  { hf with
    same := fun hL => by rw [hf.same hL, hsame hL]
    left := ⟨hf.left.host, { hf.left.border with }⟩
    right := ⟨hf.right.host, { hf.right.border with }⟩
    shared := hf.shared
    proxies := hr }

/-- Other variables that are alike. -/
theorem withAssigned (hf : Fits P w w') {fs fs' : List (String × Value)}
    (hfs : List.Forall₂ (FieldAlike P.loose) fs fs') (hsame : L.IsExact → fs' = fs) :
    Fits P { w with script := { w.script with assigned := fs } }
      { w' with script := { w'.script with assigned := fs' } } :=
  { hf with
    same := fun hL => by rw [hf.same hL, hsame hL]
    left := ⟨hf.left.host, hf.left.border⟩
    right := ⟨hf.right.host, hf.right.border⟩
    shared := hf.shared
    assigned := hfs }

/-- Other reports that are alike. -/
theorem withLog (hf : Fits P w w') {as as' : List Answer}
    (has : List.Forall₂ (Answer.Alike L) as as') (hsame : L.IsExact → as' = as) :
    Fits P { w with script := { w.script with log := as } }
      { w' with script := { w'.script with log := as' } } :=
  { hf with
    same := fun hL => by rw [hf.same hL, hsame hL]
    left := ⟨hf.left.host, hf.left.border⟩
    right := ⟨hf.right.host, hf.right.border⟩
    shared := hf.shared
    log := has }

/-- A value that is stored in both worlds is taken out, and its handles are held. -/
theorem holdValue (hf : Fits P w w') (hv : v.Alike P.loose v') :
    After P (some v, w.hold v.handles) (some v', w'.hold v'.handles)
      fun P' => Option.Rel (Value.Alike P'.Held) := by
  obtain ⟨P', hP, hfits, hheld⟩ := hf.hold hv.handles
  exact ⟨P', hP, hfits, .some (hv.of_handles hheld)⟩

/-- Both runs wrap a value under the same key. -/
theorem wrap (hf : Fits P w w') (hv : v.Alike P.Held v') :
    After P ((Change.wrap v).run w) ((Change.wrap v').run w') fun _ => Eq := by
  have hins := hf.proxies.insert (hv.mono fun _ _ => P.loose_held)
  have hsame : L.IsExact → w'.border.proxies.insert v' = w.border.proxies.insert v := fun hL => by
    rw [hf.same hL, eq_of_alike hL hv]
  simp only [Change.run]
  generalize w.border.proxies.insert v = e, w'.border.proxies.insert v' = e' at hins hsame
  cases hins with
  | none => exact after_same hf rfl
  | @some e e' he =>
    refine after_same (hf.withProxies he.2 fun hL => ?_) (congrArg some he.1)
    rw [Option.some.inj (hsame hL)]

/-- Both runs find the same wrapped value, or neither does. -/
theorem unwrap (hf : Fits P w w') (key : Key) :
    After P ((Change.unwrap? key).run w) ((Change.unwrap? key).run w')
      fun P' => Option.Rel (Value.Alike P'.Held) := by
  have hget := hf.proxies.get? key
  simp only [Change.run]
  generalize w.border.proxies.get? key = v, w'.border.proxies.get? key = v' at hget
  cases hget with
  | none => exact after_same hf .none
  | some hv => exact hf.holdValue hv

/-- The same name finds alike values. -/
theorem find?_alike {R : Handle → Handle → Prop} {fs fs' : List (String × Value)}
    (h : List.Forall₂ (FieldAlike R) fs fs') (name : String) :
    Option.Rel (Value.Alike R) ((fs.find? fun v => v.1 == name).map Prod.snd)
      ((fs'.find? fun v => v.1 == name).map Prod.snd) := by
  induction h with
  | nil => exact .none
  | @cons f f' _ _ hv _ ih =>
    obtain ⟨hname, hv⟩ := hv
    by_cases hf : f.1 = name
    · rw [List.find?_cons_of_pos (by simpa using hf),
        List.find?_cons_of_pos (by simpa [← hname] using hf)]
      exact .some hv
    · rw [List.find?_cons_of_neg (by simpa using hf),
        List.find?_cons_of_neg (by simpa [← hname] using hf)]
      exact ih

/-- The same name is forgotten among alike variables. -/
theorem forget_alike {R : Handle → Handle → Prop} {fs fs' : List (String × Value)}
    (h : List.Forall₂ (FieldAlike R) fs fs') (name : String) :
    List.Forall₂ (FieldAlike R) (fs.filter fun v => v.1 != name)
      (fs'.filter fun v => v.1 != name) := by
  induction h with
  | nil => exact .nil
  | @cons f f' _ _ hv _ ih =>
    rw [List.filter_cons, List.filter_cons, ← hv.1]
    split
    · exact .cons hv ih
    · exact ih

/-- Both runs find the same variable, or neither does. -/
theorem recallVariable (hf : Fits P w w') (name : String) :
    After P ((Change.recallVariable name).run w) ((Change.recallVariable name).run w')
      fun P' => Option.Rel (Value.Alike P'.Held) := by
  have hfind : Option.Rel (Value.Alike P.loose) (w.script.find? name) (w'.script.find? name) :=
    find?_alike hf.assigned name
  simp only [Change.run]
  generalize w.script.find? name = v, w'.script.find? name = v' at hfind
  cases hfind with
  | none => exact after_same hf .none
  | some hv => exact hf.holdValue hv

/-- Both runs assign a variable. -/
theorem assign (hf : Fits P w w') (name : String) (hv : v.Alike P.Held v') :
    Fits P ((Change.assign name v).run w).2 ((Change.assign name v').run w').2 := by
  refine hf.withAssigned
    (.cons ⟨rfl, hv.mono fun _ _ => P.loose_held⟩ (forget_alike hf.assigned name)) fun hL => ?_
  rw [hf.same hL, eq_of_alike hL hv]

/-! ### The changes together -/

/-- Changes of worlds that agree lead to worlds that agree, with results that are
related. -/
theorem act {c c' : Change α} {A : Pairing L → α → α → Prop} (hf : Fits P w w')
    (hc : c.Alike P c' A) : After P (c.run w) (c'.run w') A := by
  cases hc with
  | shared hc => exact after_same (hf.act_shared hc).1 (hf.act_shared hc).2
  | intern name => exact hf.intern name
  | retain o => exact hf.retain o
  | release hL ids => exact after_same (hf.release hL ids) trivial
  | adopt hi => exact hf.adopt hi
  | recordName hh name hstands hnamed =>
    exact after_same (hf.recordName hh name hstands hnamed) trivial
  | recallSymbol kind name => exact hf.recallSymbol kind name
  | cacheSymbol kind name hh hstands hnamed =>
    exact after_same (hf.cacheSymbol kind name hh hstands hnamed) trivial
  | recallNumber key => exact hf.recallNumber key
  | cacheNumber key hh hstands hcrosses =>
    exact after_same (hf.cacheNumber key hh hstands hcrosses) trivial
  | wrap hv => exact hf.wrap hv
  | unwrap key => exact hf.unwrap key
  | clearProxy key =>
    exact after_same (hf.withProxies (hf.proxies.remove key) fun hL => by rw [hf.same hL]) trivial
  | hold hhs => exact hf.hold hhs
  | recallVariable name => exact hf.recallVariable name
  | assign name hv => exact after_same (hf.assign name hv) trivial
  | forget name =>
    exact after_same (hf.withAssigned (forget_alike hf.assigned name) fun hL => by
      rw [hf.same hL]) trivial
  | log ha =>
    exact after_same (hf.withLog (List.rel_append hf.log (.cons ha .nil)) fun hL => by
      rw [hf.same hL, ha.eq hL]) trivial
  | takeLog => exact after_same (hf.withLog .nil fun _ => rfl) hf.log

end Fits

end Crossing
