import Crossing.Proofs.RoundTrips

/-!
# What the host gives back

Script code calls the function of the host that gives back its argument. What comes
back goes through four conversions: it is packed, taken in by the host, sent, and taken
in by script code.

- `World.Calls`: a builtin is what its name is looked up as;
- `Border.exists_gives_lookup`: the handle of what a name is looked up as;
- `Border.Arrives`: what the host sends of an object, and script code takes in;
- `Border.ComesBack`: what becomes of a value that crosses twice;
- `Border.exists_gives_call`: a call of the function gives that;
- `identity_gives_back`: what comes back, for every kind of value.
-/

namespace Crossing

open Proc

variable {w w₁ w₂ : World} {v : Value} {h : Handle} {o : Obj} {j : Json} {name : String}
  {a : Addr} {b : Builtin}

/-! ### Looking up functions -/

/-- What a name is looked up as: what the live handle is for that is remembered, or the
symbol that the name is interned to. -/
def World.lookedUp? (w : World) (name : String) : Option Obj :=
  match ((Change.recallSymbol .symbol name).run w).1 with
  | some h => w.host.resolve? h.id
  | none => (w.host.find? name).map .ref

/-- The name of a builtin is looked up as a symbol that has the builtin as its
function. -/
def World.Calls (w : World) (b : Builtin) : Prop :=
  ∃ a value f, w.lookedUp? b.name = some (.ref a) ∧
    w.host.heap.get? a = some (.symbol b.name value (some (.ref f))) ∧
    w.host.heap.get? f = some (.builtin b)

namespace World

/-- Whether a builtin is what its name is looked up as. -/
def callsBuiltin (w : World) (b : Builtin) : Bool :=
  match w.lookedUp? b.name with
  | some (.ref a) => match w.host.heap.get? a with
    | some (.symbol name _ (some (.ref f))) => name = b.name && match w.host.heap.get? f with
      | some (.builtin c) => c = b
      | _ => false
    | _ => false
  | _ => false

/-- Whether a name calls a function of the host can be found out. -/
theorem calls_iff : w.Calls b ↔ w.callsBuiltin b = true := by
  constructor
  · rintro ⟨a, value, f, ho, ha, hf⟩
    simp [callsBuiltin, ho, ha, hf]
  · intro h
    unfold callsBuiltin at h
    -- the symbol must have a builtin as its function, and that builtin
    split at h
    · rename_i a ho
      split at h
      · rename_i name value f ha
        obtain ⟨hname, hbuiltin⟩ := (Bool.and_eq_true _ _).mp h
        obtain rfl := of_decide_eq_true hname
        split at hbuiltin
        · rename_i c hf
          obtain rfl := of_decide_eq_true hbuiltin
          exact ⟨a, value, f, ho, ha, hf⟩
        · cases hbuiltin
      · cases h
    · cases h

instance (w : World) (b : Builtin) : Decidable (w.Calls b) := decidable_of_iff' _ calls_iff

theorem keepsMore_recordName (w : World) (h : Handle) (name : String) :
    w.KeepsMore ((Change.recordName h name).run w).2 := by
  obtain ⟨ts, hts⟩ := Fits.recordName_eq w.border h name
  refine .of_host rfl (fun hg => ?_) ?_ ?_ <;> simp only [Change.run, hts]
  exact hg

/-- To hold a live handle keeps a world steady. -/
theorem Steady.hold (hw : w.Steady) (hh : h ∈ w.roots) : (w.hold [h]).Steady := by
  obtain ⟨P, hf⟩ := hw
  obtain ⟨g, -, hloose⟩ := hf.exists_root hh
  obtain rfl := P.eq_of_loose License.noConfusion hloose
  obtain ⟨P', -, hfits, -⟩ := hf.hold (.cons hloose .nil)
  exact ⟨P', hfits⟩

end World

namespace Border

/-- A symbol that is interned gets a handle, which is noted and remembered. -/
theorem exists_gives_internNow (hw : w.Steady) (hnil : name ≠ "nil")
    (ha : w.host.find? name = some a) (kind : SymbolKind) :
    ∃ h w₁, (internNow name kind).Gives 0 w (.ok h) w₁ ∧ w.KeepsMore w₁ ∧ w₁.Steady ∧
      w₁.host.resolve? h.id = some (.ref a) := by
  have hintern : (Change.intern name).run w = (.ref a, w) := by
    simp only [Change.run, World.onHost, Interpreter.intern_of_find? hnil ha]
  obtain ⟨P, hf⟩ := hw
  obtain ⟨P₁, -, hf₁, -, hnamed⟩ := hf.intern name
  simp only [hintern] at hf₁ hnamed
  obtain ⟨P₂, hP₂, hf₂, hknown, hstands⟩ := hf₁.retain (.ref a)
  obtain ⟨P₃, hP₃, hf₃, hheld, hid⟩ := hf₂.adopt hknown
  have hkeeps := (World.keepsMore_retain hf.left.host (.ref a)).trans
    (World.keepsMore_adopt _ (w.host.retain (.ref a)).1)
  have hkept := Interpreter.resolve?_retain_self hf.left.host (.ref a)
  have hhost := World.host_adopt ((Change.retain (.ref a)).run w).2 (w.host.retain (.ref a)).1
  have hgives : ∀ {p : Handle → Proc Handle} {r w₁},
      (p (((Change.retain (.ref a)).run w).2.adopt (w.host.retain (.ref a)).1).1).Gives 0
        (((Change.retain (.ref a)).run w).2.adopt (w.host.retain (.ref a)).1).2 r w₁ →
      (change (.intern name) >>= fun o => change (.retain o) >>= fun id =>
        change (.adopt id) >>= p).Gives 0 w r w₁ := by
    intro p r w₁ hp
    refine gives_change_bind ?_
    rw [hintern]
    exact gives_change_bind (gives_change_bind hp)
  generalize ((Change.retain (.ref a)).run w).2.adopt (w.host.retain (.ref a)).1 = adopted
    at hf₃ hheld hid hkeeps hhost hgives
  obtain ⟨h, w₁⟩ := adopted
  -- the handle is for the symbol, so that the name may be noted and remembered for it
  have hstands₃ : P₃.stands h.id (.ref a) := by
    rw [hid]
    exact hP₃.stands _ _ hstands
  have hnamed₃ := hP₃.named _ _ (hP₂.named _ _ hnamed)
  have hf₄ := hf₃.recordName hheld name hstands₃ hnamed₃
  have hf₅ := hf₄.cacheSymbol kind name hheld hstands₃ hnamed₃
  refine ⟨h, _, hgives (gives_change_bind (gives_change_bind (gives_pure h))), ?_, ⟨P₃, hf₅⟩, ?_⟩
  · exact hkeeps.trans ((World.keepsMore_recordName w₁ h name).trans (.of_host rfl id rfl rfl))
  · change w₁.host.resolve? h.id = _
    rw [hhost, hid]
    exact hkept

/-- What a name is looked up as has a handle. -/
theorem exists_gives_lookup (hw : w.Steady) (hnil : name ≠ "nil")
    (hname : canonicalName name = name) (ha : w.lookedUp? name = some (.ref a)) :
    ∃ h w₁, (lookup name .symbol true).Gives 0 w (.ok h) w₁ ∧ w.KeepsMore w₁ ∧ w₁.Steady ∧
      w₁.host.resolve? h.id = some (.ref a) := by
  simp only [lookup, hostName, hname, if_true]
  -- the handle in the cache is revived, or the symbol is looked up anew
  obtain ⟨h, -, hlive, heq⟩ | heq := w.revive_cases
    ((w.border.symbolCache.find? fun e => e.1 == (.symbol, name)).map Prod.snd)
  · have hrecall : (Change.recallSymbol .symbol name).run w = (some h, w.hold [h]) := heq
    rw [World.lookedUp?, hrecall] at ha
    refine ⟨h, w.hold [h], gives_change_bind ?_, w.keepsMore_hold _, hw.hold hlive, ha⟩
    rw [hrecall]
    exact gives_pure h
  · have hrecall : (Change.recallSymbol .symbol name).run w = (none, w) := heq
    rw [World.lookedUp?, hrecall] at ha
    obtain ⟨c, hc, hca⟩ := Option.map_eq_some_iff.mp ha
    obtain rfl := Obj.ref.inj hca
    obtain ⟨h, w₁, hgives, hrest⟩ := exists_gives_internNow hw hnil hc .symbol
    refine ⟨h, w₁, gives_change_bind ?_, hrest⟩
    rw [hrecall]
    exact hgives

/-- A name that is allowed passes. -/
theorem gives_refuseForbidden (hallowed : w.border.config.isForbidden name = false) :
    (refuseForbidden name).Gives 0 w (.ok ()) w := by
  refine gives_query_bind ?_
  simp only [Query.ask, hallowed, Bool.false_eq_true, if_false]
  exact gives_pure ()

/-- The handle of a symbol is not refused if the name of the symbol is not reserved: it
can only have been looked up by this name. -/
theorem gives_refuseForbiddenHandle (hw : w.Steady) {value function : Option Obj}
    (ha : w.host.heap.get? a = some (.symbol name value function))
    (ho : w.host.resolve? h.id = some (.ref a))
    (hallowed : w.border.config.isForbidden name = false) :
    (refuseForbiddenHandle h).Gives 0 w (.ok ()) w := by
  refine gives_query_bind ?_
  simp only [Query.ask]
  -- a handle is refused for the name that was noted of it
  cases hnoted : w.border.nameOf? h with
  | none => exact gives_pure ()
  | some n =>
    obtain ⟨P, hf⟩ := hw
    rw [nameOf?] at hnoted
    split at hnoted
    · rename_i t ht
      split at hnoted
      · have hid : t.id = h.id := by simpa using List.find?_some ht
        have hnames := (hf.grounded.noted t (List.mem_of_find?_eq_some ht) n hnoted).2 (.ref a)
          (hid ▸ ho)
        obtain ⟨-, heq⟩ | ⟨c, _, _, heq, hc⟩ := hnames
        · cases heq
        · cases heq
          rw [ha] at hc
          cases hc
          exact gives_refuseForbidden hallowed
      · cases hnoted
    · cases hnoted

end Border

/-! ### What is new -/

/-- A procedure comes to one result, of which all that is shown holds. -/
theorem Proc.Builds.and {α : Type} {p : Proc α} {Q Q' : α → World → Prop} (hp : p.Builds w Q)
    (hp' : p.Builds w Q') : p.Builds w fun a w₁ => Q a w₁ ∧ Q' a w₁ := by
  obtain ⟨a, w₁, hgives, hb, ha⟩ := hp
  obtain ⟨a', w₁', hgives', -, ha'⟩ := hp'
  obtain ⟨heq, rfl⟩ := hgives.eq_of_run (Nat.zero_le _) (hgives'.run (Nat.zero_le _))
  obtain rfl := Except.ok.inj heq
  exact ⟨a, w₁', hgives, hb, ha, ha'⟩

/-- A list crosses by reference if it does not have as many items as a marker. -/
theorem World.passage_of_listFrom {lo : Nat} {items : List Obj}
    (hl : w.host.heap.ListFrom lo o items) (hitems : items ≠ []) (hlen : items.length ≠ 3) :
    w.passage o = .reference := by
  have hlist := hl.list?
  cases hl with
  | nil => exact absurd rfl hitems
  | cons _ hpair _ =>
    simp only [World.passage, Heap.shape_ref hpair, hlist]
    split
    · rename_i heq
      rw [Option.some.inj heq] at hlen
      exact absurd rfl hlen
    · rfl

theorem Json.length_structuralOf (fields : List (String × Json)) :
    (structuralOf fields).length = 2 * fields.length := by
  induction fields with
  | nil => rfl
  | cons p fields ih =>
    rw [structuralOf, List.length_cons, List.length_cons, List.length_cons, ih]
    omega

namespace Host

/-- The host makes a new object of a datum with parts, which crosses by reference. -/
theorem builds_reference (hi : w.host.Interned) (hj : j.isAtom = false)
    (hdoubles : ∀ x ∈ j.doubles, Json.readsBack x = true) :
    (ofDatum j).Builds w fun o w₁ =>
      w₁.passage o = .reference ∧ ∃ a, o = .ref a ∧ w.host.heap.size ≤ a := by
  cases j with
  | list items =>
    refine (builds_ofData items w hi (Nat.le_refl _) hdoubles).bind fun os w₁ hb _ =>
      (builds_make _).mono fun o w₂ _ ho => ?_
    obtain ⟨rfl, hcell, -⟩ := ho
    refine ⟨?_, _, rfl, hb.size_le⟩
    simp only [World.passage, Heap.shape_ref hcell, Heap.cellOf]
  | object fields =>
    refine (builds_ofFields fields w hi (Nat.le_refl _) hdoubles).bind fun os w₁ hb hos =>
      (builds_list os hb.size_le).mono fun o w₂ _ ho => ?_
    -- there are two items for each field, so that there are none or more than one
    have hlen : os.length = 2 * fields.length := by
      rw [hos.length_eq, Json.length_structuralOf]
    have hfields : fields ≠ [] := by
      rintro rfl
      cases hj
    have hos : os ≠ [] := by
      rintro rfl
      exact hfields (List.length_eq_zero_iff.mp (by rw [List.length_nil] at hlen; omega))
    refine ⟨World.passage_of_listFrom ho.1 hos (by omega), ?_⟩
    cases ho.1 with
    | nil => exact absurd rfl hos
    | cons ha _ _ => exact ⟨_, rfl, Nat.le_trans (Nat.le_add_right _ _) ha⟩
  | _ => cases hj

end Host

/-! ### Applying the function -/

/-- A symbol for `identity` gives its argument. -/
theorem Host.gives_apply_identity {value : Option Obj} {f : Addr}
    (ha : w.host.heap.get? a = some (.symbol name value (some (.ref f))))
    (hf : w.host.heap.get? f = some (.builtin .identity)) (o : Obj) :
    (Host.apply (.ref a) [o]).Gives 1 w (.ok o) w := by
  refine Gives.perform (gives_query_bind ?_)
  simp only [Query.ask, Heap.shape_ref ha]
  have hfunction : (functionOf (.ref a)).Gives 0 w (.ok (.ref f)) w := by
    refine gives_query_bind ?_
    simp only [Query.ask, Heap.shape_ref ha]
    exact gives_pure _
  refine hfunction.bind (gives_query_bind ?_)
  simp only [Query.ask, Heap.shape_ref hf]
  exact gives_pure o

/-! ### There and back -/

/-- A call of the host is in progress. -/
def World.calling (w : World) : World :=
  { w with border := { w.border with outbound := w.border.outbound + 1 } }

namespace Border

variable {Q : Value → Interpreter → Prop} {R : Obj → World → Prop}

/-- The host sends an object, and once the call is over, script code takes in what `Q`
says. -/
def Arrives (o : Obj) (w : World) (Q : Value → Interpreter → Prop) : Prop :=
  ∃ p w₁ x w₂, (Host.send o).Gives 0 w (.ok p) w₁ ∧
    (unpack p).Gives 0 (Undo.leaveOutbound.run w₁) (.ok x) w₂ ∧ Q x w₂.host

/-- A value is packed, and if the host gives back what it takes in of the parcel, then
script code takes in what `Q` says. -/
def ComesBack (v : Value) (w : World) (Q : Value → Interpreter → Prop) : Prop :=
  ∃ p hs w₁, (pack v).Gives 0 w (.ok (p, hs)) w₁ ∧ w.KeepsMore w₁ ∧
    (Host.receive p).Builds w₁.calling fun o w₂ => Arrives o w₂ Q

theorem Arrives.mono {Q' : Value → Interpreter → Prop} (h : Arrives o w Q)
    (hQ : ∀ x i, Q x i → Q' x i) : Arrives o w Q' := by
  obtain ⟨p, w₁, x, w₂, hsend, hunpack, hx⟩ := h
  exact ⟨p, w₁, x, w₂, hsend, hunpack, hQ x _ hx⟩

/-- What is conveyed comes back if what it becomes arrives. -/
theorem Conveys.comesBack (h : Conveys v w R) (hR : ∀ o w₁ w₂, w.KeepsMore w₁ →
    w₁.calling.BuildsTo w₂ → R o w₂ → Arrives o w₂ Q) : ComesBack v w Q := by
  obtain ⟨p, hs, w₁, hpack, hkeeps, hreceive⟩ := h
  exact ⟨p, hs, w₁, hpack, hkeeps,
    (hreceive w₁.calling rfl).mono fun o w₂ hb ho => hR o w₁ w₂ hkeeps hb ho⟩

/-- What a function of the host that gives back its argument comes to. -/
theorem exists_gives_funcall {f : Obj} (hallowed : (refuseForbiddenHandle h).Gives 0 w (.ok ()) w)
    (hf : w.host.resolve? h.id = some f)
    (happly : ∀ o w₁, w.host.Extends w₁.host → (Host.apply f [o]).Gives 1 w₁ (.ok o) w₁)
    (hback : ComesBack v w Q) :
    ∃ x w₁, (funcall h [v]).Gives 1 w (.ok x) w₁ ∧ Q x w₁.host := by
  obtain ⟨p, hs, w₁, hpack, hkeeps, o, w₂, hreceive, hb, q, w₃, x, w₄, hsend, hunpack, hQ⟩ := hback
  -- the value is packed, its parcel received, and the function called with that
  have hpackAll : (packAll [v]).Gives 0 w (.ok [p]) w₁ := by
    rw [packAll, List.mapM_cons, List.mapM_nil]
    exact (hpack.bind (gives_pure p)).bind ((gives_pure []).bind (gives_pure [p]))
  have hresolve : (Host.resolve h.id).Gives 0 w₁.calling (.ok f) w₁.calling := by
    refine gives_query_bind ?_
    simp only [Query.ask, show w₁.calling.host.resolve? h.id = some f from hkeeps.kept hf]
    exact gives_pure f
  have hreceiveAll : (Host.receiveAll [p]).Gives 0 w₁.calling (.ok [o]) w₂ := by
    rw [Host.receiveAll, List.mapM_cons, List.mapM_nil]
    exact hreceive.bind ((gives_pure []).bind (gives_pure [o]))
  -- the call counts as one while it is in progress
  have hinvoke : (Host.invoke h.id [p]).Gives 1 w₁.calling (.ok q) w₃ :=
    (hresolve.mono (Nat.zero_le 1)).bind ((hreceiveAll.mono (Nat.zero_le 1)).bind
      ((happly o w₂ (hkeeps.extends.trans hb.host)).bind (hsend.mono (Nat.zero_le 1))))
  have hresult := (hinvoke.within (c := .outbound) rfl).bind (hunpack.mono (Nat.zero_le 1))
  exact ⟨x, _, (hallowed.mono (Nat.zero_le 1)).bind
    (Gives.keeping ((hpackAll.mono (Nat.zero_le 1)).bind hresult)), hQ⟩

/-- What a call of the identity function comes to. -/
theorem exists_gives_call (hw : w.Steady) (hcalls : w.Calls .identity)
    (hallowed : w.border.config.isForbidden Builtin.identity.name = false)
    (hback : ∀ w₁, w.KeepsMore w₁ → w₁.Steady → ComesBack v w₁ Q) :
    ∃ x w₁, (call Builtin.identity.name [v]).Gives 1 w (.ok x) w₁ ∧ Q x w₁.host := by
  obtain ⟨a, value, f, hlooked, ha, hf⟩ := hcalls
  have hname : canonicalName Builtin.identity.name = Builtin.identity.name := by
    decide +kernel
  obtain ⟨h, w₁, hlookup, hkeeps, hsteady, hh⟩ :=
    exists_gives_lookup hw (by decide) hname hlooked
  have ha₁ := hkeeps.extends.cell ha
  obtain ⟨x, w₂, hfuncall, hQ⟩ := exists_gives_funcall
    (gives_refuseForbiddenHandle hsteady ha₁ hh (by rw [hkeeps.config, hallowed])) hh
    (fun o w₂ he => Host.gives_apply_identity (he.cell ha₁) (he.cell (hkeeps.extends.cell hf)) o)
    (hback w₁ hkeeps hsteady)
  have hrefuse : (refuseForbidden (canonicalName Builtin.identity.name)).Gives 1 w (.ok ()) w := by
    rw [hname]
    exact (gives_refuseForbidden hallowed).mono (Nat.zero_le 1)
  rw [← hname] at hlookup
  exact ⟨x, _, hrefuse.bind (Gives.keeping ((hlookup.mono (Nat.zero_le 1)).bind hfuncall)), hQ⟩

/-! ### What script code takes in -/

/-- What crosses as data arrives as the value that the data are. -/
theorem arrives_data (ho : w.passage o = .data j) (hread : Json.ofText j.render = .ok j) :
    Arrives o w fun x _ => x = .ofJson j := by
  have hsends := Host.gives_send w o
  rw [ho] at hsends
  obtain ⟨w₁, -, hsend⟩ := hsends
  exact ⟨_, w₁, _, _, hsend, gives_unpackData hread _, rfl⟩

/-- A key that stands for a wrapped value gives that value, held by running code. -/
theorem gives_unpackWrapped {key : Key} {x : Value} (hx : w.border.proxies.get? key = some x) :
    (unpack (.wrapped key)).Gives 0 w (.ok x) (w.hold x.handles) := by
  refine gives_change_bind ?_
  simp only [Change.run, hx]
  exact gives_pure x

/-- A marker arrives as the value that was wrapped. -/
theorem arrives_wrapped {key : Key} {x : Value} (ho : w.passage o = .wrapped key)
    (hx : w.border.proxies.get? key = some x) : Arrives o w fun y _ => y = x := by
  have hsend := Host.gives_send w o
  rw [ho] at hsend
  exact ⟨_, _, x, _, hsend, gives_unpackWrapped hx, rfl⟩

/-- A reference is taken in as a handle. What was kept before is kept. -/
theorem arrives_reference (hw : w.host.Sound) (ho : w.passage o = .reference) :
    Arrives o w fun x i => ∃ h, x = .handle h ∧ i.resolve? h.id = some o ∧ w.host.Extends i ∧
      ∀ {id o'}, w.host.resolve? id = some o' → i.resolve? id = some o' := by
  have hsends := Host.gives_send w o
  rw [ho] at hsends
  obtain ⟨w₁, hb, hsend⟩ := hsends
  have hw₁ := hb.host_sound hw
  refine ⟨_, _, _, _, hsend, gives_change_bind (gives_pure _), _, rfl, ?_, ?_, fun {id o'} ho' => ?_⟩
  · change (World.adopt _ _).2.host.resolve? (World.adopt _ _).1.id = some o
    rw [World.host_adopt, World.id_adopt]
    exact Interpreter.resolve?_retain_self hw₁ o
  · change w.host.Extends (World.adopt _ _).2.host
    rw [World.host_adopt]
    exact hb.host.trans (w₁.host.extends_retain o)
  · change (World.adopt _ _).2.host.resolve? id = some o'
    rw [World.host_adopt]
    refine Interpreter.resolve?_retain hw₁ o ?_
    rwa [Interpreter.resolve?, hb.retained]

/-- An object that has a live handle is taken in as this handle. -/
theorem arrives_handle (hw : w.Sound) (ht : w.border.Tracks h) (hh : h ∈ w.roots)
    (hkept : w.host.resolve? h.id = some o) (hheap : o.isHeap = true)
    (ho : w.passage o = .reference) : Arrives o w fun x _ => x = .handle h := by
  have hsends := Host.gives_send w o
  rw [ho] at hsends
  obtain ⟨w₁, hb, hsend⟩ := hsends
  -- the border counts one call less, and nothing else has changed
  have hrest : w.SameRest (Undo.leaveOutbound.run w₁) := by
    constructor <;>
      simp only [Undo.run, hb.border, hb.script, hb.retained, hb.identities, hb.lastId]
  have hkept₁ : w₁.host.resolve? h.id = some o := by rwa [Interpreter.resolve?, hb.retained]
  -- the object is retained already, and so it goes out under the number that it came in with
  have hretain := Interpreter.retain_of_resolve? (hb.host_sound hw.host) hheap hkept₁
  have hretain' : (Change.retain o).run w₁ = (h.id, w₁) := by
    simp only [Change.run, World.onHost, hretain]
  rw [hretain, hretain'] at hsend
  have hadopt := run_adopt (hw.of_rest hrest) (by rwa [Tracks, hrest.tracked])
    (by rwa [World.roots_of_rest hrest])
  have hunpack : (unpack (.reference h.id)).Gives 0 (Undo.leaveOutbound.run w₁)
      (.ok (.handle h)) ((Undo.leaveOutbound.run w₁).hold [h]) := by
    refine gives_change_bind ?_
    rw [hadopt]
    exact gives_pure _
  exact ⟨_, w₁, .handle h, _, hsend, hunpack, rfl⟩

/-! ### What comes back -/

/-- Plain data without parts come back as what the host makes of them. -/
theorem comesBack_atom (hw : w.Steady) (hj : v.toJson = .ok j) (hatom : j.isAtom = true)
    (hnul : j.isNulFree = true) (hdoubles : ∀ x ∈ j.doubles, Json.readsBack x = true) :
    ComesBack v w fun x _ => x = .ofJson j.structural := by
  have hnest := (Value.isDatum_of_isAtom hj hatom).2
  refine (conveys_atom hw.sound.host hw.interned hw.recallsNumbers hj hatom hnul
    hdoubles).comesBack fun o w₁ w₂ _ _ ho => ?_
  exact arrives_data ho.passage (Json.ofText_render_structural hdoubles hnest)

/-- An object of the host that was not there before, made of a datum, and its handle. -/
structure MadeOf (j : Json) (w : World) (h : Handle) (i : Interpreter) (o : Obj) : Prop where
  kept : i.resolve? h.id = some o
  new : ∃ a, o = .ref a ∧ w.host.heap.size ≤ a
  form : i.HasForm w.host.heap.size o j.structural
  /-- The handle is none of those that live for objects that were there. -/
  other : ∀ {g o'}, g ∈ w.roots → w.host.resolve? g.id = some o' →
    w.host.heap.known o' = o' → g ≠ h

/-- Plain data with parts come back as handles of new objects. -/
theorem comesBack_data (hw : w.Steady) (hj : v.toJson = .ok j) (hatom : j.isAtom = false)
    (hdatum : j.isDatum = true) (hnul : j.isNulFree = true)
    (hdoubles : ∀ x ∈ j.doubles, Json.readsBack x = true) (hnest : j.nesting < Json.maxNesting) :
    ComesBack v w fun x i => ∃ h o, x = .handle h ∧ MadeOf j w h i o := by
  have hkey : v.numberKey? = none := by
    cases v with
    | int i =>
      cases hj
      cases hatom
    | float x =>
      obtain ⟨hx, rfl⟩ := Value.toJson_float hj
      cases hatom
    | _ => rfl
  have hconveys : Conveys v w fun o w₁ => (w₁.passage o = .reference ∧
      ∃ a, o = .ref a ∧ w.host.heap.size ≤ a) ∧
        w₁.host.HasForm w.host.heap.size o j.structural := by
    refine conveys_data hkey hj hnul fun w₂ hw₂ => Host.builds_receive
      (Json.parse_render hdatum hdoubles hnest) ?_
    rw [← hw₂]
    have hi : w₂.host.Interned := hw₂ ▸ hw.interned
    exact (Host.builds_reference hi hatom hdoubles).and
      (Host.builds_ofDatum j w₂ hi (Nat.le_refl _) hdoubles)
  refine hconveys.comesBack fun o w₁ w₂ hkeeps hb ho => ?_
  obtain ⟨⟨hreference, hnew⟩, hform⟩ := ho
  have hsound : w₂.host.Sound := hb.host_sound (hkeeps.sound hw.sound.host)
  obtain ⟨p, w₃, x, w₄, hsend, hunpack, h, hx, hkept, hextends, hstill⟩ :=
    arrives_reference hsound hreference
  refine ⟨p, w₃, x, w₄, hsend, hunpack, h, o, hx, hkept, hnew,
    hform.of_leaves (hextends.leaves _), fun {g o'} _ ho' hknown hgh => ?_⟩
  -- the host keeps one object under each number
  have ho'' : w₄.host.resolve? g.id = some o' := by
    refine hstill ?_
    rw [Interpreter.resolve?, hb.retained]
    exact hkeeps.kept ho'
  obtain ⟨a, rfl, ha⟩ := hnew
  rw [hgh, hkept] at ho''
  obtain rfl := Option.some.inj ho''
  rw [Heap.known, if_neg (Nat.not_lt.mpr ha)] at hknown
  cases hknown

theorem ComesBack.mono {Q Q' : Value → Interpreter → Prop} (h : ComesBack v w Q)
    (hQ : ∀ x i, Q x i → Q' x i) : ComesBack v w Q' := by
  obtain ⟨p, hs, w₁, hpack, hkeeps, hreceive⟩ := h
  exact ⟨p, hs, w₁, hpack, hkeeps, hreceive.mono fun o w₂ _ ho => ho.mono hQ⟩

/-- An object comes back from a handle as it arrives from the host. -/
theorem comesBack_handle {Q : Value → Interpreter → Prop} (ho : w.host.resolve? h.id = some o)
    (harrives : Arrives o w.calling Q) : ComesBack (.handle h) w Q := by
  refine ⟨.reference h.id, [], w, gives_pure _, .refl w,
    (builds_reference (show w.calling.host.resolve? h.id = some o from ho)).mono ?_⟩
  rintro o' w₁ - ⟨rfl, rfl⟩
  exact harrives

/-- What a handle was made of was so before more was kept. -/
theorem MadeOf.of_keepsMore {i : Interpreter} (h : w.KeepsMore w₁) {g : Handle}
    (hg : MadeOf j w₁ g i o) : MadeOf j w g i o where
  kept := hg.kept
  new := by
    rw [← h.heap]
    exact hg.new
  form := by
    rw [← h.heap]
    exact hg.form
  other hroot hkept hknown := hg.other (h.roots hroot) (h.kept hkept) (by rwa [h.heap])

end Border

/-- What an object crosses as depends on the heap and on what names stand for. -/
theorem World.KeepsMore.passage (h : w.KeepsMore w₁) (o : Obj) : w₁.passage o = w.passage o := by
  have hintern : ∀ name, (w₁.host.intern name).1 = (w.host.intern name).1 := by
    intro name
    simp only [Interpreter.intern, Interpreter.find?, h.heap, h.symbols]
    split
    · rfl
    · split <;> rfl
  simp only [World.passage, h.heap, hintern]

namespace Border

/-- A call of the identity function with a value gives a result, which is as `Q` says. -/
def GivesBack (w : World) (v : Value) (Q : Value → Interpreter → Prop) : Prop :=
  ∃ x w₁, (call Builtin.identity.name [v]).run w = (.ok x, w₁) ∧ Q x w₁.host

/-- What comes back of the values that script code gives to the identity function. -/
structure Identifies (w : World) : Prop where
  null : ∀ v ∈ [Value.null, .bool false, .object []], GivesBack w v fun x _ => x = .null
  truth : GivesBack w (.bool true) fun x _ => x = .bool true
  int : ∀ i, GivesBack w (.int i) fun x _ => x = .int i
  /-- A finite double, as no other one reads back. -/
  float : ∀ x, Json.readsBack x = true → GivesBack w (.float x) fun y _ => y = .float x
  text : ∀ s, (Json.text s).isNulFree = true → GivesBack w (.text s) fun x _ => x = .text s
  /-- Lists and objects with fields. -/
  data : ∀ v j, v.toJson = .ok j → j.isAtom = false → j.isDatum = true → j.isNulFree = true →
    (∀ x ∈ j.doubles, Json.readsBack x = true) → j.nesting < Json.maxNesting →
    GivesBack w v fun x i => ∃ h o, x = .handle h ∧ MadeOf j w h i o
  /-- Handles of `nil`, of numbers, of strings and of truth. -/
  primitive : ∀ h ∈ w.roots, ∀ o j, w.host.resolve? h.id = some o → w.host.Denotes o j →
    (∀ x, o = .float x → Json.readsBack x = true) →
    GivesBack w (.handle h) fun x _ => x = .ofJson j
  /-- Handles of infinities and the like. -/
  infinite : ∀ h ∈ w.roots, ∀ x, w.host.resolve? h.id = some (.float x) → x.isFinite = false →
    GivesBack w (.handle h) fun y i => ∃ g, y = .handle g ∧ i.resolve? g.id = some (.float x)
  /-- Handles of markers. -/
  wrapped : ∀ h ∈ w.roots, ∀ o key x, w.host.resolve? h.id = some o →
    w.passage o = .wrapped key → w.border.proxies.get? key = some x →
    GivesBack w (.handle h) fun y _ => y = x
  /-- Handles of all other objects. -/
  same : ∀ h ∈ w.roots, ∀ o, w.host.resolve? h.id = some o → o.isHeap = true →
    w.passage o = .reference → GivesBack w (.handle h) fun x _ => x = .handle h
  /-- Native objects are not packed, so that the function is not applied: a failure that
  a procedure comes to at depth 0 is one without tasks. -/
  native : ∀ name, ∃ w₁, (call Builtin.identity.name [.native name]).run w =
      (.error (.failure .unwrapped), w₁) ∧
    (call Builtin.identity.name [.native name]).Gives 0 w (.error .unwrapped) w₁

variable {Q : Value → Interpreter → Prop}

section Identity

variable (hw : w.Steady) (hcalls : w.Calls .identity)
  (hallowed : w.border.config.isForbidden Builtin.identity.name = false)

include hw hcalls hallowed

/-- A value is given back if it comes back in each world that keeps what there was. -/
theorem givesBack_of_comesBack
    (hback : ∀ w₁, w.KeepsMore w₁ → w₁.Steady → ComesBack v w₁ Q) : GivesBack w v Q := by
  obtain ⟨x, w₁, hgives, hQ⟩ := exists_gives_call hw hcalls hallowed hback
  exact ⟨x, w₁, hgives.run (by decide), hQ⟩

/-- An atom is given back as its structural form. -/
theorem givesBack_atom (hj : v.toJson = .ok j) (hatom : j.isAtom = true)
    (hnul : j.isNulFree = true) (hdoubles : ∀ x ∈ j.doubles, Json.readsBack x = true) :
    GivesBack w v fun x _ => x = .ofJson j.structural :=
  givesBack_of_comesBack hw hcalls hallowed fun _ _ hw₁ =>
    comesBack_atom hw₁ hj hatom hnul hdoubles

/-- What an object denotes comes back as it is. -/
theorem givesBack_denoted {i : Interpreter} (ho : i.Denotes o j) (hnul : j.isNulFree = true)
    (hfloat : ∀ x, o = .float x → Json.readsBack x = true) :
    GivesBack w (.ofJson j) fun x _ => x = .ofJson j := by
  have hback := givesBack_atom hw hcalls hallowed ho.toJson_ofJson ho.isAtom hnul
    fun x hx => hfloat x (ho.eq_of_mem_doubles hx)
  rwa [ho.structural_eq] at hback

/-- A handle is given back as whatever its object arrives as. -/
theorem givesBack_handle (hh : h ∈ w.roots) (ho : w.host.resolve? h.id = some o)
    (harrives : ∀ w₁, w.KeepsMore w₁ → w₁.Steady → h ∈ w₁.roots →
      w₁.host.resolve? h.id = some o → Arrives o w₁.calling Q) : GivesBack w (.handle h) Q :=
  givesBack_of_comesBack hw hcalls hallowed fun w₁ hkeeps hw₁ =>
    comesBack_handle (hkeeps.kept ho)
      (harrives w₁ hkeeps hw₁ (hkeeps.roots hh) (hkeeps.kept ho))

/-- A function that was never wrapped is refused before the host is called. -/
theorem exists_gives_call_native (name : String) :
    ∃ w₁, (call Builtin.identity.name [.native name]).Gives 0 w (.error .unwrapped) w₁ := by
  obtain ⟨a, value, f, hlooked, ha, -⟩ := hcalls
  have hname : canonicalName Builtin.identity.name = Builtin.identity.name := by
    decide +kernel
  obtain ⟨h, w₁, hlookup, hkeeps, hsteady, hh⟩ :=
    exists_gives_lookup hw (by decide) hname hlooked
  have hrefuse : (refuseForbidden (canonicalName Builtin.identity.name)).Gives 0 w (.ok ()) w := by
    rw [hname]
    exact gives_refuseForbidden hallowed
  have hrefuseHandle := gives_refuseForbiddenHandle hsteady (hkeeps.extends.cell ha) hh
    (by rw [hkeeps.config, hallowed])
  -- a function that was never wrapped cannot be packed, and so the host is not called
  have hpack : (packAll [.native name]).Gives 0 w₁ (.error .unwrapped) w₁ := by
    rw [packAll, List.mapM_cons]
    exact (Gives.bind_error (gives_fail _)).bind_error
  rw [← hname] at hlookup
  exact ⟨_, hrefuse.bind (Gives.keeping_error (hlookup.bind
    (hrefuseHandle.bind (Gives.keeping_error hpack.bind_error))))⟩

/-- The four conversions together, for every kind of value. -/
theorem identifies : Identifies w where
  null := by
    -- null, truth and falsehood, and texts are atoms
    have hnull : ∀ {v j}, v.toJson = .ok j → j.isAtom = true → j.isNulFree = true →
        j.doubles = [] → j.structural = .null → GivesBack w v fun x _ => x = .null := by
      intro v j hj hatom hnul hdoubles hstructural
      have hback := givesBack_atom hw hcalls hallowed hj hatom hnul (by simp [hdoubles])
      rwa [hstructural] at hback
    intro v hv
    rcases List.mem_cons.mp hv with rfl | hv
    · exact hnull rfl rfl rfl rfl rfl
    rcases List.mem_cons.mp hv with rfl | hv
    · exact hnull rfl rfl rfl rfl rfl
    · obtain rfl := List.mem_singleton.mp hv
      exact hnull rfl rfl rfl rfl rfl
  truth := givesBack_atom hw hcalls hallowed (j := .bool true) rfl rfl rfl nofun
  int i := by
    -- numbers are denoted by objects of their own kind
    have hback := givesBack_denoted hw hcalls hallowed (i := w.host) (.int i) rfl nofun
    rwa [Value.ofJson_ofFixnum] at hback
  float x hx := by
    have hfloat : ∀ y, Obj.float x = .float y → Json.readsBack y = true := by
      rintro y hy
      obtain rfl := Obj.float.inj hy
      exact hx
    have hdenotes : w.host.Denotes (.float x) _ := .float (Json.isFinite_of_readsBack hx)
    have hback := givesBack_denoted hw hcalls hallowed hdenotes rfl hfloat
    rwa [Value.ofJson] at hback
  text s hs := givesBack_atom hw hcalls hallowed (j := .text s) rfl rfl hs nofun
  data v j hj hatom hdatum hnul hdoubles hnest := by
    refine givesBack_of_comesBack hw hcalls hallowed fun w₁ hkeeps hw₁ => ?_
    refine (comesBack_data hw₁ hj hatom hdatum hnul hdoubles hnest).mono fun x i hx => ?_
    obtain ⟨h, o, rfl, hmade⟩ := hx
    exact ⟨h, o, rfl, hmade.of_keepsMore hkeeps⟩
  primitive h hh o j ho hdenotes hfloat := by
    obtain ⟨hdatum, hnesting⟩ := hdenotes.isDatum
    -- other data are read back from their text
    have hread : Json.ofText j.render = .ok j :=
      Json.ofText_render hdatum (fun x hx => hfloat x (hdenotes.eq_of_mem_doubles hx))
        (by rw [hnesting]; decide)
    refine givesBack_handle hw hcalls hallowed hh ho fun w₁ hkeeps _ _ _ => ?_
    have hdenotes₁ : w₁.calling.host.Denotes o j := hdenotes.of_extends hkeeps.extends
    exact arrives_data hdenotes₁.passage hread
  infinite h hh x hx hinfinite := by
    refine givesBack_handle hw hcalls hallowed hh hx fun w₁ hkeeps hw₁ _ _ => ?_
    have hpassage : w₁.calling.passage (.float x) = .reference := by
      simp [World.passage, Heap.shape, Json.ofFloat?, hinfinite]
    have hsound : w₁.calling.host.Sound := hw₁.sound.host
    refine (arrives_reference hsound hpassage).mono fun y i hy => ?_
    obtain ⟨g, rfl, hg, -⟩ := hy
    exact ⟨g, rfl, hg⟩
  wrapped h hh o key x ho hpassage hx :=
    givesBack_handle hw hcalls hallowed hh ho fun w₁ hkeeps _ _ _ =>
      arrives_wrapped ((hkeeps.passage o).trans hpassage) (hkeeps.proxies ▸ hx)
  same h hh o ho hheap hpassage :=
    givesBack_handle hw hcalls hallowed hh ho fun w₁ hkeeps hw₁ hh₁ ho₁ => by
      have hrest : w₁.SameRest w₁.calling := by constructor <;> rfl
      exact arrives_handle (hw₁.sound.of_rest hrest) (hw₁.tracks hh₁) hh₁ ho₁ hheap
        ((hkeeps.passage o).trans hpassage)
  native name := by
    obtain ⟨w₁, hgives⟩ := exists_gives_call_native hw hcalls hallowed name
    exact ⟨w₁, hgives.run (Nat.zero_le _), hgives⟩

end Identity

end Border

namespace Transcript

open Moment

/-- In every session in which script code takes in references only while the host keeps
them, however numbers cross: as long as the name of the identity function is not reserved
and stands for the function, script code gets back what it gives to the function. What is
false or empty comes back as null, and other plain data with parts come back as new
objects of the host; what a handle is for comes back by itself if it is plain. -/
theorem identity_gives_back (config : Config) (steps : List Step)
    {m : Moment (List (Except Failure Answer × List Answer))}
    (hm : Reaches (Licensed .careful) (start config steps) m)
    (hcalls : m.world.Calls .identity)
    (hallowed : m.world.border.config.isForbidden Builtin.identity.name = false) :
    Border.Identifies m.world :=
  Border.identifies (steady_of_reaches hm) hcalls hallowed

/-- At the start of a session, falsehood comes back as null, a list as a handle of a new
vector, and a native object not at all. -/
theorem identity_gives_back_initial :
    (∃ w₁, (Border.call "identity" [.bool false]).run (.initial .standard) = (.ok .null, w₁)) ∧
    (∃ h w₁, (Border.call "identity" [.list [.int .one]]).run (.initial .standard) =
      (.ok (.handle h), w₁)) ∧
    ∃ w₁, (Border.call "identity" [.native "file"]).run (.initial .standard) =
      (.error (.failure .unwrapped), w₁) := by
  have hm : Reaches (Licensed .careful) (start .standard []) (start .standard []) := .refl
  have hcalls : (start .standard []).world.Calls .identity := by
    rw [start_eq]
    decide +kernel
  have hback := identity_gives_back .standard [] hm hcalls (by decide)
  have hlist : (Value.list [.int .one]).toJson = .ok (.list [.int 1]) := rfl
  refine ⟨?_, ?_, ?_⟩
  · obtain ⟨x, w₁, hrun, rfl⟩ := hback.null (.bool false) (by simp)
    exact ⟨w₁, hrun⟩
  · obtain ⟨x, w₁, hrun, h, o, rfl, -⟩ := hback.data _ _ hlist rfl rfl rfl
      (fun x hx => by cases hx) (by decide)
    exact ⟨h, w₁, hrun⟩
  · obtain ⟨w₁, hrun, -⟩ := hback.native "file"
    exact ⟨w₁, hrun⟩

end Transcript

end Crossing
