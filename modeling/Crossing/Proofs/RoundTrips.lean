import Crossing.Proofs.StructuralForms

/-!
# Round trips

What the host sends to script code and what script code sends to the host meet in one
relation: an object denotes a datum if the host sends it as the datum, and makes it, or
an equal string, of the datum. What denotes no datum crosses by reference.

- `Interpreter.Denotes`: the objects of data;
- `World.denotes_of_passage`, `Interpreter.Denotes.passage`: what crosses as a datum
  denotes the datum;
- `Host.builds_denoted`: what the host makes of a datum without parts denotes its
  structural form;
- `World.Steady`: what both sides remember is right, and live handles do not dangle;
- `Border.Conveys`: a script value is packed, and the host takes it in;
- `objects_come_back`: an object that goes to script code and back is the same object.
-/

namespace Crossing

open Proc

variable {α γ : Type} {w w₁ w₂ : World} {i : Interpreter} {o o' : Obj} {j : Json}

/-! ### Objects of data -/

/-- The object crosses as the datum. -/
inductive Interpreter.Denotes (i : Interpreter) : Obj → Json → Prop where
  | nil : Denotes i .nil .null
  | int (x : Fixnum) : Denotes i (.int x) (.ofFixnum x)
  | float {x : Float} (hx : x.isFinite = true) : Denotes i (.float x) (.float x hx)
  | text {a : Addr} {s : String} (ha : i.heap.get? a = some (.text s)) :
    Denotes i (.ref a) (.text s)
  | truth {a : Addr} {value function : Option Obj}
    (ha : i.heap.get? a = some (.symbol truthName value function))
    (hname : i.find? truthName = some a) : Denotes i (.ref a) (.bool true)

namespace Interpreter.Denotes

/-- What an object denotes crosses as data. -/
theorem passage (h : w.host.Denotes o j) : w.passage o = .data j := by
  cases h with
  | nil => rfl
  | int x => rfl
  | float hx => simp [World.passage, Heap.shape, Json.ofFloat?, hx]
  | text ha => simp [World.passage, Heap.shape_ref ha]
  | truth ha hname =>
    have hintern := Interpreter.intern_of_find? (by decide) hname
    simp [World.passage, Heap.shape_ref ha, hintern]

/-- What an object denotes it goes on denoting while the interpreter is extended. -/
theorem of_extends {k : Interpreter} (h : i.Denotes o j) (hik : i.Extends k) : k.Denotes o j := by
  cases h with
  | nil => exact .nil
  | int x => exact .int x
  | float hx => exact .float hx
  | text ha => exact .text (hik.cell ha)
  | truth ha hname => exact .truth (hik.cell ha) (hik.names hname)

/-- Only an integer denotes an integer. -/
theorem eq_int {x : Fixnum} (h : i.Denotes o (.ofFixnum x)) : o = .int x := by
  generalize hj : Json.ofFixnum x = j at h
  cases h with
  | int y =>
    obtain ⟨x, hx⟩ := x
    obtain ⟨y, hy⟩ := y
    cases hj
    rfl
  | _ => cases hj

/-- Objects that denote a datum are the same, but for strings, which are equal. -/
theorem same {i' : Interpreter} (h : i.Denotes o j) (h' : i'.Denotes o' j)
    (hii' : i.Extends i') :
    (i.heap.text? o = none → o' = o) ∧
      ∀ s, i.heap.text? o = some s → i'.heap.text? o' = some s ∧ i'.heap.equal o' o = true := by
  -- two objects that denote the same datum are the same, or are texts with the same characters
  cases h with
  | text ha =>
    cases h' with
    | text ha' =>
      have hshape := Heap.shape_ref (hii'.cell ha)
      have hshape' := Heap.shape_ref ha'
      refine ⟨fun hnone => ?_, fun s hs => ?_⟩
      · simp [Heap.text?, Heap.shape_ref ha] at hnone
      · obtain rfl : _ = s := by simpa [Heap.text?, Heap.shape_ref ha] using hs
        refine ⟨by simp [Heap.text?, hshape'], ?_⟩
        simp [Heap.equal, Heap.equalWithin, hshape, hshape']
  | truth ha hname =>
    cases h' with
    | truth ha' hname' =>
      obtain rfl := Option.some.inj ((hii'.names hname).symm.trans hname')
      exact ⟨fun _ => rfl, fun s hs => by simp [Heap.text?, Heap.shape_ref ha] at hs⟩
  | int x => exact ⟨fun _ => h'.eq_int, fun s hs => by simp [Heap.text?, Heap.shape] at hs⟩
  | nil | float _ =>
    cases h'
    exact ⟨fun _ => rfl, fun s hs => by simp [Heap.text?, Heap.shape] at hs⟩

/-- A datum that an object denotes is in range and does not nest. -/
theorem isDatum (h : i.Denotes o j) : j.isDatum = true ∧ j.nesting = 0 := by
  cases h with
  | int x =>
    have hrange := x.inRange
    exact ⟨decide_eq_true (by omega), rfl⟩
  | _ => exact ⟨rfl, rfl⟩

end Interpreter.Denotes

/-- An object that crosses as a datum denotes the datum. -/
theorem World.denotes_of_passage (hknown : w.host.heap.known o = o)
    (h : w.passage o = .data j) : w.host.Denotes o j := by
  cases o with
  | nil =>
    cases h
    exact .nil
  | int x =>
    cases h
    exact .int x
  | float x =>
    simp only [World.passage, Heap.shape, Json.ofFloat?] at h
    split at h
    · rename_i k hx
      cases h
      split at hx
      · cases hx
        exact .float _
      · cases hx
    · cases h
  | ref a =>
    obtain ⟨c, hc⟩ := Heap.exists_get?_of_known hknown
    simp only [World.passage, Heap.shape_ref hc] at h
    cases c with
    | text s =>
      cases h
      exact .text hc
    | symbol name value function =>
      dsimp only at h
      split at h
      · rename_i htrue
        cases h
        obtain ⟨rfl, heq⟩ := htrue
        refine .truth hc ?_
        -- the name is interned, as a new symbol would be another one
        unfold Interpreter.intern at heq
        rw [if_neg (by decide)] at heq
        split at heq
        · rename_i b hfind
          rw [hfind, Obj.eq_ref_iff.mp heq]
        · have hlt := Heap.lt_size_of_get? hc
          rw [Obj.eq_ref_iff.mp heq] at hlt
          exact absurd hlt (Nat.lt_irrefl _)
      · cases h
    | cons head tail =>
      dsimp only at h
      split at h
      · split at h
        · split at h <;> cases h
        · cases h
      · cases h
    | _ => cases h

/-- Strings cross as data. -/
theorem World.passage_of_text? {s : String} (h : w.host.heap.text? o = some s) :
    w.passage o = .data (.text s) := by
  unfold Heap.text? at h
  split at h
  · rename_i hshape
    cases h
    rw [World.passage, hshape]
  · cases h

/-! ### What the host makes of data -/

/-- Whether a datum has no parts. -/
def Json.isAtom : Json → Bool
  | .list _ => false
  | .object fields => fields.isEmpty
  | _ => true

namespace Host

/-- What the host makes of a datum without parts denotes its structural form. -/
theorem builds_denoted (hi : w.host.Interned) (hj : j.isAtom = true)
    (hdoubles : ∀ x ∈ j.doubles, Json.readsBack x = true) :
    (ofDatum j).Builds w fun o w₁ => w₁.host.Denotes o j.structural := by
  cases j with
  | null => exact builds_pure .nil
  | bool b =>
    cases b with
    | false => exact builds_pure .nil
    | true =>
      refine (builds_intern (by decide)).mono fun o w₁ hb ho => ?_
      obtain ⟨a, rfl, ha⟩ := ho
      have hname := hb.host.interned hi _ (Interpreter.mem_symbols_of_find? ha)
      obtain ⟨hnil, -⟩ | ⟨_, value, function, heq, hsymbol⟩ := hname
      · exact absurd hnil (show truthName ≠ "nil" by decide)
      · cases heq
        exact .truth hsymbol ha
  | int x =>
    refine builds_pure ?_
    rw [Json.structural]
    cases hint : Fixnum.ofInt? x with
    | some i =>
      rw [if_neg (Option.some_ne_none i), Fixnum.val_of_ofInt? hint]
      exact .int i
    | none =>
      have hfinite : (Float.ofInt x).isFinite = true := by
        refine Json.isFinite_of_readsBack (hdoubles _ ?_)
        rw [Json.doubles, if_pos hint]
        exact List.mem_singleton_self _
      rw [if_pos rfl, Json.ofDouble_eq hfinite]
      exact .float hfinite
  | float x hx => exact builds_pure (.float hx)
  | text s =>
    refine (builds_make _).mono fun o w₁ _ ho => ?_
    obtain ⟨rfl, hcell, -⟩ := ho
    exact .text hcell
  | list items => cases hj
  | object fields =>
    cases fields with
    | nil => exact builds_pure .nil
    | cons p fields => cases hj

/-- The host takes in what it makes of a datum. -/
theorem builds_receive {R : Obj → World → Prop} (hparse : Json.parse j.render = .ok j)
    (h : (ofDatum j).Builds w R) : (receive (.data j.render)).Builds w R := by
  obtain ⟨o, w₁, hgives, hb, hR⟩ := h
  exact ⟨o, w₁, (gives_readDatum hparse w).bind hgives, hb, hR⟩

end Host

/-! ### Numbers that are remembered -/

/-- Numbers with the same key of the cache are the same value. -/
theorem Value.numberKey?_inj {v v' : Value} {key : NumberKey} (h : v.numberKey? = some key)
    (h' : v'.numberKey? = some key) : v' = v := by
  cases v with
  | int i =>
    cases h
    cases v' <;> cases h'
    rfl
  | float x =>
    cases h
    cases v' with
    | float y =>
      have hbits : y.toBits = x.toBits := by simpa [numberKey?] using h'
      rw [Json.eq_of_toBits hbits]
    | _ => cases h'
  | _ => cases h

/-- A double crosses as data only if it is finite. -/
theorem Value.toJson_float {x : Float} (h : (Value.float x).toJson = .ok j) :
    ∃ hx : x.isFinite = true, j = .float x hx := by
  rw [toJson, Json.ofFloat?] at h
  split at h
  · rename_i k hk
    cases h
    split at hk
    · rename_i hx
      cases hk
      exact ⟨hx, rfl⟩
    · cases hk
  · cases h

/-- There is no text in a number, and so no NUL. -/
theorem Json.isNulFree_of_number? (h : j.number? = some o) : j.isNulFree = true := by
  cases j <;> first | rfl | cases h

/-- Whether a value has an identity, so that it is never copied. -/
def Value.hasIdentity : Value → Bool
  | .handle _ | .function _ | .native _ => true
  | _ => false

/-- A number is data, and has no identity. -/
theorem Value.hasIdentity_of_numberKey? {v : Value} {key : NumberKey}
    (hkey : v.numberKey? = some key) : v.hasIdentity = false := by
  cases v with
  | int _ | float _ => rfl
  | _ => cases hkey

/-- What crosses as data has no identity. -/
theorem Value.hasIdentity_of_toJson {v : Value} (hj : v.toJson = .ok j) :
    v.hasIdentity = false := by
  cases v with
  | handle _ | function _ | native _ => cases hj
  | _ => rfl

/-- The integers of script values are in range. -/
theorem Value.isDatum_of_toJson_int {v : Value} {x : Int} (hj : v.toJson = .ok (.int x)) :
    (Json.int x).isDatum = true := by
  cases v with
  | int i =>
    cases hj
    have hrange := i.inRange
    exact decide_eq_true (by omega)
  | float y =>
    obtain ⟨_, hj⟩ := toJson_float hj
    cases hj
  | list items =>
    rw [toJson] at hj
    cases h : toJsonIn items <;> rw [h] at hj <;> cases hj
  | object fields =>
    rw [toJson] at hj
    cases h : toJsonOf fields <;> rw [h] at hj <;> cases hj
  | _ => cases hj

/-- The datum of a value without parts can be read back. -/
theorem Value.isDatum_of_isAtom {v : Value} (hj : v.toJson = .ok j) (hatom : j.isAtom = true) :
    j.isDatum = true ∧ j.nesting < Json.maxNesting := by
  have hmax : 1 < Json.maxNesting := by decide
  cases j with
  | int x => exact ⟨isDatum_of_toJson_int hj, Nat.lt_of_succ_lt hmax⟩
  | list items => cases hatom
  | object fields =>
    obtain rfl : fields = [] := List.isEmpty_iff.mp hatom
    exact ⟨rfl, hmax⟩
  | _ => exact ⟨rfl, Nat.lt_of_succ_lt hmax⟩

/-- The object of a number that is remembered is what the text of the number reads as. -/
theorem NumberKey.Crosses.eq {key : NumberKey} {v : Value} {text : String} {d : Json}
    (h : key.Crosses o) (hkey : v.numberKey? = some key) (hj : v.toJson = .ok j)
    (htext : j.toText = .ok text) (hparse : Json.parse text = .ok d)
    (hnumber : d.number? = some o') : o = o' := by
  obtain ⟨v', j', text', d', hkey', hj', htext', hparse', hobject⟩ := h
  obtain rfl := Value.numberKey?_inj hkey hkey'
  obtain rfl := Except.ok.inj (hj.symm.trans hj')
  obtain rfl := Except.ok.inj (htext.symm.trans htext')
  obtain rfl := Except.ok.inj (hparse.symm.trans hparse')
  exact hobject _ hnumber

/-! ### Steady worlds -/

/-- The world of a session in which script code takes in references only while the host
keeps them: tables are sound, and what is remembered is right. -/
def World.Steady (w : World) : Prop := ∃ P : Pairing .careful, Fits P w w

/-- The handle that a number is recalled by is for the number. -/
def World.RecallsNumbers (w : World) : Prop :=
  ∀ key h, ((Change.recallNumber key).run w).1 = some h →
    ∃ o, w.host.resolve? h.id = some o ∧ key.Crosses o

namespace World

theorem Steady.sound (hw : w.Steady) : w.Sound := hw.elim fun _ hf => hf.left

/-- In a steady world the table of symbols is in order. -/
theorem Steady.interned (hw : w.Steady) : w.host.Interned := hw.elim fun _ hf => hf.grounded.interned

/-- In a steady world each live handle is tracked. -/
theorem Steady.tracks {h : Handle} (hw : w.Steady) (hh : h ∈ w.roots) : w.border.Tracks h := by
  obtain ⟨P, hf⟩ := hw
  obtain ⟨_, -, hloose⟩ := hf.exists_root hh
  exact hf.tracks hloose

/-- No live handle dangles. -/
theorem Steady.resolves {h : Handle} (hw : w.Steady) (hh : h ∈ w.roots) :
    ∃ o, w.host.resolve? h.id = some o := by
  obtain ⟨P, hf⟩ := hw
  obtain ⟨_, -, hloose⟩ := hf.exists_root hh
  obtain ⟨o, ho, -⟩ := hf.known nofun (P.known_of_loose hloose)
  exact ⟨o, ho⟩

/-- In a steady world each number in the cache is that of an object that shows it. -/
theorem Steady.recallsNumbers (hw : w.Steady) : w.RecallsNumbers := by
  intro key h hrecall
  obtain ⟨g, hg, hlive, heq⟩ | heq :=
    w.revive_cases ((w.border.numberCache.find? fun e => e.1 == key).map Prod.snd)
  · rw [Change.run, heq] at hrecall
    obtain rfl := Option.some.inj hrecall
    have hmem := (find?_key_iff hw.sound.border.numberKeys).mp hg
    obtain ⟨o, ho⟩ := hw.resolves hlive
    obtain ⟨P, hf⟩ := hw
    exact ⟨o, ho, (hf.grounded.numbers _ hmem).2 o ho⟩
  · rw [Change.run, heq] at hrecall
    cases hrecall

/-- The cache stays right as objects are added. -/
theorem RecallsNumbers.of_buildsTo (h : w.RecallsNumbers) (hb : w.BuildsTo w₁) :
    w₁.RecallsNumbers := by
  intro key g hrecall
  have hroots : w₁.roots = w.roots := by simp only [roots, hb.border, hb.script]
  -- the answer depends on the cache and on what is live, which are as before
  have hbefore : ((Change.recallNumber key).run w).1 = some g := by
    rw [← hrecall]
    simp only [Change.run, revive, isLive, hroots, hb.border]
    cases (w.border.numberCache.find? fun e => e.1 == key).map Prod.snd with
    | none => rfl
    | some h => by_cases hlive : h ∈ w.roots <;> simp [hlive]
  obtain ⟨o, ho, hcrosses⟩ := h key g hbefore
  refine ⟨o, ?_, hcrosses⟩
  rwa [Interpreter.resolve?, hb.retained]

end World

/-- A careful session is steady at each moment. -/
theorem Transcript.steady_of_reaches {config : Config} {steps : List Step}
    {m : Moment (List (Except Failure Answer × List Answer))}
    (hm : Moment.Reaches (Moment.Licensed .careful) (start config steps) m) : m.world.Steady := by
  obtain ⟨-, -, -, hf⟩ := (start_alike config steps).reaches_self hm
  exact ⟨_, hf⟩

/-! ### From script code to the host -/

/-- More is kept and held than before; nothing else has changed that the host looks at. -/
structure World.KeepsMore (w w₁ : World) : Prop where
  heap : w₁.host.heap = w.host.heap
  symbols : w₁.host.symbols = w.host.symbols
  sound : w.host.Sound → w₁.host.Sound
  kept : ∀ {id o}, w.host.resolve? id = some o → w₁.host.resolve? id = some o
  roots : ∀ {h}, h ∈ w.roots → h ∈ w₁.roots
  proxies : w₁.border.proxies = w.border.proxies
  config : w₁.border.config = w.border.config

namespace World

theorem KeepsMore.trans (h₀₁ : w.KeepsMore w₁) (h₁₂ : w₁.KeepsMore w₂) : w.KeepsMore w₂ where
  heap := h₁₂.heap.trans h₀₁.heap
  symbols := h₁₂.symbols.trans h₀₁.symbols
  sound h := h₁₂.sound (h₀₁.sound h)
  kept h := h₁₂.kept (h₀₁.kept h)
  roots h := h₁₂.roots (h₀₁.roots h)
  proxies := h₁₂.proxies.trans h₀₁.proxies
  config := h₁₂.config.trans h₀₁.config

/-- The host is the same. -/
theorem KeepsMore.of_host (hhost : w₁.host = w.host) (hroots : ∀ {h}, h ∈ w.roots → h ∈ w₁.roots)
    (hproxies : w₁.border.proxies = w.border.proxies)
    (hconfig : w₁.border.config = w.border.config) : w.KeepsMore w₁ where
  heap := by rw [hhost]
  symbols := by rw [hhost]
  sound h := by rwa [hhost]
  kept h := by rwa [hhost]
  roots := hroots
  proxies := hproxies
  config := hconfig

theorem KeepsMore.refl (w : World) : w.KeepsMore w := .of_host rfl id rfl rfl

/-- A world that keeps what it had extends the interpreter. -/
theorem KeepsMore.extends (h : w.KeepsMore w₁) : w.host.Extends w₁.host where
  cell hc := by rwa [h.heap]
  names hn := by rwa [Interpreter.find?, h.symbols]
  interned hi := by
    unfold Interpreter.Interned at hi ⊢
    rwa [h.heap, h.symbols]

/-- What is held is live. -/
theorem roots_hold (w : World) (hs : List Handle) : (w.hold hs).roots = hs ++ w.roots := by
  simp only [roots, hold, List.append_assoc]

theorem keepsMore_hold (w : World) (hs : List Handle) : w.KeepsMore (w.hold hs) := by
  refine .of_host rfl (fun h => ?_) rfl rfl
  rw [roots_hold]
  exact List.mem_append_right _ h

theorem keepsMore_retain (hw : w.host.Sound) (o : Obj) :
    w.KeepsMore ((Change.retain o).run w).2 where
  heap := by
    simp only [Change.run, onHost, Interpreter.retain]
    split <;> rfl
  symbols := by
    simp only [Change.run, onHost, Interpreter.retain]
    split <;> rfl
  sound _ := hw.retain o
  kept h := Interpreter.resolve?_retain hw o h
  roots h := h
  proxies := rfl
  config := rfl

theorem keepsMore_adopt (w : World) (id : ObjectId) : w.KeepsMore (w.adopt id).2 := by
  unfold adopt
  split
  · split
    · exact keepsMore_hold w _
    · exact .of_host rfl (fun h => List.mem_cons_of_mem _ h) rfl rfl
  · exact .of_host rfl (fun h => List.mem_cons_of_mem _ h) rfl rfl

end World

namespace Border

variable {v : Value} {R R' : Obj → World → Prop}

/-- A value is packed, and the host takes in of the parcel what `R` says, as long as it
has not changed. -/
def Conveys (v : Value) (w : World) (R : Obj → World → Prop) : Prop :=
  ∃ p hs w₁, (pack v).Gives 0 w (.ok (p, hs)) w₁ ∧ w.KeepsMore w₁ ∧
    ∀ w₂ : World, w₂.host = w₁.host → (Host.receive p).Builds w₂ R

theorem Conveys.mono (h : Conveys v w R) (hR : ∀ o w₁, R o w₁ → R' o w₁) : Conveys v w R' := by
  obtain ⟨p, hs, w₁, hgives, hkeeps, hreceive⟩ := h
  exact ⟨p, hs, w₁, hgives, hkeeps, fun w₂ hw₂ =>
    (hreceive w₂ hw₂).mono fun o w₃ _ => hR o w₃⟩

/-- A number that resolves is received as its object, and nothing changes. -/
theorem builds_reference {id : ObjectId} (ho : w.host.resolve? id = some o) :
    (Host.receive (.reference id)).Builds w fun o' w₁ => o' = o ∧ w₁ = w := by
  refine ⟨o, w, gives_query_bind ?_, .refl w, rfl, rfl⟩
  simp only [Query.ask, ho]
  exact gives_pure o

/-- A handle brings the object that it is for. -/
theorem conveys_handle {h : Handle} (ho : w.host.resolve? h.id = some o) :
    Conveys (.handle h) w fun o' w₁ => o' = o ∧ w₁.host = w.host := by
  refine ⟨.reference h.id, [], w, gives_pure _, .refl w, fun w₂ hw₂ => ?_⟩
  refine (builds_reference (hw₂ ▸ ho)).mono fun o' w₃ _ h => ?_
  exact ⟨h.1, h.2 ▸ hw₂⟩

/-- A number is packed through the cache, if there is one. -/
theorem pack_of_numberKey? {key : NumberKey} (hkey : v.numberKey? = some key) :
    pack v = packNumberOrData key v := by
  cases v with
  | int i | float x =>
    cases hkey
    rfl
  | _ => cases hkey

/-- What has no identity is packed as text, unless it is a number that is to be remembered. -/
theorem gives_pack_text {r : Except Failure String} (hv : v.hasIdentity = false)
    (hcache : v.numberKey? = none ∨ w.border.config.cacheNumbers = false)
    (hr : (v.toJson >>= Json.toText) = r) :
    (pack v).Gives 0 w (r.map fun text => (.data text, [])) w := by
  have hdata : (packData v >>= fun p => pure (p, ([] : List Handle))).Gives 0 w
      (r.map fun text => (.data text, [])) w := by
    rw [packData, hr]
    cases r with
    | ok text =>
      have hparcel : (ofExcept (.ok text) >>= fun text => pure (Parcel.data text)).Gives 0 w
          (.ok (.data text)) w := (gives_ofExcept (.ok text)).bind (gives_pure _)
      exact hparcel.bind (gives_pure _)
    | error f => exact Gives.bind_error (Gives.bind_error (gives_ofExcept (.error f)))
  -- a number goes through the cache, if there is one
  cases hkey : v.numberKey? with
  | none =>
    cases v with
    | handle _ | function _ | native _ => cases hv
    | int _ | float _ => cases hkey
    | _ => exact hdata
  | some key =>
    have huncached := hcache.resolve_left (by rw [hkey]; nofun)
    rw [pack_of_numberKey? hkey]
    refine gives_query_bind ?_
    simp only [Query.ask, huncached, Bool.false_eq_true, if_false]
    exact hdata

/-- Data are packed as their text, and nothing changes. -/
theorem gives_pack_data (hj : v.toJson = .ok j) (hnul : j.isNulFree = true)
    (hcache : v.numberKey? = none ∨ w.border.config.cacheNumbers = false) :
    (pack v).Gives 0 w (.ok (.data j.render, [])) w := by
  refine gives_pack_text (r := .ok j.render) (Value.hasIdentity_of_toJson hj) hcache ?_
  rw [hj]
  exact if_pos hnul

/-- Plain data that are no number bring what the host makes of their datum. -/
theorem conveys_data (hkey : v.numberKey? = none) (hj : v.toJson = .ok j)
    (hnul : j.isNulFree = true)
    (h : ∀ w₂ : World, w₂.host = w.host → (Host.receive (.data j.render)).Builds w₂ R) :
    Conveys v w R :=
  ⟨.data j.render, [], w, gives_pack_data hj hnul (.inl hkey), .refl w, h⟩

/-- The handle of an object that is made for script code is for the object. -/
theorem exists_gives_adopt (hw : w.host.Sound) (o : Obj) :
    ∃ h w₁, (adopt o).Gives 0 w (.ok h) w₁ ∧ w.KeepsMore w₁ ∧
      w₁.host.resolve? h.id = some o ∧ h ∈ w₁.script.held := by
  refine ⟨_, _, gives_change_bind (gives_change (.adopt _)),
    (w.keepsMore_retain hw o).trans (World.keepsMore_adopt _ _), ?_, World.mem_held_adopt _ _⟩
  change (World.adopt _ _).2.host.resolve? (World.adopt _ _).1.id = some o
  rw [World.host_adopt, World.id_adopt]
  exact Interpreter.resolve?_retain_self hw o

/-- The handle that is packed of a number is for what the text of the number reads as, whether
it is remembered or not. It is remembered now. -/
theorem exists_gives_packNumber {key : NumberKey} {text : String} {d : Json}
    (hw : w.host.Sound) (hn : w.RecallsNumbers) (hkey : v.numberKey? = some key)
    (hj : v.toJson = .ok j) (htext : j.toText = .ok text) (hparse : Json.parse text = .ok d)
    (hnumber : d.number? = some o) :
    ∃ h w₁, (packNumber key v).Gives 0 w (.ok h) w₁ ∧ w.KeepsMore w₁ ∧
      w₁.host.resolve? h.id = some o ∧ h ∈ w₁.script.held ∧
      (key, h) ∈ w₁.border.numberCache := by
  rw [packNumber, hj]
  -- the cached handle is live and is for a number that was made before, or there is none
  obtain ⟨h, hcached, -, heq⟩ | heq :=
    w.revive_cases ((w.border.numberCache.find? fun e => e.1 == key).map Prod.snd)
  · have hrecall : (Change.recallNumber key).run w = (some h, w.hold [h]) := heq
    obtain ⟨o', ho', hcrosses⟩ := hn key h (by rw [hrecall])
    obtain rfl := hcrosses.eq hkey hj htext hparse hnumber
    have hmem : (key, h) ∈ w.border.numberCache := by
      obtain ⟨e, he, rfl⟩ := Option.map_eq_some_iff.mp hcached
      obtain rfl : e.1 = key := by simpa using List.find?_some he
      exact List.mem_of_find?_eq_some he
    refine ⟨h, w.hold [h], (gives_ofExcept (.ok j)).bind (gives_change_bind ?_),
      w.keepsMore_hold _, ho', List.mem_cons_self, hmem⟩
    rw [hrecall]
    exact gives_pure h
  · have hrecall : (Change.recallNumber key).run w = (none, w) := heq
    obtain ⟨h, w₁, hadopt, hkeeps, ho, hheld⟩ := exists_gives_adopt hw o
    have hmaterialize : (materialize j).Gives 0 w (.ok h) w₁ := by
      rw [materialize, htext]
      refine (gives_ofExcept (.ok _)).bind ((Host.gives_readDatum hparse w).bind ?_)
      rw [ofDatum_of_number? hnumber]
      exact (gives_pure o).bind hadopt
    refine ⟨h, ((Change.cacheNumber key h).run w₁).2,
      (gives_ofExcept (.ok j)).bind (gives_change_bind ?_),
      hkeeps.trans (.of_host rfl id rfl rfl), ho, hheld, List.mem_cons_self⟩
    rw [hrecall]
    exact hmaterialize.bind (gives_change_bind (gives_pure h))

/-- A number brings itself. -/
theorem conveys_number {key : NumberKey} (hw : w.host.Sound) (hn : w.RecallsNumbers)
    (hkey : v.numberKey? = some key) (hj : v.toJson = .ok j)
    (hparse : Json.parse j.render = .ok j) (hnumber : j.number? = some o) :
    Conveys v w fun o' _ => o' = o := by
  rw [Conveys, pack_of_numberKey? hkey]
  by_cases hcache : w.border.config.cacheNumbers = true
  · have htext : j.toText = .ok j.render := if_pos (Json.isNulFree_of_number? hnumber)
    obtain ⟨h, w₁, hgives, hkeeps, ho, -⟩ :=
      exists_gives_packNumber hw hn hkey hj htext hparse hnumber
    refine ⟨.reference h.id, [h], w₁, gives_query_bind ?_, hkeeps, fun w₂ hw₂ => ?_⟩
    · simp only [Query.ask, hcache, if_true]
      exact hgives.bind (gives_pure _)
    · exact (builds_reference (hw₂ ▸ ho)).mono fun o' w₃ _ h => h.1
  · have hnul := Json.isNulFree_of_number? hnumber
    have hpack := gives_pack_data hj hnul (.inr (Bool.eq_false_iff.mpr hcache))
    rw [pack_of_numberKey? hkey] at hpack
    refine ⟨.data j.render, [], w, hpack, .refl w, fun w₂ _ => Host.builds_receive hparse ?_⟩
    rw [ofDatum_of_number? hnumber]
    exact builds_pure rfl

/-- Plain data without parts bring an object that denotes their structural form. -/
theorem conveys_atom (hw : w.host.Sound) (hi : w.host.Interned) (hn : w.RecallsNumbers)
    (hj : v.toJson = .ok j) (hatom : j.isAtom = true) (hnul : j.isNulFree = true)
    (hdoubles : ∀ x ∈ j.doubles, Json.readsBack x = true) :
    Conveys v w fun o w₁ => w₁.host.Denotes o j.structural := by
  have hdatum := Value.isDatum_of_isAtom hj hatom
  have hparse := Json.parse_render hdatum.1 hdoubles hdatum.2
  -- all atoms but numbers are packed as they are
  cases hkey : v.numberKey? with
  | none =>
    refine conveys_data hkey hj hnul fun w₂ hw₂ => Host.builds_receive hparse ?_
    exact Host.builds_denoted (hw₂ ▸ hi) hatom hdoubles
  | some key =>
    cases v with
    | int i =>
      cases hj
      refine (conveys_number hw hn hkey rfl hparse (o := .int i) ?_).mono fun o w₁ ho => ?_
      · rw [Json.ofFixnum, Json.number?, Fixnum.ofInt?_val]
      · rw [Json.ofFixnum, Json.structural, if_neg (by rw [Fixnum.ofInt?_val]; nofun), ho]
        exact .int i
    | float x =>
      obtain ⟨hx, rfl⟩ := Value.toJson_float hj
      refine (conveys_number hw hn hkey hj hparse (o := .float x) rfl).mono fun o w₁ ho => ?_
      rw [ho]
      exact .float hx
    | _ => cases hkey

/-- Sends an object to script code, which packs what it gets at once, and takes in the
parcel. -/
def roundTrip (o : Obj) : Proc Obj := do
  let sent ← Host.send o
  let v ← unpack sent
  let (returned, _) ← pack v
  Host.receive returned

/-- What is conveyed is packed and received, in a world that extends the one before. -/
theorem Conveys.exists_gives (h : Conveys v w R) :
    ∃ o w₁, (do let (p, _) ← pack v; Host.receive p).Gives 0 w (.ok o) w₁ ∧
      w.host.Extends w₁.host ∧ R o w₁ := by
  obtain ⟨p, hs, w₁, hpack, hkeeps, hreceive⟩ := h
  obtain ⟨o, w₂, hgives, hb, hR⟩ := hreceive w₁ rfl
  exact ⟨o, w₂, hpack.bind hgives, hkeeps.extends.trans hb.host, hR⟩

end Border

/-- A fixnum that crossed is the integer that it was. -/
theorem Value.ofJson_ofFixnum (i : Fixnum) : ofJson (.ofFixnum i) = .int i := by
  rw [Json.ofFixnum, ofJson, ofInt, Fixnum.ofInt?_val]

namespace Interpreter.Denotes

/-- The value of a datum that an object denotes has this datum, which is its own
structural form. -/
theorem toJson_ofJson (h : i.Denotes o j) : (Value.ofJson j).toJson = .ok j := by
  cases h with
  | int x =>
    rw [Value.ofJson_ofFixnum]
    rfl
  | float hx =>
    rw [Value.ofJson, Value.toJson, Json.ofFloat?, dif_pos hx]
  | _ => rfl

/-- What an object denotes is no list or object. -/
theorem isAtom (h : i.Denotes o j) : j.isAtom = true := by
  cases h <;> rfl

/-- The structural form of what an object denotes is that itself. -/
theorem structural_eq (h : i.Denotes o j) : j.structural = j := by
  cases h with
  | int x => rw [Json.ofFixnum, Json.structural, if_neg (by rw [Fixnum.ofInt?_val]; nofun)]
  | _ => rfl

/-- Its doubles are the object itself. -/
theorem eq_of_mem_doubles {x : Float} (h : i.Denotes o j) (hx : x ∈ j.doubles) : o = .float x := by
  cases h with
  | int y =>
    rw [Json.ofFixnum, Json.doubles, if_neg (by rw [Fixnum.ofInt?_val]; nofun)] at hx
    cases hx
  | float _ => rw [List.mem_singleton.mp hx]
  | _ => cases hx

/-- There is no NUL in what is denoted, if there is none in the text of the object. -/
theorem isNulFree (h : i.Denotes o j)
    (hnul : ∀ s, i.heap.text? o = some s → (Json.text s).isNulFree = true) :
    j.isNulFree = true := by
  cases h with
  | text ha => exact hnul _ (by simp only [Heap.text?, Heap.shape_ref ha])
  | _ => rfl

end Interpreter.Denotes

namespace Border

/-- Script code takes in the value of a datum. -/
theorem gives_unpackData (hread : Json.ofText j.render = .ok j) (w : World) :
    (unpack (.data j.render)).Gives 0 w (.ok (.ofJson j)) w := by
  rw [unpack, hread]
  exact (gives_ofExcept (.ok j)).bind (gives_pure _)

/-- What crosses by reference comes back as it is. -/
theorem exists_gives_roundTrip_reference (hw : w.host.Sound) (ho : w.passage o = .reference) :
    ∃ w₁, (roundTrip o).Gives 0 w (.ok o) w₁ := by
  have hsends := Host.gives_send w o
  rw [ho] at hsends
  obtain ⟨w₁, hb, hsend⟩ := hsends
  have hkept := Interpreter.resolve?_retain_self (hb.host_sound hw) o
  obtain ⟨o', w₂, hreturn, -, rfl, -⟩ :=
    (conveys_handle (w := (((Change.retain o).run w₁).2.adopt (w₁.host.retain o).1).2)
      (h := (((Change.retain o).run w₁).2.adopt (w₁.host.retain o).1).1) (o := o) (by
        rw [World.host_adopt, World.id_adopt]
        exact hkept)).exists_gives
  exact ⟨w₂, hsend.bind (Gives.bind (gives_change_bind (gives_pure _)) hreturn)⟩

/-- What crosses as a datum comes back as something that denotes the datum. -/
theorem exists_gives_roundTrip_data (hw : w.host.Sound) (hi : w.host.Interned)
    (hn : w.RecallsNumbers) (ho : w.host.Denotes o j) (hnul : j.isNulFree = true)
    (hdoubles : ∀ x ∈ j.doubles, Json.readsBack x = true) :
    ∃ o' w₁, (roundTrip o).Gives 0 w (.ok o') w₁ ∧ w.host.Extends w₁.host ∧
      w₁.host.Denotes o' j := by
  have hsends := Host.gives_send w o
  rw [ho.passage] at hsends
  obtain ⟨w₁, hb, hsend⟩ := hsends
  obtain ⟨hdatum, hnesting⟩ := ho.isDatum
  have hread : Json.ofText j.render = .ok j :=
    Json.ofText_render hdatum hdoubles (by rw [hnesting]; decide)
  obtain ⟨o', w₂, hreturn, hextends, ho'⟩ := (conveys_atom (hb.host_sound hw)
    (hb.host.interned hi) (hn.of_buildsTo hb) ho.toJson_ofJson ho.isAtom hnul
    hdoubles).exists_gives
  rw [ho.structural_eq] at ho'
  exact ⟨o', w₂, hsend.bind ((gives_unpackData hread w₁).bind hreturn), hb.host.trans hextends, ho'⟩

end Border

namespace Transcript

open Moment

/-- In every session in which script code takes in references only while the host keeps
them, however numbers cross: an object that goes to script code and comes back at once
is the very same object, unless it is a string, which comes back as an equal one. This
goes for all objects but markers, which stand for values of script code, and strings
with a NUL in them, which script code cannot send back. -/
theorem objects_come_back (config : Config) (steps : List Step)
    {m : Moment (List (Except Failure Answer × List Answer))}
    (hm : Reaches (Licensed .careful) (start config steps) m) {o : Obj}
    (hknown : m.world.host.heap.known o = o)
    (hmarker : ∀ key, m.world.passage o ≠ .wrapped key)
    (hnul : ∀ s, m.world.host.heap.text? o = some s → (Json.text s).isNulFree = true)
    (hfloat : ∀ x, o = .float x → x.isFinite = true → Json.readsBack x = true) :
    ∃ o' w₁, (Border.roundTrip o).run m.world = (.ok o', w₁) ∧
      (m.world.host.heap.text? o = none → o' = o) ∧
      ∀ s, m.world.host.heap.text? o = some s →
        w₁.host.heap.text? o' = some s ∧ w₁.host.heap.equal o' o = true := by
  have hsteady := steady_of_reaches hm
  -- a reference comes back as itself, and data as what they denote
  cases hpassage : m.world.passage o with
  | wrapped key => exact absurd hpassage (hmarker key)
  | reference =>
    obtain ⟨w₁, hgives⟩ := Border.exists_gives_roundTrip_reference hsteady.sound.host hpassage
    refine ⟨o, w₁, hgives.run (Nat.zero_le _), fun _ => rfl, fun s hs => ?_⟩
    rw [World.passage_of_text? hs] at hpassage
    cases hpassage
  | data j =>
    have ho := World.denotes_of_passage hknown hpassage
    -- a double that is sent reads back, as the object was one
    have hdoubles : ∀ x ∈ j.doubles, Json.readsBack x = true := by
      intro x hx
      obtain rfl := ho.eq_of_mem_doubles hx
      refine hfloat x rfl ?_
      cases ho
      assumption
    obtain ⟨o', w₁, hgives, hextends, ho'⟩ := Border.exists_gives_roundTrip_data
      hsteady.sound.host hsteady.interned hsteady.recallsNumbers ho (ho.isNulFree hnul) hdoubles
    obtain ⟨hsame, hequal⟩ := ho.same ho' hextends
    exact ⟨o', w₁, hgives.run (Nat.zero_le _), hsame, hequal⟩

/-- A double and a function come back at the start of a session. -/
theorem objects_come_back_initial :
    ∃ w₁ w₂, (Border.roundTrip (.float 1.5)).run (.initial .standard) = (.ok (.float 1.5), w₁) ∧
      (Border.roundTrip (.ref 2)).run (.initial .standard) = (.ok (.ref 2), w₂) := by
  have hm : Reaches (Licensed .careful) (start .standard []) (start .standard []) := .refl
  have hback : Json.readsBack 1.5 = true := by decide +kernel
  have hfinite : (1.5 : Float).isFinite = true := by decide +kernel
  have hword : ((start .standard []).world.host.heap.shape (.ref 2)).typeName = "subr" := by
    rw [start_eq]
    decide +kernel
  obtain ⟨b, hshape⟩ := Heap.exists_builtin_of_typeName hword
  have hknown : (start .standard []).world.host.heap.known (.ref 2) = .ref 2 := by
    rw [start_eq, Heap.known, if_pos (by decide +kernel)]
  have hnotext : (start .standard []).world.host.heap.text? (.ref 2) = none := by
    rw [Heap.text?, hshape]
  have hreference : (start .standard []).world.passage (.ref 2) = .reference := by
    rw [World.passage, hshape]
  obtain ⟨o, w₁, hrun, hsame, -⟩ := objects_come_back .standard [] hm (o := .float 1.5) rfl
    (fun key h => by
      rw [(Interpreter.Denotes.float hfinite).passage] at h
      cases h)
    (fun s hs => by cases hs) (fun x hx _ => by
      cases hx
      exact hback)
  obtain ⟨p, w₂, hrun', hsame', -⟩ := objects_come_back .standard [] hm hknown
    (fun key h => by
      rw [hreference] at h
      cases h)
    (fun s hs => by
      rw [hnotext] at hs
      cases hs)
    (fun x hx _ => by cases hx)
  obtain rfl := hsame rfl
  obtain rfl := hsame' hnotext
  exact ⟨w₁, w₂, hrun, hrun'⟩

end Transcript

end Crossing
