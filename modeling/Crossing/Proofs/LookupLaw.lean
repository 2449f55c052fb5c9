import Crossing.Proofs.Lookups
import Crossing.Proofs.Outcomes
import Crossing.Proofs.RoundTrips

/-!
# The law of lookups

What lookups give in a session in which script code takes in references only while
the host keeps them. A lookup that asks the host gives a handle of what the name is
interned to. A lookup from memory gives a handle that was looked up before, and whose
object is the same as then; as long as the name has not been uninterned, this is still
what the name is interned to.

- `Interpreter.Stands`: a name is interned to an object;
- `Lookup.stands`: a lookup that asks the host gives such an object;
- `Moment.Reaches.stands`: the name stands for it until it is uninterned;
- `Transcript.resolve?_of_lookup`: the object of a remembered handle;
- `lookups_obey_law`: what every lookup gives, and every later one from memory.
-/

namespace Crossing

variable {α β γ : Type} {name : String} {o : Obj} {a : Addr}

/-! ### What names stand for -/

namespace Interpreter

variable {i j : Interpreter}

/-- A name is interned to an object. -/
def Stands (i : Interpreter) (name : String) (o : Obj) : Prop := i.intern name = (o, i)

/-- A name stands for its symbol, and `nil` for the empty list. -/
theorem stands_iff : i.Stands name o ↔
    name = "nil" ∧ o = .nil ∨ name ≠ "nil" ∧ ∃ a, i.find? name = some a ∧ o = .ref a := by
  unfold Stands intern
  by_cases hnil : name = "nil"
  · simp [hnil, eq_comm]
  · rw [if_neg hnil]
    cases hfind : i.find? name with
    | some a => simp [hnil, eq_comm]
    | none =>
      constructor
      · intro heq
        have hsymbols := congrArg Interpreter.symbols (Prod.mk.inj heq).2
        exact absurd (congrArg List.length hsymbols) (Nat.succ_ne_self _)
      · rintro (⟨heq, -⟩ | ⟨-, _, heq, -⟩)
        · exact absurd heq hnil
        · cases heq

/-- A name that has been interned is interned. -/
theorem stands_intern (i : Interpreter) (name : String) :
    (i.intern name).2.Stands name (i.intern name).1 := by
  by_cases hnil : name = "nil"
  · simp [Stands, intern, hnil]
  · obtain ⟨a, ho, ha⟩ := exists_find?_intern i hnil
    exact stands_iff.mpr (.inr ⟨hnil, a, ha, ho⟩)

/-- What a name stands for depends on the names alone. -/
theorem Stands.of_symbols (h : i.Stands name o) (hsymbols : j.symbols = i.symbols) :
    j.Stands name o := by
  rw [stands_iff] at h ⊢
  rwa [find?, hsymbols]

end Interpreter

/-- What a name is interned to in a lookup, it stands for afterwards. -/
theorem Lookup.stands (l : Lookup γ) : l.remembered.host.Stands l.name l.object := by
  have hsymbols : l.remembered.host.symbols = l.interned.host.symbols := by
    rw [l.host_remembered, Interpreter.symbols_retain]
  exact (l.world.host.stands_intern l.name).of_symbols hsymbols

/-- A name that is not uninterned stands for the same object at each moment of a run. -/
theorem Moment.Reaches.stands {m m₁ : Moment γ}
    (hr : Reaches (fun m => ¬m.Uninterns name) m m₁) (h : m.world.host.Stands name o) :
    m₁.world.host.Stands name o := by
  rw [Interpreter.stands_iff] at h ⊢
  obtain hnil | ⟨hnil, a, ha, rfl⟩ := h
  · exact .inl hnil
  · exact .inr ⟨hnil, a, Reaches.find? hr ha, rfl⟩

/-! ### What lookups give -/

namespace Transcript

open Moment

variable {config : Config} {steps : List Step}
  {m m₁ : Moment (List (Except Failure Answer × List Answer))} {kind : SymbolKind}
  {n : String} {h : Handle} {w₁ : World}

/-- The object of a live handle that is remembered for a name that has not been
uninterned. -/
theorem stands_of_remembered
    (hm : Reaches (fun m => m.Licensed .careful ∧ ¬m.Uninterns name) (start config steps) m)
    (he : ((kind, name), h) ∈ m.world.border.symbolCache) (hh : h ∈ m.world.roots)
    (ho : m.world.host.resolve? h.id = some o) : m.world.host.Stands name o := by
  obtain hinitial | ⟨l, hl, hfinish, hlater, heq⟩ :=
    hm.exists_lookup (orderly_start config steps) he
  · cases hinitial
  · obtain ⟨hkey, rfl⟩ := Prod.mk.inj heq
    obtain ⟨-, rfl⟩ := Prod.mk.inj hkey
    -- the handle has been live since, so that its object is that of the lookup
    have hsound := (alike_of_reaches hl).sound
    have hcareful : l.finish.Alike .careful _ l.finish :=
      (start_alike config steps).reaches_self (reaches_mono (fun _ => And.left) hfinish)
    have hsame := hcareful.resolve?_eq nofun (reaches_mono (fun _ => And.left) hlater)
      l.mem_roots hh
    have hobject : l.finish.world.host.resolve? l.handle.id = some l.object :=
      l.resolve?_handle hsound
    rw [ho, hobject] at hsame
    obtain rfl := Option.some.inj hsame
    exact Reaches.stands (reaches_mono (fun _ => And.right) hlater) l.stands

/-- What a lookup gives at a moment of a session. -/
structure GivesSymbol (config : Config) (steps : List Step)
    (m : Moment (List (Except Failure Answer × List Answer))) (n : String) (kind : SymbolKind)
    (cached : Bool) (h : Handle) (w₁ : World) (o : Obj) : Prop where
  looksUp : Border.LooksUp n kind cached m.world h w₁
  live : h ∈ w₁.roots
  kept : w₁.host.resolve? h.id = some o
  /-- The object is the symbol of the name, or `nil`. -/
  named : w₁.host.heap.Names o (hostName n kind)
  /-- If it is not looked up from memory, it is what the name is interned to. -/
  fresh : cached = false →
    (m.world.host.intern (hostName n kind)).1 = o ∧ w₁.host.Stands (hostName n kind) o
  /-- So it is if the name has not been uninterned since the start. -/
  interned : Reaches (fun m => m.Licensed .careful ∧ ¬m.Uninterns (hostName n kind))
    (start config steps) m → (m.world.host.intern (hostName n kind)).1 = o
  remembered : ((kind, hostName n kind), h) ∈ w₁.border.symbolCache

/-- A lookup at a moment of a session gives the symbol, as the law says. -/
theorem exists_givesSymbol (hm : Reaches (Licensed .careful) (start config steps) m)
    (n : String) (kind : SymbolKind) (cached : Bool) :
    ∃ h w₁ o, GivesSymbol config steps m n kind cached h w₁ o := by
  let l : Lookup Handle := ⟨hostName n kind, kind, .done, .top, m.world⟩
  have hinv := (start_alike config steps).reaches_self hm
  have hi : m.world.host.Interned ∧ ∀ e ∈ m.world.border.symbolCache,
      m.world.host.Promises e.2.id fun o => m.world.host.heap.Names o e.1.2 := by
    obtain ⟨-, -, -, hf⟩ := hinv
    exact ⟨hf.grounded.interned, hf.grounded.symbols⟩
  obtain ⟨h, rfl, he, hh, hlooks⟩ | ⟨-, hlooks⟩ := Border.looksUp_cases l rfl cached hinv.sound
  · obtain ⟨o, ho⟩ := hinv.resolves nofun hh
    refine ⟨h, _, o, hlooks, ?_, ho, (hi.2 _ he).2 o ho, nofun, fun hnever => ?_, he⟩
    · exact List.mem_append_left _ (List.mem_append_left _ List.mem_cons_self)
    · exact congrArg Prod.fst (stands_of_remembered hnever he hh ho)
  · exact ⟨l.handle, _, l.object, hlooks, l.mem_roots, l.resolve?_handle hinv.sound,
      l.names_object hi.1, fun _ => ⟨rfl, l.stands⟩, fun _ => rfl, l.mem_symbolCache⟩

/-- In every session in which script code takes in references only while the host keeps
them, with sweeps anywhere: names that the host spells alike are looked up alike; every
lookup gives a live handle of the symbol of the name, which is what the name is interned
to unless the name has been uninterned and the handle is from memory; and the handle is
looked up from memory for as long as sweeps find it live and the host is not asked for
the name again, whatever else is done. -/
theorem lookups_obey_law (config : Config) (steps : List Step)
    {m : Moment (List (Except Failure Answer × List Answer))}
    (hm : Reaches (Licensed .careful) (start config steps) m) (n : String) (kind : SymbolKind) :
    (∀ n', hostName n' kind = hostName n kind → Border.lookup n' kind = Border.lookup n kind) ∧
    ∀ cached, ∃ h w₁ o, GivesSymbol config steps m n kind cached h w₁ o ∧
      ∀ next : Handle → Proc m.α, m.proc = Border.lookup n kind cached >>= next →
        ∀ m₁, Reaches (fun m => m.Licensed .careful ∧
            (m.maySweep = true → h ∈ m.world.roots) ∧ ¬m.Asks kind (hostName n kind))
            ⟨next h, m.stack, w₁⟩ m₁ → h ∈ m₁.world.roots →
          ∀ n', hostName n' kind = hostName n kind →
            Border.LooksUp n' kind true m₁.world h (m₁.world.hold [h]) := by
  constructor
  -- two names for one symbol give it under one handle
  · intro n' hname
    funext cached
    simp only [Border.lookup, hname]
  · intro cached
    obtain ⟨h, w₁, o, hgives⟩ := exists_givesSymbol hm n kind cached
    refine ⟨h, w₁, o, hgives, fun next hnext m₁ hm₁ hh n' hname => ?_⟩
    have horderly := Reaches.orderly_of_lookup hm (orderly_start config steps) hnext h w₁
    have hlookup : m = ⟨Border.lookup n kind cached >>= next, m.stack, m.world⟩ := by rw [← hnext]
    -- the lookup is done whole before anything else happens
    have hgoes : Reaches (fun _ => True) m ⟨next h, m.stack, w₁⟩ := by
      have hpasses := reaches_of_passes (hgives.looksUp.passes next m.stack)
      rwa [← hlookup] at hpasses
    have hsound : m₁.world.Sound :=
      (alike_of_reaches ((reaches_mono (fun _ _ => trivial) hm).trans
        (hgoes.trans (reaches_mono (fun _ _ => trivial) hm₁)))).sound
    -- what the cache remembers is remembered until the handle is dead
    have he := Reaches.remembers (reaches_mono (fun _ => And.right) hm₁) horderly hgives.remembered
    rw [← hname] at he
    exact Border.looksUp_of_mem hsound he hh

/-- A session that looks up a symbol whose name is then uninterned. -/
def symbolSession : Moment (List (Except Failure Answer × List Answer)) :=
  start .standard [.mk (.lookup "car" .symbol false) (some "f") false,
    .mk (.hostUnintern "car") none false]

/-- The lookup of the session. -/
def symbolLookup : Lookup (List (Except Failure Answer × List Answer)) :=
  ⟨hostName "car" .symbol, .symbol, fun h => pure (.value (.handle h)),
    (symbolSession.after 4).stack, (symbolSession.after 4).world⟩

/-- The symbol is looked up from memory although its name is interned no more. -/
theorem lookups_obey_law_uninterned :
    (∃ o, symbolLookup.remembered.host.resolve? symbolLookup.handle.id = some o ∧
      symbolLookup.remembered.host.heap.Names o "car") ∧
    (symbolLookup.finish.after 22).world.host.find? "car" = none ∧
    Border.LooksUp "car" .symbol true (symbolLookup.finish.after 22).world symbolLookup.handle
      ((symbolLookup.finish.after 22).world.hold [symbolLookup.handle]) := by
  have hfacts : (∀ i < 4, (symbolSession.after i).Licensed .careful) ∧
      symbolLookup.handle ∈ (symbolLookup.finish.after 22).world.roots ∧
      (∀ i < 22, (symbolLookup.finish.after i).Licensed .careful ∧
        ((symbolLookup.finish.after i).maySweep = true →
          symbolLookup.handle ∈ (symbolLookup.finish.after i).world.roots) ∧
        (symbolLookup.finish.after i).proc.interns = false) ∧
      (symbolLookup.finish.after 22).world.host.find? "car" = none := by
    unfold symbolLookup symbolSession start
    rw [World.initial_eq]
    decide +kernel
  obtain ⟨hlicensed, hlive, hmoments, hgone⟩ := hfacts
  have hm : Reaches (Licensed .careful) symbolSession symbolLookup.start :=
    reaches_after hlicensed
  have hname : hostName "car" .symbol = "car" := by cbv
  obtain ⟨-, hlookup⟩ := lookups_obey_law .standard _ hm "car" .symbol
  obtain ⟨h, w₁, o, hgives, hlater⟩ := hlookup false
  -- a lookup gives one handle
  have hgiven : Border.LooksUp "car" .symbol false symbolLookup.start.world symbolLookup.handle
      symbolLookup.remembered :=
    Border.looksUp_asking symbolLookup rfl fun h => absurd h Bool.false_ne_true
  obtain ⟨hh, rfl⟩ := Prod.mk.inj (hgives.looksUp.run.symm.trans hgiven.run)
  obtain rfl := Except.ok.inj hh
  refine ⟨⟨o, hgives.kept, hname ▸ hgives.named⟩, hgone, ?_⟩
  refine hlater (fun h => pure (.value (.handle h))) rfl _ (reaches_after fun i hi => ?_) hlive
    "car" rfl
  obtain ⟨hlicensed, hsweeps, hinterns⟩ := hmoments i hi
  refine ⟨hlicensed, hsweeps, ?_⟩
  rintro ⟨l, hl, -⟩
  rw [show symbolLookup.finish.after i = l.start from hl] at hinterns
  cases hinterns

end Transcript

end Crossing
