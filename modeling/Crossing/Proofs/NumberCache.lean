import Crossing.Proofs.Exchanges
import Crossing.Proofs.FloatTexts
import Crossing.Proofs.Holding
import Crossing.Proofs.RoundTrips

/-!
# The number cache

Numbers cross by reference to objects that are remembered as long as they are live. Nobody
can tell this from numbers that cross as text: the reference is to the object that the host
would make of the text.

- `Value.number_cases`: a number has a text that reads as a number, or it is a double that is
  not finite;
- `World.PacksAlike`: a number is packed by reference as it would be packed as text;
- `Border.callRest`: what is left of a call of the host when some arguments have been packed;
- `number_cache_is_invisible`: so are all numbers packed, and the reference stays valid until
  the call that it was made for has returned.
-/

namespace Crossing

open Proc

variable {α β γ : Type} {v : Value} {key : NumberKey} {w w₁ : World} {h : Handle} {o : Obj}

/-! ### Texts of numbers -/

/-- The text of a number reads as a number, unless the number is a double that is not finite. -/
theorem Value.number_cases (hkey : v.numberKey? = some key) :
    (∃ x, v.toJson = .error (.notFinite x)) ∨
      ∃ j text d o, v.toJson = .ok j ∧ j.toText = .ok text ∧ Json.parse text = .ok d ∧
        d.number? = some o := by
  -- a number as data is read back as itself, and made the same object
  have hreads : ∀ j d, v.toJson = .ok j → j.isNulFree = true → Json.parse j.render = .ok d →
      ∃ j text d o, v.toJson = .ok j ∧ j.toText = .ok text ∧ Json.parse text = .ok d ∧
        d.number? = some o := by
    intro j d hj hnul hd
    obtain ⟨o, hnumber, -⟩ := exists_number hkey hj hd
    exact ⟨j, j.render, d, o, hj, if_pos hnul, hd, hnumber⟩
  cases v with
  | int i =>
    have hrange := i.inRange
    exact .inr (hreads _ _ rfl rfl (Json.parse_intText (by omega) (by omega)))
  | float x =>
    -- a double that is not finite is no data
    by_cases hx : x.isFinite = true
    · obtain ⟨d, hd⟩ := Json.exists_parse_jsonText hx
      have hj : (Value.float x).toJson = .ok (.float x hx) := by
        rw [toJson, Json.ofFloat?, dif_pos hx]
      exact .inr (hreads _ d hj rfl hd)
    · refine .inl ⟨x, ?_⟩
      rw [toJson, Json.ofFloat?, dif_neg hx]
  | _ => cases hkey

/-! ### Packing with and without the cache -/

/-- The world in which numbers cross as text. -/
def World.uncached (w : World) : World :=
  { w with border := { w.border with config := { w.border.config with cacheNumbers := false } } }

/-- A number is packed by a reference to an object that the host keeps, which is what the host
would take in if it were packed as text. -/
structure World.PacksAlike (w : World) (v : Value) (key : NumberKey) (h : Handle) (o : Obj)
    (w₁ : World) : Prop where
  packed : (Border.pack v).Gives 0 w (.ok (.reference h.id, [h])) w₁
  held : h ∈ w₁.script.held
  kept : w₁.host.resolve? h.id = some o
  remembered : (key, h) ∈ w₁.border.numberCache
  uncached : ∃ text, (Border.pack v).Gives 0 w.uncached (.ok (.data text, [])) w.uncached ∧
    (Host.receive (.data text)).Gives 0 w.uncached (.ok o) w.uncached

namespace Border

/-- With the cache. -/
theorem gives_pack_cached {r : Except Failure Handle} (hkey : v.numberKey? = some key)
    (hcache : w.border.config.cacheNumbers = true) (h : (packNumber key v).Gives 0 w r w₁) :
    (pack v).Gives 0 w (r.map fun h => (.reference h.id, [h])) w₁ := by
  rw [pack_of_numberKey? hkey]
  refine gives_query_bind ?_
  simp only [Query.ask, hcache, if_true]
  cases r with
  | ok h' => exact h.bind (gives_pure _)
  | error f => exact h.bind_error

/-- A double that is not finite is refused in the same way. -/
theorem gives_pack_error {f : Failure} (hkey : v.numberKey? = some key)
    (hcache : w.border.config.cacheNumbers = true) (hj : v.toJson = .error f) :
    (pack v).Gives 0 w (.error f) w ∧ (pack v).Gives 0 w.uncached (.error f) w.uncached := by
  constructor
  · refine gives_pack_cached (r := .error f) hkey hcache ?_
    rw [packNumber, hj]
    exact Gives.bind_error (gives_fail f)
  · refine gives_pack_text (r := .error f) (Value.hasIdentity_of_numberKey? hkey) (.inr rfl) ?_
    rw [hj]
    rfl

/-- All other numbers are packed. -/
theorem exists_packsAlike {j d : Json} {text : String} (hw : w.Steady)
    (hcache : w.border.config.cacheNumbers = true) (hkey : v.numberKey? = some key)
    (hj : v.toJson = .ok j) (htext : j.toText = .ok text) (hparse : Json.parse text = .ok d)
    (hnumber : d.number? = some o) : ∃ h w₁, w.PacksAlike v key h o w₁ := by
  obtain ⟨h, w₁, hgives, -, ho, hheld, hmem⟩ := exists_gives_packNumber hw.sound.host
    hw.recallsNumbers hkey hj htext hparse hnumber
  refine ⟨h, w₁, gives_pack_cached hkey hcache hgives, hheld, ho, hmem, text, ?_, ?_⟩
  · refine gives_pack_text (r := .ok text) (Value.hasIdentity_of_toJson hj) (.inr rfl) ?_
    rw [hj]
    exact htext
  · refine (Host.gives_readDatum hparse _).bind ?_
    rw [ofDatum_of_number? hnumber]
    exact gives_pure o

/-! ### Calls of the host -/

/-- What is left of a call of the host when some arguments have been packed. The handles that
come to be held are held until it has returned. -/
def callRest (function : Handle) (packed : List Parcel) (rest : List Value) : Proc Value := do
  let parcels ← packAll rest
  let result ← within .outbound (Host.invoke function.id (packed ++ parcels))
  unpack result

/-- The next argument is packed, and then the others. -/
theorem callRest_cons (function : Handle) (packed : List Parcel) (v : Value) (rest : List Value) :
    callRest function packed (v :: rest) =
      pack v >>= fun r => callRest function (packed ++ [r.1]) rest := by
  simp only [callRest, packAll, List.mapM_cons, bind_assoc, pure_bind, List.append_assoc,
    List.singleton_append]

end Border

/-! ### Sessions -/

/-- Where no script code is about to run, no license is needed. -/
theorem Moment.IsQuiet.licensed {L : License} {scene : Scene} {m : Moment γ}
    (h : m.IsQuiet scene) : m.Licensed L := by
  obtain ⟨p, k, w⟩ := m
  intro s hs
  cases p with
  | task t next =>
    have ht := h.proc
    cases t with
    | step s args => cases ht
    | _ => cases hs
  | _ => cases hs

namespace Transcript

open Moment

variable {config : Config} {steps : List Step}

/-- A session that is about to pack a number comes to have packed it. -/
theorem reaches_packed {k : Stack (List (Except Failure Answer × List Answer)) α}
    {next : Parcel × List Handle → Proc α} {r : Parcel × List Handle}
    (hm : Reaches (Licensed .careful) (start config steps) ⟨Border.pack v >>= next, k, w⟩)
    (hkey : v.numberKey? = some key) (hgives : (Border.pack v).Gives 0 w (.ok r) w₁) :
    Reaches (Licensed .careful) (start config steps) ⟨next r, k, w₁⟩ := by
  have hreached : (Border.pack v).IsReached w :=
    (IsReached.of_moment (reaches_mono (fun _ _ => trivial) hm)).bind_left
  have hfunction : ∀ c, v ≠ .function c := by
    rintro c rfl
    cases hkey
  obtain ⟨s, w₂, hcomes, -⟩ := (Border.isAdditive_pack hfunction).adds hreached
  obtain ⟨rfl, rfl⟩ := hcomes.run_eq (hgives.run (Nat.zero_le _))
  exact hm.trans (Relation.ReflTransGen.mono
    (fun _ _ hgo => ⟨hgo.1.licensed, .next hgo.2⟩) _ _ (hcomes.passes_bind next k))

/-- In every session with the number cache, in which script code takes in references only
while the host keeps them and does not have the host release any, with sweeps anywhere: a
number is refused as without the cache, or it is packed by reference to the object that the
host would make of its text, and the reference stays valid until the call of the host has
returned that the number was packed for. Different numbers have different entries. -/
theorem number_cache_is_invisible (config : Config) (steps : List Step)
    {m : Moment (List (Except Failure Answer × List Answer))}
    (hm : Reaches (Licensed .careful) (start config steps) m)
    (hcache : m.world.border.config.cacheNumbers = true) {v : Value} {key : NumberKey}
    (hkey : v.numberKey? = some key) :
    ((∃ f : Failure, f.label = "Encoding" ∧
        (Border.pack v).Gives 0 m.world (.error f) m.world ∧
        (Border.pack v).Gives 0 m.world.uncached (.error f) m.world.uncached) ∨
      ∃ h o w₁, m.world.PacksAlike v key h o w₁ ∧ ∀ function packed rest k,
        m = ⟨Border.callRest function packed (v :: rest), k, m.world⟩ →
          let call := Border.callRest function (packed ++ [.reference h.id]) rest
          Reaches (Licensed .careful) (start config steps) ⟨call, k, w₁⟩ ∧
            KeepsUntilEnd h o call k w₁) ∧
    ∀ e ∈ m.world.border.numberCache, ∀ e' ∈ m.world.border.numberCache, ∀ v v' : Value,
      v.numberKey? = some e.1 → v'.numberKey? = some e'.1 → (e = e' ↔ v = v') := by
  have hsteady := steady_of_reaches hm
  constructor
  · obtain ⟨x, hj⟩ | ⟨j, text, d, o, hj, htext, hparse, hnumber⟩ := Value.number_cases hkey
    · exact .inl ⟨.notFinite x, rfl, Border.gives_pack_error hkey hcache hj⟩
    obtain ⟨h, w₁, hpacks⟩ :=
      Border.exists_packsAlike hsteady hcache hkey hj htext hparse hnumber
    refine .inr ⟨h, o, w₁, hpacks, fun function packed rest k hcall => ?_⟩
    rw [hcall, Border.callRest_cons] at hm
    have hpacked := reaches_packed hm hkey hpacks.packed
    exact ⟨hpacked, keepsUntilEnd ((start_alike config steps).reaches_self hpacked)
      hpacks.held hpacks.kept⟩
  · intro e he e' he' v v' hv hv'
    constructor
    · rintro rfl
      exact Value.numberKey?_inj hv' hv
    · rintro rfl
      -- the keys are the same, and a key has one entry
      have hkeys := hsteady.sound.border.numberKeys
      obtain ⟨key, h⟩ := e
      obtain ⟨key', h'⟩ := e'
      obtain rfl : key = key' := Option.some.inj (hv.symm.trans hv')
      have hfound := (find?_key_iff hkeys).mpr he
      rw [(find?_key_iff hkeys).mpr he'] at hfound
      rw [Option.some.inj hfound]

/-- A session that calls the host with a number. -/
def numberSession : Moment (List (Except Failure Answer × List Answer)) :=
  start .standard [.mk (.call "list" [.float 1.5]) none false]

/-- The moment at which the number is about to be packed. -/
def numberMoment : Moment (List (Except Failure Answer × List Answer)) := numberSession.after 15

/-- The handle of the function. -/
def listHandle : Handle := ⟨1, ⟨1⟩⟩

/-- The handle that the number gets. -/
def numberHandle : Handle := ⟨2, ⟨2⟩⟩

set_option maxRecDepth 20000 in
/-- The moment of the example is within a call, with the list to be packed. -/
theorem exists_numberMoment_eq : ∃ k,
    numberMoment = ⟨Border.callRest listHandle [] [.float 1.5], k, numberMoment.world⟩ := by
  with_unfolding_all exact ⟨_, rfl⟩

/-- The number is packed for the call, and the object is kept until the call has returned. -/
theorem number_cache_is_invisible_half :
    let call := Border.callRest listHandle [.reference numberHandle.id] []
    ∃ k w₁, Reaches (Licensed .careful) numberSession ⟨call, k, w₁⟩ ∧
      KeepsUntilEnd numberHandle (.float 1.5) call k w₁ := by
  have hfacts : (∀ i < 15, (numberSession.after i).Licensed .careful) ∧
      numberMoment.world.border.config.cacheNumbers = true ∧
      ((Border.pack (.float 1.5)).run numberMoment.world).1.toOption =
        some (.reference numberHandle.id, [numberHandle]) ∧
      ((Border.pack (.float 1.5)).run numberMoment.world).2.host.resolve? numberHandle.id =
        some (.float 1.5) := by
    rw [numberMoment, numberSession, start_eq]
    decide +kernel
  obtain ⟨hlicensed, hcache, hpacked, hnumber⟩ := hfacts
  have hm : Reaches (Licensed .careful) numberSession numberMoment := reaches_after hlicensed
  obtain ⟨k, hk⟩ := exists_numberMoment_eq
  -- the number is packed here, and so it is not refused
  obtain ⟨⟨f, -, hfails, -⟩ | ⟨h, o, w₁, hpacks, hcall⟩, -⟩ :=
    number_cache_is_invisible .standard _ hm hcache (v := .float 1.5) rfl
  · rw [hfails.run (Nat.zero_le _)] at hpacked
    cases hpacked
  · rw [hpacks.packed.run (Nat.zero_le _)] at hpacked hnumber
    obtain ⟨-, hh⟩ := Prod.mk.inj (Option.some.inj hpacked)
    obtain rfl := (List.cons.inj hh).1
    obtain rfl := Option.some.inj (hpacks.kept.symm.trans hnumber)
    exact ⟨k, w₁, hcall _ _ _ k hk⟩

end Transcript

end Crossing
