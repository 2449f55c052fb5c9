import Crossing.Proofs.DynamicBindings
import Crossing.Proofs.NamedCalls
import Crossing.Proofs.Splices

/-!
# Assignments

Script code sets variables of the host by having it evaluate an assignment. The form for each
value evaluates to what the value stands for, whatever the assignments before it have done.

- `Heap.get?_bind_of_mem`, `World.spares_bound`: what comes of giving symbols values;
- `Host.ends_evaluate_literal`, `Host.ends_evaluate_special`: evaluations that come to an end;
- `Host.ends_assignPairs`: the assignments of a form, one after the other;
- `Border.ends_setq`: the symbols get their values, and the last value arrives;
- `spliced_values_are_data`: every symbol gets what the value for it stands for.
-/

namespace Crossing

open Proc

variable {α : Type} {w w₀ w₁ w₂ : World} {v : Value} {o r form : Obj} {a b : Addr} {name : String}

/-! ### Giving symbols values -/

/-- Whether a cell is a symbol. -/
def Cell.isSymbol : Cell → Bool
  | .symbol .. => true
  | _ => false

namespace Heap

variable {h h₁ : Heap} {ts : List (Addr × Obj)} {value : Option Obj}

theorem get?_setValue_self {old function : Option Obj}
    (ha : h.get? a = some (.symbol name old function)) :
    (h.setValue a value).get? a = some (.symbol name value function) := by
  rw [setValue, get?_modify_self, ha]
  rfl

/-- A cell of another kind stays as the value of a symbol is set. -/
theorem get?_setValue_of_isSymbol (a : Addr) (value : Option Obj) {c : Cell}
    (hb : h.get? b = some c) (hc : c.isSymbol = false) :
    (h.setValue a value).get? b = some c := by
  by_cases hba : b = a
  · subst hba
    rw [setValue, get?_modify_self, hb]
    cases c with
    | symbol name value function => exact absurd hc Bool.noConfusion
    | _ => rfl
  · rw [setValue, get?_modify_other h _ hba, hb]

theorem symbolName?_setValue : (h.setValue a value).symbolName? o = h.symbolName? o := by
  cases o with
  | ref b =>
    simp only [symbolName?, shape]
    by_cases hba : b = a
    · subst hba
      rw [setValue, get?_modify_self]
      cases h.get? b with
      | none => rfl
      | some c => cases c <;> rfl
    · rw [setValue, get?_modify_other h _ hba]
  | _ => rfl

theorem isList_setValue {items : List Obj} (hl : h.IsList o items) :
    (h.setValue a value).IsList o items := by
  induction hl with
  | nil => exact .nil
  | cons hpair _ ih => exact .cons (get?_setValue_of_isSymbol a value hpair rfl) ih

/-- What a form is a literal for, it stays one for as another symbol gets a value. -/
theorem literal?_setValue (hr : h.literal? o = some r)
    (ho : o = .ref a → ∀ name, h.symbolName? o = some name → isKeywordName name = true) :
    (h.setValue a value).literal? o = some r := by
  cases o with
  | ref b =>
    -- a reference that dangles stands for itself, before and after
    cases hb : h.get? b with
    | none =>
      have hself : ∀ h' : Heap, h'.get? b = none → h'.literal? (.ref b) = some (.ref b) :=
        fun h' hb' => by simp only [literal?, shape, hb']
      have hnone : (h.setValue a value).get? b = none := by
        by_cases hba : b = a
        · subst hba
          rw [setValue, get?_modify_self, hb]
          rfl
        · rw [setValue, get?_modify_other h _ hba, hb]
      rw [hself _ hnone, ← hself h hb, hr]
    | some c =>
      cases c with
      | symbol name old function =>
        -- only the symbol that is set could have another value, and it is no form here unless a
        -- keyword
        by_cases hba : b = a
        · subst hba
          have hkeyword := ho rfl name (by rw [symbolName?, shape_ref hb])
          simp only [literal?, shape_ref hb, if_pos hkeyword] at hr
          simp only [literal?, shape_ref (get?_setValue_self hb), if_pos hkeyword, hr]
        · have hb' : (h.setValue a value).get? b = some (.symbol name old function) := by
            rw [setValue, get?_modify_other h _ hba, hb]
          simp only [literal?, shape_ref hb] at hr
          simp only [literal?, shape_ref hb', hr]
      | cons head tail =>
        have hb' := get?_setValue_of_isSymbol a value hb rfl
        simp only [literal?, shape_ref hb] at hr
        simp only [literal?, shape_ref hb', symbolName?_setValue]
        split at hr
        · rename_i quoted hquoted
          have hlist : (h.setValue a value).IsList tail [quoted] :=
            isList_setValue (list?_iff.mp hquoted).1
          rw [list?_iff.mpr ⟨hlist, hlist.length_le⟩]
          exact hr
        · cases hr
      | _ =>
        have hb' := get?_setValue_of_isSymbol a value hb rfl
        simp only [literal?, shape_ref hb] at hr
        simp only [literal?, shape_ref hb', hr]
  | _ => exact hr

/-- The heap after symbols have got values, one after the other. -/
theorem bind_cons_snd (h : Heap) (a : Addr) (o : Obj) (ts : List (Addr × Obj)) :
    (h.bind ((a, o) :: ts) []).2 = ((h.setValue a (some o)).bind ts []).2 := by
  rw [bind, bind_eq]

/-- A cell of another kind stays as variables are bound. -/
theorem get?_bind_of_isSymbol {c : Cell} (hb : h.get? b = some c) (hc : c.isSymbol = false) :
    (h.bind ts []).2.get? b = some c := by
  induction ts generalizing h with
  | nil => exact hb
  | cons t ts ih =>
    obtain ⟨a, o⟩ := t
    rw [bind_cons_snd]
    exact ih (get?_setValue_of_isSymbol a (some o) hb hc)

/-- A symbol that is not among those that get values is as it was. -/
theorem get?_bind_of_notMem (hb : b ∉ ts.map Prod.fst) :
    (h.bind ts []).2.get? b = h.get? b := by
  induction ts generalizing h with
  | nil => rfl
  | cons t ts ih =>
    obtain ⟨a, o⟩ := t
    rw [List.map_cons, List.mem_cons, not_or] at hb
    rw [bind_cons_snd, ih hb.2, setValue, get?_modify_other h _ hb.1]

/-- Each of several symbols has got its value. -/
theorem get?_bind_of_mem {value function : Option Obj}
    (hts : ts.Pairwise fun t t' => t.1 ≠ t'.1) (ht : (a, o) ∈ ts)
    (ha : h.get? a = some (.symbol name value function)) :
    (h.bind ts []).2.get? a = some (.symbol name (some o) function) := by
  induction ts generalizing h value with
  | nil => cases ht
  | cons t ts ih =>
    obtain ⟨hfirst, hrest⟩ := List.pairwise_cons.mp hts
    rw [bind_cons_snd]
    obtain rfl | ht := List.mem_cons.mp ht
    · rw [get?_bind_of_notMem, get?_setValue_self ha]
      rintro hmem
      obtain ⟨t', ht', heq⟩ := List.mem_map.mp hmem
      exact hfirst t' ht' heq.symm
    · have ha' : (h.setValue t.1 (some t.2)).get? a = some (.symbol name value function) := by
        rw [setValue, get?_modify_other h _ (hfirst _ ht).symm, ha]
      exact ih hrest ht ha'

/-- No symbol gets a value as things are added. -/
theorem GrowsTo.value?_eq (hg : h.GrowsTo h₁) (a : Addr) : h₁.value? a = h.value? a := by
  cases hc : h.get? a with
  | some d => rw [value?, value?, hc, hg.cell hc]
  | none =>
    rw [value?, value?, hc]
    cases hc₁ : h₁.get? a with
    | none => rfl
    | some d =>
      have hbare := (hg.added hc₁).resolve_left (by simp [hc])
      cases d with
      | symbol name value function =>
        cases value with
        | none => rfl
        | some o => exact absurd hbare Bool.false_ne_true
      | _ => rfl

end Heap

/-- Symbols have got values, one after the other. -/
def World.bound (w : World) (ts : List (Addr × Obj)) : World :=
  { w with host := { w.host with heap := (w.host.heap.bind ts []).2 } }

namespace World

theorem spares_bound (w : World) (ts : List (Addr × Obj)) :
    w.host.Spares (w.bound ts).host where
  text h := Heap.get?_bind_of_isSymbol h rfl
  vector h := Heap.get?_bind_of_isSymbol h rfl
  pair h := Heap.get?_bind_of_isSymbol h rfl
  names h := h

theorem size_le_bound (w : World) (ts : List (Addr × Obj)) :
    w.host.heap.size ≤ (w.bound ts).host.heap.size :=
  (Heap.develops_bind [] w.host.heap ts []).size_le

/-- To bind variables is to bind the first one and then the others. -/
theorem bound_cons (w : World) (a : Addr) (o : Obj) (ts : List (Addr × Obj)) :
    w.bound ((a, o) :: ts) = ((Change.setValue a o).run w).2.bound ts := by
  rw [bound, Heap.bind_cons_snd]
  rfl

end World

/-! ### Evaluating assignments -/

namespace Host

variable {Q : Except Failure Obj → World → Prop}

/-- An evaluation ends as finding the value of the form does. -/
theorem ends_evaluate (hdepth : w.host.depth < maxDepth)
    (h : (valueOf form).Ends w.deeper fun r w₁ => Q r w₁.shallower) :
    (evaluate form).Ends w Q :=
  ends_perform rfl (ends_within (World.enter_evaluation hdepth) rfl (fun _ => rfl) h)

/-- What a literal is for, it has for its value. -/
theorem comes_valueOf_literal (hr : w.host.heap.literal? form = some r) :
    Comes w.scene (valueOf form) w (.ok r) w := by
  refine comes_query_bind rfl ?_
  unfold Heap.literal? at hr
  -- a symbol is looked up, a quoting form takes its argument, and all else is itself
  split at hr
  · rename_i name value function hshape
    simp only [Query.ask, hshape]
    split at hr
    · rename_i hkeyword
      cases hr
      rw [if_pos hkeyword]
      exact .done rfl
    · rename_i hkeyword
      subst hr
      rw [if_neg hkeyword]
      exact .done rfl
  · rename_i head tail hshape
    split at hr
    · rename_i quoted hquoted
      split at hr
      · rename_i hhead
        cases hr
        have hspecial : specialForm? w.host.heap head = some .quote := by
          rw [specialForm?, hhead]
          rfl
        simp only [Query.ask, hshape]
        refine comes_query_bind rfl ?_
        simp only [Query.ask, hquoted, hspecial]
        exact .done rfl
      · cases hr
    · cases hr
  · rename_i hsymbol hcons
    obtain rfl := Option.some.inj hr
    cases hshape : w.host.heap.shape form with
    | cell c =>
      cases c with
      | symbol name value function => exact absurd hshape (hsymbol _ _ _)
      | cons head tail => exact absurd hshape (hcons _ _)
      | _ =>
        simp only [Query.ask, hshape]
        exact .done rfl
    | _ =>
      simp only [Query.ask, hshape]
      exact .done rfl

/-- The evaluation of a literal leaves everything as it is. -/
theorem comes_evaluate_literal (hdepth : w.host.depth < maxDepth)
    (hr : w.host.heap.literal? form = some r) : Comes w.scene (evaluate form) w (.ok r) w :=
  .task rfl rfl (.inside rfl (World.enter_evaluation hdepth)
    (comes_valueOf_literal (w := w.deeper) hr) (.done rfl)) (.done rfl)

/-- A form that stands for itself evaluates to that below the limit. -/
theorem ends_evaluate_literal (hdepth : w.host.depth < maxDepth)
    (hr : w.host.heap.literal? form = some r) (h : Q (.ok r) w) : (evaluate form).Ends w Q :=
  fun _ => ⟨.ok r, w, comes_evaluate_literal hdepth hr, h⟩

/-- The evaluation of a special form comes to what the rule of the form comes to. -/
theorem ends_evaluate_special {f : SpecialForm} {x : Obj} {args : List Obj}
    (hdepth : w.host.depth < maxDepth) (hlist : w.host.heap.list? form = some (x :: args))
    (hname : w.host.heap.Names x f.name)
    (h : (f.run args).Ends w.deeper fun r w₁ => Q r w₁.shallower) :
    (evaluate form).Ends w Q := by
  obtain ⟨a, tail, rfl, hpair, htail⟩ := Heap.exists_pair_of_list? hlist
  have hnil : f.name ≠ "nil" := by cases f <;> decide
  have hspecial : specialForm? w.host.heap x = some f := by
    rw [specialForm?, hname.symbolName? hnil]
    cases f <;> rfl
  refine ends_evaluate hdepth ((succeeds_query .heap).ends_bind fun _ w₁ _ heq => ?_)
  obtain ⟨rfl, rfl⟩ := heq
  simp only [Query.ask, World.heap_deeper, Heap.shape_ref hpair]
  refine (succeeds_query .heap).ends_bind fun _ w₂ _ heq => ?_
  obtain ⟨rfl, rfl⟩ := heq
  simp only [Query.ask, World.heap_deeper, htail, hspecial]
  exact h

/-- A symbol gets what a form is a literal for. -/
structure Assigns (h : Heap) (a : Addr) (form r : Obj) : Prop where
  symbol : ∃ name value function, h.get? a = some (.symbol name value function)
  literal : h.literal? form = some r

/-- What is assigned is so after another variable is, unless its form is that variable. -/
theorem Assigns.setValue {h : Heap} {value : Option Obj} (ha : Assigns h a form r)
    (hform : form = .ref b → ∀ name, h.symbolName? form = some name → isKeywordName name = true) :
    Assigns (h.setValue b value) a form r where
  symbol := by
    obtain ⟨name, old, function, hcell⟩ := ha.symbol
    obtain ⟨value', function', hcell'⟩ := (Heap.develops_setValue [] h b value).symbol hcell
    exact ⟨name, value', function', hcell'⟩
  literal := Heap.literal?_setValue ha.literal hform

/-- Assignments give symbols the values of the forms, one after the other, if the forms are
literals and none of them is a variable that is set before. -/
theorem ends_assignPairs {ts : List (Addr × Obj × Obj)} {last : Obj}
    (hdepth : w.host.depth < maxDepth) (hts : ∀ t ∈ ts, Assigns w.host.heap t.1 t.2.1 t.2.2)
    (hforms : ts.Pairwise fun t t' => t'.2.1 = .ref t.1 →
      ∀ name, w.host.heap.symbolName? t'.2.1 = some name → isKeywordName name = true)
    (hQ : Q (.ok ((ts.map fun t => t.2.2).getLastD last)) (w.bound (ts.map fun t => (t.1, t.2.2)))) :
    (assignPairs (ts.flatMap fun t => [.ref t.1, t.2.1]) last).Ends w Q := by
  -- the induction is on the assignments; each sets a variable that no later form reads
  induction ts generalizing w last with
  | nil => exact ends_pure hQ
  | cons t ts ih =>
    obtain ⟨a, form, r⟩ := t
    obtain ⟨hfirst, hrest⟩ := List.pairwise_cons.mp hforms
    obtain ⟨⟨name, value, function, ha⟩, hliteral⟩ := hts _ List.mem_cons_self
    simp only [List.flatMap_cons, List.cons_append, List.nil_append, assignPairs]
    refine (succeeds_query .heap).ends_bind fun _ w₁ _ heq => ?_
    obtain ⟨rfl, rfl⟩ := heq
    have hsymbol : w₁.host.heap.asSymbol (.ref a) = .ok a := by
      simp only [Heap.asSymbol, Heap.symbol?, show w₁.host.heap.get? a = _ from ha]
    simp only [Query.ask, hsymbol]
    refine Ends.bind (Q := fun r' w₂ => r' = .ok a ∧ w₁ = w₂) (ends_pure ⟨rfl, rfl⟩)
      (fun a' w₂ h => ?_) fun _ _ h => by cases h.1
    obtain ⟨h, rfl⟩ := h
    obtain rfl := (Except.ok.inj h).symm
    refine Ends.bind (Q := fun r' w₂ => r' = .ok r ∧ w₁ = w₂)
      (ends_evaluate_literal hdepth hliteral ⟨rfl, rfl⟩) (fun r' w₂ h => ?_)
        fun _ _ h => by cases h.1
    obtain ⟨h, rfl⟩ := h
    obtain rfl := (Except.ok.inj h).symm
    refine Ends.bind (Q := fun u w₂ => w₂ = ((Change.setValue a r).run w₁).2 ∧ u = .ok ())
      (ends_change rfl ⟨rfl, rfl⟩) (fun _ w₂ h => ?_) fun _ _ h => by cases h.2
    obtain ⟨rfl, -⟩ := h
    refine ih hdepth (fun t ht => ?_) (hrest.imp fun {t t'} h => ?_) ?_
    · exact (hts t (List.mem_cons_of_mem _ ht)).setValue (hfirst t ht)
    · change t'.2.1 = .ref t.1 → ∀ name,
        (w₁.host.heap.setValue a (some r)).symbolName? t'.2.1 = some name → _
      rwa [Heap.symbolName?_setValue]
    · rw [List.map_cons, List.map_cons, World.bound_cons, List.getLastD_cons] at hQ
      exact hQ

end Host

/-! ### Assignments of script code -/

/-- Handles and values in turn, as the arguments of an assignment. -/
def Border.assignments (bs : List (Handle × Value)) : List Value :=
  bs.flatMap fun b => [.handle b.1, b.2]

namespace World

/-- A handle is for a symbol, and a value does as an argument. -/
structure IsAssignment (w : World) (b : Handle × Value) : Prop where
  symbol : ∃ a name value function, w.host.resolve? b.1.id = some (.ref a) ∧
    w.host.heap.get? a = some (.symbol name value function)
  value : w.IsSpliceable b.2

/-- No symbol is set twice, and the symbol of truth is not set before truth is a value. -/
def SetsOnce (w : World) (bs : List (Handle × Value)) : Prop :=
  bs.Pairwise fun b b' => w.host.resolve? b.1.id ≠ w.host.resolve? b'.1.id ∧
    (b'.2 = .bool true → w.host.resolve? b.1.id ≠ (w.host.find? truthName).map .ref)

/-- A symbol has the value that it has been set to. -/
def HasAssigned (w₀ w : World) (b : Handle × Value) : Prop :=
  ∃ a o, w₀.host.resolve? b.1.id = some (.ref a) ∧ w.host.heap.value? a = some o ∧
    w₀.Supplies w b.2 o

theorem lasting_supplies (v : Value) (o : Obj) : Lasting fun w => w₀.Supplies w v o := by
  refine ⟨fun {w w₁} hg h => ?_⟩
  cases v with
  | handle g => exact h
  | function c => exact (lasting_standsFor (.function c) o).grows hg h
  | _ => exact EmbodiesData.of_spares h hg.spares hg.host.heap.size_le

/-- What plain data and handles stand for does not depend on the values of symbols. -/
theorem Supplies.of_spares (h : w₀.Supplies w v o) (hv : w₀.IsSpliceable v)
    (hs : w.host.Spares w₁.host) (hle : w.host.heap.size ≤ w₁.host.heap.size) :
    w₀.Supplies w₁ v o := by
  cases v with
  | handle g => exact h
  | function c =>
    obtain ⟨-, j, hj, -⟩ := hv
    cases hj
  | _ => exact EmbodiesData.of_spares h hs hle

theorem lasting_hasAssigned (b : Handle × Value) : Lasting fun w => w₀.HasAssigned w b := by
  refine ⟨fun {w w₁} hg h => ?_⟩
  obtain ⟨a, o, ha, hvalue, ho⟩ := h
  exact ⟨a, o, ha, (hg.host.heap.value?_eq a).trans hvalue, (lasting_supplies b.2 o).grows hg ho⟩

/-- What an assignment becomes in the form: the handle stays, and the form for the value
evaluates to what the value stands for. -/
structure Splices (w₀ w : World) (b q : Handle × Value) : Prop where
  symbol : q.1 = b.1
  crosses : w.Crosses q.2
  splices : w₀.SplicesAs w b.2 q.2

/-- What splices a value does so as the world goes on. -/
theorem Splices.sustained {b q : Handle × Value} (h : w₀.Splices w b q) (hs : w.Sustains w₁) :
    w₀.Splices w₁ b q := ⟨h.symbol, hs.crosses h.crosses, hs.splicesAs h.splices⟩

/-- Names and values in turn all cross. -/
theorem crosses_assignments {bs qs : List (Handle × Value)} (hs : w₀.Sustains w)
    (hbs : ∀ b ∈ bs, w₀.IsAssignment b) (hqs : List.Forall₂ (w₀.Splices w) bs qs) :
    ∀ u ∈ Border.assignments qs, w.Crosses u := by
  intro u hu
  obtain ⟨q, hq, hu⟩ := List.mem_flatMap.mp hu
  obtain ⟨b, hb, hsplices⟩ := exists_mem_of_forall₂ hqs.flip hq
  obtain ⟨a, _, _, _, ha, -⟩ := (hbs b hb).symbol
  rw [← hsplices.symbol] at ha
  rcases hu with _ | ⟨_, _ | ⟨_, hnil⟩⟩
  · exact crosses_handle (hs.grown.host.kept ha)
  · exact hsplices.crosses
  · cases hnil

/-- The form of an assignment is not like a marker, as a symbol stands in its second place. -/
theorem avoidsMark_assignments {bs qs : List (Handle × Value)} (hs : w₀.Sustains w)
    (hbs : ∀ b ∈ bs, w₀.IsAssignment b) (hqs : List.Forall₂ (w₀.Splices w) bs qs) :
    w.AvoidsMark (v :: Border.assignments qs) := by
  cases hqs with
  | nil => exact avoidsMark_of_length (by simp [Border.assignments])
  | @cons b q bs qs hq hqs =>
    obtain ⟨a, _, _, _, ha, -⟩ := (hbs b List.mem_cons_self).symbol
    rw [← hq.symbol] at ha
    exact avoidsMark_of_second (hs.grown.host.kept ha)

/-- An assignment is to be made: to which symbol, of which form, and of what the form stands
for. -/
structure Awaits (w₀ w : World) (b : Handle × Value) (t : Addr × Obj × Obj) : Prop where
  symbol : w₀.host.resolve? b.1.id = some (.ref t.1)
  assigns : Host.Assigns w.host.heap t.1 t.2.1 t.2.2
  firm : w.IsFirm b.2 t.2.1 t.2.2
  supplies : w₀.Supplies w b.2 t.2.2

/-- The host takes in symbols and forms in turn. -/
theorem exists_awaits {bs qs : List (Handle × Value)} {os : List Obj} (hs : w₀.Sustains w)
    (hbs : ∀ b ∈ bs, w₀.IsAssignment b) (hqs : List.Forall₂ (w₀.Splices w) bs qs)
    (hos : List.Forall₂ w.StandsFor (Border.assignments qs) os) :
    ∃ ts : List (Addr × Obj × Obj), os = ts.flatMap (fun t => [.ref t.1, t.2.1]) ∧
      List.Forall₂ (w₀.Awaits w) bs ts := by
  -- names and values come in pairs, and so the objects are taken two at a time
  induction hqs generalizing os with
  | nil =>
    cases hos
    exact ⟨[], rfl, .nil⟩
  | @cons b q bs qs hq _ ih =>
    cases hos with
    | @cons _ s _ _ hsymbol hrest =>
      cases hrest with
      | @cons _ form _ rest hform hrest =>
        obtain ⟨ts, rfl, hts⟩ := ih (fun b hb => hbs b (List.mem_cons_of_mem _ hb)) hrest
        obtain ⟨a, name, value, function, ha, hcell⟩ := (hbs b List.mem_cons_self).symbol
        obtain ⟨r, hr, hfirm⟩ := hq.splices w form (.refl w) hform
        rw [hq.symbol] at hsymbol
        obtain rfl := Option.some.inj ((hs.grown.host.kept ha).symm.trans hsymbol)
        refine ⟨(a, form, r) :: ts, rfl, .cons ⟨ha, ⟨?_, hfirm.literal⟩, hfirm, hr⟩ hts⟩
        exact ⟨name, value, function, hs.grown.host.heap.cell hcell⟩

/-- The form for a value that is set later is no variable that is set before. -/
theorem Awaits.form_ne {b b' : Handle × Value} {t t' : Addr × Obj × Obj} (hs : w₀.Sustains w)
    (hb' : w₀.IsAssignment b') (ht : w₀.Awaits w b t) (ht' : w₀.Awaits w b' t')
    (htruth : b'.2 = .bool true → w₀.host.resolve? b.1.id ≠ (w₀.host.find? truthName).map .ref)
    (hform : t'.2.1 = .ref t.1) (hname : w.host.heap.symbolName? t'.2.1 = some name) :
    isKeywordName name = true := by
  obtain hkeyword | ⟨htrue, hfind⟩ := ht'.firm.symbol name hname
  · exact hkeyword
  · have hargument := hb'.value
    rw [htrue] at hargument
    obtain ⟨a, function, ha, -⟩ := hargument.1 rfl
    rw [hs.grown.host.names ha, hform] at hfind
    refine absurd ?_ (htruth htrue)
    rw [ht.symbol, ha, ← hfind]

end World

namespace Border

/-- What assignments become in the form. -/
theorem succeeds_quoteAssignments {bs : List (Handle × Value)} (hsteady : w₀.Steady)
    (hclosed : w₀.host.IsClosed) (hoffers : w₀.OffersForms)
    (hbs : ∀ b ∈ bs, w₀.IsAssignment b) (hs : w₀.Sustains w) :
    ((assignments bs).mapM quoteIfList).Succeeds w fun vs w₁ =>
      ∃ qs, vs = assignments qs ∧ List.Forall₂ (w₀.Splices w₁) bs qs := by
  -- the induction is on the assignments; what was spliced stays so while the next are
  induction bs generalizing w with
  | nil => exact succeeds_pure ⟨[], rfl, .nil⟩
  | cons b bs ih =>
    obtain ⟨⟨a, name, value, function, ha, hcell⟩, hvalue⟩ := hbs b List.mem_cons_self
    have hatom : Host.isConsShape (w.host.heap.shape (.ref a)) = false := by
      rw [Heap.shape_ref (hs.grown.host.heap.cell hcell)]
      rfl
    simp only [assignments, List.flatMap_cons, List.cons_append, List.nil_append,
      List.mapM_cons, bind_assoc, pure_bind]
    refine (succeeds_quoteIfList_atom (hs.offersForms hoffers) (hs.grown.host.kept ha)
      (hs.grown.host.heap.known (hclosed.kept ha)) hatom).bind fun h w₁ hs₁ hh => ?_
    obtain rfl := hh
    have hs₀₁ := hs.trans hs₁
    refine (succeeds_quoteIfList hsteady hclosed hoffers hvalue hs₀₁).bind fun q w₂ hs₂ hq => ?_
    have hs₀₂ := hs₀₁.trans hs₂
    refine (ih (fun b hb => hbs b (List.mem_cons_of_mem _ hb)) hs₀₂).bind
      fun vs w₃ hs₃ hvs => succeeds_pure ?_
    obtain ⟨qs, rfl, hqs⟩ := hvs
    exact ⟨(b.1, q) :: qs, rfl, .cons ⟨rfl, hs₃.crosses hq.1, hs₃.splicesAs hq.2⟩ hqs⟩

end Border

theorem pairwise_of_forall₂ {β : Type} {S : α → β → Prop} {R : α → α → Prop}
    {R' : β → β → Prop} {l : List α} {l' : List β} (h : List.Forall₂ S l l')
    (hR : ∀ a b a' b', b ∈ l → S a a' → S b b' → R a b → R' a' b') (hl : l.Pairwise R) :
    l'.Pairwise R' := by
  induction h with
  | nil => exact .nil
  | @cons a a' l l' ha hrest ih =>
    obtain ⟨hfirst, hl⟩ := List.pairwise_cons.mp hl
    refine List.pairwise_cons.mpr ⟨fun b' hb' => ?_, ih (fun a b a' b' hb =>
      hR a b a' b' (List.mem_cons_of_mem _ hb)) hl⟩
    obtain ⟨b, hb, hS⟩ := exists_mem_of_forall₂ hrest.flip hb'
    exact hR a b a' b' (List.mem_cons_of_mem _ hb) ha hS (hfirst b hb)

/-- The evaluation of an assignment gives symbols the values of the forms, and gives the last of
them. -/
theorem Host.ends_evaluate_setq {bs : List (Handle × Value)} {ts : List (Addr × Obj × Obj)}
    {x : Obj} {Q : Except Failure Obj → World → Prop} (hs : w₀.Sustains w)
    (hdepth : w.host.depth + 1 < maxDepth) (hbs : ∀ b ∈ bs, w₀.IsAssignment b)
    (honce : w₀.SetsOnce bs) (hts : List.Forall₂ (w₀.Awaits w) bs ts)
    (hlist : w.host.heap.list? form = some (x :: ts.flatMap fun t => [.ref t.1, t.2.1]))
    (hname : w.host.heap.Names x "setq")
    (hQ : Q (.ok ((ts.map fun t => t.2.2).getLastD .nil))
      (w.bound (ts.map fun t => (t.1, t.2.2)))) : (evaluate form).Ends w Q := by
  -- an even number of arguments, as each assignment gives two
  have heven : (ts.flatMap fun t => [Obj.ref t.1, t.2.1]).length % 2 = 0 := by
    have hlength : ∀ ts : List (Addr × Obj × Obj),
        (ts.flatMap fun t => [Obj.ref t.1, t.2.1]).length = 2 * ts.length := by
      intro ts
      induction ts with
      | nil => rfl
      | cons t ts ih =>
        rw [List.flatMap_cons, List.length_append, ih, List.length_cons]
        simp only [List.length_cons, List.length_nil]
        omega
    rw [hlength]
    omega
  refine ends_evaluate_special (f := .setq) (by omega) hlist hname ?_
  rw [SpecialForm.run, setq, if_pos heven]
  refine ends_assignPairs (w := w.deeper) hdepth (fun t ht => ?_)
    (pairwise_of_forall₂ hts (fun b b' t t' hb' ht ht' h hform name hn =>
      ht.form_ne hs (hbs b' hb') ht' h.2 hform hn) honce) hQ
  obtain ⟨b, -, hb⟩ := exists_mem_of_forall₂ hts.flip ht
  exact hb.assigns

/-- Each symbol has then what the value for it stands for. -/
theorem World.hasAssigned_bound {bs : List (Handle × Value)} {ts : List (Addr × Obj × Obj)}
    (hbs : ∀ b ∈ bs, w₀.IsAssignment b) (honce : w₀.SetsOnce bs)
    (hts : List.Forall₂ (w₀.Awaits w) bs ts) :
    ∀ b ∈ bs, w₀.HasAssigned (w.bound (ts.map fun t => (t.1, t.2.2))) b := by
  intro b hb
  obtain ⟨t, ht, hawaits⟩ := exists_mem_of_forall₂ hts hb
  obtain ⟨name, value, function, hcell⟩ := hawaits.assigns.symbol
  have hdistinct : (ts.map fun t => (t.1, t.2.2)).Pairwise fun t t' => t.1 ≠ t'.1 := by
    refine List.pairwise_map.mpr (pairwise_of_forall₂ hts
      (fun b b' t t' _ ht ht' h heq => h.1 ?_) honce)
    rw [ht.symbol, ht'.symbol, heq]
  have hmem : (t.1, t.2.2) ∈ ts.map fun t => (t.1, t.2.2) := List.mem_map.mpr ⟨t, ht, rfl⟩
  refine ⟨t.1, t.2.2, hawaits.symbol, ?_, ?_⟩
  · change ((w.host.heap.bind _ []).2).value? t.1 = _
    rw [Heap.value?, Heap.get?_bind_of_mem hdistinct hmem hcell]
  · exact hawaits.supplies.of_spares (hbs b hb).value (w.spares_bound _) (w.size_le_bound _)

/-- Script code has the host set variables. What it gets in the end is what arrives of the last
value, once the symbols have their values. -/
theorem Border.ends_setq {bs : List (Handle × Value)} {Q : Except Failure Value → World → Prop}
    (hoffers : w.OffersForms) (hdepth : w.host.depth + 1 < maxDepth)
    (hbs : ∀ b ∈ bs, w.IsAssignment b) (honce : w.SetsOnce bs)
    (hQ : ∀ r w₁ w₂, w₁.Sustains w₂ → Q r w₁ → Q r w₂)
    (hend : ∀ w₁ ts, w.Sustains w₁ → List.Forall₂ (w.Awaits w₁) bs ts →
      (Host.send ((ts.map fun t => t.2.2).getLastD .nil)).Succeeds
        (w₁.bound (ts.map fun t => (t.1, t.2.2))) fun p w₂ =>
          ∀ w₃, w₂.Sustains w₃ → (unpack p).Ends w₃ Q) :
    (specialForm "setq" (assignments bs)).Ends w Q := by
  intro hdue
  have hsteady := hdue.steady
  have hclosed := hdue.isReached.isClosed
  revert hdue
  -- the value is not needed once the form is evaluated
  refine Ends.mono (ends_keeping_sustained hQ ?_) fun r w₁ h => h.1
  refine (succeeds_symbol (by cbv)).ends_bind fun head w₁ hs₁ hhead => ?_
  obtain ⟨⟨x, hx, hname⟩, -⟩ := hhead
  refine (succeeds_quoteAssignments hsteady hclosed hoffers hbs hs₁).ends_bind
    fun vs w₂ hs₂ hvs => ?_
  obtain ⟨qs, rfl, hqs⟩ := hvs
  have hs₀₂ := hs₁.trans hs₂
  have hcrosses : ∀ u ∈ Value.handle head :: assignments qs, w₂.Crosses u :=
    List.forall_mem_cons.mpr ⟨World.crosses_handle (hs₂.grown.host.kept hx),
      World.crosses_assignments hs₀₂ hbs hqs⟩
  refine (succeeds_list (hs₀₂.offersForms hoffers).list hcrosses
    (World.avoidsMark_assignments hs₀₂ hbs hqs)).ends_bind
    fun form w₃ hs₃ hform => ?_
  have hs₀₃ := hs₀₂.trans hs₃
  obtain ⟨g, o, os, rfl, hg, hlist⟩ := id hform
  refine Ends.mono (ends_call (b := .evaluate) (Q := Q)
    (R := fun r w₄ => ∃ w₁ ts, w.Sustains w₁ ∧ List.Forall₂ (w.Awaits w₁) bs ts ∧
      w₄ = w₁.bound (ts.map fun t => (t.1, t.2.2)) ∧
      r = .ok ((ts.map fun t => t.2.2).getLastD .nil)) (by cbv)
    (hs₀₃.offersForms hoffers).evaluate (E := fun _ => False)
    (List.forall_mem_singleton.mpr (World.crosses_handle hg).unless) (fun _ _ _ => False.elim)
    hQ (fun args w₄ hs₄ hargs => ?_) (fun e w₄ h => ?_) fun o w₄ h => ?_)
      fun _ _ h => h.1
  · obtain ⟨_, o', os', hsame, hg', hlist, hos'⟩ :=
      (World.lasting_isListFor _ _).grows hs₄.grown hform
    obtain rfl := Value.handle.inj hsame
    have hs₀₄ := hs₀₃.trans hs₄
    cases hargs with
    | @cons _ o₁ _ _ ho₁ hnil =>
      cases hnil
      obtain rfl := Option.some.inj (hg'.symm.trans ho₁)
      cases hos' with
      | @cons _ x' _ rest hx' hrest =>
        have hg := hs₂.trans (hs₃.trans hs₄)
        obtain rfl := Option.some.inj ((hg.grown.host.kept hx).symm.trans hx')
        obtain ⟨ts, rfl, hts⟩ := World.exists_awaits hs₀₄ hbs
          (hqs.imp fun _ _ h => h.sustained (hs₃.trans hs₄)) hrest
        exact Host.ends_evaluate_setq hs₀₄ (by rwa [hs₀₄.depth]) hbs honce hts hlist
          (hg.grown.host.heap.names hname) ⟨w₄, ts, hs₀₄, hts, rfl, rfl⟩
  · obtain ⟨_, _, _, _, _, h⟩ := h
    cases h
  · obtain ⟨w₁, ts, hs, hts, rfl, ho⟩ := h
    rw [Except.ok.inj ho]
    exact hend w₁ ts hs hts

/-- Script code has the host set variables. However the call ends, each symbol has what the
value for it stands for: plain data what the host makes of them, and a handle what it is for,
or what that quotes. Nothing of it is evaluated. -/
theorem spliced_values_are_data {bs : List (Handle × Value)}
    (hdue : (Border.specialForm "setq" (Border.assignments bs)).IsDue w)
    (hoffers : w.OffersForms) (hdepth : w.host.depth + 1 < maxDepth)
    (hbs : ∀ b ∈ bs, w.IsAssignment b) (honce : w.SetsOnce bs) :
    ∃ r w₁, Comes w.scene (Border.specialForm "setq" (Border.assignments bs)) w r w₁ ∧
      ∀ b ∈ bs, w.HasAssigned w₁ b := by
  revert hdue
  have hlasting : ∀ (w₁ w₂ : World), w₁.Sustains w₂ → (∀ b ∈ bs, w.HasAssigned w₁ b) →
      ∀ b ∈ bs, w.HasAssigned w₂ b :=
    fun w₁ w₂ hs h b hb => (World.lasting_hasAssigned b).grows hs.grown (h b hb)
  refine Border.ends_setq (Q := fun _ w₁ => ∀ b ∈ bs, w.HasAssigned w₁ b) hoffers hdepth hbs honce
    (fun _ => hlasting) fun w₁ ts _ hts => ?_
  refine (Host.succeeds_send _).mono fun p w₂ hs₂ _ w₃ hs₃ => ?_
  exact (Border.isAdditive_unpack p).ends.mono fun r w₄ hs₄ =>
    hlasting _ w₄ (hs₂.trans (hs₃.trans hs₄.1)) (World.hasAssigned_bound hbs honce hts)

/-! ### A session -/

/-- What follows on the look-up of a name is due where the name has been looked up. -/
theorem Proc.IsDue.lookup {kind : SymbolKind} {f : Handle → Proc α} {g : Handle}
    (h : (Border.lookup name kind true >>= f).IsDue w)
    (hg : ((Border.lookup name kind true).run w).1.toOption = some g) :
    (f g).IsDue ((Border.lookup name kind true).run w).2 := by
  obtain ⟨r, w₁, hcomes, -⟩ := (Border.isAdditive_lookup name kind true).ends h.bind_left
  cases hrun : (Border.lookup name kind true).run w with
  | mk r' w₂ =>
    rw [hrun] at hg
    cases r' with
    | error e => cases hg
    | ok g' =>
      obtain rfl := Option.some.inj hg
      obtain ⟨rfl, rfl⟩ := hcomes.run_eq hrun
      exact h.bind_right hcomes

namespace Transcript

/-- What a session assigns: a list of a keyword and a vector, a keyword and truth. -/
def assigningOperands : List Operand :=
  [.symbol "x", .object [("k", .list [.text "v"])], .symbol "y", .keyword "up", .symbol "z",
    .bool true]

/-- The world after names have been looked up. -/
def lookingUp (names : List (String × SymbolKind)) : World :=
  names.foldl (fun w n => ((Border.lookup n.1 n.2 true).run w).2) (.initial .standard)

/-- The world in which the variables are about to be set. -/
def assigningWorld : World :=
  lookingUp [("x", .symbol), ("y", .symbol), ("up", .keyword), ("z", .symbol)]

/-- The handles of the variables and the values. -/
def assigned : List (Handle × Value) :=
  [(⟨1, ⟨1⟩⟩, .object [("k", .list [.text "v"])]), (⟨2, ⟨2⟩⟩, .handle ⟨3, ⟨3⟩⟩),
    (⟨4, ⟨4⟩⟩, .bool true)]

/-- The values of the example are assigned at a moment of a careful session. -/
theorem isDue_assigned : (Border.specialForm "setq" (Border.assignments assigned)).IsDue
    assigningWorld := by
  have hdeed : (Script.perform [] (.specialForm "setq" assigningOperands)).IsDue
      (.initial .standard) := isDue_perform .standard (by decide) rfl
  simp only [Script.perform, assigningOperands, Script.operands, Script.operand,
    Script.operandFields, bind_assoc, pure_bind] at hdeed
  have hx := hdeed.lookup (g := ⟨1, ⟨1⟩⟩) (by rw [World.initial_eq]; decide +kernel)
  have hy := hx.lookup (g := ⟨2, ⟨2⟩⟩) (by rw [World.initial_eq]; decide +kernel)
  have hup := hy.lookup (g := ⟨3, ⟨3⟩⟩) (by rw [World.initial_eq]; decide +kernel)
  have hz := hup.lookup (g := ⟨4, ⟨4⟩⟩) (by rw [World.initial_eq]; decide +kernel)
  rw [assigningWorld, lookingUp, List.foldl_cons, List.foldl_cons, List.foldl_cons,
    List.foldl_cons, List.foldl_nil]
  exact hz.bind_left

/-- Variables are set to a list that is made of an object, to a keyword and to truth. -/
theorem spliced_values_are_data_assigned :
    ∃ r w₁, Comes assigningWorld.scene (Border.specialForm "setq" (Border.assignments assigned))
      assigningWorld r w₁ ∧ ∀ b ∈ assigned, assigningWorld.HasAssigned w₁ b := by
  have hfacts : assigningWorld.OffersForms ∧ assigningWorld.host.depth + 1 < maxDepth ∧
      [1, 2, 3, 4].map (fun id => assigningWorld.host.resolve? ⟨id⟩) =
        [156, 157, 158, 159].map (fun a => some (.ref a)) ∧
      [156, 157, 158, 159].map assigningWorld.host.heap.get? =
        ["x", "y", ":up", "z"].map (fun name => some (.symbol name none none)) ∧
      assigningWorld.host.find? truthName = some 1 ∧
      assigningWorld.host.heap.get? 1 = some (.symbol truthName (some (.ref 1)) none) := by
    rw [assigningWorld, lookingUp, World.initial_eq]
    decide +kernel
  have hdue := isDue_assigned
  obtain ⟨w, hw⟩ : ∃ w, assigningWorld = w := ⟨_, rfl⟩
  rw [hw] at hfacts hdue ⊢
  obtain ⟨hoffers, hdepth, hresolve, hcells, htruth, ht⟩ := hfacts
  simp only [List.map_cons, List.map_nil, List.cons.injEq, and_true] at hresolve hcells
  obtain ⟨hx, hy, hup, hz⟩ := hresolve
  obtain ⟨hx', hy', hup', hz'⟩ := hcells
  -- an object, a keyword and truth: one value of each kind that is spliced in its own way
  have hobject : w.IsSpliceable (.object [("k", .list [.text "v"])]) :=
    ⟨nofun, .object [("k", .list [.text "v"])], rfl, by decide +kernel, by decide +kernel,
      by decide +kernel⟩
  have hkeyword : w.IsSpliceable (.handle ⟨3, ⟨3⟩⟩) := by
    refine ⟨.ref 158, hup, ?_⟩
    simp only [World.IsArgument, Heap.shape_ref hup']
    decide +kernel
  have htrue : w.IsSpliceable (.bool true) :=
    ⟨fun _ => ⟨1, none, htruth, ht⟩, .bool true, rfl, by decide +kernel, by decide +kernel,
      by decide +kernel⟩
  refine spliced_values_are_data hdue hoffers hdepth ?_ ?_
  · refine List.forall_mem_cons.mpr ⟨⟨⟨_, _, _, _, hx, hx'⟩, hobject⟩,
      List.forall_mem_cons.mpr ⟨⟨⟨_, _, _, _, hy, hy'⟩, hkeyword⟩,
        List.forall_mem_cons.mpr ⟨⟨⟨_, _, _, _, hz, hz'⟩, htrue⟩, List.forall_mem_nil _⟩⟩⟩
  · simp [World.SetsOnce, assigned, hx, hy, hz, htruth]

end Transcript

/-! ### Truth of another value -/

/-- The text that a step reports. -/
def StepReport.text? (r : StepReport) : Option String :=
  match r.result with
  | .ok (.text s) => some s
  | _ => none

/-- A session in which truth is given a value before a variable is set to truth. -/
def redefiningTruth : List Step := [
  .mk (.runSource "(setq t 5)") none false,
  .mk (.specialForm "setq" [.symbol "x", .bool true]) none false,
  .mk (.hostValue "x") none false]

/-- The host functions are in place when the variable is set, but it gets the value that truth
has, not truth. -/
theorem Transcript.truth_is_spliced_by_value :
    ((start .standard redefiningTruth).after 40).world.OffersForms ∧
      (Transcript.ofSteps .standard redefiningTruth).map StepReport.text? =
        [none, none, some "5"] := by
  rw [start_eq, ofSteps_eq]
  constructor
  · decide +kernel
  · decide +kernel

end Crossing
