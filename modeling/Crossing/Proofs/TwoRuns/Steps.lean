import Crossing.Proofs.TwoRuns.Forms
import Crossing.Transcript

/-!
# Steps in two runs

Script code does the same in two runs: operands stand for the same values, steps
come to the same and are reported the same, but for the numbers of objects. A
step that takes in an object by its bare number has to be given one that the
host keeps.

- `License.Admits` says which steps a license is for, `Deed.references` which
  numbers a step takes in;
- `perform_alike`: a step comes to the same;
- `Task.body_alike`: so does every task;
- `session_alike`: so does a whole session.
-/

namespace Crossing

variable {L : License} {P : Pairing L} {args args' : List Value} {v v' : Value}

/-! ### Licensed steps -/

/-- The numbers under which a deed takes in objects. -/
def Deed.references : Deed → List ObjectId
  | .unpack p => p.reference?.toList
  | .invoke _ ps => ps.filterMap Parcel.reference?
  | _ => []

/-- What a step does. -/
def Step.deed : Step → Deed
  | .mk d _ _ => d

/-- Whether a deed works with bare numbers of objects: takes them in, gives them
out or asks about them. -/
def Deed.isRaw : Deed → Bool
  | .unpack p => p.reference?.isSome
  | .invoke _ ps => ps.any fun p => p.reference?.isSome
  | .hostRetains _ | .hostBatches | .hostRelease _ | .hostForm _ | .hostIntern _
  | .hostMaterialize _ | .hostMarker _ | .hostInvoke _ _ => true
  | _ => false

/-- Whether a deed has the host release objects, whatever refers to them. -/
def Deed.isRelease : Deed → Bool
  | .hostRelease _ => true
  | _ => false

/-- Whether a license is for a deed. -/
def License.Admits (L : License) (d : Deed) : Prop :=
  match L with
  | .free => True
  | .careful => d.isRelease = false
  | .blind => d.isRaw = false

instance (L : License) (d : Deed) : Decidable (L.Admits d) :=
  match L with
  | .free => .isTrue trivial
  | .careful => inferInstanceAs (Decidable (d.isRelease = false))
  | .blind => inferInstanceAs (Decidable (d.isRaw = false))

/-- Deeds with bare numbers are admitted only where numbers are the same in both runs. -/
theorem License.Admits.isExact {d : Deed} (h : L.Admits d) (hd : d.isRaw = true) :
    L.IsExact := by
  rintro rfl
  exact Bool.false_ne_true (Eq.trans (Eq.symm h) hd)

/-- Only what is free to do anything may release numbers of the host. -/
theorem License.Admits.eq_free {ids : List ObjectId} (h : L.Admits (.hostRelease ids)) :
    L = .free := by
  cases L with
  | free => rfl
  | careful => exact absurd h Bool.noConfusion
  | blind => exact absurd h Bool.noConfusion

namespace Script

open Proc

/-! ### Operands -/

theorem makeFunction_alike (f : FunctionForm) :
    (makeFunction f).Alike P (makeFunction f) fun _ => Eq := by
  refine (Alike.change (.shared rfl)).bind ?_
  rintro _ n _ - ⟨-, rfl⟩
  exact .pure rfl

/-- Arguments are alike place by place, and `null` beyond their end. -/
theorem getD_alike {R : Handle → Handle → Prop} (place : Nat)
    (h : List.Forall₂ (Value.Alike R) args args') :
    (args.getD place .null).Alike R (args'.getD place .null) := by
  induction h generalizing place with
  | nil => exact rfl
  | cons hv _ ih =>
    cases place with
    | zero => exact hv
    | succ place => exact ih place

mutual

/-- An operand stands for the same value. -/
theorem operand_alike {P : Pairing L} (hargs : List.Forall₂ (Value.Alike P.Held) args args') :
    ∀ o : Operand, (operand args o).Alike P (operand args' o) fun P' => Value.Alike P'.Held
  | .null => by rw [operand, operand]; exact .pure rfl
  | .bool b => by rw [operand, operand]; exact .pure rfl
  | .int i => by rw [operand, operand]; exact .pure rfl
  | .float x => by rw [operand, operand]; exact .pure rfl
  | .text s => by rw [operand, operand]; exact .pure rfl
  | .list items => by
    rw [operand, operand]
    exact (operands_alike hargs items).bind fun _ _ _ _ hvs => .pure (Value.alike_list hvs)
  | .object fields => by
    rw [operand, operand]
    exact (operandFields_alike hargs fields).bind fun _ _ _ _ hfs => .pure (Value.alike_object hfs)
  | .variable name => by
    rw [operand, operand]
    refine (Alike.change (.recallVariable name)).bind fun P₁ r r' _ ⟨_, hr⟩ => ?_
    cases hr with
    | some hv => exact .pure hv
    | none => exact .pure rfl
  | .argument place => by rw [operand, operand]; exact .pure (getD_alike place hargs)
  | .arguments => by rw [operand, operand]; exact .pure (Value.alike_list hargs)
  | .native name => by rw [operand, operand]; exact .pure rfl
  | .symbol name => by
    rw [operand, operand]
    exact (Border.symbol_alike name).bind fun _ _ _ _ hh => .pure (Value.alike_handle hh)
  | .keyword name => by
    rw [operand, operand]
    exact (Border.keyword_alike name).bind fun _ _ _ _ hh => .pure (Value.alike_handle hh)
  | .function f => by
    rw [operand, operand]
    refine (makeFunction_alike f).bind ?_
    rintro _ c _ - rfl
    exact .pure (Value.alike_of_handles_eq_nil rfl)

/-- Operands that read arguments or variables give values that are alike. The recursion is
that of operands in operands. -/
theorem operands_alike {P : Pairing L} (hargs : List.Forall₂ (Value.Alike P.Held) args args') :
    ∀ os : List Operand, (operands args os).Alike P (operands args' os) fun P' =>
      List.Forall₂ (Value.Alike P'.Held)
  | [] => by rw [operands, operands]; exact .pure .nil
  | o :: os => by
    rw [operands, operands]
    refine (operand_alike hargs o).bind fun P₁ v v' hP₁ hv => ?_
    refine (operands_alike (Pairing.forall₂_of_suffix hP₁ hargs) os).bind
      fun P₂ vs vs' hP₂ hvs => .pure ?_
    exact .cons (Pairing.alike_of_suffix hP₂ hv) hvs

/-- The values of the fields of an operand are alike, under the same names. -/
theorem operandFields_alike {P : Pairing L}
    (hargs : List.Forall₂ (Value.Alike P.Held) args args') :
    ∀ fields : List (String × Operand),
      (operandFields args fields).Alike P (operandFields args' fields) fun P' =>
        List.Forall₂ (FieldAlike P'.Held)
  | [] => by rw [operandFields, operandFields]; exact .pure .nil
  | (k, o) :: fields => by
    rw [operandFields, operandFields]
    refine (operand_alike hargs o).bind fun P₁ v v' hP₁ hv => ?_
    refine (operandFields_alike (Pairing.forall₂_of_suffix hP₁ hargs) fields).bind
      fun P₂ fs fs' hP₂ hfs => .pure ?_
    exact .cons ⟨rfl, Pairing.alike_of_suffix hP₂ hv⟩ hfs

end

/-- Pairs of operands give pairs of values that are alike. -/
theorem operandPairs_alike (hargs : List.Forall₂ (Value.Alike P.Held) args args')
    (pairs : List (Operand × Operand)) :
    (operandPairs args pairs).Alike P (operandPairs args' pairs) fun P' =>
      List.Forall₂ (Border.PairAlike P'.Held) := by
  induction pairs generalizing P with
  | nil => exact .pure .nil
  | cons pair pairs ih =>
    obtain ⟨a, b⟩ := pair
    refine (operand_alike hargs a).bind fun P₁ u u' hP₁ hu => ?_
    refine (operand_alike (Pairing.forall₂_of_suffix hP₁ hargs) b).bind fun P₂ w w' hP₂ hw => ?_
    refine (ih (Pairing.forall₂_of_suffix (hP₁.trans hP₂) hargs)).bind
      fun P₃ us us' hP₃ hus => .pure ?_
    exact .cons ⟨Pairing.alike_of_suffix (hP₂.trans hP₃) hu, Pairing.alike_of_suffix hP₃ hw⟩ hus

/-! ### Deeds -/

/-- A value is given in step. -/
theorem giving_alike {part part' : Proc Value}
    (h : part.Alike P part' fun P' => Value.Alike P'.Held) :
    (giving part).Alike P (giving part') fun P' => Outcome.Alike L P'.Held :=
  h.bind fun _ _ _ _ hv => .pure (.value hv)

/-- A handle is given in step. -/
theorem givingHandle_alike {part part' : Proc Handle} (h : part.Alike P part' fun P' => P'.Held) :
    (givingHandle part).Alike P (givingHandle part') fun P' => Outcome.Alike L P'.Held :=
  h.bind fun _ _ _ _ hh => .pure (.value (Value.alike_handle hh))

/-- An answer is reported in step. -/
theorem reporting_alike {part part' : Proc Answer}
    (h : part.Alike P part' fun _ => Answer.Alike L) :
    (reporting part).Alike P (reporting part') fun P' => Outcome.Alike L P'.Held :=
  h.bind fun _ _ _ _ ha => .pure (.answer ha)

/-- What both runs share is reported in step without a look at what it does. -/
theorem reporting_alike_shared {part : Proc Answer} (h : part.Keeps .shared) :
    (reporting part).Alike P (reporting part) fun P' => Outcome.Alike L P'.Held := by
  refine reporting_alike (h.alike.weaken ?_)
  rintro _ a _ - rfl
  exact Answer.alike_self L a

/-- A change that both runs share is reported in step. -/
theorem reportingChange_alike {α : Type} {c : Change α} (hc : c.isShared = true)
    (report : α → Answer) :
    (reportingChange c report).Alike P (reportingChange c report) fun P' =>
      Outcome.Alike L P'.Held := by
  refine (Alike.change (.shared hc)).bind ?_
  rintro _ a _ - ⟨-, rfl⟩
  exact .pure (.answer (Answer.alike_self L _))

/-- A parcel is reported in step, up to numbers. -/
theorem reportingParcel_alike {part part' : Proc Parcel}
    (h : part.Alike P part' fun P' => Parcel.Alike P'.known.rel) :
    (reporting (Answer.parcel <$> part)).Alike P (reporting (Answer.parcel <$> part'))
      fun P' => Outcome.Alike L P'.Held :=
  reporting_alike (h.map fun P' _ _ _ hp => ⟨P'.known, .parcel hp⟩)

/-- What asks for a handle fails in step for other values. -/
theorem withHandle_alike {α : Type} {next next' : Handle → Proc α}
    {Q : Pairing L → α → α → Prop} (hv : v.Alike P.Held v')
    (h : ∀ h h', P.Held h h' → (next h).Alike P (next' h') Q) :
    (withHandle v next).Alike P (withHandle v' next') Q := by
  cases v with
  | handle a =>
    obtain ⟨a', rfl, ha⟩ := hv
    exact h a a' ha
  | list vs =>
    obtain ⟨vs', rfl, -⟩ := hv
    exact .fail _
  | object fs =>
    obtain ⟨fs', rfl, -⟩ := hv
    exact .fail _
  | _ =>
    obtain rfl := hv
    exact .fail _

/-- The arity of a function is part of it. -/
theorem inspectArity_eq {R : Handle → Handle → Prop} (hv : v.Alike R v') (counts : List Nat) :
    inspectArity v' counts = inspectArity v counts := by
  cases v with
  | handle a =>
    obtain ⟨a', rfl, -⟩ := hv
    rfl
  | list vs =>
    obtain ⟨vs', rfl, -⟩ := hv
    rfl
  | object fs =>
    obtain ⟨fs', rfl, -⟩ := hv
    rfl
  | _ =>
    obtain rfl := hv
    rfl

theorem forget_alike (names : List String) :
    (forget names).Alike P (forget names) fun _ _ _ => True := by
  induction names generalizing P with
  | nil => exact .pure trivial
  | cons name names ih => exact (Alike.change (.forget name)).bind fun _ _ _ _ _ => ih

/-- Steps are tried in step. -/
theorem attempt_alike (steps : List Step)
    (hargs : List.Forall₂ (Value.Alike P.Held) args args') :
    (attempt steps args).Alike P (attempt steps args') fun P' => Value.Alike P'.Held := by
  refine (Alike.outcome (Border.play_alike steps hargs)).bind fun P₁ r r' _ hr => ?_
  obtain ⟨v, v', rfl, rfl, hv⟩ | ⟨e, rfl, rfl⟩ := hr
  · exact .pure hv
  · exact .pure rfl

theorem advance_alike (ms : Nat) : (advance ms).Alike P (advance ms) fun _ _ _ => True := by
  refine (Alike.change (.shared rfl)).bind ?_
  rintro _ due _ - ⟨-, rfl⟩
  split
  · exact .sweep fun _ _ _ => .pure trivial
  · exact .pure trivial

/-- To start the sweeper is shared by both runs. -/
theorem keeps_startSweeper : startSweeper.Keeps .shared := by
  refine (keeps_query fun _ => rfl).bind fun config => ?_
  split
  · exact (keeps_change fun _ => rfl).bind fun _ => trivial
  · trivial

/-- What the host keeps on request it keeps under the same number, the two runs
being one. -/
theorem keep_alike (hL : L.IsExact) {part : Proc Obj} (h : part.Keeps .shared) :
    (keep part).Alike P (keep part) fun _ => Answer.Alike L := by
  refine h.alike.bind ?_
  rintro _ o _ - rfl
  refine (Alike.change (.retain o)).bind fun P₁ i i' _ ⟨_, hi, _⟩ => .pure ?_
  rw [P₁.known.eq_of_exact hL hi]
  exact Answer.alike_self L _

theorem hostForm_alike (hL : L.IsExact) (i : ObjectId) :
    (hostForm i).Alike P (hostForm i) fun _ => Eq := by
  refine (Host.resolve_alike_exact hL i).bind ?_
  rintro _ o _ - rfl
  refine (Host.structuralForm_alike o).bind ?_
  rintro _ j _ - rfl
  exact .pure rfl

theorem unpackReference_alike {p : Parcel}
    (hk : ∀ i ∈ p.reference?.toList, P.known.rel i i) : p.Alike P.known.rel p := by
  cases p with
  | data text => exact .data text
  | reference i => exact .reference (hk i (List.mem_singleton_self i))
  | wrapped key => exact .wrapped key

/-- Parcels with bare numbers are like themselves if the numbers are known in step with
themselves. -/
theorem invokeReferences_alike {ps : List Parcel}
    (hk : ∀ i ∈ ps.filterMap Parcel.reference?, P.known.rel i i) :
    List.Forall₂ (Parcel.Alike P.known.rel) ps ps := by
  refine List.forall₂_same.mpr fun p hp => unpackReference_alike fun i hi => ?_
  exact hk i (List.mem_filterMap.mpr ⟨p, hp, Option.mem_toList.mp hi⟩)

/-- A deed that the license is for comes to the same, if the numbers under which
it takes in objects are known. -/
theorem perform_alike {d : Deed} (hL : L.Admits d) (hk : ∀ i ∈ d.references, P.known.rel i i)
    (hargs : List.Forall₂ (Value.Alike P.Held) args args') :
    (perform args d).Alike P (perform args' d) fun P' => Outcome.Alike L P'.Held := by
  cases d with
  | value o => exact giving_alike (operand_alike hargs o)
  | drop names =>
    exact (forget_alike names).bind fun _ _ _ _ _ => .pure (.answer (Answer.alike_self L _))
  | same a b =>
    refine (operand_alike hargs a).bind fun P₁ u u' hP₁ hu => ?_
    refine (operand_alike (Pairing.forall₂_of_suffix hP₁ hargs) b).bind fun P₂ w w' hP₂ hw => ?_
    rw [← Value.Alike.same_eq Pairing.held_inj (Pairing.alike_of_suffix hP₂ hu) hw]
    exact .pure (.answer (Answer.alike_self L _))
  | inspect o =>
    refine (operand_alike hargs o).bind fun _ _ _ _ hv => ?_
    rw [← hv.inspect_eq]
    exact .pure (.answer (Answer.alike_self L _))
  | arity o counts =>
    refine (operand_alike hargs o).bind fun _ _ _ _ hv => ?_
    rw [← inspectArity_eq hv]
    exact .pure (.answer (Answer.alike_self L _))
  | raise message => exact .fail _
  | attempt steps => exact giving_alike (attempt_alike steps hargs)
  | call name os =>
    exact (operands_alike hargs os).bind fun _ _ _ _ hvs => giving_alike (Border.call_alike name hvs)
  | funcall f os =>
    refine (operand_alike hargs f).bind fun P₁ v v' hP₁ hv => ?_
    refine (operands_alike (Pairing.forall₂_of_suffix hP₁ hargs) os).bind
      fun P₂ vs vs' hP₂ hvs => ?_
    exact giving_alike (withHandle_alike (Pairing.alike_of_suffix hP₂ hv)
      fun _ _ hh => Border.funcall_alike hh hvs)
  | lookup name kind cached => exact givingHandle_alike (Border.lookup_alike name kind cached)
  | materialize text =>
    refine (Alike.ofExcept _).bind ?_
    rintro _ j _ - ⟨rfl, rfl⟩
    exact givingHandle_alike ((Border.materialize_alike j).weaken fun _ _ _ _ h => h.1)
  | form o =>
    refine (operand_alike hargs o).bind fun P₁ v v' hP₁ hv => ?_
    refine (withHandle_alike hv fun _ _ hh => Border.structuralForm_alike hh).bind ?_
    rintro _ j _ - rfl
    exact .pure (.answer (Answer.alike_self L _))
  | wrap o =>
    exact (operand_alike hargs o).bind fun _ _ _ _ hv => givingHandle_alike (Border.wrap_alike hv)
  | unwrap key => exact giving_alike ((Border.unwrap_alike key).weaken fun _ _ _ _ h => h.2)
  | pack o =>
    refine (operand_alike hargs o).bind fun P₁ v v' _ hv => ?_
    refine (Border.pack_alike hv).bind fun P₂ r r' _ ⟨hp, hlen⟩ => ?_
    obtain ⟨p, kept⟩ := r
    obtain ⟨p', kept'⟩ := r'
    dsimp only at hp hlen ⊢
    rw [← hlen]
    exact .pure (.answer ⟨P₂.known, .packed _ (hp.mono fun _ _ => Pairing.HeldId.known)⟩)
  | unpack p =>
    exact giving_alike ((Border.unpack_alike (unpackReference_alike hk)).weaken
      fun _ _ _ _ h => h.2)
  | config =>
    refine (Alike.query (.shared rfl)).bind ?_
    rintro _ config _ - ⟨-, rfl⟩
    exact .pure (.answer (Answer.alike_self L _))
  | invoke key ps => exact reportingParcel_alike (Border.invoke_alike key (invokeReferences_alike hk))
  | clearCallback key => exact reportingChange_alike rfl _
  | clearProxy key =>
    exact (Alike.change (.clearProxy key)).bind fun _ _ _ _ _ =>
      .pure (.answer (Answer.alike_self L _))
  | sweep => exact .sweep fun _ _ _ => .pure (.answer (Answer.alike_self L _))
  | evaluateSource source => exact reportingParcel_alike (Border.evaluateSource_alike source)
  | setEvaluator body => exact reportingChange_alike rfl _
  | list os =>
    exact (operands_alike hargs os).bind fun _ _ _ _ hvs => giving_alike (Border.list_alike hvs)
  | quote o =>
    exact (operand_alike hargs o).bind fun _ _ _ _ hv => giving_alike (Border.quote_alike hv)
  | evaluate o =>
    exact (operand_alike hargs o).bind fun _ _ _ _ hv => giving_alike (Border.evaluate_alike hv)
  | define name f doc command =>
    refine (makeFunction_alike f).bind ?_
    rintro _ c _ - rfl
    exact givingHandle_alike (Border.define_alike name c doc command)
  | bindVariables bindings f =>
    refine (operandFields_alike hargs bindings).bind fun P₁ fs fs' _ hfs => ?_
    refine (makeFunction_alike f).bind ?_
    rintro P₂ c _ hP₂ rfl
    exact giving_alike (Border.bindVariables_alike (Border.fields_of_suffix hP₂ hfs) c)
  | inBuffer buffer f =>
    refine (operand_alike hargs buffer).bind fun P₁ v v' _ hv => ?_
    refine (makeFunction_alike f).bind ?_
    rintro P₂ c _ hP₂ rfl
    exact giving_alike (Border.inBuffer_alike (Pairing.alike_of_suffix hP₂ hv) c)
  | inTemporaryBuffer f =>
    refine (makeFunction_alike f).bind ?_
    rintro _ c _ - rfl
    exact giving_alike (Border.inTemporaryBuffer_alike c)
  | specialForm head os =>
    exact (operands_alike hargs os).bind fun _ _ _ _ hvs =>
      giving_alike (Border.specialForm_alike head hvs)
  | vector os =>
    exact (operands_alike hargs os).bind fun _ _ _ _ hvs => giving_alike (Border.vector_alike hvs)
  | table entries =>
    exact (operandPairs_alike hargs entries).bind fun _ _ _ _ hus =>
      giving_alike (Border.table_alike hus)
  | alist entries =>
    exact (operandPairs_alike hargs entries).bind fun _ _ _ _ hus =>
      giving_alike (Border.alist_alike hus)
  | plist entries =>
    exact (operandFields_alike hargs entries).bind fun _ _ _ _ hfs =>
      giving_alike (Border.plist_alike hfs)
  | hostText text => exact givingHandle_alike ((Border.materialize_alike _).weaken fun _ _ _ _ h => h.1)
  | stats => exact (Alike.query .stats).bind fun _ _ _ _ h => .pure (.answer ⟨P.known, .stats h.2⟩)
  | runSource source =>
    refine (Host.keeps_evaluateText source).alike.bind ?_
    rintro _ o _ - rfl
    refine reporting_alike_shared (keeps_map ?_ _)
    exact keeps_heap.bind fun _ => (Host.keeps_structuralForm o).bind fun _ => trivial
  | hostValue name =>
    exact reporting_alike_shared (keeps_map
      (keeps_heap.bind fun _ => (keeps_query fun _ => rfl).bind fun _ => keeps_pure _) _)
  | hostUnintern name => exact reportingChange_alike rfl _
  | hostBuffer name =>
    exact reporting_alike_shared (keeps_map (keeps_heap.bind fun _ => keeps_pure _) _)
  | hostRetains i =>
    refine (Alike.query (.exact (hL.isExact rfl) _)).bind ?_
    rintro _ o _ - ⟨-, rfl⟩
    exact .pure (.answer (Answer.alike_self L _))
  | hostBatches =>
    refine (Alike.query (.exact (hL.isExact rfl) _)).bind ?_
    rintro _ bs _ - ⟨-, rfl⟩
    exact .pure (.answer (Answer.alike_self L _))
  | hostRelease ids =>
    exact (Alike.change (.release hL.eq_free ids)).bind fun _ _ _ _ _ =>
      .pure (.answer (Answer.alike_self L _))
  | hostForm i =>
    refine reporting_alike ((hostForm_alike (hL.isExact rfl) i).map ?_)
    rintro _ s _ - rfl
    exact Answer.alike_self L _
  | hostIntern name =>
    exact reporting_alike (keep_alike (hL.isExact rfl) (Host.keeps_intern name))
  | hostMaterialize text =>
    exact reporting_alike (keep_alike (hL.isExact rfl)
      ((Host.keeps_readDatum text).bind Host.keeps_ofDatum))
  | hostMarker key =>
    exact reporting_alike (keep_alike (hL.isExact rfl) (Host.keeps_marker key))
  | hostInvoke function ps =>
    have hexact := hL.isExact rfl
    refine reportingParcel_alike (Host.invoke_alike (.inr ⟨hexact, rfl⟩) ?_)
    refine List.forall₂_same.mpr fun p _ => ?_
    cases p with
    | data text => exact .data text
    | reference i => exact .reference (.inr ⟨hexact, rfl⟩)
    | wrapped key => exact .wrapped key
  | startSweeper => exact reporting_alike_shared (keeps_map keeps_startSweeper _)
  | advance ms =>
    exact (advance_alike ms).bind fun P₁ _ _ _ _ =>
      (Alike.query .stats).bind fun _ _ _ _ h => .pure (.answer ⟨P₁.known, .stats h.2⟩)

end Script

/-! ### Reports -/

namespace Border

open Proc

theorem formText_alike {h h' : Handle} (hh : P.Held h h') :
    (formText h).Alike P (formText h') fun _ => Eq := by
  refine ((formOrFailure_alike hh).held fun _ _ _ _ _ h => h).bind ?_
  rintro _ form _ - rfl
  cases form with
  | ok j => exact .pure rfl
  | error f => exact .pure rfl

mutual

/-- A value is reported the same, but for the numbers of its handles. -/
theorem describe_alike {P₁ : Pairing L} (hP : P.held <:+ P₁.held) :
    ∀ {v v' : Value}, v.Alike P.Held v' →
      (describe v).Alike P₁ (describe v') fun _ => Described.Alike P.known.rel
  | .null, _, rfl => by rw [describe]; exact .pure rfl
  | .bool _, _, rfl => by rw [describe]; exact .pure rfl
  | .int _, _, rfl => by rw [describe]; exact .pure rfl
  | .float _, _, rfl => by rw [describe]; exact .pure rfl
  | .text _, _, rfl => by rw [describe]; exact .pure rfl
  | .function _, _, rfl => by rw [describe]; exact .pure rfl
  | .native _, _, rfl => by rw [describe]; exact .pure rfl
  | .list _, _, ⟨_, rfl, hvs⟩ => by
    rw [describe, describe]
    exact (describeAll_alike hP hvs).bind fun _ ds ds' _ hds => .pure ⟨ds', rfl, hds⟩
  | .object _, _, ⟨_, rfl, hfs⟩ => by
    rw [describe, describe]
    exact (describeFields_alike hP hfs).bind fun _ ds ds' _ hds => .pure ⟨ds', rfl, hds⟩
  | .handle h, _, ⟨h', rfl, hh⟩ => by
    rw [describe, describe]
    refine (formText_alike (Pairing.held_of_suffix hP hh)).bind ?_
    rintro _ form _ - rfl
    exact .pure ⟨h'.id, rfl, Pairing.known_held hh⟩

/-- Values are described in step, one after the other. -/
theorem describeAll_alike {P₁ : Pairing L} (hP : P.held <:+ P₁.held) :
    ∀ {vs vs' : List Value}, Value.AlikeIn P.Held vs vs' →
      (describeAll vs).Alike P₁ (describeAll vs') fun _ => Described.AlikeIn P.known.rel
  | [], _, rfl => by rw [describeAll]; exact .pure rfl
  | _ :: _, _, ⟨_, _, rfl, hv, hvs⟩ => by
    rw [describeAll, describeAll]
    refine (describe_alike hP hv).bind fun P₂ d d' hP₂ hd => ?_
    exact (describeAll_alike (hP.trans hP₂) hvs).bind fun _ ds ds' _ hds =>
      .pure ⟨d', ds', rfl, hd, hds⟩

/-- Fields are described in step, one after the other. -/
theorem describeFields_alike {P₁ : Pairing L} (hP : P.held <:+ P₁.held) :
    ∀ {fs fs' : List (String × Value)}, Value.AlikeOf P.Held fs fs' →
      (describeFields fs).Alike P₁ (describeFields fs') fun _ => Described.AlikeOf P.known.rel
  | [], _, rfl => by rw [describeFields]; exact .pure rfl
  | (_, _) :: _, _, ⟨_, _, rfl, hv, hfs⟩ => by
    rw [describeFields, describeFields]
    refine (describe_alike hP hv).bind fun P₂ d d' hP₂ hd => ?_
    exact (describeFields_alike (hP.trans hP₂) hfs).bind fun _ ds ds' _ hds =>
      .pure ⟨d', ds', rfl, hd, hds⟩

end

end Border

namespace Script

open Proc

theorem describe_alike {r r' : Outcome} (hr : r.Alike L P.Held r') :
    (describe r).Alike P (describe r') fun _ => Answer.Alike L := by
  cases hr with
  | value hv =>
    exact (Border.describe_alike List.suffix_rfl hv).map fun _ _ _ _ hd => ⟨P.known, .value hd⟩
  | answer ha => exact .pure ha

theorem log_alike {r r' : Outcome} (hr : r.Alike L P.Held r') :
    (log r).Alike P (log r') fun _ _ _ => True :=
  (describe_alike hr).bind fun _ _ _ _ ha =>
    (Alike.change (.log ha)).weaken fun _ _ _ _ _ => trivial

/-- The outcome of a step is stored in step. -/
theorem store_alike {r r' : Outcome} (hr : r.Alike L P.Held r') (name : String) :
    (store name r).Alike P (store name r') fun _ _ _ => True := by
  cases hr with
  | value hv => exact (Alike.change (.assign name hv)).weaken fun _ _ _ _ _ => trivial
  | answer ha => exact .pure trivial

theorem outcome_of_suffix {P' : Pairing L} (hP : P.held <:+ P'.held) {r r' : Outcome}
    (hr : r.Alike L P.Held r') : r.Alike L P'.Held r' := by
  cases hr with
  | value hv => exact .value (Pairing.alike_of_suffix hP hv)
  | answer ha => exact .answer ha

/-! ### Steps and functions -/

/-- A step that the license is for comes to the same. -/
theorem playStep_alike {s : Step} (hL : L.Admits s.deed)
    (hk : ∀ i ∈ s.deed.references, P.known.rel i i)
    (hargs : List.Forall₂ (Value.Alike P.Held) args args') :
    (playStep args s).Alike P (playStep args' s) fun P' => Outcome.Alike L P'.Held := by
  obtain ⟨d, target, logged⟩ := s
  refine (Alike.keeping_outcome (perform_alike hL hk hargs)).bind fun P₁ r r' _ hr => ?_
  -- what is stored and logged is the outcome, up to numbers
  have hstore : ∀ {P₂ : Pairing L} (name : String), r.Alike L P₂.Held r' →
      (store name r >>= fun _ => pure r : Proc Outcome).Alike P₂
        (store name r' >>= fun _ => pure r') fun P' => Outcome.Alike L P'.Held :=
    fun name hr => (store_alike hr name).bind fun _ _ _ hP _ => .pure (outcome_of_suffix hP hr)
  have hlog : (log r).Alike P₁ (log r') fun _ _ _ => True :=
    (log_alike hr).weaken fun _ _ _ _ _ => trivial
  -- the outcome may be stored under a name, and logged
  cases target with
  | some name =>
    cases logged with
    | true => exact hlog.bind fun P₂ _ _ hP _ => hstore name (outcome_of_suffix hP hr)
    | false => exact hstore name hr
  | none =>
    cases logged with
    | true => exact hlog.bind fun P₂ _ _ hP _ => .pure (outcome_of_suffix hP hr)
    | false => exact .pure hr

/-- Functions come to the same. -/
theorem play_alike (steps : List Step) (hargs : List.Forall₂ (Value.Alike P.Held) args args') :
    (play args steps).Alike P (play args' steps) fun P' => Value.Alike P'.Held := by
  induction steps generalizing P with
  | nil => exact .pure rfl
  | cons s steps ih =>
    have hs := Alike.perform (.step s hargs)
    cases steps with
    | nil => exact hs.bind fun _ _ _ _ hr => .pure (Outcome.Alike.toValue hr)
    | cons t steps =>
      have hheld : (Proc.holding (Proc.perform (.step s args))).Alike P
          (Proc.holding (Proc.perform (.step s args'))) fun _ _ _ => True :=
        hs.held fun _ _ _ _ _ _ => trivial
      exact hheld.bind fun _ _ _ hP _ => ih (Pairing.forall₂_of_suffix hP hargs)

end Script

/-! ### Tasks and sessions -/

/-- Whether a license is for starting a task, if the host keeps the objects that
are known. -/
def Task.Licensed {α : Type} (P : Pairing L) : Task α → Prop
  | .step s _ => L.Admits s.deed ∧ ∀ i ∈ s.deed.references, P.known.rel i i
  | _ => True

/-- A task comes to the same. -/
theorem Task.body_alike {α : Type} {t t' : Task α} (ht : t.Alike P.Held t')
    (hl : t.Licensed P) : t.body.Alike P t'.body fun P' => t.Gives L P'.Held := by
  cases ht with
  | evaluate form => exact (Host.keeps_evaluation rfl form).alike
  | apply function args => exact Host.application_alike function args
  | close c => exact Border.closure_alike c
  | play steps hargs => exact Script.play_alike steps hargs
  | step s hargs => exact Script.playStep_alike hl.1 hl.2 hargs

namespace Transcript

open Proc

/-- Reports of a step and what it logged, with answers related by `A`. -/
def ReportAlike (A : Answer → Answer → Prop) (r r' : Except Failure Answer × List Answer) :
    Prop :=
  ResultAlike A r.1 r'.1 ∧ List.Forall₂ A r.2 r'.2

theorem topStep_alike (s : Step) :
    (topStep s).Alike P (topStep s) fun _ => ReportAlike (Answer.Alike L) := by
  have hpart : (do let r ← perform (.step s []); Script.describe r : Proc Answer).Alike P
      (do let r ← perform (.step s []); Script.describe r) fun _ => Answer.Alike L :=
    (Alike.perform (.step s .nil)).bind fun _ _ _ _ hr => Script.describe_alike hr
  have hheld := hpart.held (P := P) fun _ _ _ _ _ h => h
  refine hheld.outcome.bind fun P₁ r r' _ hr => ?_
  exact (Alike.change .takeLog).bind fun _ _ _ _ h => .pure ⟨hr, h.2⟩

/-- A session comes to the same. -/
theorem session_alike (steps : List Step) :
    (steps.mapM topStep).Alike P (steps.mapM topStep) fun _ =>
      List.Forall₂ (ReportAlike (Answer.Alike L)) :=
  .mapM_held (E := fun _ => Eq) (Q := fun _ => ReportAlike (Answer.Alike L)) (fun _ _ _ _ _ h => h)
    (fun _ _ _ _ _ h => h) (by rintro P s _ rfl; exact topStep_alike s)
    (List.forall₂_same.mpr fun _ _ => rfl)

end Transcript

end Crossing
