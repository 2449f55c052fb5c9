import Crossing.Evaluation.Text
import Crossing.Objects.Equality
import Crossing.Proofs.Building
import Crossing.Proofs.FormTexts
import Crossing.Proofs.TwoRuns.Simulation
import Mathlib.Data.List.Forall2
import Mathlib.Data.Nat.Find
import Mathlib.Tactic.Push

/-!
# Printed objects

The printed text of an object is source text, and what the reader makes of it is `equal` to
the object. This holds of what is made of `nil`, numbers, strings, names and pairs and vectors
of such objects, down to any depth.

- `Levels`: an object and its parts, down so many levels, `Levels.of_parts`: one more than there
  are cells are enough for all that have an end;
- `Heap.Within`: an object has at most so many levels below it, `Heap.within_size`;
- `Interpreter.Legible`: the objects in question;
- `Interpreter.Means`: an object is what a form says;
- `Interpreter.printWithin_of_means`: it is printed as the text of the form;
- `Host.builds_ofForm`: the host makes an object of the form that is what the form says too;
- `Host.reading_undoes_printing`: and so reading undoes printing.
-/

namespace Crossing

variable {i k : Interpreter} {h : Heap} {a : Addr} {m n : Nat} {o o' p p' head tail : Obj}
  {os os' items : List Obj}

/-! ### Levels -/

/-- From an object down its parts there are at most `n` levels, and what is on them is as `ok`
says. -/
def Levels (ok : Obj → Prop) (parts : Obj → List Obj) : (n : Nat) → Obj → Prop
  | 0, _ => False
  | n + 1, o => ok o ∧ ∀ p ∈ parts o, Levels ok parts n p

namespace Levels

variable {ok : Obj → Prop} {parts : Obj → List Obj} {size : Nat}

theorem succ (ho : Levels ok parts n o) : Levels ok parts (n + 1) o := by
  induction n generalizing o with
  | zero => exact ho.elim
  | succ n ih => exact ⟨ho.1, fun p hp => ih (ho.2 p hp)⟩

theorem mono (ho : Levels ok parts m o) (hmn : m ≤ n) : Levels ok parts n o := by
  induction hmn with
  | refl => exact ho
  | step _ ih => exact ih.succ

/-- Some part of an object that has more than `n + 1` levels has more than `n`. -/
theorem exists_deepest (ho : Levels ok parts (n + 2) o) (hleast : ¬Levels ok parts (n + 1) o) :
    ∃ p ∈ parts o, Levels ok parts (n + 1) p ∧ ¬Levels ok parts n p := by
  by_contra hnone
  push Not at hnone
  exact hleast ⟨ho.1, fun p hp => hnone p hp (ho.2 p hp)⟩

/-- Down an object that has `n + 1` levels and no fewer there are `n` different cells: they have
different numbers of levels. -/
theorem exists_path (hparts : ∀ {o p}, p ∈ parts o → ∃ a, o = .ref a ∧ a < size)
    (ho : Levels ok parts (n + 1) o) (hleast : ¬Levels ok parts n o) :
    ∃ path : List Addr, path.length = n ∧ path.Nodup ∧ ∀ a ∈ path, a < size ∧
      Levels ok parts (n + 1) (.ref a) := by
  induction n generalizing o with
  | zero => exact ⟨[], rfl, .nil, nofun⟩
  | succ n ih =>
    obtain ⟨p, hp, hlevels, hdeep⟩ := exists_deepest ho hleast
    obtain ⟨path, hlength, hnodup, hcells⟩ := ih hlevels hdeep
    obtain ⟨a, rfl, ha⟩ := hparts hp
    have hnew : a ∉ path := fun hmem => hleast (hcells a hmem).2
    refine ⟨a :: path, by rw [List.length_cons, hlength], List.nodup_cons.mpr ⟨hnew, hnodup⟩,
      fun b hb => ?_⟩
    rcases List.mem_cons.mp hb with rfl | hb
    · exact ⟨ha, ho⟩
    · exact ⟨(hcells b hb).1, (hcells b hb).2.succ⟩

/-- Where only cells have parts, an object whose levels have an end has at most one of them more
than there are cells. -/
theorem of_parts (hparts : ∀ {o p}, p ∈ parts o → ∃ a, o = .ref a ∧ a < size)
    (ho : Levels ok parts n o) : Levels ok parts (size + 1) o := by
  classical
  have hex : ∃ n, Levels ok parts n o := ⟨n, ho⟩
  cases hfind : Nat.find hex with
  | zero => exact ((hfind ▸ Nat.find_spec hex : Levels ok parts 0 o)).elim
  | succ k =>
    have hk : Levels ok parts (k + 1) o := hfind ▸ Nat.find_spec hex
    obtain ⟨path, hlength, hnodup, hcells⟩ := exists_path hparts hk
      (Nat.find_min hex (hfind ▸ Nat.lt_succ_self k))
    have hle : path.length ≤ (List.range size).length :=
      hnodup.length_le_of_subset fun a ha => List.mem_range.mpr (hcells a ha).1
    rw [List.length_range, hlength] at hle
    exact hk.mono (Nat.succ_le_succ hle)

end Levels

namespace Heap

/-- What an object is made of: the halves of a pair, the items of a vector. -/
def parts (h : Heap) (o : Obj) : List Obj :=
  match h.shape o with
  | .cell (.cons head tail) => [head, tail]
  | .cell (.vector items) => items
  | _ => []

/-- The parts of a pair are its head and its tail. -/
theorem mem_parts_pair (ha : h.get? a = some (.cons head tail)) :
    p ∈ h.parts (.ref a) ↔ p = head ∨ p = tail := by
  simp only [parts, shape_ref ha, List.mem_cons, List.not_mem_nil, or_false]

/-- The parts of a vector are its items. -/
theorem parts_vector (ha : h.get? a = some (.vector items)) : h.parts (.ref a) = items := by
  simp only [parts, shape_ref ha]

/-- Only what is in the heap has parts. -/
theorem exists_ref_of_mem_parts (hp : p ∈ h.parts o) : ∃ a, o = .ref a ∧ a < h.size := by
  rw [parts] at hp
  split at hp
  · rename_i hshape
    obtain ⟨a, rfl, ha⟩ := exists_ref_of_shape hshape
    exact ⟨a, rfl, lt_size_of_get? ha⟩
  · rename_i hshape
    obtain ⟨a, rfl, ha⟩ := exists_ref_of_shape hshape
    exact ⟨a, rfl, lt_size_of_get? ha⟩
  · cases hp

/-- An object has at most `n` levels of parts. -/
def Within (h : Heap) : (n : Nat) → Obj → Prop
  | 0, o => h.parts o = []
  | n + 1, o => ∀ p ∈ h.parts o, h.Within n p

theorem Within.succ (ho : h.Within n o) : h.Within (n + 1) o := by
  induction n generalizing o with
  | zero =>
    intro p hp
    rw [show h.parts o = [] from ho] at hp
    cases hp
  | succ n ih => exact fun p hp => ih (ho p hp)

theorem Within.mono (ho : h.Within m o) (hmn : m ≤ n) : h.Within n o := by
  induction hmn with
  | refl => exact ho
  | step _ ih => exact ih.succ

/-- Several objects that each have some number of levels have a common one. -/
theorem exists_within_all (h' : ∀ o ∈ os, ∃ n, h.Within n o) : ∃ n, ∀ o ∈ os, h.Within n o := by
  induction os with
  | nil => exact ⟨0, List.forall_mem_nil _⟩
  | cons o os ih =>
    obtain ⟨m, hm⟩ := h' o List.mem_cons_self
    obtain ⟨n, hn⟩ := ih fun p hp => h' p (List.mem_cons_of_mem o hp)
    refine ⟨max m n, fun p hp => ?_⟩
    rcases List.mem_cons.mp hp with rfl | hp
    · exact hm.mono (Nat.le_max_left m n)
    · exact (hn p hp).mono (Nat.le_max_right m n)

/-- What has parts has a level more than they have. -/
theorem Within.parts (ho : h.Within n o) (hp : p ∈ h.parts o) : ∃ m, n = m + 1 ∧ h.Within m p := by
  cases n with
  | zero =>
    rw [show h.parts o = [] from ho] at hp
    cases hp
  | succ n => exact ⟨n, rfl, ho p hp⟩

/-- Depth is a matter of levels, with nothing asked of the objects. -/
theorem within_iff_levels : h.Within n o ↔ Levels (fun _ => True) h.parts (n + 1) o := by
  induction n generalizing o with
  | zero => simp only [Within, Levels, true_and, List.eq_nil_iff_forall_not_mem, imp_false]
  | succ n ih =>
    rw [Within, Levels]
    simp only [true_and, ih]

/-- An object whose levels have an end has no more of them than the heap has cells. -/
theorem within_size (ho : h.Within n o) : h.Within h.size o :=
  within_iff_levels.mpr (Levels.of_parts exists_ref_of_mem_parts (within_iff_levels.mp ho))

/-! ### Chains of pairs -/

/-- The first halves along a chain of pairs, and what follows the last pair. -/
inductive Chain (h : Heap) : Obj → List Obj → Obj → Prop where
  | nil {o : Obj} : Chain h o [] o
  | cons {a : Addr} {head tail last : Obj} {items : List Obj}
    (hpair : h.get? a = some (.cons head tail)) (htail : Chain h tail items last) :
    Chain h (.ref a) (head :: items) last

theorem Chain.within (hc : h.Chain o os p) (ho : h.Within n o) :
    os.length ≤ n ∧ h.Within (n - os.length) p ∧ ∀ q ∈ os, h.Within (n - 1) q := by
  induction hc generalizing n with
  | nil => exact ⟨Nat.zero_le n, ho, List.forall_mem_nil _⟩
  | cons hpair _ ih =>
    obtain ⟨n, rfl, hhead⟩ := ho.parts ((mem_parts_pair hpair).mpr (.inl rfl))
    have htail := ho _ ((mem_parts_pair hpair).mpr (.inr rfl))
    obtain ⟨hlength, hlast, hitems⟩ := ih htail
    refine ⟨Nat.succ_le_succ hlength, ?_, fun q hq => ?_⟩
    · rwa [List.length_cons, Nat.add_sub_add_right]
    · rcases List.mem_cons.mp hq with rfl | hq
      · exact hhead
      · exact (hitems q hq).mono (Nat.sub_le n 1)

/-- The heap sees such a chain as long as no further pair follows. -/
theorem Chain.spineWithin (hc : h.Chain o os p)
    (hend : ∀ head tail, h.shape p ≠ .cell (.cons head tail)) (hn : os.length ≤ n) :
    h.spineWithin n o = (os, p) := by
  induction hc generalizing n with
  | nil =>
    cases n with
    | zero => rfl
    | succ n =>
      rw [Heap.spineWithin]
      split
      · rename_i hshape
        exact absurd hshape (hend _ _)
      · rfl
  | cons hpair _ ih =>
    obtain ⟨n, rfl⟩ : ∃ m, n = m + 1 := ⟨n - 1, by rw [List.length_cons] at hn; omega⟩
    simp only [Heap.spineWithin, shape_ref hpair, ih hend (Nat.le_of_succ_le_succ hn)]

end Heap

/-- A chain stays one while the interpreter is extended. -/
theorem Heap.Chain.of_extends (hc : i.heap.Chain o os p) (hik : i.Extends k) :
    k.heap.Chain o os p := by
  induction hc with
  | nil => exact .nil
  | cons hpair _ ih => exact .cons (hik.cell hpair) ih

/-! ### Objects and forms -/

namespace Form

/-- The form of a list of which two forms are the head and the tail. -/
def before (f : Form) : Form → Form
  | .list items => .list (f :: items)
  | .dotted items last => .dotted (f :: items) last
  | .symbol name => if name = "nil" then .list [f] else .dotted [f] (.symbol name)
  | last => .dotted [f] last

/-- A plain form in front of a plain form is a plain list. -/
theorem isPlain_before {f g : Form} (hf : f.IsPlain) (hg : g.IsPlain) : (f.before g).IsPlain := by
  cases g with
  | list items => exact ⟨List.cons_ne_nil _ _, hf, hg.2⟩
  | dotted items last => exact ⟨List.cons_ne_nil _ _, ⟨hf, hg.2.1⟩, hg.2.2⟩
  | symbol name =>
    rw [before]
    split
    · exact ⟨List.cons_ne_nil _ _, hf, trivial⟩
    · rename_i hnil
      exact ⟨List.cons_ne_nil _ _, ⟨hf, trivial⟩, bne_iff_ne.mpr hnil, hg⟩
  | int | float | text | vector => exact ⟨List.cons_ne_nil _ _, ⟨hf, trivial⟩, rfl, hg⟩

end Form

namespace Interpreter

/-- Objects with a text that is read: `nil`, fixnums, finite floats whose text reads back,
strings of characters that stand for themselves or are escaped by a letter that the reader
knows, interned symbols whose names are atoms that mean symbols, and pairs and vectors of such
objects. -/
inductive Legible (i : Interpreter) : Obj → Prop where
  | nil : Legible i .nil
  | int (n : Fixnum) : Legible i (.int n)
  | float {x : Float} (hfinite : x.isFinite = true)
    (hread : readFloat? (plainText x).toList = some x) : Legible i (.float x)
  | text {a : Addr} {s : String} (ha : i.heap.get? a = some (.text s))
    (hs : ∀ c ∈ s.toList, Token.isPlainChar c = true) : Legible i (.ref a)
  | symbol {a : Addr} {name : String} {value function : Option Obj}
    (ha : i.heap.get? a = some (.symbol name value function)) (hname : i.find? name = some a)
    (hnil : name ≠ "nil") (hspells : Form.Spells name.toList (.symbol name)) :
    Legible i (.ref a)
  | pair {a : Addr} {head tail : Obj} (ha : i.heap.get? a = some (.cons head tail))
    (hhead : Legible i head) (htail : Legible i tail) : Legible i (.ref a)
  | vector {a : Addr} {items : List Obj} (ha : i.heap.get? a = some (.vector items))
    (hitems : ∀ o ∈ items, Legible i o) : Legible i (.ref a)

/-- What is legible stays so while the interpreter is extended. -/
theorem Legible.of_extends (ho : i.Legible o) (hik : i.Extends k) : k.Legible o := by
  induction ho with
  | nil => exact .nil
  | int n => exact .int n
  | float hfinite hread => exact .float hfinite hread
  | text ha hs => exact .text (hik.cell ha) hs
  | symbol ha hname hnil hspells => exact .symbol (hik.cell ha) (hik.names hname) hnil hspells
  | pair ha _ _ hhead htail => exact .pair (hik.cell ha) hhead htail
  | vector ha _ hitems => exact .vector (hik.cell ha) hitems

/-- Such an object is a finite tree. -/
theorem Legible.exists_within (ho : i.Legible o) : ∃ n, i.heap.Within n o := by
  induction ho with
  | nil | int | float => exact ⟨0, rfl⟩
  | text ha _ | symbol ha _ _ _ => exact ⟨0, by simp only [Heap.Within, Heap.parts, Heap.shape_ref ha]⟩
  | pair ha _ _ hhead htail =>
    obtain ⟨m, hm⟩ := hhead
    obtain ⟨n, hn⟩ := htail
    refine ⟨max m n + 1, fun p hp => ?_⟩
    rcases (Heap.mem_parts_pair ha).mp hp with rfl | rfl
    · exact hm.mono (Nat.le_max_left m n)
    · exact hn.mono (Nat.le_max_right m n)
  | vector ha _ hitems =>
    obtain ⟨n, hn⟩ := Heap.exists_within_all hitems
    exact ⟨n + 1, fun p hp => hn p (Heap.parts_vector ha ▸ hp)⟩

mutual

/-- An object is what a form says. -/
def Means (i : Interpreter) : Form → Obj → Prop
  | .int n, o => o = .int n
  | .float x, o => o = .float x
  | .text s, o => ∃ a, o = .ref a ∧ i.heap.get? a = some (.text s)
  | .symbol name, o => (name = "nil" ∧ o = .nil) ∨ (name ≠ "nil" ∧ ∃ a value function,
      o = .ref a ∧ i.find? name = some a ∧ i.heap.get? a = some (.symbol name value function))
  | .list items, o => ∃ os, i.heap.Chain o os .nil ∧ i.MeansIn items os
  | .dotted items last, o => ∃ os p, i.heap.Chain o os p ∧ i.MeansIn items os ∧ i.Means last p
  | .vector items, o => ∃ a os, o = .ref a ∧ i.heap.get? a = some (.vector os) ∧
      i.MeansIn items os

/-- Objects are what forms say, one by one. -/
def MeansIn (i : Interpreter) : List Form → List Obj → Prop
  | [], os => os = []
  | f :: fs, os => ∃ o rest, os = o :: rest ∧ i.Means f o ∧ i.MeansIn fs rest

end

/-- A form says of a pair what two forms say of its halves. -/
theorem means_before {f g : Form} (ha : i.heap.get? a = some (.cons head tail))
    (hf : i.Means f head) (hg : i.Means g tail) : i.Means (f.before g) (.ref a) := by
  -- a form in front of a list is its first item, and otherwise it is in front of a dot
  cases g with
  | list items =>
    obtain ⟨os, hchain, hitems⟩ := hg
    exact ⟨head :: os, .cons ha hchain, head, os, rfl, hf, hitems⟩
  | dotted items last =>
    obtain ⟨os, p, hchain, hitems, hlast⟩ := hg
    exact ⟨head :: os, p, .cons ha hchain, ⟨head, os, rfl, hf, hitems⟩, hlast⟩
  | symbol name =>
    rw [Form.before]
    split
    · rename_i hnil
      obtain ⟨-, rfl⟩ | ⟨hne, -⟩ := hg
      · exact ⟨[head], .cons ha .nil, head, [], rfl, hf, rfl⟩
      · exact absurd hnil hne
    · exact ⟨[head], tail, .cons ha .nil, ⟨head, [], rfl, hf, rfl⟩, hg⟩
  | int | float | text | vector =>
    exact ⟨[head], tail, .cons ha .nil, ⟨head, [], rfl, hf, rfl⟩, hg⟩

/-- The empty list is spelled `nil`. -/
theorem spells_nil : Form.Spells "nil".toList (.symbol "nil") :=
  ⟨'n', ['i', 'l'], rfl, Token.not_isDelimiter_of_all (by decide +kernel), by decide +kernel, rfl⟩

/-- Objects that each have a plain form have a list of forms. -/
theorem exists_forms (h : ∀ o ∈ os, ∃ f : Form, f.IsPlain ∧ i.Means f o) :
    ∃ fs, Form.IsPlainIn fs ∧ i.MeansIn fs os := by
  induction os with
  | nil => exact ⟨[], trivial, rfl⟩
  | cons o os ih =>
    obtain ⟨f, hf, hfo⟩ := h o List.mem_cons_self
    obtain ⟨fs, hfs, hrest⟩ := ih fun p hp => h p (List.mem_cons_of_mem o hp)
    exact ⟨f :: fs, ⟨hf, hfs⟩, o, os, rfl, hfo, hrest⟩

/-- There is a form of every object with a text that is read. -/
theorem Legible.exists_form (ho : i.Legible o) : ∃ f : Form, f.IsPlain ∧ i.Means f o := by
  induction ho with
  | nil => exact ⟨.symbol "nil", spells_nil, .inl ⟨rfl, rfl⟩⟩
  | int n => exact ⟨.int n, trivial, rfl⟩
  | @float x hfinite hread => exact ⟨.float x, ⟨hfinite, hread⟩, rfl⟩
  | @text a s ha hs => exact ⟨.text s, hs, a, rfl, ha⟩
  | @symbol a name value function ha hname hnil hspells =>
    exact ⟨.symbol name, hspells, .inr ⟨hnil, a, value, function, rfl, hname, ha⟩⟩
  | pair ha _ _ hhead htail =>
    obtain ⟨f, hf, hfhead⟩ := hhead
    obtain ⟨g, hg, hgtail⟩ := htail
    exact ⟨f.before g, Form.isPlain_before hf hg, means_before ha hfhead hgtail⟩
  | @vector a items ha _ hitems =>
    obtain ⟨fs, hfs, hmeans⟩ := exists_forms hitems
    exact ⟨.vector fs, hfs, a, items, rfl, ha, hmeans⟩

/-! ### Printing -/

/-- What stands after the dot of a list is neither a pair nor `nil`. -/
theorem shape_of_endsList {f : Form} (hf : f.endsList = true) (ho : i.Means f o) :
    o ≠ .nil ∧ ∀ head tail, i.heap.shape o ≠ .cell (.cons head tail) := by
  cases f with
  | int n | float x =>
    cases ho
    exact ⟨by simp, fun _ _ => by simp [Heap.shape]⟩
  | text s =>
    obtain ⟨a, rfl, ha⟩ := ho
    exact ⟨by simp, fun _ _ => by simp [Heap.shape_ref ha]⟩
  | symbol name =>
    obtain ⟨rfl, -⟩ | ⟨-, a, value, function, rfl, -, ha⟩ := ho
    · cases hf
    · exact ⟨by simp, fun _ _ => by simp [Heap.shape_ref ha]⟩
  | list | dotted => cases hf
  | vector items =>
    obtain ⟨a, os, rfl, ha, -⟩ := ho
    exact ⟨by simp, fun _ _ => by simp [Heap.shape_ref ha]⟩

/-- There are as many forms as objects. -/
theorem MeansIn.length_eq {fs : List Form} (hos : i.MeansIn fs os) : os.length = fs.length := by
  induction fs generalizing os with
  | nil =>
    cases hos
    rfl
  | cons f fs ih =>
    obtain ⟨o, rest, rfl, -, hrest⟩ := hos
    exact congrArg (· + 1) (ih hrest)

/-- The text of a pair: the items along its chain, and what ends the chain unless it is
`nil`. -/
theorem printWithin_chain (hpair : i.heap.Chain o os p) (hos : os ≠ [])
    (hend : ∀ head tail, i.heap.shape p ≠ .cell (.cons head tail))
    (hlength : os.length ≤ i.heap.size) :
    (i.heap.printWithin (n + 1) o).toList =
      '(' :: ([' '].intercalate (os.map fun q => (i.heap.printWithin n q).toList) ++
        if p.isNil then [')'] else ' ' :: '.' :: ' ' :: ((i.heap.printWithin n p).toList ++ [')'])) := by
  have hspine : i.heap.spine o = (os, p) := hpair.spineWithin hend hlength
  cases hpair with
  | nil => exact absurd rfl hos
  | cons ha _ =>
    rw [Heap.printWithin]
    simp only [Heap.shape_ref ha, hspine]
    split <;> simp [String.toList_intercalate, Function.comp_def, *]

mutual

/-- What a form says is printed as the text of the form. -/
theorem printWithin_of_means : ∀ (f : Form) {o : Obj} {n : Nat}, f.IsPlain → i.Means f o →
    i.heap.Within n o → n ≤ i.heap.size → (i.heap.printWithin (n + 1) o).toList = f.chars
  | .int _, _, _, _, rfl, _, _ | .float _, _, _, _, rfl, _, _ => rfl
  | .text s, _, _, _, ⟨a, rfl, ha⟩, _, _ => by
    simp only [Heap.printWithin, Heap.shape_ref ha, Form.chars]
  | .symbol name, _, _, _, .inl ⟨hname, ho⟩, _, _ => by
    rw [hname, ho]
    rfl
  | .symbol name, _, _, _, .inr ⟨_, a, value, function, rfl, _, ha⟩, _, _ => by
    simp only [Heap.printWithin, Heap.shape_ref ha, Form.chars]
  | .list items, o, n, hf, ⟨os, hchain, hos⟩, ho, hn => by
    obtain ⟨hlength, -, hitems⟩ := hchain.within ho
    have hpos : 0 < os.length := hos.length_eq ▸ List.length_pos_iff.mpr hf.1
    rw [printWithin_chain hchain (List.ne_nil_of_length_pos hpos) (fun _ _ => nofun)
      (Nat.le_trans hlength hn), printWithin_of_meansIn items hf.2 hos
      (fun q hq => ⟨n - 1, by omega, hitems q hq⟩) hn, Form.chars]
    rfl
  | .dotted items last, o, n, hf, ⟨os, p, hchain, hos, hp⟩, ho, hn => by
    obtain ⟨hlength, hlast, hitems⟩ := hchain.within ho
    obtain ⟨hnil, hend⟩ := shape_of_endsList hf.2.2.1 hp
    have hpos : 0 < os.length := hos.length_eq ▸ List.length_pos_iff.mpr hf.1
    obtain ⟨n, rfl⟩ : ∃ m, n = m + 1 := ⟨n - 1, by omega⟩
    have hprint := printWithin_of_means last hf.2.2.2 hp (hlast.mono (n := n) (by omega))
      (Nat.le_of_succ_le hn)
    have hisNil : p.isNil = false := by
      cases p with
      | nil => exact absurd rfl hnil
      | _ => rfl
    rw [printWithin_chain hchain (List.ne_nil_of_length_pos hpos) hend (Nat.le_trans hlength hn),
      printWithin_of_meansIn items hf.2.1 hos (fun q hq => ⟨n, rfl, hitems q hq⟩) hn, hisNil,
      hprint, Form.chars]
    rfl
  | .vector items, _, n, hf, ⟨a, os, rfl, ha, hos⟩, ho, hn => by
    have hitems := printWithin_of_meansIn items hf hos
      (fun q hq => ho.parts (Heap.parts_vector ha ▸ hq)) hn
    simp only [Heap.printWithin, Heap.shape_ref ha, Form.chars, ← hitems]
    simp [String.toList_intercalate, Function.comp_def]

/-- What forms say is printed as their texts, a level further down. -/
theorem printWithin_of_meansIn : ∀ (fs : List Form) {os : List Obj} {n : Nat},
    Form.IsPlainIn fs → i.MeansIn fs os →
    (∀ o ∈ os, ∃ m, n = m + 1 ∧ i.heap.Within m o) → n ≤ i.heap.size →
    os.map (fun o => (i.heap.printWithin n o).toList) = Form.charsIn fs
  | [], _, _, _, rfl, _, _ => rfl
  | f :: fs, _, n, hfs, ⟨o, rest, rfl, ho, hrest⟩, hwithin, hn => by
    obtain ⟨m, rfl, hm⟩ := hwithin o List.mem_cons_self
    rw [List.map_cons, printWithin_of_means f hfs.1 ho hm (Nat.le_of_succ_le hn),
      printWithin_of_meansIn fs hfs.2 hrest (fun p hp => hwithin p (List.mem_cons_of_mem o hp)) hn]
    rfl

end

/-! ### Equality -/

/-- Every part of the second object has an equal part of the first one, within as many levels
as the second one has. -/
def Matches (i : Interpreter) (o' o : Obj) : Prop :=
  ∀ n, i.heap.Within n o → i.heap.equalWithin (n + 1) o' o = true

/-- Chains match if their objects do and their ends do. The induction is on one chain, with
the other taken apart beside it. -/
theorem matches_chain (ho' : i.heap.Chain o' os' p') (ho : i.heap.Chain o os p)
    (hos : List.Forall₂ i.Matches os' os) (hp : i.Matches p' p) : i.Matches o' o := by
  induction hos generalizing o o' with
  | nil =>
    cases ho'
    cases ho
    exact hp
  | cons hhead _ ih =>
    cases ho' with
    | cons ha' htail' =>
      cases ho with
      | cons ha htail =>
        intro n hn
        obtain ⟨n, rfl, hwithin⟩ := hn.parts ((Heap.mem_parts_pair ha).mpr (.inl rfl))
        have htails := ih htail' htail n (hn _ ((Heap.mem_parts_pair ha).mpr (.inr rfl)))
        rw [Heap.equalWithin]
        simp only [Heap.shape_ref ha, Heap.shape_ref ha', hhead n hwithin, htails, Bool.and_self]

mutual

/-- What one form says is equal. -/
theorem matches_of_means : ∀ (f : Form) {o' o : Obj}, i.Means f o' → i.Means f o →
    i.Matches o' o
  | .int _, _, _, rfl, rfl | .float _, _, _, rfl, rfl => by
    intro n _
    simp [Heap.equalWithin, Heap.shape]
  | .text s, _, _, ⟨a, rfl, ha⟩, ⟨b, rfl, hb⟩ => by
    intro n _
    simp [Heap.equalWithin, Heap.shape_ref ha, Heap.shape_ref hb]
  | .symbol _, _, _, .inl ⟨_, rfl⟩, .inl ⟨_, rfl⟩ => fun _ _ => rfl
  | .symbol _, _, _, .inl ⟨hname, _⟩, .inr ⟨hne, _⟩
  | .symbol _, _, _, .inr ⟨hne, _⟩, .inl ⟨hname, _⟩ => absurd hname hne
  | .symbol _, _, _, .inr ⟨_, a, _, _, rfl, ha, hcell⟩, .inr ⟨_, b, _, _, rfl, hb, _⟩ => by
    obtain rfl := Option.some.inj (ha.symm.trans hb)
    intro n _
    simp only [Heap.equalWithin, Heap.shape_ref hcell, Obj.eq_refl]
  | .list items, _, _, ⟨_, ho', hos'⟩, ⟨_, ho, hos⟩ =>
    matches_chain ho' ho (matches_of_meansIn items hos' hos) fun _ _ => rfl
  | .dotted items last, _, _, ⟨_, _, ho', hos', hp'⟩, ⟨_, _, ho, hos, hp⟩ =>
    matches_chain ho' ho (matches_of_meansIn items hos' hos) (matches_of_means last hp' hp)
  | .vector items, _, _, ⟨a, os', rfl, ha, hos'⟩, ⟨b, os, rfl, hb, hos⟩ => by
    intro n hn
    have hitems := matches_of_meansIn items hos' hos
    simp only [Heap.equalWithin, Heap.shape_ref ha, Heap.shape_ref hb, hitems.length_eq,
      beq_self_eq_true, Bool.true_and, List.all_eq_true]
    intro pair hpair
    obtain ⟨n, rfl, hwithin⟩ := hn.parts (Heap.parts_vector hb ▸ (List.of_mem_zip hpair).2)
    exact (List.forall₂_iff_zip.mp hitems).2 hpair n hwithin

theorem matches_of_meansIn : ∀ (fs : List Form) {os' os : List Obj}, i.MeansIn fs os' →
    i.MeansIn fs os → List.Forall₂ i.Matches os' os
  | [], _, _, rfl, rfl => .nil
  | f :: fs, _, _, ⟨_, _, rfl, ho', hrest'⟩, ⟨_, _, rfl, ho, hrest⟩ =>
    .cons (matches_of_means f ho' ho) (matches_of_meansIn fs hrest' hrest)

end

/-! ### Hosts that are extended -/

mutual

/-- What has been made stays what it is. -/
theorem Means.of_extends (hik : i.Extends k) : ∀ {f : Form} {o : Obj}, i.Means f o → k.Means f o
  | .int _, _, h | .float _, _, h => h
  | .text _, _, ⟨a, ho, ha⟩ => ⟨a, ho, hik.cell ha⟩
  | .symbol _, _, .inl h => .inl h
  | .symbol _, _, .inr ⟨hnil, a, value, function, ho, hname, ha⟩ =>
    .inr ⟨hnil, a, value, function, ho, hik.names hname, hik.cell ha⟩
  | .list _, _, ⟨os, hchain, hos⟩ => ⟨os, hchain.of_extends hik, hos.of_extends hik⟩
  | .dotted _ _, _, ⟨os, p, hchain, hos, hp⟩ =>
    ⟨os, p, hchain.of_extends hik, hos.of_extends hik, hp.of_extends hik⟩
  | .vector _, _, ⟨a, os, ho, ha, hos⟩ => ⟨a, os, ho, hik.cell ha, hos.of_extends hik⟩

/-- What forms mean they mean while the interpreter is extended. -/
theorem MeansIn.of_extends (hik : i.Extends k) :
    ∀ {fs : List Form} {os : List Obj}, i.MeansIn fs os → k.MeansIn fs os
  | [], _, h => h
  | _ :: _, _, ⟨o, rest, hos, ho, hrest⟩ =>
    ⟨o, rest, hos, ho.of_extends hik, hrest.of_extends hik⟩

end

/-- A name is interned as what it says, now and when more has been made. -/
def Interns (i : Interpreter) (name : String) : Prop :=
  ∀ k, i.Extends k → (k.intern name).2.Means (.symbol name) (k.intern name).1

/-- A name that is interned stays so while the interpreter is extended. -/
theorem Interns.of_extends {name : String} (h : i.Interns name) (hik : i.Extends k) :
    k.Interns name := fun l hkl => h l (hik.trans hkl)

/-- Where names are interned to symbols of these names, every name is. -/
theorem Interned.interns (hi : i.Interned) (name : String) : i.Interns name := by
  intro k hik
  have hk : k.Interned := hik.interned hi
  by_cases hnil : name = "nil"
  · subst hnil
    exact .inl ⟨rfl, rfl⟩
  · obtain ⟨a, ha, hfind⟩ := k.exists_find?_intern hnil
    obtain ⟨h, -⟩ | ⟨_, value, function, heq, hcell⟩ := names_intern hk name
    · exact absurd h hnil
    · cases ha.symm.trans heq
      exact .inr ⟨hnil, a, value, function, ha, hfind, hcell⟩

mutual

/-- A name that a form says of an object is interned. -/
theorem interns_of_means : ∀ (f : Form) {o : Obj}, i.Means f o → ∀ name ∈ f.names, i.Interns name
  | .symbol name, _, .inl ⟨hnil, _⟩ => by
    refine List.forall_mem_singleton.mpr fun k _ => ?_
    subst hnil
    exact .inl ⟨rfl, rfl⟩
  | .symbol name, _, .inr ⟨hnil, a, value, function, _, hname, ha⟩ => by
    refine List.forall_mem_singleton.mpr fun k hik => ?_
    rw [intern_of_find? hnil (hik.names hname)]
    exact .inr ⟨hnil, a, value, function, rfl, hik.names hname, hik.cell ha⟩
  | .list items, _, ⟨_, _, hos⟩ => interns_of_meansIn items hos
  | .dotted items last, _, ⟨_, _, _, hos, hp⟩ =>
    List.forall_mem_append.mpr ⟨interns_of_meansIn items hos, interns_of_means last hp⟩
  | .vector items, _, ⟨_, _, _, _, hos⟩ => interns_of_meansIn items hos
  | .int _, _, _ | .float _, _, _ | .text _, _, _ => List.forall_mem_nil _

theorem interns_of_meansIn : ∀ (fs : List Form) {os : List Obj}, i.MeansIn fs os →
    ∀ name ∈ Form.namesIn fs, i.Interns name
  | [], _, _ => List.forall_mem_nil _
  | f :: fs, _, ⟨_, _, _, ho, hrest⟩ =>
    List.forall_mem_append.mpr ⟨interns_of_means f ho, interns_of_meansIn fs hrest⟩

end

theorem Extends.known (hik : i.Extends k) (ho : i.heap.known o = o) : k.heap.known o = o := by
  cases o with
  | ref a =>
    obtain ⟨c, ha⟩ := Heap.exists_get?_of_known ho
    exact if_pos (Heap.lt_size_of_get? (hik.cell ha))
  | nil | int | float => rfl

/-- What a form says is known to the heap. -/
theorem Means.known : ∀ {f : Form} {o : Obj}, i.Means f o → i.heap.known o = o
  | .int _, _, rfl | .float _, _, rfl | .symbol _, _, .inl ⟨_, rfl⟩ => rfl
  | .text _, _, ⟨a, rfl, ha⟩ | .symbol _, _, .inr ⟨_, a, _, _, rfl, _, ha⟩
  | .vector _, _, ⟨a, _, rfl, ha, _⟩ => if_pos (Heap.lt_size_of_get? ha)
  | .list _, _, ⟨_, .nil, _⟩ => rfl
  | .list _, _, ⟨_, .cons ha _, _⟩ | .dotted _ _, _, ⟨_, _, .cons ha _, _, _⟩ =>
    if_pos (Heap.lt_size_of_get? ha)
  | .dotted _ _, _, ⟨_, _, .nil, _, hp⟩ => hp.known

end Interpreter

/-! ### Building again -/

namespace Host

open Proc

/-- The host makes a chain of pairs that ends in an object that there is. -/
theorem builds_dotted {w : World} (items : List Obj) (hp : w.host.heap.known p = p) :
    (dotted items p).Builds w fun o w₁ => w₁.host.heap.Chain o items p := by
  induction items with
  | nil => exact builds_pure .nil
  | cons head items ih =>
    -- the pairs of the tail are made first
    refine ih.bind fun tail w₁ hb htail => (builds_make _).mono fun o w₂ hb₂ ho => ?_
    obtain ⟨rfl, hcell, -⟩ := ho
    have hknown : w₁.host.heap.known tail = tail := by
      cases htail with
      | nil => exact hb.host.known hp
      | cons hpair _ => exact if_pos (Heap.lt_size_of_get? hpair)
    rw [Heap.cellOf, hknown] at hcell
    exact .cons hcell (htail.of_extends hb₂.host)

mutual

/-- The host makes an object of a form, and it is what the form says. -/
theorem builds_ofForm : ∀ (f : Form) {w : World}, (∀ name ∈ f.names, w.host.Interns name) →
    (ofForm f).Builds w fun o w₁ => w₁.host.Means f o
  | .int _, _, _ | .float _, _, _ => builds_pure rfl
  | .text s, w, _ => by
    refine (builds_make _).mono fun o w₁ _ ho => ?_
    obtain ⟨rfl, hcell, -⟩ := ho
    exact ⟨_, rfl, hcell⟩
  | .symbol name, w, hnames =>
    ⟨_, _, gives_change _, w.buildsTo_intern name,
      hnames name (List.mem_singleton_self name) w.host (.refl w.host)⟩
  | .list items, _, hnames =>
    (builds_ofForms items hnames).bind fun os w₁ hb hos =>
      (builds_dotted os rfl).mono fun _ _ hb₂ hchain =>
        ⟨os, hchain, hos.of_extends hb₂.host⟩
  | .dotted items last, _, hnames =>
    (builds_ofForms items fun name h => hnames name (List.mem_append_left _ h)).bind
      fun os w₁ hb hos =>
        (builds_ofForm last fun name h =>
            (hnames name (List.mem_append_right _ h)).of_extends hb.host).bind fun p _ hb₂ hp =>
          (builds_dotted os hp.known).mono fun _ _ hb₃ hchain =>
            ⟨os, p, hchain, (hos.of_extends hb₂.host).of_extends hb₃.host,
              hp.of_extends hb₃.host⟩
  | .vector items, _, hnames =>
    (builds_ofForms items hnames).bind fun os _ _ hos =>
      (builds_make _).mono fun _ _ hb₂ ho =>
        ⟨_, os, ho.1, ho.2.1, hos.of_extends hb₂.host⟩

/-- Objects made of forms have those forms as their meaning. -/
theorem builds_ofForms : ∀ (fs : List Form) {w : World},
    (∀ name ∈ Form.namesIn fs, w.host.Interns name) →
    (ofForms fs).Builds w fun os w₁ => w₁.host.MeansIn fs os
  | [], _, _ => builds_pure rfl
  | f :: fs, _, hnames =>
    (builds_ofForm f fun name h => hnames name (List.mem_append_left _ h)).bind fun o _ hb ho =>
      (builds_ofForms fs fun name h =>
          (hnames name (List.mem_append_right _ h)).of_extends hb.host).bind fun os _ hb₂ hos =>
        builds_pure ⟨o, os, rfl, ho.of_extends hb₂.host, hos⟩

end

/-- Reading undoes printing. In every state, and for every object made of `nil`, fixnums,
finite floats, plain strings, interned symbols, pairs and vectors: what is read of its printed
text is one object, which is `equal` to it. Nothing but new objects has come of it. -/
theorem reading_undoes_printing (w : World) (ho : w.host.Legible o) :
    ∃ o' w₁, (read (w.host.heap.print o)).run w = (.ok [o'], w₁) ∧ w.BuildsTo w₁ ∧
      w₁.host.heap.equal o' o = true := by
  obtain ⟨f, hf, hmeans⟩ := ho.exists_form
  obtain ⟨n, hn⟩ := ho.exists_within
  have hprint : w.host.heap.print o = String.ofList f.chars := by
    have htext := Interpreter.printWithin_of_means f hf hmeans (Heap.within_size hn) (Nat.le_refl _)
    rw [← htext, String.ofList_toList]
    rfl
  obtain ⟨o', w₁, hgives, hb, ho'⟩ := builds_ofForm f (Interpreter.interns_of_means f hmeans)
  have hread : (read (w.host.heap.print o)).Gives 0 w (.ok [o']) w₁ := by
    rw [hprint, read, Form.readAll_chars hf]
    exact hgives.bind (gives_pure _)
  obtain ⟨m, hm⟩ := (ho.of_extends hb.host).exists_within
  exact ⟨o', w₁, hread.run (Nat.zero_le _), hb, Interpreter.matches_of_means f ho'
    (hmeans.of_extends hb.host) _ (Heap.within_size hm)⟩

/-- A program that quotes a list of a name, a string, a dotted pair and a vector. -/
def quotedList : Moment (List (Except Failure Answer × List Answer)) :=
  Transcript.start .standard [.mk (.runSource "'(f \"a\\tb\" (1 . -2.5) [nil])") none false]

/-- The list reads back while the program runs. -/
theorem reading_undoes_printing_list : ∃ o' w₁,
    (quotedList.after 20).world.host.heap.print (.ref 164) = "(f \"a\\tb\" (1 . -2.5) [nil])" ∧
    (read ((quotedList.after 20).world.host.heap.print (.ref 164))).run
      (quotedList.after 20).world = (.ok [o'], w₁) ∧
    w₁.host.heap.equal o' (.ref 164) = true := by
  obtain ⟨hname, hfunction, htext, hdotted, hvector, hpairs⟩ :
      (quotedList.after 20).world.host.find? "f" = some 157 ∧
      (quotedList.after 20).world.host.heap.get? 157 = some (.symbol "f" none none) ∧
      (quotedList.after 20).world.host.heap.get? 158 = some (.text "a\tb") ∧
      (quotedList.after 20).world.host.heap.get? 159 =
        some (.cons (.int .one) (.float (-2.5))) ∧
      (quotedList.after 20).world.host.heap.get? 160 = some (.vector [.nil]) ∧
      (quotedList.after 20).world.host.heap.get? 161 = some (.cons (.ref 160) .nil) ∧
      (quotedList.after 20).world.host.heap.get? 162 = some (.cons (.ref 159) (.ref 161)) ∧
      (quotedList.after 20).world.host.heap.get? 163 = some (.cons (.ref 158) (.ref 162)) ∧
      (quotedList.after 20).world.host.heap.get? 164 = some (.cons (.ref 157) (.ref 163)) := by
    decide +kernel
  obtain ⟨hend, hrest, hitems, hlist⟩ := hpairs
  have hfloat : (quotedList.after 20).world.host.Legible (.float (-2.5)) :=
    .float (by decide +kernel) (by decide +kernel)
  -- the symbol and the double of the list have forms of their own
  have hspells : Form.Spells "f".toList (.symbol "f") :=
    ⟨'f', [], rfl, Token.not_isDelimiter_of_all (by decide +kernel), by decide +kernel, rfl⟩
  have hlegible : (quotedList.after 20).world.host.Legible (.ref 164) :=
    .pair hlist (.symbol hfunction hname (by decide +kernel) hspells) <|
      .pair hitems (.text htext (List.all_eq_true.mp (by decide +kernel))) <| .pair hrest (.pair hdotted (.int _) hfloat) <|
        .pair hend (.vector hvector fun o ho => List.mem_singleton.mp ho ▸ .nil) .nil
  obtain ⟨o', w₁, hread, -, hequal⟩ := reading_undoes_printing _ hlegible
  exact ⟨o', w₁, by decide +kernel, hread, hequal⟩

end Host

end Crossing
