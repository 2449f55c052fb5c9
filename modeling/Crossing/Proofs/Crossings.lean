import Crossing.Proofs.Building
import Crossing.Proofs.LiveHandles

/-!
# How objects cross

What the host sends for an object depends on the object and on what two names stand
for; sending comes to a result whatever the object is.

- `World.passage`: an object crosses as data, as the wrapped value of a key, or by
  reference;
- `Host.gives_send`: this is what sending gives;
- `Border.gives_adopt`: the handle that script code gets of an object that was made
  for it.
-/

namespace Crossing

open Proc

/-! ### What the host sends -/

/-- What an object crosses as. -/
inductive Passage where
  | data (j : Json)
  | wrapped (key : Key)
  | reference

/-- What an object crosses as now. A symbol of the name of truth and a list that looks
like a marker are told by the symbols that these names stand for. -/
def World.passage (w : World) (o : Obj) : Passage :=
  match w.host.heap.shape o with
  | .nil => .data .null
  | .int i => .data (.ofFixnum i)
  | .float x => match Json.ofFloat? x with
    | some j => .data j
    | none => .reference
  | .cell (.text s) => .data (.text s)
  | .cell (.symbol name _ _) =>
    if name = truthName ∧ o.eq (w.host.intern truthName).1 = true then .data (.bool true)
    else .reference
  | .cell (.cons _ _) => match w.host.heap.list? o with
    | some [head, .int index, .int generation] =>
      if head.eq (w.host.intern markerName).1 then
        match Host.keyOf? index generation with
        | some key => .wrapped key
        | none => .reference
      else .reference
    | _ => .reference
  | .cell _ => .reference

namespace Host

variable {w w₁ : World} {o : Obj}

/-- An object is referred to by the number that it is retained under. -/
theorem gives_refer (o : Obj) (w : World) :
    (refer o).Gives 0 w (.ok (.reference (w.host.retain o).1)) ((Change.retain o).run w).2 :=
  gives_change_bind (gives_pure _)

/-- What is sent for what crosses as it does. -/
def Sends (w : World) (o : Obj) : Passage → Prop
  | .data j => ∃ w₁, w.BuildsTo w₁ ∧ (send o).Gives 0 w (.ok (.data j.render)) w₁
  | .wrapped key =>
    (send o).Gives 0 w (.ok (.wrapped key)) ((Change.intern markerName).run w).2
  | .reference => ∃ w₁, w.BuildsTo w₁ ∧
    (send o).Gives 0 w (.ok (.reference (w₁.host.retain o).1)) ((Change.retain o).run w₁).2

/-- Sending gives what the object crosses as. -/
theorem gives_send (w : World) (o : Obj) : Sends w o (w.passage o) := by
  have htruth := w.buildsTo_intern truthName
  have hmarker := w.buildsTo_intern markerName
  unfold World.passage
  split
  · rename_i hshape
    refine ⟨w, .refl w, gives_query_bind ?_⟩
    simp only [Query.ask, hshape]
    exact gives_pure _
  · rename_i i hshape
    refine ⟨w, .refl w, gives_query_bind ?_⟩
    simp only [Query.ask, hshape]
    exact gives_pure _
  · rename_i x hshape
    split
    · rename_i j hx
      refine ⟨w, .refl w, gives_query_bind ?_⟩
      simp only [Query.ask, hshape, hx]
      exact gives_pure _
    · rename_i hx
      refine ⟨w, .refl w, gives_query_bind ?_⟩
      simp only [Query.ask, hshape, hx]
      exact gives_refer o w
  · rename_i s hshape
    refine ⟨w, .refl w, gives_query_bind ?_⟩
    simp only [Query.ask, hshape]
    exact gives_pure _
  · rename_i name value function hshape
    by_cases hname : name = truthName
    · split
      · rename_i htrue
        refine ⟨_, htruth, gives_query_bind ?_⟩
        simp only [Query.ask, hshape, hname, if_true]
        refine gives_change_bind ?_
        rw [if_pos (show o.eq ((Change.intern truthName).run w).1 = true from htrue.2)]
        exact gives_pure _
      · rename_i htrue
        refine ⟨_, htruth, gives_query_bind ?_⟩
        simp only [Query.ask, hshape, hname, if_true]
        refine gives_change_bind ?_
        rw [if_neg (show ¬o.eq ((Change.intern truthName).run w).1 = true from
          fun h => htrue ⟨hname, h⟩)]
        exact gives_refer o _
    · rw [if_neg fun h => hname h.1]
      refine ⟨w, .refl w, gives_query_bind ?_⟩
      simp only [Query.ask, hshape, hname, if_false]
      exact gives_refer o w
  · rename_i a b hshape
    split
    · rename_i head index generation hlist
      have hlook : ∀ r, (if head.eq ((Change.intern markerName).run w).1 = true
            then keyOf? index generation else none) = r →
          (wrapped? w.host.heap o).Gives 0 w (.ok r) ((Change.intern markerName).run w).2 := by
        rintro r rfl
        simp only [wrapped?, hlist]
        exact gives_change_bind (gives_pure _)
      have hrefer : (if head.eq ((Change.intern markerName).run w).1 = true
            then keyOf? index generation else none) = none → Sends w o .reference := by
        intro hnone
        refine ⟨_, hmarker, gives_query_bind ?_⟩
        simp only [Query.ask, hshape]
        exact (hlook _ hnone).bind (gives_refer o _)
      split
      · rename_i hhead
        split
        · rename_i key hkey
          refine gives_query_bind ?_
          simp only [Query.ask, hshape]
          exact (hlook (some key) ((if_pos hhead).trans hkey)).bind (gives_pure _)
        · rename_i hkey
          exact hrefer ((if_pos hhead).trans hkey)
      · rename_i hhead
        exact hrefer (if_neg hhead)
    · rename_i hlist
      refine ⟨w, .refl w, gives_query_bind ?_⟩
      have hlook : (wrapped? w.host.heap o).Gives 0 w (.ok none) w := by
        unfold wrapped?
        split
        · rename_i hitems
          exact absurd hitems (hlist _ _ _)
        · exact gives_pure none
      simp only [Query.ask, hshape]
      exact hlook.bind (gives_refer o w)
  · rename_i hshape
    refine ⟨w, .refl w, gives_query_bind ?_⟩
    simp only [Query.ask, hshape]
    exact gives_refer o w

/-- Sending comes to a parcel and leaves what was there. -/
theorem exists_gives_send (w : World) (o : Obj) :
    ∃ p w₁, (send o).Gives 0 w (.ok p) w₁ ∧ w.host.Extends w₁.host := by
  have hsends := gives_send w o
  cases hpassage : w.passage o with
  | data j =>
    rw [hpassage] at hsends
    obtain ⟨w₁, hb, hgives⟩ := hsends
    exact ⟨_, w₁, hgives, hb.host⟩
  | wrapped key =>
    rw [hpassage] at hsends
    exact ⟨_, _, hsends, w.host.extends_intern markerName⟩
  | reference =>
    rw [hpassage] at hsends
    obtain ⟨w₁, hb, hgives⟩ := hsends
    exact ⟨_, _, hgives, hb.host.trans (w₁.host.extends_retain o)⟩

end Host

/-! ### What script code gets -/

/-- The handle of an object that the host is to keep. -/
theorem Border.gives_adopt (w : World) (o : Obj) :
    ∃ h w₁, (Border.adopt o).Gives 0 w (.ok h) w₁ ∧ h.id = (w.host.retain o).1 ∧
      w₁.host = (w.host.retain o).2 ∧ w₁.border.proxies = w.border.proxies := by
  refine ⟨_, _, gives_change_bind (gives_change (.adopt _)), World.id_adopt _ _,
    World.host_adopt _ _, (World.growsTo_adopt _ _).proxies⟩

/-- Taking in a parcel comes to an end and leaves the wrapped values. -/
theorem Border.exists_gives_unpack (w : World) (p : Parcel) :
    ∃ r w₁, (unpack p).Gives 0 w r w₁ ∧ w₁.border.proxies = w.border.proxies := by
  cases p with
  -- data are read, a reference becomes a handle, and a key is looked up
  | data text =>
    cases hread : Json.ofText text with
    | error x =>
      refine ⟨.error x, w, ?_, rfl⟩
      rw [unpack, hread]
      exact (gives_fail x).bind_error
    | ok j =>
      refine ⟨.ok (.ofJson j), w, ?_, rfl⟩
      rw [unpack, hread]
      exact (gives_pure j).bind (gives_pure _)
  | reference id =>
    exact ⟨_, _, gives_change_bind (gives_pure _), (World.growsTo_adopt w id).proxies⟩
  | wrapped key =>
    cases hvalue : w.border.proxies.get? key with
    | none =>
      refine ⟨.error (.invalidProxy key), w, gives_change_bind ?_, rfl⟩
      simp only [Change.run, hvalue]
      exact gives_fail _
    | some x =>
      refine ⟨.ok x, w.hold x.handles, gives_change_bind ?_, rfl⟩
      simp only [Change.run, hvalue]
      exact gives_pure x

end Crossing
