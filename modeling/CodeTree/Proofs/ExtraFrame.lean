import CodeTree.Proofs.Lockstep
import Mathlib.Data.Set.Insert

/-!
# Stores with an extra frame

Two stores are the same but for one frame: the left one has it, under the number `n`, and so its
later frames have numbers one higher (`raise`). `Store.Exceeds` says so, whatever the extra frame
binds; new frames and assignments keep it.

A scope on the left sees the extra frame in front of its outer links or not at all
(`Scope.Shows`, `Scope.raise`). Either way a variable that the extra frame does not bind is found in
corresponding frames. A variable that it does bind is found there, as long as the frames in front
of it leave the variable alone (`Store.Leaves`). They do: an assignment goes to a frame that binds
the variable already.

Main statements: `Store.Exceeds.owner?_raise`, `Store.Exceeds.owner?_shows`,
`Store.Exceeds.assign`, `Store.Leaves.assign`, `Store.Leaves.lookup_extra`.
-/

namespace CodeTree

/-! ## Bindings of one frame -/

namespace Frame

/-- Binds variables one after another. -/
def setAll (fr : Frame) : List (Param × Value) → Frame
  | [] => fr
  | (p, v) :: bindings => (fr.set p.id v).setAll bindings

theorem get?_setAll_of_ne {id : Nat} : ∀ {bindings : List (Param × Value)} {fr : Frame},
    (∀ b ∈ bindings, b.1.id ≠ id) → (fr.setAll bindings).get? id = fr.get? id
  | [], _, _ => rfl
  | (p, v) :: bindings, fr, h => by
    rw [List.forall_mem_cons] at h
    rw [setAll, get?_setAll_of_ne h.2, get?_set, if_neg (Ne.symm h.1)]

/-- Bindings that agree on a variable bind it to their value. -/
theorem get?_setAll_of_agree {id : Nat} {v : Value} : ∀ {bindings : List (Param × Value)} {fr : Frame},
    (∀ b ∈ bindings, b.1.id = id → b.2 = v) →
    (fr.get? id = some v ∨ ∃ b ∈ bindings, b.1.id = id) → (fr.setAll bindings).get? id = some v
  | [], _, _, h => h.elim (fun h => h) fun h => nomatch h
  | (p, u) :: bindings, fr, hagree, h => by
    rw [List.forall_mem_cons] at hagree
    rw [setAll]
    refine get?_setAll_of_agree hagree.2 ?_
    rw [get?_set]
    split
    next hid => exact .inl (congrArg some (hagree.1 hid.symm))
    next hid =>
      refine h.imp (fun h => h) fun h => ?_
      obtain ⟨b, hb, hbid⟩ := h
      rcases List.mem_cons.mp hb with rfl | hb
      · exact absurd hbid.symm hid
      · exact ⟨b, hb, hbid⟩

end Frame

namespace Store

theorem size_writeAll (f : Nat) : ∀ (bindings : List (Param × Value)) (s : Store),
    (s.writeAll f bindings).frames.size = s.frames.size
  | [], _ => rfl
  | (p, v) :: bindings, s => by rw [writeAll, size_writeAll f bindings, size_write]

theorem size_opened (s : Store) (bindings : List (Param × Value)) :
    (s.opened bindings).frames.size = s.frames.size + 1 := by
  rw [opened, size_writeAll]
  exact Array.size_push _

theorem frame_writeAll_self {f : Nat} : ∀ (bindings : List (Param × Value)) {s : Store},
    f < s.frames.size → (s.writeAll f bindings).frame f = (s.frame f).setAll bindings
  | [], _, _ => rfl
  | (p, v) :: bindings, s, h => by
    rw [writeAll, frame_writeAll_self bindings (by rwa [size_write]), frame_write_self h, Frame.setAll]

/-- What a new frame binds. -/
theorem frame_opened_self (s : Store) (bindings : List (Param × Value)) :
    (s.opened bindings).frame s.frames.size = Frame.setAll [] bindings := by
  have hlt : s.frames.size < (⟨s.frames.push []⟩ : Store).frames.size := by
    rw [Array.size_push]
    exact Nat.lt_succ_self _
  rw [opened, frame_writeAll_self bindings hlt]
  refine congrArg (Frame.setAll · bindings) ?_
  exact (s.frame_push [] none s.frames.size).trans (frame_of_size_le (Nat.le_refl _))

end Store

/-! ## Numbers of frames -/

/-- The number on the left of a frame with a given number on the right. -/
def raise (n f : Nat) : Nat := if f < n then f else f + 1

theorem raise_of_lt {n f : Nat} (h : f < n) : raise n f = f := if_pos h

theorem raise_of_le {n f : Nat} (h : n ≤ f) : raise n f = f + 1 := if_neg (Nat.not_lt.mpr h)

theorem raise_ne (n f : Nat) : raise n f ≠ n := by
  unfold raise
  split <;> omega

theorem raise_injective {n f g : Nat} (h : raise n f = raise n g) : f = g := by
  unfold raise at h
  split at h <;> split at h <;> omega

def Link.raise (n : Nat) (link : Link) : Link := ⟨CodeTree.raise n link.frame, link.handling⟩

namespace Scope

/-- The scope on the left that does not see the extra frame. -/
def raise (n : Nat) (s : Scope) : Scope := ⟨s.links.map (Link.raise n)⟩

theorem raise_extended (n : Nat) (s : Scope) (f : Nat) (handling : Option Value) :
    (s.extended f handling).raise n = (s.raise n).extended (CodeTree.raise n f) handling :=
  rfl

/-- Frames from before the extra one keep their numbers. -/
theorem raise_eq {n : Nat} {s : Scope} (h : ∀ link ∈ s.links, link.frame < n) : s.raise n = s := by
  obtain ⟨links⟩ := s
  refine congrArg Scope.mk ?_
  rw [List.map_congr_left (g := id), List.map_id]
  intro link hlink
  obtain ⟨f, handling⟩ := link
  exact congrArg (Link.mk · handling) (raise_of_lt (h _ hlink))

theorem findSome?_handling_raise (n : Nat) (links : List Link) :
    (links.map (Link.raise n)).findSome? Link.handling = links.findSome? Link.handling := by
  rw [List.findSome?_map]
  rfl

theorem currentException?_raise (n : Nat) (s : Scope) :
    (s.raise n).currentException? = s.currentException? :=
  findSome?_handling_raise n s.links

/-- The left scope sees the extra frame where the right one goes on to its outer links. The frames
in front of it are among `w`. -/
def Shows (n : Nat) (w : Set Nat) (s₁ s₂ : Scope) : Prop :=
  ∃ front outer : List Link, s₂.links = front ++ outer ∧
    s₁.links = front.map (Link.raise n) ++ ⟨n, none⟩ :: outer.map (Link.raise n) ∧
    ∀ link ∈ front, link.frame ∈ w

namespace Shows

variable {n : Nat} {w w' : Set Nat} {s₁ s₂ : Scope}

theorem mono (hw : w ⊆ w') (h : Shows n w s₁ s₂) : Shows n w' s₁ s₂ := by
  obtain ⟨front, outer, h₂, h₁, hfront⟩ := h
  exact ⟨front, outer, h₂, h₁, fun link hlink => hw (hfront link hlink)⟩

theorem extended (h : Shows n w s₁ s₂) {f : Nat} (hf : f ∈ w) (handling : Option Value) :
    Shows n w (s₁.extended (CodeTree.raise n f) handling) (s₂.extended f handling) := by
  obtain ⟨front, outer, h₂, h₁, hfront⟩ := h
  refine ⟨⟨f, handling⟩ :: front, outer, ?_, ?_, List.forall_mem_cons.mpr ⟨hf, hfront⟩⟩
  · exact congrArg (List.cons _) h₂
  · exact congrArg (List.cons _) h₁

theorem currentException? (h : Shows n w s₁ s₂) : s₁.currentException? = s₂.currentException? := by
  obtain ⟨front, outer, h₂, h₁, -⟩ := h
  rw [Scope.currentException?, Scope.currentException?, h₁, h₂, List.findSome?_append,
    List.findSome?_append, List.findSome?_cons, findSome?_handling_raise, findSome?_handling_raise]

end Shows

end Scope

/-! ## Stores -/

namespace Store

/-- The left store has an extra frame, under the number `n`; the others are those of the right. -/
structure Exceeds (n : Nat) (extra : Frame) (st₁ st₂ : Store) : Prop where
  made : n ≤ st₂.frames.size
  size : st₁.frames.size = st₂.frames.size + 1
  frames : ∀ f, st₁.frame (raise n f) = st₂.frame f
  extra : st₁.frame n = extra

/-- The frames among `w` exist and bind nothing that the extra frame binds. -/
def Leaves (extra : Frame) (w : Set Nat) (st : Store) : Prop :=
  ∀ f ∈ w, f < st.frames.size ∧ ∀ id, (extra.get? id).isSome → (st.frame f).get? id = none

variable {n : Nat} {extra : Frame} {st₁ st₂ st : Store} {s₁ s₂ : Scope} {w : Set Nat} {id : Nat}

/-- A new frame, put in front of everything, is an extra one. -/
theorem exceeds_opened (st : Store) (bindings : List (Param × Value)) :
    Exceeds st.frames.size (Frame.setAll [] bindings) (st.opened bindings) st where
  made := Nat.le_refl _
  size := st.size_opened bindings
  frames f := by
    rcases Nat.lt_or_ge f st.frames.size with h | h
    · rw [raise_of_lt h, frame_opened_of_ne (Nat.ne_of_lt h)]
    · rw [raise_of_le h, frame_of_size_le h, frame_of_size_le (by rw [size_opened]; omega)]
  extra := st.frame_opened_self bindings

namespace Exceeds

theorem raise_size (h : Exceeds n extra st₁ st₂) : raise n st₂.frames.size = st₁.frames.size :=
  (raise_of_le h.made).trans h.size.symm

theorem lt_size (h : Exceeds n extra st₁ st₂) {f : Nat} :
    raise n f < st₁.frames.size ↔ f < st₂.frames.size := by
  have := h.made
  rw [h.size]
  unfold raise
  split <;> omega

/-- Corresponding frames are written. -/
theorem write (h : Exceeds n extra st₁ st₂) (f id : Nat) (v : Value) :
    Exceeds n extra (st₁.write (raise n f) id v) (st₂.write f id v) where
  made := by
    rw [size_write]
    exact h.made
  size := by
    rw [size_write, size_write]
    exact h.size
  frames g := by
    by_cases hg : g = f
    · subst hg
      rcases Nat.lt_or_ge g st₂.frames.size with hlt | hge
      · rw [frame_write_self (h.lt_size.mpr hlt), frame_write_self hlt, h.frames]
      · have hge₁ := Nat.not_lt.mp fun hlt => Nat.not_lt.mpr hge (h.lt_size.mp hlt)
        rw [frame_of_size_le (by rwa [size_write]), frame_of_size_le (by rwa [size_write])]
    · rw [frame_write_of_ne fun heq => hg (raise_injective heq), frame_write_of_ne hg, h.frames]
  extra := by
    rw [frame_write_of_ne (Ne.symm (raise_ne n f))]
    exact h.extra

/-- Each side opens a frame with the same bindings. -/
theorem opened (h : Exceeds n extra st₁ st₂) (bindings : List (Param × Value)) :
    Exceeds n extra (st₁.opened bindings) (st₂.opened bindings) where
  made := by
    rw [size_opened]
    exact Nat.le_succ_of_le h.made
  size := by rw [size_opened, size_opened, h.size]
  frames f := by
    by_cases hf : f = st₂.frames.size
    · rw [hf, h.raise_size, frame_opened_self, frame_opened_self]
    · have hne : raise n f ≠ st₁.frames.size := fun heq =>
        hf (raise_injective (heq.trans h.raise_size.symm))
      rw [frame_opened_of_ne hne, frame_opened_of_ne hf, h.frames]
  extra := by
    have hne : n ≠ st₁.frames.size := by
      have := h.made
      have := h.size
      omega
    rw [frame_opened_of_ne hne]
    exact h.extra

/-! ### Variables that the extra frame does not decide -/

theorem find?_raise (h : Exceeds n extra st₁ st₂) (id : Nat) (links : List Link) :
    (links.map (Link.raise n)).find? (fun link => ((st₁.frame link.frame).get? id).isSome) =
      (links.find? fun link => ((st₂.frame link.frame).get? id).isSome).map (Link.raise n) := by
  rw [List.find?_map]
  refine congrArg (fun test => (links.find? test).map (Link.raise n)) ?_
  funext link
  exact congrArg (fun fr : Frame => (fr.get? id).isSome) (h.frames link.frame)

/-- A scope that does not see the extra frame finds corresponding frames. -/
theorem owner?_raise (h : Exceeds n extra st₁ st₂) (s : Scope) (id : Nat) :
    st₁.owner? (s.raise n) id = (st₂.owner? s id).map (raise n) := by
  rw [owner?, owner?, Scope.raise, h.find?_raise, Option.map_map, Option.map_map]
  rfl

/-- So does one that sees it, if it does not bind the variable. -/
theorem owner?_shows (h : Exceeds n extra st₁ st₂) (hs : s₁.Shows n w s₂)
    (hid : extra.get? id = none) : st₁.owner? s₁ id = (st₂.owner? s₂ id).map (raise n) := by
  obtain ⟨front, outer, h₂, h₁, -⟩ := hs
  have hskip : ((st₁.frame n).get? id).isSome = false := by rw [h.extra, hid]; rfl
  rw [owner?, owner?, h₁, h₂, List.find?_append, List.find?_append, List.find?_cons_of_neg (by simp [hskip]),
    h.find?_raise, h.find?_raise, ← Option.map_or, Option.map_map, Option.map_map]
  rfl

/-- Variables that are found in corresponding frames have the same value. -/
theorem lookup (h : Exceeds n extra st₁ st₂)
    (howner : st₁.owner? s₁ id = (st₂.owner? s₂ id).map (raise n)) :
    st₁.lookup s₁ id = st₂.lookup s₂ id := by
  rw [lookup_eq_owner?, lookup_eq_owner?, howner]
  cases st₂.owner? s₂ id with
  | none => rfl
  | some f => exact congrArg (fun fr : Frame => fr.get? id) (h.frames f)

/-- An assignment to a variable that is found in corresponding frames. -/
theorem assign (h : Exceeds n extra st₁ st₂)
    (howner : st₁.owner? s₁ id = (st₂.owner? s₂ id).map (raise n)) (v : Value) :
    (st₁.assign s₁ id v).1 = (st₂.assign s₂ id v).1 ∧
      Exceeds n extra (st₁.assign s₁ id v).2 (st₂.assign s₂ id v).2 := by
  rw [Store.assign, Store.assign, howner]
  cases st₂.owner? s₂ id with
  | none => exact ⟨rfl, h⟩
  | some f => exact ⟨rfl, h.write f id v⟩

end Exceeds

/-! ### Variables that the extra frame binds -/

namespace Leaves

theorem opened (h : Leaves extra w st) (bindings : List (Param × Value)) :
    Leaves extra w (st.opened bindings) := by
  intro f hf
  obtain ⟨hlt, hleaves⟩ := h f hf
  rw [size_opened, frame_opened_of_ne (Nat.ne_of_lt hlt)]
  exact ⟨Nat.lt_succ_of_lt hlt, hleaves⟩

/-- A new frame may join those in front of the extra one if it binds other variables. -/
theorem opened_insert (h : Leaves extra w st) {bindings : List (Param × Value)}
    (hbindings : ∀ b ∈ bindings, extra.get? b.1.id = none) :
    Leaves extra (insert st.frames.size w) (st.opened bindings) := by
  rintro f (rfl | hf)
  · rw [size_opened, frame_opened_self]
    refine ⟨Nat.lt_succ_self _, fun id hid => ?_⟩
    rw [Frame.get?_setAll_of_ne]
    · rfl
    · rintro b hb rfl
      rw [hbindings b hb] at hid
      cases hid
  · exact h.opened bindings f hf

/-- No assignment binds a variable in a frame that has been without it. -/
theorem assign (h : Leaves extra w st) (s : Scope) (id : Nat) (v : Value) :
    Leaves extra w (st.assign s id v).2 := by
  unfold Store.assign
  split
  next f howner =>
    intro g hg
    obtain ⟨hlt, hleaves⟩ := h g hg
    refine ⟨by rwa [size_write], fun id' hid' => ?_⟩
    by_cases hgf : g = f
    · subst hgf
      have hne : id' ≠ id := by
        rintro rfl
        have hbound := isSome_of_owner? howner
        rw [hleaves id' hid'] at hbound
        cases hbound
      rw [frame_write_self hlt, Frame.get?_set, if_neg hne]
      exact hleaves id' hid'
    · rw [frame_write_of_ne hgf]
      exact hleaves id' hid'
  next => exact h

/-- A scope that sees the extra frame finds its bindings there. -/
theorem lookup_extra (h : Leaves extra w st₂) (hst : Exceeds n extra st₁ st₂)
    (hs : s₁.Shows n w s₂) {v : Value} (hid : extra.get? id = some v) :
    st₁.lookup s₁ id = some v := by
  obtain ⟨front, outer, -, h₁, hfront⟩ := hs
  have hnone : (front.map (Link.raise n)).findSome? (fun link => (st₁.frame link.frame).get? id) =
      none := by
    rw [List.findSome?_map, List.findSome?_eq_none_iff]
    intro link hlink
    show (st₁.frame (raise n link.frame)).get? id = none
    rw [hst.frames]
    exact (h link.frame (hfront link hlink)).2 id (by rw [hid]; rfl)
  rw [lookup, h₁, List.findSome?_append, hnone, Option.none_or, List.findSome?_cons, hst.extra, hid]

end Leaves

end Store

end CodeTree
