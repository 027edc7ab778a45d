import CodeTree.Scope

/-!
# Reading and writing the frames of a store

Each operation of a store, seen through `Store.frame`: a new frame is empty and changes no
other (`frame_push`), a write changes one variable of one frame (`frame_write`), and a lookup
or an assignment goes to the frame that `owner?` finds (`lookup_eq_owner?`).
-/

namespace CodeTree

namespace Frame

theorem isSome_get?_set {fr : Frame} {id other : Nat} {v : Value}
    (h : (fr.get? other).isSome) : ((fr.set id v).get? other).isSome := by
  rw [get?_set]
  split
  · rfl
  · exact h

end Frame

namespace Store

/-- A frame that was never made reads like an empty one, so making it changes no frame. -/
theorem frame_push (s : Store) (links : List Link) (handling : Option Value) (n : Nat) :
    (s.push links handling).2.frame n = s.frame n := by
  show (s.frames.push []).getD n [] = s.frames.getD n []
  rw [Array.getD_eq_getD_getElem?, Array.getD_eq_getD_getElem?, Array.getElem?_push]
  split
  · next h =>
    rw [h, Array.getElem?_eq_none (Nat.le_refl _)]
    rfl
  · rfl

theorem size_push (s : Store) (links : List Link) (handling : Option Value) :
    (s.push links handling).2.frames.size = s.frames.size + 1 :=
  Array.size_push _

theorem size_write (s : Store) (f id : Nat) (v : Value) :
    (s.write f id v).frames.size = s.frames.size :=
  Array.size_modify

theorem frame_of_size_le {s : Store} {n : Nat} (h : s.frames.size ≤ n) : s.frame n = [] := by
  rw [frame, Array.getD_eq_getD_getElem?, Array.getElem?_eq_none h]
  rfl

/-- A frame that binds something has been made. -/
theorem lt_size_of_isSome_get? {s : Store} {n id : Nat} (h : ((s.frame n).get? id).isSome) :
    n < s.frames.size := by
  rcases Nat.lt_or_ge n s.frames.size with hlt | hge
  · exact hlt
  · rw [frame_of_size_le hge] at h
    exact absurd h (by simp [Frame.get?])

theorem frame_write_self {s : Store} {f : Nat} (h : f < s.frames.size) (id : Nat) (v : Value) :
    (s.write f id v).frame f = (s.frame f).set id v := by
  show (s.frames.modify f fun fr => fr.set id v).getD f [] = (s.frames.getD f []).set id v
  rw [Array.getD_eq_getD_getElem?, Array.getElem?_modify, if_pos rfl,
    Array.getD_eq_getD_getElem?, Array.getElem?_eq_getElem h]
  rfl

theorem frame_write_of_ne {s : Store} {f g : Nat} (h : g ≠ f) (id : Nat) (v : Value) :
    (s.write f id v).frame g = s.frame g := by
  show (s.frames.modify f fun fr => fr.set id v).getD g [] = s.frames.getD g []
  rw [Array.getD_eq_getD_getElem?, Array.getElem?_modify, if_neg (Ne.symm h),
    Array.getD_eq_getD_getElem?]

/-- A store is its number of frames and what they bind. -/
theorem ext_frame {s t : Store} (hsize : s.frames.size = t.frames.size)
    (h : ∀ n, s.frame n = t.frame n) : s = t := by
  obtain ⟨fs⟩ := s
  obtain ⟨gs⟩ := t
  congr 1
  refine Array.ext hsize fun n hn hn' => ?_
  have hframe := h n
  rw [frame, frame, Array.getD_eq_getD_getElem?, Array.getD_eq_getD_getElem?,
    Array.getElem?_eq_getElem hn, Array.getElem?_eq_getElem hn'] at hframe
  exact hframe

/-- The frame that an assignment goes to binds the variable. -/
theorem isSome_of_owner? {s : Store} {scope : Scope} {id f : Nat}
    (h : s.owner? scope id = some f) : ((s.frame f).get? id).isSome := by
  obtain ⟨link, hfind, rfl⟩ := Option.map_eq_some_iff.mp h
  have hbinds := List.find?_some hfind
  exact hbinds

/-- A lookup reads the frame that an assignment would write. -/
theorem lookup_eq_owner? (s : Store) (scope : Scope) (id : Nat) :
    s.lookup scope id = (s.owner? scope id).bind fun f => (s.frame f).get? id := by
  unfold lookup owner?
  induction scope.links with
  | nil => rfl
  | cons link rest ih =>
    rw [List.findSome?_cons, List.find?_cons]
    cases h : (s.frame link.frame).get? id with
    | none => simpa using ih
    | some v => simp [h]

end Store

end CodeTree
