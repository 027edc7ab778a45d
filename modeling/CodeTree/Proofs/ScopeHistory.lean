import CodeTree.Proofs.Interposition

/-!
# Scopes as a store

A `History` is a finite sequence of operations on a growing collection of scopes; `History.run`
carries it out. What it should lead to is read off the sequence alone, without a store:

* `History.chain` — a scope and the scopes around it;
* `History.nearest?` — the nearest of them that has declared a variable;
* `History.lastWritten?` — the value that was last written to a variable of one scope.

`Tracks` says that a run has the bindings and the chains that its history asks for. One step keeps
it (`Tracks.make`, `Tracks.declare`, `Tracks.assign`), so that it holds after every run (`tracks`).

Main statement: `scopes_form_a_store` — lookups, assignments and the exception being handled are what
the history says.
-/

namespace CodeTree

namespace Store

variable {s : Store}

/-- A write changes one variable of one frame. -/
theorem get?_write {f : Nat} (h : f < s.frames.size) (id : Nat) (v : Value) (t x : Nat) :
    ((s.write f id v).frame t).get? x = if t = f ∧ x = id then some v else (s.frame t).get? x := by
  by_cases ht : t = f
  · simp only [ht, frame_write_self h, Frame.get?_set, true_and]
  · rw [frame_write_of_ne ht, if_neg fun h => ht h.1]

theorem size_assign (scope : Scope) (id : Nat) (v : Value) :
    (s.assign scope id v).2.frames.size = s.frames.size := by
  unfold assign
  split
  · exact size_write _ _ _ _
  · rfl

/-- An assignment changes one variable of the frame that it goes to. -/
theorem get?_assign (scope : Scope) (id : Nat) (v : Value) (t x : Nat) :
    ((s.assign scope id v).2.frame t).get? x =
      if s.owner? scope id = some t ∧ x = id then some v else (s.frame t).get? x := by
  unfold assign
  split
  next f howner =>
    rw [get?_write (lt_size_of_isSome_get? (isSome_of_owner? howner)), howner]
    simp only [Option.some.injEq, eq_comm]
  next howner => simp [howner]

end Store

/-! ## Histories -/

/-- The ways in which a scope is made when there are `n` scopes, which are known by number. -/
inductive Making (n : Nat) where
  | root
  | child (parent : Fin n)
  | childHandling (parent : Fin n) (exception : Value)

/-- What has been done with scopes, of which there are `n`; the last step is the outermost. A new
scope has the next number. -/
inductive History : Nat → Type where
  | start : History 0
  | make {n : Nat} (past : History n) (how : Making n) : History (n + 1)
  | declare {n : Nat} (past : History n) (on : Fin n) (id : Nat) (v : Value) : History n
  | assign {n : Nat} (past : History n) (on : Fin n) (id : Nat) (v : Value) : History n

/-- The frames of all scopes, and the scopes by number. -/
structure Scopes (n : Nat) where
  store : Store
  scopes : Vector Scope n

namespace Making

variable {n : Nat}

/-- The scope around the new one. -/
def parent? : Making n → Option (Fin n)
  | .root => none
  | .child parent | .childHandling parent _ => some parent

/-- The exception that the new scope handles. -/
def handled? : Making n → Option Value
  | .childHandling _ exception => some exception
  | _ => none

/-- Makes the scope. -/
def run (s : Scopes n) : Making n → Scope × Store
  | .root => s.store.root
  | .child parent => s.store.child s.scopes[parent]
  | .childHandling parent exception => s.store.childHandling s.scopes[parent] exception

/-- A new scope is a new frame in front of those of its parent. -/
theorem run_eq (s : Scopes n) (how : Making n) :
    how.run s = s.store.push (how.parent?.elim [] fun p => s.scopes[p].links) how.handled? := by
  cases how <;> rfl

end Making

namespace History

variable {n : Nat}

/-- Carries out a history. -/
def run : {n : Nat} → History n → Scopes n
  | _, .start => ⟨.empty, #v[]⟩
  | _, .make past how =>
    let made := how.run past.run
    ⟨made.2, past.run.scopes.push made.1⟩
  | _, .declare past on id v =>
    ⟨past.run.store.declare past.run.scopes[on] id v, past.run.scopes⟩
  | _, .assign past on id v =>
    ⟨(past.run.store.assign past.run.scopes[on] id v).2, past.run.scopes⟩

/-- The bindings at the end of a history. -/
def store (h : History n) : Store := h.run.store

/-- The scope of a number. -/
def scope (h : History n) (s : Fin n) : Scope := h.run.scopes[s]

/-! ## What a history asks for -/

/-- A scope and the scopes around it, innermost first. -/
def chain : {n : Nat} → History n → Nat → List Nat
  | _, .start, _ => []
  | _, @make n past how, s =>
    if s = n then n :: how.parent?.elim [] fun p => past.chain p else past.chain s
  | _, .declare past _ _ _, s | _, .assign past _ _ _, s => past.chain s

/-- The exception that a scope was made to handle. -/
def handled? : {n : Nat} → History n → Nat → Option Value
  | _, .start, _ => none
  | _, @make n past how, s => if s = n then how.handled? else past.handled? s
  | _, .declare past _ _ _, s | _, .assign past _ _ _, s => past.handled? s

/-- Whether a scope has declared a variable. -/
def declares : {n : Nat} → History n → Nat → Nat → Bool
  | _, .start, _, _ => false
  | _, .declare past on id _, s, x => (s = on && x = id) || past.declares s x
  | _, .make past _, s, x | _, .assign past _ _ _, s, x => past.declares s x

/-- The nearest scope around (and with) a given one that has declared a variable. -/
def nearest? (h : History n) (s id : Nat) : Option Nat := (h.chain s).find? fun t => h.declares t id

/-- The value last written to a variable of one scope, by a declaration there or by an assignment
for which this was the nearest scope that had declared the variable. -/
def lastWritten? : {n : Nat} → History n → Nat → Nat → Option Value
  | _, .start, _, _ => none
  | _, .make past _, s, x => past.lastWritten? s x
  | _, .declare past on id v, s, x => if s = on ∧ x = id then some v else past.lastWritten? s x
  | _, .assign past on id v, s, x =>
    if past.nearest? on id = some s ∧ x = id then some v else past.lastWritten? s x

/-! ## Runs and histories -/

/-- Every scope on a chain has been made. -/
theorem lt_of_mem_chain : ∀ {n : Nat} (h : History n) {s t : Nat}, t ∈ h.chain s → t < n
  | _, .start, _, _, ht => nomatch ht
  | _, @make n past how, s, t, ht => by
    rw [chain] at ht
    split at ht
    · rcases List.mem_cons.mp ht with rfl | ht
      · exact Nat.lt_succ_self t
      · cases hp : how.parent? with
        | none => rw [hp] at ht; cases ht
        | some p => rw [hp] at ht; exact Nat.lt_succ_of_lt (lt_of_mem_chain past ht)
    · exact Nat.lt_succ_of_lt (lt_of_mem_chain past ht)
  | _, .declare past _ _ _, _, _, ht | _, .assign past _ _ _, _, _, ht => lt_of_mem_chain past ht

/-- A chain starts with the scope itself. -/
theorem chain_eq : ∀ {n : Nat} (h : History n) (s : Fin n), ∃ outer, h.chain s = s.val :: outer
  | _, .start, s => s.elim0
  | _, @make n past how, s => by
    rw [chain]
    split
    next hs => exact ⟨_, congrArg (· :: _) hs.symm⟩
    next hs =>
      exact past.chain_eq ⟨s, Nat.lt_of_le_of_ne (Nat.le_of_lt_succ s.isLt) hs⟩
  | _, .declare past _ _ _, s | _, .assign past _ _ _, s => past.chain_eq s

/-- The links that a scope has after a history. -/
def links (h : History n) (s : Nat) : List Link := (h.chain s).map fun t => ⟨t, h.handled? t⟩

/-- A new scope changes no chain of those that exist. -/
theorem links_make (past : History n) (how : Making n) {s : Nat} (hs : s ≠ n) :
    (past.make how).links s = past.links s := by
  rw [links, links, chain, if_neg hs]
  refine List.map_congr_left fun t ht => ?_
  rw [handled?, if_neg (Nat.ne_of_lt (past.lt_of_mem_chain ht))]

/-- The chain of a new scope goes on with that of its parent. -/
theorem links_make_self (past : History n) (how : Making n) :
    (past.make how).links n =
      ⟨n, how.handled?⟩ :: how.parent?.elim [] fun p => past.links p := by
  rw [links, chain, if_pos rfl, List.map_cons, handled?, if_pos rfl]
  cases how.parent? with
  | none => rfl
  | some p =>
    have hp := past.links_make how (Nat.ne_of_lt p.isLt)
    rw [links, chain, if_neg (Nat.ne_of_lt p.isLt)] at hp
    exact congrArg _ hp

/-- A run has the frames, the links and the bindings that its history asks for. -/
structure Tracks (h : History n) : Prop where
  size : h.store.frames.size = n
  links : ∀ s : Fin n, (h.scope s).links = h.links s
  bindings : ∀ t id, (h.store.frame t).get? id = h.lastWritten? t id
  declared : ∀ t id, (h.lastWritten? t id).isSome = h.declares t id

namespace Tracks

theorem start : Tracks .start where
  size := rfl
  links s := s.elim0
  bindings _ _ := rfl
  declared _ _ := rfl

/-- An assignment goes to the nearest scope that has declared the variable. -/
theorem owner?_eq {h : History n} (hh : h.Tracks) (s : Fin n) (id : Nat) :
    h.store.owner? (h.scope s) id = h.nearest? s id := by
  rw [Store.owner?, hh.links, History.links, List.find?_map, Option.map_map]
  simp only [Function.comp_def, hh.bindings, hh.declared]
  exact Option.map_id'

variable {past : History n}

theorem make (hp : past.Tracks) (how : Making n) : (past.make how).Tracks where
  size := by
    show (how.run past.run).2.frames.size = n + 1
    rw [Making.run_eq, Store.size_push]
    exact congrArg (· + 1) hp.size
  links s := by
    show ((past.run.scopes.push (how.run past.run).1)[s.val]).links = _
    rw [Vector.getElem_push]
    split
    next hs =>
      rw [past.links_make how (Nat.ne_of_lt hs)]
      exact hp.links ⟨s, hs⟩
    next hs =>
      have hself : s.val = n := Nat.le_antisymm (Nat.le_of_lt_succ s.isLt) (Nat.le_of_not_lt hs)
      rw [hself, past.links_make_self how, Making.run_eq]
      have hparent : (how.parent?.elim [] fun p => past.run.scopes[p].links) =
          how.parent?.elim [] fun p => past.links p := by
        cases how.parent? with
        | none => rfl
        | some p => exact hp.links p
      exact congr (congrArg (fun f => List.cons (Link.mk f how.handled?)) hp.size) hparent
  bindings t id := by
    show ((how.run past.run).2.frame t).get? id = _
    rw [Making.run_eq, Store.frame_push]
    exact hp.bindings t id
  declared := hp.declared

/-- A declaration writes to the scope's own frame. -/
theorem declare_eq (hp : past.Tracks) (on : Fin n) (id : Nat) (v : Value) :
    past.store.declare (past.scope on) id v = past.store.write on id v := by
  obtain ⟨rest, hrest⟩ := past.chain_eq on
  rw [Store.declare, hp.links, History.links, hrest]
  rfl

theorem declare (hp : past.Tracks) (on : Fin n) (id : Nat) (v : Value) :
    (past.declare on id v).Tracks where
  size := by
    show (past.store.declare (past.scope on) id v).frames.size = n
    rw [hp.declare_eq, Store.size_write, hp.size]
  links := hp.links
  bindings t x := by
    show ((past.store.declare (past.scope on) id v).frame t).get? x = _
    rw [hp.declare_eq, Store.get?_write (hp.size.symm ▸ on.isLt), lastWritten?, hp.bindings]
  declared t x := by
    rw [lastWritten?, declares, ← hp.declared]
    by_cases h : t = on ∧ x = id <;> simp [h]

theorem assign (hp : past.Tracks) (on : Fin n) (id : Nat) (v : Value) :
    (past.assign on id v).Tracks where
  size := by
    show (past.store.assign (past.scope on) id v).2.frames.size = n
    rw [Store.size_assign, hp.size]
  links := hp.links
  bindings t x := by
    show ((past.store.assign (past.scope on) id v).2.frame t).get? x = _
    rw [Store.get?_assign, hp.owner?_eq, lastWritten?, hp.bindings]
  declared t x := by
    rw [lastWritten?, declares, ← hp.declared]
    split
    next h =>
      -- the assignment finds only what has been declared
      obtain ⟨hnearest, rfl⟩ := h
      have hdeclares := List.find?_some hnearest
      rw [hp.declared]
      exact hdeclares.symm
    next => rfl

end Tracks

/-- Every run has what its history asks for: by induction on the history, a step at a time. -/
theorem tracks : ∀ {n : Nat} (h : History n), h.Tracks
  | _, .start => .start
  | _, .make past how => past.tracks.make how
  | _, .declare past on id v => past.tracks.declare on id v
  | _, .assign past on id v => past.tracks.assign on id v

/-! ## The law of the store -/

/-- A lookup gives the value last written to the nearest scope that has declared the variable. -/
theorem lookup_eq (h : History n) (s : Fin n) (id : Nat) :
    h.store.lookup (h.scope s) id = (h.nearest? s id).bind fun t => h.lastWritten? t id := by
  rw [Store.lookup_eq_owner?, h.tracks.owner?_eq]
  exact congrArg _ (funext fun t => h.tracks.bindings t id)

theorem isSome_lookup (h : History n) (s : Fin n) (id : Nat) :
    (h.store.lookup (h.scope s) id).isSome = (h.nearest? s id).isSome := by
  rw [h.lookup_eq]
  cases hnearest : h.nearest? s id with
  | none => rfl
  | some t =>
    have hdeclares := List.find?_some hnearest
    exact (h.tracks.declared t id).trans hdeclares

/-- What a lookup sees of an assignment. -/
theorem lookup_assign (h : History n) (s : Fin n) (id : Nat) (v : Value) (t : Fin n) (x : Nat) :
    (h.assign s id v).store.lookup (h.scope t) x =
      if (h.nearest? s id).isSome ∧ h.nearest? t id = h.nearest? s id ∧ x = id then some v
      else h.store.lookup (h.scope t) x := by
  show (h.store.assign (h.scope s) id v).2.lookup (h.scope t) x = _
  rw [← h.tracks.owner?_eq, ← h.tracks.owner?_eq]
  split
  next hshared =>
    obtain ⟨hsome, hsame, rfl⟩ := hshared
    obtain ⟨f, hf⟩ := Option.isSome_iff_exists.mp hsome
    rw [Store.lookup_eq_owner?, Store.owner?_assign, hsame, hf, Option.bind_some, Store.get?_assign,
      if_pos ⟨hf, rfl⟩]
  next hother =>
    by_cases hx : x = id
    · subst hx
      cases hs : h.store.owner? (h.scope s) x with
      | none => rw [Store.assign, hs]
      | some f =>
        refine Store.lookup_assign_of_owner?_ne (fun hsame => ?_) v
        exact hother ⟨by rw [hs]; rfl, hsame.symm, rfl⟩
    · exact Store.lookup_assign_of_ne hx _ v

/-- What is promised of the scopes at the end of a history. The frame of a number holds the bindings
of the scope of that number. -/
structure FormsStore (h : History n) : Prop where
  /-- A scope shares the bindings of the scopes around it. -/
  shares : ∀ s : Fin n, (h.scope s).links.map Link.frame = h.chain s
  /-- A lookup gives what was last written to the nearest scope that has declared the variable. -/
  lookup : ∀ (s : Fin n) (id : Nat),
    h.store.lookup (h.scope s) id = (h.nearest? s id).bind fun t => h.lastWritten? t id
  /-- It finds something if some scope on the chain has declared the variable, and only then. -/
  finds : ∀ (s : Fin n) (id : Nat),
    (h.store.lookup (h.scope s) id).isSome ↔ ∃ t ∈ h.chain s, h.declares t id
  /-- An assignment succeeds just if a lookup would find a binding. -/
  succeeds : ∀ (s : Fin n) (id : Nat) (v : Value),
    (h.store.assign (h.scope s) id v).1 = (h.store.lookup (h.scope s) id).isSome
  /-- It changes that binding and no other. -/
  changes : ∀ (s : Fin n) (id : Nat) (v : Value) (t x : Nat),
    ((h.assign s id v).store.frame t).get? x =
      if h.nearest? s id = some t ∧ x = id then some v else (h.store.frame t).get? x
  /-- The change is seen from the scopes that share the binding, and from no other. -/
  seen : ∀ (s : Fin n) (id : Nat) (v : Value) (t : Fin n) (x : Nat),
    (h.assign s id v).store.lookup ((h.assign s id v).scope t) x =
      if (h.nearest? s id).isSome ∧ h.nearest? t id = h.nearest? s id ∧ x = id then some v
      else h.store.lookup (h.scope t) x
  /-- An assignment that fails changes nothing. -/
  fails : ∀ (s : Fin n) (id : Nat) (v : Value),
    (h.store.assign (h.scope s) id v).1 = false → (h.assign s id v).run = h.run
  /-- The exception being handled is that of the nearest scope made to handle one. -/
  handles : ∀ s : Fin n, (h.scope s).currentException? = (h.chain s).findSome? h.handled?
  /-- Neither a declaration nor an assignment changes it. -/
  keeps : ∀ (s t : Fin n) (id : Nat) (v : Value),
    ((h.declare t id v).scope s).currentException? = (h.scope s).currentException? ∧
      ((h.assign t id v).scope s).currentException? = (h.scope s).currentException?

/-- Scopes are a correct store, whatever is done with them. -/
theorem scopes_form_a_store (h : History n) : h.FormsStore where
  shares s := by
    rw [h.tracks.links, links, List.map_map]
    exact List.map_id' _
  lookup := h.lookup_eq
  finds s id := by
    rw [h.isSome_lookup]
    exact List.find?_isSome
  succeeds s id v := by
    rw [h.isSome_lookup, ← h.tracks.owner?_eq, Store.assign]
    cases h.store.owner? (h.scope s) id <;> rfl
  changes s id v t x := by
    show ((h.store.assign (h.scope s) id v).2.frame t).get? x = _
    rw [Store.get?_assign, h.tracks.owner?_eq]
  seen := h.lookup_assign
  fails s id v hfails := by
    have hstore : (h.store.assign (h.scope s) id v).2 = h.store := by
      rw [Store.assign] at hfails ⊢
      cases howner : h.store.owner? (h.scope s) id with
      | none => rfl
      | some f =>
        rw [howner] at hfails
        cases hfails
    exact congrArg (Scopes.mk · h.run.scopes) hstore
  handles s := by
    rw [Scope.currentException?, h.tracks.links, links, List.findSome?_map]
    rfl
  keeps _ _ _ _ := ⟨rfl, rfl⟩

/-- A declaration in the scope between two others hides the outer binding from the inner scope, whose
assignments go to the new binding from then on. -/
example (a b c : Value) :
    let before := start.make .root |>.declare 0 7 a |>.make (.child 0) |>.make (.child 1)
    let after := before.declare 1 7 b |>.assign 2 7 c
    before.store.lookup (before.scope 2) 7 = some a ∧
      after.store.lookup (after.scope 2) 7 = some c ∧ after.lastWritten? 0 7 = some a :=
  ⟨by cbv, by cbv, by cbv⟩

end History
end CodeTree
