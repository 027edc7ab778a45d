import CodeTree.Proofs.Abstention
import CodeTree.Proofs.Chronicle
import CodeTree.Proofs.Description

/-!
# Folded calls are executed once

Normalization evaluates a closed call and puts what it gives in its place. How often the call is
executed is read off the record of what was asked (`inquiries`). The count goes along with the
places at which the call stands in the tree: a step of normalization tries the call at most once for
each place in the node, and for each place either the call is replaced there or the place is still
in the result. When it is replaced as often as it stands in the tree, there is no place left, and no
try has failed.

That the other inquiries do not execute it needs that none of them comes to it: it is under no other
call that is evaluated, in no tree that an answer puts in, and in no closure of the machine. Without
one of these it may be executed more often (`tallied_executed_twice`); in particular a call around
it that fails has executed its arguments and is kept, and they are normalized after that.

* `Pays` — what a recorded action has executed and what it has left, with one rule for each step;
* `Pays.analyse` — normalization, by induction on the tree;
* `folded_call_executed_once` — the payoff.
-/

namespace CodeTree

variable {σ : Type}

/-! ## Places of a node -/

namespace Expr

/-- At how many places of the tree a node with the identity stands. -/
def places (id : Nat) (e : Expr) : Nat := e.nodes.countP (·.id == id)

/-- At how many places of the trees it stands. -/
def placesIn (id : Nat) (es : List Expr) : Nat := (es.flatMap nodes).countP (·.id == id)

variable {id : Nat} {e r : Expr} {es : List Expr}

theorem places_eq (id : Nat) (e : Expr) :
    e.places id = (if e.id = id then 1 else 0) + placesIn id e.children := by
  rw [places, nodes_eq, List.countP_cons, Nat.add_comm]
  simp only [beq_iff_eq, placesIn]

@[simp] theorem placesIn_nil (id : Nat) : placesIn id [] = 0 := rfl

@[simp] theorem placesIn_cons (id : Nat) (e : Expr) (es : List Expr) :
    placesIn id (e :: es) = e.places id + placesIn id es := by
  simp [placesIn, places]

@[simp] theorem placesIn_append (id : Nat) (es fs : List Expr) :
    placesIn id (es ++ fs) = placesIn id es + placesIn id fs := by
  simp [placesIn]

theorem places_le_of_child {a : Expr} (ha : a ∈ e.children) : a.places id ≤ e.places id := by
  obtain ⟨before, after, hchildren⟩ := List.append_of_mem ha
  rw [places_eq id e, hchildren, placesIn_append, placesIn_cons]
  omega

theorem lacks_iff_places : e.Lacks id ↔ e.places id = 0 := by
  simp [Lacks, places, List.countP_eq_zero]

theorem depth_le_of_mem_nodes {e n : Expr} (h : n ∈ e.nodes) : n.depth ≤ e.depth := by
  induction e using Expr.induction with
  | step e ih =>
    rcases mem_nodes.mp h with rfl | ⟨a, ha, hn⟩
    · exact Nat.le_refl _
    · exact Nat.le_trans (ih a ha hn) (Nat.le_of_lt (depth_lt_of_child ha))

end Expr

/-- A node that exists is not one of those under it. -/
theorem Coherent.children_lack {S : Set Expr} {next : Nat} (h : Coherent S next) {c : Expr}
    (hc : c ∈ S) : ∀ a ∈ c.children, a.Lacks c.id := by
  intro a ha n hn hid
  have hmem := h.nodes_mem a (h.children c hc a ha) n hn
  obtain rfl := h.unique n hmem c hc hid
  have h₁ := Expr.depth_le_of_mem_nodes hn
  have h₂ := Expr.depth_lt_of_child ha
  omega

/-! ## Inquiries about a call -/

namespace Inquiry

/-- The inquiry evaluates the node with the identity. -/
def tries (id : Nat) : Inquiry σ → Bool
  | .fold call _ _ _ => call.id == id
  | .read .. => false

/-- The inquiry evaluates the node with the identity, and its result takes its place. -/
def replaces (id : Nat) : Inquiry σ → Bool
  | .fold call _ (.ok _) _ => call.id == id
  | _ => false

theorem tries_of_replaces {id : Nat} {q : Inquiry σ} (h : q.replaces id) : q.tries id := by
  cases q with
  | fold call _ answer _ =>
    cases answer with
    | ok v => exact h
    | error _ => cases h
  | read _ _ _ _ _ => cases h

theorem countP_replaces_le (id : Nat) (record : List (Inquiry σ)) :
    record.countP (·.replaces id) ≤ record.countP (·.tries id) :=
  List.countP_mono_left fun _ _ => tries_of_replaces

/-- When there are no more tries than replacements, each try replaces. -/
theorem replaces_of_countP_le {id : Nat} {record : List (Inquiry σ)}
    (h : record.countP (·.tries id) ≤ record.countP (·.replaces id)) :
    ∀ q ∈ record, q.tries id → q.replaces id := by
  have hboth : (fun q : Inquiry σ => q.replaces id && q.tries id) = (·.replaces id) := by
    funext q
    cases hq : q.replaces id with
    | false => rfl
    | true => exact tries_of_replaces hq
  have hcount : (record.filter (·.tries id)).countP (·.replaces id) =
      (record.filter (·.tries id)).length := by
    refine Nat.le_antisymm List.countP_le_length ?_
    rwa [List.countP_filter, hboth, ← List.countP_eq_length_filter]
  exact fun q hq htry => List.countP_eq_length.mp hcount q (List.mem_filter.mpr ⟨hq, htry⟩)

/-- The tree that the answer puts in. -/
def spliced? : Inquiry σ → Option Expr
  | .fold _ _ (.ok v) _ => v.asNode?
  | .read _ _ _ (.ok v) _ => v.asNode?
  | _ => none

/-- The inquiry is answered without coming to the node. -/
def Spares (H : Host σ) (fuel id : Nat) : Inquiry σ → Prop
  | .fold call before answer after =>
    evaluateAloneBy H (engineWhile H (.sparing id) fuel) call before = some (answer, after)
  | .read self name before answer after =>
    Step.play (applyWhile H (.sparing id) fuel) (H.readMember self name) before =
      some (answer, after)

/-- The inquiry executes the call once, and gives its value. -/
def Executes (H : Host σ) (fuel : Nat) (c : Expr) : Inquiry σ → Prop
  | .fold call before (.ok v) after => call = c ∧ ExecutedOnce H fuel c before v after
  | _ => False

/-- What is asked of an inquiry for the sake of the call `c` among the nodes `S`: no other call that
is evaluated has it in it, and neither has a tree that is put in, which is told from the nodes of
`S` by its identity. -/
structure Apart (S : Set Expr) (c : Expr) (q : Inquiry σ) : Prop where
  calls : ∀ call before answer after, q = .fold call before answer after →
    call.id = c.id ∨ call.Lacks c.id
  spliced : ∀ tree ∈ q.spliced?, tree.Lacks c.id ∧ ∀ n ∈ S, tree.id = n.id → tree = n

end Inquiry

/-! ## What normalization pays -/

/-- A tree that is told from the nodes of `S` by its identity. -/
def Expr.ToldFrom (S : Set Expr) (r : Expr) : Prop := ∀ n ∈ S, r.id = n.id → r = n

/-- Trees that have the identities of nodes are these nodes. -/
theorem Expr.eq_of_toldFrom {S : Set Expr} : ∀ {rs ns : List Expr}, (∀ r ∈ rs, r.ToldFrom S) →
    (∀ n ∈ ns, n ∈ S) → rs.map Expr.id = ns.map Expr.id → rs = ns
  | [], [], _, _, _ => rfl
  | r :: rs, n :: ns, hrs, hns, hids => by
    obtain ⟨hid, hids⟩ := List.cons_eq_cons.mp hids
    rw [List.forall_mem_cons] at hrs hns
    rw [hrs.1 n hns.1 hid, eq_of_toldFrom hrs.2 hns.2 hids]

section Pays

variable (H : Host σ) (fuel : Nat) (S : Set Expr) (c : Expr)

/-- A machine on which the call has not got into a closure, and which hands out new identities. -/
structure Machine.Ready (m : Machine σ) : Prop where
  lacks : m.Lacks c.id
  fresh : ∀ n ∈ S, n.id < m.next

/-- What an inquiry has to do with the call. -/
structure Inquiry.Accounted (q : Inquiry σ) : Prop where
  executes : q.replaces c.id → q.Executes H fuel c
  spares : q.tries c.id = false → q.Spares H fuel c.id

/-- How a recorded action has ended: the call is executed by its own inquiries only, it is tried at
most `t` times, and the times that it is replaced and the weight of the result come to `k` at
most. -/
structure Paid {α : Type} (t k : Nat) (w : α → Nat) (Q : α → Prop) (a : α)
    (record : List (Inquiry σ)) (m' : Machine σ) : Prop where
  ready : Machine.Ready S c m'
  accounted : ∀ q ∈ record, q.Accounted H fuel c
  result : Q a
  tries : record.countP (·.tries c.id) ≤ t
  replaces : record.countP (·.replaces c.id) + w a ≤ k

/-- A recorded action that pays for the places of the call, when its inquiries are apart from it. -/
def Pays {α : Type} (t k : Nat) (w : α → Nat) (Q : α → Prop) (x : Chronicle σ α) : Prop :=
  ∀ m a record m', x.run m = some ((a, record), m') → Machine.Ready S c m →
    (∀ q ∈ record, q.Apart S c) → Paid H fuel S c t k w Q a record m'

/-- Actions that give a tree told from the nodes of `S`, weighed by the places of the call in it. -/
abbrev PaysTree (t k : Nat) (x : Chronicle σ Expr) : Prop :=
  Pays H fuel S c t k (Expr.places c.id) (Expr.ToldFrom S) x

end Pays

namespace Pays

variable {H : Host σ} {fuel : Nat} {S : Set Expr} {c : Expr} {α β ν : Type} {t u k j : Nat}
  {w : α → Nat} {Q : α → Prop} {w' : β → Nat} {Q' : β → Prop}

theorem mono {x : Chronicle σ α} (h : Pays H fuel S c t k w Q x) (ht : t ≤ u) (hk : k ≤ j) :
    Pays H fuel S c u j w Q x := by
  intro m a record m' hrun hm hrecord
  obtain ⟨hready, haccounted, hresult, htries, hreplaces⟩ := h m a record m' hrun hm hrecord
  exact ⟨hready, haccounted, hresult, Nat.le_trans htries ht, Nat.le_trans hreplaces hk⟩

theorem pure {a : α} (ha : Q a) (hk : w a ≤ k) : Pays H fuel S c t k w Q (Pure.pure a) := by
  intro m b record m' hrun hm hrecord
  cases hrun
  refine ⟨hm, fun q hq => absurd hq List.not_mem_nil, ha, Nat.zero_le t, ?_⟩
  exact Nat.le_trans (Nat.le_of_eq (Nat.zero_add _)) hk

/-- What the first action has not used, the second one may use. -/
theorem bind {x : Chronicle σ α} {f : α → Chronicle σ β} (h : Pays H fuel S c t k w Q x)
    (hf : ∀ a, Q a → Pays H fuel S c u (w a + j) w' Q' (f a)) :
    Pays H fuel S c (t + u) (k + j) w' Q' (x >>= f) := by
  intro m b record m' hrun hm hrecord
  obtain ⟨⟨⟨a, first⟩, m₁⟩, hx, hrest⟩ := Option.bind_eq_some_iff.mp hrun
  obtain ⟨⟨⟨b', second⟩, m₂⟩, hfa, heq⟩ := Option.bind_eq_some_iff.mp hrest
  cases heq
  simp only [List.forall_mem_append] at hrecord
  obtain ⟨hready, haccounted, hresult, htries, hreplaces⟩ := h m a first m₁ hx hm hrecord.1
  obtain ⟨hready', haccounted', hresult', htries', hreplaces'⟩ :=
    hf a hresult m₁ b second m' hfa hready hrecord.2
  refine ⟨hready', List.forall_mem_append.mpr ⟨haccounted, haccounted'⟩, hresult', ?_, ?_⟩
  · simp only [List.countP_append]
    omega
  · simp only [List.countP_append]
    omega

/-- The second action uses what the first one has left in its result. -/
theorem bind_rest {x : Chronicle σ α} {f : α → Chronicle σ β} (h : Pays H fuel S c t k w Q x)
    (hf : ∀ a, Q a → Pays H fuel S c 0 (w a) w' Q' (f a)) :
    Pays H fuel S c t k w' Q' (x >>= f) :=
  bind (u := 0) (j := 0) h hf

/-- After an action that costs nothing, everything is left. -/
theorem bind_free {x : Chronicle σ α} {f : α → Chronicle σ β} (h : Pays H fuel S c 0 0 w Q x)
    (hf : ∀ a, Q a → w a = 0 → Pays H fuel S c t k w' Q' (f a)) :
    Pays H fuel S c t k w' Q' (x >>= f) := by
  have hfree : Pays H fuel S c 0 0 w (fun a => Q a ∧ w a = 0) x := by
    intro m a record m' hrun hm hrecord
    obtain ⟨hready, haccounted, hresult, htries, hreplaces⟩ := h m a record m' hrun hm hrecord
    exact ⟨hready, haccounted, ⟨hresult, by omega⟩, htries, hreplaces⟩
  refine (bind (u := t) (j := k) hfree fun a ⟨ha, hw⟩ => ?_).mono (by omega) (by omega)
  exact (hf a ha hw).mono (Nat.le_refl t) (by omega)

/-- An action whose result is looked at through a function. -/
theorem of_map {x : Chronicle σ α} {f : α → β} (h : Pays H fuel S c t k w' Q' (f <$> x)) :
    Pays H fuel S c t k (fun a => w' (f a)) (fun a => Q' (f a)) x := by
  intro m a record m' hrun hm hrecord
  have hmapped : (f <$> x).run m = some ((f a, record), m') := by
    show (x.run m).bind _ = _
    rw [hrun]
    rfl
  obtain ⟨hready, haccounted, hresult, htries, hreplaces⟩ := h m (f a) record m' hmapped hm hrecord
  exact ⟨hready, haccounted, hresult, htries, hreplaces⟩

/-! ### Traversals -/

section Traversals

variable {f : Expr → Chronicle σ Expr}

theorem mapM_list : ∀ {es : List Expr},
    (∀ a ∈ es, PaysTree H fuel S c (a.places c.id) (a.places c.id) (f a)) →
    Pays H fuel S c (Expr.placesIn c.id es) (Expr.placesIn c.id es) (Expr.placesIn c.id)
      (fun rs => ∀ r ∈ rs, r.ToldFrom S) (es.mapM f)
  | [], _ => by
    rw [List.mapM_nil]
    exact pure (fun r hr => nomatch hr) (Nat.le_refl _)
  | e :: es, h => by
    rw [List.mapM_cons, Expr.placesIn_cons]
    rw [List.forall_mem_cons] at h
    refine bind h.1 fun r hr => ?_
    rw [← Nat.add_zero (Expr.placesIn c.id es), Nat.add_comm (r.places c.id)]
    refine bind (mapM_list h.2) fun rs hrs => ?_
    refine pure (List.forall_mem_cons.mpr ⟨hr, hrs⟩) ?_
    rw [Expr.placesIn_cons]
    omega

theorem mapM_option {o : Option Expr}
    (h : ∀ a ∈ o.toList, PaysTree H fuel S c (a.places c.id) (a.places c.id) (f a)) :
    Pays H fuel S c (Expr.placesIn c.id o.toList) (Expr.placesIn c.id o.toList)
      (fun o => Expr.placesIn c.id o.toList) (fun o => ∀ r ∈ o.toList, r.ToldFrom S) (o.mapM f) :=
  of_map (f := Option.toList) (toList_mapM f o ▸ mapM_list h)

theorem mapM {s : Shape ν Expr}
    (h : ∀ a ∈ s.children, PaysTree H fuel S c (a.places c.id) (a.places c.id) (f a)) :
    Pays H fuel S c (Expr.placesIn c.id s.children) (Expr.placesIn c.id s.children)
      (fun layer : Shape ν Expr => Expr.placesIn c.id layer.children)
      (fun layer => ∀ r ∈ layer.children, r.ToldFrom S) (s.mapM f) :=
  of_map (f := Shape.children) (Shape.children_mapM f s ▸ mapM_list h)

end Traversals

/-! ### Making nodes -/

/-- A new node. -/
theorem make (hc : c ∈ S) {s : Shape Value Expr} (hk : Expr.placesIn c.id s.children ≤ k)
    (ty : Ty) : PaysTree H fuel S c t k (.quiet (Step.make (Expr.make s ty))) := by
  intro m r record m' hrun hm hrecord
  cases hrun
  refine ⟨⟨hm.lacks, fun n hn => Nat.lt_succ_of_lt (hm.fresh n hn)⟩, ?_, ?_, Nat.zero_le t, ?_⟩
  · exact fun q hq => absurd hq List.not_mem_nil
  · intro n hn hid
    exact absurd hid (Nat.ne_of_gt (hm.fresh n hn))
  · have hid : (Expr.mk m.next s ty).id ≠ c.id := Nat.ne_of_gt (hm.fresh c hc)
    rw [List.countP_nil, Nat.zero_add, Expr.places_eq, if_neg hid, Nat.zero_add]
    exact hk

theorem upcast (hc : c ∈ S) {r : Expr} (hr : r.ToldFrom S) (hk : r.places c.id ≤ k) (ty : Ty) :
    PaysTree H fuel S c t k (.quiet (Step.make (r.upcast ty))) := by
  unfold Expr.upcast
  split
  · show PaysTree H fuel S c t k (.quiet (Pure.pure r))
    rw [Chronicle.quiet_pure]
    exact pure hr hk
  · refine make hc ?_ ty
    simpa [Shape.children] using hk

theorem settledCall (hc : c ∈ S) {receiver : Option Expr}
    (hreceiver : ∀ r ∈ receiver.toList, r.ToldFrom S) (method : Method) {args : List Expr}
    (hk : Expr.placesIn c.id receiver.toList + Expr.placesIn c.id args ≤ k) :
    PaysTree H fuel S c t k (.quiet (Step.make (Expr.settledCall receiver method args))) := by
  unfold Expr.settledCall
  split
  · refine make hc ?_ method.ret
    simp only [Shape.children, Option.toList_none, List.nil_append]
    omega
  · cases receiver with
    | none =>
      refine make hc ?_ method.ret
      simpa [Shape.children] using hk
    | some r =>
      -- the receiver is converted, and then the call is made
      have hr : PaysTree H fuel S c 0 (r.places c.id)
          (.quiet (Step.make (r.upcast method.declaring))) :=
        upcast hc (hreceiver r List.mem_cons_self) (Nat.le_refl _) method.declaring
      have hboth : PaysTree H fuel S c (0 + t) (r.places c.id + Expr.placesIn c.id args)
          (.quiet (Step.make (r.upcast method.declaring) >>= fun r =>
            Step.make (Expr.call (some r) method args))) := by
        rw [Chronicle.quiet_bind]
        refine bind hr fun r' _ => make hc ?_ method.ret
        simp [Shape.children]
      refine hboth.mono (by omega) ?_
      simpa using hk

/-- A node with its new children: itself, or a new one. -/
theorem withLayer {next : Nat} (hS : Coherent S next) (hc : c ∈ S) {n : Expr} (hn : n ∈ S)
    {layer : Shape Value Expr} (hlayer : ∀ r ∈ layer.children, r.ToldFrom S)
    (hk : (if n.id = c.id then 1 else 0) + Expr.placesIn c.id layer.children ≤ k) :
    PaysTree H fuel S c t k (.quiet (Step.make (n.withLayer layer))) := by
  unfold Expr.withLayer
  split
  next hsame =>
    have hchildren : layer.children = n.children :=
      Expr.eq_of_toldFrom hlayer (hS.children n hn) (beq_iff_eq.mp hsame)
    show PaysTree H fuel S c t k (.quiet (Pure.pure n))
    rw [Chronicle.quiet_pure]
    refine pure (hS.unique n hn) ?_
    rw [Expr.places_eq, ← hchildren]
    exact hk
  next => exact make hc (by omega) n.ty

/-! ### Inquiries -/

/-- An answer puts no place of the call in. -/
def Clean (S : Set Expr) (c : Expr) {ε : Type} (answer : Except ε Value) : Prop :=
  ∀ tree, answer = .ok (.node tree) → tree.places c.id = 0 ∧ tree.ToldFrom S

theorem clean_of_apart {q : Inquiry σ} (h : q.Apart S c) {ε : Type} {answer : Except ε Value}
    (hq : ∀ tree, answer = .ok (.node tree) → q.spliced? = some tree) : Clean S c answer := by
  intro tree htree
  obtain ⟨hlacks, htold⟩ := h.spliced tree (hq tree htree)
  exact ⟨Expr.lacks_iff_places.mp hlacks, htold⟩

/-- A closed call is evaluated. If it is the call itself, that is one try, and its place is left
over when the call is not replaced. -/
theorem fold {next : Nat} (hS : Coherent S next) (hc : c ∈ S) {n : Expr} (hn : n ∈ S)
    {receiver : Option Expr} {method : Method} {args : List Expr}
    (hshape : n.shape = .call receiver method args) (hclosed : n.isClosed) :
    Pays H fuel S c (if n.id = c.id then 1 else 0) (if n.id = c.id then 1 else 0)
      (fun answer => if answer.isOk then 0 else if n.id = c.id then 1 else 0) (Clean S c)
      (Chronicle.asked (.fold n) (evaluateAlone H fuel n)) := by
  intro m answer record m' hrun hm hrecord
  obtain ⟨hx, rfl⟩ := Chronicle.asked_run hrun
  have hapart := hrecord _ List.mem_cons_self
  have hfree : n.freeParameters = [] := by
    rw [Expr.isClosed, Bool.and_eq_true] at hclosed
    exact List.isEmpty_iff.mp hclosed.1
  have hfresh : ∀ n ∈ S, n.id < m'.next := fun n hn =>
    Nat.lt_of_lt_of_le (hm.fresh n hn) (next_le_of_evaluateAlone hx)
  have hclean : Clean S c answer := by
    refine clean_of_apart hapart fun tree htree => ?_
    rw [htree]
    rfl
  by_cases hid : n.id = c.id
  · -- the call itself
    obtain rfl := hS.unique n hn c hc hid
    have hlack := hS.children_lack hc
    have hready : m'.Lacks n.id := hm.lacks.evaluateAlone_self hlack hfree hx
    refine ⟨⟨hready, hfresh⟩, List.forall_mem_singleton.mpr ⟨?_, ?_⟩, hclean, ?_, ?_⟩
    · intro hreplaces
      cases answer with
      | error _ => cases hreplaces
      | ok v => exact ⟨rfl, executedOnce_of_lacks hm.lacks hlack hshape hfree hx⟩
    · intro htries
      simp [Inquiry.tries] at htries
    · simp [Inquiry.tries]
    · cases answer with
      | error _ => simp [Inquiry.replaces, Except.isOk, Except.toBool]
      | ok v => simp [Inquiry.replaces, Except.isOk, Except.toBool]
  · -- another call, which does not have the call in it
    have hn' : n.Lacks c.id := (hapart.calls _ _ _ _ rfl).resolve_left hid
    obtain ⟨heq, hready⟩ := hm.lacks.evaluateAlone hn' hfree H fuel
    have htries : (n.id == c.id) = false := beq_eq_false_iff_ne.mpr hid
    refine ⟨⟨hready _ _ hx, hfresh⟩, List.forall_mem_singleton.mpr ⟨?_, fun _ => heq.trans hx⟩,
      hclean, ?_, ?_⟩
    · intro hreplaces
      cases answer with
      | error _ => cases hreplaces
      | ok v => exact absurd (beq_iff_eq.mp hreplaces) hid
    · simp [Inquiry.tries, htries]
    · cases answer with
      | error _ => simp [Inquiry.replaces, hid]
      | ok v => simp [Inquiry.replaces, Except.isOk, Except.toBool, htries]

/-- A member is read. -/
theorem read (self : Value) (name : String) :
    Pays H fuel S c 0 0 (fun _ => 0) (Clean S c)
      (Chronicle.asked (.read self name)
        (Step.play (apply H fuel) (H.readMember self name))) := by
  intro m reply record m' hrun hm hrecord
  obtain ⟨hx, rfl⟩ := Chronicle.asked_run hrun
  obtain ⟨heq, hready⟩ := hm.lacks.play H fuel (H.readMember self name)
  have hfresh : ∀ n ∈ S, n.id < m'.next := fun n hn =>
    Nat.lt_of_lt_of_le (hm.fresh n hn) (next_le_of_play hx)
  refine ⟨⟨hready _ _ hx, hfresh⟩, List.forall_mem_singleton.mpr ⟨?_, fun _ => heq.trans hx⟩,
    ?_, ?_, ?_⟩
  · intro hreplaces
    cases hreplaces
  · refine clean_of_apart (hrecord _ List.mem_cons_self) fun tree htree => ?_
    rw [htree]
    rfl
  · simp [Inquiry.tries]
  · simp [Inquiry.replaces]

/-! ### Normalization -/

/-- A call that is evaluated gives way to a tree without the call, or keeps its place. -/
theorem foldCall {next : Nat} (hS : Coherent S next) (hc : c ∈ S) {n : Expr} (hn : n ∈ S)
    {receiver : Option Expr} {method : Method} {args : List Expr}
    (hshape : n.shape = .call receiver method args) (hclosed : n.isClosed) :
    Pays H fuel S c (if n.id = c.id then 1 else 0) (if n.id = c.id then 1 else 0)
      (fun o => (o.map (Expr.places c.id)).getD (if n.id = c.id then 1 else 0))
      (fun o => ∀ r ∈ o, r.ToldFrom S) (Recorded.foldCall H fuel n) := by
  have hnew : ∀ (s : Shape Value Expr) ty, s.children = [] → Pays H fuel S c 0 0
      (fun o => (o.map (Expr.places c.id)).getD (if n.id = c.id then 1 else 0))
      (fun o => ∀ r ∈ o, r.ToldFrom S) (do
        let e ← .quiet (Step.make (Expr.make s ty))
        Pure.pure (some e)) := by
    intro s ty hs
    have hmake : PaysTree H fuel S c 0 0 (.quiet (Step.make (Expr.make s ty))) :=
      make hc (by simp [hs]) ty
    refine bind_free hmake fun r hr hplaces => pure ?_ (Nat.le_of_eq hplaces)
    rintro _ ⟨⟩
    exact hr
  refine bind_rest (fold hS hc hn hshape hclosed) fun answer hanswer => ?_
  cases answer with
  | error _ => exact pure (fun _ h => nomatch h) (Nat.le_refl _)
  | ok v =>
    cases v with
    | node tree =>
      obtain ⟨hplaces, htold⟩ := hanswer tree rfl
      refine pure ?_ (Nat.le_of_eq hplaces)
      rintro _ ⟨⟩
      exact htold
    | void => exact hnew .empty .void rfl
    | _ => exact hnew (.constant _) n.ty rfl

/-- A conversion pays for its operand, or as the node that is kept. -/
theorem unwrapConversion (hc : c ∈ S) {n operand : Expr} {x y : Chronicle σ Expr}
    (hx : PaysTree H fuel S c t k x) (hy : PaysTree H fuel S c t k y) :
    PaysTree H fuel S c t k (Recorded.unwrapConversion n operand x y) := by
  unfold Recorded.unwrapConversion
  split
  · refine bind_rest hx fun u hu => ?_
    split
    · exact pure hu (Nat.le_refl (u.places c.id))
    · exact upcast hc hu (Nat.le_refl (u.places c.id)) n.ty
  · split
    · exact hx
    · exact hy

/-- What takes the place of a read has no place of the call in it. -/
theorem capturedValue (hc : c ∈ S) (n : Expr) {v : Value}
    (hv : ∀ tree, v = .node tree → tree.places c.id = 0 ∧ tree.ToldFrom S) :
    PaysTree H fuel S c 0 0 (.quiet (CodeTree.capturedValue n v)) := by
  have hplain : PaysTree H fuel S c 0 0 (.quiet (
    if v.runtimeTy?.any (· == n.ty) then Step.make (Expr.typedConstant v n.ty)
    else do
      let operand ← Step.make (Expr.constant v)
      let converted ← Step.make (operand.convert n.ty)
      CodeTree.unwrapConversion converted operand (Pure.pure operand) (Pure.pure converted))) := by
    split
    · exact make hc (Nat.le_refl 0) n.ty
    · simp only [Chronicle.quiet_bind, Recorded.quiet_unwrapConversion, Chronicle.quiet_pure]
      have hoperand : PaysTree H fuel S c 0 0 (.quiet (Step.make (Expr.constant v))) :=
        make hc (Nat.le_refl 0) _
      refine bind_free hoperand fun operand ho hplaces => ?_
      have hconverted : PaysTree H fuel S c 0 0 (.quiet (Step.make (operand.convert n.ty))) :=
        make hc (by simpa [Shape.children] using hplaces) n.ty
      refine bind_free hconverted fun converted hr hplaces' => ?_
      exact unwrapConversion hc (pure ho (Nat.le_of_eq hplaces)) (pure hr (Nat.le_of_eq hplaces'))
  cases v with
  | node tree =>
    show PaysTree H fuel S c 0 0 (.quiet (Pure.pure tree))
    rw [Chronicle.quiet_pure]
    exact pure (hv tree rfl).2 (Nat.le_of_eq (hv tree rfl).1)
  | _ => exact hplain

/-- A read that is answered gives way to a tree without the call. -/
theorem resolveRead (hc : c ∈ S) (n target : Expr) (member : Member) {x : Chronicle σ Expr}
    (hx : PaysTree H fuel S c t k x) :
    PaysTree H fuel S c t k (Recorded.resolveRead H fuel n target member x) := by
  unfold Recorded.resolveRead
  split
  · refine bind_free (read _ member.name) fun reply hreply _ => ?_
    cases reply with
    | ok v =>
      refine (capturedValue hc n fun tree htree => hreply tree ?_).mono (Nat.zero_le t)
        (Nat.zero_le k)
      rw [htree]
    | error _ => exact hx
  · exact hx

section Steps

variable {next : Nat} {n : Expr} {g : Expr → Recorded σ}

/-- A node with normalized children. -/
theorem normalChildren (hS : Coherent S next) (hc : c ∈ S) (hn : n ∈ S)
    (hg : ∀ a ∈ n.children, PaysTree H fuel S c (a.places c.id) (a.places c.id) (g a).node) :
    PaysTree H fuel S c (Expr.placesIn c.id n.children) (n.places c.id)
      (Recorded.normalChildren n (n.shape.map fun a => (a, g a))) := by
  rw [Recorded.normalChildren, Shape.mapM_map, Expr.places_eq, Nat.add_comm]
  refine bind (u := 0) (mapM hg) fun layer hlayer => ?_
  exact withLayer hS hc hn hlayer (by omega)

/-- One step of normalization pays for the places in the node. -/
theorem normalizeStep (options : Normalization) (hS : Coherent S next) (hc : c ∈ S) (hn : n ∈ S)
    (hg : ∀ a ∈ n.children, PaysTree H fuel S c (a.places c.id) (a.places c.id) (g a).node)
    (hd : ∀ a ∈ n.children, PaysTree H fuel S c (a.places c.id) (a.places c.id) (g a).described) :
    PaysTree H fuel S c (n.places c.id) (n.places c.id)
      (Recorded.normalizeStep H fuel options n (n.shape.map fun a => (a, g a))) := by
  have hplaces := Expr.places_eq c.id n
  have hchildren := normalChildren hS hc hn hg
  have hkept := hchildren.mono (u := n.places c.id) (by omega) (Nat.le_refl _)
  have hle : ∀ a ∈ n.children, a.places c.id ≤ n.places c.id := fun _ => Expr.places_le_of_child
  obtain ⟨id, s, ty⟩ := n
  cases s with
  | call receiver method args =>
    rw [Expr.shape, Shape.map, Recorded.normalizeStep]
    split
    next hfold =>
      obtain ⟨-, hclosed⟩ := Bool.and_eq_true_iff.mp hfold
      rw [hplaces]
      refine bind (foldCall hS hc hn rfl hclosed) fun o ho => ?_
      cases o with
      | none => exact hchildren.mono (Nat.le_refl _) (Nat.le_of_eq hplaces)
      | some r => exact pure (ho r rfl) (Nat.le_add_right _ _)
    next => exact hkept
  | member target read =>
    cases target with
    | none => exact hkept
    | some target => exact resolveRead hc _ target read hkept
  | convert kind operand =>
    have hoperand := hle operand List.mem_cons_self
    exact unwrapConversion hc ((hg operand List.mem_cons_self).mono hoperand hoperand) hkept
  | lambda params body =>
    cases params with
    | nil =>
      rw [Expr.shape, Shape.map, Recorded.normalizeStep]
      split
      · have hbody := hle body List.mem_cons_self
        exact (hd body List.mem_cons_self).mono hbody hbody
      · exact hkept
    | cons p ps => exact hkept
  | _ => exact hkept

/-- So does one step of describing. -/
theorem describeStep (options : Normalization) (hS : Coherent S next) (hc : c ∈ S) (hn : n ∈ S)
    (hg : ∀ a ∈ n.children, PaysTree H fuel S c (a.places c.id) (a.places c.id) (g a).node)
    (hd : ∀ a ∈ n.children, PaysTree H fuel S c (a.places c.id) (a.places c.id) (g a).described) :
    PaysTree H fuel S c (n.places c.id) (n.places c.id)
      (Recorded.describeStep H fuel options n (n.shape.map fun a => (a, g a))) := by
  have hother := normalizeStep options hS hc hn hg hd
  have hplaces := Expr.places_eq c.id n
  obtain ⟨id, s, ty⟩ := n
  cases s with
  | construct ctor args =>
    rw [Expr.shape, Shape.map, Recorded.describeStep, List.mapM_map, hplaces, Nat.add_comm]
    refine (bind (u := 0) (mapM_list hg) fun _ _ => ?_).mono (Nat.le_add_right ..) (Nat.le_refl _)
    exact make hc (Nat.le_add_right _ _) ctor.declaring
  | call receiver method args =>
    have hchildren : (Expr.mk id (.call receiver method args) ty).children =
        receiver.toList ++ args := rfl
    rw [hchildren, Expr.placesIn_append] at hplaces
    rw [hchildren, List.forall_mem_append] at hg
    rw [Expr.shape, Shape.map, Recorded.describeStep, List.mapM_map, optionMapM_map]
    have hsettle : ∀ receiver' : Option Expr, (∀ r ∈ receiver'.toList, r.ToldFrom S) →
        PaysTree H fuel S c (Expr.placesIn c.id args)
          (Expr.placesIn c.id receiver'.toList + Expr.placesIn c.id args)
          (args.mapM (fun a => (g a).node) >>= fun args' =>
            .quiet (Step.make (Expr.settledCall receiver' method args'))) := by
      intro receiver' hreceiver
      rw [Nat.add_comm (Expr.placesIn c.id receiver'.toList)]
      refine bind (u := 0) (mapM_list hg.2) fun args' _ => ?_
      exact settledCall hc hreceiver method (Nat.le_of_eq (Nat.add_comm _ _))
    exact (bind (mapM_option hg.1) hsettle).mono (by omega) (by omega)
  | invoke target args =>
    have hchildren : (Expr.mk id (.invoke target args) ty).children = target :: args := rfl
    rw [hchildren, Expr.placesIn_cons] at hplaces
    rw [hchildren, List.forall_mem_cons] at hg
    rw [Expr.shape, Shape.map, Recorded.describeStep, List.mapM_map]
    refine (bind (u := 0) (j := target.places c.id) (mapM_list hg.2) fun args' _ => ?_).mono
      (by omega) (by omega)
    refine make hc ?_ ty
    simp only [Shape.children, Expr.placesIn_cons]
    omega
  | _ => exact hother

end Steps

/-- Normalization pays for the places in the tree. -/
theorem analyse (options : Normalization) {next : Nat} (hS : Coherent S next) (hc : c ∈ S)
    (e : Expr) : e ∈ S →
    PaysTree H fuel S c (e.places c.id) (e.places c.id) (Recorded.analyse H fuel options e).node ∧
      PaysTree H fuel S c (e.places c.id) (e.places c.id)
        (Recorded.analyse H fuel options e).described := by
  induction e using Expr.induction with
  | step e ih =>
    intro he
    have hchildren := fun a ha => ih a ha (hS.children e he a ha)
    have hnode := fun a ha => (hchildren a ha).1
    have hdescribed := fun a ha => (hchildren a ha).2
    rw [Recorded.analyse_eq]
    exact ⟨normalizeStep options hS hc he hnode hdescribed,
      describeStep options hS hc he hnode hdescribed⟩

end Pays

/-! ## Folded calls -/

/-- A call that folding replaces wherever it stands, and that nothing else brings in, is executed
once for every place: by its own inquiries and by no others. It is not in the result, and so the
evaluation of the result does not execute it. -/
theorem folded_call_executed_once {H : Host σ} {fuel : Nat} {options : Normalization}
    {S : Set Expr} {e c r : Expr} {m m' : Machine σ} (hS : Coherent S m.next) (he : e ∈ S)
    (hc : c ∈ e.nodes) (hclosures : m.Lacks c.id)
    (hrun : normalize H fuel options e m = some (r, m'))
    (hinquiries : ∀ q ∈ inquiries H fuel options e m, q.Apart S c)
    (hreplaced : (inquiries H fuel options e m).countP (·.replaces c.id) = e.places c.id) :
    (inquiries H fuel options e m).countP (·.tries c.id) = e.places c.id ∧
      (∀ q ∈ inquiries H fuel options e m,
        if q.tries c.id then q.Executes H fuel c else q.Spares H fuel c.id) ∧
      r.Lacks c.id ∧ m'.Lacks c.id ∧
      ∀ k : Machine σ, k.Lacks c.id → ∀ n I scope,
        (evalWhile H (.sparing c.id) n I scope r).run k = (eval H n I scope r).run k := by
  have hcS : c ∈ S := hS.nodes_mem e he c hc
  obtain ⟨hready, haccounted, -, htries, hreplaces⟩ :=
    (Pays.analyse options hS hcS e he).1 m r _ m' (recorded_run hrun) ⟨hclosures, hS.known⟩
      hinquiries
  -- the places are used up: each try replaces, and the result has none left
  generalize inquiries H fuel options e m = record at *
  have hlack : r.Lacks c.id := Expr.lacks_iff_places.mpr (by omega)
  have hall : ∀ q ∈ record, q.tries c.id → q.replaces c.id :=
    Inquiry.replaces_of_countP_le (by omega)
  have hle := Inquiry.countP_replaces_le c.id record
  refine ⟨by omega, fun q hq => ?_, hlack, hready.lacks, fun k hk n I scope => ?_⟩
  · by_cases htry : q.tries c.id = true
    · rw [if_pos htry]
      exact (haccounted q hq).executes (hall q hq htry)
    · rw [if_neg htry]
      exact (haccounted q hq).spares (Bool.eq_false_of_not_eq_true htry)
  · exact hk.eval hlack H n I scope

/-! ## A call that is counted -/

namespace Sample

/-- A host that counts the runs of its first method. The second one calls what it is given, or
throws. -/
def tally : Host Nat where
  run code _ args :=
    match code, args with
    | 0, _ => .read fun n => .write (n + 1) (.done (.ok (.int 7)))
    | _, [.func callee _ _] => .call callee [] .done
    | _, _ => .done (.error .null)
  get _ _ _ := .done (.ok .null)
  invoke _ _ _ _ := .done (.ok .null)

/-- The call that is counted. -/
def tallied : Expr := .mk 1 (.call none (.static "counted" .int [] .int 0) []) .int

/-- A call of the second method. -/
def passed (id : Nat) (arg : Expr) : Expr :=
  .mk id (.call none (.static "pass" .int [arg.ty] .int 1) [arg]) .int

/-- The call next to a tree. -/
def talliedBeside (e : Expr) : Expr := .mk 2 (.binary .add tallied e) .int

/-- A variable. -/
def unknown : Expr := .mk 4 (.parameter ⟨3, some "s", .int⟩) .int

/-- A use of a captured tree, which is the call. -/
def captured : Expr :=
  .mk 8 (.convert .cast (.mk 7
    (.member (some (.mk 6 (.constant (.object 5 .captureRecord (.fields [("n", .node tallied)])))
      .captureRecord)) ⟨"n", .captureRecord, .node .int, .field⟩) (.node .int))) .int

/-- A closure. -/
def thunk : Expr := .mk 9 (.constant (.func (.closure 0) [] .int)) (.func [] .int)

/-- A machine on which nothing has been counted, with a closure of the call. -/
def abacus : Machine Nat := ⟨11, .empty, #[⟨[], tallied, .int, ⟨[]⟩, ⟨0, 8⟩⟩], #[0], 0⟩

/-- The same without the closure. -/
def bareAbacus : Machine Nat := { abacus with closures := #[] }

end Sample

open Sample in
/-- Next to a variable, the call is executed once, and the result does not execute it. -/
theorem tallied_executed_once :
    ∃ r m', normalize tally 2 {} (talliedBeside unknown) bareAbacus = some (r, m') ∧ m'.host = 1 ∧
      (inquiries tally 2 {} (talliedBeside unknown) bareAbacus).countP (·.tries tallied.id) = 1 ∧
      (∀ q ∈ inquiries tally 2 {} (talliedBeside unknown) bareAbacus,
        if q.tries tallied.id then q.Executes tally 2 tallied else q.Spares tally 2 tallied.id) ∧
      r.Lacks tallied.id ∧ m'.Lacks tallied.id ∧
      ∀ k : Machine Nat, k.Lacks tallied.id → ∀ n I scope,
        (evalWhile tally (.sparing tallied.id) n I scope r).run k =
          (eval tally n I scope r).run k := by
  refine ⟨_, _, rfl, rfl, ?_⟩
  refine folded_call_executed_once (S := nodesOf [talliedBeside unknown])
    (coherent_nodesOf (by decide) (by decide)) (mem_nodesOf List.mem_cons_self)
    (List.mem_cons_of_mem _ List.mem_cons_self) (fun i c hc => by cases hc) rfl ?_ rfl
  intro q hq
  obtain rfl := List.mem_singleton.mp hq
  refine ⟨fun call before answer after h => ?_, fun tree htree => by cases htree⟩
  cases h
  exact .inl rfl

open Sample in
/-- It is executed more often inside a call that fails, at two places, where the body of a closure
that is called has it too, and where it is captured and so comes back. -/
theorem tallied_executed_twice :
    (∃ r m', normalize tally 3 {} (passed 10 tallied) bareAbacus = some (r, m') ∧
      (inquiries tally 3 {} (passed 10 tallied) bareAbacus).countP (·.replaces tallied.id) = 1 ∧
      m'.host = 2) ∧
    (∃ r m', normalize tally 3 {} (talliedBeside tallied) bareAbacus = some (r, m') ∧
      (inquiries tally 3 {} (talliedBeside tallied) bareAbacus).countP
        (·.replaces tallied.id) = 2 ∧ m'.host = 2) ∧
    (∃ r m', normalize tally 3 {} (talliedBeside (passed 10 thunk)) abacus = some (r, m') ∧
      (inquiries tally 3 {} (talliedBeside (passed 10 thunk)) abacus).countP
        (·.replaces tallied.id) = 1 ∧ m'.host = 2) ∧
    (∃ r m', normalize tally 3 {} (talliedBeside captured) bareAbacus = some (r, m') ∧
      (inquiries tally 3 {} (talliedBeside captured) bareAbacus).countP
        (·.replaces tallied.id) = 1 ∧ m'.host = 1 ∧ ¬ r.Lacks tallied.id ∧
      ∃ v k, evaluateAlone tally 3 r m' = some (.ok v, k) ∧ k.host = 2) :=
  ⟨⟨_, _, rfl, rfl, rfl⟩, ⟨_, _, rfl, rfl, rfl⟩, ⟨_, _, rfl, rfl, rfl⟩,
    ⟨_, _, rfl, rfl, rfl, by decide, _, _, rfl, rfl⟩⟩

end CodeTree
