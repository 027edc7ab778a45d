import CodeTree.Proofs.Provenance

/-!
# What normalization cannot resolve

When closed calls are not folded, the fields of constant objects are all that normalization asks host
code for (`Expr.fieldReads`): hosts that answer these reads alike are treated alike, whatever they run
for methods, constructors and callables (`analyse_congr`), and the record of a run has reads of these
fields in it and nothing else.

What then changes the tree is a read that is answered, a conversion from or to a captured tree, and a
lambda without parameters. Without the latter two, a tree whose reads fail, one after another, comes
back as the identical tree, and nothing has happened but these reads (`FailInTurn`,
`normalize_of_failInTurn`).

Main statement: `unresolved_stays`.
-/

namespace CodeTree

variable {σ : Type}

namespace Expr

/-- The reads of fields of constant objects in a tree, in the order in which a walk meets them. -/
def fieldReads (e : Expr) : List (Value × String) := e.nodes.filterMap fieldRead?

/-- Conversions in the tree are neither of captured trees nor to them. -/
def ConvertsPlainly (e : Expr) : Prop :=
  ∀ n ∈ e.nodes, ∀ kind operand, n.shape = .convert kind operand →
    operand.ty.isNode = false ∧ n.ty.isNode = false

variable {e a : Expr}

theorem fieldReads_eq (e : Expr) :
    e.fieldReads = e.fieldRead?.toList ++ e.children.flatMap fieldReads := by
  rw [fieldReads, nodes_eq, List.filterMap_cons, List.filterMap_flatMap]
  cases e.fieldRead? <;> rfl

theorem ConvertsPlainly.child (h : e.ConvertsPlainly) (ha : a ∈ e.children) : a.ConvertsPlainly :=
  fun n hn => h n (mem_nodes_of_child ha hn)

end Expr

/-- A member read asks for the field that the node reads, and rewrites the children if there is none
or it is not answered. -/
theorem resolveRead_eq (H : Host σ) (fuel : Nat) {e target : Expr} {read : Member}
    (hshape : e.shape = .member (some target) read) (children : Step σ Expr) :
    resolveRead H fuel e target read children =
      match e.fieldRead? with
      | some (self, name) => do
        match ← Step.play (apply H fuel) (H.readMember self name) with
        | .ok v => capturedValue e v
        | .error _ => children
      | none => children := by
  rw [Expr.fieldRead?, hshape]
  simp only [resolveRead]
  generalize target.asConstant? = constant, read.kind = kind
  cases constant with
  | none => rfl
  | some v =>
    cases v with
    | object id cls content => cases kind <;> rfl
    | _ => rfl

/-! ## Hosts that answer reads alike -/

section Alike

variable (H H' : Host σ) (fuel fuel' : Nat)

/-- On every machine the hosts answer the read alike, or both give no answer. -/
def AnswersAlike (read : Value × String) : Prop :=
  Step.play (apply H fuel) (H.readMember read.1 read.2) =
    Step.play (apply H' fuel') (H'.readMember read.1 read.2)

variable {H H' fuel fuel'} {options : Normalization} {e : Expr}

theorem resolveRead_congr {target : Expr} {read : Member}
    (hshape : e.shape = .member (some target) read)
    (h : ∀ read ∈ e.fieldRead?, AnswersAlike H H' fuel fuel' read) (x : Step σ Expr) :
    resolveRead H fuel e target read x = resolveRead H' fuel' e target read x := by
  rw [resolveRead_eq H fuel hshape, resolveRead_eq H' fuel' hshape]
  cases hread : e.fieldRead? with
  | none => rfl
  | some asked =>
    have halike := h asked hread
    rw [AnswersAlike] at halike
    simp only [halike]

/-- One step is taken alike for layers that are analysed alike. -/
theorem normalizeStep_congr (hfold : options.foldClosedCalls = false)
    (h : ∀ read ∈ e.fieldRead?, AnswersAlike H H' fuel fuel' read) (g : Expr → Normal σ) :
    normalizeStep H fuel options e (e.shape.map fun a => (a, g a)) =
      normalizeStep H' fuel' options e (e.shape.map fun a => (a, g a)) := by
  obtain ⟨id, s, ty⟩ := e
  cases s with
  | call receiver method args =>
    simp only [Expr.shape, Shape.map, normalizeStep, hfold, Bool.false_and, Bool.false_eq_true,
      if_false]
  | member target read =>
    cases target with
    | none => rfl
    | some target => exact resolveRead_congr rfl h _
  | lambda params body => cases params <;> rfl
  | _ => rfl

theorem describeStep_congr (hfold : options.foldClosedCalls = false)
    (h : ∀ read ∈ e.fieldRead?, AnswersAlike H H' fuel fuel' read) (g : Expr → Normal σ) :
    describeStep H fuel options e (e.shape.map fun a => (a, g a)) =
      describeStep H' fuel' options e (e.shape.map fun a => (a, g a)) := by
  have hother := normalizeStep_congr (e := e) hfold h g
  obtain ⟨id, s, ty⟩ := e
  cases s with
  | construct ctor args => rfl
  | call receiver method args => rfl
  | invoke target args => rfl
  | _ => exact hother

/-- Nothing else of a host makes a difference. -/
theorem analyse_congr (hfold : options.foldClosedCalls = false) (e : Expr) :
    (∀ read ∈ e.fieldReads, AnswersAlike H H' fuel fuel' read) →
      analyse H fuel options e = analyse H' fuel' options e := by
  induction e using Expr.induction with
  | step e ih =>
    intro h
    rw [e.fieldReads_eq, List.forall_mem_append] at h
    have hlayer : (e.shape.map fun a => (a, analyse H fuel options a)) =
        e.shape.map fun a => (a, analyse H' fuel' options a) := by
      refine Shape.map_congr fun a ha => ?_
      rw [ih a ha fun read hread => h.2 read (List.mem_flatMap.mpr ⟨a, ha, hread⟩)]
    have hself : ∀ read ∈ e.fieldRead?, AnswersAlike H H' fuel fuel' read :=
      fun read hread => h.1 read (Option.mem_toList.mpr hread)
    rw [analyse_eq, analyse_eq, hlayer, normalizeStep_congr hfold hself, describeStep_congr hfold hself]

end Alike

/-! ## Reads that fail -/

section Fail

variable (H : Host σ) (fuel : Nat)

/-- The reads fail one after another, each on the machine that the one before it has left. -/
def FailInTurn : List (Value × String) → Machine σ → Machine σ → Prop
  | [], m, m' => m' = m
  | read :: reads, m, m' => ∃ thrown k,
    Step.play (apply H fuel) (H.readMember read.1 read.2) m = some (.error thrown, k) ∧
      FailInTurn reads k m'

variable {H fuel} {options : Normalization} {e : Expr}

theorem failInTurn_append {second : List (Value × String)} {m' : Machine σ} :
    ∀ {first : List (Value × String)} {m : Machine σ}, FailInTurn H fuel (first ++ second) m m' →
      ∃ k, FailInTurn H fuel first m k ∧ FailInTurn H fuel second k m'
  | [], m, h => ⟨m, rfl, h⟩
  | _ :: _, _, ⟨thrown, k, hread, h⟩ => by
    obtain ⟨k', hfirst, hsecond⟩ := failInTurn_append h
    exact ⟨k', ⟨thrown, k, hread, hfirst⟩, hsecond⟩

/-- Reads that fail wherever they are made fail in turn. -/
theorem exists_failInTurn {reads : List (Value × String)}
    (h : ∀ read ∈ reads, ∀ k, ∃ thrown k',
      Step.play (apply H fuel) (H.readMember read.1 read.2) k = some (.error thrown, k')) :
    ∀ m, ∃ m', FailInTurn H fuel reads m m' := by
  induction reads with
  | nil => exact fun m => ⟨m, rfl⟩
  | cons read reads ih =>
    intro m
    rw [List.forall_mem_cons] at h
    obtain ⟨thrown, k, hread⟩ := h.1 m
    obtain ⟨m', hrest⟩ := ih h.2 k
    exact ⟨m', thrown, k, hread, hrest⟩

theorem mapM_of_failInTurn {f : Expr → Step σ Expr} {m' : Machine σ} : ∀ {as : List Expr}
    {m : Machine σ}, (∀ a ∈ as, ∀ k k', FailInTurn H fuel a.fieldReads k k' → f a k = some (a, k')) →
      FailInTurn H fuel (as.flatMap Expr.fieldReads) m m' → as.mapM f m = some (as, m')
  | [], m, _, h => by
    rw [List.mapM_nil, h]
    rfl
  | a :: as, m, hf, h => by
    rw [List.flatMap_cons] at h
    obtain ⟨k, ha, has⟩ := failInTurn_append h
    rw [List.forall_mem_cons] at hf
    have hrest := mapM_of_failInTurn hf.2 has
    rw [List.mapM_cons]
    show ((f a m).bind _) = _
    rw [hf.1 m k ha]
    show ((as.mapM f k).bind _) = _
    rw [hrest]
    rfl

/-- A node is kept when its children come back. -/
theorem normalChildren_of_failInTurn {g : Expr → Normal σ} {m m' : Machine σ}
    (hg : ∀ a ∈ e.children, ∀ k k', FailInTurn H fuel a.fieldReads k k' →
      (g a).node k = some (a, k'))
    (h : FailInTurn H fuel (e.children.flatMap Expr.fieldReads) m m') :
    normalChildren e (e.shape.map fun a => (a, g a)) m = some (e, m') := by
  have hchildren := mapM_of_failInTurn hg h
  rw [Expr.children, ← Shape.children_mapM] at hchildren
  obtain ⟨⟨layer, k⟩, hlayer, heq⟩ := Option.bind_eq_some_iff.mp hchildren
  obtain ⟨hsame, rfl⟩ := Prod.mk.inj (Option.some.inj heq)
  have hself : e.withLayer layer = pure e := by
    rw [Expr.withLayer, Expr.hasChildren, Expr.children, ← hsame, beq_self_eq_true, if_pos rfl]
  rw [normalChildren, Shape.mapM_map]
  show ((e.shape.mapM fun a => (g a).node) m).bind _ = _
  rw [hlayer]
  show Step.make (e.withLayer layer) k = _
  rw [hself]
  rfl

/-- A read that fails leaves the node to its children. -/
theorem resolveRead_of_failInTurn {target : Expr} {read : Member}
    (hshape : e.shape = .member (some target) read) {children : Step σ Expr} {m m' : Machine σ}
    (h : FailInTurn H fuel e.fieldReads m m')
    (hchildren : ∀ k, FailInTurn H fuel (e.children.flatMap Expr.fieldReads) k m' →
      children k = some (e, m')) :
    resolveRead H fuel e target read children m = some (e, m') := by
  rw [e.fieldReads_eq] at h
  rw [resolveRead_eq H fuel hshape]
  cases hread : e.fieldRead? with
  | none =>
    rw [hread] at h
    exact hchildren m h
  | some asked =>
    rw [hread] at h
    obtain ⟨thrown, k, hfails, h⟩ := h
    show (Step.play (apply H fuel) (H.readMember asked.1 asked.2) m).bind _ = _
    rw [hfails]
    exact hchildren k h

/-- One step keeps the node, when the reads in it fail. -/
theorem normalizeStep_of_failInTurn (hfold : options.foldClosedCalls = false)
    (hflatten : options.flattenThunks = false) (hplain : e.ConvertsPlainly) {g : Expr → Normal σ}
    {m m' : Machine σ} (hg : ∀ a ∈ e.children, ∀ k k', FailInTurn H fuel a.fieldReads k k' →
      (g a).node k = some (a, k')) (h : FailInTurn H fuel e.fieldReads m m') :
    normalizeStep H fuel options e (e.shape.map fun a => (a, g a)) m = some (e, m') := by
  have hkept : ∀ k, FailInTurn H fuel (e.children.flatMap Expr.fieldReads) k m' →
      normalChildren e (e.shape.map fun a => (a, g a)) k = some (e, m') :=
    fun k => normalChildren_of_failInTurn hg
  have hread : ∀ {target read}, e.shape = .member (some target) read →
      resolveRead H fuel e target read
        (normalChildren e (e.shape.map fun a => (a, g a))) m = some (e, m') :=
    fun hshape => resolveRead_of_failInTurn hshape h hkept
  have hown := e.fieldReads_eq ▸ h
  have hconvert := hplain e e.mem_nodes_self
  obtain ⟨id, s, ty⟩ := e
  cases s with
  | call receiver method args =>
    simp only [Expr.shape, Shape.map, normalizeStep, hfold, Bool.false_and]
    exact hkept m hown
  | member target read =>
    cases target with
    | none => exact hkept m hown
    | some target => exact hread rfl
  | convert kind operand =>
    obtain ⟨hoperand, hty⟩ := hconvert kind operand rfl
    simp only [Expr.shape, Shape.map, normalizeStep, unwrapConversion, hoperand]
    rw [show (Expr.mk id (.convert kind operand) ty).ty.isNode = false from hty]
    exact hkept m hown
  | lambda params body =>
    cases params with
    | nil =>
      simp only [Expr.shape, Shape.map, normalizeStep, hflatten]
      exact hkept m hown
    | cons p ps => exact hkept m hown
  | _ => exact hkept m hown

/-- A tree in which there is nothing to resolve but reads that fail comes back as it is. -/
theorem normalize_of_failInTurn (hfold : options.foldClosedCalls = false)
    (hflatten : options.flattenThunks = false) (e : Expr) : e.ConvertsPlainly →
    ∀ m m' : Machine σ, FailInTurn H fuel e.fieldReads m m' →
      normalize H fuel options e m = some (e, m') := by
  induction e using Expr.induction with
  | step e ih =>
    intro hplain m m' h
    rw [normalize, analyse_eq]
    exact normalizeStep_of_failInTurn hfold hflatten hplain
      (fun a ha => ih a ha (hplain.child ha)) h

end Fail

/-! ## What stays -/

/-- Without the folding of closed calls, a run of normalization makes nodes and reads fields of constant
objects of the tree, and nothing else of host code makes a difference to it. If lambdas without
parameters are left alone too, there are no conversions of captured trees and the reads fail, then the
result is the identical tree. -/
theorem unresolved_stays (H : Host σ) (fuel : Nat) (options : Normalization)
    (hfold : options.foldClosedCalls = false) (e : Expr) :
    (∀ m r m', normalize H fuel options e m = some (r, m') →
      Follows H fuel m (inquiries H fuel options e m) m' ∧
      ∀ q ∈ inquiries H fuel options e m, ∃ self name before reply after,
        q = .read self name before reply after ∧ (self, name) ∈ e.fieldReads) ∧
    (∀ (H' : Host σ) fuel', (∀ read ∈ e.fieldReads, AnswersAlike H H' fuel fuel' read) →
      normalize H' fuel' options e = normalize H fuel options e) ∧
    (options.flattenThunks = false → e.ConvertsPlainly →
      (∀ m m', FailInTurn H fuel e.fieldReads m m' → normalize H fuel options e m = some (e, m')) ∧
      ((∀ read ∈ e.fieldReads, ∀ k, ∃ thrown k',
          Step.play (apply H fuel) (H.readMember read.1 read.2) k = some (.error thrown, k')) →
        ∀ m, ∃ m', normalize H fuel options e m = some (e, m'))) := by
  refine ⟨fun m r m' hrun => ?_, fun H' fuel' halike => ?_, fun hflatten hplain => ⟨?_, ?_⟩⟩
  · obtain ⟨hnode, -⟩ := Recounts.analyse H fuel options e fun n hn => hn
    obtain ⟨hfollows, hconcerns, -⟩ := hnode ∅ m r _ m' (recorded_run hrun)
    refine ⟨hfollows, fun q hq => ?_⟩
    have hq := hconcerns q hq
    cases q with
    | fold call before answer after =>
      exact absurd (hfold.symm.trans hq.1) Bool.false_ne_true
    | read self name before reply after =>
      obtain ⟨n, hn, hread⟩ := hq
      exact ⟨self, name, before, reply, after, rfl, List.mem_filterMap.mpr ⟨n, hn, hread⟩⟩
  · rw [normalize, normalize, analyse_congr hfold e halike]
  · exact normalize_of_failInTurn hfold hflatten e hplain
  · intro hfails m
    obtain ⟨m', h⟩ := exists_failInTurn hfails m
    exact ⟨m', normalize_of_failInTurn hfold hflatten e hplain m m' h⟩

namespace Sample

/-- A read of a field that the object does not have. -/
def missing : Expr :=
  .mk 7 (.member (some (.mk 6 (.constant (.object 5 .captureRecord (.fields []))) .captureRecord))
    ⟨"n", .captureRecord, .int, .field⟩) .int

end Sample

open Sample in
/-- The call and the read stay, whatever the host; the counted call is not executed. -/
theorem missing_stays :
    (∃ m', normalize tally 2 ⟨false, false⟩ (talliedBeside missing) bareAbacus =
        some (talliedBeside missing, m') ∧ m'.host = 0 ∧
      Follows tally 2 bareAbacus
        (inquiries tally 2 ⟨false, false⟩ (talliedBeside missing) bareAbacus) m') ∧
    ∀ (H : Host Nat) fuel, normalize H fuel ⟨false, false⟩ (talliedBeside missing) =
      normalize tally 2 ⟨false, false⟩ (talliedBeside missing) := by
  obtain ⟨hasks, halike, hstays⟩ :=
    unresolved_stays tally 2 ⟨false, false⟩ rfl (talliedBeside missing)
  have hplain : (talliedBeside missing).ConvertsPlainly := by
    intro n hn kind operand hshape
    have hnodes : (talliedBeside missing).nodes = [talliedBeside missing, tallied, missing,
      .mk 6 (.constant (.object 5 .captureRecord (.fields []))) .captureRecord] := rfl
    rw [hnodes] at hn
    simp only [List.mem_cons, List.not_mem_nil, or_false] at hn
    rcases hn with rfl | rfl | rfl | rfl <;> cases hshape
  have hreads : (talliedBeside missing).fieldReads =
      [(.object 5 .captureRecord (.fields []), "n")] := rfl
  obtain ⟨-, hfails⟩ := hstays rfl hplain
  obtain ⟨m', hrun⟩ := hfails (by
    rw [hreads]
    intro read hread k
    obtain rfl := List.mem_singleton.mp hread
    exact ⟨_, _, rfl⟩) bareAbacus
  refine ⟨⟨m', hrun, ?_, (hasks _ _ _ hrun).1⟩, fun H fuel => halike H fuel fun read hread => ?_⟩
  · cases hrun
    rfl
  · rw [hreads] at hread
    obtain rfl := List.mem_singleton.mp hread
    rfl

end CodeTree
