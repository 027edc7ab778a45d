import CodeTree.Proofs.Unwinding

/-!
# Forwarding host code

Host code that calls its first operand with the other ones and answers what it gets stands between
a tree and a callable without being seen. A node enters it (`RunsCode`), further forwarders may
stand among the operands, and behind them the callable and its arguments: such a node evaluates
as the invocation of the callable does (`Forwarded.evaluates`), to the same outcome on the same
machine.

A fault travels through host code as an object, and is a fault again where it comes back. So it
rises (`Rises`) through the constructs around a node, through activations and through forwarders,
up to the outermost frame, while no catch clause gets hold of it (`evaluates_guarded_of_fault`).

Main statement: `host_frames_are_transparent`. The forwarders are evaluated before the callable,
which is why they have to leave the machine as it is; the methods that enter one must not be of
type `void`, since a call of such a method has no value.
-/

namespace CodeTree

open Filter (atTop)

variable {σ : Type}

/-- Code that calls its first operand with the other ones and answers what it gets. -/
def Forwards (code : List Value → Script σ Reply) : Prop :=
  ∀ ref params ret args, code (.func ref params ret :: args) = .call ref args .done

/-- A callable that forwards. -/
def IsForwarder (H : Host σ) (v : Value) : Prop :=
  ∃ code params ret, v = .func (.hosted code) params ret ∧ Forwards (H.run code none)

section Entering

variable (H : Host σ)

/-- The host code that answers a method, given the receiver of the call. -/
inductive Method.AnsweredBy (method : Method) :
    Option Value → (List Value → Script σ Reply) → Prop
  | shared {code self} (h : method.body = .shared code) : AnsweredBy method self (H.run code none)
  | bound {code self} (h : method.body = .bound code) :
      AnsweredBy method (some self) (H.run code (some self))
  | sent {id cls content} (h : method.body = .dispatched) :
      AnsweredBy method (some (.object id cls content)) (H.send (.object id cls content) method.name)

variable (I : Interp) (scope : Scope) (m : Machine σ)

/-- The receiver that a call passes on. One that has to be evaluated leaves the machine as it is. -/
inductive Receives (method : Method) : Option Expr → Option Value → Prop
  | static {receiver} (h : method.isStatic = true) : Receives method receiver none
  | bound {receiver self} (h : method.isStatic = false)
      (hself : Evaluates H I scope receiver m (.ok self, m)) (hnull : self.isNull = false) :
      Receives method (some receiver) (some self)

/-- A node runs host code on the values of operands: an invocation of a hosted callable, a call of
a method, or a construction. -/
inductive RunsCode : Expr → (List Value → Script σ Reply) → List Expr → Prop
  | callable {e target operands code params ret} (hshape : e.shape = .invoke target operands)
      (htarget : Evaluates H I scope target m (.ok (.func (.hosted code) params ret), m))
      (harity : params.length = operands.length) : RunsCode e (H.run code none) operands
  | called {e receiver method operands self code} (hshape : e.shape = .call receiver method operands)
      (hself : Receives H I scope m method receiver self) (hcode : method.AnsweredBy H self code)
      (harity : method.params.length = operands.length) (hret : method.ret.isVoid = false) :
      RunsCode e code operands
  | constructed {e ctor operands} (hshape : e.shape = .construct ctor operands) :
      RunsCode e (H.run ctor.code none) operands

/-- A node calls through forwarders what the invocation `d` calls directly. -/
inductive Forwarded : Expr → Expr → Prop
  | mk {e d code stack forwarders f args ref params ret m₁}
      (hentry : RunsCode H I scope m e code (stack ++ f :: args)) (hcode : Forwards code)
      (hstack : List.Forall₂ (fun w v => Evaluates H I scope w m (.ok v, m)) stack forwarders)
      (hforwarders : ∀ v ∈ forwarders, IsForwarder H v) (hshape : d.shape = .invoke f args)
      (hf : Evaluates H I scope f m (.ok (.func ref params ret), m₁))
      (harity : params.length = args.length) : Forwarded e d

end Entering

/-! ## Calls -/

section Calls

variable {H : Host σ} {I : Interp} {scope : Scope} {m m' : Machine σ} {e d : Expr}
variable {code : List Value → Script σ Reply}

theorem settle_of_not_void {ty : Ty} (h : ty.isVoid = false) (v : Value) : settle ty v = v :=
  if_neg (Bool.eq_false_iff.mp h)

/-- A method that host code answers, called with as many operands as it takes. -/
theorem dispatch_eq_runScript {E : Engine σ} {method : Method} {self : Option Value}
    {args : List Value} (h : method.AnsweredBy H self code)
    (hnull : (!method.isStatic && self.all Value.isNull) = false)
    (harity : args.length = method.params.length) (hret : method.ret.isVoid = false) :
    dispatch H E method self args = runScript E (code args) := by
  have hsettled : (runScript E (code args) >>= fun v => pure (settle method.ret v)) =
      runScript E (code args) := by
    simp only [settle_of_not_void hret, bind_pure]
  rw [← hsettled]
  unfold dispatch
  rw [if_neg (not_not.mpr harity), hnull]
  cases h with
  | shared h =>
    rw [h]
    rfl
  | bound h =>
    rw [h]
    rfl
  | sent h =>
    rw [h]
    rfl

/-- What host code replies when it is played. -/
def Plays (H : Host σ) (script : Script σ Reply) (m : Machine σ) (y : Reply × Machine σ) : Prop :=
  Ends (fun n => Step.play (apply H n) script) m y

/-- A hosted callable plays its code. -/
theorem applies_hosted {c : CodeId} {args : List Value} {y : Reply × Machine σ} :
    Applies H (.hosted c) args m y ↔ Plays H (H.run c none args) m y :=
  applies_iff

/-- A node that runs host code replies to the values of its operands. -/
theorem RunsCode.evaluates {operands : List Expr} (h : RunsCode H I scope m e code operands)
    {r : Except Exit Value} :
    Evaluates H I scope e m (r, m') ↔
      (∃ exit, EvaluatesAll H I scope operands m (.error exit, m') ∧ r = .error exit) ∨
      ∃ vs m₁ reply, EvaluatesAll H I scope operands m (.ok vs, m₁) ∧
        Plays H (code vs) m₁ (reply, m') ∧ r = answered reply := by
  cases h with
  | callable hshape htarget harity =>
    simp only [← applies_hosted]
    exact evaluates_invoke hshape htarget harity
  | @called receiver method operands self _ hshape hself hcode harity hret =>
    have hdispatch : ∀ n, (!method.isStatic && self.all Value.isNull) = false →
        (evalAll (eval H n I scope) operands >>= dispatch H (engine H n) method self) =
          evalAll (eval H n I scope) operands >>= fun vs => runScript (engine H n) (code vs) :=
      fun n hnull => evalAll_bind_congr fun vs hvs =>
        dispatch_eq_runScript hcode hnull (hvs.trans harity.symm) hret
    refine evaluates_of_replies (fun vs => grows_play H (code vs)) ?_
    cases hself with
    | static hstatic =>
      refine .of_forall fun n => ?_
      have hnode : evalNode H (engine H n) I scope e =
          evalAll (eval H n I scope) operands >>= dispatch H (engine H n) method none := by
        unfold evalNode
        rw [hshape]
        cases receiver with
        | none => rfl
        | some r =>
          dsimp only
          rw [if_pos hstatic]
          rfl
      rw [hnode, hdispatch n (by rw [hstatic]; rfl)]
      rfl
    | @bound r v hstatic hr hnull =>
      filter_upwards [hr.eventually] with n hn
      have hnode : evalNode H (engine H n) I scope e =
          eval H n I scope r >>= fun v =>
            evalAll (eval H n I scope) operands >>= dispatch H (engine H n) method (some v) := by
        unfold evalNode
        rw [hshape]
        dsimp only
        rw [if_neg (Bool.eq_false_iff.mp hstatic), map_eq_pure_bind, bind_assoc]
        rfl
      rw [hnode, run_bind_of_ok hn, hdispatch n (by rw [hstatic]; exact hnull)]
      rfl
  | constructed hshape =>
    refine evaluates_of_replies (fun vs => grows_play H _) (.of_forall fun n => ?_)
    unfold evalNode
    rw [hshape]
    rfl

theorem plays_call {ref : FuncRef} {args : List Value} {y : Reply × Machine σ} :
    Plays H (.call ref args .done) m y ↔ Applies H ref args m y := by
  have hplay : ∀ n, Step.play (apply H n) (.call ref args .done : Script σ Reply) =
      apply H n ref args := fun n => bind_pure _
  simp only [Plays, hplay]
  exact Iff.rfl

/-- Forwarders one behind another play the call of what stands behind them. -/
theorem plays_forwarders {forwarders : List Value} {ref : FuncRef} {params : List Ty} {ret : Ty}
    {args : List Value} {y : Reply × Machine σ} (hcode : Forwards code)
    (h : ∀ v ∈ forwarders, IsForwarder H v) :
    Plays H (code (forwarders ++ .func ref params ret :: args)) m y ↔ Applies H ref args m y := by
  induction forwarders generalizing code with
  | nil =>
    rw [List.nil_append, hcode]
    exact plays_call
  | cons v forwarders ih =>
    rw [List.forall_mem_cons] at h
    obtain ⟨⟨c, ps, rt, rfl, hnext⟩, hrest⟩ := h
    rw [List.cons_append, hcode, plays_call, applies_hosted]
    exact ih hnext hrest

/-- Operands behind others that give values and leave the machine as it is. -/
theorem evaluatesAll_append {stack es : List Expr} {vs : List Value} {m₁ : Machine σ}
    (hstack : List.Forall₂ (fun w v => Evaluates H I scope w m (.ok v, m)) stack vs)
    {r : Except Exit (List Value)} :
    EvaluatesAll H I scope (stack ++ es) m (r, m₁) ↔
      ∃ r', EvaluatesAll H I scope es m (r', m₁) ∧ r = r'.map (vs ++ ·) := by
  induction hstack generalizing r with
  | nil =>
    refine ⟨fun h => ⟨r, h, by cases r <;> rfl⟩, ?_⟩
    rintro ⟨o, ho, rfl⟩
    cases o <;> exact ho
  | cons hw _ ih =>
    rw [List.cons_append, evaluatesAll_cons hw]
    simp only [ih]
    constructor
    · rintro ⟨r', ⟨o, ho, rfl⟩, rfl⟩
      exact ⟨o, ho, by cases o <;> rfl⟩
    · rintro ⟨o, ho, rfl⟩
      exact ⟨_, ⟨o, ho, rfl⟩, by cases o <;> rfl⟩

/-- A call through forwarders evaluates as the direct invocation does. -/
theorem Forwarded.evaluates (h : Forwarded H I scope m e d) {y : Except Exit Value × Machine σ} :
    Evaluates H I scope e m y ↔ Evaluates H I scope d m y := by
  obtain ⟨hentry, hcode, hstack, hforwarders, hshape, hf, harity⟩ := h
  rename_i stack forwarders f args ref params ret m₁
  obtain ⟨r, m'⟩ := y
  have hoperands : ∀ {o : Except Exit (List Value)} {k},
      EvaluatesAll H I scope (stack ++ f :: args) m (o, k) ↔ ∃ o', EvaluatesAll H I scope args m₁ (o', k) ∧
        o = o'.map fun vs => forwarders ++ .func ref params ret :: vs := by
    intro o k
    rw [evaluatesAll_append hstack]
    simp only [evaluatesAll_cons hf]
    constructor
    · rintro ⟨_, ⟨o', ho, rfl⟩, rfl⟩
      exact ⟨o', ho, by cases o' <;> rfl⟩
    · rintro ⟨o', ho, rfl⟩
      exact ⟨_, ⟨o', ho, rfl⟩, by cases o' <;> rfl⟩
  rw [hentry.evaluates, evaluates_invoke hshape hf harity]
  simp only [hoperands]
  refine or_congr ?_ ?_
  · refine exists_congr fun exit => and_congr_left' ⟨?_, fun hargs => ⟨_, hargs, rfl⟩⟩
    rintro ⟨o, hargs, ho⟩
    cases o with
    | ok vs => cases ho
    | error exit' =>
      cases ho
      exact hargs
  · constructor
    · rintro ⟨vs, m₂, reply, ⟨o, hargs, ho⟩, hplays, rfl⟩
      cases o with
      | error exit => cases ho
      | ok vs =>
        cases ho
        exact ⟨vs, m₂, reply, hargs, (plays_forwarders hcode hforwarders).mp hplays, rfl⟩
    · rintro ⟨vs, m₂, reply, hargs, happlies, rfl⟩
      exact ⟨_, m₂, reply, ⟨.ok vs, hargs, rfl⟩,
        (plays_forwarders hcode hforwarders).mpr happlies, rfl⟩

end Calls

/-! ## Faults -/

section Faults

variable {H : Host σ}

/-- How a fault rises from the evaluation of a node, which leaves the machine `m'`: through the
constructs around it, whose last parts run, through the activation of a closure whose body they
stand in, and through forwarders that call the closure. -/
inductive Rises (H : Host σ) (I : Interp) (scope : Scope) (e : Expr) (m m' : Machine σ) :
    Interp → Scope → Expr → Machine σ → Machine σ → Prop
  | here : Rises H I scope e m m' I scope e m m'
  | around {J s g k path inner a k₁ k₂ k₃} (hreach : Reaches H J s g k path inner a k₁)
      (rest : Rises H I scope e m m' J inner a k₁ k₂) (hlast : Unwinds H J path k₂ k₃) :
      Rises H I scope e m m' J s g k k₃
  | call {J s g k c args k₁ inner k₂ k₃} (hcalls : Calls H J s g k c args k₁)
      (hstart : c.Starts args k₁ inner k₂) (rest : Rises H I scope e m m' c.interp inner c.body k₂ k₃) :
      Rises H I scope e m m' J s g k { k₃.left c.interp with next := k₃.next + 1 }
  | forwarded {J s g d k k₁} (hforwarded : Forwarded H J s k g d)
      (rest : Rises H I scope e m m' J s d k k₁) : Rises H I scope e m m' J s g k k₁

variable {I : Interp} {scope : Scope} {e d : Expr} {m m' : Machine σ}

/-- A fault stays the same fault all the way up. -/
theorem Rises.evaluates {J : Interp} {s : Scope} {g : Expr} {k k' : Machine σ}
    (h : Rises H I scope e m m' J s g k k') {f : Fault}
    (hfault : Evaluates H I scope e m (.error (.fault f), m')) :
    Evaluates H J s g k (.error (.fault f), k') := by
  induction h with
  | here => exact hfault
  | around hreach _ hlast ih => exact hreach.passes ih (fun _ _ => trivial) hlast
  | call hcalls hstart _ ih =>
    exact hcalls.fault ((activates_iff hstart).mpr ⟨_, _, ih, rfl, rfl⟩)
  | forwarded hforwarded _ ih => exact hforwarded.evaluates.mpr ih

/-- A region whose body ends in a fault does as if it had no catch clauses. -/
theorem evaluates_guarded_of_fault {body : Expr} {handlers : List (Handler Expr)}
    {cleanup : Option Expr} (hshape : e.shape = .guarded body handlers cleanup)
    (hbare : d.shape = .guarded body [] cleanup) (hty : e.ty = d.ty) {f : Fault} {m₁ : Machine σ}
    (hbody : Evaluates H I scope body m (.error (.fault f), m₁))
    {y : Except Exit Value × Machine σ} :
    Evaluates H I scope e m y ↔ Evaluates H I scope d m y := by
  have hregion : ∀ᶠ n in atTop, ∀ hs, (regionOutcome (eval H n I) scope body hs).run m =
      some (.ok (.error (.fault f)), m₁) := by
    filter_upwards [hbody.eventually] with n hn hs
    unfold regionOutcome
    rw [run_held_bind_of_some hn]
    rfl
  have hnodes : ∀ᶠ n in atTop, (evalNode H (engine H n) I scope e).run m =
      (evalNode H (engine H n) I scope d).run m := by
    filter_upwards [hregion] with n hn
    unfold evalNode
    rw [hshape, hbare, hty]
    show (evalGuarded (eval H n I) scope d.ty body handlers cleanup).run m =
      (evalGuarded (eval H n I) scope d.ty body [] cleanup).run m
    rw [evalGuarded_eq, evalGuarded_eq, run_bind_of_ok (hn handlers), run_bind_of_ok (hn [])]
  constructor
  · intro h
    obtain ⟨n, hn, hnode⟩ := (hnodes.and h.node).exists
    exact evaluates_iff.mpr ⟨n, hn.symm.trans hnode⟩
  · intro h
    obtain ⟨n, hn, hnode⟩ := (hnodes.and h.node).exists
    exact evaluates_iff.mpr ⟨n, hn.trans hnode⟩

end Faults

/-- Host frames are transparent. Let a node call through forwarders, any number of them, what the
invocation `d` calls directly, with the operands that `d` has. Then both have the same outcome: the
same value, the same thrown value or the same fault, on the same machine, and as whole evaluations
they report the same. And a fault rises from the node to the outermost frame: whatever regions stand
on the way, it is the fault that is reported, and a region around the node, or around anything
that the fault has risen to, does what it does without its catch clauses. -/
theorem host_frames_are_transparent {H : Host σ} {I : Interp} {scope : Scope} {m : Machine σ}
    {e d : Expr} (h : Forwarded H I scope m e d) :
    (∀ y, Evaluates H I scope e m y ↔ Evaluates H I scope d m y) ∧
      (∀ z, Ends (fun n => finish H n (eval H n I scope e)) m z ↔
        Ends (fun n => finish H n (eval H n I scope d)) m z) ∧
      ∀ f m', Evaluates H I scope d m (.error (.fault f), m') →
        ∀ J s g k k', Rises H I scope e m m' J s g k k' →
          Evaluates H J s g k (.error (.fault f), k') ∧
          Ends (fun n => finish H n (eval H n J s g)) k (.error (.fault f), k') ∧
          (∀ {c args k₀}, Closure.Starts c args k₀ s k → c.body = g → c.interp = J →
            Fails H c args k₀ f (k'.left J)) ∧
          ∀ region bare handlers cleanup, region.shape = .guarded g handlers cleanup →
            bare.shape = .guarded g [] cleanup → region.ty = bare.ty →
            ∀ y, Evaluates H J s region k y ↔ Evaluates H J s bare k y := by
  refine ⟨fun y => h.evaluates, fun z => ?_, ?_⟩
  · rw [ends_finish_iff (grows_eval H I scope e), ends_finish_iff (grows_eval H I scope d)]
    exact exists_congr fun r => exists_congr fun m' => and_congr_left' h.evaluates
  · intro f m' hfault J s g k k' hrises
    have hrisen := hrises.evaluates (h.evaluates.mpr hfault)
    refine ⟨hrisen, (ends_finish_iff (grows_eval H J s g)).mpr ⟨_, _, hrisen, 0, rfl⟩, ?_, ?_⟩
    · intro c args k₀ hstart hbody hinterp
      subst hbody hinterp
      exact ((activates_iff hstart).mpr ⟨_, _, hrisen, rfl, rfl⟩).fails
    · intro region bare handlers cleanup hregion hbare hty y
      exact evaluates_guarded_of_fault hregion hbare hty hrisen

namespace Sample

/-- A host whose code forwards. -/
def relaying : Host Unit where
  run _ _ args :=
    match args with
    | .func ref _ _ :: rest => .call ref rest .done
    | _ => .done (.ok .null)
  get _ _ _ := .done (.ok .null)
  invoke _ _ _ _ := .done (.ok .null)

/-- A forwarder, with the types of the operands that it is given. -/
def relay (id : Nat) (params : List Ty) : Expr :=
  .mk id (.constant (.func (.hosted 0) params .object)) (.func params .object)

/-- The variable of the callable. -/
def y : Param := ⟨1, some "y", .int⟩

/-- A callable that reads a variable which nothing declares. -/
def lost : Expr :=
  .mk 4 (.lambda [y] (.mk 3 (.parameter ⟨2, some "z", .int⟩) .int)) (.func [.int] .int)

/-- Its argument. -/
def argument : Expr := .mk 5 (.constant (.int 5)) .int

def directCall : Expr := .mk 6 (.invoke lost [argument]) .int

/-- The same call through two forwarders. -/
def relayedCall : Expr :=
  .mk 9 (.invoke (relay 7 [.object, .object, .object]) [relay 8 [.object, .object], lost, argument])
    .object

/-- The call with a catch clause for any object. -/
def guardedCall : Expr :=
  .mk 11 (.guarded relayedCall [⟨.object, none, none, .mk 10 (.constant .null) .object⟩] none) .object

/-- A machine that has done nothing but hand out identities. -/
def ready : Machine Unit := ⟨12, .empty, #[], #[0], ()⟩

end Sample

open Sample in
/-- The callable cannot read its variable. Called through two forwarders it ends in the same fault,
and the catch clause for any object does not handle it. -/
theorem relayed_call_fails :
    Forwarded relaying ⟨0, 8⟩ ⟨[]⟩ ready relayedCall directCall ∧
      ∃ m', Ends (fun n => finish relaying n (eval relaying n ⟨0, 8⟩ ⟨[]⟩ directCall)) ready
          (.error (.fault (.unboundParameter "z")), m') ∧
        Ends (fun n => finish relaying n (eval relaying n ⟨0, 8⟩ ⟨[]⟩ relayedCall)) ready
          (.error (.fault (.unboundParameter "z")), m') ∧
        Ends (fun n => finish relaying n (eval relaying n ⟨0, 8⟩ ⟨[]⟩ guardedCall)) ready
          (.error (.fault (.unboundParameter "z")), m') := by
  have hforwards : Forwards (relaying.run 0 none) := fun _ _ _ _ => rfl
  have hentry : RunsCode relaying ⟨0, 8⟩ ⟨[]⟩ ready relayedCall (relaying.run 0 none)
      ([relay 8 [.object, .object]] ++ lost :: [argument]) := .callable rfl ⟨1, rfl⟩ rfl
  have hstack : ∀ v ∈ [Value.func (.hosted 0) [.object, .object] .object],
      IsForwarder relaying v := by
    rw [List.forall_mem_singleton]
    exact ⟨0, [.object, .object], .object, rfl, hforwards⟩
  have hforwarded : Forwarded relaying ⟨0, 8⟩ ⟨[]⟩ ready relayedCall directCall :=
    .mk hentry hforwards (.cons ⟨1, rfl⟩ .nil) hstack rfl ⟨2, rfl⟩ rfl
  obtain ⟨-, hwhole, hrises⟩ := host_frames_are_transparent hforwarded
  have hdirect : ∃ m', Evaluates relaying ⟨0, 8⟩ ⟨[]⟩ directCall ready
      (.error (.fault (.unboundParameter "z")), m') := ⟨_, 4, rfl⟩
  obtain ⟨m', hfault⟩ := hdirect
  have hreach : Reaches relaying ⟨0, 8⟩ ⟨[]⟩ guardedCall ready ([] ++ [⟨⟨[]⟩, guardedCall, none⟩])
      ⟨[]⟩ relayedCall ready := .into (.guarded rfl) (.here _ _ _)
  have hrelayed := (hrises _ m' hfault _ _ _ _ _ .here).2.1
  have hguarded := (hrises _ m' hfault _ _ _ _ _
    (.around hreach .here (.cons rfl (.nil _)))).2.1
  exact ⟨hforwarded, m', (hwhole _).mp hrelayed, hrelayed, hguarded⟩

end CodeTree
