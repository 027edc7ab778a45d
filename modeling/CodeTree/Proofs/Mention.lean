import CodeTree.Proofs.Likeness

/-!
# What a value mentions

`Value.mentions` lists the identities, closures and faults that stand in a value at any depth.
A value is like itself in every world that pairs what it mentions with itself
(`ValueLike.self`), and then it is like no other value (`ValueLike.eq_of_self`).

`Script.Keeps` says of host code that it stays within a condition on the values it handles and
on the host's state, as long as the replies it gets do.
-/

namespace CodeTree

/-- Something a value refers to besides its plain content. -/
inductive Mention where
  | id (id : Nat)
  | closure (index : Nat)
  | fault (fault : Fault)

namespace Value

mutual
/-- What stands in a value. A captured tree is a whole, and is not looked into. -/
def mentions : Value → List Mention
  | .array id _ items => .id id :: listMentions items
  | .object id _ (.fields members) => .id id :: memberMentions members
  | .object id _ (.hosted _) => [.id id]
  | .object id _ (.fault f) => [.id id, .fault f]
  | .func (.closure index) _ _ => [.closure index]
  | .task id _ (.ok v) => .id id :: mentions v
  | .task id _ (.error v) => .id id :: mentions v
  | _ => []
/-- What stands in the values of a list. -/
def listMentions : List Value → List Mention
  | [] => []
  | v :: vs => mentions v ++ listMentions vs
/-- What stands in the members of a record. -/
def memberMentions : List (String × Value) → List Mention
  | [] => []
  | (_, v) :: rest => mentions v ++ memberMentions rest
end

end Value

/-- What a reply of host code mentions. -/
def Reply.mentions : Reply → List Mention
  | .ok v => v.mentions
  | .error v => v.mentions

/-- What a way out of an evaluation mentions. -/
def Exit.mentions : Exit → List Mention
  | .throw v => v.mentions
  | .jump _ v => v.mentions
  | .fault f => [.fault f]

/-- Whether a world takes a mention for itself. -/
def World.Fixes (w : World) (ok : Fault → Prop) : Mention → Prop
  | .id n => w.ids.pairs n n
  | .closure i => w.closures.pairs i i
  | .fault f => ok f

section Self

variable {w : World} {ok ok' : Fault → Prop}

mutual
/-- A value is like itself where everything in it is taken for itself. -/
theorem ValueLike.self : ∀ {v : Value}, (∀ x ∈ v.mentions, w.Fixes ok x) → ValueLike w ok v v
  | .void, _ => .void
  | .null, _ => .null
  | .bool b, _ => .bool b
  | .int n, _ => .int n
  | .float x, _ => .float x
  | .str s, _ => .str s
  | .array .., h => by
    rw [Value.mentions, List.forall_mem_cons] at h
    exact .array h.1 (ValuesLike.self h.2)
  | .object _ _ (.fields _), h => by
    rw [Value.mentions, List.forall_mem_cons] at h
    exact .record h.1 (FieldLike.self h.2)
  | .object _ _ (.hosted _), h => by
    rw [Value.mentions, List.forall_mem_singleton] at h
    exact .hosted h
  | .object _ _ (.fault _), h => by
    rw [Value.mentions, List.forall_mem_cons, List.forall_mem_singleton] at h
    exact .fault h.1 h.2
  | .func (.hosted code) params ret, _ => .code code params ret
  | .func (.closure _) _ _, h => by
    rw [Value.mentions, List.forall_mem_singleton] at h
    exact .closure h
  | .task _ _ (.ok _), h => by
    rw [Value.mentions, List.forall_mem_cons] at h
    exact .task h.1 (ValueLike.self h.2)
  | .task _ _ (.error _), h => by
    rw [Value.mentions, List.forall_mem_cons] at h
    exact .failedTask h.1 (ValueLike.self h.2)
  | .node tree, _ => .node tree
theorem ValuesLike.self : ∀ {vs : List Value},
    (∀ x ∈ Value.listMentions vs, w.Fixes ok x) → ValuesLike w ok vs vs
  | [], _ => .nil
  | _ :: _, h => by
    rw [Value.listMentions, List.forall_mem_append] at h
    exact .cons (ValueLike.self h.1) (ValuesLike.self h.2)
theorem FieldLike.self : ∀ {members : List (String × Value)},
    (∀ x ∈ Value.memberMentions members, w.Fixes ok x) →
    List.Forall₂ (FieldLike w ok) members members
  | [], _ => .nil
  | (_, _) :: _, h => by
    rw [Value.memberMentions, List.forall_mem_append] at h
    exact .cons (.mk _ (ValueLike.self h.1)) (FieldLike.self h.2)
end

mutual
/-- A value that is like itself is like no other one. -/
theorem ValueLike.eq_of_self : ∀ {a b : Value}, ValueLike w ok a b → ValueLike w ok' a a → a = b
  | .void, _, l, _ => by cases l; rfl
  | .null, _, l, _ => by cases l; rfl
  | .bool _, _, l, _ => by cases l; rfl
  | .int _, _, l, _ => by cases l; rfl
  | .float _, _, l, _ => by cases l; rfl
  | .str _, _, l, _ => by cases l; rfl
  | .array .., _, l, h => by
    cases l with
    | array id items =>
      cases h with
      | array id' items' =>
        rw [w.ids.unique_right id' id, ValuesLike.eq_of_self items items']
  | .object _ _ (.fields _), _, l, h => by
    cases l with
    | record id fields =>
      cases h with
      | record id' fields' =>
        rw [w.ids.unique_right id' id, FieldLike.eq_of_self fields fields']
  | .object _ _ (.hosted _), _, l, h => by
    cases l with
    | hosted id =>
      cases h with
      | hosted id' => rw [w.ids.unique_right id' id]
  | .object _ _ (.fault _), _, l, h => by
    cases l with
    | fault id _ =>
      cases h with
      | fault id' _ => rw [w.ids.unique_right id' id]
  | .func .., _, l, h => by
    cases l with
    | code => rfl
    | closure index =>
      cases h with
      | closure index' => rw [w.closures.unique_right index' index]
  | .task _ _ (.ok _), _, l, h => by
    cases l with
    | task id value =>
      cases h with
      | task id' value' => rw [w.ids.unique_right id' id, ValueLike.eq_of_self value value']
  | .task _ _ (.error _), _, l, h => by
    cases l with
    | failedTask id thrown =>
      cases h with
      | failedTask id' thrown' =>
        rw [w.ids.unique_right id' id, ValueLike.eq_of_self thrown thrown']
  | .node _, _, l, _ => by cases l; rfl
theorem ValuesLike.eq_of_self : ∀ {xs ys : List Value}, ValuesLike w ok xs ys →
    ValuesLike w ok' xs xs → xs = ys
  | [], _, l, _ => by cases l; rfl
  | _ :: _, _, l, h => by
    cases l with
    | cons first rest =>
      cases h with
      | cons first' rest' =>
        rw [ValueLike.eq_of_self first first', ValuesLike.eq_of_self rest rest']
theorem FieldLike.eq_of_self : ∀ {xs ys : List (String × Value)},
    List.Forall₂ (FieldLike w ok) xs ys → List.Forall₂ (FieldLike w ok') xs xs → xs = ys
  | [], _, l, _ => by cases l; rfl
  | (_, _) :: _, _, l, h => by
    cases l with
    | cons first rest =>
      cases h with
      | cons first' rest' =>
        cases first with
        | mk _ value =>
          cases first' with
          | mk _ value' =>
            rw [ValueLike.eq_of_self value value', FieldLike.eq_of_self rest rest']
end

mutual
/-- The faults in a value that is like another are those that may be there. -/
theorem ValueLike.fault_mem : ∀ {a b : Value}, ValueLike w ok a b →
    ∀ {f : Fault}, .fault f ∈ a.mentions → ok f
  | .array .., _, l, f, h => by
    cases l with
    | array _ items =>
      rw [Value.mentions, List.mem_cons] at h
      exact ValuesLike.fault_mem items (h.resolve_left Mention.noConfusion)
  | .object _ _ (.fields _), _, l, f, h => by
    cases l with
    | record _ fields =>
      rw [Value.mentions, List.mem_cons] at h
      exact FieldLike.fault_mem fields (h.resolve_left Mention.noConfusion)
  | .object _ _ (.fault _), _, l, f, h => by
    cases l with
    | fault _ allowed =>
      rw [Value.mentions, List.mem_cons, List.mem_singleton] at h
      cases h.resolve_left Mention.noConfusion
      exact allowed
  | .object _ _ (.hosted _), _, _, f, h => by
    rw [Value.mentions, List.mem_singleton] at h
    cases h
  | .task _ _ (.ok _), _, l, f, h => by
    cases l with
    | task _ value =>
      rw [Value.mentions, List.mem_cons] at h
      exact ValueLike.fault_mem value (h.resolve_left Mention.noConfusion)
  | .task _ _ (.error _), _, l, f, h => by
    cases l with
    | failedTask _ thrown =>
      rw [Value.mentions, List.mem_cons] at h
      exact ValueLike.fault_mem thrown (h.resolve_left Mention.noConfusion)
  | .func (.closure _) _ _, _, _, f, h => by
    rw [Value.mentions, List.mem_singleton] at h
    cases h
  | .func (.hosted _) _ _, _, _, f, h => nomatch h
  | .void, _, _, f, h => nomatch h
  | .null, _, _, f, h => nomatch h
  | .bool _, _, _, f, h => nomatch h
  | .int _, _, _, f, h => nomatch h
  | .float _, _, _, f, h => nomatch h
  | .str _, _, _, f, h => nomatch h
  | .node _, _, _, f, h => nomatch h
theorem ValuesLike.fault_mem : ∀ {xs ys : List Value}, ValuesLike w ok xs ys →
    ∀ {f : Fault}, .fault f ∈ Value.listMentions xs → ok f
  | [], _, _, f, h => nomatch h
  | _ :: _, _, l, f, h => by
    cases l with
    | cons first rest =>
      rw [Value.listMentions, List.mem_append] at h
      rcases h with h | h
      · exact ValueLike.fault_mem first h
      · exact ValuesLike.fault_mem rest h
theorem FieldLike.fault_mem : ∀ {xs ys : List (String × Value)},
    List.Forall₂ (FieldLike w ok) xs ys →
    ∀ {f : Fault}, .fault f ∈ Value.memberMentions xs → ok f
  | [], _, _, f, h => nomatch h
  | (_, _) :: _, _, l, f, h => by
    cases l with
    | cons first rest =>
      cases first with
      | mk _ value =>
        rw [Value.memberMentions, List.mem_append] at h
        rcases h with h | h
        · exact ValueLike.fault_mem value h
        · exact FieldLike.fault_mem rest h
end

end Self

/-! ## Host code that keeps a condition -/

/-- Every fault in a value is one of those allowed. -/
def Value.Allowed (ok : Fault → Prop) (v : Value) : Prop := ∀ f, .fault f ∈ v.mentions → ok f

/-- Every fault in a reply is one of those allowed. -/
def Reply.Allowed (ok : Fault → Prop) (r : Reply) : Prop := ∀ f, .fault f ∈ r.mentions → ok f

/-- Every fault in the outcome of an evaluation, or the fault that it is, is allowed. -/
def Outcome.Allowed (ok : Fault → Prop) : Except Exit Value → Prop
  | .ok v => v.Allowed ok
  | .error exit => ∀ f, .fault f ∈ exit.mentions → ok f

/-- Host code that passes on allowed faults only, leaves states that satisfy `P` and ends with a
result that satisfies `Q`, as long as the replies to its calls and the states it finds are
such too. -/
inductive Script.Keeps {σ α : Type} (P : σ → Prop) (ok : Fault → Prop) (Q : α → Prop) :
    Script σ α → Prop
  | done {a : α} (result : Q a) : Keeps P ok Q (.done a)
  | read {k : σ → Script σ α} (next : ∀ s, P s → Keeps P ok Q (k s)) : Keeps P ok Q (.read k)
  | write {s : σ} {k : Script σ α} (state : P s) (next : Keeps P ok Q k) :
      Keeps P ok Q (.write s k)
  | fresh {k : Nat → Script σ α} (next : ∀ id, Keeps P ok Q (k id)) : Keeps P ok Q (.fresh k)
  | call {callee : FuncRef} {args : List Value} {k : Reply → Script σ α}
      (given : ∀ v ∈ args, v.Allowed ok)
      (next : ∀ r, r.Allowed ok → Keeps P ok Q (k r)) : Keeps P ok Q (.call callee args k)

/-- Where everything is allowed, all host code does. -/
theorem Script.keeps_trivial {σ α : Type} : ∀ s : Script σ α,
    s.Keeps (fun _ => True) (fun _ => True) fun _ => True
  | .done _ => .done trivial
  | .read k => .read fun s _ => keeps_trivial (k s)
  | .write _ k => .write trivial (keeps_trivial k)
  | .fresh k => .fresh fun id => keeps_trivial (k id)
  | .call _ _ k => .call (fun _ _ _ _ => trivial) fun r _ => keeps_trivial (k r)

/-- A host all of whose code keeps a condition, when it is given operands that do. -/
structure Host.Keeps {σ : Type} (P : σ → Prop) (ok : Fault → Prop) (H : Host σ) : Prop where
  run : ∀ code self args, (∀ v ∈ self, v.Allowed ok) → (∀ v ∈ args, v.Allowed ok) →
    (H.run code self args).Keeps P ok (Reply.Allowed ok)
  get : ∀ handle self name, self.Allowed ok → (H.get handle self name).Keeps P ok (Reply.Allowed ok)
  invoke : ∀ handle self name args, self.Allowed ok → (∀ v ∈ args, v.Allowed ok) →
    (H.invoke handle self name args).Keeps P ok (Reply.Allowed ok)

end CodeTree
