import CodeTree.Proofs.Layer

/-!
# Layers that correspond

What follows when two layers are alike, where one relation holds in all positions:

* `Shape.Like.children`, `Shape.Like.bindings_eq` — their children correspond in order, and they
  declare the same variables;
* `Shape.Like.comp` — likeness goes through a layer between the two;
* `Shape.like_map`, `Shape.mapM_map` — a layer in which results stand beside the children is as
  good as the layer itself.
-/

namespace CodeTree

/-! ## Layers that are alike -/

section Like

variable {ν α β γ : Type} {V : ν → ν → Prop}

theorem forall₂_flatMap {ι κ : Type} {R : α → β → Prop} {P : ι → κ → Prop} {f : ι → List α}
    {g : κ → List β} (h : ∀ i k, P i k → List.Forall₂ R (f i) (g k)) {is : List ι} {ks : List κ}
    (hs : List.Forall₂ P is ks) : List.Forall₂ R (is.flatMap f) (ks.flatMap g) := by
  induction hs with
  | nil => exact .nil
  | cons first _ ih =>
    rw [List.flatMap_cons, List.flatMap_cons]
    exact List.rel_append (h _ _ first) ih

theorem forall₂_toList {R : α → β → Prop} {o : Option α} {o' : Option β} (h : Option.Rel R o o') :
    List.Forall₂ R o.toList o'.toList := by
  cases h with
  | none => exact .nil
  | some h => exact .cons h .nil

/-- In lists that correspond, each element on the right has one on the left. -/
theorem exists_left_of_forall₂ {R : α → β → Prop} {as : List α} {bs : List β}
    (h : List.Forall₂ R as bs) : ∀ b ∈ bs, ∃ a ∈ as, R a b := by
  induction h with
  | nil => exact fun _ hb => nomatch hb
  | cons first _ ih =>
    rintro b (_ | ⟨_, hb⟩)
    · exact ⟨_, List.mem_cons_self, first⟩
    · obtain ⟨a, ha, hab⟩ := ih b hb
      exact ⟨a, List.mem_cons_of_mem _ ha, hab⟩

/-- In lists that correspond, each element on the left has one on the right. -/
theorem exists_right_of_forall₂ {R : α → β → Prop} {as : List α} {bs : List β}
    (h : List.Forall₂ R as bs) : ∀ a ∈ as, ∃ b ∈ bs, R a b :=
  exists_left_of_forall₂ (R := flip R) h.flip

/-- Lists that correspond do so position by position. -/
theorem exists_getElem?_of_forall₂ {R : α → β → Prop} {as : List α} {bs : List β}
    (h : List.Forall₂ R as bs) {i : Nat} {a : α} (ha : as[i]? = some a) :
    ∃ b, bs[i]? = some b ∧ R a b := by
  obtain ⟨hi, rfl⟩ := List.getElem?_eq_some_iff.mp ha
  obtain ⟨hlength, hget⟩ := List.forall₂_iff_get.mp h
  have hi' : i < bs.length := hlength ▸ hi
  exact ⟨bs[i], List.getElem?_eq_getElem hi', hget i hi hi'⟩

/-- Layers that are alike have corresponding children, in the same order. -/
theorem Shape.Like.children {R : α → β → Prop} {s : Shape ν α} {t : Shape ν β}
    (h : Shape.Like V (fun _ => R) s t) : List.Forall₂ R s.children t.children := by
  have hcase : ∀ c d, CaseLike R c d → List.Forall₂ R c.children d.children := fun c d h =>
    List.rel_append h.tests (.cons h.body .nil)
  have hhandler : ∀ c d, HandlerLike (fun _ => R) c d → List.Forall₂ R c.children d.children :=
    fun c d h => List.rel_append (forall₂_toList h.filter) (.cons h.body .nil)
  cases h with
  | empty | constant | parameter => exact .nil
  | block _ h => exact h
  | conditional ht ha hb => exact .cons ht (.cons ha (.cons hb .nil))
  | switch _ hv hc hd =>
    exact .cons hv (List.rel_append (forall₂_flatMap hcase hc) (forall₂_toList hd))
  | guarded hb hh hc =>
    exact .cons hb (List.rel_append (forall₂_flatMap hhandler hh) (forall₂_toList hc))
  | throw h | jump _ _ h | label _ h => exact forall₂_toList h
  | call _ hr ha => exact List.rel_append (forall₂_toList hr) ha
  | construct _ ha => exact ha
  | invoke ht ha => exact .cons ht ha
  | member _ ht => exact forall₂_toList ht
  | convert _ h | typeIs _ h | unary _ h | assign _ h | lambda _ h | await h | loop _ _ h =>
    exact .cons h .nil
  | binary _ ha hb => exact .cons ha (.cons hb .nil)
  | newArray _ h => exact h

/-- Layers that are alike declare the same variables. -/
theorem Shape.Like.bindings_eq {R : Position → α → β → Prop} {s : Shape ν α} {t : Shape ν β}
    (h : Shape.Like V R s t) : s.bindings = t.bindings := by
  cases h with
  | guarded _ hh _ =>
    simp only [Shape.bindings]
    induction hh with
    | nil => rfl
    | cons first _ ih => rw [List.filterMap_cons, List.filterMap_cons, first.binder, ih]
  | _ => rfl

theorem forall₂_comp {R : α → β → Prop} {T : β → γ → Prop} {as : List α} {bs : List β}
    (h : List.Forall₂ R as bs) : ∀ {cs : List γ}, List.Forall₂ T bs cs →
      List.Forall₂ (fun a c => ∃ b, R a b ∧ T b c) as cs := by
  induction h with
  | nil => intro cs h'; cases h'; exact .nil
  | cons first _ ih =>
    intro cs h'
    cases h' with
    | cons second rest => exact .cons ⟨_, first, second⟩ (ih rest)

theorem optionRel_comp {R : α → β → Prop} {T : β → γ → Prop} {o : Option α} {o' : Option β}
    {o'' : Option γ} (h : Option.Rel R o o') (h' : Option.Rel T o' o'') :
    Option.Rel (fun a c => ∃ b, R a b ∧ T b c) o o'' := by
  cases h with
  | none => cases h'; exact .none
  | some first => cases h' with
    | some second => exact .some ⟨_, first, second⟩

theorem casesLike_comp {R : α → β → Prop} {T : β → γ → Prop} {cs : List (Case α)}
    {ds : List (Case β)} {es : List (Case γ)} (h : List.Forall₂ (CaseLike R) cs ds)
    (h' : List.Forall₂ (CaseLike T) ds es) :
    List.Forall₂ (CaseLike fun a c => ∃ b, R a b ∧ T b c) cs es := by
  refine (forall₂_comp h h').imp fun c e hce => ?_
  obtain ⟨d, h, h'⟩ := hce
  exact ⟨forall₂_comp h.tests h'.tests, _, h.body, h'.body⟩

theorem handlersLike_comp {R : Position → α → β → Prop} {T : β → γ → Prop}
    {cs : List (Handler α)} {ds : List (Handler β)} {es : List (Handler γ)}
    (h : List.Forall₂ (HandlerLike R) cs ds)
    (h' : List.Forall₂ (HandlerLike fun _ => T) ds es) :
    List.Forall₂ (HandlerLike fun q a c => ∃ b, R q a b ∧ T b c) cs es := by
  refine (forall₂_comp h h').imp fun c e hce => ?_
  obtain ⟨d, h, h'⟩ := hce
  exact ⟨h.exceptionTy.trans h'.exceptionTy, h.binder.trans h'.binder,
    optionRel_comp h.filter h'.filter, _, h.body, h'.body⟩

/-- Layers that are alike by way of a third one. -/
theorem Shape.Like.comp {R : Position → α → β → Prop} {T : β → γ → Prop} {s : Shape ν α}
    {t : Shape ν β} {u : Shape ν γ} (h : Shape.Like Eq R s t)
    (h' : Shape.Like Eq (fun _ => T) t u) :
    Shape.Like Eq (fun q a c => ∃ b, R q a b ∧ T b c) s u := by
  cases h with
  | empty => cases h' with | empty => exact .empty
  | constant v => cases h' with | constant v' => exact .constant (v.trans v')
  | parameter p => cases h' with | parameter => exact .parameter p
  | block locals b => cases h' with | block _ b' => exact .block locals (forall₂_comp b b')
  | conditional t a b =>
    cases h' with
    | conditional t' a' b' => exact .conditional ⟨_, t, t'⟩ ⟨_, a, a'⟩ ⟨_, b, b'⟩
  | switch comparer v c d =>
    cases h' with
    | switch _ v' c' d' =>
      exact .switch comparer ⟨_, v, v'⟩ (casesLike_comp c c') (optionRel_comp d d')
  | guarded b c d =>
    cases h' with
    | guarded b' c' d' => exact .guarded ⟨_, b, b'⟩ (handlersLike_comp c c') (optionRel_comp d d')
  | throw v => cases h' with | throw v' => exact .throw (optionRel_comp v v')
  | call method r a =>
    cases h' with
    | call _ r' a' => exact .call method (optionRel_comp r r') (forall₂_comp a a')
  | construct ctor a => cases h' with | construct _ a' => exact .construct ctor (forall₂_comp a a')
  | invoke t a => cases h' with | invoke t' a' => exact .invoke ⟨_, t, t'⟩ (forall₂_comp a a')
  | member read t => cases h' with | member _ t' => exact .member read (optionRel_comp t t')
  | convert kind a => cases h' with | convert _ a' => exact .convert kind ⟨_, a, a'⟩
  | typeIs testTy a => cases h' with | typeIs _ a' => exact .typeIs testTy ⟨_, a, a'⟩
  | unary op a => cases h' with | unary _ a' => exact .unary op ⟨_, a, a'⟩
  | binary op a b => cases h' with | binary _ a' b' => exact .binary op ⟨_, a, a'⟩ ⟨_, b, b'⟩
  | assign target a => cases h' with | assign _ a' => exact .assign target ⟨_, a, a'⟩
  | lambda params b => cases h' with | lambda _ b' => exact .lambda params ⟨_, b, b'⟩
  | await a => cases h' with | await a' => exact .await ⟨_, a, a'⟩
  | newArray elem i => cases h' with | newArray _ i' => exact .newArray elem (forall₂_comp i i')
  | jump kind target v =>
    cases h' with | jump _ _ v' => exact .jump kind target (optionRel_comp v v')
  | label target d => cases h' with | label _ d' => exact .label target (optionRel_comp d d')
  | loop breakLabel continueLabel b =>
    cases h' with | loop _ _ b' => exact .loop breakLabel continueLabel ⟨_, b, b'⟩

/-- The positions of a layer are known where it is like another one. -/
theorem Shape.Like.with_positions {R : α → β → Prop} {s : Shape ν α} {t : Shape ν β}
    (h : Shape.Like Eq (fun _ => R) s t) :
    Shape.Like Eq (fun q a b => (q, a) ∈ s.positions ∧ R a b) s t := by
  have hself : Shape.Like Eq (fun q a b => a = b ∧ (q, a) ∈ s.positions) s s :=
    Shape.like_self (fun _ _ => rfl) fun _ a ha => ⟨rfl, ha⟩
  refine (hself.comp h).imp (fun _ _ h => h) fun _ a b hab => ?_
  obtain ⟨_, ⟨rfl, ha⟩, hab⟩ := hab
  exact ⟨ha, hab⟩

/-- The children of a layer are known where it is like another one. -/
theorem Shape.Like.with_mem {R : α → β → Prop} {s : Shape ν α} {t : Shape ν β}
    (h : Shape.Like Eq (fun _ => R) s t) :
    Shape.Like Eq (fun _ a b => a ∈ s.children ∧ R a b) s t :=
  h.with_positions.imp (fun _ _ h => h) fun _ _ _ hab =>
    ⟨Shape.mem_children_of_mem_positions hab.1, hab.2⟩

theorem optionRel_map {R : α → β → Prop} {f : γ → α} {o : Option γ} {o' : Option β} :
    Option.Rel R (o.map f) o' ↔ Option.Rel (fun a b => R (f a) b) o o' := by
  cases o with
  | none => exact ⟨fun h => by cases h; exact .none, fun h => by cases h; exact .none⟩
  | some a =>
    exact ⟨fun h => by cases h with | some h => exact .some h,
      fun h => by cases h with | some h => exact .some h⟩

theorem caseLike_map {R : α → β → Prop} {f : γ → α} {c : Case γ} {d : Case β} :
    CaseLike R (c.map f) d ↔ CaseLike (fun a b => R (f a) b) c d :=
  ⟨fun h => ⟨List.forall₂_map_left_iff.mp h.tests, h.body⟩,
    fun h => ⟨List.forall₂_map_left_iff.mpr h.tests, h.body⟩⟩

theorem handlerLike_map {R : α → β → Prop} {f : γ → α} {h : Handler γ} {k : Handler β} :
    HandlerLike (fun _ => R) (h.map f) k ↔ HandlerLike (fun _ a b => R (f a) b) h k :=
  ⟨fun l => ⟨l.exceptionTy, l.binder, optionRel_map.mp l.filter, l.body⟩,
    fun l => ⟨l.exceptionTy, l.binder, optionRel_map.mpr l.filter, l.body⟩⟩

/-- A layer of results is like another one when the results of its children correspond. -/
theorem Shape.like_map {V : ν → ν → Prop} {R : α → β → Prop} {f : γ → α} {s : Shape ν γ}
    {t : Shape ν β} :
    Shape.Like V (fun _ => R) (s.map f) t ↔ Shape.Like V (fun _ a b => R (f a) b) s t := by
  cases s <;> constructor <;> intro h <;> cases h <;> constructor <;>
    simp_all only [optionRel_map, caseLike_map, handlerLike_map, List.forall₂_map_left_iff]

end Like

/-! ## One side of a correspondence -/

section Inversion

variable {ν α β : Type} {V : ν → ν → Prop} {R : α → β → Prop} {s : Shape ν α} {t : Shape ν β}

namespace Shape.Like

theorem of_convert {kind : ConvertKind} {b : β}
    (h : Shape.Like V (fun _ => R) s (.convert kind b)) : ∃ a, s = .convert kind a ∧ R a b := by
  cases h with
  | convert _ h => exact ⟨_, rfl, h⟩

theorem to_convert {kind : ConvertKind} {a : α}
    (h : Shape.Like V (fun _ => R) (.convert kind a) t) : ∃ b, t = .convert kind b ∧ R a b := by
  cases h with
  | convert _ h => exact ⟨_, rfl, h⟩

theorem of_lambda {params : List Param} {b : β}
    (h : Shape.Like V (fun _ => R) s (.lambda params b)) : ∃ a, s = .lambda params a ∧ R a b := by
  cases h with
  | lambda _ h => exact ⟨_, rfl, h⟩

theorem of_member {read : Member} {b : β}
    (h : Shape.Like V (fun _ => R) s (.member (some b) read)) :
    ∃ a, s = .member (some a) read ∧ R a b := by
  cases h with
  | member _ h =>
    cases h with
    | some h => exact ⟨_, rfl, h⟩

theorem of_construct {ctor : Ctor} {bs : List β}
    (h : Shape.Like V (fun _ => R) s (.construct ctor bs)) :
    ∃ as, s = .construct ctor as ∧ List.Forall₂ R as bs := by
  cases h with
  | construct _ h => exact ⟨_, rfl, h⟩

theorem to_construct {ctor : Ctor} {as : List α}
    (h : Shape.Like V (fun _ => R) (.construct ctor as) t) :
    ∃ bs, t = .construct ctor bs ∧ List.Forall₂ R as bs := by
  cases h with
  | construct _ h => exact ⟨_, rfl, h⟩

theorem of_call {receiver : Option β} {method : Method} {bs : List β}
    (h : Shape.Like V (fun _ => R) s (.call receiver method bs)) :
    ∃ o as, s = .call o method as ∧ Option.Rel R o receiver ∧ List.Forall₂ R as bs := by
  cases h with
  | call _ hr ha => exact ⟨_, _, rfl, hr, ha⟩

theorem to_call {receiver : Option α} {method : Method} {as : List α}
    (h : Shape.Like V (fun _ => R) (.call receiver method as) t) :
    ∃ o bs, t = .call o method bs ∧ Option.Rel R receiver o ∧ List.Forall₂ R as bs := by
  cases h with
  | call _ hr ha => exact ⟨_, _, rfl, hr, ha⟩

theorem of_invoke {target : β} {bs : List β} (h : Shape.Like V (fun _ => R) s (.invoke target bs)) :
    ∃ a as, s = .invoke a as ∧ R a target ∧ List.Forall₂ R as bs := by
  cases h with
  | invoke ht ha => exact ⟨_, _, rfl, ht, ha⟩

theorem to_invoke {target : α} {as : List α} (h : Shape.Like V (fun _ => R) (.invoke target as) t) :
    ∃ b bs, t = .invoke b bs ∧ R target b ∧ List.Forall₂ R as bs := by
  cases h with
  | invoke ht ha => exact ⟨_, _, rfl, ht, ha⟩

end Shape.Like

end Inversion

/-! ## Maps of layers -/

section Map

variable {ν α β γ : Type}

theorem Case.map_congr {f g : α → β} {c : Case α} (h : ∀ a ∈ c.children, f a = g a) :
    c.map f = c.map g := by
  rw [Case.children, List.forall_mem_append, List.forall_mem_singleton] at h
  rw [Case.map, Case.map, List.map_congr_left h.1, h.2]

theorem optionMap_congr {f g : α → β} {o : Option α} (h : ∀ a ∈ o.toList, f a = g a) :
    o.map f = o.map g :=
  Option.map_congr fun a ha => h a (Option.mem_toList.mpr ha)

theorem Handler.map_congr {f g : α → β} {k : Handler α} (h : ∀ a ∈ k.children, f a = g a) :
    k.map f = k.map g := by
  rw [Handler.children, List.forall_mem_append, List.forall_mem_singleton] at h
  rw [Handler.map, Handler.map, optionMap_congr h.1, h.2]

/-- What becomes of a layer depends on its children alone. -/
theorem Shape.map_congr {f g : α → β} {s : Shape ν α} (h : ∀ a ∈ s.children, f a = g a) :
    s.map f = s.map g := by
  cases s with
  | switch value cases default comparer =>
    rw [Shape.children, List.forall_mem_cons, List.forall_mem_append, List.forall_mem_flatMap] at h
    have hcases : cases.map (Case.map f) = cases.map (Case.map g) :=
      List.map_congr_left fun c hc => Case.map_congr (h.2.1 c hc)
    rw [Shape.map, Shape.map, h.1, hcases, optionMap_congr h.2.2]
  | guarded body handlers cleanup =>
    rw [Shape.children, List.forall_mem_cons, List.forall_mem_append, List.forall_mem_flatMap] at h
    have hhandlers : handlers.map (Handler.map f) = handlers.map (Handler.map g) :=
      List.map_congr_left fun k hk => Handler.map_congr (h.2.1 k hk)
    rw [Shape.map, Shape.map, h.1, hhandlers, optionMap_congr h.2.2]
  | call receiver method args =>
    rw [Shape.children, List.forall_mem_append] at h
    rw [Shape.map, Shape.map, optionMap_congr h.1, List.map_congr_left h.2]
  | invoke target args =>
    rw [Shape.children, List.forall_mem_cons] at h
    rw [Shape.map, Shape.map, h.1, List.map_congr_left h.2]
  | block locals body => exact congrArg (Shape.block locals) (List.map_congr_left h)
  | construct ctor args => exact congrArg (Shape.construct ctor) (List.map_congr_left h)
  | newArray elem items => exact congrArg (Shape.newArray elem) (List.map_congr_left h)
  | throw value => rw [Shape.map, Shape.map, optionMap_congr h]
  | member target read => rw [Shape.map, Shape.map, optionMap_congr h]
  | jump kind target value => rw [Shape.map, Shape.map, optionMap_congr h]
  | label target default => rw [Shape.map, Shape.map, optionMap_congr h]
  | _ => simp_all [Shape.map, Shape.children]

/-- One map after another. -/
theorem Shape.map_map (f : α → β) (g : β → γ) (s : Shape ν α) :
    (s.map f).map g = s.map fun a => g (f a) := by
  cases s <;> simp [Shape.map, Case.map, Handler.map, Function.comp_def]

end Map

/-! ## Traversals of layers with results -/

section MapM

variable {m : Type → Type} [Monad m] {ν α β γ : Type}

theorem optionMapM_map (g : α → γ) (f : γ → m β) (o : Option α) :
    (o.map g).mapM f = o.mapM fun a => f (g a) := by
  cases o <;> rfl

theorem Handler.mapM_map (g : α → γ) (f : γ → m β) (h : Handler α) :
    (h.map g).mapM f = h.mapM fun a => f (g a) := by
  simp only [Handler.map, Handler.mapM, optionMapM_map]

variable [LawfulMonad m]

theorem Case.mapM_map (g : α → γ) (f : γ → m β) (c : Case α) :
    (c.map g).mapM f = c.mapM fun a => f (g a) := by
  simp only [Case.map, Case.mapM, List.mapM_map, Function.comp_def]

/-- Visiting the results that stand beside the children is visiting the children. -/
theorem Shape.mapM_map (g : α → γ) (f : γ → m β) (s : Shape ν α) :
    (s.map g).mapM f = s.mapM fun a => f (g a) := by
  cases s <;>
    simp only [Shape.map, Shape.mapM, List.mapM_map, optionMapM_map, Case.mapM_map,
      Handler.mapM_map, Function.comp_def]

theorem toList_mapM (f : α → m β) (o : Option α) :
    Option.toList <$> o.mapM f = o.toList.mapM f := by
  cases o <;> simp

theorem Case.children_mapM (f : α → m β) (c : Case α) :
    Case.children <$> c.mapM f = c.children.mapM f := by
  simp [Case.mapM, Case.children]

theorem Handler.children_mapM (f : α → m β) (h : Handler α) :
    Handler.children <$> h.mapM f = h.children.mapM f := by
  simp [Handler.mapM, Handler.children, ← toList_mapM]

theorem flatMap_mapM {κ κ' : Type} (parts : κ → List α) (parts' : κ' → List β) (f : α → m β)
    (g : κ → m κ') (h : ∀ k, parts' <$> g k = (parts k).mapM f) (ks : List κ) :
    List.flatMap parts' <$> ks.mapM g = (ks.flatMap parts).mapM f := by
  induction ks with
  | nil => simp
  | cons k ks ih =>
    rw [List.mapM_cons, List.flatMap_cons, List.mapM_append, ← ih, ← h]
    simp

/-- The children of a visited layer are its visited children. -/
theorem Shape.children_mapM (f : α → m β) (s : Shape ν α) :
    Shape.children <$> s.mapM f = s.children.mapM f := by
  have hcases := flatMap_mapM Case.children Case.children f (Case.mapM f) (Case.children_mapM f)
  have hhandlers := flatMap_mapM Handler.children Handler.children f (Handler.mapM f)
    (Handler.children_mapM f)
  cases s <;> simp [Shape.mapM, Shape.children, ← toList_mapM, ← hcases, ← hhandlers]

end MapM

end CodeTree
