import CodeTree.Ty
import Mathlib.Data.List.Forall2

/-!
# Types are told apart by their texts

A type is spelled as a word, the texts of its arguments in angle brackets if it has any, and a
pair of square brackets for each array around that: `Ty.word`, `Ty.arguments` and `Ty.rank` read
these off, and `chars_eq` puts the text together again. Only the word can hold letters of a class
name, so a text can be cut where its word ends, and an argument ends at the first comma or closing
bracket that is not its own.

* `word_append_inj`, `angled_append_inj`, `brackets_append_inj` — each of the three parts is cut
  off in one way only, whatever comes after it;
* `chars_append_inj` — so is a whole text, if what comes after cannot continue it;
* `beq_of_parts` — plainly named types of the same parts are equal.

Main statement: `text_identifies` — types print alike just if they are equal.
-/

namespace CodeTree.Ty

/-! ## Names -/

/-- The characters that structure the text of a type. -/
def isMark (c : Char) : Bool := c ∈ ['<', '>', '[', ']', ',', ' ']

/-- The words that stand for types other than classes. -/
def keywords : List String := ["void", "bool", "int", "float", "string", "object"]

/-- Whether a class name can be told from the rest of a text. -/
def isPlainName (name : String) : Bool :=
  name.toList.all (fun c => !isMark c) && !keywords.contains name

mutual
/-- Whether all classes that a type is made of have such names. Those in their ancestry are not
printed. -/
def isPlainlyNamed : Ty → Bool
  | .nominal name _ _ _ => isPlainName name
  | .array elem => isPlainlyNamed elem
  | .task result => isPlainlyNamed result
  | .func params ret => areAllPlainlyNamed params && isPlainlyNamed ret
  | .node inner => isPlainlyNamed inner
  | _ => true
/-- `isPlainlyNamed` along a list. -/
def areAllPlainlyNamed : List Ty → Bool
  | [] => true
  | ty :: tys => isPlainlyNamed ty && areAllPlainlyNamed tys
end

/-! ## The parts of a text -/

/-- The text of a type as characters. -/
def chars (ty : Ty) : List Char := ty.text.toList

/-- The word that a text starts with. -/
def word : Ty → List Char
  | .array elem => elem.word
  | .task _ => "Task".toList
  | .func .. => "Func".toList
  | .node _ => "Node".toList
  | ty => ty.chars

/-- The types in angle brackets, in the order in which they are printed. -/
def arguments : Ty → List Ty
  | .array elem => elem.arguments
  | .task result => [result]
  | .func params ret => params ++ [ret]
  | .node inner => [inner]
  | _ => []

/-- How many arrays are around the rest. -/
def rank : Ty → Nat
  | .array elem => elem.rank + 1
  | _ => 0

/-- What follows an argument: the others, each after a comma, and the closing bracket. -/
def continued : List Ty → List Char
  | [] => ['>']
  | ty :: tys => ',' :: ' ' :: (ty.chars ++ continued tys)

/-- Arguments in their brackets. -/
def angled : List Ty → List Char
  | [] => []
  | ty :: tys => '<' :: (ty.chars ++ continued tys)

/-- So many pairs of square brackets. -/
def brackets : Nat → List Char
  | 0 => []
  | n + 1 => '[' :: ']' :: brackets n

theorem brackets_append_pair (n : Nat) : brackets n ++ ['[', ']'] = brackets (n + 1) := by
  induction n with
  | zero => rfl
  | succ n ih => rw [brackets, List.cons_append, List.cons_append, ih, ← brackets]

theorem continued_concat (tys : List Ty) (ty : Ty) :
    continued (tys ++ [ty]) = ',' :: ' ' :: ((paramsText tys).toList ++ ty.chars ++ ['>']) := by
  induction tys with
  | nil => rfl
  | cons a tys ih =>
    rw [List.cons_append, continued, ih]
    simp [paramsText, chars]

/-- A signature prints its parameters and its return type as arguments. -/
theorem angled_concat (tys : List Ty) (ty : Ty) :
    angled (tys ++ [ty]) = '<' :: ((paramsText tys).toList ++ ty.chars ++ ['>']) := by
  cases tys with
  | nil => rfl
  | cons a tys =>
    rw [List.cons_append, angled, continued_concat]
    simp [paramsText, chars]

/-- A text is its word, its arguments and its pairs of square brackets. -/
theorem chars_eq : ∀ ty : Ty, ty.chars = ty.word ++ (angled ty.arguments ++ brackets ty.rank)
  | .void | .bool | .int | .float | .string | .object | .nominal .. => by
    simp [word, arguments, rank, angled, brackets]
  | .task result | .node result => by
    simp [word, arguments, rank, angled, continued, brackets, chars, text]
  | .func params ret => by
    simp [word, arguments, rank, angled_concat, brackets, chars, text]
  | .array elem => by
    have helem := chars_eq elem
    have htext : (Ty.array elem).chars = elem.chars ++ ['[', ']'] := by simp [chars, text]
    rw [htext, helem, word, arguments, rank, ← brackets_append_pair]
    simp only [List.append_assoc]

/-! ## Where parts end -/

/-- What may come after a word: nothing, or something that is no letter of a name. -/
def EndsWord (rest : List Char) : Prop := ∀ c ∈ rest.head?, isMark c = true

/-- What may come after a type: nothing, a comma or a closing angle bracket. -/
def EndsType (rest : List Char) : Prop := ∀ c ∈ rest.head?, c = ',' ∨ c = '>'

/-- A word is cut off in one way. -/
theorem word_append_inj {w w' s t : List Char} (hw : ∀ c ∈ w, isMark c = false)
    (hw' : ∀ c ∈ w', isMark c = false) (hs : EndsWord s) (ht : EndsWord t)
    (h : w ++ s = w' ++ t) : w = w' ∧ s = t := by
  induction w generalizing w' with
  | nil =>
    cases w' with
    | nil => exact ⟨rfl, h⟩
    | cons c w' =>
      rw [List.nil_append] at h
      subst h
      have hmark := hs c rfl
      rw [hw' c List.mem_cons_self] at hmark
      cases hmark
  | cons c w ih =>
    cases w' with
    | nil =>
      rw [List.nil_append] at h
      subst h
      have hmark := ht c rfl
      rw [hw c List.mem_cons_self] at hmark
      cases hmark
    | cons d w' =>
      rw [List.forall_mem_cons] at hw hw'
      rw [List.cons_append, List.cons_append, List.cons.injEq] at h
      obtain ⟨rfl, h⟩ := h
      obtain ⟨rfl, hst⟩ := ih hw.2 hw'.2 h
      exact ⟨rfl, hst⟩

/-- Pairs of square brackets are counted in one way. -/
theorem brackets_append_inj {k l : Nat} {s t : List Char} (hs : EndsType s) (ht : EndsType t)
    (h : brackets k ++ s = brackets l ++ t) : k = l ∧ s = t := by
  induction k generalizing l with
  | zero =>
    cases l with
    | zero => exact ⟨rfl, h⟩
    | succ l =>
      rw [brackets, List.nil_append] at h
      subst h
      rcases hs '[' rfl with hc | hc <;> exact absurd hc (by decide)
  | succ k ih =>
    cases l with
    | zero =>
      rw [brackets, brackets, List.nil_append] at h
      subst h
      rcases ht '[' rfl with hc | hc <;> exact absurd hc (by decide)
    | succ l =>
      simp only [brackets, List.cons_append, List.cons.injEq, true_and] at h
      obtain ⟨rfl, hst⟩ := ih h
      exact ⟨rfl, hst⟩

/-! ## Types from their parts -/

/-- The types that are printed as keywords. -/
def primitives : List Ty := [.void, .bool, .int, .float, .string, .object]

/-- The type without arguments that is printed as a word. -/
def ofWord (w : List Char) : Ty :=
  (primitives.find? fun ty => ty.chars == w).getD (.nominal (String.ofList w) none [] false)

/-- The type of a word and its arguments. -/
def ofParts (w : List Char) (args : List Ty) : Ty :=
  if args.isEmpty then ofWord w
  else if w == "Task".toList then .task (args.getLastD .void)
  else if w == "Node".toList then .node (args.getLastD .void)
  else .func args.dropLast (args.getLastD .void)

/-- So many arrays around a type. -/
def arrays : Nat → Ty → Ty
  | 0, ty => ty
  | n + 1, ty => .array (arrays n ty)

theorem allWithoutAncestry_eq_map (tys : List Ty) :
    allWithoutAncestry tys = tys.map withoutAncestry := by
  induction tys with
  | nil => rfl
  | cons ty tys ih => rw [allWithoutAncestry, ih, List.map_cons]

/-- A class whose name is no keyword is known by it. -/
theorem ofWord_of_isPlainName {name : String} (h : isPlainName name = true) :
    ofWord name.toList = .nominal name none [] false := by
  have hfind : (primitives.find? fun ty => ty.chars == name.toList) = none := by
    rw [List.find?_eq_none]
    intro ty hty heq
    have htext : ty.text = name := String.toList_inj.mp (eq_of_beq heq)
    have hmem : name ∈ keywords := by
      rw [← htext]
      have hall : ∀ ty ∈ primitives, ty.text ∈ keywords := by decide
      exact hall ty hty
    simp [isPlainName, hmem] at h
  rw [ofWord, hfind, String.ofList_toList]
  rfl

/-- Up to the ancestry of its classes, a type is what its parts say. -/
theorem withoutAncestry_eq : ∀ {ty : Ty}, ty.isPlainlyNamed = true →
    ty.withoutAncestry = arrays ty.rank (ofParts ty.word (ty.arguments.map withoutAncestry))
  | .void, _ | .bool, _ | .int, _ | .float, _ | .string, _ | .object, _ => rfl
  | .nominal name _ _ _, h => by
    have hname : ofWord name.toList = .nominal name none [] false := ofWord_of_isPlainName h
    simpa [withoutAncestry, rank, arguments, arrays, ofParts, word, chars, text] using hname.symm
  | .task result, _ => rfl
  | .node inner, _ => rfl
  | .func params ret, _ => by
    simp [withoutAncestry, rank, arguments, arrays, ofParts, word, allWithoutAncestry_eq_map]
  | .array elem, h => by
    rw [withoutAncestry, @withoutAncestry_eq elem h]
    rfl

/-- Types of the same parts are equal. -/
theorem beq_of_parts {x y : Ty} (hx : x.isPlainlyNamed = true) (hy : y.isPlainlyNamed = true)
    (hword : x.word = y.word) (hrank : x.rank = y.rank)
    (hargs : List.Forall₂ (fun a b => (a == b) = true) x.arguments y.arguments) :
    (x == y) = true := by
  have hmap : x.arguments.map withoutAncestry = y.arguments.map withoutAncestry := by
    rw [← List.forall₂_eq_eq_eq, List.forall₂_map_left_iff, List.forall₂_map_right_iff]
    exact hargs.imp fun a b hab => beq_iff.mp hab
  rw [beq_iff, withoutAncestry_eq hx, withoutAncestry_eq hy, hword, hrank, hmap]

/-! ## Texts and what comes after them -/

theorem areAllPlainlyNamed_iff {tys : List Ty} :
    areAllPlainlyNamed tys = true ↔ ∀ ty ∈ tys, ty.isPlainlyNamed = true := by
  induction tys with
  | nil => simp [areAllPlainlyNamed]
  | cons ty tys ih => simp [areAllPlainlyNamed, ih]

theorem isPlainlyNamed_of_mem_arguments : ∀ {ty : Ty}, ty.isPlainlyNamed = true →
    ∀ a ∈ ty.arguments, a.isPlainlyNamed = true
  | .void, _ | .bool, _ | .int, _ | .float, _ | .string, _ | .object, _ | .nominal .., _ => by
    simp [arguments]
  | .array elem, h => @isPlainlyNamed_of_mem_arguments elem h
  | .task result, h | .node result, h => by
    have hresult : result.isPlainlyNamed = true := h
    simpa [arguments] using hresult
  | .func params ret, h => by
    rw [isPlainlyNamed, Bool.and_eq_true, areAllPlainlyNamed_iff] at h
    simpa [arguments, or_imp, forall_and] using h

theorem sizeOf_argument : ∀ {ty a : Ty}, a ∈ ty.arguments → sizeOf a < sizeOf ty
  | .void, _, h | .bool, _, h | .int, _, h | .float, _, h | .string, _, h | .object, _, h
  | .nominal .., _, h => by simp [arguments] at h
  | .array elem, a, h => by
    have := @sizeOf_argument elem a h
    simp only [array.sizeOf_spec]
    omega
  | .task result, a, h | .node result, a, h => by
    cases List.mem_singleton.mp h
    simp
  | .func params ret, a, h => by
    simp only [func.sizeOf_spec]
    rcases List.mem_append.mp h with h | h
    · have := List.sizeOf_lt_of_mem h
      omega
    · cases List.mem_singleton.mp h
      omega

theorem isMark_of_mem {cs : List Char} (h : cs.all (fun c => !isMark c) = true) :
    ∀ c ∈ cs, isMark c = false := by
  simpa only [List.all_eq_true, Bool.not_eq_true'] using h

theorem isMark_of_mem_word : ∀ {ty : Ty}, ty.isPlainlyNamed = true →
    ∀ c ∈ ty.word, isMark c = false
  | .void, _ | .bool, _ | .int, _ | .float, _ | .string, _ | .object, _ =>
    isMark_of_mem rfl
  | .task _, _ | .func .., _ | .node _, _ => isMark_of_mem rfl
  | .array elem, h => @isMark_of_mem_word elem h
  | .nominal name _ _ _, h => by
    rw [isPlainlyNamed, isPlainName, Bool.and_eq_true] at h
    exact isMark_of_mem h.1

theorem EndsType.endsWord {rest : List Char} (h : EndsType rest) : EndsWord rest := by
  intro c hc
  rcases h c hc with rfl | rfl <;> rfl

theorem endsType_continued (tys : List Ty) (rest : List Char) :
    EndsType (continued tys ++ rest) := by
  intro c hc
  cases tys with
  | nil => exact .inr (Option.some.inj hc).symm
  | cons ty tys => exact .inl (Option.some.inj hc).symm

/-- Brackets of both kinds end a word. -/
theorem endsWord_brackets (tys : List Ty) (n : Nat) {rest : List Char} (h : EndsType rest) :
    EndsWord (angled tys ++ (brackets n ++ rest)) := by
  intro c hc
  cases tys with
  | cons ty tys =>
    cases hc
    rfl
  | nil =>
    cases n with
    | zero => exact h.endsWord c hc
    | succ n =>
      cases hc
      rfl

/-- The text of a type is cut off in one way, before anything that cannot continue it. -/
def IsCutOff (x : Ty) : Prop :=
  ∀ ⦃y : Ty⦄ ⦃s t : List Char⦄, y.isPlainlyNamed = true → EndsType s → EndsType t →
    x.chars ++ s = y.chars ++ t → (x == y) = true ∧ s = t

/-- What follows an argument is read in one way if each further argument is. -/
theorem continued_append_inj {xs ys : List Ty} {s t : List Char} (hx : ∀ x ∈ xs, x.IsCutOff)
    (hy : ∀ y ∈ ys, y.isPlainlyNamed = true) (h : continued xs ++ s = continued ys ++ t) :
    List.Forall₂ (fun a b => (a == b) = true) xs ys ∧ s = t := by
  induction xs generalizing ys with
  | nil =>
    cases ys with
    | nil => exact ⟨.nil, by simpa [continued] using h⟩
    | cons y ys => simp [continued] at h
  | cons x xs ih =>
    cases ys with
    | nil => simp [continued] at h
    | cons y ys =>
      rw [List.forall_mem_cons] at hx hy
      simp only [continued, List.cons_append, List.append_assoc, List.cons.injEq, true_and] at h
      obtain ⟨hxy, hrest⟩ := hx.1 hy.1 (endsType_continued xs s) (endsType_continued ys t) h
      obtain ⟨hall, hst⟩ := ih hx.2 hy.2 hrest
      exact ⟨.cons hxy hall, hst⟩

/-- Arguments are cut off in one way if each of them is. -/
theorem angled_append_inj {xs ys : List Ty} {k l : Nat} {s t : List Char}
    (hx : ∀ x ∈ xs, x.IsCutOff) (hy : ∀ y ∈ ys, y.isPlainlyNamed = true) (hs : EndsType s)
    (ht : EndsType t)
    (h : angled xs ++ (brackets k ++ s) = angled ys ++ (brackets l ++ t)) :
    List.Forall₂ (fun a b => (a == b) = true) xs ys ∧ brackets k ++ s = brackets l ++ t := by
  -- neither square brackets nor what comes after a type starts with an angle bracket
  have hopen : ∀ {n : Nat} {rest : List Char} {cs : List Char}, EndsType rest →
      brackets n ++ rest ≠ '<' :: cs := by
    intro n rest cs hrest heq
    cases n with
    | zero =>
      rw [brackets, List.nil_append] at heq
      subst heq
      rcases hrest '<' rfl with hc | hc <;> exact absurd hc (by decide)
    | succ n => simp [brackets] at heq
  cases xs with
  | nil =>
    cases ys with
    | nil => exact ⟨.nil, h⟩
    | cons y ys => exact absurd h (hopen hs)
  | cons x xs =>
    cases ys with
    | nil => exact absurd h.symm (hopen ht)
    | cons y ys =>
      rw [List.forall_mem_cons] at hx hy
      simp only [angled, List.cons_append, List.append_assoc, List.cons.injEq, true_and] at h
      obtain ⟨hxy, hrest⟩ := hx.1 hy.1 (endsType_continued xs _) (endsType_continued ys _) h
      obtain ⟨hall, hst⟩ := continued_append_inj hx.2 hy.2 hrest
      exact ⟨.cons hxy hall, hst⟩

/-- Part by part, the text of a plainly named type is cut off in one way. -/
theorem isCutOff_of_isPlainlyNamed (x : Ty) (hx : x.isPlainlyNamed = true) : x.IsCutOff := by
  intro y s t hy hs ht h
  have hargs : ∀ a ∈ x.arguments, a.IsCutOff := fun a ha =>
    have := sizeOf_argument ha
    isCutOff_of_isPlainlyNamed a (isPlainlyNamed_of_mem_arguments hx a ha)
  rw [chars_eq x, chars_eq y] at h
  simp only [List.append_assoc] at h
  obtain ⟨hword, h⟩ := word_append_inj (isMark_of_mem_word hx) (isMark_of_mem_word hy)
    (endsWord_brackets _ _ hs) (endsWord_brackets _ _ ht) h
  obtain ⟨hall, h⟩ := angled_append_inj hargs (isPlainlyNamed_of_mem_arguments hy) hs ht h
  obtain ⟨hrank, hst⟩ := brackets_append_inj hs ht h
  exact ⟨beq_of_parts hx hy hword hrank hall, hst⟩
termination_by sizeOf x

/-! ## Equal types -/

mutual
/-- A text does not show the ancestry of classes. -/
theorem text_withoutAncestry : ∀ ty : Ty, ty.withoutAncestry.text = ty.text
  | .void | .bool | .int | .float | .string | .object | .nominal .. => rfl
  | .array elem => by rw [withoutAncestry, text, text, text_withoutAncestry elem]
  | .task result => by rw [withoutAncestry, text, text, text_withoutAncestry result]
  | .func params ret => by
    rw [withoutAncestry, text, text, paramsText_allWithoutAncestry params, text_withoutAncestry ret]
  | .node inner => by rw [withoutAncestry, text, text, text_withoutAncestry inner]
theorem paramsText_allWithoutAncestry : ∀ tys : List Ty,
    paramsText (allWithoutAncestry tys) = paramsText tys
  | [] => rfl
  | ty :: tys => by
    rw [allWithoutAncestry, paramsText, paramsText, text_withoutAncestry ty,
      paramsText_allWithoutAncestry tys]
end

/-- Types print alike just if they are equal, however arrays, tasks, signatures and captured trees
are nested in them, provided that their class names hold no structuring character and are no
keywords. -/
theorem text_identifies {x y : Ty} (hx : x.isPlainlyNamed = true) (hy : y.isPlainlyNamed = true) :
    x.text = y.text ↔ (x == y) = true := by
  constructor
  · intro h
    have hchars : x.chars ++ [] = y.chars ++ [] := congrArg (·.toList ++ []) h
    exact (isCutOff_of_isPlainlyNamed x hx hy (fun _ hc => by cases hc) (fun _ hc => by cases hc)
      hchars).1
  · intro h
    rw [← text_withoutAncestry x, ← text_withoutAncestry y, beq_iff.mp h]

namespace Sample

/-- Takes classes of one name from wherever they stand. -/
def shelter (entry : Ty) : Ty := .func [.array (.array entry), .func [] entry] (.task (.node entry))

end Sample

open Sample in
theorem shelters_identified :
    (shelter (.rootClass "Task")).isPlainlyNamed = true ∧
      (shelter (.subclass "Task" .exception)).isPlainlyNamed = true ∧
      (shelter (.rootClass "Task")).text = "Func<Task[][], Func<Task>, Task<Node<Task>>>" ∧
      (shelter (.rootClass "Task") == shelter (.subclass "Task" .exception)) = true := by
  have hroot : (shelter (.rootClass "Task")).isPlainlyNamed = true := by decide
  have hsub : (shelter (.subclass "Task" .exception)).isPlainlyNamed = true := by decide
  exact ⟨hroot, hsub, by decide, (text_identifies hroot hsub).mp (by decide)⟩

/-- A class name with a structuring character is taken for a nested type. -/
example : (rootClass "int[]").text = (array .int).text ∧
    (rootClass "int[]" == array .int) = false := by
  decide

end CodeTree.Ty
