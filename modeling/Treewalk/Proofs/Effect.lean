import Treewalk.Binding
import Treewalk.Proofs.Shape

/-!
# What binding names does

Each piece of code has an `Effect` on the walk that binds names: it enters the names that it
declares into the innermost scope, and finds distances for its own references only. The open scopes
of the walk are compared with the scopes of the text by `Layer.FitAll`.
-/

namespace Treewalk

/-! ### Open scopes -/

namespace Names

/-- Enters a name into the innermost scope. -/
def define (x : String) : List Names → List Names
  | [] => []
  | t :: ts => t.insert x true :: ts

/-- Enters names into the innermost scope in turn. -/
def defineAll (xs : List String) (ts : List Names) : List Names := xs.foldl (fun ts x => define x ts) ts

/-- Marks the name whose initializer comes next. -/
def await (x : String) : List Names → List Names
  | [] => []
  | t :: ts => t.insert x false :: ts

@[simp] theorem define_await (x : String) (ts : List Names) : define x (await x ts) = define x ts := by
  cases ts <;> simp [define, await]

@[simp] theorem tail_define (x : String) (ts : List Names) : (define x ts).tail = ts.tail := by
  cases ts <;> rfl

@[simp] theorem tail_defineAll (xs : List String) (ts : List Names) :
    (defineAll xs ts).tail = ts.tail := by
  induction xs generalizing ts with
  | nil => rfl
  | cons x xs ih => exact (ih (define x ts)).trans (tail_define x ts)

theorem defineAll_append (xs ys : List String) (ts : List Names) :
    defineAll (xs ++ ys) ts = defineAll ys (defineAll xs ts) := List.foldl_append ..

theorem defineAll_eq_nil {xs : List String} {ts : List Names} : defineAll xs ts = [] ↔ ts = [] := by
  induction xs generalizing ts with
  | nil => exact Iff.rfl
  | cons x xs ih =>
    refine Iff.trans (@ih (define x ts)) ?_
    cases ts <;> simp [define]

end Names

/-- The names of an open scope are those of the layer. -/
def Layer.Fits (l : Layer) (t : Names) : Prop :=
  ∀ x, (t.get? x = some true ↔ x ∈ l.names) ∧ (t.get? x = some false ↔ l.pending = some x)

namespace Layer.Fits
variable {l : Layer} {t : Names}

theorem contains_iff (h : l.Fits t) (x : String) : t.contains x = true ↔ l.Declares x := by
  obtain ⟨ht, hf⟩ := h x
  rw [Layer.Declares, ← ht, ← hf, Table.contains]
  rcases t.get? x with _ | _ | _ <;> simp

theorem empty (origin : Origin) : Layer.Fits { origin } {} := fun x => by
  simp [EmptyCollection.emptyCollection]

theorem define (h : l.Fits t) (hp : l.pending = none) (x : String) :
    Layer.Fits { l with names := x :: l.names } (t.insert x true) := by
  intro y
  obtain ⟨ht, hf⟩ := h y
  by_cases hxy : x = y
  · simp [hxy, hp]
  · simp [hxy, ht, hf, Ne.symm hxy]

theorem await (h : l.Fits t) (hp : l.pending = none) {x : String} (hx : t.contains x = false) :
    Layer.Fits { l with pending := some x } (t.insert x false) := by
  intro y
  obtain ⟨ht, hf⟩ := h y
  by_cases hxy : x = y
  · subst hxy
    have hn : ¬ l.Declares x := by rw [← h.contains_iff, hx]; simp
    simp only [Table.get?_insert_self, Option.some.injEq, Bool.false_eq_true, false_iff,
      and_true]
    exact fun hm => hn (.inl hm)
  · simp [hxy, ht, hf, hp]

end Layer.Fits

/-- No variable waits for its initializer. -/
def Layer.Settled (σ : List Layer) : Prop := ∀ l ∈ σ, l.pending = none

/-- The open scopes are those of the layers. -/
def Layer.FitAll : List Layer → List Names → Prop
  | [], [] => True
  | l :: σ, t :: ts => l.Fits t ∧ FitAll σ ts
  | _, _ => False

namespace Layer.FitAll
variable {σ : List Layer} {ts : List Names}

theorem distance?_eq (h : Layer.FitAll σ ts) (x : String) :
    Context.distance? x ts = Layer.distance? x σ := by
  induction σ generalizing ts with
  | nil => cases ts with
    | nil => rfl
    | cons t ts => exact h.elim
  | cons l σ ih => cases ts with
    | nil => exact h.elim
    | cons t ts =>
      have hl := h.1.contains_iff x
      rw [Context.distance?, Layer.distance?, List.findIdx?_cons, ih h.2, Layer.distance?]
      by_cases hd : l.Declares x
      · simp [hd, hl.2 hd]
      · have : t.contains x = false := by rw [← Bool.not_eq_true, hl]; exact hd
        simp [hd, this]

theorem define (h : Layer.FitAll σ ts) (hs : Layer.Settled σ) (x : String) :
    Layer.FitAll (Layer.define x σ) (Names.define x ts) := by
  match σ, ts, h with
  | [], [], _ => trivial
  | l :: σ, t :: ts, h => exact ⟨h.1.define (hs l (by simp)) x, h.2⟩

end Layer.FitAll

theorem Layer.Settled.define {σ : List Layer} (h : Layer.Settled σ) (x : String) :
    Layer.Settled (Layer.define x σ) := by
  cases σ with
  | nil => exact h
  | cons l σ => exact List.forall_mem_cons.2 ⟨h l (by simp), fun l' hl' => h l' (by simp [hl'])⟩

theorem Layer.Settled.defineAll {σ : List Layer} (h : Layer.Settled σ) (xs : List String) :
    Layer.Settled (Layer.defineAll xs σ) := by
  induction xs generalizing σ with
  | nil => exact h
  | cons x xs ih => exact ih (h.define x)

theorem Layer.FitAll.defineAll {σ : List Layer} {ts : List Names} (h : Layer.FitAll σ ts)
    (hs : Layer.Settled σ) (xs : List String) :
    Layer.FitAll (Layer.defineAll xs σ) (Names.defineAll xs ts) := by
  induction xs generalizing σ ts with
  | nil => exact h
  | cons x xs ih => exact ih (h.define hs x) (hs.define x)

/-- The order in which names are entered does not matter. -/
theorem Layer.FitAll.congr {l l' : Layer} {σ : List Layer} {ts : List Names}
    (h : Layer.FitAll (l :: σ) ts) (hn : ∀ x, x ∈ l'.names ↔ x ∈ l.names)
    (hp : l'.pending = l.pending) : Layer.FitAll (l' :: σ) ts := by
  cases ts with
  | nil => exact h.elim
  | cons t ts => exact ⟨fun x => by rw [hn, hp]; exact h.1 x, h.2⟩

theorem Layer.FitAll.call {σ : List Layer} {ts : List Names} (h : Layer.FitAll σ ts)
    (hs : Layer.Settled σ) (decl : FunctionDecl) :
    Layer.FitAll (.call decl :: σ)
      (Names.defineAll (decl.params.map (·.lexeme)) ({} :: ts)) := by
  have hnew : Layer.FitAll ({ origin := .call decl } :: σ) ({} :: ts) := ⟨.empty _, h⟩
  have hall := hnew.defineAll (List.forall_mem_cons.2 ⟨rfl, hs⟩) (decl.params.map (·.lexeme))
  rw [Layer.defineAll_layer] at hall
  exact hall.congr (by simp [Layer.call]) rfl

/-! ### What a piece of code does to the walk -/

/-- The reference whose distance is found. -/
def Finding.id? : Finding → Option Nat
  | .local id _ => some id
  | _ => none

/-- Findings `fs` grow to `fs'`, by distances of the references `ids` only, in their order. -/
def Finding.Adds (ids : List Nat) (fs fs' : List Finding) : Prop :=
  ∃ new, fs' = new ++ fs ∧ (new.reverse.filterMap Finding.id?).Sublist ids

namespace Finding.Adds
variable {ids ids' : List Nat} {fs fs' fs'' : List Finding}

theorem refl (fs : List Finding) : Adds [] fs fs := ⟨[], rfl, .refl []⟩

theorem trans (h : Adds ids fs fs') (h' : Adds ids' fs' fs'') : Adds (ids ++ ids') fs fs'' := by
  obtain ⟨new, rfl, hnew⟩ := h
  obtain ⟨new', rfl, hnew'⟩ := h'
  refine ⟨new' ++ new, by simp, ?_⟩
  rw [List.reverse_append, List.filterMap_append]
  exact hnew.append hnew'

theorem mem (h : Adds ids fs fs') {f : Finding} (hf : f ∈ fs) : f ∈ fs' := by
  obtain ⟨new, rfl, -⟩ := h
  exact List.mem_append_right _ hf

theorem of_local (h : Adds ids fs fs') {id d : Nat} (hf : Finding.local id d ∈ fs') :
    Finding.local id d ∈ fs ∨ id ∈ ids := by
  obtain ⟨new, rfl, hnew⟩ := h
  rcases List.mem_append.1 hf with hm | hm
  · exact .inr (hnew.subset (List.mem_filterMap.2 ⟨_, List.mem_reverse.2 hm, rfl⟩))
  · exact .inl hm

theorem of_other {f : Finding} (hf : f.id? = none) (fs : List Finding) : Adds [] fs (f :: fs) :=
  ⟨[f], rfl, by simp [hf]⟩

end Finding.Adds

/-- Between two points the walk enters the names `xs` into the innermost scope, or finds them
declared if there is none, and finds distances of the references `ids` only. -/
structure Effect (xs : List String) (ids : List Nat) (c c' : Context) : Prop where
  scopes : c'.scopes = Names.defineAll xs c.scopes
  found : Finding.Adds ids c.found c'.found
  declared : ∀ a, .declared a ∈ c'.found → .declared a ∈ c.found ∨ c.scopes = [] ∧ a ∈ xs

namespace Effect
variable {xs ys : List String} {ids ids' : List Nat} {c c' c'' : Context}

theorem refl (c : Context) : Effect [] [] c c := ⟨rfl, .refl _, fun _ => .inl⟩

theorem trans (h : Effect xs ids c c') (h' : Effect ys ids' c' c'') :
    Effect (xs ++ ys) (ids ++ ids') c c'' := by
  refine ⟨by rw [h'.scopes, h.scopes, Names.defineAll_append], h.found.trans h'.found,
    fun a ha => ?_⟩
  rcases h'.declared a ha with ha | ⟨hs, ha⟩
  · exact (h.declared a ha).imp_right (.imp_right (List.mem_append_left _))
  · rw [h.scopes, Names.defineAll_eq_nil] at hs
    exact .inr ⟨hs, List.mem_append_right _ ha⟩

theorem andThen (h : Effect [] ids c c') (h' : Effect xs ids' c' c'') :
    Effect xs (ids ++ ids') c c'' := h.trans h'

theorem andExpr (h : Effect xs ids c c') (h' : Effect [] ids' c' c'') :
    Effect xs (ids ++ ids') c c'' := by
  simpa using h.trans h'

/-- How many loops are open does not matter. -/
theorem inLoops {n : Nat} (h : Effect xs ids { c with loops := n } c') : Effect xs ids c c' :=
  ⟨h.scopes, h.found, h.declared⟩

/-- Code that enters no names finds none declared. -/
theorem silent (h : Effect [] ids c c') {a : String} (ha : .declared a ∈ c'.found) :
    .declared a ∈ c.found := (h.declared a ha).resolve_right (by simp)

theorem find (c : Context) {f : Finding} (hf : f.id? = none) (hd : ∀ a, .declared a ≠ f) :
    Effect [] [] c (c.find f) :=
  ⟨rfl, .of_other hf _, fun a ha => .inl ((List.mem_cons.1 ha).resolve_left (hd a))⟩

theorem fault (c : Context) (t : Token) (f : BindingFault) : Effect [] [] c (c.fault t f) :=
  find c rfl (by simp)

/-- A fault that is reported in some case only. -/
theorem faultIf (p : Prop) [Decidable p] (c : Context) (t : Token) (f : BindingFault) :
    Effect [] [] c (if p then c.fault t f else c) := by
  split
  · exact fault c t f
  · exact refl c

theorem refer (c : Context) (ref : Ref) : Effect [] [ref.id] c (c.refer ref) := by
  unfold Context.refer
  split
  · exact ⟨rfl, ⟨[_], rfl, .refl _⟩, fun a ha => .inl ((List.mem_cons.1 ha).resolve_left (by simp))⟩
  · exact ⟨rfl, ⟨[], rfl, by simp⟩, fun _ => .inl⟩

/-- An `Effect` of code in a scope of its own. -/
theorem enclosed (h : Effect xs ids c.push c') : Effect [] ids c c'.pop := by
  refine ⟨?_, h.found, fun a ha => .inl ((h.declared a ha).resolve_right (by simp [Context.push]))⟩
  rw [Context.pop, h.scopes, Names.tail_defineAll]
  rfl

theorem fits {σ : List Layer} (h : Effect xs ids c c') (hσ : Layer.FitAll σ c.scopes)
    (hs : Layer.Settled σ) : Layer.FitAll (Layer.defineAll xs σ) c'.scopes := by
  rw [h.scopes]
  exact hσ.defineAll hs xs

theorem fitsExpr {σ : List Layer} (h : Effect [] ids c c') (hσ : Layer.FitAll σ c.scopes) :
    Layer.FitAll σ c'.scopes := by
  rw [h.scopes]
  exact hσ

theorem weaken (h : Effect xs [] c c') (ids : List Nat) : Effect xs ids c c' := by
  obtain ⟨new, he, hnew⟩ := h.found
  exact ⟨h.scopes, ⟨new, he, List.sublist_nil.1 hnew ▸ List.nil_sublist ids⟩, h.declared⟩

end Effect

namespace Context
variable (c : Context) (name : Token)

@[simp] theorem note_found (x : String) (b : Bool) : (c.note x b).found = c.found := by
  unfold note
  split <;> rfl

@[simp] theorem note_true_scopes (x : String) :
    (c.note x true).scopes = Names.define x c.scopes := by
  unfold note
  split <;> simp_all [Names.define]

@[simp] theorem define_scopes : (c.define name).scopes = Names.define name.lexeme c.scopes :=
  c.note_true_scopes name.lexeme

@[simp] theorem define_found : (c.define name).found = c.found := c.note_found name.lexeme true

@[simp] theorem declare_scopes : (c.declare name).scopes = Names.await name.lexeme c.scopes := by
  unfold declare
  split
  · next t ts h =>
    have hn : (c.note name.lexeme false).scopes = Names.await name.lexeme c.scopes := by
      simp [note, h, Names.await]
    dsimp only
    split
    · exact hn
    · exact hn
  · next h => simp [find, h, Names.await]

theorem declare_found : Finding.Adds [] c.found (c.declare name).found := by
  unfold declare
  split
  · dsimp only
    split
    · rw [fault, find, note_found]
      exact .of_other rfl _
    · rw [note_found]
      exact .refl _
  · exact .of_other rfl _

/-- A name is found declared outside of all scopes only. -/
theorem of_declare_found {a : String} (ha : .declared a ∈ (c.declare name).found) :
    .declared a ∈ c.found ∨ c.scopes = [] ∧ a = name.lexeme := by
  unfold declare at ha
  split at ha
  · refine .inl ?_
    dsimp only at ha
    split at ha
    · rw [← note_found c name.lexeme false]
      exact (List.mem_cons.1 ha).resolve_left (by simp)
    · rwa [note_found] at ha
  · next hs =>
    rcases List.mem_cons.1 ha with ha | ha
    · injection ha with ha
      exact .inr ⟨hs, ha⟩
    · exact .inl ha

/-- A name is declared once in a scope, or reported. -/
theorem declare_twice {t : Names} {ts : List Names} (hs : c.scopes = t :: ts)
    (ht : t.contains name.lexeme = true) :
    .fault name .declaredTwice ∈ (c.declare name).found := by
  simp [declare, hs, ht, fault, find]

end Context

namespace Effect

theorem declare (c : Context) (name : Token) :
    Effect [name.lexeme] [] c ((c.declare name).define name) :=
  ⟨by simp [Names.defineAll], by rw [Context.define_found]; exact c.declare_found name, fun a ha => by
    rw [Context.define_found] at ha
    simpa using c.of_declare_found name ha⟩

theorem defineAll (c : Context) (names : List Token) :
    Effect (names.map (·.lexeme)) [] c (c.defineAll names) := by
  induction names generalizing c with
  | nil => exact refl c
  | cons name names ih => exact (declare c name).trans (ih _)

end Effect

mutual

theorem Expr.bind_effect : ∀ (e : Expr) (c : Context), Effect [] e.ids c (e.bind c)
  | .literal _, c => .refl c
  | .grouping e, c | .unary _ e, c | .get e _, c => e.bind_effect c
  | .binary l _ r, c | .logical l _ r, c => (l.bind_effect c).andThen (r.bind_effect _)
  | .ternary t y n, c =>
    (t.bind_effect c).andThen ((y.bind_effect _).andThen (n.bind_effect _))
  | .comma es, c => Expr.bindAll_effect es c
  | .variable ref, c => (Effect.faultIf _ c _ _).andThen (.refer _ ref)
  | .assign ref e, c | .compound ref _ e, c => (e.bind_effect c).andThen (.refer _ ref)
  | .call callee _ args, c => (callee.bind_effect c).andThen (Expr.bindAll_effect args _)
  | .set e _ _ v, c => (v.bind_effect c).andThen (e.bind_effect _)
  | .this ref, c => by
    rw [Expr.bind, Expr.ids]
    split
    · exact (Effect.fault ..).weaken _
    · split
      · exact (Effect.fault ..).weaken _
      · exact .refer c ref
  | .super ref _, c => by
    rw [Expr.bind, Expr.ids]
    split
    · exact (Effect.fault ..).weaken _
    · exact (Effect.fault ..).weaken _
    · split
      · exact (Effect.fault ..).weaken _
      · exact .refer c ref

theorem Expr.bindAll_effect : ∀ (es : List Expr) (c : Context),
    Effect [] (Expr.idsAll es) c (Expr.bindAll es c)
  | [], c => .refl c
  | e :: es, c => (e.bind_effect c).andThen (Expr.bindAll_effect es _)

end

theorem Expr.bindOption_effect (e : Option Expr) (c : Context) :
    Effect [] (Expr.idsOption e) c (Expr.bindOption e c) := by
  cases e with
  | none => exact .refl c
  | some e => exact e.bind_effect c

theorem FieldDecl.bindAll_effect (fields : List FieldDecl) (c : Context) :
    Effect [] (FieldDecl.idsAll fields) c (FieldDecl.bindAll fields c) := by
  induction fields generalizing c with
  | nil => exact .refl c
  | cons f fs ih => exact (Expr.bindOption_effect f.init c).andThen (ih _)

namespace ClassDecl

/-- Where the superclass of a class is named: the name of the class is declared. -/
def entered (decl : ClassDecl) (c : Context) : Context :=
  let kind := if decl.superclass.isSome then ClassKind.derived else .base
  { (c.declare decl.name).define decl.name with cls := some kind }

/-- Where the static members of a class start. -/
def inStatics (decl : ClassDecl) (c : Context) : Context :=
  match decl.superclass with
  | some ref => { ((decl.entered c).refer ref).push.note "super" true with inStatic := true }
  | none => { decl.entered c with inStatic := true }

/-- Where the members of instances start. -/
def inInstances (decl : ClassDecl) (c : Context) : Context :=
  let statics := FunctionDecl.bindStatics decl.staticMethods
    (FieldDecl.bindAll decl.staticFields (decl.inStatics c))
  { statics with inStatic := false }.push.note "this" true

/-- Where the members of instances end. -/
def afterInstances (decl : ClassDecl) (c : Context) : Context :=
  let methods := FunctionDecl.bindMethods decl.methods (decl.inInstances c)
  match decl.fields with
  | some f => FunctionDecl.bind .method f methods
  | none => methods

theorem bind_eq (decl : ClassDecl) (c : Context) :
    decl.bind c =
      let after := (decl.afterInstances c).pop
      let after := if decl.superclass.isSome then after.pop else after
      { after with inStatic := c.inStatic, cls := c.cls } := by
  obtain ⟨name, superclass, methods, fields, staticMethods, staticFields⟩ := decl
  cases superclass <;> cases fields <;> rfl

/-- The ids of the references in the members of instances. -/
def instanceIds (decl : ClassDecl) : List Nat :=
  FunctionDecl.idsAll decl.methods ++ FunctionDecl.idsAll decl.fields.toList

theorem ids_eq (decl : ClassDecl) :
    decl.ids = (decl.superclass.map (·.id)).toList ++ (FieldDecl.idsAll decl.staticFields ++
      (FunctionDecl.idsAll decl.staticMethods ++ decl.instanceIds)) := by
  obtain ⟨name, superclass, methods, fields, staticMethods, staticFields⟩ := decl
  cases fields <;> simp [ids, instanceIds, FunctionDecl.idsAll]

section

variable (decl : ClassDecl) (c : Context)

theorem entered_effect : Effect [decl.name.lexeme] [] c (decl.entered c) :=
  have h := Effect.declare c decl.name
  ⟨h.scopes, h.found, h.declared⟩

theorem inStatics_found :
    Finding.Adds (decl.superclass.map (·.id)).toList (decl.entered c).found
      (decl.inStatics c).found := by
  unfold inStatics
  split
  · next ref h => simpa [h, Context.push] using (Effect.refer (decl.entered c) ref).found
  · next h => simpa [h] using Finding.Adds.refl (decl.entered c).found

theorem of_inStatics_found {a : String} (ha : .declared a ∈ (decl.inStatics c).found) :
    .declared a ∈ (decl.entered c).found := by
  unfold inStatics at ha
  split at ha
  · next ref _ =>
    dsimp only at ha
    rw [Context.note_found] at ha
    exact (Effect.refer (decl.entered c) ref).silent ha
  · exact ha

theorem inStatics_scopes :
    (decl.inStatics c).scopes =
      if decl.superclass.isSome then
        (Table.insert {} "super" true) :: Names.define decl.name.lexeme c.scopes
      else Names.define decl.name.lexeme c.scopes := by
  have h : (decl.entered c).scopes = Names.define decl.name.lexeme c.scopes :=
    (decl.entered_effect c).scopes
  unfold inStatics
  split
  · next ref hr =>
    simp [hr, Context.push, Names.define, (Effect.refer (decl.entered c) ref).scopes,
      Names.defineAll, h]
  · next hr => simp [hr, h]

variable {c}

theorem inInstances_found
    (hs : ∀ c, Effect [] (FunctionDecl.idsAll decl.staticMethods) c
      (FunctionDecl.bindStatics decl.staticMethods c)) :
    Finding.Adds (FieldDecl.idsAll decl.staticFields ++ FunctionDecl.idsAll decl.staticMethods)
      (decl.inStatics c).found (decl.inInstances c).found := by
  rw [inInstances, Context.note_found]
  exact ((FieldDecl.bindAll_effect _ _).andThen (hs _)).found

theorem of_inInstances_found
    (hs : ∀ c, Effect [] (FunctionDecl.idsAll decl.staticMethods) c
      (FunctionDecl.bindStatics decl.staticMethods c)) {a : String}
    (ha : .declared a ∈ (decl.inInstances c).found) : .declared a ∈ (decl.inStatics c).found := by
  rw [inInstances, Context.note_found] at ha
  exact ((FieldDecl.bindAll_effect _ _).andThen (hs _)).silent ha

theorem inInstances_scopes
    (hs : ∀ c, Effect [] (FunctionDecl.idsAll decl.staticMethods) c
      (FunctionDecl.bindStatics decl.staticMethods c)) :
    (decl.inInstances c).scopes = Table.insert {} "this" true :: (decl.inStatics c).scopes := by
  rw [inInstances, Context.note_true_scopes]
  exact congrArg (_ :: ·) ((FieldDecl.bindAll_effect _ _).andThen (hs _)).scopes

theorem afterInstances_effect
    (hm : ∀ c, Effect [] (FunctionDecl.idsAll decl.methods) c
      (FunctionDecl.bindMethods decl.methods c))
    (hf : ∀ f ∈ decl.fields, ∀ c, Effect [] f.ids c (FunctionDecl.bind .method f c)) :
    Effect [] decl.instanceIds (decl.inInstances c) (decl.afterInstances c) := by
  unfold afterInstances instanceIds
  cases h : decl.fields with
  | none => simpa [FunctionDecl.idsAll] using hm (decl.inInstances c)
  | some f => simpa [FunctionDecl.idsAll] using (hm (decl.inInstances c)).andThen (hf f h _)

theorem bind_found : (decl.bind c).found = (decl.afterInstances c).found := by
  rw [bind_eq]
  dsimp only
  split <;> rfl

theorem bind_effect_of
    (hs : ∀ c, Effect [] (FunctionDecl.idsAll decl.staticMethods) c
      (FunctionDecl.bindStatics decl.staticMethods c))
    (hm : ∀ c, Effect [] (FunctionDecl.idsAll decl.methods) c
      (FunctionDecl.bindMethods decl.methods c))
    (hf : ∀ f ∈ decl.fields, ∀ c, Effect [] f.ids c (FunctionDecl.bind .method f c)) :
    Effect [decl.name.lexeme] decl.ids c (decl.bind c) := by
  have hafter := decl.afterInstances_effect (c := c) hm hf
  constructor
  · have hscopes : (decl.afterInstances c).pop.scopes = (decl.inStatics c).scopes := by
      rw [Context.pop, hafter.scopes, decl.inInstances_scopes hs]
      rfl
    rw [bind_eq]
    dsimp only
    rw [decl.inStatics_scopes] at hscopes
    split
    · next h => rw [Context.pop, hscopes, if_pos h]; rfl
    · next h => rw [hscopes, if_neg h]; rfl
  · rw [decl.bind_found, ids_eq, ← List.append_assoc (FieldDecl.idsAll _)]
    exact (decl.entered_effect c).found.trans ((decl.inStatics_found c).trans
      ((decl.inInstances_found hs).trans hafter.found))
  · intro a ha
    rw [decl.bind_found] at ha
    exact (decl.entered_effect c).declared a
      (decl.of_inStatics_found c (decl.of_inInstances_found hs (hafter.silent ha)))

end

end ClassDecl

mutual

theorem Stmt.bind_effect : ∀ (s : Stmt) (c : Context), Effect s.declared s.ids c (s.bind c)
  | .expr e, c | .print _ e, c => e.bind_effect c
  | .var name _ init, c => by
    have h := Expr.bindOption_effect init (c.declare name)
    refine ⟨?_, ?_, fun a ha => ?_⟩
    · simp [Stmt.bind, h.scopes, Names.defineAll, Stmt.declared]
    · rw [Stmt.bind, Context.define_found]
      exact (c.declare_found name).trans h.found
    · rw [Stmt.bind, Context.define_found] at ha
      simpa [Stmt.declared] using c.of_declare_found name (h.silent ha)
  | .block body, c => (Stmt.bindAll_effect body c.push).enclosed
  | .decls body, c => Stmt.bindAll_effect body c
  | .branch e y none, c => (e.bind_effect c).andThen (y.bind_effect _)
  | .branch e y (some n), c =>
    (e.bind_effect c).andThen ((y.bind_effect _).trans (n.bind_effect _))
  | .loop e step body, c =>
    (e.bind_effect c).andThen
      ((body.bind_effect _).inLoops.andExpr (Expr.bindOption_effect step _).inLoops)
  | .function decl, c => (Effect.declare c decl.name).trans (FunctionDecl.bind_effect .function decl _)
  | .ret keyword value, c =>
    ((Effect.faultIf _ c _ _).andThen (Effect.faultIf _ _ _ _)).andThen (Expr.bindOption_effect value _)
  | .brk keyword, c | .cont keyword, c => .faultIf _ c _ _
  | .cls decl, c => ClassDecl.bind_effect decl c
  | .require decl, c => by
    rw [Stmt.bind]
    split
    · exact .find c rfl (by simp)
    · exact .fault ..
  | .expose keyword names, c => by
    rw [Stmt.bind]
    split
    · exact .find c rfl (by simp)
    · exact .fault ..

theorem Stmt.bindAll_effect : ∀ (ss : List Stmt) (c : Context),
    Effect (Stmt.declaredAll ss) (Stmt.idsAll ss) c (Stmt.bindAll ss c)
  | [], c => .refl c
  | s :: ss, c => (s.bind_effect c).trans (Stmt.bindAll_effect ss _)

theorem FunctionDecl.bind_effect (kind : FunctionKind) : ∀ (f : FunctionDecl) (c : Context),
    Effect [] f.ids c (FunctionDecl.bind kind f c)
  | ⟨_, params, body⟩, c => by
    have h := (Effect.defineAll { c.push with function := some kind, loops := 0 } params).trans
      (Stmt.bindAll_effect body _)
    have h' := (Effect.mk h.scopes h.found h.declared : Effect _ _ c.push _).enclosed
    exact ⟨h'.scopes, h'.found, h'.declared⟩

theorem FunctionDecl.bindStatics_effect : ∀ (fs : List FunctionDecl) (c : Context),
    Effect [] (FunctionDecl.idsAll fs) c (FunctionDecl.bindStatics fs c)
  | [], c => .refl c
  | f :: fs, c => (FunctionDecl.bind_effect .function f c).andThen (FunctionDecl.bindStatics_effect fs _)

theorem FunctionDecl.bindMethods_effect : ∀ (fs : List FunctionDecl) (c : Context),
    Effect [] (FunctionDecl.idsAll fs) c (FunctionDecl.bindMethods fs c)
  | [], c => .refl c
  | f :: fs, c => (FunctionDecl.bind_effect _ f c).andThen (FunctionDecl.bindMethods_effect fs _)

theorem ClassDecl.bind_effect : ∀ (decl : ClassDecl) (c : Context),
    Effect [decl.name.lexeme] decl.ids c (decl.bind c)
  | ⟨_, _, methods, fields, staticMethods, _⟩, c => by
    refine ClassDecl.bind_effect_of _ (FunctionDecl.bindStatics_effect staticMethods)
      (FunctionDecl.bindMethods_effect methods) ?_
    cases fields with
    | none => simp
    | some f =>
      intro f' hf'
      injection hf' with hf'
      rw [← hf']
      exact FunctionDecl.bind_effect .method f

end

/-- What is found declared outside of all scopes is declared there. -/
theorem mem_declaredAll_of_declared {body : List Stmt} {a : String}
    (h : .declared a ∈ findings body) : a ∈ Stmt.declaredAll body := by
  rcases (Stmt.bindAll_effect body {}).declared a (List.mem_reverse.1 h) with h | h
  · cases h
  · exact h.2

end Treewalk
