import Treewalk.Proofs.Shape
import Treewalk.Proofs.Traced

/-!
# Scopes made for code

`Chain ss L g s σ`: the chain of the scope `s` is made of the scopes of `σ`, each made for what
opens it in the text (which the log `L` says) and holding what it declares, and ends in the globals
`g`. Code is aligned with its scope if the chain of the scope is made of the scopes around the code
in the text: `AlignedStore` says this of every closure that a store holds, and `AlignedHistory` also
of every piece of code that the run has come to, each time with the store as it was then.

Scopes and logs only grow (`Later`), and what is said here stays true.
-/

namespace Treewalk

/-! ### Reads after writes -/

namespace Scopes

variable {ss : Scopes} {s t : Nat} {x y : String} {v w : Value}

theorem here?_eq_none (h : ss.next ≤ s) : ss.here? s x = none := by
  simp only [here?, next] at h ⊢
  rw [Array.getElem?_eq_none h]
  rfl

/-- A scope holds what was written last or what it held before. -/
theorem of_here?_define (h : (ss.define s x v).here? t y = some w) :
    (s = t ∧ x = y ∧ v = w) ∨ ss.here? t y = some w := by
  by_cases hs : s < ss.next
  · rw [here?_define ss s t x y v hs] at h
    split at h
    · next hst => exact .inl ⟨hst.1, hst.2, Option.some.inj h⟩
    · exact .inr h
  · have hs : ss.cells.size ≤ s := Nat.le_of_not_lt hs
    refine .inr ?_
    rw [← h]
    simp only [here?, define, Array.getElem?_modify]
    split
    · next hst => subst hst; simp [Array.getElem?_eq_none hs]
    · rfl

/-- A write changes nothing but the variable that is written. -/
theorem of_here?_define_ne (h : (ss.define s x v).here? t y ≠ ss.here? t y) : s = t ∧ x = y := by
  by_cases hs : s < ss.next
  · rw [here?_define ss s t x y v hs] at h
    split at h
    · assumption
    · exact absurd rfl h
  · have hs : ss.cells.size ≤ s := Nat.le_of_not_lt hs
    refine absurd ?_ h
    simp only [here?, define, Array.getElem?_modify]
    split
    · next hst => subst hst; simp [Array.getElem?_eq_none hs]
    · rfl

theorem isSome_here?_define (h : (ss.here? t y).isSome) :
    ((ss.define s x v).here? t y).isSome := by
  by_cases hs : s < ss.next
  · rw [here?_define ss s t x y v hs]
    split
    · rfl
    · exact h
  · have hne : s ≠ t := by
      rintro rfl
      rw [here?_eq_none (Nat.le_of_not_lt hs)] at h
      cases h
    simpa [here?, define, Array.getElem?_modify, hne] using h

theorem isSome_here?_define_self (h : s < ss.next) : ((ss.define s x v).here? s x).isSome := by
  rw [here?_define ss s s x x v h]
  simp

@[simp] theorem next_addRoot (ss : Scopes) : ss.addRoot.next = ss.next + 1 := by
  simp [next, addRoot]

theorem parent?_addRoot (ss : Scopes) (s : Nat) : ss.addRoot.parent? s = ss.parent? s := by
  simp only [parent?, addRoot, Array.getElem?_push]
  split
  · next h => subst h; simp
  · rfl

theorem here?_addRoot (ss : Scopes) (s : Nat) (x : String) :
    ss.addRoot.here? s x = ss.here? s x := by
  simp only [here?, addRoot, Array.getElem?_push]
  split
  · next h => subst h; simp [Table.get?, Table.lookup, EmptyCollection.emptyCollection, Table.empty]
  · rfl

theorem parent?_eq_none (h : ss.next ≤ s) : ss.parent? s = none := by
  simp only [parent?, next] at h ⊢
  rw [Array.getElem?_eq_none h]
  rfl

end Scopes

/-! ### Growth -/

/-- Scopes and events after some steps of a session. -/
structure Later (ss : Scopes) (L : List Event) (ss' : Scopes) (L' : List Event) : Prop where
  next : ss.next ≤ ss'.next
  parent : ∀ s < ss.next, ss'.parent? s = ss.parent? s
  held : ∀ s x, (ss.here? s x).isSome → (ss'.here? s x).isSome
  log : L <:+ L'

namespace Later

variable {ss ss' ss'' : Scopes} {L L' L'' : List Event}

theorem refl (ss : Scopes) (L : List Event) : Later ss L ss L :=
  ⟨Nat.le_refl _, fun _ _ => rfl, fun _ _ h => h, List.suffix_refl L⟩

theorem trans (h : Later ss L ss' L') (h' : Later ss' L' ss'' L'') : Later ss L ss'' L'' :=
  ⟨Nat.le_trans h.next h'.next,
    fun s hs => (h'.parent s (Nat.lt_of_lt_of_le hs h.next)).trans (h.parent s hs),
    fun s x hx => h'.held s x (h.held s x hx), h.log.trans h'.log⟩

theorem event (h : Later ss L ss' L') {e : Event} (he : e ∈ L) : e ∈ L' := h.log.subset he

theorem note (ss : Scopes) (L : List Event) (e : Event) : Later ss L ss (e :: L) :=
  { refl ss L with log := List.suffix_cons e L }

theorem define (ss : Scopes) (L : List Event) (s : Nat) (x : String) (v : Value) :
    Later ss L (ss.define s x v) L :=
  ⟨by simp, fun _ _ => by simp, fun _ _ h => Scopes.isSome_here?_define h, List.suffix_refl L⟩

theorem addChild (ss : Scopes) (L : List Event) (s : Nat) : Later ss L (ss.addChild s) L := by
  refine ⟨by simp, fun t ht => ?_, fun t x h => ?_, List.suffix_refl L⟩
  · rw [Scopes.parent?_addChild, if_neg (Nat.ne_of_lt ht)]
  · rwa [Scopes.here?_addChild]

theorem addRoot (ss : Scopes) (L : List Event) : Later ss L ss.addRoot L :=
  ⟨by simp, fun t _ => Scopes.parent?_addRoot ss t, fun t x h => by rwa [Scopes.here?_addRoot],
    List.suffix_refl L⟩

end Later

/-! ### Chains -/

/-- The chain of a scope is the one of a place inside the scopes of a list, and ends in `g`. -/
inductive Chain (ss : Scopes) (L : List Event) (g : Nat) : Nat → List Layer → Prop where
  | root (hp : ss.parent? g = none) (hg : g < ss.next) : Chain ss L g g []
  | layer {s p : Nat} {l : Layer} {σ : List Layer} (hmade : .made s l.origin ∈ L)
      (hp : ss.parent? s = some p) (hlt : p < s) (hs : s < ss.next)
      (hn : ∀ x ∈ l.names, (ss.here? s x).isSome) (h : Chain ss L g p σ) : Chain ss L g s (l :: σ)

namespace Chain

variable {ss ss' : Scopes} {L L' : List Event} {g s : Nat} {σ : List Layer}

theorem lt (h : Chain ss L g s σ) : s < ss.next := by
  cases h with
  | root _ hg => exact hg
  | layer _ _ _ hs => exact hs

theorem mono (h : Chain ss L g s σ) (hl : Later ss L ss' L') : Chain ss' L' g s σ := by
  induction h with
  | root hp hg => exact .root (by rw [hl.parent _ hg, hp]) (Nat.lt_of_lt_of_le hg hl.next)
  | layer hmade hp hlt hs hn _ ih =>
    exact .layer (hl.event hmade) (by rw [hl.parent _ hs, hp]) hlt (Nat.lt_of_lt_of_le hs hl.next)
      (fun x hx => hl.held _ x (hn x hx)) ih

/-- A name that the innermost scope holds may count as declared. -/
theorem define (h : Chain ss L g s σ) {x : String} (hx : (ss.here? s x).isSome) :
    Chain ss L g s (Layer.define x σ) := by
  cases h with
  | root hp hg => exact .root hp hg
  | layer hmade hp hlt hs hn h =>
    exact .layer hmade hp hlt hs (List.forall_mem_cons.2 ⟨hx, hn⟩) h

theorem await (h : Chain ss L g s σ) (x : String) : Chain ss L g s (Layer.await x σ) := by
  cases h with
  | root hp hg => exact .root hp hg
  | layer hmade hp hlt hs hn h => exact .layer hmade hp hlt hs hn h

/-- Which names the innermost scope holds, and not how they are listed, is what counts. -/
theorem renamed {l l' : Layer} (h : Chain ss L g s (l :: σ)) (ho : l'.origin = l.origin)
    (hn : ∀ x ∈ l'.names, (ss.here? s x).isSome) : Chain ss L g s (l' :: σ) := by
  cases h with
  | layer hmade hp hlt hs _ h => exact .layer (ho ▸ hmade) hp hlt hs hn h

theorem child (h : Chain ss L g s σ) {l : Layer} (hl : l.names = []) :
    Chain (ss.addChild s) (.made ss.next l.origin :: L) g ss.next (l :: σ) := by
  have hgrown : Later ss L (ss.addChild s) (.made ss.next l.origin :: L) :=
    (Later.addChild ss L s).trans (.note ..)
  refine .layer (by simp) ?_ h.lt (by simp) (by simp [hl]) (h.mono hgrown)
  rw [Scopes.parent?_addChild, if_pos rfl]

theorem ancestor? (h : Chain ss L g s σ) {d : Nat} {l : Layer} (hd : σ[d]? = some l) :
    ∃ t, ss.ancestor? s d = some t ∧ .made t l.origin ∈ L ∧
      ∀ x ∈ l.names, (ss.here? t x).isSome := by
  induction h generalizing d with
  | root => simp at hd
  | @layer s p l' σ hmade hp _ _ hn _ ih =>
    cases d with
    | zero =>
      obtain rfl : l' = l := by simpa using hd
      exact ⟨s, rfl, hmade, hn⟩
    | succ d =>
      obtain ⟨t, ht⟩ := ih (by simpa using hd)
      exact ⟨t, by simpa [Scopes.ancestor?, hp] using ht⟩

theorem rootWithin (h : Chain ss L g s σ) {n : Nat} (hn : s ≤ n) : ss.rootWithin n s = g := by
  induction h generalizing n with
  | root hp => cases n <;> simp [Scopes.rootWithin, hp]
  | layer _ hp hlt _ _ _ ih =>
    cases n with
    | zero => omega
    | succ n => simpa [Scopes.rootWithin, hp] using ih (by omega)

theorem root_eq (h : Chain ss L g s σ) : ss.root s = g := h.rootWithin (Nat.le_refl s)

end Chain

/-! ### Places and closures -/

/-- An interpreter with the globals `g` has started the program. -/
def Began (L : List Event) (g : Nat) (body : List Stmt) : Prop := ∃ path, .began path g body ∈ L

/-- The scope `s` is the one of the code, which stands inside the scopes `σ` in a program that was
started with the globals `g`. -/
structure At (ss : Scopes) (L : List Event) (s g : Nat) (body : List Stmt) (code : Code)
    (σ : List Layer) : Prop where
  began : Began L g body
  placed : Placed body code σ
  chain : Chain ss L g s σ

theorem At.mono {ss ss' : Scopes} {L L' : List Event} {s g : Nat} {body : List Stmt} {code : Code}
    {σ : List Layer} (h : At ss L s g body code σ) (hl : Later ss L ss' L') :
    At ss' L' s g body code σ :=
  ⟨h.began.imp fun _ => hl.event, h.placed, h.chain.mono hl⟩

/-- The chain of the closure's scope is made of the scopes around its declaration in the text. -/
def Closure.Aligned (ss : Scopes) (L : List Event) (f : Closure) : Prop :=
  ∃ g body σ, At ss L f.scope g body (.function f.decl) σ

/-- The closure is a method without an instance: the chain of its scope is made of the scopes around
that of `this` in the text. -/
def Closure.IsMethod (ss : Scopes) (L : List Event) (f : Closure) : Prop :=
  ∃ g body σ, Began L g body ∧ Placed body (.function f.decl) (.this f.decl :: σ) ∧
    Chain ss L g f.scope σ

/-- A class was made and has the number `c`. -/
def Built (L : List Event) (c : Nat) : Prop :=
  ∃ decl superclass s, .turn (.built c decl superclass s) ∈ L

/-- If the value is a function then its scope is aligned with its declaration, and if it is a class
then a declaration made it. -/
def Value.Aligned (ss : Scopes) (L : List Event) : Value → Prop
  | .callable (.function f) => f.Aligned ss L
  | .callable (.cls c) => Built L c
  | _ => True

/-- Methods of the class, and what sets its fields, have the scope around that of `this`; its static
methods and the values of its static fields are aligned; and what sets its fields has no parameters.
-/
structure Class.Aligned (ss : Scopes) (L : List Event) (c : Class) : Prop where
  methods : ∀ x f, c.methods.get? x = some f → f.IsMethod ss L
  fields : ∀ f, c.fields = some f → f.IsMethod ss L ∧ f.decl.params = []
  staticMethods : ∀ x f, c.staticMethods.get? x = some f → f.Aligned ss L
  statics : ∀ x v, c.statics.get? x = some v → v.Aligned ss L

section

variable {ss ss' : Scopes} {L L' : List Event}

theorem Closure.Aligned.mono {f : Closure} (h : f.Aligned ss L) (hl : Later ss L ss' L') :
    f.Aligned ss' L' := by
  obtain ⟨g, body, σ, h⟩ := h
  exact ⟨g, body, σ, h.mono hl⟩

theorem Closure.IsMethod.mono {f : Closure} (h : f.IsMethod ss L) (hl : Later ss L ss' L') :
    f.IsMethod ss' L' := by
  obtain ⟨g, body, σ, hb, hp, hc⟩ := h
  exact ⟨g, body, σ, hb.imp fun _ => hl.event, hp, hc.mono hl⟩

theorem Built.mono {c : Nat} (h : Built L c) (hl : L <:+ L') : Built L' c := by
  obtain ⟨decl, superclass, s, h⟩ := h
  exact ⟨decl, superclass, s, hl.subset h⟩

theorem Value.Aligned.mono {v : Value} (h : v.Aligned ss L) (hl : Later ss L ss' L') :
    v.Aligned ss' L' := by
  match v, h with
  | .callable (.function f), h => exact Closure.Aligned.mono h hl
  | .callable (.cls c), h => exact Built.mono h hl.log
  | .callable (.native _), _ | .callable (.initializer ..), _ | .nil, _ | .bool _, _ | .num _, _
  | .string _, _ | .inst _, _ => trivial

theorem Class.Aligned.mono {c : Class} (h : c.Aligned ss L) (hl : Later ss L ss' L') :
    c.Aligned ss' L' :=
  ⟨fun x f hf => (h.methods x f hf).mono hl,
    fun f hf => ⟨(h.fields f hf).1.mono hl, (h.fields f hf).2⟩,
    fun x f hf => (h.staticMethods x f hf).mono hl, fun x v hv => (h.statics x v hv).mono hl⟩

theorem Class.Aligned.ownStatic {c : Class} (h : c.Aligned ss L) {x : String} {v : Value}
    (hv : c.ownStatic? x = some v) : v.Aligned ss L := by
  unfold Class.ownStatic? at hv
  split at hv
  · next w hw =>
    injection hv with hv
    exact hv ▸ h.statics x w hw
  · obtain ⟨f, hf, rfl⟩ := Option.map_eq_some_iff.1 hv
    exact h.staticMethods x f hf

end

/-- The scope `s` was made for `super` when the clause of a class meant the superclass `c`. -/
def MadeFor (L : List Event) (s : Nat) (decl : ClassDecl) (c : Nat) : Prop :=
  ∃ ref m B, decl.superclass = some ref ∧
    (.made s (.super decl) :: .reached (.use .superclass ref) m :: B) <:+ L ∧
    Eval.lookUp ref m = .ok (.callable (.cls c)) m

theorem MadeFor.mono {L L' : List Event} {s : Nat} {decl : ClassDecl} {c : Nat}
    (h : MadeFor L s decl c) (hl : L <:+ L') : MadeFor L' s decl c := by
  obtain ⟨ref, m, B, hr, hB, hc⟩ := h
  exact ⟨ref, m, B, hr, hB.trans hl, hc⟩

/-- If the variable `x` of the scope `s` is `this` then it holds an instance, and if it is `super`
then it holds the class for which the scope was made. -/
structure HiddenValue (L : List Event) (s : Nat) (x : String) (v : Value) : Prop where
  this : x = "this" → ∃ i, v = .inst i
  super : x = "super" → ∃ decl c, v = .callable (.cls c) ∧ MadeFor L s decl c

theorem HiddenValue.mono {L L' : List Event} {s : Nat} {x : String} {v : Value}
    (h : HiddenValue L s x v) (hl : L <:+ L') : HiddenValue L' s x v := by
  refine ⟨h.this, fun hx => ?_⟩
  obtain ⟨decl, c, hv, hfor⟩ := h.super hx
  exact ⟨decl, c, hv, hfor.mono hl⟩

theorem HiddenValue.of_name {L : List Event} {s : Nat} {x : String} {v : Value}
    (hx : x ≠ "this" ∧ x ≠ "super") : HiddenValue L s x v :=
  ⟨fun h => absurd h hx.1, fun h => absurd h hx.2⟩

/-- The class has the members of a declaration, with methods in the scope `s`. Of several methods
with one name it has the last. -/
structure Class.IsOf (decl : ClassDecl) (superclass : Option Nat) (s : Nat) (k : Class) : Prop where
  superclass : k.superclass = superclass
  methods : ∀ x, (k.methods.get? x).map (·.decl) =
    decl.methods.reverse.find? (·.name.lexeme == x)
  fields : k.fields.map (·.decl) = decl.fields
  scope : ∀ f, (∃ x, k.methods.get? x = some f) ∨ f ∈ k.fields → f.scope = s
  marked : ∀ x f, k.methods.get? x = some f → f.isInit = f.decl.isInit

/-- The class `c` was made where its declaration stands, after its superclass. -/
structure MadeOf (ss : Scopes) (L : List Event) (c : Nat) (decl : ClassDecl)
    (superclass : Option Nat) (s : Nat) : Prop where
  place : ∃ g body σ, Began L g body ∧ Placed body (.stmt (.cls decl)) σ ∧
    Chain ss L g s (decl.around σ)
  derived : superclass.isSome = decl.superclass.isSome
  above : ∀ c' ∈ superclass, c' < c ∧ Built L c' ∧ MadeFor L s decl c'

theorem MadeOf.mono {ss ss' : Scopes} {L L' : List Event} {c s : Nat} {decl : ClassDecl}
    {superclass : Option Nat} (h : MadeOf ss L c decl superclass s) (hl : Later ss L ss' L') :
    MadeOf ss' L' c decl superclass s := by
  refine ⟨?_, h.derived, fun c' hc' => ?_⟩
  · obtain ⟨g, body, σ, hb, hp, hc⟩ := h.place
    exact ⟨g, body, σ, hb.imp fun _ => hl.event, hp, hc.mono hl⟩
  · obtain ⟨hlt, hb, hf⟩ := h.above c' hc'
    exact ⟨hlt, hb.mono hl.log, hf.mono hl.log⟩

/-- All values that variables and fields hold are aligned, and so are the members of all classes;
`this` and `super` hold what they were bound to; scopes that were made are in the store, inside of
others; and classes are just those made of declarations, each with the members of its own. -/
structure AlignedStore (h : Heap) (L : List Event) : Prop where
  vars : ∀ s x v, h.scopes.here? s x = some v → v.Aligned h.scopes L
  fields : ∀ (i : Nat) inst x v, h.instances[i]? = some inst → inst.fields.get? x = some v →
    v.Aligned h.scopes L
  classes : ∀ (c : Nat) k, h.classes.cells[c]? = some k → k.Aligned h.scopes L
  hidden : ∀ s x v, (h.scopes.parent? s).isSome → h.scopes.here? s x = some v →
    HiddenValue L s x v
  made : ∀ s origin, .made s origin ∈ L → s < h.scopes.next
  inner : ∀ s origin, .made s origin ∈ L → (h.scopes.parent? s).isSome
  built : ∀ c decl superclass s, .turn (.built c decl superclass s) ∈ L →
    MadeOf h.scopes L c decl superclass s ∧
      ∃ k, h.classes.cells[c]? = some k ∧ k.IsOf decl superclass s
  classed : ∀ (c : Nat) k, h.classes.cells[c]? = some k → Built L c

/-- The last events of the log have `f` entered with these arguments: a call of `f`; a call of a
class, or of an initializer that it inherits, the nearest `init` of which `f` is with `this` bound;
or `f`, which takes no arguments, sets fields of the instance that `this` was bound to. -/
inductive Prompts (f : Closure) : List Value → List Event → Prop where
  | call (args : List Value) (m : Machine) (B : List Event) :
      Prompts f args (.turn (.called (.function f) args m) :: B)
  | init {k : Callable} {c : Nat} {f₀ : Closure} (args : List Value) (m : Machine) (B : List Event)
      (hk : k = .cls c ∨ ∃ id i, k = .initializer id c i)
      (hf : m.heap.classes.method? c initName = some f₀) (hd : f.decl = f₀.decl) :
      Prompts f args (.made f.scope (.this f.decl) :: .turn (.called k args m) :: B)
  | fields (B : List Event) : Prompts f [] (.made f.scope (.this f.decl) :: B)

/-- What comes before a function is entered with these arguments: the last events of the log have it
entered, and the arguments are as many as its parameters. -/
structure Entering (f : Closure) (args : List Value) (L : List Event) : Prop where
  prompted : Prompts f args L
  counted : f.arity = args.length

/-- The value of `a` once each of the names is given the value at its own place, in turn. -/
def givenTo (a : String) (names : List Token) (vs : List Value) : Option Value :=
  ((names.zip vs).reverse.find? (·.1.lexeme == a)).map (·.2)

theorem givenTo_cons (a : String) (t : Token) (v : Value) (names : List Token) (vs : List Value) :
    givenTo a (t :: names) (v :: vs) =
      (givenTo a names vs).or (if t.lexeme = a then some v else none) := by
  rw [givenTo, givenTo, List.zip_cons_cons, List.reverse_cons, List.find?_append]
  cases (names.zip vs).reverse.find? (·.1.lexeme == a) with
  | some e => rfl
  | none => by_cases ha : t.lexeme = a <;> simp [ha]

theorem isSome_givenTo {t : Token} {names : List Token} {vs : List Value} (ht : t ∈ names)
    (hlen : names.length = vs.length) : (givenTo t.lexeme names vs).isSome := by
  rw [← List.map_fst_zip (Nat.le_of_eq hlen)] at ht
  obtain ⟨e, he, rfl⟩ := List.mem_map.1 ht
  rw [givenTo, Option.isSome_map]
  exact List.find?_isSome.2 ⟨e, List.mem_reverse.2 he, beq_self_eq_true _⟩

/-- Names that differ have the values at their own places. -/
theorem map_givenTo {names : List Token} {vs : List Value} (hn : (names.map (·.lexeme)).Nodup)
    (hlen : names.length = vs.length) :
    names.map (fun t => givenTo t.lexeme names vs) = vs.map some := by
  induction names generalizing vs with
  | nil =>
    rw [List.eq_nil_of_length_eq_zero hlen.symm]
    rfl
  | cons t names ih =>
    cases vs with
    | nil => cases hlen
    | cons v vs =>
      rw [List.map_cons, List.nodup_cons] at hn
      have hlen : names.length = vs.length := Nat.succ.inj hlen
      have hfirst : givenTo t.lexeme names vs = none := by
        rw [givenTo, Option.map_eq_none_iff, List.find?_eq_none]
        rintro ⟨t', v'⟩ he ht'
        have hmem := (List.of_mem_zip (List.mem_reverse.1 he)).1
        exact hn.1 (beq_iff_eq.1 ht' ▸ List.mem_map_of_mem hmem)
      have hrest : ∀ t' ∈ names, givenTo t'.lexeme (t :: names) (v :: vs) =
          givenTo t'.lexeme names vs := fun t' ht' => by
        obtain ⟨w, hw⟩ := Option.isSome_iff_exists.1 (isSome_givenTo ht' hlen)
        rw [givenTo_cons, hw, Option.some_or]
      rw [List.map_cons, List.map_congr_left hrest, ih hn.2 hlen, givenTo_cons, hfirst, if_pos rfl]
      rfl

/-- If the code is the body of a function then the function was entered just before, and in the
scope that was made for it the parameters have been given the arguments. -/
def Code.Supplied (m : Machine) (L : List Event) : Code → Prop
  | .body decl => ∃ f args m₀ B, f.decl = decl ∧
    L = .made m.scope (.call decl) :: .turn (.applied f args m₀) :: B ∧
      ∀ p ∈ decl.params, m.heap.scopes.here? m.scope p.lexeme = givenTo p.lexeme decl.params args
  | _ => True

/-- How an event that makes neither a scope nor a class goes with the store and the log before it:
code is come to in the scope it stands in, only aligned values are called or given, and functions
are entered with as many arguments as they have parameters. -/
def Event.Fits (h : Heap) (L : List Event) : Event → Prop
  | .made .. | .turn (.built ..) => False
  | .reached code m =>
    m.heap = h ∧ (∃ g body σ, At h.scopes L m.scope g body code σ) ∧ code.Supplied m L
  | .turn (.called c args m) =>
    m.heap = h ∧ (Value.callable c).Aligned h.scopes L ∧ ∀ v ∈ args, v.Aligned h.scopes L
  | .turn (.applied f args m) => m.heap = h ∧ Entering f args L
  | .turn (.printed _ m) => m.heap = h
  | .began _ _ body => Stmt.TidyAll body
  | _ => True

theorem Event.Fits.heap {h : Heap} {L : List Event} {e : Event} (he : e.Fits h L) {m : Machine}
    (hm : m ∈ e.machine?) : m.heap = h := by
  match e with
  | .reached code m' =>
    obtain rfl : m' = m := Option.some.inj hm
    exact he.1
  | .turn (.called c args m') =>
    obtain rfl : m' = m := Option.some.inj hm
    exact he.1
  | .turn (.applied f args m') =>
    obtain rfl : m' = m := Option.some.inj hm
    exact he.1
  | .turn (.printed v m') =>
    obtain rfl : m' = m := Option.some.inj hm
    exact he
  | .made .. | .turn (.left _) | .turn (.built ..) | .scanned .. | .read .. | .bound ..
  | .imported .. | .began .. | .aborted .. | .entered _ | .moment _ => cases hm

theorem AlignedStore.event {h : Heap} {L : List Event} (hs : AlignedStore h L) {e : Event}
    (he : e.Fits h L) : AlignedStore h (e :: L) where
  vars s x v hv := (hs.vars s x v hv).mono (.note ..)
  fields i inst x v hi hv := (hs.fields i inst x v hi hv).mono (.note ..)
  classes c k hk := (hs.classes c k hk).mono (.note ..)
  hidden s x v hp hv := (hs.hidden s x v hp hv).mono (List.suffix_cons ..)
  made s o hm := hs.made s o ((List.mem_cons.1 hm).resolve_left fun h => by subst h; exact he)
  inner s o hm := hs.inner s o ((List.mem_cons.1 hm).resolve_left fun h => by subst h; exact he)
  built c decl sup s hb := by
    have hb := (List.mem_cons.1 hb).resolve_left fun h => by subst h; exact he
    exact ⟨(hs.built c decl sup s hb).1.mono (.note ..), (hs.built c decl sup s hb).2⟩
  classed c k hk := (hs.classed c k hk).mono (List.suffix_cons ..)

/-- The store is aligned, and it was so at each event that tells of it, which fits what it was. -/
structure AlignedHistory (h : Heap) (L : List Event) : Prop extends AlignedStore h L where
  /-- Programs that are started are trees of texts. -/
  tidy : ∀ g body, Began L g body → Stmt.TidyAll body
  /-- No scope is made twice. -/
  madeNew : ∀ s o B, (.made s o :: B) <:+ L → ∀ o', .made s o' ∉ B
  past : ∀ e B, (e :: B) <:+ L → ∀ m ∈ e.machine?, AlignedStore m.heap B ∧ e.Fits m.heap B

theorem cons_suffix_cons {α : Type} {a b : α} {A L : List α} (h : (a :: A) <:+ b :: L) :
    a = b ∧ A = L ∨ (a :: A) <:+ L := by
  rcases List.suffix_cons_iff.1 h with h | h
  · injection h with h hA
    exact .inl ⟨h, hA⟩
  · exact .inr h

/-- Two places in a list of which neither is beyond the other are one. -/
theorem suffix_eq_of_cons {α : Type} {a b : α} {A B L : List α} (ha : (a :: A) <:+ L)
    (hb : (b :: B) <:+ L) (hA : b ∉ A) (hB : a ∉ B) : a :: A = b :: B := by
  rcases List.suffix_or_suffix_of_suffix ha hb with h | h
  · rcases List.suffix_cons_iff.1 h with h | h
    · exact h
    · exact absurd (h.subset (by simp)) hB
  · rcases List.suffix_cons_iff.1 h with h | h
    · exact h.symm
    · exact absurd (h.subset (by simp)) hA

theorem Classes.exists_of_mem_lineageWithin {cs : Classes} {n c : Nat} {k : Class}
    (hk : k ∈ cs.lineageWithin n c) : ∃ c : Nat, cs.cells[c]? = some k := by
  induction n generalizing c with
  | zero => simp [lineageWithin] at hk
  | succ n ih =>
    rw [lineageWithin] at hk
    split at hk
    · next k' hk' =>
      split at hk
      · rcases List.mem_cons.1 hk with rfl | hk
        · exact ⟨c, hk'⟩
        · exact ih hk
      · rw [List.mem_singleton.1 hk]
        exact ⟨c, hk'⟩
    · simp at hk

namespace AlignedHistory

variable {h : Heap} {L : List Event}

/-- The history up to an event is that of the store as it was then. -/
theorem snapshot (hg : AlignedHistory h L) {e : Event} {B : List Event} (hB : (e :: B) <:+ L)
    {m : Machine} (hm : m ∈ e.machine?) : AlignedHistory m.heap B where
  toAlignedStore := (hg.past e B hB m hm).1
  tidy g body hb := hg.tidy g body (hb.imp fun _ hb => hB.subset (List.mem_cons_of_mem _ hb))
  madeNew s o B' hB' := hg.madeNew s o B' (hB'.trans ((List.suffix_cons ..).trans hB))
  past e' B' hB' := hg.past e' B' (hB'.trans ((List.suffix_cons ..).trans hB))

theorem before (hg : AlignedHistory h L) (code : Code) (m : Machine) (B : List Event)
    (hB : (.reached code m :: B) <:+ L) : AlignedStore m.heap B := (hg.past _ B hB m rfl).1

theorem reached (hg : AlignedHistory h L) (code : Code) (m : Machine) (B : List Event)
    (hB : (.reached code m :: B) <:+ L) : ∃ g body σ, At m.heap.scopes B m.scope g body code σ :=
  (hg.past _ B hB m rfl).2.2.1

theorem supplied (hg : AlignedHistory h L) (code : Code) (m : Machine) (B : List Event)
    (hB : (.reached code m :: B) <:+ L) : code.Supplied m B := (hg.past _ B hB m rfl).2.2.2

theorem called (hg : AlignedHistory h L) (c : Callable) (args : List Value) (m : Machine)
    (B : List Event) (hB : (.turn (.called c args m) :: B) <:+ L) :
    (Value.callable c).Aligned m.heap.scopes B ∧ ∀ v ∈ args, v.Aligned m.heap.scopes B :=
  (hg.past _ B hB m rfl).2.2

theorem applied (hg : AlignedHistory h L) (f : Closure) (args : List Value) (m : Machine)
    (B : List Event) (hB : (.turn (.applied f args m) :: B) <:+ L) : Entering f args B :=
  (hg.past _ B hB m rfl).2.2

theorem madeOnce (hg : AlignedHistory h L) (s : Nat) (o o' : Origin) (ho : .made s o ∈ L)
    (ho' : .made s o' ∈ L) : o = o' := by
  obtain ⟨C, B, hB⟩ := List.append_of_mem ho
  obtain ⟨C', B', hB'⟩ := List.append_of_mem ho'
  have hB : (.made s o :: B) <:+ L := ⟨C, hB.symm⟩
  have hB' : (.made s o' :: B') <:+ L := ⟨C', hB'.symm⟩
  have := suffix_eq_of_cons hB hB' (hg.madeNew s o B hB o') (hg.madeNew s o' B' hB' o)
  injection this with this
  injection this

/-- A scope for `super` is made when the clause means one class. -/
theorem madeFor_unique (hg : AlignedHistory h L) {s c c' : Nat} {decl decl' : ClassDecl}
    (hc : MadeFor L s decl c) (hc' : MadeFor L s decl' c') : decl = decl' ∧ c = c' := by
  obtain ⟨ref, m, B, -, hB, hlook⟩ := hc
  obtain ⟨ref', m', B', -, hB', hlook'⟩ := hc'
  have := suffix_eq_of_cons hB hB' (hg.madeNew s _ _ hB _) (hg.madeNew s _ _ hB' _)
  injection this with hmade hrest
  injection hmade with _ hmade
  injection hmade with hmade
  injection hrest with hreached
  injection hreached with huse hm
  injection huse with _ href
  subst href hm
  rw [hlook] at hlook'
  injection hlook' with hv
  injection hv with hv
  injection hv with hv
  exact ⟨hmade, hv⟩

theorem lineage (hg : AlignedHistory h L) {c : Nat} {k : Class} (hk : k ∈ h.classes.lineage c) :
    k.Aligned h.scopes L := by
  obtain ⟨c, hc⟩ := Classes.exists_of_mem_lineageWithin hk
  exact hg.classes c k hc

theorem method (hg : AlignedHistory h L) {c : Nat} {x : String} {f : Closure}
    (hf : h.classes.method? c x = some f) : f.IsMethod h.scopes L := by
  obtain ⟨k, hk, hf⟩ := List.exists_of_findSome?_eq_some hf
  exact (hg.lineage hk).methods x f hf

theorem static (hg : AlignedHistory h L) {c : Nat} {x : String} {v : Value}
    (hv : h.classes.static? c x = some v) : v.Aligned h.scopes L := by
  obtain ⟨k, hk, hv⟩ := List.exists_of_findSome?_eq_some hv
  exact (hg.lineage hk).ownStatic hv

/-- What a change of the store alone has to show. -/
theorem store {h' : Heap} (hg : AlignedHistory h L) (hl : Later h.scopes L h'.scopes L)
    (hvars : ∀ s x v, h'.scopes.here? s x = some v → h.scopes.here? s x = some v ∨
      v.Aligned h'.scopes L ∧ ((h.scopes.parent? s).isSome → HiddenValue L s x v))
    (hfields : ∀ (i : Nat) inst x v, h'.instances[i]? = some inst → inst.fields.get? x = some v →
      (∃ inst, h.instances[i]? = some inst ∧ inst.fields.get? x = some v) ∨
        v.Aligned h'.scopes L)
    (hclasses : ∀ c : Nat, h'.classes.cells[c]? = h.classes.cells[c]? ∨
      ∃ k x v, v.Aligned h'.scopes L ∧ h.classes.cells[c]? = some k ∧
        h'.classes.cells[c]? = some { k with statics := k.statics.insert x v })
    (hparent : ∀ s, h'.scopes.parent? s = h.scopes.parent? s) : AlignedHistory h' L where
  vars s x v hv := (hvars s x v hv).elim (fun hv => (hg.vars s x v hv).mono hl) And.left
  fields i inst x v hi hv := (hfields i inst x v hi hv).elim
    (fun ⟨_, hi, hv⟩ => (hg.fields i _ x v hi hv).mono hl) id
  classes c k hk := by
    rcases hclasses c with hc | ⟨k₀, x, v, hv, hk₀, hk'⟩
    · exact (hg.classes c k (hc ▸ hk)).mono hl
    · have hok := (hg.classes c k₀ hk₀).mono hl
      obtain rfl := Option.some.inj (hk'.symm.trans hk)
      refine ⟨hok.methods, hok.fields, hok.staticMethods, fun y w hw => ?_⟩
      dsimp only at hw
      rw [Table.get?_insert] at hw
      split at hw
      · injection hw with hw
        exact hw ▸ hv
      · exact hok.statics y w hw
  hidden s x v hp hv := by
    rw [hparent] at hp
    exact (hvars s x v hv).elim (hg.hidden s x v hp) fun h => h.2 hp
  made s o hm := Nat.lt_of_lt_of_le (hg.made s o hm) hl.next
  inner s o hm := hparent s ▸ hg.inner s o hm
  built c decl sup s hb := by
    obtain ⟨hmade, k, hk, hof⟩ := hg.built c decl sup s hb
    refine ⟨hmade.mono hl, ?_⟩
    rcases hclasses c with hc | ⟨k₀, x, v, -, hk₀, hk'⟩
    · exact ⟨k, hc ▸ hk, hof⟩
    · obtain rfl := Option.some.inj (hk₀.symm.trans hk)
      exact ⟨_, hk', hof.superclass, hof.methods, hof.fields, hof.scope, hof.marked⟩
  classed c k hk := by
    rcases hclasses c with hc | ⟨k₀, -, -, -, hk₀, -⟩
    · exact hg.classed c k (hc ▸ hk)
    · exact hg.classed c k₀ hk₀
  tidy := hg.tidy
  madeNew := hg.madeNew
  past := hg.past

/-- A store that differs in what `AlignedHistory` does not speak of. -/
theorem congr {h' : Heap} (hg : AlignedHistory h L) (hs : h'.scopes = h.scopes)
    (hi : h'.instances = h.instances) (hc : h'.classes = h.classes) : AlignedHistory h' L := by
  refine hg.store (hs ▸ .refl _ _) (fun s x v hv => .inl (hs ▸ hv))
    (fun i inst x v hinst hv => .inl ⟨inst, hi ▸ hinst, hv⟩) (fun c => .inl (by rw [hc]))
    fun s => by rw [hs]

theorem event (hg : AlignedHistory h L) {e : Event} (he : e.Fits h L) :
    AlignedHistory h (e :: L) := by
  refine ⟨hg.toAlignedStore.event he, fun g body hb => ?_, fun s o B hB => ?_, fun e' B hB => ?_⟩
  · obtain ⟨p, hb⟩ := hb
    rcases List.mem_cons.1 hb with rfl | hb
    · exact he
    · exact hg.tidy g body ⟨p, hb⟩
  · rcases cons_suffix_cons hB with ⟨rfl, -⟩ | hB
    · exact he.elim
    · exact hg.madeNew s o B hB
  · rcases cons_suffix_cons hB with ⟨rfl, rfl⟩ | hB
    · intro m hm
      rw [he.heap hm]
      exact ⟨hg.toAlignedStore, he⟩
    · exact hg.past e' B hB

/-- A variable is set. The value may depend on it. -/
theorem define (hg : AlignedHistory h L) (s : Nat) (x : String) {v : Value}
    (hv : v.Aligned (h.scopes.define s x v) L)
    (hh : (h.scopes.parent? s).isSome → HiddenValue L s x v) :
    AlignedHistory { h with scopes := h.scopes.define s x v } L := by
  refine hg.store (.define h.scopes L s x v) (fun t y w hw => ?_)
    (fun i inst y w hi hw => .inl ⟨inst, hi, hw⟩) (fun c => .inl rfl) (by simp)
  rcases Scopes.of_here?_define hw with ⟨rfl, rfl, rfl⟩ | hw
  · exact .inr ⟨hv, hh⟩
  · exact .inl hw

theorem newScope (hg : AlignedHistory h L) (s : Nat) (origin : Origin) :
    AlignedHistory { h with scopes := h.scopes.addChild s } (.made h.scopes.next origin :: L) := by
  have hl : Later h.scopes L (h.scopes.addChild s) (.made h.scopes.next origin :: L) :=
    (Later.addChild h.scopes L s).trans (.note ..)
  have hnew : ∀ {t o}, .made t o ∈ L → t ≠ h.scopes.next := fun hm => Nat.ne_of_lt (hg.made _ _ hm)
  refine ⟨⟨fun t x v hv => ?_, fun i inst x v hi hv => (hg.fields i inst x v hi hv).mono hl,
    fun c k hk => (hg.classes c k hk).mono hl, fun t x v hp hv => ?_, fun t o hm => ?_,
    fun t o hm => ?_, fun c decl sup t hb => ?_,
    fun c k hk => (hg.classed c k hk).mono (List.suffix_cons ..)⟩, fun g body hb => ?_,
    fun t o B hB => ?_, fun e B hB m hm => ?_⟩
  · rw [Scopes.here?_addChild] at hv
    exact (hg.vars t x v hv).mono hl
  · rw [Scopes.here?_addChild] at hv
    have ht : t ≠ h.scopes.next := fun ht => by
      rw [Scopes.here?_eq_none (Nat.le_of_eq ht.symm)] at hv
      cases hv
    rw [Scopes.parent?_addChild, if_neg ht] at hp
    exact (hg.hidden t x v hp hv).mono (List.suffix_cons ..)
  · rw [Scopes.next_addChild]
    rcases List.mem_cons.1 hm with he | hm
    · injection he with ht
      omega
    · have := hg.made t o hm
      omega
  · rw [Scopes.parent?_addChild]
    rcases List.mem_cons.1 hm with he | hm
    · injection he with ht
      rw [if_pos ht]
      rfl
    · rw [if_neg (hnew hm)]
      exact hg.inner t o hm
  · have hb := (List.mem_cons.1 hb).resolve_left (by simp)
    exact ⟨(hg.built c decl sup t hb).1.mono hl, (hg.built c decl sup t hb).2⟩
  · exact hg.tidy g body (hb.imp fun p hp => (List.mem_cons.1 hp).resolve_left (by simp))
  · rcases cons_suffix_cons hB with ⟨he, rfl⟩ | hB
    · injection he with ht
      exact fun o' hm => hnew hm ht
    · exact hg.madeNew t o B hB
  · rcases cons_suffix_cons hB with ⟨rfl, -⟩ | hB
    · simp [Event.machine?] at hm
    · exact hg.past e B hB m hm

theorem setField (hg : AlignedHistory h L) (i : Nat) (x : String) {v : Value}
    (hv : v.Aligned h.scopes L) :
    AlignedHistory { h with instances := h.instances.modify i fun inst =>
      { inst with fields := inst.fields.insert x v } } L := by
  refine hg.store (.refl ..) (fun t y w hw => .inl hw) (fun j inst y w hj hw => ?_)
    (fun c => .inl rfl) (fun _ => rfl)
  dsimp only at hj
  rw [Array.getElem?_modify] at hj
  split at hj
  · obtain ⟨inst', hi, rfl⟩ := Option.map_eq_some_iff.1 hj
    dsimp only at hw
    rw [Table.get?_insert] at hw
    split at hw
    · injection hw with hw
      exact .inr (hw ▸ hv)
    · exact .inl ⟨inst', hi, hw⟩
  · exact .inl ⟨inst, hj, hw⟩

theorem setStatic (hg : AlignedHistory h L) (c : Nat) (x : String) {v : Value}
    (hv : v.Aligned h.scopes L) :
    AlignedHistory { h with classes := h.classes.setStatic c x v } L := by
  refine hg.store (.refl ..) (fun t y w hw => .inl hw) (fun j inst y w hj hw => .inl ⟨inst, hj, hw⟩)
    (fun c' => ?_) (fun _ => rfl)
  dsimp only
  rw [Classes.setStatic, Array.getElem?_modify]
  split
  · cases hk : h.classes.cells[c']? with
    | none => exact .inl rfl
    | some k => exact .inr ⟨k, x, v, hv, rfl, rfl⟩
  · exact .inl rfl

theorem newInstance (hg : AlignedHistory h L) (c : Nat) :
    AlignedHistory { h with instances := h.instances.push ⟨c, {}⟩ } L := by
  refine hg.store (.refl ..) (fun t y w hw => .inl hw) (fun i inst x v hi hv => .inl ?_)
    (fun c => .inl rfl) (fun _ => rfl)
  dsimp only at hi
  rw [Array.getElem?_push] at hi
  split at hi
  · injection hi with hi
    subst hi
    simp [EmptyCollection.emptyCollection] at hv
  · exact ⟨inst, hi, hv⟩

/-- A class is made of its declaration. -/
theorem newClass (hg : AlignedHistory h L) {k : Class} {decl : ClassDecl}
    {superclass : Option Nat} {s : Nat}
    (hk : k.Aligned h.scopes L) (hof : k.IsOf decl superclass s)
    (hmade : MadeOf h.scopes L h.classes.next decl superclass s) :
    AlignedHistory { h with classes := h.classes.add k }
      (.turn (.built h.classes.next decl superclass s) :: L) := by
  have hl : Later h.scopes L h.scopes (.turn (.built h.classes.next decl superclass s) :: L) :=
    .note ..
  have hcell : ∀ {c : Nat} {k'}, (h.classes.add k).cells[c]? = some k' →
      c = h.classes.next ∧ k' = k ∨ h.classes.cells[c]? = some k' := fun {c k'} hc => by
    rw [Classes.add, Array.getElem?_push] at hc
    split at hc
    · next hn => exact .inl ⟨hn, (Option.some.inj hc).symm⟩
    · exact .inr hc
  have hkept : ∀ {c : Nat} {k'}, h.classes.cells[c]? = some k' →
      (h.classes.add k).cells[c]? = some k' := fun {c k'} hc => by
    rw [Classes.add, Array.getElem?_push, if_neg, hc]
    rintro rfl
    simp at hc
  refine ⟨⟨fun t x v hv => (hg.vars t x v hv).mono hl,
    fun i inst x v hi hv => (hg.fields i inst x v hi hv).mono hl, fun c k' hc => ?_,
    fun t x v hp hv => (hg.hidden t x v hp hv).mono hl.log,
    fun t o hm => hg.made t o ((List.mem_cons.1 hm).resolve_left (by simp)),
    fun t o hm => hg.inner t o ((List.mem_cons.1 hm).resolve_left (by simp)),
    fun c d sup t hb => ?_, fun c k' hc => ?_⟩, fun g body hb => ?_, fun t o B hB => ?_,
    fun e B hB m hm => ?_⟩
  · rcases hcell hc with ⟨-, rfl⟩ | hc
    · exact hk.mono hl
    · exact (hg.classes c k' hc).mono hl
  · rcases List.mem_cons.1 hb with he | hb
    · injection he with he
      injection he with hc hd hsup ht
      subst hc hd hsup ht
      exact ⟨hmade.mono hl, k, by simp [Classes.add, Classes.next], hof⟩
    · obtain ⟨hm, k', hk', hof'⟩ := hg.built c d sup t hb
      exact ⟨hm.mono hl, k', hkept hk', hof'⟩
  · rcases hcell hc with ⟨rfl, -⟩ | hc
    · exact ⟨decl, superclass, s, List.mem_cons_self ..⟩
    · exact (hg.classed c k' hc).mono hl.log
  · exact hg.tidy g body (hb.imp fun p hp => (List.mem_cons.1 hp).resolve_left (by simp))
  · exact fun o' hm => hg.madeNew t o B ((cons_suffix_cons hB).resolve_left (by simp)) o' hm
  · rcases cons_suffix_cons hB with ⟨rfl, -⟩ | hB
    · simp [Event.machine?, Turn.machine?] at hm
    · exact hg.past e B hB m hm

end AlignedHistory

end Treewalk
