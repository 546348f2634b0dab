import Mathlib.Logic.Relation
import Treewalk.Proofs.TracedRun

/-!
# What holds across every run

A run is put together from few kinds of steps. `Law R F` lists them: `R` relates the states before
and after whatever ends, `F` those before and after a piece of code that stops the run, and each
field says what one kind of step has to show. `Trace.runObeys`: whatever the functions of a run do,
`R` or `F` holds across it. A fact about all runs is then a law, and no induction is made for it
again.

A stop is put down to a piece of code: the innermost one that the run has come to and not left
(`Code.Stops`), inside of those that run it (`Code.Runs`).
-/

namespace Treewalk

/-! ### Changes of the state -/

/-- One change that a step of a run can make to the store. -/
inductive Heap.Effect (h : Heap) : Heap → Prop where
  | scope (s : Nat) : Effect h { h with scopes := h.scopes.addChild s }
  | define (s : Nat) (x : String) (v : Value) :
    Effect h { h with scopes := h.scopes.define s x v }
  | identity : Effect h { h with nextId := h.nextId + 1 }
  | inst (c : Nat) : Effect h { h with instances := h.instances.push ⟨c, {}⟩ }
  | field (i : Nat) (x : String) (v : Value) :
    Effect h { h with instances := h.instances.modify i fun inst =>
      { inst with fields := inst.fields.insert x v } }
  | cls (k : Class) : Effect h { h with classes := h.classes.add k }
  | static (c : Nat) (x : String) (v : Value) :
    Effect h { h with classes := h.classes.setStatic c x v }

/-- One change that a step of a run can make, but for what it prints. -/
inductive Machine.Effect (m : Machine) : Machine → Prop where
  | heap {h : Heap} (hh : m.heap.Effect h) : Effect m { m with heap := h }
  | tick : Effect m { m with time := m.time + Eval.tick }

namespace Eval

open Relation

/-- The step makes such changes only, and stops only for a reason in `O`. -/
structure Acts {α : Type} (O : Stop → Prop) (q : Eval α) : Prop where
  ends : ∀ {m a m'}, q m = .ok a m' → ReflTransGen Machine.Effect m m'
  stops : ∀ {m e m'}, q m = .error e m' → O e ∧ ReflTransGen Machine.Effect m m'

namespace Acts

variable {α β : Type} {O : Stop → Prop}

theorem pure (a : α) : Acts O (pure a) :=
  ⟨fun h => by cases h; exact .refl, fun h => by cases h⟩

theorem throw {e : Stop} (h : O e) : Acts O (throw e : Eval α) :=
  ⟨fun h => (by cases h), fun h => by cases h; exact ⟨‹_›, .refl⟩⟩

theorem bind {q : Eval α} {f : α → Eval β} (h : Acts O q) (hf : ∀ a, Acts O (f a)) :
    Acts O (q >>= f) := by
  refine ⟨fun {m b m'} hr => ?_, fun {m e m'} hr => ?_⟩
  · change EStateM.bind q f m = .ok b m' at hr
    rw [EStateM.bind] at hr
    split at hr
    · next a m₁ hq => exact (h.ends hq).trans ((hf a).ends hr)
    · cases hr
  · change EStateM.bind q f m = .error e m' at hr
    rw [EStateM.bind] at hr
    split at hr
    · next a m₁ hq => exact ⟨((hf a).stops hr).1, (h.ends hq).trans ((hf a).stops hr).2⟩
    · next e' m₁ hq =>
      cases hr
      exact h.stops hq

theorem get {f : Machine → Eval α} (h : ∀ m, Acts O (f m)) : Acts O (MonadState.get >>= f) :=
  ⟨fun {m _ _} hr => (h m).ends hr, fun {m _ _} hr => (h m).stops hr⟩

theorem map {q : Eval α} {f : α → β} (h : Acts O q) : Acts O (f <$> q) := by
  refine ⟨fun {m b m'} hr => ?_, fun {m e m'} hr => ?_⟩
  · change EStateM.map f q m = .ok b m' at hr
    rw [EStateM.map] at hr
    split at hr
    · next a m₁ hq =>
      cases hr
      exact h.ends hq
    · cases hr
  · change EStateM.map f q m = .error e m' at hr
    rw [EStateM.map] at hr
    split at hr
    · cases hr
    · next e' m₁ hq =>
      cases hr
      exact h.stops hq

theorem fault {t : Token} {cause : Cause} (h : O (.fault (.ofToken t cause))) :
    Acts O (fault t cause : Eval α) := throw h

theorem check {t : Token} {r : Except Cause α}
    (h : ∀ cause, r = .error cause → O (.fault (.ofToken t cause))) : Acts O (check t r) := by
  cases r with
  | ok a => exact pure a
  | error cause => exact fault (h cause rfl)

theorem demand {t : Token} {cause : Cause} (o : Option α) (h : O (.fault (.ofToken t cause))) :
    Acts O (demand t cause o) := by
  cases o with
  | some a => exact pure a
  | none => exact fault h

theorem heap {q : Eval α} (h : ∀ m, ∃ a h', q m = .ok a { m with heap := h' } ∧ m.heap.Effect h') :
    Acts O q := by
  refine ⟨fun {m b m'} hr => ?_, fun {m e m'} hr => ?_⟩ <;> obtain ⟨a, h', hq, he⟩ := h m
  · cases hq.symm.trans hr
    exact .single (.heap he)
  · cases hq.symm.trans hr

theorem freshId : Acts O freshId := heap fun _ => ⟨_, _, rfl, .identity⟩

theorem newScope (s : Nat) : Acts O (newScope s) := heap fun _ => ⟨_, _, rfl, .scope s⟩

theorem define (s : Nat) (x : String) (v : Value) : Acts O (define s x v) :=
  heap fun _ => ⟨_, _, rfl, .define s x v⟩

theorem newInstance (c : Nat) : Acts O (newInstance c) := heap fun _ => ⟨_, _, rfl, .inst c⟩

theorem newClass (k : Class) : Acts O (newClass k) := heap fun _ => ⟨_, _, rfl, .cls k⟩

theorem setProperty (target : Value) (x : String) (v : Value) :
    Acts O (setProperty target x v) := by
  match target with
  | .inst i => exact heap fun _ => ⟨_, _, rfl, .field i x v⟩
  | .callable (.cls c) => exact heap fun _ => ⟨_, _, rfl, .static c x v⟩
  | .callable (.native _) | .callable (.function _) | .callable (.initializer ..) | .nil | .bool _
  | .num _ | .string _ => exact pure ()

theorem defineAll (s : Nat) (names : List Token) (vs : List Value) :
    Acts O (defineAll s names vs) := by
  induction names generalizing vs with
  | nil => exact pure ()
  | cons name names ih =>
    cases vs with
    | nil => exact pure ()
    | cons v vs => exact (define s name.lexeme v).bind fun _ => ih vs

theorem defineHere (x : String) (v : Value) : Acts O (defineHere x v) := get fun _ => define _ x v

theorem lookUp {ref : Ref}
    (h : O (.fault (.ofToken ref.name (.undefinedVariable ref.name.lexeme)))) :
    Acts O (lookUp ref) := get fun _ => demand _ h

theorem assign {ref : Ref} (v : Value)
    (h : O (.fault (.ofToken ref.name (.undefinedVariable ref.name.lexeme)))) :
    Acts O (assign ref v) := get fun _ => (demand _ h).bind fun s => define s _ v

theorem newClosure (decl : FunctionDecl) (s : Nat) (isInit : Bool) :
    Acts O (newClosure decl s isInit) := freshId.bind fun _ => pure _

theorem newMethods (s : Nat) (ofInstances : Bool) (decls : List FunctionDecl) :
    Acts O (newMethods s ofInstances decls) := by
  induction decls with
  | nil => exact pure []
  | cons decl decls ih => exact (newClosure decl s _).bind fun f => ih.bind fun rest => pure _

theorem buildClass (decl : ClassDecl) (superclass : Option Nat) (s : Nat) :
    Acts O (buildClass decl superclass s) := by
  refine (newMethods s true _).bind fun methods => (newMethods s false _).bind fun statics => ?_
  cases decl.fields with
  | none => exact (pure none).bind fun fields => newClass _
  | some f => exact (map (newClosure f s false)).bind fun fields => newClass _

end Acts

end Eval

/-! ### Why a run stops -/

/-- The cause is one of a call itself. -/
def Cause.OfCall : Cause → Prop
  | .notCallable | .wrongArity _ _ | .stackOverflow | .host _ => True
  | _ => False

theorem Heap.binary_cause {h : Heap} {sym : Symbol} {v w : Value} {cause : Cause}
    (he : h.binary sym v w = .error cause) : ¬ cause.OfCall := by
  unfold Heap.binary at he
  split at he <;> first
    | (cases he; exact id)
    | cases he
    | (split at he <;> first | (cases he; exact id) | cases he)

theorem Heap.operate_cause {h : Heap} {op : Token} {v w : Value} {cause : Cause}
    (he : h.operate op v w = .error cause) : ¬ cause.OfCall := by
  unfold Heap.operate at he
  split at he
  · exact Heap.binary_cause he
  · injection he with he
    subst he
    exact id

theorem Heap.combine_cause {h : Heap} {op : Token} {v w : Value} {cause : Cause}
    (he : h.combine op v w = .error cause) : ¬ cause.OfCall := by
  unfold Heap.combine at he
  split at he
  · exact Heap.binary_cause he
  · injection he with he
    subst he
    exact id

theorem Heap.negate_cause {op : Token} {v : Value} {cause : Cause}
    (he : Heap.negate op v = .error cause) : ¬ cause.OfCall := by
  unfold Heap.negate at he
  split at he <;> first | (cases he; exact id) | cases he

/-- The tokens of an expression itself at which it can fail. -/
def Expr.blamed : Expr → List Token
  | .unary op _ | .binary _ op _ => [op]
  | .variable ref | .assign ref _ | .this ref => [ref.name]
  | .compound ref op _ => [ref.name, op]
  | .call _ paren _ => [paren]
  | .get _ name => [name]
  | .set _ name op _ => name :: op.toList
  | .super ref method => [ref.name, method]
  | .literal _ | .grouping _ | .logical .. | .ternary .. | .comma _ => []

/-- The tokens of a statement itself at which it can fail. -/
def Stmt.blamed : Stmt → List Token
  | .print keyword _ => [keyword]
  | .cls decl => decl.superclass.toList.map Ref.name
  | _ => []

namespace Code

/-- The tokens of a piece of code itself at which it can fail. -/
def blamed : Code → List Token
  | .expr e => e.blamed
  | .stmt s => s.blamed
  | _ => []

/-- The code is a call. -/
def IsCall (code : Code) : Prop := ∃ callee paren args, code = .expr (.call callee paren args)

/-- The code stops the run itself: it fails at one of its tokens, or no steps are left. -/
inductive Stops (code : Code) : Stop → Prop where
  | fault {t : Token} {cause : Cause} (ht : t ∈ code.blamed) (hc : cause.OfCall ↔ code.IsCall) :
    Stops code (.fault (.ofToken t cause))
  | exhausted : Stops code .exhausted

/-- The first piece of code has the second directly inside it and runs it. -/
inductive Has : Code → Code → Prop where
  | part {e part : Expr} (h : part ∈ e.parts) : Has (.expr e) (.expr part)
  | expr {s : Stmt} {e : Expr} (h : e ∈ s.exprs) : Has (.stmt s) (.expr e)
  | init {name : Token} {type : Option Token} {e : Expr} :
    Has (.stmt (.var name type (some e))) (.expr e)
  | block {body : List Stmt} {s : Stmt} (h : s ∈ body) : Has (.stmt (.block body)) (.stmt s)
  | decls {body : List Stmt} {s : Stmt} (h : s ∈ body) : Has (.stmt (.decls body)) (.stmt s)
  | yes {e : Expr} {y : Stmt} {no : Option Stmt} : Has (.stmt (.branch e y no)) (.stmt y)
  | no {e : Expr} {y no : Stmt} : Has (.stmt (.branch e y (some no))) (.stmt no)
  | round {e : Expr} {step : Option Expr} {s : Stmt} : Has (.stmt (.loop e step s)) (.stmt s)
  | step {e step : Expr} {s : Stmt} : Has (.stmt (.loop e (some step) s)) (.expr step)
  | staticField {decl : ClassDecl} {field : FieldDecl} {e : Expr} (h : field ∈ decl.staticFields)
    (he : e ∈ field.init) : Has (.stmt (.cls decl)) (.expr e)
  | body {decl : FunctionDecl} {s : Stmt} (h : s ∈ decl.body) : Has (.body decl) (.stmt s)

/-- The first piece of code runs the second: it has it inside, or calls the function it is the
inside of. -/
inductive Runs : Code → Code → Prop where
  | inside {outer inner : Code} (h : Has outer inner) : Runs outer inner
  | call {callee : Expr} {paren : Token} {args : List Expr} {decl : FunctionDecl} :
    Runs (.expr (.call callee paren args)) (.body decl)

end Code

/-- A call stops the run: it fails at its parenthesis, or no steps are left. -/
inductive CallStops (paren : Token) : Stop → Prop where
  | fault {cause : Cause} (h : cause.OfCall) : CallStops paren (.fault (.ofToken paren cause))
  | exhausted : CallStops paren .exhausted

theorem Eval.Acts.callNative {O : Stop → Prop} {paren : Token} (hO : ∀ e, CallStops paren e → O e)
    (slot : Nat) (args : List Value) : Eval.Acts O (Eval.callNative slot args paren) := by
  refine .get fun m => ?_
  dsimp only
  split
  · exact ⟨fun h => by cases h; exact .single .tick, fun h => by cases h⟩
  · split
    · exact .pure _
    · exact .fault (hO _ (.fault trivial))
  · exact .pure _

/-! ### Laws -/

/-- Something is printed. -/
def Event.Prints : Event → Prop
  | .turn (.printed _ _) => True
  | _ => False

/-- What relations between logged states have to show to hold across every run. -/
structure Law (R : Logged Event Machine → Logged Event Machine → Prop)
    (F : Code → Stop → Logged Event Machine → Logged Event Machine → Prop) : Prop where
  refl : ∀ x, R x x
  trans : ∀ {x y z}, R x y → R y z → R x z
  effect : ∀ {x m}, x.state.Effect m → R x { x with state := m }
  made : ∀ {x} s origin, R x { x with log := .made s origin :: x.log }
  used : ∀ {x} u ref, R x { x with log := .reached (.use u ref) x.state :: x.log }
  called : ∀ {x} c args, R x { x with log := .turn (.called c args x.state) :: x.log }
  applied : ∀ {x} f args, R x { x with log := .turn (.applied f args x.state) :: x.log }
  built : ∀ {x} c decl superclass s,
    R x { x with log := .turn (.built c decl superclass s) :: x.log }
  printed : ∀ {x} v, R x ⟨{ x.state with sink := x.state.sink.write (x.state.heap.text v ++ "\n") },
    .turn (.printed v x.state) :: x.log⟩
  scope : ∀ {x y} s, R { x with state.scope := s } y → R x { y with state.scope := x.state.scope }
  deeper : ∀ {x y}, x.state.depth < x.state.limit →
    R { x with state.depth := x.state.depth + 1 } y →
    R x { y with state.depth := y.state.depth - 1 }
  within : ∀ {x y code}, (∀ u ref, code ≠ .use u ref) →
    R { x with log := .reached code x.state :: x.log } y →
    R x { y with log := .turn (.left code) :: y.log }
  /-- The code stops the run itself. -/
  stops : ∀ {x y code e}, (∀ u ref, code ≠ .use u ref) → code.Stops e →
    R { x with log := .reached code x.state :: x.log } y → F code e x y
  /-- What the code runs stops the run. -/
  inside : ∀ {x y code inner e}, (∀ u ref, code ≠ .use u ref) → code.Runs inner →
    F inner e { x with log := .reached code x.state :: x.log } y → F code e x y
  after : ∀ {x y z code e}, R x y → F code e y z → F code e x z
  scopeStopped : ∀ {x y code e} s, F code e { x with state.scope := s } y →
    F code e x { y with state.scope := x.state.scope }
  deeperStopped : ∀ {x y code e}, x.state.depth < x.state.limit →
    F code e { x with state.depth := x.state.depth + 1 } y →
    F code e x { y with state.depth := y.state.depth - 1 }

/-- A law that makes no difference between code that ends and code that stops the run. -/
theorem Law.uniform {R : Logged Event Machine → Logged Event Machine → Prop}
    (refl : ∀ x, R x x) (trans : ∀ {x y z}, R x y → R y z → R x z)
    (effect : ∀ {x m}, x.state.Effect m → R x { x with state := m })
    (note : ∀ {x e}, (∀ m ∈ e.machine?, m = x.state) → ¬ e.Prints →
      R x { x with log := e :: x.log })
    (printed : ∀ {x} v, R x
      ⟨{ x.state with sink := x.state.sink.write (x.state.heap.text v ++ "\n") },
        .turn (.printed v x.state) :: x.log⟩)
    (scope : ∀ {x y} s, R { x with state.scope := s } y →
      R x { y with state.scope := x.state.scope })
    (deeper : ∀ {x y}, x.state.depth < x.state.limit →
      R { x with state.depth := x.state.depth + 1 } y →
      R x { y with state.depth := y.state.depth - 1 }) : Law R fun _ _ => R where
  refl := refl
  trans := trans
  effect := effect
  made s origin := note (by simp [Event.machine?]) id
  used u ref := note (by simp [Event.machine?]) id
  called c args := note (by simp [Event.machine?, Turn.machine?]) id
  applied f args := note (by simp [Event.machine?, Turn.machine?]) id
  built c decl superclass s := note (by simp [Event.machine?, Turn.machine?]) id
  printed := printed
  scope := scope
  deeper := deeper
  within _ h := trans (trans (note (by simp [Event.machine?]) id) h)
    (note (by simp [Event.machine?, Turn.machine?]) id)
  stops _ _ h := trans (note (by simp [Event.machine?]) id) h
  inside _ _ h := trans (note (by simp [Event.machine?]) id) h
  after := trans
  scopeStopped := scope
  deeperStopped := deeper

/-- Across `p` the relation `R` holds if it ends, or stops for a reason in `O`, and `F` if a piece
of code in `C` stops it. -/
def Obeys {α : Type} (R : Logged Event Machine → Logged Event Machine → Prop)
    (F : Code → Stop → Logged Event Machine → Logged Event Machine → Prop) (C : Code → Prop)
    (O : Stop → Prop) (x : Logged Event Machine) (p : Trace α) : Prop :=
  match p x with
  | .ok _ y => R x y
  | .error e y => O e ∧ R x y ∨ ∃ code, C code ∧ F code e x y

namespace Obeys

open Traced

variable {R : Logged Event Machine → Logged Event Machine → Prop}
  {F : Code → Stop → Logged Event Machine → Logged Event Machine → Prop} {C : Code → Prop}
  {O : Stop → Prop} {x : Logged Event Machine} {α β : Type} (law : Law R F)

include law

theorem pure (a : α) : Obeys R F C O x (pure a) := law.refl x

theorem throw {e : Stop} (h : O e) : Obeys R F C O x (throw e : Trace α) := .inl ⟨h, law.refl x⟩

theorem bind {p : Trace α} {f : α → Trace β} (h : Obeys R F C O x p)
    (hf : ∀ a y, Obeys R F C O y (f a)) : Obeys R F C O x (p >>= f) := by
  unfold Obeys at h ⊢
  show match EStateM.bind p f x with
    | .ok _ y => R x y
    | .error e y => O e ∧ R x y ∨ ∃ code, C code ∧ F code e x y
  rw [EStateM.bind]
  split at h
  · next a y heq =>
    rw [heq]
    have hrest := hf a y
    unfold Obeys at hrest
    dsimp only
    split at hrest
    · exact law.trans h hrest
    · rcases hrest with ⟨ho, hr⟩ | ⟨code, hc, hr⟩
      · exact .inl ⟨ho, law.trans h hr⟩
      · exact .inr ⟨code, hc, law.after h hr⟩
  · next e y heq =>
    rw [heq]
    exact h

omit law in
theorem get {f : Machine → Trace α} (h : Obeys R F C O x (f x.state)) :
    Obeys R F C O x (Traced.lift MonadState.get >>= f) := h

theorem effects {m m' : Machine} (h : Relation.ReflTransGen Machine.Effect m m') (L : List Event) :
    R ⟨m, L⟩ ⟨m', L⟩ := by
  induction h with
  | refl => exact law.refl _
  | @tail m₁ m₂ _ he ih =>
    have : R ⟨m₁, L⟩ ⟨m₂, L⟩ := law.effect (x := ⟨m₁, L⟩) he
    exact law.trans ih this

theorem lift {q : Eval α} (h : Eval.Acts O q) : Obeys R F C O x (Traced.lift q) := by
  unfold Obeys Traced.lift
  cases hq : q x.state with
  | ok a m => exact effects law (h.ends hq) x.log
  | error e m => exact .inl ⟨(h.stops hq).1, effects law (h.stops hq).2 x.log⟩

theorem lift_bind {q : Eval α} {f : α → Trace β} (h : Eval.Acts O q)
    (hf : ∀ a y, Obeys R F C O y (f a)) : Obeys R F C O x (Traced.lift q >>= f) :=
  (lift law h).bind law hf

omit law in
theorem note {event : Machine → Event} (h : R x { x with log := event x.state :: x.log }) :
    Obeys R F C O x (Traced.note event) := h

theorem inScope {p : Trace α} (s : Nat) (h : Obeys R F C O { x with state.scope := s } p) :
    Obeys R F C O x (Trace.inScope s p) := by
  unfold Obeys at h ⊢
  unfold Trace.inScope
  dsimp only
  split at h
  · next a y heq =>
    rw [heq]
    exact law.scope s h
  · next e y heq =>
    rw [heq]
    rcases h with ⟨ho, hr⟩ | ⟨code, hc, hr⟩
    · exact .inl ⟨ho, law.scope s hr⟩
    · exact .inr ⟨code, hc, law.scopeStopped s hr⟩

theorem deeper {p : Trace α} (hlt : x.state.depth < x.state.limit)
    (h : Obeys R F C O { x with state.depth := x.state.depth + 1 } p) :
    Obeys R F C O x (Trace.deeper p) := by
  unfold Obeys at h ⊢
  unfold Trace.deeper
  split at h
  · next a y heq =>
    rw [heq]
    exact law.deeper hlt h
  · next e y heq =>
    rw [heq]
    rcases h with ⟨ho, hr⟩ | ⟨code, hc, hr⟩
    · exact .inl ⟨ho, law.deeper hlt hr⟩
    · exact .inr ⟨code, hc, law.deeperStopped hlt hr⟩

theorem within {p : Trace α} {code : Code} (hc : C code)
    (h : ∀ y, Obeys R F code.Runs code.Stops y p)
    (hu : ∀ u ref, code ≠ .use u ref := by simp) : Obeys R F C O x (Trace.within code p) := by
  have hp := h { x with log := .reached code x.state :: x.log }
  unfold Obeys at hp ⊢
  show match EStateM.bind p (fun a => do Traced.note fun _ => .turn (.left code); Pure.pure a)
      { x with log := .reached code x.state :: x.log } with
    | .ok _ y => R x y
    | .error e y => O e ∧ R x y ∨ ∃ code, C code ∧ F code e x y
  rw [EStateM.bind]
  split at hp
  · next a y heq =>
    rw [heq]
    exact law.within hu hp
  · next e y heq =>
    rw [heq]
    rcases hp with ⟨ho, hr⟩ | ⟨inner, hi, hr⟩
    · exact .inr ⟨code, hc, law.stops hu ho hr⟩
    · exact .inr ⟨code, hc, law.inside hu hi hr⟩

theorem newScope (origin : Origin) (s : Nat) : Obeys R F C O x (Trace.newScope origin s) :=
  (note (law.made _ origin)).bind law fun _ _ => lift law (.newScope s)

theorem lookUp {u : Use} {ref : Ref}
    (h : O (.fault (.ofToken ref.name (.undefinedVariable ref.name.lexeme)))) :
    Obeys R F C O x (Trace.lookUp u ref) :=
  (note (law.used u ref)).bind law fun _ _ => lift law (.lookUp h)

theorem assign {u : Use} {ref : Ref} (v : Value)
    (h : O (.fault (.ofToken ref.name (.undefinedVariable ref.name.lexeme)))) :
    Obeys R F C O x (Trace.assign u ref v) :=
  (note (law.used u ref)).bind law fun _ _ => lift law (.assign v h)

theorem bindThis (f : Closure) (inst : Nat) : Obeys R F C O x (Trace.bindThis f inst) :=
  (newScope law _ _).bind law fun s _ => lift_bind law (.define s _ _) fun _ _ =>
    lift law (.newClosure ..)

theorem initializerOf (c inst : Nat) : Obeys R F C O x (Trace.initializerOf c inst) := by
  refine get ?_
  split
  · exact (bindThis law _ _).bind law fun _ _ => pure law _
  · exact lift_bind law .freshId fun _ _ => pure law _

theorem property {v : Value} {name : Token} (h : ∀ cause, ¬ Cause.OfCall cause →
    O (.fault (.ofToken name cause))) : Obeys R F C O x (Trace.property v name) := by
  match v with
  | .inst i =>
    refine get (lift_bind law (.demand _ (h _ id)) fun inst y => ?_)
    split
    · exact pure law _
    · split
      · exact (initializerOf law _ _).bind law fun _ _ => pure law _
      · exact lift_bind law (.demand _ (h _ id)) fun f z =>
          (bindThis law f i).bind law fun _ _ => pure law _
  | .callable (.cls c) => exact lift law (.get fun _ => .demand _ (h _ id))
  | .callable (.native _) | .callable (.function _) | .callable (.initializer ..) | .nil | .bool _
  | .num _ | .string _ => exact lift law (.fault (h _ id))

theorem superMethod {ref : Ref} {method : Token}
    (h : ∀ t ∈ [ref.name, method], ∀ cause, ¬ Cause.OfCall cause → O (.fault (.ofToken t cause))) :
    Obeys R F C O x (Trace.superMethod ref method) := by
  have href := h ref.name (by simp)
  refine (note (law.used .super ref)).bind law fun _ y => get ?_
  split
  · refine lift_bind law (.demand _ (href _ id)) fun super z =>
      lift_bind law (.demand _ (href _ id)) fun this w => ?_
    split
    · split
      · exact (initializerOf law _ _).bind law fun _ _ => pure law _
      · exact lift_bind law (.demand _ (h method (by simp) _ id)) fun f v =>
          (bindThis law f _).bind law fun _ _ => pure law _
    · exact lift law (.fault (href _ id))
  · exact lift law (.fault (href _ id))

theorem superclassOf {superclass : Option Ref}
    (h : ∀ ref ∈ superclass, ∀ cause, ¬ Cause.OfCall cause →
      O (.fault (.ofToken ref.name cause))) :
    Obeys R F C O x (Trace.superclassOf superclass) := by
  cases superclass with
  | none => exact pure law _
  | some ref =>
    refine (lookUp law (h ref rfl _ id)).bind law fun v y => ?_
    split
    · exact pure law _
    · exact lift law (.fault (h ref rfl _ id))

theorem classScope (decl : ClassDecl) (superclass : Option Nat) :
    Obeys R F C O x (Trace.classScope decl superclass) := by
  refine get ?_
  dsimp only
  split
  · exact (newScope law _ _).bind law fun s _ => lift_bind law (.define s _ _) fun _ _ => pure law _
  · exact pure law _

theorem buildClass (decl : ClassDecl) (superclass : Option Nat) (s : Nat) :
    Obeys R F C O x (Trace.buildClass decl superclass s) := by
  have h : Eval.Acts O (Eval.buildClass decl superclass s) := .buildClass ..
  unfold Obeys Trace.buildClass Traced.watch
  cases hq : Eval.buildClass decl superclass s x.state with
  | ok c m =>
    exact law.trans (effects law (h.ends hq) x.log)
      (law.built (x := ⟨m, x.log⟩) c decl superclass s)
  | error e m => exact .inl ⟨(h.stops hq).1, effects law (h.stops hq).2 x.log⟩

theorem print {keyword : Token} (v : Value) (h : O (.fault (.ofToken keyword .sinkFull))) :
    Obeys R F C O x (Trace.print keyword v) := by
  have hr := law.printed (x := x) v
  have hrun : Trace.print keyword v x =
      Traced.lift (Eval.print keyword v) ⟨x.state, .turn (.printed v x.state) :: x.log⟩ := rfl
  simp only [Obeys, hrun, Traced.lift, Eval.print]
  by_cases hf : x.state.sink.fits (x.state.heap.text v ++ "\n") = true
  · rw [if_pos hf]
    exact hr
  · rw [if_neg hf]
    exact .inl ⟨h, hr⟩

end Obeys

/-! ### Runs -/

namespace Trace

open Traced

variable {R : Logged Event Machine → Logged Event Machine → Prop}
  {F : Code → Stop → Logged Event Machine → Logged Event Machine → Prop}

/-- With `n` steps, a law holds across all that a run does. -/
structure RunObeys (R : Logged Event Machine → Logged Event Machine → Prop)
    (F : Code → Stop → Logged Event Machine → Logged Event Machine → Prop) (n : Nat) : Prop where
  eval : ∀ {C O} x e, C (.expr e) → Obeys R F C O x (eval n e)
  evalAll : ∀ {C O} x es acc, (∀ e ∈ es, C (.expr e)) → O .exhausted →
    Obeys R F C O x (evalAll n es acc)
  evalLast : ∀ {C O} x es v, (∀ e ∈ es, C (.expr e)) → O .exhausted →
    Obeys R F C O x (evalLast n es v)
  evalOption : ∀ {C O} x e, (∀ e' ∈ e, C (.expr e')) → O .exhausted →
    Obeys R F C O x (evalOption n e)
  call : ∀ {C O} x c args paren, (∀ decl, C (.body decl)) → (∀ e, CallStops paren e → O e) →
    Obeys R F C O x (call n c args paren)
  enter : ∀ {C O} x c args paren, (∀ decl, C (.body decl)) → (∀ e, CallStops paren e → O e) →
    Obeys R F C O x (enter n c args paren)
  apply : ∀ {C O} x f args, (∀ decl, C (.body decl)) → O .exhausted →
    Obeys R F C O x (apply n f args)
  setUp : ∀ {C O} x cs inst args, (∀ decl, C (.body decl)) → O .exhausted →
    Obeys R F C O x (setUp n cs inst args)
  exec : ∀ {C O} x s, C (.stmt s) → Obeys R F C O x (exec n s)
  execAll : ∀ {C O} x ss, (∀ s ∈ ss, C (.stmt s)) → O .exhausted →
    Obeys R F C O x (execAll n ss)
  loop : ∀ {C O} x e step body, C (.expr e) → (∀ e' ∈ step, C (.expr e')) → C (.stmt body) →
    O .exhausted → Obeys R F C O x (loop n e step body)
  initStatics : ∀ {C O} x c fields, (∀ f ∈ fields, ∀ e ∈ f.init, C (.expr e)) → O .exhausted →
    Obeys R F C O x (initStatics n c fields)

namespace RunObeys

variable {n : Nat} {C : Code → Prop} {O : Stop → Prop} (law : Law R F)

include law

theorem eval_succ (ih : RunObeys R F n) (x : Logged Event Machine) (e : Expr) (hc : C (.expr e)) :
    Obeys R F C O x (Trace.eval (n + 1) e) := by
  have within : ∀ {p : Trace Value}, (∀ y, Obeys R F (Code.expr e).Runs (Code.expr e).Stops y p) →
      Obeys R F C O x (Trace.within (.expr e) p) := fun h => Obeys.within law hc h
  -- What an expression other than a call fails with is no cause of a call.
  have blame : ∀ {t : Token} {cause : Cause}, t ∈ e.blamed → ¬ cause.OfCall →
      (∀ callee paren args, e ≠ .call callee paren args) →
      (Code.expr e).Stops (.fault (.ofToken t cause)) := fun ht hcause hne =>
    .fault ht ⟨fun h => absurd h hcause, fun ⟨callee, paren, args, h⟩ =>
      absurd (Code.expr.inj h) (hne callee paren args)⟩
  have part : ∀ {e'}, e' ∈ e.parts → (Code.expr e).Runs (.expr e') := fun h => .inside (.part h)
  clear hc
  cases e <;> rw [Trace.eval] <;> refine within fun x => ?_
  case literal v => exact .pure law _
  case grouping e => exact ih.eval _ e (part (by simp [Expr.parts]))
  case unary op e =>
    refine (ih.eval _ e (part (by simp [Expr.parts]))).bind law fun v y => .lift law (.check ?_)
    exact fun cause h => blame (by simp [Expr.blamed]) (Heap.negate_cause h) (by simp)
  case binary l op r =>
    refine (ih.eval _ l (part (by simp [Expr.parts]))).bind law fun v y =>
      (ih.eval _ r (part (by simp [Expr.parts]))).bind law fun w z => .get (.lift law (.check ?_))
    exact fun cause h => blame (by simp [Expr.blamed]) (Heap.operate_cause h) (by simp)
  case logical l op r =>
    refine (ih.eval _ l (part (by simp [Expr.parts]))).bind law fun v y => ?_
    split
    · exact .pure law _
    · exact ih.eval _ r (part (by simp [Expr.parts]))
  case ternary c y z =>
    refine (ih.eval _ c (part (by simp [Expr.parts]))).bind law fun v w => ?_
    split
    · exact ih.eval _ y (part (by simp [Expr.parts]))
    · exact ih.eval _ z (part (by simp [Expr.parts]))
  case comma es => exact ih.evalLast _ es _ (fun e he => part he) .exhausted
  case «variable» ref => exact .lookUp law (blame (by simp [Expr.blamed]) id (by simp))
  case assign ref e =>
    exact (ih.eval _ e (part (by simp [Expr.parts]))).bind law fun v y =>
      (Obeys.assign law v (blame (by simp [Expr.blamed]) id (by simp))).bind law fun _ z => .pure law _
  case compound ref op e =>
    refine (Obeys.lookUp law (blame (by simp [Expr.blamed]) id (by simp))).bind law fun v y =>
      (ih.eval _ e (part (by simp [Expr.parts]))).bind law fun w z => .get ?_
    refine .lift_bind law (.check ?_) fun v y =>
      (Obeys.assign law v (blame (by simp [Expr.blamed]) id (by simp))).bind law fun _ z => .pure law _
    exact fun cause h => blame (by simp [Expr.blamed]) (Heap.combine_cause h) (by simp)
  case call callee paren args =>
    have stops : ∀ stop, CallStops paren stop →
        (Code.expr (.call callee paren args)).Stops stop := fun stop h => by
      cases h with
      | fault h =>
        exact .fault (by simp [Code.blamed, Expr.blamed]) ⟨fun _ => ⟨_, _, _, rfl⟩, fun _ => h⟩
      | exhausted => exact .exhausted
    refine (ih.eval _ callee (part (by simp [Expr.parts]))).bind law fun f y =>
      (ih.evalAll _ args [] (fun e he => part (by simp [Expr.parts, he])) .exhausted).bind law
        fun vs z => ?_
    cases f with
    | callable c => exact ih.call _ c vs paren (fun decl => .call) stops
    | nil | bool | num | string | inst => exact .lift law (.fault (stops _ (.fault trivial)))
  case get e name =>
    exact (ih.eval _ e (part (by simp [Expr.parts]))).bind law fun v y =>
      .property law fun cause h => blame (by simp [Expr.blamed]) h (by simp)
  case set e name op value =>
    refine (ih.eval _ e (part (by simp [Expr.parts]))).bind law fun target y => ?_
    split
    · refine (ih.eval _ value (part (by simp [Expr.parts]))).bind law fun w z => ?_
      cases op with
      | some op =>
        refine (Obeys.property law fun cause h => blame (by simp [Expr.blamed]) h (by simp)).bind law
          fun v z => .get (.lift_bind law (.check ?_) fun v w =>
            .lift_bind law (.setProperty ..) fun _ _ => .pure law _)
        exact fun cause h => blame (by simp [Expr.blamed]) (Heap.combine_cause h) (by simp)
      | none => exact .lift_bind law (.setProperty ..) fun _ _ => .pure law _
    · exact .lift law (.fault (blame (by simp [Expr.blamed]) id (by simp)))
  case this ref => exact .lookUp law (blame (by simp [Expr.blamed]) id (by simp))
  case super ref method =>
    exact .superMethod law fun t ht cause h => blame ht h (by simp)

theorem call_succ (ih : RunObeys R F n) (x : Logged Event Machine) (c : Callable)
    (args : List Value) (paren : Token) (hc : ∀ decl, C (.body decl))
    (hO : ∀ e, CallStops paren e → O e) : Obeys R F C O x (Trace.call (n + 1) c args paren) := by
  rw [Trace.call]
  refine .get ?_
  split
  · exact .lift law (.fault (hO _ (.fault trivial)))
  · next hlt =>
    refine .deeper law (Nat.lt_of_not_le hlt) ((Obeys.note (law.called c args)).bind law fun _ y =>
      .get ?_)
    dsimp only
    split
    · exact ih.enter _ c args paren hc hO
    · exact .lift law (.fault (hO _ (.fault trivial)))

theorem enter_succ (ih : RunObeys R F n) (x : Logged Event Machine) (c : Callable)
    (args : List Value) (paren : Token) (hc : ∀ decl, C (.body decl))
    (hO : ∀ e, CallStops paren e → O e) : Obeys R F C O x (Trace.enter (n + 1) c args paren) := by
  have hex : O .exhausted := hO _ .exhausted
  cases c <;> rw [Trace.enter]
  case native slot => exact .lift law (.callNative hO slot args)
  case function f => exact ih.apply _ f args hc hex
  case initializer id c inst =>
    exact .get ((ih.setUp _ _ inst args hc hex).bind law fun _ _ => .pure law _)
  case cls c =>
    exact .lift_bind law (.newInstance c) fun inst y => .get
      ((ih.setUp _ _ inst args hc hex).bind law fun _ _ => .pure law _)

theorem apply_succ (ih : RunObeys R F n) (x : Logged Event Machine) (f : Closure)
    (args : List Value) (hc : ∀ decl, C (.body decl)) :
    Obeys R F C O x (Trace.apply (n + 1) f args) := by
  rw [Trace.apply]
  refine (Obeys.note (law.applied f args)).bind law fun _ _ => (Obeys.newScope law _ _).bind law
    fun s y => .lift_bind law (.defineAll ..) fun _ z => (Obeys.inScope law s
      (Obeys.within law (hc f.decl) fun w => ?_)).bind law fun flow w => ?_
  · exact ih.execAll _ _ (fun s hs => .inside (.body hs)) .exhausted
  · split
    · exact .get (.pure law _)
    · cases flow <;> exact .pure law _

theorem setUp_succ (ih : RunObeys R F n) (x : Logged Event Machine) (cs : List Class) (inst : Nat)
    (args : List Value) (hc : ∀ decl, C (.body decl)) (hO : O .exhausted) :
    Obeys R F C O x (Trace.setUp (n + 1) cs inst args) := by
  cases cs with
  | nil => exact .pure law _
  | cons c above =>
    rw [Trace.setUp]
    cases c.init? with
    | some f =>
      exact (Obeys.bindThis law f inst).bind law fun f y =>
        (ih.apply _ f args hc hO).bind law fun _ _ => .pure law _
    | none =>
      refine (ih.setUp _ above inst args hc hO).bind law fun _ y => ?_
      cases c.fields with
      | some f =>
        exact (Obeys.bindThis law f inst).bind law fun f y =>
          (ih.apply _ f [] hc hO).bind law fun _ _ => .pure law _
      | none => exact .pure law _

theorem exec_succ (ih : RunObeys R F n) (x : Logged Event Machine) (s : Stmt) (hc : C (.stmt s)) :
    Obeys R F C O x (Trace.exec (n + 1) s) := by
  have within : ∀ {p : Trace Flow}, (∀ y, Obeys R F (Code.stmt s).Runs (Code.stmt s).Stops y p) →
      Obeys R F C O x (Trace.within (.stmt s) p) := fun h => Obeys.within law hc h
  have blame : ∀ {t : Token} {cause : Cause}, t ∈ s.blamed → ¬ cause.OfCall →
      (Code.stmt s).Stops (.fault (.ofToken t cause)) := fun ht hcause =>
    .fault ht ⟨fun h => absurd h hcause, fun ⟨_, _, _, h⟩ => by cases h⟩
  have expr : ∀ {e}, e ∈ s.exprs → (Code.stmt s).Runs (.expr e) := fun h => .inside (.expr h)
  clear hc
  cases s
  case branch e y no =>
    cases no with
    | some s =>
      rw [Trace.exec]
      refine within fun x => (ih.eval _ e (expr (by simp [Stmt.exprs]))).bind law fun v z => ?_
      split
      · exact ih.exec _ y (.inside .yes)
      · exact ih.exec _ s (.inside .no)
    | none =>
      rw [Trace.exec]
      refine within fun x => (ih.eval _ e (expr (by simp [Stmt.exprs]))).bind law fun v z => ?_
      split
      · exact ih.exec _ y (.inside .yes)
      · exact .pure law _
  all_goals rw [Trace.exec]; refine within fun x => ?_
  case expr e =>
    exact (ih.eval _ e (expr (by simp [Stmt.exprs]))).bind law fun _ _ => .pure law _
  case print keyword e =>
    exact (ih.eval _ e (expr (by simp [Stmt.exprs]))).bind law fun v y =>
      (Obeys.print law v (blame (by simp [Stmt.blamed]) id)).bind law fun _ _ => .pure law _
  case var name type init =>
    refine (ih.evalOption _ init (fun e he => ?_) .exhausted).bind law fun v y =>
      .lift_bind law (.defineHere ..) fun _ _ => .pure law _
    rw [Option.mem_def.1 he]
    exact .inside .init
  case block body =>
    exact .get ((Obeys.newScope law _ _).bind law fun s y =>
      .inScope law s (ih.execAll _ body (fun s hs => .inside (.block hs)) .exhausted))
  case decls body => exact ih.execAll _ body (fun s hs => .inside (.decls hs)) .exhausted
  case loop e step body =>
    refine ih.loop _ e step body (expr (by simp [Stmt.exprs])) (fun e' he' => ?_) (.inside .round)
      .exhausted
    rw [Option.mem_def.1 he']
    exact .inside .step
  case function decl =>
    exact .get (.lift_bind law (.newClosure ..) fun f y =>
      .lift_bind law (.defineHere ..) fun _ _ => .pure law _)
  case ret keyword value =>
    refine (ih.evalOption _ value (fun e he => ?_) .exhausted).bind law fun v y => .pure law _
    rw [Option.mem_def.1 he] at expr ⊢
    exact expr (by simp [Stmt.exprs])
  case brk | cont | require | expose => exact .pure law _
  case cls decl =>
    refine .lift_bind law (.defineHere ..) fun _ y => (Obeys.superclassOf law fun ref hr cause h =>
      ?_).bind law fun sup z => (Obeys.classScope law decl sup).bind law fun s w =>
      (Obeys.buildClass law decl sup s).bind law fun c v => (Obeys.inScope law s
        (ih.initStatics _ c _ (fun f hf e he => .inside (.staticField hf he)) .exhausted)).bind law
        fun _ u => .lift_bind law (.defineHere ..) fun _ _ => .pure law _
    exact blame (by simp [Stmt.blamed, Option.mem_def.1 hr]) h

theorem execAll_succ (ih : RunObeys R F n) (x : Logged Event Machine) (ss : List Stmt)
    (hc : ∀ s ∈ ss, C (.stmt s)) (hO : O .exhausted) :
    Obeys R F C O x (Trace.execAll (n + 1) ss) := by
  cases ss with
  | nil => exact .pure law _
  | cons s ss =>
    rw [Trace.execAll]
    refine (ih.exec _ s (hc s (by simp))).bind law fun flow y => ?_
    cases flow with
    | normal => exact ih.execAll _ ss (fun s hs => hc s (by simp [hs])) hO
    | ret | brk | cont => exact .pure law _

theorem loop_succ (ih : RunObeys R F n) (x : Logged Event Machine) (e : Expr) (step : Option Expr)
    (body : Stmt) (he : C (.expr e)) (hstep : ∀ e' ∈ step, C (.expr e')) (hb : C (.stmt body))
    (hO : O .exhausted) : Obeys R F C O x (Trace.loop (n + 1) e step body) := by
  rw [Trace.loop]
  refine (ih.eval _ e he).bind law fun v y => ?_
  split
  · refine (ih.exec _ body hb).bind law fun flow z => ?_
    cases flow with
    | brk | ret => exact .pure law _
    | normal | cont =>
      exact (ih.evalOption _ step hstep hO).bind law fun _ w =>
        ih.loop _ e step body he hstep hb hO
  · exact .pure law _

end RunObeys

/-- A law holds across all that a run does. -/
theorem runObeys (law : Law R F) (n : Nat) : RunObeys R F n := by
  induction n with
  | zero =>
    refine ⟨?_, ?_, ?_, ?_, ?_, ?_, ?_, ?_, ?_, ?_, ?_, ?_⟩
    case refine_1 =>
      intro C O x e hc
      rw [eval]
      exact .within law hc fun _ => .throw law .exhausted
    case refine_9 =>
      intro C O x s hc
      rw [exec]
      exact .within law hc fun _ => .throw law .exhausted
    case refine_5 | refine_6 => exact fun x c args paren _ hO => .throw law (hO _ .exhausted)
    all_goals intros; exact .throw law ‹_›
  | succ n ih =>
    refine ⟨ih.eval_succ law, ?_, ?_, ?_, ih.call_succ law, ih.enter_succ law, ?_, ih.setUp_succ law,
      ih.exec_succ law, ih.execAll_succ law, ih.loop_succ law, ?_⟩
    · intro C O x es acc hc hO
      cases es with
      | nil => exact .pure law _
      | cons e es =>
        exact (ih.eval _ e (hc e (by simp))).bind law fun v y =>
          ih.evalAll _ es _ (fun e he => hc e (by simp [he])) hO
    · intro C O x es v hc hO
      cases es with
      | nil => exact .pure law _
      | cons e es =>
        exact (ih.eval _ e (hc e (by simp))).bind law fun v y =>
          ih.evalLast _ es _ (fun e he => hc e (by simp [he])) hO
    · intro C O x e hc hO
      cases e with
      | none => exact .pure law _
      | some e => exact ih.eval _ e (hc e rfl)
    · exact fun x f args hc _ => ih.apply_succ law x f args hc
    · intro C O x c fields hc hO
      cases fields with
      | nil => exact .pure law _
      | cons field fields =>
        exact (ih.evalOption _ field.init (hc field (by simp)) hO).bind law fun v y =>
          .lift_bind law (.setProperty ..) fun _ z =>
            ih.initStatics _ c fields (fun f hf => hc f (by simp [hf])) hO

theorem run_obeys (law : Law R F) {C : Code → Prop} {O : Stop → Prop} (n : Nat) (body : List Stmt)
    (hc : ∀ s ∈ body, C (.stmt s)) (x : Logged Event Machine) : Obeys R F C O x (run n body) := by
  induction body generalizing x with
  | nil => exact .pure law _
  | cons s ss ih =>
    exact ((runObeys law n).exec _ s (hc s (by simp))).bind law fun _ y =>
      ih (fun s hs => hc s (by simp [hs])) y

end Trace

end Treewalk
