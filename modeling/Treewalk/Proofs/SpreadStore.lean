import Treewalk.Proofs.Spread
import Treewalk.Proofs.Unseen

/-!
# A store of spread functions

The functions in a store carry their code with them. `Machine.spread` spreads the code of all of
them and changes nothing else. `Mirrors k m p q`: from the spread machine, `q` does what `p` does
from `m`, where `k` says what becomes of the result. Each single step of a machine is so.
-/

namespace Treewalk

/-! ### Tables -/

namespace Table
variable {κ β γ : Type}

/-- The table with other values. -/
def map (g : β → γ) (t : Table κ β) : Table κ γ := ⟨t.entries.map fun e => (e.1, g e.2)⟩

@[simp] theorem map_empty (g : β → γ) : (∅ : Table κ β).map g = ∅ := rfl

variable [DecidableEq κ] (g : β → γ)

theorem get?_map (t : Table κ β) (k : κ) : (t.map g).get? k = (t.get? k).map g := by
  obtain ⟨entries⟩ := t
  show lookup k (entries.map _) = (lookup k entries).map g
  induction entries with
  | nil => rfl
  | cons e rest ih =>
    by_cases h : e.1 = k
    · simp [lookup, h]
    · simp [lookup, h, ih]

theorem map_insert (t : Table κ β) (k : κ) (v : β) :
    (t.insert k v).map g = (t.map g).insert k (g v) := by
  obtain ⟨entries⟩ := t
  refine congrArg Table.mk ?_
  show (write k v entries).map _ = write k (g v) (entries.map _)
  induction entries with
  | nil => rfl
  | cons e rest ih =>
    by_cases h : e.1 = k
    · simp [write, h]
    · simp [write, h, ih]

theorem map_ofList (l : List (κ × β)) :
    (ofList l).map g = ofList (l.map fun e => (e.1, g e.2)) := by
  have hfold : ∀ t : Table κ β, (l.foldl (fun t e => t.insert e.1 e.2) t).map g =
      (l.map fun e => (e.1, g e.2)).foldl (fun t e => t.insert e.1 e.2) (t.map g) := by
    induction l with
    | nil => exact fun t => rfl
    | cons e l ih => exact fun t => (ih _).trans (by rw [map_insert]; rfl)
  exact hfold empty

end Table

theorem map_modify_comm {α β : Type} (g : α → β) (f : α → α) (f' : β → β)
    (h : ∀ a, g (f a) = f' (g a)) (xs : Array α) (i : Nat) :
    (xs.modify i f).map g = (xs.map g).modify i f' := by
  refine Array.ext_getElem? fun j => ?_
  simp only [Array.getElem?_map, Array.getElem?_modify]
  by_cases hi : i = j
  · simp [hi, Function.comp_def, h]
  · simp [hi]

/-! ### Values -/

/-- The closure with its code spread. -/
def Closure.spread (f : Closure) : Closure := { f with decl := f.decl.spread }

/-- What is called, with its code spread. -/
def Callable.spread : Callable → Callable
  | .native slot => .native slot
  | .function f => .function f.spread
  | .initializer id c i => .initializer id c i
  | .cls c => .cls c

/-- The value with its code spread. -/
def Value.spread : Value → Value
  | .nil => .nil
  | .bool b => .bool b
  | .num x => .num x
  | .string s => .string s
  | .callable c => .callable c.spread
  | .inst i => .inst i

/-- The end of a statement with its code spread. -/
def Flow.spread : Flow → Flow
  | .normal => .normal
  | .ret v => .ret v.spread
  | .brk => .brk
  | .cont => .cont

@[simp] theorem Closure.arity_spread (f : Closure) : f.spread.arity = f.arity := by
  simp [arity, spread]

theorem Callable.same_spread (c d : Callable) : c.spread.same d.spread = c.same d := by
  cases c <;> cases d <;> rfl

namespace Value

@[simp] theorem truthy_spread (v : Value) : v.spread.truthy = v.truthy := by
  cases v <;> rfl

@[simp] theorem hasFields_spread (v : Value) : v.spread.hasFields = v.hasFields := by
  cases v with
  | callable c => cases c <;> rfl
  | _ => rfl

@[simp] theorem spread_ofLiteral (l : Literal) : (ofLiteral l).spread = ofLiteral l := by
  cases l <;> rfl

theorem equal_spread (v w : Value) : v.spread.equal w.spread = v.equal w := by
  cases v with
  | callable c =>
    cases w with
    | callable d => exact c.same_spread d
    | _ => rfl
  | _ => cases w <;> rfl

end Value

/-! ### Scopes -/

/-- The scope with the code of its variables spread. -/
def Scope.spread (s : Scope) : Scope := { s with vars := s.vars.map Value.spread }

namespace Scopes

/-- The scopes with the code of their variables spread. -/
def spread (ss : Scopes) : Scopes := ⟨ss.cells.map Scope.spread⟩

variable (ss : Scopes) (s d : Nat) (x : String) (v : Value)

@[simp] theorem next_spread : ss.spread.next = ss.next := by simp [next, spread]

@[simp] theorem parent?_spread : ss.spread.parent? s = ss.parent? s := by
  simp only [parent?, spread, Array.getElem?_map]
  cases ss.cells[s]? <;> rfl

theorem here?_spread : ss.spread.here? s x = (ss.here? s x).map Value.spread := by
  simp only [here?, spread, Array.getElem?_map]
  cases ss.cells[s]? with
  | none => rfl
  | some scope => exact scope.vars.get?_map Value.spread x

theorem spread_addChild : (ss.addChild s).spread = ss.spread.addChild s := by
  simp [addChild, spread, Scope.spread]

theorem spread_define : (ss.define s x v).spread = ss.spread.define s x v.spread := by
  have h := map_modify_comm Scope.spread
    (fun scope => { scope with vars := scope.vars.insert x v })
    (fun scope => { scope with vars := scope.vars.insert x v.spread })
    (fun scope => by simp [Scope.spread, Table.map_insert]) ss.cells s
  exact congrArg Scopes.mk h

@[simp] theorem ancestor?_spread : ss.spread.ancestor? s d = ss.ancestor? s d := by
  induction d generalizing s with
  | zero => rfl
  | succ d ih =>
    rw [ancestor?, ancestor?, parent?_spread]
    cases ss.parent? s with
    | none => rfl
    | some p => exact ih p

@[simp] theorem root_spread : ss.spread.root s = ss.root s := by
  have hwithin : ∀ n s, ss.spread.rootWithin n s = ss.rootWithin n s := by
    intro n
    induction n with
    | zero => exact fun s => rfl
    | succ n ih =>
      intro s
      rw [rootWithin, rootWithin, parent?_spread]
      cases ss.parent? s with
      | none => rfl
      | some p => exact ih p
  exact hwithin s s

@[simp] theorem holder?_spread : ss.spread.holder? s x = ss.holder? s x := by
  have hwithin : ∀ n s, ss.spread.holderWithin? x n s = ss.holderWithin? x n s := by
    intro n
    induction n with
    | zero => exact fun s => by rw [holderWithin?, holderWithin?, here?_spread, Option.isSome_map]
    | succ n ih =>
      intro s
      rw [holderWithin?, holderWithin?, here?_spread, Option.isSome_map, parent?_spread]
      cases ss.parent? s with
      | none => rfl
      | some p =>
        dsimp only
        rw [ih p]
  exact hwithin s s

theorem get?_spread : ss.spread.get? s x = (ss.get? s x).map Value.spread := by
  rw [get?, get?, holder?_spread]
  cases ss.holder? s x with
  | none => rfl
  | some t => exact ss.here?_spread t x

theorem getAt?_spread : ss.spread.getAt? s d x = (ss.getAt? s d x).map Value.spread := by
  rw [getAt?, getAt?, ancestor?_spread]
  cases ss.ancestor? s d with
  | none => rfl
  | some t => exact ss.here?_spread t x

end Scopes

/-! ### Classes -/

/-- The class with the code of its members spread. -/
def Class.spread (k : Class) : Class :=
  { k with
    methods := k.methods.map Closure.spread
    fields := k.fields.map Closure.spread
    staticMethods := k.staticMethods.map Closure.spread
    statics := k.statics.map Value.spread }

theorem Class.superclass_spread (k : Class) : k.spread.superclass = k.superclass := rfl

theorem Class.init?_spread (k : Class) : k.spread.init? = k.init?.map Closure.spread :=
  Table.get?_map ..

theorem Class.ownStatic?_spread (k : Class) (x : String) :
    k.spread.ownStatic? x = (k.ownStatic? x).map Value.spread := by
  rw [ownStatic?, ownStatic?, spread, Table.get?_map, Table.get?_map]
  cases k.statics.get? x with
  | some v => rfl
  | none => cases k.staticMethods.get? x <;> rfl

namespace Classes

/-- The classes with the code of their members spread. -/
def spread (cs : Classes) : Classes := ⟨cs.cells.map Class.spread⟩

variable (cs : Classes) (c : Nat) (x : String)

@[simp] theorem next_spread : cs.spread.next = cs.next := by simp [next, spread]

@[simp] theorem getElem?_spread : cs.spread.cells[c]? = cs.cells[c]?.map Class.spread := by
  simp [spread]

theorem spread_add (k : Class) : (cs.add k).spread = cs.spread.add k.spread := by
  simp [add, spread]

theorem lineage_spread : cs.spread.lineage c = (cs.lineage c).map Class.spread := by
  have hwithin : ∀ n c, cs.spread.lineageWithin n c = (cs.lineageWithin n c).map Class.spread := by
    intro n
    induction n with
    | zero => exact fun c => rfl
    | succ n ih =>
      intro c
      rw [lineageWithin, lineageWithin, getElem?_spread]
      cases cs.cells[c]? with
      | none => rfl
      | some k =>
        dsimp only [Option.map_some]
        rw [Class.superclass_spread]
        cases k.superclass with
        | none => rfl
        | some s => exact congrArg _ (ih s)
  exact hwithin (c + 1) c

theorem method?_spread : cs.spread.method? c x = (cs.method? c x).map Closure.spread := by
  rw [method?, method?, lineage_spread, List.findSome?_map, List.map_findSome?]
  congr 1
  funext k
  exact Table.get?_map ..

theorem static?_spread : cs.spread.static? c x = (cs.static? c x).map Value.spread := by
  rw [static?, static?, lineage_spread, List.findSome?_map, List.map_findSome?]
  congr 1
  funext k
  exact k.ownStatic?_spread x

@[simp] theorem arity_spread : cs.spread.arity c = cs.arity c := by
  rw [arity, arity, method?_spread]
  cases cs.method? c initName with
  | none => rfl
  | some f => exact f.arity_spread

theorem spread_setStatic (v : Value) :
    (cs.setStatic c x v).spread = cs.spread.setStatic c x v.spread := by
  have h := map_modify_comm Class.spread
    (fun k => { k with statics := k.statics.insert x v })
    (fun k => { k with statics := k.statics.insert x v.spread })
    (fun k => by simp [Class.spread, Table.map_insert]) cs.cells c
  exact congrArg Classes.mk h

end Classes

/-! ### The store -/

/-- The instance with the code of its fields spread. -/
def Instance.spread (i : Instance) : Instance := { i with fields := i.fields.map Value.spread }

namespace Heap

/-- The store with all code spread. -/
def spread (h : Heap) : Heap :=
  { h with
    scopes := h.scopes.spread
    classes := h.classes.spread
    instances := h.instances.map Instance.spread }

variable (h : Heap)

@[simp] theorem className_spread (c : Nat) : h.spread.className c = h.className c := by
  rw [className, className, spread, Classes.getElem?_spread]
  cases h.classes.cells[c]? <;> rfl

@[simp] theorem text_spread (v : Value) : h.spread.text v.spread = h.text v := by
  cases v with
  | bool b => cases b <;> rfl
  | callable c =>
    cases c with
    | function f => simp [Value.spread, Callable.spread, Closure.spread, text, callableText]
    | cls c => exact h.className_spread c
    | _ => rfl
  | inst i =>
    simp only [Value.spread, text, spread, Array.getElem?_map]
    cases h.instances[i]? with
    | none => rfl
    | some inst => exact congrArg (· ++ " instance") (h.className_spread inst.cls)
  | _ => rfl

@[simp] theorem arity_spread (c : Callable) : h.spread.arity c.spread = h.arity c := by
  cases c with
  | native slot => rfl
  | function f => exact f.arity_spread
  | initializer id c i => exact h.classes.arity_spread c
  | cls c => exact h.classes.arity_spread c

theorem negate_spread (op : Token) (v : Value) :
    negate op v.spread = (negate op v).map Value.spread := by
  unfold negate
  cases op.symbol? with
  | none => cases v <;> rfl
  | some s => cases s <;> cases v <;> rfl

/-- Operators see of a callable its text and its identity. -/
theorem binary_spread (s : Symbol) (v w : Value) :
    h.spread.binary s v.spread w.spread = (h.binary s v w).map Value.spread := by
  have hbool : ∀ a b, a = b →
      (.ok (.bool a) : Except Cause Value) = (Except.ok (.bool b)).map Value.spread := by
    rintro a _ rfl
    rfl
  have hstring : ∀ a b, a = b →
      (.ok (.string a) : Except Cause Value) = (Except.ok (.string b)).map Value.spread := by
    rintro a _ rfl
    rfl
  have hdivide : ∀ (p : Prop) [Decidable p] (x : Float),
      (if p then .error .divisionByZero else .ok (.num x) : Except Cause Value) =
        (if p then .error .divisionByZero else .ok (.num x) : Except Cause Value).map
          Value.spread := by
    intro p _ x
    split <;> rfl
  cases s with
  | equalEqual => exact hbool _ _ (v.equal_spread w)
  | bangEqual => exact hbool _ _ (congrArg (!·) (v.equal_spread w))
  | plus =>
    have htext := h.text_spread v
    cases v with
    | string s => exact hstring _ _ (congrArg (s ++ ·) (h.text_spread w))
    | _ =>
      cases w with
      | string t => exact hstring _ _ (congrArg (· ++ t) htext)
      | _ => rfl
  | slash | percent =>
    cases v with
    | num x =>
      cases w with
      | num y => exact hdivide _ _
      | _ => rfl
    | _ => cases w <;> rfl
  | minus | star | less | lessEqual | greaterEqual | greater => cases v <;> cases w <;> rfl
  | _ => rfl

theorem operate_spread (op : Token) (v w : Value) :
    h.spread.operate op v.spread w.spread = (h.operate op v w).map Value.spread := by
  unfold operate
  cases op.symbol? with
  | none => rfl
  | some s => exact h.binary_spread s v w

theorem combine_spread (op : Token) (v w : Value) :
    h.spread.combine op v.spread w.spread = (h.combine op v w).map Value.spread := by
  unfold combine
  cases op.symbol?.bind Symbol.compoundBase? with
  | none => rfl
  | some s => exact h.binary_spread s v w

end Heap

/-- The machine with all code spread. -/
def Machine.spread (m : Machine) : Machine := { m with heap := m.heap.spread }

namespace Machine
variable (m : Machine)

@[simp] theorem spread_bindings : m.spread.bindings = m.bindings := rfl

@[simp] theorem spread_scope : m.spread.scope = m.scope := rfl

@[simp] theorem spread_scopes : m.spread.heap.scopes = m.heap.scopes.spread := rfl

@[simp] theorem spread_classes : m.spread.heap.classes = m.heap.classes.spread := rfl

@[simp] theorem spread_natives : m.spread.heap.natives = m.heap.natives := rfl

end Machine

/-! ### Steps -/

namespace Eval
variable {α β γ δ : Type}

/-- The end of a run with another result and another machine. -/
def mapEnd (k : α → β) (t : Machine → Machine) :
    EStateM.Result Stop Machine α → EStateM.Result Stop Machine β
  | .ok a m => .ok (k a) (t m)
  | .error e m => .error e (t m)

/-- The result and the machine that is left, with all code spread. -/
abbrev spreadEnd (k : α → β) : EStateM.Result Stop Machine α → EStateM.Result Stop Machine β :=
  mapEnd k Machine.spread

/-- From the spread machine, `q` does what `p` does from `m`. -/
def Mirrors (k : α → β) (m : Machine) (p : Eval α) (q : Eval β) : Prop :=
  q m.spread = spreadEnd k (p m)

namespace Mirrors
variable {k : α → β} {l : γ → δ} {m : Machine} {p : Eval α} {q : Eval β} {f : α → Eval γ}
  {g : β → Eval δ}

theorem pure {a : α} {b : β} (h : b = k a) : Mirrors k m (Pure.pure a) (Pure.pure b) := by
  rw [h]
  rfl

theorem fault (t : Token) (cause : Cause) : Mirrors k m (Eval.fault t cause) (Eval.fault t cause) :=
  rfl

theorem bind (h : Mirrors k m p q) (hf : ∀ a m', Mirrors l m' (f a) (g (k a))) :
    Mirrors l m (p >>= f) (q >>= g) := by
  rw [Mirrors] at h ⊢
  cases hp : p m with
  | ok a m₁ =>
    rw [hp] at h
    rw [bind_of_ok hp, bind_of_ok h]
    exact hf a m₁
  | error e m₁ =>
    rw [hp] at h
    rw [bind_of_error hp, bind_of_error h]
    rfl

theorem get {f : Machine → Eval γ} {g : Machine → Eval δ} (h : Mirrors l m (f m) (g m.spread)) :
    Mirrors l m (MonadState.get >>= f) (MonadState.get >>= g) := h

theorem ite {c : Prop} [Decidable c] {p' : Eval α} {q' : Eval β} (h : Mirrors k m p q)
    (h' : Mirrors k m p' q') : Mirrors k m (if c then p else p') (if c then q else q') := by
  split
  · exact h
  · exact h'

theorem demand (t : Token) (cause : Cause) {o : Option α} {o' : Option β} (h : o' = o.map k) :
    Mirrors k m (Eval.demand t cause o) (Eval.demand t cause o') := by
  subst h
  cases o with
  | none => exact fault t cause
  | some a => exact pure rfl

theorem check (t : Token) {x : Except Cause α} {x' : Except Cause β} (h : x' = x.map k) :
    Mirrors k m (Eval.check t x) (Eval.check t x') := by
  subst h
  cases x with
  | error cause => exact fault t cause
  | ok a => exact pure rfl

variable (m)

theorem freshId : Mirrors id m Eval.freshId Eval.freshId := rfl

theorem newScope (s : Nat) : Mirrors id m (Eval.newScope s) (Eval.newScope s) := by
  simp [Mirrors, Eval.newScope, mapEnd, Machine.spread, Heap.spread, Scopes.spread_addChild]

theorem define (s : Nat) (x : String) (v : Value) :
    Mirrors id m (Eval.define s x v) (Eval.define s x v.spread) := by
  simp [Mirrors, Eval.define, mapEnd, Machine.spread, Heap.spread, Scopes.spread_define]

theorem defineHere (x : String) (v : Value) :
    Mirrors id m (Eval.defineHere x v) (Eval.defineHere x v.spread) :=
  get (define m m.scope x v)

theorem defineAll (s : Nat) (names : List Token) (vs : List Value) :
    Mirrors id m (Eval.defineAll s names vs) (Eval.defineAll s names (vs.map Value.spread)) := by
  induction names generalizing vs m with
  | nil => exact pure rfl
  | cons name names ih =>
    cases vs with
    | nil => exact pure rfl
    | cons v vs => exact (define m s name.lexeme v).bind fun _ m₁ => ih m₁ vs

theorem lookUp (ref : Ref) : Mirrors Value.spread m (Eval.lookUp ref) (Eval.lookUp ref) := by
  refine get (demand _ _ ?_)
  rw [m.spread_bindings, m.spread_scopes, m.spread_scope]
  cases m.bindings[ref.id]? with
  | none =>
    dsimp only
    rw [Scopes.root_spread]
    exact Scopes.get?_spread ..
  | some d => exact Scopes.getAt?_spread ..

theorem assign (ref : Ref) (v : Value) :
    Mirrors id m (Eval.assign ref v) (Eval.assign ref v.spread) := by
  have htarget : Eval.target? m.spread ref = Eval.target? m ref := by
    simp [Eval.target?]
  refine get (bind (demand _ _ ?_) fun s m₁ => define m₁ s ref.name.lexeme v)
  exact htarget.trans (Option.map_id' ..).symm

theorem newClosure (decl : FunctionDecl) (s : Nat) (isInit : Bool) :
    Mirrors Closure.spread m (Eval.newClosure decl s isInit)
      (Eval.newClosure decl.spread s isInit) :=
  (freshId m).bind fun _ _ => pure rfl

theorem newMethods (s : Nat) (ofInstances : Bool) (decls : List FunctionDecl) :
    Mirrors (List.map fun e => (e.1, e.2.spread)) m (Eval.newMethods s ofInstances decls)
      (Eval.newMethods s ofInstances (decls.map FunctionDecl.spread)) := by
  induction decls generalizing m with
  | nil => exact pure rfl
  | cons decl decls ih =>
    rw [List.map_cons, Eval.newMethods, Eval.newMethods, decl.isInit_spread, decl.spread_name]
    exact (newClosure m decl s _).bind fun f m₁ => (ih m₁).bind fun fs m₂ => pure rfl

theorem bindThis (f : Closure) (i : Nat) :
    Mirrors Closure.spread m (Eval.bindThis f i) (Eval.bindThis f.spread i) :=
  (newScope m f.scope).bind fun s m₁ => (define m₁ s "this" (.inst i)).bind fun _ m₂ =>
    newClosure m₂ f.decl s f.isInit

theorem initializerOf (c i : Nat) :
    Mirrors Callable.spread m (Eval.initializerOf c i) (Eval.initializerOf c i) := by
  have hinit : m.spread.heap.classes.cells[c]?.bind Class.init? =
      (m.heap.classes.cells[c]?.bind Class.init?).map Closure.spread := by
    rw [m.spread_classes, Classes.getElem?_spread]
    cases m.heap.classes.cells[c]? with
    | none => rfl
    | some k => exact k.init?_spread
  refine get ?_
  rw [hinit]
  cases m.heap.classes.cells[c]?.bind Class.init? with
  | none => exact (freshId m).bind fun _ _ => pure rfl
  | some f => exact (bindThis m f i).bind fun _ _ => pure rfl

/-- A method bound to an instance. -/
theorem method (f : Closure) (i : Nat) :
    Mirrors Value.spread m (do return .callable (.function (← Eval.bindThis f i)))
      (do return .callable (.function (← Eval.bindThis f.spread i))) :=
  (bindThis m f i).bind fun _ _ => pure rfl

theorem instanceProperty (i : Nat) (name : Token) :
    Mirrors Value.spread m (Eval.instanceProperty i name) (Eval.instanceProperty i name) := by
  refine get (bind (k := Instance.spread) (demand _ _ ?_) fun inst m₁ => ?_)
  · simp [Machine.spread, Heap.spread]
  · have hfield : inst.spread.fields.get? name.lexeme =
        (inst.fields.get? name.lexeme).map Value.spread := Table.get?_map ..
    rw [hfield]
    cases inst.fields.get? name.lexeme with
    | some v => exact pure rfl
    | none =>
      refine ite ((initializerOf m₁ inst.cls i).bind fun _ _ => pure rfl) ?_
      refine bind (k := Closure.spread) (demand _ _ ?_) fun f m₂ => method m₂ f i
      exact Classes.method?_spread ..

theorem property (v : Value) (name : Token) :
    Mirrors Value.spread m (Eval.property v name) (Eval.property v.spread name) := by
  cases v with
  | inst i => exact instanceProperty m i name
  | callable c =>
    cases c with
    | cls c => exact get (demand _ _ (Classes.static?_spread ..))
    | _ => exact fault name _
  | _ => exact fault name _

theorem setProperty (target : Value) (x : String) (v : Value) :
    Mirrors id m (Eval.setProperty target x v) (Eval.setProperty target.spread x v.spread) := by
  cases target with
  | inst i =>
    have hfields := map_modify_comm Instance.spread
      (fun inst => { inst with fields := inst.fields.insert x v })
      (fun inst => { inst with fields := inst.fields.insert x v.spread })
      (fun inst => by simp [Instance.spread, Table.map_insert]) m.heap.instances i
    simp [Mirrors, Value.spread, Eval.setProperty, mapEnd, Machine.spread, Heap.spread, hfields]
  | callable c =>
    cases c with
    | cls c =>
      simp [Mirrors, Value.spread, Callable.spread, Eval.setProperty, mapEnd, Machine.spread,
        Heap.spread, Classes.spread_setStatic]
    | _ => rfl
  | _ => rfl

theorem superMethod (ref : Ref) (name : Token) :
    Mirrors Value.spread m (Eval.superMethod ref name) (Eval.superMethod ref name) := by
  refine get ?_
  rw [m.spread_bindings, m.spread_scope, m.spread_scopes, m.spread_classes]
  split
  · next d hd =>
    refine bind (demand _ _ (Scopes.getAt?_spread ..)) fun super m₁ => ?_
    refine bind (demand _ _ (Scopes.getAt?_spread ..)) fun this m₂ => ?_
    cases super with
    | callable c =>
      cases c with
      | cls c =>
        cases this with
        | inst i =>
          refine ite ((initializerOf m₂ c i).bind fun _ _ => pure rfl) ?_
          exact bind (demand _ _ (Classes.method?_spread ..)) fun f m₃ => method m₃ f i
        | _ => exact fault ref.name _
      | _ => exact fault ref.name _
    | _ => exact fault ref.name _
  · exact fault ref.name _

theorem newInstance (c : Nat) : Mirrors id m (Eval.newInstance c) (Eval.newInstance c) := by
  simp [Mirrors, Eval.newInstance, mapEnd, Machine.spread, Heap.spread, Instance.spread]

theorem newClass (k : Class) : Mirrors id m (Eval.newClass k) (Eval.newClass k.spread) := by
  simp [Mirrors, Eval.newClass, mapEnd, Machine.spread, Heap.spread, Classes.spread_add]

theorem callNative (slot : Nat) (args : List Value) (paren : Token) :
    Mirrors Value.spread m (Eval.callNative slot args paren)
      (Eval.callNative slot (args.map Value.spread) paren) := by
  have htexts : (args.map Value.spread).map m.spread.heap.text = args.map m.heap.text := by
    rw [List.map_map]
    exact List.map_congr_left fun v _ => m.heap.text_spread v
  refine get ?_
  dsimp only
  rw [m.spread_natives, htexts]
  split
  · rfl
  · split
    · exact pure rfl
    · exact fault paren _
  · exact pure rfl

theorem print (keyword : Token) (v : Value) :
    Mirrors id m (Eval.print keyword v) (Eval.print keyword v.spread) := by
  have htext : m.spread.heap.text v.spread = m.heap.text v := m.heap.text_spread v
  have hsink : m.spread.sink = m.sink := rfl
  rw [Mirrors, Eval.print, Eval.print, htext, hsink]
  split <;> rfl

theorem superclassOf (ref : Option Ref) :
    Mirrors id m (Eval.superclassOf ref) (Eval.superclassOf ref) := by
  cases ref with
  | none => exact pure rfl
  | some ref =>
    refine (lookUp m ref).bind fun v m₁ => ?_
    cases v with
    | callable c =>
      cases c with
      | cls c => exact pure rfl
      | _ => exact fault ref.name _
    | _ => exact fault ref.name _

theorem classScope (superclass : Option Nat) :
    Mirrors id m (Eval.classScope superclass) (Eval.classScope superclass) := by
  refine get ?_
  cases superclass with
  | none => exact pure rfl
  | some c =>
    exact (newScope m m.scope).bind fun s m₁ =>
      (define m₁ s "super" (.callable (.cls c))).bind fun _ _ => pure rfl

theorem buildClass (decl : ClassDecl) (superclass : Option Nat) (s : Nat) :
    Mirrors id m (Eval.buildClass decl superclass s)
      (Eval.buildClass decl.spread superclass s) := by
  rw [ClassDecl.spread_eq]
  refine (newMethods m s true decl.methods).bind fun methods m₁ => ?_
  refine (newMethods m₁ s false decl.staticMethods).bind fun staticMethods m₂ => ?_
  have hclass : ∀ (m' : Machine) (fields : Option Closure), Mirrors id m' (Eval.newClass
      { name := decl.name.lexeme, superclass, methods := .ofList methods, fields
        staticMethods := .ofList staticMethods, statics := {} }) (Eval.newClass
      { name := decl.name.lexeme, superclass
        methods := .ofList (methods.map fun e => (e.1, e.2.spread))
        fields := fields.map Closure.spread
        staticMethods := .ofList (staticMethods.map fun e => (e.1, e.2.spread))
        statics := {} }) := by
    intro m' fields
    rw [← Table.map_ofList, ← Table.map_ofList]
    exact newClass m' _
  cases decl.fields with
  | none => exact hclass m₂ none
  | some f =>
    refine bind (k := Option.map Closure.spread) ?_ fun fields m₃ => hclass m₃ fields
    rw [map_eq_pure_bind, map_eq_pure_bind]
    exact (newClosure m₂ f s false).bind fun _ _ => pure rfl

end Mirrors

end Eval

end Treewalk
