import Treewalk.Proofs.Stopped
import Treewalk.Proofs.SuperCalls
import Treewalk.Proofs.Written

/-!
# How instances are made

A class that declares `init` at most once sets all fields that it declares when it makes an
instance: the text puts the assignments to them at the start of `init`, or right after the call of
the inherited initializer, and makes an initializer of them if there is no `init`. `Due L c a` says
that `a` is such a field of the class `c` or of one above it, up to which no class declares `init`
twice.

`Carries x p Q`: whenever `p` ends that is started in `x`, it leaves instances and classes as they
were but for added fields (`Carried`), and `Q` holds of what it answers and leaves. `fills`:
whatever sets up an instance leaves it with all fields that are due.
-/

namespace Treewalk

/-! ### What stays in a store -/

/-- Instances keep their classes and their fields, and classes all but their static fields. -/
structure Heap.Kept (h h' : Heap) : Prop where
  instances : ∀ (i : Nat) inst, h.instances[i]? = some inst →
    ∃ inst', h'.instances[i]? = some inst' ∧
    inst'.cls = inst.cls ∧ ∀ a, (inst.fields.get? a).isSome → (inst'.fields.get? a).isSome
  classes : ∀ (c : Nat) k, h.classes.cells[c]? = some k → ∃ k', h'.classes.cells[c]? = some k' ∧
    k'.methods = k.methods ∧ k'.fields = k.fields

/-- The instance has a field of its own with the name. -/
def Heap.Owns (h : Heap) (i : Nat) (a : String) : Prop :=
  ∃ inst, h.instances[i]? = some inst ∧ (inst.fields.get? a).isSome

namespace Heap.Kept

variable {h h' h'' : Heap}

theorem of_eq (hi : h'.instances = h.instances) (hc : h'.classes = h.classes) : h.Kept h' :=
  ⟨fun _ inst hinst => ⟨inst, hi ▸ hinst, rfl, fun _ ha => ha⟩,
    fun _ k hk => ⟨k, hc ▸ hk, rfl, rfl⟩⟩

theorem refl (h : Heap) : h.Kept h := .of_eq rfl rfl

theorem trans (hk : h.Kept h') (hk' : h'.Kept h'') : h.Kept h'' := by
  refine ⟨fun i inst hi => ?_, fun c k hc => ?_⟩
  · obtain ⟨inst', hi', hcls, hf⟩ := hk.instances i inst hi
    obtain ⟨inst'', hi'', hcls', hf'⟩ := hk'.instances i inst' hi'
    exact ⟨inst'', hi'', hcls'.trans hcls, fun a ha => hf' a (hf a ha)⟩
  · obtain ⟨k', hc', hm, hf⟩ := hk.classes c k hc
    obtain ⟨k'', hc'', hm', hf'⟩ := hk'.classes c k' hc'
    exact ⟨k'', hc'', hm'.trans hm, hf'.trans hf⟩

theorem effect (he : h.Effect h') : h.Kept h' := by
  cases he with
  | scope | define | identity => exact .of_eq rfl rfl
  | inst c =>
    refine ⟨fun i inst hi => ⟨inst, ?_, rfl, fun _ ha => ha⟩, fun c k hk => ⟨k, hk, rfl, rfl⟩⟩
    have hlt := (Array.getElem?_eq_some_iff.1 hi).1
    rw [Array.getElem?_push, if_neg (Nat.ne_of_lt hlt), hi]
  | field j x v =>
    refine ⟨fun i inst hi => ?_, fun c k hk => ⟨k, hk, rfl, rfl⟩⟩
    dsimp only
    rw [Array.getElem?_modify, hi]
    split
    · refine ⟨_, rfl, rfl, fun a ha => ?_⟩
      rw [Table.get?_insert]
      split
      · rfl
      · exact ha
    · exact ⟨inst, rfl, rfl, fun _ ha => ha⟩
  | cls k' =>
    refine ⟨fun i inst hi => ⟨inst, hi, rfl, fun _ ha => ha⟩, fun c k hk => ⟨k, ?_, rfl, rfl⟩⟩
    have hlt := (Array.getElem?_eq_some_iff.1 hk).1
    dsimp only
    rw [Classes.add, Array.getElem?_push, if_neg (Nat.ne_of_lt hlt), hk]
  | static c' x v =>
    refine ⟨fun i inst hi => ⟨inst, hi, rfl, fun _ ha => ha⟩, fun c k hk => ?_⟩
    dsimp only
    rw [Classes.setStatic, Array.getElem?_modify, hk]
    split
    · exact ⟨_, rfl, rfl, rfl⟩
    · exact ⟨k, rfl, rfl, rfl⟩

theorem law : Law (fun x y => x.state.heap.Kept y.state.heap)
    fun _ _ x y => x.state.heap.Kept y.state.heap := by
  refine .uniform (fun x => .refl _) trans (fun he => ?_) (fun _ _ => .refl _) (fun _ => .refl _)
    (fun _ h => h) fun _ h => h
  cases he with
  | heap he => exact effect he
  | tick => exact .refl _

theorem owns {i : Nat} {a : String} (hk : h.Kept h') (ho : h.Owns i a) : h'.Owns i a := by
  obtain ⟨inst, hi, ha⟩ := ho
  obtain ⟨inst', hi', -, hf⟩ := hk.instances i inst hi
  exact ⟨inst', hi', hf a ha⟩

theorem there {i : Nat} (hk : h.Kept h') (hi : h.instances[i]?.isSome) :
    h'.instances[i]?.isSome := by
  obtain ⟨inst, hi⟩ := Option.isSome_iff_exists.1 hi
  obtain ⟨inst', hi', -⟩ := hk.instances i inst hi
  simp [hi']

end Heap.Kept

/-- A field that is set is one of the instance's own. -/
theorem Heap.owns_setField {h : Heap} {i : Nat} (hi : h.instances[i]?.isSome) (a : String)
    (v : Value) : Heap.Owns { h with instances := h.instances.modify i fun inst =>
      { inst with fields := inst.fields.insert a v } } i a := by
  obtain ⟨inst, hi⟩ := Option.isSome_iff_exists.1 hi
  refine ⟨{ inst with fields := inst.fields.insert a v }, ?_, ?_⟩
  · simp [Array.getElem?_modify, hi]
  · simp [Table.get?_insert]

/-! ### Steps that end -/

/-- From a state of a run to a later one, no variable changes that code does not write, and what
there is is kept. -/
structure Carried (x y : Logged Event Machine) : Prop where
  grew : Grew (fun _ _ => False) x y
  kept : x.state.heap.Kept y.state.heap
  sound : Sound y

/-- Where the step ends, it leaves what was made before as it was but for added fields. -/
def Carries {α : Type} (x : Logged Event Machine) (p : Trace α)
    (Q : α → Logged Event Machine → Prop) : Prop :=
  ∀ a y, p x = .ok a y → Carried x y ∧ Q a y

/-- Code writes no hidden variable. -/
theorem Sound.not_writes_this {x : Logged Event Machine} (hx : Sound x) {e : Event} (he : e ∈ x.log)
    (s : Nat) : ¬ e.Writes s "this" := by
  intro hw
  obtain ⟨code, m, rfl⟩ := hw.reached
  obtain ⟨new, B, hB⟩ := List.append_of_mem he
  obtain ⟨g, body, σ, hat⟩ := hx.reached code m B ⟨new, hB.symm⟩
  have hbegan : Began x.log g body := hat.began.imp fun _ hb => by
    rw [hB]
    exact List.mem_append_right _ (List.mem_cons_of_mem _ hb)
  have htidy := hat.placed.tidy (hx.tidy g body hbegan)
  cases code with
  | stmt st =>
    have hd := hw.2
    cases st with
    | var name | function name => exact htidy.1.1 (List.mem_singleton.1 hd).symm
    | cls decl => exact (ClassDecl.tidy_iff.1 htidy).1.1 (List.mem_singleton.1 hd).symm
    | expr | print | block | decls | branch | loop | ret | brk | cont | require | expose => cases hd
  | use u ref =>
    cases u with
    | assign | compoundWrite => exact htidy.1 hw.2
    | «variable» | this | super | superclass | compoundRead => exact hw
  | stmts | expr | function | body => exact hw

namespace Carried

variable {x y z : Logged Event Machine}

theorem refl (hx : Sound x) : Carried x x := ⟨.refl x, .refl _, hx⟩

theorem trans (h : Carried x y) (h' : Carried y z) : Carried x z :=
  ⟨h.grew.trans h'.grew, h.kept.trans h'.kept, h'.sound⟩

/-- What `this` means in a scope does not change. -/
theorem this (h : Carried x y) {s : Nat} (hs : s < x.state.heap.scopes.next) :
    y.state.heap.scopes.here? s "this" = x.state.heap.scopes.here? s "this" := by
  by_contra hne
  obtain ⟨new, hlog, e, he, hw⟩ := (h.grew.writes s "this" hs hne).resolve_left id
  refine h.sound.not_writes_this ?_ s hw
  rw [hlog]
  exact List.mem_append_left _ he

theorem parent (h : Carried x y) {s : Nat} (hs : s < x.state.heap.scopes.next) :
    y.state.heap.scopes.parent? s = x.state.heap.scopes.parent? s := h.grew.later.parent s hs

end Carried

namespace Carries

variable {α β : Type} {x : Logged Event Machine} {p : Trace α}
  {P Q : α → Logged Event Machine → Prop}

theorem pure {a : α} (hx : Sound x) (h : Q a x) : Carries x (pure a) Q := by
  intro b y hp
  cases hp
  exact ⟨.refl hx, h⟩

theorem throw (e : Stop) : Carries x (throw e : Trace α) Q := by
  intro a y h
  cases h

theorem fault (t : Token) (cause : Cause) : Carries x (Traced.lift (Eval.fault t cause)) Q := by
  intro a y h
  cases h

theorem imp (h : Carries x p P) (hPQ : ∀ a y, Carried x y → P a y → Q a y) : Carries x p Q := by
  intro a y hp
  obtain ⟨hy, ha⟩ := h a y hp
  exact ⟨hy, hPQ a y hy ha⟩

theorem and (h : Carries x p P) (h' : Carries x p Q) : Carries x p fun a y => P a y ∧ Q a y :=
  fun a y hp => ⟨(h a y hp).1, (h a y hp).2, (h' a y hp).2⟩

theorem bind {f : α → Trace β} {Q : β → Logged Event Machine → Prop} (h : Carries x p P)
    (hf : ∀ a y, Carried x y → P a y → Carries y (f a) Q) : Carries x (p >>= f) Q := by
  intro b z hrun
  change EStateM.bind p f x = .ok b z at hrun
  rw [EStateM.bind] at hrun
  split at hrun
  · next a y hp =>
    obtain ⟨hy, ha⟩ := h a y hp
    obtain ⟨hz, hb⟩ := hf a y hy ha b z hrun
    exact ⟨hy.trans hz, hb⟩
  · cases hrun

theorem get {f : Machine → Trace α} (h : Carries x (f x.state) Q) :
    Carries x (Traced.lift MonadState.get >>= f) Q := h

theorem of_safe (h : Safe (fun _ _ => False) x p Q)
    (hk : x.state.heap.Kept (Traced.last (p x)).state.heap) : Carries x p Q := by
  intro a y hp
  rw [hp] at hk
  unfold Safe at h
  rw [hp] at h
  exact ⟨⟨h.1, hk, h.2.1⟩, h.2.2⟩

theorem answers (h : Safe (fun _ _ => False) x p fun a y => y = x ∧ Q a y) : Carries x p Q := by
  intro a y hp
  unfold Safe at h
  rw [hp] at h
  obtain ⟨hg, hy, rfl, ha⟩ := h
  exact ⟨⟨hg, .refl _, hy⟩, ha⟩

theorem demand (hx : Sound x) (t : Token) (cause : Cause) {a : α} {o : Option α} (h : o = some a) :
    Carries x (Traced.lift (Eval.demand t cause o)) fun b y => y = x ∧ b = a := by
  refine answers (Safe.demand hx t cause fun b hb => ?_)
  rw [h] at hb
  exact ⟨rfl, rfl, (Option.some.inj hb).symm⟩

theorem reach {g : Nat} {body : List Stmt} {code : Code} {σ : List Layer} (hx : Sound x)
    (h : Here x g body code σ)
    (hp : ∀ y, Carried x y → y.state = x.state → Carries y p Q)
    (hs : code.Supplied x.state x.log := by trivial) : Carries x (do Trace.reach code; p) Q :=
  (of_safe (Safe.reach (Q := fun _ y => y.state = x.state) hx h rfl hs) (.refl _)).bind
    fun _ y hy he => hp y hy he

/-- What is true at the end of a piece of code has to stay true when the log grows. -/
theorem within {g : Nat} {body : List Stmt} {code : Code} {σ : List Layer} (hx : Sound x)
    (h : Here x g body code σ) (hp : ∀ y, Carried x y → y.state = x.state → Carries y p Q)
    (hq : ∀ a y e, Q a y → Q a { y with log := e :: y.log })
    (hs : code.Supplied x.state x.log := by trivial) : Carries x (Trace.within code p) Q := by
  refine reach hx h (fun y hy hst => (hp y hy hst).bind fun a z hz ha => ?_) hs
  refine (of_safe (Safe.turn (k := fun _ => .left code) (Q := fun _ w => Q a w) hz.sound
    (by simp [Turn.machine?]) trivial (hq a z _ ha)) (.refl _)).bind fun _ w hw ha => ?_
  exact .pure hw.sound ha

theorem inScope {s : Nat} (h : Carries { x with state.scope := s } p fun a y =>
    Q a { y with state.scope := x.state.scope }) : Carries x (Trace.inScope s p) Q := by
  intro a y hrun
  unfold Trace.inScope at hrun
  dsimp only at hrun
  split at hrun
  · next hp =>
    cases hrun
    obtain ⟨hz, hq⟩ := h _ _ hp
    have hg := hz.grew
    exact ⟨⟨⟨hg.later, rfl, hg.globals, hg.bindings, hg.events, hg.writes⟩, hz.kept, hz.sound⟩, hq⟩
  · cases hrun

theorem deeper (h : Carries { x with state.depth := x.state.depth + 1 } p fun a y =>
    Q a { y with state.depth := y.state.depth - 1 }) : Carries x (Trace.deeper p) Q := by
  intro a y hrun
  unfold Trace.deeper at hrun
  dsimp only at hrun
  split at hrun
  · next hp =>
    cases hrun
    obtain ⟨hz, hq⟩ := h _ _ hp
    have hg := hz.grew
    exact ⟨⟨⟨hg.later, hg.scope, hg.globals, hg.bindings, hg.events, hg.writes⟩, hz.kept, hz.sound⟩,
      hq⟩
  · cases hrun

section

variable {g : Nat} {body : List Stmt} {σ : List Layer}

theorem eval (n : Nat) {e : Expr} (hx : Sound x) (h : Here x g body (.expr e) σ) :
    Carries x (Trace.eval n e) fun v y => v.In y :=
  of_safe ((Trace.runSafe n).eval e hx h)
    ((Trace.runObeys Heap.Kept.law n).eval (C := fun _ => True) (O := fun _ => True) x e
      trivial).last

theorem evalAll (n : Nat) {es : List Expr} (hx : Sound x)
    (h : ∀ e ∈ es, Here x g body (.expr e) σ) :
    Carries x (Trace.evalAll n es []) fun vs y => ∀ v ∈ vs, v.In y :=
  of_safe ((Trace.runSafe n).evalAll es [] hx h (by simp))
    ((Trace.runObeys Heap.Kept.law n).evalAll (C := fun _ => True) (O := fun _ => True) x es []
      (fun _ _ => trivial) trivial).last

theorem execAll (n : Nat) {ss : List Stmt} (hx : Sound x) (h : Here x g body (.stmts ss) σ) :
    Carries x (Trace.execAll n ss) fun _ _ => True :=
  of_safe (((Trace.runSafe n).execAll ss hx h).imp fun _ _ _ _ _ => trivial)
    ((Trace.runObeys Heap.Kept.law n).execAll (C := fun _ => True) (O := fun _ => True) x ss
      (fun _ _ => trivial) trivial).last

end

theorem apply (n : Nat) {f : Closure} {args : List Value} (hx : Sound x)
    (hf : (Value.callable (.function f)).In x) (hargs : ∀ v ∈ args, v.In x)
    (he : Entering f args x.log) : Carries x (Trace.apply n f args) fun _ _ => True :=
  of_safe (((Trace.runSafe n).apply f args hx hf hargs he).imp fun _ _ _ _ _ => trivial)
    ((Trace.runObeys Heap.Kept.law n).apply (C := fun _ => True) (O := fun _ => True) x f args
      (fun _ => trivial) trivial).last

theorem setUp (n : Nat) {cs : List Class} {i : Nat} {args : List Value} (hx : Sound x)
    (hcs : ∀ k ∈ cs, k.Aligned x.state.heap.scopes x.log) (hargs : ∀ v ∈ args, v.In x)
    (he : EntersInit cs args x.log) : Carries x (Trace.setUp n cs i args) fun _ _ => True :=
  of_safe ((Trace.runSafe n).setUp cs i args hx hcs hargs he)
    ((Trace.runObeys Heap.Kept.law n).setUp (C := fun _ => True) (O := fun _ => True) x cs i args
      (fun _ => trivial) trivial).last

end Carries

/-! ### Methods and initializers of an instance -/

/-- The table has the distances of the programs that were started, whose texts were read without
fault. -/
structure Versed (x : Logged Event Machine) : Prop where
  sound : Sound x
  table : ∀ {g body u ref σ}, Began x.log g body → Placed body (.use u ref) σ →
    x.state.bindings[ref.id]? = Layer.distance? ref.name.lexeme σ
  text : ∀ {g body}, Began x.log g body → ∃ T, (Code.stmts body).Written T True

/-- The closure is the method `f₀` with `this` bound to the instance `i`. -/
structure Closure.BoundAs (f : Closure) (x : Logged Event Machine) (f₀ : Closure) (i : Nat) :
    Prop where
  decl : f.decl = f₀.decl
  marked : f.isInit = f₀.isInit
  made : .made f.scope (.this f.decl) ∈ x.log
  parent : x.state.heap.scopes.parent? f.scope = some f₀.scope
  below : f₀.scope < f.scope
  this : x.state.heap.scopes.here? f.scope "this" = some (.inst i)

/-- What `super.init` can be in a class whose superclass is `c`. -/
inductive Initializes (x : Logged Event Machine) (c i : Nat) : Callable → Prop where
  | method {k : Class} {f₀ f : Closure} (hk : x.state.heap.classes.cells[c]? = some k)
      (hf₀ : k.init? = some f₀) (hf : f.BoundAs x f₀ i) : Initializes x c i (.function f)
  | inherited (id : Nat) : Initializes x c i (.initializer id c i)

section

variable {x y : Logged Event Machine}

theorem Began.of_grew {W : Vars} {g : Nat} {body : List Stmt} (hg : Grew W x y)
    (h : Began y.log g body) : Began x.log g body := by
  obtain ⟨path, h⟩ := h
  obtain ⟨new, hnew, hof⟩ := hg.events
  rw [hnew] at h
  rcases List.mem_append.1 h with h | h
  · exact (hof _ h).elim
  · exact ⟨path, h⟩

theorem Versed.carried (h : Versed x) (hc : Carried x y) : Versed y where
  sound := hc.sound
  table hb hp := by
    rw [hc.grew.bindings]
    exact h.table (hb.of_grew hc.grew) hp
  text hb := h.text (hb.of_grew hc.grew)

theorem Closure.BoundAs.carried {f₀ f : Closure} {i : Nat} (h : f.BoundAs x f₀ i) (hx : Sound x)
    (hc : Carried x y) : f.BoundAs y f₀ i := by
  have hlt := hx.made _ _ h.made
  exact ⟨h.decl, h.marked, hc.grew.later.event h.made, (hc.parent hlt).trans h.parent, h.below,
    (hc.this hlt).trans h.this⟩

theorem Initializes.carried {c i : Nat} {f : Callable} (h : Initializes x c i f) (hx : Sound x)
    (hc : Carried x y) : Initializes y c i f := by
  cases h with
  | method hk hf₀ hf =>
    obtain ⟨k', hk', hm, -⟩ := hc.kept.classes _ _ hk
    refine .method hk' ?_ (hf.carried hx hc)
    rwa [Class.init?, hm]
  | inherited id => exact .inherited id

theorem Initializes.later {c i : Nat} {f : Callable} (h : Initializes x c i f)
    (hh : y.state.heap = x.state.heap) (hl : x.log <:+ y.log) : Initializes y c i f := by
  cases h with
  | method hk hf₀ hf =>
    refine .method (by rwa [hh]) hf₀ ⟨hf.decl, hf.marked, hl.subset hf.made, ?_, hf.below, ?_⟩
    · rw [hh]
      exact hf.parent
    · rw [hh]
      exact hf.this
  | inherited id => exact .inherited id

/-- To bind a method to an instance makes a scope of `this` inside the scope of the method. -/
theorem Carries.bindThis (hx : Sound x) {f₀ : Closure} (hf₀ : f₀.MethodIn x) (i : Nat) :
    Carries x (Trace.bindThis f₀ i) fun f y => f.BoundAs y f₀ i ∧
      (Value.callable (.function f)).In y ∧ y.log = .made f.scope (.this f.decl) :: x.log := by
  have hlt : f₀.scope < x.state.heap.scopes.next := by
    obtain ⟨_, _, _, -, -, hchain⟩ := hf₀
    exact hchain.lt
  refine of_safe ((Trace.bindThis_safe hx hf₀ i).ran.imp fun f y _ _ h => ?_)
    (Obeys.bindThis (C := fun _ => True) (O := fun _ => True) Heap.Kept.law f₀ i).last
  obtain ⟨⟨-, hok⟩, hrun⟩ := h
  cases hrun
  refine ⟨⟨rfl, rfl, List.mem_cons_self .., ?_, hlt, ?_⟩, hok⟩
  · show ((x.state.heap.scopes.addChild f₀.scope).define _ _ _).parent? _ = _
    rw [Scopes.parent?_define, Scopes.parent?_addChild, if_pos rfl]
  · show ((x.state.heap.scopes.addChild f₀.scope).define _ _ _).here? _ _ = _
    rw [Scopes.here?_define _ _ _ _ _ _ (by simp), if_pos ⟨rfl, rfl⟩]

theorem Carries.initializerOf (hx : Sound x) (c i : Nat) :
    Carries x (Trace.initializerOf c i) fun f y => Initializes y c i f := by
  refine get ?_
  cases h : x.state.heap.classes.cells[c]?.bind Class.init? with
  | some f₀ =>
    obtain ⟨k, hk, hf₀⟩ := Option.bind_eq_some_iff.1 h
    refine (bindThis hx ((hx.classes c k hk).methods _ f₀ hf₀) i).bind fun f y hy hf => ?_
    obtain ⟨k', hk', hm, -⟩ := hy.kept.classes _ _ hk
    refine .pure hy.sound (.method hk' ?_ hf.1)
    rwa [Class.init?, hm]
  | none =>
    refine (of_safe (Safe.freshId hx) (.of_eq rfl rfl)).bind fun id y hy _ => ?_
    exact .pure hy.sound (.inherited id)

end

/-! ### What the text of a class says -/

/-- The class declares `init` at most once. -/
def ClassDecl.Sole (decl : ClassDecl) : Prop :=
  (decl.methods.filter FunctionDecl.isInit).length ≤ 1

instance (decl : ClassDecl) : Decidable decl.Sole := inferInstanceAs (Decidable (_ ≤ 1))

theorem ClassDecl.find?_spliceFirst (b : Bool) (ss : List Stmt) (ms : List FunctionDecl) :
    (spliceFirst b ss ms).find? FunctionDecl.isInit =
      (ms.find? FunctionDecl.isInit).map fun m => { m with body := spliceInto b ss m.body } := by
  induction ms with
  | nil => rfl
  | cons m ms ih =>
    rw [spliceFirst]
    by_cases hm : m.isInit
    · rw [if_pos hm, List.find?_cons_of_pos hm]
      exact List.find?_cons_of_pos hm
    · rw [if_neg hm, List.find?_cons_of_neg hm, List.find?_cons_of_neg hm, ih]

/-- In a class that declares `init` once, the first is the last. -/
theorem ClassDecl.Sole.find?_reverse {decl : ClassDecl} (h : decl.Sole) :
    decl.methods.reverse.find? FunctionDecl.isInit = decl.methods.find? FunctionDecl.isInit := by
  rw [← List.head?_filter, ← List.head?_filter, List.filter_reverse]
  unfold ClassDecl.Sole at h
  revert h
  cases decl.methods.filter FunctionDecl.isInit with
  | nil => exact fun _ => rfl
  | cons m ms =>
    cases ms with
    | nil => exact fun _ => rfl
    | cons => simp

theorem ClassDecl.eq_of_isSuperInit {s : Stmt} (h : isSuperInit s) : ∃ ref method paren args,
    s = .expr (.call (.super ref method) paren args) ∧ method.lexeme = initName := by
  cases s with
  | expr e =>
    cases e with
    | call callee paren args =>
      cases callee with
      | super ref method => exact ⟨ref, method, paren, args, rfl, beq_iff_eq.1 h⟩
      | _ => exact absurd h Bool.false_ne_true
    | _ => exact absurd h Bool.false_ne_true
  | _ => exact absurd h Bool.false_ne_true

namespace ClassDecl.ReadAs

variable {T : List Token} {decl : ClassDecl} {ms : Members} {f : FunctionDecl}

/-- In a class with a superclass, `init` starts with a call of the inherited initializer. -/
theorem inherited (h : decl.ReadAs T True ms) (hsup : decl.superclass.isSome)
    (hf : ms.methods.reverse.find? FunctionDecl.isInit = some f) :
    ∃ ref method paren args rest,
      f.body = .expr (.call (.super ref method) paren args) :: rest ∧ method.lexeme = initName := by
  have hinit := h.superInit trivial hsup f hf
  cases hbody : f.body with
  | nil => simp [hbody] at hinit
  | cons s rest =>
    obtain ⟨ref, method, paren, args, rfl, hm⟩ : ∃ ref method paren args, _ :=
      eq_of_isSuperInit (s := s) (by simpa [hbody] using hinit)
    exact ⟨ref, method, paren, args, rest, rfl, hm⟩

/-- In an `init` the fields are set first, but for the call of the inherited initializer. -/
theorem init_body (h : decl.ReadAs T True ms) (hs : decl.Sole)
    (hf : decl.methods.reverse.find? FunctionDecl.isInit = some f) :
    ∃ first ss rest, f.body = first ++ (ss ++ rest) ∧
      List.Forall₂ FieldDecl.Assigned ms.fields.reverse ss ∧
      (decl.superclass = none ∧ first = [] ∨ decl.superclass.isSome ∧ ∃ ref method paren args,
        first = [.expr (.call (.super ref method) paren args)] ∧ method.lexeme = initName) := by
  obtain ⟨ss, hss, hmethods, -⟩ := h.parts
  rw [hs.find?_reverse, hmethods, find?_spliceFirst] at hf
  obtain ⟨m, hm, rfl⟩ := Option.map_eq_some_iff.1 hf
  cases hsup : decl.superclass with
  | none => exact ⟨[], ss, m.body, by simp [spliceInto], hss, .inl ⟨rfl, rfl⟩⟩
  | some ref =>
    obtain ⟨ref, method, paren, args, rest, hbody, hm⟩ := h.inherited (by simp [hsup]) hm
    exact ⟨[_], ss, rest, by simp [spliceInto, hbody], hss,
      .inr ⟨rfl, ref, method, paren, args, rfl, hm⟩⟩

/-- Without an `init`, what sets the fields stands apart. -/
theorem fields_body (h : decl.ReadAs T True ms)
    (hf : decl.methods.reverse.find? FunctionDecl.isInit = none) (hne : ms.fields ≠ []) :
    ∃ f, decl.fields = some f ∧ List.Forall₂ FieldDecl.Assigned ms.fields.reverse f.body := by
  obtain ⟨ss, hss, hmethods, hfields⟩ := h.parts
  have hnone : decl.methods.find? FunctionDecl.isInit = none := by
    rw [List.find?_eq_none] at hf ⊢
    exact fun m hm => hf m (List.mem_reverse.2 hm)
  rw [hmethods, find?_spliceFirst, Option.map_eq_none_iff, List.find?_eq_none] at hnone
  have hany : ms.methods.reverse.any FunctionDecl.isInit = false := by
    rw [List.any_eq_false]
    exact hnone
  have hempty : ss.isEmpty = false := by
    cases ss with
    | nil =>
      have := List.forall₂_nil_right_iff.1 hss
      exact absurd (List.reverse_eq_nil_iff.1 this) hne
    | cons => rfl
  rw [hany, hempty] at hfields
  exact ⟨_, hfields, hss⟩

end ClassDecl.ReadAs

/-- Each field has its assignment, with nothing but assignments to others before it. -/
theorem FieldDecl.exists_assigned {fields : List FieldDecl} {ss : List Stmt} {field : FieldDecl}
    (h : List.Forall₂ FieldDecl.Assigned fields ss) (hf : field ∈ fields) :
    ∃ before s after, ss = before ++ s :: after ∧ field.Assigned s ∧
      ∀ s ∈ before, ∃ e, s = .expr e := by
  induction h with
  | nil => cases hf
  | @cons field' s fields ss hs _ ih =>
    rcases List.mem_cons.1 hf with rfl | hf
    · exact ⟨[], s, ss, rfl, hs, by simp⟩
    · obtain ⟨before, s', after, rfl, hs', hb⟩ := ih hf
      obtain ⟨this, -, rfl⟩ := hs
      exact ⟨_ :: before, s', after, rfl, hs', List.forall_mem_cons.2 ⟨⟨_, rfl⟩, hb⟩⟩

/-! ### Inside the methods of an instance -/

/-- The run is in code of the method `f` of the instance `i`, in a class whose members are in the
scope `s`. -/
structure Inside (x : Logged Event Machine) (g : Nat) (body : List Stmt) (code : Code)
    (f : FunctionDecl) (σ : List Layer) (i s : Nat) : Prop where
  versed : Versed x
  here : Here x g body code (.call f :: .this f :: σ)
  this : ∃ t, x.state.heap.scopes.parent? x.state.scope = some t ∧
    x.state.heap.scopes.parent? t = some s ∧ x.state.heap.scopes.here? t "this" = some (.inst i)
  there : x.state.heap.instances[i]?.isSome

theorem Chain.lt_of_parent {ss : Scopes} {L : List Event} {g s p : Nat} {l : Layer} {σ : List Layer}
    (h : Chain ss L g s (l :: σ)) (hp : ss.parent? s = some p) : p < s := by
  cases h with
  | layer _ hp' hlt =>
    rw [hp'] at hp
    exact Option.some.inj hp ▸ hlt

namespace Inside

variable {x y : Logged Event Machine} {g : Nat} {body : List Stmt} {code : Code} {f : FunctionDecl}
  {σ : List Layer} {i s : Nat} {a : String}

theorem at_code (h : Inside x g body code f σ i s) {code' : Code}
    (hp : Placed body code' (.call f :: .this f :: σ)) : Inside x g body code' f σ i s :=
  ⟨h.versed, h.here.to hp, h.this, h.there⟩

theorem carried (h : Inside x g body code f σ i s) (hc : Carried x y) :
    Inside y g body code f σ i s := by
  refine ⟨h.versed.carried hc, h.here.grew hc.grew, ?_, hc.kept.there h.there⟩
  obtain ⟨t, hp, hs, ht⟩ := h.this
  have hlt := h.here.chain.lt
  have hlt' := Nat.lt_trans (h.here.chain.lt_of_parent hp) hlt
  refine ⟨t, ?_, (hc.parent hlt').trans hs, (hc.this hlt').trans ht⟩
  rw [hc.grew.scope, hc.parent hlt, hp]

theorem tidy (h : Inside x g body code f σ i s) : Stmt.TidyAll body :=
  h.versed.sound.tidy g body h.here.began

theorem getAt?_this (h : Inside x g body code f σ i s) :
    x.state.heap.scopes.getAt? x.state.scope 1 "this" = some (.inst i) := by
  obtain ⟨t, hp, -, ht⟩ := h.this
  simp [Scopes.getAt?, Scopes.ancestor?, hp, ht]

/-- A method finds `this` one scope out. -/
theorem eval_this (n : Nat) {ref : Ref} (h : Inside x g body (.expr (.this ref)) f σ i s) :
    Carries x (Trace.eval n (.this ref)) fun v _ => v = .inst i := by
  have hname : ref.name.lexeme = "this" := h.here.placed.tidy h.tidy
  have hplaced : Placed body (.use .this ref) (.call f :: .this f :: σ) :=
    h.here.placed.use (by simp [Expr.uses])
  have horigin : (Layer.call f :: .this f :: σ).map (·.origin) =
      [.call f] ++ .this f :: σ.map (·.origin) := rfl
  obtain ⟨⟨l, hnear, -⟩, -⟩ :=
    h.here.placed.nearest_hidden h.tidy (by simp [Origin.IsPlain]) horigin
  have hd := h.versed.table h.here.began hplaced
  rw [hname, hnear.distance?] at hd
  cases n with
  | zero => exact .within h.versed.sound h.here (fun _ _ _ => .throw _) fun _ _ _ h => h
  | succ n =>
    rw [Trace.eval]
    refine .within h.versed.sound h.here (fun y hy hs => ?_) fun _ _ _ h => h
    refine .reach hy.sound ((h.here.grew hy.grew).to hplaced) fun z hz hs' => ?_
    refine .answers ((Safe.lookUp hz.sound ref).imp fun v w _ _ hv => ⟨hv.1, ?_⟩)
    have hrun := hv.2.2
    rw [hs', hs, Eval.lookUp, Eval.get_bind, hd] at hrun
    dsimp only at hrun
    rw [hname, List.length_singleton, h.getAt?_this] at hrun
    cases hrun
    rfl

/-- An assignment to a field of `this` makes it one of the instance's own. -/
theorem eval_set (n : Nat) {ref : Ref} {name : Token} {value : Expr}
    (h : Inside x g body (.expr (.set (.this ref) name none value)) f σ i s) :
    Carries x (Trace.eval n (.set (.this ref) name none value)) fun _ y =>
      y.state.heap.Owns i name.lexeme := by
  cases n with
  | zero => exact .within h.versed.sound h.here (fun _ _ _ => .throw _) fun _ _ _ h => h
  | succ n =>
    rw [Trace.eval]
    refine .within h.versed.sound h.here (fun y hy _ => ?_) fun _ _ _ h => h
    have h := h.carried hy
    have hthis : Inside y g body (.expr (.this ref)) f σ i s :=
      h.at_code (h.here.placed.part (by simp [Expr.parts]))
    refine (eval_this n hthis).bind fun v z hz hv => ?_
    subst hv
    have h := h.carried hz
    have hvalue : Here z g body (.expr value) (.call f :: .this f :: σ) :=
      h.here.part (by simp [Expr.parts])
    refine (Carries.eval n h.versed.sound hvalue).bind fun w u hu hw => ?_
    have hthere := (h.carried hu).there
    refine (Carries.of_safe ((Safe.setProperty hu.sound (.inst i) name.lexeme hw).ran.imp
      fun _ v _ _ hv => ?_) ?_).bind fun _ v hv ho => .pure hv.sound ho
    · obtain ⟨-, hrun⟩ := hv
      cases hrun
      exact Heap.owns_setField hthere name.lexeme w
    · exact .effect (.field i name.lexeme w)

theorem exec_expr {n : Nat} {e : Expr} {P : Heap → Prop}
    (h : Inside x g body (.stmt (.expr e)) f σ i s)
    (he : ∀ m y, m < n → Carried x y → Inside y g body (.expr e) f σ i s →
      Carries y (Trace.eval m e) fun _ z => P z.state.heap) :
    Carries x (Trace.exec n (.expr e)) fun flow z => flow = .normal ∧ P z.state.heap := by
  cases n with
  | zero => exact .within h.versed.sound h.here (fun _ _ _ => .throw _) fun _ _ _ h => h
  | succ n =>
    rw [Trace.exec]
    refine .within h.versed.sound h.here (fun y hy _ => ?_) fun _ _ _ h => h
    have h := h.carried hy
    have hexpr : Inside y g body (.expr e) f σ i s :=
      h.at_code (h.here.placed.expr (by simp [Stmt.exprs]))
    refine (he n y (Nat.lt_succ_self n) hy hexpr).bind fun _ z hz hp => ?_
    exact .pure hz.sound ⟨rfl, hp⟩

/-- A field that one of the first expressions of a method sets is set when the method ends. -/
theorem execAll_expr {n : Nat} {before rest : List Stmt} {e : Expr}
    (h : Inside x g body (.stmts (before ++ .expr e :: rest)) f σ i s)
    (hb : ∀ s ∈ before, ∃ e, s = .expr e)
    (he : ∀ m y, m < n → Carried x y → Inside y g body (.expr e) f σ i s →
      Carries y (Trace.eval m e) fun _ z => z.state.heap.Owns i a) :
    Carries x (Trace.execAll n (before ++ .expr e :: rest)) fun _ z => z.state.heap.Owns i a := by
  induction before generalizing n x with
  | nil =>
    cases n with
    | zero => exact .throw _
    | succ n =>
      rw [List.nil_append, Trace.execAll]
      refine (exec_expr (P := fun h => h.Owns i a) (h.at_code h.here.placed.head)
        fun m y hm => he m y (by omega)).bind fun flow y hy hp => ?_
      obtain ⟨rfl, ho⟩ := hp
      have h := h.carried hy
      exact (Carries.execAll n h.versed.sound (h.here.to h.here.placed.tail)).imp
        fun _ z hz _ => hz.kept.owns ho
  | cons st before ih =>
    obtain ⟨⟨e', rfl⟩, hb'⟩ := List.forall_mem_cons.1 hb
    cases n with
    | zero => exact .throw _
    | succ n =>
      rw [List.cons_append, Trace.execAll]
      refine (exec_expr (P := fun _ => True) (h.at_code h.here.placed.head) fun m y _ _ hy =>
        (Carries.eval m hy.versed.sound hy.here).imp fun _ _ _ _ => trivial).bind
        fun flow y hy hp => ?_
      obtain ⟨rfl, -⟩ := hp
      have h := h.carried hy
      exact ih (h.at_code h.here.placed.tail) hb' fun m z hm hz => he m z (by omega) (hy.trans hz)

/-- In a class with the superclass `c`, `super.init` is what initializes an instance of `c`. -/
theorem superMethod_init {decl : ClassDecl} {c : Nat} {ref : Ref} {method : Token}
    (h : Inside x g body (.expr (.super ref method)) f (decl.around σ) i s)
    (hsup : decl.superclass.isSome) (hfor : MadeFor x.log s decl c)
    (hm : method.lexeme = initName) :
    Carries x (Trace.superMethod ref method) fun v y =>
      ∃ k, v = .callable k ∧ Initializes y c i k := by
  have hname : ref.name.lexeme = "super" := h.here.placed.tidy h.tidy
  have hplaced : Placed body (.use .super ref) (.call f :: .this f :: decl.around σ) :=
    h.here.placed.use (by simp [Expr.uses])
  have horigin : (Layer.call f :: .this f :: decl.around σ).map (·.origin) =
      [.call f] ++ .this f :: .super decl :: (Layer.define decl.name.lexeme σ).map (·.origin) := by
    simp [ClassDecl.around, hsup, Layer.call, Layer.this]
  obtain ⟨l, hnear, -, hmem⟩ := (h.here.placed.nearest_hidden h.tidy (by simp [Origin.IsPlain])
    horigin).2 decl _ rfl
  have hd := h.versed.table h.here.began hplaced
  rw [hname, hnear.distance?] at hd
  refine .reach h.versed.sound (h.here.to hplaced) fun y hy hs => .get ?_
  -- The second scope out is the one of `super`, which was made for the superclass.
  have hsuper : y.state.heap.scopes.getAt? y.state.scope 2 ref.name.lexeme =
      some (.callable (.cls c)) := by
    obtain ⟨t, hp, hps, -⟩ := h.this
    obtain ⟨t', ht', -, hheld⟩ := h.here.chain.ancestor? hnear.here
    obtain rfl : s = t' := by simpa [Scopes.ancestor?, hp, hps] using ht'
    obtain ⟨v, hv⟩ := Option.isSome_iff_exists.1 (hheld _ hmem)
    have hinner := h.here.chain.parent_isSome (List.getElem?_eq_some_iff.1 hnear.here).1 ht'
    obtain ⟨decl', c', rfl, hfor'⟩ := (h.versed.sound.hidden s _ v hinner hv).super rfl
    obtain ⟨-, rfl⟩ := h.versed.sound.madeFor_unique hfor hfor'
    rw [hs, hname]
    simp [Scopes.getAt?, Scopes.ancestor?, hp, hps, hv]
  rw [hs, hd, ← hs]
  refine (Carries.demand hy.sound _ _ hsuper).bind fun _ z hz he => ?_
  obtain ⟨rfl, rfl⟩ := he
  refine (Carries.demand hy.sound _ _ (h.carried hy).getAt?_this).bind fun _ w hw he => ?_
  obtain ⟨rfl, rfl⟩ := he
  dsimp only
  rw [if_pos (beq_iff_eq.2 hm)]
  exact (Carries.initializerOf hy.sound c i).bind fun k u hu hk => .pure hu.sound ⟨k, rfl, hk⟩

end Inside

/-! ### Calls of methods -/

section

variable {x : Logged Event Machine} {g : Nat} {body : List Stmt} {σ : List Layer} {f : Closure}
  {args : List Value}

theorem Carries.openCall (hx : Sound x)
    (hat : At x.state.heap.scopes x.log f.scope g body (.function f.decl) σ)
    (hargs : ∀ v ∈ args, v.In x) (he : Entering f args x.log) :
    Carries x (Trace.openCall f args) fun s y => y.state.heap.scopes.parent? s = some f.scope ∧
      At y.state.heap.scopes y.log s g body (.body f.decl) (.call f.decl :: σ) ∧
      (Code.body f.decl).Supplied { y.state with scope := s } y.log := by
  have law := Heap.Kept.law
  refine of_safe (Trace.openCall_safe hx hat hargs he) ?_
  exact ((Obeys.note (C := fun _ => True) (O := fun _ => True) (law.applied f args)).bind law
    fun _ _ => (Obeys.newScope law _ _).bind law fun s y =>
      .lift_bind law (.defineAll ..) fun _ _ => .pure law _).last

/-- What a method of an instance has done when it ends. -/
theorem Carries.apply_method {n c i s : Nat} {decl : ClassDecl} {sup : Option Nat} {k : Class}
    {f₀ : Closure} {a : String} (hx : Versed x) (hb : .turn (.built c decl sup s) ∈ x.log)
    (hk : x.state.heap.classes.cells[c]? = some k)
    (hf₀ : (∃ name, k.methods.get? name = some f₀) ∨ f₀ ∈ k.fields) (hf : f.BoundAs x f₀ i)
    (hi : x.state.heap.instances[i]?.isSome) (hargs : ∀ v ∈ args, v.In x)
    (he : Entering f args x.log)
    (hbody : ∀ m y g body σ, m < n → x.log <:+ y.log → Placed body (.stmt (.cls decl)) σ →
      Inside y g body (.stmts f.decl.body) f.decl (decl.around σ) i s →
      Carries y (Trace.execAll m f.decl.body) fun _ z => z.state.heap.Owns i a) :
    Carries x (Trace.apply n f args) fun _ z => z.state.heap.Owns i a := by
  obtain ⟨hmade, k', hk', hof⟩ := hx.sound.built c decl sup s hb
  obtain rfl := Option.some.inj (hk.symm.trans hk')
  obtain ⟨g, body, σ, hbegan, hplaced, hchain⟩ := hmade.place
  have hscope := hof.scope f₀ hf₀
  -- The function stands in the class, so its scopes are those of a method there.
  have hmem : f.decl ∈ decl.ofInstances := by
    rw [hf.decl]
    rcases hf₀ with ⟨name, hf₀⟩ | hf₀
    · have := hof.methods name
      rw [hf₀] at this
      exact List.mem_append_left _ (List.mem_reverse.1 (List.mem_of_find?_eq_some this.symm))
    · have : f₀.decl ∈ decl.fields := by simp [← hof.fields, Option.mem_def.1 hf₀]
      exact List.mem_append_right _ (Option.mem_toList.2 this)
  have hlt := hx.sound.made _ _ hf.made
  have hat : At x.state.heap.scopes x.log f.scope g body (.function f.decl)
      (.this f.decl :: decl.around σ) := by
    refine ⟨hbegan, hplaced.method hmem, .layer hf.made hf.parent hf.below hlt ?_ (hscope ▸ hchain)⟩
    simp [Layer.this, hf.this]
  cases n with
  | zero => exact .throw _
  | succ n =>
    rw [Trace.apply, ← Trace.openCall_bind]
    refine (openCall hx.sound hat hargs he).bind fun t y hy ht => ?_
    obtain ⟨hparent, hhere, hsupplied⟩ := ht
    have hinside : Inside { y with state.scope := t } g body (.body f.decl) f.decl
        (decl.around σ) i s := by
      have hv := hx.carried hy
      refine ⟨⟨hv.sound, hv.table, hv.text⟩, hhere, ⟨f.scope, hparent, ?_, ?_⟩, hy.kept.there hi⟩
      · exact hscope ▸ (hy.parent hlt).trans hf.parent
      · exact (hy.this hlt).trans hf.this
    refine (inScope (s := t) (Q := fun _ z => z.state.heap.Owns i a) (within hy.sound hhere
      (fun z hz _ => ?_) (fun _ _ _ h => h) hsupplied)).bind fun flow z hz ho => ?_
    · have h := hinside.carried hz
      refine hbody n z g body σ (Nat.lt_succ_self n) ?_ hplaced (h.at_code h.here.placed.body)
      exact hy.grew.later.log.trans hz.grew.later.log
    · split
      · exact .get (.pure hz.sound ho)
      · cases flow with
        | ret | normal | brk | cont => exact .pure hz.sound ho

end

/-- To call something is to enter it with one more call open. -/
theorem Carries.call {x : Logged Event Machine} {n : Nat} {f : Callable} {args : List Value}
    {paren : Token} {Q : Value → Heap → Prop} (hx : Versed x) (hok : (Value.callable f).In x)
    (hargs : ∀ v ∈ args, v.In x)
    (henter : ∀ m y, m < n → Versed y → x.log <:+ y.log → y.state.heap = x.state.heap →
      (∀ v ∈ args, v.In y) → Opened f args y →
      Carries y (Trace.enter m f args paren) fun v z => Q v z.state.heap) :
    Carries x (Trace.call n f args paren) fun v z => Q v z.state.heap := by
  cases n with
  | zero => exact .throw _
  | succ n =>
    rw [Trace.call]
    refine .get ?_
    split
    · exact .fault _ _
    · refine .deeper ?_
      have hx' : Versed { x with state.depth := x.state.depth + 1 } := ⟨hx.sound, hx.table, hx.text⟩
      refine (of_safe (Safe.turn (k := .called f args) (Q := fun _ y =>
        y.state.heap = x.state.heap ∧ y.log = .turn (.called f args y.state) :: x.log) hx'.sound
        (by simp [Turn.machine?]) ⟨rfl, hok, hargs⟩ ⟨rfl, rfl⟩) (.refl _)).bind
        fun _ y hy h => .get ?_
      obtain ⟨he, hlog⟩ := h
      dsimp only
      split
      · next ha =>
        exact henter n y (Nat.lt_succ_self n) (hx'.carried hy) hy.grew.later.log he
          (fun v hv => (hargs v hv).mono hy.grew.later) ⟨⟨_, hlog⟩, beq_iff_eq.1 ha⟩
      · exact .fault _ _

/-! ### What is due -/

/-- The class `c`, or one above it, declares the field `a`, and from `c` on up to there no class
declares `init` twice. -/
inductive Due (L : List Event) (a : String) : Nat → Prop where
  | own {c : Nat} {decl : ClassDecl} {sup : Option Nat} {s : Nat} {T : List Token} {ms : Members}
      {field : FieldDecl} (hb : .turn (.built c decl sup s) ∈ L) (hs : decl.Sole)
      (hr : decl.ReadAs T True ms) (hf : field ∈ ms.fields) (ha : field.name.lexeme = a) : Due L a c
  | above {c c' : Nat} {decl : ClassDecl} {s : Nat} (hb : .turn (.built c decl (some c') s) ∈ L)
      (hs : decl.Sole) (h : Due L a c') : Due L a c

theorem Due.mono {L L' : List Event} {a : String} {c : Nat} (h : Due L a c) (hl : L <:+ L') :
    Due L' a c := by
  induction h with
  | own hb hs hr hf ha => exact .own (hl.subset hb) hs hr hf ha
  | above hb hs _ ih => exact .above (hl.subset hb) hs ih

/-- A class that was made is there, is of its declaration, and its lineage goes on with that of its
superclass. -/
theorem Sound.class_of {x : Logged Event Machine} (hx : Sound x) {c s : Nat} {decl : ClassDecl}
    {sup : Option Nat} (hb : .turn (.built c decl sup s) ∈ x.log) :
    ∃ k, x.state.heap.classes.cells[c]? = some k ∧ k.IsOf decl sup s ∧
      x.state.heap.classes.lineage c = k :: sup.elim [] x.state.heap.classes.lineage := by
  obtain ⟨-, k, hk, hof⟩ := hx.built c decl sup s hb
  refine ⟨k, hk, hof, ?_⟩
  rw [Classes.lineage_eq (fun c k c' => AlignedStore.superclass_lt hx.toAlignedStore) hk,
    hof.superclass]

theorem Class.IsOf.init {k : Class} {decl : ClassDecl} {sup : Option Nat} {s : Nat}
    (h : k.IsOf decl sup s) :
    k.init?.map (·.decl) = decl.methods.reverse.find? FunctionDecl.isInit := h.methods initName

/-- With `n` steps, what sets up an instance sets the fields that are due. -/
structure Fills (n : Nat) : Prop where
  apply : ∀ {x c k f₀ f i args a}, Versed x → Due x.log a c →
    x.state.heap.classes.cells[c]? = some k → k.init? = some f₀ → f.BoundAs x f₀ i →
    x.state.heap.instances[i]?.isSome → (∀ v ∈ args, v.In x) → Entering f args x.log →
    Carries x (Trace.apply n f args) fun _ y => y.state.heap.Owns i a
  setUp : ∀ {x c i args a}, Versed x → Due x.log a c → x.state.heap.instances[i]?.isSome →
    (∀ v ∈ args, v.In x) → EntersInit (x.state.heap.classes.lineage c) args x.log →
    Carries x (Trace.setUp n (x.state.heap.classes.lineage c) i args) fun _ y =>
      y.state.heap.Owns i a

namespace Fills

variable {n : Nat} {x : Logged Event Machine} {c i : Nat} {args : List Value} {a : String}

theorem enter {f : Callable} {paren : Token} (ih : ∀ m < n, Fills m) (hx : Versed x)
    (hd : Due x.log a c) (hf : Initializes x c i f) (hi : x.state.heap.instances[i]?.isSome)
    (hargs : ∀ v ∈ args, v.In x) (ho : Opened f args x) :
    Carries x (Trace.enter n f args paren) fun _ y => y.state.heap.Owns i a := by
  cases n with
  | zero => exact .throw _
  | succ n =>
    have ih := ih n (Nat.lt_succ_self n)
    cases hf with
    | method hk hf₀ hf =>
      rw [Trace.enter]
      exact ih.apply hx hd hk hf₀ hf hi hargs ho.function
    | inherited id =>
      rw [Trace.enter]
      exact .get ((ih.setUp hx hd hi hargs (ho.entersInit (.inr ⟨id, i, rfl⟩))).bind
        fun _ y hy ho => .pure hy.sound ho)

theorem call {f : Callable} {paren : Token} (ih : ∀ m < n, Fills m) (hx : Versed x)
    (hd : Due x.log a c) (hf : Initializes x c i f) (hi : x.state.heap.instances[i]?.isSome)
    (hargs : ∀ v ∈ args, v.In x) (hok : (Value.callable f).In x) :
    Carries x (Trace.call n f args paren) fun _ y => y.state.heap.Owns i a := by
  refine Carries.call (Q := fun _ h => h.Owns i a) hx hok hargs fun m y hm hy hl he hargs ho => ?_
  exact enter (fun j hj => ih j (by omega)) hy (hd.mono hl) (hf.later he hl) (by rwa [he]) hargs ho

/-- The call of the inherited initializer sets what is due from the superclass on. -/
theorem eval_super {s c' : Nat} {g : Nat} {body : List Stmt} {σ : List Layer} {decl : ClassDecl}
    {f : FunctionDecl} {ref : Ref} {method paren : Token} {es : List Expr} (ih : ∀ m < n, Fills m)
    (h : Inside x g body (.expr (.call (.super ref method) paren es)) f (decl.around σ) i s)
    (hsup : decl.superclass.isSome) (hfor : MadeFor x.log s decl c') (hm : method.lexeme = initName)
    (hd : Due x.log a c') :
    Carries x (Trace.eval n (.call (.super ref method) paren es)) fun _ y =>
      y.state.heap.Owns i a := by
  cases n with
  | zero => exact .within h.versed.sound h.here (fun _ _ _ => .throw _) fun _ _ _ h => h
  | succ n =>
    rw [Trace.eval]
    refine .within h.versed.sound h.here (fun y hy _ => ?_) fun _ _ _ h => h
    have h := h.carried hy
    have hcallee : Inside y g body (.expr (.super ref method)) f (decl.around σ) i s :=
      h.at_code (h.here.placed.part (by simp [Expr.parts]))
    have hinit : Carries y (Trace.eval n (.super ref method)) fun v z =>
        ∃ k, v = .callable k ∧ Initializes z c' i k := by
      cases n with
      | zero =>
        refine .within h.versed.sound hcallee.here (fun _ _ _ => .throw _) fun v z e hv => ?_
        obtain ⟨k, hv, hk⟩ := hv
        exact ⟨k, hv, hk.later rfl (List.suffix_cons ..)⟩
      | succ n =>
        rw [Trace.eval]
        refine .within h.versed.sound hcallee.here (fun z hz _ => ?_) fun v z e hv => ?_
        · refine (hcallee.carried hz).superMethod_init hsup (hfor.mono ?_) hm
          exact hy.grew.later.log.trans hz.grew.later.log
        · obtain ⟨k, hv, hk⟩ := hv
          exact ⟨k, hv, hk.later rfl (List.suffix_cons ..)⟩
    refine (hinit.and (Carries.eval n h.versed.sound hcallee.here)).bind fun v z hz hv => ?_
    obtain ⟨⟨k, rfl, hk⟩, hok⟩ := hv
    have h := h.carried hz
    refine (Carries.evalAll n h.versed.sound fun e he =>
      h.here.part (by simp [Expr.parts, he])).bind fun vs w hw hvs => ?_
    have h := h.carried hw
    have hlog := (hy.grew.later.log.trans hz.grew.later.log).trans hw.grew.later.log
    exact call (fun m hm => ih m (by omega)) h.versed (hd.mono hlog) (hk.carried hz.sound hw)
      h.there hvs (hok.mono hw.grew.later)

/-- The text of a class that was made. -/
theorem readAs {g : Nat} {body : List Stmt} {σ : List Layer} {decl : ClassDecl} (hx : Versed x)
    (hb : Began x.log g body) (hp : Placed body (.stmt (.cls decl)) σ) :
    ∃ T ms, decl.ReadAs T True ms := by
  obtain ⟨T, hT⟩ := hx.text hb
  obtain ⟨ms, hms⟩ := (hT _ (hp.contains (by simp))).2 decl rfl
  exact ⟨T, ms, hms⟩

/-- The expression statements at the start of a method that set a field. -/
theorem execAll_assigned {g s : Nat} {body : List Stmt} {σ : List Layer} {f : FunctionDecl}
    {first ss rest : List Stmt} {fields : List FieldDecl} {field : FieldDecl}
    (h : Inside x g body (.stmts (first ++ (ss ++ rest))) f σ i s)
    (hfirst : ∀ s ∈ first, ∃ e, s = .expr e) (hss : List.Forall₂ FieldDecl.Assigned fields ss)
    (hf : field ∈ fields) (m : Nat) :
    Carries x (Trace.execAll m (first ++ (ss ++ rest))) fun _ y =>
      y.state.heap.Owns i field.name.lexeme := by
  obtain ⟨before, st, after, rfl, ⟨ref, -, rfl⟩, hb⟩ := FieldDecl.exists_assigned hss hf
  rw [List.append_assoc, List.cons_append, ← List.append_assoc] at h ⊢
  refine h.execAll_expr (fun st hst => ?_) fun m y _ _ h => h.eval_set m
  exact (List.mem_append.1 hst).elim (hfirst st) (hb st)

theorem apply_succ (ih : ∀ m < n, Fills m) {k : Class} {f₀ f : Closure} (hx : Versed x)
    (hd : Due x.log a c) (hk : x.state.heap.classes.cells[c]? = some k) (hf₀ : k.init? = some f₀)
    (hf : f.BoundAs x f₀ i) (hi : x.state.heap.instances[i]?.isSome) (hargs : ∀ v ∈ args, v.In x)
    (he : Entering f args x.log) :
    Carries x (Trace.apply n f args) fun _ y => y.state.heap.Owns i a := by
  have hinit : ∀ {decl sup s}, k.IsOf decl sup s →
      decl.methods.reverse.find? FunctionDecl.isInit = some f.decl := fun hof => by
    rw [← hof.init, hf₀, hf.decl]
    rfl
  cases hd with
  | @own _ decl sup s T ms field hb hs hr hmem ha' =>
    subst ha'
    obtain ⟨k', hk', hof, -⟩ := hx.sound.class_of hb
    obtain rfl := Option.some.inj (hk.symm.trans hk')
    -- The assignments to the fields stand at the start of the body, after at most one expression.
    obtain ⟨first, ss, rest, hbody, hss, hfirst⟩ := hr.init_body hs (hinit hof)
    refine .apply_method hx hb hk (.inl ⟨_, hf₀⟩) hf hi hargs he fun m y g body σ _ _ _ h => ?_
    rw [hbody] at h ⊢
    refine execAll_assigned h (fun st hst => ?_) hss (List.mem_reverse.2 hmem) m
    rcases hfirst with ⟨-, rfl⟩ | ⟨-, ref, method, paren, es, rfl, -⟩
    · cases hst
    · exact ⟨_, List.mem_singleton.1 hst⟩
  | @above _ c' decl s hb hs hd =>
    obtain ⟨k', hk', hof, -⟩ := hx.sound.class_of hb
    obtain rfl := Option.some.inj (hk.symm.trans hk')
    obtain ⟨hmade, -⟩ := hx.sound.built c decl _ s hb
    have hsup : decl.superclass.isSome := by rw [← hmade.derived]; rfl
    refine .apply_method hx hb hk (.inl ⟨_, hf₀⟩) hf hi hargs he fun m y g body σ hm hlog hp h => ?_
    obtain ⟨T, ms, hr⟩ := readAs h.versed h.here.began hp
    obtain ⟨first, ss, rest, hbody, -, hfirst⟩ := hr.init_body hs (hinit hof)
    -- In a class with a superclass, that expression is the call of the inherited initializer.
    rcases hfirst with ⟨hnone, -⟩ | ⟨-, ref, method, paren, es, rfl, hmethod⟩
    · simp [hnone] at hsup
    · have hbody : f.decl.body = [] ++ .expr (.call (.super ref method) paren es) :: (ss ++ rest) :=
        hbody
      rw [hbody] at h ⊢
      refine h.execAll_expr (by simp) fun m' z hm' hz h => ?_
      have hlog := hlog.trans hz.grew.later.log
      exact eval_super (fun j hj => ih j (by omega)) h hsup
        ((hmade.above c' rfl).2.2.mono hlog) hmethod (hd.mono hlog)

/-- In a class without an `init`, what stands apart sets the fields. -/
theorem setFields (n : Nat) {decl : ClassDecl} {sup : Option Nat} {s : Nat} {k : Class}
    {f₁ : Closure} {fields : List FieldDecl} {field : FieldDecl} (hx : Versed x)
    (hb : .turn (.built c decl sup s) ∈ x.log) (hk : x.state.heap.classes.cells[c]? = some k)
    (hf₁ : k.fields = some f₁) (hi : x.state.heap.instances[i]?.isSome)
    (hss : List.Forall₂ FieldDecl.Assigned fields f₁.decl.body) (hf : field ∈ fields) :
    Carries x (do
      let f ← Trace.bindThis f₁ i
      let _ ← Trace.apply n f []) fun _ y => y.state.heap.Owns i field.name.lexeme := by
  obtain ⟨hm, hparams⟩ := (hx.sound.classes c k hk).fields f₁ hf₁
  refine (Carries.bindThis hx.sound hm i).bind fun f y hy hf => ?_
  obtain ⟨hbound, -, hlog⟩ := hf
  obtain ⟨k', hk', -, hfields⟩ := hy.kept.classes c k hk
  have hargs : ∀ v ∈ ([] : List Value), v.In y := by simp
  refine (Carries.apply_method (hx.carried hy) (hy.grew.later.event hb) hk'
    (.inr (hfields ▸ hf₁)) hbound (hy.kept.there hi) hargs
    (hlog ▸ .fields (hbound.decl ▸ hparams) x.log)
    fun m z g body σ _ _ _ h => ?_).bind fun _ w hw ho => .pure hw.sound ho
  have hbody : f.decl.body = [] ++ (f₁.decl.body ++ []) := by simp [hbound.decl]
  rw [hbody] at h ⊢
  exact execAll_assigned h (by simp) hss ‹_› m

/-- The `init` of the class is bound to the instance and applied. -/
theorem applyInit {m : Nat} {k : Class} {f₀ : Closure} (ih : Fills m) (hx : Versed x)
    (hd : Due x.log a c) (hk : x.state.heap.classes.cells[c]? = some k) (hf₀ : k.init? = some f₀)
    (hi : x.state.heap.instances[i]?.isSome) (hargs : ∀ v ∈ args, v.In x)
    (he : ∀ f, f.decl = f₀.decl → Entering f args (.made f.scope (.this f.decl) :: x.log)) :
    Carries x (do
      let f ← Trace.bindThis f₀ i
      let _ ← Trace.apply m f args) fun _ y => y.state.heap.Owns i a := by
  refine (Carries.bindThis hx.sound ((hx.sound.classes c k hk).methods _ f₀ hf₀) i).bind
    fun f y hy hf => ?_
  obtain ⟨hbound, -, hlog⟩ := hf
  obtain ⟨k', hk', hmethods, -⟩ := hy.kept.classes _ _ hk
  exact (ih.apply (hx.carried hy) (hd.mono hy.grew.later.log) hk' (by rwa [Class.init?, hmethods])
    hbound (hy.kept.there hi) (fun v hv => (hargs v hv).mono hy.grew.later)
    (hlog ▸ he f hbound.decl)).bind fun _ z hz ho => .pure hz.sound ho

theorem setUp_own {decl : ClassDecl} {sup : Option Nat} {s : Nat} {T : List Token} {ms : Members}
    {field : FieldDecl} (ih : Fills n) (hx : Versed x) (hb : .turn (.built c decl sup s) ∈ x.log)
    (hs : decl.Sole) (hr : decl.ReadAs T True ms) (hf : field ∈ ms.fields)
    (hi : x.state.heap.instances[i]?.isSome) (hargs : ∀ v ∈ args, v.In x)
    (he : EntersInit (x.state.heap.classes.lineage c) args x.log) :
    Carries x (Trace.setUp (n + 1) (x.state.heap.classes.lineage c) i args) fun _ y =>
      y.state.heap.Owns i field.name.lexeme := by
  obtain ⟨k, hk, hof, hup⟩ := hx.sound.class_of hb
  rw [hup] at he ⊢
  rw [Trace.setUp]
  cases hf₀ : k.init? with
  | some f₀ =>
    exact applyInit ih hx (.own hb hs hr hf rfl) hk hf₀ hi hargs fun f => he f₀ f (by simp [hf₀])
  | none =>
    -- What is inherited is set up first, which keeps the class as it is.
    have hnone : decl.methods.reverse.find? FunctionDecl.isInit = none := by
      rw [← hof.init, hf₀]
      rfl
    obtain ⟨fd, hfd, hss⟩ := hr.fields_body hnone (List.ne_nil_of_mem hf)
    obtain ⟨f₁, hf₁, rfl⟩ := Option.map_eq_some_iff.1 (hof.fields.trans hfd)
    refine (Carries.setUp n hx.sound (fun k' hk' => hx.sound.lineage (c := c) ?_) hargs
      (he.above hf₀)).bind fun _ y hy _ => ?_
    · exact hup ▸ List.mem_cons_of_mem k hk'
    · obtain ⟨k', hk', -, hfields⟩ := hy.kept.classes c k hk
      rw [hf₁]
      exact setFields n (hx.carried hy) (hy.grew.later.event hb) hk' (hfields.trans hf₁)
        (hy.kept.there hi) hss (List.mem_reverse.2 hf)

theorem setUp_above {decl : ClassDecl} {c' s : Nat} (ih : Fills n) (hx : Versed x)
    (hb : .turn (.built c decl (some c') s) ∈ x.log) (hs : decl.Sole) (hd : Due x.log a c')
    (hi : x.state.heap.instances[i]?.isSome) (hargs : ∀ v ∈ args, v.In x)
    (he : EntersInit (x.state.heap.classes.lineage c) args x.log) :
    Carries x (Trace.setUp (n + 1) (x.state.heap.classes.lineage c) i args) fun _ y =>
      y.state.heap.Owns i a := by
  obtain ⟨k, hk, hof, hup⟩ := hx.sound.class_of hb
  rw [hup] at he ⊢
  rw [Trace.setUp]
  cases hf₀ : k.init? with
  | some f₀ =>
    exact applyInit ih hx (.above hb hs hd) hk hf₀ hi hargs fun f => he f₀ f (by simp [hf₀])
  | none =>
    refine (ih.setUp (c := c') hx hd hi hargs (he.above hf₀)).bind fun _ y hy ho => ?_
    -- What was inherited is set by now, and no field goes away.
    cases hf₁ : k.fields with
    | none => exact .pure hy.sound ho
    | some f₁ =>
      obtain ⟨hm, hparams⟩ := (hx.sound.classes c k hk).fields f₁ hf₁
      refine (Carries.bindThis hy.sound (hm.mono hy.grew.later) i).bind fun f z hz hf => ?_
      obtain ⟨hbound, hin, hlog⟩ := hf
      have hargs : ∀ v ∈ ([] : List Value), v.In z := by simp
      have henter : Entering f [] z.log := hlog ▸ .fields (hbound.decl ▸ hparams) y.log
      refine (Carries.apply n hz.sound hin hargs henter).bind fun _ w hw _ => .pure hw.sound ?_
      exact hw.kept.owns (hz.kept.owns ho)

theorem setUp_succ (ih : ∀ m < n, Fills m) (hx : Versed x) (hd : Due x.log a c)
    (hi : x.state.heap.instances[i]?.isSome) (hargs : ∀ v ∈ args, v.In x)
    (he : EntersInit (x.state.heap.classes.lineage c) args x.log) :
    Carries x (Trace.setUp n (x.state.heap.classes.lineage c) i args) fun _ y =>
      y.state.heap.Owns i a := by
  cases n with
  | zero => exact .throw _
  | succ n =>
    have ih := ih n (Nat.lt_succ_self n)
    cases hd with
    | own hb hs hr hf ha => exact ha ▸ setUp_own ih hx hb hs hr hf hi hargs he
    | above hb hs hd => exact setUp_above ih hx hb hs hd hi hargs he

end Fills

/-- Whatever sets up an instance leaves it with all fields that are due. -/
theorem fills (n : Nat) : Fills n := by
  induction n using Nat.strong_induction_on with
  | _ n ih => exact ⟨Fills.apply_succ ih, Fills.setUp_succ ih⟩

/-! ### New instances -/

/-- The instance is new, is one of the class `c`, and has all fields that were due. -/
structure Constructed (x : Logged Event Machine) (h : Heap) (c i : Nat) : Prop where
  fresh : x.state.heap.instances[i]? = none
  cls : ∃ inst, h.instances[i]? = some inst ∧ inst.cls = c
  fields : ∀ a, Due x.log a c → h.Owns i a

section

variable {x : Logged Event Machine} {c : Nat} {args : List Value} {paren : Token}

theorem Carries.enter_cls (n : Nat) (hx : Versed x) (hargs : ∀ v ∈ args, v.In x)
    (ho : Opened (.cls c) args x) :
    Carries x (Trace.enter n (.cls c) args paren) fun v y =>
      ∃ i, v = .inst i ∧ Constructed x y.state.heap c i := by
  cases n with
  | zero => exact .throw _
  | succ n =>
    rw [Trace.enter]
    refine (of_safe (Safe.newInstance hx.sound c).ran (.effect (.inst c))).bind
      fun i y hy hnew => .get ?_
    obtain ⟨⟨hclasses, hlog⟩, hrun⟩ := hnew
    have hfresh : x.state.heap.instances[i]? = none ∧
        y.state.heap.instances[i]? = some ⟨c, {}⟩ := by
      cases hrun
      simp
    have he : EntersInit (y.state.heap.classes.lineage c) args y.log := by
      rw [hclasses, hlog]
      exact ho.entersInit (.inl rfl)
    have hargs' : ∀ v ∈ args, v.In y := fun v hv => (hargs v hv).mono hy.grew.later
    have hdue : Carries y (Trace.setUp n (y.state.heap.classes.lineage c) i args) fun _ z =>
        ∀ a, Due x.log a c → z.state.heap.Owns i a := by
      intro u z hz
      have hok := setUp n hy.sound (fun k hk => hy.sound.lineage hk) hargs' he u z hz
      refine ⟨hok.1, fun a hd => ?_⟩
      exact ((fills n).setUp (hx.carried hy) (hd.mono hy.grew.later.log) (by simp [hfresh.2]) hargs'
        he u z hz).2
    refine hdue.bind fun _ z hz hfields => .pure hz.sound ⟨i, rfl, hfresh.1, ?_, hfields⟩
    obtain ⟨inst, hinst, hcls, -⟩ := hz.kept.instances i _ hfresh.2
    exact ⟨inst, hinst, hcls⟩

/-- What a call of a class answers. -/
theorem Carries.call_cls (n : Nat) (hx : Versed x) (hc : Built x.log c)
    (hargs : ∀ v ∈ args, v.In x) :
    Carries x (Trace.call n (.cls c) args paren) fun v y =>
      ∃ i, v = .inst i ∧ Constructed x y.state.heap c i := by
  refine call (Q := fun v h => ∃ i, v = .inst i ∧ Constructed x h c i) hx hc hargs
    fun m y _ hy hl he hargs ho => (enter_cls m hy hargs ho).imp fun v z _ hv => ?_
  obtain ⟨i, rfl, hnew⟩ := hv
  exact ⟨i, rfl, he ▸ hnew.fresh, hnew.cls, fun a hd => hnew.fields a (hd.mono hl)⟩

end

end Treewalk
