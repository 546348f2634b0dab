import Treewalk.Proofs.OwnFields
import Treewalk.Proofs.Unseen

/-!
# How instances are initialized

`construction_runs_bodies`: to call a class runs the nearest `init` upwards with all arguments, then
what sets the fields of the classes below that one, from the top down, all of it on one new
instance. `init` of an instance and `super.init` do the same to an instance that is there. Whatever
is called with another number of arguments than it takes fails and changes nothing. No function is
ever entered with more or fewer arguments than it has parameters, and when its body starts each
parameter holds its own argument.
-/

namespace Treewalk

/-! ### Runs that end -/

/-- With enough steps, `p` ends in this way. -/
structure Eval.Finishes {α : Type} (p : Nat → Eval α) (m : Machine)
    (r : EStateM.Result Stop Machine α) : Prop where
  run : ∃ n, p n m = r
  ends : ∀ m', r ≠ .error .exhausted m'

theorem Mask.fits_idle (h : Heap) : Mask.idle.Fits h :=
  ⟨trivial, fun _ _ => trivial, fun _ => trivial⟩

section

variable {α : Type} {m : Machine} {P Q : α → Prop} {r : EStateM.Result Stop Machine α}

theorem Unseen.follow {p q : Eval α} (h : Unseen .idle m p q Q)
    (hr : ∀ m', r ≠ .error .exhausted m') (hp : p m = r) : q m = r := by
  cases r with
  | ok a m' => exact (h.ok hp).1
  | error e m' =>
    cases e with
    | fault f => exact (h.fault hp).1
    | exhausted => exact absurd rfl (hr m')

variable {p q : Nat → Eval α}

/-- Two computations end alike if each does what the other does, with perhaps more steps. -/
theorem Eval.finishes_iff (h : ∀ n, ∃ n', Unseen .idle m (p n) (q n') P)
    (h' : ∀ n, ∃ n', Unseen .idle m (q n) (p n') Q) : Finishes p m r ↔ Finishes q m r := by
  constructor
  · rintro ⟨⟨n, hn⟩, hr⟩
    obtain ⟨n', hn'⟩ := h n
    exact ⟨⟨n', hn'.follow hr hn⟩, hr⟩
  · rintro ⟨⟨n, hn⟩, hr⟩
    obtain ⟨n', hn'⟩ := h' n
    exact ⟨⟨n', hn'.follow hr hn⟩, hr⟩

/-- A computation that spends its first step on going over to another ends as that one does. -/
theorem Eval.finishes_succ (h₀ : p 0 = throw .exhausted) (hs : ∀ n, p (n + 1) m = q n m) :
    Finishes p m r ↔ Finishes q m r := by
  constructor
  · rintro ⟨⟨n, hn⟩, hr⟩
    cases n with
    | zero =>
      rw [h₀] at hn
      exact absurd hn.symm (hr m)
    | succ n => exact ⟨⟨n, (hs n).symm.trans hn⟩, hr⟩
  · rintro ⟨⟨n, hn⟩, hr⟩
    exact ⟨⟨n + 1, (hs n).trans hn⟩, hr⟩

theorem Eval.finishes_congr (h : ∀ n, p n m = q n m) : Finishes p m r ↔ Finishes q m r := by
  constructor
  · rintro ⟨⟨n, hn⟩, hr⟩
    exact ⟨⟨n, (h n).symm.trans hn⟩, hr⟩
  · rintro ⟨⟨n, hn⟩, hr⟩
    exact ⟨⟨n, (h n).trans hn⟩, hr⟩

end

/-! ### The bodies that initialize an instance -/

/-- A function to run with `this` bound to an instance, and its arguments. -/
structure Invocation where
  method : Closure
  args : List Value

/-- What initializes an instance of the first of some classes, each of which has the next one as its
superclass: the nearest `init`, and what sets the fields of those before it, the last of them first.
-/
def construction (ks : List Class) (args : List Value) : List Invocation :=
  (ks.findSome? Class.init?).toList.map (⟨·, args⟩) ++
    ((ks.takeWhile (·.init?.isNone)).reverse.filterMap (·.fields)).map (⟨·, []⟩)

theorem construction_of_init {k : Class} {f : Closure} (h : k.init? = some f) (ks : List Class)
    (args : List Value) : construction (k :: ks) args = [⟨f, args⟩] := by
  simp [construction, h]

theorem construction_of_none {k : Class} (h : k.init? = none) (ks : List Class)
    (args : List Value) :
    construction (k :: ks) args = construction ks args ++ k.fields.toList.map (⟨·, []⟩) := by
  rw [construction, construction, List.findSome?_cons_of_isNone (by simp [h]),
    List.takeWhile_cons_of_pos (by simp [h]), List.reverse_cons, List.filterMap_append,
    List.map_append, List.append_assoc]
  cases hf : k.fields <;> simp [hf]

namespace Eval

/-- Runs a function with `this` bound to the instance `i`. -/
def runBound (n i : Nat) (b : Invocation) : Eval Unit := do
  let f ← bindThis b.method i
  let _ ← apply n f b.args

/-- Runs functions in turn on the instance `i`. -/
def prepare (n i : Nat) (bs : List Invocation) : Eval Value := do
  forM bs (runBound n i)
  return .inst i

/-- Runs functions in turn on a new instance of the class `c`. -/
def construct (n c : Nat) (bs : List Invocation) : Eval Value := do
  let i ← newInstance c
  prepare n i bs

end Eval

section

variable {m : Machine} {i : Nat} {args : List Value}

theorem Unseen.runBound {n n' : Nat} (h : n ≤ n') (b : Invocation) :
    Unseen .idle m (Eval.runBound n i b) (Eval.runBound n' i b) fun _ => True := by
  refine (Unseen.bindThis (Mask.fits_idle _) trivial i).bind fun f m₁ hk₁ _ => ?_
  refine ((runUnseen .idle h).apply hk₁.fits trivial fun _ _ _ _ => trivial).bind ?_
  exact fun _ m₂ hk₂ _ => .pure hk₂.fits trivial

/-- To set up an instance is to run the bodies of its classes in turn. -/
theorem Unseen.setUp_forM {n n' : Nat} (h : n ≤ n') (ks : List Class) :
    Unseen .idle m (Eval.setUp n ks i args) (forM (construction ks args) (Eval.runBound n' i))
      fun _ => True := by
  induction ks generalizing n m with
  | nil =>
    cases n with
    | zero => exact .exhausted
    | succ n => exact .pure (Mask.fits_idle _) trivial
  | cons k ks ih =>
    cases n with
    | zero => exact .exhausted
    | succ n =>
      have hle : n ≤ n' := by omega
      rw [Eval.setUp]
      cases hinit : k.init? with
      | some f =>
        rw [construction_of_init hinit, List.forM_cons, List.forM_nil, bind_pure_unit]
        exact .runBound hle ⟨f, args⟩
      | none =>
        rw [construction_of_none hinit, List.forM_append]
        refine (ih hle).bind fun _ m₁ hk₁ _ => ?_
        cases hfields : k.fields with
        | none => exact .pure hk₁.fits trivial
        | some f =>
          rw [Option.toList_some, List.map_singleton, List.forM_cons, List.forM_nil, bind_pure_unit]
          exact .runBound hle ⟨f, []⟩

theorem Unseen.forM_setUp (n : Nat) (ks : List Class) :
    Unseen .idle m (forM (construction ks args) (Eval.runBound n i))
      (Eval.setUp (n + ks.length + 1) ks i args) fun _ => True := by
  induction ks generalizing m with
  | nil => exact .pure (Mask.fits_idle _) trivial
  | cons k ks ih =>
    have hle : n ≤ n + ks.length + 1 := by omega
    rw [List.length_cons, ← Nat.add_assoc, Eval.setUp]
    cases hinit : k.init? with
    | some f =>
      rw [construction_of_init hinit, List.forM_cons, List.forM_nil, bind_pure_unit]
      exact .runBound hle ⟨f, args⟩
    | none =>
      rw [construction_of_none hinit, List.forM_append]
      refine ih.bind fun _ m₁ hk₁ _ => ?_
      cases hfields : k.fields with
      | none => exact .pure hk₁.fits trivial
      | some f =>
        rw [Option.toList_some, List.map_singleton, List.forM_cons, List.forM_nil, bind_pure_unit]
        exact .runBound hle ⟨f, []⟩

end

/-! ### Calls -/

theorem Classes.arity_eq (cs : Classes) (c : Nat) :
    cs.arity c = (((cs.lineage c).findSome? Class.init?).map Closure.arity).getD 0 := by
  have h : cs.method? c initName = (cs.lineage c).findSome? Class.init? := rfl
  rw [arity, h]
  cases (cs.lineage c).findSome? Class.init? <;> rfl

namespace Eval

/-- What a call of `k` with these arguments does: with another number of them than `init` takes, or
with too many calls open, it fails at once, and otherwise it does what `body` does. -/
structure CallRuns (m : Machine) (k : Callable) (init : Option Closure) (args : List Value)
    (body : Nat → Eval Value) : Prop where
  arity : m.heap.arity k = (init.map (·.decl.params.length)).getD 0
  overflow : m.limit ≤ m.depth → ∀ n paren,
    call (n + 1) k args paren m = .error (.fault (.ofToken paren .stackOverflow)) m
  refused : m.depth < m.limit → args.length ≠ m.heap.arity k → ∀ n paren,
    call (n + 1) k args paren m =
      .error (.fault (.ofToken paren (.wrongArity (m.heap.arity k) args.length))) m
  runs : m.depth < m.limit → args.length = m.heap.arity k → ∀ paren r,
    Finishes (call · k args paren) m r ↔ Finishes (fun n => deeper (body n)) m r

section

variable {m : Machine} {k : Callable} {args : List Value}

theorem call_eq (n : Nat) (paren : Token) : call (n + 1) k args paren m =
    if m.limit ≤ m.depth then .error (.fault (.ofToken paren .stackOverflow)) m
    else if args.length = m.heap.arity k then deeper (enter n k args paren) m
    else .error (.fault (.ofToken paren (.wrongArity (m.heap.arity k) args.length))) m := by
  rw [call, get_bind]
  by_cases hd : m.limit ≤ m.depth
  · rw [if_pos hd, if_pos hd]
    rfl
  · have hdeeper : ∀ p : Eval Value, deeper (do
        let arity := (← get).heap.arity k
        if arity == args.length then p else fault paren (.wrongArity arity args.length)) m =
          if args.length = m.heap.arity k then deeper p m
          else .error (.fault (.ofToken paren (.wrongArity (m.heap.arity k) args.length))) m := by
      intro p
      by_cases ha : args.length = m.heap.arity k
      · rw [if_pos ha]
        unfold deeper
        rw [get_bind, if_pos (beq_iff_eq.2 ha.symm)]
      · rw [if_neg ha]
        unfold deeper
        rw [get_bind, if_neg (fun h => ha (beq_iff_eq.1 h).symm)]
        rfl
    rw [if_neg hd, if_neg hd]
    exact hdeeper (enter n k args paren)

/-- A call does what entering the function does. -/
theorem CallRuns.of_enter {init : Option Closure} {body : Nat → Eval Value}
    (harity : m.heap.arity k = (init.map (·.decl.params.length)).getD 0)
    (h : args.length = m.heap.arity k → ∀ paren r,
      Finishes (fun n => deeper (enter n k args paren)) m r ↔
        Finishes (fun n => deeper (body n)) m r) :
    CallRuns m k init args body where
  arity := harity
  overflow hd n paren := by rw [call_eq, if_pos hd]
  refused hd ha n paren := by rw [call_eq, if_neg (by omega), if_neg ha]
  runs hd ha paren r := by
    refine (finishes_succ ?_ fun n => ?_).trans (h ha paren r)
    · rw [call]
    · rw [call_eq, if_neg (by omega), if_pos ha]

/-- A call does what `body` does if each does what the other does, with perhaps more steps. -/
theorem CallRuns.of_unseen {init : Option Closure} {body : Nat → Eval Value} (d : Nat)
    (harity : m.heap.arity k = (init.map (·.decl.params.length)).getD 0)
    (h : ∀ n paren, Unseen .idle { m with depth := m.depth + 1 } (enter (n + 1) k args paren)
      (body (n + 1)) fun _ => True)
    (h' : ∀ n paren, Unseen .idle { m with depth := m.depth + 1 } (body n)
      (enter (n + d) k args paren) fun _ => True) :
    CallRuns m k init args body := by
  refine .of_enter harity fun _ paren r => finishes_iff (P := fun _ => True) (Q := fun _ => True)
    (fun n => ⟨n, .deeper ?_⟩) fun n => ⟨n + d, .deeper (h' n paren)⟩
  cases n with
  | zero => exact .exhausted
  | succ n => exact h n paren

end

end Eval

section

variable {m : Machine} {c i : Nat} {args : List Value} {ks : List Class}

theorem Unseen.setUp_prepare (n : Nat) (ks : List Class) :
    Unseen .idle m (do Eval.setUp n ks i args; return .inst i)
      (Eval.prepare (n + 1) i (construction ks args)) fun _ => True :=
  (setUp_forM (Nat.le_succ n) ks).bind fun _ _ hk _ => .pure hk.fits trivial

theorem Unseen.prepare_setUp (n : Nat) (ks : List Class) :
    Unseen .idle m (Eval.prepare n i (construction ks args))
      (do Eval.setUp (n + ks.length + 1) ks i args; return .inst i) fun _ => True :=
  (forM_setUp n ks).bind fun _ _ hk _ => .pure hk.fits trivial

/-- To call a class is to run the bodies of its lineage on a new instance. -/
theorem Eval.callRuns_cls (hks : m.heap.classes.lineage c = ks) :
    CallRuns m (.cls c) (ks.findSome? Class.init?) args
      fun n => construct n c (construction ks args) := by
  subst hks
  refine .of_unseen ((m.heap.classes.lineage c).length + 2) (m.heap.classes.arity_eq c)
    (fun n paren => ?_) fun n paren => ?_
  · rw [enter]
    exact .after rfl rfl ⟨Mask.fits_idle _, rfl, rfl⟩ (.get_left (.setUp_prepare n _))
  · rw [← Nat.add_assoc, enter]
    exact .after rfl rfl ⟨Mask.fits_idle _, rfl, rfl⟩ (.get_right (.prepare_setUp n _))

/-- To call an inherited initializer is to run the same bodies on its instance. -/
theorem Eval.callRuns_initializer (id : Nat) (hks : m.heap.classes.lineage c = ks) :
    CallRuns m (.initializer id c i) (ks.findSome? Class.init?) args
      fun n => prepare n i (construction ks args) := by
  subst hks
  refine .of_unseen ((m.heap.classes.lineage c).length + 2) (m.heap.classes.arity_eq c)
    (fun n paren => ?_) fun n paren => ?_
  · rw [enter]
    exact .get_left (.setUp_prepare n _)
  · rw [← Nat.add_assoc, enter]
    exact .get_right (.prepare_setUp n _)

end

/-! ### Initializers of instances that are there -/

/-- In the state `m`, a call of `k` with these arguments runs the bodies of the classes on the
instance `i` and answers it. -/
inductive Eval.InitRuns (m : Machine) (i : Nat) (ks : List Class) (args : List Value) :
    Callable → Prop where
  | inherited {id c : Nat}
      (h : CallRuns m (.initializer id c i) (ks.findSome? Class.init?) args fun n =>
        prepare n i (construction ks args)) : InitRuns m i ks args (.initializer id c i)
  | own {f f₀ : Closure} (hf : f.BoundIn m f₀ i) (hb : construction ks args = [⟨f₀, args⟩])
      (h : CallRuns m (.function f) (ks.findSome? Class.init?) args fun n => do
        let _ ← apply n f args
        return .inst i) : InitRuns m i ks args (.function f)

/-- An initializer answers what `this` is in its scope at the end. -/
theorem Eval.apply_of_isInit {n : Nat} {f : Closure} {args : List Value} {m m' : Machine}
    {v : Value} (hf : f.isInit = true) (h : apply n f args m = .ok v m') :
    v = (m'.heap.scopes.here? f.scope "this").getD .nil := by
  cases n with
  | zero =>
    rw [apply] at h
    cases h
  | succ n =>
    rw [apply] at h
    obtain ⟨s, m₁, -, h⟩ := of_bind_ok h
    obtain ⟨-, m₂, -, h⟩ := of_bind_ok h
    obtain ⟨flow, m₃, -, h⟩ := of_bind_ok h
    rw [if_pos hf, get_bind] at h
    cases h
    rfl

theorem Class.IsOf.isInit {k : Class} {decl : ClassDecl} {sup : Option Nat} {s : Nat}
    (h : k.IsOf decl sup s) {f : Closure} (hf : k.init? = some f) : f.isInit = true := by
  rw [h.marked initName f hf]
  have hdecl := h.init
  rw [hf] at hdecl
  exact List.find?_some hdecl.symm

section

variable {x : Logged Event Machine} {c i : Nat} {args : List Value} {ks : List Class}

/-- A call of an initializer that is bound to an instance runs its body and answers the instance. -/
theorem Eval.callRuns_function {f : Closure} (hx : Sound x)
    (hok : (Value.callable (.function f)).In x) (hargs : ∀ v ∈ args, v.In x)
    (hmark : f.isInit = true)
    (hthis : x.state.heap.scopes.here? f.scope "this" = some (.inst i)) (d : Nat) :
    CallRuns { x.state with depth := d } (.function f) (some f) args fun n => do
      let _ ← apply n f args
      return .inst i := by
  have hlt : f.scope < x.state.heap.scopes.next := by
    obtain ⟨g, body, σ, hat⟩ := hok
    exact hat.chain.lt
  have hanswer : ∀ {n d v m'}, f.arity = args.length →
      apply n f args { x.state with depth := d } = .ok v m' → v = .inst i := by
    intro n d v m' ha h
    -- the function is entered by a call, which is the last event of the log
    let y : Logged Event Machine := ⟨{ x.state with depth := d },
      .turn (.called (.function f) args { x.state with depth := d }) :: x.log⟩
    have hy : Sound y := AlignedHistory.event hx ⟨rfl, hok, hargs⟩
    have hl : Later x.state.heap.scopes x.log y.state.heap.scopes y.log := .note ..
    have herase := ((Trace.runErases n).apply f args).state y
    obtain ⟨L, hrun⟩ := Traced.exists_of_erase (herase.trans h)
    obtain ⟨hc, -⟩ := Carries.apply n hy (hok.mono hl) (fun v hv => (hargs v hv).mono hl)
      ⟨.call .., ha⟩ _ _ hrun
    rw [apply_of_isInit hmark h, (hc.this hlt).trans hthis]
    rfl
  refine .of_enter rfl fun ha paren r => ?_
  refine (finishes_succ (q := fun n => deeper (apply n f args)) ?_ ?_).trans (finishes_congr ?_)
  · rw [enter]
    rfl
  · intro n
    rw [enter]
  · intro n
    unfold deeper
    cases hr : apply n f args { x.state with depth := d + 1 } with
    | ok v m' =>
      obtain rfl := hanswer ha.symm hr
      rw [bind_of_ok hr]
      rfl
    | error e m' => rw [bind_of_error hr]

theorem Initializes.initRuns {k : Callable} (hx : Sound x) (h : Initializes x c i k)
    (hok : (Value.callable k).In x) (hargs : ∀ v ∈ args, v.In x)
    (hks : x.state.heap.classes.Lineage c ks) : Eval.InitRuns x.state i ks args k := by
  cases h with
  | inherited id => exact .inherited (Eval.callRuns_initializer id (hks.eq hx.toAlignedStore))
  | @method k f₀ f hk hf₀ hf =>
    obtain ⟨rest, rfl⟩ := List.head?_eq_some_iff.1 (hks.cells.symm.trans hk)
    have hmark : f₀.isInit = true := by
      obtain ⟨decl, sup, s, hb⟩ := hx.classed c k hk
      obtain ⟨-, k', hk', hof⟩ := hx.built c decl sup s hb
      obtain rfl := Option.some.inj (hk.symm.trans hk')
      exact hof.isInit hf₀
    have hcall := Eval.callRuns_function hx hok hargs (hf.marked.trans hmark) hf.this x.state.depth
    refine .own ⟨hf.decl, hf.parent, hf.this⟩ (construction_of_init hf₀ rest args) ?_
    refine { hcall with arity := ?_ }
    rw [List.findSome?_cons, hf₀]
    exact congrArg (·.params.length) hf.decl

end

/-- In the state `m`, the expression means what initializes the instance `i` as one of the class
`c`: the property `init` of an instance that has no field of this name, or `super.init`. -/
inductive Eval.MeansInit (m : Machine) (n : Nat) : Expr → Nat → Nat → Prop where
  | property {obj : Expr} {name : Token} {i : Nat} {inst : Instance} {m₀ : Machine}
      (hobj : eval n obj m = .ok (.inst i) m₀) (hi : m₀.heap.instances[i]? = some inst)
      (hown : inst.fields.get? name.lexeme = none) (hname : name.lexeme = initName) :
      MeansInit m n (.get obj name) inst.cls i
  | super {ref : Ref} {method : Token} {d c i : Nat} (hd : m.bindings[ref.id]? = some (d + 1))
      (hsuper : m.heap.scopes.getAt? m.scope (d + 1) ref.name.lexeme = some (.callable (.cls c)))
      (hthis : m.heap.scopes.getAt? m.scope d "this" = some (.inst i))
      (hname : method.lexeme = initName) : MeansInit m n (.super ref method) c i

section

variable {x : Logged Event Machine} {c i : Nat}

/-- The initializer of an instance can always be had. -/
theorem Carried.initializerOf (hx : Sound x) (c i : Nat) :
    ∃ k y, Eval.initializerOf c i x.state = .ok k y.state ∧ Carried x y ∧ Initializes y c i k ∧
      (Value.callable k).In y := by
  obtain ⟨k, m', h⟩ : ∃ k m', Eval.initializerOf c i x.state = .ok k m' := by
    rw [Eval.initializerOf, Eval.get_bind]
    cases x.state.heap.classes.cells[c]?.bind Class.init? with
    | some f => exact ⟨_, _, rfl⟩
    | none => exact ⟨_, _, rfl⟩
  have herase := (Trace.initializerOf_erases c i).state x
  obtain ⟨L, hrun⟩ := Traced.exists_of_erase (herase.trans h)
  obtain ⟨hc, hk⟩ := Carries.initializerOf hx c i _ _ hrun
  have hsafe := Trace.initializerOf_safe (W := fun _ _ => False) hx c i
  unfold Safe at hsafe
  rw [hrun] at hsafe
  exact ⟨k, _, h, hc, hk, hsafe.2.2⟩

theorem Eval.MeansInit.eval {g : Nat} {body : List Stmt} {σ : List Layer} {callee : Expr} {n : Nat}
    (hx : Sound x) (hhere : Here x g body (.expr callee) σ)
    (h : MeansInit x.state n callee c i) :
    ∃ k y, Eval.eval (n + 1) callee x.state = .ok (.callable k) y.state ∧ Carried x y ∧
      Initializes y c i k ∧ (Value.callable k).In y := by
  cases h with
  | @property obj name i inst m₀ hobj hi hown hname =>
    have herase := ((Trace.runErases n).eval obj).state x
    obtain ⟨L, hrun⟩ := Traced.exists_of_erase (herase.trans hobj)
    obtain ⟨hc, -⟩ := Carries.eval n hx (hhere.part (by simp [Expr.parts])) _ _ hrun
    obtain ⟨k, y, hk, hy, hinit, hok⟩ := Carried.initializerOf hc.sound inst.cls i
    refine ⟨k, y, ?_, hc.trans hy, hinit, hok⟩
    rw [Eval.eval, bind_of_ok hobj]
    show Eval.instanceProperty i name m₀ = _
    rw [hname] at hown
    rw [Eval.instanceProperty, Eval.get_bind, hi, Eval.demand, pure_bind]
    simp only [hown, hname, beq_self_eq_true, if_true]
    exact bind_of_ok hk
  | @super ref method d c i hd hsuper hthis hname =>
    obtain ⟨k, y, hk, hy, hinit, hok⟩ := Carried.initializerOf hx c i
    refine ⟨k, y, ?_, hy, hinit, hok⟩
    rw [Eval.eval, superMethod_eq hd hsuper hthis, methodFrom, if_pos (beq_iff_eq.2 hname)]
    exact bind_of_ok hk

end

/-! ### Numbers of arguments -/

/-- With as many arguments as the class takes, each of the bodies is given as many as it takes. -/
theorem arity_of_mem_construction {h : Heap} {L : List Event} {args : List Value} {b : Invocation}
    (hg : AlignedHistory h L) {c : Nat} {ks : List Class} (hks : h.classes.Lineage c ks)
    (ha : h.classes.arity c = args.length) (hb : b ∈ construction ks args) :
    b.method.arity = b.args.length := by
  rcases List.mem_append.1 hb with hb | hb
  · obtain ⟨f, hf, rfl⟩ := List.mem_map.1 hb
    rw [Option.mem_toList, ← hks.eq hg.toAlignedStore] at hf
    exact (Classes.arity_of_init hf).symm.trans ha
  · -- what sets fields has no parameters
    obtain ⟨f, hf, rfl⟩ := List.mem_map.1 hb
    obtain ⟨k, hk, hf⟩ := List.mem_filterMap.1 hf
    have hmem := (List.takeWhile_sublist _).subset (List.mem_reverse.1 hk)
    obtain ⟨c', hk'⟩ := hks.cell hmem
    have hparams := ((hg.classes c' k hk').fields f hf).2
    exact congrArg List.length hparams

/-! ### Sessions -/

theorem Setup.Reaches.aligned {s : Setup} {n : Nat} {ts : List Step} {B : List Event} {m : Machine}
    (h : s.Reaches n ts B m) : AlignedHistory m.heap B := by
  have hinv := s.inv n ts
  cases h with
  | during hB hm => exact hinv.aligned.snapshot hB hm
  | @after is y k i hy hB hi hm =>
    have hfinal : s.final n ts = y := by rw [Setup.final, hy]; rfl
    rw [hfinal] at hinv
    subst hB hm
    exact hinv.aligned

theorem Setup.initRuns {s : Setup} {n : Nat} {ts : List Step} {B : List Event} {m : Machine}
    {callee : Expr} {paren : Token} {es : List Expr} {j c i : Nat}
    (hB : (.reached (.expr (.call callee paren es)) m :: B) <:+ s.events n ts)
    (h : Eval.MeansInit m j callee c i) :
    ∃ k m₁, Eval.eval (j + 1) callee m = .ok (.callable k) m₁ ∧
      ∀ l args m₂ ks, Eval.evalAll l es [] m₁ = .ok args m₂ → m₂.heap.classes.Lineage c ks →
        Eval.InitRuns m₂ i ks args k := by
  have hinv := s.inv n ts
  have hx : Sound ⟨m, B⟩ := hinv.aligned.snapshot hB rfl
  obtain ⟨g, body, σ, hat⟩ := hinv.aligned.reached _ m B hB
  have hhere : Here ⟨m, B⟩ g body (.expr (.call callee paren es)) σ := hat
  obtain ⟨k, y, hk, hy, hinit, hok⟩ := h.eval hx (hhere.part (by simp [Expr.parts]))
  refine ⟨k, y.state, hk, fun l args m₂ ks hargs hks => ?_⟩
  -- the arguments are run between, which leaves the initializer what it is
  have herase := ((Trace.runErases l).evalAll es []).state y
  obtain ⟨L, hrun⟩ := Traced.exists_of_erase (herase.trans hargs)
  have hes : ∀ e ∈ es, Here y g body (.expr e) σ := fun e he =>
    (hhere.grew hy.grew).part (by simp [Expr.parts, he])
  obtain ⟨hz, hvs⟩ := Carries.evalAll l hy.sound hes _ _ hrun
  exact (hinit.carried hy.sound hz).initRuns hz.sound (hok.mono hz.grew.later) hvs hks

/-- What a call does that a session makes: an inherited initializer runs the bodies of the classes
on its instance, one that is bound to an instance its own body, and each answers the instance. If a
class or an inherited initializer has as many arguments as it takes, so has each of the bodies. -/
structure Eval.Entered (m : Machine) (k : Callable) (args : List Value) : Prop where
  inherited : ∀ {id c i ks}, k = .initializer id c i → m.heap.classes.Lineage c ks →
    InitRuns m i ks args k
  own : ∀ {f i}, k = .function f → f.isInit = true →
    m.heap.scopes.here? f.scope "this" = some (.inst i) →
    CallRuns m k (some f) args fun n => do
      let _ ← apply n f args
      return .inst i
  counted : ∀ {c ks}, (k = .cls c ∨ ∃ id i, k = .initializer id c i) →
    m.heap.classes.Lineage c ks → m.heap.arity k = args.length → ∀ b ∈ construction ks args,
    b.method.arity = b.args.length

theorem Setup.entered {s : Setup} {n : Nat} {ts : List Step} {B : List Event} {m : Machine}
    {k : Callable} {args : List Value} (hB : (.turn (.called k args m) :: B) <:+ s.events n ts)
    (d : Nat) : Eval.Entered { m with depth := d } k args := by
  have hinv := s.inv n ts
  have hx : Sound ⟨m, B⟩ := hinv.aligned.snapshot hB rfl
  obtain ⟨hok, hargs⟩ := hinv.aligned.called k args m B hB
  constructor
  · rintro id c i ks rfl hks
    exact .inherited (Eval.callRuns_initializer id (hks.eq hx.toAlignedStore))
  · rintro f i rfl hmark hthis
    exact Eval.callRuns_function (x := ⟨m, B⟩) hx hok hargs hmark hthis d
  · rintro c ks (rfl | ⟨id, i, rfl⟩) hks ha b hb
    · exact arity_of_mem_construction hx hks ha hb
    · exact arity_of_mem_construction hx hks ha hb

/-- When a body starts, the function has just been entered, and the parameters hold the arguments it
was entered with, each its own. -/
theorem Setup.body_supplied {s : Setup} {n : Nat} {ts : List Step} {B : List Event} {m : Machine}
    {d : FunctionDecl} (hB : (.reached (.body d) m :: B) <:+ s.events n ts) :
    ∃ f args m₀ B', f.decl = d ∧
      B = .made m.scope (.call d) :: .turn (.applied f args m₀) :: B' ∧
      d.params.map (fun p => m.heap.scopes.here? m.scope p.lexeme) = args.map some := by
  have hinv := s.inv n ts
  have hB' : B <:+ s.events n ts := (List.suffix_cons ..).trans hB
  obtain ⟨f, args, m₀, B', rfl, hlog, hheld⟩ := hinv.aligned.supplied _ m B hB
  refine ⟨f, args, m₀, B', rfl, hlog, ?_⟩
  have hcounted : f.decl.params.length = args.length := by
    refine (hinv.aligned.applied f args m₀ B' ?_).counted
    rw [hlog] at hB'
    exact (List.suffix_cons ..).trans hB'
  obtain ⟨path, g, program, σ, hstands⟩ := hinv.stands hB
  have hstarted := hinv.started hB' hstands.began
  have hnodup : (f.decl.params.map (·.lexeme)).Nodup := by
    cases hstands.placed with
    | inside hp => exact hp.params_nodup hstarted.nodup hstarted.accepted
  rw [List.map_congr_left hheld, map_givenTo hnodup hcounted]

/-- In every state of every session, to call a class with as many arguments as the nearest `init`
upwards has parameters, or with none if there is no `init`, runs the bodies of the class and those
above it in turn on a new instance, and with another number fails at once. `init` of an instance and
`super.init` can always be had, and a call of it with whatever the arguments come to runs the same
bodies on the instance that is there, as does every call of such an initializer.

In any state at all, to call anything with another number of arguments than it takes fails and
leaves the state as it is. A function is entered only when it is called, or when it initializes an
instance, and with as many arguments as it has parameters; and whenever a body starts, the function
has been entered just before and its parameters hold the arguments, each its own. -/
theorem construction_runs_bodies (s : Setup) (n : Nat) (ts : List Step) :
    Traced.erase (s.logged n ts) = s.run n ts ∧
      (∀ B m, s.Reaches n ts B m → ∀ c ks, m.heap.classes.Lineage c ks → ∀ args,
        Eval.CallRuns m (.cls c) (ks.findSome? Class.init?) args fun j =>
          Eval.construct j c (construction ks args)) ∧
      (∀ B m callee paren es,
        (.reached (.expr (.call callee paren es)) m :: B) <:+ s.events n ts →
        ∀ j c i, Eval.MeansInit m j callee c i →
          ∃ k m₁, Eval.eval (j + 1) callee m = .ok (.callable k) m₁ ∧
            ∀ l args m₂ ks, Eval.evalAll l es [] m₁ = .ok args m₂ →
              m₂.heap.classes.Lineage c ks → Eval.InitRuns m₂ i ks args k) ∧
      (∀ B m k args, (.turn (.called k args m) :: B) <:+ s.events n ts →
        ∀ d, Eval.Entered { m with depth := d } k args) ∧
      (∀ m k args, args.length ≠ m.heap.arity k → ∀ j paren,
        Eval.call (j + 1) k args paren m = .error (.fault (.ofToken paren
          (if m.limit ≤ m.depth then .stackOverflow
            else .wrongArity (m.heap.arity k) args.length))) m) ∧
      (∀ B m f args, (.turn (.applied f args m) :: B) <:+ s.events n ts →
        f.decl.params.length = args.length ∧ Prompts f args B) ∧
      ∀ B m d, (.reached (.body d) m :: B) <:+ s.events n ts →
        ∃ f args m₀ B', f.decl = d ∧
          B = .made m.scope (.call d) :: .turn (.applied f args m₀) :: B' ∧
          d.params.map (fun p => m.heap.scopes.here? m.scope p.lexeme) = args.map some := by
  refine ⟨s.erase_logged n ts, ?_, ?_, ?_, ?_, ?_, ?_⟩
  · intro B m hm c ks hks args
    exact Eval.callRuns_cls (hks.eq hm.aligned.toAlignedStore)
  · intro B m callee paren es hB j c i h
    exact Setup.initRuns hB h
  · intro B m k args hB d
    exact Setup.entered hB d
  · intro m k args ha j paren
    rw [Eval.call_eq, if_neg ha]
    split
    · rfl
    · rfl
  · intro B m f args hB
    have he := (s.inv n ts).aligned.applied f args m B hB
    exact ⟨he.counted, he.prompted⟩
  · intro B m d hB
    exact Setup.body_supplied hB

/-- A class without `init` is called that sets fields and has a superclass with `init`. -/
def Event.callsChain : Event → Bool
  | .turn (.called (.cls 1) args m) =>
    match m.heap.classes.cells[1]?, m.heap.classes.cells[0]? with
    | some k, some above => k.superclass == some 0 && above.superclass.isNone &&
        k.init?.isNone && k.fields.isSome && above.init?.isSome && args.length == 1
    | _, _ => false
  | _ => false

/-- The body of a function with one parameter starts. -/
def Event.startsUnary : Event → Bool
  | .reached (.body d) _ => d.params.length == 1
  | _ => false

/-- The `init` of the superclass is run first, and then what sets the field of the class itself.
When the body of the former starts, its parameter holds the one argument. -/
theorem construction_runs_bodies_derived :
    (∃ B m ks init fields args,
      Setup.Reaches { root := "/" } 40 (.newInterpreter :: derivedSteps) B m ∧
      m.heap.classes.Lineage 1 ks ∧ ks.length = 2 ∧ args.length = 1 ∧
      construction ks args = [⟨init, args⟩, ⟨fields, []⟩] ∧
      Eval.CallRuns m (.cls 1) (some init) args fun j =>
        Eval.construct j 1 [⟨init, args⟩, ⟨fields, []⟩]) ∧
    ∃ B m d p v, (.reached (.body d) m :: B) <:+
        Setup.events { root := "/" } 40 (.newInterpreter :: derivedSteps) ∧
      d.params = [p] ∧ m.heap.scopes.here? m.scope p.lexeme = some v := by
  constructor
  · have hcalls : (Setup.events { root := "/" } 40 (.newInterpreter :: derivedSteps)).any
        Event.callsChain = true := by decide +kernel
    obtain ⟨e, he, hp⟩ := List.any_eq_true.1 hcalls
    obtain ⟨new, B, hlog⟩ := List.append_of_mem he
    unfold Event.callsChain at hp
    split at hp
    · next args m =>
      have hreaches : Setup.Reaches { root := "/" } 40 (.newInterpreter :: derivedSteps) B m :=
        .during ⟨new, hlog.symm⟩ rfl
      split at hp
      · next k above hk habove =>
        simp only [Bool.and_eq_true, beq_iff_eq, Option.isNone_iff_eq_none,
          Option.isSome_iff_exists] at hp
        obtain ⟨⟨⟨⟨⟨hsup, htop⟩, hnone⟩, fields, hfields⟩, init, hinit⟩, hargs⟩ := hp
        have hks : m.heap.classes.Lineage 1 [k, above] := .under hk hsup (.top habove htop)
        have hbodies : construction [k, above] args = [⟨init, args⟩, ⟨fields, []⟩] := by
          rw [construction_of_none hnone, construction_of_init hinit, hfields]
          rfl
        refine ⟨B, m, _, init, fields, args, hreaches, hks, rfl, hargs, hbodies, ?_⟩
        have hruns := (construction_runs_bodies { root := "/" } 40
          (.newInterpreter :: derivedSteps)).2.1 B m hreaches 1 _ hks args
        rw [hbodies, List.findSome?_cons, hnone, List.findSome?_cons, hinit] at hruns
        exact hruns
      · cases hp
    · cases hp
  · have hstarts : (Setup.events { root := "/" } 40 (.newInterpreter :: derivedSteps)).any
        Event.startsUnary = true := by decide +kernel
    obtain ⟨e, he, hp⟩ := List.any_eq_true.1 hstarts
    obtain ⟨new, B, hlog⟩ := List.append_of_mem he
    unfold Event.startsUnary at hp
    split at hp
    · next d m =>
      have hB : (.reached (.body d) m :: B) <:+
          Setup.events { root := "/" } 40 (.newInterpreter :: derivedSteps) := ⟨new, hlog.symm⟩
      obtain ⟨f, args, m₀, B', -, -, hheld⟩ := (construction_runs_bodies { root := "/" } 40
        (.newInterpreter :: derivedSteps)).2.2.2.2.2.2 B m d hB
      obtain ⟨p, hparams⟩ := List.length_eq_one_iff.1 (beq_iff_eq.1 hp)
      rw [hparams, List.map_singleton] at hheld
      obtain ⟨v, vs, -, hv, -⟩ := List.map_eq_cons_iff.1 hheld.symm
      exact ⟨B, m, d, p, v, hB, hparams, hv.symm⟩
    · cases hp

end Treewalk
