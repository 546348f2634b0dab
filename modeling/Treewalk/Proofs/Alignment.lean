import Treewalk.Proofs.Sound

/-!
# Runs stay where the text says

`Trace.run_safe`: a run of a program keeps the store aligned. With it, wherever the run comes to a
piece of code, the chain of its scope is made of the scopes that stand around that code in the text
(`AlignedHistory.reached`): blocks, calls, `this` and `super` open at run time what they open in the
text, and closures come back to the scopes they were made in, whoever calls them and whenever. And
functions are entered with as many arguments as they have parameters (`AlignedHistory.applied`).

The proof goes over the functions of a run by induction on their steps (`RunSafe`), one lemma each.
-/

namespace Treewalk

/-- Of several entries with one key, the last one counts. -/
theorem Table.get?_ofList {κ β : Type} [DecidableEq κ] (entries : List (κ × β)) (k : κ) :
    (Table.ofList entries).get? k = (entries.reverse.find? (·.1 == k)).map (·.2) := by
  have : ∀ (entries : List (κ × β)) (t : Table κ β),
      (entries.foldl (fun t e => t.insert e.1 e.2) t).get? k =
        ((entries.reverse.find? (·.1 == k)).map (·.2)).or (t.get? k) := by
    intro entries
    induction entries with
    | nil => simp
    | cons e entries ih =>
      intro t
      rw [List.foldl_cons, ih, Table.get?_insert, List.reverse_cons, List.find?_append]
      cases entries.reverse.find? (·.1 == k) with
      | some e' => simp
      | none => by_cases hk : e.1 = k <;> simp [hk]
  rw [Table.ofList, this]
  simp

/-- If the statement ends with a value to return then the value is aligned. -/
def Flow.In (flow : Flow) (x : Logged Event Machine) : Prop :=
  match flow with
  | .ret v => v.In x
  | _ => True

theorem Flow.In.note {flow : Flow} {x : Logged Event Machine} (h : flow.In x) (e : Event) :
    flow.In { x with log := e :: x.log } := by
  cases flow with
  | ret v => exact Value.Aligned.mono h (.note ..)
  | normal | brk | cont => trivial

/-- The members of a class, each with its name, its declaration, its scope and its mark. -/
abbrev Closure.entry (f : String × Closure) : String × FunctionDecl × Nat × Bool :=
  (f.1, f.2.decl, f.2.scope, f.2.isInit)

/-- Methods are made of their declarations in turn. -/
theorem Eval.newMethods_eq (s : Nat) (ofInstances : Bool) (decls : List FunctionDecl)
    (m : Machine) : ∃ fs id, Eval.newMethods s ofInstances decls m = .ok fs { m with heap.nextId := id } ∧
      fs.map Closure.entry =
        decls.map fun decl => (decl.name.lexeme, decl, s, ofInstances && decl.isInit) := by
  induction decls generalizing m with
  | nil => exact ⟨[], m.heap.nextId, rfl, rfl⟩
  | cons decl decls ih =>
    obtain ⟨fs, id, hrun, hfs⟩ := ih { m with heap.nextId := m.heap.nextId + 1 }
    refine ⟨(decl.name.lexeme, ⟨m.heap.nextId, decl, s, ofInstances && decl.isInit⟩) :: fs, id, ?_,
      by simp [hfs]⟩
    simp only [Eval.newMethods, Eval.newClosure, Eval.freshId, EStateM.bind, bind, pure,
      EStateM.pure]
    rw [hrun]

theorem Eval.of_mem_newMethods {s : Nat} {decls : List FunctionDecl} {fs : List (String × Closure)}
    {b : Bool} (h : fs.map Closure.entry =
      decls.map fun decl => (decl.name.lexeme, decl, s, b && decl.isInit)) {x : String}
    {f : Closure} (hf : (Table.ofList fs).get? x = some f) :
    f.decl ∈ decls ∧ f.scope = s ∧ f.isInit = (b && f.decl.isInit) := by
  rw [Table.get?_ofList] at hf
  obtain ⟨e, he, rfl⟩ := Option.map_eq_some_iff.1 hf
  have hmem : Closure.entry e ∈ fs.map Closure.entry :=
    List.mem_map_of_mem (List.mem_reverse.1 (List.mem_of_find?_eq_some he))
  rw [h] at hmem
  obtain ⟨decl, hd, heq⟩ := List.mem_map.1 hmem
  simp only [Prod.mk.injEq] at heq
  obtain ⟨-, rfl, hs, hb⟩ := heq
  exact ⟨hd, hs.symm, hb.symm⟩

/-- What a class is made of, and what else the making of a class changes. -/
theorem Eval.buildClass_eq (decl : ClassDecl) (superclass : Option Nat) (s : Nat) (m : Machine) :
    ∃ k id, Eval.buildClass decl superclass s m = .ok m.heap.classes.next
        { m with heap.nextId := id, heap.classes := m.heap.classes.add k } ∧
      k.IsOf decl superclass s ∧ k.statics = {} ∧
      (∀ x f, k.methods.get? x = some f → f.decl ∈ decl.methods) ∧
      ∀ x f, k.staticMethods.get? x = some f → f.decl ∈ decl.staticMethods ∧ f.scope = s := by
  obtain ⟨fs, id, hrun, hfs⟩ := Eval.newMethods_eq s true decl.methods m
  obtain ⟨gs, id', hrun', hgs⟩ :=
    Eval.newMethods_eq s false decl.staticMethods { m with heap.nextId := id }
  have hmethods : ∀ x, ((Table.ofList fs).get? x).map (·.decl) =
      decl.methods.reverse.find? (·.name.lexeme == x) := by
    intro x
    have := congrArg (fun l => (l.reverse.find? (·.1 == x)).map (·.2.1)) hfs
    simp only [← List.map_reverse, List.find?_map, Option.map_map] at this
    rw [Table.get?_ofList, Option.map_map]
    exact this.trans (Option.map_id' ..)
  have hmarked : ∀ x f, (Table.ofList fs).get? x = some f → f.isInit = f.decl.isInit := by
    intro x f hf
    rw [(of_mem_newMethods hfs hf).2.2, Bool.true_and]
  have hstatic : ∀ x f, (Table.ofList gs).get? x = some f →
      f.decl ∈ decl.staticMethods ∧ f.scope = s := by
    intro x f hf
    exact ⟨(of_mem_newMethods hgs hf).1, (of_mem_newMethods hgs hf).2.1⟩
  cases hfields : decl.fields with
  | none =>
    refine ⟨⟨decl.name.lexeme, superclass, .ofList fs, none, .ofList gs, {}⟩, id', ?_,
      ⟨rfl, hmethods, hfields.symm, ?_, hmarked⟩, rfl,
      fun x f hf => (of_mem_newMethods hfs hf).1, hstatic⟩
    · simp only [Eval.buildClass, bind, EStateM.bind, hrun, hrun', hfields, pure, EStateM.pure,
        Eval.newClass]
    · rintro f (⟨x, hf⟩ | hf)
      · exact (of_mem_newMethods hfs hf).2.1
      · cases hf
  | some fd =>
    refine ⟨⟨decl.name.lexeme, superclass, .ofList fs, some ⟨id', fd, s, false⟩, .ofList gs, {}⟩,
      id' + 1, ?_, ⟨rfl, hmethods, hfields.symm, ?_, hmarked⟩, rfl,
      fun x f hf => (of_mem_newMethods hfs hf).1, hstatic⟩
    · simp only [Eval.buildClass, bind, EStateM.bind, hrun, hrun', hfields, pure, EStateM.pure,
        Eval.newClass, Eval.newClosure, Eval.freshId, Functor.map, EStateM.map]
    · rintro f (⟨x, hf⟩ | hf)
      · exact (of_mem_newMethods hfs hf).2.1
      · obtain rfl := Option.some.inj hf
        rfl

/-- The nearest initializer takes as many arguments as the class. -/
theorem Classes.arity_of_init {cs : Classes} {c : Nat} {f : Closure}
    (h : (cs.lineage c).findSome? Class.init? = some f) : cs.arity c = f.arity := by
  have h : cs.method? c initName = some f := h
  rw [Classes.arity, h]

/-! ### What calls enter -/

/-- The last event is that a call of `c` has opened, with as many arguments as `c` takes. -/
structure Opened (c : Callable) (args : List Value) (x : Logged Event Machine) : Prop where
  called : ∃ B, x.log = .turn (.called c args x.state) :: B
  counted : x.state.heap.arity c = args.length

/-- The nearest `init` of the classes, with `this` bound to an instance next, is entered with these
arguments. -/
def EntersInit (cs : List Class) (args : List Value) (L : List Event) : Prop :=
  ∀ f₀ f, cs.findSome? Class.init? = some f₀ → f.decl = f₀.decl →
    Entering f args (.made f.scope (.this f.decl) :: L)

theorem EntersInit.above {k : Class} {cs : List Class} {args : List Value} {L : List Event}
    (h : EntersInit (k :: cs) args L) (hk : k.init? = none) : EntersInit cs args L :=
  fun f₀ f hf => h f₀ f (by rwa [List.findSome?_cons, hk])

theorem Opened.function {x : Logged Event Machine} {f : Closure} {args : List Value}
    (h : Opened (.function f) args x) : Entering f args x.log := by
  obtain ⟨B, hB⟩ := h.called
  exact ⟨hB ▸ .call args x.state B, h.counted⟩

theorem Opened.entersInit {x : Logged Event Machine} {k : Callable} {c : Nat} {args : List Value}
    (h : Opened k args x) (hk : k = .cls c ∨ ∃ id i, k = .initializer id c i) :
    EntersInit (x.state.heap.classes.lineage c) args x.log := by
  obtain ⟨B, hB⟩ := h.called
  intro f₀ f hf hd
  refine ⟨hB ▸ .init args x.state B hk hf hd, ?_⟩
  have harity : x.state.heap.classes.arity c = args.length := by
    rcases hk with rfl | ⟨id, i, rfl⟩ <;> exact h.counted
  rw [Closure.arity, hd]
  exact (Classes.arity_of_init hf).symm.trans harity

/-- What sets fields is entered with no arguments, of which it takes none. -/
theorem Entering.fields {f : Closure} (h : f.decl.params = []) (L : List Event) :
    Entering f [] (.made f.scope (.this f.decl) :: L) :=
  ⟨.fields L, congrArg List.length h⟩

namespace Trace

open Traced

variable {W : Vars} {x : Logged Event Machine}

/-! ### Properties -/

theorem bindThis_safe (hx : Sound x) {f : Closure} (hf : f.MethodIn x) (inst : Nat) :
    Safe W x (bindThis f inst) fun f' y =>
      f'.decl = f.decl ∧ (Value.callable (.function f')).In y ∧
        y.log = .made f'.scope (.this f'.decl) :: x.log := by
  obtain ⟨g, body, σ, hb, hp, hc⟩ := hf
  refine Safe.newScope_bind hx _ _ fun s y hg hy hs hlog hchain => ?_
  refine (Safe.define (v := .inst inst)
    (Q := fun _ z => (z.state.heap.scopes.here? s "this").isSome ∧ z.log = y.log) hy (.inr rfl)
    trivial (fun _ => ⟨fun _ => ⟨inst, rfl⟩, fun h => by simp at h⟩)
    ⟨Scopes.isSome_here?_define_self hs, rfl⟩).bind fun _ z hg' hz hthis => ?_
  refine (Safe.newClosure hz _ _ _).imp fun f' w hg'' _ hf' => ?_
  obtain ⟨hdecl, hscope, -, hlog'⟩ := hf'
  have hgrown := (hg.later.trans hg'.later).trans hg''.later
  have hchain := (((hchain { origin := .this f.decl } rfl rfl hc).mono hg'.later).define
    hthis.1).mono hg''.later
  refine ⟨hdecl, ⟨g, body, .this f.decl :: σ, ?_⟩, ?_⟩
  · exact ⟨hb.imp fun _ => hgrown.event, hdecl ▸ hp, hscope ▸ hchain⟩
  · rw [hlog', hthis.2, hlog, hdecl, hscope]

theorem initializerOf_safe (hx : Sound x) (c inst : Nat) :
    Safe W x (initializerOf c inst) fun f y => (Value.callable f).In y := by
  refine Safe.get ?_
  cases h : x.state.heap.classes.cells[c]?.bind Class.init? with
  | some f =>
    obtain ⟨k, hk, hf⟩ := Option.bind_eq_some_iff.1 h
    exact (bindThis_safe hx ((hx.classes c k hk).methods _ f hf) inst).bind fun f' y _ hy hf' =>
      .pure hy hf'.2.1
  | none => exact (Safe.freshId hx).bind fun _ y _ hy _ => .pure hy trivial

theorem instanceProperty_safe (hx : Sound x) (i : Nat) (name : Token) :
    Safe W x (instanceProperty i name) fun v y => v.In y := by
  refine Safe.get ((Safe.demand (Q := fun inst y => y = x ∧ x.state.heap.instances[i]? = some inst)
    hx _ _ fun inst h => ⟨rfl, h⟩).bind fun inst y _ _ h => ?_)
  obtain ⟨rfl, hi⟩ := h
  cases hv : inst.fields.get? name.lexeme with
  | some v => exact .pure hx (hx.fields i inst _ v hi hv)
  | none =>
    dsimp only
    split
    · exact (initializerOf_safe hx _ _).bind fun f z _ hz hf => .pure hz hf
    · refine (Safe.demand (Q := fun f y' => y' = y ∧ f.MethodIn y) hx _ _
        fun f hf => ⟨rfl, hx.method hf⟩).bind fun f z _ _ h => ?_
      obtain ⟨rfl, hf⟩ := h
      exact (bindThis_safe hx hf i).bind fun f' w _ hw hf' => .pure hw hf'.2.1

theorem property_safe (hx : Sound x) (v : Value) (name : Token) :
    Safe W x (property v name) fun w y => w.In y := by
  match v with
  | .inst i => exact instanceProperty_safe hx i name
  | .callable (.cls c) =>
    exact Safe.lift_bind (Safe.get (Safe.demand hx _ _ fun w hw => hx.static hw))
  | .callable (.native _) | .callable (.function _) | .callable (.initializer ..) | .nil | .bool _
  | .num _ | .string _ => exact Safe.fault hx name _

section

variable {g : Nat} {body : List Stmt} {σ : List Layer}

theorem lookUp_safe (hx : Sound x) {u : Use} {ref : Ref} (h : Here x g body (.use u ref) σ) :
    Safe W x (lookUp u ref) fun v y => v.In y :=
  Safe.reach_bind hx h fun _ _ hy _ _ => (Safe.lookUp hy ref).imp fun _ _ _ _ hv => hv.2.1

theorem assign_safe (hx : Sound x) {u : Use} {ref : Ref} (h : Here x g body (.use u ref) σ)
    (hu : u = .assign ∨ u = .compoundWrite) {v : Value} (hv : v.In x) :
    Safe W x (assign u ref v) fun _ _ => True := by
  have hname : ref.name.IsName := by
    have htidy := h.placed.tidy (hx.tidy g body h.began)
    rcases hu with rfl | rfl <;> exact htidy
  refine Safe.reach_bind hx h fun y hg hy hstate _ => ?_
  refine Safe.assign hy ref (hv.mono hg.later) hname fun s hs => .inr ?_
  rw [hstate] at hs
  rcases hu with rfl | rfl <;> exact ⟨hs, rfl⟩

theorem superMethod_safe (hx : Sound x) {ref : Ref} (h : Here x g body (.use .super ref) σ)
    (method : Token) : Safe W x (superMethod ref method) fun v y => v.In y := by
  refine Safe.reach_bind hx h fun y _ hy _ _ => Safe.get ?_
  match y.state.bindings[ref.id]? with
  | none | some 0 => exact Safe.fault hy _ _
  | some (d + 1) =>
    refine (Safe.demand (Q := fun _ z => z = y) hy _ _ fun _ _ => rfl).bind fun super z _ _ hz => ?_
    subst hz
    refine (Safe.demand (Q := fun _ w => w = z) hy _ _ fun _ _ => rfl).bind fun this w _ _ hw => ?_
    subst hw
    split
    · next c i =>
      split
      · exact (initializerOf_safe hy c i).bind fun f v _ hv hf => .pure hv hf
      · refine (Safe.demand (Q := fun f v => v = w ∧ f.MethodIn w) hy _ _
          fun f hf => ⟨rfl, hy.method hf⟩).bind fun f v _ _ h => ?_
        obtain ⟨rfl, hf⟩ := h
        exact (bindThis_safe hy hf i).bind fun f' v _ hv hf' => .pure hv hf'.2.1
    · exact Safe.fault hy _ _

/-! ### Classes -/

/-- The last event of the log is that the run comes to the name of the superclass, and the name
means the class `c`. -/
def Named (L : List Event) (superclass : Option Ref) (c : Nat) : Prop :=
  ∃ ref m B, superclass = some ref ∧ L = .reached (.use .superclass ref) m :: B ∧
    Eval.lookUp ref m = .ok (.callable (.cls c)) m

theorem superclassOf_safe (hx : Sound x) {superclass : Option Ref}
    (h : ∀ ref ∈ superclass, Here x g body (.use .superclass ref) σ) :
    Safe W x (superclassOf superclass) fun c y =>
      c.isSome = superclass.isSome ∧ ∀ c' ∈ c, Named y.log superclass c' ∧ Built y.log c' := by
  cases superclass with
  | none => exact .pure hx ⟨rfl, by simp⟩
  | some ref =>
    have hlook : Safe W x (lookUp .superclass ref) fun v y =>
        (y.log = .reached (.use .superclass ref) x.state :: x.log ∧
          Eval.lookUp ref x.state = .ok v x.state) ∧ v.In y :=
      Safe.reach_bind hx (h ref rfl) fun y _ hy hstate hlog =>
        (Safe.lookUp hy ref).imp fun v z _ _ hz => by
          obtain ⟨rfl, hok, hv⟩ := hz
          exact ⟨⟨hlog, hstate ▸ hv⟩, hok⟩
    refine hlook.bind fun v y _ hy hv => ?_
    split
    · next c =>
      refine .pure hy ⟨rfl, fun c' hc' => ?_⟩
      obtain rfl : c = c' := by simpa using hc'
      exact ⟨⟨ref, x.state, x.log, rfl, hv.1⟩, hv.2⟩
    · exact Safe.fault hy _ _

/-- The scope of the members of a class is the one around them in the text. -/
theorem classScope_safe (hx : Sound x) (decl : ClassDecl) {superclass : Option Nat}
    (hs : superclass.isSome = decl.superclass.isSome)
    (hnamed : ∀ c ∈ superclass, Named x.log decl.superclass c ∧ Built x.log c)
    (hc : Chain x.state.heap.scopes x.log g x.state.scope (Layer.define decl.name.lexeme σ)) :
    Safe W x (classScope decl superclass) fun s y =>
      Chain y.state.heap.scopes y.log g s (decl.around σ) ∧
        ∀ c ∈ superclass, Built y.log c ∧ MadeFor y.log s decl c := by
  refine Safe.get ?_
  cases superclass with
  | none =>
    refine .pure hx ⟨?_, by simp⟩
    simpa [ClassDecl.around, ← hs] using hc
  | some c =>
    obtain ⟨⟨ref, m, B, href, hlog, hlook⟩, hbuilt⟩ := hnamed c rfl
    refine Safe.newScope_bind hx _ _ fun s y hg hy hlt hmade hchain => ?_
    have hlog' : .made s (.super decl) :: .reached (.use .superclass ref) m :: B = y.log := by
      rw [hmade, hlog]
    have hfor : MadeFor y.log s decl c := ⟨ref, m, B, href, hlog' ▸ List.suffix_rfl, hlook⟩
    have hbuilt := hbuilt.mono hg.later.log
    refine (Safe.define (v := .callable (.cls c))
      (Q := fun _ z => (z.state.heap.scopes.here? s "super").isSome) hy (.inr rfl) hbuilt
      (fun _ => ⟨fun h => by simp at h, fun _ => ⟨decl, c, rfl, hfor⟩⟩)
      (Scopes.isSome_here?_define_self hlt)).bind fun _ z hg hz hsuper => .pure hz ⟨?_, ?_⟩
    · have hchain := ((hchain { origin := .super decl } rfl rfl hc).mono hg.later).define hsuper
      simpa [ClassDecl.around, ← hs, Layer.define] using hchain
    · intro c' hc'
      obtain rfl : c = c' := by simpa using hc'
      exact ⟨hbuilt.mono hg.later.log, hfor.mono hg.later.log⟩

/-- The class of a declaration has its methods in the scope around them. -/
theorem buildClass_safe (hx : Sound x) {decl : ClassDecl} {s : Nat} {superclass : Option Nat}
    (hb : Began x.log g body) (hp : Placed body (.stmt (.cls decl)) σ)
    (hc : Chain x.state.heap.scopes x.log g s (decl.around σ))
    (hs : superclass.isSome = decl.superclass.isSome)
    (habove : ∀ c ∈ superclass, Built x.log c ∧ MadeFor x.log s decl c) :
    Safe W x (buildClass decl superclass s) fun c y => (Value.callable (.cls c)).In y := by
  obtain ⟨k, id, hrun, hof, hstatics, hms, hss⟩ := Eval.buildClass_eq decl superclass s x.state
  have hmethod : ∀ {f : Closure}, f.decl ∈ decl.ofInstances → f.scope = s → f.MethodIn x :=
    fun hf hfs => ⟨g, body, decl.around σ, hb, hp.method hf, hfs ▸ hc⟩
  have hparams : ∀ f ∈ decl.fields, f.params = [] := fun f hf =>
    ((ClassDecl.tidy_iff.1 (hp.tidy (hx.tidy g body hb))).2.2.2.1 f hf).2
  have hok : k.Aligned x.state.heap.scopes x.log := by
    refine ⟨fun name f hf => ?_, fun f hf => ?_, fun name f hf => ?_, fun name v hv => ?_⟩
    · exact hmethod (List.mem_append_left _ (hms name f hf)) (hof.scope f (.inl ⟨name, hf⟩))
    · have hd : f.decl ∈ decl.fields := by simp [← hof.fields, hf]
      exact ⟨hmethod (List.mem_append_right _ (Option.mem_toList.2 hd)) (hof.scope f (.inr hf)),
        hparams _ hd⟩
    · obtain ⟨hd, hfs⟩ := hss name f hf
      exact ⟨g, body, decl.around σ, hb, hp.staticMethod hd, hfs ▸ hc⟩
    · simp [hstatics, EmptyCollection.emptyCollection] at hv
  have hlt : ∀ c ∈ superclass, c < x.state.heap.classes.next := fun c hc => by
    obtain ⟨d, sup, t, hbuilt⟩ := (habove c hc).1
    obtain ⟨-, k', hk', -⟩ := hx.built c d sup t hbuilt
    exact (Array.getElem?_eq_some_iff.1 hk').1
  have haligned := AlignedHistory.newClass hx hok hof ⟨⟨g, body, σ, hb, hp, hc⟩, hs, fun c hc =>
    ⟨hlt c hc, habove c hc⟩⟩
  simp only [Safe, buildClass, Traced.watch, hrun]
  exact ⟨⟨.note .., rfl, rfl, rfl, ⟨[_], rfl, by simp [Event.IsOf, Turn.machine?]⟩,
    fun _ _ _ h => absurd rfl h⟩, haligned.congr rfl rfl rfl, decl, superclass, s,
    List.mem_cons_self ..⟩

end

/-- A statement that ends normally has declared the names `xs` in its scope. -/
def Ends (g : Nat) (σ : List Layer) (xs : List String) (flow : Flow)
    (y : Logged Event Machine) : Prop :=
  flow.In y ∧ (flow = .normal →
    Chain y.state.heap.scopes y.log g y.state.scope (Layer.defineAll xs σ) ∧
      ∀ a ∈ xs, (y.state.heap.scopes.here? y.state.scope a).isSome)

theorem Ends.note {g : Nat} {σ : List Layer} {xs : List String} {flow : Flow}
    {y : Logged Event Machine} (h : Ends g σ xs flow y) (e : Event) :
    Ends g σ xs flow { y with log := e :: y.log } :=
  ⟨h.1.note e, fun hn => ⟨(h.2 hn).1.mono (.note ..), (h.2 hn).2⟩⟩

/-! ### Runs -/

/-- Opens the scope of a call. -/
def openCall (f : Closure) (args : List Value) : Trace Nat := do
  note fun m => .turn (.applied f args m)
  let s ← newScope (.call f.decl) f.scope
  lift (Eval.defineAll s f.decl.params args)
  return s

theorem openCall_bind {α : Type} (f : Closure) (args : List Value) (rest : Nat → Trace α) :
    openCall f args >>= rest = (do
      note fun m => .turn (.applied f args m)
      let s ← newScope (.call f.decl) f.scope
      lift (Eval.defineAll s f.decl.params args)
      rest s) := by
  simp only [openCall, bind_assoc, pure_bind]

/-- The scope that a call opens is the one of the body, and the parameters hold the arguments. -/
theorem openCall_safe {g : Nat} {body : List Stmt} {σ : List Layer} {f : Closure}
    {args : List Value} (hx : Sound x)
    (hat : At x.state.heap.scopes x.log f.scope g body (.function f.decl) σ)
    (hargs : ∀ v ∈ args, v.In x) (he : Entering f args x.log) :
    Safe W x (openCall f args) fun s y => y.state.heap.scopes.parent? s = some f.scope ∧
      At y.state.heap.scopes y.log s g body (.body f.decl) (.call f.decl :: σ) ∧
      (Code.body f.decl).Supplied { y.state with scope := s } y.log := by
  have hparams := (FunctionDecl.tidy_iff.1 (hat.placed.tidy (hx.tidy g body hat.began))).1
  refine (Safe.turn (k := .applied f args) (Q := fun _ y =>
    y.log = .turn (.applied f args x.state) :: x.log) hx (by simp [Turn.machine?]) ⟨rfl, he⟩
    rfl).bind fun _ x₁ hg₁ hx₁ hlog₁ => ?_
  have hat := hat.mono hg₁.later
  refine (Safe.newScope hx₁ _ _).ran.follow fun s y hg hy h => ?_
  obtain ⟨⟨hs, hlt, hlog, hchild⟩, hrun⟩ := h
  have hparent : y.state.heap.scopes.parent? s = some f.scope := by
    cases hrun
    show (x₁.state.heap.scopes.addChild f.scope).parent? _ = _
    rw [Scopes.parent?_addChild, if_pos rfl]
  refine ⟨fun t _ => t = s, ?_, fun t _ ht he => by omega⟩
  refine (Safe.defineAll s f.decl.params args hy (fun _ => rfl) hparams
    (fun v hv => (hargs v hv).mono (hg₁.later.trans hg.later)) hlt he.counted).bind
    fun _ z hg' hz hheld => .pure hz ?_
  obtain ⟨hlog', hheld⟩ := hheld
  have hgiven : ∀ p ∈ f.decl.params,
      (givenTo p.lexeme f.decl.params args).isSome ∧
        z.state.heap.scopes.here? s p.lexeme = givenTo p.lexeme f.decl.params args := fun p hp => by
    have hsome := isSome_givenTo hp he.counted
    exact ⟨hsome, (hheld _).trans (Option.or_eq_left_of_isSome hsome)⟩
  have hchain : Chain z.state.heap.scopes z.log g s (.call f.decl :: σ) :=
    ((hchild { origin := .call f.decl } rfl rfl hat.chain).mono hg'.later).renamed rfl
      fun a ha => by
        obtain ⟨t, ht, rfl⟩ := List.mem_map.1 ha
        exact (hgiven t ht).2 ▸ (hgiven t ht).1
  refine ⟨(hg'.later.parent s hlt).trans hparent, ⟨hat.began.imp fun _ =>
    (hg.later.trans hg'.later).event, hat.placed.inside, hchain⟩, f, args, x.state, x.log, rfl, ?_,
    fun p hp => (hgiven p hp).2⟩
  rw [hlog', hlog, hlog₁]

/-- With `n` steps, runs keep the store aligned. -/
structure RunSafe (n : Nat) : Prop where
  eval : ∀ {W x g body σ} (e : Expr), Sound x → Here x g body (.expr e) σ →
    Safe W x (eval n e) fun v y => v.In y
  evalAll : ∀ {W x g body σ} (es : List Expr) (acc : List Value), Sound x →
    (∀ e ∈ es, Here x g body (.expr e) σ) → (∀ v ∈ acc, v.In x) →
    Safe W x (evalAll n es acc) fun vs y => ∀ v ∈ vs, v.In y
  evalLast : ∀ {W x g body σ} (es : List Expr) (v : Value), Sound x →
    (∀ e ∈ es, Here x g body (.expr e) σ) → v.In x → Safe W x (evalLast n es v) fun v y => v.In y
  evalOption : ∀ {W x g body σ} (e : Option Expr), Sound x →
    (∀ e' ∈ e, Here x g body (.expr e') σ) → Safe W x (evalOption n e) fun v y => v.In y
  call : ∀ {W x} (c : Callable) (args : List Value) (paren : Token), Sound x →
    (Value.callable c).In x → (∀ v ∈ args, v.In x) →
    Safe W x (call n c args paren) fun v y => v.In y
  enter : ∀ {W x} (c : Callable) (args : List Value) (paren : Token), Sound x →
    (Value.callable c).In x → (∀ v ∈ args, v.In x) → Opened c args x →
    Safe W x (enter n c args paren) fun v y => v.In y
  apply : ∀ {W x} (f : Closure) (args : List Value), Sound x → (Value.callable (.function f)).In x →
    (∀ v ∈ args, v.In x) → Entering f args x.log → Safe W x (apply n f args) fun v y => v.In y
  setUp : ∀ {W x} (cs : List Class) (inst : Nat) (args : List Value), Sound x →
    (∀ c ∈ cs, c.Aligned x.state.heap.scopes x.log) → (∀ v ∈ args, v.In x) →
    EntersInit cs args x.log → Safe W x (setUp n cs inst args) fun _ _ => True
  exec : ∀ {W x g body σ} (s : Stmt), Sound x → Here x g body (.stmt s) σ →
    Safe W x (exec n s) (Ends g σ s.declared)
  execAll : ∀ {W x g body σ} (ss : List Stmt), Sound x → Here x g body (.stmts ss) σ →
    Safe W x (execAll n ss) (Ends g σ (Stmt.declaredAll ss))
  loop : ∀ {W x g body σ} (e : Expr) (step : Option Expr) (s : Stmt), Sound x →
    Here x g body (.stmt (.loop e step s)) σ → Safe W x (loop n e step s) fun flow y => flow.In y
  initStatics : ∀ {W x g body σ} (c : Nat) (fields : List FieldDecl), Sound x →
    (∀ f ∈ fields, ∀ e ∈ f.init, Here x g body (.expr e) σ) →
    Safe W x (initStatics n c fields) fun _ _ => True

namespace RunSafe

variable {n : Nat} {g : Nat} {body : List Stmt} {σ : List Layer}

theorem eval_succ (ih : RunSafe n) (e : Expr) (hx : Sound x) (h : Here x g body (.expr e) σ) :
    Safe W x (Trace.eval (n + 1) e) fun v y => v.In y := by
  have within : ∀ {p : Trace Value}, (∀ {W y}, Sound y → Here y g body (.expr e) σ →
      Safe W y p fun v z => v.In z) → Safe W x (Trace.within (.expr e) p) fun v z => v.In z :=
    fun hp => Safe.within hx h (fun y hg hy _ _ => hp hy (h.grew hg)) fun v y hv => hv.mono (.note ..)
  clear hx h
  cases e <;> rw [Trace.eval] <;> refine within fun {W x} hx h => ?_
  case literal v => exact .pure hx (Value.ofLiteral_aligned ..)
  case grouping e => exact ih.eval e hx (h.part (by simp [Expr.parts]))
  case unary op e =>
    exact (ih.eval e hx (h.part (by simp [Expr.parts]))).bind fun v y _ hy _ =>
      Safe.check hy _ fun w hw => Heap.negate_aligned hw
  case binary l op r =>
    refine (ih.eval l hx (h.part (by simp [Expr.parts]))).bind fun v y hg hy _ => ?_
    refine (ih.eval r hy ((h.grew hg).part (by simp [Expr.parts]))).bind fun w z _ hz _ => ?_
    exact Safe.get (Safe.check hz _ fun r hr => Heap.operate_aligned hr)
  case logical l op r =>
    refine (ih.eval l hx (h.part (by simp [Expr.parts]))).bind fun v y hg hy hv => ?_
    split
    · exact .pure hy hv
    · exact ih.eval r hy ((h.grew hg).part (by simp [Expr.parts]))
  case ternary c y z =>
    refine (ih.eval c hx (h.part (by simp [Expr.parts]))).bind fun v w hg hw _ => ?_
    split
    · exact ih.eval y hw ((h.grew hg).part (by simp [Expr.parts]))
    · exact ih.eval z hw ((h.grew hg).part (by simp [Expr.parts]))
  case comma es => exact ih.evalLast es .nil hx (fun e he => h.part he) trivial
  case «variable» ref => exact lookUp_safe hx (h.use (by simp [Expr.uses]))
  case assign ref e =>
    refine (ih.eval e hx (h.part (by simp [Expr.parts]))).bind fun v y hg hy hv => ?_
    have huse : Here y g body (.use .assign ref) σ := (h.grew hg).use (by simp [Expr.uses])
    refine (assign_safe hy huse (.inl rfl) hv).bind fun _ z hg' hz _ => ?_
    exact .pure hz (hv.mono hg'.later)
  case compound ref op e =>
    refine (lookUp_safe hx (h.use (by simp [Expr.uses]))).bind fun v y hg hy _ => ?_
    refine (ih.eval e hy ((h.grew hg).part (by simp [Expr.parts]))).bind fun w z hg' hz _ => ?_
    refine Safe.get ((Safe.check (Q := fun r z' => z' = z ∧ r.In z) hz _
      fun r hr => ⟨rfl, Heap.combine_aligned hr⟩).bind fun r z' _ _ hr => ?_)
    obtain ⟨rfl, hr⟩ := hr
    have huse : Here z' g body (.use .compoundWrite ref) σ :=
      ((h.grew hg).grew hg').use (by simp [Expr.uses])
    exact (assign_safe hz huse (.inr rfl) hr).bind fun _ w hg'' hw _ => .pure hw (hr.mono hg''.later)
  case call callee paren args =>
    refine (ih.eval callee hx (h.part (by simp [Expr.parts]))).bind fun f y hg hy hf => ?_
    refine (ih.evalAll args [] hy (fun e he => (h.grew hg).part (by simp [Expr.parts, he]))
      (by simp)).bind fun vs z hg' hz hvs => ?_
    cases f with
    | callable c => exact ih.call c vs paren hz (hf.mono hg'.later) hvs
    | nil | bool | num | string | inst => exact Safe.fault hz _ _
  case get e name =>
    exact (ih.eval e hx (h.part (by simp [Expr.parts]))).bind fun v y _ hy _ =>
      property_safe hy v name
  case set e name op value =>
    refine (ih.eval e hx (h.part (by simp [Expr.parts]))).bind fun target y hg hy _ => ?_
    split
    · refine (ih.eval value hy ((h.grew hg).part (by simp [Expr.parts]))).bind
        fun w z _ hz hw => ?_
      cases op with
      | some op =>
        refine (property_safe hz target name).bind fun v z' _ hz' _ => ?_
        refine Safe.get ((Safe.check (Q := fun r w' => w' = z' ∧ r.In z') hz' _
          fun r hr => ⟨rfl, Heap.combine_aligned hr⟩).bind fun r w' _ _ hr => ?_)
        obtain ⟨rfl, hr⟩ := hr
        exact (Safe.setProperty hz' _ _ hr).bind fun _ u hg'' hu _ => .pure hu (hr.mono hg''.later)
      | none =>
        exact (Safe.setProperty hz _ _ hw).bind fun _ u hg'' hu _ => .pure hu (hw.mono hg''.later)
    · exact Safe.fault hy _ _
  case this ref => exact lookUp_safe hx (h.use (by simp [Expr.uses]))
  case super ref method => exact superMethod_safe hx (h.use (by simp [Expr.uses])) method

theorem evalAll_succ (ih : RunSafe n) (es : List Expr) (acc : List Value) (hx : Sound x)
    (h : ∀ e ∈ es, Here x g body (.expr e) σ) (hacc : ∀ v ∈ acc, v.In x) :
    Safe W x (Trace.evalAll (n + 1) es acc) fun vs y => ∀ v ∈ vs, v.In y := by
  cases es with
  | nil => exact .pure hx fun v hv => hacc v (List.mem_reverse.1 hv)
  | cons e es =>
    refine (ih.eval e hx (h e (by simp))).bind fun v y hg hy hv => ?_
    exact ih.evalAll es (v :: acc) hy (fun e' he' => (h e' (by simp [he'])).grew hg)
      (List.forall_mem_cons.2 ⟨hv, fun w hw => (hacc w hw).mono hg.later⟩)

theorem evalLast_succ (ih : RunSafe n) (es : List Expr) (v : Value) (hx : Sound x)
    (h : ∀ e ∈ es, Here x g body (.expr e) σ) (hv : v.In x) :
    Safe W x (Trace.evalLast (n + 1) es v) fun v y => v.In y := by
  cases es with
  | nil => exact .pure hx hv
  | cons e es =>
    refine (ih.eval e hx (h e (by simp))).bind fun w y hg hy hw => ?_
    exact ih.evalLast es w hy (fun e' he' => (h e' (by simp [he'])).grew hg) hw

theorem evalOption_succ (ih : RunSafe n) (e : Option Expr) (hx : Sound x)
    (h : ∀ e' ∈ e, Here x g body (.expr e') σ) :
    Safe W x (Trace.evalOption (n + 1) e) fun v y => v.In y := by
  cases e with
  | none => exact .pure hx trivial
  | some e => exact ih.eval e hx (h e rfl)

theorem call_succ (ih : RunSafe n) (c : Callable) (args : List Value) (paren : Token)
    (hx : Sound x) (hc : (Value.callable c).In x) (hargs : ∀ v ∈ args, v.In x) :
    Safe W x (Trace.call (n + 1) c args paren) fun v y => v.In y := by
  rw [Trace.call]
  refine Safe.get ?_
  split
  · exact Safe.fault hx _ _
  · have hx' : Sound { x with state.depth := x.state.depth + 1 } := hx
    refine Safe.deeper ((Safe.turn (k := .called c args) (Q := fun _ y =>
      y.log = .turn (.called c args y.state) :: x.log) hx' (by simp [Turn.machine?])
      ⟨rfl, hc, hargs⟩ rfl).bind fun _ y hg hy hlog => Safe.get ?_)
    dsimp only
    split
    · next ha =>
      exact ih.enter c args paren hy (hc.mono hg.later) (fun v hv => (hargs v hv).mono hg.later)
        ⟨⟨_, hlog⟩, beq_iff_eq.1 ha⟩
    · exact Safe.fault hy _ _

theorem enter_succ (ih : RunSafe n) (c : Callable) (args : List Value) (paren : Token)
    (hx : Sound x) (hc : (Value.callable c).In x) (hargs : ∀ v ∈ args, v.In x)
    (ho : Opened c args x) : Safe W x (Trace.enter (n + 1) c args paren) fun v y => v.In y := by
  cases c <;> rw [Trace.enter]
  case native slot => exact Safe.callNative hx slot args paren
  case function f => exact ih.apply f args hx hc hargs ho.function
  case initializer id c inst =>
    exact Safe.get ((ih.setUp _ inst args hx (fun k hk => hx.lineage hk) hargs
      (ho.entersInit (.inr ⟨id, inst, rfl⟩))).bind fun _ y _ hy _ => .pure hy trivial)
  case cls c =>
    refine (Safe.newInstance hx c).bind fun inst y hg hy hnew => Safe.get ?_
    obtain ⟨hcs, hlog⟩ := hnew
    refine (ih.setUp _ inst args hy (fun k hk => hy.lineage hk)
      (fun v hv => (hargs v hv).mono hg.later) ?_).bind fun _ z _ hz _ => .pure hz trivial
    rw [hcs, hlog]
    exact ho.entersInit (.inl rfl)

theorem apply_succ (ih : RunSafe n) (f : Closure) (args : List Value) (hx : Sound x)
    (hf : (Value.callable (.function f)).In x) (hargs : ∀ v ∈ args, v.In x)
    (he : Entering f args x.log) : Safe W x (Trace.apply (n + 1) f args) fun v y => v.In y := by
  obtain ⟨g, body, σ, hat⟩ := hf
  rw [Trace.apply, ← Trace.openCall_bind]
  refine (openCall_safe hx hat hargs he).bind fun s y _ hy hopen => ?_
  obtain ⟨-, hat, hsupplied⟩ := hopen
  have hhere : Here { y with state.scope := s } g body (.body f.decl) (.call f.decl :: σ) := hat
  refine (Safe.inScope (s := s) (Q := fun (flow : Flow) y => flow.In y)
    (P := fun flow y => flow.In y) (Safe.within hy hhere (fun w hg'' hw _ _ => ?_)
      (fun flow w h => h.note _) hsupplied) fun flow w _ h => h).bind fun flow w _ hw hflow => ?_
  · have hhere' := hhere.grew hg''
    exact (ih.execAll f.decl.body hw (hhere'.to hhere'.placed.body)).imp fun flow v _ _ h => h.1
  · split
    · refine Safe.get (.pure hw ?_)
      cases hthis : w.state.heap.scopes.here? f.scope "this" with
      | some v => exact hw.vars _ _ v hthis
      | none => trivial
    · cases flow with
      | ret v => exact .pure hw hflow
      | normal | brk | cont => exact .pure hw trivial

theorem setUp_succ (ih : RunSafe n) (cs : List Class) (inst : Nat) (args : List Value)
    (hx : Sound x) (hcs : ∀ c ∈ cs, c.Aligned x.state.heap.scopes x.log)
    (hargs : ∀ v ∈ args, v.In x) (he : EntersInit cs args x.log) :
    Safe W x (Trace.setUp (n + 1) cs inst args) fun _ _ => True := by
  cases cs with
  | nil => exact .pure hx trivial
  | cons c above =>
    have hc := hcs c (by simp)
    rw [Trace.setUp]
    cases hinit : c.init? with
    | some f =>
      refine (bindThis_safe hx (hc.methods _ f hinit) inst).bind fun f' y hg hy hf' => ?_
      obtain ⟨hdecl, hin, hlog⟩ := hf'
      exact (ih.apply f' args hy hin (fun v hv => (hargs v hv).mono hg.later)
        (hlog ▸ he f f' (by simp [hinit]) hdecl)).bind fun _ z _ hz _ => .pure hz trivial
    | none =>
      refine (ih.setUp above inst args hx (fun k hk => hcs k (by simp [hk])) hargs
        (he.above hinit)).bind fun _ y hg hy _ => ?_
      cases hfields : c.fields with
      | none => exact .pure hy trivial
      | some f =>
        obtain ⟨hm, hparams⟩ := hc.fields f hfields
        refine (bindThis_safe hy (hm.mono hg.later) inst).bind fun f' z _ hz hf' => ?_
        obtain ⟨hdecl, hin, hlog⟩ := hf'
        exact (ih.apply f' [] hz hin (by simp)
          (hlog ▸ .fields (hdecl ▸ hparams) y.log)).bind fun _ w _ hw _ => .pure hw trivial

/-- A statement that declares nothing leaves the place as it is. -/
theorem still {code : Code} {p : Trace Flow} (h : Here x g body code σ)
    (hp : Safe W x p fun flow y => flow.In y) : Safe W x p (Ends g σ []) :=
  hp.imp fun _ _ hg _ hflow => ⟨hflow, fun _ => ⟨(h.grew hg).chain, by simp⟩⟩

theorem declare {name : String} {v : Value} (hx : Sound x)
    (hname : name ≠ "this" ∧ name ≠ "super") (hw : W x.state.scope name)
    (hv : v.Aligned (x.state.heap.scopes.define x.state.scope name v) x.log)
    (hc : Chain x.state.heap.scopes x.log g x.state.scope σ) :
    Safe W x (do lift (Eval.defineHere name v); return .normal) (Ends g σ [name]) := by
  refine (Safe.defineHere hx hw hv hname hc.lt).bind fun _ y hg hy hheld => ?_
  refine .pure hy ⟨trivial, fun _ => ?_⟩
  have hc := hc.mono hg.later
  rw [← hg.scope] at hc
  exact ⟨hc.define hheld, by simpa using hheld⟩

theorem exec_var (ih : RunSafe n) {name : Token} {type : Option Token} {init : Option Expr}
    (hx : Sound x) (h : Here x g body (.stmt (.var name type init)) σ)
    (hw : W x.state.scope name.lexeme) :
    Safe W x (do
      let v ← Trace.evalOption n init
      lift (Eval.defineHere name.lexeme v)
      return .normal) (Ends g σ [name.lexeme]) := by
  have hinit : ∀ e ∈ init, Here x g body (.expr e) (Layer.await name.lexeme σ) := fun e he => by
    obtain rfl : init = some e := he
    exact ⟨h.began, h.placed.init, h.chain.await _⟩
  have hname : name.IsName := (h.placed.tidy (hx.tidy g body h.began)).1
  exact (ih.evalOption init hx hinit).bind fun v y hg hy hv =>
    declare hy hname (hg.scope ▸ hw) (hv.mono (.define ..)) (h.grew hg).chain

theorem exec_block (ih : RunSafe n) {b : List Stmt} (hx : Sound x)
    (h : Here x g body (.stmt (.block b)) σ) :
    Safe W x (do
      let s ← Trace.newScope (.block b) (← lift get).scope
      Trace.inScope s (Trace.execAll n b)) (Ends g σ []) := by
  refine still h (Safe.get (Safe.newScope_bind hx _ _ fun s y hg hy _ _ hchild => ?_))
  have hhere : Here { y with state.scope := s } g body (.stmts b) (.block b :: σ) :=
    ⟨h.began.imp fun _ => hg.later.event, h.placed.block, hchild (.block b) rfl rfl h.chain⟩
  exact Safe.inScope (s := s) (ih.execAll b hy hhere) fun flow z _ hz => hz.1

theorem exec_branch (ih : RunSafe n) {e : Expr} {y : Stmt} {no : Option Stmt} (hx : Sound x)
    (h : Here x g body (.stmt (.branch e y no)) σ) :
    Safe W x (do
      let v ← Trace.eval n e
      if v.truthy then Trace.exec n y
      else
        match no with
        | some s => Trace.exec n s
        | none => return .normal) (Ends g σ (Stmt.declared (.branch e y no))) := by
  have htidy := h.placed.tidy (hx.tidy g body h.began)
  refine (ih.eval e hx (h.expr (by simp [Stmt.exprs]))).bind fun v z hg hz _ => ?_
  have h := h.grew hg
  cases no with
  | none =>
    obtain ⟨-, -, hy⟩ := htidy
    have hd : Stmt.declared (.branch e y none) = [] := hy
    rw [hd]
    dsimp only
    split
    · exact hy ▸ ih.exec y hz (h.to h.placed.yes)
    · exact still h (.pure hz trivial)
  | some s =>
    obtain ⟨-, -, hy, -, hs⟩ := htidy
    have hd : Stmt.declared (.branch e y (some s)) = [] := by rw [Stmt.declared, hy, hs]; rfl
    rw [hd]
    dsimp only
    split
    · exact hy ▸ ih.exec y hz (h.to h.placed.yes)
    · have hno := h.placed.no
      rw [hy] at hno
      exact hs ▸ ih.exec s hz (h.to hno)

theorem exec_function {decl : FunctionDecl} (hx : Sound x)
    (h : Here x g body (.stmt (.function decl)) σ) (hw : W x.state.scope decl.name.lexeme) :
    Safe W x (do
      let f ← lift (Eval.newClosure decl (← lift get).scope false)
      lift (Eval.defineHere decl.name.lexeme (.callable (.function f)))
      return .normal) (Ends g σ [decl.name.lexeme]) := by
  refine Safe.get ((Safe.newClosure hx decl _ false).bind fun f y hg hy hf => ?_)
  have h := h.grew hg
  have hl := Later.define y.state.heap.scopes y.log y.state.scope decl.name.lexeme
    (.callable (.function f))
  -- The closure may call itself: its place counts its own name as declared.
  have hname : decl.name.IsName := (h.placed.tidy (hy.tidy g body h.began)).1
  refine declare hy hname (hg.scope ▸ hw)
    ⟨g, body, Layer.define decl.name.lexeme σ, h.began, ?_, ?_⟩ h.chain
  · rw [hf.1]
    exact h.placed.function
  rw [hf.2.1, ← hg.scope]
  exact (h.chain.mono hl).define (Scopes.isSome_here?_define_self h.chain.lt)

theorem exec_cls (ih : RunSafe n) {decl : ClassDecl} (hx : Sound x)
    (h : Here x g body (.stmt (.cls decl)) σ) (hw : W x.state.scope decl.name.lexeme) :
    Safe W x (do
      lift (Eval.defineHere decl.name.lexeme .nil)
      let superclass ← superclassOf decl.superclass
      let s ← classScope decl superclass
      let c ← buildClass decl superclass s
      Trace.inScope s (Trace.initStatics n c decl.staticFields)
      lift (Eval.defineHere decl.name.lexeme (.callable (.cls c)))
      return .normal) (Ends g σ [decl.name.lexeme]) := by
  have hname : decl.name.IsName := (ClassDecl.tidy_iff.1 (h.placed.tidy (hx.tidy g body h.began))).1
  refine (Safe.defineHere (v := .nil) hx hw trivial hname h.chain.lt).bind fun _ y hg hy hheld => ?_
  have h := h.grew hg
  have hc : Chain y.state.heap.scopes y.log g y.state.scope (Layer.define decl.name.lexeme σ) :=
    h.chain.define hheld
  have hsuper : ∀ ref ∈ decl.superclass, Here y g body (.use .superclass ref)
      (Layer.define decl.name.lexeme σ) := fun ref hr => ⟨h.began, h.placed.superclass hr, hc⟩
  refine (superclassOf_safe hy hsuper).bind fun sup z hg' hz hsup => ?_
  have h := h.grew hg'
  have hc := hc.mono hg'.later
  rw [← hg'.scope] at hc
  refine (classScope_safe hz decl hsup.1 hsup.2 hc).bind fun s w hg'' hw' hs => ?_
  have h := h.grew hg''
  refine (buildClass_safe hw' h.began h.placed hs.1 hsup.1 hs.2).bind fun c v hg₃ hv hc' => ?_
  have hs := hs.1.mono hg₃.later
  have h := h.grew hg₃
  have hstatics : ∀ field ∈ decl.staticFields, ∀ e ∈ field.init,
      Here { v with state.scope := s } g body (.expr e) (decl.around σ) := fun field hf e he =>
    ⟨h.began, h.placed.staticField hf he, hs⟩
  exact (Safe.inScope (s := s) (Q := fun _ _ => True) (ih.initStatics c decl.staticFields hv hstatics)
    fun _ _ _ _ => trivial).bind fun _ u hg₄ hu _ => declare hu hname
      (by rwa [hg₄.scope, hg₃.scope, hg''.scope, hg'.scope, hg.scope])
      (Built.mono hc' hg₄.later.log) (h.grew hg₄).chain

theorem exec_succ (ih : RunSafe n) (s : Stmt) (hx : Sound x) (h : Here x g body (.stmt s) σ) :
    Safe W x (Trace.exec (n + 1) s) (Ends g σ s.declared) := by
  have reach : ∀ {p : Trace Flow}, (∀ {W y}, Sound y → Here y g body (.stmt s) σ →
      (∀ a ∈ s.defines, W y.state.scope a) → Safe W y p (Ends g σ s.declared)) →
      Safe W x (Trace.within (.stmt s) p) (Ends g σ s.declared) := fun hp =>
    Safe.within hx h (fun y hg hy _ _ =>
      hp hy (h.grew hg) fun a ha => .inr ⟨hg.scope.symm, ha⟩) fun flow y h => h.note _
  cases s
  case branch e y no =>
    cases no <;> exact reach fun hz h _ => ih.exec_branch hz h
  all_goals rw [Trace.exec]
  case expr e =>
    refine reach fun hy h _ => still h ?_
    exact (ih.eval e hy (h.expr (by simp [Stmt.exprs]))).bind fun _ z _ hz _ => .pure hz trivial
  case print keyword e =>
    refine reach fun hy h _ => still h ?_
    exact (ih.eval e hy (h.expr (by simp [Stmt.exprs]))).bind fun v z _ hz _ =>
      (Safe.print hz keyword v).bind fun _ w _ hw _ => .pure hw trivial
  case var => exact reach fun hy h hw => ih.exec_var hy h (hw _ (by simp [Stmt.defines]))
  case block => exact reach fun hy h _ => ih.exec_block hy h
  case decls b => exact reach fun hy h _ => ih.execAll b hy (h.to h.placed.decls)
  case loop e step s =>
    refine reach fun hy h _ => ?_
    have hd : Stmt.declared (.loop e step s) = [] :=
      (h.placed.tidy (hy.tidy g body h.began)).2.2.2
    exact hd ▸ still h (ih.loop e step s hy h)
  case function => exact reach fun hy h hw => exec_function hy h (hw _ (by simp [Stmt.defines]))
  case ret keyword value =>
    refine reach fun hy h _ => still h ?_
    exact (ih.evalOption value hy fun e he => h.expr (by
      rw [Option.mem_def.1 he]; simp [Stmt.exprs])).bind fun v z _ hz hv => .pure hz hv
  case brk | cont | require | expose => exact reach fun hy h _ => still h (.pure hy trivial)
  case cls => exact reach fun hy h hw => ih.exec_cls hy h (hw _ (by simp [Stmt.defines]))

theorem execAll_succ (ih : RunSafe n) (ss : List Stmt) (hx : Sound x)
    (h : Here x g body (.stmts ss) σ) :
    Safe W x (Trace.execAll (n + 1) ss) (Ends g σ (Stmt.declaredAll ss)) := by
  cases ss with
  | nil => exact .pure hx ⟨trivial, fun _ => ⟨h.chain, by simp [Stmt.declaredAll]⟩⟩
  | cons s ss =>
    rw [Trace.execAll]
    refine (ih.exec s hx (h.to h.placed.head)).bind fun flow y hg hy hflow => ?_
    cases flow with
    | normal =>
      obtain ⟨hchain, hheld⟩ := hflow.2 rfl
      have htail : Here y g body (.stmts ss) (Layer.defineAll s.declared σ) :=
        ⟨(h.grew hg).began, h.placed.tail, hchain⟩
      refine (ih.execAll ss hy htail).imp fun flow z hg' _ hz => ⟨hz.1, fun hn => ?_⟩
      rw [Stmt.declaredAll, Layer.defineAll_append]
      refine ⟨(hz.2 hn).1, fun a ha => ?_⟩
      rcases List.mem_append.1 ha with ha | ha
      · rw [hg'.scope]
        exact hg'.later.held _ a (hheld a ha)
      · exact (hz.2 hn).2 a ha
    | ret v => exact .pure hy ⟨hflow.1, by simp⟩
    | brk | cont => exact .pure hy ⟨trivial, by simp⟩

theorem loop_succ (ih : RunSafe n) (e : Expr) (step : Option Expr) (s : Stmt) (hx : Sound x)
    (h : Here x g body (.stmt (.loop e step s)) σ) :
    Safe W x (Trace.loop (n + 1) e step s) fun flow y => flow.In y := by
  have hd : s.declared = [] := (h.placed.tidy (hx.tidy g body h.began)).2.2.2
  have hstep : ∀ {z : Logged Event Machine}, Here z g body (.stmt (.loop e step s)) σ →
      ∀ e' ∈ step, Here z g body (.expr e') σ := fun {z} hz e' he' => by
    obtain rfl : step = some e' := he'
    have hp := hz.placed.step
    rw [hd] at hp
    exact hz.to hp
  rw [Trace.loop]
  refine (ih.eval e hx (h.expr (by simp [Stmt.exprs]))).bind fun v y hg hy _ => ?_
  have h := h.grew hg
  split
  · refine (ih.exec s hy (h.to h.placed.round)).bind fun flow z hg' hz hflow => ?_
    have h := h.grew hg'
    cases flow with
    | brk => exact .pure hz trivial
    | ret v => exact .pure hz hflow.1
    | normal | cont =>
      exact (ih.evalOption step hz (hstep h)).bind fun _ w hg'' hw _ =>
        ih.loop e step s hw (h.grew hg'')
  · exact .pure hy trivial

theorem initStatics_succ (ih : RunSafe n) (c : Nat) (fields : List FieldDecl) (hx : Sound x)
    (h : ∀ f ∈ fields, ∀ e ∈ f.init, Here x g body (.expr e) σ) :
    Safe W x (Trace.initStatics (n + 1) c fields) fun _ _ => True := by
  cases fields with
  | nil => exact .pure hx trivial
  | cons field fields =>
    refine (ih.evalOption field.init hx (h field (by simp))).bind fun v y hg hy hv => ?_
    refine (Safe.setProperty hy _ _ hv).bind fun _ z hg' hz _ => ?_
    exact ih.initStatics c fields hz fun f hf e he => (h f (by simp [hf]) e he).grew (hg.trans hg')

end RunSafe

/-- Runs keep the store aligned. -/
theorem runSafe (n : Nat) : RunSafe n := by
  induction n with
  | zero =>
    refine ⟨?_, ?_, ?_, ?_, ?_, ?_, ?_, ?_, ?_, ?_, ?_, ?_⟩
    case refine_1 =>
      intro W x g body σ e hx h
      rw [eval]
      exact Safe.within hx h (fun y _ hy _ _ => .throw hy _) fun v y hv => hv.mono (.note ..)
    case refine_9 =>
      intro W x g body σ s hx h
      rw [exec]
      exact Safe.within hx h (fun y _ hy _ _ => .throw hy _) fun flow y h => h.note _
    all_goals intros; exact .throw ‹Sound _› _
  | succ n ih =>
    exact ⟨ih.eval_succ, ih.evalAll_succ, ih.evalLast_succ, ih.evalOption_succ, ih.call_succ,
      ih.enter_succ, ih.apply_succ, ih.setUp_succ, ih.exec_succ, ih.execAll_succ, ih.loop_succ,
      ih.initStatics_succ⟩

/-- A run of a program keeps the store aligned. If it ends and each of the statements ends normally,
then all names that the program declares outside of its scopes are there. -/
theorem run_safe {g : Nat} {body : List Stmt} (n : Nat) (hx : Sound x)
    (h : Here x g body (.stmts body) [])
    (hok : ∀ s ∈ body, ∀ m flow m', Eval.exec n s m = .ok flow m' → flow = .normal) :
    Safe W x (run n body) fun _ y =>
      ∀ a ∈ Stmt.declaredAll body, (y.state.heap.scopes.here? y.state.scope a).isSome := by
  suffices ∀ ss : List Stmt, (∀ s ∈ ss, s ∈ body) → ∀ x, Sound x → Here x g body (.stmts ss) [] →
      Safe W x (run n ss) fun _ y =>
        ∀ a ∈ Stmt.declaredAll ss, (y.state.heap.scopes.here? y.state.scope a).isSome from
    this body (fun _ hs => hs) x hx h
  intro ss hss
  induction ss with
  | nil => exact fun x hx _ => .pure hx (by simp [Stmt.declaredAll])
  | cons s ss ih =>
    intro x hx h
    obtain ⟨hs, hss⟩ := List.forall_mem_cons.1 hss
    refine ((runSafe n).exec s hx (h.to h.placed.head)).ran.bind fun flow y hg hy hflow => ?_
    obtain ⟨⟨-, hends⟩, hrun⟩ := hflow
    have herased := ((runErases n).exec s).state x
    rw [hrun] at herased
    have htail := h.placed.tail
    rw [Layer.defineAll_outside] at htail
    refine (ih hss y hy ((h.grew hg).to htail)).imp fun _ z hg' _ hrest a ha => ?_
    rcases List.mem_append.1 ha with ha | ha
    · rw [hg'.scope]
      exact hg'.later.held _ a ((hends (hok s hs _ _ _ herased.symm)).2 a ha)
    · exact hrest a ha

end Trace

end Treewalk
