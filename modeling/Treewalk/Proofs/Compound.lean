import Treewalk.Proofs.Construction

/-!
# Compound assignments

`t op= e` is compared with `t = t op e`, which reads `t` before it runs `e`. Of two runs only the
place of a fault is left out of the comparison (`Eval.outcome`).

For a variable the two are the same in every state. For a property they are not: `o.p op= e` runs `e`
first and reads the property then. So they are the same only if `e` fails, or changes the property in
a way that the operator does not notice; and where `o` has no such property, `e` is run all the same.
`compound_assignment` says so for every state, and `lateRead_prints` is a text that shows it.
-/

namespace Treewalk

/-! ### Runs up to the place of a fault -/

namespace Eval

/-- What a run answers and leaves, without the place of a fault. -/
def outcome {α : Type} (p : Eval α) (m : Machine) : Except (Option Cause) α × Machine :=
  match p m with
  | .ok a m' => (.ok a, m')
  | .error (.fault f) m' => (.error (some f.cause), m')
  | .error .exhausted m' => (.error none, m')

section

variable {α β : Type} {p p' : Eval α} {m m' : Machine}

theorem outcome_of_ok {a : α} (h : p m = .ok a m') : outcome p m = (.ok a, m') := by
  rw [outcome, h]

theorem ok_of_outcome {a : α} (h : outcome p m = (.ok a, m')) : p m = .ok a m' := by
  unfold outcome at h
  split at h
  · next hp =>
    cases h
    exact hp
  · cases h
  · cases h

theorem outcome_bind_ok {f : α → Eval β} {a : α} (h : p m = .ok a m') :
    outcome (p >>= f) m = outcome (f a) m' := by
  rw [outcome, bind_of_ok h, outcome]

theorem outcome_bind_error {f : α → Eval β} {k : Option Cause} (h : outcome p m = (.error k, m')) :
    outcome (p >>= f) m = (.error k, m') := by
  unfold outcome at h ⊢
  cases hp : p m with
  | ok a m₁ =>
    rw [hp] at h
    cases h
  | error e m₁ =>
    rw [hp] at h
    rw [bind_of_error hp]
    cases e with
    | fault f =>
      cases h
      rfl
    | exhausted =>
      cases h
      rfl

/-- Runs that are the same and go on in the same way. -/
theorem outcome_bind {f f' : α → Eval β} (h : outcome p m = outcome p' m)
    (hf : ∀ a m', p m = .ok a m' → outcome (f a) m' = outcome (f' a) m') :
    outcome (p >>= f) m = outcome (p' >>= f') m := by
  cases ho : outcome p m with
  | mk r m' =>
    cases r with
    | ok a =>
      rw [outcome_bind_ok (ok_of_outcome ho), outcome_bind_ok (ok_of_outcome (h.symm.trans ho)),
        hf a m' (ok_of_outcome ho)]
    | error k => rw [outcome_bind_error ho, outcome_bind_error (h.symm.trans ho)]

end

theorem outcome_get_bind {α : Type} (f : Machine → Eval α) (m : Machine) :
    outcome (get >>= f) m = outcome (f m) m := rfl

theorem outcome_check {α : Type} (t t' : Token) (x : Except Cause α) (m : Machine) :
    outcome (check t x) m = outcome (check t' x) m := by
  cases x <;> rfl

theorem outcome_demand {α : Type} (t t' : Token) (cause : Cause) (x : Option α) (m : Machine) :
    outcome (demand t cause x) m = outcome (demand t' cause x) m := by
  cases x <;> rfl

theorem demand_state {α : Type} {t : Token} {cause : Cause} {x : Option α} {m m' : Machine} {a : α}
    (h : demand t cause x m = .ok a m') : m' = m := by
  cases x with
  | some b =>
    cases h
    rfl
  | none => cases h

end Eval

/-! ### Targets -/

/-- The value of the variable that a reference means, if there is one. -/
def Machine.value? (m : Machine) (ref : Ref) : Option Value :=
  match m.bindings[ref.id]? with
  | some d => m.heap.scopes.getAt? m.scope d ref.name.lexeme
  | none => m.heap.scopes.get? (m.heap.scopes.root m.scope) ref.name.lexeme

theorem Eval.lookUp_eq (ref : Ref) (m : Machine) :
    lookUp ref m = demand ref.name (.undefinedVariable ref.name.lexeme) (m.value? ref) m := rfl

/-- Two uses of one name of which the table says the same, so that both mean one variable. -/
structure Ref.Alike (m : Machine) (ref ref' : Ref) : Prop where
  name : ref'.name.lexeme = ref.name.lexeme
  place : m.bindings[ref'.id]? = m.bindings[ref.id]?

theorem Ref.Alike.outcome_lookUp {m : Machine} {ref ref' : Ref} (h : ref.Alike m ref') :
    Eval.outcome (Eval.lookUp ref) m = Eval.outcome (Eval.lookUp ref') m := by
  have hvalue : m.value? ref' = m.value? ref := by
    rw [Machine.value?, h.place, h.name, Machine.value?]
  have hsame := Eval.outcome_demand ref.name ref'.name (.undefinedVariable ref.name.lexeme)
    (m.value? ref) m
  unfold Eval.outcome at hsame ⊢
  rw [Eval.lookUp_eq, Eval.lookUp_eq, hvalue, h.name]
  exact hsame

/-- The expression reads one variable, which may be the hidden one of an instance. -/
inductive Expr.Names : Expr → Ref → Prop where
  | variable (ref : Ref) : Names (.variable ref) ref
  | this (ref : Ref) : Names (.this ref) ref

theorem Expr.Names.eval_eq {o : Expr} {ref : Ref} (h : o.Names ref) (n : Nat) :
    Eval.eval (n + 1) o = Eval.lookUp ref := by
  cases h <;> rw [Eval.eval]

/-- The own field of an instance, or the static member of a class. -/
def Machine.field? (m : Machine) (target : Value) (x : String) : Option Value :=
  match target with
  | .inst i => m.heap.instances[i]?.bind (·.fields.get? x)
  | .callable (.cls c) => m.heap.classes.static? c x
  | _ => none

/-- A property that is held is read without a change of the state. -/
theorem Eval.property_of_field? {m : Machine} {target v : Value} {name : Token}
    (h : m.field? target name.lexeme = some v) : property target name m = .ok v m := by
  unfold Machine.field? at h
  split at h
  · next i =>
    obtain ⟨inst, hinst, hv⟩ := Option.bind_eq_some_iff.1 h
    have hfound : demand name (.undefinedProperty name.lexeme) m.heap.instances[i]? m =
        .ok inst m := by
      rw [hinst]
      rfl
    rw [property, instanceProperty, get_bind, bind_of_ok hfound, hv]
    rfl
  · next c =>
    show demand name _ (m.heap.classes.static? c name.lexeme) m = _
    rw [h]
    rfl
  · cases h

theorem Machine.hasFields_of_field? {m : Machine} {target v : Value} {x : String}
    (h : m.field? target x = some v) : target.hasFields = true := by
  unfold field? at h
  split at h
  · rfl
  · rfl
  · cases h

/-! ### Fields stay -/

/-- Classes keep their superclasses and have all static members that they had. -/
def Classes.Kept (cs cs' : Classes) : Prop :=
  ∀ (c : Nat) k, cs.cells[c]? = some k → ∃ k', cs'.cells[c]? = some k' ∧
    k'.superclass = k.superclass ∧ ∀ x, (k.ownStatic? x).isSome → (k'.ownStatic? x).isSome

namespace Classes.Kept

variable {cs cs' cs'' : Classes}

theorem refl (cs : Classes) : cs.Kept cs := fun _ k hk => ⟨k, hk, rfl, fun _ hx => hx⟩

theorem trans (h : cs.Kept cs') (h' : cs'.Kept cs'') : cs.Kept cs'' := by
  intro c k hk
  obtain ⟨k', hk', hsup, hown⟩ := h c k hk
  obtain ⟨k'', hk'', hsup', hown'⟩ := h' c k' hk'
  exact ⟨k'', hk'', hsup'.trans hsup, fun x hx => hown' x (hown x hx)⟩

theorem add (cs : Classes) (k : Class) : cs.Kept (cs.add k) := by
  intro c k' hk'
  have hlt := (Array.getElem?_eq_some_iff.1 hk').1
  refine ⟨k', ?_, rfl, fun _ hx => hx⟩
  rw [Classes.add, Array.getElem?_push, if_neg (Nat.ne_of_lt hlt), hk']

theorem setStatic (cs : Classes) (c : Nat) (x : String) (v : Value) :
    cs.Kept (cs.setStatic c x v) := by
  intro c' k hk
  rw [Classes.setStatic, Array.getElem?_modify, hk]
  split
  · refine ⟨_, rfl, rfl, fun y hy => ?_⟩
    simp only [Class.ownStatic?, Table.get?_insert] at hy ⊢
    split
    · rfl
    · next hnone =>
      by_cases hxy : x = y
      · rw [if_pos hxy] at hnone
        cases hnone
      · rw [if_neg hxy] at hnone
        rwa [hnone] at hy
  · exact ⟨k, rfl, rfl, fun _ hy => hy⟩

theorem law : Law (fun x y => x.state.heap.classes.Kept y.state.heap.classes)
    fun _ _ x y => x.state.heap.classes.Kept y.state.heap.classes := by
  refine .uniform (fun x => .refl _) trans (fun he => ?_) (fun _ _ => .refl _) (fun _ => .refl _)
    (fun _ h => h) fun _ h => h
  cases he with
  | tick => exact .refl _
  | heap he =>
    cases he with
    | cls k => exact .add _ k
    | static c x v => exact .setStatic _ c x v
    | _ => exact .refl _

theorem lineageWithin (h : cs.Kept cs') {n c : Nat} {k : Class} (hk : k ∈ cs.lineageWithin n c) :
    ∃ k' ∈ cs'.lineageWithin n c, ∀ x, (k.ownStatic? x).isSome → (k'.ownStatic? x).isSome := by
  induction n generalizing c with
  | zero => cases hk
  | succ n ih =>
    rw [Classes.lineageWithin] at hk ⊢
    cases hc : cs.cells[c]? with
    | none =>
      rw [hc] at hk
      cases hk
    | some k₁ =>
      obtain ⟨k₁', hc', hsup, hown⟩ := h c k₁ hc
      rw [hc] at hk
      rw [hc']
      dsimp only at hk ⊢
      rw [hsup]
      cases hs : k₁.superclass with
      | none =>
        rw [hs] at hk
        cases List.mem_singleton.1 hk
        exact ⟨k₁', List.mem_singleton_self k₁', hown⟩
      | some s =>
        rw [hs] at hk
        rcases List.mem_cons.1 hk with rfl | hk
        · exact ⟨k₁', List.mem_cons_self, hown⟩
        · obtain ⟨k', hk', hown'⟩ := ih hk
          exact ⟨k', List.mem_cons_of_mem _ hk', hown'⟩

theorem static? (h : cs.Kept cs') {c : Nat} {x : String} (hx : (cs.static? c x).isSome) :
    (cs'.static? c x).isSome := by
  obtain ⟨k, hk, hown⟩ := List.findSome?_isSome_iff.1 hx
  obtain ⟨k', hk', hown'⟩ := h.lineageWithin hk
  exact List.findSome?_isSome_iff.2 ⟨k', hk', hown' x hown⟩

end Classes.Kept

/-- What an object holds it goes on to hold. -/
theorem Eval.field?_of_eval {n : Nat} {e : Expr} {m m' : Machine} {w v target : Value} {x : String}
    (he : eval n e m = .ok w m') (h : m.field? target x = some v) :
    ∃ v', m'.field? target x = some v' := by
  have hlogged := (Trace.runErases n).eval e ⟨m, []⟩
  rw [show (⟨m, []⟩ : Logged Event Machine).state = m from rfl, he] at hlogged
  obtain ⟨L, hrun⟩ := Traced.exists_of_erase hlogged
  have hinst := ((Trace.runObeys Heap.Kept.law n).eval (C := fun _ => True) (O := fun _ => True)
    ⟨m, []⟩ e trivial).last
  have hcls := ((Trace.runObeys Classes.Kept.law n).eval (C := fun _ => True) (O := fun _ => True)
    ⟨m, []⟩ e trivial).last
  rw [hrun] at hinst hcls
  unfold Machine.field? at h ⊢
  split at h
  · next i =>
    obtain ⟨inst, hi, hv⟩ := Option.bind_eq_some_iff.1 h
    obtain ⟨inst', hi', -, hf⟩ := hinst.instances i inst hi
    have hsome := hf x (Option.isSome_iff_exists.2 ⟨v, hv⟩)
    obtain ⟨v', hv'⟩ := Option.isSome_iff_exists.1 hsome
    exact ⟨v', Option.bind_eq_some_iff.2 ⟨inst', hi', hv'⟩⟩
  · next c => exact Option.isSome_iff_exists.1 (hcls.static? (Option.isSome_iff_exists.2 ⟨v, h⟩))
  · cases h

/-! ### The two forms -/

namespace Eval

theorem combine_eq_operate {op b : Token} {s : Symbol}
    (hop : op.symbol?.bind Symbol.compoundBase? = some s) (hb : b.symbol? = some s) (h : Heap)
    (v w : Value) : h.operate b v w = h.combine op v w := by
  rw [Heap.operate, hb, Heap.combine, hop]

/-- Sets a property to the result of an operator, if there is one. -/
def keep (target : Value) (x : String) (t : Token) (r : Except Cause Value) : Eval Value := do
  let v ← check t r
  setProperty target x v
  return v

theorem keep_ok (target : Value) (x : String) (t : Token) (v : Value) (m : Machine) :
    ∃ m', outcome (keep target x t (.ok v)) m = (.ok v, m') := by
  have hset : ∃ m', setProperty target x v m = .ok () m' := by
    unfold setProperty
    split <;> exact ⟨_, rfl⟩
  obtain ⟨m', hset⟩ := hset
  refine ⟨m', outcome_of_ok ?_⟩
  show (setProperty target x v >>= fun _ => pure v) m = _
  rw [bind_of_ok hset]
  rfl

/-- What is kept tells the result. -/
theorem outcome_keep_iff {target : Value} {x : String} {t t' : Token} {r r' : Except Cause Value}
    {m : Machine} :
    outcome (keep target x t r) m = outcome (keep target x t' r') m ↔ r = r' := by
  constructor
  · intro h
    cases r with
    | ok v =>
      obtain ⟨k, hk⟩ := keep_ok target x t v m
      cases r' with
      | ok v' =>
        obtain ⟨k', hk'⟩ := keep_ok target x t' v' m
        rw [hk, hk'] at h
        cases h
        rfl
      | error c =>
        rw [hk] at h
        cases h
    | error c =>
      cases r' with
      | ok v' =>
        obtain ⟨k', hk'⟩ := keep_ok target x t' v' m
        rw [hk'] at h
        cases h
      | error c' =>
        cases h
        rfl
  · rintro rfl
    exact outcome_bind (outcome_check t t' r m) fun _ _ _ => rfl

variable {m : Machine} {op b : Token} {s : Symbol} {e : Expr} {ref ref' : Ref}

theorem outcome_compound (hop : op.symbol?.bind Symbol.compoundBase? = some s)
    (hb : b.symbol? = some s) (h : ref.Alike m ref') (n : Nat) :
    outcome (eval (n + 3) (.compound ref op e)) m =
      outcome (eval (n + 4) (.assign ref (.binary (.variable ref') b e))) m := by
  rw [eval, eval, eval, eval, bind_assoc]
  refine outcome_bind h.outcome_lookUp fun v m₁ _ => ?_
  rw [bind_assoc]
  refine outcome_bind rfl fun w m₂ _ => ?_
  rw [bind_assoc, outcome_get_bind, outcome_get_bind, combine_eq_operate hop hb]
  exact outcome_bind (outcome_check op b _ m₂) fun _ _ _ => rfl

section

variable {o o' : Expr} {p p' : Token} {target : Value}

theorem outcome_short (ho : o.Names ref) (ht : lookUp ref m = .ok target m)
    (hf : target.hasFields = true) (n : Nat) :
    outcome (eval (n + 3) (.set o p (some op) e)) m = outcome (do
      let w ← eval (n + 2) e
      let v ← property target p
      keep target p.lexeme op ((← get).heap.combine op v w)) m := by
  rw [eval, ho.eval_eq, outcome_bind_ok ht, if_pos hf]
  rfl

theorem outcome_long (hop : op.symbol?.bind Symbol.compoundBase? = some s)
    (hb : b.symbol? = some s) (ho : o.Names ref) (ho' : o'.Names ref')
    (ht : lookUp ref m = .ok target m) (ht' : lookUp ref' m = .ok target m)
    (hf : target.hasFields = true) (n : Nat) :
    outcome (eval (n + 4) (.set o p none (.binary (.get o' p') b e))) m = outcome (do
      let v ← property target p'
      let w ← eval (n + 2) e
      keep target p.lexeme op ((← get).heap.combine op v w)) m := by
  rw [eval, ho.eval_eq, outcome_bind_ok ht, if_pos hf, eval, eval, ho'.eval_eq, bind_assoc,
    bind_assoc, outcome_bind_ok ht']
  refine outcome_bind rfl fun v m₁ _ => ?_
  rw [bind_assoc]
  refine outcome_bind rfl fun w m₂ _ => ?_
  rw [bind_assoc, outcome_get_bind, outcome_get_bind, combine_eq_operate hop hb]
  exact outcome_keep_iff.2 rfl

theorem outcome_property (h : p'.lexeme = p.lexeme) (target : Value) (m : Machine) :
    outcome (property target p') m = outcome (property target p) m := by
  unfold property
  split
  · next i =>
    rw [instanceProperty, instanceProperty, h]
    refine outcome_bind rfl fun m₁ _ _ => ?_
    refine outcome_bind (outcome_demand p' p _ _ _) fun inst m₂ _ => ?_
    split
    · rfl
    · split
      · rfl
      · exact outcome_bind (outcome_demand p' p _ _ _) fun f m₃ _ => rfl
  · rw [h]
    exact outcome_bind rfl fun m₁ _ _ => outcome_demand p' p _ _ _
  · rfl

/-- Where the target has no fields, or is not there. -/
theorem short_eq_long_of_no_fields (ho : o.Names ref)
    (h : ∀ target, lookUp ref m = .ok target m → target.hasFields = false) (n : Nat) :
    outcome (eval (n + 3) (.set o p (some op) e)) m =
      outcome (eval (n + 4) (.set o p none (.binary (.get o' p') b e))) m := by
  rw [eval, eval, ho.eval_eq, ho.eval_eq]
  refine outcome_bind rfl fun target m' ht => ?_
  obtain rfl : m' = m := demand_state ht
  rw [h target ht]
  rfl

end

end Eval

open Eval

/-- The short and the long form of an assignment, run in any state: they agree on variables, and on
properties the short one takes the value that is there after `e` and the long one that before. -/
theorem compound_assignment {op b : Token} {s : Symbol}
    (hop : op.symbol?.bind Symbol.compoundBase? = some s) (hb : b.symbol? = some s) (n : Nat)
    (m : Machine) (e : Expr) :
    (∀ ref ref' : Ref, ref.Alike m ref' →
      outcome (eval (n + 3) (.compound ref op e)) m =
        outcome (eval (n + 4) (.assign ref (.binary (.variable ref') b e))) m) ∧
    ∀ (o o' : Expr) (ref ref' : Ref) (p p' : Token), o.Names ref → o'.Names ref' →
      ref.Alike m ref' → p'.lexeme = p.lexeme →
      let short := outcome (eval (n + 3) (.set o p (some op) e)) m
      let long := outcome (eval (n + 4) (.set o p none (.binary (.get o' p') b e))) m
      let missing := Except.error (some (Cause.undefinedProperty p.lexeme))
      ((∀ target, lookUp ref m = .ok target m → target.hasFields = false) → short = long) ∧
      (∀ target v, lookUp ref m = .ok target m → m.field? target p.lexeme = some v →
        (∀ k m', outcome (eval (n + 2) e) m = (.error k, m') →
          short = (.error k, m') ∧ long = (.error k, m')) ∧
        ∀ w m', eval (n + 2) e m = .ok w m' → ∃ v', m'.field? target p.lexeme = some v' ∧
          short = outcome (keep target p.lexeme op (m'.heap.combine op v' w)) m' ∧
          long = outcome (keep target p.lexeme op (m'.heap.combine op v w)) m' ∧
          (short = long ↔ m'.heap.combine op v' w = m'.heap.combine op v w)) ∧
      ∀ target, lookUp ref m = .ok target m → target.hasFields = true →
        outcome (property target p) m = (missing, m) →
        long = (missing, m) ∧
        (∀ k m', outcome (eval (n + 2) e) m = (.error k, m') → short = (.error k, m')) ∧
        ∀ w m', eval (n + 2) e m = .ok w m' → outcome (property target p) m' = (missing, m') →
          short = (missing, m') := by
  refine ⟨fun ref ref' h => outcome_compound hop hb h n, ?_⟩
  intro o o' ref ref' p p' ho ho' href hp short long missing
  have htarget : ∀ target, lookUp ref m = .ok target m → lookUp ref' m = .ok target m :=
    fun target ht => ok_of_outcome (href.outcome_lookUp.symm.trans (outcome_of_ok ht))
  refine ⟨fun h => short_eq_long_of_no_fields ho h n, ?_, ?_⟩
  · intro target v ht hv
    have hf := Machine.hasFields_of_field? hv
    have hshort : short = _ := outcome_short ho ht hf n
    have hlong : long = _ := outcome_long hop hb ho ho' ht (htarget target ht) hf n
    rw [outcome_bind_ok (property_of_field? (hp ▸ hv))] at hlong
    refine ⟨fun k m' he => ?_, fun w m' he => ?_⟩
    · exact ⟨hshort.trans (outcome_bind_error he), hlong.trans (outcome_bind_error he)⟩
    · obtain ⟨v', hv'⟩ := field?_of_eval he hv
      rw [outcome_bind_ok he, outcome_bind_ok (property_of_field? hv'), outcome_get_bind] at hshort
      rw [outcome_bind_ok he, outcome_get_bind] at hlong
      refine ⟨v', hv', hshort, hlong, ?_⟩
      rw [hshort, hlong]
      exact outcome_keep_iff
  · intro target ht hf hmissing
    have hshort : short = _ := outcome_short ho ht hf n
    have hlong : long = _ := outcome_long hop hb ho ho' ht (htarget target ht) hf n
    refine ⟨?_, fun k m' he => hshort.trans (outcome_bind_error he), fun w m' he hmissing' => ?_⟩
    · exact hlong.trans (outcome_bind_error ((outcome_property hp target m).trans hmissing))
    · rw [outcome_bind_ok he] at hshort
      exact hshort.trans (outcome_bind_error hmissing')

/-- A global `o` that is an instance with a field `x`. -/
def oneField : Machine where
  heap :=
    { scopes := Scopes.define (.addRoot {}) 0 "o" (.inst 0)
      instances := #[⟨0, .ofList [("x", .string "a")]⟩] }
  sink := {}
  time := 0
  globals := 0
  scope := 0
  bindings := {}
  depth := 0
  limit := 10

/-- `o.x += (o.x = "b")` makes the field `bb`, and `o.x = o.x + (o.x = "b")` makes it `ab`. -/
theorem compound_assignment_changing :
    let t (kind : Token.Kind) (lexeme : String) : Token := ⟨kind, lexeme, .start, none⟩
    let x := t (.identifier "x") "x"
    let o (id : Nat) : Expr := .variable ⟨id, t (.identifier "o") "o"⟩
    let e : Expr := .set (o 2) x none (.literal (.string "b"))
    outcome (eval 3 (.set (o 0) x (some (t (.symbol .plusEqual) "+=")) e)) oneField ≠
      outcome (eval 4 (.set (o 0) x none (.binary (.get (o 1) x) (t (.symbol .plus) "+") e)))
        oneField := by
  intro t x o e
  have hop : (t (.symbol .plusEqual) "+=").symbol?.bind Symbol.compoundBase? = some .plus := rfl
  have hb : (t (.symbol .plus) "+").symbol? = some .plus := rfl
  have he : ∃ m', eval 2 e oneField = .ok (.string "b") m' ∧
      m'.field? (.inst 0) "x" = some (.string "b") := ⟨_, rfl, rfl⟩
  obtain ⟨m', he, hb'⟩ := he
  obtain ⟨-, hproperty⟩ := compound_assignment hop hb 0 oneField e
  obtain ⟨-, hheld, -⟩ := hproperty (o 0) (o 1) _ _ x x (.variable _) (.variable _) ⟨rfl, rfl⟩ rfl
  obtain ⟨v', hv', -, -, hiff⟩ := (hheld (.inst 0) (.string "a") rfl rfl).2 _ m' he
  obtain rfl := Option.some.inj (hb'.symm.trans hv')
  intro hsame
  have hcombine : Except.ok (Value.string ("b" ++ "b")) = .ok (.string ("a" ++ "b")) :=
    hiff.1 hsame
  simp at hcombine

/-- A method changes the property that is being assigned to. -/
def lateRead (assignment : String) : String :=
  "class A \x7b\x7d var a = A(); a.x = 1; fun f() \x7b a.x = 10; return 1; \x7d " ++ assignment ++
    " print a.x;"

/-- A compound assignment to a property reads it after its right side is run. -/
theorem lateRead_prints :
    (Setup.final { root := "/" } 40
      [.newInterpreter, .runSource 0 none (lateRead "a.x += f();")]).state.world.sink.bytes =
        "11\n".toUTF8 ∧
    (Setup.final { root := "/" } 40
      [.newInterpreter, .runSource 0 none (lateRead "a.x = a.x + f();")]).state.world.sink.bytes =
        "2\n".toUTF8 := by
  decide +kernel

end Treewalk
