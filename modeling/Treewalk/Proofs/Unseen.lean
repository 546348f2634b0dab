import Treewalk.Proofs.Mask

/-!
# What a run does not see

A change of scopes that no way leads to changes nothing about a run but that it is still there at
the end (`runUnseen`). And a run that ends before its steps are used up ends in the same way if it
may go more: this is the case of no change.

An expression may also be run from a scope that is changed, with other references (`Outlook`).
-/

namespace Treewalk

/-! ### Expressions with other references -/

/-- Two expressions that differ in their references only, and there as `R` says. -/
inductive Expr.Like (R : Ref → Ref → Prop) : Expr → Expr → Prop where
  | literal (v : Literal) : Like R (.literal v) (.literal v)
  | grouping {e e'} (h : Like R e e') : Like R (.grouping e) (.grouping e')
  | unary {e e'} (op : Token) (h : Like R e e') : Like R (.unary op e) (.unary op e')
  | binary {l l' r r'} (op : Token) (hl : Like R l l') (hr : Like R r r') :
    Like R (.binary l op r) (.binary l' op r')
  | logical {l l' r r'} (op : Token) (hl : Like R l l') (hr : Like R r r') :
    Like R (.logical l op r) (.logical l' op r')
  | ternary {c c' y y' z z'} (hc : Like R c c') (hy : Like R y y') (hz : Like R z z') :
    Like R (.ternary c y z) (.ternary c' y' z')
  | comma {es es'} (h : List.Forall₂ (Like R) es es') : Like R (.comma es) (.comma es')
  | variable {ref ref'} (hr : R ref ref') : Like R (.variable ref) (.variable ref')
  | assign {ref ref' e e'} (hr : R ref ref') (h : Like R e e') :
    Like R (.assign ref e) (.assign ref' e')
  | compound {ref ref' e e'} (op : Token) (hr : R ref ref') (h : Like R e e') :
    Like R (.compound ref op e) (.compound ref' op e')
  | call {f f' es es'} (paren : Token) (h : Like R f f') (hs : List.Forall₂ (Like R) es es') :
    Like R (.call f paren es) (.call f' paren es')
  | get {e e'} (name : Token) (h : Like R e e') : Like R (.get e name) (.get e' name)
  | set {e e' v v'} (name : Token) (op : Option Token) (h : Like R e e') (hv : Like R v v') :
    Like R (.set e name op v) (.set e' name op v')
  | this {ref ref'} (hr : R ref ref') : Like R (.this ref) (.this ref')
  | super {ref} (name : Token) (hr : R ref ref) : Like R (.super ref name) (.super ref name)

/-- The expression, or a part of it, uses the reference. -/
inductive Expr.Uses : Expr → Use → Ref → Prop where
  | own {e u ref} (h : (u, ref) ∈ e.uses) : Uses e u ref
  | part {e part u ref} (hp : part ∈ e.parts) (h : Uses part u ref) : Uses e u ref

/-- What is true of all references of an expression is true of those of its parts. -/
theorem Expr.Uses.sub {e part : Expr} {P : Ref → Prop} (hp : part ∈ e.parts)
    (h : ∀ u ref, e.Uses u ref → P ref) (u : Use) (ref : Ref) (hu : part.Uses u ref) : P ref :=
  h u ref (.part hp hu)

mutual

theorem Expr.Like.refl {R : Ref → Ref → Prop} :
    ∀ e, (∀ u ref, e.Uses u ref → R ref ref) → Expr.Like R e e
  | .literal v, _ => .literal v
  | .grouping e, h => .grouping (.refl e (Uses.sub (by simp [parts]) h))
  | .unary op e, h => .unary op (.refl e (Uses.sub (by simp [parts]) h))
  | .binary l op r, h => .binary op (.refl l (Uses.sub (by simp [parts]) h))
      (.refl r (Uses.sub (by simp [parts]) h))
  | .logical l op r, h => .logical op (.refl l (Uses.sub (by simp [parts]) h))
      (.refl r (Uses.sub (by simp [parts]) h))
  | .ternary c y z, h => .ternary (.refl c (Uses.sub (by simp [parts]) h))
      (.refl y (Uses.sub (by simp [parts]) h)) (.refl z (Uses.sub (by simp [parts]) h))
  | .comma es, h => .comma (Expr.Like.reflAll es fun _ he => Uses.sub (by simp [parts, he]) h)
  | .variable ref, h => .variable (h .variable ref (.own (by simp [uses])))
  | .assign ref e, h => .assign (h .assign ref (.own (by simp [uses])))
      (.refl e (Uses.sub (by simp [parts]) h))
  | .compound ref op e, h => .compound op (h .compoundRead ref (.own (by simp [uses])))
      (.refl e (Uses.sub (by simp [parts]) h))
  | .call f paren es, h => .call paren (.refl f (Uses.sub (by simp [parts]) h))
      (Expr.Like.reflAll es fun _ he => Uses.sub (by simp [parts, he]) h)
  | .get e name, h => .get name (.refl e (Uses.sub (by simp [parts]) h))
  | .set e name op v, h => .set name op (.refl e (Uses.sub (by simp [parts]) h))
      (.refl v (Uses.sub (by simp [parts]) h))
  | .this ref, h => .this (h .this ref (.own (by simp [uses])))
  | .super ref name, h => .super name (h .super ref (.own (by simp [uses])))

theorem Expr.Like.reflAll {R : Ref → Ref → Prop} :
    ∀ es, (∀ e ∈ es, ∀ u ref, e.Uses u ref → R ref ref) → List.Forall₂ (Expr.Like R) es es
  | [], _ => .nil
  | e :: es, h => .cons (.refl e (h e List.mem_cons_self))
      (Expr.Like.reflAll es fun e he => h e (List.mem_cons_of_mem _ he))

end

mutual

theorem Expr.Like.imp {R S : Ref → Ref → Prop} : ∀ {e e'}, Expr.Like R e e' →
    (∀ u ref, e.Uses u ref → ∀ ref', R ref ref' → S ref ref') → Expr.Like S e e'
  | _, _, .literal v, _ => .literal v
  | _, _, .grouping he, h => .grouping (he.imp (Uses.sub (by simp [parts]) h))
  | _, _, .unary op he, h => .unary op (he.imp (Uses.sub (by simp [parts]) h))
  | _, _, .binary op hl hr, h => .binary op (hl.imp (Uses.sub (by simp [parts]) h))
      (hr.imp (Uses.sub (by simp [parts]) h))
  | _, _, .logical op hl hr, h => .logical op (hl.imp (Uses.sub (by simp [parts]) h))
      (hr.imp (Uses.sub (by simp [parts]) h))
  | _, _, .ternary hc hy hz, h => .ternary (hc.imp (Uses.sub (by simp [parts]) h))
      (hy.imp (Uses.sub (by simp [parts]) h)) (hz.imp (Uses.sub (by simp [parts]) h))
  | _, _, .comma hes, h =>
    .comma (Expr.Like.impAll hes fun _ he => Uses.sub (by simp [parts, he]) h)
  | _, _, .variable hr, h => .variable (h .variable _ (.own (by simp [uses])) _ hr)
  | _, _, .assign hr he, h => .assign (h .assign _ (.own (by simp [uses])) _ hr)
      (he.imp (Uses.sub (by simp [parts]) h))
  | _, _, .compound op hr he, h => .compound op (h .compoundRead _ (.own (by simp [uses])) _ hr)
      (he.imp (Uses.sub (by simp [parts]) h))
  | _, _, .call paren hf hes, h => .call paren (hf.imp (Uses.sub (by simp [parts]) h))
      (Expr.Like.impAll hes fun _ he => Uses.sub (by simp [parts, he]) h)
  | _, _, .get name he, h => .get name (he.imp (Uses.sub (by simp [parts]) h))
  | _, _, .set name op he hv, h => .set name op (he.imp (Uses.sub (by simp [parts]) h))
      (hv.imp (Uses.sub (by simp [parts]) h))
  | _, _, .this hr, h => .this (h .this _ (.own (by simp [uses])) _ hr)
  | _, _, .super name hr, h => .super name (h .super _ (.own (by simp [uses])) _ hr)

theorem Expr.Like.impAll {R S : Ref → Ref → Prop} : ∀ {es es'}, List.Forall₂ (Expr.Like R) es es' →
    (∀ e ∈ es, ∀ u ref, e.Uses u ref → ∀ ref', R ref ref' → S ref ref') →
    List.Forall₂ (Expr.Like S) es es'
  | _, _, .nil, _ => .nil
  | _, _, .cons he hes, h => .cons (he.imp (h _ List.mem_cons_self))
      (Expr.Like.impAll hes fun e he => h e (List.mem_cons_of_mem _ he))

end

mutual

theorem Expr.Like.symm {R : Ref → Ref → Prop} : ∀ {e e'}, Expr.Like R e e' → Expr.Like (flip R) e' e
  | _, _, .literal v => .literal v
  | _, _, .grouping he => .grouping he.symm
  | _, _, .unary op he => .unary op he.symm
  | _, _, .binary op hl hr => .binary op hl.symm hr.symm
  | _, _, .logical op hl hr => .logical op hl.symm hr.symm
  | _, _, .ternary hc hy hz => .ternary hc.symm hy.symm hz.symm
  | _, _, .comma hes => .comma (Expr.Like.symmAll hes)
  | _, _, .variable hr => .variable hr
  | _, _, .assign hr he => .assign hr he.symm
  | _, _, .compound op hr he => .compound op hr he.symm
  | _, _, .call paren hf hes => .call paren hf.symm (Expr.Like.symmAll hes)
  | _, _, .get name he => .get name he.symm
  | _, _, .set name op he hv => .set name op he.symm hv.symm
  | _, _, .this hr => .this hr
  | _, _, .super name hr => .super name hr

theorem Expr.Like.symmAll {R : Ref → Ref → Prop} : ∀ {es es'},
    List.Forall₂ (Expr.Like R) es es' → List.Forall₂ (Expr.Like (flip R)) es' es
  | _, _, .nil => .nil
  | _, _, .cons he hes => .cons he.symm (Expr.Like.symmAll hes)

end

/-- A place to run expressions from, perhaps with other references under the mask. -/
structure Outlook (M : Mask) where
  At : Machine → Prop
  /-- What a reference is under the mask. -/
  Refers : Ref → Ref → Prop
  keeps {m m'} : M.Keeps m m' → At m → At m'
  lookUp {m ref ref'} : M.Fits m.heap → At m → Refers ref ref' →
    Unseen M m (Eval.lookUp ref) (Eval.lookUp ref') M.Passes
  assign {m ref ref' v} : M.Fits m.heap → At m → Refers ref ref' → M.Passes v →
    Unseen M m (Eval.assign ref v) (Eval.assign ref' v) fun _ => True
  superMethod {m ref} : M.Fits m.heap → At m → Refers ref ref → ∀ name,
    Unseen M m (Eval.superMethod ref name) (Eval.superMethod ref name) M.Passes

/-- In a scope that is left as it is. -/
def Mask.outlook (M : Mask) : Outlook M where
  At m := M.Clear m.scope
  Refers ref ref' := ref' = ref
  keeps hk hm := hk.scope ▸ hm
  lookUp hm hs hr := hr ▸ .lookUp hm hs _
  assign hm hs hr hv := hr ▸ .assign hm hs _ hv
  superMethod hm hs _ name := .superMethod hm hs _ name

/-! ### Runs -/

/-- A value that a statement ends with. -/
def Mask.PassesFlow (M : Mask) (flow : Flow) : Prop := ∀ v, flow = .ret v → M.Passes v

/-- A run of `n` steps, and one of `n'` steps with its scopes changed. -/
structure RunUnseen (M : Mask) (n n' : Nat) : Prop where
  eval : ∀ (O : Outlook M) {m e e'}, M.Fits m.heap → O.At m → Expr.Like O.Refers e e' →
    Unseen M m (Eval.eval n e) (Eval.eval n' e') M.Passes
  evalAll : ∀ (O : Outlook M) {m es es'} {vs : List Value}, M.Fits m.heap → O.At m →
    List.Forall₂ (Expr.Like O.Refers) es es' → (∀ v ∈ vs, M.Passes v) →
    Unseen M m (Eval.evalAll n es vs) (Eval.evalAll n' es' vs) fun ws => ∀ w ∈ ws, M.Passes w
  evalLast : ∀ (O : Outlook M) {m es es' v}, M.Fits m.heap → O.At m →
    List.Forall₂ (Expr.Like O.Refers) es es' → M.Passes v →
    Unseen M m (Eval.evalLast n es v) (Eval.evalLast n' es' v) M.Passes
  evalOption : ∀ {m} (e : Option Expr), M.Fits m.heap → M.Clear m.scope →
    Unseen M m (Eval.evalOption n e) (Eval.evalOption n' e) M.Passes
  call : ∀ {m} {c : Callable} {vs : List Value} (paren : Token), M.Fits m.heap →
    M.Passes (.callable c) → (∀ v ∈ vs, M.Passes v) →
    Unseen M m (Eval.call n c vs paren) (Eval.call n' c vs paren) M.Passes
  enter : ∀ {m} {c : Callable} {vs : List Value} (paren : Token), M.Fits m.heap →
    M.Passes (.callable c) → (∀ v ∈ vs, M.Passes v) →
    Unseen M m (Eval.enter n c vs paren) (Eval.enter n' c vs paren) M.Passes
  apply : ∀ {m} {f : Closure} {vs : List Value}, M.Fits m.heap → M.Clear f.scope →
    (∀ v ∈ vs, M.Passes v) → Unseen M m (Eval.apply n f vs) (Eval.apply n' f vs) M.Passes
  setUp : ∀ {m} {ks : List Class} (inst : Nat) {vs : List Value}, M.Fits m.heap →
    (∀ k ∈ ks, M.PassesClass k) → (∀ v ∈ vs, M.Passes v) →
    Unseen M m (Eval.setUp n ks inst vs) (Eval.setUp n' ks inst vs) fun _ => True
  exec : ∀ {m} (s : Stmt), M.Fits m.heap → M.Clear m.scope →
    Unseen M m (Eval.exec n s) (Eval.exec n' s) M.PassesFlow
  execAll : ∀ {m} (ss : List Stmt), M.Fits m.heap → M.Clear m.scope →
    Unseen M m (Eval.execAll n ss) (Eval.execAll n' ss) M.PassesFlow
  loop : ∀ {m} (e : Expr) (step : Option Expr) (body : Stmt), M.Fits m.heap →
    M.Clear m.scope →
    Unseen M m (Eval.loop n e step body) (Eval.loop n' e step body) M.PassesFlow
  initStatics : ∀ {m} (c : Nat) (fields : List FieldDecl), M.Fits m.heap → M.Clear m.scope →
    Unseen M m (Eval.initStatics n c fields) (Eval.initStatics n' c fields) fun _ => True

/-- What an operator yields is no function. -/
theorem Mask.passes_of_ok (M : Mask) {v : Value} (h : v.Aligned {} []) : M.Passes v := by
  rintro f rfl
  obtain ⟨g, body, σ, ⟨path, hbegan⟩, -⟩ := h
  cases hbegan

namespace RunUnseen
variable {M : Mask} {m : Machine} {n n' : Nat}

theorem expr (ih : RunUnseen M n n') (e : Expr) (hm : M.Fits m.heap) (hs : M.Clear m.scope) :
    Unseen M m (Eval.eval n e) (Eval.eval n' e) M.Passes :=
  ih.eval M.outlook hm hs (.refl e fun _ _ _ => rfl)

theorem eval_succ (ih : RunUnseen M n n') (O : Outlook M) {e e' : Expr} (hm : M.Fits m.heap)
    (hO : O.At m) (he : Expr.Like O.Refers e e') :
    Unseen M m (Eval.eval (n + 1) e) (Eval.eval (n' + 1) e') M.Passes := by
  cases he with
  | literal v =>
    rw [Eval.eval, Eval.eval]
    exact .pure hm (M.passes_of_ok (Value.ofLiteral_aligned _ _ v))
  | grouping h =>
    rw [Eval.eval, Eval.eval]
    exact ih.eval O hm hO h
  | unary op h =>
    rw [Eval.eval, Eval.eval]
    refine (ih.eval O hm hO h).bind fun v m' hk _ => .check hk.fits op fun w hw => ?_
    exact M.passes_of_ok (Heap.negate_aligned hw)
  | binary op hl hr =>
    rw [Eval.eval, Eval.eval]
    refine (ih.eval O hm hO hl).bind fun v m₁ hk₁ _ => ?_
    refine (ih.eval O hk₁.fits (O.keeps hk₁ hO) hr).bind fun w m₂ hk₂ _ => .get ?_
    exact .check hk₂.fits op fun u hu => M.passes_of_ok (Heap.operate_aligned hu)
  | logical op hl hr =>
    rw [Eval.eval, Eval.eval]
    refine (ih.eval O hm hO hl).bind fun v m₁ hk₁ hv => .ite (.pure hk₁.fits hv) ?_
    exact ih.eval O hk₁.fits (O.keeps hk₁ hO) hr
  | ternary hc hy hz =>
    rw [Eval.eval, Eval.eval]
    refine (ih.eval O hm hO hc).bind fun v m₁ hk₁ _ => ?_
    have hO₁ := O.keeps hk₁ hO
    exact .ite (ih.eval O hk₁.fits hO₁ hy) (ih.eval O hk₁.fits hO₁ hz)
  | comma h =>
    rw [Eval.eval, Eval.eval]
    exact ih.evalLast O hm hO h fun f hf => by cases hf
  | «variable» hr =>
    rw [Eval.eval, Eval.eval]
    exact O.lookUp hm hO hr
  | assign hr h =>
    rw [Eval.eval, Eval.eval]
    refine (ih.eval O hm hO h).bind fun v m₁ hk₁ hv => ?_
    refine (O.assign hk₁.fits (O.keeps hk₁ hO) hr hv).bind fun _ m₂ hk₂ _ => ?_
    exact .pure hk₂.fits hv
  | compound op hr h =>
    rw [Eval.eval, Eval.eval]
    refine (O.lookUp hm hO hr).bind fun v m₁ hk₁ _ => ?_
    have hO₁ := O.keeps hk₁ hO
    refine (ih.eval O hk₁.fits hO₁ h).bind fun w m₂ hk₂ _ => .get ?_
    have hO₂ := O.keeps hk₂ hO₁
    refine (Unseen.check hk₂.fits op fun u hu => M.passes_of_ok (Heap.combine_aligned hu)).bind ?_
    intro u m₃ hk₃ hu
    refine (O.assign hk₃.fits (O.keeps hk₃ hO₂) hr hu).bind fun _ m₄ hk₄ _ => ?_
    exact .pure hk₄.fits hu
  | call paren h hs =>
    rw [Eval.eval, Eval.eval]
    refine (ih.eval O hm hO h).bind fun f m₁ hk₁ hf => ?_
    refine (ih.evalAll O hk₁.fits (O.keeps hk₁ hO) hs fun v hv => ?_).bind fun vs m₂ hk₂ hvs => ?_
    · cases hv
    split
    · exact ih.call paren hk₂.fits hf hvs
    · exact .throw_fault hk₂.fits paren _
  | get name h =>
    rw [Eval.eval, Eval.eval]
    exact (ih.eval O hm hO h).bind fun v m₁ hk₁ _ => .property hk₁.fits v name
  | set name op h hv =>
    rw [Eval.eval, Eval.eval]
    refine (ih.eval O hm hO h).bind fun target m₁ hk₁ _ => .ite ?_ (.throw_fault hk₁.fits name _)
    refine (ih.eval O hk₁.fits (O.keeps hk₁ hO) hv).bind fun w m₂ hk₂ hw => ?_
    cases op with
    | none =>
      exact (Unseen.setProperty hk₂.fits target _ hw).bind fun _ m₃ hk₃ _ => .pure hk₃.fits hw
    | some op =>
      refine (Unseen.property hk₂.fits target name).bind fun v m₃ hk₃ _ => .get ?_
      refine (Unseen.check hk₃.fits op fun u hu => M.passes_of_ok (Heap.combine_aligned hu)).bind ?_
      intro u m₄ hk₄ hu
      exact (Unseen.setProperty hk₄.fits target _ hu).bind fun _ m₅ hk₅ _ => .pure hk₅.fits hu
  | this hr =>
    rw [Eval.eval, Eval.eval]
    exact O.lookUp hm hO hr
  | super name hr =>
    rw [Eval.eval, Eval.eval]
    exact O.superMethod hm hO hr name

theorem evalAll_succ (ih : RunUnseen M n n') (O : Outlook M) {es es' : List Expr}
    {vs : List Value} (hm : M.Fits m.heap) (hO : O.At m)
    (hes : List.Forall₂ (Expr.Like O.Refers) es es') (hvs : ∀ v ∈ vs, M.Passes v) :
    Unseen M m (Eval.evalAll (n + 1) es vs) (Eval.evalAll (n' + 1) es' vs)
      fun ws => ∀ w ∈ ws, M.Passes w := by
  cases hes with
  | nil =>
    rw [Eval.evalAll, Eval.evalAll]
    exact .pure hm fun w hw => hvs w (List.mem_reverse.1 hw)
  | cons he hes =>
    rw [Eval.evalAll, Eval.evalAll]
    refine (ih.eval O hm hO he).bind fun v m₁ hk₁ hv => ?_
    exact ih.evalAll O hk₁.fits (O.keeps hk₁ hO) hes (List.forall_mem_cons.2 ⟨hv, hvs⟩)

theorem evalLast_succ (ih : RunUnseen M n n') (O : Outlook M) {es es' : List Expr} {v : Value}
    (hm : M.Fits m.heap) (hO : O.At m) (hes : List.Forall₂ (Expr.Like O.Refers) es es')
    (hv : M.Passes v) :
    Unseen M m (Eval.evalLast (n + 1) es v) (Eval.evalLast (n' + 1) es' v) M.Passes := by
  cases hes with
  | nil =>
    rw [Eval.evalLast, Eval.evalLast]
    exact .pure hm hv
  | cons he hes =>
    rw [Eval.evalLast, Eval.evalLast]
    refine (ih.eval O hm hO he).bind fun v m₁ hk₁ hv => ?_
    exact ih.evalLast O hk₁.fits (O.keeps hk₁ hO) hes hv

theorem evalOption_succ (ih : RunUnseen M n n') (e : Option Expr) (hm : M.Fits m.heap)
    (hs : M.Clear m.scope) :
    Unseen M m (Eval.evalOption (n + 1) e) (Eval.evalOption (n' + 1) e) M.Passes := by
  cases e with
  | none =>
    rw [Eval.evalOption, Eval.evalOption]
    exact .pure hm fun f hf => by cases hf
  | some e =>
    rw [Eval.evalOption, Eval.evalOption]
    exact ih.expr e hm hs

theorem call_succ (ih : RunUnseen M n n') {c : Callable} {vs : List Value} (paren : Token)
    (hm : M.Fits m.heap) (hc : M.Passes (.callable c)) (hvs : ∀ v ∈ vs, M.Passes v) :
    Unseen M m (Eval.call (n + 1) c vs paren) (Eval.call (n' + 1) c vs paren) M.Passes := by
  rw [Eval.call, Eval.call]
  refine .get (.ite (.throw_fault hm paren _) (.deeper (.get ?_)))
  rw [M.on_arity]
  exact .ite (ih.enter paren hm hc hvs)
    (.throw_fault (m := { m with depth := m.depth + 1 }) hm paren _)

theorem enter_succ (ih : RunUnseen M n n') {c : Callable} {vs : List Value} (paren : Token)
    (hm : M.Fits m.heap) (hc : M.Passes (.callable c)) (hvs : ∀ v ∈ vs, M.Passes v) :
    Unseen M m (Eval.enter (n + 1) c vs paren) (Eval.enter (n' + 1) c vs paren) M.Passes := by
  cases c with
  | native slot =>
    rw [Eval.enter, Eval.enter]
    exact .callNative hm slot vs paren
  | function f =>
    rw [Eval.enter, Eval.enter]
    exact ih.apply hm (hc f rfl) hvs
  | initializer id c inst =>
    rw [Eval.enter, Eval.enter]
    refine .get ((ih.setUp inst hm (fun k hk => hm.lineage hk) hvs).bind fun _ m₁ hk₁ _ => ?_)
    exact .pure hk₁.fits (M.passes_inst inst)
  | cls c =>
    rw [Eval.enter, Eval.enter]
    refine (Unseen.newInstance hm c).bind fun inst m₁ hk₁ _ => .get ?_
    refine (ih.setUp inst hk₁.fits (fun k hk => hk₁.fits.lineage hk) hvs).bind ?_
    exact fun _ m₂ hk₂ _ => .pure hk₂.fits (M.passes_inst inst)

theorem apply_succ (ih : RunUnseen M n n') {f : Closure} {vs : List Value} (hm : M.Fits m.heap)
    (hf : M.Clear f.scope) (hvs : ∀ v ∈ vs, M.Passes v) :
    Unseen M m (Eval.apply (n + 1) f vs) (Eval.apply (n' + 1) f vs) M.Passes := by
  rw [Eval.apply, Eval.apply]
  refine (Unseen.newScope hm hf).bind fun s m₁ hk₁ hs => ?_
  refine (Unseen.defineAll hk₁.fits hs f.decl.params hvs).bind fun _ m₂ hk₂ _ => ?_
  have hbody : Unseen M m₂ (Eval.inScope s (Eval.execAll n f.decl.body))
      (Eval.inScope s (Eval.execAll n' f.decl.body)) M.PassesFlow :=
    .inScope (ih.execAll f.decl.body hk₂.fits hs)
  refine hbody.bind fun flow m₃ hk₃ hflow => .ite (.get ?_) ?_
  · rw [M.on_scopes, M.here? _ _ hf]
    refine .pure hk₃.fits ?_
    cases hthis : m₃.heap.scopes.here? f.scope "this" with
    | none => exact fun g hg => by cases hg
    | some v => exact hk₃.fits.vars hthis
  · split
    · next v => exact .pure hk₃.fits (hflow v rfl)
    · exact .pure hk₃.fits fun g hg => by cases hg

theorem setUp_succ (ih : RunUnseen M n n') {ks : List Class} (inst : Nat) {vs : List Value}
    (hm : M.Fits m.heap) (hks : ∀ k ∈ ks, M.PassesClass k) (hvs : ∀ v ∈ vs, M.Passes v) :
    Unseen M m (Eval.setUp (n + 1) ks inst vs) (Eval.setUp (n' + 1) ks inst vs)
      fun _ => True := by
  cases ks with
  | nil =>
    rw [Eval.setUp, Eval.setUp]
    exact .pure hm trivial
  | cons k ks =>
    rw [Eval.setUp, Eval.setUp]
    have hk := hks k List.mem_cons_self
    -- a body is bound to the instance and run
    have hrun : ∀ {m' : Machine} {f : Closure} {ws : List Value}, M.Fits m'.heap →
        M.Clear f.scope → (∀ w ∈ ws, M.Passes w) → Unseen M m'
          (do let f ← Eval.bindThis f inst; let _ ← Eval.apply n f ws)
          (do let f ← Eval.bindThis f inst; let _ ← Eval.apply n' f ws) fun _ => True :=
      fun hm' hf hws => (Unseen.bindThis hm' hf inst).bind fun g m₁ hk₁ hg =>
        (ih.apply hk₁.fits hg hws).bind fun _ m₂ hk₂ _ => .pure hk₂.fits trivial
    cases hinit : k.init? with
    | some f => exact hrun hm (hk.methods hinit) hvs
    | none =>
      refine (ih.setUp inst hm (fun k hk => hks k (List.mem_cons_of_mem _ hk)) hvs).bind ?_
      intro _ m₁ hk₁ _
      cases hfields : k.fields with
      | none => exact .pure hk₁.fits trivial
      | some f => exact hrun hk₁.fits (hk.fields hfields) fun w hw => absurd hw List.not_mem_nil

theorem exec_succ (ih : RunUnseen M n n') (s : Stmt) (hm : M.Fits m.heap)
    (hs : M.Clear m.scope) :
    Unseen M m (Eval.exec (n + 1) s) (Eval.exec (n' + 1) s) M.PassesFlow := by
  have hnormal : ∀ {m' : Machine}, M.Fits m'.heap →
      Unseen M m' (pure .normal) (pure .normal) M.PassesFlow := fun hm' =>
    .pure hm' fun v hv => by cases hv
  cases s with
  | expr e =>
    rw [Eval.exec, Eval.exec]
    exact (ih.expr e hm hs).bind fun _ m₁ hk₁ _ => hnormal hk₁.fits
  | print keyword e =>
    rw [Eval.exec, Eval.exec]
    refine (ih.expr e hm hs).bind fun v m₁ hk₁ _ => ?_
    exact (Unseen.print hk₁.fits keyword v).bind fun _ m₂ hk₂ _ => hnormal hk₂.fits
  | var name type init =>
    rw [Eval.exec, Eval.exec]
    refine (ih.evalOption init hm hs).bind fun v m₁ hk₁ hv => ?_
    refine (Unseen.defineHere hk₁.fits (hk₁.scope ▸ hs) _ hv).bind fun _ m₂ hk₂ _ => ?_
    exact hnormal hk₂.fits
  | block body =>
    rw [Eval.exec, Eval.exec]
    refine .get ((Unseen.newScope hm hs).bind fun s m₁ hk₁ hs => ?_)
    exact .inScope (ih.execAll body hk₁.fits hs)
  | decls body =>
    rw [Eval.exec, Eval.exec]
    exact ih.execAll body hm hs
  | branch e y no =>
    cases no with
    | none =>
      rw [Eval.exec, Eval.exec]
      refine (ih.expr e hm hs).bind fun v m₁ hk₁ _ => ?_
      exact .ite (ih.exec y hk₁.fits (hk₁.scope ▸ hs)) (hnormal hk₁.fits)
    | some s =>
      rw [Eval.exec, Eval.exec]
      refine (ih.expr e hm hs).bind fun v m₁ hk₁ _ => ?_
      have hs₁ : M.Clear m₁.scope := hk₁.scope ▸ hs
      exact .ite (ih.exec y hk₁.fits hs₁) (ih.exec s hk₁.fits hs₁)
  | loop e step body =>
    rw [Eval.exec, Eval.exec]
    exact ih.loop e step body hm hs
  | function decl =>
    rw [Eval.exec, Eval.exec]
    refine .get ((Unseen.newClosure hm decl _ false).bind fun f m₁ hk₁ hf => ?_)
    refine (Unseen.defineHere hk₁.fits (hk₁.scope ▸ hs) _ ?_).bind fun _ m₂ hk₂ _ => ?_
    · intro g hg
      cases hg
      exact hf ▸ hs
    · exact hnormal hk₂.fits
  | ret keyword value =>
    rw [Eval.exec, Eval.exec]
    refine (ih.evalOption value hm hs).bind fun v m₁ hk₁ hv => .pure hk₁.fits ?_
    intro w hw
    cases hw
    exact hv
  | brk keyword =>
    rw [Eval.exec, Eval.exec]
    exact .pure hm fun v hv => by cases hv
  | cont keyword =>
    rw [Eval.exec, Eval.exec]
    exact .pure hm fun v hv => by cases hv
  | cls decl =>
    rw [Eval.exec, Eval.exec]
    refine (Unseen.defineHere hm hs _ fun f hf => by cases hf).bind fun _ m₁ hk₁ _ => ?_
    have hs₁ : M.Clear m₁.scope := hk₁.scope ▸ hs
    refine (Unseen.superclassOf hk₁.fits hs₁ decl.superclass).bind fun sup m₂ hk₂ _ => ?_
    have hs₂ : M.Clear m₂.scope := hk₂.scope ▸ hs₁
    refine (Unseen.classScope hk₂.fits hs₂ sup).bind fun s m₃ hk₃ hs => ?_
    refine (Unseen.buildClass hk₃.fits decl sup hs).bind fun c m₄ hk₄ _ => ?_
    have hstatics : Unseen M m₄ (Eval.inScope s (Eval.initStatics n c decl.staticFields))
        (Eval.inScope s (Eval.initStatics n' c decl.staticFields)) fun _ => True :=
      .inScope (ih.initStatics c decl.staticFields hk₄.fits hs)
    refine hstatics.bind fun _ m₅ hk₅ _ => ?_
    have hs₅ : M.Clear m₅.scope := hk₅.scope ▸ hk₄.scope ▸ hk₃.scope ▸ hs₂
    refine (Unseen.defineHere hk₅.fits hs₅ _ fun f hf => by cases hf).bind fun _ m₆ hk₆ _ => ?_
    exact hnormal hk₆.fits
  | require decl =>
    rw [Eval.exec, Eval.exec]
    exact hnormal hm
  | expose keyword names =>
    rw [Eval.exec, Eval.exec]
    exact hnormal hm

theorem execAll_succ (ih : RunUnseen M n n') (ss : List Stmt) (hm : M.Fits m.heap)
    (hs : M.Clear m.scope) :
    Unseen M m (Eval.execAll (n + 1) ss) (Eval.execAll (n' + 1) ss) M.PassesFlow := by
  cases ss with
  | nil =>
    rw [Eval.execAll, Eval.execAll]
    exact .pure hm fun v hv => by cases hv
  | cons s ss =>
    rw [Eval.execAll, Eval.execAll]
    refine (ih.exec s hm hs).bind fun flow m₁ hk₁ hflow => ?_
    cases flow with
    | normal => exact ih.execAll ss hk₁.fits (hk₁.scope ▸ hs)
    | ret v => exact .pure hk₁.fits hflow
    | brk => exact .pure hk₁.fits hflow
    | cont => exact .pure hk₁.fits hflow

theorem loop_succ (ih : RunUnseen M n n') (e : Expr) (step : Option Expr) (body : Stmt)
    (hm : M.Fits m.heap) (hs : M.Clear m.scope) :
    Unseen M m (Eval.loop (n + 1) e step body) (Eval.loop (n' + 1) e step body)
      M.PassesFlow := by
  have hnormal : ∀ {m' : Machine}, M.Fits m'.heap →
      Unseen M m' (pure .normal) (pure .normal) M.PassesFlow := fun hm' =>
    .pure hm' fun v hv => by cases hv
  rw [Eval.loop, Eval.loop]
  refine (ih.expr e hm hs).bind fun v m₁ hk₁ _ => .ite ?_ (hnormal hk₁.fits)
  have hs₁ : M.Clear m₁.scope := hk₁.scope ▸ hs
  refine (ih.exec body hk₁.fits hs₁).bind fun flow m₂ hk₂ hflow => ?_
  have hs₂ : M.Clear m₂.scope := hk₂.scope ▸ hs₁
  have hagain := (ih.evalOption step hk₂.fits hs₂).bind fun _ m₃ hk₃ _ =>
    ih.loop e step body hk₃.fits (hk₃.scope ▸ hs₂)
  cases flow with
  | normal => exact hagain
  | cont => exact hagain
  | brk => exact hnormal hk₂.fits
  | ret v => exact .pure hk₂.fits hflow

theorem initStatics_succ (ih : RunUnseen M n n') (c : Nat) (fields : List FieldDecl)
    (hm : M.Fits m.heap) (hs : M.Clear m.scope) :
    Unseen M m (Eval.initStatics (n + 1) c fields) (Eval.initStatics (n' + 1) c fields)
      fun _ => True := by
  cases fields with
  | nil =>
    rw [Eval.initStatics, Eval.initStatics]
    exact .pure hm trivial
  | cons field fields =>
    rw [Eval.initStatics, Eval.initStatics]
    refine (ih.evalOption field.init hm hs).bind fun v m₁ hk₁ hv => ?_
    refine (Unseen.setProperty hk₁.fits _ _ hv).bind fun _ m₂ hk₂ _ => ?_
    exact ih.initStatics c fields hk₂.fits (hk₂.scope ▸ hk₁.scope ▸ hs)

end RunUnseen

/-- Changes in scopes that no way leads to are not seen, with any more steps allowed. -/
theorem runUnseen (M : Mask) {n n' : Nat} (h : n ≤ n') : RunUnseen M n n' := by
  induction n generalizing n' with
  | zero =>
    refine ⟨?_, ?_, ?_, ?_, ?_, ?_, ?_, ?_, ?_, ?_, ?_, ?_⟩
    all_goals intros; exact .exhausted
  | succ n ih =>
    obtain ⟨n', rfl⟩ := Nat.exists_eq_add_one.2 (Nat.lt_of_lt_of_le (Nat.succ_pos n) h)
    have ih := ih (Nat.le_of_succ_le_succ h)
    exact ⟨fun O => ih.eval_succ O, fun O => ih.evalAll_succ O, fun O => ih.evalLast_succ O,
      ih.evalOption_succ, ih.call_succ, ih.enter_succ, ih.apply_succ, ih.setUp_succ,
      ih.exec_succ, ih.execAll_succ, ih.loop_succ, ih.initStatics_succ⟩

end Treewalk
