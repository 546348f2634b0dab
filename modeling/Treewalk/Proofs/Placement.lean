import Treewalk.Proofs.Resolution

/-!
# What stands in its right place

Binding names also finds what stands in the wrong place. `Stmt.Lawful p` says what it looks for, by
the `Standing` of a statement alone: the function, the class and the loops that it is in. No name
and no scope comes into it. `Accepted.lawful`: a program in which binding finds no fault is lawful.
-/

namespace Treewalk

/-- What a piece of code is in. -/
structure Standing where
  function : Option FunctionKind := none
  cls : Option ClassKind := none
  inStatic : Bool := false
  loops : Nat := 0

namespace Standing

/-- In a function. The loops around it do not count. -/
def inside (p : Standing) (kind : FunctionKind) : Standing :=
  { p with function := some kind, loops := 0 }

/-- In a class, and there in a static member or in one of instances. -/
def within (p : Standing) (decl : ClassDecl) (isStatic : Bool) : Standing :=
  let kind := if decl.superclass.isSome then ClassKind.derived else .base
  { p with cls := some kind, inStatic := isStatic }

def inLoop (p : Standing) : Standing := { p with loops := p.loops + 1 }

end Standing

/-- What a method is as a function. -/
def FunctionDecl.kind (f : FunctionDecl) : FunctionKind := if f.isInit then .initializer else .method

mutual

/-- `this` stands in a member of instances, and `super` in one of a class with a superclass. -/
def Expr.Lawful (p : Standing) : Expr → Prop
  | .literal _ | .variable _ => True
  | .grouping e | .unary _ e | .assign _ e | .compound _ _ e | .get e _ => Expr.Lawful p e
  | .binary l _ r | .logical l _ r | .set l _ _ r => Expr.Lawful p l ∧ Expr.Lawful p r
  | .ternary c y n => Expr.Lawful p c ∧ Expr.Lawful p y ∧ Expr.Lawful p n
  | .comma es => Expr.LawfulAll p es
  | .call callee _ args => Expr.Lawful p callee ∧ Expr.LawfulAll p args
  | .this _ => p.cls.isSome ∧ p.inStatic = false
  | .super _ _ => p.cls = some .derived ∧ p.inStatic = false

def Expr.LawfulAll (p : Standing) : List Expr → Prop
  | [] => True
  | e :: es => Expr.Lawful p e ∧ Expr.LawfulAll p es

end

def Expr.LawfulOption (p : Standing) (e : Option Expr) : Prop := ∀ e' ∈ e, e'.Lawful p

mutual

/-- `return` stands in a function, with a value not in an initializer; `break` and `continue` stand
in a loop of the same function. -/
def Stmt.Lawful (p : Standing) : Stmt → Prop
  | .expr e | .print _ e => e.Lawful p
  | .var _ _ init => Expr.LawfulOption p init
  | .block body | .decls body => Stmt.LawfulAll p body
  | .branch e y none => e.Lawful p ∧ Stmt.Lawful p y
  | .branch e y (some n) => e.Lawful p ∧ Stmt.Lawful p y ∧ Stmt.Lawful p n
  | .loop e step body => e.Lawful p ∧ Expr.LawfulOption p step ∧ Stmt.Lawful p.inLoop body
  | .function decl => FunctionDecl.Lawful (p.inside .function) decl
  | .ret _ value =>
    p.function.isSome ∧ (p.function = some .initializer → value = none) ∧
      Expr.LawfulOption p value
  | .brk _ | .cont _ => p.loops ≠ 0
  | .cls decl => ClassDecl.Lawful p decl
  | .require _ | .expose _ _ => True

def Stmt.LawfulAll (p : Standing) : List Stmt → Prop
  | [] => True
  | s :: ss => Stmt.Lawful p s ∧ Stmt.LawfulAll p ss

/-- The body of a function is lawful in the function. -/
def FunctionDecl.Lawful (p : Standing) : FunctionDecl → Prop
  | ⟨_, _, body⟩ => Stmt.LawfulAll p body

def FunctionDecl.LawfulStatics (p : Standing) : List FunctionDecl → Prop
  | [] => True
  | f :: fs => FunctionDecl.Lawful (p.inside .function) f ∧ FunctionDecl.LawfulStatics p fs

def FunctionDecl.LawfulMethods (p : Standing) : List FunctionDecl → Prop
  | [] => True
  | f :: fs => FunctionDecl.Lawful (p.inside f.kind) f ∧ FunctionDecl.LawfulMethods p fs

/-- The members of a class are lawful in it. What initializes fields is a method. -/
def ClassDecl.Lawful (p : Standing) : ClassDecl → Prop
  | ⟨name, superclass, methods, fields, staticMethods, staticFields⟩ =>
    let decl : ClassDecl := ⟨name, superclass, methods, fields, staticMethods, staticFields⟩
    (∀ f ∈ staticFields, Expr.LawfulOption (p.within decl true) f.init) ∧
      FunctionDecl.LawfulStatics (p.within decl true) staticMethods ∧
      FunctionDecl.LawfulMethods (p.within decl false) methods ∧
      match fields with
      | some f => FunctionDecl.Lawful ((p.within decl false).inside .method) f
      | none => True

end

variable {p : Standing}

theorem Expr.lawfulAll_iff {es : List Expr} : Expr.LawfulAll p es ↔ ∀ e ∈ es, e.Lawful p := by
  induction es with
  | nil => simp [LawfulAll]
  | cons e es ih => simp [LawfulAll, ih]

theorem Stmt.lawfulAll_iff {ss : List Stmt} : Stmt.LawfulAll p ss ↔ ∀ s ∈ ss, s.Lawful p := by
  induction ss with
  | nil => simp [LawfulAll]
  | cons s ss ih => simp [LawfulAll, ih]

theorem FunctionDecl.lawful_iff {f : FunctionDecl} : f.Lawful p ↔ Stmt.LawfulAll p f.body := by
  cases f
  simp [Lawful]

theorem FunctionDecl.lawfulStatics_iff {fs : List FunctionDecl} :
    FunctionDecl.LawfulStatics p fs ↔ ∀ f ∈ fs, f.Lawful (p.inside .function) := by
  induction fs with
  | nil => simp [LawfulStatics]
  | cons f fs ih => simp [LawfulStatics, ih]

theorem FunctionDecl.lawfulMethods_iff {fs : List FunctionDecl} :
    FunctionDecl.LawfulMethods p fs ↔ ∀ f ∈ fs, f.Lawful (p.inside f.kind) := by
  induction fs with
  | nil => simp [LawfulMethods]
  | cons f fs ih => simp [LawfulMethods, ih]

theorem ClassDecl.lawful_iff {decl : ClassDecl} :
    decl.Lawful p ↔ (∀ f ∈ decl.staticFields, Expr.LawfulOption (p.within decl true) f.init) ∧
      (∀ f ∈ decl.staticMethods, f.Lawful ((p.within decl true).inside .function)) ∧
      (∀ f ∈ decl.methods, f.Lawful ((p.within decl false).inside f.kind)) ∧
      ∀ f ∈ decl.fields, f.Lawful ((p.within decl false).inside .method) := by
  obtain ⟨name, superclass, methods, fields, staticMethods, staticFields⟩ := decl
  cases fields <;>
    simp [Lawful, FunctionDecl.lawfulStatics_iff, FunctionDecl.lawfulMethods_iff]

/-! ### The walk comes back to where it stood -/

namespace Context

def standing (c : Context) : Standing := ⟨c.function, c.cls, c.inStatic, c.loops⟩

variable (c : Context)

@[simp] theorem fault_standing (t : Token) (f : BindingFault) : (c.fault t f).standing = c.standing :=
  rfl

@[simp] theorem find_standing (f : Finding) : (c.find f).standing = c.standing := rfl

@[simp] theorem refer_standing (ref : Ref) : (c.refer ref).standing = c.standing := by
  unfold refer
  split <;> rfl

@[simp] theorem push_standing : c.push.standing = c.standing := rfl

@[simp] theorem pop_standing : c.pop.standing = c.standing := rfl

@[simp] theorem note_standing (x : String) (b : Bool) : (c.note x b).standing = c.standing := by
  unfold note
  split <;> rfl

@[simp] theorem declare_standing (name : Token) : (c.declare name).standing = c.standing := by
  unfold declare
  split
  · dsimp only
    split <;> simp
  · rfl

@[simp] theorem define_standing (name : Token) : (c.define name).standing = c.standing :=
  c.note_standing _ _

@[simp] theorem defineAll_standing (names : List Token) :
    (c.defineAll names).standing = c.standing := by
  induction names generalizing c with
  | nil => rfl
  | cons name names ih =>
    have h := ih ((c.declare name).define name)
    rw [define_standing, declare_standing] at h
    exact h

end Context

mutual

@[simp] theorem Expr.bind_standing : ∀ (e : Expr) (c : Context), (e.bind c).standing = c.standing
  | .literal _, _ => rfl
  | .grouping e, c | .unary _ e, c | .get e _, c => by rw [Expr.bind, e.bind_standing]
  | .binary l _ r, c | .logical l _ r, c => by rw [Expr.bind, r.bind_standing, l.bind_standing]
  | .ternary t y n, c => by
    rw [Expr.bind, n.bind_standing, y.bind_standing, t.bind_standing]
  | .comma es, c => by rw [Expr.bind, Expr.bindAll_standing es]
  | .variable ref, c => by
    rw [Expr.bind, Context.refer_standing]
    split <;> rfl
  | .assign ref e, c | .compound ref _ e, c => by
    rw [Expr.bind, Context.refer_standing, e.bind_standing]
  | .call callee _ args, c => by
    rw [Expr.bind, Expr.bindAll_standing args, callee.bind_standing]
  | .set e _ _ v, c => by rw [Expr.bind, e.bind_standing, v.bind_standing]
  | .this ref, c => by
    rw [Expr.bind]
    split
    · rfl
    · split <;> simp
  | .super ref _, c => by
    rw [Expr.bind]
    split
    · rfl
    · rfl
    · split <;> simp

@[simp] theorem Expr.bindAll_standing : ∀ (es : List Expr) (c : Context),
    (Expr.bindAll es c).standing = c.standing
  | [], _ => rfl
  | e :: es, c => by rw [Expr.bindAll, Expr.bindAll_standing es, e.bind_standing]

end

@[simp] theorem Expr.bindOption_standing (e : Option Expr) (c : Context) :
    (Expr.bindOption e c).standing = c.standing := by
  cases e with
  | none => rfl
  | some e => exact e.bind_standing c

@[simp] theorem FieldDecl.bindAll_standing (fields : List FieldDecl) (c : Context) :
    (FieldDecl.bindAll fields c).standing = c.standing := by
  induction fields generalizing c with
  | nil => rfl
  | cons f fs ih => exact (ih (Expr.bindOption f.init c)).trans (Expr.bindOption_standing f.init c)

namespace ClassDecl
variable (decl : ClassDecl) (c : Context)

theorem inStatics_standing : (decl.inStatics c).standing = c.standing.within decl true := by
  have hentered : ((c.declare decl.name).define decl.name).standing = c.standing := by simp
  have hfunction := congrArg Standing.function hentered
  have hloops := congrArg Standing.loops hentered
  have h : (decl.entered c).standing = { c.standing.within decl true with
      inStatic := ((c.declare decl.name).define decl.name).inStatic } := by
    simp only [entered, Context.standing, Standing.within, Standing.mk.injEq]
    exact ⟨hfunction, trivial, trivial, hloops⟩
  unfold inStatics
  split
  · next ref _ =>
    have hr : (((decl.entered c).refer ref).push.note "super" true).standing =
        (decl.entered c).standing := by simp
    rw [h] at hr
    exact congrArg (fun p : Standing => { p with inStatic := true }) hr
  · exact congrArg (fun p : Standing => { p with inStatic := true }) h

theorem inInstances_standing
    (hs : ∀ c, (FunctionDecl.bindStatics decl.staticMethods c).standing = c.standing) :
    (decl.inInstances c).standing = c.standing.within decl false := by
  have h : (FunctionDecl.bindStatics decl.staticMethods
      (FieldDecl.bindAll decl.staticFields (decl.inStatics c))).standing =
      c.standing.within decl true := by
    rw [hs, FieldDecl.bindAll_standing, inStatics_standing]
  rw [inInstances, Context.note_standing, Context.push_standing]
  exact congrArg (fun p : Standing => { p with inStatic := false }) h

theorem afterInstances_standing
    (hs : ∀ c, (FunctionDecl.bindStatics decl.staticMethods c).standing = c.standing)
    (hm : ∀ c, (FunctionDecl.bindMethods decl.methods c).standing = c.standing)
    (hf : ∀ f ∈ decl.fields, ∀ c, (FunctionDecl.bind .method f c).standing = c.standing) :
    (decl.afterInstances c).standing = c.standing.within decl false := by
  have h := hm (decl.inInstances c)
  rw [decl.inInstances_standing c hs] at h
  unfold afterInstances
  cases hfields : decl.fields with
  | none => exact h
  | some f => exact (hf f hfields _).trans h

theorem bind_standing_of
    (hs : ∀ c, (FunctionDecl.bindStatics decl.staticMethods c).standing = c.standing)
    (hm : ∀ c, (FunctionDecl.bindMethods decl.methods c).standing = c.standing)
    (hf : ∀ f ∈ decl.fields, ∀ c, (FunctionDecl.bind .method f c).standing = c.standing) :
    (decl.bind c).standing = c.standing := by
  have h := decl.afterInstances_standing c hs hm hf
  have hback := congrArg
    (fun p : Standing => { p with inStatic := c.inStatic, cls := c.cls }) h
  rw [bind_eq]
  dsimp only
  split <;> exact hback

end ClassDecl

mutual

@[simp] theorem Stmt.bind_standing : ∀ (s : Stmt) (c : Context), (s.bind c).standing = c.standing
  | .expr e, c | .print _ e, c => e.bind_standing c
  | .var name _ init, c => by simp [Stmt.bind]
  | .block body, c => by simp [Stmt.bind, Stmt.bindAll_standing body]
  | .decls body, c => Stmt.bindAll_standing body c
  | .branch e y none, c => by simp [Stmt.bind, y.bind_standing]
  | .branch e y (some n), c => by simp [Stmt.bind, y.bind_standing, n.bind_standing]
  | .loop e step body, c => by
    -- One loop more inside, and one less again behind it.
    have he := e.bind_standing c
    have hbody := body.bind_standing { e.bind c with loops := (e.bind c).loops + 1 }
    rw [Stmt.bind, Expr.bindOption_standing]
    simp only [Context.standing, Standing.mk.injEq] at he hbody ⊢
    obtain ⟨h₁, h₂, h₃, h₄⟩ := hbody
    refine ⟨h₁.trans he.1, h₂.trans he.2.1, h₃.trans he.2.2.1, ?_⟩
    rw [h₄, Nat.add_sub_cancel]
    exact he.2.2.2
  | .function decl, c => by simp [Stmt.bind, FunctionDecl.bind_standing .function decl]
  | .ret keyword value, c => by
    rw [Stmt.bind, Expr.bindOption_standing]
    split <;> split <;> rfl
  | .brk keyword, c | .cont keyword, c => by
    rw [Stmt.bind]
    split <;> rfl
  | .cls decl, c => ClassDecl.bind_standing decl c
  | .require decl, c | .expose keyword names, c => by
    rw [Stmt.bind]
    split <;> rfl

@[simp] theorem Stmt.bindAll_standing : ∀ (ss : List Stmt) (c : Context),
    (Stmt.bindAll ss c).standing = c.standing
  | [], _ => rfl
  | s :: ss, c => by rw [Stmt.bindAll, Stmt.bindAll_standing ss, s.bind_standing]

@[simp] theorem FunctionDecl.bind_standing (kind : FunctionKind) : ∀ (f : FunctionDecl) (c : Context),
    (FunctionDecl.bind kind f c).standing = c.standing
  | ⟨_, params, body⟩, c => by
    have h := Stmt.bindAll_standing body
      (({ c.push with function := some kind, loops := 0 } : Context).defineAll params)
    rw [Context.defineAll_standing] at h
    exact congrArg (fun p : Standing => { p with function := c.function, loops := c.loops }) h

@[simp] theorem FunctionDecl.bindStatics_standing : ∀ (fs : List FunctionDecl) (c : Context),
    (FunctionDecl.bindStatics fs c).standing = c.standing
  | [], _ => rfl
  | f :: fs, c => by
    rw [FunctionDecl.bindStatics, FunctionDecl.bindStatics_standing fs,
      FunctionDecl.bind_standing .function f]

@[simp] theorem FunctionDecl.bindMethods_standing : ∀ (fs : List FunctionDecl) (c : Context),
    (FunctionDecl.bindMethods fs c).standing = c.standing
  | [], _ => rfl
  | f :: fs, c => by
    rw [FunctionDecl.bindMethods, FunctionDecl.bindMethods_standing fs]
    exact FunctionDecl.bind_standing _ f c

@[simp] theorem ClassDecl.bind_standing : ∀ (decl : ClassDecl) (c : Context),
    (decl.bind c).standing = c.standing
  | ⟨_, _, methods, fields, staticMethods, _⟩, c => by
    refine ClassDecl.bind_standing_of _ c (FunctionDecl.bindStatics_standing staticMethods)
      (FunctionDecl.bindMethods_standing methods) ?_
    cases fields with
    | none => simp
    | some f =>
      intro f' hf'
      injection hf' with hf'
      rw [← hf']
      exact FunctionDecl.bind_standing .method f

end

/-! ### What is not lawful is found -/

namespace Context

/-- The walk has found no fault. -/
def Faultless (c : Context) : Prop := ∀ t f, Finding.fault t f ∉ c.found

theorem not_faultless_fault (c : Context) (t : Token) (f : BindingFault) :
    ¬ (c.fault t f).Faultless := fun h => h t f (List.mem_cons_self ..)

theorem Faultless.of_adds {c c' : Context} {ids : List Nat} (h : c'.Faultless)
    (ha : Finding.Adds ids c.found c'.found) : c.Faultless := fun t f hf => h t f (ha.mem hf)

theorem Faultless.before {c c' : Context} {xs : List String} {ids : List Nat} (h : c'.Faultless)
    (he : Effect xs ids c c') : c.Faultless := h.of_adds he.found

end Context

mutual

theorem Expr.lawful_of_bind : ∀ (e : Expr) (c : Context), (e.bind c).Faultless → e.Lawful c.standing
  | .literal _, _, _ | .variable _, _, _ => trivial
  | .grouping e, c, h | .unary _ e, c, h | .get e _, c, h => e.lawful_of_bind c h
  | .assign ref e, c, h | .compound ref _ e, c, h =>
    e.lawful_of_bind c (h.before (.refer _ ref))
  | .binary l _ r, c, h | .logical l _ r, c, h => by
    have hl := l.lawful_of_bind c (h.before (r.bind_effect _))
    have hr := r.lawful_of_bind _ h
    rw [l.bind_standing] at hr
    exact ⟨hl, hr⟩
  | .set e _ _ v, c, h => by
    have hv := v.lawful_of_bind c (h.before (e.bind_effect _))
    have he := e.lawful_of_bind _ h
    rw [v.bind_standing] at he
    exact ⟨he, hv⟩
  | .ternary t y n, c, h => by
    have hyes := h.before (n.bind_effect _)
    have ht := t.lawful_of_bind c (hyes.before (y.bind_effect _))
    have hy := y.lawful_of_bind _ hyes
    have hn := n.lawful_of_bind _ h
    rw [t.bind_standing] at hy
    rw [y.bind_standing, t.bind_standing] at hn
    exact ⟨ht, hy, hn⟩
  | .comma es, c, h => Expr.lawfulAll_of_bind es c h
  | .call callee _ args, c, h => by
    have hc := callee.lawful_of_bind c (h.before (Expr.bindAll_effect args _))
    have hargs := Expr.lawfulAll_of_bind args _ h
    rw [callee.bind_standing] at hargs
    exact ⟨hc, hargs⟩
  | .this ref, c, h => by
    rw [Expr.bind] at h
    split at h
    · exact absurd h (c.not_faultless_fault _ _)
    · next hcls =>
      split at h
      · exact absurd h (c.not_faultless_fault _ _)
      · next hstatic =>
        refine ⟨Option.isSome_iff_ne_none.2 fun hnone => hcls ?_, Bool.eq_false_iff.2 hstatic⟩
        exact Option.isNone_iff_eq_none.2 hnone
  | .super ref _, c, h => by
    rw [Expr.bind] at h
    split at h
    · exact absurd h (c.not_faultless_fault _ _)
    · exact absurd h (c.not_faultless_fault _ _)
    · next hcls =>
      split at h
      · exact absurd h (c.not_faultless_fault _ _)
      · next hstatic => exact ⟨hcls, Bool.eq_false_iff.2 hstatic⟩

theorem Expr.lawfulAll_of_bind : ∀ (es : List Expr) (c : Context),
    (Expr.bindAll es c).Faultless → Expr.LawfulAll c.standing es
  | [], _, _ => trivial
  | e :: es, c, h => by
    have he := e.lawful_of_bind c (h.before (Expr.bindAll_effect es _))
    have hes := Expr.lawfulAll_of_bind es _ h
    rw [e.bind_standing] at hes
    exact ⟨he, hes⟩

end

theorem Expr.lawfulOption_of_bind {e : Option Expr} {c : Context}
    (h : (Expr.bindOption e c).Faultless) : Expr.LawfulOption c.standing e := by
  rintro e' rfl
  exact e'.lawful_of_bind c h

theorem FieldDecl.lawful_of_bind {fields : List FieldDecl} {c : Context}
    (h : (FieldDecl.bindAll fields c).Faultless) :
    ∀ f ∈ fields, Expr.LawfulOption c.standing f.init := by
  induction fields generalizing c with
  | nil => simp
  | cons f fs ih =>
    have hfirst : (Expr.bindOption f.init c).Faultless := h.before (FieldDecl.bindAll_effect fs _)
    have hrest := ih (c := Expr.bindOption f.init c) h
    rw [Expr.bindOption_standing] at hrest
    intro f' hf'
    rcases List.mem_cons.1 hf' with rfl | hf'
    · exact Expr.lawfulOption_of_bind hfirst
    · exact hrest f' hf'

namespace ClassDecl
variable {decl : ClassDecl} {c : Context}

/-- The walk is without a fault where the members of a class start and end. -/
theorem faultless_members (h : (decl.bind c).Faultless) :
    (decl.afterInstances c).Faultless ∧ (decl.inInstances c).Faultless := by
  have hafter : (decl.afterInstances c).Faultless := by
    intro t f hf
    rw [← decl.bind_found] at hf
    exact h t f hf
  exact ⟨hafter, hafter.before (decl.afterInstances_effect (FunctionDecl.bindMethods_effect _)
    fun f _ => FunctionDecl.bind_effect .method f)⟩

theorem lawful_of_members (h : (decl.bind c).Faultless)
    (hs : ∀ c, (FunctionDecl.bindStatics decl.staticMethods c).Faultless →
      FunctionDecl.LawfulStatics c.standing decl.staticMethods)
    (hm : ∀ c, (FunctionDecl.bindMethods decl.methods c).Faultless →
      FunctionDecl.LawfulMethods c.standing decl.methods)
    (hf : ∀ f ∈ decl.fields, ∀ c, (FunctionDecl.bind .method f c).Faultless →
      f.Lawful (c.standing.inside .method)) : decl.Lawful c.standing := by
  obtain ⟨hafter, hinstances⟩ := faultless_members h
  have hstatics : (FunctionDecl.bindStatics decl.staticMethods
      (FieldDecl.bindAll decl.staticFields (decl.inStatics c))).Faultless := by
    intro t f hf
    refine hinstances t f ?_
    rw [inInstances, Context.note_found]
    exact hf
  have hfields : (FieldDecl.bindAll decl.staticFields (decl.inStatics c)).Faultless :=
    hstatics.before (FunctionDecl.bindStatics_effect _ _)
  have hmethods : (FunctionDecl.bindMethods decl.methods (decl.inInstances c)).Faultless := by
    unfold afterInstances at hafter
    cases hd : decl.fields with
    | none => simpa [hd] using hafter
    | some f =>
      rw [hd] at hafter
      exact hafter.before (FunctionDecl.bind_effect .method f _)
  have hin := decl.inInstances_standing c (FunctionDecl.bindStatics_standing _)
  refine lawful_iff.2 ⟨?_, ?_, ?_, ?_⟩
  · have hl := FieldDecl.lawful_of_bind hfields
    rwa [decl.inStatics_standing] at hl
  · have hl := hs _ hstatics
    rw [FieldDecl.bindAll_standing, decl.inStatics_standing] at hl
    exact FunctionDecl.lawfulStatics_iff.1 hl
  · have hl := hm _ hmethods
    rw [hin] at hl
    exact FunctionDecl.lawfulMethods_iff.1 hl
  · intro f hd
    rw [afterInstances, hd] at hafter
    have hl := hf f hd _ hafter
    rwa [FunctionDecl.bindMethods_standing, hin] at hl

end ClassDecl

mutual

theorem Stmt.lawful_of_bind : ∀ (s : Stmt) (c : Context), (s.bind c).Faultless → s.Lawful c.standing
  | .expr e, c, h | .print _ e, c, h => e.lawful_of_bind c h
  | .var name _ init, c, h => by
    have h' : (Expr.bindOption init (c.declare name)).Faultless := fun t f hf =>
      h t f (by rw [Stmt.bind, Context.define_found]; exact hf)
    have hinit := Expr.lawfulOption_of_bind h'
    rwa [Context.declare_standing] at hinit
  | .block body, c, h => Stmt.lawfulAll_of_bind body c.push h
  | .decls body, c, h => Stmt.lawfulAll_of_bind body c h
  | .branch e y none, c, h => by
    have he := e.lawful_of_bind c (h.before (y.bind_effect _))
    have hy := y.lawful_of_bind _ h
    rw [e.bind_standing] at hy
    exact ⟨he, hy⟩
  | .branch e y (some n), c, h => by
    have hyes := h.before (n.bind_effect _)
    have he := e.lawful_of_bind c (hyes.before (y.bind_effect _))
    have hy := y.lawful_of_bind _ hyes
    have hn := n.lawful_of_bind _ h
    rw [e.bind_standing] at hy
    rw [y.bind_standing, e.bind_standing] at hn
    exact ⟨he, hy, hn⟩
  | .loop e step body, c, h => by
    have hbody := h.before (Expr.bindOption_effect step _).inLoops
    have he := e.lawful_of_bind c (hbody.before (body.bind_effect _).inLoops)
    have hb := body.lawful_of_bind { e.bind c with loops := (e.bind c).loops + 1 } hbody
    have hstep := Expr.lawfulOption_of_bind h
    have hstanding := (Stmt.loop e step body).bind_standing c
    rw [Stmt.bind, Expr.bindOption_standing] at hstanding
    rw [hstanding] at hstep
    have hinner : ({ e.bind c with loops := (e.bind c).loops + 1 } : Context).standing =
        c.standing.inLoop := congrArg Standing.inLoop (e.bind_standing c)
    rw [hinner] at hb
    exact ⟨he, hstep, hb⟩
  | .function decl, c, h => by
    have hl := FunctionDecl.lawful_of_bind .function decl _ h
    rwa [Context.define_standing, Context.declare_standing] at hl
  | .ret keyword value, c, h => by
    have hvalue := Expr.lawfulOption_of_bind h
    have hno := h.before (Expr.bindOption_effect value _)
    split at hno
    · exact absurd (hno.before (.faultIf _ _ _ _)) (c.not_faultless_fault _ _)
    · next hfunction =>
      split at hno
      · exact absurd hno (c.not_faultless_fault _ _)
      · next hinit =>
        rw [if_neg hfunction, if_neg hinit] at hvalue
        refine ⟨Option.isSome_iff_ne_none.2 fun hnone => hfunction ?_, fun hkind => ?_, hvalue⟩
        · exact Option.isNone_iff_eq_none.2 hnone
        · have hk : c.function = some .initializer := hkind
          simpa [hk] using hinit
  | .brk keyword, c, h | .cont keyword, c, h => by
    rw [Stmt.bind] at h
    split at h
    · exact absurd h (c.not_faultless_fault _ _)
    · next hloops =>
      intro hzero
      exact hloops (beq_iff_eq.2 hzero)
  | .cls decl, c, h => ClassDecl.lawful_of_bind decl c h
  | .require _, _, _ | .expose _ _, _, _ => trivial

theorem Stmt.lawfulAll_of_bind : ∀ (ss : List Stmt) (c : Context),
    (Stmt.bindAll ss c).Faultless → Stmt.LawfulAll c.standing ss
  | [], _, _ => trivial
  | s :: ss, c, h => by
    have hs := s.lawful_of_bind c (h.before (Stmt.bindAll_effect ss _))
    have hss := Stmt.lawfulAll_of_bind ss _ h
    rw [s.bind_standing] at hss
    exact ⟨hs, hss⟩

theorem FunctionDecl.lawful_of_bind (kind : FunctionKind) : ∀ (f : FunctionDecl) (c : Context),
    (FunctionDecl.bind kind f c).Faultless → f.Lawful (c.standing.inside kind)
  | ⟨_, params, body⟩, c, h => by
    have hl := Stmt.lawfulAll_of_bind body
      (({ c.push with function := some kind, loops := 0 } : Context).defineAll params) h
    rwa [Context.defineAll_standing] at hl

theorem FunctionDecl.lawfulStatics_of_bind : ∀ (fs : List FunctionDecl) (c : Context),
    (FunctionDecl.bindStatics fs c).Faultless → FunctionDecl.LawfulStatics c.standing fs
  | [], _, _ => trivial
  | f :: fs, c, h => by
    have hf := FunctionDecl.lawful_of_bind .function f c
      (h.before (FunctionDecl.bindStatics_effect fs _))
    have hfs := FunctionDecl.lawfulStatics_of_bind fs _ h
    rw [FunctionDecl.bind_standing] at hfs
    exact ⟨hf, hfs⟩

theorem FunctionDecl.lawfulMethods_of_bind : ∀ (fs : List FunctionDecl) (c : Context),
    (FunctionDecl.bindMethods fs c).Faultless → FunctionDecl.LawfulMethods c.standing fs
  | [], _, _ => trivial
  | f :: fs, c, h => by
    have hf := FunctionDecl.lawful_of_bind f.kind f c
      (h.before (FunctionDecl.bindMethods_effect fs _))
    have hfs := FunctionDecl.lawfulMethods_of_bind fs _ h
    rw [FunctionDecl.bind_standing] at hfs
    exact ⟨hf, hfs⟩

theorem ClassDecl.lawful_of_bind : ∀ (decl : ClassDecl) (c : Context),
    (decl.bind c).Faultless → decl.Lawful c.standing
  | ⟨_, _, methods, fields, staticMethods, _⟩, c, h => by
    refine ClassDecl.lawful_of_members h (FunctionDecl.lawfulStatics_of_bind staticMethods)
      (FunctionDecl.lawfulMethods_of_bind methods) ?_
    cases fields with
    | none => simp
    | some f =>
      intro f' hf'
      injection hf' with hf'
      rw [← hf']
      exact FunctionDecl.lawful_of_bind .method f

end

theorem Accepted.lawful {program : List Stmt} (h : Accepted program) :
    Stmt.LawfulAll {} program :=
  Stmt.lawfulAll_of_bind program {} fun t f hf => h t f (List.mem_reverse.2 hf)

/-! ### Every piece of a lawful program is lawful -/

/-- What is lawful for a piece of code. A function is told by the standing inside of it. -/
def Code.Lawful (p : Standing) : Code → Prop
  | .stmts ss => Stmt.LawfulAll p ss
  | .stmt s => s.Lawful p
  | .expr e => e.Lawful p
  | .function decl | .body decl => p.function.isSome ∧ p.loops = 0 ∧ decl.Lawful p
  | .use .this _ => p.cls.isSome ∧ p.inStatic = false
  | .use .super _ => p.cls = some .derived ∧ p.inStatic = false
  | .use _ _ => True

/-- The scope is that of a block or a call. -/
def Origin.IsPlain : Origin → Prop
  | .block _ | .call _ => True
  | .this _ | .super _ => False

/-- The scopes around code in a member of instances, innermost first: there are only blocks and
calls inside of the scope of `this`, and outside of that, just around it, is the scope of `super` if
the class has one. -/
def Standing.Around (p : Standing) (program : List Stmt) (os : List Origin) : Prop :=
  match p.cls, p.inStatic with
  | none, _ => ∀ o ∈ os, o.IsPlain
  | some kind, false =>
    ∃ inner decl f σ, os = inner ++ .this f :: (decl.around σ).map (·.origin) ∧
      (∀ o ∈ inner, o.IsPlain) ∧ Placed program (.stmt (.cls decl)) σ ∧ f ∈ decl.ofInstances ∧
      (kind = .derived ↔ decl.superclass.isSome)
  | some _, true => True

theorem Expr.Lawful.part {e part : Expr} (h : e.Lawful p) (hp : part ∈ e.parts) :
    part.Lawful p := by
  cases e <;> simp only [parts, List.mem_cons, List.not_mem_nil, or_false, Lawful] at h hp
  case grouping | unary | get | assign | compound => exact hp ▸ h
  case binary | logical | set => rcases hp with rfl | rfl <;> simp [h]
  case ternary => rcases hp with rfl | rfl | rfl <;> simp [h]
  case comma => exact lawfulAll_iff.1 h _ hp
  case call => exact hp.elim (· ▸ h.1) (lawfulAll_iff.1 h.2 _)

theorem Expr.Lawful.use {e : Expr} {u : Use} {ref : Ref} (h : e.Lawful p)
    (hu : (u, ref) ∈ e.uses) : (Code.use u ref).Lawful p := by
  cases e <;>
    simp only [uses, List.mem_cons, List.not_mem_nil, or_false, Prod.mk.injEq, Lawful] at h hu
  case «variable» | assign => obtain ⟨rfl, rfl⟩ := hu; trivial
  case compound => rcases hu with ⟨rfl, rfl⟩ | ⟨rfl, rfl⟩ <;> trivial
  case this | super => obtain ⟨rfl, rfl⟩ := hu; exact h

theorem Stmt.Lawful.expr {s : Stmt} {e : Expr} (h : s.Lawful p) (he : e ∈ s.exprs) :
    e.Lawful p := by
  match s with
  | .expr _ | .print _ _ => rw [exprs, List.mem_singleton] at he; exact he ▸ h
  | .branch _ _ none | .branch _ _ (some _) | .loop _ _ _ =>
    rw [exprs, List.mem_singleton] at he; rw [Lawful] at h; exact he ▸ h.1
  | .ret _ (some _) => rw [exprs, List.mem_singleton] at he; exact h.2.2 e (by simp [he])
  | .ret _ none | .var _ _ _ | .block _ | .decls _ | .function _ | .brk _ | .cont _ | .cls _
  | .require _ | .expose _ _ => simp [exprs] at he

namespace Layer

@[simp] theorem map_origin_define (x : String) (σ : List Layer) :
    (define x σ).map (·.origin) = σ.map (·.origin) := by
  cases σ <;> rfl

@[simp] theorem map_origin_defineAll (xs : List String) (σ : List Layer) :
    (defineAll xs σ).map (·.origin) = σ.map (·.origin) := by
  induction xs generalizing σ with
  | nil => rfl
  | cons x xs ih => rw [defineAll_cons, ih, map_origin_define]

@[simp] theorem map_origin_await (x : String) (σ : List Layer) :
    (await x σ).map (·.origin) = σ.map (·.origin) := by
  cases σ <;> rfl

end Layer

theorem Standing.Around.cons {program : List Stmt} {os : List Origin}
    (h : p.Around program os) {o : Origin} (ho : o.IsPlain) : p.Around program (o :: os) := by
  unfold Around at h ⊢
  split at h
  · exact List.forall_mem_cons.2 ⟨ho, h⟩
  · obtain ⟨inner, decl, f, σ, rfl, hinner, hrest⟩ := h
    exact ⟨o :: inner, decl, f, σ, rfl, List.forall_mem_cons.2 ⟨ho, hinner⟩, hrest⟩
  · trivial

theorem Standing.around_within {program : List Stmt} {decl : ClassDecl} {f : FunctionDecl}
    {σ : List Layer} (h : Placed program (.stmt (.cls decl)) σ) (hf : f ∈ decl.ofInstances)
    (kind : FunctionKind) :
    ((p.within decl false).inside kind).Around program
      ((Layer.this f :: decl.around σ).map (·.origin)) := by
  refine ⟨[], decl, f, σ, rfl, by simp, h, hf, ?_⟩
  cases decl.superclass <;> simp

theorem Placed.lawful {program : List Stmt} {code : Code} {σ : List Layer}
    (hp : Stmt.LawfulAll {} program) (h : Placed program code σ) :
    ∃ p : Standing, code.Lawful p ∧ p.Around program (σ.map (·.origin)) := by
  induction h with
  | program => exact ⟨{}, hp, by simp [Standing.Around]⟩
  | head _ ih =>
    obtain ⟨p, h, ho⟩ := ih
    exact ⟨p, h.1, ho⟩
  | tail _ ih =>
    obtain ⟨p, h, ho⟩ := ih
    exact ⟨p, h.2, by rwa [Layer.map_origin_defineAll]⟩
  | expr _ he ih =>
    obtain ⟨p, h, ho⟩ := ih
    exact ⟨p, h.expr he, ho⟩
  | init _ ih =>
    obtain ⟨p, h, ho⟩ := ih
    exact ⟨p, h _ rfl, by rwa [Layer.map_origin_await]⟩
  | block _ ih =>
    obtain ⟨p, h, ho⟩ := ih
    exact ⟨p, h, ho.cons trivial⟩
  | decls _ ih => exact ih
  | @yes _ _ n _ _ ih =>
    obtain ⟨p, h, ho⟩ := ih
    cases n with
    | none => exact ⟨p, h.2, ho⟩
    | some n => exact ⟨p, h.2.1, ho⟩
  | no _ ih =>
    obtain ⟨p, h, ho⟩ := ih
    exact ⟨p, h.2.2, by rwa [Layer.map_origin_defineAll]⟩
  | round _ ih =>
    obtain ⟨p, h, ho⟩ := ih
    exact ⟨p.inLoop, h.2.2, ho⟩
  | step _ ih =>
    obtain ⟨p, h, ho⟩ := ih
    exact ⟨p, h.2.1 _ rfl, by rwa [Layer.map_origin_defineAll]⟩
  | function _ ih =>
    obtain ⟨p, h, ho⟩ := ih
    rw [← Layer.map_origin_define] at ho
    exact ⟨p.inside .function, ⟨rfl, rfl, h⟩, ho⟩
  | superclass _ _ ih =>
    obtain ⟨p, -, ho⟩ := ih
    exact ⟨p, trivial, by rwa [Layer.map_origin_define]⟩
  | @staticField decl _ _ _ _ hf he ih =>
    obtain ⟨p, h, -⟩ := ih
    exact ⟨p.within decl true, (ClassDecl.lawful_iff.1 h).1 _ hf _ he, trivial⟩
  | @staticMethod decl _ _ _ hf ih =>
    obtain ⟨p, h, -⟩ := ih
    exact ⟨(p.within decl true).inside .function,
      ⟨rfl, rfl, (ClassDecl.lawful_iff.1 h).2.1 _ hf⟩, trivial⟩
  | @method decl f _ hd hf ih =>
    obtain ⟨p, h, -⟩ := ih
    obtain ⟨-, -, hm, hi⟩ := ClassDecl.lawful_iff.1 h
    rcases List.mem_append.1 hf with hmem | hmem
    · exact ⟨_, ⟨rfl, rfl, hm f hmem⟩, Standing.around_within hd hf f.kind⟩
    · exact ⟨_, ⟨rfl, rfl, hi f (Option.mem_toList.1 hmem)⟩, Standing.around_within hd hf .method⟩
  | inside _ ih =>
    obtain ⟨p, h, ho⟩ := ih
    exact ⟨p, h, ho.cons trivial⟩
  | body _ ih =>
    obtain ⟨p, h, ho⟩ := ih
    exact ⟨p, FunctionDecl.lawful_iff.1 h.2.2, ho⟩
  | part _ hpart ih =>
    obtain ⟨p, h, ho⟩ := ih
    exact ⟨p, h.part hpart, ho⟩
  | use _ hu ih =>
    obtain ⟨p, h, ho⟩ := ih
    exact ⟨p, h.use hu, ho⟩

/-! ### Parameters -/

/-- Names that are declared in one scope without a fault differ, from each other and from those that
the scope declared before. -/
theorem Context.nodup_of_defineAll {c : Context} {t : Names} {ts : List Names} {names : List Token}
    (hs : c.scopes = t :: ts) (h : (c.defineAll names).Faultless) :
    (names.map (·.lexeme)).Nodup ∧ ∀ a ∈ names.map (·.lexeme), t.contains a = false := by
  induction names generalizing c t with
  | nil => simp
  | cons name names ih =>
    have hs' : ((c.declare name).define name).scopes = t.insert name.lexeme true :: ts := by
      rw [define_scopes, declare_scopes, Names.define_await, hs]
      rfl
    have hrest : (((c.declare name).define name).defineAll names).Faultless := h
    obtain ⟨hnodup, hnew⟩ := ih hs' hrest
    have hname : t.contains name.lexeme = false := Bool.eq_false_iff.2 fun ht => by
      refine hrest name .declaredTwice ((Effect.defineAll _ names).found.mem ?_)
      rw [define_found]
      exact c.declare_twice name hs ht
    have hother : ∀ a ∈ names.map (·.lexeme), name.lexeme ≠ a ∧ t.contains a = false := by
      intro a ha
      have := hnew a ha
      rw [Table.contains_insert, Bool.or_eq_false_iff] at this
      exact ⟨of_decide_eq_false this.1, this.2⟩
    rw [List.map_cons]
    refine ⟨List.nodup_cons.2 ⟨fun ha => (hother _ ha).1 rfl, hnodup⟩, ?_⟩
    exact List.forall_mem_cons.2 ⟨hname, fun a ha => (hother a ha).2⟩

/-- No two parameters of a function have one name. -/
theorem Placed.params_nodup {program : List Stmt} {decl : FunctionDecl} {σ : List Layer}
    (hids : (Stmt.idsAll program).Nodup) (hok : Accepted program)
    (h : Placed program (.function decl) σ) : (decl.params.map (·.lexeme)).Nodup := by
  obtain ⟨c, c', hb⟩ := h.bound hids hok
  have hno : c'.Faultless := hb.faultless hok
  obtain ⟨kind, rfl⟩ := hb.binds
  obtain ⟨name, params, body⟩ := decl
  let inner : Context := { c.push with function := some kind, loops := 0 }
  have hparams : (inner.defineAll params).Faultless :=
    Context.Faultless.of_adds hno (Stmt.bindAll_effect body _).found
  have hscopes : inner.scopes = {} :: c.scopes := rfl
  exact (Context.nodup_of_defineAll hscopes hparams).1

end Treewalk
