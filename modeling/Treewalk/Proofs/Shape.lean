import Treewalk.Proofs.Lexical

/-!
# What trees of texts look like

Two facts about the trees that reading a text yields. References have ids, all different
(`Stmt.ids`). And the trees are `Tidy`: names that a text declares or uses are not `this` or
`super`, which stand for the hidden variables only; the arms of a branch and the body of a loop
declare nothing; what initializes the fields of a class takes no arguments.
-/

namespace Treewalk

/-- The token is not one of the words for hidden variables. -/
def Token.IsName (t : Token) : Prop := t.lexeme ≠ "this" ∧ t.lexeme ≠ "super"

mutual

/-- The ids of the references of an expression. -/
def Expr.ids : Expr → List Nat
  | .literal _ => []
  | .grouping e | .unary _ e | .get e _ => Expr.ids e
  | .binary l _ r | .logical l _ r => Expr.ids l ++ Expr.ids r
  | .ternary c y n => Expr.ids c ++ (Expr.ids y ++ Expr.ids n)
  | .comma es => Expr.idsAll es
  | .variable ref | .this ref | .super ref _ => [ref.id]
  | .assign ref e | .compound ref _ e => Expr.ids e ++ [ref.id]
  | .call callee _ args => Expr.ids callee ++ Expr.idsAll args
  | .set e _ _ v => Expr.ids v ++ Expr.ids e

/-- The ids of the references of expressions. -/
def Expr.idsAll : List Expr → List Nat
  | [] => []
  | e :: es => Expr.ids e ++ Expr.idsAll es

end

/-- The ids of the references of an expression that may not be there. -/
def Expr.idsOption : Option Expr → List Nat
  | some e => e.ids
  | none => []

/-- The ids of the references in the initializers of static fields. -/
def FieldDecl.idsAll : List FieldDecl → List Nat
  | [] => []
  | f :: fs => Expr.idsOption f.init ++ FieldDecl.idsAll fs

mutual

/-- The ids of the references of a statement. -/
def Stmt.ids : Stmt → List Nat
  | .expr e | .print _ e => e.ids
  | .var _ _ init => Expr.idsOption init
  | .block body | .decls body => Stmt.idsAll body
  | .branch e y none => e.ids ++ Stmt.ids y
  | .branch e y (some n) => e.ids ++ (Stmt.ids y ++ Stmt.ids n)
  | .loop e step body => e.ids ++ (Stmt.ids body ++ Expr.idsOption step)
  | .function decl => FunctionDecl.ids decl
  | .ret _ value => Expr.idsOption value
  | .cls decl => ClassDecl.ids decl
  | .brk _ | .cont _ | .require _ | .expose _ _ => []

/-- The ids of the references of statements. -/
def Stmt.idsAll : List Stmt → List Nat
  | [] => []
  | s :: ss => Stmt.ids s ++ Stmt.idsAll ss

/-- The ids of the references of a function. -/
def FunctionDecl.ids : FunctionDecl → List Nat
  | ⟨_, _, body⟩ => Stmt.idsAll body

/-- The ids of the references of functions. -/
def FunctionDecl.idsAll : List FunctionDecl → List Nat
  | [] => []
  | f :: fs => FunctionDecl.ids f ++ FunctionDecl.idsAll fs

/-- The ids of the references of a class. -/
def ClassDecl.ids : ClassDecl → List Nat
  | ⟨_, superclass, methods, fields, staticMethods, staticFields⟩ =>
    (superclass.map (·.id)).toList ++ (FieldDecl.idsAll staticFields ++
      (FunctionDecl.idsAll staticMethods ++ (FunctionDecl.idsAll methods ++
        match fields with
        | some f => FunctionDecl.ids f
        | none => [])))

end

theorem FunctionDecl.ids_eq (f : FunctionDecl) : f.ids = Stmt.idsAll f.body := by
  cases f
  rw [ids]

mutual

/-- Names of an expression are no hidden variables. -/
def Expr.Tidy : Expr → Prop
  | .literal _ => True
  | .grouping e | .unary _ e | .get e _ => Expr.Tidy e
  | .binary l _ r | .logical l _ r => Expr.Tidy l ∧ Expr.Tidy r
  | .ternary c y n => Expr.Tidy c ∧ Expr.Tidy y ∧ Expr.Tidy n
  | .comma es => Expr.TidyAll es
  | .variable ref => ref.name.IsName
  | .this ref => ref.name.lexeme = "this"
  | .super ref _ => ref.name.lexeme = "super"
  | .assign ref e | .compound ref _ e => ref.name.IsName ∧ Expr.Tidy e
  | .call callee _ args => Expr.Tidy callee ∧ Expr.TidyAll args
  | .set e _ _ v => Expr.Tidy e ∧ Expr.Tidy v

/-- All of the expressions are tidy. -/
def Expr.TidyAll : List Expr → Prop
  | [] => True
  | e :: es => Expr.Tidy e ∧ Expr.TidyAll es

end

/-- The expression is tidy if it is there. -/
def Expr.TidyOption (e : Option Expr) : Prop := ∀ e' ∈ e, e'.Tidy

mutual

/-- See above for what makes a statement tidy. -/
def Stmt.Tidy : Stmt → Prop
  | .expr e | .print _ e => e.Tidy
  | .var name _ init => name.IsName ∧ Expr.TidyOption init
  | .block body | .decls body => Stmt.TidyAll body
  | .branch e y none => e.Tidy ∧ Stmt.Tidy y ∧ y.declared = []
  | .branch e y (some n) =>
    e.Tidy ∧ Stmt.Tidy y ∧ y.declared = [] ∧ Stmt.Tidy n ∧ n.declared = []
  | .loop e step body => e.Tidy ∧ Expr.TidyOption step ∧ Stmt.Tidy body ∧ body.declared = []
  | .function decl => decl.name.IsName ∧ FunctionDecl.Tidy decl
  | .ret _ value => Expr.TidyOption value
  | .cls decl => ClassDecl.Tidy decl
  | .brk _ | .cont _ | .require _ | .expose _ _ => True

/-- All of the statements are tidy. -/
def Stmt.TidyAll : List Stmt → Prop
  | [] => True
  | s :: ss => Stmt.Tidy s ∧ Stmt.TidyAll ss

/-- The parameters and the body of a function are tidy. -/
def FunctionDecl.Tidy : FunctionDecl → Prop
  | ⟨_, params, body⟩ => (∀ p ∈ params, p.IsName) ∧ Stmt.TidyAll body

/-- All of the functions are tidy. -/
def FunctionDecl.TidyAll : List FunctionDecl → Prop
  | [] => True
  | f :: fs => FunctionDecl.Tidy f ∧ FunctionDecl.TidyAll fs

/-- The name, the superclass and the members of a class are tidy. -/
def ClassDecl.Tidy : ClassDecl → Prop
  | ⟨name, superclass, methods, fields, staticMethods, staticFields⟩ =>
    name.IsName ∧ (∀ ref ∈ superclass, ref.name.IsName) ∧ FunctionDecl.TidyAll methods ∧
      (match fields with
        | some f => FunctionDecl.Tidy f ∧ f.params = []
        | none => True) ∧
      FunctionDecl.TidyAll staticMethods ∧ ∀ f ∈ staticFields, Expr.TidyOption f.init

end

theorem Expr.tidyAll_iff {es : List Expr} : Expr.TidyAll es ↔ ∀ e ∈ es, e.Tidy := by
  induction es with
  | nil => simp [TidyAll]
  | cons e es ih => simp [TidyAll, ih]

theorem Stmt.tidyAll_iff {ss : List Stmt} : Stmt.TidyAll ss ↔ ∀ s ∈ ss, s.Tidy := by
  induction ss with
  | nil => simp [TidyAll]
  | cons s ss ih => simp [TidyAll, ih]

theorem FunctionDecl.tidyAll_iff {fs : List FunctionDecl} :
    FunctionDecl.TidyAll fs ↔ ∀ f ∈ fs, f.Tidy := by
  induction fs with
  | nil => simp [TidyAll]
  | cons f fs ih => simp [TidyAll, ih]

theorem FunctionDecl.tidy_iff {f : FunctionDecl} :
    f.Tidy ↔ (∀ p ∈ f.params, p.IsName) ∧ Stmt.TidyAll f.body := by
  cases f
  simp [Tidy]

theorem ClassDecl.tidy_iff {decl : ClassDecl} :
    decl.Tidy ↔ decl.name.IsName ∧ (∀ ref ∈ decl.superclass, ref.name.IsName) ∧
      (∀ f ∈ decl.methods, f.Tidy) ∧ (∀ f ∈ decl.fields, f.Tidy ∧ f.params = []) ∧
      (∀ f ∈ decl.staticMethods, f.Tidy) ∧ ∀ f ∈ decl.staticFields, Expr.TidyOption f.init := by
  obtain ⟨name, superclass, methods, fields, staticMethods, staticFields⟩ := decl
  cases fields <;> simp [Tidy, FunctionDecl.tidyAll_iff]

theorem Expr.Tidy.part {e part : Expr} (h : e.Tidy) (hp : part ∈ e.parts) : part.Tidy := by
  cases e <;> simp only [parts, List.mem_cons, List.not_mem_nil, or_false, Tidy] at h hp
  case grouping | unary | get => exact hp ▸ h
  case binary | logical => rcases hp with rfl | rfl <;> simp [h]
  case ternary => rcases hp with rfl | rfl | rfl <;> simp [h]
  case comma => exact tidyAll_iff.1 h _ hp
  case assign | compound => exact hp ▸ h.2
  case call => exact hp.elim (· ▸ h.1) (tidyAll_iff.1 h.2 _)
  case set => rcases hp with rfl | rfl <;> simp [h]

theorem Stmt.Tidy.expr {s : Stmt} {e : Expr} (h : s.Tidy) (he : e ∈ s.exprs) : e.Tidy := by
  match s with
  | .expr _ | .print _ _ => rw [exprs, List.mem_singleton] at he; exact he ▸ h
  | .branch _ _ none | .branch _ _ (some _) | .loop _ _ _ =>
    rw [exprs, List.mem_singleton] at he; rw [Tidy] at h; exact he ▸ h.1
  | .ret _ (some _) => rw [exprs, List.mem_singleton] at he; exact h e (by simp [he])
  | .ret _ none | .var _ _ _ | .block _ | .decls _ | .function _ | .brk _ | .cont _ | .cls _
  | .require _ | .expose _ _ => simp [exprs] at he

/-- What a tidy piece of code is. -/
def Code.Tidy : Code → Prop
  | .stmts ss => Stmt.TidyAll ss
  | .stmt s => s.Tidy
  | .expr e => e.Tidy
  | .function decl | .body decl => decl.Tidy
  | .use .this ref => ref.name.lexeme = "this"
  | .use .super ref => ref.name.lexeme = "super"
  | .use _ ref => ref.name.IsName

/-- Every piece of a tidy program is tidy. -/
theorem Placed.tidy {program : List Stmt} {code : Code} {σ : List Layer}
    (hp : Stmt.TidyAll program) (h : Placed program code σ) : code.Tidy := by
  induction h with
  | program => exact hp
  | head _ ih => exact ih.1
  | tail _ ih => exact ih.2
  | expr _ he ih => exact ih.expr he
  | init _ ih => exact ih.2 _ rfl
  | block _ ih | decls _ ih => exact ih
  | @yes _ _ n _ _ ih => cases n <;> exact ih.2.1
  | no _ ih => exact ih.2.2.2.1
  | round _ ih => exact ih.2.2.1
  | step _ ih => exact ih.2.1 _ rfl
  | function _ ih => exact ih.2
  | superclass _ hr ih => exact (ClassDecl.tidy_iff.1 ih).2.1 _ hr
  | staticField _ hf he ih => exact (ClassDecl.tidy_iff.1 ih).2.2.2.2.2 _ hf _ he
  | staticMethod _ hf ih => exact (ClassDecl.tidy_iff.1 ih).2.2.2.2.1 _ hf
  | method _ hf ih =>
    obtain ⟨-, -, hm, hi, -⟩ := ClassDecl.tidy_iff.1 ih
    rcases List.mem_append.1 hf with hf | hf
    · exact hm _ hf
    · exact (hi _ (Option.mem_toList.1 hf)).1
  | inside _ ih => exact ih
  | body _ ih => exact (FunctionDecl.tidy_iff.1 ih).2
  | part _ hp ih => exact ih.part hp
  | @use e u ref _ _ hu ih =>
    cases e <;>
      simp only [Expr.uses, List.mem_cons, List.not_mem_nil, or_false, Prod.mk.injEq] at hu
    case «variable» | this | super => obtain ⟨rfl, rfl⟩ := hu; exact ih
    case assign => obtain ⟨rfl, rfl⟩ := hu; exact ih.1
    case compound => rcases hu with ⟨rfl, rfl⟩ | ⟨rfl, rfl⟩ <;> exact ih.1

end Treewalk
