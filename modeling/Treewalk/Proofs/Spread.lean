import Treewalk.Proofs.Balance
import Treewalk.Proofs.Reading

/-!
# Declarations of several variables, one by one

`Stmt.spreadAll` puts the declarations that a `Stmt.decls` holds in its place, wherever one stands
in a list of statements. Binding names finds the same in both trees (`findings_spreadAll`), and of a
tree that was read from a text no `decls` is left (`Program.read_listed`, `Stmt.Listed.plainAll`).
-/

namespace Treewalk

/-! ### Spread trees -/

/-- The statements that a statement stands for in a list. -/
def Stmt.unpacked : Stmt → List Stmt
  | .decls body => body
  | s => [s]

mutual

/-- The statement with the lists inside of it spread. -/
def Stmt.spread : Stmt → Stmt
  | .expr e => .expr e
  | .print keyword e => .print keyword e
  | .var name typeName init => .var name typeName init
  | .block body => .block (Stmt.spreadAll body)
  | .decls body => .decls (Stmt.spreadAll body)
  | .branch e y none => .branch e (Stmt.spread y) none
  | .branch e y (some n) => .branch e (Stmt.spread y) (some (Stmt.spread n))
  | .loop e step body => .loop e step (Stmt.spread body)
  | .function decl => .function (FunctionDecl.spread decl)
  | .ret keyword value => .ret keyword value
  | .brk keyword => .brk keyword
  | .cont keyword => .cont keyword
  | .cls decl => .cls (ClassDecl.spread decl)
  | .require decl => .require decl
  | .expose keyword names => .expose keyword names

/-- The list with the declarations of each `decls` in its place. -/
def Stmt.spreadAll : List Stmt → List Stmt
  | [] => []
  | s :: ss => (Stmt.spread s).unpacked ++ Stmt.spreadAll ss

/-- The function with its body spread. -/
def FunctionDecl.spread : FunctionDecl → FunctionDecl
  | ⟨name, params, body⟩ => ⟨name, params, Stmt.spreadAll body⟩

/-- The functions with their bodies spread. -/
def FunctionDecl.spreadEach : List FunctionDecl → List FunctionDecl
  | [] => []
  | f :: fs => FunctionDecl.spread f :: FunctionDecl.spreadEach fs

/-- The class with the bodies of its methods spread. -/
def ClassDecl.spread : ClassDecl → ClassDecl
  | ⟨name, superclass, methods, fields, staticMethods, staticFields⟩ =>
    { name, superclass, methods := FunctionDecl.spreadEach methods
      fields := match fields with
        | some f => some (FunctionDecl.spread f)
        | none => none
      staticMethods := FunctionDecl.spreadEach staticMethods, staticFields }

end

@[simp] theorem FunctionDecl.spread_name (f : FunctionDecl) : f.spread.name = f.name := by
  obtain ⟨name, params, body⟩ := f
  rfl

@[simp] theorem FunctionDecl.spread_params (f : FunctionDecl) : f.spread.params = f.params := by
  obtain ⟨name, params, body⟩ := f
  rfl

@[simp] theorem FunctionDecl.spread_body (f : FunctionDecl) :
    f.spread.body = Stmt.spreadAll f.body := by
  obtain ⟨name, params, body⟩ := f
  rfl

@[simp] theorem FunctionDecl.isInit_spread (f : FunctionDecl) : f.spread.isInit = f.isInit := by
  rw [isInit, isInit, spread_name]

theorem FunctionDecl.spreadEach_eq_map (fs : List FunctionDecl) :
    spreadEach fs = fs.map spread := by
  induction fs with
  | nil => rfl
  | cons f fs ih => rw [spreadEach, ih, List.map_cons]

theorem ClassDecl.spread_eq (decl : ClassDecl) :
    decl.spread = { decl with
      methods := decl.methods.map FunctionDecl.spread
      fields := decl.fields.map FunctionDecl.spread
      staticMethods := decl.staticMethods.map FunctionDecl.spread } := by
  obtain ⟨name, superclass, methods, fields, staticMethods, staticFields⟩ := decl
  cases fields <;> simp only [spread, FunctionDecl.spreadEach_eq_map] <;> rfl

namespace Stmt

theorem unpacked_spread {s : Stmt} (h : ∀ body, s ≠ .decls body) :
    s.spread.unpacked = [s.spread] := by
  cases s with
  | decls body => exact absurd rfl (h body)
  | branch e y n => cases n <;> rfl
  | _ => rfl

theorem spreadAll_append (ss ss' : List Stmt) :
    spreadAll (ss ++ ss') = spreadAll ss ++ spreadAll ss' := by
  induction ss with
  | nil => rfl
  | cons s ss ih => rw [List.cons_append, spreadAll, spreadAll, ih, List.append_assoc]

theorem spreadAll_unpacked (s : Stmt) : spreadAll s.unpacked = s.spread.unpacked := by
  cases s with
  | decls body => rw [unpacked, spread, unpacked]
  | _ => exact List.append_nil _

end Stmt

mutual

/-- What is spread stays as it is. -/
theorem Stmt.spread_spread : ∀ s : Stmt, s.spread.spread = s.spread
  | .expr _ | .print _ _ | .var _ _ _ | .ret _ _ | .brk _ | .cont _ | .require _
  | .expose _ _ => rfl
  | .block body | .decls body => by rw [Stmt.spread, Stmt.spread, Stmt.spreadAll_spreadAll body]
  | .branch _ y none => by rw [Stmt.spread, Stmt.spread, y.spread_spread]
  | .branch _ y (some n) => by rw [Stmt.spread, Stmt.spread, y.spread_spread, n.spread_spread]
  | .loop _ _ body => by rw [Stmt.spread, Stmt.spread, body.spread_spread]
  | .function decl => by rw [Stmt.spread, Stmt.spread, decl.spread_spread]
  | .cls decl => by rw [Stmt.spread, Stmt.spread, decl.spread_spread]

theorem Stmt.spreadAll_spreadAll : ∀ ss : List Stmt,
    Stmt.spreadAll (Stmt.spreadAll ss) = Stmt.spreadAll ss
  | [] => rfl
  | s :: ss => by
    rw [Stmt.spreadAll, Stmt.spreadAll_append, Stmt.spreadAll_unpacked, s.spread_spread,
      Stmt.spreadAll_spreadAll ss]

theorem FunctionDecl.spread_spread : ∀ f : FunctionDecl, f.spread.spread = f.spread
  | ⟨name, params, body⟩ => by
    rw [FunctionDecl.spread, FunctionDecl.spread, Stmt.spreadAll_spreadAll body]

theorem FunctionDecl.spreadEach_spreadEach : ∀ fs : List FunctionDecl,
    FunctionDecl.spreadEach (FunctionDecl.spreadEach fs) = FunctionDecl.spreadEach fs
  | [] => rfl
  | f :: fs => by
    rw [FunctionDecl.spreadEach, FunctionDecl.spreadEach, f.spread_spread,
      FunctionDecl.spreadEach_spreadEach fs]

theorem ClassDecl.spread_spread : ∀ decl : ClassDecl, decl.spread.spread = decl.spread
  | ⟨name, superclass, methods, none, staticMethods, staticFields⟩ => by
    simp only [ClassDecl.spread, FunctionDecl.spreadEach_spreadEach methods,
      FunctionDecl.spreadEach_spreadEach staticMethods]
  | ⟨name, superclass, methods, some f, staticMethods, staticFields⟩ => by
    simp only [ClassDecl.spread, FunctionDecl.spreadEach_spreadEach methods,
      FunctionDecl.spreadEach_spreadEach staticMethods, f.spread_spread]

end

/-! ### Binding names -/

theorem Stmt.bindAll_append (ss ss' : List Stmt) (c : Context) :
    bindAll (ss ++ ss') c = bindAll ss' (bindAll ss c) := by
  induction ss generalizing c with
  | nil => rfl
  | cons s ss ih => exact ih _

theorem Stmt.bindAll_unpacked (s : Stmt) (c : Context) : bindAll s.unpacked c = s.bind c := by
  cases s <;> rfl

mutual

theorem Stmt.bind_spread : ∀ (s : Stmt) (c : Context), s.spread.bind c = s.bind c
  | .expr _, _ | .print _ _, _ | .var _ _ _, _ | .ret _ _, _ | .brk _, _ | .cont _, _
  | .require _, _ | .expose _ _, _ => rfl
  | .block body, c | .decls body, c => by
    rw [Stmt.spread, Stmt.bind, Stmt.bind, Stmt.bindAll_spreadAll body]
  | .branch _ y none, c => by rw [Stmt.spread, Stmt.bind, Stmt.bind, y.bind_spread]
  | .branch _ y (some n), c => by
    rw [Stmt.spread, Stmt.bind, Stmt.bind, y.bind_spread, n.bind_spread]
  | .loop _ _ body, c => by rw [Stmt.spread, Stmt.bind, Stmt.bind, body.bind_spread]
  | .function decl, c => by
    rw [Stmt.spread, Stmt.bind, Stmt.bind, decl.bind_spread, decl.spread_name]
  | .cls decl, c => by rw [Stmt.spread, Stmt.bind, Stmt.bind, decl.bind_spread]

theorem Stmt.bindAll_spreadAll : ∀ (ss : List Stmt) (c : Context),
    Stmt.bindAll (Stmt.spreadAll ss) c = Stmt.bindAll ss c
  | [], _ => rfl
  | s :: ss, c => by
    rw [Stmt.spreadAll, Stmt.bindAll_append, Stmt.bindAll_unpacked, s.bind_spread,
      Stmt.bindAll_spreadAll ss, Stmt.bindAll]

theorem FunctionDecl.bind_spread : ∀ (f : FunctionDecl) (kind : FunctionKind) (c : Context),
    f.spread.bind kind c = f.bind kind c
  | ⟨name, params, body⟩, kind, c => by
    rw [FunctionDecl.spread, FunctionDecl.bind, FunctionDecl.bind, Stmt.bindAll_spreadAll body]

theorem FunctionDecl.bindStatics_spread : ∀ (fs : List FunctionDecl) (c : Context),
    FunctionDecl.bindStatics (FunctionDecl.spreadEach fs) c = FunctionDecl.bindStatics fs c
  | [], _ => rfl
  | f :: fs, c => by
    rw [FunctionDecl.spreadEach, FunctionDecl.bindStatics, FunctionDecl.bindStatics, f.bind_spread,
      FunctionDecl.bindStatics_spread fs]

theorem FunctionDecl.bindMethods_spread : ∀ (fs : List FunctionDecl) (c : Context),
    FunctionDecl.bindMethods (FunctionDecl.spreadEach fs) c = FunctionDecl.bindMethods fs c
  | [], _ => rfl
  | f :: fs, c => by
    rw [FunctionDecl.spreadEach, FunctionDecl.bindMethods, FunctionDecl.bindMethods, f.bind_spread,
      FunctionDecl.bindMethods_spread fs, f.isInit_spread]

theorem ClassDecl.bind_spread : ∀ (decl : ClassDecl) (c : Context), decl.spread.bind c = decl.bind c
  | ⟨name, superclass, methods, none, staticMethods, staticFields⟩, c => by
    simp only [ClassDecl.spread, ClassDecl.bind, FunctionDecl.bindStatics_spread staticMethods,
      FunctionDecl.bindMethods_spread methods]
  | ⟨name, superclass, methods, some f, staticMethods, staticFields⟩, c => by
    simp only [ClassDecl.spread, ClassDecl.bind, FunctionDecl.bindStatics_spread staticMethods,
      FunctionDecl.bindMethods_spread methods, f.bind_spread]

end

/-- The distances, the faults and the names that are declared, required or exposed: all of it is
found in the same order. -/
theorem findings_spreadAll (body : List Stmt) : findings (Stmt.spreadAll body) = findings body := by
  rw [findings, findings, Stmt.bindAll_spreadAll]

theorem Load.bindNames_spreadAll (n : Nat) (dir : String) (body : List Stmt) (i : Interpreter) :
    bindNames n dir (Stmt.spreadAll body) i = bindNames n dir body i := by
  cases n with
  | zero => rfl
  | succ n => rw [bindNames, bindNames, findings_spreadAll]

/-! ### Trees that are read -/

mutual

/-- No `decls` is in the statement. -/
def Stmt.Plain : Stmt → Prop
  | .expr _ | .print _ _ | .var _ _ _ | .ret _ _ | .brk _ | .cont _ | .require _
  | .expose _ _ => True
  | .decls _ => False
  | .block body => Stmt.PlainAll body
  | .branch _ y none => Stmt.Plain y
  | .branch _ y (some n) => Stmt.Plain y ∧ Stmt.Plain n
  | .loop _ _ body => Stmt.Plain body
  | .function decl => FunctionDecl.Plain decl
  | .cls decl => ClassDecl.Plain decl

/-- No `decls` is in the statements. -/
def Stmt.PlainAll : List Stmt → Prop
  | [] => True
  | s :: ss => Stmt.Plain s ∧ Stmt.PlainAll ss

/-- No `decls` is in the function. -/
def FunctionDecl.Plain : FunctionDecl → Prop
  | ⟨_, _, body⟩ => Stmt.PlainAll body

/-- No `decls` is in the functions. -/
def FunctionDecl.PlainAll : List FunctionDecl → Prop
  | [] => True
  | f :: fs => FunctionDecl.Plain f ∧ FunctionDecl.PlainAll fs

/-- No `decls` is in the class. -/
def ClassDecl.Plain : ClassDecl → Prop
  | ⟨_, _, methods, none, staticMethods, _⟩ =>
    FunctionDecl.PlainAll methods ∧ FunctionDecl.PlainAll staticMethods
  | ⟨_, _, methods, some f, staticMethods, _⟩ =>
    FunctionDecl.PlainAll methods ∧ FunctionDecl.Plain f ∧ FunctionDecl.PlainAll staticMethods

end

theorem Stmt.plainAll_iff {ss : List Stmt} : Stmt.PlainAll ss ↔ ∀ s ∈ ss, s.Plain := by
  induction ss with
  | nil => simp [PlainAll]
  | cons s ss ih => simp [PlainAll, ih]

theorem FunctionDecl.plainAll_iff {fs : List FunctionDecl} : PlainAll fs ↔ ∀ f ∈ fs, f.Plain := by
  induction fs with
  | nil => simp [PlainAll]
  | cons f fs ih => simp [PlainAll, ih]

theorem FunctionDecl.plain_iff {f : FunctionDecl} : f.Plain ↔ ∀ s ∈ f.body, s.Plain := by
  obtain ⟨name, params, body⟩ := f
  rw [Plain, Stmt.plainAll_iff]

theorem ClassDecl.plain_iff {decl : ClassDecl} :
    decl.Plain ↔ (∀ f ∈ decl.methods, f.Plain) ∧ (∀ f ∈ decl.fields, f.Plain) ∧
      ∀ f ∈ decl.staticMethods, f.Plain := by
  obtain ⟨name, superclass, methods, fields, staticMethods, staticFields⟩ := decl
  cases fields <;> simp [Plain, FunctionDecl.plainAll_iff]

/-- A statement that declares one variable. -/
def Stmt.IsVar (s : Stmt) : Prop := ∃ name typeName init, s = .var name typeName init

/-- A statement of a list that is plain when the list is spread: in a `decls` are variables. -/
structure Stmt.Listed (s : Stmt) : Prop where
  plain : ∀ t ∈ s.spread.unpacked, t.Plain
  vars : ∀ body, s = .decls body → ∀ t ∈ body, t.IsVar

/-- A statement that can stand by itself. -/
structure Stmt.Single (s : Stmt) : Prop where
  plain : s.spread.Plain
  single : ∀ body, s ≠ .decls body

theorem Stmt.Single.listed {s : Stmt} (h : s.Single) : s.Listed where
  plain t ht := by
    rw [unpacked_spread h.single, List.mem_singleton] at ht
    exact ht ▸ h.plain
  vars body hb := absurd hb (h.single body)

theorem Stmt.Listed.plainAll {ss : List Stmt} (h : ∀ s ∈ ss, s.Listed) :
    ∀ t ∈ Stmt.spreadAll ss, t.Plain := by
  induction ss with
  | nil => simp [spreadAll]
  | cons s ss ih =>
    obtain ⟨hs, hss⟩ := List.forall_mem_cons.1 h
    intro t ht
    rcases List.mem_append.1 ht with ht | ht
    · exact hs.plain t ht
    · exact ih hss t ht

/-- A function in whose body declarations of several variables are listed. -/
def FunctionDecl.Listed (f : FunctionDecl) : Prop := ∀ s ∈ f.body, s.Listed

theorem FunctionDecl.Listed.plain {f : FunctionDecl} (h : f.Listed) : f.spread.Plain := by
  rw [plain_iff, spread_body]
  exact Stmt.Listed.plainAll h

namespace Stmt.Single

theorem expr (e : Expr) : (Stmt.expr e).Single := ⟨trivial, by simp⟩

theorem block {body : List Stmt} (h : ∀ s ∈ body, s.Listed) : (Stmt.block body).Single :=
  ⟨Stmt.plainAll_iff.2 (Stmt.Listed.plainAll h), by simp⟩

theorem branch (e : Expr) {y : Stmt} {n : Option Stmt} (hy : y.Single) (hn : ∀ s ∈ n, s.Single) :
    (Stmt.branch e y n).Single := by
  refine ⟨?_, by simp⟩
  cases n with
  | none => exact hy.plain
  | some n => exact ⟨hy.plain, (hn n rfl).plain⟩

theorem loop (e : Expr) (step : Option Expr) {body : Stmt} (h : body.Single) :
    (Stmt.loop e step body).Single := ⟨h.plain, by simp⟩

theorem function {f : FunctionDecl} (h : f.Listed) : (Stmt.function f).Single := ⟨h.plain, by simp⟩

theorem cls {decl : ClassDecl} (hm : ∀ f ∈ decl.methods, f.Listed)
    (hf : ∀ f ∈ decl.fields, f.Listed) (hs : ∀ f ∈ decl.staticMethods, f.Listed) :
    (Stmt.cls decl).Single := by
  refine ⟨?_, by simp⟩
  rw [Stmt.spread, Stmt.Plain, ClassDecl.plain_iff, ClassDecl.spread_eq]
  refine ⟨fun f h => ?_, fun f h => ?_, fun f h => ?_⟩
  · obtain ⟨f, hmem, rfl⟩ := List.mem_map.1 h
    exact (hm f hmem).plain
  · obtain ⟨f, hmem, rfl⟩ := Option.map_eq_some_iff.1 h
    exact (hf f hmem).plain
  · obtain ⟨f, hmem, rfl⟩ := List.mem_map.1 h
    exact (hs f hmem).plain

end Stmt.Single

/-- The methods among the members of a class are listed. -/
structure Members.Listed (m : Members) : Prop where
  methods : ∀ f ∈ m.methods, f.Listed
  staticMethods : ∀ f ∈ m.staticMethods, f.Listed

theorem Members.Listed.addMethod {m : Members} (h : m.Listed) (static : Bool) {f : FunctionDecl}
    (hf : f.Listed) : (m.addMethod static f).Listed := by
  cases static with
  | true => exact ⟨h.methods, List.forall_mem_cons.2 ⟨hf, h.staticMethods⟩⟩
  | false => exact ⟨List.forall_mem_cons.2 ⟨hf, h.methods⟩, h.staticMethods⟩

theorem Members.Listed.addField {m : Members} (h : m.Listed) (static : Bool) (f : FieldDecl) :
    (m.addField static f).Listed := by
  cases static <;> exact ⟨h.methods, h.staticMethods⟩

theorem ClassDecl.spliceFirst_listed (hasSuper : Bool) {assignments : List Stmt}
    (ha : ∀ s ∈ assignments, s.Listed) {methods : List FunctionDecl}
    (hm : ∀ f ∈ methods, f.Listed) : ∀ f ∈ spliceFirst hasSuper assignments methods, f.Listed := by
  induction methods with
  | nil => simp [spliceFirst]
  | cons m ms ih =>
    obtain ⟨h, hms⟩ := List.forall_mem_cons.1 hm
    rw [spliceFirst]
    split
    · refine List.forall_mem_cons.2 ⟨fun s hs => ?_, hms⟩
      rcases List.mem_append.1 ((spliceInto_perm ..).mem_iff.1 hs) with hs | hs
      · exact h s hs
      · exact ha s hs
    · exact List.forall_mem_cons.2 ⟨h, ih hms⟩

namespace Read

theorem fieldAssignments_gives (fields : List FieldDecl) :
    Gives (fieldAssignments fields) fun ss => ∀ s ∈ ss, s.Listed := by
  induction fields with
  | nil => exact .pure (by simp)
  | cons f fs ih =>
    rw [fieldAssignments]
    exact .seq fun ref => ih.bind fun ss hss =>
      .pure (List.forall_mem_cons.2 ⟨(Stmt.Single.expr _).listed, hss⟩)

theorem classOf_gives (name : Token) (sup : Option Ref) {members : Members} (hm : members.Listed) :
    Gives (classOf name sup members) Stmt.Single := by
  unfold classOf
  refine (fieldAssignments_gives _).bind fun ss hss => ?_
  have hcls : (Stmt.cls
      { name, superclass := sup
        methods := ClassDecl.spliceFirst sup.isSome ss members.methods.reverse
        fields := if members.methods.reverse.any FunctionDecl.isInit || ss.isEmpty then none
          else some ⟨.placed (.identifier initName) initName name, [], ss⟩
        staticMethods := members.staticMethods.reverse
        staticFields := members.staticFields.reverse }).Single := by
    refine .cls (ClassDecl.spliceFirst_listed _ hss fun f hf => ?_) (fun f hf => ?_) fun f hf => ?_
    · exact hm.methods f (List.mem_reverse.1 hf)
    · dsimp only at hf
      split at hf
      · cases hf
      · cases hf
        exact hss
    · exact hm.staticMethods f (List.mem_reverse.1 hf)
  dsimp only
  split
  · split
    · exact .seq fun _ => .pure hcls
    · exact .pure hcls
  · exact .pure hcls

theorem varList_gives (n : Nat) {acc : List Stmt} (h : ∀ s ∈ acc, s.IsVar) :
    Gives (varList n acc) fun ss => ∀ s ∈ ss, s.IsVar := by
  induction n generalizing acc with
  | zero => exact .throw _
  | succ n ih =>
    rw [varList]
    refine .seq fun name => .seq fun type => .seq fun given => .either fun init => ?_
    have h' : ∀ s ∈ Stmt.var name type init :: acc, s.IsVar :=
      List.forall_mem_cons.2 ⟨⟨name, type, init, rfl⟩, h⟩
    refine .seq fun more => ?_
    split
    · exact ih h'
    · exact .pure fun s hs => h' s (List.mem_reverse.1 hs)

theorem varDeclaration_gives (n : Nat) : Gives (varDeclaration n) Stmt.Listed := by
  refine (varList_gives n (List.forall_mem_nil Stmt.IsVar)).bind fun decls hd => .seq fun _ => ?_
  refine .pure ?_
  split
  · next decl =>
    obtain ⟨name, type, init, rfl⟩ := hd decl List.mem_cons_self
    exact Stmt.Single.listed ⟨trivial, by simp⟩
  · refine ⟨?_, ?_⟩
    · refine Stmt.Listed.plainAll fun s hs => ?_
      obtain ⟨name, type, init, rfl⟩ := hd s hs
      exact Stmt.Single.listed ⟨trivial, by simp⟩
    · rintro body ⟨⟩
      exact hd

theorem importDeclaration_gives (n : Nat) (keyword : Token) :
    Gives (importDeclaration n keyword) Stmt.Single := by
  unfold importDeclaration
  refine .seq fun _ => .seq fun _ => .seq fun _ => .seq fun _ => .seq fun s => ?_
  have hfail : Gives (fail .noModulePath : Read Stmt) Stmt.Single := by
    rintro r a r' ⟨⟩
  split
  · split
    · exact .seq fun _ => .seq fun _ => .pure ⟨trivial, by simp⟩
    · exact hfail
  · exact hfail

theorem exposeDeclaration_gives (n : Nat) (keyword : Token) :
    Gives (exposeDeclaration n keyword) Stmt.Single :=
  .seq fun _ => .seq fun _ => .pure ⟨trivial, by simp⟩

theorem expressionStatement_gives (n : Nat) : Gives (expressionStatement n) Stmt.Single :=
  .seq fun e => .seq fun _ => .pure (.expr e)

theorem recovering_gives {p : Read Stmt} (hp : Gives p Stmt.Listed) :
    Gives (recovering p) fun x => ∀ s ∈ x, s.Listed := by
  intro r x r' h s hs
  unfold recovering at h
  cases hr : p r with
  | ok s₁ r₁ =>
    rw [hr] at h
    cases h
    cases hs
    exact hp r _ _ hr
  | error e r₁ =>
    rw [hr] at h
    cases e with
    | faulty =>
      cases h
      cases hs
    | exhausted => cases h

/-- What the parts of the grammar of statements give with `n` nested steps. -/
structure StmtGives (n : Nat) : Prop where
  declaration : Gives (declaration n) fun x => ∀ s ∈ x, s.Listed
  block : ∀ {acc}, (∀ s ∈ acc, s.Listed) → Gives (block n acc) fun ss => ∀ s ∈ ss, s.Listed
  functionRest : ∀ role name, Gives (functionRest n role name) FunctionDecl.Listed
  classDeclaration : Gives (classDeclaration n) Stmt.Single
  classMembers : ∀ {acc}, acc.Listed → Gives (classMembers n acc) Members.Listed
  statement : Gives (statement n) Stmt.Single
  branch : Gives (branch n) Stmt.Single
  countedLoop : Gives (countedLoop n) Stmt.Single

namespace StmtGives
variable {n : Nat}

theorem listed {p : Read Stmt} (h : Gives p Stmt.Single) : Gives p Stmt.Listed :=
  fun r s r' hs => (h r s r' hs).listed

theorem declaration_succ (ih : StmtGives n) :
    Gives (Read.declaration (n + 1)) fun x => ∀ s ∈ x, s.Listed := by
  rw [Read.declaration]
  refine recovering_gives (.seq fun s => ?_)
  cases s with
  | stop p => exact listed ih.statement
  | token t =>
    dsimp only
    split
    · exact .seq fun _ => varDeclaration_gives n
    · refine .seq fun _ => .seq fun name => (ih.functionRest _ name).bind fun f hf => ?_
      exact .pure (Stmt.Single.function hf).listed
    · exact .seq fun _ => listed ih.classDeclaration
    · exact .seq fun _ => listed (importDeclaration_gives n t)
    · exact .seq fun _ => listed (exposeDeclaration_gives n t)
    · exact listed ih.statement

theorem block_succ (ih : StmtGives n) {acc : List Stmt} (h : ∀ s ∈ acc, s.Listed) :
    Gives (Read.block (n + 1) acc) fun ss => ∀ s ∈ ss, s.Listed := by
  rw [Read.block]
  refine .seq fun _ => .seq fun _ => ?_
  split
  · exact .seq fun _ => .pure fun s hs => h s (List.mem_reverse.1 hs)
  · refine ih.declaration.bind fun x hx => ?_
    cases x with
    | none => exact ih.block h
    | some s => exact ih.block (List.forall_mem_cons.2 ⟨hx s rfl, h⟩)

theorem functionRest_succ (ih : StmtGives n) (role : FunctionRole) (name : Token) :
    Gives (Read.functionRest (n + 1) role name) FunctionDecl.Listed := by
  rw [Read.functionRest]
  exact .seq fun _ => .seq fun _ => .either fun params => .seq fun _ => .seq fun _ =>
    (ih.block (by simp)).bind fun body hb => .pure hb

theorem classDeclaration_succ (ih : StmtGives n) :
    Gives (Read.classDeclaration (n + 1)) Stmt.Single := by
  rw [Read.classDeclaration]
  refine .seq fun name => .seq fun sup => .seq fun _ => ?_
  refine (ih.classMembers ⟨by simp, by simp⟩).bind fun members hm => ?_
  exact .seq fun _ => classOf_gives name sup hm

theorem classMembers_succ (ih : StmtGives n) {acc : Members} (h : acc.Listed) :
    Gives (Read.classMembers (n + 1) acc) Members.Listed := by
  rw [Read.classMembers]
  refine .seq fun _ => .seq fun _ => ?_
  split
  · exact .pure h
  · refine .seq fun static => .seq fun name => .seq fun _ => ?_
    split
    · exact (ih.functionRest _ name).bind fun f hf => ih.classMembers (h.addMethod static hf)
    · exact .seq fun type => .seq fun _ => .either fun init => .seq fun _ =>
        ih.classMembers (h.addField static ⟨name, type, init⟩)

theorem statement_succ (ih : StmtGives n) : Gives (Read.statement (n + 1)) Stmt.Single := by
  rw [Read.statement]
  refine .seq fun s => ?_
  cases s with
  | stop p => exact expressionStatement_gives n
  | token t =>
    dsimp only
    split
    · exact .seq fun _ => .seq fun e => .seq fun _ => .pure ⟨trivial, by simp⟩
    · exact .seq fun _ => ih.branch
    · refine .seq fun _ => .seq fun _ => .seq fun e => .seq fun _ => ?_
      exact ih.statement.bind fun body hb => .pure (.loop e none hb)
    · exact .seq fun _ => ih.countedLoop
    · exact .seq fun _ => .seq fun _ => .either fun value => .seq fun _ => .pure ⟨trivial, by simp⟩
    · exact .seq fun _ => .seq fun _ => .pure ⟨trivial, by simp⟩
    · exact .seq fun _ => .seq fun _ => .pure ⟨trivial, by simp⟩
    · exact .seq fun _ => (ih.block (by simp)).bind fun body hb => .pure (.block hb)
    · exact expressionStatement_gives n

theorem branch_succ (ih : StmtGives n) : Gives (Read.branch (n + 1)) Stmt.Single := by
  rw [Read.branch]
  refine .seq fun _ => .seq fun e => .seq fun _ => ih.statement.bind fun y hy => .seq fun _ => ?_
  split
  · refine ih.statement.bind fun s hs => .pure (.branch e hy ?_)
    rintro _ ⟨⟩
    exact hs
  · exact .pure (.branch e hy (by simp))

theorem loopClauses_gives (ih : StmtGives n) {first : List Stmt} (hfirst : ∀ s ∈ first, s.Listed) :
    Gives (loopClauses n first) Stmt.Single := by
  unfold loopClauses
  refine .seq fun _ => .either fun cond => .seq fun _ => .seq fun _ => .either fun step =>
    .seq fun _ => ih.statement.bind fun body hb => .pure (.block ?_)
  exact List.forall_mem_append.2
    ⟨hfirst, List.forall_mem_singleton.2 (Stmt.Single.loop cond step hb).listed⟩

theorem countedLoop_succ (ih : StmtGives n) : Gives (Read.countedLoop (n + 1)) Stmt.Single := by
  have hrest : ∀ s : Stmt, s.Listed → Gives (loopClauses n [s]) Stmt.Single := fun s hs =>
    ih.loopClauses_gives (List.forall_mem_singleton.2 hs)
  rw [countedLoop_eq]
  refine .seq fun _ => .seq fun _ => ?_
  split
  · rw [bind_map_left]
    exact (varDeclaration_gives n).bind hrest
  · refine .seq fun _ => ?_
    split
    · exact ih.loopClauses_gives (List.forall_mem_nil _)
    · rw [bind_map_left]
      exact (expressionStatement_gives n).bind fun s hs => hrest s hs.listed

end StmtGives

/-- The grammar of statements has declarations of several variables in lists only. -/
theorem stmtGives (n : Nat) : StmtGives n := by
  induction n with
  | zero =>
    refine ⟨?_, ?_, ?_, ?_, ?_, ?_, ?_, ?_⟩
    all_goals intros; exact .throw _
  | succ n ih =>
    exact ⟨ih.declaration_succ, ih.block_succ, ih.functionRest_succ, ih.classDeclaration_succ,
      ih.classMembers_succ, ih.statement_succ, ih.branch_succ, ih.countedLoop_succ⟩

theorem declarations_gives (n : Nat) {acc : List Stmt} (h : ∀ s ∈ acc, s.Listed) :
    Gives (declarations n acc) fun ss => ∀ s ∈ ss, s.Listed := by
  induction n generalizing acc with
  | zero => exact .throw _
  | succ n ih =>
    rw [declarations]
    refine .seq fun _ => ?_
    split
    · exact .pure fun s hs => h s (List.mem_reverse.1 hs)
    · refine (stmtGives n).declaration.bind fun x hx => ?_
      cases x with
      | none => exact ih h
      | some s => exact ih (List.forall_mem_cons.2 ⟨hx s rfl, h⟩)

end Read

/-- In a program that was read, with faults or without, each `decls` stands in a list and holds
variables. -/
theorem Program.read_listed (tokens : List Token) (stop : Pos) (firstId : Nat) :
    ∀ s ∈ (Program.read tokens stop firstId).body, s.Listed := by
  have h := Read.declarations_gives (Program.steps tokens.length) (List.forall_mem_nil Stmt.Listed)
    ⟨tokens, stop, firstId, []⟩
  unfold Program.read
  split
  · next body r hb => exact h body r hb
  · simp

end Treewalk
