import Treewalk.Proofs.DerivedExpr

/-!
# Texts that are read without a fault

If tokens are read to the end and no fault is reported, they are declarations that the grammar
derives (`Read.derived_of_declarations`).
-/

namespace Treewalk
open Grammar Grammar.Phrase

/-! ### Declarations without bodies -/

namespace Read

theorem typeName_quiet :
    Quiet typeName fun _ w => ∃ type, Maybe [sym .colon, name] type ∧ Derives type w := by
  refine (acceptSymbol_quiet _).andThen fun typed u hu => ?_
  split
  · next hm =>
    rw [if_pos hm] at hu
    refine (expectName_quiet _).ret fun t v hv => ⟨_, .inr rfl, ?_⟩
    obtain ⟨rfl, ht⟩ := hv
    exact hu.cons (.single ht)
  · next hm =>
    rw [if_neg hm] at hu
    subst hu
    exact .pure ⟨[], .inl rfl, .nil⟩

theorem names_yields (f : ReadingFault) (n : Nat) (acc : List Token) :
    Yields (names f n acc) fun _ w => ∃ k, Derives (listOf name k) w := by
  induction n generalizing acc with
  | zero => exact .exhausted
  | succ n ih =>
    rw [names]
    refine (expectName_quiet _).bind fun t u hu => (acceptSymbol_quiet _).bind fun more v hv => ?_
    obtain ⟨rfl, ht⟩ := hu
    refine .ite (fun hm => ?_) fun hm => ?_
    · rw [if_pos hm] at hv
      refine (ih _).imp fun ts w hts => ?_
      obtain ⟨k, hk⟩ := hts
      exact ⟨k + 1, (Derives.single (c := .identifier) ht).cons (hv.cons hk)⟩
    · rw [if_neg hm] at hv
      subst hv
      exact .pure ⟨0, .single ht⟩

theorem parameters_yields (n count : Nat) (acc : List Token) :
    Yields (parameters n count acc) fun _ w =>
      ∃ k, count + k < maxArguments ∧ Derives (listOf name k) w := by
  induction n generalizing count acc with
  | zero => exact .exhausted
  | succ n ih =>
    rw [parameters]
    refine warned_yields ((expectName_quiet _).bind fun t u hu => (acceptSymbol_quiet _).bind
      fun more v hv => ?_)
    obtain ⟨rfl, ht⟩ := hu
    refine .ite (fun hm => ?_) fun hm => ?_
    · rw [if_pos hm] at hv
      refine (ih _ _).imp fun ts w hts _ => ?_
      obtain ⟨k, hk, hd⟩ := hts
      exact ⟨k + 1, by omega, (Derives.single (c := .identifier) ht).cons (hv.cons hd)⟩
    · rw [if_neg hm] at hv
      subst hv
      exact .pure fun hlt => ⟨0, by omega, .single ht⟩

theorem varList_yields (n : Nat) {acc : List Stmt}
    (h : ∀ s ∈ acc, ClassDecl.isSuperInit s = false) : Yields (varList n acc) fun ss w =>
      (∀ s ∈ ss, ClassDecl.isSuperInit s = false) ∧ ∃ k, Derives (listOf binding k) w := by
  induction n generalizing acc with
  | zero => exact .exhausted
  | succ n ih =>
    rw [varList]
    refine (expectName_quiet _).bind fun t u hu => typeName_quiet.bind fun type v hv => ?_
    obtain ⟨rfl, ht⟩ := hu
    obtain ⟨type', htype, hv⟩ := hv
    refine introduced_yields (q := .assignment) ?_ fun init ps i hps => ?_
    · exact (exprYields n).assignment.map fun e w he => he.1
    have hbind : Derives ps i → Derives [binding] (t :: (v ++ i)) := fun hi =>
      .of_rule (.binding htype hps) (.token ht (hv.append hi))
    have h' : ∀ s ∈ Stmt.var t type init :: acc, ClassDecl.isSuperInit s = false :=
      List.forall_mem_cons.2 ⟨rfl, h⟩
    refine (acceptSymbol_quiet _).bind fun more x hx => .ite (fun hm => ?_) fun hm => ?_
    · rw [if_pos hm] at hx
      refine (ih h').imp fun ss w hss hi => ⟨hss.1, ?_⟩
      obtain ⟨-, k, hk⟩ := hss
      exact ⟨k + 1, by simpa using (hbind hi).cons (hx.cons hk)⟩
    · rw [if_neg hm] at hx
      subst hx
      exact .pure fun hi => ⟨fun s hs => h' s (List.mem_reverse.1 hs), 0, by simpa using hbind hi⟩

theorem varDeclaration_yields (n : Nat) : Yields (varDeclaration n) fun s w =>
    ClassDecl.isSuperInit s = false ∧ ∃ k, Derives (listOf binding k ++ [sym .semicolon]) w := by
  refine (varList_yields n (by simp)).bind fun ss u => ?_
  refine (expectSymbol_quiet _ _).bind fun _ v hv => .pure fun hu => ?_
  obtain ⟨hss, k, hk⟩ := hu
  refine ⟨?_, k, by simpa using hk.append hv⟩
  split
  · next s => exact hss s (by simp)
  · rfl

theorem importDeclaration_yields (n : Nat) (keyword : Token) :
    Yields (importDeclaration n keyword) fun s w => ClassDecl.isSuperInit s = false ∧ ∃ k,
      Derives ([sym .leftBrace] ++ (listOf name k ++
        [sym .rightBrace, token .origin, token .string, sym .semicolon])) w := by
  refine (expectSymbol_quiet _ _).bind fun _ a ha => (names_yields _ n _).bind fun ns u => ?_
  refine (expectSymbol_quiet _ _).bind fun _ b hb => (expect_quiet _ _).bind fun t c hc => ?_
  obtain ⟨rfl, ht⟩ := hc
  refine site_yields (fun pos => (fail_quiet _).yields) fun path => ?_
  dsimp only
  split
  · next module hk =>
    refine skip_yields ((expectSymbol_quiet _ _).bind fun _ d hd => .pure fun hu => ?_)
    obtain ⟨k, hk'⟩ := hu
    have hpath : Terminal.has .string path = true := by simp [Terminal.has, hk]
    rw [List.append_nil]
    exact ⟨rfl, k, ha.append (hk'.append (hb.cons (.token ht (.token hpath hd))))⟩
  · exact (fail_quiet _).yields.toAt path

theorem exposeDeclaration_yields (n : Nat) (keyword : Token) :
    Yields (exposeDeclaration n keyword) fun s w =>
      ClassDecl.isSuperInit s = false ∧ ∃ k, Derives (listOf name k ++ [sym .semicolon]) w := by
  refine (names_yields _ n _).bind fun ns u => ?_
  refine (expectSymbol_quiet _ _).bind fun _ v hv => .pure fun hu => ?_
  obtain ⟨k, hk⟩ := hu
  rw [List.append_nil]
  exact ⟨rfl, k, hk.append hv⟩

end Read

/-! ### Calls of the inherited initializer -/

/-- A declaration, and how it is spelled if it calls the inherited initializer. -/
structure Declares (p : Phrase) (s : Stmt) (w : List Token) : Prop where
  derives : Derives [p] w
  superInit : ClassDecl.isSuperInit s = true → Derives [superInit] w

theorem Declares.of_rule {p q : Phrase} {s : Stmt} {w : List Token} (h : Rule q [p])
    (hs : Declares p s w) : Declares q s w :=
  ⟨.of_rule h hs.derives, hs.superInit⟩

/-- A statement that is not an expression. -/
theorem Declares.other {p : Phrase} {s : Stmt} {w : List Token} (h : Derives [p] w)
    (hs : ClassDecl.isSuperInit s = false) : Declares p s w :=
  ⟨h, fun hi => by rw [hs] at hi; cases hi⟩

theorem Spelled.superInit {e : Expr} {u v : List Token} (h : Spelled e u)
    (hv : Derives [sym .semicolon] v) (hi : ClassDecl.isSuperInit (.expr e) = true) :
    Derives [superInit] (u ++ v) := by
  unfold ClassDecl.isSuperInit at hi
  split at hi
  · next ref m paren as he =>
    cases he
    obtain ⟨args, hargs, hd⟩ := h
    rw [eq_of_beq hi] at hd
    refine .of_rule (.superInit hargs) ?_
    simpa only [List.append_assoc, List.cons_append, List.nil_append] using hd.append hv
  · cases hi

theorem Read.expressionStatement_yields (n : Nat) :
    Yields (Read.expressionStatement n) (Declares exprStmt) := by
  refine (exprYields n).expression.bind fun e u => ?_
  refine (Read.expectSymbol_quiet _ _).bind fun _ v hv => .pure fun hu => ?_
  rw [List.append_nil]
  exact ⟨.of_rule .exprStmt (hu.1.cons hv), hu.2.superInit hv⟩

/-! ### Bodies -/

/-- The statements `ss` are those of `acc`, last first, and one for each declaration of `w`. -/
def Body (acc ss : List Stmt) (w : List Token) : Prop :=
  ∃ ds : List (Stmt × List Token), ss = acc.reverse ++ ds.map Prod.fst ∧
    w = (ds.map Prod.snd).flatten ∧ ∀ d ∈ ds, Declares declaration d.1 d.2

namespace Body
variable {acc ss : List Stmt} {s : Stmt} {u w : List Token}

theorem nil : Body acc acc.reverse [] := ⟨[], by simp, rfl, by simp⟩

theorem cons (hs : Declares declaration s u) (h : Body (s :: acc) ss w) : Body acc ss (u ++ w) := by
  obtain ⟨ds, rfl, rfl, hds⟩ := h
  exact ⟨(s, u) :: ds, by simp, rfl, List.forall_mem_cons.2 ⟨hs, hds⟩⟩

theorem derives_of {ds : List (Stmt × List Token)} (h : ∀ d ∈ ds, Declares declaration d.1 d.2) :
    Derives (List.replicate ds.length declaration) (ds.map Prod.snd).flatten :=
  derives_replicate fun d hd => (h d hd).derives

theorem derives (h : Body acc ss w) : ∃ k, Derives (List.replicate k declaration) w := by
  obtain ⟨ds, -, rfl, hds⟩ := h
  exact ⟨ds.length, derives_of hds⟩

/-- A body whose first statement calls the inherited initializer. -/
theorem superInit (h : Body [] ss w) (hi : ss.head?.any ClassDecl.isSuperInit = true) :
    ∃ k, Derives (superInit :: List.replicate k declaration) w := by
  obtain ⟨ds, rfl, rfl, hds⟩ := h
  cases ds with
  | nil => simp at hi
  | cons d ds =>
    obtain ⟨hd, hds⟩ := List.forall_mem_cons.1 hds
    exact ⟨ds.length, (hd.superInit (by simpa using hi)).cons (derives_of hds)⟩

end Body

/-! ### Members of classes -/

/-- A method without its name: what it is with it, and as an initializer. -/
structure MethodOf (name : Token) (f : FunctionDecl) (w : List Token) : Prop where
  name_eq : f.name = name
  method : ∀ c : Terminal, c.has name = true → Derives [.method c] (name :: w)
  init : name.isIdentifier = true → f.isInit = true →
    f.body.head?.any ClassDecl.isSuperInit = true → Derives [.initMember] (name :: w)

/-- The tokens of a member. If it is a method of instances, `o` is that method. -/
structure MemberOf (w : List Token) (o : Option FunctionDecl) : Prop where
  member : Derives [.member] w
  plain : (∀ f ∈ o, f.isInit = false) → Derives [.plainMember] w
  init : ∀ f ∈ o, f.isInit = true → f.body.head?.any ClassDecl.isSuperInit = true →
    Derives [.initMember] w

theorem MethodOf.toMember {t : Token} {f : FunctionDecl} {u w : List Token} {static : Bool}
    (h : MethodOf t f w) (ht : t.isIdentifier = true)
    (hu : if static then Derives [word .static] u else u = []) :
    MemberOf (u ++ (t :: w)) (if static then none else some f) := by
  have hm := h.method .identifier ht
  cases static with
  | true =>
    have hu : Derives [word .static] u := hu
    exact ⟨.of_rule (.member (.inr rfl) (by simp)) (hu.cons hm),
      fun _ => .of_rule .plainStatic (hu.cons hm), by simp⟩
  | false =>
    have hu : u = [] := hu
    subst hu
    refine ⟨.of_rule (.member (.inl rfl) (by simp)) hm, fun hp => ?_, ?_⟩
    · have hne := hp f rfl
      rw [FunctionDecl.isInit, h.name_eq, beq_eq_false_iff_ne] at hne
      exact .of_rule (.plainMethod hne) (h.method _ (by simp [Terminal.has, ht]))
    · intro f' hf' hi hs
      cases hf'
      exact h.init ht hi hs

theorem MemberOf.ofField {u w : List Token} {static : Bool} (h : Derives [field] w)
    (hu : if static then Derives [word .static] u else u = []) : MemberOf (u ++ w) none := by
  cases static with
  | true =>
    have hu : Derives [word .static] u := hu
    exact ⟨.of_rule (.member (.inr rfl) (by simp)) (hu.cons h),
      fun _ => .of_rule (.plainField (.inr rfl)) (hu.cons h), by simp⟩
  | false =>
    have hu : u = [] := hu
    subst hu
    exact ⟨.of_rule (.member (.inl rfl) (by simp)) h,
      fun _ => .of_rule (.plainField (.inl rfl)) h, by simp⟩

/-- The methods of `m` are those of `acc` and those of the members in `w`. -/
def MembersOf (acc m : Members) (ms : List (List Token × Option FunctionDecl)) : Prop :=
  m.methods.reverse = acc.methods.reverse ++ ms.filterMap Prod.snd ∧ ∀ x ∈ ms, MemberOf x.1 x.2

theorem derives_members {ms : List (List Token × Option FunctionDecl)}
    (h : ∀ x ∈ ms, MemberOf x.1 x.2) :
    Derives (List.replicate ms.length .member) (ms.map Prod.fst).flatten :=
  derives_replicate fun x hx => (h x hx).member

theorem Grammar.Inheriting.cons {ps : List Phrase} (h : Inheriting ps) :
    Inheriting (.plainMember :: ps) := by
  rcases h with ⟨n, rfl⟩ | ⟨n, k, rfl⟩
  · exact .inl ⟨n + 1, rfl⟩
  · exact .inr ⟨n + 1, k, rfl⟩

/-- The members of a class whose first `init` calls the inherited one. -/
theorem derives_inheriting {ms : List (List Token × Option FunctionDecl)}
    (h : ∀ x ∈ ms, MemberOf x.1 x.2)
    (hi : ∀ f, (ms.filterMap Prod.snd).find? FunctionDecl.isInit = some f →
      f.body.head?.any ClassDecl.isSuperInit = true) :
    ∃ ps, Inheriting ps ∧ Derives ps (ms.map Prod.fst).flatten := by
  induction ms with
  | nil => exact ⟨[], .inl ⟨0, rfl⟩, .nil⟩
  | cons x ms ih =>
    obtain ⟨hx, hms⟩ := List.forall_mem_cons.1 h
    obtain ⟨w, o⟩ := x
    by_cases hplain : ∀ f ∈ o, f.isInit = false
    · obtain ⟨ps, hps, hd⟩ := ih hms fun f hf => hi f (by
        cases o with
        | none => exact hf
        | some g => simpa [hplain g rfl] using hf)
      exact ⟨.plainMember :: ps, hps.cons, (hx.plain hplain).cons hd⟩
    · -- This is the first `init`; what follows may be anything.
      cases o with
      | none => exact absurd (by simp) hplain
      | some g =>
        have hg : g.isInit = true := by simpa using hplain
        have hs := hi g (by simp [hg])
        exact ⟨_, .inr ⟨0, ms.length, rfl⟩, (hx.init g rfl hg hs).cons (derives_members hms)⟩

namespace Read

theorem fieldAssignments_quiet (fields : List FieldDecl) :
    Quiet (fieldAssignments fields) fun _ w => w = [] := by
  induction fields with
  | nil => exact .pure rfl
  | cons f fs ih =>
    rw [fieldAssignments]
    refine (refer_quiet _).andThen fun ref u hu => ih.ret fun ss v hv => ?_
    rw [hu, hv, List.append_nil]

/-- Without a fault, the first `init` of a class with a superclass calls the inherited one. -/
theorem classOf_yields (name : Token) (sup : Option Ref) (members : Members) :
    Yields (classOf name sup members) fun s w => w = [] ∧ ClassDecl.isSuperInit s = false ∧
      (sup.isSome = true → ∀ f, members.methods.reverse.find? FunctionDecl.isInit = some f →
        f.body.head?.any ClassDecl.isSuperInit = true) := by
  unfold classOf
  refine (fieldAssignments_quiet _).bind fun ss u hu => ?_
  subst hu
  dsimp only
  split
  · next f hf =>
    refine .ite (fun _ => ?_) fun hc => .pure ⟨rfl, rfl, fun hsup f' hf' => ?_⟩
    · exact (report_yields _ _).bind fun _ _ => .pure False.elim
    · cases hf.symm.trans hf'
      simpa [hsup] using hc
  · next hnone =>
    refine .pure ⟨rfl, rfl, fun _ f hf => ?_⟩
    rw [hnone] at hf
    cases hf

theorem superclass_yields (name : Token) : Yields (superclass name) fun sup w =>
    sup.isSome = false ∧ w = [] ∨
      sup.isSome = true ∧ ∃ y, name.lexeme ≠ y ∧ Derives [sym .less, token (.named y)] w := by
  refine (acceptSymbol_quiet _).bind fun more u hu => .ite (fun hm => ?_) fun hm => ?_
  · rw [if_pos hm] at hu
    refine (expectName_quiet _).bind fun t v hv => ?_
    obtain ⟨rfl, ht⟩ := hv
    refine .ite (fun _ => ?_) fun hne => ?_
    · refine (report_yields _ _).bind fun _ _ => ?_
      exact (refer_quiet t).bind fun ref w _ => .pure False.elim
    · refine (refer_quiet t).bind fun ref w hw => .pure (.inr ⟨rfl, t.lexeme, ?_, ?_⟩)
      · intro he
        simp [he] at hne
      · subst hw
        exact hu.cons (.single (by simp [Terminal.has, ht]))
  · rw [if_neg hm] at hu
    subst hu
    exact .pure (.inl ⟨rfl, rfl⟩)

end Read

/-! ### Statements -/

theorem Read.recovering_yields {p : Read Stmt} {Q : Stmt → List Token → Prop} (hp : Yields p Q) :
    Yields (Read.recovering p) fun x w => ∃ s, x = some s ∧ Q s w := by
  intro r
  have h := hp r
  unfold Read.recovering
  cases hr : p r with
  | ok s r' =>
    rw [hr] at h
    intro hc
    obtain ⟨hc₀, w, hw, hQ⟩ := h hc
    exact ⟨hc₀, w, hw, s, rfl, hQ⟩
  | error e r' =>
    rw [hr] at h
    cases e with
    | exhausted => trivial
    | faulty =>
      intro hc
      exact absurd ((faults_recover r').symm.trans hc) h

/-- What the parts of the grammar of statements yield with `n` nested steps. -/
structure StmtYields (n : Nat) : Prop where
  declaration : Yields (Read.declaration n) fun x w => ∃ s, x = some s ∧ Declares .declaration s w
  block : ∀ acc, Yields (Read.block n acc) fun ss w =>
    ∃ u v, w = u ++ v ∧ Body acc ss u ∧ Derives [sym .rightBrace] v
  functionRest : ∀ role name, Yields (Read.functionRest n role name) (MethodOf name)
  classDeclaration : Yields (Read.classDeclaration n) fun s w =>
    ClassDecl.isSuperInit s = false ∧
      ∀ t : Token, t.isKeyword .cls = true → Derives [.classDecl] (t :: w)
  classMembers : ∀ acc, Yields (Read.classMembers n acc) fun m w =>
    ∃ ms, w = (ms.map Prod.fst).flatten ∧ MembersOf acc m ms
  statement : Yields (Read.statement n) (Declares .statement)
  branch : Yields (Read.branch n) fun s w => ClassDecl.isSuperInit s = false ∧
    ∃ other, Maybe [word .else, .statement] other ∧
      Derives ([sym .leftParen, .expression, sym .rightParen, .statement] ++ other) w
  countedLoop : Yields (Read.countedLoop n) fun s w => ClassDecl.isSuperInit s = false ∧
    ∀ t : Token, t.isKeyword .for = true → Derives [.forStmt] (t :: w)

namespace StmtYields
variable {n : Nat}

theorem block_succ (ih : StmtYields n) (acc : List Stmt) :
    Yields (Read.block (n + 1) acc) fun ss w =>
      ∃ u v, w = u ++ v ∧ Body acc ss u ∧ Derives [sym .rightBrace] v := by
  rw [Read.block]
  refine Read.atEnd_quiet.bind fun _ a ha => (Read.ahead_quiet _).bind fun _ b hb => ?_
  subst ha hb
  refine .ite (fun _ => ?_) fun _ => ?_
  · refine (Read.expectSymbol_quiet _ _).bind fun _ v hv => .pure ⟨[], v, ?_, .nil, hv⟩
    simp
  · refine ih.declaration.bind fun x u => ?_
    cases x with
    | none =>
      refine (ih.block acc).imp fun ss w _ hx => ?_
      obtain ⟨_, hs, -⟩ := hx
      cases hs
    | some s =>
      refine (ih.block (s :: acc)).imp fun ss w hw hx => ?_
      obtain ⟨u', v, rfl, hbody, hv⟩ := hw
      obtain ⟨s', hs', hs⟩ := hx
      cases hs'
      exact ⟨u ++ u', v, by simp, hbody.cons hs, hv⟩

theorem functionRest_succ (ih : StmtYields n) (role : FunctionRole) (t : Token) :
    Yields (Read.functionRest (n + 1) role t) (MethodOf t) := by
  rw [Read.functionRest]
  refine (Read.expectSymbol_quiet _ _).bind fun _ a ha => (Read.ahead_quiet _).bind fun _ b hb => ?_
  subst hb
  refine .optional (q := .params) ?_ fun params ps b hps => ?_
  · refine (Read.parameters_yields n 0 []).imp fun ts w hts => ?_
    obtain ⟨k, hk, hd⟩ := hts
    exact .of_rule (.params (by omega)) hd
  refine (Read.expectSymbol_quiet _ _).bind fun _ c hc => ?_
  refine (Read.expectSymbol_quiet _ _).bind fun _ d hd => (ih.block []).ret fun body w hw hb => ?_
  obtain ⟨u, v, rfl, hu, hv⟩ := hw
  refine ⟨rfl, fun k hk => ?_, fun ht hi hs => ?_⟩
  · obtain ⟨k', hk'⟩ := hu.derives
    have hblock : Derives [.block] (d ++ (u ++ v)) :=
      .of_rule (.block k') (by simpa using hd.append (hk'.append hv))
    refine .of_rule (.method hps) (.token hk ?_)
    simpa using ha.append (hb.append (hc.append hblock))
  · obtain ⟨k', hk'⟩ := hu.superInit hs
    have ht : (Terminal.named initName).has t = true := by
      simpa [Terminal.has, ht, FunctionDecl.isInit] using hi
    refine .of_rule (.initMember hps k') (.token ht ?_)
    simpa using ha.append (hb.append (hc.append (hd.append (hk'.append hv))))

theorem classMembers_succ (ih : StmtYields n) (acc : Members) :
    Yields (Read.classMembers (n + 1) acc) fun m w =>
      ∃ ms, w = (ms.map Prod.fst).flatten ∧ MembersOf acc m ms := by
  rw [Read.classMembers]
  refine Read.atEnd_quiet.bind fun _ a ha => (Read.ahead_quiet _).bind fun _ b hb => ?_
  subst ha hb
  refine .ite (fun _ => .pure ⟨[], rfl, by simp, by simp⟩) fun _ => ?_
  refine (Read.acceptKeyword_quiet _).bind fun static u hu => ?_
  refine (Read.expectName_quiet _).bind fun t v hv => (Read.ahead_quiet _).bind fun _ c hc => ?_
  obtain ⟨rfl, ht⟩ := hv
  subst hc
  refine .ite (fun _ => ?_) fun _ => ?_
  · refine (ih.functionRest _ t).bind fun f w => (ih.classMembers _).imp fun m x hx hf => ?_
    obtain ⟨ms, rfl, hmethods, hms⟩ := hx
    have hmem := hf.toMember ht hu
    refine ⟨(u ++ (t :: w), if static then none else some f) :: ms, by simp, ?_,
      List.forall_mem_cons.2 ⟨hmem, hms⟩⟩
    rw [hmethods]
    cases static with
    | true => rfl
    | false => simp [Members.addMethod]
  · refine Read.typeName_quiet.bind fun type x hx => ?_
    obtain ⟨type', htype, hx⟩ := hx
    refine Read.introduced_yields (q := .expression) ?_ fun init ps i hps => ?_
    · exact (exprYields n).expression.map fun e w he => he.1
    refine (Read.expectSymbol_quiet _ _).bind fun _ y hy => (ih.classMembers _).imp ?_
    rintro m w ⟨ms, rfl, hmethods, hms⟩ hi
    have hfield : Derives [.field] (t :: (x ++ (i ++ y))) :=
      .of_rule (.field htype hps) (.token ht (by simpa using hx.append (hi.append hy)))
    refine ⟨(u ++ (t :: (x ++ (i ++ y))), none) :: ms, by simp, ?_,
      List.forall_mem_cons.2 ⟨.ofField hfield hu, hms⟩⟩
    rw [hmethods]
    cases static <;> rfl

theorem classDeclaration_succ (ih : StmtYields n) :
    Yields (Read.classDeclaration (n + 1)) fun s w => ClassDecl.isSuperInit s = false ∧
      ∀ t : Token, t.isKeyword .cls = true → Derives [.classDecl] (t :: w) := by
  rw [Read.classDeclaration]
  refine (Read.expectName_quiet _).bind fun x a ha => ?_
  obtain ⟨rfl, hx⟩ := ha
  refine (Read.superclass_yields x).bind fun sup b => (Read.expectSymbol_quiet _ _).bind ?_
  refine fun _ c hc => (ih.classMembers _).bind fun members d => ?_
  refine (Read.expectSymbol_quiet _ _).bind fun _ e he => (Read.classOf_yields x sup members).imp ?_
  rintro s w ⟨rfl, hs, hinit⟩ ⟨ms, rfl, hmethods, hms⟩ hsup
  refine ⟨hs, fun t ht => ?_⟩
  have ht : (Terminal.keyword .cls).has t = true := ht
  rw [hmethods] at hinit
  rcases hsup with ⟨-, rfl⟩ | ⟨hsome, y, hne, hb⟩
  · refine .of_rule (.base ms.length) (.token ht (.token hx ?_))
    simpa using hc.append ((derives_members hms).append he)
  · obtain ⟨ps, hps, hd⟩ := derives_inheriting hms (by simpa using hinit hsome)
    have hx : (Terminal.named x.lexeme).has x = true := by simp [Terminal.has, hx]
    refine .of_rule (.derived hne hps) (.token ht (.token hx ?_))
    simpa using hb.append (hc.append (hd.append he))

theorem branch_succ (ih : StmtYields n) :
    Yields (Read.branch (n + 1)) fun s w => ClassDecl.isSuperInit s = false ∧
      ∃ other, Maybe [word .else, .statement] other ∧
        Derives ([sym .leftParen, .expression, sym .rightParen, .statement] ++ other) w := by
  rw [Read.branch]
  refine (Read.expectSymbol_quiet _ _).bind fun _ a ha => ?_
  refine (exprYields n).expression.bind fun e b => ?_
  refine (Read.expectSymbol_quiet _ _).bind fun _ c hc => ih.statement.bind fun yes d => ?_
  refine (Read.acceptKeyword_quiet _).bind fun more x hx => .ite (fun hm => ?_) fun hm => ?_
  · rw [if_pos hm] at hx
    refine ih.statement.ret fun no y hy hd hb => ⟨rfl, _, .inr rfl, ?_⟩
    exact ha.cons (hb.1.cons (hc.cons (hd.derives.cons (hx.cons hy.derives))))
  · rw [if_neg hm] at hx
    subst hx
    refine .pure fun hd hb => ⟨rfl, [], .inl rfl, ?_⟩
    rw [List.append_nil, List.append_nil, List.append_nil]
    exact ha.cons (hb.1.cons (hc.cons hd.derives))

theorem countedLoop_succ (ih : StmtYields n) :
    Yields (Read.countedLoop (n + 1)) fun s w => ClassDecl.isSuperInit s = false ∧
      ∀ t : Token, t.isKeyword .for = true → Derives [.forStmt] (t :: w) := by
  have hrest : ∀ (first : List Stmt) (p : Phrase) (a b : List Token),
      p ∈ [.varDecl, .exprStmt, sym .semicolon] → Yields (Read.loopClauses n first) fun s w =>
        Derives [sym .leftParen] a → Derives [p] b → ClassDecl.isSuperInit s = false ∧
          ∀ t : Token, t.isKeyword .for = true → Derives [.forStmt] (t :: (a ++ (b ++ w))) := by
    intro first p a b hp
    refine (Read.ahead_quiet _).bind fun _ c hc => ?_
    subst hc
    refine .optional (q := .expression) ((exprYields n).expression.imp fun _ _ h => h.1) ?_
    intro cond ps c hps
    refine (Read.expectSymbol_quiet _ _).bind fun _ d hd => ?_
    refine (Read.ahead_quiet _).bind fun _ e he => ?_
    subst he
    refine .optional (q := .expression) ((exprYields n).expression.map fun _ _ h => h.1) ?_
    intro step qs e hqs
    refine (Read.expectSymbol_quiet _ _).bind fun _ f hf => ih.statement.ret ?_
    intro body w hw he hc ha hb
    refine ⟨rfl, fun t ht => .of_rule (.forStmt hp hps hqs) (.token ht ?_)⟩
    simpa using ha.append (hb.append (hc.append (hd.append (he.append (hf.append hw.derives)))))
  rw [Read.countedLoop_eq]
  refine (Read.expectSymbol_quiet _ _).bind fun _ a ha => (Read.acceptKeyword_quiet _).bind ?_
  intro var b hb
  refine .ite (fun hm => ?_) fun hm => ?_
  · rw [if_pos hm] at hb
    refine Yields.bind (P := fun _ w => Derives [.varDecl] (b ++ w)) ?_ fun first c => ?_
    · refine (Read.varDeclaration_yields n).map fun s w hw => ?_
      obtain ⟨-, k, hk⟩ := hw
      exact .of_rule (.varDecl k) (by simpa using hb.append hk)
    · refine (hrest first .varDecl a (b ++ c) (by simp)).imp fun s w h hc => ?_
      simpa using h ha hc
  · rw [if_neg hm] at hb
    subst hb
    refine (Read.acceptSymbol_quiet _).bind fun none b hb => .ite (fun hm => ?_) fun hm => ?_
    · rw [if_pos hm] at hb
      exact (hrest [] (sym .semicolon) a b (by simp)).imp fun s w h => h ha hb
    · rw [if_neg hm] at hb
      subst hb
      refine Yields.bind (P := fun _ w => Derives [.exprStmt] w) ?_ fun first c => ?_
      · exact (Read.expressionStatement_yields n).map fun s w hw => hw.derives
      · exact (hrest first .exprStmt a c (by simp)).imp fun s w h hc => h ha hc

/-- A keyword that starts a statement. -/
theorem keyword_has {t : Token} {k : Keyword} (h : t.kind = .keyword k) :
    (Terminal.keyword k).has t = true := by
  simp [Terminal.has, Token.isKeyword, h]

theorem statement_succ (ih : StmtYields n) :
    Yields (Read.statement (n + 1)) (Declares .statement) := by
  have hexpr : Yields (Read.expressionStatement n) (Declares .statement) :=
    (Read.expressionStatement_yields n).imp fun s w h => h.of_rule (.statement (by simp))
  rw [Read.statement]
  refine Read.site_yields (fun pos => hexpr) fun t => ?_
  dsimp only
  split
  · next hk =>
    refine Read.skip_yields ((exprYields n).expression.bind fun e u => ?_)
    refine (Read.expectSymbol_quiet _ _).bind fun _ v hv => .pure fun hu => .other ?_ rfl
    refine .of_rule (.statement (p := .printStmt) (by simp)) (.of_rule .printStmt ?_)
    simpa using Derives.token (keyword_has hk) (hu.1.append hv)
  · next hk =>
    refine Read.skip_yields (ih.branch.imp fun s w h => ?_)
    obtain ⟨hs, other, ho, hw⟩ := h
    refine .other (.of_rule (.statement (p := .ifStmt) (by simp)) (.of_rule (.ifStmt ho) ?_)) hs
    exact .token (keyword_has hk) hw
  · next hk =>
    refine Read.skip_yields ((Read.expectSymbol_quiet _ _).bind fun _ a ha => ?_)
    refine (exprYields n).expression.bind fun e b => (Read.expectSymbol_quiet _ _).bind ?_
    intro _ c hc
    refine ih.statement.ret fun s w hw hb => .other ?_ rfl
    refine .of_rule (.statement (p := .whileStmt) (by simp)) (.of_rule .whileStmt ?_)
    exact .token (keyword_has hk) (ha.cons (hb.1.cons (hc.cons hw.derives)))
  · next hk =>
    refine Read.skip_yields (ih.countedLoop.imp fun s w h => .other ?_ h.1)
    exact .of_rule (.statement (p := .forStmt) (by simp)) (h.2 t (keyword_has hk))
  · next hk =>
    refine Read.skip_yields ((Read.ahead_quiet _).bind fun _ a ha => ?_)
    subst ha
    refine .optional (q := .expression) ((exprYields n).expression.map fun _ _ h => h.1) ?_
    intro value ps a hps
    refine (Read.expectSymbol_quiet _ _).bind fun _ b hb => .pure fun ha => .other ?_ rfl
    refine .of_rule (.statement (p := .returnStmt) (by simp)) (.of_rule (.returnStmt hps) ?_)
    simpa using Derives.token (keyword_has hk) (ha.append hb)
  · next hk =>
    refine Read.skip_yields ((Read.expectSymbol_quiet _ _).bind fun _ a ha => .pure (.other ?_ rfl))
    rw [List.append_nil]
    exact .of_rule (.leave (by simp)) (.token (keyword_has hk) ha)
  · next hk =>
    refine Read.skip_yields ((Read.expectSymbol_quiet _ _).bind fun _ a ha => .pure (.other ?_ rfl))
    rw [List.append_nil]
    exact .of_rule (.leave (by simp)) (.token (keyword_has hk) ha)
  · next hk =>
    refine Read.skip_yields ((ih.block []).ret fun ss w h => .other ?_ rfl)
    obtain ⟨u, v, rfl, hu, hv⟩ := h
    obtain ⟨k, hd⟩ := hu.derives
    have ht : (Terminal.symbol .leftBrace).has t = true := by
      simp [Terminal.has, Token.isSymbol, hk]
    refine .of_rule (.statement (p := .block) (by simp)) (.of_rule (.block k) (.token ht ?_))
    exact hd.append hv
  · exact hexpr.toAt t

theorem declaration_succ (ih : StmtYields n) : Yields (Read.declaration (n + 1)) fun x w =>
    ∃ s, x = some s ∧ Declares .declaration s w := by
  have hstmt : Yields (Read.statement n) (Declares .declaration) :=
    ih.statement.imp fun s w h => h.of_rule (.declaration (by simp))
  rw [Read.declaration]
  refine Read.recovering_yields (Read.site_yields (fun pos => hstmt) fun t => ?_)
  dsimp only
  split
  · next hk =>
    refine Read.skip_yields ((Read.varDeclaration_yields n).imp fun s w h => ?_)
    obtain ⟨hs, k, hd⟩ := h
    refine .other (.of_rule (.declaration (p := .varDecl) (by simp)) (.of_rule (.varDecl k) ?_)) hs
    exact .token (keyword_has hk) hd
  · next hk =>
    refine Read.skip_yields ((Read.expectName_quiet _).bind fun x a ha => ?_)
    obtain ⟨rfl, hx⟩ := ha
    refine (ih.functionRest _ x).ret fun f w hf => .other ?_ rfl
    refine .of_rule (.declaration (p := .funDecl) (by simp)) (.of_rule .funDecl ?_)
    exact .token (keyword_has hk) (hf.method .identifier hx)
  · next hk =>
    refine Read.skip_yields (ih.classDeclaration.imp fun s w h => .other ?_ h.1)
    exact .of_rule (.declaration (p := .classDecl) (by simp)) (h.2 t (keyword_has hk))
  · next hk =>
    refine Read.skip_yields ((Read.importDeclaration_yields n t).imp fun s w h => ?_)
    obtain ⟨hs, k, hd⟩ := h
    refine .other (.of_rule (.declaration (p := .importDecl) (by simp))
      (.of_rule (.importDecl k) ?_)) hs
    exact .token (keyword_has hk) (by simpa using hd)
  · next hk =>
    refine Read.skip_yields ((Read.exposeDeclaration_yields n t).imp fun s w h => ?_)
    obtain ⟨hs, k, hd⟩ := h
    refine .other (.of_rule (.declaration (p := .exposeDecl) (by simp))
      (.of_rule (.exposeDecl k) ?_)) hs
    exact .token (keyword_has hk) hd
  · exact hstmt.toAt t

end StmtYields

/-- The grammar of statements is followed. -/
theorem stmtYields (n : Nat) : StmtYields n := by
  induction n with
  | zero =>
    refine ⟨?_, ?_, ?_, ?_, ?_, ?_, ?_, ?_⟩
    all_goals intros; exact .exhausted
  | succ n ih =>
    exact ⟨ih.declaration_succ, ih.block_succ, ih.functionRest_succ, ih.classDeclaration_succ,
      ih.classMembers_succ, ih.statement_succ, ih.branch_succ, ih.countedLoop_succ⟩

/-! ### Programs -/

namespace Read

theorem declarations_yields (n : Nat) (acc : List Stmt) :
    Yields (declarations n acc) (Body acc) := by
  induction n generalizing acc with
  | zero => exact .exhausted
  | succ n ih =>
    rw [declarations]
    refine atEnd_quiet.bind fun _ a ha => ?_
    subst ha
    refine .ite (fun _ => .pure .nil) fun _ => (stmtYields n).declaration.bind fun x u => ?_
    cases x with
    | none =>
      refine (ih acc).imp fun ss w _ hx => ?_
      obtain ⟨_, hs, -⟩ := hx
      cases hs
    | some s =>
      refine (ih (s :: acc)).imp fun ss w hw hx => ?_
      obtain ⟨s', hs', hs⟩ := hx
      cases hs'
      exact Body.cons (u := u) hs hw

/-- Reading of declarations stops at the end only. -/
theorem declarations_rest {n : Nat} {acc ss : List Stmt} {r r' : Reader}
    (h : declarations n acc r = .ok ss r') : r'.rest = [] := by
  induction n generalizing acc r with
  | zero => cases h
  | succ n ih =>
    rw [declarations, bind_ok (p := atEnd) (r := r) rfl] at h
    split at h
    · next hend =>
      cases h
      exact List.isEmpty_iff.1 hend
    · cases hd : declaration n r with
      | error e r₁ =>
        rw [bind_error hd] at h
        cases h
      | ok x r₁ =>
        rw [bind_ok hd] at h
        cases x with
        | none => exact ih h
        | some s => exact ih h

/-- Tokens that are read to the end without a fault are declarations. -/
theorem derived_of_declarations {n : Nat} {tokens : List Token} {stop : Pos} {id : Nat}
    {ss : List Stmt} {r : Reader} (h : declarations n [] ⟨tokens, stop, id, []⟩ = .ok ss r)
    (hr : r.faults = []) : ∃ parts, Program.Derived tokens parts := by
  have hy := declarations_yields n [] ⟨tokens, stop, id, []⟩
  rw [h] at hy
  obtain ⟨-, w, hw, ds, -, rfl, hds⟩ := hy hr
  rw [declarations_rest h, List.append_nil] at hw
  refine ⟨ds.map Prod.snd, hw, fun w hw => ?_⟩
  obtain ⟨d, hd, rfl⟩ := List.mem_map.1 hw
  exact (hds d hd).derives

end Read

end Treewalk
