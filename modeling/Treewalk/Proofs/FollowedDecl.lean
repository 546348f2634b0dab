import Treewalk.Proofs.FollowedExpr

/-!
# Declarations of the grammar are read

`FollowsStmt` says how the tokens of each phrase of declarations and statements are read, and the
lemmas of `Follows` show it rule by rule, here for what declares: variables, functions, classes and
their members. An `else` belongs to the nearest `if`, while a derivation may give it to one further
out. `Arm` holds the statements with each `else` at the nearest `if`, and `Arm.dangling` moves one
there; `Arm true` are those that an `else` would go on with.
-/

namespace Treewalk
open Grammar Grammar.Phrase

/-! ### Tokens that start statements -/

namespace Token

/-- Whether a token starts a declaration. -/
def startsDecl (t : Token) : Bool :=
  match t.kind with
  | .symbol s => [Symbol.leftParen, .bang, .minus, .leftBrace].contains s
  | .keyword k => !([Keyword.and, .else, .module, .or, .static].contains k)
  | _ => true

/-- Whether a token starts a statement. -/
def startsStmt (t : Token) : Bool :=
  t.startsDecl && !([Keyword.var, .fun, .cls, .imports, .expose].any t.isKeyword)

variable {t : Token}

theorem startsStmt_of_keyword {k : Keyword} (h : t.isKeyword k = true)
    (hk : k ∉ [Keyword.and, .else, .module, .or, .static, .var, .fun, .cls, .imports, .expose]) :
    t.startsStmt = true := by
  have hkind := kind_of_isKeyword h
  simp only [List.mem_cons, List.not_mem_nil, or_false, not_or] at hk
  simp [startsStmt, startsDecl, isKeyword, hkind, hk]

theorem startsDecl_of_keyword {k : Keyword} (h : t.isKeyword k = true)
    (hk : k ∉ [Keyword.and, .else, .module, .or, .static]) : t.startsDecl = true := by
  have hkind := kind_of_isKeyword h
  simp only [List.mem_cons, List.not_mem_nil, or_false, not_or] at hk
  simp [startsDecl, hkind, hk]

theorem startsStmt_of_startsExpr (h : t.startsExpr = true) : t.startsStmt = true := by
  have hstmt : (!t.startsExpr || t.startsStmt) = true := by
    obtain ⟨kind, lexeme, pos, file⟩ := t
    cases kind with
    | symbol s => cases s <;> rfl
    | keyword k => cases k <;> rfl
    | _ => rfl
  rw [h] at hstmt
  exact hstmt

theorem startsDecl_of_startsStmt (h : t.startsStmt = true) : t.startsDecl = true :=
  (Bool.and_eq_true_iff.1 h).1

theorem startsDecl_not_else (h : t.startsDecl = true) : t.isKeyword .else = false := by
  refine Bool.eq_false_iff.2 fun ht => ?_
  simp [startsDecl, kind_of_isKeyword ht] at h

theorem startsDecl_not_close (h : t.startsDecl = true) : t.isSymbol .rightBrace = false := by
  refine Bool.eq_false_iff.2 fun ht => ?_
  simp [startsDecl, kind_of_isSymbol ht] at h

end Token

/-! ### Parts of statements -/

namespace Read
variable {α : Type} {w rest : List Token} {Q : α → Prop}

/-- The tokens name a type, or are none. -/
def Typed (w : List Token) : Prop :=
  w = [] ∨ ∃ c x : Token, w = [c, x] ∧ c.isSymbol .colon = true ∧ x.isIdentifier = true

theorem typeName_takes {ty : List Token} {f : Option Token → Read α} (ht : Typed ty)
    (ha : Avoids (·.isSymbol .colon) (w ++ rest)) (hf : ∀ type, Takes (f type) w rest Q) :
    Takes (typeName >>= f) (ty ++ w) rest Q := by
  refine Takes.bind (P := fun _ => True) ?_ fun type _ => hf type
  rw [typeName]
  rcases ht with rfl | ⟨c, x, rfl, hc, hx⟩
  · exact acceptSymbol_pass ha (.pure trivial)
  · exact acceptSymbol_cons hc (expectName_cons hx (.pure trivial))

/-- The tokens are `=` and what `p` reads, or none. -/
def Initialized (p : Nat → Read Expr) (k : Nat) (w : List Token) : Prop :=
  w = [] ∨ ∃ e v, w = e :: v ∧ e.isSymbol .equal = true ∧ Taken p k v

theorem initialized_takes {p : Nat → Read Expr} {k n : Nat} {i : List Token}
    {f : Option Expr → Read α} (hi : Initialized p k i) (hs : Stops k (w ++ rest))
    (ha : Avoids (·.isSymbol .equal) (w ++ rest)) (hf : ∀ x, Takes (f x) w rest Q) :
    Takes (do if ← acceptSymbol .equal then (some <$> p n) >>= f else f none) (i ++ w) rest Q := by
  rcases hi with rfl | ⟨e, v, rfl, he, hv⟩
  · exact acceptSymbol_pass ha (hf none)
  · refine acceptSymbol_cons he ?_
    exact ((hv.2 n _ hs).map fun _ _ => trivial).bind (P := fun _ => True) fun x _ => hf x

theorem names_takes {f : ReadingFault} {k : Nat} (n : Nat) (acc : List Token)
    (hr : Avoids (·.isSymbol .comma) rest) (h : Row FollowsExpr (listOf name k) w) :
    Takes (names f n acc) w rest fun _ => True := by
  induction n generalizing k w acc with
  | zero => exact .exhausted
  | succ n ih =>
    rw [names]
    cases k with
    | zero =>
      obtain ⟨_, _, rfl, ⟨x, rfl, hx⟩, rfl⟩ := h
      exact expectName_cons hx (acceptSymbol_pass hr (.pure trivial))
    | succ k =>
      obtain ⟨_, _, rfl, ⟨x, rfl, hx⟩, _, v, rfl, ⟨c, rfl, hc⟩, hv⟩ := h
      exact expectName_cons hx (acceptSymbol_cons hc (ih _ hv))

theorem parameters_takes {k : Nat} (n count : Nat) (acc : List Token)
    (hk : count + k < maxArguments) (hr : Avoids (·.isSymbol .comma) rest)
    (h : Row FollowsExpr (listOf name k) w) :
    Takes (parameters n count acc) w rest fun _ => True := by
  induction n generalizing k w count acc with
  | zero => exact .exhausted
  | succ n ih =>
    rw [parameters, if_neg (by omega)]
    cases k with
    | zero =>
      obtain ⟨_, _, rfl, ⟨x, rfl, hx⟩, rfl⟩ := h
      exact expectName_cons hx (acceptSymbol_pass hr (.pure trivial))
    | succ k =>
      obtain ⟨_, _, rfl, ⟨x, rfl, hx⟩, _, v, rfl, ⟨c, rfl, hc⟩, hv⟩ := h
      exact expectName_cons hx (acceptSymbol_cons hc (ih _ _ (by omega) hv))

end Read

/-! ### Statements -/

/-- What is before the body of a loop. -/
structure LoopHead (c : List Token) : Prop where
  begins : Begins Token.startsStmt c
  takes : ∀ n (s rest : List Token), (∀ m, Takes (Read.statement m) s rest fun _ => True) →
    Takes (Read.statement n) (c ++ s) rest fun _ => True

/-- What is before the first branch of an `if`. -/
structure IfHead (c : List Token) : Prop where
  begins : Begins Token.startsStmt c
  short : ∀ n (s rest : List Token), (∀ m, Takes (Read.statement m) s rest fun _ => True) →
    Avoids (·.isKeyword .else) rest → Takes (Read.statement n) (c ++ s) rest fun _ => True
  long : ∀ n (s : List Token) (e : Token) (s' rest : List Token),
    (∀ m, Takes (Read.statement m) s (e :: s' ++ rest) fun _ => True) → e.isKeyword .else = true →
    (∀ m, Takes (Read.statement m) s' rest fun _ => True) →
    Takes (Read.statement n) (c ++ (s ++ (e :: s'))) rest fun _ => True

/-- The tokens are a statement with each `else` at the nearest `if`. An `else` after it would go on
with it if it is `opened`. -/
inductive Arm : (opened : Bool) → List Token → Prop where
  | plain {w : List Token} (hb : Begins Token.startsStmt w)
      (h : ∀ n rest, Takes (Read.statement n) w rest fun _ => True) : Arm false w
  | loop {c s : List Token} {o : Bool} (hc : LoopHead c) (hs : Arm o s) : Arm o (c ++ s)
  | short {c s : List Token} {o : Bool} (hc : IfHead c) (hs : Arm o s) : Arm true (c ++ s)
  | long {c s s' : List Token} {e : Token} {o : Bool} (hc : IfHead c) (hs : Arm false s)
      (he : e.isKeyword .else = true) (hs' : Arm o s') : Arm o (c ++ (s ++ (e :: s')))

namespace Arm
variable {o : Bool} {w : List Token}

theorem begins (h : Arm o w) : Begins Token.startsStmt w := by
  cases h with
  | plain hb _ => exact hb
  | loop hc _ => exact hc.begins.append _
  | short hc _ => exact hc.begins.append _
  | long hc _ _ _ => exact hc.begins.append _

theorem takes (h : Arm o w) {rest : List Token} (n : Nat)
    (hr : o = true → Avoids (·.isKeyword .else) rest) :
    Takes (Read.statement n) w rest fun _ => True := by
  induction h generalizing n rest with
  | plain _ h => exact h n rest
  | loop hc _ ih => exact hc.takes n _ rest fun m => ih m hr
  | short hc _ ih => exact hc.short n _ rest (fun m => ih m fun _ => hr rfl) (hr rfl)
  | long hc _ he _ ih ih' =>
    refine hc.long n _ _ _ rest (fun m => ih m fun ho => ?_) he fun m => ih' m hr
    cases ho

/-- An `else` goes to the nearest `if` that has none. -/
theorem dangling {s : List Token} {e : Token} {o' : Bool} (h : Arm o w) (ho : o = true)
    (he : e.isKeyword .else = true) (hs : Arm o' s) : ∃ o'', Arm o'' (w ++ (e :: s)) := by
  induction h with
  | plain _ _ => cases ho
  | loop hc _ ih =>
    obtain ⟨o'', h⟩ := ih ho
    exact ⟨o'', List.append_assoc .. ▸ h.loop hc⟩
  | @short c s₁ o₁ hc h₁ ih =>
    rw [List.append_assoc]
    cases o₁ with
    | false => exact ⟨o', h₁.long hc he hs⟩
    | true =>
      obtain ⟨o'', h⟩ := ih rfl
      exact ⟨true, h.short hc⟩
  | @long c s₁ s₂ e₁ o₁ hc h₁ he₁ h₂ _ ih₂ =>
    obtain ⟨o'', h⟩ := ih₂ ho
    refine ⟨o'', ?_⟩
    have := h₁.long hc he₁ h
    simpa using this

end Arm

/-! ### How phrases are read -/

/-- The tokens are the keyword `k` and what `p` reads after it. -/
def Headed (k : Keyword) (p : Token → Nat → Read Stmt) (w : List Token) : Prop :=
  ∃ t u, w = t :: u ∧ t.isKeyword k = true ∧ ∀ n rest, Takes (p t n) u rest fun _ => True

/-- The tokens are a name, which may have a type, and `=` and what `p` reads, or not. -/
def TakenBinding (p : Nat → Read Expr) (k : Nat) (w : List Token) : Prop :=
  ∃ x ty i, w = x :: (ty ++ i) ∧ x.isIdentifier = true ∧ Read.Typed ty ∧ Read.Initialized p k i

/-- The tokens are members of a class, and their methods, last first, are as `R` says. -/
def TakenMembers (R : List FunctionDecl → Prop) (w : List Token) : Prop :=
  ∀ n acc (v rest : List Token) (Q : Members → Prop),
    (∀ m acc' new, acc'.methods = new ++ acc.methods → R new →
      Takes (Read.classMembers m acc') v rest Q) → Takes (Read.classMembers n acc) (w ++ v) rest Q

theorem TakenMembers.imp {R S : List FunctionDecl → Prop} {w : List Token} (h : TakenMembers R w)
    (hRS : ∀ new, R new → S new) : TakenMembers S w := fun n acc v rest Q hQ =>
  h n acc v rest Q fun m acc' new hnew hR => hQ m acc' new hnew (hRS new hR)

/-- How the tokens of a phrase of statements are read. -/
def FollowsStmt : Phrase → List Token → Prop
  | .declaration, w => Begins Token.startsDecl w ∧ ∀ n rest, Avoids (·.isKeyword .else) rest →
      Takes (Read.declaration n) w rest fun x => x.isSome = true
  | .superInit, w => Begins Token.startsDecl w ∧ ∀ n rest,
      Takes (Read.declaration n) w rest fun x => x.any ClassDecl.isSuperInit = true
  | .classDecl, w => Headed .cls (fun _ n => Read.classDeclaration n) w
  | .funDecl, w => Headed .fun (fun _ n => do
      let name ← Read.expectName (.noName (.function .function))
      return .function (← Read.functionRest n .function name)) w
  | .varDecl, w => Headed .var (fun _ n => Read.varDeclaration n) w
  | .importDecl, w => Headed .imports (fun t n => Read.importDeclaration n t) w
  | .exposeDecl, w => Headed .expose (fun t n => Read.exposeDeclaration n t) w
  | .member, w => TakenMembers (fun _ => True) w
  | .plainMember, w => TakenMembers (fun new => ∀ f ∈ new, f.isInit = false) w
  | .initMember, w => TakenMembers (fun new => ∃ f, new = [f] ∧ f.isInit = true ∧
      f.body.head?.any ClassDecl.isSuperInit = true) w
  | .method c, w => ∃ t u, w = t :: u ∧ c.has t = true ∧ Begins (·.isSymbol .leftParen) u ∧
      ∀ n role rest, Takes (Read.functionRest n role t) u rest fun f => f.name = t
  | .field, w => ∃ u s, w = u ++ [s] ∧ s.isSymbol .semicolon = true ∧
      TakenBinding Read.expression 11 u
  | .params, w => Begins Token.isIdentifier w ∧ ∀ n rest, Avoids (·.isSymbol .comma) rest →
      Takes (Read.parameters n 0 []) w rest fun _ => True
  | .binding, w => TakenBinding Read.assignment 10 w
  | .exprStmt, w => Begins Token.startsExpr w ∧
      ∀ n rest, Takes (Read.expressionStatement n) w rest fun _ => True
  | .block, w => ∃ l u, w = l :: u ∧ l.isSymbol .leftBrace = true ∧
      ∀ n rest, Takes (Read.block n []) u rest fun _ => True
  | .statement, w | .ifStmt, w | .forStmt, w | .whileStmt, w | .printStmt, w | .returnStmt, w =>
    ∃ o, Arm o w
  | _, _ => True

/-- How the tokens of any phrase are read. -/
def Follows (p : Phrase) (w : List Token) : Prop := FollowsExpr p w ∧ FollowsStmt p w

namespace Follows
variable {w : List Token}

/-! ### Declarations without bodies -/

theorem not_symbol {t : Token} {s s' : Symbol} (h : t.isSymbol s = true) (hne : s ≠ s') :
    t.isSymbol s' = false := by
  simp [Token.isSymbol, Token.kind_of_isSymbol h, hne]

theorem avoids_symbol {t : Token} {s s' : Symbol} (h : t.isSymbol s = true) (hne : s ≠ s')
    (l : List Token) : Avoids (·.isSymbol s') (t :: l) :=
  not_symbol h hne

theorem typed_of {ps : List Phrase} (hps : Maybe [sym .colon, name] ps) (h : Row Follows ps w) :
    Read.Typed w := by
  rcases hps with rfl | rfl
  · exact .inl h
  · obtain ⟨_, _, rfl, ⟨⟨c, rfl, hc⟩, -⟩, _, _, rfl, ⟨⟨x, rfl, hx⟩, -⟩, rfl⟩ := h
    exact .inr ⟨c, x, rfl, hc, hx⟩

theorem initialized_of {q : Phrase} {p : Nat → Read Expr} {k : Nat} {ps : List Phrase}
    (hq : ∀ u, FollowsExpr q u → Taken p k u) (hps : Maybe [sym .equal, q] ps)
    (h : Row Follows ps w) : Read.Initialized p k w := by
  rcases hps with rfl | rfl
  · exact .inl h
  · obtain ⟨_, _, rfl, ⟨⟨e, rfl, he⟩, -⟩, u, _, rfl, ⟨hu, -⟩, rfl⟩ := h
    exact .inr ⟨e, u, by simp, he, hq u hu⟩

theorem bound {q : Phrase} {p : Nat → Read Expr} {k : Nat} {type init : List Phrase}
    (hq : ∀ u, FollowsExpr q u → Taken p k u) (ht : Maybe [sym .colon, name] type)
    (hi : Maybe [sym .equal, q] init) (h : Row Follows ([name] ++ type ++ init) w) :
    TakenBinding p k w := by
  obtain ⟨_, i, rfl, h', hinit⟩ := h.split
  obtain ⟨_, ty, rfl, ⟨_, _, rfl, ⟨⟨x, rfl, hx⟩, -⟩, rfl⟩, htype⟩ := h'.split
  exact ⟨x, ty, i, by simp, hx, typed_of ht htype, initialized_of hq hi hinit⟩

theorem binding {type init : List Phrase} (ht : Maybe [sym .colon, name] type)
    (hi : Maybe [sym .equal, .assignment] init) (h : Row Follows ([name] ++ type ++ init) w) :
    FollowsStmt .binding w :=
  bound (q := .assignment) (fun _ hu => hu) ht hi h

theorem field {type init : List Phrase} (ht : Maybe [sym .colon, name] type)
    (hi : Maybe [sym .equal, .expression] init)
    (h : Row Follows ([name] ++ type ++ init ++ [sym .semicolon]) w) : FollowsStmt .field w := by
  obtain ⟨u, _, rfl, h', _, _, rfl, ⟨⟨s, rfl, hs⟩, -⟩, rfl⟩ := h.split
  exact ⟨u, s, by simp, hs, bound (q := .expression) (fun _ hu => hu) ht hi h'⟩

/-- A type and an initial value, before a token that ends them. -/
theorem typed {α : Type} {p : Nat → Read Expr} {k n : Nat} {s : Symbol} {t : Token}
    {ty i v rest : List Token} {f : Option Token → Option Expr → Read α} {Q : α → Prop}
    (hty : Read.Typed ty) (hi : Read.Initialized p k i) (ht : t.isSymbol s = true)
    (hs : s ∈ [.comma, .semicolon]) (hk : k < t.rank) (hv : (v ++ rest).head? = some t)
    (hf : ∀ type i, Takes (f type i) v rest Q) : Takes (do
      let type ← Read.typeName
      let i ← if ← Read.acceptSymbol .equal then some <$> p n else pure none
      f type i) (ty ++ (i ++ v)) rest Q := by
  have havoid : ∀ s', s' ∉ [Symbol.comma, .semicolon] → Avoids (·.isSymbol s') (v ++ rest) := by
    intro s' hs'
    rw [Avoids, hv]
    exact not_symbol ht fun he => hs' (he ▸ hs)
  have hstop : Stops k (v ++ rest) := by
    intro t' ht'
    cases hv.symm.trans ht'
    exact hk
  refine Read.typeName_takes hty ?_ fun type => ?_
  · rcases hi with rfl | ⟨e, u, rfl, he, -⟩
    · exact havoid _ (by decide)
    · exact not_symbol he (by decide)
  · exact Read.initialized_takes hi hstop (havoid _ (by decide)) fun i => hf type i

theorem varList {k : Nat} {s : Token} {rest : List Token} (n : Nat) (acc : List Stmt)
    (hs : s.isSymbol .semicolon = true) (h : Row Follows (listOf .binding k) w) :
    Takes (Read.varList n acc) w (s :: rest) fun _ => True := by
  induction n generalizing k w acc with
  | zero => exact .exhausted
  | succ n ih =>
    rw [Read.varList]
    cases k with
    | zero =>
      obtain ⟨_, _, rfl, ⟨-, x, ty, i, rfl, hx, hty, hi⟩, rfl⟩ := h
      have hrank : 10 < s.rank := by simp [Token.rank, Token.kind_of_isSymbol hs]
      simp only [List.cons_append, List.append_assoc]
      refine Read.expectName_cons hx (typed hty hi hs (by simp) hrank rfl fun type i => ?_)
      exact Read.acceptSymbol_pass (not_symbol hs (by decide)) (.pure trivial)
    | succ k =>
      obtain ⟨_, _, rfl, ⟨-, x, ty, i, rfl, hx, hty, hi⟩, _, v, rfl, ⟨⟨c, rfl, hc⟩, -⟩, hv⟩ := h
      have hrank : 10 < c.rank := by simp [Token.rank, Token.kind_of_isSymbol hc]
      simp only [List.cons_append, List.append_assoc, List.nil_append]
      refine Read.expectName_cons hx (typed hty hi hc (by simp) hrank rfl fun type i => ?_)
      exact Read.acceptSymbol_cons hc (ih _ hv)

/-- The phrases of a list of names are read as expressions are. -/
theorem rowExpr {ps : List Phrase} (h : Row Follows ps w) : Row FollowsExpr ps w :=
  h.imp fun _ _ hu => hu.1

theorem varDecl {k : Nat}
    (h : Row Follows ([word .var] ++ listOf .binding k ++ [sym .semicolon]) w) :
    FollowsStmt .varDecl w := by
  obtain ⟨_, _, rfl, hl, _, _, rfl, ⟨⟨s, rfl, hs⟩, -⟩, rfl⟩ := h.split
  obtain ⟨_, u, rfl, ⟨_, _, rfl, ⟨⟨t, rfl, ht⟩, -⟩, rfl⟩, hu⟩ := hl.split
  refine ⟨t, u ++ [s], by simp, ht, fun n rest => ?_⟩
  exact (varList n [] hs hu).bind fun _ _ => Read.expectSymbol_cons hs (.pure trivial)

theorem importDecl {k : Nat} (h : Row Follows ([word .imports, sym .leftBrace] ++ listOf name k ++
    [sym .rightBrace, token .origin, token .string, sym .semicolon]) w) :
    FollowsStmt .importDecl w := by
  obtain ⟨_, _, rfl, h', _, _, rfl, ⟨⟨r, rfl, hr⟩, -⟩, _, _, rfl, ⟨⟨o, rfl, ho⟩, -⟩, _, _, rfl,
    ⟨⟨path, rfl, hp⟩, -⟩, _, _, rfl, ⟨⟨s, rfl, hs⟩, -⟩, rfl⟩ := h.split
  obtain ⟨_, u, rfl, ⟨_, _, rfl, ⟨⟨t, rfl, ht⟩, -⟩, _, _, rfl, ⟨⟨l, rfl, hl⟩, -⟩, rfl⟩, hu⟩ :=
    h'.split
  refine ⟨t, l :: (u ++ [r, o, path, s]), by simp, ht, fun n rest => ?_⟩
  obtain ⟨module, hk⟩ := Token.kind_of_string hp
  refine Read.expectSymbol_cons hl ?_
  refine (Read.names_takes n [] (avoids_symbol hr (by decide) _) (rowExpr hu)).bind fun _ _ => ?_
  refine Read.expectSymbol_cons hr (Read.expect_cons ho (Read.site_takes ?_))
  simp only [hk]
  exact Read.skip_takes (Read.expectSymbol_cons hs (.pure trivial))

theorem exposeDecl {k : Nat}
    (h : Row Follows ([word .expose] ++ listOf name k ++ [sym .semicolon]) w) :
    FollowsStmt .exposeDecl w := by
  obtain ⟨_, _, rfl, hl, _, _, rfl, ⟨⟨s, rfl, hs⟩, -⟩, rfl⟩ := h.split
  obtain ⟨_, u, rfl, ⟨_, _, rfl, ⟨⟨t, rfl, ht⟩, -⟩, rfl⟩, hu⟩ := hl.split
  refine ⟨t, u ++ [s], by simp, ht, fun n rest => ?_⟩
  refine (Read.names_takes n [] (avoids_symbol hs (by decide) _) (rowExpr hu)).bind fun _ _ => ?_
  exact Read.expectSymbol_cons hs (.pure trivial)

/-! ### Bodies -/

theorem avoids_else {k : Nat} {rest : List Token} (hr : Avoids (·.isKeyword .else) rest)
    (h : Row Follows (List.replicate k .declaration) w) :
    Avoids (·.isKeyword .else) (w ++ rest) := by
  cases k with
  | zero =>
    obtain rfl : w = [] := h
    exact hr
  | succ k =>
    obtain ⟨u, v, rfl, ⟨-, hu⟩, -⟩ := h
    rw [List.append_assoc]
    exact (hu.1.append _).avoids fun t => Token.startsDecl_not_else

/-- A step of a block: a declaration that is read before others. -/
theorem block_step {u v rest : List Token} {P : Option Stmt → Prop} {Q : List Stmt → Prop}
    (n : Nat) (acc : List Stmt) (hb : Begins Token.startsDecl u)
    (hu : Takes (Read.declaration n) u (v ++ rest) P)
    (hv : ∀ x, P x → ∃ s, x = some s ∧ Takes (Read.block n (s :: acc)) v rest Q) :
    Takes (Read.block (n + 1) acc) (u ++ v) rest Q := by
  rw [Read.block]
  refine Read.atEnd_takes (b := false) ?_ (Read.ahead_takes (b := false) ?_ ?_)
  · obtain ⟨t, u, rfl, -⟩ := hb
    rfl
  · rw [List.append_assoc]
    exact (hb.append _).avoids fun t => Token.startsDecl_not_close
  · refine hu.bind fun x hx => ?_
    obtain ⟨s, rfl, hs⟩ := hv x hx
    exact hs

theorem blockRow {k : Nat} {r : Token} (n : Nat) (acc : List Stmt) (rest : List Token)
    (hr : r.isSymbol .rightBrace = true) (h : Row Follows (List.replicate k .declaration) w) :
    Takes (Read.block n acc) (w ++ [r]) rest fun ss => ∃ new, ss = acc.reverse ++ new := by
  induction n generalizing k w acc with
  | zero => exact .exhausted
  | succ n ih =>
    cases k with
    | zero =>
      obtain rfl : w = [] := h
      rw [Read.block]
      refine Read.atEnd_takes (b := false) rfl (Read.ahead_takes (b := true) hr ?_)
      exact Read.expectSymbol_cons hr (.pure ⟨[], by simp⟩)
    | succ k =>
      obtain ⟨u, v, rfl, ⟨-, hu⟩, hv⟩ := h
      have hclose : Avoids (·.isKeyword .else) ([r] ++ rest) := by
        simp [Avoids, Token.isKeyword, Token.kind_of_isSymbol hr]
      have hnext := avoids_else hclose hv
      rw [List.append_assoc]
      refine block_step n acc hu.1 (hu.2 n _ (by simpa using hnext)) fun x hx => ?_
      obtain ⟨s, rfl⟩ := Option.isSome_iff_exists.1 hx
      refine ⟨s, rfl, (ih (s :: acc) hv).imp fun ss hss => ?_⟩
      obtain ⟨new, rfl⟩ := hss
      exact ⟨s :: new, by simp⟩

theorem block {k : Nat}
    (h : Row Follows ([sym .leftBrace] ++ List.replicate k .declaration ++ [sym .rightBrace]) w) :
    FollowsStmt .block w := by
  obtain ⟨_, _, rfl, h', _, _, rfl, ⟨⟨r, rfl, hr⟩, -⟩, rfl⟩ := h.split
  obtain ⟨_, u, rfl, ⟨_, _, rfl, ⟨⟨l, rfl, hl⟩, -⟩, rfl⟩, hu⟩ := h'.split
  exact ⟨l, u ++ [r], by simp, hl, fun n rest => (blockRow n [] rest hr hu).imp fun _ _ => trivial⟩

/-- The statements of a text are as many as its declarations. -/
theorem declarations {k : Nat} (n : Nat) (acc : List Stmt)
    (h : Row Follows (List.replicate k .declaration) w) :
    Takes (Read.declarations n acc) w [] fun ss => ss.length = acc.length + k := by
  induction n generalizing k w acc with
  | zero => exact .exhausted
  | succ n ih =>
    rw [Read.declarations]
    cases k with
    | zero =>
      obtain rfl : w = [] := h
      exact Read.atEnd_takes (b := true) rfl (.pure (by simp))
    | succ k =>
      obtain ⟨u, v, rfl, ⟨-, hu⟩, hv⟩ := h
      have hend : Avoids (·.isKeyword .else) [] := rfl
      refine Read.atEnd_takes (b := false) ?_ ?_
      · obtain ⟨t, u, rfl, -⟩ := hu.1
        rfl
      · refine (hu.2 n _ (avoids_else hend hv)).bind fun x hx => ?_
        obtain ⟨s, rfl⟩ := Option.isSome_iff_exists.1 hx
        refine (ih (s :: acc) hv).imp fun ss hss => ?_
        rw [hss, List.length_cons]
        omega

/-! ### Methods -/

theorem params {k : Nat} (hk : k < Read.maxArguments) (h : Row Follows (listOf name k) w) :
    FollowsStmt .params w := by
  refine ⟨?_, fun n rest hr => Read.parameters_takes n 0 [] (by omega) hr (rowExpr h)⟩
  obtain ⟨_, v, rfl, ⟨⟨x, rfl, hx⟩, -⟩, -⟩ := h
  exact ⟨x, v, rfl, hx⟩

theorem functionRest {ps : List Phrase} {b body rest : List Token} {l r s t : Token}
    {P : List Stmt → Prop} (n : Nat) (role : FunctionRole) (hl : l.isSymbol .leftParen = true)
    (hps : Maybe [.params] ps) (hb : Row Follows ps b) (hr : r.isSymbol .rightParen = true)
    (hs : s.isSymbol .leftBrace = true) (hbody : ∀ n, Takes (Read.block n []) body rest P) :
    Takes (Read.functionRest n role t) (l :: (b ++ (r :: s :: body))) rest fun f =>
      f.name = t ∧ P f.body := by
  cases n with
  | zero => exact .exhausted
  | succ n =>
    rw [Read.functionRest]
    have hrest : ∀ ps, Takes (do
        let _ ← Read.expectSymbol .rightParen (.noCloseParen .parameters)
        let _ ← Read.expectSymbol .leftBrace (.noBodyBrace role)
        let body ← Read.block n []
        return { name := t, params := ps, body }) (r :: s :: body) rest fun (f : FunctionDecl) =>
          f.name = t ∧ P f.body := fun ps =>
      Read.expectSymbol_cons hr (Read.expectSymbol_cons hs
        ((hbody n).andThen fun ss hss => .pure ⟨rfl, hss⟩))
    refine Read.expectSymbol_cons hl ?_
    rcases hps with rfl | rfl
    · obtain rfl : b = [] := hb
      exact Read.ahead_takes (b := true) hr (hrest [])
    · obtain ⟨u, _, rfl, ⟨-, hu⟩, rfl⟩ := hb
      rw [List.append_nil]
      refine Read.ahead_takes (b := false) ?_ ?_
      · rw [List.append_assoc]
        refine (hu.1.append _).avoids fun x hx => ?_
        obtain ⟨y, hk⟩ := Token.kind_of_isIdentifier hx
        simp [Token.isSymbol, hk]
      · exact (hu.2 n _ (avoids_symbol hr (by decide) _)).bind fun ps _ => hrest ps

theorem method {c : Terminal} {ps : List Phrase} (hps : Maybe [.params] ps)
    (h : Row Follows ([.token c, sym .leftParen] ++ ps ++ [sym .rightParen, .block]) w) :
    FollowsStmt (.method c) w := by
  obtain ⟨_, _, rfl, h', _, _, rfl, ⟨⟨r, rfl, hr⟩, -⟩, _, _, rfl, ⟨-, s, body, rfl, hs, hbody⟩,
    rfl⟩ := h.split
  obtain ⟨_, b, rfl, ⟨_, _, rfl, ⟨⟨t, rfl, ht⟩, -⟩, _, _, rfl, ⟨⟨l, rfl, hl⟩, -⟩, rfl⟩, hb⟩ :=
    h'.split
  refine ⟨t, l :: (b ++ (r :: s :: body)), by simp, ht, ⟨l, _, rfl, hl⟩, fun n role rest => ?_⟩
  exact (functionRest n role hl hps hb hr hs fun n => hbody n rest).imp fun f hf => hf.1

theorem funDecl (h : Row Follows [word .fun, .method .identifier] w) : FollowsStmt .funDecl w := by
  obtain ⟨_, _, rfl, ⟨⟨k, rfl, hk⟩, -⟩, _, _, rfl, ⟨-, t, u, rfl, ht, -, hu⟩, rfl⟩ := h
  refine ⟨k, t :: u, by simp, hk, fun n rest => ?_⟩
  exact Read.expectName_cons ht ((hu n .function rest).andThen fun f _ => .pure trivial)

/-! ### Members of classes -/

/-- The tokens are the word `static` if `static` is true, and none otherwise. -/
def Static (static : Bool) (w : List Token) : Prop :=
  if static then ∃ t : Token, w = [t] ∧ t.isKeyword .static = true else w = []

theorem not_static : Static false [] := rfl

theorem static_of {ps : List Phrase} (hps : Maybe [word .static] ps) (h : Row Follows ps w) :
    ∃ static, Static static w := by
  rcases hps with rfl | rfl
  · obtain rfl : w = [] := h
    exact ⟨false, not_static⟩
  · obtain ⟨_, _, rfl, ⟨⟨t, rfl, ht⟩, -⟩, rfl⟩ := h
    exact ⟨true, t, rfl, ht⟩

theorem identifier_not_keyword {x : Token} {k : Keyword} (hx : x.isIdentifier = true) :
    x.isKeyword k = false := by
  obtain ⟨y, hk⟩ := Token.kind_of_isIdentifier hx
  simp [Token.isKeyword, hk]

theorem identifier_not_symbol {x : Token} {s : Symbol} (hx : x.isIdentifier = true) :
    x.isSymbol s = false := by
  obtain ⟨y, hk⟩ := Token.kind_of_isIdentifier hx
  simp [Token.isSymbol, hk]

/-- Reading of members ends before the closing brace. -/
theorem members_stop {r : Token} {rest : List Token} {Q : Members → Prop} {acc : Members} (n : Nat)
    (hr : r.isSymbol .rightBrace = true) (hQ : Q acc) :
    Takes (Read.classMembers n acc) [] (r :: rest) Q := by
  cases n with
  | zero => exact .exhausted
  | succ n =>
    rw [Read.classMembers]
    exact Read.atEnd_takes (b := false) rfl (Read.ahead_takes (b := true) hr (.pure hQ))

/-- A member starts with its name, or with `static` before it. -/
theorem member_start {static : Bool} {st u v rest : List Token} {t : Token} {Q : Members → Prop}
    {acc : Members} {n : Nat} (hst : Static static st) (ht : t.isIdentifier = true)
    (h : Takes (do
      let name ← Read.expectName (.noName .member)
      if ← Read.ahead (·.isSymbol .leftParen) then
        let method ← Read.functionRest n .method name
        Read.classMembers n (acc.addMethod static method)
      else
        let type ← Read.typeName
        let init ← if ← Read.acceptSymbol .equal then some <$> Read.expression n else pure none
        let _ ← Read.expectSymbol .semicolon (.noSemicolon .fieldDeclaration)
        Read.classMembers n (acc.addField static ⟨name, type, init⟩)) (t :: (u ++ v)) rest Q) :
    Takes (Read.classMembers (n + 1) acc) (st ++ (t :: u) ++ v) rest Q := by
  rw [Read.classMembers, List.append_assoc]
  cases static with
  | false =>
    obtain rfl : st = [] := hst
    refine Read.atEnd_takes (b := false) rfl (Read.ahead_takes (b := false) ?_ ?_)
    · exact identifier_not_symbol ht
    · exact Read.acceptKeyword_pass (identifier_not_keyword ht) h
  | true =>
    obtain ⟨s, rfl, hs⟩ := hst
    refine Read.atEnd_takes (b := false) rfl (Read.ahead_takes (b := false) ?_ ?_)
    · simp [Token.isSymbol, Token.kind_of_isKeyword hs]
    · exact Read.acceptKeyword_cons hs h

theorem memberMethod {static : Bool} {st u : List Token} {t : Token} {P : FunctionDecl → Prop}
    {R : List FunctionDecl → Prop} (hst : Static static st) (ht : t.isIdentifier = true)
    (hb : Begins (·.isSymbol .leftParen) u)
    (hu : ∀ n role rest, Takes (Read.functionRest n role t) u rest P)
    (hR : ∀ f, P f → R (if static then [] else [f])) : TakenMembers R (st ++ (t :: u)) := by
  intro n acc v rest Q hQ
  cases n with
  | zero => exact .exhausted
  | succ n =>
    refine member_start hst ht (Read.expectName_cons ht (Read.ahead_takes (b := true) ?_ ?_))
    · obtain ⟨l, u, rfl, hl⟩ := hb
      exact hl
    · refine (hu n .method _).bind fun f hf => hQ n _ (if static then [] else [f]) ?_ (hR f hf)
      cases static <;> rfl

theorem memberField {static : Bool} {st : List Token} {R : List FunctionDecl → Prop}
    (hst : Static static st) (h : FollowsStmt .field w) (hR : R []) : TakenMembers R (st ++ w) := by
  obtain ⟨_, s, rfl, hs, x, ty, i, rfl, hx, hty, hi⟩ := h
  have hrank : 11 < s.rank := by simp [Token.rank, Token.kind_of_isSymbol hs]
  intro n acc v rest Q hQ
  cases n with
  | zero => exact .exhausted
  | succ n =>
    rw [List.cons_append]
    refine member_start hst hx (Read.expectName_cons hx (Read.ahead_takes (b := false) ?_ ?_))
    · rcases hty with rfl | ⟨c, y, rfl, hc, -⟩
      · rcases hi with rfl | ⟨e, u, rfl, he, -⟩
        · exact not_symbol hs (by decide)
        · exact not_symbol he (by decide)
      · exact not_symbol hc (by decide)
    · simp only [List.append_assoc]
      refine typed hty hi hs (by simp) hrank rfl fun type i => Read.expectSymbol_cons hs ?_
      refine hQ n _ [] ?_ hR
      cases static <;> rfl

theorem member {static : List Phrase} {p : Phrase} (hst : Maybe [word .static] static)
    (hp : p ∈ [.method .identifier, .field]) (h : Row Follows (static ++ [p]) w) :
    FollowsStmt .member w := by
  obtain ⟨st, _, rfl, hs, u, _, rfl, ⟨-, hu⟩, rfl⟩ := h.split
  obtain ⟨b, hs⟩ := static_of hst hs
  rw [List.append_nil]
  simp only [List.mem_cons, List.not_mem_nil, or_false] at hp
  rcases hp with rfl | rfl
  · obtain ⟨t, u, rfl, ht, hb, hu⟩ := hu
    exact memberMethod hs ht hb hu fun f _ => trivial
  · exact memberField hs hu trivial

theorem plainField {static : List Phrase} (hst : Maybe [word .static] static)
    (h : Row Follows (static ++ [.field]) w) : FollowsStmt .plainMember w := by
  obtain ⟨st, _, rfl, hs, u, _, rfl, ⟨-, hu⟩, rfl⟩ := h.split
  obtain ⟨b, hs⟩ := static_of hst hs
  rw [List.append_nil]
  exact memberField hs hu (by simp)

theorem plainStatic (h : Row Follows [word .static, .method .identifier] w) :
    FollowsStmt .plainMember w := by
  obtain ⟨_, _, rfl, ⟨⟨s, rfl, hs⟩, -⟩, _, _, rfl, ⟨-, t, u, rfl, ht, hb, hu⟩, rfl⟩ := h
  rw [List.append_nil]
  have hstatic : Static true [s] := ⟨s, rfl, hs⟩
  exact memberMethod hstatic ht hb hu (by simp)

theorem plainMethod {x : String} (hx : x ≠ initName) (h : Row Follows [.method (.named x)] w) :
    FollowsStmt .plainMember w := by
  obtain ⟨_, _, rfl, ⟨-, t, u, rfl, ht, hb, hu⟩, rfl⟩ := h
  obtain ⟨hid, hlex⟩ := Bool.and_eq_true_iff.1 ht
  rw [List.append_nil]
  refine memberMethod not_static hid hb hu fun f hf => ?_
  have : f.isInit = false := by
    rw [FunctionDecl.isInit, hf, eq_of_beq hlex]
    exact beq_eq_false_iff_ne.2 hx
  simpa using this

theorem initMember {ps : List Phrase} {k : Nat} (hps : Maybe [.params] ps)
    (h : Row Follows ([.token (.named initName), sym .leftParen] ++ ps ++
      [sym .rightParen, sym .leftBrace, .superInit] ++ List.replicate k .declaration ++
      [sym .rightBrace]) w) : FollowsStmt .initMember w := by
  obtain ⟨_, _, rfl, h₁, _, _, rfl, ⟨⟨e, rfl, he⟩, -⟩, rfl⟩ := h.split
  obtain ⟨_, v, rfl, h₂, hv⟩ := h₁.split
  obtain ⟨_, _, rfl, h₃, _, _, rfl, ⟨⟨r, rfl, hr⟩, -⟩, _, _, rfl, ⟨⟨s, rfl, hs⟩, -⟩, u, _, rfl,
    ⟨-, hu⟩, rfl⟩ := h₂.split
  obtain ⟨_, b, rfl, ⟨_, _, rfl, ⟨⟨t, rfl, ht⟩, -⟩, _, _, rfl, ⟨⟨l, rfl, hl⟩, -⟩, rfl⟩, hb⟩ :=
    h₃.split
  obtain ⟨hid, hlex⟩ := Bool.and_eq_true_iff.1 ht
  -- The body starts with the call, and what comes later does not matter.
  have hbody : ∀ rest n, Takes (Read.block n []) (u ++ (v ++ [e])) rest fun ss =>
      ss.head?.any ClassDecl.isSuperInit = true := by
    intro rest n
    cases n with
    | zero => exact .exhausted
    | succ n =>
      refine block_step n [] hu.1 (hu.2 n _) fun x hx => ?_
      cases x with
      | none => cases hx
      | some s =>
        refine ⟨s, rfl, (blockRow n [s] rest he hv).imp fun ss hss => ?_⟩
        obtain ⟨new, rfl⟩ := hss
        exact hx
  have := memberMethod (u := l :: (b ++ (r :: s :: (u ++ (v ++ [e])))))
    (R := fun new => ∃ f, new = [f] ∧ f.isInit = true ∧
      f.body.head?.any ClassDecl.isSuperInit = true) not_static hid ⟨l, _, rfl, hl⟩
    (fun n role rest => functionRest n role hl hps hb hr hs (hbody rest)) fun f hf => ?_
  · simpa [FollowsStmt] using this
  · refine ⟨f, rfl, ?_, hf.2⟩
    rw [FunctionDecl.isInit, hf.1]
    exact hlex

/-! ### Classes -/

theorem members {p : Phrase} {P : FunctionDecl → Prop} {k : Nat}
    (hp : ∀ u, FollowsStmt p u → TakenMembers (fun new => ∀ f ∈ new, P f) u)
    (h : Row Follows (List.replicate k p) w) : TakenMembers (fun new => ∀ f ∈ new, P f) w := by
  induction k generalizing w with
  | zero =>
    obtain rfl : w = [] := h
    exact fun n acc v rest Q hQ => hQ n acc [] rfl (by simp)
  | succ k ih =>
    obtain ⟨u, v, rfl, ⟨-, hu⟩, hv⟩ := h
    intro n acc v' rest Q hQ
    rw [List.append_assoc]
    refine hp u hu n acc _ rest Q fun m acc' new hnew hP => ?_
    refine ih hv m acc' v' rest Q fun m' acc'' new' hnew' hP' => ?_
    refine hQ m' acc'' (new' ++ new) (by rw [hnew', hnew, List.append_assoc]) fun f hf => ?_
    exact (List.mem_append.1 hf).elim (hP' f) (hP f)

theorem anyMembers {k : Nat} (h : Row Follows (List.replicate k .member) w) :
    TakenMembers (fun _ => True) w := by
  have hmember : ∀ u, FollowsStmt .member u → TakenMembers (fun new => ∀ f ∈ new, True) u :=
    fun u hu => TakenMembers.imp hu fun _ _ _ _ => trivial
  exact (members hmember h).imp fun _ _ => trivial

/-- The first `init` of a class with a superclass calls the inherited one. -/
theorem inheriting {ms : List Phrase} (hms : Inheriting ms) (h : Row Follows ms w) :
    TakenMembers (fun new => ∀ f, new.reverse.find? FunctionDecl.isInit = some f →
      f.body.head?.any ClassDecl.isSuperInit = true) w := by
  have hplain {k : Nat} {u : List Token} (hu : Row Follows (List.replicate k .plainMember) u) :
      TakenMembers (fun new => ∀ f ∈ new, f.isInit = false) u :=
    members (p := .plainMember) (fun _ hu => hu) hu
  have hnone {fs : List FunctionDecl} (hfs : ∀ f ∈ fs, f.isInit = false) :
      fs.reverse.find? FunctionDecl.isInit = none :=
    List.find?_eq_none.2 fun f hf => by simp [hfs f (List.mem_reverse.1 hf)]
  rcases hms with ⟨k, rfl⟩ | ⟨k, j, rfl⟩
  · refine (hplain h).imp fun new hnew f hf => ?_
    rw [hnone hnew] at hf
    cases hf
  · obtain ⟨u₁, _, rfl, h₁, u₂, u₃, rfl, ⟨-, h₂⟩, h₃⟩ := h.split
    intro n acc v rest Q hQ
    rw [List.append_assoc, List.append_assoc]
    refine hplain h₁ n acc _ rest Q fun n₁ acc₁ fs hacc₁ hfs => ?_
    refine h₂ n₁ acc₁ _ rest Q fun n₂ acc₂ new hacc₂ ⟨g, hg, hinit, hcall⟩ => ?_
    refine anyMembers h₃ n₂ acc₂ v rest Q fun n₃ acc₃ fs' hacc₃ _ => ?_
    refine hQ n₃ acc₃ (fs' ++ g :: fs) (by rw [hacc₃, hacc₂, hacc₁, hg]; simp) fun f hf => ?_
    simp [hnone hfs, hinit] at hf
    rw [← hf]
    exact hcall

theorem fieldAssignments (fields : List FieldDecl) (rest : List Token) :
    Takes (Read.fieldAssignments fields) [] rest fun _ => True := by
  induction fields with
  | nil => exact .pure trivial
  | cons field fields ih => exact Read.refer_takes fun _ => ih.andThen fun _ _ => .pure trivial

theorem classOf {name : Token} {sup : Option Ref} {members : Members} (rest : List Token)
    (h : sup.isSome = true → ∀ f, members.methods.reverse.find? FunctionDecl.isInit = some f →
      f.body.head?.any ClassDecl.isSuperInit = true) :
    Takes (Read.classOf name sup members) [] rest fun _ => True := by
  refine (fieldAssignments _ rest).andThen fun assignments _ => ?_
  dsimp only
  split
  · rename_i init hinit
    have hcall : (sup.isSome && !init.body.head?.any ClassDecl.isSuperInit) = false := by
      cases sup with
      | none => rfl
      | some sup => simp [h rfl init hinit]
    rw [hcall]
    exact .pure trivial
  · exact .pure trivial

/-- A class after its name and its superclass. -/
theorem classBody {n : Nat} {name l r : Token} {sup : Option Ref} {R : List FunctionDecl → Prop}
    (rest : List Token) (hl : l.isSymbol .leftBrace = true) (hr : r.isSymbol .rightBrace = true)
    (hw : TakenMembers R w) (hR : ∀ fs, R fs → sup.isSome = true →
      ∀ f, fs.reverse.find? FunctionDecl.isInit = some f →
        f.body.head?.any ClassDecl.isSuperInit = true) : Takes (do
      let _ ← Read.expectSymbol .leftBrace .noClassBrace
      let members ← Read.classMembers n {}
      let _ ← Read.expectSymbol .rightBrace .noClassEnd
      Read.classOf name sup members) (l :: (w ++ [r])) rest fun _ => True := by
  have hmembers := hw n {} [] (r :: rest) (fun members => R members.methods)
    fun m acc new hacc hnew => members_stop m hr (by rw [hacc]; simpa using hnew)
  rw [List.append_nil] at hmembers
  refine Read.expectSymbol_cons hl (hmembers.bind fun members hm => ?_)
  exact Read.expectSymbol_cons hr (classOf rest (hR _ hm))

theorem base {k : Nat} (h : Row Follows ([word .cls, name, sym .leftBrace] ++
    List.replicate k .member ++ [sym .rightBrace]) w) : FollowsStmt .classDecl w := by
  obtain ⟨_, _, rfl, h', _, _, rfl, ⟨⟨r, rfl, hr⟩, -⟩, rfl⟩ := h.split
  obtain ⟨_, u, rfl, ⟨_, _, rfl, ⟨⟨c, rfl, hc⟩, -⟩, _, _, rfl, ⟨⟨x, rfl, hx⟩, -⟩, _, _, rfl,
    ⟨⟨l, rfl, hl⟩, -⟩, rfl⟩, hu⟩ := h'.split
  refine ⟨c, x :: l :: (u ++ [r]), by simp, hc, fun n rest => ?_⟩
  cases n with
  | zero => exact .exhausted
  | succ n =>
    dsimp only
    rw [Read.classDeclaration]
    refine Read.expectName_cons hx (Takes.before (P := fun sup => sup = none) ?_ ?_)
    · exact Read.acceptSymbol_pass (avoids_symbol hl (by decide) _) (.pure rfl)
    · rintro _ rfl
      refine classBody rest hl hr (anyMembers hu) fun _ _ hsup => ?_
      cases hsup

theorem derived {x y : String} {ms : List Phrase} (hxy : x ≠ y) (hms : Inheriting ms)
    (h : Row Follows ([word .cls, .token (.named x), sym .less, .token (.named y),
      sym .leftBrace] ++ ms ++ [sym .rightBrace]) w) : FollowsStmt .classDecl w := by
  obtain ⟨_, _, rfl, h', _, _, rfl, ⟨⟨r, rfl, hr⟩, -⟩, rfl⟩ := h.split
  obtain ⟨_, u, rfl, ⟨_, _, rfl, ⟨⟨c, rfl, hc⟩, -⟩, _, _, rfl, ⟨⟨a, rfl, ha⟩, -⟩, _, _, rfl,
    ⟨⟨s, rfl, hs⟩, -⟩, _, _, rfl, ⟨⟨b, rfl, hb⟩, -⟩, _, _, rfl, ⟨⟨l, rfl, hl⟩, -⟩, rfl⟩, hu⟩ :=
    h'.split
  obtain ⟨hida, hlexa⟩ := Bool.and_eq_true_iff.1 ha
  obtain ⟨hidb, hlexb⟩ := Bool.and_eq_true_iff.1 hb
  refine ⟨c, a :: s :: b :: l :: (u ++ [r]), by simp, hc, fun n rest => ?_⟩
  cases n with
  | zero => exact .exhausted
  | succ n =>
    dsimp only
    rw [Read.classDeclaration]
    have hown : (b.lexeme == a.lexeme) = false := by
      rw [eq_of_beq hlexa, eq_of_beq hlexb]
      exact beq_eq_false_iff_ne.2 hxy.symm
    refine Read.expectName_cons hida (Takes.bind (u := [s, b]) (P := fun _ => True) ?_ ?_)
    · refine Read.acceptSymbol_cons hs (Read.expectName_cons hidb ?_)
      rw [hown]
      exact Read.refer_takes fun _ => .pure trivial
    · intro sup _
      exact classBody rest hl hr (inheriting hms hu) fun fs hfs _ => hfs

end Follows

end Treewalk
