import Treewalk.Tree.Reader

/-!
# Reading does not run out of steps

Between two tokens that reading takes lie at most twelve nested steps, from an expression down to
a primary expression. So with `12 * m` steps, and a few more for the part that it is about, each
part of the grammar is done with `m` tokens ahead, and `Program.steps` gives more than that
(`Program.read_not_exhausted`).
-/

namespace Treewalk

/-! ### Rules for parts of the grammar -/

/-- Where `m` tokens were ahead, not more are now, and `Q` says how many. -/
def Read.Left {α : Type} (m : Nat) (Q : α → Nat → Prop) : EStateM.Result Unread Reader α → Prop
  | .ok x r => r.rest.length ≤ m ∧ Q x r.rest.length
  | .error .faulty r => r.rest.length ≤ m
  | .error .exhausted _ => False

/-- With `m` tokens ahead, `p` does not run out of steps, and `Q` says how many tokens it leaves. -/
def Ends {α : Type} (m : Nat) (p : Read α) (Q : α → Nat → Prop) : Prop :=
  ∀ r : Reader, r.rest.length = m → Read.Left m Q (p r)

namespace Ends
variable {α β : Type} {m : Nat} {p : Read α} {P Q : α → Nat → Prop}

theorem pure {x : α} (h : Q x m) : Ends m (pure x) Q := by
  rintro r rfl
  exact ⟨Nat.le_refl _, h⟩

theorem bind {f : α → Read β} {Q : β → Nat → Prop} (hp : Ends m p P)
    (hf : ∀ x k, k ≤ m → P x k → Ends k (f x) Q) : Ends m (p >>= f) Q := by
  intro r hm
  have h := hp r hm
  cases hr : p r with
  | error e r₁ =>
    rw [hr] at h
    rw [Read.bind_error hr]
    cases e with
    | faulty => exact h
    | exhausted => exact h
  | ok x r₁ =>
    rw [hr] at h
    obtain ⟨hle, hP⟩ := h
    have h' := hf x _ hle hP r₁ rfl
    rw [Read.bind_ok hr]
    cases hr' : f x r₁ with
    | error e r₂ =>
      rw [hr'] at h'
      cases e with
      | faulty => exact Nat.le_trans h' hle
      | exhausted => exact h'
    | ok y r₂ =>
      rw [hr'] at h'
      exact ⟨Nat.le_trans h'.1 hle, h'.2⟩

theorem imp (hp : Ends m p P) (h : ∀ x k, k ≤ m → P x k → Q x k) : Ends m p Q := by
  intro r hm
  have h' := hp r hm
  cases hr : p r with
  | error e r₁ =>
    rw [hr] at h'
    cases e with
    | faulty => exact h'
    | exhausted => exact h'
  | ok x r₁ =>
    rw [hr] at h'
    exact ⟨h'.1, h x _ h'.1 h'.2⟩

theorem map {g : α → β} {Q : β → Nat → Prop} (hp : Ends m p P)
    (h : ∀ x k, k ≤ m → P x k → Q (g x) k) : Ends m (g <$> p) Q := by
  rw [map_eq_pure_bind]
  exact hp.bind fun x k hk hx => .pure (h x k hk hx)

theorem ite {c : Prop} [Decidable c] {p' : Read α} (h : c → Ends m p Q) (h' : ¬c → Ends m p' Q) :
    Ends m (if c then p else p') Q := by
  split
  · next hc => exact h hc
  · next hc => exact h' hc

/-- A part that may be missing. -/
theorem optional {c : Prop} [Decidable c] {x : α} {f : α → Read β} {Q : β → Nat → Prop}
    (hp : Ends m p P) (hf : ∀ x k, k ≤ m → Ends k (f x) Q) :
    Ends m (if c then f x else p >>= f) Q :=
  .ite (fun _ => hf x m (Nat.le_refl m)) fun _ => hp.bind fun x k hk _ => hf x k hk

end Ends

namespace Read

theorem ahead_ends (m : Nat) (p : Token → Bool) : Ends m (ahead p) fun _ k => k = m := by
  rintro r rfl
  exact ⟨Nat.le_refl _, rfl⟩

theorem atEnd_ends (m : Nat) : Ends m atEnd fun b k => k = m ∧ (b = true ↔ m = 0) := by
  rintro r rfl
  refine ⟨Nat.le_refl _, rfl, ?_⟩
  rw [List.isEmpty_iff, List.length_eq_zero_iff]

theorem refer_ends (m : Nat) (name : Token) : Ends m (refer name) fun _ k => k = m := by
  rintro r rfl
  exact ⟨Nat.le_refl _, rfl⟩

theorem report_ends (m : Nat) (s : Site) (f : ReadingFault) :
    Ends m (report s f) fun _ k => k = m := by
  rintro r rfl
  exact ⟨Nat.le_refl _, rfl⟩

theorem fail_ends {α : Type} {Q : α → Nat → Prop} (m : Nat) (f : ReadingFault) :
    Ends m (fail f) Q := by
  rintro r rfl
  exact Nat.le_refl _

/-- There is a token ahead exactly if the site is one. -/
theorem site_ends (m : Nat) : Ends m site fun s k => k = m ∧ ∀ t, s = .token t → 0 < m := by
  rintro ⟨rest, stop, nextId, faults⟩ rfl
  cases rest with
  | nil => exact ⟨Nat.le_refl _, rfl, fun t ht => Site.noConfusion ht⟩
  | cons t ts => exact ⟨Nat.le_refl _, rfl, fun _ _ => Nat.succ_pos _⟩

theorem skip_ends (m : Nat) : Ends m skip fun _ k => k = m - 1 := by
  rintro r rfl
  refine ⟨?_, List.length_tail⟩
  rw [List.length_tail]
  exact Nat.sub_le _ _

/-- What `accept` does where a token is ahead. -/
theorem accept_of_cons (p : Token → Bool) (t : Token) (ts : List Token) (stop : Pos) (id : Nat)
    (faults : List (Site × ReadingFault)) : accept p ⟨t :: ts, stop, id, faults⟩ =
      if p t then .ok (some t) ⟨ts, stop, id, faults⟩ else .ok none ⟨t :: ts, stop, id, faults⟩ :=
  rfl

theorem accept_ends (m : Nat) (p : Token → Bool) :
    Ends m (accept p) fun o k => o.isSome = true → k < m := by
  rintro ⟨rest, stop, nextId, faults⟩ rfl
  cases rest with
  | nil => exact ⟨Nat.le_refl _, fun h => Bool.noConfusion h⟩
  | cons t ts =>
    rw [accept_of_cons]
    by_cases hp : p t = true
    · rw [if_pos hp]
      exact ⟨Nat.le_succ _, fun _ => Nat.lt_succ_self _⟩
    · rw [if_neg hp]
      exact ⟨Nat.le_refl _, fun h => Bool.noConfusion h⟩

theorem acceptSymbol_ends (m : Nat) (s : Symbol) :
    Ends m (acceptSymbol s) fun b k => b = true → k < m :=
  (accept_ends m _).bind fun _ _ _ h => .pure h

theorem acceptKeyword_ends (m : Nat) (w : Keyword) :
    Ends m (acceptKeyword w) fun b k => b = true → k < m :=
  (accept_ends m _).bind fun _ _ _ h => .pure h

theorem expect_ends (m : Nat) (p : Token → Bool) (f : ReadingFault) :
    Ends m (expect p f) fun _ k => k < m :=
  (accept_ends m p).bind fun o k _ h => by
    cases o with
    | none => exact fail_ends k f
    | some t => exact .pure (h rfl)

theorem expectSymbol_ends (m : Nat) (s : Symbol) (f : ReadingFault) :
    Ends m (expectSymbol s f) fun _ k => k < m :=
  expect_ends m _ f

theorem expectName_ends (m : Nat) (f : ReadingFault) :
    Ends m (expectName f) fun _ k => k < m :=
  expect_ends m _ f

/-- A part that is there if the symbol `s` is. -/
theorem introduced_ends {α β : Type} {m : Nat} {p : Read α} {f : α → Read β} {s : Symbol} {x : α}
    {P : α → Nat → Prop} {Q : β → Nat → Prop} (hp : ∀ k, k < m → Ends k p P)
    (hf : ∀ x k, k ≤ m → Ends k (f x) Q) :
    Ends m (do if ← acceptSymbol s then p >>= f else f x) Q := by
  refine (acceptSymbol_ends m s).bind fun given k hk h => .ite (fun hm => ?_) fun _ => hf x k hk
  exact (hp k (h hm)).bind fun x j hj _ => hf x j (Nat.le_trans hj hk)

/-- A part after a report that is made only if `c`. -/
theorem reported_ends {α : Type} {m : Nat} {c : Prop} [Decidable c] {p : Read α} {f : ReadingFault}
    {Q : α → Nat → Prop} (hp : Ends m p Q) :
    Ends m (do if c then report (← site) f
               p) Q := by
  refine .ite (fun _ => ?_) fun _ => hp
  refine (site_ends m).bind fun s k _ hk => (report_ends k s f).bind fun _ j _ hj => ?_
  rw [hj, hk.1]
  exact hp

end Read

/-! ### Expressions -/

/-- The steps from a level of operators down to a primary expression. -/
def Level.depth : Level → Nat
  | .or => 8
  | .and => 7
  | .equality => 6
  | .comparison => 5
  | .term => 4
  | .factor => 3

theorem Level.depth_tighter {l l' : Level} (h : l.tighter? = some l') : l'.depth + 1 = l.depth := by
  cases l <;> cases h <;> rfl

theorem Level.depth_bounds (l : Level) : 3 ≤ l.depth ∧ l.depth ≤ 8 := by
  cases l <;> decide

/-- With enough steps left for the tokens ahead, expressions are read to their end. -/
structure ExprEnds (n : Nat) : Prop where
  expression : ∀ m, 12 * m + 11 ≤ n → Ends m (Read.expression n) fun _ k => k < m
  parts : ∀ m acc, 12 * m + 1 ≤ n → Ends m (Read.parts n acc) fun _ _ => True
  assignment : ∀ m, 12 * m + 10 ≤ n → Ends m (Read.assignment n) fun _ k => k < m
  ternary : ∀ m, 12 * m + 9 ≤ n → Ends m (Read.ternary n) fun _ k => k < m
  operators : ∀ m l, 12 * m + l.depth ≤ n → Ends m (Read.operators n l) fun _ k => k < m
  operatorsAfter : ∀ m l left, 12 * m + 1 ≤ n →
    Ends m (Read.operatorsAfter n l left) fun _ _ => True
  unary : ∀ m, 12 * m + 2 ≤ n → Ends m (Read.unary n) fun _ k => k < m
  suffixes : ∀ m e, 12 * m + 1 ≤ n → Ends m (Read.suffixes n e) fun _ _ => True
  arguments : ∀ m count acc, 12 * m + 11 ≤ n →
    Ends m (Read.arguments n count acc) fun _ k => k < m
  primary : ∀ m, 12 * m + 1 ≤ n → Ends m (Read.primary n) fun _ k => k < m

namespace ExprEnds
open Read
variable {n m : Nat}

theorem expression_succ (ih : ExprEnds n) (h : 12 * m + 11 ≤ n + 1) :
    Ends m (Read.expression (n + 1)) fun _ k => k < m := by
  rw [Read.expression]
  refine (ih.assignment m (by omega)).bind fun first k _ hk => ?_
  refine (ahead_ends k _).bind fun _ j _ hj => ?_
  subst hj
  refine .ite (fun _ => ?_) fun _ => .pure hk
  exact (ih.parts j _ (by omega)).bind fun es i hi _ => .pure (by omega)

theorem parts_succ (ih : ExprEnds n) (acc : List Expr) (h : 12 * m + 1 ≤ n + 1) :
    Ends m (Read.parts (n + 1) acc) fun _ _ => True := by
  rw [Read.parts]
  refine (acceptSymbol_ends m _).bind fun more k _ hk => .ite (fun hm => ?_) fun _ => .pure trivial
  have hk := hk hm
  exact (ih.assignment k (by omega)).bind fun part j _ hj => ih.parts j _ (by omega)

theorem assigned_ends (m : Nat) (target : Expr) (op : Token) (value : Expr) :
    Ends m (assigned target op value) fun _ _ => True := by
  unfold assigned
  split
  · exact .pure trivial
  · exact .pure trivial
  · exact (report_ends m _ _).bind fun _ _ _ _ => .pure trivial

theorem assignment_succ (ih : ExprEnds n) (h : 12 * m + 10 ≤ n + 1) :
    Ends m (Read.assignment (n + 1)) fun _ k => k < m := by
  rw [Read.assignment]
  refine (ih.ternary m (by omega)).bind fun target k _ hk => ?_
  refine (accept_ends k _).bind fun op j hj hop => ?_
  cases op with
  | none => exact .pure (by omega)
  | some op =>
    have hop := hop rfl
    refine (ih.assignment j (by omega)).bind fun value i _ hi => ?_
    exact (assigned_ends i target op value).imp fun _ _ _ _ => by omega

theorem ternary_succ (ih : ExprEnds n) (h : 12 * m + 9 ≤ n + 1) :
    Ends m (Read.ternary (n + 1)) fun _ k => k < m := by
  rw [Read.ternary]
  refine (ih.operators m .or (by simpa [Level.depth] using h)).bind fun cond k _ hk => ?_
  refine (acceptSymbol_ends k _).bind fun more j hj hmore => .ite (fun hm => ?_) fun _ => ?_
  · have hmore := hmore hm
    refine (ih.expression j (by omega)).bind fun yes i _ hi => ?_
    refine (expectSymbol_ends i _ _).bind fun _ a _ ha => ?_
    exact (ih.ternary a (by omega)).bind fun no b _ hb => .pure (by omega)
  · exact .pure (by omega)

theorem operators_succ (ih : ExprEnds n) (l : Level) (h : 12 * m + l.depth ≤ n + 1) :
    Ends m (Read.operators (n + 1) l) fun _ k => k < m := by
  have hl := l.depth_bounds
  have hafter : ∀ (first : Expr) (k : Nat), k ≤ m → k < m →
      Ends k (Read.operatorsAfter n l first) fun _ k => k < m := fun first k _ hk =>
    (ih.operatorsAfter k l first (by omega)).imp fun _ _ _ _ => by omega
  rw [Read.operators]
  split
  · next l' hl' =>
    have := Level.depth_tighter hl'
    exact (ih.operators m l' (by omega)).bind hafter
  · exact (ih.unary m (by omega)).bind hafter

theorem operatorsAfter_succ (ih : ExprEnds n) (l : Level) (left : Expr) (h : 12 * m + 1 ≤ n + 1) :
    Ends m (Read.operatorsAfter (n + 1) l left) fun _ _ => True := by
  rw [Read.operatorsAfter]
  refine (accept_ends m _).bind fun op k _ hop => ?_
  cases op with
  | none => exact .pure trivial
  | some op =>
    have hop := hop rfl
    have hafter : ∀ (right : Expr) (j : Nat), j ≤ k → j < k →
        Ends j (Read.operatorsAfter n l (l.node left op right)) fun _ _ => True :=
      fun right j _ hj => ih.operatorsAfter j l _ (by omega)
    dsimp only
    split
    · next l' hl' =>
      have := l'.depth_bounds
      exact (ih.operators k l' (by omega)).bind hafter
    · exact (ih.unary k (by omega)).bind hafter

theorem unary_succ (ih : ExprEnds n) (h : 12 * m + 2 ≤ n + 1) :
    Ends m (Read.unary (n + 1)) fun _ k => k < m := by
  rw [Read.unary]
  refine (accept_ends m _).bind fun op k hk hop => ?_
  cases op with
  | none =>
    refine (ih.primary k (by omega)).bind fun e j _ hj => ?_
    exact (ih.suffixes j e (by omega)).imp fun _ _ _ _ => by omega
  | some op =>
    have hop := hop rfl
    exact (ih.unary k (by omega)).bind fun e j _ hj => .pure (by omega)

theorem suffixes_succ (ih : ExprEnds n) (e : Expr) (h : 12 * m + 1 ≤ n + 1) :
    Ends m (Read.suffixes (n + 1) e) fun _ _ => True := by
  rw [Read.suffixes]
  refine (acceptSymbol_ends m _).bind fun call k hk hcall => .ite (fun hm => ?_) fun _ => ?_
  · have hcall := hcall hm
    refine (ahead_ends k _).bind fun _ j _ hj => ?_
    subst hj
    refine .optional (ih.arguments j 0 [] (by omega)) fun args i hi => ?_
    exact (expectSymbol_ends i _ _).bind fun paren a _ ha => ih.suffixes a _ (by omega)
  · refine (acceptSymbol_ends k _).bind fun dot j hj hdot => ?_
    refine .ite (fun hm => ?_) fun _ => .pure trivial
    have hdot := hdot hm
    exact (expectName_ends j _).bind fun x i _ hi => ih.suffixes i _ (by omega)

theorem arguments_succ (ih : ExprEnds n) (count : Nat) (acc : List Expr)
    (h : 12 * m + 11 ≤ n + 1) :
    Ends m (Read.arguments (n + 1) count acc) fun _ k => k < m := by
  rw [Read.arguments]
  refine reported_ends ((ih.assignment m (by omega)).bind fun arg k _ hk => ?_)
  refine (acceptSymbol_ends k _).bind fun more j hj hmore => .ite (fun hm => ?_) fun _ => ?_
  · have hmore := hmore hm
    exact (ih.arguments j _ _ (by omega)).imp fun _ _ _ _ => by omega
  · exact .pure (by omega)

theorem primary_succ (ih : ExprEnds n) (h : 12 * m + 1 ≤ n + 1) :
    Ends m (Read.primary (n + 1)) fun _ k => k < m := by
  rw [Read.primary]
  refine (site_ends m).bind fun s j _ hs => ?_
  obtain ⟨rfl, hs⟩ := hs
  cases s with
  | stop pos => exact fail_ends j _
  | token t =>
    have hpos := hs t rfl
    have hlit : ∀ v, Ends j (do skip; return Expr.literal v) fun _ k => k < j := fun v =>
      (skip_ends j).bind fun _ k _ hk => .pure (by omega)
    have href : ∀ f : Ref → Expr, Ends j (do skip; return f (← refer t)) fun _ k => k < j :=
      fun f => (skip_ends j).bind fun _ k _ hk =>
        (refer_ends k t).bind fun _ i _ hi => .pure (by omega)
    dsimp only
    split
    · exact hlit _
    · exact hlit _
    · exact hlit _
    · exact hlit _
    · exact hlit _
    · exact href _
    · exact href _
    · refine (skip_ends j).bind fun _ k _ hk => (expectSymbol_ends k _ _).bind fun _ i _ hi => ?_
      refine (expectName_ends i _).bind fun x a _ ha => ?_
      exact (refer_ends a t).bind fun _ b _ hb => .pure (by omega)
    · refine (skip_ends j).bind fun _ k _ hk => (ih.expression k (by omega)).bind fun e i _ hi => ?_
      exact (expectSymbol_ends i _ _).bind fun _ a _ ha => .pure (by omega)
    · exact fail_ends j _

end ExprEnds

theorem exprEnds (n : Nat) : ExprEnds n := by
  induction n with
  | zero =>
    refine ⟨?_, ?_, ?_, ?_, fun m l h => ?_, ?_, ?_, ?_, ?_, ?_⟩
    case refine_5 => have := l.depth_bounds; omega
    all_goals intros; omega
  | succ n ih =>
    exact ⟨fun _ => ih.expression_succ, fun _ => ih.parts_succ, fun _ => ih.assignment_succ,
      fun _ => ih.ternary_succ, fun _ => ih.operators_succ, fun _ => ih.operatorsAfter_succ,
      fun _ => ih.unary_succ, fun _ => ih.suffixes_succ, fun _ => ih.arguments_succ,
      fun _ => ih.primary_succ⟩

namespace Read

/-- The clauses of a `for` after the first one, and its body. -/
def loopClauses (n : Nat) (first : List Stmt) : Read Stmt := do
  let cond ←
    if ← ahead (·.isSymbol .semicolon) then pure (Expr.literal (.bool true)) else expression n
  let _ ← expectSymbol .semicolon (.noSemicolon .loopCondition)
  let step ← if ← ahead (·.isSymbol .rightParen) then pure none else some <$> expression n
  let _ ← expectSymbol .rightParen (.noCloseParen .loopClauses)
  let body ← statement n
  return .block (first ++ [.loop cond step body])

theorem countedLoop_eq (n : Nat) : countedLoop (n + 1) = (do
    let _ ← expectSymbol .leftParen (.noOpenParen .countedLoop)
    if ← acceptKeyword .var then (fun s => [s]) <$> varDeclaration n >>= loopClauses n
    else do
      if ← acceptSymbol .semicolon then loopClauses n []
      else (fun s => [s]) <$> expressionStatement n >>= loopClauses n) := by
  rw [countedLoop]
  rfl

/-- A declaration without what is done about a fault in it. -/
def declared (n : Nat) : Read Stmt := do
  match ← site with
  | .stop _ => statement n
  | .token t =>
    match t.kind with
    | .keyword .var => skip; varDeclaration n
    | .keyword .fun =>
      skip
      let name ← expectName (.noName (.function .function))
      return .function (← functionRest n .function name)
    | .keyword .cls => skip; classDeclaration n
    | .keyword .imports => skip; importDeclaration n t
    | .keyword .expose => skip; exposeDeclaration n t
    | _ => statement n

theorem declaration_eq (n : Nat) : declaration (n + 1) = recovering (declared n) := by
  rw [declaration]
  rfl

/-! ### Declarations without bodies -/

variable {n m : Nat}

theorem typeName_ends (m : Nat) : Ends m typeName fun _ _ => True := by
  refine (acceptSymbol_ends m _).bind fun typed k _ _ => .ite (fun _ => ?_) fun _ => .pure trivial
  exact (expectName_ends k _).bind fun _ _ _ _ => .pure trivial

theorem names_ends (f : ReadingFault) (acc : List Token) (h : 12 * m + 1 ≤ n) :
    Ends m (names f n acc) fun _ _ => True := by
  induction n generalizing m acc with
  | zero => omega
  | succ n ih =>
    rw [names]
    refine (expectName_ends m _).bind fun t k _ hk => (acceptSymbol_ends k _).bind ?_
    intro more j hj _
    exact .ite (fun _ => ih _ (by omega)) fun _ => .pure trivial

theorem parameters_ends (count : Nat) (acc : List Token) (h : 12 * m + 1 ≤ n) :
    Ends m (parameters n count acc) fun _ _ => True := by
  induction n generalizing m count acc with
  | zero => omega
  | succ n ih =>
    rw [parameters]
    refine reported_ends ((expectName_ends m _).bind fun t k _ hk => ?_)
    refine (acceptSymbol_ends k _).bind fun more j hj _ => ?_
    exact .ite (fun _ => ih _ _ (by omega)) fun _ => .pure trivial

theorem varList_ends (acc : List Stmt) (h : 12 * m + 1 ≤ n) :
    Ends m (varList n acc) fun _ k => k < m := by
  induction n generalizing m acc with
  | zero => omega
  | succ n ih =>
    rw [varList]
    refine (expectName_ends m _).bind fun t k _ hk => (typeName_ends k).bind fun type j hj _ => ?_
    refine introduced_ends (P := fun _ _ => True) (fun i hi => ?_) fun init i hi => ?_
    · exact ((exprEnds n).assignment i (by omega)).map fun _ _ _ _ => trivial
    · refine (acceptSymbol_ends i _).bind fun more a ha _ => .ite (fun _ => ?_) fun _ => ?_
      · exact (ih _ (by omega)).imp fun _ _ _ _ => by omega
      · exact .pure (by omega)

theorem varDeclaration_ends (h : 12 * m + 1 ≤ n) :
    Ends m (varDeclaration n) fun _ k => k < m :=
  (varList_ends [] h).bind fun _ k _ hk => (expectSymbol_ends k _ _).bind fun _ j _ _ =>
    .pure (by omega)

theorem importDeclaration_ends (keyword : Token) (h : 12 * m + 1 ≤ n) :
    Ends m (importDeclaration n keyword) fun _ _ => True := by
  refine (expectSymbol_ends m _ _).bind fun _ a _ ha => (names_ends _ [] (by omega)).bind ?_
  intro ns b hb _
  refine (expectSymbol_ends b _ _).bind fun _ c _ _ => (expect_ends c _ _).bind fun _ d _ _ => ?_
  refine (site_ends d).bind fun s e _ he => ?_
  cases s with
  | stop pos => exact fail_ends e _
  | token path =>
    dsimp only
    split
    · refine (skip_ends e).bind fun _ i _ _ => (expectSymbol_ends i _ _).bind fun _ _ _ _ => ?_
      exact .pure trivial
    · exact fail_ends e _

theorem exposeDeclaration_ends (keyword : Token) (h : 12 * m + 1 ≤ n) :
    Ends m (exposeDeclaration n keyword) fun _ _ => True :=
  (names_ends _ [] h).bind fun _ k _ _ => (expectSymbol_ends k _ _).bind fun _ _ _ _ =>
    .pure trivial

theorem expressionStatement_ends (h : 12 * m + 11 ≤ n) :
    Ends m (expressionStatement n) fun _ k => k < m :=
  ((exprEnds n).expression m h).bind fun _ k _ hk => (expectSymbol_ends k _ _).bind fun _ j _ _ =>
    .pure (by omega)

/-! ### Statements -/

theorem fieldAssignments_ends (m : Nat) (fields : List FieldDecl) :
    Ends m (fieldAssignments fields) fun _ _ => True := by
  induction fields generalizing m with
  | nil => exact .pure trivial
  | cons f fs ih =>
    rw [fieldAssignments]
    exact (refer_ends m _).bind fun _ k _ _ => (ih k).bind fun _ _ _ _ => .pure trivial

theorem classOf_ends (m : Nat) (name : Token) (sup : Option Ref) (members : Members) :
    Ends m (classOf name sup members) fun _ _ => True := by
  unfold classOf
  refine (fieldAssignments_ends m _).bind fun _ k _ _ => ?_
  dsimp only
  split
  · refine .ite (fun _ => ?_) fun _ => .pure trivial
    exact (report_ends k _ _).bind fun _ _ _ _ => .pure trivial
  · exact .pure trivial

theorem superclass_ends (m : Nat) (name : Token) :
    Ends m (superclass name) fun _ _ => True := by
  have hrefer : ∀ k t, Ends k (do return some (← refer t)) fun _ _ => True := fun k t =>
    (refer_ends k t).bind fun _ _ _ _ => .pure trivial
  refine (acceptSymbol_ends m _).bind fun more k _ _ => .ite (fun _ => ?_) fun _ => .pure trivial
  refine (expectName_ends k _).bind fun t j _ _ => .ite (fun _ => ?_) fun _ => hrefer j t
  exact (report_ends j _ _).bind fun _ i _ _ => hrefer i t

theorem length_dropSpoiled (last : Token) (ts : List Token) :
    (Reader.dropSpoiled last ts).length ≤ ts.length := by
  induction ts generalizing last with
  | nil => exact Nat.le_refl _
  | cons t ts ih =>
    rw [Reader.dropSpoiled]
    split
    · exact Nat.le_refl _
    · exact Nat.le_succ_of_le (ih t)

theorem faults_recover (r : Reader) : r.recover.faults = r.faults := by
  unfold Reader.recover
  split <;> rfl

theorem nextId_recover (r : Reader) : r.recover.nextId = r.nextId := by
  unfold Reader.recover
  split <;> rfl

/-- Going on after a fault drops a token if there is one. -/
theorem length_recover (r : Reader) :
    r.recover.rest.length ≤ r.rest.length - 1 := by
  obtain ⟨rest, stop, nextId, faults⟩ := r
  cases rest with
  | nil => exact Nat.le_refl _
  | cons t ts => exact length_dropSpoiled t ts

/-- So no fault keeps reading at its place. -/
theorem recovering_ends {p : Read Stmt} (hp : Ends m p fun _ k => k < m) :
    Ends m (recovering p) fun _ k => 0 < m → k < m := by
  intro r hm
  have h := hp r hm
  unfold recovering
  cases hr : p r with
  | ok s r' =>
    rw [hr] at h
    exact ⟨h.1, fun _ => h.2⟩
  | error e r' =>
    rw [hr] at h
    cases e with
    | exhausted => exact h
    | faulty =>
      have h : r'.rest.length ≤ m := h
      have := length_recover r'
      exact ⟨by omega, fun _ => by omega⟩

end Read

/-- With enough steps left for the tokens ahead, statements are read to their end. -/
structure StmtEnds (n : Nat) : Prop where
  declaration : ∀ m, 12 * m + 13 ≤ n → Ends m (Read.declaration n) fun _ k => 0 < m → k < m
  block : ∀ m acc, 12 * m + 14 ≤ n → Ends m (Read.block n acc) fun _ _ => True
  functionRest : ∀ m role name, 12 * m + 3 ≤ n →
    Ends m (Read.functionRest n role name) fun _ _ => True
  classDeclaration : ∀ m, 12 * m + 1 ≤ n → Ends m (Read.classDeclaration n) fun _ _ => True
  classMembers : ∀ m acc, 12 * m + 1 ≤ n → Ends m (Read.classMembers n acc) fun _ _ => True
  statement : ∀ m, 12 * m + 12 ≤ n → Ends m (Read.statement n) fun _ k => k < m
  branch : ∀ m, 12 * m + 1 ≤ n → Ends m (Read.branch n) fun _ _ => True
  countedLoop : ∀ m, 12 * m + 1 ≤ n → Ends m (Read.countedLoop n) fun _ _ => True

namespace StmtEnds
open Read
variable {n m : Nat}

theorem declaration_succ (ih : StmtEnds n) (h : 12 * m + 13 ≤ n + 1) :
    Ends m (Read.declaration (n + 1)) fun _ k => 0 < m → k < m := by
  rw [Read.declaration]
  refine recovering_ends ((site_ends m).bind fun s j _ hs => ?_)
  obtain ⟨rfl, hs⟩ := hs
  cases s with
  | stop pos => exact ih.statement j (by omega)
  | token t =>
    have hpos := hs t rfl
    dsimp only
    split
    · refine (skip_ends j).bind fun _ k _ hk => ?_
      exact (varDeclaration_ends (by omega)).imp fun _ _ _ _ => by omega
    · refine (skip_ends j).bind fun _ k _ hk => (expectName_ends k _).bind fun x i _ hi => ?_
      exact (ih.functionRest i _ x (by omega)).bind fun _ _ _ _ => .pure (by omega)
    · refine (skip_ends j).bind fun _ k _ hk => ?_
      exact (ih.classDeclaration k (by omega)).imp fun _ _ _ _ => by omega
    · refine (skip_ends j).bind fun _ k _ hk => ?_
      exact (importDeclaration_ends t (by omega)).imp fun _ _ _ _ => by omega
    · refine (skip_ends j).bind fun _ k _ hk => ?_
      exact (exposeDeclaration_ends t (by omega)).imp fun _ _ _ _ => by omega
    · exact ih.statement j (by omega)

theorem block_succ (ih : StmtEnds n) (acc : List Stmt) (h : 12 * m + 14 ≤ n + 1) :
    Ends m (Read.block (n + 1) acc) fun _ _ => True := by
  rw [Read.block]
  refine (atEnd_ends m).bind fun ended a _ ha => (ahead_ends a _).bind fun closed b _ hb => ?_
  obtain ⟨rfl, hend⟩ := ha
  subst hb
  refine .ite (fun _ => ?_) fun hopen => ?_
  · exact (expectSymbol_ends b _ _).bind fun _ _ _ _ => .pure trivial
  · have hpos : 0 < b := by
      rw [Bool.or_eq_true, not_or, hend] at hopen
      omega
    refine (ih.declaration b (by omega)).bind fun x k _ hk => ?_
    have hk := hk hpos
    cases x with
    | none => exact ih.block k _ (by omega)
    | some s => exact ih.block k _ (by omega)

theorem functionRest_succ (ih : StmtEnds n) (role : FunctionRole) (name : Token)
    (h : 12 * m + 3 ≤ n + 1) : Ends m (Read.functionRest (n + 1) role name) fun _ _ => True := by
  rw [Read.functionRest]
  refine (expectSymbol_ends m _ _).bind fun _ a _ ha => (ahead_ends a _).bind fun _ b _ hb => ?_
  subst hb
  refine .optional (parameters_ends 0 [] (by omega)) fun params c hc => ?_
  refine (expectSymbol_ends c _ _).bind fun _ d _ _ => ?_
  refine (expectSymbol_ends d _ _).bind fun _ e _ _ => ?_
  exact (ih.block e [] (by omega)).bind fun _ _ _ _ => .pure trivial

theorem classDeclaration_succ (ih : StmtEnds n) (h : 12 * m + 1 ≤ n + 1) :
    Ends m (Read.classDeclaration (n + 1)) fun _ _ => True := by
  rw [Read.classDeclaration]
  refine (expectName_ends m _).bind fun x a _ ha => (superclass_ends a x).bind fun sup b hb _ => ?_
  refine (expectSymbol_ends b _ _).bind fun _ c _ _ => (ih.classMembers c _ (by omega)).bind ?_
  intro members d _ _
  exact (expectSymbol_ends d _ _).bind fun _ e _ _ => classOf_ends e x sup members

theorem classMembers_succ (ih : StmtEnds n) (acc : Members) (h : 12 * m + 1 ≤ n + 1) :
    Ends m (Read.classMembers (n + 1) acc) fun _ _ => True := by
  rw [Read.classMembers]
  refine (atEnd_ends m).bind fun _ a _ ha => (ahead_ends a _).bind fun _ b _ hb => ?_
  obtain ⟨rfl, -⟩ := ha
  subst hb
  refine .ite (fun _ => .pure trivial) fun _ => ?_
  refine (acceptKeyword_ends b _).bind fun static c hc _ => (expectName_ends c _).bind ?_
  intro x d _ hd
  refine (ahead_ends d _).bind fun _ e _ he => .ite (fun _ => ?_) fun _ => ?_
  · exact (ih.functionRest e _ x (by omega)).bind fun f i hi _ => ih.classMembers i _ (by omega)
  · refine (typeName_ends e).bind fun type i hi _ => ?_
    refine introduced_ends (P := fun _ _ => True) (fun k hk => ?_) fun init k hk => ?_
    · exact ((exprEnds n).expression k (by omega)).map fun _ _ _ _ => trivial
    · exact (expectSymbol_ends k _ _).bind fun _ j _ _ => ih.classMembers j _ (by omega)

theorem statement_succ (ih : StmtEnds n) (h : 12 * m + 12 ≤ n + 1) :
    Ends m (Read.statement (n + 1)) fun _ k => k < m := by
  rw [Read.statement]
  refine (site_ends m).bind fun s j _ hs => ?_
  obtain ⟨rfl, hs⟩ := hs
  cases s with
  | stop pos => exact expressionStatement_ends (by omega)
  | token t =>
    have hpos := hs t rfl
    dsimp only
    split
    · refine (skip_ends j).bind fun _ k _ hk => ((exprEnds n).expression k (by omega)).bind ?_
      intro e i _ hi
      exact (expectSymbol_ends i _ _).bind fun _ _ _ _ => .pure (by omega)
    · refine (skip_ends j).bind fun _ k _ hk => ?_
      exact (ih.branch k (by omega)).imp fun _ _ _ _ => by omega
    · refine (skip_ends j).bind fun _ k _ hk => (expectSymbol_ends k _ _).bind fun _ a _ ha => ?_
      refine ((exprEnds n).expression a (by omega)).bind fun e b _ hb => ?_
      refine (expectSymbol_ends b _ _).bind fun _ c _ hc => ?_
      exact (ih.statement c (by omega)).bind fun _ _ _ _ => .pure (by omega)
    · refine (skip_ends j).bind fun _ k _ hk => ?_
      exact (ih.countedLoop k (by omega)).imp fun _ _ _ _ => by omega
    · refine (skip_ends j).bind fun _ k _ hk => (ahead_ends k _).bind fun _ a _ ha => ?_
      have hvalue : Ends a (some <$> Read.expression n) fun _ _ => True :=
        ((exprEnds n).expression a (by omega)).map fun _ _ _ _ => trivial
      refine .optional hvalue fun value b hb => ?_
      exact (expectSymbol_ends b _ _).bind fun _ _ _ _ => .pure (by omega)
    · refine (skip_ends j).bind fun _ k _ hk => ?_
      exact (expectSymbol_ends k _ _).bind fun _ _ _ _ => .pure (by omega)
    · refine (skip_ends j).bind fun _ k _ hk => ?_
      exact (expectSymbol_ends k _ _).bind fun _ _ _ _ => .pure (by omega)
    · refine (skip_ends j).bind fun _ k _ hk => ?_
      exact (ih.block k [] (by omega)).bind fun _ _ _ _ => .pure (by omega)
    · exact expressionStatement_ends (by omega)

theorem branch_succ (ih : StmtEnds n) (h : 12 * m + 1 ≤ n + 1) :
    Ends m (Read.branch (n + 1)) fun _ _ => True := by
  rw [Read.branch]
  refine (expectSymbol_ends m _ _).bind fun _ a _ ha => ?_
  refine ((exprEnds n).expression a (by omega)).bind fun e b _ hb => ?_
  refine (expectSymbol_ends b _ _).bind fun _ c _ hc => (ih.statement c (by omega)).bind ?_
  intro yes d _ hd
  refine (acceptKeyword_ends d _).bind fun more i hi _ => .ite (fun _ => ?_) fun _ => .pure trivial
  exact (ih.statement i (by omega)).bind fun _ _ _ _ => .pure trivial

theorem countedLoop_succ (ih : StmtEnds n) (h : 12 * m + 1 ≤ n + 1) :
    Ends m (Read.countedLoop (n + 1)) fun _ _ => True := by
  have hrest : ∀ (first : List Stmt) (k : Nat), k < m →
      Ends k (Read.loopClauses n first) fun _ _ => True := by
    intro first k hk
    refine (ahead_ends k _).bind fun _ a _ ha => ?_
    refine .optional ((exprEnds n).expression a (by omega)) fun cond b hb => ?_
    refine (expectSymbol_ends b _ _).bind fun _ c _ _ => (ahead_ends c _).bind fun _ d _ hd => ?_
    have hstep : Ends d (some <$> Read.expression n) fun _ _ => True :=
      ((exprEnds n).expression d (by omega)).map fun _ _ _ _ => trivial
    refine .optional hstep fun step e he => (expectSymbol_ends e _ _).bind fun _ i _ _ => ?_
    exact (ih.statement i (by omega)).bind fun _ _ _ _ => .pure trivial
  have hone : ∀ {k : Nat} {p : Read Stmt}, k < m → Ends k p (fun _ j => j < k) →
      Ends k ((fun s => [s]) <$> p) fun _ j => j < m := fun hk hp =>
    hp.map fun _ _ _ _ => by omega
  rw [countedLoop_eq]
  refine (expectSymbol_ends m _ _).bind fun _ a _ ha => (acceptKeyword_ends a _).bind ?_
  intro var b hb _
  refine .ite (fun _ => ?_) fun _ => ?_
  · exact (hone (by omega) (varDeclaration_ends (by omega))).bind
      fun first k _ hk => hrest first k hk
  · refine (acceptSymbol_ends b _).bind fun none c hc _ => .ite (fun _ => ?_) fun _ => ?_
    · exact hrest [] c (by omega)
    · exact (hone (by omega) (expressionStatement_ends (by omega))).bind
        fun first k _ hk => hrest first k hk

end StmtEnds

theorem stmtEnds (n : Nat) : StmtEnds n := by
  induction n with
  | zero =>
    refine ⟨?_, ?_, ?_, ?_, ?_, ?_, ?_, ?_⟩
    all_goals intros; omega
  | succ n ih =>
    exact ⟨fun _ => ih.declaration_succ, fun _ => ih.block_succ, fun _ => ih.functionRest_succ,
      fun _ => ih.classDeclaration_succ, fun _ => ih.classMembers_succ, fun _ => ih.statement_succ,
      fun _ => ih.branch_succ, fun _ => ih.countedLoop_succ⟩

/-! ### Programs -/

/-- Reading of declarations does not run out of steps. -/
theorem Read.declarations_ends {n m : Nat} (acc : List Stmt) (h : 12 * m + 14 ≤ n) :
    Ends m (Read.declarations n acc) fun _ _ => True := by
  induction n generalizing m acc with
  | zero => omega
  | succ n ih =>
    rw [Read.declarations]
    refine (atEnd_ends m).bind fun ended a _ ha => .ite (fun _ => .pure trivial) fun hopen => ?_
    obtain ⟨rfl, hend⟩ := ha
    rw [hend] at hopen
    refine ((stmtEnds n).declaration a (by omega)).bind fun x k _ hk => ?_
    have hk := hk (by omega)
    cases x with
    | none => exact ih _ (by omega)
    | some s => exact ih _ (by omega)

/-- A program has steps enough. -/
theorem Program.read_not_exhausted (tokens : List Token) (stop : Pos) (firstId : Nat) (r : Reader) :
    Read.declarations (steps tokens.length) [] ⟨tokens, stop, firstId, []⟩ ≠
      .error .exhausted r := by
  intro h
  have hsteps : 12 * tokens.length + 14 ≤ steps tokens.length := by
    unfold steps
    omega
  have hend := Read.declarations_ends [] hsteps ⟨tokens, stop, firstId, []⟩ rfl
  rw [h] at hend
  exact hend

end Treewalk
