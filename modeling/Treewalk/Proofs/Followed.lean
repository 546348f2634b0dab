import Treewalk.Proofs.FollowedDecl

/-!
# Texts of the grammar are read

Every declaration that the grammar derives is read without a fault, from its first token to its last
(`follows`), by induction on its derivation. The first token of a phrase tells which branch of
`Read.declaration` and `Read.statement` reads it.
-/

namespace Treewalk
open Grammar Grammar.Phrase

namespace Follows
variable {w : List Token}

/-! ### Simple statements -/

theorem stops_symbol {t : Token} {s : Symbol} (ht : t.isSymbol s = true)
    (hs : s ∈ [.semicolon, .rightParen]) (l : List Token) : Stops 11 (t :: l) := by
  simp only [List.mem_cons, List.not_mem_nil, or_false] at hs
  refine .cons ?_
  rcases hs with rfl | rfl <;> simp [Token.rank, Token.kind_of_isSymbol ht]

theorem exprStmt (h : Row Follows [.expression, sym .semicolon] w) : FollowsStmt .exprStmt w := by
  obtain ⟨e, _, rfl, ⟨he, -⟩, _, _, rfl, ⟨⟨s, rfl, hs⟩, -⟩, rfl⟩ := h
  refine ⟨he.1.append _, fun n rest => ?_⟩
  refine (he.2 n _ (stops_symbol hs (by simp) _)).bind fun e _ => ?_
  exact Read.expectSymbol_cons hs (.pure trivial)

/-- A statement that starts as an expression does is one. -/
theorem statement_expr {rest : List Token} {Q : Stmt → Prop} (n : Nat)
    (hb : Begins Token.startsExpr w) (h : ∀ n, Takes (Read.expressionStatement n) w rest Q) :
    Takes (Read.statement n) w rest Q := by
  obtain ⟨t, u, rfl, ht⟩ := hb
  cases n with
  | zero => exact .exhausted
  | succ n =>
    rw [Read.statement]
    refine Read.site_takes ?_
    dsimp only
    split
    case h_9 => exact h n
    all_goals
      rename_i hk
      simp [Token.startsExpr, Token.startsPrimary, Read.isUnaryOp, Token.isSymbol, hk] at ht

theorem begins_keyword {t : Token} {k : Keyword} (ht : t.isKeyword k = true)
    (hk : k ∉ [Keyword.and, .else, .module, .or, .static, .var, .fun, .cls, .imports, .expose])
    (l : List Token) : Begins Token.startsStmt (t :: l) :=
  ⟨t, l, rfl, Token.startsStmt_of_keyword ht hk⟩

/-- A statement that is read whatever comes after it. -/
theorem plain (hb : Begins Token.startsStmt w)
    (h : ∀ n rest, Takes (Read.statement (n + 1)) w rest fun _ => True) : ∃ o, Arm o w := by
  refine ⟨false, .plain hb fun n rest => ?_⟩
  cases n with
  | zero => exact .exhausted
  | succ n => exact h n rest

theorem leave {k : Keyword} (hk : k ∈ [Keyword.break, .continue])
    (h : Row Follows [word k, sym .semicolon] w) : FollowsStmt .statement w := by
  obtain ⟨_, _, rfl, ⟨⟨t, rfl, ht⟩, -⟩, _, _, rfl, ⟨⟨s, rfl, hs⟩, -⟩, rfl⟩ := h
  simp only [List.mem_cons, List.not_mem_nil, or_false] at hk
  rcases hk with rfl | rfl
  all_goals
    refine plain (begins_keyword ht (by decide) _) fun n rest => ?_
    rw [Read.statement]
    refine Read.site_takes ?_
    simp only [Token.kind_of_isKeyword ht]
    exact Read.skip_takes (Read.expectSymbol_cons hs (.pure trivial))

theorem printStmt (h : Row Follows [word .print, .expression, sym .semicolon] w) :
    FollowsStmt .printStmt w := by
  obtain ⟨_, _, rfl, ⟨⟨t, rfl, ht⟩, -⟩, e, _, rfl, ⟨he, -⟩, _, _, rfl, ⟨⟨s, rfl, hs⟩, -⟩, rfl⟩ := h
  simp only [List.cons_append, List.nil_append]
  refine plain (begins_keyword ht (by decide) _) fun n rest => ?_
  rw [Read.statement]
  refine Read.site_takes ?_
  simp only [Token.kind_of_isKeyword ht]
  refine Read.skip_takes ((he.2 n _ (stops_symbol hs (by simp) _)).bind fun e _ => ?_)
  exact Read.expectSymbol_cons hs (.pure trivial)

/-- An expression that may be left out before a symbol. -/
theorem optional {α β : Type} {p : Read β} {f : β → Read α} {x : β} {s : Symbol} {t : Token}
    {n : Nat} {ps : List Phrase} {e v rest : List Token} {Q : α → Prop}
    (hps : Maybe [.expression] ps) (he : Row Follows ps e) (ht : t.isSymbol s = true) (hs : s ∈ [.semicolon, .rightParen])
    (hp : ∀ rest, Takes (Read.expression n) e rest (fun _ => True) → Takes p e rest fun _ => True)
    (hf : ∀ y, Takes (f y) (t :: v) rest Q) : Takes (do
      if ← Read.ahead (·.isSymbol s) then f x else p >>= f) (e ++ (t :: v)) rest Q := by
  rcases hps with rfl | rfl
  · obtain rfl : e = [] := he
    exact Read.ahead_takes (b := true) ht (hf x)
  · obtain ⟨u, _, rfl, ⟨hu, -⟩, rfl⟩ := he
    rw [List.append_nil] at hp ⊢
    refine Read.ahead_takes (b := false) ?_ ?_
    · rw [List.append_assoc]
      refine (hu.1.append _).avoids fun t ht => FollowsExpr.startsExpr_not_symbol ht ?_
      simp only [List.mem_cons, List.not_mem_nil, or_false] at hs
      rcases hs with rfl | rfl <;> decide
    · exact (hp _ (hu.2 n _ (stops_symbol ht hs _))).bind fun y _ => hf y

theorem returnStmt {value : List Phrase} (hv : Maybe [.expression] value)
    (h : Row Follows ([word .return] ++ value ++ [sym .semicolon]) w) :
    FollowsStmt .returnStmt w := by
  obtain ⟨_, _, rfl, h', _, _, rfl, ⟨⟨s, rfl, hs⟩, -⟩, rfl⟩ := h.split
  obtain ⟨_, e, rfl, ⟨_, _, rfl, ⟨⟨t, rfl, ht⟩, -⟩, rfl⟩, he⟩ := h'.split
  simp only [List.cons_append, List.nil_append, List.append_nil]
  refine plain (begins_keyword ht (by decide) _) fun n rest => ?_
  rw [Read.statement]
  refine Read.site_takes ?_
  simp only [Token.kind_of_isKeyword ht]
  refine Read.skip_takes (optional (n := n) hv he hs (by simp) ?_ fun value => ?_)
  · exact fun rest h => h.map fun _ _ => trivial
  · exact Read.expectSymbol_cons hs (.pure trivial)

theorem blockStmt (h : FollowsStmt .block w) : ∃ o, Arm o w := by
  obtain ⟨l, u, rfl, hl, hu⟩ := h
  have hkind := Token.kind_of_isSymbol hl
  refine plain ⟨l, u, rfl, ?_⟩ fun n rest => ?_
  · simp [Token.startsStmt, Token.startsDecl, Token.isKeyword, hkind]
  · rw [Read.statement]
    refine Read.site_takes ?_
    simp only [hkind]
    exact Read.skip_takes ((hu n rest).andThen fun _ _ => .pure trivial)

/-! ### Loops and branches -/

theorem whileStmt (h : Row Follows
    [word .while, sym .leftParen, .expression, sym .rightParen, .statement] w) :
    FollowsStmt .whileStmt w := by
  obtain ⟨_, _, rfl, ⟨⟨t, rfl, ht⟩, -⟩, _, _, rfl, ⟨⟨l, rfl, hl⟩, -⟩, e, _, rfl, ⟨he, -⟩, _, _, rfl,
    ⟨⟨r, rfl, hr⟩, -⟩, s, _, rfl, ⟨-, o, hs⟩, rfl⟩ := h
  have hhead : LoopHead (t :: l :: (e ++ [r])) := by
    refine ⟨begins_keyword ht (by decide) _, fun n s rest hs => ?_⟩
    cases n with
    | zero => exact .exhausted
    | succ n =>
      rw [Read.statement]
      simp only [List.cons_append, List.append_assoc, List.nil_append]
      refine Read.site_takes ?_
      simp only [Token.kind_of_isKeyword ht]
      refine Read.skip_takes (Read.expectSymbol_cons hl ?_)
      refine (he.2 n _ (stops_symbol hr (by simp) _)).bind fun cond _ => ?_
      exact Read.expectSymbol_cons hr ((hs n).andThen fun body _ => .pure trivial)
  exact ⟨o, by simpa using hs.loop hhead⟩

/-- The clauses of a `for` after the first one. -/
theorem loopClauses {cond step : List Phrase} {c d s rest : List Token} {m r : Token} (n : Nat)
    (first : List Stmt) (hcond : Maybe [.expression] cond) (hc : Row Follows cond c)
    (hm : m.isSymbol .semicolon = true) (hstep : Maybe [.expression] step) (hd : Row Follows step d)
    (hr : r.isSymbol .rightParen = true)
    (hs : ∀ m, Takes (Read.statement m) s rest fun _ => True) :
    Takes (Read.loopClauses n first) (c ++ (m :: (d ++ (r :: s)))) rest fun _ => True := by
  refine optional (n := n) hcond hc hm (by simp) (fun _ h => h) fun cond => ?_
  refine Read.expectSymbol_cons hm (optional (n := n) hstep hd hr (by simp) ?_ fun step => ?_)
  · exact fun rest h => h.map fun _ _ => trivial
  · exact Read.expectSymbol_cons hr ((hs n).andThen fun body _ => .pure trivial)

/-- The first clause of a `for`. -/
theorem firstClause {first : Phrase} {l : Token} {f v rest : List Token} {Q : Stmt → Prop} (n : Nat)
    (hl : l.isSymbol .leftParen = true) (hfirst : first ∈ [.varDecl, .exprStmt, sym .semicolon])
    (hf : Follows first f) (hv : ∀ n ss, Takes (Read.loopClauses n ss) v rest Q) :
    Takes (Read.countedLoop n) (l :: (f ++ v)) rest Q := by
  cases n with
  | zero => exact .exhausted
  | succ n =>
    rw [Read.countedLoop_eq]
    refine Read.expectSymbol_cons hl ?_
    simp only [List.mem_cons, List.not_mem_nil, or_false] at hfirst
    rcases hfirst with rfl | rfl | rfl
    · obtain ⟨t, u, rfl, ht, hu⟩ := hf.2
      refine Read.acceptKeyword_cons ht ?_
      exact ((hu n _).map fun _ _ => trivial).bind (P := fun _ => True) fun ss _ => hv n ss
    · obtain ⟨hb, hf⟩ := hf.2
      refine Read.acceptKeyword_pass ?_ (Read.acceptSymbol_pass ?_ ?_)
      · rw [List.append_assoc]
        refine (hb.append _).avoids fun t ht => Bool.eq_false_iff.2 fun hvar => ?_
        simp [Token.startsExpr, Token.startsPrimary, Read.isUnaryOp, Token.isSymbol,
          Token.kind_of_isKeyword hvar] at ht
      · rw [List.append_assoc]
        exact (hb.append _).avoids fun t ht => FollowsExpr.startsExpr_not_symbol ht (by decide)
      · exact ((hf n _).map fun _ _ => trivial).bind (P := fun _ => True) fun ss _ => hv n ss
    · obtain ⟨s, rfl, hs⟩ := hf.1
      refine Read.acceptKeyword_pass ?_ (Read.acceptSymbol_cons hs (hv n []))
      simp [Avoids, Token.isKeyword, Token.kind_of_isSymbol hs]

theorem forStmt {first : Phrase} {cond step : List Phrase}
    (hfirst : first ∈ [.varDecl, .exprStmt, sym .semicolon]) (hcond : Maybe [.expression] cond)
    (hstep : Maybe [.expression] step)
    (h : Row Follows ([word .for, sym .leftParen, first] ++ cond ++ [sym .semicolon] ++ step ++
      [sym .rightParen, .statement]) w) : FollowsStmt .forStmt w := by
  obtain ⟨_, _, rfl, h₁, _, _, rfl, ⟨⟨r, rfl, hr⟩, -⟩, s, _, rfl, ⟨-, o, hs⟩, rfl⟩ := h.split
  obtain ⟨_, d, rfl, h₂, hd⟩ := h₁.split
  obtain ⟨_, _, rfl, h₃, _, _, rfl, ⟨⟨m, rfl, hm⟩, -⟩, rfl⟩ := h₂.split
  obtain ⟨_, c, rfl, ⟨_, _, rfl, ⟨⟨t, rfl, ht⟩, -⟩, _, _, rfl, ⟨⟨l, rfl, hl⟩, -⟩, f, _, rfl, hf,
    rfl⟩, hc⟩ := h₃.split
  have hhead : LoopHead (t :: l :: (f ++ (c ++ (m :: (d ++ [r]))))) := by
    refine ⟨begins_keyword ht (by decide) _, fun n s rest hs => ?_⟩
    cases n with
    | zero => exact .exhausted
    | succ n =>
      rw [Read.statement]
      simp only [List.cons_append, List.append_assoc, List.nil_append]
      refine Read.site_takes ?_
      simp only [Token.kind_of_isKeyword ht]
      refine Read.skip_takes (firstClause n hl hfirst hf fun n ss => ?_)
      exact loopClauses n ss hcond hc hm hstep hd hr hs
  exact ⟨o, by simpa using hs.loop hhead⟩

theorem ifHead {t l r : Token} {e : List Token} (ht : t.isKeyword .if = true)
    (hl : l.isSymbol .leftParen = true) (he : FollowsExpr .expression e)
    (hr : r.isSymbol .rightParen = true) : IfHead (t :: l :: (e ++ [r])) := by
  have hbegin : ∀ n (v rest : List Token) (Q : Stmt → Prop), (∀ m cond, Takes (do
        let yes ← Read.statement m
        if ← Read.acceptKeyword .else then
          let no ← Read.statement m
          return .branch cond yes (some no)
        else return .branch cond yes none) v rest Q) →
      Takes (Read.statement n) (t :: l :: (e ++ [r]) ++ v) rest Q := by
    intro n v rest Q hv
    cases n with
    | zero => exact .exhausted
    | succ n =>
      rw [Read.statement]
      simp only [List.cons_append, List.append_assoc, List.nil_append]
      refine Read.site_takes ?_
      simp only [Token.kind_of_isKeyword ht]
      refine Read.skip_takes ?_
      cases n with
      | zero => exact .exhausted
      | succ n =>
        rw [Read.branch]
        refine Read.expectSymbol_cons hl ?_
        refine (he.2 n _ (stops_symbol hr (by simp) _)).bind fun cond _ => ?_
        exact Read.expectSymbol_cons hr (hv n cond)
  refine ⟨begins_keyword ht (by decide) _, fun n s rest hs helse => ?_,
    fun n s x s' rest hs hx hs' => ?_⟩
  · refine hbegin n s rest _ fun m cond => (hs m).andThen fun yes _ => ?_
    exact Read.acceptKeyword_pass helse (.pure trivial)
  · refine hbegin n _ rest _ fun m cond => (hs m).bind fun yes _ => ?_
    exact Read.acceptKeyword_cons hx ((hs' m).andThen fun no _ => .pure trivial)

theorem ifStmt {other : List Phrase} (hother : Maybe [word .else, .statement] other)
    (h : Row Follows ([word .if, sym .leftParen, .expression, sym .rightParen, .statement] ++ other)
      w) : FollowsStmt .ifStmt w := by
  obtain ⟨_, v, rfl, ⟨_, _, rfl, ⟨⟨t, rfl, ht⟩, -⟩, _, _, rfl, ⟨⟨l, rfl, hl⟩, -⟩, e, _, rfl,
    ⟨he, -⟩, _, _, rfl, ⟨⟨r, rfl, hr⟩, -⟩, s, _, rfl, ⟨-, o, hs⟩, rfl⟩, hv⟩ := h.split
  have hhead := ifHead ht hl he hr
  rcases hother with rfl | rfl
  · obtain rfl : v = [] := hv
    exact ⟨true, by simpa using hs.short hhead⟩
  · obtain ⟨_, _, rfl, ⟨⟨x, rfl, hx⟩, -⟩, s', _, rfl, ⟨-, o', hs'⟩, rfl⟩ := hv
    cases o with
    | false => exact ⟨o', by simpa using hs.long hhead hx hs'⟩
    | true =>
      -- The derivation gives the `else` to this `if`, the reader to one within its branch.
      obtain ⟨o'', h⟩ := (hs.short hhead).dangling rfl hx hs'
      exact ⟨o'', by simpa using h⟩

theorem statement {p : Phrase} (hp : p ∈
    [.exprStmt, .forStmt, .ifStmt, .printStmt, .returnStmt, .whileStmt, .block])
    (h : FollowsStmt p w) : FollowsStmt .statement w := by
  simp only [List.mem_cons, List.not_mem_nil, or_false] at hp
  rcases hp with rfl | rfl | rfl | rfl | rfl | rfl | rfl
  · refine plain (h.1.imp fun t => Token.startsStmt_of_startsExpr) fun n rest => ?_
    exact statement_expr (n + 1) h.1 fun n => h.2 n rest
  · exact h
  · exact h
  · exact h
  · exact h
  · exact h
  · exact blockStmt h

/-! ### Declarations -/

theorem recovering {p : Read Stmt} {rest : List Token} {P : Stmt → Prop} {Q : Option Stmt → Prop}
    (h : Takes p w rest P) (hQ : ∀ s, P s → Q (some s)) : Takes (Read.recovering p) w rest Q := by
  intro stop id faults
  unfold Read.recovering
  rcases h stop id faults with ⟨s, id', hs, hP⟩ | ⟨r, hr⟩
  · rw [hs]
    exact .inl ⟨some s, id', rfl, hQ s hP⟩
  · rw [hr]
    exact .inr ⟨r, rfl⟩

/-- A declaration that starts as a statement does is one. -/
theorem declaration_stmt {rest : List Token} {P : Stmt → Prop} {Q : Option Stmt → Prop} (n : Nat)
    (hb : Begins Token.startsStmt w) (h : ∀ n, Takes (Read.statement n) w rest P)
    (hQ : ∀ s, P s → Q (some s)) : Takes (Read.declaration n) w rest Q := by
  obtain ⟨t, u, rfl, ht⟩ := hb
  cases n with
  | zero => exact .exhausted
  | succ n =>
    rw [Read.declaration]
    refine recovering (Read.site_takes ?_) hQ
    dsimp only
    split
    case h_6 => exact h n
    all_goals
      rename_i hk
      simp [Token.startsStmt, Token.isKeyword, hk] at ht

theorem declaration {p : Phrase}
    (hp : p ∈ [.classDecl, .funDecl, .varDecl, .importDecl, .exposeDecl, .statement])
    (h : FollowsStmt p w) : FollowsStmt .declaration w := by
  simp only [List.mem_cons, List.not_mem_nil, or_false] at hp
  rcases hp with rfl | rfl | rfl | rfl | rfl | rfl
  case inr.inr.inr.inr.inr =>
    obtain ⟨o, h⟩ := h
    refine ⟨h.begins.imp fun t => Token.startsDecl_of_startsStmt, fun n rest hr => ?_⟩
    exact declaration_stmt n h.begins (fun n => h.takes n fun _ => hr) fun _ _ => rfl
  all_goals
    obtain ⟨t, u, rfl, ht, hu⟩ := h
    refine ⟨⟨t, u, rfl, Token.startsDecl_of_keyword ht (by decide)⟩, fun n rest _ => ?_⟩
    cases n with
    | zero => exact .exhausted
    | succ n =>
      rw [Read.declaration]
      refine recovering (P := fun _ => True) (Read.site_takes ?_) fun _ _ => rfl
      simp only [Token.kind_of_isKeyword ht]
      exact Read.skip_takes (hu n rest)

/-- A call of the inherited initializer is read as one. -/
theorem superInit {args : List Phrase} (hargs : Maybe [.arguments] args)
    (h : Row Follows ([word .super, sym .dot, .token (.named initName), sym .leftParen] ++ args ++
      [sym .rightParen, sym .semicolon]) w) : FollowsStmt .superInit w := by
  obtain ⟨_, _, rfl, h', _, _, rfl, ⟨⟨r, rfl, hr⟩, -⟩, _, _, rfl, ⟨⟨m, rfl, hm⟩, -⟩, rfl⟩ := h.split
  obtain ⟨_, b, rfl, ⟨_, _, rfl, ⟨⟨s, rfl, hs⟩, -⟩, _, _, rfl, ⟨⟨d, rfl, hd⟩, -⟩, _, _, rfl,
    ⟨⟨x, rfl, hx⟩, -⟩, _, _, rfl, ⟨⟨l, rfl, hl⟩, -⟩, rfl⟩, hb⟩ := h'.split
  obtain ⟨hid, hlex⟩ := Bool.and_eq_true_iff.1 hx
  have hcall : ∀ n rest, Stops 2 rest →
      Takes (Read.unary n) ([s, d, x] ++ ([l] ++ (b ++ ([r] ++ [])))) rest fun e =>
        ClassDecl.isSuperInit (.expr e) = true := by
    intro n rest hrest
    refine FollowsExpr.unary_primary n ⟨s, _, rfl, FollowsExpr.startsPrimary_super hs⟩
      (fun n => FollowsExpr.primary_super hs hd hid n _) fun n e he => ?_
    obtain ⟨ref, rfl⟩ := he
    refine FollowsExpr.suffixes_apply n ⟨l, rfl, hl⟩ hargs (rowExpr hb) ⟨r, rfl, hr⟩ ?_
    exact fun n paren as => Read.suffixes_stop n hrest hlex
  have hstmt : ∀ n rest, Takes (Read.expressionStatement n)
      ([s, d, x] ++ ([l] ++ (b ++ ([r] ++ []))) ++ [m]) rest fun st =>
        ClassDecl.isSuperInit st = true := by
    intro n rest
    refine (Read.expression_of_unary hcall n (stops_symbol hm (by simp) _)).bind fun e he => ?_
    exact Read.expectSymbol_cons hm (.pure he)
  have hexpr : s.startsExpr = true := by
    simp [Token.startsExpr, FollowsExpr.startsPrimary_super hs]
  have hstart := Token.startsStmt_of_startsExpr hexpr
  simp only [List.cons_append, List.nil_append, List.append_nil, List.append_assoc] at hstmt ⊢
  refine ⟨⟨s, _, rfl, Token.startsDecl_of_startsStmt hstart⟩, fun n rest => ?_⟩
  refine declaration_stmt n ⟨s, _, rfl, hstart⟩ (fun n => ?_) fun _ hst => hst
  exact statement_expr n ⟨s, _, rfl, hexpr⟩ fun n => hstmt n rest

end Follows

/-! ### Derivations -/

/-- The rules for declarations and statements are followed. -/
theorem followsStmt_of_rule {p : Phrase} {qs : List Phrase} {w : List Token} (h : Rule p qs)
    (hw : Row Follows qs w) : FollowsStmt p w := by
  cases h with
  | declaration hp =>
    obtain ⟨u, _, rfl, ⟨-, hu⟩, rfl⟩ := hw
    rw [List.append_nil]
    exact Follows.declaration hp hu
  | base k => exact Follows.base hw
  | derived hxy hms => exact Follows.derived hxy hms hw
  | member hs hp => exact Follows.member hs hp hw
  | plainField hs => exact Follows.plainField hs hw
  | plainStatic => exact Follows.plainStatic hw
  | plainMethod hx => exact Follows.plainMethod hx hw
  | initMember hps k => exact Follows.initMember hps hw
  | method hps => exact Follows.method hps hw
  | field ht hi => exact Follows.field ht hi hw
  | funDecl => exact Follows.funDecl hw
  | params hk => exact Follows.params hk hw
  | varDecl k => exact Follows.varDecl hw
  | binding ht hi => exact Follows.binding ht hi hw
  | importDecl k => exact Follows.importDecl hw
  | exposeDecl k => exact Follows.exposeDecl hw
  | statement hp =>
    obtain ⟨u, _, rfl, ⟨-, hu⟩, rfl⟩ := hw
    rw [List.append_nil]
    exact Follows.statement hp hu
  | leave hk => exact Follows.leave hk hw
  | exprStmt => exact Follows.exprStmt hw
  | forStmt hf hc hs => exact Follows.forStmt hf hc hs hw
  | ifStmt ho => exact Follows.ifStmt ho hw
  | printStmt => exact Follows.printStmt hw
  | returnStmt hv => exact Follows.returnStmt hv hw
  | whileStmt => exact Follows.whileStmt hw
  | block k => exact Follows.block hw
  | superInit hargs => exact Follows.superInit hargs hw
  | operators h _ =>
    obtain ⟨l, rfl, -, -⟩ := Level.of_operators? h
    cases l <;> trivial
  | _ => trivial

/-- What is derived is read. -/
theorem follows {p : Phrase} {w : List Token} (h : Derives [p] w) : Follows p w :=
  ⟨followsExpr h, h.induct (fun _ _ _ => trivial) fun _ _ _ hrule hw =>
    followsStmt_of_rule hrule (hw.imp fun _ _ hu => ⟨followsExpr hu.1, hu.2⟩)⟩

end Treewalk
