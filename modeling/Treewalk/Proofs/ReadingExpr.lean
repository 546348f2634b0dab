import Treewalk.Tree.Source
import Treewalk.Proofs.Fresh
import Treewalk.Proofs.Steps

/-!
# Reading expressions

`Reads a p Q` is the rule for the parts of the grammar: started with the next id `a` and with tokens
that come from a text, `p` leaves such tokens, never sets the next id back, and what it yields is as
`Q` says. Here it is shown of expressions and of declarations without a body.
-/

namespace Treewalk

/-! ### Rules for parts of the grammar -/

/-- All tokens ahead come from a text. -/
def Reader.Scanned (r : Reader) : Prop := ∀ t ∈ r.rest, t.Scanned

/-- Reading `p` from the id `a` on yields what `Q` says, with the next id. -/
def Reads {α : Type} (a : Nat) (p : Read α) (Q : Nat → α → Prop) : Prop :=
  ∀ r : Reader, r.Scanned → r.nextId = a →
    match p r with
    | .ok x r' => r'.Scanned ∧ a ≤ r'.nextId ∧ Q r'.nextId x
    | .error _ r' => r'.Scanned ∧ a ≤ r'.nextId

namespace Reads
variable {α β : Type} {a : Nat} {p : Read α} {Q : Nat → α → Prop}

theorem pure {x : α} (h : Q a x) : Reads a (pure x) Q := by
  rintro r hr rfl
  exact ⟨hr, Nat.le_refl _, h⟩

theorem throw (e : Unread) : Reads a (throw e : Read α) Q := by
  rintro r hr rfl
  exact ⟨hr, Nat.le_refl _⟩

theorem bind {f : α → Read β} {P : Nat → α → Prop} {Q : Nat → β → Prop} (hp : Reads a p P)
    (hf : ∀ b x, a ≤ b → P b x → Reads b (f x) Q) : Reads a (p >>= f) Q := by
  intro r hr ha
  have h := hp r hr ha
  show match EStateM.bind p f r with | .ok x r' => _ | .error _ r' => _
  unfold EStateM.bind
  split at h
  · next x r₁ hx =>
    obtain ⟨hr₁, hle, hP⟩ := h
    have h' := hf _ x hle hP r₁ hr₁ rfl
    simp only [hx]
    split at h'
    · exact ⟨h'.1, Nat.le_trans hle h'.2.1, h'.2.2⟩
    · exact ⟨h'.1, Nat.le_trans hle h'.2⟩
  · next e r₁ hx =>
    simp only [hx]
    exact h

theorem imp {P : Nat → α → Prop} (hp : Reads a p P) (h : ∀ b x, a ≤ b → P b x → Q b x) :
    Reads a p Q := by
  intro r hr ha
  have := hp r hr ha
  split at this
  · exact ⟨this.1, this.2.1, h _ _ this.2.1 this.2.2⟩
  · exact this

theorem map {f : α → β} {P : Nat → α → Prop} {Q : Nat → β → Prop} (hp : Reads a p P)
    (h : ∀ b x, a ≤ b → P b x → Q b (f x)) : Reads a (f <$> p) Q := by
  rw [map_eq_pure_bind]
  exact hp.bind fun b x hb hx => .pure (h b x hb hx)

theorem ite {c : Prop} [Decidable c] {p' : Read α} (h : c → Reads a p Q) (h' : ¬c → Reads a p' Q) :
    Reads a (if c then p else p') Q := by
  split
  · next hc => exact h hc
  · next hc => exact h' hc

/-- One of two parts, before another part. -/
theorem either {c : Prop} [Decidable c] {q : Read α} {f : α → Read β} {P : Nat → α → Prop}
    {Q : Nat → β → Prop} (hp : Reads a p P) (hq : Reads a q P)
    (hf : ∀ b x, a ≤ b → P b x → Reads b (f x) Q) :
    Reads a (if c then p >>= f else q >>= f) Q :=
  ite (fun _ => hp.bind hf) fun _ => hq.bind hf

/-- A part that gives out no ids, before another part. -/
theorem after {f : α → Read β} {P : α → Prop} {Q : Nat → β → Prop}
    (hp : Reads a p fun b x => b = a ∧ P x) (hf : ∀ x, P x → Reads a (f x) Q) :
    Reads a (p >>= f) Q :=
  hp.bind fun b x _ hx => by
    obtain ⟨rfl, hx⟩ := hx
    exact hf x hx

end Reads

namespace Read

theorem site_reads (a : Nat) :
    Reads a site fun b x => b = a ∧ ∀ t, x = .token t → t.Scanned := by
  rintro r hr rfl
  refine ⟨hr, Nat.le_refl _, rfl, fun t ht => ?_⟩
  simp only [Reader.site] at ht
  split at ht
  · next u us hu => cases ht; exact hr _ (by simp [hu])
  · cases ht

theorem skip_reads (a : Nat) : Reads a skip fun b _ => b = a ∧ True := by
  rintro r hr rfl
  exact ⟨fun t ht => hr t (List.mem_of_mem_tail ht), Nat.le_refl _, rfl, trivial⟩

theorem ahead_reads (a : Nat) (p : Token → Bool) : Reads a (ahead p) fun b _ => b = a ∧ True := by
  rintro r hr rfl
  exact ⟨hr, Nat.le_refl _, rfl, trivial⟩

theorem atEnd_reads (a : Nat) : Reads a atEnd fun b _ => b = a ∧ True := by
  rintro r hr rfl
  exact ⟨hr, Nat.le_refl _, rfl, trivial⟩

theorem report_reads (a : Nat) (s : Site) (f : ReadingFault) :
    Reads a (report s f) fun b _ => b = a ∧ True := by
  rintro r hr rfl
  exact ⟨hr, Nat.le_refl _, rfl, trivial⟩

theorem fail_reads {α : Type} {Q : Nat → α → Prop} (a : Nat) (f : ReadingFault) :
    Reads a (fail f) Q := by
  rintro r hr rfl
  exact ⟨hr, Nat.le_refl _⟩

/-- A part before which something may be reported. -/
theorem warned_reads {α : Type} {a : Nat} {p : Read α} {Q : Nat → α → Prop} {c : Prop} [Decidable c]
    {f : ReadingFault} (hp : Reads a p Q) :
    Reads a (if c then do report (← site) f; p else p) Q := by
  refine .ite (fun _ => ?_) fun _ => hp
  exact (site_reads a).after fun s _ => (report_reads a s f).after fun _ _ => hp

theorem accept_reads (a : Nat) (p : Token → Bool) :
    Reads a (accept p) fun b x => b = a ∧ ∀ t ∈ x, p t ∧ t.Scanned := by
  rintro ⟨rest, stop, nextId, faults⟩ hr rfl
  cases rest with
  | nil => exact ⟨hr, Nat.le_refl _, rfl, by simp⟩
  | cons t ts =>
    rw [accept_of_cons]
    by_cases hp : p t
    · rw [if_pos hp]
      refine ⟨fun u hu => hr u (List.mem_cons_of_mem _ hu), Nat.le_refl _, rfl, fun u hu => ?_⟩
      cases hu
      exact ⟨hp, hr t (List.mem_cons_self ..)⟩
    · rw [if_neg hp]
      exact ⟨hr, Nat.le_refl _, rfl, by simp⟩

theorem acceptSymbol_reads (a : Nat) (s : Symbol) :
    Reads a (acceptSymbol s) fun b _ => b = a ∧ True :=
  (accept_reads a _).after fun _ _ => .pure ⟨rfl, trivial⟩

theorem acceptKeyword_reads (a : Nat) (k : Keyword) :
    Reads a (acceptKeyword k) fun b _ => b = a ∧ True :=
  (accept_reads a _).after fun _ _ => .pure ⟨rfl, trivial⟩

theorem expect_reads (a : Nat) (p : Token → Bool) (f : ReadingFault) :
    Reads a (expect p f) fun b t => b = a ∧ p t ∧ t.Scanned :=
  (accept_reads a p).after fun x hx => by
    cases x with
    | none => exact fail_reads a f
    | some t => exact .pure ⟨rfl, hx t rfl⟩

theorem expectSymbol_reads (a : Nat) (s : Symbol) (f : ReadingFault) :
    Reads a (expectSymbol s f) fun b _ => b = a ∧ True :=
  (expect_reads a _ f).imp fun _ _ _ h => ⟨h.1, trivial⟩

theorem expectName_reads (a : Nat) (f : ReadingFault) :
    Reads a (expectName f) fun b t => b = a ∧ t.IsName :=
  (expect_reads a _ f).imp fun _ _ _ h => ⟨h.1, h.2.2.name h.2.1⟩

theorem refer_reads (a : Nat) (name : Token) :
    Reads a (refer name) fun b ref => b = a + 1 ∧ ref = ⟨a, name⟩ := by
  rintro r hr rfl
  exact ⟨hr, Nat.le_succ _, rfl, rfl⟩

/-! ### Expressions -/

/-- What the parts of the grammar of expressions yield with `n` nested steps. -/
structure ExprReads (n : Nat) : Prop where
  expression : ∀ a, Reads a (expression n) fun b e => e.Fresh a b
  parts : ∀ {a₀ a acc}, a₀ ≤ a → Expr.FreshAll a₀ a acc →
    Reads a (parts n acc) fun b es => Expr.FreshAll a₀ b es
  assignment : ∀ a, Reads a (assignment n) fun b e => e.Fresh a b
  ternary : ∀ a, Reads a (ternary n) fun b e => e.Fresh a b
  operators : ∀ l a, Reads a (operators n l) fun b e => e.Fresh a b
  operatorsAfter : ∀ l {a₀ a left}, a₀ ≤ a → left.Fresh a₀ a →
    Reads a (operatorsAfter n l left) fun b e => e.Fresh a₀ b
  unary : ∀ a, Reads a (unary n) fun b e => e.Fresh a b
  suffixes : ∀ {a₀ a e}, a₀ ≤ a → e.Fresh a₀ a → Reads a (suffixes n e) fun b e => e.Fresh a₀ b
  arguments : ∀ {count a₀ a acc}, a₀ ≤ a → Expr.FreshAll a₀ a acc →
    Reads a (arguments n count acc) fun b es => Expr.FreshAll a₀ b es
  primary : ∀ a, Reads a (primary n) fun b e => e.Fresh a b

namespace ExprReads
variable {n : Nat}

theorem expression_succ (ih : ExprReads n) (a : Nat) :
    Reads a (Read.expression (n + 1)) fun b e => e.Fresh a b := by
  rw [Read.expression]
  refine (ih.assignment a).bind fun b first hab hf => (ahead_reads b _).after fun more _ => ?_
  refine .ite (fun _ => ?_) fun _ => .pure hf
  refine (ih.parts hab (.cons .nil hf (Nat.le_refl a) hab)).bind fun c es hbc hes => .pure ?_
  exact hes

theorem parts_succ (ih : ExprReads n) {a₀ a : Nat} {acc : List Expr} (hle : a₀ ≤ a)
    (h : Expr.FreshAll a₀ a acc) :
    Reads a (Read.parts (n + 1) acc) fun b es => Expr.FreshAll a₀ b es := by
  rw [Read.parts]
  refine (acceptSymbol_reads a _).after fun more _ => .ite (fun _ => ?_) fun _ => .pure h.reverse
  exact (ih.assignment a).bind fun b part hab hp =>
    ih.parts (Nat.le_trans hle hab) (h.cons hp hle hab)

theorem assigned_reads {a b c : Nat} {target value : Expr} (op : Token) (ht : target.Fresh a b)
    (hv : value.Fresh b c) (hab : a ≤ b) (hbc : b ≤ c) :
    Reads c (assigned target op value) fun d e => e.Fresh a d := by
  have swap : ∀ {xs ys : List Nat}, Numbers a b xs → Numbers b c ys → Numbers a c (ys ++ xs) :=
    fun hx hy => (hx.append hy hab hbc).perm List.perm_append_comm
  unfold assigned
  split
  · next ref =>
    refine .pure ?_
    split
    · exact ⟨⟨ht.1, hv.1⟩, swap ht.2 hv.2⟩
    · exact ⟨⟨ht.1, hv.1⟩, swap ht.2 hv.2⟩
  · exact .pure ⟨⟨ht.1, hv.1⟩, swap ht.2 hv.2⟩
  · exact (report_reads c _ _).after fun _ _ => .pure ⟨ht.1, ht.2.mono hbc⟩

theorem assignment_succ (ih : ExprReads n) (a : Nat) :
    Reads a (Read.assignment (n + 1)) fun b e => e.Fresh a b := by
  rw [Read.assignment]
  refine (ih.ternary a).bind fun b target hab ht => (accept_reads b _).after fun op _ => ?_
  cases op with
  | none => exact .pure ht
  | some op =>
    exact (ih.assignment b).bind fun c value hbc hv => assigned_reads op ht hv hab hbc

theorem ternary_succ (ih : ExprReads n) (a : Nat) :
    Reads a (Read.ternary (n + 1)) fun b e => e.Fresh a b := by
  rw [Read.ternary]
  refine (ih.operators .or a).bind fun b cond hab hc => (acceptSymbol_reads b _).after fun more _ => ?_
  refine .ite (fun _ => ?_) fun _ => .pure hc
  refine (ih.expression b).bind fun c yes hbc hy => (expectSymbol_reads c _ _).after fun _ _ => ?_
  refine (ih.ternary c).bind fun d no hcd hn => .pure ⟨⟨hc.1, hy.1, hn.1⟩, ?_⟩
  exact hc.2.append (hy.2.append hn.2 hbc hcd) hab (Nat.le_trans hbc hcd)

theorem operators_succ (ih : ExprReads n) (l : Level) (a : Nat) :
    Reads a (Read.operators (n + 1) l) fun b e => e.Fresh a b := by
  rw [Read.operators]
  split
  · next l' _ => exact (ih.operators l' a).bind fun b first hab hf => ih.operatorsAfter l hab hf
  · exact (ih.unary a).bind fun b first hab hf => ih.operatorsAfter l hab hf

theorem node_fresh (l : Level) (op : Token) {a b c : Nat} {left right : Expr} (hl : left.Fresh a b)
    (hr : right.Fresh b c) (hab : a ≤ b) (hbc : b ≤ c) : (l.node left op right).Fresh a c := by
  have h := hl.2.append hr.2 hab hbc
  cases l <;> exact ⟨⟨hl.1, hr.1⟩, h⟩

theorem operatorsAfter_succ (ih : ExprReads n) (l : Level) {a₀ a : Nat} {left : Expr} (hle : a₀ ≤ a)
    (h : left.Fresh a₀ a) :
    Reads a (Read.operatorsAfter (n + 1) l left) fun b e => e.Fresh a₀ b := by
  rw [Read.operatorsAfter]
  refine (accept_reads a _).after fun op _ => ?_
  cases op with
  | none => exact .pure h
  | some op =>
    have hafter : ∀ b right, a ≤ b → right.Fresh a b →
        Reads b (Read.operatorsAfter n l (l.node left op right)) fun b e => e.Fresh a₀ b :=
      fun b right hab hr =>
        ih.operatorsAfter l (Nat.le_trans hle hab) (node_fresh l op h hr hle hab)
    dsimp only
    split
    · next l' _ => exact (ih.operators l' a).bind hafter
    · exact (ih.unary a).bind hafter

theorem unary_succ (ih : ExprReads n) (a : Nat) :
    Reads a (Read.unary (n + 1)) fun b e => e.Fresh a b := by
  rw [Read.unary]
  refine (accept_reads a _).after fun op _ => ?_
  cases op with
  | none => exact (ih.primary a).bind fun b e hab he => ih.suffixes hab he
  | some op => exact (ih.unary a).bind fun b e _ he => .pure he

theorem suffixes_succ (ih : ExprReads n) {a₀ a : Nat} {e : Expr} (hle : a₀ ≤ a) (h : e.Fresh a₀ a) :
    Reads a (Read.suffixes (n + 1) e) fun b e => e.Fresh a₀ b := by
  rw [Read.suffixes]
  refine (acceptSymbol_reads a _).after fun call _ => .ite (fun _ => ?_) fun _ => ?_
  · refine (ahead_reads a _).after fun closed _ => .either (P := fun b args => Expr.FreshAll a b args)
      (.pure .nil) (ih.arguments (Nat.le_refl a) .nil) fun b args hab hargs => ?_
    refine (expectSymbol_reads b _ _).after fun paren _ => ?_
    exact ih.suffixes (Nat.le_trans hle hab) ⟨⟨h.1, hargs.1⟩, h.2.append hargs.2 hle hab⟩
  · refine (acceptSymbol_reads a _).after fun dot _ => .ite (fun _ => ?_) fun _ => .pure h
    exact (expectName_reads a _).after fun name _ => ih.suffixes hle h

theorem arguments_succ (ih : ExprReads n) {count a₀ a : Nat} {acc : List Expr} (hle : a₀ ≤ a)
    (h : Expr.FreshAll a₀ a acc) :
    Reads a (Read.arguments (n + 1) count acc) fun b es => Expr.FreshAll a₀ b es := by
  rw [Read.arguments]
  refine warned_reads ((ih.assignment a).bind fun b arg hab ha => ?_)
  refine (acceptSymbol_reads b _).after fun more _ => ?_
  have h' := h.cons ha hle hab
  exact .ite (fun _ => ih.arguments (Nat.le_trans hle hab) h') fun _ => .pure h'.reverse

theorem primary_succ (ih : ExprReads n) (a : Nat) :
    Reads a (Read.primary (n + 1)) fun b e => e.Fresh a b := by
  have hlit : ∀ v, (Expr.literal v).Fresh a a := fun v => ⟨trivial, .nil⟩
  rw [Read.primary]
  refine (site_reads a).after fun s hs => ?_
  cases s with
  | stop p => exact fail_reads a _
  | token t =>
    have ht := hs t rfl
    dsimp only
    split
    · exact (skip_reads a).after fun _ _ => .pure (hlit _)
    · exact (skip_reads a).after fun _ _ => .pure (hlit _)
    · exact (skip_reads a).after fun _ _ => .pure (hlit _)
    · exact (skip_reads a).after fun _ _ => .pure (hlit _)
    · exact (skip_reads a).after fun _ _ => .pure (hlit _)
    · next hk =>
      refine (skip_reads a).after fun _ _ => (refer_reads a t).bind fun b ref hab hr => .pure ?_
      obtain ⟨rfl, rfl⟩ := hr
      exact ⟨ht.this hk, .single (Nat.lt_succ_self a)⟩
    · next w hk =>
      refine (skip_reads a).after fun _ _ => (refer_reads a t).bind fun b ref hab hr => .pure ?_
      obtain ⟨rfl, rfl⟩ := hr
      exact ⟨ht.name (by simp [Token.isIdentifier, hk]), .single (Nat.lt_succ_self a)⟩
    · next hk =>
      refine (skip_reads a).after fun _ _ => (expectSymbol_reads a _ _).after fun _ _ => ?_
      refine (expectName_reads a _).after fun method _ => ?_
      refine (refer_reads a t).bind fun b ref hab hr => .pure ?_
      obtain ⟨rfl, rfl⟩ := hr
      exact ⟨ht.super hk, .single (Nat.lt_succ_self a)⟩
    · refine (skip_reads a).after fun _ _ => (ih.expression a).bind fun b inner _ hi => ?_
      exact (expectSymbol_reads b _ _).after fun _ _ => .pure hi
    · exact fail_reads a _

end ExprReads

/-- The grammar of expressions yields tidy trees with ids of their own. -/
theorem exprReads (n : Nat) : ExprReads n := by
  induction n with
  | zero =>
    refine ⟨?_, ?_, ?_, ?_, ?_, ?_, ?_, ?_, ?_, ?_⟩
    all_goals intros; exact .throw _
  | succ n ih =>
    exact ⟨ih.expression_succ, ih.parts_succ, ih.assignment_succ, ih.ternary_succ, ih.operators_succ,
      ih.operatorsAfter_succ, ih.unary_succ, ih.suffixes_succ, ih.arguments_succ, ih.primary_succ⟩

/-! ### Declarations without bodies -/

theorem given_reads {a : Nat} {p : Read Expr} (h : Reads a p fun b e => e.Fresh a b) :
    Reads a (some <$> p) fun b e => Expr.FreshOption a b e :=
  h.map fun _ _ _ he => ⟨fun _ he' => Option.some.inj he' ▸ he.1, he.2⟩

theorem omitted_reads (a : Nat) :
    Reads a (pure none : Read (Option Expr)) fun b e => Expr.FreshOption a b e :=
  .pure ⟨by simp [Expr.TidyOption], .nil⟩

theorem typeName_reads (a : Nat) : Reads a typeName fun b _ => b = a ∧ True := by
  refine (acceptSymbol_reads a _).after fun typed _ => .ite (fun _ => ?_) fun _ => .pure ⟨rfl, trivial⟩
  exact (expectName_reads a _).after fun _ _ => .pure ⟨rfl, trivial⟩

theorem names_reads (f : ReadingFault) (n a : Nat) (acc : List Token) :
    Reads a (names f n acc) fun b _ => b = a ∧ True := by
  induction n generalizing acc with
  | zero => exact .throw _
  | succ n ih =>
    rw [names]
    refine (expectName_reads a _).after fun name _ => (acceptSymbol_reads a _).after fun more _ => ?_
    exact .ite (fun _ => ih _) fun _ => .pure ⟨rfl, trivial⟩

theorem parameters_reads (n a count : Nat) {acc : List Token} (h : ∀ t ∈ acc, t.IsName) :
    Reads a (parameters n count acc) fun b ps => b = a ∧ ∀ p ∈ ps, p.IsName := by
  induction n generalizing count acc with
  | zero => exact .throw _
  | succ n ih =>
    rw [parameters]
    refine warned_reads ((expectName_reads a _).after fun name hn => ?_)
    refine (acceptSymbol_reads a _).after fun more _ => ?_
    have h' : ∀ t ∈ name :: acc, t.IsName := List.forall_mem_cons.2 ⟨hn, h⟩
    exact .ite (fun _ => ih _ h') fun _ => .pure ⟨rfl, fun p hp => h' p (List.mem_reverse.1 hp)⟩

theorem varList_reads (n : Nat) {a₀ a : Nat} {acc : List Stmt} (hle : a₀ ≤ a)
    (h : Stmt.FreshAll a₀ a acc) :
    Reads a (varList n acc) fun b ss => Stmt.FreshAll a₀ b ss := by
  induction n generalizing a acc with
  | zero => exact .throw _
  | succ n ih =>
    rw [varList]
    refine (expectName_reads a _).after fun name hn => (typeName_reads a).after fun type _ => ?_
    refine (acceptSymbol_reads a _).after fun given _ => .either
      (given_reads ((exprReads n).assignment a)) (omitted_reads a) fun b init hab hi => ?_
    have h' : Stmt.FreshAll a₀ b (.var name type init :: acc) :=
      h.cons (s := .var name type init) ⟨⟨hn, hi.1⟩, hi.2⟩ hle hab
    refine (acceptSymbol_reads b _).after fun more _ => ?_
    exact .ite (fun _ => ih (Nat.le_trans hle hab) h') fun _ => .pure h'.reverse

theorem varDeclaration_reads (n a : Nat) : Reads a (varDeclaration n) fun b s => s.Fresh a b := by
  refine (varList_reads n (Nat.le_refl a) .nil).bind fun b decls hab hd => ?_
  refine (expectSymbol_reads b _ _).after fun _ _ => .pure ?_
  split
  · next decl => exact ⟨hd.1.1, hd.2.perm (by simp [Stmt.idsAll])⟩
  · exact hd

theorem importDeclaration_reads (n a : Nat) (keyword : Token) :
    Reads a (importDeclaration n keyword) fun b s => s.Fresh a b := by
  refine (expectSymbol_reads a _ _).after fun _ _ => (names_reads _ n a _).after fun ns _ => ?_
  refine (expectSymbol_reads a _ _).after fun _ _ => (expect_reads a _ _).after fun _ _ => ?_
  refine (site_reads a).after fun s _ => ?_
  cases s with
  | stop p => exact fail_reads a _
  | token t =>
    dsimp only
    split
    · refine (skip_reads a).after fun _ _ => (expectSymbol_reads a _ _).after fun _ _ => ?_
      exact .pure ⟨trivial, .nil⟩
    · exact fail_reads a _

theorem exposeDeclaration_reads (n a : Nat) (keyword : Token) :
    Reads a (exposeDeclaration n keyword) fun b s => s.Fresh a b := by
  refine (names_reads _ n a _).after fun ns _ => (expectSymbol_reads a _ _).after fun _ _ => ?_
  exact .pure ⟨trivial, .nil⟩

theorem expressionStatement_reads (n a : Nat) :
    Reads a (expressionStatement n) fun b s => s.Fresh a b ∧ s.declared = [] := by
  refine ((exprReads n).expression a).bind fun b e _ he => ?_
  exact (expectSymbol_reads b _ _).after fun _ _ => .pure ⟨he, rfl⟩

theorem superclass_reads (a : Nat) (name : Token) : Reads a (superclass name) fun b sup =>
    (∀ ref ∈ sup, ref.name.IsName) ∧ Numbers a b (sup.map (·.id)).toList := by
  refine (acceptSymbol_reads a _).after fun derived _ => .ite (fun _ => ?_) fun _ =>
    .pure ⟨by simp, .nil⟩
  refine (expectName_reads a _).after fun sup hs => ?_
  have hrest : Reads a (do return some (← refer sup)) fun b (sup : Option Ref) =>
      (∀ ref ∈ sup, ref.name.IsName) ∧ Numbers a b (sup.map (·.id)).toList := by
    refine (refer_reads a sup).bind fun b ref _ hr => .pure ?_
    obtain ⟨rfl, rfl⟩ := hr
    exact ⟨fun r hr => by cases hr; exact hs, .single (Nat.lt_succ_self a)⟩
  refine .ite (fun _ => ?_) fun _ => ?_
  · exact (report_reads a _ _).after fun _ _ => hrest
  · exact hrest

end Read

end Treewalk
