import Mathlib.Logic.Relation
import Treewalk.Proofs.Laws
import Treewalk.Proofs.Reading
import Treewalk.Proofs.Steps

/-!
# Trees are as they are written

Every token at which a piece of code can fail stands at the place of a token of the text, and every
class is made of members that are read from the text (`Source.read_written`), also where a text is
read with faults.

`Makes T clean p Q` is the rule for the parts of the grammar: while the tokens ahead are an end of
`T`, `p` leaves an end of `T` and takes back no fault, and what it yields is as `Q` says; where
`clean` asks for it, only if no fault was reported.
-/

namespace Treewalk

open Relation

/-! ### Pieces of code -/

/-- The pieces of code that stand directly inside a statement. -/
def Stmt.inside : Stmt → List Code
  | .expr e | .print _ e => [.expr e]
  | .var _ _ value | .ret _ value => value.toList.map .expr
  | .block body | .decls body => [.stmts body]
  | .branch e y n => .expr e :: .stmt y :: n.toList.map .stmt
  | .loop e step body => .expr e :: .stmt body :: step.toList.map .expr
  | .function decl => [.function decl]
  | .cls decl => (decl.ofInstances ++ decl.staticMethods).map .function ++
      (decl.staticFields.filterMap (·.init)).map .expr
  | .brk _ | .cont _ | .require _ | .expose _ _ => []

namespace Code

/-- The pieces of code that stand directly inside a piece of code. -/
def inside : Code → List Code
  | .stmts [] => []
  | .stmts (s :: ss) => [.stmt s, .stmts ss]
  | .stmt s => s.inside
  | .expr e => e.parts.map .expr
  | .function decl => [.body decl]
  | .body decl => [.stmts decl.body]
  | .use _ _ => []

/-- The second piece of code is the first or stands somewhere inside it. -/
abbrev Contains : Code → Code → Prop := ReflTransGen fun outer inner => inner ∈ outer.inside

/-- All pieces of the code are as `P` says. -/
def Everywhere (P : Code → Prop) (code : Code) : Prop := ∀ inner, code.Contains inner → P inner

theorem everywhere_iff {P : Code → Prop} {code : Code} :
    code.Everywhere P ↔ P code ∧ ∀ inner ∈ code.inside, inner.Everywhere P := by
  constructor
  · exact fun h => ⟨h code .refl, fun inner hi c hc => h c (.head hi hc)⟩
  · rintro ⟨hcode, hinside⟩ c hc
    rcases hc.cases_head with rfl | ⟨inner, hi, hc⟩
    · exact hcode
    · exact hinside inner hi c hc

theorem contains_stmts {s : Stmt} {ss : List Stmt} (h : s ∈ ss) :
    (Code.stmts ss).Contains (.stmt s) := by
  induction ss with
  | nil => cases h
  | cons s' ss ih =>
    rcases List.mem_cons.1 h with rfl | h
    · exact .single (by simp [inside])
    · exact .head (by simp [inside]) (ih h)

theorem everywhere_stmts {P : Code → Prop} (hP : ∀ ss, P (.stmts ss)) {ss : List Stmt} :
    (Code.stmts ss).Everywhere P ↔ ∀ s ∈ ss, (Code.stmt s).Everywhere P := by
  induction ss with
  | nil => simp [@everywhere_iff P (.stmts []), hP, inside]
  | cons s ss ih => simp [@everywhere_iff P (.stmts (s :: ss)), hP, inside, ih]

/-- What is run inside a piece of code stands inside it. -/
theorem Has.contains {outer inner : Code} (h : outer.Has inner) : outer.Contains inner := by
  cases h with
  | part h => exact .single (by simpa [inside] using h)
  | @expr s e h =>
    refine .single ?_
    cases s with
    | ret keyword value => cases value <;> simp_all [Stmt.exprs, inside, Stmt.inside]
    | _ => simp_all [Stmt.exprs, inside, Stmt.inside]
  | init | yes | no | round | step => exact .single (by simp [inside, Stmt.inside])
  | block h | decls h => exact .head (by simp [inside, Stmt.inside]) (contains_stmts h)
  | staticField h he =>
    exact .single (by simpa [inside, Stmt.inside] using ⟨_, h, he⟩)
  | body h => exact .head (by simp [inside]) (contains_stmts h)

end Code

/-- What stands in a program is inside it. -/
theorem Placed.contains {program : List Stmt} {code : Code} {σ : List Layer}
    (h : Placed program code σ) (hu : ∀ u ref, code ≠ .use u ref) :
    (Code.stmts program).Contains code := by
  induction h with
  | program => exact .refl
  | use | superclass => exact absurd rfl (hu _ _)
  | head _ ih | tail _ ih => exact (ih (by simp)).tail (by simp [Code.inside])
  | expr _ he ih => exact (ih (by simp)).trans (Code.Has.contains (.expr he))
  | part _ hp ih => exact (ih (by simp)).trans (Code.Has.contains (.part hp))
  | staticField _ hf he ih => exact (ih (by simp)).trans (Code.Has.contains (.staticField hf he))
  | init _ ih | block _ ih | decls _ ih | yes _ ih | no _ ih | round _ ih | step _ ih
  | function _ ih | inside _ ih | body _ ih =>
    exact (ih (by simp)).tail (by simp [Code.inside, Stmt.inside])
  | staticMethod _ hf ih | method _ hf ih =>
    exact (ih (by simp)).tail (by simp [Code.inside, Stmt.inside, hf])

/-! ### Code of a text -/

/-- The token stands at the place of a token of the text. -/
def Token.At (T : List Token) (t : Token) : Prop := ∃ u ∈ T, t.pos = u.pos ∧ t.file = u.file

/-- The statement initializes the field. -/
def FieldDecl.Assigned (field : FieldDecl) (s : Stmt) : Prop :=
  ∃ this : Ref, this.name = .placed (.keyword .this) "this" field.name ∧
    s = .expr (.set (.this this) field.name none (field.init.getD (.literal .nil)))

/-- The class is made of the members, which are read from the tokens of `T`. -/
structure ClassDecl.ReadAs (T : List Token) (clean : Prop) (decl : ClassDecl) (ms : Members) :
    Prop where
  read : ∃ n r r', r.rest <:+ T ∧ Read.classMembers n {} r = .ok ms r'
  /-- The assignments to the fields stand in the first `init`, or apart if there is none. -/
  parts : ∃ ss, List.Forall₂ FieldDecl.Assigned ms.fields.reverse ss ∧
    decl.methods = spliceFirst decl.superclass.isSome ss ms.methods.reverse ∧
    decl.fields = if ms.methods.reverse.any FunctionDecl.isInit || ss.isEmpty then none
      else some ⟨.placed (.identifier initName) initName decl.name, [], ss⟩
  superInit : clean → decl.superclass.isSome →
    ∀ f, ms.methods.reverse.find? FunctionDecl.isInit = some f →
      f.body.head?.any ClassDecl.isSuperInit

/-- The places at which the code itself can fail are those of tokens of `T`, and if it declares a
class then this is what the text says of one. -/
def Code.OfText (T : List Token) (clean : Prop) : Code → Prop
  | .expr e => ∀ t ∈ e.blamed, t.At T
  | .stmt s => (∀ t ∈ s.blamed, t.At T) ∧ ∀ decl, s = .cls decl → ∃ ms, decl.ReadAs T clean ms
  | .stmts _ | .function _ | .body _ | .use _ _ => True

/-- All of the code is read from the tokens of `T`. -/
abbrev Code.Written (T : List Token) (clean : Prop) (code : Code) : Prop :=
  code.Everywhere (Code.OfText T clean)

section

variable {T : List Token} {clean : Prop}

theorem Token.At.of_mem {t : Token} (h : t ∈ T) : t.At T := ⟨t, h, rfl, rfl⟩

theorem Token.At.placed {t : Token} (h : t.At T) (kind : Token.Kind) (lexeme : String) :
    (Token.placed kind lexeme t).At T := h

theorem Expr.written {e : Expr} (ht : ∀ t ∈ e.blamed, t.At T)
    (hp : ∀ part ∈ e.parts, (Code.expr part).Written T clean) : (Code.expr e).Written T clean :=
  Code.everywhere_iff.2 ⟨ht, by simpa [Code.inside] using hp⟩

theorem Expr.parts_written {e : Expr} (h : (Code.expr e).Written T clean) :
    ∀ part ∈ e.parts, (Code.expr part).Written T clean := by
  simpa [Code.inside] using (Code.everywhere_iff.1 h).2

theorem Stmt.written {s : Stmt} (ht : ∀ t ∈ s.blamed, t.At T) (hc : ∀ decl, s ≠ .cls decl)
    (hi : ∀ inner ∈ s.inside, inner.Written T clean) : (Code.stmt s).Written T clean :=
  Code.everywhere_iff.2 ⟨⟨ht, fun decl h => absurd h (hc decl)⟩, hi⟩

theorem Stmt.written_all {ss : List Stmt} :
    (Code.stmts ss).Written T clean ↔ ∀ s ∈ ss, (Code.stmt s).Written T clean :=
  Code.everywhere_stmts fun _ => trivial

theorem FunctionDecl.written_iff {f : FunctionDecl} :
    (Code.function f).Written T clean ↔ ∀ s ∈ f.body, (Code.stmt s).Written T clean := by
  rw [Code.Written, Code.everywhere_iff, ← @Stmt.written_all T clean]
  simp [Code.inside, Code.OfText, @Code.everywhere_iff _ (.body f)]

end

/-! ### Rules for parts of the grammar -/

/-- The part of the grammar goes on in `T`, takes back no fault and yields what `Q` says. -/
def Makes {α : Type} (T : List Token) (clean : Prop) (p : Read α) (Q : α → Prop) : Prop :=
  ∀ r : Reader, r.rest <:+ T →
    match p r with
    | .ok x r' => r'.rest <:+ T ∧ r.faults <:+ r'.faults ∧ ((clean → r'.faults = []) → Q x)
    | .error _ r' => r'.rest <:+ T ∧ r.faults <:+ r'.faults

namespace Makes

variable {α β : Type} {T : List Token} {clean : Prop} {p : Read α} {P Q : α → Prop}

theorem pure {x : α} (h : Q x) : Makes T clean (pure x) Q := fun _ hr =>
  ⟨hr, List.suffix_rfl, fun _ => h⟩

theorem throw (e : Unread) : Makes T clean (throw e : Read α) Q := fun _ hr => ⟨hr, List.suffix_rfl⟩

theorem bind {f : α → Read β} {Q : β → Prop} (hp : Makes T clean p P)
    (hf : ∀ x, Makes T clean (f x) fun y => P x → Q y) : Makes T clean (p >>= f) Q := by
  intro r hr
  have h := hp r hr
  cases hx : p r with
  | error e r₁ =>
    rw [hx] at h
    rw [Read.bind_error hx]
    exact h
  | ok x r₁ =>
    rw [hx] at h
    rw [Read.bind_ok hx]
    obtain ⟨hr₁, hgrew, hP⟩ := h
    have h' := hf x r₁ hr₁
    split at h'
    · obtain ⟨hr₂, hgrew₂, hQ⟩ := h'
      refine ⟨hr₂, hgrew.trans hgrew₂, fun hc => hQ hc (hP fun h => ?_)⟩
      exact List.suffix_nil.1 (hc h ▸ hgrew₂)
    · exact ⟨h'.1, hgrew.trans h'.2⟩

theorem imp (hp : Makes T clean p P) (h : ∀ x, P x → Q x) : Makes T clean p Q := by
  intro r hr
  have := hp r hr
  split at this
  · exact ⟨this.1, this.2.1, fun hc => h _ (this.2.2 hc)⟩
  · exact this

theorem map {f : α → β} {Q : β → Prop} (hp : Makes T clean p P) (h : ∀ x, P x → Q (f x)) :
    Makes T clean (f <$> p) Q := by
  rw [map_eq_pure_bind]
  exact hp.bind fun x => .pure (h x)

theorem ite {c : Prop} [Decidable c] {p' : Read α} (h : Makes T clean p Q)
    (h' : Makes T clean p' Q) : Makes T clean (if c then p else p') Q := by
  split
  · exact h
  · exact h'

/-- A part of which nothing has to be known, before another part. -/
theorem after {f : α → Read β} {Q : β → Prop} (hp : Makes T clean p fun _ => True)
    (hf : ∀ x, Makes T clean (f x) Q) : Makes T clean (p >>= f) Q :=
  hp.bind fun x => (hf x).imp fun _ h _ => h

/-- What a part yields it yields from an end of the text. -/
theorem here (hp : Makes T clean p P) :
    Makes T clean p fun x => P x ∧ ∃ r r', r.rest <:+ T ∧ p r = .ok x r' := by
  intro r hr
  have h := hp r hr
  split at h
  · next x r' hx => exact ⟨h.1, h.2.1, fun hc => ⟨h.2.2 hc, r, r', hr, hx⟩⟩
  · exact h

/-- One of two parts, before another part. -/
theorem either {c : Prop} [Decidable c] {q : Read α} {f : α → Read β} {Q : β → Prop}
    (hp : Makes T clean p P) (hq : Makes T clean q P)
    (hf : ∀ x, Makes T clean (f x) fun y => P x → Q y) :
    Makes T clean (if c then p >>= f else q >>= f) Q := ite (hp.bind hf) (hq.bind hf)

/-- A part that may be missing. -/
theorem option {c : Prop} [Decidable c] {f : Option α → Read β} {Q : β → Prop}
    (hp : Makes T clean p P) (hf : ∀ o, Makes T clean (f o) fun y => (∀ x ∈ o, P x) → Q y) :
    Makes T clean (if c then some <$> p >>= f else f none) Q := by
  split
  · refine (hp.map (Q := fun o => ∀ x ∈ o, P x) fun x hx => ?_).bind hf
    simpa using hx
  · exact (hf none).imp fun y h => h (by simp)

/-- The same, where the check is for what is there if the part is missing. -/
theorem optional {c : Prop} [Decidable c] {f : Option α → Read β} {Q : β → Prop}
    (hp : Makes T clean p P) (hf : ∀ o, Makes T clean (f o) fun y => (∀ x ∈ o, P x) → Q y) :
    Makes T clean (if c then f none else some <$> p >>= f) Q := by
  split
  · exact (hf none).imp fun y h => h (by simp)
  · refine (hp.map (Q := fun o => ∀ x ∈ o, P x) fun x hx => ?_).bind hf
    simpa using hx

end Makes

namespace Read

variable {T : List Token} {clean : Prop}

theorem site_makes : Makes T clean site fun s => ∀ t, s = .token t → t.At T := by
  intro r hr
  refine ⟨hr, List.suffix_rfl, fun _ t ht => ?_⟩
  simp only [Reader.site] at ht
  split at ht
  · next u us hu =>
    cases ht
    exact .of_mem (hr.subset (by simp [hu]))
  · cases ht

theorem skip_makes : Makes T clean skip fun _ => True := fun r hr =>
  ⟨(List.tail_suffix r.rest).trans hr, List.suffix_rfl, fun _ => trivial⟩

theorem ahead_makes (p : Token → Bool) : Makes T clean (ahead p) fun _ => True := fun _ hr =>
  ⟨hr, List.suffix_rfl, fun _ => trivial⟩

theorem atEnd_makes : Makes T clean atEnd fun _ => True := fun _ hr =>
  ⟨hr, List.suffix_rfl, fun _ => trivial⟩

theorem report_makes (s : Site) (f : ReadingFault) :
    Makes T clean (report s f) fun _ => ¬ clean := fun _ hr =>
  ⟨hr, List.suffix_cons .., fun hc h => List.cons_ne_nil _ _ (hc h)⟩

/-- A part before which something may be reported. -/
theorem warned_makes {α : Type} {p : Read α} {Q : α → Prop} {c : Prop} [Decidable c]
    {f : ReadingFault} (hp : Makes T clean p Q) :
    Makes T clean (if c then do report (← site) f; p else p) Q := by
  refine .ite ?_ hp
  exact (site_makes.imp fun _ _ => trivial).after fun s =>
    ((report_makes s f).imp fun _ _ => trivial).after fun _ => hp

theorem fail_makes {α : Type} {Q : α → Prop} (f : ReadingFault) : Makes T clean (fail f) Q :=
  fun _ hr => ⟨hr, List.suffix_cons ..⟩

theorem refer_makes (name : Token) : Makes T clean (refer name) fun ref => ref.name = name :=
  fun _ hr => ⟨hr, List.suffix_rfl, fun _ => rfl⟩

theorem accept_makes (p : Token → Bool) : Makes T clean (accept p) fun o => ∀ t ∈ o, t.At T := by
  rintro ⟨rest, stop, nextId, faults⟩ hr
  cases rest with
  | nil => exact ⟨hr, List.suffix_rfl, fun _ => by simp⟩
  | cons t ts =>
    rw [accept_of_cons]
    by_cases hp : p t
    · rw [if_pos hp]
      refine ⟨(List.suffix_cons ..).trans hr, List.suffix_rfl, fun _ u hu => ?_⟩
      cases hu
      exact .of_mem (hr.subset (by simp))
    · rw [if_neg hp]
      exact ⟨hr, List.suffix_rfl, fun _ => by simp⟩

theorem acceptSymbol_makes (s : Symbol) : Makes T clean (acceptSymbol s) fun _ => True :=
  (accept_makes _).bind fun _ => .pure fun _ => trivial

theorem acceptKeyword_makes (k : Keyword) : Makes T clean (acceptKeyword k) fun _ => True :=
  (accept_makes _).bind fun _ => .pure fun _ => trivial

theorem expect_makes (p : Token → Bool) (f : ReadingFault) :
    Makes T clean (expect p f) fun t => t.At T :=
  (accept_makes p).bind fun o => by
    cases o with
    | none => exact fail_makes f
    | some t => exact .pure fun h => h t rfl

theorem expectSymbol_makes (s : Symbol) (f : ReadingFault) :
    Makes T clean (expectSymbol s f) fun t => t.At T := expect_makes _ f

/-- A symbol that stands for nothing by itself. -/
theorem mark_makes (s : Symbol) (f : ReadingFault) :
    Makes T clean (expectSymbol s f) fun _ => True := (expect_makes _ f).imp fun _ _ => trivial

theorem expectName_makes (f : ReadingFault) : Makes T clean (expectName f) fun t => t.At T :=
  expect_makes _ f

/-! ### Expressions -/

/-- What the parts of the grammar of expressions yield with `n` nested steps. -/
structure ExprMakes (T : List Token) (clean : Prop) (n : Nat) : Prop where
  expression : Makes T clean (expression n) fun e => (Code.expr e).Written T clean
  parts : ∀ acc, Makes T clean (parts n acc) fun es =>
    (∀ e ∈ acc, (Code.expr e).Written T clean) → ∀ e ∈ es, (Code.expr e).Written T clean
  assignment : Makes T clean (assignment n) fun e => (Code.expr e).Written T clean
  ternary : Makes T clean (ternary n) fun e => (Code.expr e).Written T clean
  operators : ∀ l, Makes T clean (operators n l) fun e => (Code.expr e).Written T clean
  operatorsAfter : ∀ l left, Makes T clean (operatorsAfter n l left) fun e =>
    (Code.expr left).Written T clean → (Code.expr e).Written T clean
  unary : Makes T clean (unary n) fun e => (Code.expr e).Written T clean
  suffixes : ∀ e, Makes T clean (suffixes n e) fun e' =>
    (Code.expr e).Written T clean → (Code.expr e').Written T clean
  arguments : ∀ count acc, Makes T clean (arguments n count acc) fun es =>
    (∀ e ∈ acc, (Code.expr e).Written T clean) → ∀ e ∈ es, (Code.expr e).Written T clean
  primary : Makes T clean (primary n) fun e => (Code.expr e).Written T clean

namespace ExprMakes

variable {n : Nat}

theorem expression_succ (ih : ExprMakes T clean n) :
    Makes T clean (Read.expression (n + 1)) fun e => (Code.expr e).Written T clean := by
  rw [Read.expression]
  refine ih.assignment.bind fun first => (ahead_makes _).after fun _ => .ite ?_ (.pure id)
  refine (ih.parts [first]).bind fun es => .pure fun hes hfirst => ?_
  exact Expr.written (by simp [Expr.blamed]) (hes (by simpa using hfirst))

theorem parts_succ (ih : ExprMakes T clean n) (acc : List Expr) :
    Makes T clean (Read.parts (n + 1) acc) fun es =>
      (∀ e ∈ acc, (Code.expr e).Written T clean) → ∀ e ∈ es, (Code.expr e).Written T clean := by
  rw [Read.parts]
  refine (acceptSymbol_makes _).after fun _ => .ite ?_ (.pure fun h => by simpa using h)
  refine ih.assignment.bind fun part => (ih.parts (part :: acc)).imp fun es hes hpart hacc => ?_
  exact hes (List.forall_mem_cons.2 ⟨hpart, hacc⟩)

theorem compoundOp?_at {op : Token} (h : op.At T) : ∀ t ∈ compoundOp? op, t.At T := by
  intro t ht
  unfold compoundOp? at ht
  split at ht
  · cases ht
    exact h
  · cases ht

theorem assigned_makes (target : Expr) (op : Token) (value : Expr) :
    Makes T clean (assigned target op value) fun e => op.At T →
      (Code.expr target).Written T clean → (Code.expr value).Written T clean →
      (Code.expr e).Written T clean := by
  unfold assigned
  split
  · next ref =>
    refine .pure fun hop ht hv => ?_
    have href : ref.name.At T := ht _ .refl _ (by simp [Expr.blamed])
    have hop := compoundOp?_at hop
    split
    · next op' heq =>
      have hop' : op'.At T := hop op' heq
      exact Expr.written (by simp [Expr.blamed, href, hop']) (by simpa [Expr.parts] using hv)
    · exact Expr.written (by simp [Expr.blamed, href]) (by simpa [Expr.parts] using hv)
  · next object name =>
    refine .pure fun hop ht hv => ?_
    have hname : name.At T := ht _ .refl _ (by simp [Expr.blamed])
    have hobject := Expr.parts_written ht object (by simp [Expr.parts])
    exact Expr.written (by simpa [Expr.blamed, hname] using compoundOp?_at hop)
      (by simp [Expr.parts, hobject, hv])
  · exact (report_makes _ _).bind fun _ => .pure fun _ _ ht _ => ht

theorem assignment_succ (ih : ExprMakes T clean n) :
    Makes T clean (Read.assignment (n + 1)) fun e => (Code.expr e).Written T clean := by
  rw [Read.assignment]
  refine ih.ternary.bind fun target => (accept_makes _).bind fun op => ?_
  cases op with
  | none => exact .pure fun _ ht => ht
  | some op =>
    refine ih.assignment.bind fun value => (assigned_makes target op value).imp ?_
    exact fun e he hv hop ht => he (hop op rfl) ht hv

theorem ternary_succ (ih : ExprMakes T clean n) :
    Makes T clean (Read.ternary (n + 1)) fun e => (Code.expr e).Written T clean := by
  rw [Read.ternary]
  refine (ih.operators .or).bind fun cond => (acceptSymbol_makes _).after fun _ =>
    .ite ?_ (.pure id)
  refine ih.expression.bind fun yes => (mark_makes _ _).after fun _ => ?_
  refine ih.ternary.bind fun no => .pure fun hn hy hc => ?_
  exact Expr.written (by simp [Expr.blamed]) (by simp [Expr.parts, hc, hy, hn])

theorem operators_succ (ih : ExprMakes T clean n) (l : Level) :
    Makes T clean (Read.operators (n + 1) l) fun e => (Code.expr e).Written T clean := by
  rw [Read.operators]
  split
  · exact (ih.operators _).bind fun first => ih.operatorsAfter l first
  · exact ih.unary.bind fun first => ih.operatorsAfter l first

theorem node_written (l : Level) {left right : Expr} {op : Token} (hop : op.At T)
    (hl : (Code.expr left).Written T clean) (hr : (Code.expr right).Written T clean) :
    (Code.expr (l.node left op right)).Written T clean := by
  cases l <;> exact Expr.written (by simp [Level.node, Expr.blamed, hop])
    (by simp [Level.node, Expr.parts, hl, hr])

theorem operatorsAfter_succ (ih : ExprMakes T clean n) (l : Level) (left : Expr) :
    Makes T clean (Read.operatorsAfter (n + 1) l left) fun e =>
      (Code.expr left).Written T clean → (Code.expr e).Written T clean := by
  rw [Read.operatorsAfter]
  refine (accept_makes _).bind fun op => ?_
  cases op with
  | none => exact .pure fun _ h => h
  | some op =>
    have hafter : ∀ right, Makes T clean (Read.operatorsAfter n l (l.node left op right)) fun e =>
        (Code.expr right).Written T clean → (∀ t ∈ some op, t.At T) →
        (Code.expr left).Written T clean → (Code.expr e).Written T clean := fun right =>
      (ih.operatorsAfter l _).imp fun e he hr hop hl => he (node_written l (hop op rfl) hl hr)
    dsimp only
    split
    · exact (ih.operators _).bind hafter
    · exact ih.unary.bind hafter

theorem unary_succ (ih : ExprMakes T clean n) :
    Makes T clean (Read.unary (n + 1)) fun e => (Code.expr e).Written T clean := by
  rw [Read.unary]
  refine (accept_makes _).bind fun op => ?_
  cases op with
  | none => exact ih.primary.bind fun e => (ih.suffixes e).imp fun _ h he _ => h he
  | some op =>
    refine ih.unary.bind fun e => .pure fun he hop => ?_
    exact Expr.written (by simpa [Expr.blamed] using hop) (by simpa [Expr.parts] using he)

theorem suffixes_succ (ih : ExprMakes T clean n) (e : Expr) :
    Makes T clean (Read.suffixes (n + 1) e) fun e' =>
      (Code.expr e).Written T clean → (Code.expr e').Written T clean := by
  rw [Read.suffixes]
  refine (acceptSymbol_makes _).after fun _ => .ite ?_ ?_
  · have hargs := (ih.arguments 0 []).imp fun args h => h (by simp)
    refine (ahead_makes _).after fun _ => .either (.pure (by simp)) hargs fun args =>
      (expectSymbol_makes _ _).bind fun paren => (ih.suffixes _).imp fun e' h hparen hargs he => ?_
    exact h (Expr.written (by simpa [Expr.blamed] using hparen)
      (by simpa [Expr.parts] using ⟨he, hargs⟩))
  · refine (acceptSymbol_makes _).after fun _ => .ite ?_ (.pure id)
    refine (expectName_makes _).bind fun name => (ih.suffixes _).imp fun e' h hname he => ?_
    exact h (Expr.written (by simpa [Expr.blamed] using hname) (by simpa [Expr.parts] using he))

theorem arguments_succ (ih : ExprMakes T clean n) (count : Nat) (acc : List Expr) :
    Makes T clean (Read.arguments (n + 1) count acc) fun es =>
      (∀ e ∈ acc, (Code.expr e).Written T clean) → ∀ e ∈ es, (Code.expr e).Written T clean := by
  rw [Read.arguments]
  refine warned_makes (ih.assignment.bind fun arg => (acceptSymbol_makes _).after fun _ => ?_)
  refine .ite ?_ (.pure fun harg hacc e he => ?_)
  · exact (ih.arguments _ _).imp fun es hes harg hacc =>
      hes (List.forall_mem_cons.2 ⟨harg, hacc⟩)
  · rcases List.mem_cons.1 (List.mem_reverse.1 he) with rfl | he
    · exact harg
    · exact hacc e he

theorem primary_succ (ih : ExprMakes T clean n) :
    Makes T clean (Read.primary (n + 1)) fun e => (Code.expr e).Written T clean := by
  have hlit : ∀ v, (Code.expr (.literal v)).Written T clean := fun v =>
    Expr.written (by simp [Expr.blamed]) (by simp [Expr.parts])
  rw [Read.primary]
  refine site_makes.bind fun s => ?_
  cases s with
  | stop p => exact fail_makes _
  | token t =>
    have hleaf : ∀ {e : Expr}, e.parts = [] → (∀ u ∈ e.blamed, u.At T) →
        (Code.expr e).Written T clean := fun hp hb => Expr.written hb (by simp [hp])
    dsimp only
    split
    · exact skip_makes.after fun _ => .pure fun _ => hlit _
    · exact skip_makes.after fun _ => .pure fun _ => hlit _
    · exact skip_makes.after fun _ => .pure fun _ => hlit _
    · exact skip_makes.after fun _ => .pure fun _ => hlit _
    · exact skip_makes.after fun _ => .pure fun _ => hlit _
    · refine skip_makes.after fun _ => (refer_makes t).bind fun ref => .pure fun href ht => ?_
      exact hleaf rfl (by simpa [Expr.blamed, href] using ht)
    · refine skip_makes.after fun _ => (refer_makes t).bind fun ref => .pure fun href ht => ?_
      exact hleaf rfl (by simpa [Expr.blamed, href] using ht)
    · refine skip_makes.after fun _ => (mark_makes _ _).after fun _ =>
        (expectName_makes _).bind fun method => (refer_makes t).bind fun ref =>
          .pure fun href hm ht => ?_
      exact hleaf rfl (by simpa [Expr.blamed, href, hm] using ht)
    · refine skip_makes.after fun _ => ih.expression.bind fun inner => (mark_makes _ _).after fun _ =>
        .pure fun hi _ => Expr.written (by simp [Expr.blamed]) (by simpa [Expr.parts] using hi)
    · exact fail_makes _

end ExprMakes

theorem exprMakes (T : List Token) (clean : Prop) (n : Nat) : ExprMakes T clean n := by
  induction n with
  | zero =>
    refine ⟨?_, ?_, ?_, ?_, ?_, ?_, ?_, ?_, ?_, ?_⟩
    all_goals intros; exact .throw _
  | succ n ih =>
    exact ⟨ih.expression_succ, ih.parts_succ, ih.assignment_succ, ih.ternary_succ,
      ih.operators_succ, ih.operatorsAfter_succ, ih.unary_succ, ih.suffixes_succ,
      ih.arguments_succ, ih.primary_succ⟩

/-! ### Declarations without bodies -/

theorem typeName_makes : Makes T clean typeName fun _ => True :=
  (acceptSymbol_makes _).after fun _ =>
    .ite ((expectName_makes _).bind fun _ => .pure fun _ => trivial) (.pure trivial)

theorem names_makes (f : ReadingFault) (n : Nat) (acc : List Token) :
    Makes T clean (names f n acc) fun _ => True := by
  induction n generalizing acc with
  | zero => exact .throw _
  | succ n ih =>
    rw [names]
    exact ((expectName_makes _).imp fun _ _ => trivial).after fun name =>
      (acceptSymbol_makes _).after fun _ => .ite (ih _) (.pure trivial)

theorem parameters_makes (n count : Nat) (acc : List Token) :
    Makes T clean (parameters n count acc) fun _ => True := by
  induction n generalizing count acc with
  | zero => exact .throw _
  | succ n ih =>
    rw [parameters]
    exact warned_makes (((expectName_makes _).imp fun _ _ => trivial).after fun name =>
      (acceptSymbol_makes _).after fun _ => .ite (ih _ _) (.pure trivial))

theorem varList_makes (n : Nat) (acc : List Stmt) :
    Makes T clean (varList n acc) fun ss =>
      (∀ s ∈ acc, (Code.stmt s).Written T clean) → ∀ s ∈ ss, (Code.stmt s).Written T clean := by
  induction n generalizing acc with
  | zero => exact .throw _
  | succ n ih =>
    rw [varList]
    refine ((expectName_makes _).imp fun _ _ => trivial).after fun name => typeName_makes.after
      fun type => (acceptSymbol_makes _).after fun _ => .option (exprMakes T clean n).assignment
        fun init => (acceptSymbol_makes _).after fun _ => ?_
    have hvar : (∀ e ∈ init, (Code.expr e).Written T clean) →
        (∀ s ∈ acc, (Code.stmt s).Written T clean) →
        ∀ s ∈ Stmt.var name type init :: acc, (Code.stmt s).Written T clean := fun hi hacc =>
      List.forall_mem_cons.2 ⟨Stmt.written (by simp [Stmt.blamed]) (by simp)
        (by simpa [Stmt.inside] using hi), hacc⟩
    refine .ite ((ih _).imp fun ss h hi hacc => h (hvar hi hacc)) (.pure fun hi hacc s hs => ?_)
    exact hvar hi hacc s (List.mem_reverse.1 hs)

theorem varDeclaration_makes (n : Nat) :
    Makes T clean (varDeclaration n) fun s => (Code.stmt s).Written T clean := by
  refine (varList_makes n []).bind fun ss => (mark_makes _ _).after fun _ => .pure fun h => ?_
  have hss := h (by simp)
  split
  · exact hss _ (by simp)
  · exact Stmt.written (by simp [Stmt.blamed]) (by simp)
      (by simpa [Stmt.inside] using Stmt.written_all.2 hss)

theorem importDeclaration_makes (n : Nat) (keyword : Token) :
    Makes T clean (importDeclaration n keyword) fun s => (Code.stmt s).Written T clean := by
  refine (mark_makes _ _).after fun _ => (names_makes _ n _).after fun ns =>
    (mark_makes _ _).after fun _ => ((expect_makes _ _).imp fun _ _ => trivial).after fun _ =>
      (site_makes.imp fun _ _ => trivial).after fun s => ?_
  cases s with
  | stop p => exact fail_makes _
  | token t =>
    dsimp only
    split
    · exact skip_makes.after fun _ => (mark_makes _ _).after fun _ => .pure
        (Stmt.written (by simp [Stmt.blamed]) (by simp) (by simp [Stmt.inside]))
    · exact fail_makes _

theorem exposeDeclaration_makes (n : Nat) (keyword : Token) :
    Makes T clean (exposeDeclaration n keyword) fun s => (Code.stmt s).Written T clean :=
  (names_makes _ n _).after fun _ => (mark_makes _ _).after fun _ => .pure
    (Stmt.written (by simp [Stmt.blamed]) (by simp) (by simp [Stmt.inside]))

theorem expressionStatement_makes (n : Nat) :
    Makes T clean (expressionStatement n) fun s => (Code.stmt s).Written T clean :=
  (exprMakes T clean n).expression.bind fun e => (mark_makes _ _).after fun _ => .pure fun he =>
    Stmt.written (by simp [Stmt.blamed]) (by simp) (by simpa [Stmt.inside] using he)

theorem superclass_makes (name : Token) :
    Makes T clean (superclass name) fun sup => ∀ ref ∈ sup, ref.name.At T := by
  refine (acceptSymbol_makes _).after fun _ => .ite ?_ (.pure (by simp))
  refine (expectName_makes _).bind fun sup => ?_
  have hrest : Makes T clean (do return some (← refer sup)) fun (o : Option Ref) =>
      sup.At T → ∀ ref ∈ o, ref.name.At T :=
    (refer_makes sup).bind fun ref => .pure fun href hsup => by simpa [href] using hsup
  refine .ite ?_ hrest
  exact ((report_makes _ _).imp fun _ _ => trivial).after fun _ => hrest

end Read

/-! ### Classes -/

/-- The members are read from the tokens of `T`. -/
structure Members.Written (T : List Token) (clean : Prop) (ms : Members) : Prop where
  methods : ∀ f ∈ ms.methods ++ ms.staticMethods, (Code.function f).Written T clean
  names : ∀ f ∈ ms.fields, f.name.At T
  inits : ∀ f ∈ ms.fields ++ ms.staticFields, ∀ e ∈ f.init, (Code.expr e).Written T clean

section

variable {T : List Token} {clean : Prop} {ms : Members}

theorem Members.Written.empty : ({} : Members).Written T clean := by constructor <;> simp

theorem Members.Written.addMethod (h : ms.Written T clean) (static : Bool) {f : FunctionDecl}
    (hf : (Code.function f).Written T clean) : (ms.addMethod static f).Written T clean := by
  have hm := h.methods
  cases static with
  | true =>
    refine ⟨fun g hg => ?_, h.names, h.inits⟩
    rcases List.mem_append.1 hg with hg | hg
    · exact hm g (List.mem_append_left _ hg)
    · rcases List.mem_cons.1 hg with rfl | hg
      · exact hf
      · exact hm g (List.mem_append_right _ hg)
  | false => exact ⟨List.forall_mem_cons.2 ⟨hf, hm⟩, h.names, h.inits⟩

theorem Members.Written.addField (h : ms.Written T clean) (static : Bool) {f : FieldDecl}
    (hf : f.name.At T) (hi : ∀ e ∈ f.init, (Code.expr e).Written T clean) :
    (ms.addField static f).Written T clean := by
  have hinits := h.inits
  cases static with
  | true =>
    refine ⟨h.methods, h.names, fun g hg => ?_⟩
    rcases List.mem_append.1 hg with hg | hg
    · exact hinits g (List.mem_append_left _ hg)
    · rcases List.mem_cons.1 hg with rfl | hg
      · exact hi
      · exact hinits g (List.mem_append_right _ hg)
  | false =>
    exact ⟨h.methods, List.forall_mem_cons.2 ⟨hf, h.names⟩, List.forall_mem_cons.2 ⟨hi, hinits⟩⟩

/-- Assignments to fields are read where the fields are. -/
theorem FieldDecl.Assigned.written {f : FieldDecl} {s : Stmt} (h : f.Assigned s)
    (hf : f.name.At T) (hi : ∀ e ∈ f.init, (Code.expr e).Written T clean) :
    (Code.stmt s).Written T clean := by
  obtain ⟨this, hthis, rfl⟩ := h
  have hthis : (Code.expr (.this this)).Written T clean :=
    Expr.written (by simpa [Expr.blamed, hthis] using hf.placed _ _) (by simp [Expr.parts])
  have hvalue : (Code.expr (f.init.getD (.literal .nil))).Written T clean := by
    cases hf : f.init with
    | none => exact Expr.written (by simp [Expr.blamed]) (by simp [Expr.parts])
    | some e => exact hi e hf
  refine Stmt.written (by simp [Stmt.blamed]) (by simp) ?_
  simpa [Stmt.inside] using Expr.written (by simpa [Expr.blamed] using hf)
    (by simp [Expr.parts, hthis, hvalue])

theorem FieldDecl.assigned_written {fs : List FieldDecl} {ss : List Stmt}
    (h : List.Forall₂ FieldDecl.Assigned fs ss)
    (hfs : ∀ f ∈ fs, f.name.At T ∧ ∀ e ∈ f.init, (Code.expr e).Written T clean) :
    ∀ s ∈ ss, (Code.stmt s).Written T clean := by
  induction h with
  | nil => simp
  | cons hs _ ih =>
    obtain ⟨hf, hfs⟩ := List.forall_mem_cons.1 hfs
    exact List.forall_mem_cons.2 ⟨hs.written hf.1 hf.2, ih hfs⟩

theorem ClassDecl.spliceFirst_written (hasSuper : Bool) {ss : List Stmt} {fs : List FunctionDecl}
    (hss : ∀ s ∈ ss, (Code.stmt s).Written T clean)
    (hfs : ∀ f ∈ fs, (Code.function f).Written T clean) :
    ∀ f ∈ spliceFirst hasSuper ss fs, (Code.function f).Written T clean := by
  induction fs with
  | nil => simp [spliceFirst]
  | cons m ms ih =>
    obtain ⟨hm, hms⟩ := List.forall_mem_cons.1 hfs
    rw [spliceFirst]
    split
    · refine List.forall_mem_cons.2 ⟨FunctionDecl.written_iff.2 fun s hs => ?_, hms⟩
      rcases List.mem_append.1 ((spliceInto_perm ..).mem_iff.1 hs) with hs | hs
      · exact FunctionDecl.written_iff.1 hm s hs
      · exact hss s hs
    · exact List.forall_mem_cons.2 ⟨hm, ih hms⟩

/-- A class of members that are read from the text is read from it. -/
theorem ClassDecl.ReadAs.written {decl : ClassDecl} (h : decl.ReadAs T clean ms)
    (hsup : ∀ ref ∈ decl.superclass, ref.name.At T) (hms : ms.Written T clean)
    (hstatic : decl.staticMethods = ms.staticMethods.reverse)
    (hfields : decl.staticFields = ms.staticFields.reverse) :
    (Code.stmt (.cls decl)).Written T clean := by
  obtain ⟨ss, hss, hmethods, hinit⟩ := h.parts
  have hassign : ∀ s ∈ ss, (Code.stmt s).Written T clean := fun s hs => by
    refine FieldDecl.assigned_written hss (fun f hf => ?_) s hs
    have hf := List.mem_reverse.1 hf
    exact ⟨hms.names f hf, hms.inits f (List.mem_append_left _ hf)⟩
  -- The assignments are in one of the methods, or else in a function that stands apart.
  have hfunctions : ∀ f ∈ decl.ofInstances ++ decl.staticMethods,
      (Code.function f).Written T clean := fun f hf => by
    rcases List.mem_append.1 hf with hf | hf
    · rcases List.mem_append.1 hf with hf | hf
      · rw [hmethods] at hf
        refine spliceFirst_written _ hassign (fun g hg => ?_) f hf
        exact hms.methods g (List.mem_append_left _ (List.mem_reverse.1 hg))
      · rw [hinit] at hf
        split at hf
        · cases hf
        · obtain rfl := List.mem_singleton.1 hf
          exact FunctionDecl.written_iff.2 hassign
    · rw [hstatic] at hf
      exact hms.methods f (List.mem_append_right _ (List.mem_reverse.1 hf))
  refine Code.everywhere_iff.2 ⟨⟨?_, fun decl' he => ?_⟩, fun inner hi => ?_⟩
  · simpa [Stmt.blamed] using hsup
  · cases he
    exact ⟨ms, h⟩
  · rcases List.mem_append.1 hi with hi | hi
    · obtain ⟨f, hf, rfl⟩ := List.mem_map.1 hi
      exact hfunctions f hf
    · obtain ⟨e, he, rfl⟩ := List.mem_map.1 hi
      obtain ⟨f, hf, he⟩ := List.mem_filterMap.1 he
      rw [hfields] at hf
      exact hms.inits f (List.mem_append_right _ (List.mem_reverse.1 hf)) e he

end

namespace Read

variable {T : List Token} {clean : Prop}

theorem fieldAssignments_makes (fields : List FieldDecl) :
    Makes T clean (fieldAssignments fields) fun ss =>
      List.Forall₂ FieldDecl.Assigned fields ss := by
  induction fields with
  | nil => exact .pure .nil
  | cons f fs ih =>
    rw [fieldAssignments]
    exact (refer_makes _).bind fun ref => ih.bind fun ss => .pure fun hss href =>
      .cons ⟨ref, href, rfl⟩ hss

theorem classOf_makes (name : Token) (sup : Option Ref) (ms : Members) :
    Makes T clean (classOf name sup ms) fun s =>
      (∃ n r r', r.rest <:+ T ∧ classMembers n {} r = .ok ms r') →
      (∀ ref ∈ sup, ref.name.At T) → ms.Written T clean → (Code.stmt s).Written T clean := by
  unfold classOf
  refine (fieldAssignments_makes _).bind fun ss => ?_
  have htree : (clean → sup.isSome → ∀ f, ms.methods.reverse.find? FunctionDecl.isInit = some f →
      f.body.head?.any ClassDecl.isSuperInit) →
      List.Forall₂ FieldDecl.Assigned ms.fields.reverse ss →
      (∃ n r r', r.rest <:+ T ∧ classMembers n {} r = .ok ms r') →
      (∀ ref ∈ sup, ref.name.At T) → ms.Written T clean → (Code.stmt (.cls
        { name, superclass := sup
          methods := ClassDecl.spliceFirst sup.isSome ss ms.methods.reverse
          fields := if ms.methods.reverse.any FunctionDecl.isInit || ss.isEmpty then none
            else some ⟨.placed (.identifier initName) initName name, [], ss⟩
          staticMethods := ms.staticMethods.reverse
          staticFields := ms.staticFields.reverse })).Written T clean :=
    fun hinit hss hread hsup hms =>
      ClassDecl.ReadAs.written ⟨hread, ⟨ss, hss, rfl, rfl⟩, hinit⟩ hsup hms rfl rfl
  -- An `init` that does not call the inherited one first is reported, and then the text is not clean.
  dsimp only
  split
  · next f hf =>
    split
    · exact (report_makes _ _).bind fun _ => .pure fun hfaulty => htree fun hc => absurd hc hfaulty
    · next hc =>
      refine .pure (htree fun _ hsup f' hf' => ?_)
      cases hf.symm.trans hf'
      simpa [hsup] using hc
  · next hnone =>
    refine .pure (htree fun _ _ f hf => ?_)
    rw [hnone] at hf
    cases hf

/-! ### Statements -/

theorem recover_suffix (r : Reader) : r.recover.rest <:+ r.rest := by
  have hdrop : ∀ (ts : List Token) (last : Token), Reader.dropSpoiled last ts <:+ ts := by
    intro ts
    induction ts with
    | nil => exact fun _ => List.suffix_rfl
    | cons t ts ih =>
      intro last
      rw [Reader.dropSpoiled]
      split
      · exact List.suffix_rfl
      · exact (ih t).trans (List.suffix_cons ..)
  unfold Reader.recover
  split
  · next t ts heq =>
    rw [heq]
    exact (hdrop ts t).trans (List.suffix_cons ..)
  · exact List.suffix_rfl

theorem recovering_makes {p : Read Stmt} {Q : Stmt → Prop} (hp : Makes T clean p Q) :
    Makes T clean (recovering p) fun o => ∀ s ∈ o, Q s := by
  intro r hr
  have h := hp r hr
  unfold recovering
  split at h
  · next s r' hs =>
    simp only [hs]
    refine ⟨h.1, h.2.1, fun hc s' hs' => ?_⟩
    cases hs'
    exact h.2.2 hc
  · next e r' hs =>
    simp only [hs]
    cases e with
    | faulty =>
      exact ⟨(recover_suffix r').trans h.1, faults_recover r' ▸ h.2, by simp⟩
    | exhausted => exact h

/-- What the parts of the grammar of statements yield with `n` nested steps. -/
structure StmtMakes (T : List Token) (clean : Prop) (n : Nat) : Prop where
  declaration : Makes T clean (declaration n) fun o => ∀ s ∈ o, (Code.stmt s).Written T clean
  block : ∀ acc, Makes T clean (block n acc) fun ss =>
    (∀ s ∈ acc, (Code.stmt s).Written T clean) → ∀ s ∈ ss, (Code.stmt s).Written T clean
  functionRest : ∀ role name, Makes T clean (functionRest n role name) fun f =>
    (Code.function f).Written T clean
  classDeclaration : Makes T clean (classDeclaration n) fun s => (Code.stmt s).Written T clean
  classMembers : ∀ acc, Makes T clean (classMembers n acc) fun ms =>
    acc.Written T clean → ms.Written T clean
  statement : Makes T clean (statement n) fun s => (Code.stmt s).Written T clean
  branch : Makes T clean (branch n) fun s => (Code.stmt s).Written T clean
  countedLoop : Makes T clean (countedLoop n) fun s => (Code.stmt s).Written T clean

namespace StmtMakes

variable {n : Nat}

theorem declared (ih : StmtMakes T clean n) :
    Makes T clean (Read.declared n) fun s => (Code.stmt s).Written T clean := by
  refine (site_makes.imp fun _ _ => trivial).after fun s => ?_
  cases s with
  | stop p => exact ih.statement
  | token t =>
    dsimp only
    split
    · exact skip_makes.after fun _ => varDeclaration_makes n
    · refine skip_makes.after fun _ => ((expectName_makes _).imp fun _ _ => trivial).after
        fun name => (ih.functionRest _ name).bind fun f => .pure fun hf => ?_
      exact Stmt.written (by simp [Stmt.blamed]) (by simp) (by simpa [Stmt.inside] using hf)
    · exact skip_makes.after fun _ => ih.classDeclaration
    · exact skip_makes.after fun _ => importDeclaration_makes n t
    · exact skip_makes.after fun _ => exposeDeclaration_makes n t
    · exact ih.statement

theorem declaration_succ (ih : StmtMakes T clean n) :
    Makes T clean (Read.declaration (n + 1)) fun o => ∀ s ∈ o, (Code.stmt s).Written T clean := by
  rw [declaration_eq]
  exact recovering_makes ih.declared

theorem block_succ (ih : StmtMakes T clean n) (acc : List Stmt) :
    Makes T clean (Read.block (n + 1) acc) fun ss =>
      (∀ s ∈ acc, (Code.stmt s).Written T clean) → ∀ s ∈ ss, (Code.stmt s).Written T clean := by
  rw [Read.block]
  refine atEnd_makes.after fun _ => (ahead_makes _).after fun _ => .ite ?_ ?_
  · exact (mark_makes _ _).after fun _ => .pure fun h => by simpa using h
  · refine ih.declaration.bind fun o => ?_
    cases o with
    | none => exact (ih.block acc).imp fun ss h _ => h
    | some s =>
      refine (ih.block (s :: acc)).imp fun ss h hs hacc => ?_
      exact h (List.forall_mem_cons.2 ⟨hs s rfl, hacc⟩)

theorem functionRest_succ (ih : StmtMakes T clean n) (role : FunctionRole) (name : Token) :
    Makes T clean (Read.functionRest (n + 1) role name) fun f =>
      (Code.function f).Written T clean := by
  rw [Read.functionRest]
  refine (mark_makes _ _).after fun _ => (ahead_makes _).after fun _ =>
    .either (.pure trivial) (parameters_makes n 0 []) fun params => (mark_makes _ _).after fun _ =>
      (mark_makes _ _).after fun _ => (ih.block []).bind fun body => .pure fun h _ => ?_
  exact FunctionDecl.written_iff.2 (h (by simp))

theorem classDeclaration_succ (ih : StmtMakes T clean n) :
    Makes T clean (Read.classDeclaration (n + 1)) fun s => (Code.stmt s).Written T clean := by
  rw [Read.classDeclaration]
  refine ((expectName_makes _).imp fun _ _ => trivial).after fun name =>
    (superclass_makes name).bind fun sup => (mark_makes _ _).after fun _ =>
      (ih.classMembers {}).here.bind fun ms => (mark_makes _ _).after fun _ =>
        (classOf_makes name sup ms).imp fun s h hms hsup => ?_
  obtain ⟨hms, r, r', hr, hread⟩ := hms
  exact h ⟨n, r, r', hr, hread⟩ hsup (hms .empty)

theorem classMembers_succ (ih : StmtMakes T clean n) (acc : Members) :
    Makes T clean (Read.classMembers (n + 1) acc) fun ms =>
      acc.Written T clean → ms.Written T clean := by
  rw [Read.classMembers]
  refine atEnd_makes.after fun _ => (ahead_makes _).after fun _ => .ite (.pure id) ?_
  refine (acceptKeyword_makes _).after fun static => (expectName_makes _).bind fun name =>
    (ahead_makes _).after fun _ => .ite ?_ ?_
  · refine (ih.functionRest _ name).bind fun f => (ih.classMembers _).imp fun ms h hf _ hacc => ?_
    exact h (hacc.addMethod static hf)
  · refine typeName_makes.after fun type => (acceptSymbol_makes _).after fun _ =>
      .option (exprMakes T clean n).expression fun init => (mark_makes _ _).after fun _ =>
        (ih.classMembers _).imp fun ms h hi hname hacc => ?_
    exact h (hacc.addField static hname hi)

theorem statement_succ (ih : StmtMakes T clean n) :
    Makes T clean (Read.statement (n + 1)) fun s => (Code.stmt s).Written T clean := by
  rw [Read.statement]
  refine site_makes.bind fun s => ?_
  cases s with
  | stop p => exact (expressionStatement_makes n).imp fun _ h _ => h
  | token t =>
    have hexpr := (exprMakes T clean n).expression
    dsimp only
    split
    · refine skip_makes.after fun _ => hexpr.bind fun e => (mark_makes _ _).after fun _ =>
        .pure fun he ht => ?_
      exact Stmt.written (by simpa [Stmt.blamed] using ht) (by simp) (by simpa [Stmt.inside] using he)
    · exact skip_makes.after fun _ => ih.branch.imp fun _ h _ => h
    · refine skip_makes.after fun _ => (mark_makes _ _).after fun _ => hexpr.bind fun e =>
        (mark_makes _ _).after fun _ => ih.statement.bind fun body => .pure fun hb he _ => ?_
      exact Stmt.written (by simp [Stmt.blamed]) (by simp) (by simp [Stmt.inside, he, hb])
    · exact skip_makes.after fun _ => ih.countedLoop.imp fun _ h _ => h
    · refine skip_makes.after fun _ => (ahead_makes _).after fun _ => .optional hexpr fun value =>
        (mark_makes _ _).after fun _ => .pure fun hv _ => ?_
      exact Stmt.written (by simp [Stmt.blamed]) (by simp) (by simpa [Stmt.inside] using hv)
    · exact skip_makes.after fun _ => (mark_makes _ _).after fun _ => .pure fun _ =>
        Stmt.written (by simp [Stmt.blamed]) (by simp) (by simp [Stmt.inside])
    · exact skip_makes.after fun _ => (mark_makes _ _).after fun _ => .pure fun _ =>
        Stmt.written (by simp [Stmt.blamed]) (by simp) (by simp [Stmt.inside])
    · refine skip_makes.after fun _ => (ih.block []).bind fun body => .pure fun h _ => ?_
      exact Stmt.written (by simp [Stmt.blamed]) (by simp)
        (by simpa [Stmt.inside] using Stmt.written_all.2 (h (by simp)))
    · exact (expressionStatement_makes n).imp fun _ h _ => h

theorem branch_succ (ih : StmtMakes T clean n) :
    Makes T clean (Read.branch (n + 1)) fun s => (Code.stmt s).Written T clean := by
  rw [Read.branch]
  refine (mark_makes _ _).after fun _ => (exprMakes T clean n).expression.bind fun e =>
    (mark_makes _ _).after fun _ => ih.statement.bind fun yes =>
      (acceptKeyword_makes _).after fun _ => .ite ?_ (.pure fun hy he => ?_)
  · refine ih.statement.bind fun no => .pure fun hn hy he => ?_
    exact Stmt.written (by simp [Stmt.blamed]) (by simp) (by simp [Stmt.inside, he, hy, hn])
  · exact Stmt.written (by simp [Stmt.blamed]) (by simp) (by simp [Stmt.inside, he, hy])

theorem loopClauses_makes (ih : StmtMakes T clean n) (first : List Stmt) :
    Makes T clean (loopClauses n first) fun s =>
      (∀ s ∈ first, (Code.stmt s).Written T clean) → (Code.stmt s).Written T clean := by
  have hexpr := (exprMakes T clean n).expression
  have hlit : (Code.expr (.literal (.bool true))).Written T clean :=
    Expr.written (by simp [Expr.blamed]) (by simp [Expr.parts])
  unfold loopClauses
  refine (ahead_makes _).after fun _ => .either (.pure hlit) hexpr fun cond =>
    (mark_makes _ _).after fun _ => (ahead_makes _).after fun _ => .optional hexpr fun step =>
      (mark_makes _ _).after fun _ => ih.statement.bind fun body => .pure fun hb hs hc hf => ?_
  have hloop : (Code.stmt (.loop cond step body)).Written T clean :=
    Stmt.written (by simp [Stmt.blamed]) (by simp) (by simpa [Stmt.inside, hc, hb] using hs)
  refine Stmt.written (by simp [Stmt.blamed]) (by simp) ?_
  simpa [Stmt.inside] using Stmt.written_all.2 fun s hs =>
    (List.mem_append.1 hs).elim (hf s) fun hs => List.mem_singleton.1 hs ▸ hloop

theorem countedLoop_succ (ih : StmtMakes T clean n) :
    Makes T clean (Read.countedLoop (n + 1)) fun s => (Code.stmt s).Written T clean := by
  have hrest : ∀ s, Makes T clean (loopClauses n [s]) fun s' =>
      (Code.stmt s).Written T clean → (Code.stmt s').Written T clean := fun s =>
    (ih.loopClauses_makes [s]).imp fun _ h hs => h (by simpa using hs)
  rw [countedLoop_eq]
  refine (mark_makes _ _).after fun _ => (acceptKeyword_makes _).after fun _ => .ite ?_ ?_
  · rw [bind_map_left]
    exact (varDeclaration_makes n).bind hrest
  · refine (acceptSymbol_makes _).after fun _ => .ite ?_ ?_
    · exact (ih.loopClauses_makes []).imp fun _ h => h (by simp)
    · rw [bind_map_left]
      exact (expressionStatement_makes n).bind hrest

end StmtMakes

/-- The grammar of statements yields trees as they are written. -/
theorem stmtMakes (T : List Token) (clean : Prop) (n : Nat) : StmtMakes T clean n := by
  induction n with
  | zero =>
    refine ⟨?_, ?_, ?_, ?_, ?_, ?_, ?_, ?_⟩
    all_goals intros; exact .throw _
  | succ n ih =>
    exact ⟨ih.declaration_succ, ih.block_succ, ih.functionRest_succ, ih.classDeclaration_succ,
      ih.classMembers_succ, ih.statement_succ, ih.branch_succ, ih.countedLoop_succ⟩

theorem declarations_makes (n : Nat) (acc : List Stmt) :
    Makes T clean (declarations n acc) fun ss =>
      (∀ s ∈ acc, (Code.stmt s).Written T clean) → ∀ s ∈ ss, (Code.stmt s).Written T clean := by
  induction n generalizing acc with
  | zero => exact .throw _
  | succ n ih =>
    rw [declarations]
    refine atEnd_makes.after fun _ => .ite (.pure fun h => by simpa using h) ?_
    refine (stmtMakes T clean n).declaration.bind fun o => ?_
    cases o with
    | none => exact (ih acc).imp fun ss h _ => h
    | some s =>
      refine (ih (s :: acc)).imp fun ss h hs hacc => ?_
      exact h (List.forall_mem_cons.2 ⟨hs s rfl, hacc⟩)

end Read

/-- What is read from a text is as it is written, whether there are faults or not. -/
theorem Source.read_written (file : Option String) (text : String) (firstId : Nat)
    (ds : Diagnostics) (clean : Prop)
    (hclean : clean → (Source.read file text firstId ds).1.faults = []) :
    (Code.stmts (Source.read file text firstId ds).1.body).Written (scan file text).tokens clean := by
  have h := @Read.declarations_makes (scan file text).tokens clean
    (Program.steps (scan file text).tokens.length) []
    ⟨(scan file text).tokens, (scan file text).stop, firstId, []⟩ List.suffix_rfl
  simp only [Source.read, Program.read] at hclean ⊢
  split at h
  · next body r hb =>
    simp only [hb] at hclean ⊢
    refine Stmt.written_all.2 (h.2.2 (fun hc => ?_) (by simp))
    simpa using hclean hc
  · next e r hb =>
    simp only [hb]
    exact Stmt.written_all.2 (by simp)

end Treewalk
