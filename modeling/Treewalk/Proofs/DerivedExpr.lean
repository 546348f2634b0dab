import Treewalk.Proofs.Grammar
import Treewalk.Proofs.Steps

/-!
# What is read without a fault is derived

`Yields p Q` is the rule for the parts of the grammar: a part never takes a fault back, gives up
only after one, and if no fault is found, `Q` relates what it yields to the tokens it takes. Since a
fault may have been reported and passed over, what is known of an earlier part is a hypothesis of
what is shown at the end.

Two things about trees decide whether a text has a fault, and so are tracked with the phrases: which
expressions can be assigned to, and which statements call the inherited initializer (`Spelled`).
-/

namespace Treewalk

open Grammar Grammar.Phrase

/-! ### Rules for parts of the grammar -/

/-- What a part that started at `r` made of its tokens, if there is no fault. -/
def Reader.Outcome {α : Type} (r : Reader) (Q : α → List Token → Prop) :
    EStateM.Result Unread Reader α → Prop
  | .ok x r' => r'.faults = [] → r.faults = [] ∧ ∃ w, r.rest = w ++ r'.rest ∧ Q x w
  | .error .faulty r' => r'.faults ≠ []
  | .error .exhausted _ => True

/-- The outcome seen from before the tokens `u`. -/
theorem Reader.Outcome.shift {α : Type} {r r₁ : Reader} {u : List Token}
    {P Q : α → List Token → Prop} {x : EStateM.Result Unread Reader α} (h : r₁.Outcome P x)
    (hc : r₁.faults = [] →
      r.faults = [] ∧ r.rest = u ++ r₁.rest ∧ ∀ y v, P y v → Q y (u ++ v)) : r.Outcome Q x := by
  cases x with
  | error e r₂ =>
    cases e with
    | faulty => exact h
    | exhausted => trivial
  | ok y r₂ =>
    intro hf
    obtain ⟨hf₁, v, hv, hy⟩ := h hf
    obtain ⟨hf₀, hu, hPQ⟩ := hc hf₁
    exact ⟨hf₀, u ++ v, by rw [hu, hv, List.append_assoc], hPQ y v hy⟩

/-- Reading `p` without a fault relates what it yields and the tokens it takes as `Q` says. -/
def Yields {α : Type} (p : Read α) (Q : α → List Token → Prop) : Prop :=
  ∀ r : Reader, r.Outcome Q (p r)

/-- The same where the token `t` is ahead. -/
def YieldsAt {α : Type} (t : Token) (p : Read α) (Q : α → List Token → Prop) : Prop :=
  ∀ r : Reader, r.rest.head? = some t → r.Outcome Q (p r)

/-- A part that either gives up with a fault or reports none, so that `U` holds in any case. -/
def Quiet {α : Type} (p : Read α) (U : α → List Token → Prop) : Prop :=
  ∀ r : Reader,
    (∃ x r' w, p r = .ok x r' ∧ r'.faults = r.faults ∧ r.rest = w ++ r'.rest ∧ U x w) ∨
      ∃ r', p r = .error .faulty r' ∧ r'.faults ≠ []

namespace Yields
variable {α β : Type} {p : Read α} {P Q : α → List Token → Prop}

theorem pure {x : α} (h : Q x []) : Yields (pure x) Q := fun _ hf => ⟨hf, [], rfl, h⟩

theorem exhausted : Yields (throw .exhausted : Read α) Q := fun _ => trivial

theorem bind {f : α → Read β} {Q : β → List Token → Prop} (hp : Yields p P)
    (hf : ∀ x u, Yields (f x) fun y v => P x u → Q y (u ++ v)) : Yields (p >>= f) Q := by
  intro r
  have h := hp r
  cases hr : p r with
  | error e r₁ =>
    rw [Read.bind_error hr]
    rw [hr] at h
    cases e with
    | faulty => exact h
    | exhausted => trivial
  | ok x r₁ =>
    rw [hr] at h
    rw [Read.bind_ok hr]
    by_cases hc : r₁.faults = []
    · obtain ⟨hc₀, u, hu, hP⟩ := h hc
      exact (hf x u r₁).shift fun _ => ⟨hc₀, hu, fun y v hy => hy hP⟩
    · exact (hf x [] r₁).shift (u := []) fun hc' => absurd hc' hc

theorem imp (hp : Yields p P) (h : ∀ x w, P x w → Q x w) : Yields p Q :=
  fun r => (hp r).shift (u := []) fun hc => ⟨hc, rfl, h⟩

/-- A last part whose result is only put into a tree. -/
theorem ret {g : α → β} {Q : β → List Token → Prop} (hp : Yields p P)
    (h : ∀ x w, P x w → Q (g x) w) : Yields (p >>= fun x => Pure.pure (g x)) Q :=
  hp.bind fun x u => .pure fun hx => by
    rw [List.append_nil]
    exact h x u hx

theorem map {g : α → β} {Q : β → List Token → Prop} (hp : Yields p P)
    (h : ∀ x w, P x w → Q (g x) w) : Yields (g <$> p) Q := by
  rw [map_eq_pure_bind]
  exact hp.ret h

theorem ite {c : Prop} [Decidable c] {p' : Read α} (h : c → Yields p Q) (h' : ¬c → Yields p' Q) :
    Yields (if c then p else p') Q := by
  split
  · next hc => exact h hc
  · next hc => exact h' hc

/-- A part that may be missing. -/
theorem optional {c : Prop} [Decidable c] {x : α} {f : α → Read β} {q : Phrase}
    {Q : β → List Token → Prop} (hp : Yields p fun _ w => Derives [q] w)
    (hf : ∀ x ps u, Maybe [q] ps → Yields (f x) fun y v => Derives ps u → Q y (u ++ v)) :
    Yields (if c then f x else p >>= f) Q :=
  .ite (fun _ => (hf x [] [] (.inl rfl)).imp fun _ _ h => h .nil)
    fun _ => hp.bind fun x u => hf x [q] u (.inr rfl)

theorem toAt (hp : Yields p Q) (t : Token) : YieldsAt t p Q := fun r _ => hp r

end Yields

namespace Quiet
variable {α β : Type} {p : Read α} {U V : α → List Token → Prop}

theorem pure {x : α} (h : U x []) : Quiet (pure x) U :=
  fun r => .inl ⟨x, r, [], rfl, rfl, rfl, h⟩

theorem bind {f : α → Read β} {Q : β → List Token → Prop} (hp : Quiet p U)
    (hf : ∀ x u, U x u → Yields (f x) fun y v => Q y (u ++ v)) : Yields (p >>= f) Q := by
  intro r
  rcases hp r with ⟨x, r₁, u, hr, hc, hu, hU⟩ | ⟨r₁, hr, hc⟩
  · rw [Read.bind_ok hr]
    exact (hf x u hU r₁).shift fun hc' => ⟨hc ▸ hc', hu, fun _ _ hy => hy⟩
  · rw [Read.bind_error hr]
    exact hc

theorem andThen {f : α → Read β} {V : β → List Token → Prop} (hp : Quiet p U)
    (hf : ∀ x u, U x u → Quiet (f x) fun y v => V y (u ++ v)) : Quiet (p >>= f) V := by
  intro r
  rcases hp r with ⟨x, r₁, u, hr, hc, hu, hU⟩ | ⟨r₁, hr, hc⟩
  · rw [Read.bind_ok hr]
    rcases hf x u hU r₁ with ⟨y, r₂, v, hr', hc', hv, hV⟩ | h
    · exact .inl ⟨y, r₂, u ++ v, hr', hc'.trans hc, by rw [hu, hv, List.append_assoc], hV⟩
    · exact .inr h
  · rw [Read.bind_error hr]
    exact .inr ⟨r₁, rfl, hc⟩

theorem imp (hp : Quiet p U) (h : ∀ x w, U x w → V x w) : Quiet p V := by
  intro r
  rcases hp r with ⟨x, r₁, u, hr, hc, hu, hU⟩ | h'
  · exact .inl ⟨x, r₁, u, hr, hc, hu, h x u hU⟩
  · exact .inr h'

theorem ret {g : α → β} {V : β → List Token → Prop} (hp : Quiet p U)
    (h : ∀ x w, U x w → V (g x) w) : Quiet (p >>= fun x => Pure.pure (g x)) V :=
  hp.andThen fun x u hx => .pure (by rw [List.append_nil]; exact h x u hx)

theorem yields (hp : Quiet p U) : Yields p U := by
  intro r
  rcases hp r with ⟨x, r₁, u, hr, hc, hu, hU⟩ | ⟨r₁, hr, hc⟩
  · rw [hr]
    exact fun hc' => ⟨hc ▸ hc', u, hu, hU⟩
  · rw [hr]
    exact hc

end Quiet

namespace Read

theorem ahead_quiet (p : Token → Bool) : Quiet (ahead p) fun _ w => w = [] :=
  fun r => .inl ⟨_, r, [], rfl, rfl, rfl, rfl⟩

theorem atEnd_quiet : Quiet atEnd fun _ w => w = [] :=
  fun r => .inl ⟨_, r, [], rfl, rfl, rfl, rfl⟩

theorem refer_quiet (name : Token) : Quiet (refer name) fun _ w => w = [] :=
  fun _ => .inl ⟨_, _, [], rfl, rfl, rfl, rfl⟩

theorem fail_quiet {α : Type} {U : α → List Token → Prop} (f : ReadingFault) : Quiet (fail f) U :=
  fun _ => .inr ⟨_, rfl, List.cons_ne_nil _ _⟩

/-- After a report nothing is free of faults. -/
theorem report_yields (s : Site) (f : ReadingFault) : Yields (report s f) fun _ _ => False :=
  fun _ h => absurd h (List.cons_ne_nil _ _)

theorem accept_quiet (p : Token → Bool) : Quiet (accept p) fun o w =>
    w = o.toList ∧ ∀ t ∈ o, p t = true := by
  rintro ⟨rest, stop, nextId, faults⟩
  cases rest with
  | nil => exact .inl ⟨none, _, [], rfl, rfl, rfl, rfl, by simp⟩
  | cons t ts =>
    have h := accept_of_cons p t ts stop nextId faults
    by_cases hp : p t = true
    · rw [if_pos hp] at h
      exact .inl ⟨some t, _, [t], h, rfl, rfl, rfl, by simpa using hp⟩
    · rw [if_neg hp] at h
      exact .inl ⟨none, _, [], h, rfl, rfl, rfl, by simp⟩

/-- Taking a token that may be missing. -/
theorem accepted_quiet {p : Token → Bool} {c : Terminal} (hc : ∀ t, p t = true → c.has t = true) :
    Quiet (do return (← accept p).isSome) fun b w => if b then Derives [.token c] w else w = [] :=
  (accept_quiet p).ret fun o w ho => by
    obtain ⟨rfl, h⟩ := ho
    cases o with
    | none => rfl
    | some t => exact .single (hc t (h t rfl))

theorem acceptSymbol_quiet (s : Symbol) :
    Quiet (acceptSymbol s) fun b w => if b then Derives [sym s] w else w = [] :=
  accepted_quiet (c := .symbol s) fun _ h => h

theorem acceptKeyword_quiet (k : Keyword) :
    Quiet (acceptKeyword k) fun b w => if b then Derives [word k] w else w = [] :=
  accepted_quiet (c := .keyword k) fun _ h => h

/-- A part that is there if the symbol `s` is. -/
theorem introduced_yields {α β : Type} {p : Read α} {f : α → Read β} {s : Symbol} {x : α}
    {q : Phrase} {Q : β → List Token → Prop} (hp : Yields p fun _ w => Derives [q] w)
    (hf : ∀ x ps u, Maybe [sym s, q] ps → Yields (f x) fun y v => Derives ps u → Q y (u ++ v)) :
    Yields (do if ← acceptSymbol s then p >>= f else f x) Q := by
  refine (acceptSymbol_quiet s).bind fun given u hu => .ite (fun hm => ?_) fun hm => ?_
  · rw [if_pos hm] at hu
    refine hp.bind fun x v => (hf x [sym s, q] (u ++ v) (.inr rfl)).imp fun y w h hv => ?_
    rw [← List.append_assoc]
    exact h (hu.cons hv)
  · rw [if_neg hm] at hu
    subst hu
    exact (hf x [] [] (.inl rfl)).imp fun _ _ h => h .nil

theorem expect_quiet (p : Token → Bool) (f : ReadingFault) :
    Quiet (expect p f) fun t w => w = [t] ∧ p t = true :=
  (accept_quiet p).andThen fun o w ho => by
    obtain ⟨rfl, h⟩ := ho
    cases o with
    | none => exact fail_quiet f
    | some t => exact .pure ⟨rfl, h t rfl⟩

theorem expectSymbol_quiet (s : Symbol) (f : ReadingFault) :
    Quiet (expectSymbol s f) fun _ w => Derives [sym s] w :=
  (expect_quiet _ f).imp fun t w h => by
    obtain ⟨rfl, h⟩ := h
    exact .single h

theorem expectName_quiet (f : ReadingFault) :
    Quiet (expectName f) fun t w => w = [t] ∧ t.isIdentifier = true :=
  expect_quiet _ f

theorem site_yields {α : Type} {f : Site → Read α} {Q : α → List Token → Prop}
    (hs : ∀ pos, Yields (f (.stop pos)) Q) (ht : ∀ t, YieldsAt t (f (.token t)) Q) :
    Yields (site >>= f) Q := by
  rintro ⟨rest, stop, nextId, faults⟩
  cases rest with
  | nil => exact hs stop _
  | cons t ts => exact ht t _ rfl

/-- A part before which something may be reported. After a report it is only asked not to take
faults back. -/
theorem warned_yields {α : Type} {p : Read α} {f : ReadingFault} {Q : α → List Token → Prop}
    {c : Prop} [Decidable c] (hp : Yields p fun x w => ¬c → Q x w) :
    Yields (if c then do report (← site) f; p else p) Q := by
  refine .ite (fun _ => ?_) fun hc => hp.imp fun _ _ h => h hc
  have h : ∀ s, Yields (do report s f; p) Q := fun s =>
    (report_yields s f).bind fun _ _ => hp.imp fun _ _ _ => False.elim
  exact site_yields (fun pos => h _) fun t => (h _).toAt t

theorem skip_yields {α : Type} {t : Token} {p : Read α} {Q : α → List Token → Prop}
    (hp : Yields p fun x w => Q x (t :: w)) : YieldsAt t (do skip; p) Q := by
  rintro ⟨rest, stop, nextId, faults⟩ hr
  cases rest with
  | nil => cases hr
  | cons t' ts =>
    cases hr
    rw [bind_ok (p := skip) (r := ⟨t :: ts, stop, nextId, faults⟩) rfl]
    exact (hp ⟨ts, stop, nextId, faults⟩).shift (u := [t]) fun hc => ⟨hc, rfl, fun _ _ hy => hy⟩

end Read

/-! ### Expressions -/

/-- How an expression that can be assigned to, or that takes part in a call of an inherited method,
is spelled. -/
def Spelled : Expr → List Token → Prop
  | .variable _, w => Derives [name] w
  | .get _ _, w => Derives [call, sym .dot, name] w
  | .super _ m, w => Derives [word .super, sym .dot, token (.named m.lexeme)] w
  | .call (.super _ m) _ _, w => ∃ args, Maybe [arguments] args ∧
      Derives ([word .super, sym .dot, token (.named m.lexeme)] ++
        ([sym .leftParen] ++ args ++ [sym .rightParen])) w
  | _, _ => True

/-- The tokens are a primary expression with suffixes, and spell `e`. -/
def CallChain (e : Expr) (w : List Token) : Prop :=
  (∃ k, Derives (primary :: List.replicate k suffix) w) ∧ Spelled e w

theorem Grammar.Derives.suffixed {k : Nat} {u v : List Token}
    (hu : Derives (primary :: List.replicate k suffix) u) (hv : Derives [suffix] v) :
    Derives (primary :: List.replicate (k + 1) suffix) (u ++ v) := by
  rw [List.replicate_succ']
  exact hu.append hv

theorem CallChain.apply {e : Expr} {u v : List Token} {args : List Phrase} (h : CallChain e u)
    (hargs : Maybe [arguments] args)
    (hv : Derives ([sym .leftParen] ++ args ++ [sym .rightParen]) v) (paren : Token)
    (as : List Expr) : CallChain (.call e paren as) (u ++ v) := by
  obtain ⟨⟨k, hk⟩, he⟩ := h
  refine ⟨⟨k + 1, hk.suffixed (.of_rule (.apply hargs) hv)⟩, ?_⟩
  cases e with
  | super ref m =>
    have he : Derives [word .super, sym .dot, token (.named m.lexeme)] u := he
    exact ⟨args, hargs, he.append hv⟩
  | _ => trivial

theorem CallChain.property {e : Expr} {u v : List Token} (h : CallChain e u)
    (hv : Derives [sym .dot, name] v) (x : Token) : CallChain (.get e x) (u ++ v) := by
  obtain ⟨⟨k, hk⟩, he⟩ := h
  exact ⟨⟨k + 1, hk.suffixed (.of_rule .property hv)⟩, (Derives.of_rule (.call k) hk).cons hv⟩

/-- What the parts of the grammar of expressions yield with `n` nested steps. -/
structure ExprYields (n : Nat) : Prop where
  expression : Yields (Read.expression n) fun e w => Derives [.expression] w ∧ Spelled e w
  parts : ∀ acc, Yields (Read.parts n acc) fun _ w =>
    ∃ k, Derives (List.replicate k [sym .comma, .assignment]).flatten w
  assignment : Yields (Read.assignment n) fun e w => Derives [.assignment] w ∧ Spelled e w
  ternary : Yields (Read.ternary n) fun e w => Derives [.ternary] w ∧ Spelled e w
  operators : ∀ l, Yields (Read.operators n l) fun e w => Derives [l.phrase] w ∧ Spelled e w
  operatorsAfter : ∀ l left, Yields (Read.operatorsAfter n l left) fun e w =>
    (∃ os : List Terminal, (∀ o ∈ os, o ∈ l.ops) ∧
      Derives (os.flatMap fun o => [.token o, l.operand]) w) ∧
      (e = left ∧ w = [] ∨ ∀ u, Spelled e u)
  unary : Yields (Read.unary n) fun e w => Derives [.unary] w ∧ Spelled e w
  suffixes : ∀ e, Yields (Read.suffixes n e) fun e' w => ∀ u, CallChain e u → CallChain e' (u ++ w)
  arguments : ∀ count acc, Yields (Read.arguments n count acc) fun _ w =>
    ∃ k, count + k < Read.maxArguments ∧ Derives (listOf .assignment k) w
  primary : Yields (Read.primary n) fun e w => Derives [.primary] w ∧ Spelled e w

namespace ExprYields
variable {n : Nat}

theorem expression_succ (ih : ExprYields n) :
    Yields (Read.expression (n + 1)) fun e w => Derives [.expression] w ∧ Spelled e w := by
  rw [Read.expression]
  refine ih.assignment.bind fun first u => (Read.ahead_quiet _).bind fun more v hv => ?_
  subst hv
  refine .ite (fun _ => ?_) fun _ => .pure fun hf => ?_
  · refine (ih.parts _).ret fun es w hes hf => ⟨?_, trivial⟩
    obtain ⟨k, hk⟩ := hes
    exact .of_rule (.expression k) (hf.1.cons hk)
  · rw [List.append_nil, List.append_nil]
    exact ⟨.of_rule (.expression 0) hf.1, hf.2⟩

theorem parts_succ (ih : ExprYields n) (acc : List Expr) :
    Yields (Read.parts (n + 1) acc) fun _ w =>
      ∃ k, Derives (List.replicate k [sym .comma, .assignment]).flatten w := by
  rw [Read.parts]
  refine (Read.acceptSymbol_quiet _).bind fun more u hu => .ite (fun hm => ?_) fun hm => ?_
  · rw [if_pos hm] at hu
    refine ih.assignment.bind fun part v => (ih.parts _).imp fun es w hes hp => ?_
    obtain ⟨k, hk⟩ := hes
    exact ⟨k + 1, hu.cons (hp.1.cons hk)⟩
  · rw [if_neg hm] at hu
    subst hu
    exact .pure ⟨0, .nil⟩

/-- An assignment to what can be assigned to; for other targets there is a fault. -/
theorem assigned_yields {target value : Expr} {op : Token} (u w : List Token)
    (hop : Read.isAssignOp op = true) : Yields (Read.assigned target op value) fun e v =>
      Derives [.assignment] w → Spelled target u →
        Derives [.assignment] (u ++ (op :: (w ++ v))) ∧ Spelled e (u ++ (op :: (w ++ v))) := by
  obtain ⟨s, hs, ho⟩ := isAssignOp_iff.1 hop
  have ho' : Derives [sym s] [op] := .single ho
  unfold Read.assigned
  split
  · refine .pure fun hw hu => ⟨?_, ?_⟩
    · have hu : Derives [name] u := hu
      rw [List.append_nil]
      exact .of_rule (.assignment (.inl rfl) hs) (hu.cons (ho'.cons hw))
    · split <;> trivial
  · refine .pure fun hw hu => ⟨?_, trivial⟩
    have hu : Derives [call, sym .dot, name] u := hu
    rw [List.append_nil]
    exact .of_rule (.assignment (.inr rfl) hs) (hu.append (ho'.cons hw))
  · exact (Read.report_yields _ _).bind fun _ _ => .pure False.elim

theorem assignment_succ (ih : ExprYields n) :
    Yields (Read.assignment (n + 1)) fun e w => Derives [.assignment] w ∧ Spelled e w := by
  rw [Read.assignment]
  refine ih.ternary.bind fun target u => (Read.accept_quiet _).bind fun op v hv => ?_
  obtain ⟨rfl, hop⟩ := hv
  cases op with
  | none =>
    refine .pure fun ht => ?_
    rw [List.append_nil]
    exact ⟨.of_rule .value (by simpa using ht.1), by simpa using ht.2⟩
  | some op =>
    refine ih.assignment.bind fun value w => (assigned_yields u w (hop op rfl)).imp ?_
    intro e v h hw ht
    exact h hw.1 ht.2

theorem ternary_succ (ih : ExprYields n) :
    Yields (Read.ternary (n + 1)) fun e w => Derives [.ternary] w ∧ Spelled e w := by
  rw [Read.ternary]
  refine (ih.operators .or).bind fun cond u => (Read.acceptSymbol_quiet _).bind fun more v hv => ?_
  refine .ite (fun hm => ?_) fun hm => ?_
  · rw [if_pos hm] at hv
    refine ih.expression.bind fun yes w => (Read.expectSymbol_quiet _ _).bind fun _ x hx => ?_
    refine ih.ternary.ret fun no z hz hy hc => ⟨?_, trivial⟩
    exact .of_rule (.ternary (.inr rfl)) (hc.1.cons (hv.cons (hy.1.cons (hx.cons hz.1))))
  · rw [if_neg hm] at hv
    subst hv
    refine .pure fun hc => ?_
    rw [List.append_nil, List.append_nil]
    exact ⟨.of_rule (.ternary (.inl rfl)) hc.1, hc.2⟩

theorem operators_succ (ih : ExprYields n) (l : Level) :
    Yields (Read.operators (n + 1) l) fun e w => Derives [l.phrase] w ∧ Spelled e w := by
  have hafter : ∀ first u, Yields (Read.operatorsAfter n l first) fun e v =>
      Derives [l.operand] u ∧ Spelled first u →
        Derives [l.phrase] (u ++ v) ∧ Spelled e (u ++ v) := by
    intro first u
    refine (ih.operatorsAfter l first).imp ?_
    rintro e v ⟨⟨os, hos, hv⟩, hnode⟩ ⟨hu, hs⟩
    refine ⟨.of_rule (.operators l.operators?_phrase hos) (hu.cons hv), ?_⟩
    rcases hnode with ⟨rfl, rfl⟩ | hnode
    · rwa [List.append_nil]
    · exact hnode _
  rw [Read.operators]
  split
  · next l' hl => exact (ih.operators l').bind fun first u => Level.operand_some hl ▸ hafter first u
  · next hl => exact ih.unary.bind fun first u => Level.operand_none hl ▸ hafter first u

theorem node_spelled (l : Level) (left : Expr) (op : Token) (right : Expr) (u : List Token) :
    Spelled (l.node left op right) u := by
  cases l <;> trivial

theorem operatorsAfter_succ (ih : ExprYields n) (l : Level) (left : Expr) :
    Yields (Read.operatorsAfter (n + 1) l left) fun e w =>
      (∃ os : List Terminal, (∀ o ∈ os, o ∈ l.ops) ∧
        Derives (os.flatMap fun o => [.token o, l.operand]) w) ∧
        (e = left ∧ w = [] ∨ ∀ u, Spelled e u) := by
  rw [Read.operatorsAfter]
  refine (Read.accept_quiet _).bind fun op u hu => ?_
  obtain ⟨rfl, hop⟩ := hu
  cases op with
  | none => exact .pure ⟨⟨[], by simp, .nil⟩, .inl ⟨rfl, rfl⟩⟩
  | some op =>
    obtain ⟨o, ho, hhas⟩ := Level.takes_iff.1 (hop op rfl)
    have hafter : ∀ right v, Yields (Read.operatorsAfter n l (l.node left op right)) fun e w =>
        Derives [l.operand] v ∧ Spelled right v →
          (∃ os : List Terminal, (∀ o ∈ os, o ∈ l.ops) ∧
            Derives (os.flatMap fun o => [.token o, l.operand]) (op :: (v ++ w))) ∧
          (e = left ∧ op :: (v ++ w) = [] ∨ ∀ u, Spelled e u) := by
      intro right v
      refine (ih.operatorsAfter l _).imp ?_
      rintro e w ⟨⟨os, hos, hw⟩, hnode⟩ ⟨hv, -⟩
      refine ⟨⟨o :: os, List.forall_mem_cons.2 ⟨ho, hos⟩, .token hhas (hv.cons hw)⟩, .inr ?_⟩
      rcases hnode with ⟨rfl, -⟩ | hnode
      · exact node_spelled l left op right
      · exact hnode
    dsimp only
    split
    · next l' hl =>
      exact (ih.operators l').bind fun right v => Level.operand_some hl ▸ hafter right v
    · next hl => exact ih.unary.bind fun right v => Level.operand_none hl ▸ hafter right v

theorem unary_succ (ih : ExprYields n) :
    Yields (Read.unary (n + 1)) fun e w => Derives [.unary] w ∧ Spelled e w := by
  rw [Read.unary]
  refine (Read.accept_quiet _).bind fun op u hu => ?_
  obtain ⟨rfl, hop⟩ := hu
  cases op with
  | none =>
    refine ih.primary.bind fun e v => (ih.suffixes e).imp fun e' w hw hv => ?_
    obtain ⟨⟨k, hk⟩, hs⟩ := hw v ⟨⟨0, hv.1⟩, hv.2⟩
    exact ⟨.of_rule .operand (.of_rule (.call k) hk), hs⟩
  | some op =>
    obtain ⟨s, hs, ho⟩ := isUnaryOp_iff.1 (hop op rfl)
    refine ih.unary.ret fun e v hv => ⟨.of_rule (.unary hs) (.token ho hv.1), trivial⟩

theorem suffixes_succ (ih : ExprYields n) (e : Expr) :
    Yields (Read.suffixes (n + 1) e) fun e' w => ∀ u, CallChain e u → CallChain e' (u ++ w) := by
  rw [Read.suffixes]
  refine (Read.acceptSymbol_quiet _).bind fun call a ha => .ite (fun hm => ?_) fun hm => ?_
  · rw [if_pos hm] at ha
    refine (Read.ahead_quiet _).bind fun closed b hb => ?_
    subst hb
    refine .optional (q := .arguments) ?_ fun args ps b hps => ?_
    · refine (ih.arguments 0 []).imp fun es w hes => ?_
      obtain ⟨k, hk, hd⟩ := hes
      exact .of_rule (.arguments (by omega)) hd
    · refine (Read.expectSymbol_quiet _ _).bind fun paren c hc => (ih.suffixes _).imp ?_
      intro e' w hw hb u hu
      have hd : Derives ([sym .leftParen] ++ ps ++ [sym .rightParen]) (a ++ (b ++ c)) := by
        simpa using ha.append (hb.append hc)
      simpa using hw _ (hu.apply hps hd paren args)
  · rw [if_neg hm] at ha
    subst ha
    refine (Read.acceptSymbol_quiet _).bind fun dot b hb => .ite (fun hm => ?_) fun hm => ?_
    · rw [if_pos hm] at hb
      refine (Read.expectName_quiet _).bind fun x c hc => (ih.suffixes _).imp fun e' w hw u hu => ?_
      obtain ⟨rfl, hx⟩ := hc
      have := hw _ (hu.property (hb.cons (.single hx)) x)
      simpa only [List.append_assoc, List.nil_append] using this
    · rw [if_neg hm] at hb
      subst hb
      exact .pure fun u hu => by simpa using hu

theorem arguments_succ (ih : ExprYields n) (count : Nat) (acc : List Expr) :
    Yields (Read.arguments (n + 1) count acc) fun _ w =>
      ∃ k, count + k < Read.maxArguments ∧ Derives (listOf .assignment k) w := by
  rw [Read.arguments]
  refine Read.warned_yields (ih.assignment.bind fun arg u => (Read.acceptSymbol_quiet _).bind
    fun more v hv => .ite (fun hm => ?_) fun hm => ?_)
  · rw [if_pos hm] at hv
    refine (ih.arguments _ _).imp fun es w hes ha _ => ?_
    obtain ⟨k, hk, hd⟩ := hes
    exact ⟨k + 1, by omega, ha.1.cons (hv.cons hd)⟩
  · rw [if_neg hm] at hv
    subst hv
    refine .pure fun ha hlt => ⟨0, by omega, ?_⟩
    rw [List.append_nil, List.append_nil]
    exact ha.1

theorem literal_yields {t : Token} {v : Literal} {c : Terminal} (h : Rule .primary [token c])
    (hc : c.has t = true) : YieldsAt t (do Read.skip; return .literal v) fun e w =>
      Derives [.primary] w ∧ Spelled e w :=
  Read.skip_yields (.pure ⟨.of_rule h (.single hc), trivial⟩)

theorem primary_succ (ih : ExprYields n) :
    Yields (Read.primary (n + 1)) fun e w => Derives [.primary] w ∧ Spelled e w := by
  rw [Read.primary]
  refine Read.site_yields (fun pos => (Read.fail_quiet _).yields) fun t => ?_
  have hword : ∀ k, t.kind = .keyword k → (Terminal.keyword k).has t = true := by
    intro k hk
    simp [Terminal.has, Token.isKeyword, hk]
  dsimp only
  split
  · next hk => exact literal_yields (.primary (by simp)) (hword _ hk)
  · next hk => exact literal_yields (.primary (by simp)) (hword _ hk)
  · next hk => exact literal_yields (.primary (by simp)) (hword _ hk)
  · next hk => exact literal_yields (c := .number) (.primary (by simp)) (by simp [Terminal.has, hk])
  · next hk => exact literal_yields (c := .string) (.primary (by simp)) (by simp [Terminal.has, hk])
  · next hk =>
    refine Read.skip_yields ((Read.refer_quiet t).bind fun ref u hu => .pure ⟨?_, trivial⟩)
    subst hu
    exact .of_rule (.primary (by simp)) (.single (hword _ hk))
  · next hk =>
    refine Read.skip_yields ((Read.refer_quiet t).bind fun ref u hu => .pure ?_)
    subst hu
    have ht : Derives [name] [t] := .single (by simp [Terminal.has, Token.isIdentifier, hk])
    exact ⟨.of_rule (.primary (by simp)) ht, ht⟩
  · next hk =>
    refine Read.skip_yields ((Read.expectSymbol_quiet _ _).bind fun _ u hu => ?_)
    refine (Read.expectName_quiet _).bind fun m v hv => ?_
    refine (Read.refer_quiet t).bind fun ref w hw => .pure ?_
    obtain ⟨rfl, hm⟩ := hv
    subst hw
    have ht : Derives [word .super] [t] := .single (hword _ hk)
    exact ⟨.of_rule .inherited (ht.cons (hu.cons (.single hm))),
      ht.cons (hu.cons (.single (by simp [Terminal.has, hm])))⟩
  · next hk =>
    refine Read.skip_yields (ih.expression.bind fun inner u => ?_)
    refine (Read.expectSymbol_quiet _ _).bind fun _ v hv => .pure fun hu => ⟨?_, trivial⟩
    have ht : Derives [sym .leftParen] [t] := .single (by simp [Terminal.has, Token.isSymbol, hk])
    rw [List.append_nil]
    exact .of_rule .grouping (ht.cons (hu.1.cons hv))
  · exact (Read.fail_quiet _).yields.toAt t

end ExprYields

/-- The grammar of expressions is followed. -/
theorem exprYields (n : Nat) : ExprYields n := by
  induction n with
  | zero =>
    refine ⟨?_, ?_, ?_, ?_, ?_, ?_, ?_, ?_, ?_, ?_⟩
    all_goals intros; exact .exhausted
  | succ n ih =>
    exact ⟨ih.expression_succ, ih.parts_succ, ih.assignment_succ, ih.ternary_succ,
      ih.operators_succ, ih.operatorsAfter_succ, ih.unary_succ, ih.suffixes_succ,
      ih.arguments_succ, ih.primary_succ⟩

end Treewalk
