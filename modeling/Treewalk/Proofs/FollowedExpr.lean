import Treewalk.Proofs.Grammar
import Treewalk.Proofs.Steps

/-!
# Expressions of the grammar are read

`Takes p w rest Q` is the rule for the parts of the grammar: of the tokens `w ++ rest` ahead, `p`
takes exactly `w` and reports nothing, unless it runs out of steps. Reading is greedy, so what it
takes depends on the token after `w`. `Token.rank` says how loosely a token binds what is before it,
by the numbers that `Steps` counts with: an expression of depth `k` ends before a token of a rank
above `k` (`Stops`).
-/

namespace Treewalk
open Grammar Grammar.Phrase

/-! ### Rules for parts of the grammar -/

/-- Reading `p` takes the tokens `w` before `rest` and reports nothing, if the steps last. -/
def Takes {α : Type} (p : Read α) (w rest : List Token) (Q : α → Prop) : Prop :=
  ∀ stop id faults,
    (∃ x id', p ⟨w ++ rest, stop, id, faults⟩ = .ok x ⟨rest, stop, id', faults⟩ ∧ Q x) ∨
      ∃ r, p ⟨w ++ rest, stop, id, faults⟩ = .error .exhausted r

namespace Takes
variable {α β : Type} {p : Read α} {u v w rest : List Token} {P Q : α → Prop}

theorem pure {x : α} (h : Q x) : Takes (pure x) [] rest Q := fun _ id _ => .inl ⟨x, id, rfl, h⟩

theorem exhausted : Takes (throw .exhausted : Read α) w rest Q := fun _ _ _ => .inr ⟨_, rfl⟩

theorem bind {f : α → Read β} {Q : β → Prop} (hp : Takes p u (v ++ rest) P)
    (hf : ∀ x, P x → Takes (f x) v rest Q) : Takes (p >>= f) (u ++ v) rest Q := by
  intro stop id faults
  rw [List.append_assoc]
  rcases hp stop id faults with ⟨x, id', hx, hP⟩ | ⟨r, hr⟩
  · rw [Read.bind_ok hx]
    exact hf x hP stop id' faults
  · exact .inr ⟨r, Read.bind_error hr⟩

/-- A part after which nothing is taken. -/
theorem andThen {f : α → Read β} {Q : β → Prop} (hp : Takes p w rest P)
    (hf : ∀ x, P x → Takes (f x) [] rest Q) : Takes (p >>= f) w rest Q := by
  rw [← List.append_nil w]
  exact hp.bind hf

/-- A part that takes nothing. -/
theorem before {f : α → Read β} {Q : β → Prop} (hp : Takes p [] (w ++ rest) P)
    (hf : ∀ x, P x → Takes (f x) w rest Q) : Takes (p >>= f) w rest Q :=
  hp.bind (u := []) hf

theorem imp (hp : Takes p w rest P) (h : ∀ x, P x → Q x) : Takes p w rest Q := by
  intro stop id faults
  rcases hp stop id faults with ⟨x, id', hx, hP⟩ | hr
  · exact .inl ⟨x, id', hx, h x hP⟩
  · exact .inr hr

theorem map {g : α → β} {Q : β → Prop} (hp : Takes p w rest P) (h : ∀ x, P x → Q (g x)) :
    Takes (g <$> p) w rest Q := by
  rw [map_eq_pure_bind]
  exact hp.andThen fun x hx => .pure (h x hx)

end Takes

/-- The token ahead, if there is one, is not as `p` says. -/
def Avoids (p : Token → Bool) (l : List Token) : Prop := l.head?.any p = false

/-- There is a token ahead, and it is as `p` says. -/
def Begins (p : Token → Bool) (l : List Token) : Prop := ∃ t u, l = t :: u ∧ p t = true

theorem Begins.append {p : Token → Bool} {u : List Token} (h : Begins p u) (v : List Token) :
    Begins p (u ++ v) := by
  obtain ⟨t, u, rfl, ht⟩ := h
  exact ⟨t, u ++ v, rfl, ht⟩

theorem Begins.imp {p q : Token → Bool} {l : List Token} (h : Begins p l)
    (hpq : ∀ t, p t = true → q t = true) : Begins q l := by
  obtain ⟨t, u, rfl, ht⟩ := h
  exact ⟨t, u, rfl, hpq t ht⟩

theorem Begins.avoids {p q : Token → Bool} {l : List Token} (h : Begins p l)
    (hpq : ∀ t, p t = true → q t = false) : Avoids q l := by
  obtain ⟨t, u, rfl, ht⟩ := h
  exact hpq t ht

namespace Read
variable {α : Type} {t : Token} {w rest : List Token} {Q : α → Prop}

theorem accept_cons {p : Token → Bool} {f : Option Token → Read α} (h : p t = true)
    (hf : Takes (f (some t)) w rest Q) : Takes (accept p >>= f) (t :: w) rest Q := by
  refine Takes.bind (u := [t]) (P := fun o => o = some t) (fun stop id faults => ?_) fun o ho => ?_
  · refine .inl ⟨some t, id, ?_, rfl⟩
    show (if p t = true then _ else _) = _
    rw [if_pos h]
    rfl
  · rw [ho]
    exact hf

theorem accept_pass {p : Token → Bool} {f : Option Token → Read α} (h : Avoids p (w ++ rest))
    (hf : Takes (f none) w rest Q) : Takes (accept p >>= f) w rest Q := by
  refine Takes.before (P := fun o => o = none) (fun stop id faults => ?_) fun o ho => ?_
  · refine .inl ⟨none, id, ?_, rfl⟩
    rw [List.nil_append]
    cases hl : w ++ rest with
    | nil => rfl
    | cons t ts =>
      have ht : ¬p t = true := by
        rw [hl] at h
        exact Bool.eq_false_iff.1 h
      show (if p t = true then _ else _) = _
      rw [if_neg ht]
  · rw [ho]
    exact hf

theorem acceptSymbol_cons {s : Symbol} {f : Bool → Read α} (h : t.isSymbol s = true)
    (hf : Takes (f true) w rest Q) : Takes (acceptSymbol s >>= f) (t :: w) rest Q := by
  rw [acceptSymbol, bind_assoc]
  exact accept_cons (p := fun t => t.isSymbol s) h (by simpa using hf)

theorem acceptSymbol_pass {s : Symbol} {f : Bool → Read α} (h : Avoids (·.isSymbol s) (w ++ rest))
    (hf : Takes (f false) w rest Q) : Takes (acceptSymbol s >>= f) w rest Q := by
  rw [acceptSymbol, bind_assoc]
  exact accept_pass h (by simpa using hf)

theorem acceptKeyword_cons {k : Keyword} {f : Bool → Read α} (h : t.isKeyword k = true)
    (hf : Takes (f true) w rest Q) : Takes (acceptKeyword k >>= f) (t :: w) rest Q := by
  rw [acceptKeyword, bind_assoc]
  exact accept_cons (p := fun t => t.isKeyword k) h (by simpa using hf)

theorem acceptKeyword_pass {k : Keyword} {f : Bool → Read α}
    (h : Avoids (·.isKeyword k) (w ++ rest)) (hf : Takes (f false) w rest Q) :
    Takes (acceptKeyword k >>= f) w rest Q := by
  rw [acceptKeyword, bind_assoc]
  exact accept_pass h (by simpa using hf)

theorem expect_cons {p : Token → Bool} {e : ReadingFault} {f : Token → Read α} (h : p t = true)
    (hf : Takes (f t) w rest Q) : Takes (expect p e >>= f) (t :: w) rest Q := by
  rw [expect, bind_assoc]
  exact accept_cons h (by simpa using hf)

theorem expectSymbol_cons {s : Symbol} {e : ReadingFault} {f : Token → Read α}
    (h : t.isSymbol s = true) (hf : Takes (f t) w rest Q) :
    Takes (expectSymbol s e >>= f) (t :: w) rest Q :=
  expect_cons h hf

theorem expectName_cons {e : ReadingFault} {f : Token → Read α} (h : t.isIdentifier = true)
    (hf : Takes (f t) w rest Q) : Takes (expectName e >>= f) (t :: w) rest Q :=
  expect_cons h hf

theorem ahead_takes {p : Token → Bool} {f : Bool → Read α} {b : Bool}
    (h : (w ++ rest).head?.any p = b) (hf : Takes (f b) w rest Q) :
    Takes (ahead p >>= f) w rest Q := by
  refine Takes.before (P := fun x => x = b) (fun stop id faults => ?_) fun x hx => ?_
  · exact .inl ⟨b, id, by rw [← h]; rfl, rfl⟩
  · rw [hx]
    exact hf

theorem atEnd_takes {f : Bool → Read α} {b : Bool} (h : (w ++ rest).isEmpty = b)
    (hf : Takes (f b) w rest Q) : Takes (atEnd >>= f) w rest Q := by
  refine Takes.before (P := fun x => x = b) (fun stop id faults => ?_) fun x hx => ?_
  · exact .inl ⟨b, id, by rw [← h]; rfl, rfl⟩
  · rw [hx]
    exact hf

theorem site_takes {f : Site → Read α} (hf : Takes (f (.token t)) (t :: w) rest Q) :
    Takes (site >>= f) (t :: w) rest Q := by
  refine Takes.before (P := fun x => x = .token t) (fun stop id faults => ?_) fun x hx => ?_
  · exact .inl ⟨.token t, id, rfl, rfl⟩
  · rw [hx]
    exact hf

theorem skip_takes {f : Unit → Read α} (hf : Takes (f ()) w rest Q) :
    Takes (skip >>= f) (t :: w) rest Q :=
  Takes.bind (u := [t]) (P := fun _ => True) (fun _ id _ => .inl ⟨(), id, rfl, trivial⟩)
    fun _ _ => hf

theorem refer_takes {f : Ref → Read α} (hf : ∀ ref, Takes (f ref) w rest Q) :
    Takes (refer t >>= f) w rest Q :=
  Takes.before (P := fun _ => True) (fun _ id _ => .inl ⟨⟨id, t⟩, id + 1, rfl, trivial⟩)
    fun ref _ => hf ref

end Read

/-! ### Tokens that start and end expressions -/

namespace Token

/-- How loosely a token binds what is before it; more than all if it does not go on with it. -/
def rank (t : Token) : Nat :=
  match t.kind with
  | .symbol .leftParen | .symbol .dot => 2
  | .symbol .slash | .symbol .star | .symbol .percent => 3
  | .symbol .plus | .symbol .minus => 4
  | .symbol .greater | .symbol .greaterEqual | .symbol .less | .symbol .lessEqual => 5
  | .symbol .bangEqual | .symbol .equalEqual => 6
  | .keyword .and => 7
  | .keyword .or => 8
  | .symbol .question => 9
  | .symbol .equal | .symbol .plusEqual | .symbol .minusEqual | .symbol .starEqual
  | .symbol .slashEqual | .symbol .percentEqual => 10
  | .symbol .comma => 11
  | _ => 12

/-- Whether a token starts a primary expression. -/
def startsPrimary (t : Token) : Bool :=
  match t.kind with
  | .symbol s => s == .leftParen
  | .keyword k => [Keyword.true, .false, .nil, .this, .super].contains k
  | .number _ | .string _ | .identifier _ => true

/-- Whether a token starts an expression. -/
def startsExpr (t : Token) : Bool := t.startsPrimary || Read.isUnaryOp t

variable {t : Token}

theorem kind_of_isSymbol {s : Symbol} (h : t.isSymbol s = true) : t.kind = .symbol s := eq_of_beq h

theorem kind_of_isKeyword {k : Keyword} (h : t.isKeyword k = true) : t.kind = .keyword k :=
  eq_of_beq h

theorem kind_of_isIdentifier (h : t.isIdentifier = true) : ∃ x, t.kind = .identifier x := by
  obtain ⟨kind, lexeme, pos, file⟩ := t
  cases kind with
  | identifier x => exact ⟨x, rfl⟩
  | _ => cases h

theorem kind_of_number (h : Terminal.has .number t = true) : ∃ x, t.kind = .number x := by
  obtain ⟨kind, lexeme, pos, file⟩ := t
  cases kind with
  | number x => exact ⟨x, rfl⟩
  | _ => cases h

theorem kind_of_string (h : Terminal.has .string t = true) : ∃ x, t.kind = .string x := by
  obtain ⟨kind, lexeme, pos, file⟩ := t
  cases kind with
  | string x => exact ⟨x, rfl⟩
  | _ => cases h

theorem rank_of_takes {l : Level} (h : l.takes t = true) : t.rank = l.depth := by
  have hrank : (!l.takes t || t.rank == l.depth) = true := by
    obtain ⟨kind, lexeme, pos, file⟩ := t
    cases kind with
    | symbol s => cases l <;> cases s <;> rfl
    | keyword k => cases l <;> cases k <;> rfl
    | _ => cases l <;> rfl
  rw [h] at hrank
  exact eq_of_beq hrank

theorem rank_of_isAssignOp (h : Read.isAssignOp t = true) : t.rank = 10 := by
  obtain ⟨op, hop, ht⟩ := isAssignOp_iff.1 h
  rw [rank, kind_of_isSymbol ht]
  simp only [Phrase.assigning, List.mem_cons, List.not_mem_nil, or_false] at hop
  rcases hop with rfl | rfl | rfl | rfl | rfl | rfl <;> rfl

end Token

/-- What is ahead does not go on with an expression of depth `k`. -/
def Stops (k : Nat) (l : List Token) : Prop := ∀ t ∈ l.head?, k < t.rank

namespace Stops
variable {k j : Nat} {l : List Token}

theorem mono (h : Stops k l) (hjk : j ≤ k) : Stops j l := fun t ht =>
  Nat.lt_of_le_of_lt hjk (h t ht)

theorem cons {t : Token} (h : k < t.rank) : Stops k (t :: l) := fun t' ht' => by
  cases ht'
  exact h

theorem avoids {p : Token → Bool} (h : Stops k l) (hp : ∀ t, p t = true → t.rank ≤ k) :
    Avoids p l := by
  cases l with
  | nil => rfl
  | cons t ts =>
    refine Bool.eq_false_iff.2 fun ht => ?_
    have := h t rfl
    have := hp t ht
    omega

theorem avoids_symbol {s : Symbol} (h : Stops k l)
    (hs : ∀ t : Token, t.kind = .symbol s → t.rank ≤ k) : Avoids (·.isSymbol s) l :=
  h.avoids fun t ht => hs t (Token.kind_of_isSymbol ht)

end Stops

/-! ### Expressions -/

/-- The tokens are an expression of depth `k`, which `p` reads. -/
def Taken (p : Nat → Read Expr) (k : Nat) (w : List Token) : Prop :=
  Begins Token.startsExpr w ∧ ∀ n rest, Stops k rest → Takes (p n) w rest fun _ => True

/-- The tokens are a primary expression with suffixes, to which more can be added. -/
def TakenCall (w : List Token) : Prop :=
  Begins Token.startsPrimary w ∧ ∀ n (v rest : List Token) (Q : Expr → Prop),
    (∀ m e, Takes (Read.suffixes m e) v rest Q) → Takes (Read.unary n) (w ++ v) rest Q

/-- The tokens are a suffix. -/
def TakenSuffix (w : List Token) : Prop :=
  ∀ n e (v rest : List Token) (Q : Expr → Prop),
    (∀ m e', Takes (Read.suffixes m e') v rest Q) → Takes (Read.suffixes n e) (w ++ v) rest Q

/-- The tokens are arguments. -/
def TakenArguments (w : List Token) : Prop :=
  Begins Token.startsExpr w ∧
    ∀ n rest, Stops 11 rest → Takes (Read.arguments n 0 []) w rest fun _ => True

/-- The tokens are a primary expression. -/
def TakenPrimary (w : List Token) : Prop :=
  Begins Token.startsPrimary w ∧ ∀ n rest, Takes (Read.primary n) w rest fun _ => True

namespace Read
variable {w rest : List Token} {P : Expr → Prop}

theorem suffixes_stop {e : Expr} (n : Nat) (hr : Stops 2 rest) (h : P e) :
    Takes (suffixes n e) [] rest P := by
  cases n with
  | zero => exact .exhausted
  | succ n =>
    rw [suffixes]
    refine acceptSymbol_pass (hr.avoids_symbol fun t ht => by simp [Token.rank, ht]) ?_
    exact acceptSymbol_pass (hr.avoids_symbol fun t ht => by simp [Token.rank, ht]) (.pure h)

theorem operatorsAfter_stop {l : Level} {e : Expr} (n : Nat) (hr : Stops l.depth rest) (h : P e) :
    Takes (operatorsAfter n l e) [] rest P := by
  cases n with
  | zero => exact .exhausted
  | succ n =>
    rw [operatorsAfter]
    exact accept_pass (hr.avoids fun t ht => Nat.le_of_eq (Token.rank_of_takes ht)) (.pure h)

/-- What is read as a unary expression is read the same at every looser level. -/
theorem operators_of_unary (hw : ∀ n rest, Stops 2 rest → Takes (unary n) w rest P) (n : Nat)
    (l : Level) (hr : Stops l.depth rest) : Takes (operators n l) w rest P := by
  induction n generalizing l with
  | zero => exact .exhausted
  | succ n ih =>
    rw [operators]
    split
    · next l' hl =>
      have := Level.depth_tighter hl
      exact (ih l' (hr.mono (by omega))).andThen fun e he => operatorsAfter_stop n hr he
    · have := l.depth_bounds
      exact (hw n rest (hr.mono (by omega))).andThen fun e he => operatorsAfter_stop n hr he

theorem ternary_of_unary (hw : ∀ n rest, Stops 2 rest → Takes (unary n) w rest P) (n : Nat)
    (hr : Stops 9 rest) : Takes (ternary n) w rest P := by
  cases n with
  | zero => exact .exhausted
  | succ n =>
    rw [ternary]
    refine (operators_of_unary hw n .or (hr.mono (by decide))).andThen fun e he => ?_
    exact acceptSymbol_pass (hr.avoids_symbol fun t ht => by simp [Token.rank, ht]) (.pure he)

theorem assignment_of_ternary {n : Nat} (hw : Takes (ternary n) w rest P) (hr : Stops 10 rest) :
    Takes (assignment (n + 1)) w rest P := by
  rw [assignment]
  refine hw.andThen fun e he => accept_pass (hr.avoids fun t ht => ?_) (.pure he)
  exact Nat.le_of_eq (Token.rank_of_isAssignOp ht)

theorem expression_of_assignment {n : Nat} (hw : Takes (assignment n) w rest P)
    (hr : Stops 11 rest) : Takes (expression (n + 1)) w rest P := by
  rw [expression]
  refine hw.andThen fun e he => ahead_takes (b := false) ?_ (.pure he)
  exact hr.avoids_symbol fun t ht => by simp [Token.rank, ht]

theorem expression_of_unary (hw : ∀ n rest, Stops 2 rest → Takes (unary n) w rest P) (n : Nat)
    (hr : Stops 11 rest) : Takes (expression n) w rest P := by
  cases n with
  | zero => exact .exhausted
  | succ n =>
    refine expression_of_assignment ?_ hr
    cases n with
    | zero => exact .exhausted
    | succ n =>
      have hternary := ternary_of_unary hw n (hr.mono (by decide))
      exact assignment_of_ternary hternary (hr.mono (by decide))

end Read

/-- How the tokens of a phrase of expressions are read. -/
def FollowsExpr : Phrase → List Token → Prop
  | .token c, w => ∃ t, w = [t] ∧ c.has t = true
  | .expression, w => Taken Read.expression 11 w
  | .assignment, w => Taken Read.assignment 10 w
  | .ternary, w => Taken Read.ternary 9 w
  | .logicOr, w => Taken (Read.operators · .or) 8 w
  | .logicAnd, w => Taken (Read.operators · .and) 7 w
  | .equality, w => Taken (Read.operators · .equality) 6 w
  | .comparison, w => Taken (Read.operators · .comparison) 5 w
  | .term, w => Taken (Read.operators · .term) 4 w
  | .factor, w => Taken (Read.operators · .factor) 3 w
  | .unary, w => Taken Read.unary 2 w
  | .call, w => TakenCall w
  | .suffix, w => TakenSuffix w
  | .arguments, w => TakenArguments w
  | .primary, w => TakenPrimary w
  | _, _ => True

theorem followsExpr_phrase {l : Level} {w : List Token} :
    FollowsExpr l.phrase w ↔ Taken (Read.operators · l) l.depth w := by
  cases l <;> exact Iff.rfl

namespace FollowsExpr
variable {w : List Token}

/-- What follows a list of assignments does not go on with the first one. -/
theorem stops_parts {k : Nat} {rest : List Token} (hr : Stops 11 rest)
    (h : Row FollowsExpr (List.replicate k [sym .comma, .assignment]).flatten w) :
    Stops 10 (w ++ rest) := by
  cases k with
  | zero =>
    obtain rfl : w = [] := h
    exact hr.mono (by decide)
  | succ k =>
    obtain ⟨_, _, rfl, ⟨t, rfl, ht⟩, -⟩ := h
    exact .cons (by simp [Token.rank, Token.kind_of_isSymbol ht])

theorem parts {k : Nat} {rest : List Token} (n : Nat) (acc : List Expr) (hr : Stops 11 rest)
    (h : Row FollowsExpr (List.replicate k [sym .comma, .assignment]).flatten w) :
    Takes (Read.parts n acc) w rest fun _ => True := by
  induction n generalizing k w acc with
  | zero => exact .exhausted
  | succ n ih =>
    rw [Read.parts]
    cases k with
    | zero =>
      obtain rfl : w = [] := h
      refine Read.acceptSymbol_pass (hr.avoids_symbol fun t ht => ?_) (.pure trivial)
      simp [Token.rank, ht]
    | succ k =>
      obtain ⟨_, _, rfl, ⟨t, rfl, ht⟩, u, v, rfl, hu, hv⟩ := h
      refine Read.acceptSymbol_cons ht ?_
      exact (hu.2 n _ (stops_parts hr hv)).bind fun e _ => ih _ hv

theorem expression {k : Nat} (h : Row FollowsExpr (listOf .assignment k) w) :
    FollowsExpr .expression w := by
  obtain ⟨u, v, rfl, hu, hv⟩ := h
  refine ⟨hu.1.append v, fun n rest hr => ?_⟩
  cases n with
  | zero => exact .exhausted
  | succ n =>
    cases k with
    | zero =>
      obtain rfl : v = [] := hv
      rw [List.append_nil]
      exact Read.expression_of_assignment (hu.2 n rest (hr.mono (by decide))) hr
    | succ k =>
      rw [Read.expression]
      refine (hu.2 n _ (stops_parts hr hv)).bind fun e _ => ?_
      refine Read.ahead_takes (b := true) ?_ ?_
      · obtain ⟨_, _, rfl, ⟨t, rfl, ht⟩, -⟩ := hv
        exact ht
      · exact (parts n [e] hr hv).andThen fun es _ => .pure trivial

theorem value (h : FollowsExpr .ternary w) : FollowsExpr .assignment w := by
  refine ⟨h.1, fun n rest hr => ?_⟩
  cases n with
  | zero => exact .exhausted
  | succ n => exact Read.assignment_of_ternary (h.2 n rest (hr.mono (by decide))) hr

/-- An assignment, given how its target is read. -/
theorem assigned {u v : List Token} {t : Token} {s : Symbol} {P : Expr → Prop}
    (hs : s ∈ assigning) (ht : t.isSymbol s = true) (hbegin : Begins Token.startsExpr u)
    (hu : ∀ n rest, Stops 2 rest → Takes (Read.unary n) u rest P)
    (hP : ∀ target op value rest, P target →
      Takes (Read.assigned target op value) [] rest fun _ => True)
    (hv : FollowsExpr .assignment v) : FollowsExpr .assignment (u ++ (t :: v)) := by
  have hop : Read.isAssignOp t = true := isAssignOp_iff.2 ⟨s, hs, ht⟩
  refine ⟨hbegin.append _, fun n rest hr => ?_⟩
  cases n with
  | zero => exact .exhausted
  | succ n =>
    rw [Read.assignment]
    have hstop : Stops 9 (t :: v ++ rest) := .cons (by rw [Token.rank_of_isAssignOp hop]; decide)
    refine (Read.ternary_of_unary hu n hstop).bind fun target htarget => Read.accept_cons hop ?_
    exact (hv.2 n rest hr).andThen fun value _ => hP target t value rest htarget

theorem ternary {branches : List Phrase} {u v : List Token} (hu : FollowsExpr .logicOr u)
    (hb : Maybe [sym .question, .expression, sym .colon, .ternary] branches)
    (hv : Row FollowsExpr branches v) : FollowsExpr .ternary (u ++ v) := by
  refine ⟨hu.1.append v, fun n rest hr => ?_⟩
  cases n with
  | zero => exact .exhausted
  | succ n =>
    rw [Read.ternary]
    rcases hb with rfl | rfl
    · obtain rfl : v = [] := hv
      rw [List.append_nil]
      refine (hu.2 n rest (hr.mono (by decide))).andThen fun e _ => ?_
      exact Read.acceptSymbol_pass (hr.avoids_symbol fun t ht => by simp [Token.rank, ht])
        (.pure trivial)
    · obtain ⟨_, _, rfl, ⟨q, rfl, hq⟩, yes, _, rfl, hy, _, _, rfl, ⟨c, rfl, hc⟩, no, _, rfl,
        hn, rfl⟩ := hv
      have hqr : 8 < q.rank := by simp [Token.rank, Token.kind_of_isSymbol hq]
      have hcr : 11 < c.rank := by simp [Token.rank, Token.kind_of_isSymbol hc]
      simp only [List.cons_append, List.nil_append, List.append_nil]
      refine (hu.2 n _ (.cons hqr)).bind fun e _ => Read.acceptSymbol_cons hq ?_
      refine (hy.2 n _ (.cons hcr)).bind fun e' _ => Read.expectSymbol_cons hc ?_
      exact (hn.2 n rest hr).andThen fun e'' _ => .pure trivial

theorem stops_operators {l : Level} {os : List Terminal} {k : Nat} {rest : List Token}
    (hk : k < l.depth) (ho : ∀ o ∈ os, o ∈ l.ops) (hr : Stops l.depth rest)
    (h : Row FollowsExpr (os.flatMap fun o => [.token o, l.operand]) w) : Stops k (w ++ rest) := by
  cases os with
  | nil =>
    obtain rfl : w = [] := h
    exact hr.mono (Nat.le_of_lt hk)
  | cons o os =>
    obtain ⟨_, _, rfl, ⟨t, rfl, ht⟩, -⟩ := h
    have htakes : l.takes t = true := Level.takes_iff.2 ⟨o, ho o (by simp), ht⟩
    exact .cons (by rw [Token.rank_of_takes htakes]; exact hk)

theorem operatorsAfter {l : Level} {os : List Terminal} {rest : List Token} (n : Nat) (left : Expr)
    (ho : ∀ o ∈ os, o ∈ l.ops) (hr : Stops l.depth rest)
    (h : Row FollowsExpr (os.flatMap fun o => [.token o, l.operand]) w) :
    Takes (Read.operatorsAfter n l left) w rest fun _ => True := by
  induction n generalizing os left w with
  | zero => exact .exhausted
  | succ n ih =>
    cases os with
    | nil =>
      obtain rfl : w = [] := h
      exact Read.operatorsAfter_stop (n + 1) hr trivial
    | cons o os =>
      obtain ⟨_, _, rfl, ⟨t, rfl, ht⟩, u, v, rfl, hu, hv⟩ := h
      obtain ⟨ho, hos⟩ := List.forall_mem_cons.1 ho
      rw [Read.operatorsAfter]
      refine Read.accept_cons (Level.takes_iff.2 ⟨o, ho, ht⟩) ?_
      have hl := l.depth_bounds
      dsimp only [List.nil_append]
      split
      · next l' hl' =>
        rw [Level.operand_some hl', followsExpr_phrase] at hu
        have := Level.depth_tighter hl'
        exact (hu.2 n _ (stops_operators (by omega) hos hr hv)).bind fun e _ => ih _ hos hv
      · next hl' =>
        rw [Level.operand_none hl'] at hu
        exact (hu.2 n _ (stops_operators (by omega) hos hr hv)).bind fun e _ => ih _ hos hv

theorem operators {l : Level} {os : List Terminal} (ho : ∀ o ∈ os, o ∈ l.ops)
    (h : Row FollowsExpr (l.operand :: os.flatMap fun o => [.token o, l.operand]) w) :
    FollowsExpr l.phrase w := by
  obtain ⟨u, v, rfl, hu, hv⟩ := h
  have hl := l.depth_bounds
  rw [followsExpr_phrase]
  have hbegin : Begins Token.startsExpr u := by
    unfold Level.operand at hu
    split at hu
    · exact (followsExpr_phrase.1 hu).1
    · exact hu.1
  refine ⟨hbegin.append v, fun n rest hr => ?_⟩
  cases n with
  | zero => exact .exhausted
  | succ n =>
    dsimp only
    rw [Read.operators]
    split
    · next l' hl' =>
      rw [Level.operand_some hl', followsExpr_phrase] at hu
      have := Level.depth_tighter hl'
      exact (hu.2 n _ (stops_operators (by omega) ho hr hv)).bind fun e _ =>
        operatorsAfter n e ho hr hv
    · next hl' =>
      rw [Level.operand_none hl'] at hu
      exact (hu.2 n _ (stops_operators (by omega) ho hr hv)).bind fun e _ =>
        operatorsAfter n e ho hr hv

theorem unary {t : Token} (ht : Read.isUnaryOp t = true) (h : FollowsExpr .unary w) :
    FollowsExpr .unary (t :: w) := by
  refine ⟨⟨t, w, rfl, by simp [Token.startsExpr, ht]⟩, fun n rest hr => ?_⟩
  cases n with
  | zero => exact .exhausted
  | succ n =>
    rw [Read.unary]
    exact Read.accept_cons ht ((h.2 n rest hr).andThen fun e _ => .pure trivial)

theorem operand (h : FollowsExpr .call w) : FollowsExpr .unary w := by
  refine ⟨h.1.imp fun t ht => by simp [Token.startsExpr, ht], fun n rest hr => ?_⟩
  rw [← List.append_nil w]
  exact h.2 n [] rest _ fun m e => Read.suffixes_stop m hr trivial

theorem suffixes {k : Nat} (h : Row FollowsExpr (List.replicate k .suffix) w) :
    TakenSuffix w := by
  induction k generalizing w with
  | zero =>
    obtain rfl : w = [] := h
    exact fun n e v rest Q hQ => hQ n e
  | succ k ih =>
    obtain ⟨u, v, rfl, hu, hv⟩ := h
    intro n e x rest Q hQ
    rw [List.append_assoc]
    exact hu n e _ rest Q fun m e' => ih hv m e' x rest Q hQ

theorem startsPrimary_not_unary {t : Token} (h : t.startsPrimary = true) :
    Read.isUnaryOp t = false := by
  refine Bool.eq_false_iff.2 fun hop => ?_
  obtain ⟨s, hs, ht⟩ := isUnaryOp_iff.1 hop
  rw [Token.startsPrimary, Token.kind_of_isSymbol ht] at h
  simp only [List.mem_cons, List.not_mem_nil, or_false] at hs
  rcases hs with rfl | rfl <;> cases h

/-- A primary expression and what is read as its suffixes. -/
theorem unary_primary {u v rest : List Token} {P Q : Expr → Prop} (n : Nat)
    (hb : Begins Token.startsPrimary u) (hu : ∀ n, Takes (Read.primary n) u (v ++ rest) P)
    (hv : ∀ n e, P e → Takes (Read.suffixes n e) v rest Q) :
    Takes (Read.unary n) (u ++ v) rest Q := by
  cases n with
  | zero => exact .exhausted
  | succ n =>
    rw [Read.unary]
    refine Read.accept_pass ?_ ((hu n).bind fun e he => hv n e he)
    rw [List.append_assoc]
    exact (hb.append _).avoids fun t => startsPrimary_not_unary

theorem call {k : Nat} (h : Row FollowsExpr (.primary :: List.replicate k .suffix) w) :
    FollowsExpr .call w := by
  obtain ⟨u, us, rfl, hu, hus⟩ := h
  refine ⟨hu.1.append us, fun n v rest Q hQ => ?_⟩
  rw [List.append_assoc]
  exact unary_primary n hu.1 (fun n => hu.2 n _) fun n e _ => suffixes hus n e v rest Q hQ

theorem startsExpr_not_symbol {t : Token} {s : Symbol} (h : t.startsExpr = true)
    (hs : s ∉ [.leftParen, .bang, .minus]) : t.isSymbol s = false := by
  refine Bool.eq_false_iff.2 fun ht => hs ?_
  rw [Token.startsExpr, Bool.or_eq_true, isUnaryOp_iff] at h
  rcases h with h | ⟨s', hs', ht'⟩
  · rw [Token.startsPrimary, Token.kind_of_isSymbol ht] at h
    rw [eq_of_beq h]
    exact List.mem_cons_self
  · have := (Token.kind_of_isSymbol ht).symm.trans (Token.kind_of_isSymbol ht')
    cases this
    exact List.mem_cons_of_mem _ hs'

/-- Arguments in parentheses make a call of what is before them. -/
theorem suffixes_apply {args : List Phrase} {a b c v rest : List Token} {Q : Expr → Prop} {e : Expr}
    (n : Nat) (ha : FollowsExpr (sym .leftParen) a) (hargs : Maybe [.arguments] args)
    (hb : Row FollowsExpr args b) (hc : FollowsExpr (sym .rightParen) c)
    (hQ : ∀ m paren as, Takes (Read.suffixes m (.call e paren as)) v rest Q) :
    Takes (Read.suffixes n e) (a ++ (b ++ (c ++ v))) rest Q := by
  obtain ⟨l, rfl, hl⟩ := ha
  obtain ⟨r, rfl, hr⟩ := hc
  cases n with
  | zero => exact .exhausted
  | succ n =>
    rw [Read.suffixes]
    simp only [List.cons_append, List.nil_append]
    refine Read.acceptSymbol_cons hl ?_
    rcases hargs with rfl | rfl
    · obtain rfl : b = [] := hb
      exact Read.ahead_takes (b := true) hr (Read.expectSymbol_cons hr (hQ n r []))
    · obtain ⟨u, _, rfl, hu, rfl⟩ := hb
      rw [List.append_nil]
      have hrank : 11 < r.rank := by simp [Token.rank, Token.kind_of_isSymbol hr]
      refine Read.ahead_takes (b := false) ?_ ?_
      · rw [List.append_assoc]
        exact (hu.1.append _).avoids fun t ht => startsExpr_not_symbol ht (by decide)
      · exact (hu.2 n _ (.cons hrank)).bind fun as _ => Read.expectSymbol_cons hr (hQ n r as)

theorem apply {args : List Phrase} {a b c : List Token} (ha : FollowsExpr (sym .leftParen) a)
    (hargs : Maybe [.arguments] args) (hb : Row FollowsExpr args b)
    (hc : FollowsExpr (sym .rightParen) c) : FollowsExpr .suffix (a ++ (b ++ c)) := by
  intro n e v rest Q hQ
  simp only [List.append_assoc]
  exact suffixes_apply n ha hargs hb hc fun m paren as => hQ m _

/-- A name after a dot makes a property of what is before it. -/
theorem suffixes_property {d x : Token} {v rest : List Token} {Q : Expr → Prop} {e : Expr} (n : Nat)
    (hd : d.isSymbol .dot = true) (hx : x.isIdentifier = true)
    (hQ : ∀ m, Takes (Read.suffixes m (.get e x)) v rest Q) :
    Takes (Read.suffixes n e) (d :: x :: v) rest Q := by
  cases n with
  | zero => exact .exhausted
  | succ n =>
    rw [Read.suffixes]
    refine Read.acceptSymbol_pass ?_ (Read.acceptSymbol_cons hd (Read.expectName_cons hx (hQ n)))
    simp [Avoids, Token.isSymbol, Token.kind_of_isSymbol hd]

theorem property {d x : Token} (hd : d.isSymbol .dot = true) (hx : x.isIdentifier = true) :
    FollowsExpr .suffix [d, x] :=
  fun n _ _ _ _ hQ => suffixes_property n hd hx fun m => hQ m _

theorem arguments {k : Nat} (hk : k < Read.maxArguments)
    (h : Row FollowsExpr (listOf .assignment k) w) : FollowsExpr .arguments w := by
  have hloop : ∀ n count acc rest, count + k < Read.maxArguments → Stops 11 rest →
      Takes (Read.arguments n count acc) w rest fun _ => True := by
    intro n
    induction n generalizing k w with
    | zero => exact fun _ _ _ _ _ => .exhausted
    | succ n ih =>
      intro count acc rest hcount hr
      rw [Read.arguments, if_neg (by omega)]
      cases k with
      | zero =>
        obtain ⟨u, _, rfl, hu, rfl⟩ := h
        rw [List.append_nil]
        refine (hu.2 n rest (hr.mono (by decide))).andThen fun e _ => ?_
        exact Read.acceptSymbol_pass (hr.avoids_symbol fun t ht => by simp [Token.rank, ht])
          (.pure trivial)
      | succ k =>
        obtain ⟨u, _, rfl, hu, _, v, rfl, ⟨t, rfl, ht⟩, hv⟩ := h
        have hrank : 10 < t.rank := by simp [Token.rank, Token.kind_of_isSymbol ht]
        refine (hu.2 n _ (.cons hrank)).bind fun e _ => Read.acceptSymbol_cons ht ?_
        exact ih (by omega) hv (count + 1) _ rest (by omega) hr
  refine ⟨?_, fun n rest hr => hloop n 0 [] rest (by omega) hr⟩
  obtain ⟨u, v, rfl, hu, -⟩ := h
  exact hu.1.append v

/-- A token that is an expression by itself. -/
theorem single {t : Token} (ht : t.startsPrimary = true) (hsuper : t.isKeyword .super = false)
    (hparen : t.isSymbol .leftParen = false) : FollowsExpr .primary [t] := by
  refine ⟨⟨t, [], rfl, ht⟩, fun n rest => ?_⟩
  cases n with
  | zero => exact .exhausted
  | succ n =>
    rw [Read.primary]
    refine Read.site_takes ?_
    dsimp only
    split
    · exact Read.skip_takes (.pure trivial)
    · exact Read.skip_takes (.pure trivial)
    · exact Read.skip_takes (.pure trivial)
    · exact Read.skip_takes (.pure trivial)
    · exact Read.skip_takes (.pure trivial)
    · exact Read.skip_takes (Read.refer_takes fun ref => .pure trivial)
    · exact Read.skip_takes (Read.refer_takes fun ref => .pure trivial)
    · next hk => simp [Token.isKeyword, hk] at hsuper
    · next hk => simp [Token.isSymbol, hk] at hparen
    · next htrue hfalse hnil hnumber hstring hthis hname hsuper' hparen' =>
      -- No other token starts a primary expression.
      unfold Token.startsPrimary at ht
      split at ht
      · next s hk => exact absurd (eq_of_beq ht ▸ hk) hparen'
      · next k hk => simp_all
      · next x hk => exact absurd hk (hnumber x)
      · next x hk => exact absurd hk (hstring x)
      · next x hk => exact absurd hk (hname x)

theorem token {c : Terminal} (hc : c ∈ [.keyword .true, .keyword .false, .keyword .nil,
    .keyword .this, .number, .string, .identifier]) (h : FollowsExpr (.token c) w) :
    FollowsExpr .primary w := by
  obtain ⟨t, rfl, ht⟩ := h
  have hkind : ∀ kind, t.kind = kind → Token.startsPrimary { t with kind } = true →
      kind ≠ .keyword .super → kind ≠ .symbol .leftParen → FollowsExpr .primary [t] := by
    rintro kind rfl hs hsuper hparen
    exact single hs (beq_eq_false_iff_ne.2 hsuper) (beq_eq_false_iff_ne.2 hparen)
  simp only [List.mem_cons, List.not_mem_nil, or_false] at hc
  rcases hc with rfl | rfl | rfl | rfl | rfl | rfl | rfl
  · exact hkind _ (Token.kind_of_isKeyword ht) rfl (by simp) (by simp)
  · exact hkind _ (Token.kind_of_isKeyword ht) rfl (by simp) (by simp)
  · exact hkind _ (Token.kind_of_isKeyword ht) rfl (by simp) (by simp)
  · exact hkind _ (Token.kind_of_isKeyword ht) rfl (by simp) (by simp)
  · obtain ⟨x, hk⟩ := Token.kind_of_number ht
    exact hkind _ hk rfl (by simp) (by simp)
  · obtain ⟨x, hk⟩ := Token.kind_of_string ht
    exact hkind _ hk rfl (by simp) (by simp)
  · obtain ⟨x, hk⟩ := Token.kind_of_isIdentifier ht
    exact hkind _ hk rfl (by simp) (by simp)

theorem grouping {l r : Token} (hl : l.isSymbol .leftParen = true)
    (hr : r.isSymbol .rightParen = true) (h : FollowsExpr .expression w) :
    FollowsExpr .primary (l :: (w ++ [r])) := by
  have hk := Token.kind_of_isSymbol hl
  have hrank : 11 < r.rank := by simp [Token.rank, Token.kind_of_isSymbol hr]
  refine ⟨⟨l, _, rfl, by simp [Token.startsPrimary, hk]⟩, fun n rest => ?_⟩
  cases n with
  | zero => exact .exhausted
  | succ n =>
    rw [Read.primary]
    refine Read.site_takes ?_
    simp only [hk]
    refine Read.skip_takes ((h.2 n _ (.cons hrank)).bind fun e _ => ?_)
    exact Read.expectSymbol_cons hr (.pure trivial)

/-- A method of the superclass. -/
theorem primary_super {s d m : Token} (hs : s.isKeyword .super = true) (hd : d.isSymbol .dot = true)
    (hm : m.isIdentifier = true) (n : Nat) (rest : List Token) :
    Takes (Read.primary n) [s, d, m] rest fun e => ∃ ref, e = .super ref m := by
  cases n with
  | zero => exact .exhausted
  | succ n =>
    rw [Read.primary]
    refine Read.site_takes ?_
    simp only [Token.kind_of_isKeyword hs]
    refine Read.skip_takes (Read.expectSymbol_cons hd (Read.expectName_cons hm ?_))
    exact Read.refer_takes fun ref => .pure ⟨ref, rfl⟩

theorem startsPrimary_super {s : Token} (hs : s.isKeyword .super = true) :
    s.startsPrimary = true := by
  simp [Token.startsPrimary, Token.kind_of_isKeyword hs]

theorem inherited {s d m : Token} (hs : s.isKeyword .super = true) (hd : d.isSymbol .dot = true)
    (hm : m.isIdentifier = true) : FollowsExpr .primary [s, d, m] :=
  ⟨⟨s, _, rfl, startsPrimary_super hs⟩, fun n rest =>
    (primary_super hs hd hm n rest).imp fun _ _ => trivial⟩

/-! ### Targets of assignments -/

theorem startsPrimary_name {x : Token} (hx : x.isIdentifier = true) : x.startsPrimary = true := by
  obtain ⟨y, hk⟩ := Token.kind_of_isIdentifier hx
  simp [Token.startsPrimary, hk]

/-- A name is read as a variable. -/
theorem unary_name {x : Token} (hx : x.isIdentifier = true) (n : Nat) {rest : List Token}
    (hr : Stops 2 rest) : Takes (Read.unary n) [x] rest fun e => ∃ ref, e = .variable ref := by
  have hprimary : ∀ n, Takes (Read.primary n) [x] rest fun e => ∃ ref, e = .variable ref := by
    intro n
    obtain ⟨y, hk⟩ := Token.kind_of_isIdentifier hx
    cases n with
    | zero => exact .exhausted
    | succ n =>
      rw [Read.primary]
      refine Read.site_takes ?_
      simp only [hk]
      exact Read.skip_takes (Read.refer_takes fun ref => .pure ⟨ref, rfl⟩)
  exact unary_primary (v := []) n ⟨x, [], rfl, startsPrimary_name hx⟩ hprimary
    fun n e he => Read.suffixes_stop n hr he

/-- A property is read as one. -/
theorem unary_property {d x : Token} (h : FollowsExpr .call w) (hd : d.isSymbol .dot = true)
    (hx : x.isIdentifier = true) (n : Nat) {rest : List Token} (hr : Stops 2 rest) :
    Takes (Read.unary n) (w ++ [d, x]) rest fun e => ∃ object, e = .get object x :=
  h.2 n [d, x] rest _ fun m e =>
    suffixes_property m hd hx fun m => Read.suffixes_stop m hr ⟨e, rfl⟩

theorem assignment {target : List Phrase} {s : Symbol} (ht : Maybe [.call, sym .dot] target)
    (hs : s ∈ assigning) (h : Row FollowsExpr (target ++ [Phrase.name, sym s, .assignment]) w) :
    FollowsExpr .assignment w := by
  rcases ht with rfl | rfl
  · obtain ⟨_, _, rfl, ⟨x, rfl, hx⟩, _, _, rfl, ⟨t, rfl, ht⟩, v, _, rfl, hv, rfl⟩ := h
    rw [List.append_nil]
    refine assigned (u := [x]) hs ht ⟨x, [], rfl, ?_⟩ (fun n rest hr => unary_name hx n hr) ?_ hv
    · simp [Token.startsExpr, startsPrimary_name hx]
    · rintro _ op value rest ⟨ref, rfl⟩
      exact .pure trivial
  · obtain ⟨c, _, rfl, hc, _, _, rfl, ⟨d, rfl, hd⟩, _, _, rfl, ⟨x, rfl, hx⟩, _, _, rfl,
      ⟨t, rfl, ht⟩, v, _, rfl, hv, rfl⟩ := h
    have hbegin : Begins Token.startsExpr (c ++ [d, x]) :=
      (hc.1.imp fun t ht => by simp [Token.startsExpr, ht]).append _
    have := assigned hs ht hbegin (fun n rest hr => unary_property hc hd hx n hr) ?_ hv
    · simpa using this
    · rintro _ op value rest ⟨object, rfl⟩
      exact .pure trivial

end FollowsExpr

/-- The rules for expressions are followed. -/
theorem followsExpr_of_rule {p : Phrase} {qs : List Phrase} {w : List Token} (h : Rule p qs)
    (hw : Row FollowsExpr qs w) : FollowsExpr p w := by
  cases h with
  | expression k => exact FollowsExpr.expression hw
  | assignment ht ho => exact FollowsExpr.assignment ht ho hw
  | value =>
    obtain ⟨u, _, rfl, hu, rfl⟩ := hw
    rw [List.append_nil]
    exact FollowsExpr.value hu
  | ternary hb =>
    obtain ⟨u, v, rfl, hu, hv⟩ := hw
    exact FollowsExpr.ternary hu hb hv
  | operators h ho =>
    obtain ⟨l, rfl, rfl, rfl⟩ := Level.of_operators? h
    exact FollowsExpr.operators ho hw
  | unary hs =>
    obtain ⟨_, _, rfl, ⟨t, rfl, ht⟩, u, _, rfl, hu, rfl⟩ := hw
    rw [List.append_nil]
    exact FollowsExpr.unary (isUnaryOp_iff.2 ⟨_, hs, ht⟩) hu
  | operand =>
    obtain ⟨u, _, rfl, hu, rfl⟩ := hw
    rw [List.append_nil]
    exact FollowsExpr.operand hu
  | call k => exact FollowsExpr.call hw
  | apply hargs =>
    obtain ⟨_, _, rfl, hab, c, _, rfl, hc, rfl⟩ := hw.split
    obtain ⟨_, b, rfl, ⟨a, _, rfl, ha, rfl⟩, hb⟩ := hab.split
    simpa using FollowsExpr.apply ha hargs hb hc
  | property =>
    obtain ⟨_, _, rfl, ⟨d, rfl, hd⟩, _, _, rfl, ⟨x, rfl, hx⟩, rfl⟩ := hw
    exact FollowsExpr.property hd hx
  | arguments hk => exact FollowsExpr.arguments hk hw
  | primary hc =>
    obtain ⟨u, _, rfl, hu, rfl⟩ := hw
    rw [List.append_nil]
    exact FollowsExpr.token hc hu
  | grouping =>
    obtain ⟨_, _, rfl, ⟨l, rfl, hl⟩, u, _, rfl, hu, _, _, rfl, ⟨r, rfl, hr⟩, rfl⟩ := hw
    exact FollowsExpr.grouping hl hr hu
  | inherited =>
    obtain ⟨_, _, rfl, ⟨s, rfl, hs⟩, _, _, rfl, ⟨d, rfl, hd⟩, _, _, rfl, ⟨m, rfl, hm⟩, rfl⟩ := hw
    exact FollowsExpr.inherited hs hd hm
  | _ => trivial

/-- Expressions that are derived are read. -/
theorem followsExpr {p : Phrase} {w : List Token} (h : Derives [p] w) : FollowsExpr p w :=
  h.induct (fun _ t ht => ⟨t, rfl, ht⟩) fun _ _ _ hrule hw =>
    followsExpr_of_rule hrule (hw.imp fun _ _ hu => hu.2)

end Treewalk
