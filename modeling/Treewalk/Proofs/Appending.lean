import Treewalk.Proofs.Accepting
import Treewalk.Tree.Source

/-!
# Programs one after the other

Reading looks one token ahead and no further, and a declaration ends with a token of its own, a
semicolon or a brace. Only an `if` asks what comes after it. So if `more` does not start with
`else`, the tokens of a program that is read without a fault and `more` after them are read as that
program and then `more` (`Program.read_append`).

There are two rules for the parts of the grammar, and in both `q` may go more steps than `p`. With
`more` after the tokens ahead, `q` does what `p` does without

* if `p` leaves a token ahead (`Prolongs`): all parts are such;
* if `p` yields a result (`Whole`), also at the end: the parts that end with a token of their own.
-/

namespace Treewalk

/-- The reader with `more` after the tokens ahead. -/
def Reader.before (r : Reader) (more : List Token) : Reader := { r with rest := r.rest ++ more }

/-- The token ahead stays the same if `more` is added. -/
def Reader.Firm (more : List Token) (r : Reader) : Prop := more = [] ∨ r.rest ≠ []

theorem Reader.before_nil (r : Reader) : r.before [] = r := by
  rw [Reader.before, List.append_nil]

namespace Reader.Firm
variable {more : List Token} {r : Reader}

theorem cons {t : Token} {ts : List Token} (h : r.rest = t :: ts) : r.Firm more :=
  .inr (h ▸ List.cons_ne_nil t ts)

theorem head? (h : r.Firm more) : (r.before more).rest.head? = r.rest.head? := by
  rcases h with rfl | h
  · rw [before_nil]
  · obtain ⟨t, ts, ht⟩ := List.exists_cons_of_ne_nil h
    rw [before, ht]
    rfl

theorem isEmpty (h : r.Firm more) : (r.before more).rest.isEmpty = r.rest.isEmpty := by
  rcases h with rfl | h
  · rw [before_nil]
  · obtain ⟨t, ts, ht⟩ := List.exists_cons_of_ne_nil h
    rw [before, ht]
    rfl

theorem site (h : r.Firm more) : (r.before more).site = r.site := by
  obtain ⟨rest, stop, id, faults⟩ := r
  rcases h with rfl | h
  · rw [before_nil]
  · obtain ⟨t, ts, rfl⟩ := List.exists_cons_of_ne_nil h
    rfl

end Reader.Firm

theorem Avoids.append {p : Token → Bool} {l l' : List Token} (h : Avoids p l) (h' : Avoids p l') :
    Avoids p (l ++ l') := by
  cases l with
  | nil => exact h'
  | cons t ts => exact h

namespace Read
variable {α β : Type} {p : Read α} {f : α → Read β} {r r₂ : Reader}

theorem of_bind_ok {y : β} (h : (p >>= f) r = .ok y r₂) :
    ∃ x r₁, p r = .ok x r₁ ∧ f x r₁ = .ok y r₂ := by
  cases hp : p r with
  | ok x r₁ =>
    rw [bind_ok hp] at h
    exact ⟨x, r₁, rfl, h⟩
  | error e r₁ =>
    rw [bind_error hp] at h
    cases h

theorem of_bind_faulty (h : (p >>= f) r = .error .faulty r₂) :
    p r = .error .faulty r₂ ∨ ∃ x r₁, p r = .ok x r₁ ∧ f x r₁ = .error .faulty r₂ := by
  cases hp : p r with
  | ok x r₁ =>
    rw [bind_ok hp] at h
    exact .inr ⟨x, r₁, rfl, h⟩
  | error e r₁ =>
    rw [bind_error hp] at h
    cases h
    exact .inl rfl

end Read

/-! ### Rules for parts of the grammar -/

/-- `p` is told apart from `q` only by the end that `q` does not see. -/
structure Prolongs {α : Type} (more : List Token) (p q : Read α) : Prop where
  ok : ∀ {r x r'}, p r = .ok x r' → r'.Firm more →
    r.Firm more ∧ q (r.before more) = .ok x (r'.before more)
  faulty : ∀ {r r'}, p r = .error .faulty r' → r'.Firm more →
    r.Firm more ∧ q (r.before more) = .error .faulty (r'.before more)

/-- The last part of a declaration, where `more` may come next. -/
structure Rounds {α : Type} (more : List Token) (p q : Read α) : Prop where
  ok : ∀ {r x r'}, p r = .ok x r' → q (r.before more) = .ok x (r'.before more)
  faulty : ∀ {r r'}, p r = .error .faulty r' → r'.Firm more →
    r.Firm more ∧ q (r.before more) = .error .faulty (r'.before more)

/-- A part that takes a token and ends with one of its own. -/
structure Whole {α : Type} (more : List Token) (p q : Read α) : Prop
    extends Rounds more p q where
  firm : ∀ {r x r'}, p r = .ok x r' → r.Firm more

/-- A part that does not look at the tokens. -/
def Blind {α : Type} (more : List Token) (p : Read α) : Prop :=
  ∀ r, ∃ x r', p r = .ok x r' ∧ r'.rest = r.rest ∧ p (r.before more) = .ok x (r'.before more)

section

variable {α β : Type} {more : List Token} {p q p' q' : Read α} {f g : α → Read β}

namespace Blind

theorem pure (x : α) : Blind more (pure x) := fun r => ⟨x, r, rfl, rfl, rfl⟩

theorem bind (hp : Blind more p) (hf : ∀ x, Blind more (f x)) : Blind more (p >>= f) := by
  intro r
  obtain ⟨x, r₁, hx, hr₁, hx'⟩ := hp r
  obtain ⟨y, r₂, hy, hr₂, hy'⟩ := hf x r₁
  exact ⟨y, r₂, (Read.bind_ok hx).trans hy, hr₂.trans hr₁, (Read.bind_ok hx').trans hy'⟩

theorem rounds (hp : Blind more p) : Rounds more p p := by
  constructor
  · intro r x r' h
    obtain ⟨y, r₁, hy, -, hy'⟩ := hp r
    cases hy.symm.trans h
    exact hy'
  · intro r r' h
    obtain ⟨y, r₁, hy, -⟩ := hp r
    cases hy.symm.trans h

theorem prolongs (hp : Blind more p) : Prolongs more p p := by
  refine ⟨fun {r x r'} h hr => ⟨?_, hp.rounds.ok h⟩, hp.rounds.faulty⟩
  obtain ⟨y, r₁, hy, hrest, -⟩ := hp r
  cases hy.symm.trans h
  rwa [Reader.Firm, ← hrest]

end Blind

namespace Prolongs

theorem exhausted : Prolongs more (throw .exhausted) q := by
  constructor
  · intro r x r' h
    cases h
  · intro r r' h
    cases h

theorem pure (x : α) : Prolongs more (pure x) (pure x) := (Blind.pure x).prolongs

theorem bind (hp : Prolongs more p q) (hf : ∀ x, Prolongs more (f x) (g x)) :
    Prolongs more (p >>= f) (q >>= g) := by
  constructor
  · intro r y r₂ h hr
    obtain ⟨x, r₁, hx, hy⟩ := Read.of_bind_ok h
    obtain ⟨hr₁, hg⟩ := (hf x).ok hy hr
    obtain ⟨hr, hq⟩ := hp.ok hx hr₁
    exact ⟨hr, (Read.bind_ok hq).trans hg⟩
  · intro r r₂ h hr
    rcases Read.of_bind_faulty h with h | ⟨x, r₁, hx, hy⟩
    · obtain ⟨hr, hq⟩ := hp.faulty h hr
      exact ⟨hr, Read.bind_error hq⟩
    · obtain ⟨hr₁, hg⟩ := (hf x).faulty hy hr
      obtain ⟨hr, hq⟩ := hp.ok hx hr₁
      exact ⟨hr, (Read.bind_ok hq).trans hg⟩

theorem map {h : α → β} (hp : Prolongs more p q) : Prolongs more (h <$> p) (h <$> q) := by
  rw [map_eq_pure_bind, map_eq_pure_bind]
  exact hp.bind fun _ => .pure _

theorem ite {c : Prop} [Decidable c] (h : Prolongs more p q) (h' : Prolongs more p' q') :
    Prolongs more (if c then p else p') (if c then q else q') := by
  split
  · exact h
  · exact h'

/-- What goes before a part that ends with a token of its own. -/
theorem whole (hp : Prolongs more p q) (hf : ∀ x, Whole more (f x) (g x)) :
    Whole more (p >>= f) (q >>= g) := by
  have hfaulty : Prolongs more (p >>= f) (q >>= g) :=
    hp.bind fun x => ⟨fun hx _ => ⟨(hf x).firm hx, (hf x).ok hx⟩, (hf x).faulty⟩
  refine ⟨⟨?_, hfaulty.faulty⟩, ?_⟩
  · intro r y r₂ h
    obtain ⟨x, r₁, hx, hy⟩ := Read.of_bind_ok h
    obtain ⟨-, hq⟩ := hp.ok hx ((hf x).firm hy)
    exact (Read.bind_ok hq).trans ((hf x).ok hy)
  · intro r y r₂ h
    obtain ⟨x, r₁, hx, hy⟩ := Read.of_bind_ok h
    exact (hp.ok hx ((hf x).firm hy)).1

/-- A part that may be missing. -/
theorem optional {c : Prop} [Decidable c] {x : α} (hp : Prolongs more p q)
    (hf : ∀ x, Prolongs more (f x) (g x)) :
    Prolongs more (if c then f x else p >>= f) (if c then g x else q >>= g) :=
  .ite (hf x) (hp.bind hf)

end Prolongs

namespace Whole

theorem prolongs (h : Whole more p q) : Prolongs more p q :=
  ⟨fun hp _ => ⟨h.firm hp, h.ok hp⟩, h.faulty⟩

theorem exhausted : Whole more (throw .exhausted) q := by
  refine ⟨⟨?_, Prolongs.exhausted.faulty⟩, ?_⟩
  · intro r x r' h
    cases h
  · intro r x r' h
    cases h

theorem bind (hp : Whole more p q) (hf : ∀ x, Rounds more (f x) (g x)) :
    Whole more (p >>= f) (q >>= g) := by
  refine ⟨⟨?_, ?_⟩, ?_⟩
  · intro r y r₂ h
    obtain ⟨x, r₁, hx, hy⟩ := Read.of_bind_ok h
    exact (Read.bind_ok (hp.ok hx)).trans ((hf x).ok hy)
  · intro r r₂ h hr
    rcases Read.of_bind_faulty h with h | ⟨x, r₁, hx, hy⟩
    · obtain ⟨hr, hq⟩ := hp.faulty h hr
      exact ⟨hr, Read.bind_error hq⟩
    · obtain ⟨-, hg⟩ := (hf x).faulty hy hr
      exact ⟨hp.firm hx, (Read.bind_ok (hp.ok hx)).trans hg⟩
  · intro r y r₂ h
    obtain ⟨x, r₁, hx, -⟩ := Read.of_bind_ok h
    exact hp.firm hx

theorem ret {h : α → β} (hp : Whole more p q) :
    Whole more (p >>= fun x => Pure.pure (h x)) (q >>= fun x => Pure.pure (h x)) :=
  hp.bind fun x => (Blind.pure (h x)).rounds

theorem ite {c : Prop} [Decidable c] (h : Whole more p q) (h' : Whole more p' q') :
    Whole more (if c then p else p') (if c then q else q') := by
  split
  · exact h
  · exact h'

/-- A part that may be missing before one that ends with a token of its own. -/
theorem optional {c : Prop} [Decidable c] {x : α} (hp : Prolongs more p q)
    (hf : ∀ x, Whole more (f x) (g x)) :
    Whole more (if c then f x else p >>= f) (if c then g x else q >>= g) :=
  .ite (hf x) (hp.whole hf)

end Whole

end

/-! ### Single steps -/

namespace Read
variable {α β : Type} {more : List Token}

/-- A part that only looks at the token ahead. -/
theorem look_prolongs {h : Reader → α} (hh : ∀ r, r.Firm more → h (r.before more) = h r) :
    Prolongs more (fun r => .ok (h r) r) fun r => .ok (h r) r := by
  constructor
  · intro r x r' he hr
    cases he
    exact ⟨hr, by rw [hh r hr]⟩
  · intro r r' he
    cases he

theorem site_prolongs : Prolongs more site site := look_prolongs fun _ h => h.site

theorem atEnd_prolongs : Prolongs more atEnd atEnd := look_prolongs fun _ h => h.isEmpty

theorem ahead_prolongs (p : Token → Bool) : Prolongs more (ahead p) (ahead p) :=
  look_prolongs fun _ h => by rw [h.head?]

theorem refer_blind (name : Token) : Blind more (refer name) := fun _ => ⟨_, _, rfl, rfl, rfl⟩

theorem report_blind (s : Site) (f : ReadingFault) : Blind more (report s f) :=
  fun _ => ⟨_, _, rfl, rfl, rfl⟩

theorem fail_prolongs (f : ReadingFault) : Prolongs more (fail f : Read α) (fail f) := by
  constructor
  · intro r x r' h
    cases h
  · intro r r' h hr
    cases h
    have hr : r.Firm more := hr
    refine ⟨hr, ?_⟩
    rw [fail, hr.site]
    rfl

theorem fail_whole (f : ReadingFault) : Whole more (fail f : Read α) (fail f) := by
  refine ⟨⟨?_, (fail_prolongs f).faulty⟩, ?_⟩
  · intro r x r' h
    cases h
  · intro r x r' h
    cases h

theorem skip_prolongs : Prolongs more skip skip := by
  constructor
  · rintro ⟨rest, stop, id, faults⟩ x r' h hr
    cases h
    cases rest with
    | cons t ts => exact ⟨.cons rfl, rfl⟩
    | nil =>
      rcases hr with rfl | hr
      · exact ⟨.inl rfl, rfl⟩
      · exact absurd rfl hr
  · intro r r' h
    cases h

theorem accept_prolongs (p : Token → Bool) : Prolongs more (accept p) (accept p) := by
  constructor
  · rintro ⟨rest, stop, id, faults⟩ x r' h hr
    cases rest with
    | nil =>
      cases h
      rcases hr with rfl | hr
      · exact ⟨.inl rfl, rfl⟩
      · exact absurd rfl hr
    | cons t ts =>
      have hmore := accept_of_cons p t (ts ++ more) stop id faults
      rw [accept_of_cons] at h
      by_cases hp : p t = true
      · rw [if_pos hp] at h hmore
        cases h
        exact ⟨.cons rfl, hmore⟩
      · rw [if_neg hp] at h hmore
        cases h
        exact ⟨.cons rfl, hmore⟩
  · rintro ⟨rest, stop, id, faults⟩ r' h
    cases rest with
    | nil => cases h
    | cons t ts =>
      rw [accept_of_cons] at h
      split at h <;> cases h

theorem acceptSymbol_prolongs (s : Symbol) : Prolongs more (acceptSymbol s) (acceptSymbol s) :=
  (accept_prolongs _).bind fun _ => .pure _

theorem acceptKeyword_prolongs (k : Keyword) : Prolongs more (acceptKeyword k) (acceptKeyword k) :=
  (accept_prolongs _).bind fun _ => .pure _

theorem acceptKeyword_of_avoids {k : Keyword} {r : Reader} (h : Avoids (·.isKeyword k) r.rest) :
    acceptKeyword k r = .ok false r := by
  obtain ⟨rest, stop, id, faults⟩ := r
  cases rest with
  | nil => rfl
  | cons t ts =>
    have hk : ¬t.isKeyword k = true := Bool.not_eq_true _ ▸ h
    exact bind_ok ((accept_of_cons (·.isKeyword k) t ts stop id faults).trans (if_neg hk))

theorem acceptKeyword_refused {k : Keyword} {r r' : Reader} (h : acceptKeyword k r = .ok false r') :
    r' = r ∧ Avoids (·.isKeyword k) r.rest := by
  obtain ⟨rest, stop, id, faults⟩ := r
  cases rest with
  | nil =>
    cases h
    exact ⟨rfl, rfl⟩
  | cons t ts =>
    by_cases hk : t.isKeyword k = true
    · rw [acceptKeyword, bind_ok ((accept_of_cons _ t ts stop id faults).trans (if_pos hk))] at h
      cases h
    · rw [acceptKeyword, bind_ok ((accept_of_cons _ t ts stop id faults).trans (if_neg hk))] at h
      cases h
      exact ⟨rfl, Bool.eq_false_iff.2 hk⟩

/-- A token that has to be there ends the part that asks for it. -/
theorem expect_whole (p : Token → Bool) (f : ReadingFault) :
    Whole more (expect p f) (expect p f) := by
  have htaken : ∀ {r x r'}, expect p f r = .ok x r' → r.Firm more ∧
      expect p f (r.before more) = .ok x (r'.before more) := by
    rintro ⟨rest, stop, id, faults⟩ x r' h
    cases rest with
    | nil => cases h
    | cons t ts =>
      by_cases hp : p t = true
      · have haccept : ∀ us, accept p ⟨t :: us, stop, id, faults⟩ =
            .ok (some t) ⟨us, stop, id, faults⟩ := fun us =>
          (accept_of_cons p t us stop id faults).trans (if_pos hp)
        rw [expect, bind_ok (haccept ts)] at h
        cases h
        exact ⟨.cons rfl, by rw [expect]; exact bind_ok (haccept (ts ++ more))⟩
      · rw [expect, bind_ok ((accept_of_cons p t ts stop id faults).trans (if_neg hp))] at h
        cases h
  have hfaulty : Prolongs more (expect p f) (expect p f) :=
    (accept_prolongs p).bind fun o => by
      cases o with
      | none => exact fail_prolongs f
      | some t => exact .pure t
  exact ⟨⟨fun h => (htaken h).2, hfaulty.faulty⟩, fun h => (htaken h).1⟩

theorem expectSymbol_whole (s : Symbol) (f : ReadingFault) :
    Whole more (expectSymbol s f) (expectSymbol s f) := expect_whole _ f

theorem expectName_prolongs (f : ReadingFault) : Prolongs more (expectName f) (expectName f) :=
  (expect_whole _ f).prolongs

theorem expectSymbol_prolongs (s : Symbol) (f : ReadingFault) :
    Prolongs more (expectSymbol s f) (expectSymbol s f) := (expectSymbol_whole s f).prolongs

/-- A part that is there if the symbol `s` is. -/
theorem introduced_prolongs {p q : Read α} {f g : α → Read β} {s : Symbol} {x : α}
    (hp : Prolongs more p q) (hf : ∀ x, Prolongs more (f x) (g x)) :
    Prolongs more (do if ← acceptSymbol s then p >>= f else f x)
      (do if ← acceptSymbol s then q >>= g else g x) :=
  (acceptSymbol_prolongs s).bind fun _ => .ite (hp.bind hf) (hf x)

/-- A part after a report that is made only if `c`. -/
theorem reported_prolongs {c : Prop} [Decidable c] {p q : Read α} {f : ReadingFault}
    (hp : Prolongs more p q) :
    Prolongs more (do if c then report (← site) f
                      p) (do if c then report (← site) f
                             q) :=
  .ite (site_prolongs.bind fun s => (report_blind s f).prolongs.bind fun _ => hp) hp

end Read

/-! ### Expressions -/

/-- Expressions with `more` after them, and more steps to go. -/
structure ExprProlongs (more : List Token) (n m : Nat) : Prop where
  expression : Prolongs more (Read.expression n) (Read.expression m)
  parts : ∀ acc, Prolongs more (Read.parts n acc) (Read.parts m acc)
  assignment : Prolongs more (Read.assignment n) (Read.assignment m)
  ternary : Prolongs more (Read.ternary n) (Read.ternary m)
  operators : ∀ l, Prolongs more (Read.operators n l) (Read.operators m l)
  operatorsAfter : ∀ l left, Prolongs more (Read.operatorsAfter n l left)
    (Read.operatorsAfter m l left)
  unary : Prolongs more (Read.unary n) (Read.unary m)
  suffixes : ∀ e, Prolongs more (Read.suffixes n e) (Read.suffixes m e)
  arguments : ∀ count acc, Prolongs more (Read.arguments n count acc) (Read.arguments m count acc)
  primary : Prolongs more (Read.primary n) (Read.primary m)

namespace ExprProlongs
open Read
variable {more : List Token} {n m : Nat}

theorem expression_succ (ih : ExprProlongs more n m) :
    Prolongs more (Read.expression (n + 1)) (Read.expression (m + 1)) := by
  rw [Read.expression, Read.expression]
  refine ih.assignment.bind fun first => (ahead_prolongs _).bind fun _ => .ite ?_ (.pure first)
  exact (ih.parts _).bind fun es => .pure _

theorem parts_succ (ih : ExprProlongs more n m) (acc : List Expr) :
    Prolongs more (Read.parts (n + 1) acc) (Read.parts (m + 1) acc) := by
  rw [Read.parts, Read.parts]
  refine (acceptSymbol_prolongs _).bind fun _ => .ite ?_ (.pure _)
  exact ih.assignment.bind fun part => ih.parts _

theorem assigned_blind (target : Expr) (op : Token) (value : Expr) :
    Blind more (assigned target op value) := by
  unfold assigned
  split
  · exact .pure _
  · exact .pure _
  · exact (report_blind _ _).bind fun _ => .pure _

theorem assignment_succ (ih : ExprProlongs more n m) :
    Prolongs more (Read.assignment (n + 1)) (Read.assignment (m + 1)) := by
  rw [Read.assignment, Read.assignment]
  refine ih.ternary.bind fun target => (accept_prolongs _).bind fun op => ?_
  cases op with
  | none => exact .pure target
  | some op => exact ih.assignment.bind fun value => (assigned_blind target op value).prolongs

theorem ternary_succ (ih : ExprProlongs more n m) :
    Prolongs more (Read.ternary (n + 1)) (Read.ternary (m + 1)) := by
  rw [Read.ternary, Read.ternary]
  refine (ih.operators .or).bind fun cond => (acceptSymbol_prolongs _).bind fun _ => ?_
  refine .ite (ih.expression.bind fun yes => ?_) (.pure cond)
  exact (expectSymbol_prolongs _ _).bind fun _ => ih.ternary.bind fun no => .pure _

/-- The operands of a level. -/
theorem operand (ih : ExprProlongs more n m) (l : Level) {f g : Expr → Read Expr}
    (hf : ∀ e, Prolongs more (f e) (g e)) :
    Prolongs more
      (match l.tighter? with
        | some l => Read.operators n l >>= f
        | none => Read.unary n >>= f)
      (match l.tighter? with
        | some l => Read.operators m l >>= g
        | none => Read.unary m >>= g) := by
  cases l.tighter? with
  | none => exact ih.unary.bind hf
  | some l => exact (ih.operators l).bind hf

theorem operators_succ (ih : ExprProlongs more n m) (l : Level) :
    Prolongs more (Read.operators (n + 1) l) (Read.operators (m + 1) l) := by
  rw [Read.operators, Read.operators]
  exact ih.operand l fun first => ih.operatorsAfter l first

theorem operatorsAfter_succ (ih : ExprProlongs more n m) (l : Level) (left : Expr) :
    Prolongs more (Read.operatorsAfter (n + 1) l left) (Read.operatorsAfter (m + 1) l left) := by
  rw [Read.operatorsAfter, Read.operatorsAfter]
  refine (accept_prolongs _).bind fun op => ?_
  cases op with
  | none => exact .pure left
  | some op => exact ih.operand l fun right => ih.operatorsAfter l _

theorem unary_succ (ih : ExprProlongs more n m) :
    Prolongs more (Read.unary (n + 1)) (Read.unary (m + 1)) := by
  rw [Read.unary, Read.unary]
  refine (accept_prolongs _).bind fun op => ?_
  cases op with
  | none => exact ih.primary.bind fun e => ih.suffixes e
  | some op => exact ih.unary.bind fun e => .pure _

theorem suffixes_succ (ih : ExprProlongs more n m) (e : Expr) :
    Prolongs more (Read.suffixes (n + 1) e) (Read.suffixes (m + 1) e) := by
  rw [Read.suffixes, Read.suffixes]
  refine (acceptSymbol_prolongs _).bind fun _ => .ite ?_ ?_
  · refine (ahead_prolongs _).bind fun _ => .optional (ih.arguments 0 []) fun args => ?_
    exact (expectSymbol_prolongs _ _).bind fun paren => ih.suffixes _
  · refine (acceptSymbol_prolongs _).bind fun _ => .ite ?_ (.pure e)
    exact (expectName_prolongs _).bind fun x => ih.suffixes _

theorem arguments_succ (ih : ExprProlongs more n m) (count : Nat) (acc : List Expr) :
    Prolongs more (Read.arguments (n + 1) count acc) (Read.arguments (m + 1) count acc) := by
  rw [Read.arguments, Read.arguments]
  refine reported_prolongs (ih.assignment.bind fun arg => (acceptSymbol_prolongs _).bind fun _ => ?_)
  exact .ite (ih.arguments _ _) (.pure _)

theorem primary_succ (ih : ExprProlongs more n m) :
    Prolongs more (Read.primary (n + 1)) (Read.primary (m + 1)) := by
  rw [Read.primary, Read.primary]
  refine site_prolongs.bind fun s => ?_
  cases s with
  | stop pos => exact fail_prolongs _
  | token t =>
    have href : ∀ f : Ref → Expr, Prolongs more (do skip; return f (← refer t))
        (do skip; return f (← refer t)) := fun f =>
      skip_prolongs.bind fun _ => (refer_blind t).prolongs.bind fun _ => .pure _
    dsimp only
    split
    · exact skip_prolongs.bind fun _ => .pure _
    · exact skip_prolongs.bind fun _ => .pure _
    · exact skip_prolongs.bind fun _ => .pure _
    · exact skip_prolongs.bind fun _ => .pure _
    · exact skip_prolongs.bind fun _ => .pure _
    · exact href _
    · exact href _
    · refine skip_prolongs.bind fun _ => (expectSymbol_prolongs _ _).bind fun _ => ?_
      exact (expectName_prolongs _).bind fun x => (refer_blind t).prolongs.bind fun _ => .pure _
    · refine skip_prolongs.bind fun _ => ih.expression.bind fun e => ?_
      exact (expectSymbol_prolongs _ _).bind fun _ => .pure _
    · exact fail_prolongs _

end ExprProlongs

theorem exprProlongs (more : List Token) {n m : Nat} (h : n ≤ m) : ExprProlongs more n m := by
  induction n generalizing m with
  | zero =>
    refine ⟨?_, ?_, ?_, ?_, ?_, ?_, ?_, ?_, ?_, ?_⟩
    all_goals intros; exact .exhausted
  | succ n ih =>
    obtain ⟨m, rfl⟩ := Nat.exists_eq_add_one.2 (Nat.lt_of_lt_of_le (Nat.succ_pos n) h)
    have ih := ih (Nat.le_of_succ_le_succ h)
    exact ⟨ih.expression_succ, ih.parts_succ, ih.assignment_succ, ih.ternary_succ,
      ih.operators_succ, ih.operatorsAfter_succ, ih.unary_succ, ih.suffixes_succ,
      ih.arguments_succ, ih.primary_succ⟩

/-! ### Declarations without bodies -/

namespace Read
variable {more : List Token} {n m : Nat}

theorem typeName_prolongs : Prolongs more typeName typeName :=
  (acceptSymbol_prolongs _).bind fun _ =>
    .ite ((expectName_prolongs _).bind fun _ => .pure _) (.pure none)

theorem names_prolongs (f : ReadingFault) (acc : List Token) (h : n ≤ m) :
    Prolongs more (names f n acc) (names f m acc) := by
  induction n generalizing m acc with
  | zero => exact .exhausted
  | succ n ih =>
    obtain ⟨m, rfl⟩ := Nat.exists_eq_add_one.2 (Nat.lt_of_lt_of_le (Nat.succ_pos n) h)
    rw [names, names]
    refine (expectName_prolongs _).bind fun t => (acceptSymbol_prolongs _).bind fun _ => ?_
    exact .ite (ih _ (Nat.le_of_succ_le_succ h)) (.pure _)

theorem parameters_prolongs (count : Nat) (acc : List Token) (h : n ≤ m) :
    Prolongs more (parameters n count acc) (parameters m count acc) := by
  induction n generalizing m count acc with
  | zero => exact .exhausted
  | succ n ih =>
    obtain ⟨m, rfl⟩ := Nat.exists_eq_add_one.2 (Nat.lt_of_lt_of_le (Nat.succ_pos n) h)
    rw [parameters, parameters]
    refine reported_prolongs ((expectName_prolongs _).bind fun t => ?_)
    refine (acceptSymbol_prolongs _).bind fun _ => ?_
    exact .ite (ih _ _ (Nat.le_of_succ_le_succ h)) (.pure _)

theorem varList_prolongs (acc : List Stmt) (h : n ≤ m) :
    Prolongs more (varList n acc) (varList m acc) := by
  induction n generalizing m acc with
  | zero => exact .exhausted
  | succ n ih =>
    obtain ⟨m, rfl⟩ := Nat.exists_eq_add_one.2 (Nat.lt_of_lt_of_le (Nat.succ_pos n) h)
    have h := Nat.le_of_succ_le_succ h
    rw [varList, varList]
    refine (expectName_prolongs _).bind fun t => typeName_prolongs.bind fun type => ?_
    refine introduced_prolongs (exprProlongs more h).assignment.map fun init => ?_
    exact (acceptSymbol_prolongs _).bind fun _ => .ite (ih _ h) (.pure _)

theorem varDeclaration_whole (h : n ≤ m) :
    Whole more (varDeclaration n) (varDeclaration m) :=
  (varList_prolongs [] h).whole fun _ => (expectSymbol_whole _ _).ret

theorem importDeclaration_whole (keyword : Token) (h : n ≤ m) :
    Whole more (importDeclaration n keyword) (importDeclaration m keyword) := by
  refine (expectSymbol_prolongs _ _).whole fun _ => (names_prolongs _ [] h).whole fun ns => ?_
  refine (expectSymbol_prolongs _ _).whole fun _ => (expect_whole _ _).prolongs.whole fun _ => ?_
  refine site_prolongs.whole fun s => ?_
  cases s with
  | stop pos => exact fail_whole _
  | token path =>
    dsimp only
    split
    · exact skip_prolongs.whole fun _ => (expectSymbol_whole _ _).ret
    · exact fail_whole _

theorem exposeDeclaration_whole (keyword : Token) (h : n ≤ m) :
    Whole more (exposeDeclaration n keyword) (exposeDeclaration m keyword) :=
  (names_prolongs _ [] h).whole fun _ => (expectSymbol_whole _ _).ret

theorem expressionStatement_whole (h : n ≤ m) :
    Whole more (expressionStatement n) (expressionStatement m) :=
  (exprProlongs more h).expression.whole fun _ => (expectSymbol_whole _ _).ret

/-! ### Statements -/

theorem fieldAssignments_blind (fields : List FieldDecl) :
    Blind more (fieldAssignments fields) := by
  induction fields with
  | nil => exact .pure []
  | cons f fs ih =>
    rw [fieldAssignments]
    exact (refer_blind _).bind fun _ => ih.bind fun _ => .pure _

theorem classOf_blind (name : Token) (sup : Option Ref) (members : Members) :
    Blind more (classOf name sup members) := by
  unfold classOf
  refine (fieldAssignments_blind _).bind fun _ => ?_
  dsimp only
  split
  · split
    · exact (report_blind _ _).bind fun _ => .pure _
    · exact .pure _
  · exact .pure _

theorem superclass_prolongs (name : Token) : Prolongs more (superclass name) (superclass name) := by
  have hrefer : ∀ t, Prolongs more (do return some (← refer t)) (do return some (← refer t)) :=
    fun t => (refer_blind t).prolongs.bind fun _ => .pure _
  refine (acceptSymbol_prolongs _).bind fun _ => .ite ?_ (.pure none)
  refine (expectName_prolongs _).bind fun t => .ite ?_ (hrefer t)
  exact (report_blind _ _).prolongs.bind fun _ => hrefer t

/-- After a statement, `more` is no other branch of it. -/
theorem otherBranch_rounds {p q : Read Stmt} {f : Stmt → Stmt} {s : Stmt}
    (hmore : Avoids (·.isKeyword .else) more) (hp : Whole more p q) :
    Rounds more (do if ← acceptKeyword .else then return f (← p) else return s)
      (do if ← acceptKeyword .else then return f (← q) else return s) := by
  have hbranch : Whole more (p >>= fun no => pure (f no)) (q >>= fun no => pure (f no)) := hp.ret
  constructor
  · intro r x r' h
    obtain ⟨b, r₁, hb, h⟩ := of_bind_ok h
    cases b with
    | true =>
      obtain ⟨-, hb'⟩ := (acceptKeyword_prolongs .else).ok hb (hbranch.firm h)
      exact (bind_ok hb').trans (hbranch.ok h)
    | false =>
      cases h
      obtain ⟨rfl, havoids⟩ := acceptKeyword_refused hb
      exact bind_ok (acceptKeyword_of_avoids (havoids.append hmore))
  · intro r r' h hr
    rcases of_bind_faulty h with h | ⟨b, r₁, hb, h⟩
    · obtain ⟨hr, hb'⟩ := (acceptKeyword_prolongs .else).faulty h hr
      exact ⟨hr, bind_error hb'⟩
    · cases b with
      | true =>
        obtain ⟨hr₁, h'⟩ := hbranch.faulty h hr
        obtain ⟨hr, hb'⟩ := (acceptKeyword_prolongs .else).ok hb hr₁
        exact ⟨hr, (bind_ok hb').trans h'⟩
      | false => cases h

theorem dropSpoiled_append {last : Token} {ts : List Token}
    (h : Reader.dropSpoiled last ts ≠ []) (more : List Token) :
    Reader.dropSpoiled last (ts ++ more) = Reader.dropSpoiled last ts ++ more := by
  induction ts generalizing last with
  | nil => exact absurd rfl h
  | cons t ts ih =>
    rw [Reader.dropSpoiled] at h
    rw [List.cons_append, Reader.dropSpoiled, Reader.dropSpoiled]
    by_cases hc : (last.isSymbol .semicolon || Reader.resumesAt t) = true
    · rw [if_pos hc, if_pos hc, List.cons_append]
    · rw [if_neg hc] at h ⊢
      rw [if_neg hc]
      exact ih h

end Read

/-- Recovery that finds a place to go on before the end finds the same with `more` after it. -/
theorem Reader.Firm.recover {more : List Token} {r : Reader} (h : r.recover.Firm more) :
    r.Firm more ∧ (r.before more).recover = r.recover.before more := by
  obtain ⟨rest, stop, id, faults⟩ := r
  rcases h with rfl | h
  · exact ⟨.inl rfl, by rw [before_nil, before_nil]⟩
  · cases rest with
    | nil => exact absurd rfl h
    | cons t ts =>
      refine ⟨.cons rfl, ?_⟩
      change Reader.mk (dropSpoiled t (ts ++ more)) stop id faults = _
      rw [Read.dropSpoiled_append h]
      rfl

namespace Read
variable {more : List Token}

theorem recovering_prolongs {p q : Read Stmt} (hp : Whole more p q) :
    Prolongs more (recovering p) (recovering q) := by
  constructor
  · intro r x r' h hr
    unfold recovering at h ⊢
    cases hpr : p r with
    | ok s r₁ =>
      rw [hpr] at h
      cases h
      exact ⟨hp.firm hpr, by rw [hp.ok hpr]⟩
    | error e r₁ =>
      rw [hpr] at h
      cases e with
      | exhausted => cases h
      | faulty =>
        cases h
        obtain ⟨hr₁, hrecover⟩ := hr.recover
        obtain ⟨hr, hq⟩ := hp.faulty hpr hr₁
        exact ⟨hr, by rw [hq, ← hrecover]⟩
  · intro r r' h
    unfold recovering at h
    cases hpr : p r with
    | ok s r₁ =>
      rw [hpr] at h
      cases h
    | error e r₁ =>
      rw [hpr] at h
      cases e with
      | exhausted => cases h
      | faulty => cases h

theorem recovering_some {p q : Read Stmt} {r r' : Reader} {s : Stmt} (hp : Whole more p q)
    (h : recovering p r = .ok (some s) r') :
    recovering q (r.before more) = .ok (some s) (r'.before more) := by
  unfold recovering at h ⊢
  cases hpr : p r with
  | ok s' r₁ =>
    rw [hpr] at h
    cases h
    rw [hp.ok hpr]
  | error e r₁ =>
    rw [hpr] at h
    cases e with
    | exhausted => cases h
    | faulty => cases h

end Read

/-- Statements with `more` after them, and more steps to go. -/
structure StmtProlongs (more : List Token) (n m : Nat) : Prop where
  declaration : Prolongs more (Read.declaration n) (Read.declaration m)
  block : ∀ acc, Whole more (Read.block n acc) (Read.block m acc)
  functionRest : ∀ role name, Whole more (Read.functionRest n role name)
    (Read.functionRest m role name)
  classDeclaration : Whole more (Read.classDeclaration n) (Read.classDeclaration m)
  classMembers : ∀ acc, Prolongs more (Read.classMembers n acc) (Read.classMembers m acc)
  statement : Whole more (Read.statement n) (Read.statement m)
  branch : Whole more (Read.branch n) (Read.branch m)
  countedLoop : Whole more (Read.countedLoop n) (Read.countedLoop m)

namespace StmtProlongs
open Read
variable {more : List Token} {n m : Nat}

theorem declared (ih : StmtProlongs more n m) (h : n ≤ m) :
    Whole more (Read.declared n) (Read.declared m) := by
  refine site_prolongs.whole fun s => ?_
  cases s with
  | stop pos => exact ih.statement
  | token t =>
    dsimp only
    split
    · exact skip_prolongs.whole fun _ => varDeclaration_whole h
    · refine skip_prolongs.whole fun _ => (expectName_prolongs _).whole fun x => ?_
      exact (ih.functionRest _ x).ret
    · exact skip_prolongs.whole fun _ => ih.classDeclaration
    · exact skip_prolongs.whole fun _ => importDeclaration_whole t h
    · exact skip_prolongs.whole fun _ => exposeDeclaration_whole t h
    · exact ih.statement

theorem declaration_succ (ih : StmtProlongs more n m) (h : n ≤ m) :
    Prolongs more (Read.declaration (n + 1)) (Read.declaration (m + 1)) := by
  rw [declaration_eq, declaration_eq]
  exact recovering_prolongs (ih.declared h)

theorem block_succ (ih : StmtProlongs more n m) (acc : List Stmt) :
    Whole more (Read.block (n + 1) acc) (Read.block (m + 1) acc) := by
  rw [Read.block, Read.block]
  refine atEnd_prolongs.whole fun _ => (ahead_prolongs _).whole fun _ => .ite ?_ ?_
  · exact (expectSymbol_whole _ _).ret
  · refine ih.declaration.whole fun x => ?_
    cases x with
    | none => exact ih.block acc
    | some s => exact ih.block (s :: acc)

theorem functionRest_succ (ih : StmtProlongs more n m) (h : n ≤ m) (role : FunctionRole)
    (name : Token) :
    Whole more (Read.functionRest (n + 1) role name) (Read.functionRest (m + 1) role name) := by
  rw [Read.functionRest, Read.functionRest]
  refine (expectSymbol_prolongs _ _).whole fun _ => (ahead_prolongs _).whole fun _ => ?_
  refine .optional (parameters_prolongs 0 [] h) fun params => ?_
  refine (expectSymbol_prolongs _ _).whole fun _ => (expectSymbol_prolongs _ _).whole fun _ => ?_
  exact (ih.block []).ret

theorem classDeclaration_succ (ih : StmtProlongs more n m) :
    Whole more (Read.classDeclaration (n + 1)) (Read.classDeclaration (m + 1)) := by
  rw [Read.classDeclaration, Read.classDeclaration]
  refine (expectName_prolongs _).whole fun x => (superclass_prolongs x).whole fun sup => ?_
  refine (expectSymbol_prolongs _ _).whole fun _ => (ih.classMembers _).whole fun members => ?_
  exact (expectSymbol_whole _ _).bind fun _ => (classOf_blind x sup members).rounds

theorem classMembers_succ (ih : StmtProlongs more n m) (h : n ≤ m) (acc : Members) :
    Prolongs more (Read.classMembers (n + 1) acc) (Read.classMembers (m + 1) acc) := by
  rw [Read.classMembers, Read.classMembers]
  refine atEnd_prolongs.bind fun _ => (ahead_prolongs _).bind fun _ => .ite (.pure acc) ?_
  refine (acceptKeyword_prolongs _).bind fun static => (expectName_prolongs _).bind fun x => ?_
  refine (ahead_prolongs _).bind fun _ => .ite ?_ ?_
  · exact (ih.functionRest _ x).prolongs.bind fun f => ih.classMembers _
  · refine typeName_prolongs.bind fun type => ?_
    refine introduced_prolongs (exprProlongs more h).expression.map fun init => ?_
    exact (expectSymbol_prolongs _ _).bind fun _ => ih.classMembers _

theorem statement_succ (ih : StmtProlongs more n m) (h : n ≤ m) :
    Whole more (Read.statement (n + 1)) (Read.statement (m + 1)) := by
  rw [Read.statement, Read.statement]
  have hexpr := (exprProlongs more h).expression
  refine site_prolongs.whole fun s => ?_
  cases s with
  | stop pos => exact expressionStatement_whole h
  | token t =>
    dsimp only
    split
    · exact skip_prolongs.whole fun _ => hexpr.whole fun e => (expectSymbol_whole _ _).ret
    · exact skip_prolongs.whole fun _ => ih.branch
    · refine skip_prolongs.whole fun _ => (expectSymbol_prolongs _ _).whole fun _ => ?_
      refine hexpr.whole fun cond => (expectSymbol_prolongs _ _).whole fun _ => ?_
      exact ih.statement.ret
    · exact skip_prolongs.whole fun _ => ih.countedLoop
    · refine skip_prolongs.whole fun _ => (ahead_prolongs _).whole fun _ => ?_
      exact .optional hexpr.map fun value => (expectSymbol_whole _ _).ret
    · exact skip_prolongs.whole fun _ => (expectSymbol_whole _ _).ret
    · exact skip_prolongs.whole fun _ => (expectSymbol_whole _ _).ret
    · exact skip_prolongs.whole fun _ => (ih.block []).ret
    · exact expressionStatement_whole h

theorem branch_succ (hmore : Avoids (·.isKeyword .else) more) (ih : StmtProlongs more n m)
    (h : n ≤ m) : Whole more (Read.branch (n + 1)) (Read.branch (m + 1)) := by
  rw [Read.branch, Read.branch]
  refine (expectSymbol_prolongs _ _).whole fun _ => ?_
  refine (exprProlongs more h).expression.whole fun cond => ?_
  refine (expectSymbol_prolongs _ _).whole fun _ => ih.statement.bind fun yes => ?_
  exact otherBranch_rounds hmore ih.statement

theorem countedLoop_succ (ih : StmtProlongs more n m) (h : n ≤ m) :
    Whole more (Read.countedLoop (n + 1)) (Read.countedLoop (m + 1)) := by
  have hexpr := (exprProlongs more h).expression
  have hrest : ∀ first : List Stmt,
      Whole more (Read.loopClauses n first) (Read.loopClauses m first) := by
    intro first
    refine (ahead_prolongs _).whole fun _ => .optional hexpr fun cond => ?_
    refine (expectSymbol_prolongs _ _).whole fun _ => (ahead_prolongs _).whole fun _ => ?_
    refine .optional hexpr.map fun step => (expectSymbol_prolongs _ _).whole fun _ => ?_
    exact ih.statement.ret
  rw [countedLoop_eq, countedLoop_eq]
  refine (expectSymbol_prolongs _ _).whole fun _ => (acceptKeyword_prolongs _).whole fun _ => ?_
  refine .ite ((varDeclaration_whole h).prolongs.map.whole hrest) ?_
  refine (acceptSymbol_prolongs _).whole fun _ => .ite (hrest []) ?_
  exact (expressionStatement_whole h).prolongs.map.whole hrest

end StmtProlongs

theorem stmtProlongs {more : List Token} (hmore : Avoids (·.isKeyword .else) more) {n m : Nat}
    (h : n ≤ m) : StmtProlongs more n m := by
  induction n generalizing m with
  | zero =>
    refine ⟨?_, ?_, ?_, ?_, ?_, ?_, ?_, ?_⟩
    all_goals intros; exact .exhausted
  | succ n ih =>
    obtain ⟨m, rfl⟩ := Nat.exists_eq_add_one.2 (Nat.lt_of_lt_of_le (Nat.succ_pos n) h)
    have h := Nat.le_of_succ_le_succ h
    have ih := ih h
    exact ⟨ih.declaration_succ h, ih.block_succ, ih.functionRest_succ h, ih.classDeclaration_succ,
      ih.classMembers_succ h, ih.statement_succ h, ih.branch_succ hmore h, ih.countedLoop_succ h⟩

/-! ### Programs -/

namespace Read
variable {more : List Token} {n m : Nat}

/-- A fault in a declaration stays in it. -/
theorem declaration_not_faulty {r r' : Reader} : declaration n r ≠ .error .faulty r' := by
  intro h
  cases n with
  | zero => cases h
  | succ n =>
    rw [declaration, recovering] at h
    split at h <;> cases h

theorem declarations_not_faulty {acc : List Stmt} {r r' : Reader} :
    declarations n acc r ≠ .error .faulty r' := by
  intro h
  induction n generalizing acc r with
  | zero => cases h
  | succ n ih =>
    rw [declarations, bind_ok (p := atEnd) (r := r) rfl] at h
    split at h
    · cases h
    · rcases of_bind_faulty h with h | ⟨x, r₁, -, h⟩
      · exact declaration_not_faulty h
      · cases x with
        | none => exact ih h
        | some s => exact ih h

/-- More steps change nothing, and neither does what was read before. -/
theorem declarations_after {acc ss : List Stmt} {r r' : Reader} (done : List Stmt) (hnm : n ≤ m)
    (h : declarations n acc r = .ok ss r') :
    declarations m (acc ++ done.reverse) r = .ok (done ++ ss) r' := by
  induction n generalizing m acc r with
  | zero => cases h
  | succ n ih =>
    obtain ⟨m, rfl⟩ := Nat.exists_eq_add_one.2 (Nat.lt_of_lt_of_le (Nat.succ_pos n) hnm)
    have hnm := Nat.le_of_succ_le_succ hnm
    rw [declarations, bind_ok (p := atEnd) (r := r) rfl] at h ⊢
    by_cases hend : r.rest.isEmpty = true
    · rw [if_pos hend] at h ⊢
      cases h
      rw [List.reverse_append, List.reverse_reverse]
      rfl
    · rw [if_neg hend] at h ⊢
      obtain ⟨x, r₁, hx, h⟩ := of_bind_ok h
      have hnil : Avoids (·.isKeyword .else) [] := rfl
      have hx' := ((stmtProlongs hnil hnm).declaration.ok hx (.inl rfl)).2
      rw [Reader.before_nil, Reader.before_nil] at hx'
      rw [bind_ok hx']
      cases x with
      | none => exact ih hnm h
      | some s => exact ih hnm h

theorem declarations_clean {acc ss : List Stmt} {r r' : Reader}
    (h : declarations n acc r = .ok ss r') (hr' : r'.faults = []) : r.faults = [] := by
  have hyields := declarations_yields n acc r
  rw [h] at hyields
  exact (hyields hr').1

theorem declaration_before {r r' : Reader} {s : Stmt} (hmore : Avoids (·.isKeyword .else) more)
    (hnm : n ≤ m) (h : declaration n r = .ok (some s) r') :
    declaration m (r.before more) = .ok (some s) (r'.before more) := by
  cases n with
  | zero => cases h
  | succ n =>
    obtain ⟨m, rfl⟩ := Nat.exists_eq_add_one.2 (Nat.lt_of_lt_of_le (Nat.succ_pos n) hnm)
    have hnm := Nat.le_of_succ_le_succ hnm
    rw [declaration_eq] at h ⊢
    exact recovering_some ((stmtProlongs hmore hnm).declared hnm) h

/-- Declarations that are read without a fault are read as well with `more` after them, and then
reading goes on. Each takes a token, so that at most their number of steps is used up. -/
theorem declarations_before {acc ss : List Stmt} {r r' : Reader}
    (hmore : Avoids (·.isKeyword .else) more) (hn : 12 * r.rest.length + 14 ≤ n) (hnm : n ≤ m)
    (h : declarations n acc r = .ok ss r') (hr' : r'.faults = []) :
    ∃ k, m ≤ k + r.rest.length ∧
      declarations m acc (r.before more) = declarations k ss.reverse (r'.before more) := by
  induction n generalizing m acc r with
  | zero => cases h
  | succ n ih =>
    obtain ⟨m, rfl⟩ := Nat.exists_eq_add_one.2 (Nat.lt_of_lt_of_le (Nat.succ_pos n) hnm)
    have hnm := Nat.le_of_succ_le_succ hnm
    rw [declarations, bind_ok (p := atEnd) (r := r) rfl] at h
    by_cases hend : r.rest.isEmpty = true
    · rw [if_pos hend] at h
      cases h
      exact ⟨m + 1, Nat.le_add_right _ _, by rw [List.reverse_reverse]⟩
    · rw [if_neg hend] at h
      obtain ⟨x, r₁, hx, h⟩ := of_bind_ok h
      have hpos : 0 < r.rest.length := by
        rw [List.isEmpty_iff_length_eq_zero] at hend
        omega
      have hfaults : r₁.faults = [] := by
        cases x with
        | none => exact declarations_clean h hr'
        | some s => exact declarations_clean h hr'
      -- so there is a statement, and it took a token
      have hyields := (stmtYields n).declaration r
      have hleft := (stmtEnds n).declaration r.rest.length (by omega) r rfl
      rw [hx] at hyields hleft
      obtain ⟨-, w, -, s, rfl, -⟩ := hyields hfaults
      have hlt : r₁.rest.length < r.rest.length := hleft.2 hpos
      obtain ⟨k, hk, hrest⟩ := ih (by omega) hnm h
      refine ⟨k, by omega, ?_⟩
      have hopen : ¬(r.before more).rest.isEmpty = true := by
        rw [Reader.Firm.isEmpty (.inr (List.ne_nil_of_length_pos hpos))]
        exact hend
      rw [declarations, bind_ok (p := atEnd) (r := r.before more) rfl, if_neg hopen,
        bind_ok (declaration_before hmore hnm hx)]
      exact hrest

end Read

namespace Program
variable {tokens : List Token} {stop : Pos} {firstId : Nat}

/-- Reading of a program comes to its end. -/
theorem declarations_of_read (tokens : List Token) (stop : Pos) (firstId : Nat) :
    ∃ r, Read.declarations (steps tokens.length) [] ⟨tokens, stop, firstId, []⟩ =
        .ok (read tokens stop firstId).body r ∧
      (read tokens stop firstId).faults = r.faults.reverse ∧
      (read tokens stop firstId).nextId = r.nextId := by
  unfold read
  cases h : Read.declarations (steps tokens.length) [] ⟨tokens, stop, firstId, []⟩ with
  | ok ss r => exact ⟨r, rfl, rfl, rfl⟩
  | error e r =>
    cases e with
    | faulty => exact absurd h Read.declarations_not_faulty
    | exhausted => exact absurd h (read_not_exhausted tokens stop firstId r)

/-- Where it leaves the reader if it reports nothing. -/
theorem declarations_of_faultless (h : (read tokens stop firstId).faults = []) :
    Read.declarations (steps tokens.length) [] ⟨tokens, stop, firstId, []⟩ =
      .ok (read tokens stop firstId).body ⟨[], stop, (read tokens stop firstId).nextId, []⟩ := by
  obtain ⟨parts, rfl, hparts⟩ := derived_of_read h
  obtain ⟨r, hr, -, hid⟩ := declarations_of_read parts.flatten stop firstId
  have hrow : Grammar.Row Follows (List.replicate parts.length .declaration) parts.flatten :=
    .of_parts fun w hw => follows (hparts w hw)
  have htakes := Follows.declarations (steps parts.flatten.length) [] hrow stop firstId []
  rw [List.append_nil, hr] at htakes
  rcases htakes with ⟨ss, id, hread, -⟩ | ⟨r', hread⟩
  · cases hread
    rw [hr, hid]
  · cases hread

/-- The tokens `A` of a program without faults, and then those of any other that does not start with
`else`: the statements of both one after the other, and what is wrong with the second alone. -/
theorem read_append (A B : List Token) (stop : Pos) (firstId : Nat)
    (hA : (read A stop firstId).faults = []) (hB : Avoids (·.isKeyword .else) B) :
    read (A ++ B) stop firstId =
      ⟨(read A stop firstId).body ++ (read B stop (read A stop firstId).nextId).body,
        (read B stop (read A stop firstId).nextId).faults,
        (read B stop (read A stop firstId).nextId).nextId⟩ := by
  obtain ⟨r, hr, hfaults, hid⟩ := declarations_of_read B stop (read A stop firstId).nextId
  have hA' : 12 * A.length + 14 ≤ steps A.length := by
    rw [steps]
    omega
  have hsteps : steps A.length ≤ steps (A ++ B).length := by
    rw [steps, steps, List.length_append]
    omega
  obtain ⟨k, hk, hrest⟩ := Read.declarations_before (m := steps (A ++ B).length) hB
    hA' hsteps (declarations_of_faultless hA) rfl
  have hk : steps B.length ≤ k := by
    simp only [steps, List.length_append] at hk ⊢
    omega
  have hall := Read.declarations_after (read A stop firstId).body hk hr
  have hread : Read.declarations (steps (A ++ B).length) [] ⟨A ++ B, stop, firstId, []⟩ =
      .ok ((read A stop firstId).body ++ (read B stop (read A stop firstId).nextId).body) r :=
    hrest.trans hall
  rw [hfaults, hid]
  conv => lhs; rw [read, hread]

/-- An `if` that could go on, and after it three declarations, the second of them with a fault. -/
theorem read_append_branch :
    let A := (scan none "if (a) \x7b b(); \x7d").tokens
    let B := (scan none "var x = 1; var = c; print x;").tokens
    let first := read A .start 0
    let second := read B .start first.nextId
    (first.faults = [] ∧ Avoids (·.isKeyword .else) B ∧
        first.nextId = 2 ∧ second.body.length = 2 ∧ second.faults.length = 1) ∧
      read (A ++ B) .start 0 = ⟨first.body ++ second.body, second.faults, second.nextId⟩ := by
  intro A B first second
  have hfirst : first.faults = [] := by decide +kernel
  have hB : Avoids (·.isKeyword .else) B := by
    unfold Avoids
    decide +kernel
  exact ⟨⟨hfirst, hB, by decide +kernel⟩, read_append A B .start 0 hfirst hB⟩

/-- The other branch of an `if` is not a program of its own. -/
example :
    (read (scan none "if (a) b(); else c();").tokens .start 0).faults = [] ∧
      (read (scan none "else c();").tokens .start 2).faults ≠ [] := by
  decide +kernel

end Program

end Treewalk
