import Mathlib.Data.List.Forall2
import Treewalk.Proofs.Followed

/-!
# Reading inverts printing

`Expr.Bracketed`: every operand of the tree binds as tightly as its place asks, so that the tree can
be written out as it is. `Expr.Prints e w`: the tokens `w` are `e` written out in order. A tree keeps
some of its tokens, and these stand in `w` as they are; of the others, such as parentheses, only the
kind is told.

`Program.read_printed`: a printed tree is read back, with other ids for its references.
-/

namespace Treewalk
open Grammar

/-! ### Trees that can be printed -/

/-- How loosely the outermost form of a tree binds, by the numbers of `Token.rank`. -/
def Expr.depth : Expr → Nat
  | .literal _ | .grouping _ | .variable _ | .this _ | .super _ _ | .get _ _ | .call _ _ _ => 1
  | .unary _ _ => 2
  | .binary _ op _ | .logical _ op _ => op.rank
  | .ternary _ _ _ => 9
  | .assign _ _ | .compound _ _ _ | .set _ _ _ _ => 10
  | .comma _ => 11

/-- The token is a compound assignment operator. -/
def Token.Compounds (t : Token) : Prop :=
  ∃ s ∈ [Symbol.plusEqual, .minusEqual, .starEqual, .slashEqual, .percentEqual],
    t.isSymbol s = true

/-- The tree needs no parentheses but its own. -/
inductive Expr.Bracketed : Expr → Prop where
  | literal (value : Literal) : Bracketed (.literal value)
  | grouping {e : Expr} (h : Bracketed e) : Bracketed (.grouping e)
  | unary {op : Token} {e : Expr} (hop : ∃ s ∈ [Symbol.bang, .minus], op.isSymbol s = true)
      (h : Bracketed e) (hd : e.depth ≤ 2) : Bracketed (.unary op e)
  /-- Operators of one level are grouped from the left. -/
  | binary {l r : Expr} {op : Token} (hop : 3 ≤ op.rank ∧ op.rank ≤ 6) (hl : Bracketed l)
      (hr : Bracketed r) (hdl : l.depth ≤ op.rank) (hdr : r.depth < op.rank) :
      Bracketed (.binary l op r)
  | logical {l r : Expr} {op : Token} (hop : 7 ≤ op.rank ∧ op.rank ≤ 8) (hl : Bracketed l)
      (hr : Bracketed r) (hdl : l.depth ≤ op.rank) (hdr : r.depth < op.rank) :
      Bracketed (.logical l op r)
  | ternary {c y n : Expr} (hc : Bracketed c) (hy : Bracketed y) (hn : Bracketed n)
      (hdc : c.depth ≤ 8) (hdn : n.depth ≤ 9) : Bracketed (.ternary c y n)
  | comma {es : List Expr} (hes : 2 ≤ es.length) (h : ∀ e ∈ es, Bracketed e)
      (hd : ∀ e ∈ es, e.depth ≤ 10) : Bracketed (.comma es)
  | variable {ref : Ref} (hx : ref.name.isIdentifier = true) : Bracketed (.variable ref)
  | assign {ref : Ref} {e : Expr} (hx : ref.name.isIdentifier = true) (h : Bracketed e)
      (hd : e.depth ≤ 10) : Bracketed (.assign ref e)
  | compound {ref : Ref} {op : Token} {e : Expr} (hx : ref.name.isIdentifier = true)
      (hop : op.Compounds) (h : Bracketed e) (hd : e.depth ≤ 10) : Bracketed (.compound ref op e)
  | call {e : Expr} {paren : Token} {es : List Expr} (hp : paren.isSymbol .rightParen = true)
      (hes : es.length ≤ 255) (h : Bracketed e) (hd : e.depth ≤ 1) (hall : ∀ e ∈ es, Bracketed e)
      (hdall : ∀ e ∈ es, e.depth ≤ 10) : Bracketed (.call e paren es)
  | get {e : Expr} {x : Token} (hx : x.isIdentifier = true) (h : Bracketed e) (hd : e.depth ≤ 1) :
      Bracketed (.get e x)
  | set {o e : Expr} {x : Token} {op : Option Token} (hx : x.isIdentifier = true)
      (hop : ∀ t ∈ op, t.Compounds) (ho : Bracketed o) (hdo : o.depth ≤ 1) (h : Bracketed e)
      (hd : e.depth ≤ 10) : Bracketed (.set o x op e)
  | this {ref : Ref} (hx : ref.name.isKeyword .this = true) : Bracketed (.this ref)
  | super {ref : Ref} {x : Token} (hs : ref.name.isKeyword .super = true)
      (hx : x.isIdentifier = true) : Bracketed (.super ref x)

/-! ### Printing -/

/-- What is told of a token of a printed tree. -/
inductive Slot where
  | token (t : Token)
  | kind (k : Token.Kind)
deriving DecidableEq, Repr

def Slot.Fits : Slot → Token → Prop
  | .token s, t => t = s
  | .kind k, t => t.kind = k

def Slot.symbol (s : Symbol) : Slot := .kind (.symbol s)

/-- The kind of the token that writes down a value. -/
def Literal.kind : Literal → Token.Kind
  | .nil => .keyword .nil
  | .bool true => .keyword .true
  | .bool false => .keyword .false
  | .num x => .number x
  | .string s => .string s

mutual

/-- The tokens of a printed tree. -/
def Expr.slots : Expr → List Slot
  | .literal value => [.kind value.kind]
  | .grouping e => .symbol .leftParen :: (Expr.slots e ++ [.symbol .rightParen])
  | .unary op e => .token op :: Expr.slots e
  | .binary l op r | .logical l op r => Expr.slots l ++ .token op :: Expr.slots r
  | .ternary c y n =>
    Expr.slots c ++ .symbol .question :: (Expr.slots y ++ .symbol .colon :: Expr.slots n)
  | .comma es => (Expr.slotsEach es).tail
  | .variable ref | .this ref => [.token ref.name]
  | .assign ref e => .token ref.name :: .symbol .equal :: Expr.slots e
  | .compound ref op e => .token ref.name :: .token op :: Expr.slots e
  | .call e paren es =>
    Expr.slots e ++ .symbol .leftParen :: ((Expr.slotsEach es).tail ++ [.token paren])
  | .get e x => Expr.slots e ++ [.symbol .dot, .token x]
  | .set o x op e =>
    Expr.slots o ++ .symbol .dot :: .token x :: (op.elim (.symbol .equal) .token) :: Expr.slots e
  | .super ref x => [.token ref.name, .symbol .dot, .token x]

/-- The tokens of printed trees, with a comma before each of them. -/
def Expr.slotsEach : List Expr → List Slot
  | [] => []
  | e :: es => .symbol .comma :: (Expr.slots e ++ Expr.slotsEach es)

end

/-- The tokens fill the slots of the tree. -/
def Expr.Prints (e : Expr) (w : List Token) : Prop := List.Forall₂ Slot.Fits e.slots w

theorem forall₂_append_left {α β : Type} {R : α → β → Prop} {a b : List α} {w : List β}
    (h : List.Forall₂ R (a ++ b) w) :
    ∃ u v, w = u ++ v ∧ List.Forall₂ R a u ∧ List.Forall₂ R b v := by
  induction a generalizing w with
  | nil => exact ⟨[], w, rfl, .nil, h⟩
  | cons x a ih =>
    obtain ⟨y, w, hxy, hw, rfl⟩ := List.forall₂_cons_left_iff.1 h
    obtain ⟨u, v, rfl, hu, hv⟩ := ih hw
    exact ⟨y :: u, v, rfl, .cons hxy hu, hv⟩

/-! ### Trees up to the ids of their references -/

def Ref.unnumbered (ref : Ref) : Ref := { ref with id := 0 }

mutual

/-- The tree without the ids of its references. -/
def Expr.unnumbered : Expr → Expr
  | .literal value => .literal value
  | .grouping e => .grouping (Expr.unnumbered e)
  | .unary op e => .unary op (Expr.unnumbered e)
  | .binary l op r => .binary (Expr.unnumbered l) op (Expr.unnumbered r)
  | .logical l op r => .logical (Expr.unnumbered l) op (Expr.unnumbered r)
  | .ternary c y n => .ternary (Expr.unnumbered c) (Expr.unnumbered y) (Expr.unnumbered n)
  | .comma es => .comma (Expr.unnumberedAll es)
  | .variable ref => .variable ref.unnumbered
  | .assign ref e => .assign ref.unnumbered (Expr.unnumbered e)
  | .compound ref op e => .compound ref.unnumbered op (Expr.unnumbered e)
  | .call e paren es => .call (Expr.unnumbered e) paren (Expr.unnumberedAll es)
  | .get e x => .get (Expr.unnumbered e) x
  | .set o x op e => .set (Expr.unnumbered o) x op (Expr.unnumbered e)
  | .this ref => .this ref.unnumbered
  | .super ref x => .super ref.unnumbered x

def Expr.unnumberedAll : List Expr → List Expr
  | [] => []
  | e :: es => Expr.unnumbered e :: Expr.unnumberedAll es

end

/-- The trees differ in the ids of their references only. -/
def Expr.Same (e e' : Expr) : Prop := e'.unnumbered = e.unnumbered

theorem Expr.unnumberedAll_eq (es : List Expr) :
    Expr.unnumberedAll es = es.map Expr.unnumbered := by
  induction es with
  | nil => rfl
  | cons e es ih => rw [Expr.unnumberedAll, ih, List.map_cons]

theorem Expr.Same.variable {ref : Ref} {e' : Expr} (h : Expr.Same (.variable ref) e') :
    ∃ ref', e' = .variable ref' ∧ ref'.name = ref.name := by
  cases e' with
  | «variable» ref' =>
    simp only [Expr.Same, Expr.unnumbered, Ref.unnumbered, Expr.variable.injEq, Ref.mk.injEq] at h
    exact ⟨ref', rfl, h.2⟩
  | _ => simp [Expr.Same, Expr.unnumbered] at h

theorem Expr.Same.get {e e' : Expr} {x : Token} (h : Expr.Same (.get e x) e') :
    ∃ o, e' = .get o x ∧ Expr.Same e o := by
  cases e' with
  | get o y =>
    simp only [Expr.Same, Expr.unnumbered, Expr.get.injEq] at h
    exact ⟨o, by rw [h.2], h.1⟩
  | _ => simp [Expr.Same, Expr.unnumbered] at h

/-! ### The reader's functions by depth -/

namespace Read

/-- What reads expressions of depth `k`. -/
def ofDepth (k n : Nat) : Read Expr :=
  match k with
  | 3 => operators n .factor
  | 4 => operators n .term
  | 5 => operators n .comparison
  | 6 => operators n .equality
  | 7 => operators n .and
  | 8 => operators n .or
  | 9 => ternary n
  | 10 => assignment n
  | 11 => expression n
  | _ => unary n

theorem ofDepth_level (l : Level) (n : Nat) : ofDepth l.depth n = operators n l := by
  cases l <;> rfl

theorem operators_eq (l : Level) (n : Nat) :
    operators (n + 1) l = ofDepth (l.depth - 1) n >>= operatorsAfter n l := by
  rw [operators]
  cases l <;> rfl

theorem operatorsAfter_cons {l : Level} {left : Expr} {op : Token} {u v rest : List Token}
    {P Q : Expr → Prop} (n : Nat) (hop : l.takes op = true)
    (hu : ∀ n, Takes (ofDepth (l.depth - 1) n) u (v ++ rest) P)
    (hv : ∀ n right, P right → Takes (operatorsAfter n l (l.node left op right)) v rest Q) :
    Takes (operatorsAfter n l left) (op :: (u ++ v)) rest Q := by
  cases n with
  | zero => exact .exhausted
  | succ n =>
    rw [operatorsAfter]
    refine accept_cons hop ?_
    have hright : Takes (ofDepth (l.depth - 1) n >>= fun right =>
        operatorsAfter n l (l.node left op right)) (u ++ v) rest Q :=
      (hu n).bind fun right hright => hv n right hright
    cases l <;> exact hright

/-- What is read at one depth is read the same at the next. -/
theorem ofDepth_succ {k : Nat} {w : List Token} {P : Expr → Prop} (h2 : 2 ≤ k) (hk : k < 11)
    (h : ∀ n rest, Stops k rest → Takes (ofDepth k n) w rest P) (n : Nat) {rest : List Token}
    (hr : Stops (k + 1) rest) : Takes (ofDepth (k + 1) n) w rest P := by
  have hlow := fun n => h n rest (hr.mono (Nat.le_succ k))
  have hlevel : ∀ l : Level, l.depth = k + 1 → Takes (ofDepth (k + 1) n) w rest P := by
    intro l hl
    rw [← hl] at hr ⊢
    rw [ofDepth_level]
    cases n with
    | zero => exact .exhausted
    | succ n =>
      rw [operators_eq, hl, Nat.add_sub_cancel]
      exact (hlow n).andThen fun e he => operatorsAfter_stop n hr he
  obtain rfl | rfl | rfl | rfl | rfl | rfl | rfl | rfl | rfl :
    k = 2 ∨ k = 3 ∨ k = 4 ∨ k = 5 ∨ k = 6 ∨ k = 7 ∨ k = 8 ∨ k = 9 ∨ k = 10 := by omega
  · exact hlevel .factor rfl
  · exact hlevel .term rfl
  · exact hlevel .comparison rfl
  · exact hlevel .equality rfl
  · exact hlevel .and rfl
  · exact hlevel .or rfl
  · cases n with
    | zero => exact .exhausted
    | succ n =>
      show Takes (ternary (n + 1)) w rest P
      rw [ternary]
      refine (hlow n).andThen fun e he => ?_
      exact acceptSymbol_pass (hr.avoids_symbol fun t ht => by simp [Token.rank, ht]) (.pure he)
  · cases n with
    | zero => exact .exhausted
    | succ n => exact assignment_of_ternary (hlow n) hr
  · cases n with
    | zero => exact .exhausted
    | succ n => exact expression_of_assignment (hlow n) hr

theorem refer_named {α : Type} {t : Token} {f : Ref → Read α} {w rest : List Token} {Q : α → Prop}
    (hf : ∀ id, Takes (f ⟨id, t⟩) w rest Q) : Takes (refer t >>= f) w rest Q :=
  Takes.before (P := fun ref => ref.name = t) (fun _ id _ => .inl ⟨⟨id, t⟩, id + 1, rfl, rfl⟩)
    fun ref href => by
      obtain ⟨id, name⟩ := ref
      cases href
      exact hf id

end Read

/-! ### Printed trees are read back -/

/-- After the tokens `w`, which print `e`, operators of the level can follow. -/
def Chains (l : Level) (e : Expr) (w : List Token) : Prop :=
  ∀ n (v rest : List Token) (Q : Expr → Prop), Stops (l.depth - 1) (v ++ rest) →
    (∀ m e', e.Same e' → Takes (Read.operatorsAfter m l e') v rest Q) →
      Takes (Read.operators n l) (w ++ v) rest Q

/-- The tokens `w` are read as `e`, wherever a tree that binds as `e` does can stand. -/
structure Returns (e : Expr) (w : List Token) : Prop where
  begins : Begins Token.startsExpr w
  suffixes : e.depth ≤ 1 → ∀ n (v rest : List Token) (Q : Expr → Prop),
    (∀ m e', e.Same e' → Takes (Read.suffixes m e') v rest Q) → Takes (Read.unary n) (w ++ v) rest Q
  chains : ∀ l, e.depth ≤ l.depth → Chains l e w
  reads : ∀ k, 2 ≤ k → e.depth ≤ k → k ≤ 11 → ∀ n rest, Stops k rest →
    Takes (Read.ofDepth k n) w rest e.Same

namespace Returns
variable {e : Expr} {w : List Token}

/-- It is enough to read the tree where it just fits. -/
theorem of_reads {k : Nat} (h2 : 2 ≤ k) (hd : k = e.depth ∨ k = 2 ∧ e.depth ≤ 2)
    (hb : Begins Token.startsExpr w)
    (hs : e.depth ≤ 1 → ∀ n (v rest : List Token) (Q : Expr → Prop),
      (∀ m e', e.Same e' → Takes (Read.suffixes m e') v rest Q) →
        Takes (Read.unary n) (w ++ v) rest Q)
    (hc : ∀ l, l.depth = e.depth → Chains l e w)
    (hr : ∀ n rest, Stops k rest → Takes (Read.ofDepth k n) w rest e.Same) : Returns e w := by
  have hreads : ∀ j, k ≤ j → j ≤ 11 → ∀ n rest, Stops j rest →
      Takes (Read.ofDepth j n) w rest e.Same := by
    intro j hj
    induction hj with
    | refl => exact fun _ => hr
    | @step j hj ih =>
      intro hj11 n rest hrest
      have hkj : k ≤ j := hj
      exact Read.ofDepth_succ (by omega) (by omega) (ih (by omega)) n hrest
  refine ⟨hb, hs, fun l hl => ?_, fun j hj hdj => hreads j (by omega)⟩
  rcases Nat.lt_or_eq_of_le hl with hlt | heq
  · have hbounds := l.depth_bounds
    intro n v rest Q hstop hQ
    cases n with
    | zero => exact .exhausted
    | succ n =>
      rw [Read.operators_eq]
      exact (hreads (l.depth - 1) (by omega) (by omega) n _ hstop).bind fun e' he' => hQ n e' he'
  · exact hc l heq.symm

/-! #### Primary expressions and suffixes -/

theorem of_suffixes (hd : e.depth = 1) (hb : Begins Token.startsExpr w)
    (hs : ∀ n (v rest : List Token) (Q : Expr → Prop),
      (∀ m e', e.Same e' → Takes (Read.suffixes m e') v rest Q) →
        Takes (Read.unary n) (w ++ v) rest Q) : Returns e w := by
  refine of_reads (k := 2) (Nat.le_refl 2) (.inr ⟨rfl, by omega⟩) hb (fun _ => hs) ?_ ?_
  · intro l hl
    have hbounds := l.depth_bounds
    omega
  · intro n rest hrest
    have hread := hs n [] rest e.Same fun m e' he' => Read.suffixes_stop m hrest he'
    rwa [List.append_nil] at hread

theorem of_primary (hd : e.depth = 1) (hb : Begins Token.startsPrimary w)
    (hp : ∀ n rest, Takes (Read.primary (n + 1)) w rest e.Same) : Returns e w := by
  refine of_suffixes hd (hb.imp fun t ht => by simp [Token.startsExpr, ht]) ?_
  intro n v rest Q hQ
  refine FollowsExpr.unary_primary n hb (fun n => ?_) fun n e' he' => hQ n e' he'
  cases n with
  | zero => exact .exhausted
  | succ n => exact hp n (v ++ rest)

theorem literal {value : Literal} {t : Token} (ht : t.kind = value.kind) :
    Returns (.literal value) [t] := by
  refine of_primary rfl ⟨t, [], rfl, ?_⟩ fun n rest => ?_
  · rw [Token.startsPrimary, ht]
    cases value with
    | bool b => cases b <;> rfl
    | _ => rfl
  · rw [Read.primary]
    refine Read.site_takes ?_
    cases value with
    | bool b => cases b <;> simp only [ht, Literal.kind] <;> exact Read.skip_takes (.pure rfl)
    | _ => simp only [ht, Literal.kind]; exact Read.skip_takes (.pure rfl)

theorem «variable» {ref : Ref} (hx : ref.name.isIdentifier = true) :
    Returns (.variable ref) [ref.name] := by
  obtain ⟨y, hk⟩ := Token.kind_of_isIdentifier hx
  refine of_primary rfl ⟨ref.name, [], rfl, FollowsExpr.startsPrimary_name hx⟩ fun n rest => ?_
  rw [Read.primary]
  refine Read.site_takes ?_
  simp only [hk]
  exact Read.skip_takes (Read.refer_named fun id => .pure rfl)

theorem this {ref : Ref} (hx : ref.name.isKeyword .this = true) :
    Returns (.this ref) [ref.name] := by
  have hk := Token.kind_of_isKeyword hx
  refine of_primary rfl ⟨ref.name, [], rfl, by simp [Token.startsPrimary, hk]⟩ fun n rest => ?_
  rw [Read.primary]
  refine Read.site_takes ?_
  simp only [hk]
  exact Read.skip_takes (Read.refer_named fun id => .pure rfl)

theorem super {ref : Ref} {d x : Token} (hs : ref.name.isKeyword .super = true)
    (hd : d.isSymbol .dot = true) (hx : x.isIdentifier = true) :
    Returns (.super ref x) [ref.name, d, x] := by
  refine of_primary rfl ⟨ref.name, _, rfl, FollowsExpr.startsPrimary_super hs⟩ fun n rest => ?_
  rw [Read.primary]
  refine Read.site_takes ?_
  simp only [Token.kind_of_isKeyword hs]
  refine Read.skip_takes (Read.expectSymbol_cons hd (Read.expectName_cons hx ?_))
  exact Read.refer_named fun id => .pure rfl

theorem grouping {l r : Token} (hl : l.isSymbol .leftParen = true)
    (hr : r.isSymbol .rightParen = true) (hd : e.depth ≤ 11) (h : Returns e w) :
    Returns (.grouping e) (l :: (w ++ [r])) := by
  have hk := Token.kind_of_isSymbol hl
  have hrank : 11 < r.rank := by simp [Token.rank, Token.kind_of_isSymbol hr]
  refine of_primary rfl ⟨l, _, rfl, by simp [Token.startsPrimary, hk]⟩ fun n rest => ?_
  rw [Read.primary]
  refine Read.site_takes ?_
  simp only [hk]
  refine Read.skip_takes ((h.reads 11 (by decide) hd (by decide) n _ (.cons hrank)).bind ?_)
  intro e' he'
  refine Read.expectSymbol_cons hr (.pure ?_)
  rw [Expr.Same, Expr.unnumbered, Expr.unnumbered, he']

theorem get {d x : Token} (hd : d.isSymbol .dot = true) (hx : x.isIdentifier = true)
    (he : e.depth ≤ 1) (h : Returns e w) : Returns (.get e x) (w ++ [d, x]) := by
  refine of_suffixes rfl (h.begins.append _) fun n v rest Q hQ => ?_
  rw [List.append_assoc]
  refine h.suffixes he n _ rest Q fun m e' he' => ?_
  refine FollowsExpr.suffixes_property m hd hx fun m => hQ m _ ?_
  rw [Expr.Same, Expr.unnumbered, Expr.unnumbered, he']

/-! #### Lists -/

/-- The tokens are read as the trees, each with a comma before it. -/
inductive Each : List Expr → List Token → Prop where
  | nil : Each [] []
  | cons {e : Expr} {es : List Expr} {t : Token} {u v : List Token}
      (ht : t.isSymbol .comma = true) (hd : e.depth ≤ 10) (h : Returns e u) (hes : Each es v) :
      Each (e :: es) (t :: (u ++ v))

theorem Each.stops {es : List Expr} {rest : List Token} (h : Each es w) (hr : Stops 11 rest) :
    Stops 10 (w ++ rest) := by
  cases h with
  | nil => exact hr.mono (by decide)
  | cons ht _ _ _ => exact .cons (by simp [Token.rank, Token.kind_of_isSymbol ht])

theorem Each.parts {es : List Expr} {rest : List Token} (h : Each es w) (hr : Stops 11 rest) (n : Nat)
    (acc : List Expr) : Takes (Read.parts n acc) w rest fun es' =>
      Expr.unnumberedAll es' = (acc.reverse ++ es).map Expr.unnumbered := by
  induction h generalizing n acc with
  | nil =>
    cases n with
    | zero => exact .exhausted
    | succ n =>
      rw [Read.parts]
      refine Read.acceptSymbol_pass (hr.avoids_symbol fun t ht => by simp [Token.rank, ht]) ?_
      refine .pure ?_
      rw [Expr.unnumberedAll_eq, List.append_nil]
  | @cons e es t u v ht hd hu hes ih =>
    cases n with
    | zero => exact .exhausted
    | succ n =>
      rw [Read.parts]
      refine Read.acceptSymbol_cons ht ?_
      refine (hu.reads 10 (by decide) hd (by decide) n _ (hes.stops hr)).bind fun e' he' => ?_
      refine (ih n (e' :: acc)).imp fun es' hes' => hes'.trans ?_
      have hsame : e'.unnumbered = e.unnumbered := he'
      simp [hsame]

theorem Each.arguments {t : Token} {es : List Expr} {rest : List Token} (h : Each es (t :: w))
    (hr : Stops 11 rest) (n count : Nat) (acc : List Expr)
    (hcount : count + es.length ≤ Read.maxArguments) :
    Takes (Read.arguments n count acc) w rest fun es' =>
      Expr.unnumberedAll es' = (acc.reverse ++ es).map Expr.unnumbered := by
  induction es generalizing t w n count acc with
  | nil => cases h
  | cons e es ih =>
    cases h with
    | @cons _ _ _ u v ht hd hu hes =>
      rw [List.length_cons] at hcount
      cases n with
      | zero => exact .exhausted
      | succ n =>
        rw [Read.arguments, if_neg (by omega)]
        refine (hu.reads 10 (by decide) hd (by decide) n _ (hes.stops hr)).bind fun e' he' => ?_
        have hsame : e'.unnumbered = e.unnumbered := he'
        cases hes with
        | nil =>
          refine Read.acceptSymbol_pass (hr.avoids_symbol fun t ht => by simp [Token.rank, ht]) ?_
          refine .pure ?_
          simp [Expr.unnumberedAll_eq, hsame]
        | cons ht' hd' hu' hes' =>
          refine Read.acceptSymbol_cons ht' ?_
          refine (ih (.cons ht' hd' hu' hes') n (count + 1) (e' :: acc) (by omega)).imp ?_
          intro es' hes'
          refine hes'.trans ?_
          simp [hsame]

theorem call {l paren : Token} {es : List Expr} {u : List Token}
    (hl : l.isSymbol .leftParen = true) (hp : paren.isSymbol .rightParen = true) (he : e.depth ≤ 1)
    (hcount : es.length ≤ Read.maxArguments) (h : Returns e w) (hes : Each es u) :
    Returns (.call e paren es) (w ++ l :: (u.tail ++ [paren])) := by
  have hrank : 11 < paren.rank := by simp [Token.rank, Token.kind_of_isSymbol hp]
  refine of_suffixes rfl (h.begins.append _) fun n v rest Q hQ => ?_
  simp only [List.append_assoc, List.cons_append, List.nil_append]
  refine h.suffixes he n _ rest Q fun m e' he' => ?_
  cases m with
  | zero => exact .exhausted
  | succ m =>
    rw [Read.suffixes]
    refine Read.acceptSymbol_cons hl ?_
    have hsame : ∀ es', Expr.unnumberedAll es' = es.map Expr.unnumbered →
        Expr.Same (.call e paren es) (.call e' paren es') := by
      intro es' hes'
      rw [Expr.Same, Expr.unnumbered, Expr.unnumbered, he', hes', Expr.unnumberedAll_eq]
    cases hes with
    | nil =>
      refine Read.ahead_takes (b := true) hp (Read.expectSymbol_cons hp (hQ m _ ?_))
      exact hsame [] rfl
    | @cons e₁ es t u₁ v₁ ht hd h₁ hrest =>
      refine Read.ahead_takes (b := false) ?_ ?_
      · rw [List.tail_cons, List.append_assoc, List.append_assoc]
        exact (h₁.begins.append _).avoids fun t ht =>
          FollowsExpr.startsExpr_not_symbol ht (by decide)
      · have hstop : Stops 11 (paren :: v ++ rest) := .cons hrank
        have hargs := (Each.cons ht hd h₁ hrest).arguments hstop m 0 [] (by simpa using hcount)
        refine hargs.bind fun es' hes' => Read.expectSymbol_cons hp (hQ m _ ?_)
        exact hsame es' hes'

/-! #### Operators -/

theorem unary {op : Token} (hop : Read.isUnaryOp op = true) (hd : e.depth ≤ 2) (h : Returns e w) :
    Returns (.unary op e) (op :: w) := by
  refine of_reads (k := 2) (Nat.le_refl 2) (.inl rfl)
    ⟨op, w, rfl, by simp [Token.startsExpr, hop]⟩ (fun hone => absurd hone (by simp [Expr.depth])) ?_ ?_
  · intro l hl
    have hbounds := l.depth_bounds
    exact absurd hl (by rw [Expr.depth]; omega)
  · intro n rest hrest
    show Takes (Read.unary n) (op :: w) rest _
    cases n with
    | zero => exact .exhausted
    | succ n =>
      rw [Read.unary]
      refine Read.accept_cons hop ?_
      have hread := h.reads 2 (Nat.le_refl 2) hd (by decide) n rest hrest
      refine Takes.andThen hread fun e' he' => .pure ?_
      rw [Expr.Same, Expr.unnumbered, Expr.unnumbered, he']

theorem node_same {l : Level} {left left' right right' : Expr} (op : Token)
    (hl : left.Same left') (hr : right.Same right') :
    (l.node left op right).Same (l.node left' op right') := by
  unfold Expr.Same at hl hr ⊢
  cases l <;> simp only [Level.node, Expr.unnumbered, hl, hr]

theorem node_depth {l : Level} {op : Token} (hop : l.takes op = true) (left right : Expr) :
    (l.node left op right).depth = l.depth := by
  have hrank := Token.rank_of_takes hop
  cases l <;> exact hrank

theorem node {l : Level} {left right : Expr} {op : Token} {u v : List Token}
    (hop : l.takes op = true) (hdl : left.depth ≤ l.depth) (hdr : right.depth < l.depth)
    (hl : Returns left u) (hr : Returns right v) :
    Returns (l.node left op right) (u ++ op :: v) := by
  have hbounds := l.depth_bounds
  have hdepth := node_depth hop left right
  -- The left operand may itself be a row of operators of the level, which this one goes on with.
  have hchain : Chains l (l.node left op right) (u ++ op :: v) := by
    intro n x rest Q hstop hQ
    rw [List.append_assoc, List.cons_append]
    refine hl.chains l hdl n (op :: (v ++ x)) rest Q ?_ fun m left' hleft => ?_
    · exact .cons (by rw [Token.rank_of_takes hop]; omega)
    · refine Read.operatorsAfter_cons (P := right.Same) m hop (fun n => ?_) fun n right' hright => ?_
      · exact hr.reads (l.depth - 1) (by omega) (by omega) (by omega) n _ hstop
      · exact hQ n _ (node_same op hleft hright)
  refine of_reads (k := l.depth) (by omega) (.inl hdepth.symm) (hl.begins.append _) ?_ ?_ ?_
  · intro hone
    omega
  · intro l' hl'
    have hsame : l' = l := by
      rw [hdepth] at hl'
      cases l <;> cases l' <;> first | rfl | cases hl'
    rw [hsame]
    exact hchain
  · intro n rest hrest
    rw [Read.ofDepth_level]
    have hread := hchain n [] rest (l.node left op right).Same (hrest.mono (by omega))
      fun m e' he' => Read.operatorsAfter_stop m hrest he'
    rwa [List.append_nil] at hread

/-- A form that is neither an operand of operators nor of suffixes. -/
theorem of_loose (hlow : 9 ≤ e.depth) (hb : Begins Token.startsExpr w)
    (hr : ∀ n rest, Stops e.depth rest → Takes (Read.ofDepth e.depth n) w rest e.Same) :
    Returns e w := by
  refine of_reads (k := e.depth) (by omega) (.inl rfl) hb (fun hone => by omega) ?_ hr
  intro l hl
  have hbounds := l.depth_bounds
  omega

theorem ternary {c y n : Expr} {q k : Token} {u v x : List Token} (hq : q.isSymbol .question = true)
    (hk : k.isSymbol .colon = true) (hdc : c.depth ≤ 8) (hdy : y.depth ≤ 11) (hdn : n.depth ≤ 9)
    (hc : Returns c u) (hy : Returns y v) (hn : Returns n x) :
    Returns (.ternary c y n) (u ++ q :: (v ++ k :: x)) := by
  have hqr : 8 < q.rank := by simp [Token.rank, Token.kind_of_isSymbol hq]
  have hkr : 11 < k.rank := by simp [Token.rank, Token.kind_of_isSymbol hk]
  refine of_loose (Nat.le_refl 9) (hc.begins.append _) fun m rest hrest => ?_
  show Takes (Read.ternary m) _ rest _
  cases m with
  | zero => exact .exhausted
  | succ m =>
    rw [Read.ternary]
    have hcond := hc.reads 8 (by decide) hdc (by decide) m (q :: (v ++ k :: x) ++ rest) (.cons hqr)
    refine Takes.bind hcond fun c' hc' => Read.acceptSymbol_cons hq ?_
    have hyes := hy.reads 11 (by decide) hdy (by decide) m (k :: x ++ rest) (.cons hkr)
    refine Takes.bind hyes fun y' hy' => Read.expectSymbol_cons hk ?_
    have hno := hn.reads 9 (by decide) hdn (by decide) m rest hrest
    refine Takes.andThen hno fun n' hn' => .pure ?_
    unfold Expr.Same at hc' hy' hn' ⊢
    simp only [Expr.unnumbered, hc', hy', hn']

/-- A value is read after its target, which is made the target of an assignment then. -/
theorem assigned {target result : Expr} {op : Token} {u v : List Token}
    (hop : Read.isAssignOp op = true) (hdt : target.depth ≤ 9) (hde : e.depth ≤ 10)
    (hdr : result.depth = 10) (ht : Returns target u) (he : Returns e v)
    (h : ∀ target' e' rest, target.Same target' → e.Same e' →
      Takes (Read.assigned target' op e') [] rest result.Same) :
    Returns result (u ++ op :: v) := by
  refine of_loose (by omega) (ht.begins.append _) fun n rest hrest => ?_
  rw [hdr] at hrest ⊢
  show Takes (Read.assignment n) _ rest _
  cases n with
  | zero => exact .exhausted
  | succ n =>
    rw [Read.assignment]
    have htarget := ht.reads 9 (by decide) hdt (by decide) n (op :: v ++ rest)
      (.cons (by rw [Token.rank_of_isAssignOp hop]; decide))
    refine Takes.bind htarget fun target' ht' => Read.accept_cons hop ?_
    have hvalue := he.reads 10 (by decide) hde (by decide) n rest hrest
    exact Takes.andThen hvalue fun e' he' => h target' e' rest ht' he'

theorem comma {es : List Expr} {u : List Token} (h : Each es u) (hes : 2 ≤ es.length) :
    Returns (.comma es) u.tail := by
  cases h with
  | nil => exact absurd hes (by decide)
  | @cons e es t u v ht hd h₁ hrest =>
    refine of_loose (by simp [Expr.depth]) (h₁.begins.append _) fun n rest hstop => ?_
    show Takes (Read.expression n) (u ++ v) rest _
    cases n with
    | zero => exact .exhausted
    | succ n =>
      rw [Read.expression]
      have hfirst := h₁.reads 10 (by decide) hd (by decide) n _ (hrest.stops hstop)
      refine Takes.bind hfirst fun e' he' => Read.ahead_takes (b := true) ?_ ?_
      · cases hrest with
        | nil => exact absurd hes (by simp)
        | cons ht' _ _ _ => exact ht'
      · refine (hrest.parts hstop n [e']).andThen fun es' hes' => .pure ?_
        have hsame : e'.unnumbered = e.unnumbered := he'
        rw [Expr.Same, Expr.unnumbered, Expr.unnumbered, hes', Expr.unnumberedAll_eq]
        simp [hsame]

end Returns

/-! ### Trees of every form -/

theorem Token.Compounds.isAssignOp {t : Token} (h : t.Compounds) : Read.isAssignOp t = true := by
  obtain ⟨s, hs, ht⟩ := h
  exact isAssignOp_iff.2 ⟨s, List.mem_cons_of_mem _ hs, ht⟩

theorem Token.Compounds.compoundOp? {t : Token} (h : t.Compounds) :
    Read.compoundOp? t = some t := by
  obtain ⟨s, hs, ht⟩ := h
  have hsymbol : t.symbol? = some s := by rw [Token.symbol?, Token.kind_of_isSymbol ht]
  rw [Read.compoundOp?, hsymbol]
  simp only [List.mem_cons, List.not_mem_nil, or_false] at hs
  rcases hs with rfl | rfl | rfl | rfl | rfl <;> rfl

theorem Token.isAssignOp_equal {t : Token} (h : t.isSymbol .equal = true) :
    Read.isAssignOp t = true :=
  isAssignOp_iff.2 ⟨.equal, List.mem_cons_self, h⟩

theorem Token.compoundOp?_equal {t : Token} (h : t.isSymbol .equal = true) :
    Read.compoundOp? t = none := by
  have hsymbol : t.symbol? = some .equal := by rw [Token.symbol?, Token.kind_of_isSymbol h]
  rw [Read.compoundOp?, hsymbol]
  rfl

theorem Expr.Bracketed.depth_le {e : Expr} (h : e.Bracketed) : e.depth ≤ 11 := by
  cases h with
  | binary hop _ _ _ _ => exact Nat.le_trans hop.2 (by decide)
  | logical hop _ _ _ _ => exact Nat.le_trans hop.2 (by decide)
  | _ => simp [Expr.depth]

/-- An operator that ranks as binary operators do has a level. -/
theorem Level.exists_of_rank {op : Token} (h : 3 ≤ op.rank ∧ op.rank ≤ 8) :
    ∃ l : Level, l.takes op = true ∧ l.depth = op.rank := by
  have hany : (op.rank < 3 || 8 < op.rank ||
      [Level.or, .and, .equality, .comparison, .term, .factor].any fun l =>
        l.takes op && l.depth == op.rank) = true := by
    obtain ⟨kind, lexeme, pos, file⟩ := op
    cases kind with
    | symbol s => cases s <;> rfl
    | keyword k => cases k <;> rfl
    | _ => rfl
  simp only [Bool.or_eq_true_iff, decide_eq_true_eq, List.any_eq_true, Bool.and_eq_true_iff,
    beq_iff_eq] at hany
  rcases hany with (hlow | hhigh) | ⟨l, -, htakes, hdepth⟩
  · omega
  · omega
  · exact ⟨l, htakes, hdepth⟩

theorem Level.node_binary {l : Level} (h : l.depth ≤ 6) (left : Expr) (op : Token) (right : Expr) :
    l.node left op right = .binary left op right := by
  cases l <;> first | rfl | exact absurd h (by decide)

theorem Level.node_logical {l : Level} (h : 7 ≤ l.depth) (left : Expr) (op : Token) (right : Expr) :
    l.node left op right = .logical left op right := by
  cases l <;> first | rfl | exact absurd h (by decide)

theorem Slot.fits_symbol {s : Symbol} {t : Token} (h : (Slot.symbol s).Fits t) :
    t.isSymbol s = true := by
  rw [Token.isSymbol, beq_iff_eq]
  exact h

namespace Returns
open List (forall₂_cons_left_iff forall₂_nil_left_iff)
variable {w : List Token}

theorem assign {ref : Ref} {e : Expr} {t : Token} (hx : ref.name.isIdentifier = true)
    (ht : t.isSymbol .equal = true) (hd : e.depth ≤ 10) (h : Returns e w) :
    Returns (.assign ref e) (ref.name :: t :: w) := by
  refine assigned (u := [ref.name]) (Token.isAssignOp_equal ht) (by simp [Expr.depth]) hd rfl
    (.variable hx) h fun target' e' rest htarget he' => ?_
  obtain ⟨ref', rfl, hname⟩ := htarget.variable
  rw [Read.assigned, Token.compoundOp?_equal ht]
  refine .pure ?_
  unfold Expr.Same at he' ⊢
  simp only [Expr.unnumbered, Ref.unnumbered, hname, he']

theorem compound {ref : Ref} {op : Token} {e : Expr} (hx : ref.name.isIdentifier = true)
    (hop : op.Compounds) (hd : e.depth ≤ 10) (h : Returns e w) :
    Returns (.compound ref op e) (ref.name :: op :: w) := by
  refine assigned (u := [ref.name]) hop.isAssignOp (by simp [Expr.depth]) hd rfl (.variable hx) h
    fun target' e' rest htarget he' => ?_
  obtain ⟨ref', rfl, hname⟩ := htarget.variable
  rw [Read.assigned, hop.compoundOp?]
  refine .pure ?_
  unfold Expr.Same at he' ⊢
  simp only [Expr.unnumbered, Ref.unnumbered, hname, he']

theorem set {o e : Expr} {d x t : Token} {u : List Token} (hdot : d.isSymbol .dot = true)
    (hx : x.isIdentifier = true) (hop : Read.isAssignOp t = true) (hdo : o.depth ≤ 1)
    (ho : Returns o u) (hd : e.depth ≤ 10) (h : Returns e w) :
    Returns (.set o x (Read.compoundOp? t) e) (u ++ d :: x :: t :: w) := by
  rw [List.append_cons u d, List.append_cons _ x, List.append_assoc u [d] [x]]
  refine assigned hop (by simp [Expr.depth]) hd rfl (Returns.get hdot hx hdo ho) h
    fun target' e' rest htarget he' => ?_
  obtain ⟨o', rfl, ho'⟩ := htarget.get
  rw [Read.assigned]
  refine .pure ?_
  unfold Expr.Same at he' ho' ⊢
  simp only [Expr.unnumbered, he', ho']

theorem each {es : List Expr} (hd : ∀ e ∈ es, e.depth ≤ 10)
    (h : ∀ e ∈ es, ∀ {w : List Token}, e.Prints w → Returns e w)
    (hw : List.Forall₂ Slot.Fits (Expr.slotsEach es) w) : Each es w := by
  induction es generalizing w with
  | nil =>
    rw [forall₂_nil_left_iff.1 hw]
    exact .nil
  | cons e es ih =>
    obtain ⟨t, _, ht, hev, rfl⟩ := forall₂_cons_left_iff.1 hw
    obtain ⟨u, v, rfl, hu, hv⟩ := forall₂_append_left hev
    obtain ⟨hde, hdes⟩ := List.forall_mem_cons.1 hd
    have hes := ih hdes (fun e he => h e (List.mem_cons_of_mem _ he)) hv
    exact .cons (Slot.fits_symbol ht) hde (h e List.mem_cons_self hu) hes

/-- Trees that are printed with commas between them. -/
theorem exists_each {es : List Expr} (hd : ∀ e ∈ es, e.depth ≤ 10)
    (h : ∀ e ∈ es, ∀ {w : List Token}, e.Prints w → Returns e w)
    (hw : List.Forall₂ Slot.Fits (Expr.slotsEach es).tail w) : ∃ u, Each es u ∧ u.tail = w := by
  cases es with
  | nil => exact ⟨[], .nil, (forall₂_nil_left_iff.1 hw).symm⟩
  | cons e es =>
    let comma : Token := ⟨.symbol .comma, ",", .start, none⟩
    exact ⟨comma :: w, each hd h (.cons rfl hw), rfl⟩

theorem operator {l r : Expr} {op : Token} {make : Expr → Token → Expr → Expr}
    (hop : 3 ≤ op.rank ∧ op.rank ≤ 8)
    (hmake : ∀ k : Level, k.depth = op.rank → k.node l op r = make l op r)
    (hdl : l.depth ≤ op.rank) (hdr : r.depth < op.rank)
    (hl : ∀ {w : List Token}, l.Prints w → Returns l w)
    (hr : ∀ {w : List Token}, r.Prints w → Returns r w)
    (hw : List.Forall₂ Slot.Fits (l.slots ++ .token op :: r.slots) w) :
    Returns (make l op r) w := by
  obtain ⟨u, _, rfl, hu, hrest⟩ := forall₂_append_left hw
  obtain ⟨_, v, rfl, hv, rfl⟩ := forall₂_cons_left_iff.1 hrest
  obtain ⟨k, htakes, hdepth⟩ := Level.exists_of_rank hop
  rw [← hmake k hdepth]
  rw [← hdepth] at hdl hdr
  exact node htakes hdl hdr (hl hu) (hr hv)

end Returns

open Returns List in
/-- Every printed tree is read back. -/
theorem Expr.Bracketed.returns {e : Expr} (he : e.Bracketed) {w : List Token} (hw : e.Prints w) :
    Returns e w := by
  unfold Expr.Prints at hw
  induction he generalizing w with
  | literal value =>
    obtain ⟨t, _, ht, hnil, rfl⟩ := forall₂_cons_left_iff.1 hw
    obtain rfl := forall₂_nil_left_iff.1 hnil
    exact Returns.literal ht
  | @grouping e h ih =>
    obtain ⟨l, _, hl, h₁, rfl⟩ := forall₂_cons_left_iff.1 hw
    obtain ⟨u, _, rfl, hu, h₂⟩ := forall₂_append_left h₁
    obtain ⟨r, _, hr, hnil, rfl⟩ := forall₂_cons_left_iff.1 h₂
    obtain rfl := forall₂_nil_left_iff.1 hnil
    exact Returns.grouping (Slot.fits_symbol hl) (Slot.fits_symbol hr) h.depth_le (ih hu)
  | @unary op e hop h hd ih =>
    obtain ⟨_, u, rfl, hu, rfl⟩ := forall₂_cons_left_iff.1 hw
    exact Returns.unary (isUnaryOp_iff.2 hop) hd (ih hu)
  | @binary l r op hop hl hr hdl hdr ihl ihr =>
    refine operator ⟨hop.1, by omega⟩ (fun k hk => ?_) hdl hdr ihl ihr hw
    exact Level.node_binary (by omega) l op r
  | @logical l r op hop hl hr hdl hdr ihl ihr =>
    refine operator ⟨by omega, hop.2⟩ (fun k hk => ?_) hdl hdr ihl ihr hw
    exact Level.node_logical (by omega) l op r
  | @ternary c y n hc hy hn hdc hdn ihc ihy ihn =>
    obtain ⟨u, _, rfl, hu, h₁⟩ := forall₂_append_left hw
    obtain ⟨q, _, hq, h₂, rfl⟩ := forall₂_cons_left_iff.1 h₁
    obtain ⟨v, _, rfl, hv, h₃⟩ := forall₂_append_left h₂
    obtain ⟨k, x, hk, hx, rfl⟩ := forall₂_cons_left_iff.1 h₃
    exact Returns.ternary (Slot.fits_symbol hq) (Slot.fits_symbol hk) hdc hy.depth_le hdn (ihc hu)
      (ihy hv) (ihn hx)
  | @comma es hes h hd ih =>
    obtain ⟨u, hu, rfl⟩ := exists_each hd (fun e he w hw => ih e he hw) hw
    exact Returns.comma hu hes
  | @«variable» ref hx =>
    obtain ⟨_, _, rfl, hnil, rfl⟩ := forall₂_cons_left_iff.1 hw
    obtain rfl := forall₂_nil_left_iff.1 hnil
    exact Returns.variable hx
  | @assign ref e hx h hd ih =>
    obtain ⟨_, _, rfl, hrest, rfl⟩ := forall₂_cons_left_iff.1 hw
    obtain ⟨t, v, ht, hv, rfl⟩ := forall₂_cons_left_iff.1 hrest
    exact Returns.assign hx (Slot.fits_symbol ht) hd (ih hv)
  | @compound ref op e hx hop h hd ih =>
    obtain ⟨_, _, rfl, hrest, rfl⟩ := forall₂_cons_left_iff.1 hw
    obtain ⟨_, v, rfl, hv, rfl⟩ := forall₂_cons_left_iff.1 hrest
    exact Returns.compound hx hop hd (ih hv)
  | @call e paren es hp hes h hd hall hdall ih ihall =>
    obtain ⟨u, _, rfl, hu, h₁⟩ := forall₂_append_left hw
    obtain ⟨l, _, hl, h₂, rfl⟩ := forall₂_cons_left_iff.1 h₁
    obtain ⟨_, _, rfl, h₃, h₄⟩ := forall₂_append_left h₂
    obtain ⟨_, _, rfl, hnil, rfl⟩ := forall₂_cons_left_iff.1 h₄
    obtain rfl := forall₂_nil_left_iff.1 hnil
    obtain ⟨v, hv, rfl⟩ := exists_each hdall (fun e he w hw => ihall e he hw) h₃
    exact Returns.call (Slot.fits_symbol hl) hp hd hes (ih hu) hv
  | @get e x hx h hd ih =>
    obtain ⟨u, _, rfl, hu, h₁⟩ := forall₂_append_left hw
    obtain ⟨d, _, hdot, h₂, rfl⟩ := forall₂_cons_left_iff.1 h₁
    obtain ⟨_, _, rfl, hnil, rfl⟩ := forall₂_cons_left_iff.1 h₂
    obtain rfl := forall₂_nil_left_iff.1 hnil
    exact Returns.get (Slot.fits_symbol hdot) hx hd (ih hu)
  | @set o e y op hx hop ho hdo h hd iho ih =>
    obtain ⟨u, _, rfl, hu, h₁⟩ := forall₂_append_left hw
    obtain ⟨d, _, hdot, h₂, rfl⟩ := forall₂_cons_left_iff.1 h₁
    obtain ⟨x, _, rfl, h₃, rfl⟩ := forall₂_cons_left_iff.1 h₂
    obtain ⟨t, v, ht, hv, rfl⟩ := forall₂_cons_left_iff.1 h₃
    have hset (hassign : Read.isAssignOp t = true) :=
      Returns.set (Slot.fits_symbol hdot) hx hassign hdo (iho hu) hd (ih hv)
    cases op with
    | none =>
      have hequal := Slot.fits_symbol ht
      exact Token.compoundOp?_equal hequal ▸ hset (Token.isAssignOp_equal hequal)
    | some op =>
      obtain rfl : t = op := ht
      exact (hop t rfl).compoundOp? ▸ hset (hop t rfl).isAssignOp
  | @this ref hx =>
    obtain ⟨_, _, rfl, hnil, rfl⟩ := forall₂_cons_left_iff.1 hw
    obtain rfl := forall₂_nil_left_iff.1 hnil
    exact Returns.this hx
  | @super ref x hs hx =>
    obtain ⟨_, _, rfl, h₁, rfl⟩ := forall₂_cons_left_iff.1 hw
    obtain ⟨d, _, hdot, h₂, rfl⟩ := forall₂_cons_left_iff.1 h₁
    obtain ⟨_, _, rfl, hnil, rfl⟩ := forall₂_cons_left_iff.1 h₂
    obtain rfl := forall₂_nil_left_iff.1 hnil
    exact Returns.super hs (Slot.fits_symbol hdot) hx

namespace Program

/-- A printed tree is read back, up to the ids of its references: the tokens and a semicolon are one
statement, nothing is reported and nothing is left. -/
theorem read_printed {e : Expr} {w : List Token} {semi : Token} (he : e.Bracketed)
    (hw : e.Prints w) (hsemi : semi.isSymbol .semicolon = true) (stop : Pos) (firstId : Nat) :
    ∃ e' id, Read.declarations (steps (w ++ [semi]).length) [] ⟨w ++ [semi], stop, firstId, []⟩ =
        .ok [.expr e'] ⟨[], stop, id, []⟩ ∧
      read (w ++ [semi]) stop firstId = ⟨[.expr e'], [], id⟩ ∧
      e'.unnumbered = e.unnumbered := by
  have hread := he.returns hw
  have hrank := Follows.stops_symbol hsemi (by simp) []
  have hstmt : ∀ n, Takes (Read.expressionStatement n) (w ++ [semi]) [] fun s =>
      ∃ e', s = .expr e' ∧ e.Same e' := by
    intro n
    refine (hread.reads 11 (by decide) he.depth_le (by decide) n [semi] hrank).bind fun e' he' => ?_
    exact Read.expectSymbol_cons hsemi (.pure ⟨e', rfl, he'⟩)
  have hbegins := hread.begins.append [semi]
  have hdecls : Takes (Read.declarations (steps (w ++ [semi]).length) []) (w ++ [semi]) []
      fun ss => ∃ e', ss = [.expr e'] ∧ e.Same e' := by
    rw [steps, Nat.mul_add, Read.declarations]
    refine Read.atEnd_takes (b := false) (by simp) ?_
    have hdecl : ∀ n, Takes (Read.declaration n) (w ++ [semi]) [] fun s =>
        ∃ e', s = some (.expr e') ∧ e.Same e' := by
      intro n
      refine Follows.declaration_stmt n (hbegins.imp fun t => Token.startsStmt_of_startsExpr)
        (fun n => Follows.statement_expr n hbegins hstmt) ?_
      rintro _ ⟨e', rfl, he'⟩
      exact ⟨e', rfl, he'⟩
    refine (hdecl _).andThen ?_
    rintro _ ⟨e', rfl, he'⟩
    rw [Read.declarations]
    exact Read.atEnd_takes (b := true) rfl (.pure ⟨e', rfl, he'⟩)
  rcases hdecls stop firstId [] with ⟨ss, id, hok, e', rfl, hsame⟩ | ⟨r, hr⟩
  · rw [List.append_nil] at hok
    exact ⟨e', id, hok, by rw [read, hok]; rfl, hsame⟩
  · rw [List.append_nil] at hr
    exact absurd hr (read_not_exhausted (w ++ [semi]) stop firstId r)

/-- `x.f += x - x - this.f(x, nil)` -/
theorem read_printed_compound :
    let t (kind : Token.Kind) (lexeme : String) : Token := ⟨kind, lexeme, .start, none⟩
    let x := t (.identifier "x") "x"
    let f := t (.identifier "f") "f"
    let this := t (.keyword .this) "this"
    let minus := t (.symbol .minus) "-"
    let plus := t (.symbol .plusEqual) "+="
    let close := t (.symbol .rightParen) ")"
    let semi := t (.symbol .semicolon) ";"
    let e : Expr := .set (.variable ⟨0, x⟩) f (some plus)
      (.binary (.binary (.variable ⟨0, x⟩) minus (.variable ⟨0, x⟩)) minus
        (.call (.get (.this ⟨0, this⟩) f) close [.variable ⟨0, x⟩, .literal .nil]))
    let w := [x, t (.symbol .dot) ".", f, plus, x, minus, x, minus, this, t (.symbol .dot) ".", f,
      t (.symbol .leftParen) "(", x, t (.symbol .comma) ",", t (.keyword .nil) "nil", close]
    e.Bracketed ∧ e.Prints w ∧ semi.isSymbol .semicolon = true ∧
      ∃ e' id, read (w ++ [semi]) .start 7 = ⟨[.expr e'], [], id⟩ ∧
        e'.unnumbered = e.unnumbered := by
  intro t x f this minus plus close semi e w
  have hx : (Expr.variable ⟨0, x⟩).Bracketed := .variable rfl
  have hcall : (Expr.call (.get (.this ⟨0, this⟩) f) close
      [.variable ⟨0, x⟩, .literal .nil]).Bracketed := by
    refine .call rfl (by simp) (.get rfl (.this rfl) (Nat.le_refl 1)) (Nat.le_refl 1) ?_ ?_
    · simp [hx, Expr.Bracketed.literal]
    · simp [Expr.depth]
  have hrank : minus.rank = 4 := rfl
  have he : e.Bracketed := by
    refine .set rfl ?_ hx (Nat.le_refl 1) (.binary ?_ (.binary ?_ hx hx ?_ ?_) hcall ?_ ?_) ?_
    · rintro _ ⟨⟩
      exact ⟨.plusEqual, by simp, rfl⟩
    all_goals simp [Expr.depth, hrank]
  have hw : e.Prints w := by
    refine .cons rfl (.cons rfl (.cons rfl (.cons rfl ?_)))
    exact .cons rfl (.cons rfl (.cons rfl (.cons rfl (.cons rfl (.cons rfl (.cons rfl (.cons rfl
      (.cons rfl (.cons rfl (.cons rfl (.cons rfl .nil)))))))))))
  have hsemi : semi.isSymbol .semicolon = true := rfl
  obtain ⟨e', id, -, hread, hsame⟩ := read_printed he hw hsemi .start 7
  exact ⟨he, hw, hsemi, e', id, hread, hsame⟩

end Program

end Treewalk
