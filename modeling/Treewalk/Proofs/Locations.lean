import Treewalk.Proofs.Addressing

/-!
# Where variables are read and written

There are two ways to a variable: the search for a name along the chain of a scope, and a number of
links up that chain. `Up` and `Nearest` say which scope each of them leads to, without regard to how
it is found. `Scopes.accesses_agree`: among scopes that are made and written in any order, reads and
writes of both ways come upon the variable of that scope and no other, a write that finds no scope
changes nothing, and a value stays until the same variable is written again.
-/

namespace Treewalk

namespace Scopes

/-! ### Chains -/

/-- The scope `t` is `d` links up from `s`. -/
inductive Up (ss : Scopes) : Nat → Nat → Nat → Prop where
  | here (s : Nat) : Up ss s 0 s
  | link {s p d t : Nat} (hp : ss.parent? s = some p) (h : Up ss p d t) : Up ss s (d + 1) t

/-- The scope `t` is `d` links up from `s` and holds `x`, and no nearer one does. -/
structure Nearest (ss : Scopes) (s : Nat) (x : String) (d t : Nat) : Prop where
  up : Up ss s d t
  held : (ss.here? t x).isSome
  nearer : ∀ e < d, ∀ u, Up ss s e u → ss.here? u x = none

/-- The scope around a scope was made before it. -/
def Descends (ss : Scopes) : Prop := ∀ s p, ss.parent? s = some p → p < s

variable {ss ss' : Scopes} {s t u d e : Nat} {x y : String} {v : Value}

theorem ancestor?_eq_some_iff : ss.ancestor? s d = some t ↔ Up ss s d t := by
  induction d generalizing s with
  | zero =>
    constructor
    · rintro ⟨⟩
      exact .here _
    · rintro ⟨⟩
      rfl
  | succ d ih =>
    rw [ancestor?]
    constructor
    · intro h
      split at h
      · next p hp => exact .link hp (ih.1 h)
      · cases h
    · rintro (_ | ⟨hp, h⟩)
      rw [hp]
      exact ih.2 h

theorem ancestor?_eq_none_iff : ss.ancestor? s d = none ↔ ∀ t, ¬ Up ss s d t := by
  rw [Option.eq_none_iff_forall_ne_some]
  exact forall_congr' fun t => not_congr ancestor?_eq_some_iff

theorem Up.unique (h : Up ss s d t) (h' : Up ss s d u) : t = u :=
  Option.some.inj ((ancestor?_eq_some_iff.2 h).symm.trans (ancestor?_eq_some_iff.2 h'))

theorem Up.congr (hp : ∀ s, ss'.parent? s = ss.parent? s) : Up ss' s d t ↔ Up ss s d t := by
  have hone : ∀ {ss ss' : Scopes} {s d t}, (∀ s, ss'.parent? s = ss.parent? s) →
      Up ss s d t → Up ss' s d t := by
    intro ss ss' s d t hp h
    induction h with
    | here s => exact .here s
    | link hs _ ih => exact .link ((hp _).trans hs) ih
  exact ⟨hone fun s => (hp s).symm, hone hp⟩

namespace Descends

theorem le (hd : ss.Descends) (h : Up ss s d t) : t + d ≤ s := by
  induction h with
  | here s => exact Nat.le_refl s
  | link hp _ ih =>
    have := hd _ _ hp
    omega

/-- The chain of a scope that is there stays as it is if the links from such scopes do. -/
theorem up_iff (hd : ss.Descends) (hp : ∀ s < ss.next, ss'.parent? s = ss.parent? s)
    (hs : s < ss.next) : Up ss' s d t ↔ Up ss s d t := by
  induction d generalizing s with
  | zero =>
    constructor
    · rintro ⟨⟩
      exact .here _
    · rintro ⟨⟩
      exact .here _
  | succ d ih =>
    constructor
    · rintro (_ | ⟨hq, h⟩)
      rw [hp s hs] at hq
      exact .link hq ((ih (Nat.lt_trans (hd _ _ hq) hs)).1 h)
    · rintro (_ | ⟨hq, h⟩)
      exact .link ((hp s hs).trans hq) ((ih (Nat.lt_trans (hd _ _ hq) hs)).2 h)

end Descends

/-! ### Searches -/

theorem Nearest.unique (h : Nearest ss s x d t) (h' : Nearest ss s x e u) : d = e ∧ t = u := by
  have hle : ∀ {d e t u}, Nearest ss s x d t → Nearest ss s x e u → e ≤ d := by
    intro d e t u h h'
    refine Nat.le_of_not_lt fun hlt => ?_
    have hheld := h.held
    rw [h'.nearer d hlt t h.up] at hheld
    cases hheld
  obtain rfl := Nat.le_antisymm (hle h' h) (hle h h')
  exact ⟨rfl, h.up.unique h'.up⟩

/-- The nearest scope that holds a name which `s` does not hold is the one of its parent. -/
theorem Nearest.link {p : Nat} (hp : ss.parent? s = some p) (hx : ss.here? s x = none)
    (h : Nearest ss p x d t) : Nearest ss s x (d + 1) t := by
  refine ⟨.link hp h.up, h.held, fun e he u hu => ?_⟩
  rcases hu with _ | ⟨hp', hu⟩
  · exact hx
  · obtain rfl := Option.some.inj (hp.symm.trans hp')
    exact h.nearer _ (Nat.lt_of_succ_lt_succ he) u hu

theorem Nearest.self (hx : (ss.here? s x).isSome) : Nearest ss s x 0 s :=
  ⟨.here s, hx, fun e he => absurd he (Nat.not_lt_zero e)⟩

/-- A name that neither `s` nor the chain of its parent holds. -/
theorem Up.missing (hx : ss.here? s x = none)
    (h : ∀ p d t, ss.parent? s = some p → Up ss p d t → ss.here? t x = none) (hu : Up ss s d t) :
    ss.here? t x = none := by
  rcases hu with _ | ⟨hp, hu⟩
  · exact hx
  · exact h _ _ _ hp hu

/-- A search comes upon the nearest scope, or no scope of the chain holds the name. The links from
`s` are fewer than its index, so that the bound of the search is never met. -/
theorem Descends.holderWithin? (hd : ss.Descends) (x : String) {n : Nat} (hn : s ≤ n) :
    (∀ t, ss.holderWithin? x n s = some t → ∃ d, Nearest ss s x d t) ∧
      (ss.holderWithin? x n s = none → ∀ d t, Up ss s d t → ss.here? t x = none) := by
  -- By induction on the scope, as the one around it was made before it.
  induction s using Nat.strongRecOn generalizing n with
  | ind s ih =>
    by_cases hx : (ss.here? s x).isSome
    · have hself : ss.holderWithin? x n s = some s := by
        cases n <;> rw [Scopes.holderWithin?, if_pos hx]
      rw [hself]
      refine ⟨fun t ht => ?_, fun h => absurd h (Option.some_ne_none s)⟩
      cases ht
      exact ⟨0, .self hx⟩
    · have hmissing : ss.here? s x = none := by simpa using hx
      cases hp : ss.parent? s with
      | none =>
        have hroot : ss.holderWithin? x n s = none := by
          cases n with
          | zero => rw [Scopes.holderWithin?, if_neg hx]
          | succ n => rw [Scopes.holderWithin?, if_neg hx, hp]
        rw [hroot]
        refine ⟨fun t ht => absurd ht.symm (Option.some_ne_none t), fun _ d t hu => ?_⟩
        refine hu.missing hmissing fun p d t hp' => ?_
        cases hp.symm.trans hp'
      | some p =>
        have hlt := hd s p hp
        obtain ⟨n, rfl⟩ : ∃ i, n = i + 1 := ⟨n - 1, by omega⟩
        rw [Scopes.holderWithin?, if_neg hx, hp]
        obtain ⟨hsome, hnone⟩ := ih p hlt (by omega : p ≤ n)
        refine ⟨fun t ht => ?_, fun h d t hu => hu.missing hmissing ?_⟩
        · obtain ⟨d, hd⟩ := hsome t ht
          exact ⟨d + 1, hd.link hp hmissing⟩
        · intro p' d t hp' hu
          obtain rfl := Option.some.inj (hp.symm.trans hp')
          exact hnone h _ _ hu

theorem Descends.holder?_eq_none_iff (hd : ss.Descends) :
    ss.holder? s x = none ↔ ∀ d t, Up ss s d t → ss.here? t x = none := by
  obtain ⟨hsome, hnone⟩ := hd.holderWithin? x (Nat.le_refl s)
  refine ⟨hnone, fun h => Option.eq_none_iff_forall_ne_some.2 fun t ht => ?_⟩
  obtain ⟨d, hnear⟩ := hsome t ht
  have hheld := hnear.held
  rw [h d t hnear.up] at hheld
  cases hheld

theorem Descends.holder?_eq_some_iff (hd : ss.Descends) :
    ss.holder? s x = some t ↔ ∃ d, Nearest ss s x d t := by
  have hsome := (hd.holderWithin? x (Nat.le_refl s)).1
  refine ⟨hsome t, ?_⟩
  rintro ⟨d, hnear⟩
  cases ht : ss.holder? s x with
  | none =>
    have hheld := hnear.held
    rw [hd.holder?_eq_none_iff.1 ht d t hnear.up] at hheld
    cases hheld
  | some u =>
    obtain ⟨e, hnear'⟩ := hsome u ht
    rw [(hnear'.unique hnear).2]

/-! ### What can be done with scopes -/

/-- What makes or writes scopes. -/
inductive Operation where
  | addRoot
  | addChild (s : Nat)
  | define (s : Nat) (x : String) (v : Value)
  /-- Writes a name where it is found. -/
  | assign (s : Nat) (x : String) (v : Value)
  /-- Writes a name `d` links up. -/
  | assignAt (s d : Nat) (x : String) (v : Value)

namespace Operation

/-- The scope that an operation starts from. -/
def scope? : Operation → Option Nat
  | .addRoot => none
  | .addChild s | .define s _ _ | .assign s _ _ | .assignAt s _ _ _ => some s

/-- The scopes after an operation, unless it fails. -/
def run (ss : Scopes) : Operation → Option Scopes
  | .addRoot => some ss.addRoot
  | .addChild s => some (ss.addChild s)
  | .define s x v => some (ss.define s x v)
  | .assign s x v => ss.assign? s x v
  | .assignAt s d x v => ss.assignAt? s d x v

/-- The operation sets the variable `x` of the scope `t` to `v`. -/
def Writes (ss : Scopes) (t : Nat) (x : String) (v : Value) : Operation → Prop
  | .addRoot | .addChild _ => False
  | .define s y w => t = s ∧ x = y ∧ v = w
  | .assign s y w => (∃ d, Nearest ss s y d t) ∧ x = y ∧ v = w
  | .assignAt s d y w => Up ss s d t ∧ x = y ∧ v = w

/-- The scopes after an operation, failed or not. -/
def after (ss : Scopes) (op : Operation) : Scopes := (op.run ss).getD ss

/-- The scopes after operations in turn. -/
def afterAll (ss : Scopes) (ops : List Operation) : Scopes := ops.foldl after ss

/-- The scope that an operation starts from is there. -/
def known (ss : Scopes) (op : Operation) : Bool := op.scope?.all (· < ss.next)

/-- The scope that each operation starts from is there when it is its turn. -/
def knownAll (ss : Scopes) : List Operation → Bool
  | [] => true
  | op :: ops => op.known ss && knownAll (op.after ss) ops

/-- None of the operations writes the variable `x` of the scope `t` when it is its turn. -/
def Spare (t : Nat) (x : String) (ss : Scopes) : List Operation → Prop
  | [] => True
  | op :: ops => (∀ v, ¬ op.Writes ss t x v) ∧ Spare t x (op.after ss) ops

end Operation

/-- What can be read of scopes. -/
inductive Query where
  | here (s : Nat) (x : String)
  | get (s : Nat) (x : String)
  | getAt (s d : Nat) (x : String)

namespace Query

def answer (ss : Scopes) : Query → Option Value
  | .here s x => ss.here? s x
  | .get s x => ss.get? s x
  | .getAt s d x => ss.getAt? s d x

/-- The query reads the variable `x` of the scope `t`. -/
def Reads (ss : Scopes) (t : Nat) (x : String) : Query → Prop
  | .here s y => t = s ∧ x = y
  | .get s y => (∃ d, Nearest ss s y d t) ∧ x = y
  | .getAt s d y => Up ss s d t ∧ x = y

end Query

/-! ### One operation -/

variable {op : Operation} {q : Query}

namespace Operation

/-- All that an operation can do. -/
theorem after_cases (hd : ss.Descends) (op : Operation) :
    (op = .addRoot ∧ op.after ss = ss.addRoot) ∨
      (∃ s, op = .addChild s ∧ op.after ss = ss.addChild s) ∨
      (∃ t x v, op.Writes ss t x v ∧ op.after ss = ss.define t x v) ∨
      (∀ t x v, ¬ op.Writes ss t x v) ∧ op.after ss = ss := by
  cases op with
  | addRoot => exact .inl ⟨rfl, rfl⟩
  | addChild s => exact .inr (.inl ⟨s, rfl, rfl⟩)
  | define s x v => exact .inr (.inr (.inl ⟨s, x, v, ⟨rfl, rfl, rfl⟩, rfl⟩))
  | assign s x v =>
    refine .inr (.inr ?_)
    cases h : ss.holder? s x with
    | some t =>
      refine .inl ⟨t, x, v, ⟨hd.holder?_eq_some_iff.1 h, rfl, rfl⟩, ?_⟩
      rw [after, run, assign?, h]
      rfl
    | none =>
      refine .inr ⟨fun t y w hw => ?_, by rw [after, run, assign?, h]; rfl⟩
      obtain ⟨hnear, -, -⟩ := hw
      rw [hd.holder?_eq_some_iff.2 hnear] at h
      cases h
  | assignAt s d x v =>
    refine .inr (.inr ?_)
    cases h : ss.ancestor? s d with
    | some t =>
      refine .inl ⟨t, x, v, ⟨ancestor?_eq_some_iff.1 h, rfl, rfl⟩, ?_⟩
      rw [after, run, assignAt?, h]
      rfl
    | none =>
      refine .inr ⟨fun t y w hw => ?_, by rw [after, run, assignAt?, h]; rfl⟩
      exact ancestor?_eq_none_iff.1 h t hw.1

theorem Writes.unique {t' : Nat} {x' : String} {v' : Value} (h : op.Writes ss t x v)
    (h' : op.Writes ss t' x' v') : t = t' ∧ x = x' ∧ v = v' := by
  cases op with
  | addRoot | addChild => exact h.elim
  | define =>
    obtain ⟨rfl, rfl, rfl⟩ := h
    obtain ⟨rfl, rfl, rfl⟩ := h'
    exact ⟨rfl, rfl, rfl⟩
  | assign =>
    obtain ⟨⟨d, hnear⟩, rfl, rfl⟩ := h
    obtain ⟨⟨d', hnear'⟩, rfl, rfl⟩ := h'
    exact ⟨(hnear.unique hnear').2, rfl, rfl⟩
  | assignAt =>
    obtain ⟨hup, rfl, rfl⟩ := h
    obtain ⟨hup', rfl, rfl⟩ := h'
    exact ⟨hup.unique hup', rfl, rfl⟩

theorem after_of_writes (hd : ss.Descends) (h : op.Writes ss t x v) :
    op.after ss = ss.define t x v := by
  rcases after_cases hd op with ⟨rfl, -⟩ | ⟨s, rfl, -⟩ | ⟨t', x', v', h', heq⟩ | ⟨hno, -⟩
  · exact h.elim
  · exact h.elim
  · obtain ⟨rfl, rfl, rfl⟩ := h.unique h'
    exact heq
  · exact absurd h (hno t x v)

/-- What is written is a variable of a scope that is there. -/
theorem Writes.lt (hd : ss.Descends) (hk : op.known ss) (h : op.Writes ss t x v) : t < ss.next := by
  cases op with
  | addRoot | addChild => exact h.elim
  | define s =>
    obtain ⟨rfl, -, -⟩ := h
    simpa [known, scope?] using hk
  | assign s =>
    obtain ⟨⟨d, hnear⟩, -, -⟩ := h
    refine Nat.lt_of_not_le fun hle => ?_
    have hheld := hnear.held
    rw [here?_eq_none hle] at hheld
    cases hheld
  | assignAt s d =>
    have hs : s < ss.next := by simpa [known, scope?] using hk
    have := hd.le h.1
    omega

theorem later (hd : ss.Descends) (op : Operation) : Later ss [] (op.after ss) [] := by
  rcases after_cases hd op with ⟨-, heq⟩ | ⟨s, -, heq⟩ | ⟨t, x, v, -, heq⟩ | ⟨-, heq⟩ <;> rw [heq]
  · exact .addRoot ss []
  · exact .addChild ss [] s
  · exact .define ss [] t x v
  · exact .refl ss []

theorem descends (hd : ss.Descends) (hk : op.known ss) : (op.after ss).Descends := by
  intro s p hp
  rcases after_cases hd op with ⟨-, heq⟩ | ⟨t, rfl, heq⟩ | ⟨t, x, v, -, heq⟩ | ⟨-, heq⟩ <;>
    rw [heq] at hp
  · rw [parent?_addRoot] at hp
    exact hd s p hp
  · have ht : t < ss.next := by simpa [known, scope?] using hk
    rw [parent?_addChild] at hp
    split at hp
    · next hs =>
      cases hp
      exact hs ▸ ht
    · exact hd s p hp
  · rw [parent?_define] at hp
    exact hd s p hp
  · exact hd s p hp

/-- An operation that does not write a variable leaves it as it is. -/
theorem here?_after (hd : ss.Descends) (h : ∀ v, ¬ op.Writes ss t x v) :
    (op.after ss).here? t x = ss.here? t x := by
  rcases after_cases hd op with ⟨-, heq⟩ | ⟨s, -, heq⟩ | ⟨t', x', v, hw, heq⟩ | ⟨-, heq⟩ <;>
    rw [heq]
  · exact here?_addRoot ss t x
  · exact here?_addChild ss s t x
  · by_contra hne
    obtain ⟨rfl, rfl⟩ := of_here?_define_ne hne
    exact h v hw

end Operation

namespace Query

theorem answer_of_reads (hd : ss.Descends) (h : q.Reads ss t x) : q.answer ss = ss.here? t x := by
  cases q with
  | here s y =>
    obtain ⟨rfl, rfl⟩ := h
    rfl
  | get s y =>
    obtain ⟨hnear, rfl⟩ := h
    rw [answer, get?, hd.holder?_eq_some_iff.2 hnear]
    rfl
  | getAt s d y =>
    obtain ⟨hup, rfl⟩ := h
    rw [answer, getAt?, ancestor?_eq_some_iff.2 hup]
    rfl

theorem answer_of_not_reads (hd : ss.Descends) (h : ∀ t x, ¬ q.Reads ss t x) :
    q.answer ss = none := by
  cases q with
  | here s y => exact absurd ⟨rfl, rfl⟩ (h s y)
  | get s y =>
    have hnone : ss.holder? s y = none := Option.eq_none_iff_forall_ne_some.2 fun t ht =>
      h t y ⟨hd.holder?_eq_some_iff.1 ht, rfl⟩
    rw [answer, get?, hnone]
    rfl
  | getAt s d y =>
    rw [answer, getAt?, ancestor?_eq_none_iff.2 fun t ht => h t y ⟨ht, rfl⟩]
    rfl

theorem Reads.unique {t' : Nat} {x' : String} (h : q.Reads ss t x) (h' : q.Reads ss t' x') :
    t = t' ∧ x = x' := by
  cases q with
  | here =>
    obtain ⟨rfl, rfl⟩ := h
    obtain ⟨rfl, rfl⟩ := h'
    exact ⟨rfl, rfl⟩
  | get =>
    obtain ⟨⟨d, hnear⟩, rfl⟩ := h
    obtain ⟨⟨d', hnear'⟩, rfl⟩ := h'
    exact ⟨(hnear.unique hnear').2, rfl⟩
  | getAt =>
    obtain ⟨hup, rfl⟩ := h
    obtain ⟨hup', rfl⟩ := h'
    exact ⟨hup.unique hup', rfl⟩

/-- A query that reads another variable after a write read it before. -/
theorem Reads.of_define (h : q.Reads (ss.define t x v) u y) (hne : ¬ (t = u ∧ x = y)) :
    q.Reads ss u y := by
  have hup : ∀ {s d u}, Up (ss.define t x v) s d u ↔ Up ss s d u := Up.congr fun s => by simp
  have hkept : (ss.define t x v).here? u y = ss.here? u y := by
    by_contra h
    exact hne (of_here?_define_ne h)
  cases q with
  | here => exact h
  | get s =>
    obtain ⟨⟨d, hnear⟩, rfl⟩ := h
    refine ⟨⟨d, hup.1 hnear.up, hkept ▸ hnear.held, fun e he w hw => ?_⟩, rfl⟩
    by_contra hsome
    have hheld := isSome_here?_define (s := t) (x := x) (v := v)
      (Option.isSome_iff_ne_none.2 hsome)
    rw [hnear.nearer e he w (hup.2 hw)] at hheld
    cases hheld
  | getAt => exact ⟨hup.1 h.1, h.2⟩

/-- A query that reads a variable before a write reads one after it. -/
theorem Reads.define (hd : (ss.define t x v).Descends) (h : q.Reads ss u y)
    (hu : (ss.here? u y).isSome) : ∃ w, q.Reads (ss.define t x v) w y := by
  have hup : ∀ {s d u}, Up (ss.define t x v) s d u ↔ Up ss s d u := Up.congr fun s => by simp
  cases q with
  | here => exact ⟨u, h⟩
  | get s =>
    obtain ⟨⟨d, hnear⟩, rfl⟩ := h
    cases hw : (ss.define t x v).holder? s y with
    | some w => exact ⟨w, hd.holder?_eq_some_iff.1 hw, rfl⟩
    | none =>
      have hheld := isSome_here?_define (s := t) (x := x) (v := v) hu
      rw [hd.holder?_eq_none_iff.1 hw d u (hup.2 hnear.up)] at hheld
      cases hheld
  | getAt => exact ⟨u, hup.2 h.1, h.2⟩

/-- After a write, a query answers what was written if it reads what was written, and what it did
before if not. -/
theorem answer_define (hd : ss.Descends) (ht : t < ss.next) (q : Query) :
    (q.Reads (ss.define t x v) t x → q.answer (ss.define t x v) = some v) ∧
      (¬ q.Reads (ss.define t x v) t x → q.answer (ss.define t x v) = q.answer ss) := by
  have hd' : (ss.define t x v).Descends := fun s p hp => hd s p (by simpa using hp)
  refine ⟨fun h => ?_, fun h => ?_⟩
  · rw [answer_of_reads hd' h, here?_define ss t t x x v ht, if_pos ⟨rfl, rfl⟩]
  · by_cases hsome : ∃ u y, q.Reads (ss.define t x v) u y
    · obtain ⟨u, y, hr⟩ := hsome
      have hne : ¬ (t = u ∧ x = y) := by
        rintro ⟨rfl, rfl⟩
        exact h hr
      rw [answer_of_reads hd' hr, answer_of_reads hd (hr.of_define hne),
        here?_define ss t u x y v ht, if_neg hne]
    · have hno : ∀ u y, ¬ q.Reads (ss.define t x v) u y := fun u y hr => hsome ⟨u, y, hr⟩
      rw [answer_of_not_reads hd' hno]
      by_cases hbefore : ∃ u y, q.Reads ss u y
      · obtain ⟨u, y, hr⟩ := hbefore
        rw [answer_of_reads hd hr]
        by_contra hne
        obtain ⟨w, hw⟩ := hr.define (v := v) hd' (Option.isSome_iff_ne_none.2 (Ne.symm hne))
        exact hno w y hw
      · exact (answer_of_not_reads hd fun u y hr => hbefore ⟨u, y, hr⟩).symm

end Query

/-! ### Any number of operations -/

namespace Operation

variable {ops : List Operation}

theorem descends_all (hd : ss.Descends) (hk : knownAll ss ops) : (afterAll ss ops).Descends := by
  induction ops generalizing ss with
  | nil => exact hd
  | cons op ops ih =>
    obtain ⟨hop, hops⟩ := Bool.and_eq_true_iff.1 hk
    exact ih (descends hd hop) hops

theorem later_all (hd : ss.Descends) (hk : knownAll ss ops) :
    Later ss [] (afterAll ss ops) [] := by
  induction ops generalizing ss with
  | nil => exact .refl ss []
  | cons op ops ih =>
    obtain ⟨hop, hops⟩ := Bool.and_eq_true_iff.1 hk
    exact (later hd op).trans (ih (descends hd hop) hops)

theorem here?_afterAll (hd : ss.Descends) (hk : knownAll ss ops) (hs : Spare t x ss ops) :
    (afterAll ss ops).here? t x = ss.here? t x := by
  induction ops generalizing ss with
  | nil => rfl
  | cons op ops ih =>
    obtain ⟨hop, hops⟩ := Bool.and_eq_true_iff.1 hk
    exact (ih (descends hd hop) hops hs.2).trans (here?_after hd hs.1)

end Operation

/-- How reads and writes of scopes go together. -/
structure Coherent (ss : Scopes) : Prop where
  /-- No chain comes back to where it starts. -/
  acyclic : ∀ s d, ¬ Up ss s (d + 1) s
  /-- Whatever is done next, the chains of scopes stay as they are, and no variable goes away. -/
  chains : ∀ ops, Operation.knownAll ss ops → ∀ s < ss.next, ∀ d t,
    Up (Operation.afterAll ss ops) s d t ↔ Up ss s d t
  kept : ∀ ops, Operation.knownAll ss ops → ∀ s x, (ss.here? s x).isSome →
    ((Operation.afterAll ss ops).here? s x).isSome
  /-- A search reads and writes the nearest scope that holds the name. It fails if there is none. -/
  get : ∀ s x v, ss.get? s x = some v ↔ ∃ d t, Nearest ss s x d t ∧ ss.here? t x = some v
  get_none : ∀ s x, ss.get? s x = none ↔ ∀ d t, Up ss s d t → ss.here? t x = none
  assign : ∀ s x v ss', ss.assign? s x v = some ss' ↔
    ∃ d t, Nearest ss s x d t ∧ ss' = ss.define t x v
  assign_none : ∀ s x v, ss.assign? s x v = none ↔ ∀ d t, Up ss s d t → ss.here? t x = none
  /-- A distance is that of the scope which is read and written. -/
  getAt : ∀ s d x v, ss.getAt? s d x = some v ↔ ∃ t, Up ss s d t ∧ ss.here? t x = some v
  assignAt : ∀ s d x v ss', ss.assignAt? s d x v = some ss' ↔
    ∃ t, Up ss s d t ∧ ss' = ss.define t x v
  /-- Both ways read one variable if no nearer scope holds the name. -/
  getAt_get : ∀ s d x t, Nearest ss s x d t → ss.getAt? s d x = ss.get? s x
  /-- What is written is what is read of the same variable next, and nothing else changes. -/
  written : ∀ (op : Operation) t x v, op.known ss → op.Writes ss t x v → ∀ q : Query,
    (q.Reads (op.after ss) t x → q.answer (op.after ss) = some v) ∧
      (¬ q.Reads (op.after ss) t x → q.answer (op.after ss) = q.answer ss)
  /-- It is read until the variable is written again. -/
  lasting : ∀ (op : Operation) t x v, op.known ss → op.Writes ss t x v →
    ∀ ops, Operation.knownAll (op.after ss) ops → Operation.Spare t x (op.after ss) ops →
      ∀ q : Query, q.Reads (Operation.afterAll (op.after ss) ops) t x →
        q.answer (Operation.afterAll (op.after ss) ops) = some v

theorem Descends.coherent (hd : ss.Descends) : Coherent ss where
  acyclic s d h := by
    have := hd.le h
    omega
  chains ops hk s hs d t := hd.up_iff (Operation.later_all hd hk).parent hs
  kept ops hk s x := (Operation.later_all hd hk).held s x
  get s x v := by
    rw [get?, Option.bind_eq_some_iff]
    constructor
    · rintro ⟨t, ht, hv⟩
      obtain ⟨d, hnear⟩ := hd.holder?_eq_some_iff.1 ht
      exact ⟨d, t, hnear, hv⟩
    · rintro ⟨d, t, hnear, hv⟩
      exact ⟨t, hd.holder?_eq_some_iff.2 ⟨d, hnear⟩, hv⟩
  get_none s x := by
    rw [← hd.holder?_eq_none_iff, get?]
    constructor
    · intro h
      cases ht : ss.holder? s x with
      | none => rfl
      | some t =>
        obtain ⟨d, hnear⟩ := hd.holder?_eq_some_iff.1 ht
        have hheld := hnear.held
        rw [ht] at h
        rw [show ss.here? t x = none from h] at hheld
        cases hheld
    · intro h
      rw [h]
      rfl
  assign s x v ss' := by
    rw [assign?, Option.map_eq_some_iff]
    constructor
    · rintro ⟨t, ht, rfl⟩
      obtain ⟨d, hnear⟩ := hd.holder?_eq_some_iff.1 ht
      exact ⟨d, t, hnear, rfl⟩
    · rintro ⟨d, t, hnear, rfl⟩
      exact ⟨t, hd.holder?_eq_some_iff.2 ⟨d, hnear⟩, rfl⟩
  assign_none s x v := by rw [assign?, Option.map_eq_none_iff, hd.holder?_eq_none_iff]
  getAt s d x v := by simp only [getAt?, Option.bind_eq_some_iff, ancestor?_eq_some_iff]
  assignAt s d x v ss' := by
    simp only [assignAt?, Option.map_eq_some_iff, ancestor?_eq_some_iff, eq_comm (a := ss')]
  getAt_get s d x t hnear := by
    have hat : (Query.getAt s d x).Reads ss t x := ⟨hnear.up, rfl⟩
    have hget : (Query.get s x).Reads ss t x := ⟨⟨d, hnear⟩, rfl⟩
    exact (Query.answer_of_reads hd hat).trans (Query.answer_of_reads hd hget).symm
  written op t x v hk hw q := by
    rw [Operation.after_of_writes hd hw]
    exact Query.answer_define hd (hw.lt hd hk) q
  lasting op t x v hk hw ops hops hspare q hq := by
    have hd' := Operation.descends hd hk
    rw [Query.answer_of_reads (Operation.descends_all hd' hops) hq,
      Operation.here?_afterAll hd' hops hspare, Operation.after_of_writes hd hw,
      here?_define ss t t x x v (hw.lt hd hk), if_pos ⟨rfl, rfl⟩]

theorem descends_empty : Descends {} := fun s p hp => by
  rw [parent?_eq_none (Nat.zero_le s)] at hp
  cases hp

end Scopes

/-! ### The variables of a run -/

namespace Machine

/-- What the use of a reference reads. -/
def query (m : Machine) (ref : Ref) : Scopes.Query :=
  m.bindings[ref.id]?.elim (.get (m.heap.scopes.root m.scope) ref.name.lexeme) fun d =>
    .getAt m.scope d ref.name.lexeme

/-- What it does to scopes to assign to a reference. -/
def assignment (m : Machine) (ref : Ref) (v : Value) : Scopes.Operation :=
  m.bindings[ref.id]?.elim (.assign (m.heap.scopes.root m.scope) ref.name.lexeme v) fun d =>
    .assignAt m.scope d ref.name.lexeme v

/-- The failure of a reference whose variable is not there. -/
def undefined (ref : Ref) : Stop :=
  .fault (.ofToken ref.name (.undefinedVariable ref.name.lexeme))

theorem lookUp_eq_query (m : Machine) (ref : Ref) :
    Eval.lookUp ref m =
      ((m.query ref).answer m.heap.scopes).elim (.error (undefined ref) m) fun v => .ok v m := by
  unfold query
  cases hd : m.bindings[ref.id]? with
  | some d =>
    rw [Eval.lookUp_of_some hd]
    dsimp only [Option.elim, Scopes.Query.answer]
    cases m.heap.scopes.getAt? m.scope d ref.name.lexeme <;> rfl
  | none =>
    rw [Eval.lookUp_of_none hd]
    dsimp only [Option.elim, Scopes.Query.answer]
    cases m.heap.scopes.get? (m.heap.scopes.root m.scope) ref.name.lexeme <;> rfl

/-- To assign to a reference writes its variable; if it is not there, all stays as it is. -/
theorem assign_eq_assignment (m : Machine) (ref : Ref) (v : Value) :
    Eval.assign ref v m =
      ((m.assignment ref v).run m.heap.scopes).elim (.error (undefined ref) m) fun ss =>
        .ok () { m with heap.scopes := ss } := by
  rw [Eval.assign, Eval.get_bind, Eval.target?]
  unfold assignment
  cases hd : m.bindings[ref.id]? with
  | some d =>
    dsimp only [Option.elim, Scopes.Operation.run, Scopes.assignAt?]
    cases m.heap.scopes.ancestor? m.scope d <;> rfl
  | none =>
    dsimp only [Option.elim, Scopes.Operation.run, Scopes.assign?]
    cases m.heap.scopes.holder? (m.heap.scopes.root m.scope) ref.name.lexeme <;> rfl

end Machine

open Scopes in
/-- Among scopes that are made and written in any order, reads and writes agree on the variables
that they mean, and the variables of a run are read and written in no other way. -/
theorem Scopes.accesses_agree (ops : List Operation) (h : Operation.knownAll {} ops) :
    Coherent (Operation.afterAll {} ops) ∧
      ∀ (m : Machine) (ref : Ref),
        (Eval.lookUp ref m = ((m.query ref).answer m.heap.scopes).elim
          (.error (Machine.undefined ref) m) fun v => .ok v m) ∧
        ∀ v, Eval.assign ref v m = ((m.assignment ref v).run m.heap.scopes).elim
          (.error (Machine.undefined ref) m) fun ss => .ok () { m with heap.scopes := ss } :=
  ⟨(Operation.descends_all descends_empty h).coherent, fun m ref =>
    ⟨m.lookUp_eq_query ref, m.assign_eq_assignment ref⟩⟩

/-- Three scopes, each inside of the one before. The two outer ones have a variable `x`, which is
then written from the innermost one in both ways, and so is a name that there is not. -/
def Scopes.nested : List Operation :=
  [.addRoot, .define 0 "x" (.bool true), .addChild 0, .define 1 "x" (.bool false), .addChild 1,
    .assign 2 "x" (.string "near"), .assignAt 2 2 "x" (.string "far"), .assign 2 "y" .nil]

open Scopes in
theorem Scopes.accesses_agree_nested :
    Operation.knownAll {} nested ∧ Coherent (Operation.afterAll {} nested) ∧
      (Operation.afterAll {} nested).get? 2 "x" = some (.string "near") ∧
      (Operation.afterAll {} nested).getAt? 2 2 "x" = some (.string "far") ∧
      (Operation.afterAll {} nested).get? 2 "y" = none :=
  ⟨by decide +kernel, (accesses_agree nested (by decide +kernel)).1, rfl, rfl, rfl⟩

end Treewalk
