import Treewalk.Proofs.Placement
import Treewalk.Proofs.Transfer

/-!
# Binding names leaves the walk where it was

What the walk knows at a point (the function, the class, the loops and the scopes that are open) is
changed by hand on the way into a piece of code and back. `binding_balanced` says that it always
comes back: behind a statement or an expression everything is as it was before, but for names that
the innermost scope has got in addition and for findings that have been added. So it is with the
names that a file declares and those it wants to expose while its findings are acted on.
-/

namespace Treewalk

/-! ### Findings that were acted on -/

/-- The names that are to be exposed. -/
def Finding.exposes : Finding → List Token
  | .exposed names => names
  | _ => []

/-- The file `p` after the findings `fs`: it has lost no name, and all those that are found. -/
structure Pending.Grows (fs : List Finding) (p p' : Pending) : Prop where
  declared : p.declared ⊆ p'.declared
  found : ∀ a, .declared a ∈ fs → a ∈ p'.declared
  exposed : p'.exposed = p.exposed ++ fs.flatMap Finding.exposes

theorem Pending.exposed_declare (p : Pending) (name : String) :
    (p.declare name).exposed = p.exposed := by
  rw [Pending.declare]
  split <;> rfl

namespace Pending.Grows
variable {fs : List Finding} {p q p' : Pending}

theorem nil (p : Pending) : Grows [] p p := ⟨List.Subset.refl _, by simp, by simp⟩

/-- The first finding takes `p` to `q`. -/
theorem cons {f : Finding} (h : Grows fs q p') (hd : p.declared ⊆ q.declared)
    (hf : ∀ a, f = .declared a → a ∈ q.declared) (he : q.exposed = p.exposed ++ f.exposes) :
    Grows (f :: fs) p p' where
  declared _ ha := h.declared (hd ha)
  found a ha := by
    rcases List.mem_cons.1 ha with ha | ha
    · exact h.declared (hf a ha.symm)
    · exact h.found a ha
  exposed := by rw [h.exposed, he, List.append_assoc, List.flatMap_cons]

end Pending.Grows

/-- If `p` gives a result, it is one of these. -/
def Gives {ε σ α : Type} (p : EStateM ε σ α) (Q : α → Prop) : Prop :=
  ∀ s a s', p s = .ok a s' → Q a

namespace Gives
variable {ε σ α β : Type} {p : EStateM ε σ α} {f : α → EStateM ε σ β} {Q : α → Prop} {R : β → Prop}

theorem pure {a : α} (h : Q a) : Gives (Pure.pure a : EStateM ε σ α) Q := by
  rintro s a s' ⟨⟩
  exact h

theorem throw (e : ε) : Gives (throw e : EStateM ε σ α) Q := by
  rintro s a s' ⟨⟩

theorem bind (hp : Gives p Q) (hf : ∀ a, Q a → Gives (f a) R) : Gives (p >>= f) R := by
  intro s b s' h
  cases hr : p s with
  | ok a s₁ => exact hf a (hp s a s₁ hr) s₁ b s' ((bind_of_ok hr).symm.trans h)
  | error e s₁ => cases (bind_of_error hr).symm.trans h

/-- What is given before does not matter. -/
theorem seq (hf : ∀ a, Gives (f a) R) : Gives (p >>= f) R :=
  bind (Q := fun _ => True) (fun _ _ _ _ => trivial) fun a _ => hf a

/-- Nor does it matter which of two parts gives it. -/
theorem either {c : Prop} [Decidable c] {q : EStateM ε σ α} (hf : ∀ a, Gives (f a) R) :
    Gives (if c then p >>= f else q >>= f) R := by
  split
  · exact seq hf
  · exact seq hf

end Gives

namespace Load

theorem takeNames_gives (decl : ImportDecl) (m : Module) (names : List Token) (p : Pending) :
    Gives (takeNames decl m names p) fun p' =>
      p.declared ⊆ p'.declared ∧ p'.exposed = p.exposed := by
  induction names generalizing p with
  | nil => exact .pure ⟨List.Subset.refl _, rfl⟩
  | cons name names ih =>
    rw [takeNames]
    split
    · refine .seq fun _ s p' s' h => ?_
      obtain ⟨hd, he⟩ := ih _ s p' s' h
      exact ⟨fun a ha => hd (Pending.mem_declare.2 (.inr ha)), he.trans (p.exposed_declare _)⟩
    · exact .seq fun _ => ih p

theorem settle_gives (n : Nat) (dir : String) (fs : List Finding) (p : Pending) :
    Gives (settle n dir fs p) (p.Grows fs) := by
  induction n generalizing fs p with
  | zero =>
    rintro s p' s' h
    rw [settle] at h
    cases h
  | succ n ih =>
    -- A finding that adds no name leads on from `q`.
    have step : ∀ {f fs q}, q.declared = p.declared → q.exposed = p.exposed ++ f.exposes →
        (∀ a, f ≠ .declared a) → Gives (settle n dir fs q) (p.Grows (f :: fs)) := by
      intro f fs q hd he hf s p' s' h
      exact (ih fs q s p' s' h).cons (hd ▸ List.Subset.refl _) (fun a ha => absurd ha (hf a)) he
    cases fs with
    | nil =>
      rw [settle]
      exact .pure (.nil p)
    | cons f fs =>
      cases f with
      | «local» id d =>
        rw [settle]
        exact step rfl (List.append_nil _).symm (by simp)
      | fault t f =>
        rw [settle]
        exact .seq fun _ => step rfl (List.append_nil _).symm (by simp)
      | declared name =>
        rw [settle]
        intro s p' s' h
        refine (ih fs _ s p' s' h).cons (fun a ha => Pending.mem_declare.2 (.inr ha)) ?_ ?_
        · rintro a ⟨⟩
          exact Pending.mem_declare.2 (.inl rfl)
        · exact (p.exposed_declare name).trans (List.append_nil _).symm
      | exposed names =>
        rw [settle]
        exact step rfl rfl (by simp)
      | required decl =>
        rw [settle]
        refine .seq fun m => ?_
        cases m with
        | none => exact step rfl (List.append_nil _).symm (by simp)
        | some m =>
          refine .bind (takeNames_gives decl m decl.names p) fun q hq s p' s' h => ?_
          have hnext := ih fs _ s p' s' h
          exact hnext.cons hq.1 (by simp) (hq.2.trans (List.append_nil _).symm)

/-- Findings are acted on one after the other. -/
theorem settle_append (n : Nat) (dir : String) (fs gs : List Finding) (p : Pending) :
    settle n dir (fs ++ gs) p =
      (do let q ← settle n dir fs p; settle (n - fs.length) dir gs q) := by
  induction fs generalizing n p with
  | nil =>
    cases n with
    | zero =>
      simp only [settle]
      rfl
    | succ n => simp only [List.nil_append, settle, pure_bind, List.length_nil, Nat.sub_zero]
  | cons f fs ih =>
    cases n with
    | zero =>
      simp only [settle]
      rfl
    | succ n =>
      rw [List.cons_append, List.length_cons, Nat.add_sub_add_right]
      cases f with
      | required decl =>
        simp only [settle, bind_assoc]
        congr 1
        funext m
        cases m with
        | none => exact ih n p
        | some m => simp only [bind_assoc, ih]
      | _ => simp only [settle, ih, bind_assoc]

/-- What acting on more findings leaves has grown out of what acting on the first ones leaves. -/
theorem settle_append_gives {n : Nat} {dir : String} {fs gs : List Finding} {p p' : Pending}
    {s s' : Session} (h : settle n dir (fs ++ gs) p s = .ok p' s') :
    ∃ q t, settle n dir fs p s = .ok q t ∧ q.Grows gs p' := by
  rw [settle_append] at h
  cases hq : settle n dir fs p s with
  | ok q t =>
    rw [bind_of_ok hq] at h
    exact ⟨q, t, rfl, settle_gives _ dir gs q t p' s' h⟩
  | error e t =>
    rw [bind_of_error hq] at h
    cases h

end Load

/-! ### The walk -/

/-- A scope keeps its names; none of them waits for its initializer that did not wait before. -/
structure Names.Grows (t t' : Names) : Prop where
  kept : ∀ x, t.contains x = true → t'.contains x = true
  ready : ∀ x, t'.get? x = some false → t.get? x = some false

theorem Names.Grows.refl (t : Names) : Grows t t := ⟨fun _ => id, fun _ => id⟩

theorem Names.Grows.trans {t t' t'' : Names} (h : Grows t t') (h' : Grows t' t'') : Grows t t'' :=
  ⟨fun x hx => h'.kept x (h.kept x hx), fun x hx => h.ready x (h'.ready x hx)⟩

theorem Names.Grows.insert (t : Names) (x : String) : Grows t (t.insert x true) where
  kept y hy := by
    rw [Table.contains, Table.get?_insert]
    split
    · rfl
    · exact hy
  ready y hy := by
    rw [Table.get?_insert] at hy
    split at hy
    · cases hy
    · exact hy

/-- Names that are entered change the innermost scope alone. -/
theorem Names.defineAll_cons (xs : List String) (t : Names) (ts : List Names) :
    ∃ t', defineAll xs (t :: ts) = t' :: ts ∧ Grows t t' := by
  induction xs generalizing t with
  | nil => exact ⟨t, rfl, .refl t⟩
  | cons x xs ih =>
    obtain ⟨t', he, h⟩ := ih (t.insert x true)
    exact ⟨t', he, (Grows.insert t x).trans h⟩

namespace Context

/-- The walk has come from `c` to `c'` and out of everything that it went into. -/
structure Balanced (c c' : Context) : Prop where
  function : c'.function = c.function
  cls : c'.cls = c.cls
  inStatic : c'.inStatic = c.inStatic
  loops : c'.loops = c.loops
  depth : c'.scopes.length = c.scopes.length
  outer : c'.scopes.tail = c.scopes.tail
  inner : ∀ t t', t ∈ c.scopes.head? → t' ∈ c'.scopes.head? → t.Grows t'
  /-- What is found on the way comes behind the rest. Acted on, it adds to what the rest has made of
  the file: names that it declares and names that it exposes. -/
  found : ∃ new, c'.found.reverse = c.found.reverse ++ new ∧ ∀ n dir p s p' s',
    Load.settle n dir c'.found.reverse p s = .ok p' s' →
      ∃ q t, Load.settle n dir c.found.reverse p s = .ok q t ∧ q.Grows new p'

theorem Balanced.of_effect {c c' : Context} {xs : List String} {ids : List Nat}
    (hs : c'.standing = c.standing) (h : Effect xs ids c c') : c.Balanced c' := by
  have hinner : c'.scopes.length = c.scopes.length ∧
      ∀ t t', t ∈ c.scopes.head? → t' ∈ c'.scopes.head? → t.Grows t' := by
    rw [h.scopes]
    cases hc : c.scopes with
    | nil =>
      have : Names.defineAll xs [] = [] := Names.defineAll_eq_nil.2 rfl
      simp [this]
    | cons t ts =>
      obtain ⟨t', he, ht⟩ := Names.defineAll_cons xs t ts
      rw [he]
      refine ⟨rfl, ?_⟩
      rintro _ _ ⟨⟩ ⟨⟩
      exact ht
  obtain ⟨new, hnew, -⟩ := h.found
  injection hs with hfunction hcls hinStatic hloops
  exact {
    function := hfunction
    cls := hcls
    inStatic := hinStatic
    loops := hloops
    depth := hinner.1
    outer := by rw [h.scopes, Names.tail_defineAll]
    inner := hinner.2
    found := by
      have hfound : c'.found.reverse = c.found.reverse ++ new.reverse := by
        rw [hnew, List.reverse_append]
      refine ⟨new.reverse, hfound, fun n dir p s p' s' hp => ?_⟩
      rw [hfound] at hp
      exact Load.settle_append_gives hp }

end Context

/-- The walk comes back from each piece of code to where it was; from an expression, with the same
names. -/
theorem binding_balanced (c : Context) :
    (∀ s : Stmt, c.Balanced (s.bind c)) ∧
    (∀ e : Expr, c.Balanced (e.bind c) ∧ (e.bind c).scopes = c.scopes) ∧
    (∀ body, c.Balanced (Stmt.bindAll body c)) ∧
    (∀ kind (f : FunctionDecl), c.Balanced (f.bind kind c) ∧ (f.bind kind c).scopes = c.scopes) ∧
    ∀ decl : ClassDecl, c.Balanced (decl.bind c) := by
  refine ⟨fun s => .of_effect (s.bind_standing c) (s.bind_effect c), fun e => ?_,
    fun body => .of_effect (Stmt.bindAll_standing body c) (Stmt.bindAll_effect body c),
    fun kind f => ?_, fun decl => .of_effect (decl.bind_standing c) (decl.bind_effect c)⟩
  · exact ⟨.of_effect (e.bind_standing c) (e.bind_effect c), (e.bind_effect c).scopes⟩
  · exact ⟨.of_effect (f.bind_standing kind c) (f.bind_effect kind c),
      (f.bind_effect kind c).scopes⟩

end Treewalk
