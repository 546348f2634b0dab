import Treewalk.Proofs.Chain

/-!
# What an import takes over

`Transfer module m names i s s'`: from `s` to `s'` the interpreter `i` has got those of the names
that `m` exposes, each with the value that the module has for it, the others are reported, and
nothing else is changed. `Load.takeNames_transfer`: this is what binding an import does.
-/

namespace Treewalk

/-- The report about a name that a module does not expose. -/
def Diagnostic.withheld (file : Option String) (module : String) (name : Token) : Diagnostic where
  stage := .binding
  file := file
  pos := name.pos
  location := .lexeme name.lexeme
  message := "'" ++ name.lexeme ++ "' is not exposed by '" ++ module ++ "'."

/-- The interpreter got the exposed ones of the names, and nothing else is changed. -/
structure Transfer (module : String) (m : Module) (names : List Token) (i : Interpreter)
    (s s' : Session) : Prop where
  vars : ∀ t a, s'.world.heap.scopes.here? t a =
    if t = i.globals ∧ a ∈ names.map Token.lexeme ∧ a ∈ m.exports then s.moduleValue m a
    else s.world.heap.scopes.here? t a
  parents : ∀ t, s'.world.heap.scopes.parent? t = s.world.heap.scopes.parent? t
  reported : s'.diagnostics.reported.toList = s.diagnostics.reported.toList ++
    (names.filter fun name => name.lexeme ∉ m.exports).map
      (Diagnostic.withheld s.diagnostics.file module)
  rest : s' = { s with
    world.heap.scopes := s'.world.heap.scopes
    diagnostics.reported := s'.diagnostics.reported }

namespace Transfer

variable {module : String} {m : Module} {i : Interpreter} {s s' s'' : Session}
  {names names' : List Token}

theorem refl (module : String) (m : Module) (i : Interpreter) (s : Session) :
    Transfer module m [] i s s := by
  constructor <;> simp

/-- The module keeps its own values. -/
theorem moduleValue (h : Transfer module m names i s s') (hne : m.globals ≠ i.globals)
    (a : String) :
    s'.moduleValue m a = s.moduleValue m a := by
  rw [Session.moduleValue, h.vars, if_neg fun h => hne h.1]
  rfl

theorem file (h : Transfer module m names i s s') : s'.diagnostics.file = s.diagnostics.file := by
  rw [h.rest]

theorem trans (h : Transfer module m names i s s') (h' : Transfer module m names' i s' s'')
    (hne : m.globals ≠ i.globals) : Transfer module m (names ++ names') i s s'' where
  vars t a := by
    rw [h'.vars, h.moduleValue hne, h.vars, List.map_append]
    grind
  parents t := (h'.parents t).trans (h.parents t)
  reported := by
    rw [h'.reported, h.reported, h.file, List.filter_append, List.map_append, List.append_assoc]
  rest := by
    rw [h'.rest, h.rest]

/-- A name that the module exposes and has a value for. -/
theorem exposed {name : Token} (hlt : i.globals < s.world.heap.scopes.next)
    (hm : name.lexeme ∈ m.exports) {v : Value} (hv : s.moduleValue m name.lexeme = some v) :
    Transfer module m [name] i s (s.defineGlobal i name.lexeme v) where
  vars t a := by
    rw [Session.defineGlobal, Scopes.here?_define _ _ _ _ _ _ hlt]
    by_cases ht : i.globals = t <;> by_cases ha : name.lexeme = a
    · subst ht ha
      simp [hm, hv]
    · simp [ht, ha, Ne.symm ha]
    · simp [ht, Ne.symm ht]
    · simp [ht, Ne.symm ht]
  parents t := by simp [Session.defineGlobal]
  reported := by simp [hm, Session.defineGlobal]
  rest := rfl

/-- A name that the module does not expose. -/
theorem withheld {name : Token} (hm : name.lexeme ∉ m.exports) :
    Transfer module m [name] i s { s with
      diagnostics := s.diagnostics.reportAt .binding (.token name)
        (ModuleFault.message (.notExposed name.lexeme module)) } where
  vars t a := by
    rw [if_neg]
    rintro ⟨-, hn, ha⟩
    rw [List.map_singleton, List.mem_singleton] at hn
    exact hm (hn ▸ ha)
  parents t := rfl
  reported := by
    have hkept : [name].filter (fun name => name.lexeme ∉ m.exports) = [name] :=
      List.filter_cons_of_pos (by simp [hm])
    rw [hkept]
    exact Array.toList_push
  rest := rfl

end Transfer

theorem Pending.mem_declare {p : Pending} {a b : String} :
    a ∈ (p.declare b).declared ↔ a = b ∨ a ∈ p.declared := by
  rw [Pending.declare]
  split
  · next h =>
    have hb : b ∈ p.declared := by simpa using h
    refine ⟨.inr, ?_⟩
    rintro (rfl | h)
    · exact hb
    · exact h
  · exact List.mem_cons

theorem Pending.interpreter_declare (p : Pending) (name : String) :
    (p.declare name).interpreter = p.interpreter := by
  rw [Pending.declare]
  split <;> rfl

/-- Names that are imported from a module with values for all that it exposes. -/
theorem Load.takeNames_transfer (decl : ImportDecl) {m : Module} (names : List Token) (p : Pending)
    (s : Session) (hne : m.globals ≠ p.interpreter.globals)
    (hlt : p.interpreter.globals < s.world.heap.scopes.next)
    (hm : ∀ a ∈ m.exports, (s.moduleValue m a).isSome) :
    ∃ p' s', takeNames decl m names p s = .ok p' s' ∧ p'.interpreter = p.interpreter ∧
      (∀ a ∈ p'.declared, a ∈ p.declared ∨ a ∈ names.map Token.lexeme ∧ a ∈ m.exports) ∧
      Transfer decl.module m names p.interpreter s s' := by
  induction names generalizing p s with
  | nil => exact ⟨p, s, rfl, rfl, fun a ha => .inl ha, .refl ..⟩
  | cons name names ih =>
    -- One name is taken or reported, and the others come next.
    have step : ∀ {q : Pending} {s₁ : Session}, q.interpreter = p.interpreter →
        (∀ a ∈ q.declared, a ∈ p.declared ∨ a = name.lexeme ∧ a ∈ m.exports) →
        Transfer decl.module m [name] p.interpreter s s₁ →
        s₁.world.heap.scopes.next = s.world.heap.scopes.next →
        ∃ p' s', takeNames decl m names q s₁ = .ok p' s' ∧ p'.interpreter = p.interpreter ∧
          (∀ a ∈ p'.declared,
            a ∈ p.declared ∨ a ∈ (name :: names).map Token.lexeme ∧ a ∈ m.exports) ∧
          Transfer decl.module m (name :: names) p.interpreter s s' := by
      intro q s₁ hq hdeclared h hnext
      obtain ⟨p', s', hrun, hp', hd, h'⟩ := ih q s₁ (hq ▸ hne) (hq ▸ hnext ▸ hlt) fun a ha => by
        rw [h.moduleValue hne]
        exact hm a ha
      refine ⟨p', s', hrun, hp'.trans hq, fun a ha => ?_, h.trans (hq ▸ h') hne⟩
      rcases hd a ha with ha | ⟨hn, ha⟩
      · exact (hdeclared a ha).imp_right fun h => ⟨by simp [h.1], h.2⟩
      · exact .inr ⟨List.mem_cons_of_mem _ hn, ha⟩
    rw [takeNames]
    by_cases hx : name.lexeme ∈ m.exports
    · rw [if_pos (List.contains_iff_mem.2 hx)]
      obtain ⟨v, hv⟩ := Option.isSome_iff_exists.1 (hm _ hx)
      refine step (q := p.declare name.lexeme) (p.interpreter_declare _) (fun a ha => ?_)
        ?_ ?_
      · exact (Pending.mem_declare.1 ha).symm.imp_right fun h => ⟨h, h ▸ hx⟩
      · simp only [hv]
        exact .exposed hlt hx hv
      · simp only [hv]
        simp [Session.defineGlobal]
    · rw [if_neg fun h => hx (List.contains_iff_mem.1 h)]
      exact step (q := p) rfl (fun a ha => .inl ha) (.withheld hx) rfl

end Treewalk
