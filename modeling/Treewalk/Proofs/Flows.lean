import Treewalk.Proofs.Addressing
import Treewalk.Proofs.Endings

/-!
# Control flow stays inside of its constructs

Statements of an accepted program end in ways that their places allow. So nothing is lost where a
call looks only for a `return`, and where a program does not look at how its statements end.
-/

namespace Treewalk

/-- The control flow of a program stays inside of its constructs, whatever the machine. -/
structure Contained (program : List Stmt) : Prop where
  /-- What stands outside of all functions ends normally. -/
  outside : ∀ s ∈ program, ∀ n m flow m', Eval.exec n s m = .ok flow m' → flow = .normal
  /-- The body of a function or method ends normally or by a `return`. -/
  body : ∀ decl σ, Placed program (.body decl) σ → ∀ n m flow m',
    Eval.execAll n decl.body m = .ok flow m' → flow = .normal ∨ ∃ v, flow = .ret v
  /-- A `return` from an initializer is without a value. -/
  init : ∀ decl σ f, Placed program (.stmt (.cls decl)) σ → f ∈ decl.methods → f.isInit →
    ∀ n m flow m', Eval.execAll n f.body m = .ok flow m' → flow = .normal ∨ flow = .ret .nil

theorem Accepted.contained {program : List Stmt} (h : Accepted program) : Contained program where
  outside s hs n m flow m' hx := h.exec_normal hs hx
  body decl σ hp n m flow m' hx := by
    obtain ⟨p, ⟨-, hloops, hlawful⟩, -⟩ := hp.lawful h.lawful
    have hfits : flow.Fits p :=
      (Eval.flowsFit n).execAll (FunctionDecl.lawful_iff.1 hlawful) m flow m' hx
    cases flow with
    | normal => exact .inl rfl
    | ret v => exact .inr ⟨v, rfl⟩
    | brk | cont => exact absurd hloops hfits
  init decl σ f hp hf hinit n m flow m' hx := by
    obtain ⟨p, hlawful, -⟩ := hp.lawful h.lawful
    have hbody := FunctionDecl.lawful_iff.1 ((ClassDecl.lawful_iff.1 hlawful).2.2.1 f hf)
    have hkind : f.kind = .initializer := if_pos hinit
    rw [hkind] at hbody
    have hfits := (Eval.flowsFit n).execAll hbody m flow m' hx
    cases flow with
    | normal => exact .inl rfl
    | ret v => exact .inr (congrArg Flow.ret (hfits.2 rfl))
    | brk | cont => exact absurd rfl hfits

/-- Control flow stays inside of its constructs in every accepted program, and code of no other
programs is ever run. -/
theorem flow_contained (s : Setup) (n : Nat) (ts : List Step) :
    (∀ program, Accepted program → Contained program) ∧
      Traced.erase (s.logged n ts) = s.run n ts ∧
      ∀ code m B, (.reached code m :: B) <:+ s.events n ts →
        ∃ path g program σ, Stands B m path g program code σ ∧ Accepted program ∧
          Contained program := by
  refine ⟨fun program h => h.contained, s.erase_logged n ts, fun code m B hB => ?_⟩
  have hinv := s.inv n ts
  obtain ⟨path, g, program, σ, hs⟩ := hinv.stands hB
  have hp := hinv.started ((List.suffix_cons ..).trans hB) hs.began
  exact ⟨path, g, program, σ, hs, hp.accepted, hp.accepted.contained⟩

end Treewalk
