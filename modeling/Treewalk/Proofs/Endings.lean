import Treewalk.Evaluation
import Treewalk.Proofs.Placement

/-!
# How statements end

A lawful statement ends in a way that its place allows (`Eval.flowsFit`): a `break` or a `continue`
gets no further than to a loop of the same function, and a `return` to the function. What stands
outside of all functions and loops ends normally (`Accepted.exec_normal`).
-/

namespace Treewalk

/-- A statement that stands at `p` may end so. -/
def Flow.Fits (p : Standing) : Flow → Prop
  | .normal => True
  | .ret v => p.function.isSome ∧ (p.function = some .initializer → v = .nil)
  | .brk | .cont => p.loops ≠ 0

namespace Eval

variable {p : Standing}

/-- If the run ends, it ends in a way that fits. -/
def Flows (p : Standing) (x : Eval Flow) : Prop :=
  ∀ m flow m', x m = .ok flow m' → flow.Fits p

namespace Flows

theorem pure {flow : Flow} (h : flow.Fits p) : Flows p (Pure.pure flow) := by
  intro m flow' m' hx
  cases hx
  exact h

theorem throw (e : Stop) : Flows p (throw e) := by
  intro m flow m' hx
  cases hx

theorem bind {α : Type} {x : Eval α} {f : α → Eval Flow}
    (h : ∀ m a m', x m = .ok a m' → Flows p (f a)) : Flows p (x >>= f) := by
  intro m flow m' hx
  change EStateM.bind x f m = .ok flow m' at hx
  rw [EStateM.bind] at hx
  cases hrun : x m with
  | ok a k =>
    rw [hrun] at hx
    exact h m a k hrun k flow m' hx
  | error e k =>
    rw [hrun] at hx
    cases hx

/-- What comes before does not matter. -/
theorem after {α : Type} {x : Eval α} {f : α → Eval Flow} (h : ∀ a, Flows p (f a)) :
    Flows p (x >>= f) := bind fun _ a _ _ => h a

theorem inScope {x : Eval Flow} (h : Flows p x) (s : Nat) : Flows p (inScope s x) := by
  intro m flow m' hx
  rw [Eval.inScope] at hx
  cases hrun : x { m with scope := s } with
  | ok a k =>
    rw [hrun] at hx
    cases hx
    exact h _ _ _ hrun
  | error e k =>
    rw [hrun] at hx
    cases hx

end Flows

/-- Statements end in ways that fit, with this number of steps. -/
structure FlowsFit (n : Nat) : Prop where
  exec : ∀ {p : Standing} {s : Stmt}, s.Lawful p → Flows p (exec n s)
  execAll : ∀ {p : Standing} {ss : List Stmt}, Stmt.LawfulAll p ss → Flows p (execAll n ss)
  loop : ∀ {p : Standing} {e : Expr} {step : Option Expr} {body : Stmt},
    body.Lawful p.inLoop → Flows p (loop n e step body)

namespace FlowsFit
variable {n : Nat}

theorem exec_ret {keyword : Token} {value : Option Expr} (h : (Stmt.ret keyword value).Lawful p) :
    Flows p (Eval.exec (n + 1) (.ret keyword value)) := by
  obtain ⟨hfunction, hinit, -⟩ := h
  rw [Eval.exec]
  refine .bind fun m v m' hv => .pure ⟨hfunction, fun hkind => ?_⟩
  -- An initializer returns without a value, for which `nil` stands.
  rw [hinit hkind] at hv
  cases n with
  | zero =>
    rw [evalOption] at hv
    cases hv
  | succ n =>
    rw [evalOption] at hv
    cases hv
    rfl

theorem exec_succ (ih : FlowsFit n) {s : Stmt} (h : s.Lawful p) : Flows p (Eval.exec (n + 1) s) := by
  match s with
  | .expr e | .print _ e | .var _ _ _ | .function _ | .cls _ =>
    rw [Eval.exec]
    repeat refine .after fun _ => ?_
    exact .pure trivial
  | .block body =>
    rw [Eval.exec]
    exact .after fun _ => .after fun s => (ih.execAll h).inScope s
  | .decls body =>
    rw [Eval.exec]
    exact ih.execAll h
  | .branch e y none =>
    rw [Eval.exec]
    refine .after fun v => ?_
    split
    · exact ih.exec h.2
    · exact .pure trivial
  | .branch e y (some no) =>
    rw [Eval.exec]
    refine .after fun v => ?_
    split
    · exact ih.exec h.2.1
    · exact ih.exec h.2.2
  | .loop e step body =>
    rw [Eval.exec]
    exact ih.loop h.2.2
  | .ret keyword value => exact exec_ret h
  | .brk _ | .cont _ =>
    rw [Eval.exec]
    exact .pure h
  | .require _ | .expose _ _ =>
    rw [Eval.exec]
    exact .pure trivial

theorem execAll_succ (ih : FlowsFit n) {ss : List Stmt} (h : Stmt.LawfulAll p ss) :
    Flows p (Eval.execAll (n + 1) ss) := by
  cases ss with
  | nil => exact .pure trivial
  | cons s ss =>
    rw [Eval.execAll]
    refine .bind fun m flow m' hflow => ?_
    have hfits : flow.Fits p := ih.exec h.1 m flow m' hflow
    cases flow with
    | normal => exact ih.execAll h.2
    | ret v | brk | cont => exact .pure hfits

theorem loop_succ (ih : FlowsFit n) {e : Expr} {step : Option Expr} {body : Stmt}
    (h : body.Lawful p.inLoop) : Flows p (Eval.loop (n + 1) e step body) := by
  have hround : Flows p (Eval.loop n e step body) := ih.loop h
  rw [Eval.loop]
  refine .after fun v => ?_
  split
  · refine .bind fun m flow m' hflow => ?_
    have hfits : flow.Fits p.inLoop := ih.exec h m flow m' hflow
    cases flow with
    | normal | cont => exact .after fun _ => hround
    | brk => exact .pure trivial
    | ret v => exact .pure hfits
  · exact .pure trivial

end FlowsFit

theorem flowsFit (n : Nat) : FlowsFit n := by
  induction n with
  | zero =>
    refine ⟨fun _ => ?_, fun _ => ?_, fun _ => ?_⟩
    · rw [exec]
      exact .throw _
    · rw [execAll]
      exact .throw _
    · rw [loop]
      exact .throw _
  | succ n ih => exact ⟨ih.exec_succ, ih.execAll_succ, ih.loop_succ⟩

end Eval

/-- What stands outside of all functions ends normally. -/
theorem Accepted.exec_normal {program : List Stmt} (h : Accepted program) {s : Stmt}
    (hs : s ∈ program) {n : Nat} {m m' : Machine} {flow : Flow}
    (hx : Eval.exec n s m = .ok flow m') : flow = .normal := by
  have hlawful : s.Lawful {} := Stmt.lawfulAll_iff.1 h.lawful s hs
  have hfits : flow.Fits {} := (Eval.flowsFit n).exec hlawful m flow m' hx
  cases flow with
  | normal => rfl
  | ret v => exact absurd hfits.1 (by simp)
  | brk | cont => exact absurd rfl hfits

end Treewalk
