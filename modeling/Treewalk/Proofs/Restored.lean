import Treewalk.Proofs.Isolation

/-!
# Runs come back to where they started

Whatever a run is asked to do, it ends or fails in the scope it started in and with as many calls
open as before, and on the way no more calls are open than may be. So after every step of a session
each interpreter of the host stands in its globals with no call open.
-/

namespace Treewalk

/-- What a run can be asked to do. -/
inductive Task where
  | statement (s : Stmt)
  | expression (e : Expr)
  | call (c : Callable) (args : List Value) (paren : Token)
  | program (body : List Stmt)

namespace Task

/-- What the task answers. -/
def Result : Task → Type
  | .statement _ => Flow
  | .expression _ | .call .. => Value
  | .program _ => Unit

/-- Runs the task. -/
def run (n : Nat) : (t : Task) → Eval t.Result
  | .statement s => Eval.exec n s
  | .expression e => Eval.eval n e
  | .call c args paren => Eval.call n c args paren
  | .program body => Eval.run n body

@[inherit_doc Task.run]
def logged (n : Nat) : (t : Task) → Trace t.Result
  | .statement s => Trace.exec n s
  | .expression e => Trace.eval n e
  | .call c args paren => Trace.call n c args paren
  | .program body => Trace.run n body

theorem logged_erases (n : Nat) (t : Task) : Trace.Erases (t.logged n) (t.run n) := by
  cases t with
  | statement s => exact (Trace.runErases n).exec s
  | expression e => exact (Trace.runErases n).eval e
  | call c args paren => exact (Trace.runErases n).call c args paren
  | program body => exact Trace.run_erases n body

theorem logged_lawful (n : Nat) (t : Task) : (t.logged n).Lawful := by
  intro R law x
  have hrun := Trace.runObeys law n
  cases t with
  | statement s =>
    exact (hrun.exec (C := fun _ => True) (O := fun _ => True) x s trivial).last
  | expression e =>
    exact (hrun.eval (C := fun _ => True) (O := fun _ => True) x e trivial).last
  | call c args paren => exact Trace.call_lawful n c args paren law x
  | program body => exact Trace.run_lawful n body law x

end Task

/-- The run stands in the same scope as before, with as many calls open and no more allowed. -/
structure Machine.Back (m m' : Machine) : Prop where
  scope : m'.scope = m.scope
  depth : m'.depth = m.depth
  limit : m'.limit = m.limit

/-- What a run leaves, if the run with a log leaves it steadily. -/
theorem Steady.back {α : Type} {p : Trace α} {q : Eval α} {m : Machine} {L : List Event}
    (hp : Trace.Erases p q) (h : Steady ⟨m, L⟩ (Traced.last (p ⟨m, L⟩))) :
    (∀ a m', q m = .ok a m' → m.Back m') ∧ ∀ e m', q m = .error e m' → m.Back m' := by
  have herase := hp.state ⟨m, L⟩
  dsimp only at herase
  rw [← herase]
  cases hr : p ⟨m, L⟩ with
  | ok a y =>
    rw [hr] at h
    refine ⟨fun b m' he => ?_, fun e m' he => ?_⟩
    · cases he
      exact ⟨h.scope, h.depth, h.limit⟩
    · cases he
  | error e y =>
    rw [hr] at h
    refine ⟨fun b m' he => ?_, fun e m' he => ?_⟩
    · cases he
    · cases he
      exact ⟨h.scope, h.depth, h.limit⟩

/-- A statement, an expression, a call or a program that may run leaves its scope and the number of
open calls as they were, whether it ends or fails, and never has more calls open than it may. So in
a session each interpreter goes on in its globals and with no call open. -/
theorem scope_and_depth_restored :
    (∀ (n : Nat) (t : Task) (m : Machine), m.depth ≤ m.limit →
      Traced.erase (t.logged n ⟨m, []⟩) = t.run n m ∧
      (∀ a m', t.run n m = .ok a m' → m.Back m') ∧
      (∀ e m', t.run n m = .error e m' → m.Back m') ∧
      ∀ e ∈ (Traced.last (t.logged n ⟨m, []⟩)).log, ∀ m' ∈ e.machine?,
        m'.depth ≤ m'.limit ∧ m'.limit = m.limit) ∧
    ∀ (s : Setup) (n : Nat) (ts : List Step) (is : Array Interpreter) (s' : Session),
      s.run n ts = .ok is s' → ∀ i ∈ is, i.scope = i.globals ∧ i.depth = 0 := by
  refine ⟨fun n t m hm => ?_, fun s n ts is s' hs i hi => ?_⟩
  · have hsteady : Steady ⟨m, []⟩ (Traced.last (t.logged n ⟨m, []⟩)) :=
      t.logged_lawful n Steady.law ⟨m, []⟩
    obtain ⟨hok, herror⟩ := hsteady.back (t.logged_erases n)
    obtain ⟨new, hnew, hle⟩ := hsteady.bounded hm
    rw [hnew, List.append_nil]
    exact ⟨t.logged_erases n ⟨m, []⟩, hok, herror, hle⟩
  · obtain ⟨L, hl⟩ := Traced.exists_of_erase ((s.erase_logged n ts).trans hs)
    obtain ⟨k, hk, rfl⟩ := Array.mem_iff_getElem.1 hi
    have hready := (s.host hl).2.ready k is[k] (Array.getElem?_eq_getElem hk)
    exact ⟨hready.scope, hready.depth⟩

/-- The number of reports that the session ends with. -/
def Setup.reports? (s : Setup) (n : Nat) (ts : List Step) : Option Nat :=
  match s.run n ts with
  | .ok _ s' => some s'.diagnostics.size
  | .error .. => none

/-- A function that calls itself without end sets up a static field. -/
def endlessText : String :=
  "fun f() \x7b \x7b return f(); \x7d \x7d class A \x7b static x = f(); \x7d"

/-- A session in which three calls may be open. -/
def endlessSession : Setup := { root := "/", config.maxDepth := 3 }

/-- A new interpreter of the session. -/
def threeCalls : Machine :=
  let (i, s) := endlessSession.session.newInterpreter
  .ofParts s.world i s.config.maxDepth

/-- The run fails in a block of the third call, and is back in its globals with no call open; and so
is the interpreter of a session that runs the text. -/
theorem scope_and_depth_restored_endless :
    threeCalls.depth ≤ threeCalls.limit ∧
      (∃ e m', (Task.program (Source.read none endlessText 0 {}).1.body).run 40 threeCalls =
        .error e m' ∧ threeCalls.Back m') ∧
      ∃ is s', endlessSession.run 40 [.newInterpreter, .runSource 0 none endlessText] = .ok is s' ∧
        s'.diagnostics.size = 1 ∧ ∀ i ∈ is, i.scope = i.globals ∧ i.depth = 0 := by
  have hle : threeCalls.depth ≤ threeCalls.limit := by decide
  obtain ⟨hruns, hsessions⟩ := scope_and_depth_restored
  refine ⟨hle, ?_, ?_⟩
  · obtain ⟨-, -, hback, -⟩ := hruns 40 (.program (Source.read none endlessText 0 {}).1.body)
      threeCalls hle
    have hfails : Eval.failed ((Task.program (Source.read none endlessText 0 {}).1.body).run 40
      threeCalls) := by decide +kernel
    revert hback hfails
    cases (Task.program (Source.read none endlessText 0 {}).1.body).run 40 threeCalls with
    | ok a m' => exact fun _ h => absurd h (by simp [Eval.failed])
    | error e m' => exact fun hback _ => ⟨e, m', rfl, hback e m' rfl⟩
  · have hsize : endlessSession.reports? 40 [.newInterpreter, .runSource 0 none endlessText] =
      some 1 := by decide +kernel
    rw [Setup.reports?] at hsize
    split at hsize
    · next is s' hrun => exact ⟨is, s', hrun, Option.some.inj hsize, hsessions _ _ _ is s' hrun⟩
    · cases hsize

end Treewalk
