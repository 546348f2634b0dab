import Treewalk.Session
import Treewalk.Proofs.Lexical

/-!
# Runs that keep a log

To say what happens in the course of a run, the run is repeated with a log of events beside its
state. A logged run is the plain one in all but the log: `Erases E p q` says that `p` is `q` once
the log is forgotten and logs only events of which `E` holds, and there is a rule for each way of
putting steps together.
-/

namespace Treewalk

/-- What happens between runs, each with the state it leaves. -/
inductive Moment where
  /-- A file starts to be processed. -/
  | opened (path : Path) (s : Session)
  /-- A file has been processed. -/
  | closed (path : Path) (result : Option Module) (s : Session)
  /-- A file is entered into those whose names are being bound, or leaves them. -/
  | stacked (s : Session)
  /-- An import comes up. -/
  | asked (decl : ImportDecl) (s : Session)
  /-- An import is answered. -/
  | answered (decl : ImportDecl) (result : Option Module) (asked s : Session)
  /-- The interpreter has the names of an import that was answered. The table of the module comes
  next. -/
  | taken (decl : ImportDecl) (m : Module) (i : Interpreter) (asked had s : Session)
  /-- All names of a program are bound for the interpreter. -/
  | resolved (body : List Stmt) (i : Interpreter) (s : Session)
  /-- The reports are forgotten. -/
  | cleared (s : Session)

/-- The state at a moment. -/
def Moment.state : Moment → Session
  | .opened _ s | .closed _ _ s | .stacked s | .asked _ s | .answered _ _ _ s
  | .taken _ _ _ _ _ s | .resolved _ _ s | .cleared s => s

/-- What a run does between coming to one piece of code and coming to the next. -/
inductive Turn where
  /-- A piece of code is done. -/
  | left (code : Code)
  /-- A call is open. Its arguments are counted next. -/
  | called (c : Callable) (args : List Value) (m : Machine)
  /-- The body of a function is entered with these arguments. The scope of its parameters is made
  next. -/
  | applied (f : Closure) (args : List Value) (m : Machine)
  /-- A class is made of a declaration, with methods in the scope. -/
  | built (c : Nat) (decl : ClassDecl) (superclass : Option Nat) (scope : Nat)
  /-- A value is about to be printed. -/
  | printed (v : Value) (m : Machine)

/-- The state at a turn, if it is told. -/
def Turn.machine? : Turn → Option Machine
  | .called _ _ m | .applied _ _ m | .printed _ m => some m
  | .left _ | .built .. => none

/-- What happens in a session that statements about it speak of. -/
inductive Event where
  /-- A scope is made for what opens it. -/
  | made (scope : Nat) (origin : Origin)
  /-- A run comes to a piece of code. -/
  | reached (code : Code) (m : Machine)
  | turn (k : Turn)
  /-- A text is read next, with the tokens of `file`. It is that of a file if there is a path. -/
  | scanned (path : Option Path) (file : Option String) (text : String) (s : Session)
  /-- A text is read. Faults are what is wrong with its characters and tokens. -/
  | read (path : Option Path) (body : List Stmt) (faulty : Bool)
  /-- The interpreter with these globals has all distances found for a program. -/
  | bound (globals : Nat) (body : List Stmt)
  /-- The interpreter with these globals takes over the bindings of the module with those. -/
  | imported (globals module : Nat)
  /-- An interpreter starts a program. -/
  | began (path : Option Path) (globals : Nat) (body : List Stmt)
  /-- A program that was started has failed, and that is reported. -/
  | aborted (path : Option Path) (globals : Nat) (body : List Stmt) (f : Fault)
  /-- A session is asked to run a file that is no module yet. -/
  | entered (path : Path)
  | moment (k : Moment)

/-- The state of the run at an event, if it is told. -/
def Event.machine? : Event → Option Machine
  | .reached _ m => some m
  | .turn k => k.machine?
  | _ => none

/-- The event is one of the run of a program. -/
def Event.OfRun : Event → Prop
  | .made .. | .reached .. | .turn _ => True
  | _ => False

section

variable {ε σ α β : Type} {p : EStateM ε σ α} {f : α → EStateM ε σ β} {s t : σ}

theorem bind_of_ok {a : α} (h : p s = .ok a t) : (p >>= f) s = f a t := by
  show EStateM.bind p f s = _
  rw [EStateM.bind, h]

theorem bind_of_error {e : ε} (h : p s = .error e t) : (p >>= f) s = .error e t := by
  show EStateM.bind p f s = _
  rw [EStateM.bind, h]

end

/-- A state and the events so far, latest first. -/
structure Logged (ε σ : Type) where
  state : σ
  log : List ε

/-- Steps that keep a log. -/
abbrev Traced (ε e σ : Type) := EStateM e (Logged ε σ)

namespace Traced

variable {ε e σ α β : Type}

/-- A plain step, of which the log says nothing. -/
def lift (q : EStateM e σ α) : Traced ε e σ α := fun x =>
  match q x.state with
  | .ok a s => .ok a { x with state := s }
  | .error err s => .error err { x with state := s }

/-- Adds an event. -/
def note (event : σ → ε) : Traced ε e σ Unit := fun x =>
  .ok () { x with log := event x.state :: x.log }

/-- A plain step, and an event that tells what the step made of the state. -/
def watch (q : EStateM e σ α) (event : σ → α → σ → ε) : Traced ε e σ α := fun x =>
  match q x.state with
  | .ok a s => .ok a { state := s, log := event x.state a s :: x.log }
  | .error err s => .error err { x with state := s }

/-- Forgets the log. -/
def erase : EStateM.Result e (Logged ε σ) α → EStateM.Result e σ α
  | .ok a x => .ok a x.state
  | .error err x => .error err x.state

/-- What a run leaves, however it ends. -/
def last : EStateM.Result e (Logged ε σ) α → Logged ε σ
  | .ok _ x => x
  | .error _ x => x

theorem exists_of_erase {r : EStateM.Result e (Logged ε σ) α} {a : α} {s : σ}
    (h : erase r = .ok a s) : ∃ L, r = .ok a ⟨s, L⟩ := by
  cases r with
  | ok b y =>
    cases h
    exact ⟨y.log, rfl⟩
  | error err y => cases h

theorem lift_of_ok {q : EStateM e σ α} {x : Logged ε σ} {a : α} {s : σ} (h : q x.state = .ok a s) :
    lift q x = .ok a { x with state := s } := by
  rw [lift, h]

/-- But for the log, `p` does what `q` does, and it logs only events of which `E` holds. -/
structure Erases (E : ε → Prop) (p : Traced ε e σ α) (q : EStateM e σ α) : Prop where
  state : ∀ x, erase (p x) = q x.state
  log : ∀ x, ∃ new, (last (p x)).log = new ++ x.log ∧ ∀ event ∈ new, E event

namespace Erases

variable {E : ε → Prop}

instance {p : Traced ε e σ α} {q : EStateM e σ α} :
    CoeFun (Erases E p q) fun _ => ∀ x, erase (p x) = q x.state := ⟨Erases.state⟩

theorem step (q : EStateM e σ α) : Erases E (lift q) q := by
  refine ⟨fun x => ?_, fun x => ⟨[], ?_, by simp⟩⟩
  · rw [lift]
    cases q x.state <;> rfl
  · rw [lift]
    cases q x.state <;> rfl

theorem watch (q : EStateM e σ α) (event : σ → α → σ → ε)
    (hE : ∀ s a s', E (event s a s') := by intros; trivial) : Erases E (watch q event) q := by
  refine ⟨fun x => ?_, fun x => ?_⟩
  · rw [Traced.watch]
    cases q x.state <;> rfl
  · rw [Traced.watch]
    cases q x.state with
    | ok a s => exact ⟨[event x.state a s], rfl, by simp [hE]⟩
    | error err s => exact ⟨[], rfl, by simp⟩

theorem pure (a : α) : Erases E (pure a : Traced ε e σ α) (pure a) :=
  ⟨fun _ => rfl, fun _ => ⟨[], rfl, by simp⟩⟩

theorem throw (err : e) : Erases E (throw err : Traced ε e σ α) (throw err) :=
  ⟨fun _ => rfl, fun _ => ⟨[], rfl, by simp⟩⟩

theorem bind {p : Traced ε e σ α} {q : EStateM e σ α} {f : α → Traced ε e σ β}
    {g : α → EStateM e σ β} (h : Erases E p q) (hf : ∀ a, Erases E (f a) (g a)) :
    Erases E (p >>= f) (q >>= g) := by
  refine ⟨fun x => ?_, fun x => ?_⟩
  · have hx := h.state x
    show erase (EStateM.bind p f x) = EStateM.bind q g x.state
    rw [EStateM.bind, EStateM.bind, ← hx]
    cases p x with
    | ok a y => exact (hf a).state y
    | error err y => rfl
  · obtain ⟨new, hnew, hE⟩ := h.log x
    show ∃ new, (last (EStateM.bind p f x)).log = new ++ x.log ∧ _
    rw [EStateM.bind]
    cases hp : p x with
    | error err y =>
      rw [hp] at hnew
      exact ⟨new, hnew, hE⟩
    | ok a y =>
      rw [hp] at hnew
      obtain ⟨new', hnew', hE'⟩ := (hf a).log y
      have hy : y.log = new ++ x.log := hnew
      refine ⟨new' ++ new, ?_, fun e he => (List.mem_append.1 he).elim (hE' e) (hE e)⟩
      rw [List.append_assoc, ← hy]
      exact hnew'

theorem after {q : EStateM e σ α} {f : α → Traced ε e σ β} {g : α → EStateM e σ β}
    (hf : ∀ a, Erases E (f a) (g a)) : Erases E (lift q >>= f) (q >>= g) := (step q).bind hf

/-- What is noted before a step does not change it. -/
theorem noted {event : σ → ε} {p : Traced ε e σ α} {q : EStateM e σ α} (h : Erases E p q)
    (hE : ∀ s, E (event s) := by intro; trivial) : Erases E (do note event; p) q := by
  refine ⟨fun x => h.state { x with log := event x.state :: x.log }, fun x => ?_⟩
  obtain ⟨new, hnew, hE'⟩ := h.log { x with log := event x.state :: x.log }
  refine ⟨new ++ [event x.state], ?_, fun e he => ?_⟩
  · rw [List.append_assoc]
    exact hnew
  · rcases List.mem_append.1 he with he | he
    · exact hE' e he
    · exact List.mem_singleton.1 he ▸ hE _

/-- What is noted after a step does not change it. -/
theorem closed {event : σ → ε} {p : Traced ε e σ α} {q : EStateM e σ α} (h : Erases E p q)
    (hE : ∀ s, E (event s) := by intro; trivial) :
    Erases E (do let a ← p; note event; return a) q := by
  have := h.bind (g := Pure.pure) fun a => (Erases.pure a).noted hE
  rwa [bind_pure] at this

/-- To look at the state does not change it. -/
theorem looked {f : σ → Traced ε e σ α} {q : EStateM e σ α} (h : ∀ s, Erases E (f s) q) :
    Erases E (lift MonadState.get >>= f) q :=
  ⟨fun x => (h x.state).state x, fun x => (h x.state).log x⟩

theorem map {p : Traced ε e σ α} {q : EStateM e σ α} (f : α → β) (h : Erases E p q) :
    Erases E (f <$> p) (f <$> q) := by
  refine ⟨fun x => ?_, fun x => ?_⟩
  · have hx := h.state x
    show erase (EStateM.map f p x) = EStateM.map f q x.state
    rw [EStateM.map, EStateM.map, ← hx]
    cases p x <;> rfl
  · obtain ⟨new, hnew, hE⟩ := h.log x
    refine ⟨new, ?_, hE⟩
    show (last (EStateM.map f p x)).log = _
    rw [← hnew, EStateM.map]
    cases p x <;> rfl

end Erases

end Traced

end Treewalk
