import Treewalk.Proofs.Alignment
import Treewalk.Proofs.Knowledge
import Treewalk.Proofs.Stopped
import Treewalk.Proofs.TracedSession
import Treewalk.Proofs.Transfer

/-!
# The invariant of sessions

`Past` says of each event of a session what came before it: a program is started when its
interpreter knows its distances, and code is run with a table that holds what its interpreter knows.
`Inv` ties the log to the state of the session: the store is aligned with the log, the texts read
and the modules are those of the log, and failures are reported just as the log tells them.

`Keeps base own late x p Q`: from `x` the step `p` leaves a state with `Inv`, whether it ends or
not, and of the interpreters with globals below `base` only `own` does anything, so that of the
variables below `base` only its globals are written and those that code has to write; and if it
ends, `Q` holds of what it answers and leaves.
-/

namespace Treewalk

/-! ### What comes before what -/

/-- The text of the file had faults when it was read. -/
def Faulty (L : List Event) (p : Path) : Prop := ∃ body, .read (some p) body true ∈ L

/-- The session was asked to run the file after its text had been found faulty. -/
def Rerun (L : List Event) (p : Path) : Prop := ∃ B, (.entered p :: B) <:+ L ∧ Faulty B p

/-- If the text of the file is faulty then the session was asked for the file again. -/
def Allowed (L : List Event) (p : Path) : Prop := Faulty L p → Rerun L p

/-- A text was given to be read, and the trees are what it reads as. -/
def ReadFrom (L : List Event) (path : Option Path) (body : List Stmt) (faulty : Bool) : Prop :=
  ∃ file text s, .scanned path file text s ∈ L ∧
    (Source.read file text s.nextRef s.diagnostics).1.body = body ∧
    faulty = decide (s.diagnostics.size < (Source.read file text s.nextRef s.diagnostics).2.size)

/-- What comes before the start of a program. -/
structure Start (L : List Event) (path : Option Path) (g : Nat) (body : List Stmt) : Prop where
  knows : Knows L g body
  accepted : Accepted body
  read : ∃ faulty, .read path body faulty ∈ L
  clean : path = none → .read path body false ∈ L
  allowed : ∀ p, path = some p → Allowed L p
  /-- What was started with these globals before came from the same file, or from none. -/
  sole : ∀ path' body', .began path' g body' ∈ L → path' = path

/-- The modules have values for all that they expose. -/
def Session.Exposes (s : Session) : Prop :=
  ∀ p m, s.modules.get? p = some m → ∀ a ∈ m.exports, (s.moduleValue m a).isSome

/-- What comes before the moment when an interpreter has the names of an import. The module has
values for all that it exposes, and since the import came up the globals of the interpreter were
written by code only. -/
structure Imported (L : List Event) (decl : ImportDecl) (m : Module) (i : Interpreter)
    (asked had s : Session) : Prop where
  module : ∃ p, had.modules.get? p = some m
  apart : m.globals ≠ i.globals
  outer : ∀ o, .made i.globals o ∉ L
  exports : ∀ a ∈ m.exports, (had.moduleValue m a).isSome
  transfer : Transfer decl.module m decl.names i had s
  since : ∃ new B, L = new ++ .moment (.asked decl asked) :: B ∧
    ∀ a, had.getGlobal i a ≠ asked.getGlobal i a → ∃ e ∈ new, e.Writes i.globals a
  table : ∃ body fs, HasRead L body ∧ (∀ f ∈ fs, f ∈ findings body) ∧
    Holds L i.globals fs i.bindings
  moduleTable : TableOk L m.globals m.bindings

/-- The import was turned down, or the interpreter with the globals `g` got its names. -/
def Met (L : List Event) (g : Nat) (decl : ImportDecl) : Prop :=
  (∃ asked s, .moment (.answered decl none asked s) ∈ L) ∨
    ∃ m i asked had s, i.globals = g ∧ .moment (.taken decl m i asked had s) ∈ L

/-- What comes before the moment when all names of a program are bound. -/
structure Resolved (L : List Event) (body : List Stmt) (i : Interpreter) : Prop where
  read : HasRead L body
  table : Holds L i.globals (findings body) i.bindings
  imports : ∀ decl, .required decl ∈ findings body → Met L i.globals decl

/-- What comes before a moment. -/
def Moment.Follows (L : List Event) : Moment → Prop
  | .taken decl m i before had s => Imported L decl m i before had s
  | .resolved body i _ => Resolved L body i
  | .opened .. | .closed .. | .stacked .. | .asked .. | .answered .. | .cleared .. => True

/-- A program that was started has failed: it is the last to be started, and what has been come to
since and not left shows how it failed. -/
def Aborts (L : List Event) (path : Option Path) (g : Nat) (body : List Stmt) (f : Fault) : Prop :=
  ∃ new B, L = new ++ .began path g body :: B ∧ (∀ e ∈ new, e.OfRun) ∧
    ∃ s ∈ body, Fell f (.stmt s) (running L)

/-- What comes before an event. No file is read twice. -/
def Event.Follows (L : List Event) : Event → Prop
  | .scanned path file _ s => ∀ p, path = some p → file = some (s.displayName p)
  | .read path body faulty =>
    (∀ p, path = some p → ∀ body faulty, .read (some p) body faulty ∉ L) ∧
      ReadFrom L path body faulty
  | .aborted path g body f => Aborts L path g body f
  | .bound _ body => HasRead L body
  | .began path g body => Start L path g body
  | .reached _ m => TableOk L m.globals m.bindings
  | .turn k => ∀ m ∈ k.machine?, TableOk L m.globals m.bindings
  | .moment k => k.state.Exposes ∧ k.Follows L
  | .made .. | .imported .. | .entered .. => True

/-- Each event of the log, latest first, comes after what it needs. -/
def Past : List Event → Prop
  | [] => True
  | e :: L => e.Follows L ∧ Past L

section

variable {L L' B : List Event} {e : Event} {p : Path}

theorem Faulty.of_cons (h : Faulty (e :: L) p) (he : ∀ body, e ≠ .read (some p) body true) :
    Faulty L p := by
  obtain ⟨body, hb⟩ := h
  exact ⟨body, (List.mem_cons.1 hb).resolve_left fun h => he body h.symm⟩

theorem Met.mono {g : Nat} {decl : ImportDecl} (h : Met L g decl) (hl : L <:+ L') :
    Met L' g decl := by
  rcases h with ⟨asked, s, h⟩ | ⟨m, i, asked, had, s, hg, h⟩
  · exact .inl ⟨asked, s, hl.subset h⟩
  · exact .inr ⟨m, i, asked, had, s, hg, hl.subset h⟩

theorem Rerun.mono (h : Rerun L p) (hl : L <:+ L') : Rerun L' p := by
  obtain ⟨B, hB, hf⟩ := h
  exact ⟨B, hB.trans hl, hf⟩

theorem Allowed.noted (h : Allowed L p) (he : ∀ body, e ≠ .read (some p) body true) :
    Allowed (e :: L) p := fun hf => (h (hf.of_cons he)).mono (List.suffix_cons ..)

theorem Start.moment {path : Option Path} {g : Nat} {body : List Stmt} (h : Start L path g body)
    (k : Moment) : Start (.moment k :: L) path g body where
  knows := h.knows
  accepted := h.accepted
  read := h.read.imp fun _ => List.mem_cons_of_mem _
  clean hp := List.mem_cons_of_mem _ (h.clean hp)
  allowed p hp := (h.allowed p hp).noted (by simp)
  sole path' body' hb := h.sole path' body' ((List.mem_cons.1 hb).resolve_left (by simp))

namespace Past

theorem suffix (h : Past L) (hl : B <:+ L) : Past B := by
  obtain ⟨new, rfl⟩ := hl
  induction new with
  | nil => exact h
  | cons e new ih => exact ih h.2

theorem follows (h : Past L) (hl : (e :: B) <:+ L) : e.Follows B := (h.suffix hl).1

theorem boundRead (h : Past L) : BoundRead L := by
  intro g body hb
  obtain ⟨new, B, rfl⟩ := List.append_of_mem hb
  have hf := h.follows (List.suffix_append new (.bound g body :: B))
  exact HasRead.mono hf ((List.suffix_cons ..).trans (List.suffix_append ..))

/-- A file that has been read is not read later. -/
theorem read_once (h : Past L) (hl : B <:+ L) {body body' : List Stmt} {faulty faulty' : Bool}
    (hr : .read (some p) body faulty ∈ B) (hr' : .read (some p) body' faulty' ∈ L) :
    .read (some p) body' faulty' ∈ B := by
  obtain ⟨new, rfl⟩ := hl
  refine (List.mem_append.1 hr').resolve_left fun hn => ?_
  obtain ⟨new₁, new₂, rfl⟩ := List.append_of_mem hn
  have hf := h.follows (e := .read (some p) body' faulty') (B := new₂ ++ B)
    ⟨new₁, by simp⟩
  exact hf.1 p rfl body faulty (List.mem_append_right _ hr)

/-- What was true of a file when it had been read is true of it later. -/
theorem allowed (h : Past L) (hl : B <:+ L) {body : List Stmt} {faulty : Bool}
    (hr : .read (some p) body faulty ∈ B) (ha : Allowed B p) : Allowed L p := by
  rintro ⟨body', hr'⟩
  exact (ha ⟨body', h.read_once hl hr hr'⟩).mono hl

/-- A file that was started was allowed to run. -/
theorem began_allowed (h : Past L) {g : Nat} {program : List Stmt}
    (hb : .began (some p) g program ∈ L) : Allowed L p := by
  obtain ⟨new, B, rfl⟩ := List.append_of_mem hb
  have hs : Start B (some p) g program := h.follows (List.suffix_append ..)
  obtain ⟨faulty, hr⟩ := hs.read
  exact h.allowed ((List.suffix_cons ..).trans (List.suffix_append ..)) hr (hs.allowed p rfl)

/-- The run of an interpreter logs nothing that needs more than the interpreter's table, which says
what the interpreter knows. -/
theorem run {m : Machine} {new : List Event} (h : Past L) (ht : TableOk L m.globals m.bindings)
    (hnew : ∀ e ∈ new, e.IsOf m) : Past (new ++ L) := by
  induction new with
  | nil => exact h
  | cons e new ih =>
    have hrest := List.forall_mem_cons.1 hnew
    have htable : ∀ {m' : Machine}, m'.globals = m.globals ∧ m'.bindings = m.bindings →
        TableOk (new ++ L) m'.globals m'.bindings := fun {m'} hm => by
      rw [hm.1, hm.2]
      refine ht.append fun e he ht => ?_
      have hof := hrest.2 e he
      cases e with
      | bound | imported => exact hof
      | made | reached | turn | scanned | read | began | aborted | entered | moment => exact ht
    refine ⟨?_, ih hrest.2⟩
    cases e with
    | made => trivial
    | reached code m' => exact htable hrest.1
    | turn k => exact fun m' hm => htable (hrest.1 m' hm)
    | scanned | read | bound | imported | began | aborted | entered | moment => exact hrest.1.elim

end Past

/-- Runs read no texts. -/
theorem Event.IsOf.text? {m : Machine} (h : e.IsOf m) : e.text? = none := by
  cases e with
  | read => exact h.elim
  | made | reached | turn | scanned | bound | imported | began | aborted | entered | moment => rfl

theorem Event.IsOf.globals {m m' : Machine} (h : e.IsOf m) (hm : m' ∈ e.machine?) :
    m'.globals = m.globals := by
  cases e with
  | reached code k => exact Option.some.inj hm ▸ h.1
  | turn k => exact (h m' hm).1
  | made | scanned | read | bound | imported | began | aborted | entered | moment => cases hm

/-- Runs touch no interpreter. -/
theorem Event.IsOf.not_touches {m : Machine} (h : e.IsOf m) (g : Nat) : ¬ e.Touches g := by
  cases e with
  | bound | imported => exact h.elim
  | made | reached | turn | scanned | read | began | aborted | entered | moment => exact fun h => h

end

/-! ### The invariant -/

/-- The scopes of a session. -/
abbrev Logged.scopes (x : Logged Event Session) : Scopes := x.state.world.heap.scopes

/-- The module is a file that was started, has the table of its interpreter, and has values for all
that it exposes. -/
structure Module.Ok (x : Logged Event Session) (p : Path) (m : Module) : Prop where
  lt : m.globals < x.scopes.next
  table : TableOk x.log m.globals m.bindings
  began : ∃ body, .began (some p) m.globals body ∈ x.log
  exports : ∀ a ∈ m.exports, (x.scopes.here? m.globals a).isSome

/-- The reports of failed runs that there have to be, in order: one for each program that was
aborted since the reports were last forgotten, with the file, the place and the message of its
failure. -/
def failureReports : List Event → List Diagnostic
  | [] => []
  | .moment (.cleared _) :: _ => []
  | .aborted _ _ _ f :: L => failureReports L ++ [⟨.running, f.file, f.pos, .nowhere, f.message⟩]
  | _ :: L => failureReports L

/-- The failures of runs that are reported are just those of programs that were aborted, each of
them reported once. -/
def Diagnostics.Accounted (L : List Event) (ds : Diagnostics) : Prop :=
  ds.reported.toList.filter (·.stage == .running) = failureReports L

/-- The invariant of sessions, with the log of all that has happened. Scopes hold what the log says
they were made for (`aligned`), each event has come after what it needs (`past`), and trees have
references of their own (`texts`). Interpreters were made before they did anything (`touched`,
`begun`). The trees of files are those that were read from them (`parsed`), a file that was read
with faults counts as failed, except for the file `late` of which that is still to be noted
(`failed`), and modules are files that were started (`modules`). Failures are reported once each
(`accounted`). -/
structure Inv (late : Option Path) (x : Logged Event Session) : Prop where
  aligned : AlignedHistory x.state.world.heap x.log
  past : Past x.log
  texts : Texts x.log x.state.nextRef
  touched : ∀ e ∈ x.log, ∀ g, e.Touches g → g < x.scopes.next
  begun : ∀ path g body, .began path g body ∈ x.log → g < x.scopes.next
  parsed : ∀ p body,
    x.state.parsed.get? p = some body ↔ ∃ faulty, .read (some p) body faulty ∈ x.log
  failed : ∀ p, Faulty x.log p → p ∈ x.state.failed ∨ late = some p
  modules : ∀ p m, x.state.modules.get? p = some m → m.Ok x p
  accounted : x.state.diagnostics.Accounted x.log

/-- The event is one of the interpreter with the globals `g`. -/
def Event.Of (g : Nat) : Event → Prop
  | .bound g' _ | .imported g' _ | .began _ g' _ => g' = g
  | .reached _ m => m.globals = g
  | .turn k => ∃ m ∈ k.machine?, m.globals = g
  | .made .. | .scanned .. | .read .. | .aborted .. | .entered .. | .moment .. => False

/-- The interpreter with the globals `g` starts a program or is in the course of a run. -/
def Event.Runs (g : Nat) : Event → Prop
  | .began _ g' _ => g' = g
  | .reached _ m => m.globals = g
  | .turn k => ∃ m ∈ k.machine?, m.globals = g
  | .made .. | .scanned .. | .read .. | .bound .. | .imported .. | .aborted .. | .entered ..
  | .moment .. => False

/-- The event tells neither of scopes and code nor of texts. -/
def Event.Outer : Event → Prop
  | .made .. | .reached .. | .turn _ | .read .. => False
  | .scanned .. | .bound .. | .imported .. | .began .. | .aborted .. | .entered ..
  | .moment .. => True

/-- A file is started with the globals `g`. -/
def Event.OfFile (g : Nat) : Event → Prop
  | .began (some _) g' _ => g' = g
  | _ => False

/-- The event is one of an interpreter with globals from `base` on or of `own`, which starts no
files. -/
def Event.By (base : Nat) (own : Option Nat) (e : Event) : Prop :=
  ∀ g, (e.Of g → base ≤ g ∨ own = some g) ∧ (e.OfFile g → base ≤ g)

/-- Only `own` starts what is in no file, and other runs are those of files that were started. -/
structure Event.Backed (own : Option Nat) (L : List Event) (e : Event) : Prop where
  source : ∀ g body, e = .began none g body → own = some g
  run : ∀ m ∈ e.machine?, own = some m.globals ∨ ∃ p body, .began (some p) m.globals body ∈ L

/-- From the log `L` on, of the interpreters with globals below `base` only `own` has done
anything, and the others have done what files have them do. -/
def Ran (base : Nat) (own : Option Nat) (L L' : List Event) : Prop :=
  ∃ new, L' = new ++ L ∧ ∀ e ∈ new, e.By base own ∧ e.Backed own L'

/-- From `x` on, of the interpreters with globals below `base` none but `own` has done anything, the
output is what the new events print, and a variable that was there has another value only if a
scope of `own` or from `base` on has it or some code was to write it. -/
structure Acted (base : Nat) (own : Option Nat) (x y : Logged Event Session) : Prop where
  ran : Ran base own x.log y.log
  prints : ∃ new, y.log = new ++ x.log ∧ y.state.world.sink = x.state.world.sink.replay new
  vars : ∀ s a, s < x.scopes.next → y.scopes.here? s a ≠ x.scopes.here? s a →
    (base ≤ s ∨ own = some s) ∨ Written x y s a

/-- A session has only grown from `x` to `y`: scopes and events were added, and so were reports,
trees of files and modules, the latter for interpreters from `base` on. -/
structure SessionGrew (base : Nat) (own : Option Nat) (x y : Logged Event Session) : Prop
    extends Acted base own x y where
  later : Later x.scopes x.log y.scopes y.log
  modules : ∀ p m, y.state.modules.get? p = some m →
    x.state.modules.get? p = some m ∨ base ≤ m.globals
  cached : ∀ p body, x.state.parsed.get? p = some body → y.state.parsed.get? p = some body
  reports : x.state.diagnostics.size ≤ y.state.diagnostics.size

/-- A change of the state that makes no event and leaves all tables of files. -/
structure Frame (base : Nat) (own : Option Nat) (x : Logged Event Session) (s : Session) :
    Prop where
  aligned : AlignedHistory s.world.heap x.log
  sink : s.world.sink = x.state.world.sink
  later : Later x.scopes x.log s.world.heap.scopes x.log
  vars : ∀ t a, t < x.scopes.next → s.world.heap.scopes.here? t a ≠ x.scopes.here? t a →
    base ≤ t ∨ own = some t
  nextRef : s.nextRef = x.state.nextRef
  parsed : s.parsed = x.state.parsed
  failed : s.failed = x.state.failed
  modules : s.modules = x.state.modules
  reports : x.state.diagnostics.size ≤ s.diagnostics.size
  accounted : x.state.diagnostics.Accounted x.log → s.diagnostics.Accounted x.log

namespace Diagnostics.Accounted

variable {L L' : List Event} {ds : Diagnostics}

/-- Runs report nothing themselves. -/
theorem run {m : Machine} {new : List Event} (h : ds.Accounted L) (hnew : ∀ e ∈ new, e.IsOf m) :
    ds.Accounted (new ++ L) := by
  induction new with
  | nil => exact h
  | cons e new ih =>
    have hrest := List.forall_mem_cons.1 hnew
    refine (ih hrest.2).trans ?_
    cases e with
    | made | reached | turn => rfl
    | scanned | read | bound | imported | began | aborted | entered | moment => exact hrest.1.elim

theorem push (h : ds.Accounted L) {d : Diagnostic} (hd : d.stage ≠ .running) :
    (ds.push d).Accounted L := by
  unfold Diagnostics.Accounted at h ⊢
  simpa [Diagnostics.push, hd] using h

theorem fault (h : ds.Accounted L) (path : Option Path) (g : Nat) (body : List Stmt) (f : Fault) :
    (ds.reportFault f).Accounted (.aborted path g body f :: L) := by
  unfold Diagnostics.Accounted at h ⊢
  rw [failureReports, ← h]
  simp [Diagnostics.reportFault, Diagnostics.push]

theorem foldl {α : Type} {step : Diagnostics → α → Diagnostics}
    (hstep : ∀ ds a, ds.Accounted L → (step ds a).Accounted L) (as : List α)
    (h : ds.Accounted L) : (as.foldl step ds).Accounted L := by
  induction as generalizing ds with
  | nil => exact h
  | cons a as ih => exact ih (hstep ds a h)

/-- Reading a text reports no failures of runs. -/
theorem read (h : ds.Accounted L) (file : Option String) (text : String) (firstId : Nat) :
    (Source.read file text firstId ds).2.Accounted L :=
  foldl (fun _ _ h => h.push (by simp)) _ (foldl (fun _ _ h => h.push (by simp)) _ h)

end Diagnostics.Accounted

section

variable {x y z : Logged Event Session} {s : Session} {base : Nat} {own : Option Nat}
  {late : Option Path}

theorem Event.Touches.of {e : Event} {g : Nat} (h : e.Touches g) : e.Of g := by
  cases e with
  | bound | imported => exact h
  | made | reached | turn | scanned | read | began | aborted | entered | moment => exact h.elim

theorem Event.Runs.of {e : Event} {g : Nat} (h : e.Runs g) : e.Of g := by
  cases e with
  | reached | turn | began => exact h
  | made | scanned | read | bound | imported | aborted | entered | moment => exact h.elim

theorem Event.runs_of_machine? {e : Event} {m : Machine} (h : m ∈ e.machine?) :
    e.Runs m.globals := by
  cases e with
  | reached code k => exact Option.some.inj h ▸ rfl
  | turn k => exact ⟨m, h, rfl⟩
  | made | scanned | read | bound | imported | began | aborted | entered | moment => cases h

theorem Event.Backed.mono {L L' : List Event} {e : Event} (h : e.Backed own L) (hl : L <:+ L') :
    e.Backed own L' := by
  refine ⟨h.source, fun m hm => (h.run m hm).imp_right ?_⟩
  rintro ⟨p, body, hb⟩
  exact ⟨p, body, hl.subset hb⟩

namespace Ran

variable {L L' L'' : List Event} {e : Event}

theorem refl (base : Nat) (own : Option Nat) (L : List Event) : Ran base own L L :=
  ⟨[], rfl, by simp⟩

theorem trans (h : Ran base own L L') (h' : Ran base own L' L'') : Ran base own L L'' := by
  obtain ⟨new, rfl, ht⟩ := h
  obtain ⟨new', rfl, ht'⟩ := h'
  refine ⟨new' ++ new, (List.append_assoc ..).symm, fun e he => ?_⟩
  rcases List.mem_append.1 he with he | he
  · exact ht' e he
  · exact ⟨(ht e he).1, (ht e he).2.mono (List.suffix_append ..)⟩

theorem suffix (h : Ran base own L L') : L <:+ L' := by
  obtain ⟨new, rfl, -⟩ := h
  exact List.suffix_append ..

theorem note (h : e.By base own) (hm : e.machine? = none)
    (hn : ∀ g body, e = .began none g body → own = some g) : Ran base own L (e :: L) := by
  refine ⟨[e], rfl, fun e' he => ?_⟩
  obtain rfl := List.mem_singleton.1 he
  refine ⟨h, hn, fun m hm' => ?_⟩
  rw [hm] at hm'
  cases hm'

/-- Interpreters count from a lower one on. -/
theorem weaken {base' : Nat} {own' : Option Nat} (h : Ran base none L L') (hb : base' ≤ base) :
    Ran base' own' L L' := by
  obtain ⟨new, rfl, ht⟩ := h
  refine ⟨new, rfl, fun e he => ⟨fun g => ⟨fun hg => .inl (Nat.le_trans hb ?_), fun hg => ?_⟩,
    fun g body hb => absurd ((ht e he).2.source g body hb) (by simp), fun m hm => .inr ?_⟩⟩
  · exact (((ht e he).1 g).1 hg).resolve_right (by simp)
  · exact Nat.le_trans hb (((ht e he).1 g).2 hg)
  · exact ((ht e he).2.run m hm).resolve_left (by simp)

end Ran

namespace Acted

theorem refl (base : Nat) (own : Option Nat) (x : Logged Event Session) : Acted base own x x :=
  ⟨.refl .., ⟨[], rfl, rfl⟩, fun _ _ _ h => absurd rfl h⟩

theorem weaken {base' : Nat} {own' : Option Nat} (h : Acted base none x y) (hb : base' ≤ base) :
    Acted base' own' x y := by
  refine ⟨h.ran.weaken hb, h.prints,
    fun s a hs hne => (h.vars s a hs hne).imp_left fun hs => .inl ?_⟩
  exact Nat.le_trans hb (hs.resolve_right (by simp))

/-- The world stays as it is. -/
theorem still {s : Session} (hs : s.world = x.state.world) :
    Acted base own x { x with state := s } :=
  ⟨.refl .., ⟨[], rfl, by rw [hs]; rfl⟩, fun _ _ _ h => absurd (by rw [Logged.scopes, hs]) h⟩

/-- An event of no run is noted, and the world stays as it is. -/
theorem note {e : Event} {s : Session} (h : e.By base own) (hm : e.machine? = none)
    (hn : ∀ g body, e = .began none g body → own = some g) (hs : s.world = x.state.world) :
    Acted base own x ⟨s, e :: x.log⟩ := by
  have hp : ¬ e.Prints := fun hp => by
    cases e with
    | turn k =>
      cases k with
      | printed => cases hm
      | left | called | applied | built => exact hp
    | made | reached | scanned | read | bound | imported | began | aborted | entered | moment =>
      exact hp
  exact ⟨.note h hm hn, ⟨[e], rfl, by rw [hs, Sink.replay_cons hp]; rfl⟩,
    fun _ _ _ hne => absurd (by rw [Logged.scopes, hs]) hne⟩

end Acted

namespace SessionGrew

theorem refl (base : Nat) (own : Option Nat) (x : Logged Event Session) :
    SessionGrew base own x x :=
  ⟨.refl .., .refl .., fun _ _ => .inl, fun _ _ h => h, Nat.le_refl _⟩

theorem note {e : Event} (h : e.By base own) (hm : e.machine? = none := by rfl)
    (hn : ∀ g body, e = .began none g body → own = some g := by simp) :
    SessionGrew base own x { x with log := e :: x.log } :=
  ⟨.note h hm hn rfl, .note .., fun _ _ => .inl, fun _ _ hp => hp, Nat.le_refl _⟩

/-- An event of no interpreter is noted, and the world and the modules stay as they are. -/
theorem noting {e : Event} {s : Session} (he : ∀ g, ¬ e.Of g ∧ ¬ e.OfFile g)
    (hworld : s.world = x.state.world) (hmodules : s.modules = x.state.modules)
    (hparsed : ∀ p b, x.state.parsed.get? p = some b → s.parsed.get? p = some b)
    (hreports : x.state.diagnostics.size ≤ s.diagnostics.size)
    (hm : e.machine? = none := by rfl) : SessionGrew base own x ⟨s, e :: x.log⟩ := by
  refine ⟨.note (fun g => ⟨fun h => absurd h (he g).1, fun h => absurd h (he g).2⟩) hm
    (fun g body h => absurd (h ▸ rfl) (he g).1) hworld, ?_, fun p m hm => .inl (hmodules ▸ hm),
    hparsed, hreports⟩
  show Later x.scopes x.log s.world.heap.scopes _
  rw [hworld]
  exact .note ..

/-- What is done after the step is done from before it on. -/
theorem acted (h : SessionGrew base own x y) (h' : Acted base own y z) : Acted base own x z := by
  refine ⟨h.ran.trans h'.ran, ?_, fun s a hs hne => ?_⟩
  · obtain ⟨new, hnew, hp⟩ := h.prints
    obtain ⟨new', hnew', hp'⟩ := h'.prints
    exact ⟨new' ++ new, by rw [hnew', hnew, List.append_assoc],
      by rw [hp', hp, Sink.replay_append]⟩
  by_cases he : y.scopes.here? s a = x.scopes.here? s a
  · rw [← he] at hne
    exact (h'.vars s a (Nat.lt_of_lt_of_le hs h.later.next) hne).imp_right fun hw =>
      Since.before hw h.later.log
  · exact (h.vars s a hs he).imp_right fun hw => Since.after hw h'.ran.suffix

theorem trans (h : SessionGrew base own x y) (h' : SessionGrew base own y z) :
    SessionGrew base own x z := by
  refine ⟨h.acted h'.toActed, h.later.trans h'.later, fun p m hm => ?_,
    fun p body hp => h'.cached p body (h.cached p body hp), Nat.le_trans h.reports h'.reports⟩
  rcases h'.modules p m hm with hm | hm
  · exact h.modules p m hm
  · exact .inr hm

theorem weaken {base' : Nat} {own' : Option Nat} (h : SessionGrew base none x y)
    (hb : base' ≤ base) : SessionGrew base' own' x y :=
  ⟨h.toActed.weaken hb, h.later, fun p m hm => (h.modules p m hm).imp_right (Nat.le_trans hb),
    h.cached, h.reports⟩

/-- The table of an interpreter that does nothing. -/
theorem holds {g : Nat} {fs : List Finding} {B : Bindings} (h : SessionGrew base own x y)
    (hg : g < base) (hown : own ≠ some g) (hB : Holds x.log g fs B) : Holds y.log g fs B := by
  obtain ⟨new, hnew, ht⟩ := h.ran
  rw [hnew]
  refine hB.append fun e he hte => ?_
  rcases ((ht e he).1 g).1 hte.of with hle | ho
  · omega
  · exact hown ho

end SessionGrew

namespace Frame

/-- The store changes, and nothing else but reports. -/
theorem store {h : Heap} (hg : AlignedHistory h x.log) (hl : Later x.scopes x.log h.scopes x.log)
    (hv : ∀ t a, t < x.scopes.next → h.scopes.here? t a ≠ x.scopes.here? t a →
      base ≤ t ∨ own = some t) :
    Frame base own x { x.state with world.heap := h } :=
  ⟨hg, rfl, hl, hv, rfl, rfl, rfl, rfl, Nat.le_refl _, id⟩

theorem grew (h : Frame base own x s) : SessionGrew base own x { x with state := s } :=
  ⟨⟨.refl .., ⟨[], rfl, h.sink⟩, fun t a ht hne => .inl (h.vars t a ht hne)⟩, h.later,
    fun _ _ hm => .inl (h.modules ▸ hm), fun _ _ hp => h.parsed ▸ hp, h.reports⟩

end Frame

theorem Module.Ok.frame {p : Path} {m : Module} (h : m.Ok x p) (hf : Frame base own x s) :
    m.Ok { x with state := s } p :=
  ⟨Nat.lt_of_lt_of_le h.lt hf.later.next, h.table, h.began,
    fun a ha => hf.later.held _ a (h.exports a ha)⟩

namespace Inv

theorem frame (h : Inv late x) (hf : Frame base own x s) : Inv late { x with state := s } where
  aligned := hf.aligned
  past := h.past
  texts := by
    show Texts x.log s.nextRef
    rw [hf.nextRef]
    exact h.texts
  touched e he g ht := Nat.lt_of_lt_of_le (h.touched e he g ht) hf.later.next
  begun path g body hb := Nat.lt_of_lt_of_le (h.begun path g body hb) hf.later.next
  parsed p body := by
    show s.parsed.get? p = some body ↔ _
    rw [hf.parsed]
    exact h.parsed p body
  failed p hp := by
    show p ∈ s.failed ∨ _
    rw [hf.failed]
    exact h.failed p hp
  modules p m hm := (h.modules p m (hf.modules ▸ hm)).frame hf
  accounted := hf.accounted h.accounted

theorem lenient (h : Inv none x) : Inv late x :=
  { h with failed := fun p hp => .inl ((h.failed p hp).resolve_right (by simp)) }

theorem boundRead (h : Inv late x) : BoundRead x.log := h.past.boundRead

theorem hasRead (h : Inv late x) {p : Path} {body : List Stmt}
    (hp : x.state.parsed.get? p = some body) : HasRead x.log body := by
  obtain ⟨faulty, hr⟩ := (h.parsed p body).1 hp
  exact ⟨some p, faulty, hr⟩

/-- An event is noted that belongs to no run and to no text, and the reports are those that there
have to be after it. -/
theorem reporting (h : Inv late x) (e : Event) {ds : Diagnostics} (ha : ds.Accounted (e :: x.log))
    (he : e.Outer) (hf : e.Follows x.log)
    (hb : ∀ path g body, e = .began path g body → g < x.scopes.next)
    (ht : ∀ g, e.Touches g → g < x.scopes.next ∧
      ∀ p m, x.state.modules.get? p = some m → m.globals ≠ g) :
    Inv late ⟨{ x.state with diagnostics := ds }, e :: x.log⟩ := by
  have hread : ∀ p body faulty, e ≠ .read p body faulty := by
    rintro p body faulty rfl
    exact he
  have hread' : ∀ {p body faulty}, Event.read p body faulty ∈ e :: x.log →
      Event.read p body faulty ∈ x.log := fun hm =>
    (List.mem_cons.1 hm).resolve_left fun he => hread _ _ _ he.symm
  have htext : e.text? = none := by
    cases e with
    | read => exact he.elim
    | made | reached | turn | scanned | bound | imported | began | aborted | entered | moment => rfl
  refine ⟨?_, ⟨hf, h.past⟩, h.texts.anti ?_, fun e' he' g hg => ?_, fun path g body hm => ?_,
    fun p body => ?_, fun p hp => h.failed p (hp.of_cons fun body => hread _ _ _), fun p m hm => ?_,
    ha⟩
  · refine h.aligned.event ?_
    cases e with
    | began p g body =>
      obtain ⟨faulty, hr⟩ := hf.read
      exact h.texts.tidy body ⟨p, faulty, hr⟩
    | made | reached | turn | read => exact he.elim
    | scanned | bound | imported | aborted | entered | moment => trivial
  · rw [textsRead, List.filterMap_cons_none htext]
  · rcases List.mem_cons.1 he' with rfl | he'
    · exact (ht g hg).1
    · exact h.touched e' he' g hg
  · rcases List.mem_cons.1 hm with he | hm
    · exact hb path g body he.symm
    · exact h.begun path g body hm
  · rw [h.parsed p body]
    exact exists_congr fun faulty => ⟨List.mem_cons_of_mem e, hread'⟩
  · have hok := h.modules p m hm
    obtain ⟨body, hb⟩ := hok.began
    exact ⟨hok.lt, hok.table.cons fun hte => (ht m.globals hte).2 p m hm rfl,
      ⟨body, List.mem_cons_of_mem e hb⟩, hok.exports⟩

theorem event (h : Inv late x) (e : Event) (he : e.Outer) (hf : e.Follows x.log)
    (hb : ∀ path g body, e = .began path g body → g < x.scopes.next)
    (ht : ∀ g, e.Touches g → g < x.scopes.next ∧
      ∀ p m, x.state.modules.get? p = some m → m.globals ≠ g)
    (hr : failureReports (e :: x.log) = failureReports x.log := by rfl) :
    Inv late { x with log := e :: x.log } :=
  h.reporting e (h.accounted.trans hr.symm) he hf hb ht

theorem exposes (h : Inv late x) : x.state.Exposes := fun p m hm => (h.modules p m hm).exports

theorem moment (h : Inv late x) {k : Moment} (hs : k.state = x.state) (hk : k.Follows x.log)
    (hr : failureReports (.moment k :: x.log) = failureReports x.log := by rfl) :
    Inv late { x with log := .moment k :: x.log } :=
  h.event (.moment k) trivial ⟨hs ▸ h.exposes, hk⟩ (by simp) (fun _ he => he.elim) hr

end Inv

/-! ### Rules -/

/-- The step keeps the invariant, and from below `base` only the interpreter `own` acts. -/
def Keeps {α : Type} (base : Nat) (own : Option Nat) (late : Option Path)
    (x : Logged Event Session) (p : Trail α) (Q : α → Logged Event Session → Prop) : Prop :=
  match p x with
  | .ok a y => SessionGrew base own x y ∧ Inv late y ∧ Q a y
  | .error _ y => Acted base own x y ∧ Inv none y

namespace Keeps

variable {α β : Type} {p : Trail α} {P Q : α → Logged Event Session → Prop}

theorem pure {a : α} (hx : Inv late x) (h : Q a x) : Keeps base own late x (pure a) Q :=
  ⟨.refl .., hx, h⟩

theorem throw (hx : Inv none x) (e : OutOfSteps) :
    Keeps base own late x (throw e : Trail α) Q := ⟨.refl .., hx⟩

theorem imp (h : Keeps base own late x p P)
    (hPQ : ∀ a y, SessionGrew base own x y → Inv late y → P a y → Q a y) :
    Keeps base own late x p Q := by
  unfold Keeps at h ⊢
  split at h
  · exact ⟨h.1, h.2.1, hPQ _ _ h.1 h.2.1 h.2.2⟩
  · exact h

theorem grew (h : Keeps base own late x p Q) :
    Keeps base own late x p fun a y => Q a y ∧ SessionGrew base own x y :=
  h.imp fun _ _ hw _ hq => ⟨hq, hw⟩

theorem weaken {base' : Nat} {own' : Option Nat} (h : Keeps base none late x p Q)
    (hb : base' ≤ base) : Keeps base' own' late x p Q := by
  unfold Keeps at h ⊢
  split at h
  · exact ⟨h.1.weaken hb, h.2⟩
  · exact ⟨h.1.weaken hb, h.2⟩

theorem bind {late' : Option Path} {f : α → Trail β} {Q : β → Logged Event Session → Prop}
    (h : Keeps base own late x p P)
    (hf : ∀ a y, SessionGrew base own x y → Inv late y → P a y → Keeps base own late' y (f a) Q) :
    Keeps base own late' x (p >>= f) Q := by
  unfold Keeps at h ⊢
  show match EStateM.bind p f x with
    | .ok a y => SessionGrew base own x y ∧ Inv late' y ∧ Q a y
    | .error _ y => Acted base own x y ∧ Inv none y
  rw [EStateM.bind]
  split at h
  · next a y hp =>
    have hrest := hf a y h.1 h.2.1 h.2.2
    rw [hp]
    unfold Keeps at hrest
    dsimp only
    split at hrest
    · exact ⟨h.1.trans hrest.1, hrest.2⟩
    · exact ⟨h.1.acted hrest.1, hrest.2⟩
  · next e y hp =>
    rw [hp]
    exact h

theorem map {f : α → β} {Q : β → Logged Event Session → Prop}
    (h : Keeps base own late x p fun a y => Q (f a) y) : Keeps base own late x (f <$> p) Q := by
  have heq : (f <$> p) x = EStateM.map f p x := rfl
  simp only [Keeps, heq, EStateM.map] at h ⊢
  revert h
  cases p x <;> exact id

theorem of_ok {a : α} (h : Keeps base own late x p Q) (hp : p x = .ok a y) :
    SessionGrew base own x y ∧ Inv late y ∧ Q a y := by
  unfold Keeps at h
  rwa [hp] at h

theorem lift {q : Load α} {a : α} {s : Session} (hq : q x.state = .ok a s) (hx : Inv late x)
    (hf : Frame base own x s) (h : Q a { x with state := s }) :
    Keeps base own late x (Traced.lift q) Q := by
  unfold Keeps Traced.lift
  rw [hq]
  exact ⟨hf.grew, hx.frame hf, h⟩

theorem get {f : Session → Trail α} (h : Keeps base own late x (f x.state) Q) :
    Keeps base own late x (Traced.lift MonadState.get >>= f) Q := h

theorem note {event : Session → Event} {Q : Unit → Logged Event Session → Prop}
    (ht : (event x.state).By base own)
    (hi : Inv late { x with log := event x.state :: x.log })
    (h : Q () { x with log := event x.state :: x.log })
    (hm : (event x.state).machine? = none := by rfl)
    (hn : ∀ g body, event x.state = .began none g body → own = some g := by simp) :
    Keeps base own late x (Traced.note event) Q := ⟨.note ht hm hn, hi, h⟩

/-- An event of no interpreter is noted first. -/
theorem noting {event : Session → Event} {f : Unit → Trail α} {late' : Option Path}
    (ht : ∀ g, ¬ (event x.state).Of g ∧ ¬ (event x.state).OfFile g)
    (hi : Inv late { x with log := event x.state :: x.log })
    (hf : SessionGrew base own x { x with log := event x.state :: x.log } →
      Keeps base own late' { x with log := event x.state :: x.log } (f ()) Q)
    (hm : (event x.state).machine? = none := by rfl) :
    Keeps base own late' x (Traced.note event >>= f) Q := by
  refine Keeps.bind (P := fun _ y => y = _)
    (.note (fun g => ⟨fun he => absurd he (ht g).1, fun he => absurd he (ht g).2⟩) hi rfl hm
      fun g body he => absurd (he ▸ rfl) (ht g).1) fun _ y hw _ he => ?_
  subst he
  exact hf hw

/-- A moment is noted first. -/
theorem moment {k : Session → Moment} {f : Unit → Trail α} {late' : Option Path} (hx : Inv late x)
    (hk : (k x.state).Follows x.log)
    (hf : SessionGrew base own x { x with log := .moment (k x.state) :: x.log } →
      Inv late { x with log := .moment (k x.state) :: x.log } →
      Keeps base own late' { x with log := .moment (k x.state) :: x.log } (f ()) Q)
    (hs : (k x.state).state = x.state := by rfl)
    (hr : failureReports (.moment (k x.state) :: x.log) = failureReports x.log := by rfl) :
    Keeps base own late' x (Traced.note (fun s => .moment (k s)) >>= f) Q :=
  noting (fun _ => ⟨id, id⟩) (hx.moment hs hk hr) fun hw => hf hw (hx.moment hs hk hr)

end Keeps

end

end Treewalk
