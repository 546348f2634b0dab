import Mathlib.Data.List.Chain
import Treewalk.Proofs.Laws
import Treewalk.Proofs.Sound

/-!
# Where a run stands when it stops

Two laws of runs. `Steady`: whether a run ends or stops, it comes back to its scope and to as many
open calls as before, and never has more of them open than it may. `Fell`: a run that fails leaves
behind, in `running`, the code it had come to and not left; the innermost piece of that is what
failed, and each other piece runs the one before it.
-/

namespace Treewalk

/-! ### Scope and depth -/

/-- From one state of a run to a later one, scope and depth stay, and in between no more calls are
open than may be. -/
structure Steady (x y : Logged Event Machine) : Prop where
  scope : y.state.scope = x.state.scope
  depth : y.state.depth = x.state.depth
  limit : y.state.limit = x.state.limit
  bounded : x.state.depth ≤ x.state.limit → ∃ new, y.log = new ++ x.log ∧
    ∀ e ∈ new, ∀ m ∈ e.machine?, m.depth ≤ m.limit ∧ m.limit = x.state.limit

namespace Steady

variable {x y z : Logged Event Machine}

theorem refl (x : Logged Event Machine) : Steady x x := ⟨rfl, rfl, rfl, fun _ => ⟨[], rfl, by simp⟩⟩

theorem trans (h : Steady x y) (h' : Steady y z) : Steady x z := by
  refine ⟨h'.scope.trans h.scope, h'.depth.trans h.depth, h'.limit.trans h.limit, fun hd => ?_⟩
  obtain ⟨new, hnew, hle⟩ := h.bounded hd
  obtain ⟨new', hnew', hle'⟩ := h'.bounded (by rwa [h.depth, h.limit])
  refine ⟨new' ++ new, by rw [hnew', hnew, List.append_assoc], fun e he m hm => ?_⟩
  rcases List.mem_append.1 he with he | he
  · rw [← h.limit]
    exact hle' e he m hm
  · exact hle e he m hm

theorem event {m : Machine} {e : Event} (hs : m.scope = x.state.scope)
    (hd : m.depth = x.state.depth) (hl : m.limit = x.state.limit)
    (he : ∀ k ∈ e.machine?, k = x.state) : Steady x ⟨m, e :: x.log⟩ := by
  refine ⟨hs, hd, hl, fun hle => ⟨[e], rfl, fun e' he' k hk => ?_⟩⟩
  rw [List.mem_singleton.1 he'] at hk
  rw [he k hk]
  exact ⟨hle, rfl⟩

theorem law : Law Steady fun _ _ => Steady := by
  refine .uniform refl trans (fun h => ?_) (fun he _ => event rfl rfl rfl he)
    (fun v => event rfl rfl rfl (by simp [Event.machine?, Turn.machine?]))
    (fun s h => ⟨rfl, h.depth, h.limit, h.bounded⟩) fun {x y} hlt h => ⟨h.scope, ?_, h.limit, ?_⟩
  · cases h <;> exact ⟨rfl, rfl, rfl, fun _ => ⟨[], rfl, by simp⟩⟩
  · have hd : y.state.depth = x.state.depth + 1 := h.depth
    show y.state.depth - 1 = x.state.depth
    omega
  · exact fun _ => h.bounded hlt

end Steady

/-! ### What is printed -/

/-- The sink once what the events print, latest first, is written to it. -/
def Sink.replay (s : Sink) : List Event → Sink
  | [] => s
  | .turn (.printed v m) :: L => (s.replay L).write (m.heap.text v ++ "\n")
  | _ :: L => s.replay L

theorem Sink.replay_append (s : Sink) (L L' : List Event) :
    s.replay (L ++ L') = (s.replay L').replay L := by
  induction L with
  | nil => rfl
  | cons e L ih =>
    rw [List.cons_append]
    cases e with
    | turn k =>
      cases k with
      | printed v m => exact congrArg (Sink.write · _) ih
      | left | called | applied | built => exact ih
    | made | reached | scanned | read | bound | imported | began | aborted | entered | moment =>
      exact ih

theorem Sink.replay_cons {s : Sink} {e : Event} (he : ¬ e.Prints) (L : List Event) :
    s.replay (e :: L) = s.replay L := by
  cases e with
  | turn k =>
    cases k with
    | printed => exact absurd trivial he
    | left | called | applied | built => rfl
  | made | reached | scanned | read | bound | imported | began | aborted | entered | moment => rfl

/-- From one state to a later one, what is printed is what the log says. -/
def Heard (x y : Logged Event Machine) : Prop :=
  ∃ new, y.log = new ++ x.log ∧ y.state.sink = x.state.sink.replay new

namespace Heard

theorem trans {x y z : Logged Event Machine} (h : Heard x y) (h' : Heard y z) : Heard x z := by
  obtain ⟨new, hnew, hs⟩ := h
  obtain ⟨new', hnew', hs'⟩ := h'
  exact ⟨new' ++ new, by rw [hnew', hnew, List.append_assoc], by rw [hs', hs, Sink.replay_append]⟩

theorem law : Law Heard fun _ _ => Heard := by
  refine .uniform (fun x => ⟨[], rfl, rfl⟩) trans (fun h => ?_)
    (fun _ he => ⟨[_], rfl, (Sink.replay_cons he []).symm⟩) (fun v => ⟨[_], rfl, rfl⟩)
    (fun s h => h) fun _ h => h
  cases h <;> exact ⟨[], rfl, rfl⟩

end Heard

/-- A law that makes no difference between what ends and what stops holds of all that a run leaves.
-/
theorem Obeys.last {R : Logged Event Machine → Logged Event Machine → Prop} {α : Type}
    {p : Trace α} {x : Logged Event Machine} {C : Code → Prop} {O : Stop → Prop}
    (h : Obeys R (fun _ _ => R) C O x p) : R x (Traced.last (p x)) := by
  unfold Obeys at h
  split at h
  · next hp =>
    rw [hp]
    exact h
  · next hp =>
    rw [hp]
    rcases h with ⟨-, h⟩ | ⟨-, -, h⟩
    · exact h
    · exact h

/-- Every such law holds of all that the step leaves. -/
def Trace.Lawful {α : Type} (p : Trace α) : Prop :=
  ∀ {R : Logged Event Machine → Logged Event Machine → Prop}, Law R (fun _ _ => R) →
    ∀ x, R x (Traced.last (p x))

theorem Trace.run_lawful (n : Nat) (body : List Stmt) : (run n body).Lawful := fun law x =>
  (run_obeys (C := fun _ => True) (O := fun _ => True) law n body (fun _ _ => trivial) x).last

theorem Trace.call_lawful (n : Nat) (c : Callable) (args : List Value) (paren : Token) :
    (call n c args paren).Lawful := fun law x =>
  ((runObeys law n).call (C := fun _ => True) (O := fun _ => True) x c args paren
    (fun _ => trivial) fun _ _ => trivial).last

/-! ### The code that runs -/

/-- The pieces of code that a run has come to and not left since its program began, innermost first.
-/
def running : List Event → List Code
  | [] => []
  | .reached (.use _ _) _ :: L => running L
  | .reached code _ :: L => code :: running L
  | .turn (.left _) :: L => (running L).tail
  | .began .. :: _ => []
  | _ :: L => running L

theorem running_reached {code : Code} (h : ∀ u ref, code ≠ .use u ref) (m : Machine)
    (L : List Event) : running (.reached code m :: L) = code :: running L := by
  cases code with
  | use u ref => exact absurd rfl (h u ref)
  | stmts | stmt | expr | function | body => rfl

theorem mem_running {code : Code} {L : List Event} (h : code ∈ running L) :
    ∃ m, .reached code m ∈ L := by
  induction L with
  | nil => simp [running] at h
  | cons e L ih =>
    have later : code ∈ running L → ∃ m, .reached code m ∈ e :: L := fun h =>
      (ih h).imp fun m hm => List.mem_cons_of_mem e hm
    cases e with
    | reached code' m =>
      cases code' with
      | use => exact later h
      | stmts | stmt | expr | function | body =>
        rcases List.mem_cons.1 h with rfl | h
        · exact ⟨m, List.mem_cons_self ..⟩
        · exact later h
    | turn k =>
      cases k with
      | left => exact later (List.mem_of_mem_tail h)
      | called | applied | built | printed => exact later h
    | began => simp [running] at h
    | made | scanned | read | aborted | bound | imported | entered | moment => exact later h

/-- The run failed with `f` in `code`: the pieces of `trace` run one another, from the one that
failed up to `code`. -/
structure Fell (f : Fault) (code : Code) (trace : List Code) : Prop where
  runs : trace.IsChain fun inner outer => outer.Runs inner
  outermost : trace.getLast? = some code
  failed : ∃ inner ∈ trace.head?, inner.Stops (.fault f)

namespace Fell

variable {f : Fault} {code inner : Code} {trace : List Code}

theorem own (h : code.Stops (.fault f)) : Fell f code [code] :=
  ⟨.singleton _, rfl, code, rfl, h⟩

theorem inside (h : Fell f inner trace) (hr : code.Runs inner) : Fell f code (trace ++ [code]) := by
  refine ⟨List.isChain_append.2 ⟨h.runs, .singleton _, fun c hc c' hc' => ?_⟩, by simp, ?_⟩
  · obtain rfl : inner = c := Option.some.inj (h.outermost.symm.trans hc)
    obtain rfl : code = c' := Option.some.inj hc'
    exact hr
  · obtain ⟨c, hc, hs⟩ := h.failed
    refine ⟨c, ?_, hs⟩
    cases trace with
    | nil => cases hc
    | cons c' trace => exact hc

/-- A run that ends leaves all the code it came to. If it fails, it stays in the code that failed
and in what runs it. -/
theorem law : Law (fun x y => running y.log = running x.log) fun code e x y =>
    e = .exhausted ∨ ∃ f trace, e = .fault f ∧ running y.log = trace ++ running x.log ∧
      Fell f code trace where
  refl _ := rfl
  trans h h' := h'.trans h
  effect _ := rfl
  made _ _ := rfl
  used _ _ := rfl
  called _ _ := rfl
  applied _ _ := rfl
  built _ _ _ _ := rfl
  printed _ := rfl
  scope _ h := h
  deeper _ h := h
  within {x y code} hu h := by
    rw [running_reached hu] at h
    show (running y.log).tail = _
    rw [h]
    rfl
  stops {x y code e} hu hs h := by
    rw [running_reached hu] at h
    cases hs with
    | exhausted => exact .inl rfl
    | fault ht hc => exact .inr ⟨_, [code], rfl, h, own (.fault ht hc)⟩
  inside {x y code inner e} hu hr h := by
    rcases h with h | ⟨f, trace, he, hy, hf⟩
    · exact .inl h
    · rw [running_reached hu] at hy
      exact .inr ⟨f, trace ++ [code], he, by rw [hy]; simp, hf.inside hr⟩
  after h h' := by
    rcases h' with h' | ⟨f, trace, he, hy, hf⟩
    · exact .inl h'
    · exact .inr ⟨f, trace, he, by rw [hy, h], hf⟩
  scopeStopped _ h := h
  deeperStopped _ h := h

end Fell

/-- The function of which the code is the inside. -/
def Code.decl? : Code → Option FunctionDecl
  | .body decl => some decl
  | _ => none

/-- The inside of the function that runs innermost, or else `code`. -/
def frame (code : Code) (trace : List Code) : Code :=
  ((trace.findSome? Code.decl?).map Code.body).getD code

/-- The second piece of code is the first or stands somewhere inside it, in no function of its own.
-/
abbrev Code.Holds : Code → Code → Prop := Relation.ReflTransGen Code.Has

theorem Code.Has.decl? {outer inner : Code} (h : outer.Has inner) : inner.decl? = none := by
  cases h <;> rfl

/-- What runs innermost stands in the function that runs innermost. -/
theorem frame_holds {code inner : Code} {trace : List Code}
    (hr : (inner :: trace).IsChain fun inner outer => outer.Runs inner)
    (hl : (inner :: trace).getLast? = some code) : (frame code (inner :: trace)).Holds inner := by
  induction trace generalizing inner with
  | nil =>
    obtain rfl : inner = code := Option.some.inj hl
    cases inner <;> exact .refl
  | cons outer trace ih =>
    have hl' : (outer :: trace).getLast? = some code := by
      rwa [List.getLast?_cons_cons] at hl
    cases hr with
    | cons_cons hrun hrest =>
      -- A call makes `inner` the inside of a function, and everything else leaves the function.
      cases hrun with
      | call => exact .refl
      | inside h =>
        have hframe : frame code (inner :: outer :: trace) = frame code (outer :: trace) := by
          simp only [frame, List.findSome?_cons, h.decl?]
        rw [hframe]
        exact (ih hrest hl').tail h

/-- A program that fails does so in a piece of code that it has come to and not left. -/
theorem Trace.run_fell {n : Nat} {body : List Stmt} {x y : Logged Event Machine} {f : Fault}
    (h : Trace.run n body x = .error (.fault f) y) :
    ∃ s ∈ body, ∃ trace, running y.log = trace ++ running x.log ∧ Fell f (.stmt s) trace := by
  have hobeys := Trace.run_obeys Fell.law (C := fun c => ∃ s ∈ body, c = .stmt s)
    (O := fun _ => False) n body (fun s hs => ⟨s, hs, rfl⟩) x
  unfold Obeys at hobeys
  rw [h] at hobeys
  rcases hobeys with ⟨hno, -⟩ | ⟨code, ⟨s, hs, rfl⟩, hstop⟩
  · exact hno.elim
  rcases hstop with he | ⟨f', trace, he, hy, hfell⟩
  · cases he
  · cases he
    exact ⟨s, hs, trace, hy, hfell⟩

end Treewalk
