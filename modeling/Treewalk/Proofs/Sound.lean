import Treewalk.Proofs.Chain
import Treewalk.Proofs.TracedRun

/-!
# Steps of a run that keep the store aligned

`Safe W x p Q`: from the state `x` the logged step `p` leaves a store that is aligned and was so at
each event, comes back to its scope and logs only events of its own interpreter, whether it ends or
fails; and if it ends, `Q` holds of what it answers and leaves. There is a rule for each way of
putting steps together and a lemma for each single step of a machine.

Of the variables that are there already, the step writes only those in `W` and those that code to
which it comes has to write (`Event.Writes`). To come to such code, or to make a scope, gives what
follows the right to write these variables (`Safe.reach_bind`, `Safe.newScope_bind`).
-/

namespace Treewalk

/-- The event belongs to a run of the interpreter of `m`. -/
def Event.IsOf (m : Machine) : Event → Prop
  | .made _ _ => True
  | .reached _ m' => m'.globals = m.globals ∧ m'.bindings = m.bindings
  | .turn k => ∀ m' ∈ k.machine?, m'.globals = m.globals ∧ m'.bindings = m.bindings
  | _ => False

/-- The names that a statement defines itself, in the scope it stands in. -/
def Stmt.defines : Stmt → List String
  | .var name _ _ => [name.lexeme]
  | .function decl => [decl.name.lexeme]
  | .cls decl => [decl.name.lexeme]
  | _ => []

/-- The run comes to code that has to write the variable `a` of the scope `s`. -/
def Event.Writes (s : Nat) (a : String) : Event → Prop
  | .reached (.stmt st) m => m.scope = s ∧ a ∈ st.defines
  | .reached (.use .assign ref) m | .reached (.use .compoundWrite ref) m =>
    Eval.target? m ref = some s ∧ ref.name.lexeme = a
  | _ => False

theorem Event.Writes.reached {s : Nat} {a : String} {e : Event} (h : e.Writes s a) :
    ∃ code m, e = .reached code m := by
  cases e with
  | reached code m => exact ⟨code, m, rfl⟩
  | made | turn | scanned | read | bound | imported | began | aborted | entered | moment =>
    exact h.elim

/-- Variables, each told by its scope and its name. -/
abbrev Vars := Nat → String → Prop

/-- Between two states of which the second comes later, there is an event of which `P` holds. -/
def Since {σ : Type} (P : Event → Prop) (x y : Logged Event σ) : Prop :=
  ∃ new, y.log = new ++ x.log ∧ ∃ e ∈ new, P e

/-- Between two states of which the second comes later, the variable is written by code that is come
to in between. -/
def Written {σ : Type} (x y : Logged Event σ) (s : Nat) (a : String) : Prop :=
  Since (·.Writes s a) x y

/-- From `x` to `y` the machine has come back to its scope, with the globals and the table it had.
Scopes and log have only grown, by events of this interpreter, and of the variables that were there
only those in `W` were written and those that code which was come to has to write. -/
structure Grew (W : Vars) (x y : Logged Event Machine) : Prop where
  later : Later x.state.heap.scopes x.log y.state.heap.scopes y.log
  scope : y.state.scope = x.state.scope
  globals : y.state.globals = x.state.globals
  bindings : y.state.bindings = x.state.bindings
  events : ∃ new, y.log = new ++ x.log ∧ ∀ e ∈ new, e.IsOf x.state
  writes : ∀ s a, s < x.state.heap.scopes.next →
    y.state.heap.scopes.here? s a ≠ x.state.heap.scopes.here? s a → W s a ∨ Written x y s a

namespace Since
variable {σ : Type} {P : Event → Prop} {x y z : Logged Event σ}

theorem mem {new : List Event} (h : Since P x y) (hnew : y.log = new ++ x.log) :
    ∃ e ∈ new, P e := by
  obtain ⟨new', hnew', h⟩ := h
  rwa [List.append_cancel_right (hnew.symm.trans hnew')]

theorem after (h : Since P x y) (hl : y.log <:+ z.log) : Since P x z := by
  obtain ⟨new, hnew, e, he, hw⟩ := h
  obtain ⟨new', hnew'⟩ := hl
  refine ⟨new' ++ new, by rw [← hnew', hnew, List.append_assoc], e, ?_, hw⟩
  exact List.mem_append_right _ he

theorem before (h : Since P y z) (hl : x.log <:+ y.log) : Since P x z := by
  obtain ⟨new, hnew, e, he, hw⟩ := h
  obtain ⟨new', hnew'⟩ := hl
  refine ⟨new ++ new', by rw [hnew, ← hnew', List.append_assoc], e, ?_, hw⟩
  exact List.mem_append_left _ he

end Since

namespace Grew

variable {W W' : Vars} {x y z : Logged Event Machine}

theorem refl (x : Logged Event Machine) : Grew W x x :=
  ⟨.refl _ _, rfl, rfl, rfl, ⟨[], rfl, by simp⟩, fun _ _ _ h => absurd rfl h⟩

/-- Steps that follow others may write what these give them the right to. -/
theorem follow (h : Grew W x y) (h' : Grew W' y z)
    (hW : ∀ s a, s < x.state.heap.scopes.next → W' s a → W s a ∨ Written x y s a) :
    Grew W x z := by
  obtain ⟨new, hnew, hof⟩ := h.events
  obtain ⟨new', hnew', hof'⟩ := h'.events
  refine ⟨h.later.trans h'.later, h'.scope.trans h.scope, h'.globals.trans h.globals,
    h'.bindings.trans h.bindings, ⟨new' ++ new, by rw [hnew', hnew, List.append_assoc],
      fun e he => ?_⟩, fun s a hs hne => ?_⟩
  · rcases List.mem_append.1 he with he | he
    · have := hof' e he
      cases e with
      | made => trivial
      | reached => exact ⟨this.1.trans h.globals, this.2.trans h.bindings⟩
      | turn => exact fun m hm => ⟨(this m hm).1.trans h.globals, (this m hm).2.trans h.bindings⟩
      | scanned | read | bound | imported | began | aborted | entered | moment => exact this
    · exact hof e he
  · have hfirst : W s a ∨ Written x y s a → W s a ∨ Written x z s a := fun hw =>
      hw.imp_right fun hw => Since.after hw h'.later.log
    by_cases he : y.state.heap.scopes.here? s a = x.state.heap.scopes.here? s a
    · rw [← he] at hne
      rcases h'.writes s a (Nat.lt_of_lt_of_le hs h.later.next) hne with hw | hw
      · exact hfirst (hW s a hs hw)
      · exact .inr (Since.before hw h.later.log)
    · exact hfirst (h.writes s a hs he)

theorem trans (h : Grew W x y) (h' : Grew W y z) : Grew W x z := h.follow h' fun _ _ _ => .inl

theorem store {m : Machine} (hl : Later x.state.heap.scopes x.log m.heap.scopes x.log)
    (hs : m.scope = x.state.scope) (hg : m.globals = x.state.globals)
    (hb : m.bindings = x.state.bindings)
    (hw : ∀ s a, m.heap.scopes.here? s a ≠ x.state.heap.scopes.here? s a → W s a) :
    Grew W x { x with state := m } :=
  ⟨hl, hs, hg, hb, ⟨[], rfl, by simp⟩, fun s a _ hne => .inl (hw s a hne)⟩

theorem event (e : Event) (he : e.IsOf x.state) : Grew W x { x with log := e :: x.log } :=
  ⟨.note .., rfl, rfl, rfl, ⟨[e], rfl, by simpa using he⟩, fun _ _ _ h => absurd rfl h⟩

end Grew

/-- The store of a logged state is aligned and was so at each event of the log. -/
def Sound (x : Logged Event Machine) : Prop := AlignedHistory x.state.heap x.log

/-- A machine that differs in what `AlignedHistory` does not speak of. -/
theorem Sound.same {x : Logged Event Machine} {m : Machine} (hx : Sound x)
    (hs : m.heap.scopes = x.state.heap.scopes) (hi : m.heap.instances = x.state.heap.instances)
    (hc : m.heap.classes = x.state.heap.classes) (hscope : m.scope = x.state.scope)
    (hg : m.globals = x.state.globals) (hb : m.bindings = x.state.bindings) {W : Vars} :
    Grew W x { x with state := m } ∧ Sound { x with state := m } :=
  ⟨.store (hs ▸ .refl _ _) hscope hg hb fun s a h => absurd (by rw [hs]) h,
    AlignedHistory.congr hx hs hi hc⟩

/-- The step keeps the store aligned and writes only what it may. -/
def Safe {α : Type} (W : Vars) (x : Logged Event Machine) (p : Trace α)
    (Q : α → Logged Event Machine → Prop) : Prop :=
  match p x with
  | .ok a y => Grew W x y ∧ Sound y ∧ Q a y
  | .error _ y => Grew W x y ∧ Sound y

namespace Safe

open Traced

variable {α β : Type} {W W' : Vars} {x : Logged Event Machine} {p : Trace α}
  {P Q : α → Logged Event Machine → Prop}

theorem pure {a : α} (hx : Sound x) (h : Q a x) : Safe W x (pure a) Q := ⟨.refl x, hx, h⟩

theorem throw (hx : Sound x) (e : Stop) : Safe W x (throw e : Trace α) Q := ⟨.refl x, hx⟩

theorem imp (h : Safe W x p P) (hPQ : ∀ a y, Grew W x y → Sound y → P a y → Q a y) :
    Safe W x p Q := by
  unfold Safe at h ⊢
  split at h
  · exact ⟨h.1, h.2.1, hPQ _ _ h.1 h.2.1 h.2.2⟩
  · exact h

theorem ran (h : Safe W x p Q) : Safe W x p fun a y => Q a y ∧ p x = .ok a y := by
  unfold Safe at h ⊢
  split at h
  · next hp => exact ⟨h.1, h.2.1, h.2.2, hp⟩
  · exact h

/-- A step and one that follows it with more rights. -/
theorem follow {f : α → Trace β} {Q : β → Logged Event Machine → Prop} (h : Safe W x p P)
    (hf : ∀ a y, Grew W x y → Sound y → P a y → ∃ W', Safe W' y (f a) Q ∧
      ∀ s b, s < x.state.heap.scopes.next → W' s b → W s b ∨ Written x y s b) :
    Safe W x (p >>= f) Q := by
  unfold Safe at h ⊢
  show match EStateM.bind p f x with
    | .ok a y => Grew W x y ∧ Sound y ∧ Q a y
    | .error _ y => Grew W x y ∧ Sound y
  rw [EStateM.bind]
  split at h
  · next a y hp =>
    obtain ⟨W', hrest, hW⟩ := hf a y h.1 h.2.1 h.2.2
    rw [hp]
    unfold Safe at hrest
    dsimp only
    split at hrest
    · exact ⟨h.1.follow hrest.1 hW, hrest.2⟩
    · exact ⟨h.1.follow hrest.1 hW, hrest.2⟩
  · next e y hp =>
    rw [hp]
    exact h

theorem bind {f : α → Trace β} {Q : β → Logged Event Machine → Prop} (h : Safe W x p P)
    (hf : ∀ a y, Grew W x y → Sound y → P a y → Safe W y (f a) Q) : Safe W x (p >>= f) Q :=
  h.follow fun a y hg hy hp => ⟨W, hf a y hg hy hp, fun _ _ _ => .inl⟩

theorem get {f : Machine → Trace α} (h : Safe W x (f x.state) Q) :
    Safe W x (lift MonadState.get >>= f) Q := h

theorem lift_bind {q : Eval α} {f : α → Eval β} {Q : β → Logged Event Machine → Prop}
    (h : Safe W x (Traced.lift q >>= fun a => Traced.lift (f a)) Q) :
    Safe W x (Traced.lift (q >>= f)) Q := by
  have heq : (Traced.lift (q >>= f) : Trace β) x =
      (Traced.lift q >>= fun a => Traced.lift (f a) : Trace β) x := by
    show Traced.lift (EStateM.bind q f) x = EStateM.bind (Traced.lift q) (fun a => Traced.lift (f a)) x
    simp only [Traced.lift, EStateM.bind]
    cases q x.state <;> rfl
  unfold Safe at h ⊢
  rw [heq]
  exact h

end Safe

/-! ### Values and places in a logged state -/

/-- The value is aligned in the store of a logged state. -/
abbrev Value.In (v : Value) (x : Logged Event Machine) : Prop := v.Aligned x.state.heap.scopes x.log

/-- The closure is a method that no instance is bound to yet. -/
abbrev Closure.MethodIn (f : Closure) (x : Logged Event Machine) : Prop :=
  f.IsMethod x.state.heap.scopes x.log

/-- The current scope is the one of the code. -/
abbrev Here (x : Logged Event Machine) (g : Nat) (body : List Stmt) (code : Code)
    (σ : List Layer) : Prop := At x.state.heap.scopes x.log x.state.scope g body code σ

section

variable {W : Vars} {x y : Logged Event Machine} {g : Nat} {body : List Stmt} {code : Code}
  {σ : List Layer}

theorem Here.grew (h : Here x g body code σ) (hg : Grew W x y) : Here y g body code σ := by
  unfold Here
  rw [hg.scope]
  exact h.mono hg.later

/-- The same scope as the one of other code. -/
theorem At.to {ss : Scopes} {L : List Event} {s : Nat} {code' : Code}
    (h : At ss L s g body code σ) (hp : Placed body code' σ) : At ss L s g body code' σ :=
  ⟨h.began, hp, h.chain⟩

theorem At.expr {ss : Scopes} {L : List Event} {s : Nat} {st : Stmt} {e : Expr}
    (h : At ss L s g body (.stmt st) σ) (he : e ∈ st.exprs) : At ss L s g body (.expr e) σ :=
  h.to (.expr h.placed he)

theorem At.part {ss : Scopes} {L : List Event} {s : Nat} {e part : Expr}
    (h : At ss L s g body (.expr e) σ) (hp : part ∈ e.parts) : At ss L s g body (.expr part) σ :=
  h.to (.part h.placed hp)

theorem At.use {ss : Scopes} {L : List Event} {s : Nat} {e : Expr} {u : Use} {ref : Ref}
    (h : At ss L s g body (.expr e) σ) (hu : (u, ref) ∈ e.uses) :
    At ss L s g body (.use u ref) σ :=
  h.to (.use h.placed hu)

end

theorem Value.ofLiteral_aligned (ss : Scopes) (L : List Event) (l : Literal) :
    (Value.ofLiteral l).Aligned ss L := by
  cases l <;> trivial

namespace Heap

variable {h : Heap} {v w r : Value} {op : Token} {ss : Scopes} {L : List Event}

theorem binary_aligned {sym : Symbol} (hr : h.binary sym v w = .ok r) : r.Aligned ss L := by
  unfold binary at hr
  split at hr <;> first
    | (injection hr with hr; subst hr; trivial)
    | (split at hr <;> first | (injection hr with hr; subst hr; trivial) | cases hr)
    | cases hr

theorem operate_aligned (hr : h.operate op v w = .ok r) : r.Aligned ss L := by
  unfold operate at hr
  split at hr
  · exact binary_aligned hr
  · cases hr

theorem combine_aligned (hr : h.combine op v w = .ok r) : r.Aligned ss L := by
  unfold combine at hr
  split at hr
  · exact binary_aligned hr
  · cases hr

theorem negate_aligned (hr : negate op v = .ok r) : r.Aligned ss L := by
  unfold negate at hr
  split at hr <;> cases hr <;> trivial

end Heap

/-! ### Single steps -/

namespace Safe

variable {α : Type} {W : Vars} {x : Logged Event Machine}
  {Q : α → Logged Event Machine → Prop}

theorem fault (hx : Sound x) (t : Token) (cause : Cause) :
    Safe W x (Traced.lift (Eval.fault t cause)) Q := ⟨.refl x, hx⟩

theorem check (hx : Sound x) (t : Token) {r : Except Cause α} (h : ∀ a, r = .ok a → Q a x) :
    Safe W x (Traced.lift (Eval.check t r)) Q := by
  cases r with
  | ok a => exact ⟨.refl x, hx, h a rfl⟩
  | error cause => exact fault hx t cause

theorem demand (hx : Sound x) (t : Token) (cause : Cause) {o : Option α}
    (h : ∀ a, o = some a → Q a x) : Safe W x (Traced.lift (Eval.demand t cause o)) Q := by
  cases o with
  | some a => exact ⟨.refl x, hx, h a rfl⟩
  | none => exact fault hx t cause

/-- The run comes to a piece of code in its scope. -/
theorem reach {g : Nat} {body : List Stmt} {code : Code} {σ : List Layer} (hx : Sound x)
    (h : Here x g body code σ) {Q : Unit → Logged Event Machine → Prop}
    (hq : Q () { x with log := .reached code x.state :: x.log })
    (hs : code.Supplied x.state x.log := by trivial) : Safe W x (Trace.reach code) Q :=
  ⟨.event _ ⟨rfl, rfl⟩, AlignedHistory.event hx ⟨rfl, ⟨g, body, σ, h⟩, hs⟩, hq⟩

/-- The run comes to a piece of code and goes on with the right to write what the code writes. -/
theorem reach_bind {g : Nat} {body : List Stmt} {code : Code} {σ : List Layer} {p : Trace α}
    (hx : Sound x) (h : Here x g body code σ)
    (hp : ∀ y, Grew W x y → Sound y → y.state = x.state →
      y.log = .reached code x.state :: x.log →
      Safe (fun s a => W s a ∨ (Event.reached code x.state).Writes s a) y p Q)
    (hs : code.Supplied x.state x.log := by trivial) : Safe W x (do Trace.reach code; p) Q :=
  (reach (Q := fun _ y => y = { x with log := .reached code x.state :: x.log }) hx h rfl hs).follow
    fun _ y hg hy he => by
      refine ⟨_, hp y hg hy (by rw [he]) (by rw [he]), fun s a _ hw => hw.imp_right fun hw => ?_⟩
      exact ⟨[_], by rw [he]; rfl, _, List.mem_singleton_self _, hw⟩

/-- The run turns to something else. -/
theorem turn {k : Machine → Turn} (hx : Sound x)
    (hm : ∀ m' ∈ (k x.state).machine?, m' = x.state)
    (hk : (Event.turn (k x.state)).Fits x.state.heap x.log)
    {Q : Unit → Logged Event Machine → Prop}
    (hq : Q () { x with log := .turn (k x.state) :: x.log }) :
    Safe W x (Traced.note fun m => .turn (k m)) Q := by
  refine ⟨.event _ fun m' h => ?_, AlignedHistory.event hx hk, hq⟩
  rw [hm m' h]
  exact ⟨rfl, rfl⟩

/-- The run comes to a piece of code, goes on with the right to write what the code writes, and
leaves it. What is true at the end of the code has to stay true when the log grows. -/
theorem within {g : Nat} {body : List Stmt} {code : Code} {σ : List Layer} {p : Trace α}
    (hx : Sound x) (h : Here x g body code σ)
    (hp : ∀ y, Grew W x y → Sound y → y.state = x.state →
      y.log = .reached code x.state :: x.log →
      Safe (fun s a => W s a ∨ (Event.reached code x.state).Writes s a) y p Q)
    (hq : ∀ a y, Q a y → Q a { y with log := .turn (.left code) :: y.log })
    (hs : code.Supplied x.state x.log := by trivial) : Safe W x (Trace.within code p) Q :=
  reach_bind hx h (fun y hg hy hst hl => (hp y hg hy hst hl).bind fun a z _ hz hqz =>
    (turn (Q := fun _ z' => Q a z') hz (k := fun _ => .left code) (by simp [Turn.machine?]) trivial
      (hq a z hqz)).bind fun _ _ _ hz' hqz' => .pure hz' hqz') hs

theorem freshId (hx : Sound x) : Safe W x (Traced.lift Eval.freshId) fun _ y => y.log = x.log :=
  have h := hx.same (m := { x.state with heap.nextId := x.state.heap.nextId + 1 })
    rfl rfl rfl rfl rfl rfl
  ⟨h.1, h.2, rfl⟩

theorem print (hx : Sound x) (t : Token) (v : Value) :
    Safe W x (Trace.print t v) fun _ _ => True := by
  refine (turn (k := .printed v) (Q := fun _ _ => True) hx (by simp [Turn.machine?]) rfl trivial).bind
    fun _ x _ hx _ => ?_
  have h := hx.same (W := W)
    (m := { x.state with sink := x.state.sink.write (x.state.heap.text v ++ "\n") })
    rfl rfl rfl rfl rfl rfl
  simp only [Safe, Traced.lift, Eval.print]
  by_cases hf : x.state.sink.fits (x.state.heap.text v ++ "\n") = true
  · rw [if_pos hf]
    exact ⟨h.1, h.2, trivial⟩
  · rw [if_neg hf]
    exact h

theorem callNative (hx : Sound x) (slot : Nat) (args : List Value) (paren : Token) :
    Safe W x (Traced.lift (Eval.callNative slot args paren)) fun v y => v.In y := by
  refine lift_bind (get ?_)
  dsimp only
  split
  · have h := hx.same (W := W) (m := { x.state with time := x.state.time + Eval.tick })
      rfl rfl rfl rfl rfl rfl
    exact ⟨h.1, h.2, trivial⟩
  · split
    · exact ⟨.refl x, hx, trivial⟩
    · exact fault hx paren _
  · exact ⟨.refl x, hx, trivial⟩

/-- What a step answers that leaves the state as it is. -/
theorem answers {q : Eval α} (h : Safe W x (Traced.lift q) fun a y => y = x ∧ Q a y) :
    Safe W x (Traced.lift q) fun a y => y = x ∧ Q a y ∧ q x.state = .ok a x.state := by
  simp only [Safe, Traced.lift] at h ⊢
  revert h
  cases hq : q x.state with
  | error e m => exact id
  | ok a m =>
    intro h
    obtain ⟨hg, hy, he, ha⟩ := h
    have hm : m = x.state := congrArg (·.state) he
    exact ⟨hg, hy, he, ha, by rw [hm]⟩

theorem lookUp (hx : Sound x) (ref : Ref) :
    Safe W x (Traced.lift (Eval.lookUp ref)) fun v y =>
      y = x ∧ v.In y ∧ Eval.lookUp ref x.state = .ok v x.state := by
  refine answers (lift_bind (get (demand hx _ _ fun v hv => ⟨rfl, ?_⟩)))
  split at hv
  · obtain ⟨t, -, ht⟩ := Option.bind_eq_some_iff.1 hv
    exact hx.vars t _ v ht
  · obtain ⟨t, -, ht⟩ := Option.bind_eq_some_iff.1 hv
    exact hx.vars t _ v ht

theorem define (hx : Sound x) {s : Nat} {name : String} {v : Value} (hw : W s name)
    (hv : v.Aligned (x.state.heap.scopes.define s name v) x.log)
    (hh : (x.state.heap.scopes.parent? s).isSome → HiddenValue x.log s name v)
    {Q : Unit → Logged Event Machine → Prop}
    (h : Q () { x with state.heap.scopes := x.state.heap.scopes.define s name v }) :
    Safe W x (Traced.lift (Eval.define s name v)) Q := by
  refine ⟨.store (.define ..) rfl rfl rfl fun t a hne => ?_,
    AlignedHistory.define hx s name hv hh, h⟩
  obtain ⟨rfl, rfl⟩ := Scopes.of_here?_define_ne hne
  exact hw

theorem assign (hx : Sound x) (ref : Ref) {v : Value} (hv : v.In x) (hname : ref.name.IsName)
    (hw : ∀ s, Eval.target? x.state ref = some s → W s ref.name.lexeme) :
    Safe W x (Traced.lift (Eval.assign ref v)) fun _ _ => True := by
  refine lift_bind (get (lift_bind ((demand (Q := fun s y =>
    y = x ∧ Eval.target? x.state ref = some s) hx _ _ fun s hs => ⟨rfl, hs⟩).bind
    fun s y _ _ h => ?_)))
  obtain ⟨rfl, hs⟩ := h
  exact define hx (hw s hs) (hv.mono (.define ..)) (fun _ => .of_name hname) trivial

/-- What the current scope holds after a definition. -/
theorem defineHere (hx : Sound x) {name : String} {v : Value} (hw : W x.state.scope name)
    (hv : v.Aligned (x.state.heap.scopes.define x.state.scope name v) x.log)
    (hname : name ≠ "this" ∧ name ≠ "super") (hs : x.state.scope < x.state.heap.scopes.next) :
    Safe W x (Traced.lift (Eval.defineHere name v))
      fun _ y => (y.state.heap.scopes.here? y.state.scope name).isSome :=
  lift_bind (get (define hx hw hv (fun _ => .of_name hname)
    (Scopes.isSome_here?_define_self hs)))

/-- What a scope holds after the definition of as many names as there are values. -/
theorem defineAll (s : Nat) (names : List Token) (vs : List Value) (hx : Sound x)
    (hw : ∀ a, W s a) (hnames : ∀ t ∈ names, t.IsName) (hvs : ∀ v ∈ vs, v.In x)
    (hs : s < x.state.heap.scopes.next) (hlen : names.length = vs.length) :
    Safe W x (Traced.lift (Eval.defineAll s names vs)) fun _ y => y.log = x.log ∧
      ∀ a, y.state.heap.scopes.here? s a =
        (givenTo a names vs).or (x.state.heap.scopes.here? s a) := by
  induction names generalizing vs x with
  | nil => exact ⟨.refl x, hx, rfl, fun a => rfl⟩
  | cons t names ih =>
    cases vs with
    | nil => simp at hlen
    | cons v vs =>
      refine lift_bind ((define (Q := fun _ y =>
        y = { x with state.heap.scopes := x.state.heap.scopes.define s t.lexeme v })
        hx (hw _) ((hvs v (by simp)).mono (.define ..))
        (fun _ => .of_name (hnames t (by simp))) rfl).bind fun _ y hg hy hq => ?_)
      subst hq
      refine (ih vs hy (fun t' ht' => hnames t' (by simp [ht']))
        (fun w hw => (hvs w (by simp [hw])).mono hg.later) (by simpa using hs)
        (by simpa using hlen)).imp fun _ z _ _ hz => ⟨hz.1, fun a => ?_⟩
      rw [hz.2 a, givenTo_cons, Option.or_assoc, Scopes.here?_define _ s s t.lexeme a v hs]
      by_cases ha : t.lexeme = a <;> simp [ha]

theorem newScope (hx : Sound x) (origin : Origin) (s : Nat) :
    Safe W x (Trace.newScope origin s) fun t y =>
      t = x.state.heap.scopes.next ∧ t < y.state.heap.scopes.next ∧
        y.log = .made t origin :: x.log ∧
        ∀ {g σ} (l : Layer), l.origin = origin → l.names = [] →
          Chain x.state.heap.scopes x.log g s σ →
          Chain y.state.heap.scopes y.log g t (l :: σ) := by
  refine ⟨⟨(Later.addChild _ _ s).trans (.note ..), rfl, rfl, rfl, ⟨[_], rfl, ?_⟩,
    fun t a _ hne => absurd (Scopes.here?_addChild ..) hne⟩,
    AlignedHistory.newScope hx s origin, rfl, ?_, rfl, ?_⟩
  · intro e he
    rw [List.mem_singleton.1 he]
    trivial
  · simp
  · intro g σ l ho hn hc
    subst ho
    exact hc.child hn

/-- A scope is made, and what follows has the right to write its variables. -/
theorem newScope_bind {β : Type} {f : Nat → Trace β} {Q : β → Logged Event Machine → Prop}
    (hx : Sound x) (origin : Origin) (s : Nat)
    (hf : ∀ t y, Grew W x y → Sound y → t < y.state.heap.scopes.next →
      y.log = .made t origin :: x.log →
      (∀ {g σ} (l : Layer), l.origin = origin → l.names = [] →
        Chain x.state.heap.scopes x.log g s σ →
        Chain y.state.heap.scopes y.log g t (l :: σ)) →
      Safe (fun s a => W s a ∨ s = t) y (f t) Q) :
    Safe W x (Trace.newScope origin s >>= f) Q := by
  refine (newScope hx origin s).follow fun t y hg hy h => ?_
  obtain ⟨ht, hlt, hlog, hc⟩ := h
  refine ⟨_, hf t y hg hy hlt hlog hc, fun s a hs hw => hw.imp_right fun he => ?_⟩
  omega

theorem newClosure (hx : Sound x) (decl : FunctionDecl) (s : Nat) (isInit : Bool) :
    Safe W x (Traced.lift (Eval.newClosure decl s isInit))
      fun f y => f.decl = decl ∧ f.scope = s ∧ f.isInit = isInit ∧ y.log = x.log :=
  lift_bind ((freshId hx).bind fun _ y _ hy hlog =>
    ⟨.refl y, hy, rfl, rfl, rfl, hlog⟩)

theorem newInstance (hx : Sound x) (c : Nat) :
    Safe W x (Traced.lift (Eval.newInstance c)) fun _ y =>
      y.state.heap.classes = x.state.heap.classes ∧ y.log = x.log :=
  ⟨.store (.refl ..) rfl rfl rfl fun _ _ h => absurd rfl h, AlignedHistory.newInstance hx c, rfl,
    rfl⟩

theorem setProperty (hx : Sound x) (target : Value) (name : String) {v : Value} (hv : v.In x) :
    Safe W x (Traced.lift (Eval.setProperty target name v)) fun _ _ => True := by
  match target with
  | .inst i =>
    exact ⟨.store (.refl ..) rfl rfl rfl fun _ _ h => absurd rfl h,
      AlignedHistory.setField hx i name hv, trivial⟩
  | .callable (.cls c) =>
    exact ⟨.store (.refl ..) rfl rfl rfl fun _ _ h => absurd rfl h,
      AlignedHistory.setStatic hx c name hv, trivial⟩
  | .callable (.native _) | .callable (.function _) | .callable (.initializer ..) | .nil | .bool _
  | .num _ | .string _ => exact ⟨.refl x, hx, trivial⟩

theorem inScope {s : Nat} {p : Trace α} {P : α → Logged Event Machine → Prop}
    (h : Safe W { x with state.scope := s } p P)
    (hq : ∀ a y, Grew W { x with state.scope := s } y → P a y →
      Q a { y with state.scope := x.state.scope }) : Safe W x (Trace.inScope s p) Q := by
  unfold Safe Trace.inScope at *
  dsimp only
  have hback : ∀ y : Logged Event Machine, Grew W { x with state.scope := s } y →
      Grew W x { y with state.scope := x.state.scope } := fun y hg =>
    ⟨hg.later, rfl, hg.globals, hg.bindings, hg.events, hg.writes⟩
  split at h
  · next a y hp =>
    rw [hp]
    exact ⟨hback y h.1, h.2.1, hq a y h.1 h.2.2⟩
  · next e y hp =>
    rw [hp]
    exact ⟨hback y h.1, h.2⟩

theorem deeper {p : Trace α}
    (h : Safe W { x with state.depth := x.state.depth + 1 } p fun a y =>
      Q a { y with state.depth := y.state.depth - 1 }) : Safe W x (Trace.deeper p) Q := by
  unfold Safe Trace.deeper at *
  dsimp only
  have hback : ∀ y : Logged Event Machine, Grew W { x with state.depth := x.state.depth + 1 } y →
      Grew W x { y with state.depth := y.state.depth - 1 } := fun y hg =>
    ⟨hg.later, hg.scope, hg.globals, hg.bindings, hg.events, hg.writes⟩
  split at h
  · next a y hp =>
    rw [hp]
    exact ⟨hback y h.1, h.2.1, h.2.2⟩
  · next e y hp =>
    rw [hp]
    exact ⟨hback y h.1, h.2⟩

end Safe

end Treewalk
