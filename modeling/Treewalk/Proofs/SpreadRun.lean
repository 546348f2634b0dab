import Treewalk.Proofs.Initialization
import Treewalk.Proofs.SpreadStore

/-!
# Runs of spread code

A `decls` takes a step more than the declarations in its place, and a list of many statements more
than one of few: so a run of spread code need not end within the same number of steps.
`Simulates k n m p q` says that what `p` does from `m` within `n` steps, `q` does from the spread
machine within some, and the other way round. All parts of the evaluator are so (`runSimulates`).

`Program.decls_in_place`: in a program that was read from a text, the declarations of several
variables may stand one by one.
-/

namespace Treewalk

namespace Eval
variable {α β γ δ : Type}

/-! ### Runs within some number of steps -/

/-- The steps are not used up. -/
def Ended (r : EStateM.Result Stop Machine α) : Prop := ∀ m, r ≠ .error .exhausted m

/-- From some number of steps on, `p` ends in this way. -/
def Settles (p : Nat → Eval α) (m : Machine) (r : EStateM.Result Stop Machine α) : Prop :=
  ∃ N, ∀ n, N ≤ n → p n m = r

/-- What `p` does from `m` within `n` steps, `q` does from the spread machine, and what `q` does
there within `n` steps, `p` does from `m`. -/
structure Simulates (k : α → β) (n : Nat) (m : Machine) (p : Nat → Eval α) (q : Nat → Eval β) :
    Prop where
  forth : Ended (p n m) → Settles q m.spread (spreadEnd k (p n m))
  back : Ended (q n m.spread) → ∃ r, Settles p m r ∧ spreadEnd k r = q n m.spread

section

variable {k : α → β} {l : γ → δ} {n : Nat} {m m₁ : Machine} {p p' : Nat → Eval α}
  {q q' : Nat → Eval β} {f : Nat → α → Eval γ} {g : Nat → β → Eval δ}

theorem ended_ok (a : α) (m : Machine) : Ended (.ok a m) := fun _ h => by cases h

theorem ended_error {e : Stop} (h : Ended (.error e m : EStateM.Result Stop Machine α)) :
    Ended (.error e m : EStateM.Result Stop Machine β) := by
  rintro m' ⟨⟩
  exact h m rfl

theorem ended_mapEnd {t : Machine → Machine} {r : EStateM.Result Stop Machine α} :
    Ended (mapEnd k t r) ↔ Ended r := by
  cases r with
  | ok a m => exact ⟨fun _ => ended_ok a m, fun _ => ended_ok _ _⟩
  | error e m =>
    constructor
    · rintro h m' ⟨⟩
      exact h (t m) rfl
    · rintro h m' ⟨⟩
      exact h m rfl

theorem between_eq (enter leave : Machine → Machine) (p : Eval α) (m : Machine) :
    between enter leave p m = mapEnd id leave (p (enter m)) := by
  rw [between]
  cases p (enter m) <;> rfl

theorem Settles.bind {a : α} {r : EStateM.Result Stop Machine γ} (h : Settles p m (.ok a m₁))
    (hf : Settles (f · a) m₁ r) : Settles (fun n => p n >>= f n) m r := by
  obtain ⟨N, hN⟩ := h
  obtain ⟨M, hM⟩ := hf
  refine ⟨max N M, fun n hn => ?_⟩
  exact (bind_of_ok (hN n (Nat.le_trans (Nat.le_max_left N M) hn))).trans
    (hM n (Nat.le_trans (Nat.le_max_right N M) hn))

theorem Settles.bind_error {e : Stop} (h : Settles p m (.error e m₁)) :
    Settles (fun n => p n >>= f n) m (.error e m₁) := by
  obtain ⟨N, hN⟩ := h
  exact ⟨N, fun n hn => bind_of_error (hN n hn)⟩

theorem Settles.succ {r : EStateM.Result Stop Machine α} (h : Settles (fun i => p (i + 1)) m r) :
    Settles p m r := by
  obtain ⟨N, hN⟩ := h
  refine ⟨N + 1, fun n hn => ?_⟩
  obtain ⟨n, rfl⟩ := Nat.exists_eq_add_of_le' (Nat.le_trans (Nat.le_add_left 1 N) hn)
  exact hN n (Nat.le_of_succ_le_succ hn)

/-- Another way to the same end. -/
theorem Settles.follow {r : EStateM.Result Stop Machine α} (h : Settles p m r) (hr : Ended r)
    (hp : ∀ a, ∃ N, ∀ b, N ≤ b → Unseen .idle m (p a) (p' b) fun _ => True) : Settles p' m r := by
  obtain ⟨a, ha⟩ := h
  obtain ⟨N, hN⟩ := hp a
  exact ⟨N, fun b hb => (hN b hb).follow hr (ha a (Nat.le_refl a))⟩

theorem Settles.finishes {r : EStateM.Result Stop Machine α} (h : Settles p m r) (hr : Ended r) :
    Finishes p m r := by
  obtain ⟨N, hN⟩ := h
  exact ⟨⟨N, hN N (Nat.le_refl N)⟩, hr⟩

/-! ### Rules -/

namespace Simulates

theorem zero (hp : p 0 = throw .exhausted) (hq : q 0 = throw .exhausted) : Simulates k 0 m p q := by
  constructor
  · intro h
    rw [hp] at h
    exact absurd rfl (h m)
  · intro h
    rw [hq] at h
    exact absurd rfl (h m.spread)

theorem succ (h : Simulates k n m (fun i => p (i + 1)) fun i => q (i + 1)) :
    Simulates k (n + 1) m p q := by
  refine ⟨fun hp => (h.forth hp).succ, fun hq => ?_⟩
  obtain ⟨r, hr, he⟩ := h.back hq
  exact ⟨r, hr.succ, he⟩

theorem step {a : Eval α} {b : Eval β} (h : Mirrors k m a b) :
    Simulates k n m (fun _ => a) fun _ => b :=
  ⟨fun _ => ⟨0, fun _ _ => h⟩, fun _ => ⟨a m, ⟨0, fun _ _ => rfl⟩, h.symm⟩⟩

theorem bind (h : Simulates k n m p q)
    (hf : ∀ a m', Simulates l n m' (fun i => f i a) fun i => g i (k a)) :
    Simulates l n m (fun i => p i >>= f i) fun i => q i >>= g i := by
  constructor
  · intro hr
    change Ended ((p n >>= f n) m) at hr
    cases hp : p n m with
    | ok a m₁ =>
      have hq := h.forth (hp ▸ ended_ok a m₁)
      rw [hp] at hq
      rw [bind_of_ok hp] at hr ⊢
      exact hq.bind ((hf a m₁).forth hr)
    | error e m₁ =>
      rw [bind_of_error hp] at hr ⊢
      have hq := h.forth (hp ▸ ended_error hr)
      rw [hp] at hq
      exact hq.bind_error
  · intro hr
    change Ended ((q n >>= g n) m.spread) at hr
    cases hq : q n m.spread with
    | ok b m₁ =>
      obtain ⟨r, hp, he⟩ := h.back (hq ▸ ended_ok b m₁)
      rw [hq] at he
      rw [bind_of_ok hq] at hr ⊢
      cases r with
      | error e m => cases he
      | ok a m₂ =>
        cases he
        obtain ⟨r, hr, he⟩ := (hf a m₂).back hr
        exact ⟨r, hp.bind hr, he⟩
    | error e m₁ =>
      rw [bind_of_error hq] at hr ⊢
      obtain ⟨r, hp, he⟩ := h.back (hq ▸ ended_error hr)
      rw [hq] at he
      cases r with
      | ok a m => cases he
      | error e m₂ =>
        cases he
        exact ⟨_, hp.bind_error, rfl⟩

theorem step_bind {a : Eval α} {b : Eval β} (h : Mirrors k m a b)
    (hf : ∀ x m', Simulates l n m' (fun i => f i x) fun i => g i (k x)) :
    Simulates l n m (fun i => a >>= f i) fun i => b >>= g i := (step h).bind hf

theorem get {f : Nat → Machine → Eval γ} {g : Nat → Machine → Eval δ}
    (h : Simulates l n m (fun i => f i m) fun i => g i m.spread) :
    Simulates l n m (fun i => MonadState.get >>= f i) fun i => MonadState.get >>= g i :=
  ⟨h.forth, h.back⟩

theorem ite {c : Prop} [Decidable c] (h : Simulates k n m p q) (h' : Simulates k n m p' q') :
    Simulates k n m (fun i => if c then p i else p' i) fun i => if c then q i else q' i := by
  split
  · exact h
  · exact h'

theorem pure {a : α} {b : β} (h : b = k a) :
    Simulates k n m (fun _ => Pure.pure a) fun _ => Pure.pure b := step (.pure h)

theorem fault (t : Token) (cause : Cause) :
    Simulates k n m (fun _ => Eval.fault t cause) fun _ => Eval.fault t cause :=
  step (.fault t cause)

/-- Code with something done to the machine before it and after it. -/
theorem between (enter leave : Machine → Machine) (h : Simulates k n (enter m) p q)
    (hp : ∀ i, p' i m = Eval.between enter leave (p i) m)
    (hq : ∀ i, q' i m.spread = Eval.between enter leave (q i) m.spread)
    (henter : enter m.spread = (enter m).spread)
    (hleave : ∀ m', leave m'.spread = (leave m').spread) : Simulates k n m p' q' := by
  have hpass : ∀ r : EStateM.Result Stop Machine α,
      spreadEnd k (mapEnd id leave r) = mapEnd id leave (spreadEnd k r) := by
    intro r
    cases r with
    | ok a m => exact congrArg _ (hleave m).symm
    | error e m => exact congrArg _ (hleave m).symm
  have hp' : ∀ i, p' i m = mapEnd id leave (p i (enter m)) :=
    fun i => (hp i).trans (between_eq enter leave (p i) m)
  have hq' : ∀ i, q' i m.spread = mapEnd id leave (q i (enter m).spread) :=
    fun i => henter ▸ (hq i).trans (between_eq enter leave (q i) m.spread)
  constructor
  · intro hr
    rw [hp', ended_mapEnd] at hr
    obtain ⟨N, hN⟩ := h.forth hr
    exact ⟨N, fun i hi => by rw [hq', hN i hi, hp', hpass]⟩
  · intro hr
    rw [hq', ended_mapEnd] at hr
    obtain ⟨r, ⟨N, hN⟩, he⟩ := h.back hr
    exact ⟨mapEnd id leave r, ⟨N, fun i hi => by rw [hp', hN i hi]⟩, by rw [hpass, he, hq']⟩

theorem inScope {s : Nat} (h : Simulates k n { m with scope := s } p q) :
    Simulates k n m (fun i => Eval.inScope s (p i)) fun i => Eval.inScope s (q i) :=
  between (fun m => { m with scope := s }) (fun m' => { m' with scope := m.scope }) h
    (fun _ => rfl) (fun _ => rfl) rfl fun _ => rfl

theorem deeper (h : Simulates k n { m with depth := m.depth + 1 } p q) :
    Simulates k n m (fun i => Eval.deeper (p i)) fun i => Eval.deeper (q i) :=
  between (fun m => { m with depth := m.depth + 1 }) (fun m' => { m' with depth := m'.depth - 1 }) h
    (fun _ => rfl) (fun _ => rfl) rfl fun _ => rfl

end Simulates

end

end Eval

/-! ### Lists of statements -/

namespace Eval

/-- Runs `q` after `p`, if that ends normally. -/
def andThen (p q : Eval Flow) : Eval Flow := do
  match ← p with
  | .normal => q
  | flow => return flow

theorem execAll_cons (n : Nat) (s : Stmt) (ss : List Stmt) :
    execAll (n + 1) (s :: ss) = andThen (exec n s) (execAll n ss) := by
  rw [execAll]
  rfl

theorem andThen_assoc (p q r : Eval Flow) : andThen (andThen p q) r = andThen p (andThen q r) := by
  rw [andThen, andThen, andThen, bind_assoc]
  congr 1
  funext flow
  cases flow <;> rfl

end Eval

section

variable {m : Machine} {a b n : Nat} {p p' q q' : Eval Flow}

theorem Unseen.andThen (hp : Unseen .idle m p p' fun _ => True)
    (hq : ∀ m, Unseen .idle m q q' fun _ => True) :
    Unseen .idle m (Eval.andThen p q) (Eval.andThen p' q') fun _ => True := by
  refine hp.bind fun flow m₁ hk _ => ?_
  cases flow with
  | normal => exact hq m₁
  | _ => exact .pure hk.fits trivial

/-- More steps. -/
theorem Unseen.execAll_mono (h : a ≤ b) (ss : List Stmt) :
    Unseen .idle m (Eval.execAll a ss) (Eval.execAll b ss) fun _ => True :=
  ((runUnseen .idle h).execAll ss (Mask.fits_idle _) trivial).imp fun _ _ => trivial

theorem Unseen.exec_mono (h : a ≤ b) (s : Stmt) :
    Unseen .idle m (Eval.exec a s) (Eval.exec b s) fun _ => True :=
  ((runUnseen .idle h).exec s (Mask.fits_idle _) trivial).imp fun _ _ => trivial

/-- A list runs as its first part and then its second part. -/
theorem Unseen.execAll_append (ha : n ≤ a) (hb : n ≤ b) (ss ss' : List Stmt) :
    Unseen .idle m (Eval.execAll n (ss ++ ss'))
      (Eval.andThen (Eval.execAll a ss) (Eval.execAll b ss')) fun _ => True := by
  induction ss generalizing n a m with
  | nil =>
    cases n with
    | zero => exact .exhausted
    | succ n =>
      obtain ⟨a, rfl⟩ := Nat.exists_eq_add_of_le' (Nat.le_trans (Nat.succ_pos n) ha)
      exact .execAll_mono hb ss'
  | cons s ss ih =>
    cases n with
    | zero => exact .exhausted
    | succ n =>
      obtain ⟨a, rfl⟩ := Nat.exists_eq_add_of_le' (Nat.le_trans (Nat.succ_pos n) ha)
      rw [List.cons_append, Eval.execAll_cons, Eval.execAll_cons, Eval.andThen_assoc]
      refine .andThen (.exec_mono (Nat.le_of_succ_le_succ ha) s) fun m₁ => ?_
      exact ih (Nat.le_of_succ_le_succ ha) (Nat.le_of_succ_le hb)

theorem Unseen.append_execAll (h : a + b ≤ n) (ss ss' : List Stmt) :
    Unseen .idle m (Eval.andThen (Eval.execAll a ss) (Eval.execAll b ss'))
      (Eval.execAll n (ss ++ ss')) fun _ => True := by
  induction ss generalizing n a m with
  | nil =>
    cases a with
    | zero => exact .exhausted
    | succ a => exact .execAll_mono (Nat.le_trans (Nat.le_add_left b (a + 1)) h) ss'
  | cons s ss ih =>
    cases a with
    | zero => exact .exhausted
    | succ a =>
      obtain ⟨n, rfl⟩ : ∃ i, n = i + 1 := ⟨n - 1, by omega⟩
      rw [List.cons_append, Eval.execAll_cons, Eval.execAll_cons, Eval.andThen_assoc]
      exact .andThen (.exec_mono (by omega) s) fun m₁ => ih (by omega)

end

/-! ### The evaluator -/

/-- Runs of `n` steps, of code and of spread code. -/
structure RunSimulates (n : Nat) : Prop where
  eval : ∀ {m} e, Eval.Simulates Value.spread n m (Eval.eval · e) (Eval.eval · e)
  evalAll : ∀ {m} es vs, Eval.Simulates (List.map Value.spread) n m (Eval.evalAll · es vs)
    (Eval.evalAll · es (vs.map Value.spread))
  evalLast : ∀ {m} es v,
    Eval.Simulates Value.spread n m (Eval.evalLast · es v) (Eval.evalLast · es v.spread)
  evalOption : ∀ {m} e, Eval.Simulates Value.spread n m (Eval.evalOption · e) (Eval.evalOption · e)
  call : ∀ {m} c vs paren, Eval.Simulates Value.spread n m (Eval.call · c vs paren)
    (Eval.call · c.spread (vs.map Value.spread) paren)
  enter : ∀ {m} c vs paren, Eval.Simulates Value.spread n m (Eval.enter · c vs paren)
    (Eval.enter · c.spread (vs.map Value.spread) paren)
  apply : ∀ {m} f vs, Eval.Simulates Value.spread n m (Eval.apply · f vs)
    (Eval.apply · f.spread (vs.map Value.spread))
  setUp : ∀ {m} ks i vs, Eval.Simulates id n m (Eval.setUp · ks i vs)
    (Eval.setUp · (ks.map Class.spread) i (vs.map Value.spread))
  exec : ∀ {m} s, Eval.Simulates Flow.spread n m (Eval.exec · s) (Eval.exec · s.spread)
  execAll : ∀ {m} ss,
    Eval.Simulates Flow.spread n m (Eval.execAll · ss) (Eval.execAll · (Stmt.spreadAll ss))
  loop : ∀ {m} e step body, Eval.Simulates Flow.spread n m (Eval.loop · e step body)
    (Eval.loop · e step body.spread)
  initStatics : ∀ {m} c fields,
    Eval.Simulates id n m (Eval.initStatics · c fields) (Eval.initStatics · c fields)

namespace RunSimulates
variable {n : Nat} {m : Machine}

theorem eval_succ (ih : RunSimulates n) (e : Expr) :
    Eval.Simulates Value.spread (n + 1) m (Eval.eval · e) (Eval.eval · e) := by
  refine .succ ?_
  cases e with
  | literal v =>
    simp only [Eval.eval]
    exact .pure (Value.spread_ofLiteral v).symm
  | grouping e =>
    simp only [Eval.eval]
    exact ih.eval e
  | unary op e =>
    simp only [Eval.eval]
    exact (ih.eval e).bind fun v m₁ => .step (.check op (Heap.negate_spread op v))
  | binary l op r =>
    simp only [Eval.eval]
    refine (ih.eval l).bind fun v m₁ => (ih.eval r).bind fun w m₂ => .get ?_
    exact .step (.check op (Heap.operate_spread _ op v w))
  | logical l op r =>
    simp only [Eval.eval]
    refine (ih.eval l).bind fun v m₁ => ?_
    rw [v.truthy_spread]
    exact .ite (.pure rfl) (ih.eval r)
  | ternary c y z =>
    simp only [Eval.eval]
    refine (ih.eval c).bind fun v m₁ => ?_
    rw [v.truthy_spread]
    exact .ite (ih.eval y) (ih.eval z)
  | comma es =>
    simp only [Eval.eval]
    exact ih.evalLast es .nil
  | «variable» ref =>
    simp only [Eval.eval]
    exact .step (.lookUp m ref)
  | assign ref e =>
    simp only [Eval.eval]
    refine (ih.eval e).bind fun v m₁ => ?_
    exact .step_bind (.assign m₁ ref v) fun _ m₂ => .pure rfl
  | compound ref op e =>
    simp only [Eval.eval]
    refine .step_bind (.lookUp m ref) fun v m₁ => ?_
    refine (ih.eval e).bind fun w m₂ => .get ?_
    refine .step_bind (.check op (Heap.combine_spread _ op v w)) fun u m₃ => ?_
    exact .step_bind (.assign m₃ ref u) fun _ m₄ => .pure rfl
  | call callee paren args =>
    simp only [Eval.eval]
    refine (ih.eval callee).bind fun f m₁ => (ih.evalAll args []).bind fun vs m₂ => ?_
    cases f with
    | callable c => exact ih.call c vs paren
    | _ => exact .fault paren _
  | get e name =>
    simp only [Eval.eval]
    exact (ih.eval e).bind fun v m₁ => .step (.property m₁ v name)
  | set e name op value =>
    simp only [Eval.eval]
    refine (ih.eval e).bind fun target m₁ => ?_
    rw [target.hasFields_spread]
    refine .ite ?_ (.fault name _)
    refine (ih.eval value).bind fun w m₂ => ?_
    cases op with
    | none =>
      exact .step_bind (.setProperty m₂ target _ w) fun _ m₃ => .pure rfl
    | some op =>
      refine .step_bind (.property m₂ target name) fun v m₃ => .get ?_
      refine .step_bind (.check op (Heap.combine_spread _ op v w)) fun u m₄ => ?_
      exact .step_bind (.setProperty m₄ target _ u) fun _ m₅ => .pure rfl
  | this ref =>
    simp only [Eval.eval]
    exact .step (.lookUp m ref)
  | super ref name =>
    simp only [Eval.eval]
    exact .step (.superMethod m ref name)

theorem evalAll_succ (ih : RunSimulates n) (es : List Expr) (vs : List Value) :
    Eval.Simulates (List.map Value.spread) (n + 1) m (Eval.evalAll · es vs)
      (Eval.evalAll · es (vs.map Value.spread)) := by
  refine .succ ?_
  cases es with
  | nil =>
    simp only [Eval.evalAll]
    exact .pure List.map_reverse.symm
  | cons e es =>
    simp only [Eval.evalAll]
    exact (ih.eval e).bind fun v m₁ => ih.evalAll es (v :: vs)

theorem evalLast_succ (ih : RunSimulates n) (es : List Expr) (v : Value) :
    Eval.Simulates Value.spread (n + 1) m (Eval.evalLast · es v) (Eval.evalLast · es v.spread) := by
  refine .succ ?_
  cases es with
  | nil =>
    simp only [Eval.evalLast]
    exact .pure rfl
  | cons e es =>
    simp only [Eval.evalLast]
    exact (ih.eval e).bind fun v m₁ => ih.evalLast es v

theorem evalOption_succ (ih : RunSimulates n) (e : Option Expr) :
    Eval.Simulates Value.spread (n + 1) m (Eval.evalOption · e) (Eval.evalOption · e) := by
  refine .succ ?_
  cases e with
  | none =>
    simp only [Eval.evalOption]
    exact .pure rfl
  | some e =>
    simp only [Eval.evalOption]
    exact ih.eval e

theorem call_succ (ih : RunSimulates n) (c : Callable) (vs : List Value) (paren : Token) :
    Eval.Simulates Value.spread (n + 1) m (Eval.call · c vs paren)
      (Eval.call · c.spread (vs.map Value.spread) paren) := by
  refine .succ ?_
  simp only [Eval.call]
  refine .get (.ite (.fault paren _) (.deeper (.get ?_)))
  have harity : (Machine.spread { m with depth := m.depth + 1 }).heap.arity c.spread =
      m.heap.arity c := m.heap.arity_spread c
  rw [harity, List.length_map]
  exact .ite (ih.enter c vs paren) (.fault paren _)

theorem enter_succ (ih : RunSimulates n) (c : Callable) (vs : List Value) (paren : Token) :
    Eval.Simulates Value.spread (n + 1) m (Eval.enter · c vs paren)
      (Eval.enter · c.spread (vs.map Value.spread) paren) := by
  refine .succ ?_
  cases c with
  | native slot =>
    simp only [Callable.spread, Eval.enter]
    exact .step (.callNative m slot vs paren)
  | function f =>
    simp only [Callable.spread, Eval.enter]
    exact ih.apply f vs
  | initializer id c i =>
    simp only [Callable.spread, Eval.enter]
    refine .get ?_
    rw [m.spread_classes, Classes.lineage_spread]
    exact (ih.setUp _ i vs).bind fun _ m₁ => .pure rfl
  | cls c =>
    simp only [Callable.spread, Eval.enter]
    refine .step_bind (.newInstance m c) fun i m₁ => .get ?_
    rw [m₁.spread_classes, Classes.lineage_spread]
    exact (ih.setUp _ i vs).bind fun _ m₂ => .pure rfl

theorem apply_succ (ih : RunSimulates n) (f : Closure) (vs : List Value) :
    Eval.Simulates Value.spread (n + 1) m (Eval.apply · f vs)
      (Eval.apply · f.spread (vs.map Value.spread)) := by
  have hparams : f.spread.decl.params = f.decl.params := f.decl.spread_params
  have hbody : f.spread.decl.body = Stmt.spreadAll f.decl.body := f.decl.spread_body
  refine .succ ?_
  simp only [Eval.apply]
  rw [hparams, hbody]
  refine .step_bind (.newScope m f.scope) fun s m₁ => ?_
  refine .step_bind (.defineAll m₁ s f.decl.params vs) fun _ m₂ => ?_
  refine (Eval.Simulates.inScope (ih.execAll f.decl.body)).bind fun flow m₃ => ?_
  refine .ite (.get (.pure ?_)) ?_
  · have hthis : m₃.heap.scopes.spread.here? f.spread.scope "this" =
        (m₃.heap.scopes.here? f.scope "this").map Value.spread := Scopes.here?_spread ..
    rw [m₃.spread_scopes, hthis]
    cases m₃.heap.scopes.here? f.scope "this" <;> rfl
  · cases flow with
    | ret v => exact .pure rfl
    | _ => exact .pure rfl

theorem setUp_succ (ih : RunSimulates n) (ks : List Class) (i : Nat) (vs : List Value) :
    Eval.Simulates id (n + 1) m (Eval.setUp · ks i vs)
      (Eval.setUp · (ks.map Class.spread) i (vs.map Value.spread)) := by
  refine .succ ?_
  cases ks with
  | nil =>
    simp only [List.map_nil, Eval.setUp]
    exact .pure rfl
  | cons k ks =>
    -- A body is bound to the instance and run.
    have hrun : ∀ {m' : Machine} (f : Closure) (ws : List Value), Eval.Simulates id n m'
        (fun j => do let f ← Eval.bindThis f i; let _ ← Eval.apply j f ws)
        (fun j => do
          let f ← Eval.bindThis f.spread i
          let _ ← Eval.apply j f (ws.map Value.spread)) := fun {m'} f ws =>
      .step_bind (.bindThis m' f i) fun g m₁ => (ih.apply g ws).bind fun _ _ => .pure rfl
    simp only [List.map_cons, Eval.setUp]
    rw [k.init?_spread]
    cases k.init? with
    | some f => exact hrun f vs
    | none =>
      refine (ih.setUp ks i vs).bind fun _ m₁ => ?_
      have hfields : k.spread.fields = k.fields.map Closure.spread := rfl
      rw [hfields]
      cases k.fields with
      | none => exact .pure rfl
      | some f => exact hrun f []

theorem exec_succ (ih : RunSimulates n) (s : Stmt) :
    Eval.Simulates Flow.spread (n + 1) m (Eval.exec · s) (Eval.exec · s.spread) := by
  refine .succ ?_
  cases s with
  | expr e =>
    simp only [Stmt.spread, Eval.exec]
    exact (ih.eval e).bind fun _ m₁ => .pure rfl
  | print keyword e =>
    simp only [Stmt.spread, Eval.exec]
    refine (ih.eval e).bind fun v m₁ => ?_
    exact .step_bind (.print m₁ keyword v) fun _ m₂ => .pure rfl
  | var name type init =>
    simp only [Stmt.spread, Eval.exec]
    refine (ih.evalOption init).bind fun v m₁ => ?_
    exact .step_bind (.defineHere m₁ _ v) fun _ m₂ => .pure rfl
  | block body =>
    simp only [Stmt.spread, Eval.exec]
    refine .get (.step_bind (.newScope m m.scope) fun s m₁ => ?_)
    exact .inScope (ih.execAll body)
  | decls body =>
    simp only [Stmt.spread, Eval.exec]
    exact ih.execAll body
  | branch e y no =>
    cases no with
    | none =>
      simp only [Stmt.spread, Eval.exec]
      refine (ih.eval e).bind fun v m₁ => ?_
      rw [v.truthy_spread]
      exact .ite (ih.exec y) (.pure rfl)
    | some s =>
      simp only [Stmt.spread, Eval.exec]
      refine (ih.eval e).bind fun v m₁ => ?_
      rw [v.truthy_spread]
      exact .ite (ih.exec y) (ih.exec s)
  | loop e step body =>
    simp only [Stmt.spread, Eval.exec]
    exact ih.loop e step body
  | function decl =>
    simp only [Stmt.spread, Eval.exec, decl.spread_name]
    refine .get (.step_bind (.newClosure m decl m.scope false) fun f m₁ => ?_)
    exact .step_bind (.defineHere m₁ _ (.callable (.function f))) fun _ m₂ => .pure rfl
  | ret keyword value =>
    simp only [Stmt.spread, Eval.exec]
    exact (ih.evalOption value).bind fun v m₁ => .pure rfl
  | brk keyword =>
    simp only [Stmt.spread, Eval.exec]
    exact .pure rfl
  | cont keyword =>
    simp only [Stmt.spread, Eval.exec]
    exact .pure rfl
  | cls decl =>
    have hname : decl.spread.name = decl.name := by rw [ClassDecl.spread_eq]
    have hsuper : decl.spread.superclass = decl.superclass := by rw [ClassDecl.spread_eq]
    have hfields : decl.spread.staticFields = decl.staticFields := by rw [ClassDecl.spread_eq]
    simp only [Stmt.spread, Eval.exec, hname, hsuper, hfields]
    refine .step_bind (.defineHere m _ .nil) fun _ m₁ => ?_
    refine .step_bind (.superclassOf m₁ decl.superclass) fun sup m₂ => ?_
    refine .step_bind (.classScope m₂ sup) fun s m₃ => ?_
    refine .step_bind (.buildClass m₃ decl sup s) fun c m₄ => ?_
    refine (Eval.Simulates.inScope (ih.initStatics c decl.staticFields)).bind fun _ m₅ => ?_
    exact .step_bind (.defineHere m₅ _ (.callable (.cls c))) fun _ m₆ => .pure rfl
  | require decl =>
    simp only [Stmt.spread, Eval.exec]
    exact .pure rfl
  | expose keyword names =>
    simp only [Stmt.spread, Eval.exec]
    exact .pure rfl

/-- Two lists in turn. -/
theorem andThen {ss ss' : List Stmt}
    (h : ∀ {m},
      Eval.Simulates Flow.spread n m (Eval.execAll · ss) (Eval.execAll · (Stmt.spreadAll ss)))
    (h' : ∀ {m},
      Eval.Simulates Flow.spread n m (Eval.execAll · ss') (Eval.execAll · (Stmt.spreadAll ss'))) :
    Eval.Simulates Flow.spread n m (fun i => Eval.andThen (Eval.execAll i ss) (Eval.execAll i ss'))
      fun i => Eval.andThen (Eval.execAll i (Stmt.spreadAll ss))
        (Eval.execAll i (Stmt.spreadAll ss')) := by
  refine h.bind fun flow m₁ => ?_
  cases flow with
  | normal => exact h'
  | _ => exact .pure rfl

/-- A `decls` in a list. The spread declarations share the steps of the list that they stand in, so
that only the list gets shorter on the way back. -/
theorem execAll_decls (ih : RunSimulates n) {ds ss : List Stmt}
    (hds : ∀ {m}, Eval.Simulates Flow.spread (n + 1) m (Eval.execAll · ds)
      (Eval.execAll · (Stmt.spreadAll ds)))
    (hss : ∀ {m}, Eval.Simulates Flow.spread (n + 1) m (Eval.execAll · ss)
      (Eval.execAll · (Stmt.spreadAll ss))) :
    Eval.Simulates Flow.spread (n + 1) m (Eval.execAll · (.decls ds :: ss))
      (Eval.execAll · (Stmt.spreadAll ds ++ Stmt.spreadAll ss)) := by
  constructor
  · intro hr
    have hseq : Unseen .idle m (Eval.execAll (n + 1) (.decls ds :: ss))
        (Eval.andThen (Eval.execAll n ds) (Eval.execAll n ss)) fun _ => True := by
      rw [Eval.execAll_cons]
      refine .andThen ?_ fun _ => .execAll_mono (Nat.le_refl n) ss
      cases n with
      | zero => exact .exhausted
      | succ n => exact .execAll_mono (Nat.le_succ n) ds
    have hrun := hseq.follow hr rfl
    have hspread := (andThen (m := m) (ih.execAll ds) (ih.execAll ss)).forth (hrun ▸ hr)
    rw [hrun] at hspread
    refine hspread.follow (Eval.ended_mapEnd.2 hr) fun i => ⟨i + i, fun j hj => ?_⟩
    exact .append_execAll hj _ _
  · intro hr
    have hseq : Unseen .idle m.spread
        (Eval.execAll (n + 1) (Stmt.spreadAll ds ++ Stmt.spreadAll ss))
        (Eval.andThen (Eval.execAll (n + 1) (Stmt.spreadAll ds))
          (Eval.execAll (n + 1) (Stmt.spreadAll ss))) fun _ => True :=
      .execAll_append (Nat.le_refl _) (Nat.le_refl _) _ _
    have hrun := hseq.follow hr rfl
    obtain ⟨r, hr', he⟩ := (andThen (m := m) hds hss).back (hrun ▸ hr)
    have hend : Eval.Ended (Eval.spreadEnd Flow.spread r) := by
      rw [he, hrun]
      exact hr
    refine ⟨r, hr'.follow (Eval.ended_mapEnd.1 hend) fun i => ⟨i + 2, fun j hj => ?_⟩,
      he.trans hrun⟩
    obtain ⟨j, rfl⟩ : ∃ k, j = k + 2 := ⟨j - 2, by omega⟩
    rw [Eval.execAll_cons]
    exact .andThen (.execAll_mono (by omega) ds) fun _ => .execAll_mono (by omega) ss

/-- By recursion on the list: the declarations of a `decls` join the list around it, which has no
step less for them. -/
theorem execAll_succ (ih : RunSimulates n) : ∀ {m} (ss : List Stmt),
    Eval.Simulates Flow.spread (n + 1) m (Eval.execAll · ss) (Eval.execAll · (Stmt.spreadAll ss))
  | _, [] => by
    refine .succ ?_
    simp only [Stmt.spreadAll, Eval.execAll]
    exact .pure rfl
  | m, s :: ss => by
    by_cases h : ∃ ds, s = .decls ds
    · obtain ⟨ds, rfl⟩ := h
      exact execAll_decls ih (execAll_succ ih ds) (execAll_succ ih ss)
    · rw [Stmt.spreadAll, Stmt.unpacked_spread fun ds hs => h ⟨ds, hs⟩]
      refine .succ ?_
      simp only [List.singleton_append, Eval.execAll]
      refine (ih.exec s).bind fun flow m₁ => ?_
      cases flow with
      | normal => exact ih.execAll ss
      | _ => exact .pure rfl
termination_by _ ss => sizeOf ss

theorem loop_succ (ih : RunSimulates n) (e : Expr) (step : Option Expr) (body : Stmt) :
    Eval.Simulates Flow.spread (n + 1) m (Eval.loop · e step body)
      (Eval.loop · e step body.spread) := by
  refine .succ ?_
  simp only [Eval.loop]
  refine (ih.eval e).bind fun v m₁ => ?_
  rw [v.truthy_spread]
  refine .ite ((ih.exec body).bind fun flow m₂ => ?_) (.pure rfl)
  cases flow with
  | normal => exact (ih.evalOption step).bind fun _ m₃ => ih.loop e step body
  | cont => exact (ih.evalOption step).bind fun _ m₃ => ih.loop e step body
  | brk => exact .pure rfl
  | ret v => exact .pure rfl

theorem initStatics_succ (ih : RunSimulates n) (c : Nat) (fields : List FieldDecl) :
    Eval.Simulates id (n + 1) m (Eval.initStatics · c fields) (Eval.initStatics · c fields) := by
  refine .succ ?_
  cases fields with
  | nil =>
    simp only [Eval.initStatics]
    exact .pure rfl
  | cons field fields =>
    simp only [Eval.initStatics]
    refine (ih.evalOption field.init).bind fun v m₁ => ?_
    refine .step_bind (.setProperty m₁ (.callable (.cls c)) _ v) fun _ m₂ => ?_
    exact ih.initStatics c fields

end RunSimulates

/-- Within any number of steps, spread code does what the code does. -/
theorem runSimulates (n : Nat) : RunSimulates n := by
  induction n with
  | zero =>
    refine ⟨?_, ?_, ?_, ?_, ?_, ?_, ?_, ?_, ?_, ?_, ?_, ?_⟩
    all_goals intros; exact .zero rfl rfl
  | succ n ih =>
    exact ⟨ih.eval_succ, ih.evalAll_succ, ih.evalLast_succ, ih.evalOption_succ, ih.call_succ,
      ih.enter_succ, ih.apply_succ, ih.setUp_succ, ih.exec_succ, ih.execAll_succ, ih.loop_succ,
      ih.initStatics_succ⟩

/-! ### Programs -/

namespace Eval

/-- Runs `p`, however it ends. -/
def ignore (p : Eval Flow) : Eval Unit := do
  let _ ← p
  return ()

theorem run_cons (n : Nat) (s : Stmt) (ss : List Stmt) :
    run n (s :: ss) = (do ignore (exec n s); run n ss) := by
  rw [run, ignore, bind_assoc]
  simp only [pure_bind]

theorem run_singleton (n : Nat) (s : Stmt) : run n [s] = ignore (exec n s) := rfl

theorem run_append (n : Nat) (ss ss' : List Stmt) :
    run n (ss ++ ss') = (do run n ss; run n ss') := by
  induction ss with
  | nil => rfl
  | cons s ss ih => rw [List.cons_append, run_cons, run_cons, ih, bind_assoc]

/-- A variable that is declared leads on to what follows. -/
theorem ignore_andThen {d : Stmt} (hd : d.IsVar) (n : Nat) (p : Eval Flow) :
    ignore (andThen (exec n d) p) = (do ignore (exec n d); ignore p) := by
  obtain ⟨name, type, init, rfl⟩ := hd
  cases n with
  | zero => rfl
  | succ n =>
    rw [exec]
    simp only [ignore, andThen, bind_assoc, pure_bind]

end Eval

section

variable {m : Machine} {n n' : Nat} {ds : List Stmt}

theorem Unseen.ignore {p q : Eval Flow} (h : Unseen .idle m p q fun _ => True) :
    Unseen .idle m (Eval.ignore p) (Eval.ignore q) fun _ => True :=
  h.bind fun _ _ hk _ => .pure hk.fits trivial

theorem Unseen.execAll_run (hds : ∀ d ∈ ds, d.IsVar) (h : n ≤ n') :
    Unseen .idle m (Eval.ignore (Eval.execAll n ds)) (Eval.run n' ds) fun _ => True := by
  induction ds generalizing n m with
  | nil =>
    cases n with
    | zero => exact .exhausted
    | succ n => exact .pure (Mask.fits_idle _) trivial
  | cons d ds ih =>
    obtain ⟨hd, hds⟩ := List.forall_mem_cons.1 hds
    cases n with
    | zero => exact .exhausted
    | succ n =>
      have h : n ≤ n' := Nat.le_of_succ_le h
      rw [Eval.execAll_cons, Eval.ignore_andThen hd, Eval.run_cons]
      exact (Unseen.exec_mono h d).ignore.bind fun _ _ _ _ => ih hds h

theorem Unseen.run_execAll (hds : ∀ d ∈ ds, d.IsVar) (h : n + ds.length < n') :
    Unseen .idle m (Eval.run n ds) (Eval.ignore (Eval.execAll n' ds)) fun _ => True := by
  obtain ⟨n', rfl⟩ : ∃ i, n' = i + 1 := ⟨n' - 1, by omega⟩
  induction ds generalizing n' m with
  | nil => exact .pure (Mask.fits_idle _) trivial
  | cons d ds ih =>
    obtain ⟨hd, hds⟩ := List.forall_mem_cons.1 hds
    rw [List.length_cons] at h
    obtain ⟨n', rfl⟩ : ∃ i, n' = i + 1 := ⟨n' - 1, by omega⟩
    rw [Eval.execAll_cons, Eval.ignore_andThen hd, Eval.run_cons]
    exact (Unseen.exec_mono (by omega) d).ignore.bind fun _ _ _ _ => ih hds n' (by omega)

end

/-- Variables have no code to spread. -/
theorem Stmt.spreadAll_vars {ds : List Stmt} (h : ∀ d ∈ ds, d.IsVar) : spreadAll ds = ds := by
  induction ds with
  | nil => rfl
  | cons d ds ih =>
    obtain ⟨⟨name, type, init, rfl⟩, hds⟩ := List.forall_mem_cons.1 h
    rw [spreadAll, ih hds]
    rfl

/-- Each `decls` of the list holds variables only. -/
def Stmt.DeclsOfVars (ss : List Stmt) : Prop :=
  ∀ s ∈ ss, ∀ ds, s = .decls ds → ∀ d ∈ ds, d.IsVar

namespace Eval.Simulates
variable {m : Machine}

theorem run_decls (n : Nat) {ds : List Stmt} (hds : ∀ d ∈ ds, d.IsVar) :
    Simulates id n m (fun i => ignore (exec i (.decls ds))) (run · ds) := by
  have hall : ∀ i, Simulates id i m (fun i => ignore (execAll i ds))
      fun i => ignore (execAll i ds) := by
    intro i
    have h := (runSimulates i).execAll (m := m) ds
    rw [Stmt.spreadAll_vars hds] at h
    exact h.bind fun _ _ => .pure rfl
  constructor
  · intro hr
    cases n with
    | zero => exact absurd rfl (hr m)
    | succ n =>
      have hr : Ended (ignore (execAll n ds) m) := hr
      exact ((hall n).forth hr).follow (ended_mapEnd.2 hr) fun a =>
        ⟨a, fun b hb => .execAll_run hds hb⟩
  · intro hr
    have hrun := (Unseen.run_execAll (m := m.spread) hds
      (Nat.lt_succ_self (n + ds.length))).follow hr rfl
    obtain ⟨r, hr', he⟩ := (hall _).back (hrun ▸ hr)
    exact ⟨r, hr'.succ (p := fun i => ignore (exec i (.decls ds))), he.trans hrun⟩

theorem run (n : Nat) {body : List Stmt} (hb : Stmt.DeclsOfVars body) :
    Simulates id n m (Eval.run · body) (Eval.run · (Stmt.spreadAll body)) := by
  induction body generalizing m with
  | nil => exact .pure rfl
  | cons s ss ih =>
    obtain ⟨hs, hss⟩ := List.forall_mem_cons.1 hb
    simp only [run_cons, Stmt.spreadAll, run_append]
    refine bind (k := id) ?_ fun _ m₁ => ih hss
    by_cases h : ∃ ds, s = .decls ds
    · obtain ⟨ds, rfl⟩ := h
      have hspread : (Stmt.decls ds).spread.unpacked = ds := Stmt.spreadAll_vars (hs ds rfl)
      rw [hspread]
      exact run_decls n (hs ds rfl)
    · rw [Stmt.unpacked_spread fun ds hs => h ⟨ds, hs⟩]
      simp only [run_singleton]
      exact bind ((runSimulates n).exec s) fun _ _ => .pure rfl

end Eval.Simulates

/-- Two machines that differ in nothing but `decls` in the code of functions. -/
structure Machine.Alike (m m' : Machine) : Prop where
  heap : m'.heap.spread = m.heap.spread
  rest : { m' with heap := m.heap } = m

/-- Two runs end in the same way and leave machines that are alike. -/
inductive Eval.EndsAlike {α β : Type} (k : α → β) :
    EStateM.Result Stop Machine α → EStateM.Result Stop Machine α → Prop where
  | ok {a a' : α} {m m' : Machine} (ha : k a' = k a) (hm : m.Alike m') :
      EndsAlike k (.ok a m) (.ok a' m')
  | error {e : Stop} {m m' : Machine} (hm : m.Alike m') : EndsAlike k (.error e m) (.error e m')

theorem Machine.alike_iff {m m' : Machine} : m.Alike m' ↔ m'.spread = m.spread := by
  constructor
  · rintro ⟨hheap, hrest⟩
    rw [← hrest, spread, spread, hheap]
  · intro h
    refine ⟨congrArg Machine.heap h, ?_⟩
    have hrest := congrArg (fun k : Machine => { k with heap := m.heap }) h
    exact hrest

namespace Eval

theorem EndsAlike.of_eq {α β : Type} {k : α → β} {r r' : EStateM.Result Stop Machine α}
    (h : spreadEnd k r' = spreadEnd k r) : EndsAlike k r r' := by
  cases r with
  | ok a m =>
    cases r' with
    | ok a' m' =>
      injection h with ha hm
      exact .ok ha (Machine.alike_iff.2 hm)
    | error e m' => cases h
  | error e m =>
    cases r' with
    | ok a' m' => cases h
    | error e' m' =>
      injection h with he hm
      exact he ▸ .error (Machine.alike_iff.2 hm)

/-- Two runs with the same spread code, from machines that are alike. -/
theorem Simulates.alike {α β : Type} {k : α → β} {p p' : Nat → Eval α} {q : Nat → Eval β}
    {m m' : Machine} (hm : m.Alike m') (h : ∀ n, Simulates k n m p q)
    (h' : ∀ n, Simulates k n m' p' q) {r : EStateM.Result Stop Machine α} (hr : Finishes p m r) :
    ∃ r', Finishes p' m' r' ∧ EndsAlike k r r' := by
  obtain ⟨n, rfl⟩ := hr.run
  obtain ⟨N, hN⟩ := (h n).forth hr.ends
  have hq : q N m'.spread = spreadEnd k (p n m) := by
    rw [Machine.alike_iff.1 hm]
    exact hN N (Nat.le_refl N)
  have hend : Ended (spreadEnd k (p n m)) := ended_mapEnd.2 hr.ends
  obtain ⟨r', hr', he⟩ := (h' N).back (hq ▸ hend)
  rw [hq] at he
  exact ⟨r', hr'.finishes (ended_mapEnd.1 (he ▸ hend)), .of_eq he⟩

end Eval

/-- In a program that was read, declarations of several variables can be put one by one in their
place. Then there is none left; binding names finds and reports the same, in the same order, and
exposes the same; and a run of the one program is as a run of the other, from machines that are
alike to machines that are alike, both for a program and for statements inside of one. -/
theorem Program.decls_in_place (tokens : List Token) (stop : Pos) (firstId : Nat) :
    (∀ s ∈ Stmt.spreadAll (Program.read tokens stop firstId).body, s.Plain) ∧
    findings (Stmt.spreadAll (Program.read tokens stop firstId).body) =
      findings (Program.read tokens stop firstId).body ∧
    (∀ n dir i, Load.bindNames n dir (Stmt.spreadAll (Program.read tokens stop firstId).body) i =
      Load.bindNames n dir (Program.read tokens stop firstId).body i) ∧
    ∀ b ∈ [(Program.read tokens stop firstId).body,
        Stmt.spreadAll (Program.read tokens stop firstId).body],
      ∀ b' ∈ [(Program.read tokens stop firstId).body,
          Stmt.spreadAll (Program.read tokens stop firstId).body],
        ∀ m m' : Machine, m.Alike m' →
          (∀ r, Eval.Finishes (Eval.run · b) m r →
            ∃ r', Eval.Finishes (Eval.run · b') m' r' ∧ Eval.EndsAlike id r r') ∧
          ∀ r, Eval.Finishes (Eval.execAll · b) m r →
            ∃ r', Eval.Finishes (Eval.execAll · b') m' r' ∧ Eval.EndsAlike Flow.spread r r' := by
  have hlisted := Program.read_listed tokens stop firstId
  generalize (Program.read tokens stop firstId).body = body at hlisted ⊢
  have hplain : ∀ s ∈ Stmt.spreadAll body, s.Plain := Stmt.Listed.plainAll hlisted
  have hvars : ∀ b ∈ [body, Stmt.spreadAll body], Stmt.DeclsOfVars b := by
    intro b hb s hs ds hds
    rcases List.mem_pair.1 hb with rfl | rfl
    · exact (hlisted s hs).vars ds hds
    · exact (hds ▸ hplain s hs : (Stmt.decls ds).Plain).elim
  have hspread : ∀ b ∈ [body, Stmt.spreadAll body], Stmt.spreadAll b = Stmt.spreadAll body := by
    intro b hb
    rcases List.mem_pair.1 hb with rfl | rfl
    · rfl
    · exact Stmt.spreadAll_spreadAll body
  refine ⟨hplain, findings_spreadAll body, fun n dir i => Load.bindNames_spreadAll n dir body i, ?_⟩
  intro b hb b' hb' m m' hm
  have hsame := (hspread b hb).trans (hspread b' hb').symm
  refine ⟨fun r => ?_, fun r => ?_⟩
  · exact Eval.Simulates.alike hm (fun n => .run n (hvars b hb))
      fun n => hsame ▸ .run n (hvars b' hb')
  · exact Eval.Simulates.alike hm (fun n => (runSimulates n).execAll b)
      fun n => hsame ▸ (runSimulates n).execAll b'

end Treewalk
