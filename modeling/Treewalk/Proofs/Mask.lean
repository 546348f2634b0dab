import Treewalk.Proofs.Compound
import Treewalk.Proofs.Isolation

/-!
# Scopes that are changed unseen

A run reaches a scope only from the current one and from those of the closures it comes upon. A
`Mask` is a change of scopes that no such way leads to. `Unseen M m p q Q`: but for the change, `q`
does from `m` on what `p` does, unless `p` runs out of steps. The rules of this relation and each
single step of a machine are here; whole runs are in `Treewalk.Proofs.Unseen`.
-/

namespace Treewalk

/-- A change of scopes. -/
structure Mask where
  /-- The scopes that it leaves as they are. -/
  Clear : Nat → Prop
  /-- The scopes among which it can be made. -/
  Over : Scopes → Prop
  change : Scopes → Scopes
  over_addChild {ss} (s : Nat) : Over ss → Over (ss.addChild s)
  over_define {ss} (s : Nat) (x : String) (v : Value) : Over ss → Over (ss.define s x v)
  clear_next {ss} : Over ss → Clear ss.next
  next (ss : Scopes) : (change ss).next = ss.next
  parent? (ss : Scopes) (s : Nat) : (change ss).parent? s = ss.parent? s
  here? (ss : Scopes) {s : Nat} (x : String) : Clear s → (change ss).here? s x = ss.here? s x
  addChild {ss} (s : Nat) : Over ss → change (ss.addChild s) = (change ss).addChild s
  define (ss : Scopes) {s : Nat} (x : String) (v : Value) :
    Clear s → change (ss.define s x v) = (change ss).define s x v

namespace Mask

/-- No change. -/
def idle : Mask where
  Clear _ := True
  Over _ := True
  change ss := ss
  over_addChild _ _ := trivial
  over_define _ _ _ _ := trivial
  clear_next _ := trivial
  next _ := rfl
  parent? _ _ := rfl
  here? _ _ _ _ := rfl
  addChild _ _ := rfl
  define _ _ _ _ _ := rfl

variable (M : Mask)

/-- The machine with its scopes changed. -/
def on (m : Machine) : Machine := { m with heap.scopes := M.change m.heap.scopes }

@[simp] theorem on_scope (m : Machine) : (M.on m).scope = m.scope := rfl

@[simp] theorem on_bindings (m : Machine) : (M.on m).bindings = m.bindings := rfl

@[simp] theorem on_scopes (m : Machine) : (M.on m).heap.scopes = M.change m.heap.scopes := rfl

@[simp] theorem on_classes (m : Machine) : (M.on m).heap.classes = m.heap.classes := rfl

@[simp] theorem on_instances (m : Machine) : (M.on m).heap.instances = m.heap.instances := rfl

@[simp] theorem on_natives (m : Machine) : (M.on m).heap.natives = m.heap.natives := rfl

@[simp] theorem on_sink (m : Machine) : (M.on m).sink = m.sink := rfl

@[simp] theorem on_text (m : Machine) : (M.on m).heap.text = m.heap.text := rfl

@[simp] theorem on_arity (m : Machine) : (M.on m).heap.arity = m.heap.arity := rfl

/-- A closure in a scope that is left as it is. -/
def Passes (v : Value) : Prop := ∀ f, v = .callable (.function f) → M.Clear f.scope

theorem passes_inst (i : Nat) : M.Passes (.inst i) := fun _ h => by cases h

/-- Nothing in the store leads from scopes that are left as they are to others. -/
structure Fits (h : Heap) : Prop where
  laid : M.Over h.scopes
  parent : ∀ {s p}, M.Clear s → h.scopes.parent? s = some p → M.Clear p
  held : ∀ {f}, h.Holds f → M.Clear f.scope

/-- From `m` to `m'` a run keeps its scope and its table, and nothing it can reach is masked. -/
structure Keeps (m m' : Machine) : Prop where
  fits : M.Fits m'.heap
  scope : m'.scope = m.scope
  bindings : m'.bindings = m.bindings

end Mask

/-- From `m` on, `q` does with its scopes changed what `p` does without, unless `p` runs out of
steps. -/
structure Unseen {α : Type} (M : Mask) (m : Machine) (p q : Eval α) (Q : α → Prop) : Prop where
  ok : ∀ {a m'}, p m = .ok a m' → q (M.on m) = .ok a (M.on m') ∧ M.Keeps m m' ∧ Q a
  fault : ∀ {f m'}, p m = .error (.fault f) m' →
    q (M.on m) = .error (.fault f) (M.on m') ∧ M.Keeps m m'

namespace Eval
variable {α β : Type} {p : Eval α} {f : α → Eval β} {m m₂ : Machine}

/-- Runs `p` on what `enter` makes of the machine, and in any case `leave` after it. -/
def between (enter leave : Machine → Machine) (p : Eval α) : Eval α := fun m =>
  match p (enter m) with
  | .ok a m' => .ok a (leave m')
  | .error e m' => .error e (leave m')

theorem of_bind_ok {b : β} (h : (p >>= f) m = .ok b m₂) :
    ∃ a m₁, p m = .ok a m₁ ∧ f a m₁ = .ok b m₂ := by
  cases hp : p m with
  | ok a m₁ =>
    rw [bind_of_ok hp] at h
    exact ⟨a, m₁, rfl, h⟩
  | error e m₁ =>
    rw [bind_of_error hp] at h
    cases h

theorem of_bind_error {e : Stop} (h : (p >>= f) m = .error e m₂) :
    p m = .error e m₂ ∨ ∃ a m₁, p m = .ok a m₁ ∧ f a m₁ = .error e m₂ := by
  cases hp : p m with
  | ok a m₁ =>
    rw [bind_of_ok hp] at h
    exact .inr ⟨a, m₁, rfl, h⟩
  | error e₁ m₁ =>
    rw [bind_of_error hp] at h
    cases h
    exact .inl rfl

end Eval

namespace Mask
variable {M : Mask} {m m' m'' : Machine}

theorem Keeps.refl (h : M.Fits m.heap) : M.Keeps m m := ⟨h, rfl, rfl⟩

theorem Keeps.trans (h : M.Keeps m m') (h' : M.Keeps m' m'') : M.Keeps m m'' :=
  ⟨h'.fits, h'.scope.trans h.scope, h'.bindings.trans h.bindings⟩

end Mask

/-! ### Rules -/

namespace Unseen
variable {α β : Type} {M : Mask} {m : Machine} {p q p' q' : Eval α} {f g : α → Eval β}
  {P Q : α → Prop} {R : β → Prop}

theorem exhausted : Unseen M m (throw .exhausted) q Q := by
  constructor
  · intro a m' h
    cases h
  · intro f m' h
    cases h

theorem pure (hm : M.Fits m.heap) {a : α} (h : Q a) : Unseen M m (pure a) (pure a) Q := by
  constructor
  · intro a' m' ha
    cases ha
    exact ⟨rfl, .refl hm, h⟩
  · intro f m' h
    cases h

theorem throw_fault (hm : M.Fits m.heap) (t : Token) (cause : Cause) :
    Unseen M m (Eval.fault t cause) (Eval.fault t cause) Q := by
  constructor
  · intro a m' h
    cases h
  · intro f m' h
    cases h
    exact ⟨rfl, .refl hm⟩

theorem imp (h : Unseen M m p q P) (hPQ : ∀ a, P a → Q a) : Unseen M m p q Q := by
  refine ⟨fun hp => ?_, h.fault⟩
  obtain ⟨hq, hk, ha⟩ := h.ok hp
  exact ⟨hq, hk, hPQ _ ha⟩

theorem bind (h : Unseen M m p q P)
    (hf : ∀ a m', M.Keeps m m' → P a → Unseen M m' (f a) (g a) R) :
    Unseen M m (p >>= f) (q >>= g) R := by
  constructor
  · intro b m₂ hr
    obtain ⟨a, m₁, hp, hb⟩ := Eval.of_bind_ok hr
    obtain ⟨hq, hk, ha⟩ := h.ok hp
    obtain ⟨hg, hk', hR⟩ := (hf a m₁ hk ha).ok hb
    exact ⟨(bind_of_ok hq).trans hg, hk.trans hk', hR⟩
  · intro e m₂ hr
    rcases Eval.of_bind_error hr with hp | ⟨a, m₁, hp, hb⟩
    · obtain ⟨hq, hk⟩ := h.fault hp
      exact ⟨bind_of_error hq, hk⟩
    · obtain ⟨hq, hk, ha⟩ := h.ok hp
      obtain ⟨hg, hk'⟩ := (hf a m₁ hk ha).fault hb
      exact ⟨(bind_of_ok hq).trans hg, hk.trans hk'⟩

/-- What follows a step that always ends. -/
theorem after {a : α} {m' : Machine} (hp : p m = .ok a m') (hq : q (M.on m) = .ok a (M.on m'))
    (hk : M.Keeps m m') (h : Unseen M m' (f a) (g a) R) : Unseen M m (p >>= f) (q >>= g) R := by
  constructor
  · intro b m₂ hr
    rw [bind_of_ok hp] at hr
    obtain ⟨hg, hk', hR⟩ := h.ok hr
    exact ⟨(bind_of_ok hq).trans hg, hk.trans hk', hR⟩
  · intro e m₂ hr
    rw [bind_of_ok hp] at hr
    obtain ⟨hg, hk'⟩ := h.fault hr
    exact ⟨(bind_of_ok hq).trans hg, hk.trans hk'⟩

theorem map {k : α → β} (h : Unseen M m p q P) (hR : ∀ a, P a → R (k a)) :
    Unseen M m (k <$> p) (k <$> q) R := by
  rw [map_eq_pure_bind, map_eq_pure_bind]
  exact h.bind fun a m' hk ha => .pure hk.fits (hR a ha)

theorem get_left {f : Machine → Eval α} (h : Unseen M m (f m) q Q) :
    Unseen M m (MonadState.get >>= f) q Q := ⟨h.ok, h.fault⟩

theorem get_right {g : Machine → Eval α} (h : Unseen M m p (g (M.on m)) Q) :
    Unseen M m p (MonadState.get >>= g) Q := ⟨h.ok, h.fault⟩

theorem get {f g : Machine → Eval α} (h : Unseen M m (f m) (g (M.on m)) Q) :
    Unseen M m (MonadState.get >>= f) (MonadState.get >>= g) Q := h.get_right.get_left

theorem ite {c : Prop} [Decidable c] (h : Unseen M m p q Q) (h' : Unseen M m p' q' Q) :
    Unseen M m (if c then p else p') (if c then q else q') Q := by
  split
  · exact h
  · exact h'

theorem check (hm : M.Fits m.heap) (t : Token) {r : Except Cause α} (h : ∀ a, r = .ok a → Q a) :
    Unseen M m (Eval.check t r) (Eval.check t r) Q := by
  cases r with
  | ok a => exact .pure hm (h a rfl)
  | error cause => exact throw_fault hm t cause

theorem demand (hm : M.Fits m.heap) (t : Token) (cause : Cause) {o : Option α}
    (h : ∀ a, o = some a → Q a) :
    Unseen M m (Eval.demand t cause o) (Eval.demand t cause o) Q := by
  cases o with
  | some a => exact .pure hm (h a rfl)
  | none => exact throw_fault hm t cause

/-- A step that always ends. -/
theorem step {a : α} {m' : Machine} (hp : p m = .ok a m') (hq : q (M.on m) = .ok a (M.on m'))
    (hk : M.Keeps m m') (ha : Q a) : Unseen M m p q Q := by
  constructor
  · intro b m₁ h
    cases hp.symm.trans h
    exact ⟨hq, hk, ha⟩
  · intro f m₁ h
    cases hp.symm.trans h

theorem between (enter leave : Machine → Machine) {p' q' : Eval α} (h : Unseen M (enter m) p q Q)
    (hp : p' m = Eval.between enter leave p m)
    (hq : q' (M.on m) = Eval.between enter leave q (M.on m))
    (henter : enter (M.on m) = M.on (enter m)) (hleave : ∀ m', leave (M.on m') = M.on (leave m'))
    (hkeeps : ∀ m', M.Keeps (enter m) m' → M.Keeps m (leave m')) : Unseen M m p' q' Q := by
  constructor
  · intro a m' hr
    rw [hp, Eval.between] at hr
    rw [hq, Eval.between, henter]
    cases hrun : p (enter m) with
    | ok b m₁ =>
      obtain ⟨hrun', hk, ha⟩ := h.ok hrun
      rw [hrun] at hr
      cases hr
      rw [hrun']
      exact ⟨congrArg _ (hleave m₁), hkeeps m₁ hk, ha⟩
    | error e m₁ =>
      rw [hrun] at hr
      cases hr
  · intro f m' hr
    rw [hp, Eval.between] at hr
    rw [hq, Eval.between, henter]
    cases hrun : p (enter m) with
    | ok b m₁ =>
      rw [hrun] at hr
      cases hr
    | error e m₁ =>
      rw [hrun] at hr
      cases hr
      obtain ⟨hrun', hk⟩ := h.fault hrun
      rw [hrun']
      exact ⟨congrArg _ (hleave m₁), hkeeps m₁ hk⟩

/-- Code that runs in another scope. -/
theorem inScope {s : Nat} (h : Unseen M { m with scope := s } p q Q) :
    Unseen M m (Eval.inScope s p) (Eval.inScope s q) Q :=
  between (fun m => { m with scope := s }) (fun m' => { m' with scope := m.scope }) h rfl rfl rfl
    (fun _ => rfl) fun _ hk => ⟨hk.fits, rfl, hk.bindings⟩

/-- Code inside of a call. -/
theorem deeper (h : Unseen M { m with depth := m.depth + 1 } p q Q) :
    Unseen M m (Eval.deeper p) (Eval.deeper q) Q :=
  between (fun m => { m with depth := m.depth + 1 }) (fun m' => { m' with depth := m'.depth - 1 })
    h rfl rfl rfl (fun _ => rfl) fun _ hk => ⟨hk.fits, hk.scope, hk.bindings⟩

end Unseen

/-! ### Scopes -/

namespace Mask
variable {M : Mask} {h : Heap} {s t d : Nat} {x : String} {v : Value}

theorem ancestor? (ss : Scopes) (s d : Nat) :
    (M.change ss).ancestor? s d = ss.ancestor? s d := by
  induction d generalizing s with
  | zero => rfl
  | succ d ih =>
    rw [Scopes.ancestor?, Scopes.ancestor?, M.parent?]
    cases ss.parent? s with
    | none => rfl
    | some p => exact ih p

theorem root (ss : Scopes) (s : Nat) : (M.change ss).root s = ss.root s := by
  have hwithin : ∀ n s, (M.change ss).rootWithin n s = ss.rootWithin n s := by
    intro n
    induction n with
    | zero => exact fun s => rfl
    | succ n ih =>
      intro s
      rw [Scopes.rootWithin, Scopes.rootWithin, M.parent?]
      cases ss.parent? s with
      | none => rfl
      | some p => exact ih p
  exact hwithin s s

namespace Fits

theorem ancestor (hh : M.Fits h) (hs : M.Clear s) (ht : h.scopes.ancestor? s d = some t) :
    M.Clear t := by
  induction d generalizing s with
  | zero =>
    cases ht
    exact hs
  | succ d ih =>
    rw [Scopes.ancestor?] at ht
    split at ht
    · next p hp => exact ih (hh.parent hs hp) ht
    · cases ht

theorem rootWithin (hh : M.Fits h) (hs : M.Clear s) (n : Nat) :
    M.Clear (h.scopes.rootWithin n s) := by
  induction n generalizing s with
  | zero => exact hs
  | succ n ih =>
    rw [Scopes.rootWithin]
    split
    · next p hp => exact ih (hh.parent hs hp)
    · exact hs

theorem root (hh : M.Fits h) (hs : M.Clear s) : M.Clear (h.scopes.root s) := hh.rootWithin hs s

theorem holder (hh : M.Fits h) (hs : M.Clear s) (x : String) :
    (M.change h.scopes).holder? s x = h.scopes.holder? s x ∧
      ∀ t, h.scopes.holder? s x = some t → M.Clear t := by
  have hwithin : ∀ n s, M.Clear s →
      (M.change h.scopes).holderWithin? x n s = h.scopes.holderWithin? x n s ∧
        ∀ t, h.scopes.holderWithin? x n s = some t → M.Clear t := by
    intro n
    induction n with
    | zero =>
      intro s hs
      rw [Scopes.holderWithin?, Scopes.holderWithin?, M.here? _ _ hs]
      refine ⟨rfl, fun t ht => ?_⟩
      split at ht
      · cases ht
        exact hs
      · cases ht
    | succ n ih =>
      intro s hs
      rw [Scopes.holderWithin?, Scopes.holderWithin?, M.here? _ _ hs, M.parent?]
      by_cases hx : (h.scopes.here? s x).isSome = true
      · rw [if_pos hx, if_pos hx]
        refine ⟨rfl, fun t ht => ?_⟩
        cases ht
        exact hs
      · rw [if_neg hx, if_neg hx]
        cases hp : h.scopes.parent? s with
        | none => exact ⟨rfl, fun t ht => by cases ht⟩
        | some p => exact ih p (hh.parent hs hp)
  exact hwithin s s hs

theorem getAt? (hh : M.Fits h) (hs : M.Clear s) (d : Nat) (x : String) :
    (M.change h.scopes).getAt? s d x = h.scopes.getAt? s d x := by
  rw [Scopes.getAt?, Scopes.getAt?, M.ancestor?]
  cases ht : h.scopes.ancestor? s d with
  | none => rfl
  | some t => exact M.here? _ _ (hh.ancestor hs ht)

theorem get? (hh : M.Fits h) (hs : M.Clear s) (x : String) :
    (M.change h.scopes).get? s x = h.scopes.get? s x := by
  obtain ⟨heq, hclear⟩ := hh.holder hs x
  rw [Scopes.get?, Scopes.get?, heq]
  cases ht : h.scopes.holder? s x with
  | none => rfl
  | some t => exact M.here? _ _ (hclear t ht)

theorem value? {m : Machine} (hm : M.Fits m.heap) (hs : M.Clear m.scope) (ref : Ref) :
    (M.on m).value? ref = m.value? ref := by
  rw [Machine.value?, Machine.value?, on_bindings, on_scope, on_scopes, M.root]
  cases m.bindings[ref.id]? with
  | some d => exact hm.getAt? hs d _
  | none => exact hm.get? (hm.root hs) _

theorem target? {m : Machine} (hm : M.Fits m.heap) (hs : M.Clear m.scope) (ref : Ref) :
    Eval.target? (M.on m) ref = Eval.target? m ref := by
  rw [Eval.target?, Eval.target?, on_bindings, on_scope, on_scopes, M.root]
  cases m.bindings[ref.id]? with
  | some d => exact M.ancestor? _ _ d
  | none => exact (hm.holder (hm.root hs) _).1

theorem target?_clear {m : Machine} (hm : M.Fits m.heap) (hs : M.Clear m.scope) {ref : Ref}
    (ht : Eval.target? m ref = some t) : M.Clear t := by
  rw [Eval.target?] at ht
  split at ht
  · exact hm.ancestor hs ht
  · exact (hm.holder (hm.root hs) _).2 t ht

theorem vars (hh : M.Fits h) (hv : h.scopes.here? s x = some v) : M.Passes v := by
  rintro f rfl
  exact hh.held (.var hv)

theorem getAt?_passes (hh : M.Fits h) (hv : h.scopes.getAt? s d x = some v) : M.Passes v := by
  obtain ⟨t, -, ht⟩ := Option.bind_eq_some_iff.1 hv
  exact hh.vars ht

theorem get?_passes (hh : M.Fits h) (hv : h.scopes.get? s x = some v) : M.Passes v := by
  obtain ⟨t, -, ht⟩ := Option.bind_eq_some_iff.1 hv
  exact hh.vars ht

theorem value?_passes {m : Machine} (hm : M.Fits m.heap) {ref : Ref}
    (hv : m.value? ref = some v) : M.Passes v := by
  rw [Machine.value?] at hv
  split at hv
  · exact hm.getAt?_passes hv
  · exact hm.get?_passes hv

/-! ### Changes of the store -/

/-- Scopes that hold no closure that is hidden. -/
theorem scopes (hh : M.Fits h) {ss : Scopes} (hover : M.Over ss)
    (hparent : ∀ s p, M.Clear s → ss.parent? s = some p → M.Clear p)
    (hvars : ∀ s x v, ss.here? s x = some v → M.Passes v) :
    M.Fits { h with scopes := ss } := by
  refine ⟨hover, fun {s p} => hparent s p, fun {f} hf => ?_⟩
  cases hf with
  | var hv => exact hvars _ _ _ hv f rfl
  | field hi hv => exact hh.held (.field hi hv)
  | method hk hf => exact hh.held (.method hk hf)
  | init hk hf => exact hh.held (.init hk hf)
  | staticMethod hk hf => exact hh.held (.staticMethod hk hf)
  | static hk hv => exact hh.held (.static hk hv)

theorem addChild (hh : M.Fits h) (hs : M.Clear s) :
    M.Fits { h with scopes := h.scopes.addChild s } := by
  refine hh.scopes (M.over_addChild s hh.laid) ?_ ?_
  · intro t p ht hp
    rw [Scopes.parent?_addChild] at hp
    split at hp
    · cases hp
      exact hs
    · exact hh.parent ht hp
  · intro t x v hv
    rw [Scopes.here?_addChild] at hv
    exact hh.vars hv

theorem define (hh : M.Fits h) (s : Nat) (x : String) (hv : M.Passes v) :
    M.Fits { h with scopes := h.scopes.define s x v } := by
  refine hh.scopes (M.over_define s x v hh.laid) ?_ ?_
  · intro t p ht hp
    rw [Scopes.parent?_define] at hp
    exact hh.parent ht hp
  · intro t a w hw
    rcases Scopes.of_here?_define hw with ⟨-, -, rfl⟩ | hw
    · exact hv
    · exact hh.vars hw

theorem nextId (hh : M.Fits h) (id : Nat) : M.Fits { h with nextId := id } := by
  refine ⟨hh.laid, hh.parent, fun {f} hf => ?_⟩
  cases hf with
  | var hv => exact hh.held (.var hv)
  | field hi hv => exact hh.held (.field hi hv)
  | method hk hf => exact hh.held (.method hk hf)
  | init hk hf => exact hh.held (.init hk hf)
  | staticMethod hk hf => exact hh.held (.staticMethod hk hf)
  | static hk hv => exact hh.held (.static hk hv)

/-- Instances that hold no closure that is hidden. -/
theorem instances (hh : M.Fits h) {is : Array Instance}
    (hfields : ∀ (i : Nat) inst x v, is[i]? = some inst → inst.fields.get? x = some v →
      M.Passes v) : M.Fits { h with instances := is } := by
  refine ⟨hh.laid, hh.parent, fun {f} hf => ?_⟩
  cases hf with
  | var hv => exact hh.held (.var hv)
  | field hi hv => exact hfields _ _ _ _ hi hv f rfl
  | method hk hf => exact hh.held (.method hk hf)
  | init hk hf => exact hh.held (.init hk hf)
  | staticMethod hk hf => exact hh.held (.staticMethod hk hf)
  | static hk hv => exact hh.held (.static hk hv)

theorem fields (hh : M.Fits h) {i : Nat} {inst : Instance} (hi : h.instances[i]? = some inst)
    (hv : inst.fields.get? x = some v) : M.Passes v := by
  rintro f rfl
  exact hh.held (.field hi hv)

theorem setField (hh : M.Fits h) (i : Nat) (x : String) (hv : M.Passes v) :
    M.Fits { h with instances := h.instances.modify i fun inst =>
      { inst with fields := inst.fields.insert x v } } := by
  refine hh.instances fun j inst a w hj hw => ?_
  rw [Array.getElem?_modify] at hj
  split at hj
  · obtain ⟨inst₀, hj₀, rfl⟩ := Option.map_eq_some_iff.1 hj
    rw [Table.get?_insert] at hw
    split at hw
    · cases hw
      exact hv
    · exact hh.fields hj₀ hw
  · exact hh.fields hj hw

theorem newInstance (hh : M.Fits h) (c : Nat) :
    M.Fits { h with instances := h.instances.push ⟨c, {}⟩ } := by
  refine hh.instances fun j inst a w hj hw => ?_
  rw [Array.getElem?_push] at hj
  split at hj
  · cases hj
    cases hw
  · exact hh.fields hj hw

end Fits

/-- A class whose members are in scopes that are left as they are. -/
structure PassesClass (M : Mask) (k : Class) : Prop where
  methods : ∀ {x f}, k.methods.get? x = some f → M.Clear f.scope
  fields : ∀ {f}, k.fields = some f → M.Clear f.scope
  staticMethods : ∀ {x f}, k.staticMethods.get? x = some f → M.Clear f.scope
  statics : ∀ {x v}, k.statics.get? x = some v → M.Passes v

namespace Fits

theorem classes (hh : M.Fits h) {cs : Classes}
    (hcs : ∀ (c : Nat) k, cs.cells[c]? = some k → M.PassesClass k) :
    M.Fits { h with classes := cs } := by
  refine ⟨hh.laid, hh.parent, fun {f} hf => ?_⟩
  cases hf with
  | var hv => exact hh.held (.var hv)
  | field hi hv => exact hh.held (.field hi hv)
  | method hk hf => exact (hcs _ _ hk).methods hf
  | init hk hf => exact (hcs _ _ hk).fields hf
  | staticMethod hk hf => exact (hcs _ _ hk).staticMethods hf
  | static hk hv => exact (hcs _ _ hk).statics hv f rfl

theorem class_ (hh : M.Fits h) {c : Nat} {k : Class} (hk : h.classes.cells[c]? = some k) :
    M.PassesClass k where
  methods hf := hh.held (.method hk hf)
  fields hf := hh.held (.init hk hf)
  staticMethods hf := hh.held (.staticMethod hk hf)
  statics := by
    rintro x v hv f rfl
    exact hh.held (.static hk hv)

theorem addClass (hh : M.Fits h) {k : Class} (hk : M.PassesClass k) :
    M.Fits { h with classes := h.classes.add k } := by
  refine hh.classes fun c k' hk' => ?_
  simp only [Classes.add, Array.getElem?_push] at hk'
  split at hk'
  · cases hk'
    exact hk
  · exact hh.class_ hk'

theorem setStatic (hh : M.Fits h) (c : Nat) (x : String) (hv : M.Passes v) :
    M.Fits { h with classes := h.classes.setStatic c x v } := by
  refine hh.classes fun c' k hk => ?_
  simp only [Classes.setStatic, Array.getElem?_modify] at hk
  split at hk
  · obtain ⟨k₀, hk₀, rfl⟩ := Option.map_eq_some_iff.1 hk
    have hk := hh.class_ hk₀
    refine ⟨hk.methods, hk.fields, hk.staticMethods, fun {a w} hw => ?_⟩
    rw [Table.get?_insert] at hw
    split at hw
    · cases hw
      exact hv
    · exact hk.statics hw
  · exact hh.class_ hk

theorem lineage (hh : M.Fits h) {c : Nat} {k : Class} (hk : k ∈ h.classes.lineage c) :
    M.PassesClass k := by
  obtain ⟨c, hc⟩ := Classes.exists_of_mem_lineageWithin hk
  exact hh.class_ hc

theorem method? (hh : M.Fits h) {c : Nat} {f : Closure}
    (hf : h.classes.method? c x = some f) : M.Clear f.scope := by
  obtain ⟨k, hk, hf⟩ := List.exists_of_findSome?_eq_some hf
  exact (hh.lineage hk).methods hf

theorem static? (hh : M.Fits h) {c : Nat} (hv : h.classes.static? c x = some v) :
    M.Passes v := by
  obtain ⟨k, hk, hv⟩ := List.exists_of_findSome?_eq_some hv
  have hk := hh.lineage hk
  rw [Class.ownStatic?] at hv
  split at hv
  · next w hw =>
    cases hv
    exact hk.statics hw
  · obtain ⟨f, hf, rfl⟩ := Option.map_eq_some_iff.1 hv
    rintro g hg
    cases hg
    exact hk.staticMethods hf

end Fits

end Mask

theorem Table.mem_of_get?_ofList {κ β : Type} [DecidableEq κ] {entries : List (κ × β)} {k : κ}
    {b : β} (h : (Table.ofList entries).get? k = some b) : ∃ a, (a, b) ∈ entries := by
  rw [Table.get?_ofList] at h
  obtain ⟨e, he, rfl⟩ := Option.map_eq_some_iff.1 h
  exact ⟨e.1, List.mem_reverse.1 (List.mem_of_find?_eq_some he)⟩

/-! ### Single steps -/

namespace Unseen
variable {M : Mask} {m : Machine} {s : Nat} {v : Value}

theorem freshId (hm : M.Fits m.heap) :
    Unseen M m Eval.freshId Eval.freshId fun _ => True :=
  .step rfl rfl ⟨hm.nextId _, rfl, rfl⟩ trivial

theorem newScope (hm : M.Fits m.heap) (hs : M.Clear s) :
    Unseen M m (Eval.newScope s) (Eval.newScope s) M.Clear := by
  refine .step rfl ?_ ⟨hm.addChild hs, rfl, rfl⟩ (M.clear_next hm.laid)
  rw [Eval.newScope, Mask.on, Mask.on, M.addChild s hm.laid, M.next]

theorem define (hm : M.Fits m.heap) (hs : M.Clear s) (x : String) (hv : M.Passes v) :
    Unseen M m (Eval.define s x v) (Eval.define s x v) fun _ => True := by
  refine .step rfl ?_ ⟨hm.define s x hv, rfl, rfl⟩ trivial
  rw [Eval.define, Mask.on, Mask.on, M.define _ x v hs]

theorem defineAll (hm : M.Fits m.heap) (hs : M.Clear s) (names : List Token) {vs : List Value}
    (hvs : ∀ v ∈ vs, M.Passes v) :
    Unseen M m (Eval.defineAll s names vs) (Eval.defineAll s names vs) fun _ => True := by
  induction names generalizing m vs with
  | nil => exact .pure hm trivial
  | cons x names ih =>
    cases vs with
    | nil => exact .pure hm trivial
    | cons v vs =>
      rw [Eval.defineAll]
      refine (define hm hs x.lexeme (hvs v List.mem_cons_self)).bind fun _ m' hk _ => ?_
      exact ih hk.fits fun w hw => hvs w (List.mem_cons_of_mem v hw)

theorem defineHere (hm : M.Fits m.heap) (hs : M.Clear m.scope) (x : String) (hv : M.Passes v) :
    Unseen M m (Eval.defineHere x v) (Eval.defineHere x v) fun _ => True :=
  .get (define hm hs x hv)

/-- A variable that has its value under the mask too. -/
theorem lookUp_of (hm : M.Fits m.heap) {ref : Ref} (hvalue : (M.on m).value? ref = m.value? ref) :
    Unseen M m (Eval.lookUp ref) (Eval.lookUp ref) M.Passes := by
  have hdemand := demand hm ref.name (.undefinedVariable ref.name.lexeme) (o := m.value? ref)
    (Q := M.Passes) fun v hv => hm.value?_passes hv
  constructor
  · intro v m' h
    rw [Eval.lookUp_eq] at h ⊢
    rw [hvalue]
    exact hdemand.ok h
  · intro f m' h
    rw [Eval.lookUp_eq] at h ⊢
    rw [hvalue]
    exact hdemand.fault h

theorem lookUp (hm : M.Fits m.heap) (hs : M.Clear m.scope) (ref : Ref) :
    Unseen M m (Eval.lookUp ref) (Eval.lookUp ref) M.Passes := lookUp_of hm (hm.value? hs ref)

/-- A variable of a scope that is left as it is. -/
theorem assign_of (hm : M.Fits m.heap) {ref : Ref}
    (htarget : Eval.target? (M.on m) ref = Eval.target? m ref)
    (hclear : ∀ t, Eval.target? m ref = some t → M.Clear t) (hv : M.Passes v) :
    Unseen M m (Eval.assign ref v) (Eval.assign ref v) fun _ => True := by
  refine .get ?_
  rw [htarget]
  refine (demand hm ref.name (.undefinedVariable ref.name.lexeme) (Q := M.Clear)
    fun t ht => hclear t ht).bind fun t m' hk ht => ?_
  exact define hk.fits ht _ hv

theorem assign (hm : M.Fits m.heap) (hs : M.Clear m.scope) (ref : Ref) (hv : M.Passes v) :
    Unseen M m (Eval.assign ref v) (Eval.assign ref v) fun _ => True :=
  assign_of hm (hm.target? hs ref) (fun _ ht => hm.target?_clear hs ht) hv

theorem newClosure (hm : M.Fits m.heap) (decl : FunctionDecl) (s : Nat) (isInit : Bool) :
    Unseen M m (Eval.newClosure decl s isInit) (Eval.newClosure decl s isInit)
      fun f => f.scope = s :=
  (freshId hm).bind fun _ _ hk _ => .pure hk.fits rfl

theorem newMethods (hm : M.Fits m.heap) (s : Nat) (ofInstances : Bool)
    (decls : List FunctionDecl) :
    Unseen M m (Eval.newMethods s ofInstances decls) (Eval.newMethods s ofInstances decls)
      fun fs => ∀ f ∈ fs, f.2.scope = s := by
  induction decls generalizing m with
  | nil => exact .pure hm fun f hf => absurd hf List.not_mem_nil
  | cons decl decls ih =>
    rw [Eval.newMethods]
    refine (newClosure hm decl s _).bind fun f m₁ hk hf => (ih hk.fits).bind fun fs m₂ hk' hfs => ?_
    exact .pure hk'.fits (List.forall_mem_cons.2 ⟨hf, hfs⟩)

theorem bindThis (hm : M.Fits m.heap) {f : Closure} (hf : M.Clear f.scope) (inst : Nat) :
    Unseen M m (Eval.bindThis f inst) (Eval.bindThis f inst) fun g => M.Clear g.scope := by
  refine (newScope hm hf).bind fun s m₁ hk hs => ?_
  refine (define hk.fits hs "this" (M.passes_inst inst)).bind fun _ m₂ hk₂ _ => ?_
  exact (newClosure hk₂.fits f.decl s f.isInit).imp fun g hg => hg ▸ hs

theorem initializerOf (hm : M.Fits m.heap) (c inst : Nat) :
    Unseen M m (Eval.initializerOf c inst) (Eval.initializerOf c inst)
      fun k => M.Passes (.callable k) := by
  refine .get ?_
  rw [M.on_classes]
  cases hinit : m.heap.classes.cells[c]?.bind Class.init? with
  | none =>
    refine (freshId hm).bind fun id m' hk _ => .pure hk.fits ?_
    rintro f hf
    cases hf
  | some f =>
    obtain ⟨k, hk, hf⟩ := Option.bind_eq_some_iff.1 hinit
    refine (bindThis hm ((hm.class_ hk).methods hf) inst).bind fun g m' hk hg => ?_
    refine .pure hk.fits ?_
    rintro f hf
    cases hf
    exact hg

theorem method (hm : M.Fits m.heap) {f : Closure} (hf : M.Clear f.scope) (inst : Nat) :
    Unseen M m (do return Value.callable (.function (← Eval.bindThis f inst)))
      (do return Value.callable (.function (← Eval.bindThis f inst))) M.Passes := by
  refine (bindThis hm hf inst).bind fun g m' hk hg => .pure hk.fits ?_
  rintro f hf
  cases hf
  exact hg

theorem instanceProperty (hm : M.Fits m.heap) (i : Nat) (name : Token) :
    Unseen M m (Eval.instanceProperty i name) (Eval.instanceProperty i name) M.Passes := by
  refine .get ?_
  dsimp only
  rw [M.on_instances, M.on_classes]
  refine (demand hm name (.undefinedProperty name.lexeme) (Q := fun inst =>
    m.heap.instances[i]? = some inst) fun inst h => h).bind fun inst m' hk hinst => ?_
  cases hv : inst.fields.get? name.lexeme with
  | some v => exact .pure hk.fits (hm.fields hinst hv)
  | none =>
    refine .ite ?_ ?_
    · exact (initializerOf hk.fits inst.cls i).bind fun c m₂ hk₂ hc => .pure hk₂.fits hc
    · refine (demand hk.fits name (.undefinedProperty name.lexeme) (Q := fun f => M.Clear f.scope)
        fun f hf => hm.method? hf).bind fun f m₂ hk₂ hf => ?_
      exact method hk₂.fits hf i

theorem property (hm : M.Fits m.heap) (v : Value) (name : Token) :
    Unseen M m (Eval.property v name) (Eval.property v name) M.Passes := by
  unfold Eval.property
  split
  · exact instanceProperty hm _ name
  · exact .get (demand hm name _ fun v hv => hm.static? hv)
  · exact throw_fault hm name _

theorem setProperty (hm : M.Fits m.heap) (target : Value) (x : String) (hv : M.Passes v) :
    Unseen M m (Eval.setProperty target x v) (Eval.setProperty target x v) fun _ => True := by
  cases target with
  | inst i => exact .step rfl rfl ⟨hm.setField i x hv, rfl, rfl⟩ trivial
  | callable c =>
    cases c with
    | cls c => exact .step rfl rfl ⟨hm.setStatic c x hv, rfl, rfl⟩ trivial
    | native | function | initializer => exact .step rfl rfl (.refl hm) trivial
  | nil | bool | num | string => exact .step rfl rfl (.refl hm) trivial

/-- A use of `super` whose variables are what they are without the mask. -/
theorem superMethod_of (hm : M.Fits m.heap) (ref : Ref) (name : Token)
    (hsuper : ∀ d, m.bindings[ref.id]? = some (d + 1) →
      (M.change m.heap.scopes).getAt? m.scope (d + 1) ref.name.lexeme =
        m.heap.scopes.getAt? m.scope (d + 1) ref.name.lexeme)
    (hthis : ∀ d, m.bindings[ref.id]? = some (d + 1) →
      (M.change m.heap.scopes).getAt? m.scope d "this" = m.heap.scopes.getAt? m.scope d "this") :
    Unseen M m (Eval.superMethod ref name) (Eval.superMethod ref name) M.Passes := by
  refine .get ?_
  rw [M.on_bindings, M.on_scope, M.on_scopes, M.on_classes]
  split
  · next d hd =>
    rw [hsuper d hd, hthis d hd]
    refine (demand hm ref.name _ (Q := fun _ => True) fun _ _ => trivial).bind ?_
    intro super m₁ hk₁ _
    refine (demand hk₁.fits ref.name _ (Q := fun _ => True) fun _ _ => trivial).bind ?_
    intro this m₂ hk₂ _
    split
    · next c i =>
      refine .ite ?_ ?_
      · exact (initializerOf hk₂.fits c i).bind fun k m₃ hk₃ hk => .pure hk₃.fits hk
      · refine (demand hk₂.fits name _ (Q := fun f => M.Clear f.scope)
          fun f hf => hm.method? hf).bind fun f m₃ hk₃ hf => ?_
        exact method hk₃.fits hf i
    · exact throw_fault hk₂.fits ref.name _
  · exact throw_fault hm ref.name _

theorem superMethod (hm : M.Fits m.heap) (hs : M.Clear m.scope) (ref : Ref) (name : Token) :
    Unseen M m (Eval.superMethod ref name) (Eval.superMethod ref name) M.Passes :=
  superMethod_of hm ref name (fun d _ => hm.getAt? hs (d + 1) _) fun d _ => hm.getAt? hs d _

theorem newInstance (hm : M.Fits m.heap) (c : Nat) :
    Unseen M m (Eval.newInstance c) (Eval.newInstance c) fun _ => True :=
  .step rfl rfl ⟨hm.newInstance c, rfl, rfl⟩ trivial

theorem callNative (hm : M.Fits m.heap) (slot : Nat) (args : List Value) (paren : Token) :
    Unseen M m (Eval.callNative slot args paren) (Eval.callNative slot args paren) M.Passes := by
  have hclock : Unseen M m Eval.readClock Eval.readClock M.Passes :=
    .step rfl rfl ⟨hm, rfl, rfl⟩ fun f hf => by cases hf
  refine .get ?_
  dsimp only
  rw [M.on_natives, M.on_text]
  split
  · exact hclock
  · split
    · exact .pure hm fun f hf => by cases hf
    · exact throw_fault hm paren _
  · exact .pure hm fun f hf => by cases hf

theorem print (hm : M.Fits m.heap) (keyword : Token) (v : Value) :
    Unseen M m (Eval.print keyword v) (Eval.print keyword v) fun _ => True := by
  have hprint : ∀ m' : Machine, Eval.print keyword v m' =
      if m'.sink.fits (m'.heap.text v ++ "\n") then
        .ok () { m' with sink := m'.sink.write (m'.heap.text v ++ "\n") }
      else .error (.fault (.ofToken keyword .sinkFull))
        { m' with sink := m'.sink.write (m'.heap.text v ++ "\n") } := fun _ => rfl
  constructor
  · intro a m' h
    rw [hprint] at h ⊢
    rw [M.on_text, M.on_sink]
    split at h
    · cases h
      exact ⟨if_pos ‹_›, ⟨hm, rfl, rfl⟩, trivial⟩
    · cases h
  · intro f m' h
    rw [hprint] at h ⊢
    rw [M.on_text, M.on_sink]
    split at h
    · cases h
    · cases h
      exact ⟨if_neg ‹_›, ⟨hm, rfl, rfl⟩⟩

theorem superclassOf (hm : M.Fits m.heap) (hs : M.Clear m.scope) (superclass : Option Ref) :
    Unseen M m (Eval.superclassOf superclass) (Eval.superclassOf superclass) fun _ => True := by
  cases superclass with
  | none => exact .pure hm trivial
  | some ref =>
    refine (lookUp hm hs ref).bind fun v m' hk _ => ?_
    split
    · exact .pure hk.fits trivial
    · exact throw_fault hk.fits ref.name _

theorem classScope (hm : M.Fits m.heap) (hs : M.Clear m.scope) (superclass : Option Nat) :
    Unseen M m (Eval.classScope superclass) (Eval.classScope superclass) M.Clear := by
  refine .get ?_
  cases superclass with
  | none => exact .pure hm hs
  | some c =>
    refine (newScope hm hs).bind fun s m₁ hk hs => ?_
    refine (define hk.fits hs "super" (fun f hf => by cases hf)).bind fun _ m₂ hk₂ _ => ?_
    exact .pure hk₂.fits hs

theorem buildClass (hm : M.Fits m.heap) (decl : ClassDecl) (superclass : Option Nat)
    (hs : M.Clear s) :
    Unseen M m (Eval.buildClass decl superclass s) (Eval.buildClass decl superclass s)
      fun _ => True := by
  refine (newMethods hm s true decl.methods).bind fun fs m₁ hk₁ hfs => ?_
  refine (newMethods hk₁.fits s false decl.staticMethods).bind fun gs m₂ hk₂ hgs => ?_
  have hclass : ∀ (m' : Machine) (fields : Option Closure), M.Fits m'.heap →
      (∀ f, fields = some f → f.scope = s) → Unseen M m' (Eval.newClass
        { name := decl.name.lexeme, superclass, methods := .ofList fs, fields,
          staticMethods := .ofList gs, statics := {} }) (Eval.newClass
        { name := decl.name.lexeme, superclass, methods := .ofList fs, fields,
          staticMethods := .ofList gs, statics := {} }) fun _ => True := by
    intro m' fields hm' hfields
    refine .step rfl rfl ⟨hm'.addClass ⟨?_, ?_, ?_, ?_⟩, rfl, rfl⟩ trivial
    · intro x f hf
      obtain ⟨y, hy⟩ := Table.mem_of_get?_ofList hf
      exact hfs _ hy ▸ hs
    · intro f hf
      exact hfields f hf ▸ hs
    · intro x f hf
      obtain ⟨y, hy⟩ := Table.mem_of_get?_ofList hf
      exact hgs _ hy ▸ hs
    · intro x v hv
      cases hv
  cases decl.fields with
  | none => exact hclass m₂ none hk₂.fits fun f hf => by cases hf
  | some decl =>
    refine ((newClosure hk₂.fits decl s false).map (R := fun fields => ∀ f, fields = some f →
      f.scope = s) ?_).bind fun fields m₃ hk₃ hfields => hclass m₃ fields hk₃.fits hfields
    intro f hf g hg
    cases hg
    exact hf

end Unseen

end Treewalk
