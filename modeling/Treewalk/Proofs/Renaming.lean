import Mathlib.Logic.Equiv.Defs
import Treewalk.Proofs.Unseen

/-!
# Other names for the variables of a call

If the parameters of a function get other names, and the references to them do too, then
expressions that the function runs in its own scope do as before (`Eval.apply_renames`): what is
left differs only in the names in the scope of the call.
-/

namespace Treewalk

/-! ### Tables and scopes with other names -/

/-- The table with other keys. -/
def Table.rename {κ β : Type} (ρ : Equiv.Perm κ) (t : Table κ β) : Table κ β :=
  ⟨t.entries.map fun e => (ρ e.1, e.2)⟩

section

variable {κ β : Type} [DecidableEq κ] (ρ : Equiv.Perm κ) (t : Table κ β) (k : κ)

theorem Table.get?_rename : (t.rename ρ).get? (ρ k) = t.get? k := by
  obtain ⟨entries⟩ := t
  show lookup (ρ k) (entries.map _) = lookup k entries
  induction entries with
  | nil => rfl
  | cons e rest ih => simp [lookup, ih]

theorem Table.rename_insert (v : β) : (t.insert k v).rename ρ = (t.rename ρ).insert (ρ k) v := by
  obtain ⟨entries⟩ := t
  refine congrArg Table.mk ?_
  show (write k v entries).map _ = write (ρ k) v (entries.map _)
  induction entries with
  | nil => rfl
  | cons e rest ih =>
    by_cases he : e.1 = k
    · simp [write, he]
    · simp [write, he, ih]

end

namespace Scopes

/-- The variables of the scope `s` get other names. -/
def rename (ss : Scopes) (s : Nat) (ρ : Equiv.Perm String) : Scopes :=
  ⟨ss.cells.modify s fun scope => { scope with vars := scope.vars.rename ρ }⟩

variable (ss : Scopes) {s t : Nat} (ρ : Equiv.Perm String) (x : String) (v : Value)

theorem ext_cells {ss ss' : Scopes} (h : ∀ t : Nat, ss.cells[t]? = ss'.cells[t]?) : ss = ss' := by
  obtain ⟨cells⟩ := ss
  obtain ⟨cells'⟩ := ss'
  exact congrArg Scopes.mk (Array.ext_getElem? fun t => h t)

@[simp] theorem next_rename : (ss.rename s ρ).next = ss.next := by simp [next, rename]

@[simp] theorem parent?_rename : (ss.rename s ρ).parent? t = ss.parent? t := by
  simp only [parent?, rename, Array.getElem?_modify]
  split
  · next h =>
    subst h
    cases ss.cells[s]? <;> rfl
  · rfl

theorem here?_rename_self : (ss.rename s ρ).here? s (ρ x) = ss.here? s x := by
  simp only [here?, rename, Array.getElem?_modify, if_true]
  cases ss.cells[s]? with
  | none => rfl
  | some scope => exact scope.vars.get?_rename ρ x

theorem here?_rename_of_ne (h : s ≠ t) : (ss.rename s ρ).here? t x = ss.here? t x := by
  simp only [here?, rename, Array.getElem?_modify, if_neg h]

theorem rename_addChild (h : s < ss.next) (p : Nat) :
    (ss.addChild p).rename s ρ = (ss.rename s ρ).addChild p := by
  refine ext_cells fun t => ?_
  have h : s ≠ ss.cells.size := Nat.ne_of_lt h
  simp only [rename, addChild, Array.getElem?_modify, Array.getElem?_push, Array.size_modify]
  by_cases hs : s = t
  · subst hs
    simp [h]
  · simp [hs]

theorem rename_define_self :
    (ss.define s x v).rename s ρ = (ss.rename s ρ).define s (ρ x) v := by
  refine ext_cells fun t => ?_
  simp only [rename, define, Array.getElem?_modify]
  by_cases hs : s = t
  · subst hs
    simp [Table.rename_insert, Function.comp_def]
  · simp [hs]

theorem rename_define_of_ne (h : s ≠ t) :
    (ss.define t x v).rename s ρ = (ss.rename s ρ).define t x v := by
  refine ext_cells fun u => ?_
  simp only [rename, define, Array.getElem?_modify]
  by_cases hs : s = u
  · subst hs
    simp [h.symm]
  · simp [hs]

/-- A scope that has just been made has no names. -/
theorem rename_next (p : Nat) : (ss.addChild p).rename ss.next ρ = ss.addChild p := by
  refine ext_cells fun t => ?_
  simp only [rename, addChild, next, Array.getElem?_modify]
  split
  · next h =>
    subst h
    simp [Table.rename, EmptyCollection.emptyCollection, Table.empty]
  · rfl

end Scopes

/-! ### The scope of a call -/

/-- The scope of a call, which has the parameters `names` and is inside one of the scopes `Old` that
were there before. -/
structure CallScope where
  scope : Nat
  parent : Nat
  names : List String
  Old : Nat → Prop
  old_lt : ∀ t, Old t → t < scope
  old_parent : Old parent

/-- What a reference is if the parameters of the call that it is run in have other names. -/
inductive Ref.Refers (names : List String) (ρ : Equiv.Perm String) (B : Bindings) :
    Ref → Ref → Prop where
  | param {ref ref' : Ref} (hid : ref'.id = ref.id) (hd : B[ref.id]? = some 0)
      (hx : ref.name.lexeme ∈ names) (hn : ref'.name.lexeme = ρ ref.name.lexeme) :
      Refers names ρ B ref ref'
  | other {ref : Ref} (hd : B[ref.id]? ≠ some 0) : Refers names ρ B ref ref

theorem Ref.Refers.symm {names : List String} {ρ : Equiv.Perm String} {B : Bindings}
    {ref ref' : Ref} (h : Ref.Refers names ρ B ref ref') : Ref.Refers (names.map ρ) ρ.symm B ref' ref := by
  cases h with
  | param hid hd hx hn =>
    refine .param hid.symm (hid ▸ hd) (hn ▸ List.mem_map_of_mem hx) ?_
    rw [hn, Equiv.symm_apply_apply]
  | other hd => exact .other hd

namespace CallScope

variable (C : CallScope) (ρ : Equiv.Perm String)

theorem ne {t : Nat} (h : C.scope < t ∨ C.Old t) : C.scope ≠ t := by
  rcases h with h | h
  · omega
  · have := C.old_lt t h
    omega

/-- Other names for the variables of the call. -/
def mask : Mask where
  Clear t := C.scope < t ∨ C.Old t
  Over ss := C.scope < ss.next ∧ ss.parent? C.scope = some C.parent ∧
    ∀ x ∈ C.names, (ss.here? C.scope x).isSome
  change ss := ss.rename C.scope ρ
  over_addChild s h := by
    obtain ⟨hlt, hp, hn⟩ := h
    refine ⟨by simp; omega, ?_, fun x hx => ?_⟩
    · rw [Scopes.parent?_addChild, if_neg (Nat.ne_of_lt hlt), hp]
    · rw [Scopes.here?_addChild]
      exact hn x hx
  over_define s x v h := by
    obtain ⟨hlt, hp, hn⟩ := h
    exact ⟨by simpa using hlt, by simpa using hp,
      fun y hy => Scopes.isSome_here?_define (hn y hy)⟩
  clear_next h := .inl h.1
  next ss := by simp
  parent? ss t := by simp
  here? ss t x h := ss.here?_rename_of_ne ρ x (C.ne h)
  addChild s h := Scopes.rename_addChild _ ρ h.1 s
  define ss t x v h := ss.rename_define_of_ne ρ x v (C.ne h)

variable {C ρ} {m : Machine} {ref ref' : Ref}

theorem clear_parent : (C.mask ρ).Clear C.parent := .inr C.old_parent

theorem getAt?_zero (hm : (C.mask ρ).Fits m.heap) {x : String} (hx : x ∈ C.names) :
    ∃ v, m.heap.scopes.getAt? C.scope 0 x = some v ∧
      ((C.mask ρ).change m.heap.scopes).getAt? C.scope 0 (ρ x) = some v ∧ (C.mask ρ).Passes v := by
  obtain ⟨v, hv⟩ := Option.isSome_iff_exists.1 (hm.laid.2.2 x hx)
  exact ⟨v, hv, (Scopes.here?_rename_self _ ρ x).trans hv, hm.vars hv⟩

theorem ancestor?_succ (hm : (C.mask ρ).Fits m.heap) (d : Nat) :
    m.heap.scopes.ancestor? C.scope (d + 1) = m.heap.scopes.ancestor? C.parent d := by
  rw [Scopes.ancestor?, hm.laid.2.1]

theorem getAt?_succ (hm : (C.mask ρ).Fits m.heap) (d : Nat) (x : String) :
    ((C.mask ρ).change m.heap.scopes).getAt? C.scope (d + 1) x =
      m.heap.scopes.getAt? C.scope (d + 1) x := by
  have h := hm.getAt? (s := C.parent) clear_parent d x
  rw [Scopes.getAt?, Scopes.getAt?, Mask.ancestor?] at h ⊢
  rw [ancestor?_succ hm]
  exact h

theorem clear_root (hm : (C.mask ρ).Fits m.heap) :
    (C.mask ρ).Clear (m.heap.scopes.root C.scope) := by
  have hlt := C.old_lt _ C.old_parent
  have hstep : ∀ n, 0 < n → m.heap.scopes.rootWithin n C.scope =
      m.heap.scopes.rootWithin (n - 1) C.parent := by
    rintro (_ | n) hn
    · omega
    · rw [Scopes.rootWithin, hm.laid.2.1]
      rfl
  rw [Scopes.root, hstep _ (by omega)]
  exact hm.rootWithin clear_parent _

theorem value?_other (hm : (C.mask ρ).Fits m.heap) (hs : m.scope = C.scope)
    (hd : m.bindings[ref.id]? ≠ some 0) : ((C.mask ρ).on m).value? ref = m.value? ref := by
  rw [Machine.value?, Machine.value?, Mask.on_bindings, Mask.on_scope, Mask.on_scopes, hs,
    Mask.root]
  cases h : m.bindings[ref.id]? with
  | none => exact hm.get? (clear_root hm) _
  | some d =>
    cases d with
    | zero => exact absurd h hd
    | succ d => exact getAt?_succ hm d _

theorem target?_other (hm : (C.mask ρ).Fits m.heap) (hs : m.scope = C.scope)
    (hd : m.bindings[ref.id]? ≠ some 0) :
    Eval.target? ((C.mask ρ).on m) ref = Eval.target? m ref ∧
      ∀ t, Eval.target? m ref = some t → (C.mask ρ).Clear t := by
  rw [Eval.target?, Eval.target?, Mask.on_bindings, Mask.on_scope, Mask.on_scopes, hs, Mask.root]
  cases h : m.bindings[ref.id]? with
  | none => exact hm.holder (clear_root hm) _
  | some d =>
    cases d with
    | zero => exact absurd h hd
    | succ d =>
      refine ⟨Mask.ancestor? _ _ _, fun t ht => ?_⟩
      have ht : m.heap.scopes.ancestor? C.scope (d + 1) = some t := ht
      rw [ancestor?_succ hm] at ht
      exact hm.ancestor clear_parent ht

theorem lookUp_param (hm : (C.mask ρ).Fits m.heap) (hs : m.scope = C.scope)
    (hid : ref'.id = ref.id) (hd : m.bindings[ref.id]? = some 0) (hx : ref.name.lexeme ∈ C.names)
    (hn : ref'.name.lexeme = ρ ref.name.lexeme) :
    Unseen (C.mask ρ) m (Eval.lookUp ref) (Eval.lookUp ref') (C.mask ρ).Passes := by
  obtain ⟨v, hv, hv', hpass⟩ := getAt?_zero hm hx
  have hrun : Eval.lookUp ref m = .ok v m := by
    rw [Eval.lookUp_eq, Machine.value?, hd, hs]
    dsimp only
    rw [hv]
    rfl
  refine .step hrun ?_ (.refl hm) hpass
  rw [Eval.lookUp_eq, Machine.value?, Mask.on_bindings, hid, hd, Mask.on_scope, hs, hn]
  dsimp only
  rw [Mask.on_scopes, hv']
  rfl

/-- To set a variable of the call under its other name. -/
theorem define_on (x : String) (v : Value) :
    Eval.define C.scope (ρ x) v ((C.mask ρ).on m) =
      .ok () ((C.mask ρ).on { m with heap.scopes := m.heap.scopes.define C.scope x v }) := by
  have hok : ∀ ss ss' : Scopes, ss = ss' →
      (.ok () { m with heap.scopes := ss } : EStateM.Result Stop Machine Unit) =
        .ok () { m with heap.scopes := ss' } := by
    rintro ss _ rfl
    rfl
  exact hok _ _ (Scopes.rename_define_self m.heap.scopes ρ x v).symm

theorem assign_param (hm : (C.mask ρ).Fits m.heap) (hs : m.scope = C.scope)
    (hid : ref'.id = ref.id) (hd : m.bindings[ref.id]? = some 0)
    (hn : ref'.name.lexeme = ρ ref.name.lexeme) {v : Value} (hv : (C.mask ρ).Passes v) :
    Unseen (C.mask ρ) m (Eval.assign ref v) (Eval.assign ref' v) fun _ => True := by
  have hassign : ∀ {m : Machine} {ref : Ref}, m.scope = C.scope → m.bindings[ref.id]? = some 0 →
      Eval.assign ref v m = Eval.define C.scope ref.name.lexeme v m := by
    intro m ref hs hd
    rw [Eval.assign, Eval.get_bind, Eval.target?, hd, hs]
    rfl
  refine .step (hassign hs hd) ?_ ⟨hm.define C.scope ref.name.lexeme hv, rfl, rfl⟩ trivial
  have hd' : ((C.mask ρ).on m).bindings[ref'.id]? = some 0 := hid ▸ hd
  have hdefine : Eval.define C.scope (ρ ref.name.lexeme) v ((C.mask ρ).on m) = _ :=
    define_on ref.name.lexeme v
  rw [← hn] at hdefine
  exact (hassign (m := (C.mask ρ).on m) hs hd').trans hdefine

/-- Expressions that are run in the scope of the call. -/
def outlook (hthis : ρ "this" = "this") (B : Bindings) : Outlook (C.mask ρ) where
  At m := m.scope = C.scope ∧ m.bindings = B
  Refers := Ref.Refers C.names ρ B
  keeps hk hm := ⟨hk.scope.trans hm.1, hk.bindings.trans hm.2⟩
  lookUp hm hat hr := by
    obtain ⟨hs, rfl⟩ := hat
    cases hr with
    | param hid hd hx hn => exact lookUp_param hm hs hid hd hx hn
    | other hd => exact .lookUp_of hm (value?_other hm hs hd)
  assign hm hat hr hv := by
    obtain ⟨hs, rfl⟩ := hat
    cases hr with
    | param hid hd hx hn => exact assign_param hm hs hid hd hn hv
    | other hd =>
      obtain ⟨htarget, hclear⟩ := target?_other hm hs hd
      exact .assign_of hm htarget hclear hv
  superMethod {m ref} hm hat _ name := by
    obtain ⟨hs, rfl⟩ := hat
    refine .superMethod_of hm ref name (fun d _ => ?_) fun d _ => ?_
    · rw [hs]
      exact getAt?_succ hm d _
    · rw [hs]
      cases d with
      | zero =>
        have hself := Scopes.here?_rename_self m.heap.scopes ρ "this" (s := C.scope)
        rwa [hthis] at hself
      | succ d => exact getAt?_succ hm d _

/-- The parameters get their values, under the one name or the other. -/
theorem defineAll (hm : (C.mask ρ).Fits m.heap) {names names' : List Token} {vs : List Value}
    (hnames : names'.map (·.lexeme) = names.map fun t => ρ t.lexeme)
    (hlen : vs.length = names.length) (hvs : ∀ v ∈ vs, (C.mask ρ).Passes v) :
    ∃ m', Eval.defineAll C.scope names vs m = .ok () m' ∧
      Eval.defineAll C.scope names' vs ((C.mask ρ).on m) = .ok () ((C.mask ρ).on m') ∧
      (C.mask ρ).Keeps m m' ∧
      (∀ x, (m.heap.scopes.here? C.scope x).isSome → (m'.heap.scopes.here? C.scope x).isSome) ∧
      ∀ t ∈ names, (m'.heap.scopes.here? C.scope t.lexeme).isSome := by
  induction names generalizing m names' vs with
  | nil =>
    obtain rfl := List.map_eq_nil_iff.1 hnames
    obtain rfl := List.length_eq_zero_iff.1 hlen
    exact ⟨m, rfl, rfl, .refl hm, fun _ h => h, fun _ h => absurd h List.not_mem_nil⟩
  | cons t names ih =>
    obtain ⟨t', names', rfl, ht, hnames⟩ := List.map_eq_cons_iff.1 hnames
    obtain ⟨v, vs, rfl⟩ := List.exists_cons_of_length_eq_add_one hlen
    obtain ⟨hv, hvs⟩ := List.forall_mem_cons.1 hvs
    have hlt := hm.laid.1
    have hm₁ := hm.define C.scope t.lexeme hv
    obtain ⟨m', hrun, hrun', hk, hkept, hset⟩ := ih
      (m := { m with heap.scopes := m.heap.scopes.define C.scope t.lexeme v }) hm₁ hnames
      (Nat.succ.inj hlen) hvs
    refine ⟨m', hrun, ?_, ⟨hk.fits, hk.scope, hk.bindings⟩, fun x hx => ?_, fun u hu => ?_⟩
    · rw [Eval.defineAll, ht, bind_of_ok (define_on t.lexeme v)]
      exact hrun'
    · exact hkept x (Scopes.isSome_here?_define hx)
    · rcases List.mem_cons.1 hu with rfl | hu
      · exact hkept _ (Scopes.isSome_here?_define_self hlt)
      · exact hset u hu

end CallScope

/-! ### Calls -/

/-- Two statements that run expressions which differ in their references only, as `R` says. -/
def Stmt.Like (R : Ref → Ref → Prop) (s s' : Stmt) : Prop :=
  ∃ e e', s = .expr e ∧ s' = .expr e' ∧ Expr.Like R e e'

theorem Stmt.Like.symm {names : List String} {ρ : Equiv.Perm String} {B : Bindings} {s s' : Stmt}
    (h : Stmt.Like (Ref.Refers names ρ B) s s') :
    Stmt.Like (Ref.Refers (names.map ρ) ρ.symm B) s' s := by
  obtain ⟨e, e', rfl, rfl, he⟩ := h
  exact ⟨e', e, rfl, rfl, he.symm.imp fun _ _ _ _ hr => Ref.Refers.symm hr⟩

theorem Unseen.execAll_like {M : Mask} {m : Machine} (O : Outlook M) {ss ss' : List Stmt}
    (hss : List.Forall₂ (Stmt.Like O.Refers) ss ss') (n : Nat) (hm : M.Fits m.heap)
    (hO : O.At m) :
    Unseen M m (Eval.execAll n ss) (Eval.execAll n ss') fun flow => flow = .normal := by
  induction hss generalizing n m with
  | nil =>
    cases n with
    | zero => exact .exhausted
    | succ n =>
      rw [Eval.execAll]
      exact .pure hm rfl
  | cons hs _ ih =>
    obtain ⟨e, e', rfl, rfl, he⟩ := hs
    have hexpr : ∀ n, Unseen M m (Eval.exec n (.expr e)) (Eval.exec n (.expr e'))
        fun flow => flow = .normal := by
      intro n
      cases n with
      | zero => exact .exhausted
      | succ n =>
        rw [Eval.exec, Eval.exec]
        exact ((runUnseen M (Nat.le_refl n)).eval O hm hO he).bind
          fun _ m₁ hk _ => .pure hk.fits rfl
    cases n with
    | zero => exact .exhausted
    | succ n =>
      rw [Eval.execAll, Eval.execAll]
      refine (hexpr n).bind fun flow m₁ hk hflow => ?_
      subst hflow
      exact ih n hk.fits (O.keeps hk hO)

/-- The scope of a closure that the store holds stands in a chain. -/
theorem AlignedStore.held_chain {h : Heap} {L : List Event} (hs : AlignedStore h L) {f : Closure}
    (hf : h.Holds f) : ∃ g σ, Chain h.scopes L g f.scope σ := by
  have hok : f.Aligned h.scopes L → ∃ g σ, Chain h.scopes L g f.scope σ := by
    rintro ⟨g, body, σ, hat⟩
    exact ⟨g, σ, hat.chain⟩
  have hmethod : f.IsMethod h.scopes L → ∃ g σ, Chain h.scopes L g f.scope σ := by
    rintro ⟨g, body, σ, -, -, hc⟩
    exact ⟨g, σ, hc⟩
  cases hf with
  | var hv => exact hok (hs.vars _ _ _ hv)
  | field hi hv => exact hok (hs.fields _ _ _ _ hi hv)
  | method hk hf => exact hmethod ((hs.classes _ _ hk).methods _ f hf)
  | init hk hf => exact hmethod ((hs.classes _ _ hk).fields f hf).1
  | staticMethod hk hf => exact hok ((hs.classes _ _ hk).staticMethods _ f hf)
  | static hk hv => exact hok ((hs.classes _ _ hk).statics _ _ hv)

/-- The scope of a call that is made next. -/
def CallScope.ofNext (ss : Scopes) (L : List Event) (names : List String) {g p : Nat}
    {σ : List Layer} (hp : Chain ss L g p σ) : CallScope where
  scope := ss.next
  parent := p
  names := names
  Old t := ∃ g σ, Chain ss L g t σ
  old_lt t h := by
    obtain ⟨_, _, hc⟩ := h
    exact hc.lt
  old_parent := ⟨g, σ, hp⟩

section

variable {m : Machine} {L : List Event} {g p : Nat} {σ : List Layer} {ρ : Equiv.Perm String}

theorem CallScope.fits_ofNext (hs : AlignedStore m.heap L) (hp : Chain m.heap.scopes L g p σ) :
    ((CallScope.ofNext m.heap.scopes L [] hp).mask ρ).Fits
      { m.heap with scopes := m.heap.scopes.addChild p } := by
  refine ⟨⟨?_, ?_, fun x hx => absurd hx List.not_mem_nil⟩, fun {t q} ht hq => ?_, fun {f} hf => ?_⟩
  · show m.heap.scopes.next < (m.heap.scopes.addChild p).next
    simp
  · show (m.heap.scopes.addChild p).parent? m.heap.scopes.next = some p
    rw [Scopes.parent?_addChild, if_pos rfl]
  · have hq : (m.heap.scopes.addChild p).parent? t = some q := hq
    rw [Scopes.parent?_addChild] at hq
    rcases ht with ht | ⟨g', σ', hc⟩
    · have ht : m.heap.scopes.next < t := ht
      have hnone : m.heap.scopes.parent? t = none := by
        rw [Scopes.parent?, Array.getElem?_eq_none (Nat.le_of_lt ht)]
        rfl
      rw [if_neg (by omega), hnone] at hq
      cases hq
    · rw [if_neg (Nat.ne_of_lt hc.lt)] at hq
      cases hc with
      | root hnone =>
        rw [hnone] at hq
        cases hq
      | layer _ hparent _ _ _ hc =>
        obtain rfl := Option.some.inj (hparent.symm.trans hq)
        exact .inr ⟨_, _, hc⟩
  · refine .inr (hs.held_chain ?_)
    cases hf with
    | var hv => exact .var ((Scopes.here?_addChild ..).symm.trans hv)
    | field hi hv => exact .field hi hv
    | method hk hf => exact .method hk hf
    | init hk hf => exact .init hk hf
    | staticMethod hk hf => exact .staticMethod hk hf
    | static hk hv => exact .static hk hv

/-- What a call does in its scope `s` when the parameters have their values. -/
def Eval.runBody (n : Nat) (f : Closure) (s : Nat) : Eval Value := do
  let flow ← inScope s (execAll n f.decl.body)
  if f.isInit then return ((← get).heap.scopes.here? f.scope "this").getD .nil
  else
    match flow with
    | .ret v => return v
    | _ => return .nil

theorem Eval.apply_eq_runBody {n : Nat} {f : Closure} {args : List Value} {m' : Machine}
    (h : defineAll m.heap.scopes.next f.decl.params args
      { m with heap.scopes := m.heap.scopes.addChild f.scope } = .ok () m') :
    apply (n + 1) f args m = runBody n f m.heap.scopes.next m' := by
  rw [apply]
  exact bind_of_ok h

theorem Unseen.runBody {M : Mask} (O : Outlook M) {f : Closure} {decl : FunctionDecl} {s : Nat}
    (hbody : List.Forall₂ (Stmt.Like O.Refers) f.decl.body decl.body) (hm : M.Fits m.heap)
    (hO : O.At { m with scope := s }) (hf : M.Clear f.scope) (n : Nat) :
    Unseen M m (Eval.runBody n f s) (Eval.runBody n { f with decl } s) fun _ => True := by
  have hexec : Unseen M m (Eval.inScope s (Eval.execAll n f.decl.body))
      (Eval.inScope s (Eval.execAll n decl.body)) fun flow => flow = .normal :=
    .inScope (.execAll_like O hbody n hm hO)
  refine hexec.bind fun flow m₁ hk hflow => .ite (.get ?_) ?_
  · rw [M.on_scopes, M.here? _ _ hf]
    exact .pure hk.fits trivial
  · subst hflow
    exact .pure hk.fits trivial

/-- The machine with other names for the variables of the scope `s`. -/
def Machine.rename (m : Machine) (s : Nat) (ρ : Equiv.Perm String) : Machine :=
  { m with heap.scopes := m.heap.scopes.rename s ρ }

/-- The second run ends as the first, and what it leaves differs in the names in the scope `s` only.
-/
structure Eval.Renames {α : Type} (s : Nat) (ρ : Equiv.Perm String)
    (r r' : EStateM.Result Stop Machine α) : Prop where
  ok : ∀ v m, r = .ok v m → r' = .ok v (m.rename s ρ)
  fault : ∀ e m, r = .error (.fault e) m → r' = .error (.fault e) (m.rename s ρ)

theorem Eval.Renames.bind {α β : Type} {s : Nat} {p q : Eval α} {m' : Machine}
    (h : Renames s ρ (p m) (q m')) {f f' : α → Eval β}
    (hf : ∀ a m, Renames s ρ (f a m) (f' a (m.rename s ρ))) :
    Renames s ρ ((p >>= f) m) ((q >>= f') m') := by
  cases hp : p m with
  | ok a m₁ =>
    rw [bind_of_ok hp, bind_of_ok (h.ok a m₁ hp)]
    exact hf a m₁
  | error stop m₁ =>
    rw [bind_of_error hp]
    cases stop with
    | fault e =>
      rw [bind_of_error (h.fault e m₁ hp)]
      refine ⟨fun v m h => ?_, fun e m h => ?_⟩
      · cases h
      · cases h
        rfl
    | exhausted =>
      refine ⟨fun v m h => ?_, fun e m h => ?_⟩
      · cases h
      · cases h

/-- A function that only runs expressions does the same if its parameters and the references to them
have other names. -/
theorem Eval.apply_renames (hs : AlignedStore m.heap L) {f : Closure} {decl : FunctionDecl}
    (hf : Chain m.heap.scopes L g f.scope σ) {args : List Value}
    (hargs : ∀ v ∈ args, v.Aligned m.heap.scopes L) (hlen : args.length = f.decl.params.length)
    (hthis : ρ "this" = "this")
    (hnames : decl.params.map (·.lexeme) = f.decl.params.map fun t => ρ t.lexeme)
    (hbody : List.Forall₂ (Stmt.Like (Ref.Refers (f.decl.params.map (·.lexeme)) ρ m.bindings))
      f.decl.body decl.body) (n : Nat) :
    Renames m.heap.scopes.next ρ (apply n f args m) (apply n { f with decl } args m) := by
  cases n with
  | zero =>
    rw [apply]
    constructor
    · intro v m' h
      cases h
    · intro e m' h
      cases h
  | succ n =>
    let C₀ := CallScope.ofNext m.heap.scopes L [] hf
    let C := CallScope.ofNext m.heap.scopes L (f.decl.params.map (·.lexeme)) hf
    have hpass : ∀ v ∈ args, (C₀.mask ρ).Passes v := by
      rintro v hv k rfl
      obtain ⟨g', body, σ', hat⟩ := hargs _ hv
      exact .inr ⟨g', σ', hat.chain⟩
    obtain ⟨m₂, hrun, hrun', hk, -, hset⟩ := CallScope.defineAll (C := C₀)
      (m := { m with heap.scopes := m.heap.scopes.addChild f.scope })
      (CallScope.fits_ofNext hs hf) hnames hlen hpass
    -- before the parameters are set, the new scope has no names that could differ
    have hsame : (C₀.mask ρ).on { m with heap.scopes := m.heap.scopes.addChild f.scope } =
        { m with heap.scopes := m.heap.scopes.addChild f.scope } := by
      show ({ m with heap.scopes := (m.heap.scopes.addChild f.scope).rename _ ρ } : Machine) = _
      rw [show C₀.scope = m.heap.scopes.next from rfl, Scopes.rename_next]
    rw [hsame] at hrun'
    have hfits : (C.mask ρ).Fits m₂.heap := by
      refine ⟨⟨hk.fits.laid.1, hk.fits.laid.2.1, fun x hx => ?_⟩, hk.fits.parent, hk.fits.held⟩
      obtain ⟨t, ht, rfl⟩ := List.mem_map.1 hx
      exact hset t ht
    have hrest := Unseen.runBody (C.outlook hthis m.bindings) (s := m.heap.scopes.next) hbody hfits
      ⟨rfl, hk.bindings⟩ (.inr ⟨g, σ, hf⟩) n
    rw [apply_eq_runBody hrun, apply_eq_runBody (f := { f with decl }) hrun']
    exact ⟨fun v m' h => (hrest.ok h).1, fun e m' h => (hrest.fault h).1⟩

end

end Treewalk
