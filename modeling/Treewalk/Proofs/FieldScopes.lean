import Mathlib.Logic.Equiv.Basic
import Treewalk.Proofs.Agreement
import Treewalk.Proofs.Initialization
import Treewalk.Proofs.Renaming

/-!
# What names mean in field initializers

The assignments to the fields of a class are put into its first `init`, inside the scope of its
parameters. So a name in the initializer of a field that a parameter has is the parameter. Every
other name means what it does in a class without `init`, and which names the parameters have does
not matter then to what the fields are set to.
-/

namespace Treewalk

/-! ### Scopes of methods -/

section

variable {program : List Stmt} {σ : List Layer} {u : Use} {ref : Ref}

theorem Placed.uses {e : Expr} (h : Placed program (.expr e) σ) (hu : e.Uses u ref) :
    Placed program (.use u ref) σ := by
  induction hu with
  | own hu => exact h.use hu
  | part hp _ ih => exact ih (h.part hp)

/-- Expression statements declare nothing. -/
theorem Placed.lead {first rest : List Stmt} (h : Placed program (.stmts (first ++ rest)) σ)
    (hf : ∀ s ∈ first, ∃ e, s = .expr e) {e : Expr} (he : .expr e ∈ first) :
    Placed program (.expr e) σ := by
  induction first with
  | nil => cases he
  | cons s first ih =>
    obtain ⟨⟨e', rfl⟩, hrest⟩ := List.forall_mem_cons.1 hf
    rcases List.mem_cons.1 he with heq | he
    · cases heq
      exact h.head.expr (List.mem_singleton_self e)
    · exact ih h.tail hrest he

theorem Placed.distanceIn? (hids : (Stmt.idsAll program).Nodup) (hok : Accepted program)
    (h : Placed program (.use u ref) σ) :
    distanceIn? program ref.id = Layer.distance? ref.name.lexeme σ :=
  Option.ext fun d => (distanceIn?_eq_some_iff hids).trans (h.recorded_iff hids hok d)

end

namespace Layer

variable (x : String) (f f' : FunctionDecl) (σ τ : List Layer)

/-- In a method a name is a parameter, `this`, or what it is around the method. -/
theorem distance?_method : distance? x (.call f :: .this f' :: σ) =
    if x ∈ f.params.map (·.lexeme) then some 0
    else if x = "this" then some 1 else (distance? x σ).map (· + 2) := by
  have hcall : (Layer.call f).Declares x ↔ x ∈ f.params.map (·.lexeme) := by
    simp [Declares, Layer.call]
  have hthis : (Layer.this f').Declares x ↔ x = "this" := by simp [Declares, Layer.this]
  simp only [distance?, List.findIdx?_cons, decide_eq_true_eq, hcall, hthis]
  split
  · rfl
  · split
    · rfl
    · simp [Function.comp_def]

theorem distance?_method_eq_zero :
    distance? x (.call f :: .this f' :: σ) = some 0 ↔ x ∈ f.params.map (·.lexeme) := by
  rw [distance?_method]
  split
  · next h => simp [h]
  · next h => split <;> simp [h]

variable {σ τ}

/-- Where no variable waits for its initializer, only the names count. -/
theorem distance?_congr (hσ : Settled σ) (hτ : Settled τ)
    (h : τ.map (·.names) = σ.map (·.names)) : distance? x τ = distance? x σ := by
  induction σ generalizing τ with
  | nil =>
    obtain rfl := List.map_eq_nil_iff.1 h
    rfl
  | cons l σ ih =>
    obtain ⟨l', τ, rfl, hl, h⟩ := List.map_eq_cons_iff.1 h
    obtain ⟨hlσ, hσ⟩ := List.forall_mem_cons.1 hσ
    obtain ⟨hlτ, hτ⟩ := List.forall_mem_cons.1 hτ
    have hdec : l'.Declares x ↔ l.Declares x := by simp only [Declares, hlσ, hlτ, hl]
    have ih := ih hσ hτ h
    rw [distance?, distance?] at ih ⊢
    simp only [List.findIdx?_cons, hdec, ih]

end Layer

/-! ### The `init` that sets the fields -/

namespace FunctionDecl

/-- The `init` with the assignments `ss` to the fields of its class. -/
def setting (f : FunctionDecl) (derived : Bool) (ss : List Stmt) : FunctionDecl :=
  { f with body := ClassDecl.spliceInto derived ss f.body }

/-- What it does until the fields are set. -/
def opening (f : FunctionDecl) (derived : Bool) (ss : List Stmt) : FunctionDecl :=
  { f with body := f.body.take derived.toNat ++ ss }

theorem body_setting (f : FunctionDecl) (derived : Bool) (ss : List Stmt) :
    (f.setting derived ss).body = (f.opening derived ss).body ++ f.body.drop derived.toNat := by
  cases derived <;> simp [setting, opening, ClassDecl.spliceInto]

end FunctionDecl

namespace Members

/-- The `init` that sets the fields. -/
def init? (ms : Members) : Option FunctionDecl := ms.methods.reverse.find? FunctionDecl.isInit

/-- The names in whose scope the initializers of the fields are. -/
def initParams (ms : Members) : List String := ms.init?.elim [] (·.params.map (·.lexeme))

/-- The initializer of a field uses the reference. -/
def FieldUses (ms : Members) (u : Use) (ref : Ref) : Prop :=
  ∃ field ∈ ms.fields, ∃ e, field.init = some e ∧ e.Uses u ref

end Members

theorem FieldDecl.assigned_of_mem {fields : List FieldDecl} {ss : List Stmt} {s : Stmt}
    (h : List.Forall₂ FieldDecl.Assigned fields ss) (hs : s ∈ ss) :
    ∃ field ∈ fields, field.Assigned s := by
  induction h with
  | nil => cases hs
  | @cons field _ _ _ ha _ ih =>
    rcases List.mem_cons.1 hs with rfl | hs
    · exact ⟨field, List.mem_cons_self, ha⟩
    · obtain ⟨field', hf, ha⟩ := ih hs
      exact ⟨field', List.mem_cons_of_mem _ hf, ha⟩

theorem FieldDecl.Assigned.expr {field : FieldDecl} {s : Stmt} (h : field.Assigned s) :
    ∃ e, s = .expr e := by
  obtain ⟨this, -, hs⟩ := h
  exact ⟨_, hs⟩

/-- An assignment to a field uses `this` and what the initializer of the field does. -/
theorem FieldDecl.Assigned.uses {field : FieldDecl} {e : Expr} (h : field.Assigned (.expr e))
    {u : Use} {ref : Ref} (hu : e.Uses u ref) :
    ref.name.lexeme = "this" ∨ ∃ e, field.init = some e ∧ e.Uses u ref := by
  obtain ⟨this, hthis, he⟩ := h
  cases he
  cases hu with
  | own hu => cases hu
  | part hp hu =>
    rcases List.mem_cons.1 hp with rfl | hp
    · cases hu with
      | own hu =>
        cases List.mem_singleton.1 hu
        exact .inl (congrArg Token.lexeme hthis)
      | part hp => cases hp
    · cases List.mem_singleton.1 hp
      cases hi : field.init with
      | some e =>
        rw [hi] at hu
        exact .inr ⟨e, rfl, hu⟩
      | none =>
        rw [hi] at hu
        cases hu with
        | own hu => cases hu
        | part hp => cases hp

/-- A class with the members `ms` stands inside the scopes `σ` in a program that was read from a
text without faults and whose names can be bound. -/
structure ClassDecl.DeclaredIn (decl : ClassDecl) (ms : Members) (program : List Stmt)
    (σ : List Layer) : Prop where
  read : ∃ file text firstId ds, (Source.read file text firstId ds).1.body = program ∧
    (Source.read file text firstId ds).1.faults = [] ∧ decl.ReadAs (scan file text).tokens True ms
  accepted : Accepted program
  placed : Placed program (.stmt (.cls decl)) σ

/-- The assignments `ss` set the fields in the `init` that was declared as `g`. -/
structure ClassDecl.SetsIn (decl : ClassDecl) (ms : Members) (g : FunctionDecl) (ss : List Stmt) :
    Prop where
  assigned : List.Forall₂ FieldDecl.Assigned ms.fields.reverse ss
  init : decl.methods.find? FunctionDecl.isInit = some (g.setting decl.superclass.isSome ss)
  lead : ∀ s ∈ g.body.take decl.superclass.isSome.toNat, ∃ e, s = .expr e

namespace ClassDecl.DeclaredIn

variable {decl : ClassDecl} {ms : Members} {program : List Stmt} {σ : List Layer} {u : Use}
  {ref : Ref} {g : FunctionDecl} {ss : List Stmt}

/-- Every class of a text that is accepted has such members. -/
theorem of_placed {file : Option String} {text : String} {firstId : Nat} {ds : Diagnostics}
    (hread : (Source.read file text firstId ds).1.faults = [])
    (hok : Accepted (Source.read file text firstId ds).1.body)
    (hp : Placed (Source.read file text firstId ds).1.body (.stmt (.cls decl)) σ) :
    ∃ ms, decl.DeclaredIn ms (Source.read file text firstId ds).1.body σ := by
  have hw := Source.read_written file text firstId ds True fun _ => hread
  obtain ⟨ms, hms⟩ := (hw _ (hp.contains (by simp))).2 decl rfl
  exact ⟨ms, ⟨file, text, firstId, ds, rfl, hread, hms⟩, hok, hp⟩

theorem fresh (h : decl.DeclaredIn ms program σ) :
    Stmt.TidyAll program ∧ (Stmt.idsAll program).Nodup := by
  obtain ⟨file, text, firstId, ds, rfl, -⟩ := h.read
  obtain ⟨-, htidy, hids⟩ := Source.read_fresh file text firstId ds
  exact ⟨htidy, hids.1⟩

theorem settled (h : decl.DeclaredIn ms program σ) : Layer.Settled (decl.around σ) :=
  decl.settled_around h.placed.settled

theorem setsIn (h : decl.DeclaredIn ms program σ) (hg : ms.init? = some g) :
    ∃ ss, decl.SetsIn ms g ss := by
  obtain ⟨file, text, firstId, ds, -, -, hread⟩ := h.read
  obtain ⟨ss, hss, hmethods, -⟩ := hread.parts
  have hg : ms.methods.reverse.find? FunctionDecl.isInit = some g := hg
  refine ⟨ss, hss, ?_, ?_⟩
  · rw [hmethods, find?_spliceFirst, hg]
    rfl
  · cases hsup : decl.superclass.isSome with
    | false => simp
    | true =>
      obtain ⟨ref, method, paren, args, rest, hbody, -⟩ := hread.inherited hsup hg
      simp [hbody]

/-- What an `init` does until the fields are set is inside of the scope of its parameters. -/
theorem opening_placed (h : decl.DeclaredIn ms program σ) (hs : decl.SetsIn ms g ss) {e : Expr}
    (he : .expr e ∈ (g.opening decl.superclass.isSome ss).body) :
    Placed program (.expr e) (.call (g.setting decl.superclass.isSome ss) ::
      .this (g.setting decl.superclass.isSome ss) :: decl.around σ) := by
  have hmem := List.mem_of_find?_eq_some hs.init
  have hbody := (h.placed.method (List.mem_append_left _ hmem)).inside.body
  rw [FunctionDecl.body_setting] at hbody
  refine hbody.lead (fun s hmem => ?_) he
  rcases List.mem_append.1 hmem with hmem | hmem
  · exact hs.lead s hmem
  · obtain ⟨field, -, hassigned⟩ := FieldDecl.assigned_of_mem hs.assigned hmem
    exact hassigned.expr

/-- Without an `init`, what sets the fields stands apart. -/
theorem fields_placed (h : decl.DeclaredIn ms program σ) (hg : ms.init? = none)
    (hne : ms.fields ≠ []) :
    ∃ f, f.params = [] ∧ List.Forall₂ FieldDecl.Assigned ms.fields.reverse f.body ∧
      Placed program (.stmts f.body) (.call f :: .this f :: decl.around σ) := by
  obtain ⟨file, text, firstId, ds, -, -, hread⟩ := h.read
  obtain ⟨ss, -, hmethods, -⟩ := hread.parts
  have hg : ms.methods.reverse.find? FunctionDecl.isInit = none := hg
  have hnone : decl.methods.find? FunctionDecl.isInit = none := by
    rw [hmethods, find?_spliceFirst, hg]
    rfl
  obtain ⟨f, hf, hss⟩ := hread.fields_body (List.find?_eq_none.2 fun m hm =>
    List.find?_eq_none.1 hnone m (List.mem_reverse.1 hm)) hne
  have htidy : decl.Tidy := h.placed.tidy h.fresh.1
  have hmem : f ∈ decl.ofInstances := List.mem_append_right _ (Option.mem_toList.2 hf)
  exact ⟨f, ((ClassDecl.tidy_iff.1 htidy).2.2.2.1 f hf).2, hss, (h.placed.method hmem).inside.body⟩

/-- The initializers of fields are inside of a method that has these parameters. -/
theorem fieldUses_placed (h : decl.DeclaredIn ms program σ) (hu : ms.FieldUses u ref) :
    ∃ f, f.params.map (·.lexeme) = ms.initParams ∧
      Placed program (.use u ref) (.call f :: .this f :: decl.around σ) := by
  obtain ⟨field, hf, e, he, hu⟩ := hu
  have hvalue : ∀ {this : Ref} {τ}, Placed program (.expr (.set (.this this) field.name none
      (field.init.getD (.literal .nil)))) τ → Placed program (.use u ref) τ := by
    intro this τ hp
    rw [he] at hp
    exact (hp.part (by simp [Expr.parts])).uses hu
  cases hg : ms.init? with
  | some g =>
    obtain ⟨ss, hs⟩ := h.setsIn hg
    obtain ⟨before, s, after, rfl, ⟨this, -, rfl⟩, -⟩ :=
      FieldDecl.exists_assigned hs.assigned (List.mem_reverse.2 hf)
    have hp := h.opening_placed hs
      (List.mem_append_right _ (List.mem_append_right _ List.mem_cons_self))
    refine ⟨_, ?_, hvalue hp⟩
    rw [Members.initParams, hg]
    rfl
  | none =>
    obtain ⟨f, hparams, hss, hbody⟩ := h.fields_placed hg (List.ne_nil_of_mem hf)
    obtain ⟨before, s, after, heq, ⟨this, -, rfl⟩, -⟩ :=
      FieldDecl.exists_assigned hss (List.mem_reverse.2 hf)
    rw [← List.append_nil f.body] at hbody
    refine ⟨f, ?_, hvalue (hbody.lead (fun s hs => ?_)
      (heq ▸ List.mem_append_right _ List.mem_cons_self))⟩
    · rw [hparams, Members.initParams, hg]
      rfl
    · obtain ⟨field', -, hassigned⟩ := FieldDecl.assigned_of_mem hss hs
      exact hassigned.expr

theorem distance_field (h : decl.DeclaredIn ms program σ) (hu : ms.FieldUses u ref) :
    distanceIn? program ref.id =
      if ref.name.lexeme ∈ ms.initParams then some 0
      else if ref.name.lexeme = "this" then some 1
      else (Layer.distance? ref.name.lexeme (decl.around σ)).map (· + 2) := by
  obtain ⟨f, hparams, hp⟩ := h.fieldUses_placed hu
  rw [hp.distanceIn? h.fresh.2 h.accepted, Layer.distance?_method, hparams]

end ClassDecl.DeclaredIn

/-! ### Other names for the parameters -/

/-- Makes an instance of the class `c` by a method `f` that is declared as `decl`. -/
def Eval.constructBy (n c : Nat) (f : Closure) (args : List Value) (decl : FunctionDecl) :
    Eval Value :=
  construct n c [⟨{ f with decl }, args⟩]

theorem Eval.constructBy_eq (n c : Nat) (f : Closure) (args : List Value) (decl : FunctionDecl) :
    constructBy n c f args decl = do
      let i ← newInstance c
      let f ← bindThis { f with decl } i
      let _ ← apply n f args
      return .inst i := by
  simp [constructBy, construct, prepare, runBound]

/-- The scope of `this` is the next one, and the scope of the call the one after it. -/
theorem Eval.constructBy_renames {m : Machine} {L : List Event} (hg : AlignedHistory m.heap L)
    {f : Closure} (hf : f.IsMethod m.heap.scopes L) {args : List Value}
    (hargs : ∀ v ∈ args, v.Aligned m.heap.scopes L)
    (decl decl' : FunctionDecl) (hlen : args.length = decl.params.length) {ρ : Equiv.Perm String}
    (hthis : ρ "this" = "this")
    (hnames : decl'.params.map (·.lexeme) = decl.params.map fun t => ρ t.lexeme)
    (hbody : List.Forall₂ (Stmt.Like (Ref.Refers (decl.params.map (·.lexeme)) ρ m.bindings))
      decl.body decl'.body) (n c : Nat) :
    Renames (m.heap.scopes.next + 1) ρ (constructBy n c f args decl m)
      (constructBy n c f args decl' m) := by
  let i := m.heap.instances.size
  let x : Logged Event Machine :=
    ⟨{ m with heap.instances := m.heap.instances.push ⟨c, {}⟩ }, L⟩
  have hx : Sound x := AlignedHistory.newInstance hg c
  obtain ⟨f₁, m₁, hbind⟩ : ∃ f₁ m₁, bindThis f i x.state = .ok f₁ m₁ := ⟨_, _, rfl⟩
  have herase := (Trace.bindThis_erases f i).state x
  obtain ⟨L₁, hrun⟩ := Traced.exists_of_erase (herase.trans hbind)
  obtain ⟨hc, -, ⟨g, body, σ, hat⟩, -⟩ := Carries.bindThis hx hf i _ _ hrun
  -- the declaration of the function does not matter to what it is bound to
  have hrest : ∀ decl, constructBy n c f args decl m = (do
      let _ ← apply n { f₁ with decl } args
      return .inst i : Eval Value) m₁ := by
    intro decl
    rw [constructBy_eq]
    cases hbind
    rfl
  have hnext : m₁.heap.scopes.next = m.heap.scopes.next + 1 := by
    cases hbind
    simp [x]
  have hbindings : m₁.bindings = m.bindings := hc.grew.bindings
  rw [hrest, hrest, ← hnext]
  refine (apply_renames (f := { f₁ with decl }) hc.sound.toAlignedStore hat.chain
    (fun v hv => (hargs v hv).mono hc.grew.later) hlen hthis hnames (hbindings ▸ hbody) n).bind ?_
  intro _ m'
  exact ⟨fun v m h => by cases h; rfl, fun e m h => by cases h⟩

/-- The reference with another name if that is one of `names`, which is not to be the old or the new
name of another variable. -/
inductive Ref.Renamed (names : List String) (ρ : Equiv.Perm String) : Ref → Ref → Prop where
  | param {ref ref' : Ref} (hid : ref'.id = ref.id) (hx : ref.name.lexeme ∈ names)
      (hn : ref'.name.lexeme = ρ ref.name.lexeme) : Renamed names ρ ref ref'
  | other {ref : Ref} (hx : ref.name.lexeme ∉ names) (hx' : ref.name.lexeme ∉ names.map ρ) :
      Renamed names ρ ref ref

/-- The second `init` is the first with other names for its parameters, as far as it is run before
the fields are set. -/
structure FunctionDecl.Renamed (derived : Bool) (ρ : Equiv.Perm String) (g g' : FunctionDecl) :
    Prop where
  this : ρ "this" = "this"
  params : g'.params.map (·.lexeme) = g.params.map fun t => ρ t.lexeme
  lead : List.Forall₂ (Stmt.Like (Ref.Renamed (g.params.map (·.lexeme)) ρ))
    (g.body.take derived.toNat) (g'.body.take derived.toNat)

namespace ClassDecl.DeclaredIn

variable {decl : ClassDecl} {ms : Members} {program : List Stmt} {σ : List Layer}
  {g g' : FunctionDecl} {ss : List Stmt} {ρ : Equiv.Perm String} {B : Bindings}

/-- References in what an `init` does until the fields are set. -/
theorem refers (h : decl.DeclaredIn ms program σ) (hs : decl.SetsIn ms g ss)
    (hB : ∀ id ∈ Stmt.idsAll program, B[id]? = distanceIn? program id) {e : Expr}
    (he : .expr e ∈ (g.opening decl.superclass.isSome ss).body) {u : Use} {ref ref' : Ref}
    (hu : e.Uses u ref) (hr : Ref.Renamed (g.params.map (·.lexeme)) ρ ref ref') :
    Ref.Refers (g.params.map (·.lexeme)) ρ B ref ref' := by
  have hp := (h.opening_placed hs he).uses hu
  have hd : B[ref.id]? = some 0 ↔ ref.name.lexeme ∈ g.params.map (·.lexeme) := by
    rw [hB ref.id (hp.id_mem h.fresh.2 h.accepted), hp.distanceIn? h.fresh.2 h.accepted]
    exact Layer.distance?_method_eq_zero ..
  cases hr with
  | param hid hx hn => exact .param hid (hd.2 hx) hx hn
  | other hx => exact .other fun h0 => hx (hd.1 h0)

theorem this_not_param (h : decl.DeclaredIn ms program σ) (hs : decl.SetsIn ms g ss) :
    "this" ∉ g.params.map (·.lexeme) := by
  intro hmem
  obtain ⟨t, ht, hthis⟩ := List.mem_map.1 hmem
  have htidy : decl.Tidy := h.placed.tidy h.fresh.1
  have hf := (ClassDecl.tidy_iff.1 htidy).2.2.1 _ (List.mem_of_find?_eq_some hs.init)
  exact ((FunctionDecl.tidy_iff.1 hf).1 t ht).1 hthis

/-- Until the fields are set, the second `init` is the first but for the names of the parameters. -/
theorem opening_like (h : decl.DeclaredIn ms program σ) (hs : decl.SetsIn ms g ss)
    (hB : ∀ id ∈ Stmt.idsAll program, B[id]? = distanceIn? program id)
    (hg : g.Renamed decl.superclass.isSome ρ g')
    (hfields : ∀ u ref, ms.FieldUses u ref → ref.name.lexeme ∉ g.params.map (·.lexeme) ∧
      ref.name.lexeme ∉ g'.params.map (·.lexeme)) :
    List.Forall₂ (Stmt.Like (Ref.Refers (g.params.map (·.lexeme)) ρ B))
      (g.opening decl.superclass.isSome ss).body (g'.opening decl.superclass.isSome ss).body := by
  have hnames : (g.params.map (·.lexeme)).map ρ = g'.params.map (·.lexeme) := by
    rw [hg.params, List.map_map]
    rfl
  have hthis := h.this_not_param hs
  refine List.rel_append ?_ (List.forall₂_same.2 fun s hmem => ?_)
  · refine List.Forall₂.imp ?_ ((List.forall₂_and_left _ _).2
      ⟨fun s hmem => List.mem_append_left ss hmem, hg.lead⟩)
    rintro _ _ ⟨hmem, e, e', rfl, rfl, hlike⟩
    exact ⟨e, e', rfl, rfl, hlike.imp fun u ref hu ref' hr => h.refers hs hB hmem hu hr⟩
  · obtain ⟨field, hfield, hassigned⟩ := FieldDecl.assigned_of_mem hs.assigned hmem
    obtain ⟨e, rfl⟩ := hassigned.expr
    refine ⟨e, e, rfl, rfl, Expr.Like.refl _ fun u ref hu => ?_⟩
    refine h.refers hs hB (List.mem_append_right _ hmem) hu ?_
    rcases hassigned.uses hu with hthis' | ⟨e, he, hu⟩
    · refine .other (hthis' ▸ hthis) fun hmem => ?_
      -- the new name of no parameter is `this`, which has no other name
      obtain ⟨x, hx, hρ⟩ := List.mem_map.1 hmem
      rw [hthis', ← hg.this] at hρ
      exact hthis (ρ.injective hρ ▸ hx)
    · have hfree := hfields u ref ⟨field, List.mem_reverse.1 hfield, e, he, hu⟩
      exact .other hfree.1 (hnames ▸ hfree.2)

/-- If no parameter has, before or after, a name that the initializer of a field uses, other names
for the parameters do not change what the fields are set to. -/
theorem constructBy_renames (h : decl.DeclaredIn ms program σ) (hs : decl.SetsIn ms g ss)
    (hg : g.Renamed decl.superclass.isSome ρ g')
    (hfields : ∀ u ref, ms.FieldUses u ref → ref.name.lexeme ∉ g.params.map (·.lexeme) ∧
      ref.name.lexeme ∉ g'.params.map (·.lexeme)) {m : Machine} {L : List Event}
    (hm : AlignedHistory m.heap L)
    (hB : ∀ id ∈ Stmt.idsAll program, m.bindings[id]? = distanceIn? program id) {f : Closure}
    (hf : f.IsMethod m.heap.scopes L) {args : List Value}
    (hargs : ∀ v ∈ args, v.Aligned m.heap.scopes L) (hlen : args.length = g.params.length)
    (n c : Nat) :
    Eval.Renames (m.heap.scopes.next + 1) ρ
        (Eval.constructBy n c f args (g.opening decl.superclass.isSome ss) m)
        (Eval.constructBy n c f args (g'.opening decl.superclass.isSome ss) m) ∧
      Eval.Renames (m.heap.scopes.next + 1) ρ.symm
        (Eval.constructBy n c f args (g'.opening decl.superclass.isSome ss) m)
        (Eval.constructBy n c f args (g.opening decl.superclass.isSome ss) m) := by
  have hlike := h.opening_like hs hB hg hfields
  refine ⟨Eval.constructBy_renames hm hf hargs (g.opening ..) (g'.opening ..) hlen hg.this hg.params
    hlike n c, Eval.constructBy_renames hm hf hargs (g'.opening ..) (g.opening ..) ?_
    (ρ.symm_apply_eq.2 hg.this.symm) ?_ ?_ n c⟩
  · have hlength := congrArg List.length hg.params
    rw [List.length_map, List.length_map] at hlength
    exact hlen.trans hlength.symm
  · show g.params.map (·.lexeme) = g'.params.map fun t => ρ.symm t.lexeme
    have hback := congrArg (List.map ρ.symm) hg.params
    simpa [Function.comp_def] using hback.symm
  · have hnames : (g.params.map (·.lexeme)).map ρ = g'.params.map (·.lexeme) := by
      rw [hg.params, List.map_map]
      rfl
    have hback := hlike.imp fun _ _ hs => hs.symm
    rw [hnames] at hback
    exact hback.flip

end ClassDecl.DeclaredIn

/-- In a class of a text that is accepted, a name in the initializer of a field is that of a
parameter if the first `init` has such a parameter, and else it is what it is around the members of
the class. So it is the same whatever parameters of other names there are, or if there is no `init`.
And if the parameters get other names, then until the fields are set, on every instance that a
session may make, all is as before but for the names in the scope of the call. -/
theorem field_initializer_names :
    (∀ file text firstId ds decl σ, (Source.read file text firstId ds).1.faults = [] →
      Accepted (Source.read file text firstId ds).1.body →
      Placed (Source.read file text firstId ds).1.body (.stmt (.cls decl)) σ →
      ∃ ms, decl.DeclaredIn ms (Source.read file text firstId ds).1.body σ) ∧
    ∀ decl ms program σ, ClassDecl.DeclaredIn decl ms program σ →
      (∀ u ref, ms.FieldUses u ref → distanceIn? program ref.id =
        if ref.name.lexeme ∈ ms.initParams then some 0
        else if ref.name.lexeme = "this" then some 1
        else (Layer.distance? ref.name.lexeme (decl.around σ)).map (· + 2)) ∧
      (∀ decl' ms' program' σ', ClassDecl.DeclaredIn decl' ms' program' σ' →
        (decl'.around σ').map (·.names) = (decl.around σ).map (·.names) →
        ∀ u ref u' ref', ms.FieldUses u ref → ms'.FieldUses u' ref' →
          ref'.name.lexeme = ref.name.lexeme → ref.name.lexeme ∉ ms.initParams →
          ref.name.lexeme ∉ ms'.initParams →
          distanceIn? program' ref'.id = distanceIn? program ref.id) ∧
      ∀ g, ms.init? = some g → ∃ ss, decl.SetsIn ms g ss ∧
        ∀ ρ g', g.Renamed decl.superclass.isSome ρ g' →
          (∀ u ref, ms.FieldUses u ref → ref.name.lexeme ∉ g.params.map (·.lexeme) ∧
            ref.name.lexeme ∉ g'.params.map (·.lexeme)) →
          ∀ s n ts B m, Setup.Reaches s n ts B m →
            (∀ id ∈ Stmt.idsAll program, m.bindings[id]? = distanceIn? program id) →
            ∀ c f args, m.heap.classes.cells[c]?.bind Class.init? = some f →
              f.decl = g.setting decl.superclass.isSome ss →
              (∀ v ∈ args, v.Aligned m.heap.scopes B) → args.length = g.params.length → ∀ j,
              Eval.Renames (m.heap.scopes.next + 1) ρ
                  (Eval.constructBy j c f args (g.opening decl.superclass.isSome ss) m)
                  (Eval.constructBy j c f args (g'.opening decl.superclass.isSome ss) m) ∧
                Eval.Renames (m.heap.scopes.next + 1) ρ.symm
                  (Eval.constructBy j c f args (g'.opening decl.superclass.isSome ss) m)
                  (Eval.constructBy j c f args (g.opening decl.superclass.isSome ss) m) := by
  refine ⟨?_, fun decl ms program σ h => ⟨fun u ref hu => h.distance_field hu, ?_, ?_⟩⟩
  · intro file text firstId ds decl σ hread hok hp
    exact ClassDecl.DeclaredIn.of_placed hread hok hp
  · intro decl' ms' program' σ' h' haround u ref u' ref' hu hu' hname hx hx'
    rw [h.distance_field hu, h'.distance_field hu', hname, if_neg hx, if_neg hx',
      Layer.distance?_congr _ h.settled h'.settled haround]
  · intro g hg
    obtain ⟨ss, hs⟩ := h.setsIn hg
    refine ⟨ss, hs, fun ρ g' hren hfields s n ts B m hm hB c f args hinit _ hargs hlen j => ?_⟩
    obtain ⟨k, hk, hf⟩ := Option.bind_eq_some_iff.1 hinit
    have hmethod := (hm.aligned.classes c k hk).methods _ f hf
    exact h.constructBy_renames hs hren hfields hm.aligned hB hmethod hargs hlen j c

/-- A class in a block, with a field that is set to a variable of the block. -/
def blockText (q : String) : String :=
  "\x7b var a = 1; class A \x7b x = a; init(" ++ q ++ ") \x7b\x7d \x7d A(2); \x7d"

/-- A variable and then a class are declared in a block. -/
def innerClass? : List Stmt → Option (Token × ClassDecl)
  | [.block [.var name _ _, .cls decl, _]] => some (name, decl)
  | _ => none

theorem placed_of_innerClass? {program : List Stmt} {name : Token} {decl : ClassDecl}
    (h : innerClass? program = some (name, decl)) :
    ∃ l : Layer, l.names = [name.lexeme] ∧ Placed program (.stmt (.cls decl)) [l] := by
  unfold innerClass? at h
  split at h
  · cases h
    exact ⟨_, rfl, Placed.program.head.block.tail.head⟩
  · cases h

/-- A function with one parameter that sets a field to a variable. -/
def FunctionDecl.setter? : FunctionDecl → Option (Token × Token × Ref × Token × Ref)
  | ⟨name, [p], [.expr (.set (.this this) x none (.variable ref))]⟩ => some (name, p, this, x, ref)
  | _ => none

theorem FunctionDecl.eq_of_setter? {f : FunctionDecl} {name p x : Token} {this ref : Ref}
    (h : f.setter? = some (name, p, this, x, ref)) :
    f = ⟨name, [p], [.expr (.set (.this this) x none (.variable ref))]⟩ := by
  unfold setter? at h
  split at h
  · cases h
    rfl
  · cases h

/-- An `init` with one parameter, and a field that is set to a variable. -/
def Members.ofField (name p x : Token) (ref : Ref) : Members :=
  ⟨[⟨name, [p], []⟩], [], [⟨x, none, some (.variable ref)⟩], []⟩

/-- Undoes `ofField`. -/
def Members.field? : Members → Option (Token × Token × Token × Ref)
  | ⟨[⟨name, [p], []⟩], [], [⟨x, none, some (.variable ref)⟩], []⟩ => some (name, p, x, ref)
  | _ => none

theorem Members.eq_of_field? {ms : Members} {name p x : Token} {ref : Ref}
    (h : ms.field? = some (name, p, x, ref)) : ms = .ofField name p x ref := by
  unfold field? at h
  split at h
  · cases h
    rfl
  · cases h

theorem Members.fieldUses_ofField {name p x : Token} {ref ref' : Ref} {u : Use} :
    (Members.ofField name p x ref).FieldUses u ref' ↔ u = .variable ∧ ref' = ref := by
  constructor
  · rintro ⟨field, hf, e, he, hu⟩
    cases List.mem_singleton.1 hf
    cases he
    cases hu with
    | own hu =>
      cases List.mem_singleton.1 hu
      exact ⟨rfl, rfl⟩
    | part hp => cases hp
  · rintro ⟨rfl, rfl⟩
    exact ⟨_, List.mem_singleton_self _, _, rfl, .own (List.mem_singleton_self _)⟩

theorem Members.init?_ofField {name : Token} (h : name.lexeme = initName) (p x : Token)
    (ref : Ref) : (Members.ofField name p x ref).init? = some ⟨name, [p], []⟩ := by
  simp [ofField, init?, FunctionDecl.isInit, h]

/-- The program of the text. -/
def blockProgram (q : String) : List Stmt := (Source.read none (blockText q) 0 {}).1.body

/-- Where the members of its class start. -/
def blockReader (q : String) : Reader :=
  ⟨(scan none (blockText q)).tokens.drop 9, (scan none (blockText q)).stop, 0, []⟩

/-- What the `init` of the class is made of, if that is what its members say. -/
def blockParts? (q : String) : Option (Token × Token × Ref × Token × Ref) :=
  match innerClass? (blockProgram q), Read.classMembers 40 {} (blockReader q) with
  | some (y, ⟨k, none, [f], none, _, _⟩), .ok ms _ =>
    match f.setter?, ms.field? with
    | some (name, p, this, x, ref), some read =>
      if read = (name, p, x, ref) ∧ this.name = .placed (.keyword .this) "this" x ∧
          name.lexeme = initName ∧ p.lexeme = q ∧ ref.name.lexeme = "a" ∧ y.lexeme = "a" ∧
          k.lexeme = "A" then
        some (name, p, this, x, ref)
      else none
    | _, _ => none
  | _, _ => none

theorem declaredIn_of_blockParts? {q : String} {name p x : Token} {this ref : Ref}
    (hfaults : (Source.read none (blockText q) 0 {}).1.faults = [])
    (hfound : findings (blockProgram q) = [.local 0 2, .local 1 1, .local 2 0])
    (h : blockParts? q = some (name, p, this, x, ref)) :
    ∃ decl l, ClassDecl.DeclaredIn decl (.ofField name p x ref) (blockProgram q) [l] ∧
      (decl.around [l]).map (·.names) = [["A", "a"]] ∧ decl.superclass = none ∧
      decl.methods = [⟨name, [p], [.expr (.set (.this this) x none (.variable ref))]⟩] ∧
      name.lexeme = initName ∧ p.lexeme = q ∧ ref.name.lexeme = "a" := by
  unfold blockParts? at h
  split at h
  · next y k f _ _ ms r hclass hmembers =>
    split at h
    · next name' p' this' x' ref' read hmade hread =>
      split at h
      · next hsame =>
        cases h
        obtain ⟨rfl, hthis, hname, hp, href, hy, hk⟩ := hsame
        obtain rfl := FunctionDecl.eq_of_setter? hmade
        obtain rfl := Members.eq_of_field? hread
        obtain ⟨l, hl, hplaced⟩ := placed_of_innerClass? hclass
        have hsuffix : (blockReader q).rest <:+ (scan none (blockText q)).tokens :=
          List.drop_suffix ..
        refine ⟨_, l, ⟨⟨none, blockText q, 0, {}, rfl, hfaults, ⟨40, _, r, hsuffix, hmembers⟩,
          ⟨_, .cons ⟨this, hthis, rfl⟩ .nil, ?_, ?_⟩, ?_⟩, ?_, hplaced⟩, ?_, rfl, rfl, hname, hp,
          href⟩
        · simp [ClassDecl.spliceFirst, ClassDecl.spliceInto, Members.ofField, FunctionDecl.isInit,
            hname]
        · simp [Members.ofField, FunctionDecl.isInit, hname]
        · simp
        · simp [Accepted, hfound]
        · simp [ClassDecl.around, Layer.define, hl, hy, hk]
      · cases h
    · cases h
  · cases h

/-- The class of the text is called, by the interpreter that has bound its names. -/
def Event.callsBlock : Event → Bool
  | .turn (.called (.cls 0) args m) =>
    args.length == 1 && (m.heap.classes.cells[0]?.bind Class.init?).any (fun f =>
      f.decl.setter?.isSome && f.decl.setter? == blockParts? "b") &&
      (Stmt.idsAll (blockProgram "b")).all fun id =>
        m.bindings[id]? == distanceIn? (blockProgram "b") id
  | _ => false

/-- The variable is that of the block, with the parameter `b` as with `c` in its place. -/
theorem field_initializer_names_block :
    ∃ decl ms σ ref decl' ms' σ' ref', ClassDecl.DeclaredIn decl ms (blockProgram "b") σ ∧
      ClassDecl.DeclaredIn decl' ms' (blockProgram "c") σ' ∧ ms.FieldUses .variable ref ∧
      ms'.FieldUses .variable ref' ∧ ref.name.lexeme = "a" ∧ ref'.name.lexeme = "a" ∧
      ms.initParams = ["b"] ∧ ms'.initParams = ["c"] ∧
      distanceIn? (blockProgram "b") ref.id = some 2 ∧
      distanceIn? (blockProgram "c") ref'.id = distanceIn? (blockProgram "b") ref.id ∧
      ∃ g g' ss B m f args, ms.init? = some g ∧ ms'.init? = some g' ∧ decl.SetsIn ms g ss ∧
        Setup.Reaches { root := "/" } 40 [.newInterpreter, .runSource 0 none (blockText "b")] B m ∧
        f.decl = g.setting false ss ∧ args.length = 1 ∧
        ∀ j, Eval.Renames (m.heap.scopes.next + 1) (Equiv.swap "b" "c")
          (Eval.constructBy j 0 f args (g.opening false ss) m)
          (Eval.constructBy j 0 f args (g'.opening false ss) m) := by
  have hcalls : (Setup.events { root := "/" } 40
      [.newInterpreter, .runSource 0 none (blockText "b")]).any Event.callsBlock = true := by
    decide +kernel
  have hother : (blockParts? "c").isSome = true := by decide +kernel
  obtain ⟨e, he, hcheck⟩ := List.any_eq_true.1 hcalls
  obtain ⟨new, B, hlog⟩ := List.append_of_mem he
  unfold Event.callsBlock at hcheck
  split at hcheck
  · next args m =>
    simp only [Bool.and_eq_true, beq_iff_eq, Option.any_eq_true, List.all_eq_true] at hcheck
    obtain ⟨⟨hlen, f, hf, hsome, hparts⟩, hB⟩ := hcheck
    obtain ⟨⟨name, p, this, x, ref⟩, hsetter⟩ := Option.isSome_iff_exists.1 hsome
    obtain ⟨decl, l, hdecl, haround, hsup, hmethods, hname, hp, href⟩ := declaredIn_of_blockParts?
      (q := "b") (by decide +kernel) (by decide +kernel) (hparts.symm.trans hsetter)
    obtain ⟨⟨name', p', this', x', ref'⟩, hparts'⟩ := Option.isSome_iff_exists.1 hother
    obtain ⟨decl', l', hdecl', haround', -, -, hname', hp', href'⟩ := declaredIn_of_blockParts?
      (q := "c") (by decide +kernel) (by decide +kernel) hparts'
    have hinit := Members.init?_ofField hname p x ref
    have hinit' := Members.init?_ofField hname' p' x' ref'
    have hparams : (Members.ofField name p x ref).initParams = ["b"] := by
      simp [Members.initParams, hinit, hp]
    have hparams' : (Members.ofField name' p' x' ref').initParams = ["c"] := by
      simp [Members.initParams, hinit', hp']
    have huse : (Members.ofField name p x ref).FieldUses .variable ref :=
      Members.fieldUses_ofField.2 ⟨rfl, rfl⟩
    have huse' : (Members.ofField name' p' x' ref').FieldUses .variable ref' :=
      Members.fieldUses_ofField.2 ⟨rfl, rfl⟩
    have hevent : (.turn (.called (.cls 0) args m) :: B) <:+ Setup.events { root := "/" } 40
      [.newInterpreter, .runSource 0 none (blockText "b")] := ⟨new, hlog.symm⟩
    have hreaches : Setup.Reaches { root := "/" } 40
      [.newInterpreter, .runSource 0 none (blockText "b")] B m := .during hevent rfl
    obtain ⟨hdistance, hsame, hrename⟩ := field_initializer_names.2 _ _ _ _ hdecl
    obtain ⟨ss, hss, hrename⟩ := hrename _ hinit
    have hset := hss.init
    simp only [hmethods, hsup, Option.isSome_none] at hset hrename
    have hf' : f.decl = FunctionDecl.setting ⟨name, [p], []⟩ false ss := by
      rw [FunctionDecl.eq_of_setter? hsetter]
      simpa [FunctionDecl.isInit, hname] using hset
    refine ⟨decl, _, [l], ref, decl', _, [l'], ref', hdecl, hdecl', huse, huse', href, href',
      hparams, hparams', ?_, ?_, _, _, ss, B, m, f, args, hinit, hinit', hss, hreaches, hf', hlen,
      fun j => ?_⟩
    · obtain ⟨k, hk, hnames⟩ := List.map_eq_singleton_iff.1 haround
      rw [hdistance .variable ref huse, href, hparams, hk]
      simp [Layer.distance?, Layer.Declares, hnames]
    · exact hsame _ _ _ _ hdecl' (haround'.trans haround.symm) _ _ _ _ huse huse'
        (href'.trans href.symm) (by simp [hparams, href]) (by simp [hparams', href])
    · have hargs := ((Setup.inv _ _ _).aligned.called _ args m B hevent).2
      refine (hrename (Equiv.swap "b" "c") _ ⟨?_, ?_, .nil⟩ ?_ _ _ _ B m hreaches hB 0 f args hf hf'
        hargs hlen j).1
      · exact Equiv.swap_apply_of_ne_of_ne (by decide) (by decide)
      · simp [hp, hp']
      · intro u ref' hu
        obtain ⟨-, rfl⟩ := Members.fieldUses_ofField.1 hu
        simp [hp, hp', href]
  · cases hcheck

/-- A text that sets a field to the variable `a`, in a class with a parameter. -/
def parameterText (p : String) : String :=
  "var a = 1; class A \x7b x = a; init(" ++ p ++ ") \x7b\x7d \x7d print A(2).x;"

/-- The field is set to the parameter if that has the name of the variable. -/
theorem parameterText_prints :
    (Setup.final { root := "/" } 40
      [.newInterpreter, .runSource 0 none (parameterText "a")]).state.world.sink.bytes =
        "2\n".toUTF8 ∧
    (Setup.final { root := "/" } 40
      [.newInterpreter, .runSource 0 none (parameterText "b")]).state.world.sink.bytes =
        "1\n".toUTF8 := by
  decide +kernel

end Treewalk
