import Treewalk.Proofs.Effect

/-!
# What binding names finds

`Placed.recorded_iff`: in a tidy program whose references have ids of their own and in which binding
finds no fault, it records a distance for a use of a name exactly if some scope around the use
declares the name at or before it, and then the distance to the nearest such scope.

The walk is followed along `Placed`. What is found for a piece of code does not depend on what the
walk does before and after it (`Bound.inner`).
-/

namespace Treewalk

/-! ### Settled places -/

/-- Only expressions stand inside of an initializer, and only that of the innermost scope. -/
def Code.Settles : Code → List Layer → Prop
  | .expr _, σ | .use _ _, σ => Layer.Settled σ.tail
  | _, σ => Layer.Settled σ

theorem Layer.Settled.tail {σ : List Layer} (h : Layer.Settled σ) : Layer.Settled σ.tail :=
  fun l hl => h l (List.mem_of_mem_tail hl)

theorem Layer.Settled.cons {l : Layer} {σ : List Layer} (h : Layer.Settled σ)
    (hl : l.pending = none) : Layer.Settled (l :: σ) := List.forall_mem_cons.2 ⟨hl, h⟩

theorem ClassDecl.settled_around (decl : ClassDecl) {σ : List Layer} (h : Layer.Settled σ) :
    Layer.Settled (decl.around σ) := by
  unfold around
  dsimp only
  split
  · exact (h.define _).cons rfl
  · exact h.define _

theorem Placed.settled {program : List Stmt} {code : Code} {σ : List Layer}
    (h : Placed program code σ) : code.Settles σ := by
  induction h with
  | program => exact List.forall_mem_nil _
  | head _ ih | decls _ ih | yes _ ih | round _ ih | part _ _ ih | use _ _ ih => exact ih
  | tail _ ih | no _ ih => exact Layer.Settled.defineAll ih _
  | expr _ _ ih => exact Layer.Settled.tail ih
  | @init _ _ _ σ _ ih =>
    have hσ : Layer.Settled σ.tail := Layer.Settled.tail ih
    cases σ <;> exact hσ
  | block _ ih => exact Layer.Settled.cons ih rfl
  | step _ ih => exact (Layer.Settled.defineAll ih _).tail
  | function _ ih => exact Layer.Settled.define ih _
  | superclass _ _ ih => exact (Layer.Settled.define ih _).tail
  | @staticField decl _ _ _ _ _ _ ih => exact (decl.settled_around ih).tail
  | @staticMethod decl _ _ _ _ ih => exact decl.settled_around ih
  | @method decl _ _ _ _ ih => exact (decl.settled_around ih).cons rfl
  | inside _ ih => exact Layer.Settled.cons ih rfl
  | body _ ih => exact ih

/-! ### Following the walk to a place -/

/-- Binding finds no fault in the program. -/
def Accepted (program : List Stmt) : Prop := ∀ t f, Finding.fault t f ∉ findings program

/-- The program imports nothing. -/
def ImportFree (program : List Stmt) : Prop := ∀ decl, Finding.required decl ∉ findings program

/-- The ids of the references of a piece of code. -/
def Code.ids : Code → List Nat
  | .stmts ss => Stmt.idsAll ss
  | .stmt s => s.ids
  | .expr e => e.ids
  | .function decl | .body decl => decl.ids
  | .use _ ref => [ref.id]

/-- Binding the names of the code takes the walk from `c` to `c'`. -/
def Code.Binds : Code → Context → Context → Prop
  | .stmts ss, c, c' => c' = Stmt.bindAll ss c
  | .stmt s, c, c' => c' = s.bind c
  | .expr e, c, c' => c' = e.bind c
  | .function decl, c, c' => ∃ kind, c' = FunctionDecl.bind kind decl c
  | .body decl, c, c' => c' = Stmt.bindAll decl.body c
  | .use u ref, c, c' =>
    c' = c.refer ref ∧ (u = Use.variable → c.isInitializing ref.name.lexeme = false)

/-- Binding the names of `program` comes to the code with the context `c` and leaves it with `c'`.
All that it finds about the code, it finds in between. -/
structure Bound (program : List Stmt) (code : Code) (σ : List Layer) (c c' : Context) : Prop where
  binds : code.Binds c c'
  fits : Layer.FitAll σ c.scopes
  nodup : code.ids.Nodup
  mem : ∀ id ∈ code.ids, id ∈ Stmt.idsAll program
  before : ∀ id ∈ code.ids, ∀ d, .local id d ∉ c.found
  kept : ∀ f ∈ c'.found, f ∈ (Stmt.bindAll program {}).found
  after : ∀ id ∈ code.ids, ∀ d, .local id d ∈ (Stmt.bindAll program {}).found →
    .local id d ∈ c'.found

theorem Bound.inner {program : List Stmt} {code code' : Code} {σ σ' : List Layer}
    {c c' k k' : Context} {A B : List Nat} (h : Bound program code σ c c') (hb : code'.Binds k k')
    (hf : Layer.FitAll σ' k.scopes) (hids : code.ids = A ++ (code'.ids ++ B))
    (h₁ : Finding.Adds A c.found k.found) (h₂ : Finding.Adds B k'.found c'.found) :
    Bound program code' σ' k k' := by
  have hmem : ∀ id ∈ code'.ids, id ∈ code.ids := fun id hid => by simp [hids, hid]
  have hnodup := h.nodup
  rw [hids, List.nodup_append] at hnodup
  obtain ⟨-, hnodup, hA⟩ := hnodup
  rw [List.nodup_append] at hnodup
  obtain ⟨hnodup, -, hB⟩ := hnodup
  refine ⟨hb, hf, hnodup, fun id hid => h.mem id (hmem id hid), fun id hid d hd => ?_,
    fun f hf => h.kept f (h₂.mem hf), fun id hid d hd => ?_⟩
  · rcases h₁.of_local hd with hd | hd
    · exact h.before id (hmem id hid) d hd
    · exact hA id hd id (List.mem_append_left _ hid) rfl
  · rcases h₂.of_local (h.after id (hmem id hid) d hd) with hd | hd
    · exact hd
    · exact absurd rfl (hB id hid id hd)

section

variable (c : Context)

theorem Expr.bindAll_append (es es' : List Expr) :
    Expr.bindAll (es ++ es') c = Expr.bindAll es' (Expr.bindAll es c) := by
  induction es generalizing c with
  | nil => rfl
  | cons e es ih => exact ih _

theorem FunctionDecl.bindStatics_append (fs fs' : List FunctionDecl) :
    FunctionDecl.bindStatics (fs ++ fs') c =
      FunctionDecl.bindStatics fs' (FunctionDecl.bindStatics fs c) := by
  induction fs generalizing c with
  | nil => rfl
  | cons f fs ih => exact ih _

theorem FunctionDecl.bindMethods_append (fs fs' : List FunctionDecl) :
    FunctionDecl.bindMethods (fs ++ fs') c =
      FunctionDecl.bindMethods fs' (FunctionDecl.bindMethods fs c) := by
  induction fs generalizing c with
  | nil => rfl
  | cons f fs ih => exact ih _

end

theorem Expr.idsAll_append (es es' : List Expr) :
    Expr.idsAll (es ++ es') = Expr.idsAll es ++ Expr.idsAll es' := by
  induction es with
  | nil => rfl
  | cons e es ih => simp [idsAll, ih]

theorem FunctionDecl.idsAll_append (fs fs' : List FunctionDecl) :
    FunctionDecl.idsAll (fs ++ fs') = FunctionDecl.idsAll fs ++ FunctionDecl.idsAll fs' := by
  induction fs with
  | nil => rfl
  | cons f fs ih => simp [idsAll, ih]

theorem FieldDecl.idsAll_append (fs fs' : List FieldDecl) :
    FieldDecl.idsAll (fs ++ fs') = FieldDecl.idsAll fs ++ FieldDecl.idsAll fs' := by
  induction fs with
  | nil => rfl
  | cons f fs ih => simp [idsAll, ih]

namespace Bound
variable {program : List Stmt} {σ : List Layer} {c c' : Context}

/-- The walk comes to each of several expressions that stand side by side. -/
theorem listed {code : Code} {es : List Expr} {e : Expr} {k : Context} {A B : List Nat}
    (h : Bound program code σ c c') (he : e ∈ es) (hf : k.scopes = c.scopes)
    (hids : code.ids = A ++ (Expr.idsAll es ++ B)) (h₁ : Finding.Adds A c.found k.found)
    (h₂ : Finding.Adds B (Expr.bindAll es k).found c'.found) :
    ∃ k k', Bound program (.expr e) σ k k' := by
  obtain ⟨es₁, es₂, rfl⟩ := List.append_of_mem he
  have hpre := Expr.bindAll_effect es₁ k
  rw [Expr.bindAll_append] at h₂
  refine ⟨_, _, h.inner (A := A ++ Expr.idsAll es₁) (B := Expr.idsAll es₂ ++ B) rfl
    (k := Expr.bindAll es₁ k) (hpre.fitsExpr (hf ▸ h.fits)) ?_ (h₁.trans hpre.found) ?_⟩
  · rw [hids, Expr.idsAll_append]
    simp [Expr.idsAll, Code.ids]
  · exact (Expr.bindAll_effect es₂ _).found.trans h₂

theorem part {e part : Expr} (h : Bound program (.expr e) σ c c') (hp : part ∈ e.parts) :
    ∃ k k', Bound program (.expr part) σ k k' := by
  obtain rfl : c' = e.bind c := h.binds
  have first : ∀ {es : List Expr} {B : List Nat}, part ∈ es → e.ids = Expr.idsAll es ++ B →
      Finding.Adds B (Expr.bindAll es c).found (e.bind c).found →
      ∃ k k', Bound program (.expr part) σ k k' := fun {es B} hm hids h₂ =>
    h.listed (A := []) hm rfl hids (.refl _) h₂
  cases e <;> simp only [Expr.parts, List.not_mem_nil] at hp
  case grouping e | unary e | get e _ =>
    exact first (B := []) hp (by simp [Expr.ids, Expr.idsAll]) (.refl _)
  case binary l _ r | logical l _ r =>
    exact first (B := []) hp (by simp [Expr.ids, Expr.idsAll]) (.refl _)
  case ternary t y n => exact first (B := []) hp (by simp [Expr.ids, Expr.idsAll]) (.refl _)
  case comma es => exact first (B := []) hp (by simp [Expr.ids]) (.refl _)
  case assign ref e | compound ref _ e =>
    exact first (B := [ref.id]) hp (by simp [Expr.ids, Expr.idsAll]) (Effect.refer _ ref).found
  case call callee _ args =>
    exact first (B := []) hp (by simp [Expr.ids, Expr.idsAll]) (.refl _)
  case set e _ _ v =>
    have hp : part ∈ [v, e] := by simpa [or_comm] using hp
    exact first (B := []) hp (by simp [Expr.ids, Expr.idsAll]) (.refl _)

/-- What is found about the code is no fault. -/
theorem faultless {code : Code} (h : Bound program code σ c c')
    (hok : Accepted program) (t : Token) (f : BindingFault) :
    Finding.fault t f ∉ c'.found := fun hm =>
  hok t f (List.mem_reverse.2 (h.kept _ hm))

/-- The walk refers to a name after the parts of an expression. -/
theorem referred {e : Expr} {u : Use} {ref : Ref} {A : List Nat} {k : Context}
    (h : Bound program (.expr e) σ c c') (hk : Effect [] A c k) (hids : e.ids = A ++ [ref.id])
    (hb : e.bind c = k.refer ref)
    (hu : u = Use.variable → k.isInitializing ref.name.lexeme = false) :
    ∃ k k', Bound program (.use u ref) σ k k' := by
  obtain rfl : c' = e.bind c := h.binds
  exact ⟨k, k.refer ref, h.inner (A := A) (B := []) ⟨rfl, hu⟩ (hk.fitsExpr h.fits) hids hk.found
    (hb ▸ .refl _)⟩

theorem use {e : Expr} {u : Use} {ref : Ref} (h : Bound program (.expr e) σ c c')
    (hok : Accepted program) (hu : (u, ref) ∈ e.uses) :
    ∃ k k', Bound program (.use u ref) σ k k' := by
  have hno := h.faultless hok
  obtain rfl : c' = e.bind c := h.binds
  cases e <;>
    simp only [Expr.uses, List.mem_cons, List.not_mem_nil, or_false, Prod.mk.injEq] at hu
  case «variable» =>
    obtain ⟨rfl, rfl⟩ := hu
    have hi : c.isInitializing ref.name.lexeme = false := Bool.eq_false_iff.2 fun hi => by
      refine hno ref.name .ownInitializer ((Effect.refer _ ref).found.mem ?_)
      simp [hi, Context.fault, Context.find]
    exact h.referred (.refl c) rfl (by simp [Expr.bind, hi]) fun _ => hi
  case this =>
    obtain ⟨rfl, rfl⟩ := hu
    refine h.referred (.refl c) rfl ?_ (by simp)
    rw [Expr.bind] at hno ⊢
    split at hno
    · exact absurd (by simp [Context.fault, Context.find]) (hno ref.name .thisOutside)
    · split at hno
      · exact absurd (by simp [Context.fault, Context.find]) (hno ref.name .thisInStatic)
      · rw [if_neg ‹_›, if_neg ‹_›]
  case super method =>
    obtain ⟨rfl, rfl⟩ := hu
    refine h.referred (.refl c) rfl ?_ (by simp)
    rw [Expr.bind] at hno ⊢
    split at hno
    · exact absurd (by simp [Context.fault, Context.find]) (hno ref.name .superOutside)
    · exact absurd (by simp [Context.fault, Context.find]) (hno ref.name .superWithoutSuperclass)
    · split at hno
      · exact absurd (by simp [Context.fault, Context.find]) (hno ref.name .superInStatic)
      · simp [*]
  case assign ref' e =>
    obtain ⟨rfl, rfl⟩ := hu
    exact h.referred (e.bind_effect c) rfl rfl (by simp)
  case compound ref' op e =>
    rcases hu with ⟨rfl, rfl⟩ | ⟨rfl, rfl⟩
    · exact h.referred (e.bind_effect c) rfl rfl (by simp)
    · exact h.referred (e.bind_effect c) rfl rfl (by simp)

theorem expr {s : Stmt} {e : Expr} (h : Bound program (.stmt s) σ c c') (he : e ∈ s.exprs) :
    ∃ k k', Bound program (.expr e) σ k k' := by
  obtain rfl : c' = s.bind c := h.binds
  -- The expression comes first, but for faults that do not depend on it.
  have first : ∀ {k : Context} {B : List Nat}, Effect [] [] c k → s.ids = e.ids ++ B →
      Finding.Adds B (e.bind k).found (s.bind c).found → ∃ k k', Bound program (.expr e) σ k k' :=
    fun {k B} hk hids h₂ => ⟨k, _, h.inner (A := []) rfl (hk.fitsExpr h.fits) hids hk.found h₂⟩
  match s with
  | .expr _ | .print _ _ =>
    rw [Stmt.exprs, List.mem_singleton] at he
    exact first (B := []) (.refl c) (by simp [he, Stmt.ids]) (he ▸ .refl _)
  | .branch _ y none =>
    rw [Stmt.exprs, List.mem_singleton] at he
    subst he
    exact first (.refl c) rfl (y.bind_effect _).found
  | .branch _ y (some n) =>
    rw [Stmt.exprs, List.mem_singleton] at he
    subst he
    exact first (.refl c) rfl ((y.bind_effect _).trans (n.bind_effect _)).found
  | .loop _ step body =>
    rw [Stmt.exprs, List.mem_singleton] at he
    subst he
    exact first (.refl c) rfl
      ((body.bind_effect _).inLoops.andExpr (Expr.bindOption_effect step _).inLoops).found
  | .ret _ (some _) =>
    rw [Stmt.exprs, List.mem_singleton] at he
    subst he
    exact first (B := []) ((Effect.faultIf _ c _ _).andThen (Effect.faultIf _ _ _ _))
      (by simp [Stmt.ids, Expr.idsOption]) (.refl _)
  | .ret _ none | .var _ _ _ | .block _ | .decls _ | .function _ | .brk _ | .cont _ | .cls _
  | .require _ | .expose _ _ => simp [Stmt.exprs] at he

theorem init {name : Token} {type : Option Token} {e : Expr}
    (h : Bound program (.stmt (.var name type (some e))) σ c c')
    (hok : Accepted program) (hs : Layer.Settled σ) :
    ∃ k k', Bound program (.expr e) (Layer.await name.lexeme σ) k k' := by
  have hno := h.faultless hok
  obtain rfl : c' = (Expr.bindOption (some e) (c.declare name)).define name := h.binds
  rw [Context.define_found] at hno
  refine ⟨c.declare name, _, h.inner (A := []) (B := []) rfl ?_ ?_ (c.declare_found name) ?_⟩
  · rw [Context.declare_scopes]
    match σ, hc : c.scopes, h.fits with
    | [], [], _ => trivial
    | l :: σ, t :: ts, hf =>
      refine ⟨hf.1.await (hs l (by simp)) (Bool.eq_false_iff.2 fun ht => ?_), hf.2⟩
      exact hno name .declaredTwice ((e.bind_effect _).found.mem (c.declare_twice name hc ht))
  · simp [Code.ids, Stmt.ids, Expr.idsOption]
  · rw [Context.define_found]
    exact .refl _

/-! ### Members of classes -/

variable {decl : ClassDecl}

theorem fits_around (h : Layer.FitAll σ c.scopes) (hs : Layer.Settled σ) :
    Layer.FitAll (decl.around σ) (decl.inStatics c).scopes := by
  rw [ClassDecl.inStatics_scopes, ClassDecl.around]
  split
  · exact ⟨(Layer.Fits.empty _).define rfl "super", h.define hs _⟩
  · exact h.define hs _

theorem instances_found (decl : ClassDecl) (c : Context) :
    Finding.Adds decl.instanceIds (decl.inInstances c).found (decl.bind c).found := by
  rw [decl.bind_found]
  exact (decl.afterInstances_effect (FunctionDecl.bindMethods_effect _)
    fun f _ => FunctionDecl.bind_effect .method f).found

theorem statics_found (decl : ClassDecl) (c : Context) :
    Finding.Adds (FieldDecl.idsAll decl.staticFields ++
      (FunctionDecl.idsAll decl.staticMethods ++ decl.instanceIds))
      (decl.inStatics c).found (decl.bind c).found := by
  rw [← List.append_assoc]
  exact (decl.inInstances_found (FunctionDecl.bindStatics_effect _)).trans (instances_found decl c)

theorem superclass {ref : Ref} (h : Bound program (.stmt (.cls decl)) σ c c')
    (hs : Layer.Settled σ) (hr : decl.superclass = some ref) :
    ∃ k k', Bound program (.use .superclass ref) (Layer.define decl.name.lexeme σ) k k' := by
  obtain rfl : c' = decl.bind c := h.binds
  refine ⟨decl.entered c, _, h.inner (A := []) ⟨rfl, by simp⟩ ?_ ?_ (decl.entered_effect c).found
    (B := FieldDecl.idsAll decl.staticFields ++
      (FunctionDecl.idsAll decl.staticMethods ++ decl.instanceIds)) ?_⟩
  · rw [(decl.entered_effect c).scopes]
    exact h.fits.define hs _
  · exact decl.ids_eq.trans (by simp [hr, Code.ids])
  · have heq : (decl.inStatics c).found = ((decl.entered c).refer ref).found := by
      simp [ClassDecl.inStatics, hr, Context.push]
    exact heq ▸ statics_found decl c

theorem staticField {field : FieldDecl} {e : Expr} (h : Bound program (.stmt (.cls decl)) σ c c')
    (hs : Layer.Settled σ) (hf : field ∈ decl.staticFields) (he : field.init = some e) :
    ∃ k k', Bound program (.expr e) (decl.around σ) k k' := by
  obtain rfl : c' = decl.bind c := h.binds
  obtain ⟨fs₁, fs₂, heq⟩ := List.append_of_mem hf
  have hpre := FieldDecl.bindAll_effect fs₁ (decl.inStatics c)
  refine ⟨FieldDecl.bindAll fs₁ (decl.inStatics c), _, h.inner
    (A := (decl.superclass.map (·.id)).toList ++ FieldDecl.idsAll fs₁) rfl
    (hpre.fitsExpr (fits_around h.fits hs)) ?_
    ((decl.entered_effect c).found.trans ((decl.inStatics_found c).trans hpre.found))
    (B := FieldDecl.idsAll fs₂ ++ (FunctionDecl.idsAll decl.staticMethods ++ decl.instanceIds)) ?_⟩
  · exact decl.ids_eq.trans
      (by simp [heq, FieldDecl.idsAll_append, FieldDecl.idsAll, he, Expr.idsOption, Code.ids])
  · refine (FieldDecl.bindAll_effect fs₂ _).found.trans
      (((FunctionDecl.bindStatics_effect decl.staticMethods _).found).trans ?_)
    have hin := instances_found decl c
    rw [ClassDecl.inInstances, Context.note_found, heq, FieldDecl.bindAll, List.foldl_append,
      List.foldl_cons, he] at hin
    exact hin

theorem staticMethod {f : FunctionDecl} (h : Bound program (.stmt (.cls decl)) σ c c')
    (hs : Layer.Settled σ) (hf : f ∈ decl.staticMethods) :
    ∃ k k', Bound program (.function f) (decl.around σ) k k' := by
  obtain rfl : c' = decl.bind c := h.binds
  obtain ⟨fs₁, fs₂, heq⟩ := List.append_of_mem hf
  have hfields := FieldDecl.bindAll_effect decl.staticFields (decl.inStatics c)
  have hpre := hfields.andThen (FunctionDecl.bindStatics_effect fs₁ _)
  refine ⟨_, _, h.inner (A := (decl.superclass.map (·.id)).toList ++
      (FieldDecl.idsAll decl.staticFields ++ FunctionDecl.idsAll fs₁)) ⟨.function, rfl⟩
    (hpre.fitsExpr (fits_around h.fits hs)) ?_
    ((decl.entered_effect c).found.trans ((decl.inStatics_found c).trans hpre.found))
    (B := FunctionDecl.idsAll fs₂ ++ decl.instanceIds) ?_⟩
  · exact decl.ids_eq.trans
      (by simp [heq, FunctionDecl.idsAll_append, FunctionDecl.idsAll, Code.ids])
  · refine (FunctionDecl.bindStatics_effect fs₂ _).found.trans ?_
    have hin := instances_found decl c
    rw [ClassDecl.inInstances, Context.note_found, heq, FunctionDecl.bindStatics_append] at hin
    exact hin

theorem method {f : FunctionDecl} (h : Bound program (.stmt (.cls decl)) σ c c')
    (hs : Layer.Settled σ) (hf : f ∈ decl.ofInstances) :
    ∃ k k', Bound program (.function f) (.this f :: decl.around σ) k k' := by
  obtain rfl : c' = decl.bind c := h.binds
  have hbefore := (decl.entered_effect c).found.trans ((decl.inStatics_found c).trans
    (decl.inInstances_found (FunctionDecl.bindStatics_effect _)))
  have hfits : Layer.FitAll (.this f :: decl.around σ) (decl.inInstances c).scopes := by
    rw [decl.inInstances_scopes (FunctionDecl.bindStatics_effect _)]
    exact ⟨(Layer.Fits.empty _).define rfl "this", fits_around h.fits hs⟩
  rcases List.mem_append.1 hf with hf | hf
  · obtain ⟨fs₁, fs₂, heq⟩ := List.append_of_mem hf
    have hpre := FunctionDecl.bindMethods_effect fs₁ (decl.inInstances c)
    refine ⟨_, _, h.inner (A := (decl.superclass.map (·.id)).toList ++ (FieldDecl.idsAll
        decl.staticFields ++ FunctionDecl.idsAll decl.staticMethods) ++ FunctionDecl.idsAll fs₁)
      ⟨if f.isInit then .initializer else .method, rfl⟩ (hpre.fitsExpr hfits) ?_
      (hbefore.trans hpre.found)
      (B := FunctionDecl.idsAll fs₂ ++ FunctionDecl.idsAll decl.fields.toList) ?_⟩
    · exact decl.ids_eq.trans (by
        simp [ClassDecl.instanceIds, heq, FunctionDecl.idsAll_append, FunctionDecl.idsAll, Code.ids])
    · refine (FunctionDecl.bindMethods_effect fs₂ _).found.trans ?_
      rw [decl.bind_found, ClassDecl.afterInstances, heq, FunctionDecl.bindMethods_append,
        FunctionDecl.bindMethods]
      cases decl.fields with
      | none => exact .refl _
      | some f => simpa [FunctionDecl.idsAll] using (FunctionDecl.bind_effect .method f _).found
  · have hpre := FunctionDecl.bindMethods_effect decl.methods (decl.inInstances c)
    have hfield : decl.fields = some f := Option.mem_toList.1 hf
    refine ⟨_, _, h.inner (A := (decl.superclass.map (·.id)).toList ++ (FieldDecl.idsAll
        decl.staticFields ++ FunctionDecl.idsAll decl.staticMethods) ++
          FunctionDecl.idsAll decl.methods)
      ⟨.method, rfl⟩ (hpre.fitsExpr hfits) ?_ (hbefore.trans hpre.found) (B := []) ?_⟩
    · exact decl.ids_eq.trans (by
        simp [ClassDecl.instanceIds, hfield, FunctionDecl.idsAll, Code.ids])
    · rw [decl.bind_found, ClassDecl.afterInstances, hfield]
      exact .refl _

end Bound

/-- The walk comes to every place of a program in which it finds no fault. -/
theorem Placed.bound {program : List Stmt} {code : Code} {σ : List Layer}
    (hids : (Stmt.idsAll program).Nodup) (hok : Accepted program)
    (h : Placed program code σ) : ∃ c c', Bound program code σ c c' := by
  induction h with
  | program =>
    exact ⟨{}, _, rfl, trivial, hids, fun id hid => hid, by simp, fun f hf => hf,
      fun id _ d hd => hd⟩
  | @head s ss _ _ ih =>
    obtain ⟨c, c', h⟩ := ih
    obtain rfl := h.binds
    exact ⟨c, _, h.inner (A := []) rfl h.fits rfl (.refl _) (Stmt.bindAll_effect ss _).found⟩
  | @tail s ss _ hp ih =>
    obtain ⟨c, c', h⟩ := ih
    obtain rfl := h.binds
    have hpre := s.bind_effect c
    exact ⟨s.bind c, _, h.inner (B := []) rfl (hpre.fits h.fits hp.settled)
      (by simp [Code.ids, Stmt.idsAll]) hpre.found (.refl _)⟩
  | expr _ he ih =>
    obtain ⟨c, c', h⟩ := ih
    exact h.expr he
  | init hp ih =>
    obtain ⟨c, c', h⟩ := ih
    exact h.init hok hp.settled
  | block hp ih =>
    obtain ⟨c, c', h⟩ := ih
    obtain rfl := h.binds
    exact ⟨c.push, _, h.inner (A := []) (B := []) rfl ⟨.empty _, h.fits⟩
      (by simp [Code.ids, Stmt.ids]) (.refl _) (.refl _)⟩
  | decls _ ih =>
    obtain ⟨c, c', h⟩ := ih
    obtain rfl := h.binds
    exact ⟨c, _, h.inner (A := []) (B := []) rfl h.fits (by simp [Code.ids, Stmt.ids]) (.refl _)
      (.refl _)⟩
  | @yes e y n _ _ ih =>
    obtain ⟨c, c', h⟩ := ih
    obtain rfl := h.binds
    have hfits := (e.bind_effect c).fitsExpr h.fits
    cases n with
    | none =>
      exact ⟨e.bind c, _, h.inner (B := []) rfl hfits (by simp [Code.ids, Stmt.ids])
        (e.bind_effect c).found (.refl _)⟩
    | some n =>
      exact ⟨e.bind c, _, h.inner rfl hfits rfl (e.bind_effect c).found (n.bind_effect _).found⟩
  | @no e y n _ hp ih =>
    obtain ⟨c, c', h⟩ := ih
    obtain rfl := h.binds
    have hpre := (e.bind_effect c).andThen (y.bind_effect _)
    exact ⟨y.bind (e.bind c), _, h.inner (B := []) rfl (hpre.fits h.fits hp.settled)
      (by simp [Code.ids, Stmt.ids]) hpre.found (.refl _)⟩
  | @round e step body _ _ ih =>
    obtain ⟨c, c', h⟩ := ih
    obtain rfl := h.binds
    exact ⟨{ e.bind c with loops := (e.bind c).loops + 1 }, _, h.inner rfl
      ((e.bind_effect c).fitsExpr h.fits) rfl (e.bind_effect c).found
      (Expr.bindOption_effect step _).found⟩
  | @step e step body _ hp ih =>
    obtain ⟨c, c', h⟩ := ih
    obtain rfl := h.binds
    let k := body.bind { e.bind c with loops := (e.bind c).loops + 1 }
    have hpre : Effect body.declared (e.ids ++ body.ids) c k :=
      (e.bind_effect c).andThen (body.bind_effect _).inLoops
    exact ⟨{ k with loops := k.loops - 1 }, _, h.inner (B := []) rfl (hpre.fits h.fits hp.settled)
      (by simp [Code.ids, Stmt.ids, Expr.idsOption]) hpre.found (.refl _)⟩
  | @function decl _ hp ih =>
    obtain ⟨c, c', h⟩ := ih
    obtain rfl := h.binds
    have hpre := Effect.declare c decl.name
    exact ⟨_, _, h.inner (A := []) (B := []) ⟨.function, rfl⟩ (hpre.fits h.fits hp.settled)
      (by simp [Code.ids, Stmt.ids]) hpre.found (.refl _)⟩
  | superclass hp hr ih =>
    obtain ⟨c, c', h⟩ := ih
    exact h.superclass hp.settled hr
  | staticField hp hf he ih =>
    obtain ⟨c, c', h⟩ := ih
    exact h.staticField hp.settled hf he
  | staticMethod hp hf ih =>
    obtain ⟨c, c', h⟩ := ih
    exact h.staticMethod hp.settled hf
  | method hp hf ih =>
    obtain ⟨c, c', h⟩ := ih
    exact h.method hp.settled hf
  | @inside decl _ hp ih =>
    obtain ⟨c, c', h⟩ := ih
    obtain ⟨kind, rfl⟩ := h.binds
    obtain ⟨name, params, body⟩ := decl
    have hpre := Effect.defineAll { c.push with function := some kind, loops := 0 } params
    refine ⟨_, _, h.inner (A := []) (B := []) rfl (hpre.scopes ▸ h.fits.call hp.settled _)
      (by simp [Code.ids]) hpre.found (.refl _)⟩
  | @body decl _ _ ih =>
    obtain ⟨c, c', h⟩ := ih
    obtain ⟨name, params, body⟩ := decl
    exact ⟨c, c', h.binds, h.fits, h.nodup, h.mem, h.before, h.kept, h.after⟩
  | part _ hp ih =>
    obtain ⟨c, c', h⟩ := ih
    exact h.part hp
  | use _ hu ih =>
    obtain ⟨c, c', h⟩ := ih
    exact h.use hok hu

/-! ### What is found -/

/-- The references whose distances are found are those of the program, in its order. -/
theorem findings_ids (program : List Stmt) :
    ((findings program).filterMap Finding.id?).Sublist (Stmt.idsAll program) := by
  obtain ⟨new, he, hnew⟩ := (Stmt.bindAll_effect program {}).found
  rw [findings, he, List.append_nil]
  exact hnew

theorem mem_ids_of_local {program : List Stmt} {id d : Nat}
    (h : Finding.local id d ∈ findings program) : id ∈ Stmt.idsAll program :=
  (findings_ids program).subset (List.mem_filterMap.2 ⟨_, h, rfl⟩)

theorem Finding.local_unique {fs : List Finding} (hfs : (fs.filterMap Finding.id?).Nodup)
    {id d d' : Nat} (h : Finding.local id d ∈ fs) (h' : Finding.local id d' ∈ fs) : d = d' := by
  induction fs with
  | nil => simp at h
  | cons f fs ih =>
    have hmem : ∀ {k}, Finding.local id k ∈ fs → id ∈ fs.filterMap Finding.id? := fun hk =>
      List.mem_filterMap.2 ⟨_, hk, rfl⟩
    rcases List.mem_cons.1 h with rfl | ht <;> rcases List.mem_cons.1 h' with h' | ht'
    · injection h' with _ hd
      exact hd.symm
    · rw [List.filterMap_cons_some (f := Finding.id?) rfl, List.nodup_cons] at hfs
      exact absurd (hmem ht') hfs.1
    · subst h'
      rw [List.filterMap_cons_some (f := Finding.id?) rfl, List.nodup_cons] at hfs
      exact absurd (hmem ht) hfs.1
    · refine ih (hfs.sublist ?_) ht ht'
      exact (List.sublist_cons_self f fs).filterMap _

variable {program : List Stmt} {σ : List Layer} {u : Use} {ref : Ref}

/-- A distance is recorded for a use of a name exactly if a scope around it declares the name, and
then it is the distance to the nearest such scope. -/
theorem Placed.recorded_iff (hids : (Stmt.idsAll program).Nodup)
    (hok : Accepted program) (h : Placed program (.use u ref) σ)
    (d : Nat) :
    Finding.local ref.id d ∈ findings program ↔ Layer.distance? ref.name.lexeme σ = some d := by
  obtain ⟨c, c', hb⟩ := h.bound hids hok
  obtain ⟨rfl, -⟩ := hb.binds
  have hid : ref.id ∈ (Code.use u ref).ids := List.mem_singleton_self _
  have hbefore := hb.before ref.id hid
  rw [← hb.fits.distance?_eq, findings, List.mem_reverse]
  constructor
  · intro hm
    have hm := hb.after ref.id hid d hm
    rw [Context.refer] at hm
    split at hm
    · next d' hd =>
      rcases List.mem_cons.1 hm with he | hm
      · injection he with _ he
        rw [hd, he]
      · exact absurd hm (hbefore d)
    · exact absurd hm (hbefore d)
  · intro hd
    refine hb.kept _ ?_
    simp [Context.refer, hd, Context.find]

theorem Placed.id_mem (hids : (Stmt.idsAll program).Nodup) (hok : Accepted program)
    (h : Placed program (.use u ref) σ) : ref.id ∈ Stmt.idsAll program := by
  obtain ⟨c, c', hb⟩ := h.bound hids hok
  exact hb.mem ref.id (List.mem_singleton_self _)

theorem Layer.Settled.absurd {σ : List Layer} (hs : Layer.Settled σ) {l : Layer} (hl : l ∈ σ)
    {x : String} (hx : l.pending = some x) {p : Prop} : p := by
  rw [hs l hl] at hx
  cases hx

/-- Hidden variables have no initializers. -/
theorem Placed.pending_isName {code : Code} (htidy : Stmt.TidyAll program)
    (h : Placed program code σ) {l : Layer} {x : String} (hl : l ∈ σ) (hx : l.pending = some x) :
    x ≠ "this" ∧ x ≠ "super" := by
  induction h with
  | part _ _ ih | use _ _ ih => exact ih hl
  | @init name type e σ hp =>
    cases σ with
    | nil => simp [Layer.await] at hl
    | cons l' σ =>
      rcases List.mem_cons.1 hl with rfl | hl
      · injection hx with hx
        subst hx
        exact (hp.tidy htidy).1
      · exact hp.settled.tail.absurd hl hx
  | expr hp => exact hp.settled.absurd hl hx
  | step hp => exact (hp.settled.defineAll _).absurd hl hx
  | superclass hp => exact (hp.settled.define _).absurd hl hx
  | @staticField decl _ _ _ hp => exact (decl.settled_around hp.settled).absurd hl hx
  | program => simp at hl
  | head hp => exact hp.settled.absurd hl hx
  | tail hp => exact hp.tail.settled.absurd hl hx
  | block hp => exact hp.block.settled.absurd hl hx
  | decls hp => exact hp.decls.settled.absurd hl hx
  | yes hp => exact hp.yes.settled.absurd hl hx
  | no hp => exact hp.no.settled.absurd hl hx
  | round hp => exact hp.round.settled.absurd hl hx
  | function hp => exact hp.function.settled.absurd hl hx
  | staticMethod hp hf => exact (hp.staticMethod hf).settled.absurd hl hx
  | method hp hf => exact (hp.method hf).settled.absurd hl hx
  | inside hp => exact hp.inside.settled.absurd hl hx
  | body hp => exact hp.body.settled.absurd hl hx

/-- The uses of a name that binding takes to read it. -/
def Use.IsRead : Use → Prop
  | .variable | .this | .super | .superclass => True
  | .assign | .compoundRead | .compoundWrite => False

/-- Where a name is read, its initializer is behind. -/
theorem Placed.not_pending (htidy : Stmt.TidyAll program) (hids : (Stmt.idsAll program).Nodup)
    (hok : Accepted program) (h : Placed program (.use u ref) σ)
    (hu : u.IsRead) {l : Layer} (hl : l ∈ σ) : l.pending ≠ some ref.name.lexeme := by
  intro hx
  have hname := h.pending_isName htidy hl hx
  have hthis := h.tidy htidy
  cases u with
  | this => exact hname.1 hthis
  | super => exact hname.2 hthis
  | superclass =>
    cases h with
    | superclass hp => exact (hp.settled.define _).absurd hl hx
    | @use e _ _ _ _ hu => cases e <;> simp [Expr.uses] at hu
  | «variable» =>
    obtain ⟨c, c', hb⟩ := h.bound hids hok
    have hi := hb.binds.2 rfl
    have hs := h.settled
    have hf := hb.fits
    -- There are as many open scopes as there are scopes around the reference.
    cases σ with
    | nil => cases hl
    | cons l' σ =>
      cases hc : c.scopes with
      | nil =>
        rw [hc] at hf
        exact hf.elim
      | cons t ts =>
        rw [hc] at hf
        rcases List.mem_cons.1 hl with rfl | hl
        · have ht := (hf.1 ref.name.lexeme).2.2 hx
          simp [Context.isInitializing, hc, ht] at hi
        · exact Layer.Settled.absurd hs hl hx
  | assign | compoundRead | compoundWrite => exact hu

end Treewalk
