import Treewalk.Proofs.ReadingExpr

/-!
# Reading numbers references

Reading a text yields tidy trees, and the references in them have ids of their own: those of a text
read from `firstId` on are all different and lie from `firstId` up to the `nextId` that reading
leaves (`Source.read_fresh`). So no two texts of a session share an id.
-/

namespace Treewalk

/-! ### Classes -/

namespace Members

/-- The ids of the references of members. -/
def ids (m : Members) : List Nat :=
  FunctionDecl.idsAll m.methods ++ (FunctionDecl.idsAll m.staticMethods ++
    (FieldDecl.idsAll m.fields ++ FieldDecl.idsAll m.staticFields))

/-- All members are tidy, with ids from `a` up to `b`. -/
structure Fresh (a b : Nat) (m : Members) : Prop where
  methods : ∀ f ∈ m.methods, f.Tidy
  staticMethods : ∀ f ∈ m.staticMethods, f.Tidy
  fields : ∀ f ∈ m.fields, Expr.TidyOption f.init
  staticFields : ∀ f ∈ m.staticFields, Expr.TidyOption f.init
  ids : Numbers a b m.ids

variable {a b c : Nat} {m : Members}

theorem Fresh.empty : Fresh a b {} := by
  refine ⟨?_, ?_, ?_, ?_, ?_⟩
  · simp
  · simp
  · simp
  · simp
  · exact .nil

theorem Fresh.addMethod (h : m.Fresh a b) (static : Bool) {f : FunctionDecl} (hf : f.Fresh b c)
    (hab : a ≤ b) (hbc : b ≤ c) : (m.addMethod static f).Fresh a c := by
  have hids := h.ids.append hf.2 hab hbc
  cases static with
  | true =>
    refine ⟨h.methods, List.forall_mem_cons.2 ⟨hf.1, h.staticMethods⟩, h.fields, h.staticFields,
      hids.perm (List.perm_iff_count.2 fun i => ?_)⟩
    simp only [Members.addMethod, Members.ids, FunctionDecl.idsAll, List.count_append, if_true]
    omega
  | false =>
    refine ⟨List.forall_mem_cons.2 ⟨hf.1, h.methods⟩, h.staticMethods, h.fields, h.staticFields,
      hids.perm (List.perm_iff_count.2 fun i => ?_)⟩
    simp only [Members.addMethod, Members.ids, FunctionDecl.idsAll, List.count_append,
      Bool.false_eq_true, if_false]
    omega

theorem Fresh.addField (h : m.Fresh a b) (static : Bool) {f : FieldDecl}
    (hf : Expr.FreshOption b c f.init) (hab : a ≤ b) (hbc : b ≤ c) :
    (m.addField static f).Fresh a c := by
  have hids := h.ids.append hf.2 hab hbc
  cases static with
  | true =>
    refine ⟨h.methods, h.staticMethods, h.fields, List.forall_mem_cons.2 ⟨hf.1, h.staticFields⟩,
      hids.perm (List.perm_iff_count.2 fun i => ?_)⟩
    simp only [Members.addField, Members.ids, FieldDecl.idsAll, List.count_append, if_true]
    omega
  | false =>
    refine ⟨h.methods, h.staticMethods, List.forall_mem_cons.2 ⟨hf.1, h.fields⟩, h.staticFields,
      hids.perm (List.perm_iff_count.2 fun i => ?_)⟩
    simp only [Members.addField, Members.ids, FieldDecl.idsAll, List.count_append,
      Bool.false_eq_true, if_false]
    omega

end Members

namespace ClassDecl

/-- Putting assignments into a body neither loses nor repeats a statement. -/
theorem spliceInto_perm (hasSuper : Bool) (assignments body : List Stmt) :
    (spliceInto hasSuper assignments body).Perm (body ++ assignments) := by
  cases hasSuper with
  | false => exact List.perm_append_comm
  | true =>
    have h : (body.take 1 ++ assignments ++ body.drop 1).Perm
        (body.take 1 ++ body.drop 1 ++ assignments) := by
      rw [List.append_assoc, List.append_assoc]
      exact List.perm_append_comm.append_left _
    rwa [List.take_append_drop] at h

theorem spliceFirst_tidy (hasSuper : Bool) {assignments : List Stmt} (ha : Stmt.TidyAll assignments)
    {methods : List FunctionDecl} (hm : ∀ f ∈ methods, f.Tidy) :
    ∀ f ∈ spliceFirst hasSuper assignments methods, f.Tidy := by
  induction methods with
  | nil => simp [spliceFirst]
  | cons m ms ih =>
    obtain ⟨h, hms⟩ := List.forall_mem_cons.1 hm
    rw [spliceFirst]
    split
    · refine List.forall_mem_cons.2 ⟨FunctionDecl.tidy_iff.2 ⟨(FunctionDecl.tidy_iff.1 h).1, ?_⟩, hms⟩
      refine Stmt.tidyAll_iff.2 fun s hs => ?_
      rcases List.mem_append.1 ((spliceInto_perm ..).mem_iff.1 hs) with hs | hs
      · exact Stmt.tidyAll_iff.1 (FunctionDecl.tidy_iff.1 h).2 s hs
      · exact Stmt.tidyAll_iff.1 ha s hs
    · exact List.forall_mem_cons.2 ⟨h, ih hms⟩

theorem spliceFirst_ids (hasSuper : Bool) (assignments : List Stmt) {methods : List FunctionDecl}
    (hi : methods.any FunctionDecl.isInit) :
    (FunctionDecl.idsAll (spliceFirst hasSuper assignments methods)).Perm
      (FunctionDecl.idsAll methods ++ Stmt.idsAll assignments) := by
  induction methods with
  | nil => simp at hi
  | cons m ms ih =>
    rw [spliceFirst]
    split
    · have h : (Stmt.idsAll (spliceInto hasSuper assignments m.body)).Perm
          (Stmt.idsAll m.body ++ Stmt.idsAll assignments) := by
        simp only [Stmt.idsAll_eq, ← List.flatMap_append]
        exact (spliceInto_perm ..).flatMap_right _
      refine List.perm_iff_count.2 fun i => ?_
      have := List.perm_iff_count.1 h i
      simp only [FunctionDecl.idsAll, FunctionDecl.ids_eq, List.count_append] at this ⊢
      omega
    · next hm =>
      have := ih (by simpa [hm] using hi)
      refine List.perm_iff_count.2 fun i => ?_
      have := List.perm_iff_count.1 this i
      simp only [FunctionDecl.idsAll, List.count_append] at this ⊢
      omega

theorem spliceFirst_eq (hasSuper : Bool) (assignments : List Stmt) {methods : List FunctionDecl}
    (hi : methods.any FunctionDecl.isInit = false) :
    spliceFirst hasSuper assignments methods = methods := by
  induction methods with
  | nil => rfl
  | cons m ms ih =>
    rw [List.any_cons, Bool.or_eq_false_iff] at hi
    rw [spliceFirst, if_neg (by simp [hi.1]), ih hi.2]

end ClassDecl

/-- The members of a class and the assignments to its fields, put where they belong. -/
theorem Members.Fresh.toClass {a₀ a₁ a b : Nat} {name : Token} {sup : Option Ref}
    {members : Members} {ss : List Stmt} {fresh : List Nat} (hm : members.Fresh a₁ a)
    (hname : name.IsName) (hsup : ∀ ref ∈ sup, ref.name.IsName)
    (hs : Numbers a₀ a₁ (sup.map (·.id)).toList) (ht : Stmt.TidyAll ss) (hn : Numbers a b fresh)
    (hp : (Stmt.idsAll ss).Perm (FieldDecl.idsAll members.fields.reverse ++ fresh)) (h₀ : a₀ ≤ a₁)
    (h₁ : a₁ ≤ a) (hab : a ≤ b) : Stmt.Fresh a₀ b (.cls
      { name, superclass := sup
        methods := ClassDecl.spliceFirst sup.isSome ss members.methods.reverse
        fields := if members.methods.reverse.any FunctionDecl.isInit || ss.isEmpty then none
          else some ⟨.placed (.identifier initName) initName name, [], ss⟩
        staticMethods := members.staticMethods.reverse
        staticFields := members.staticFields.reverse }) := by
  have hrev : ∀ f ∈ members.methods.reverse, f.Tidy :=
    fun f hf => hm.methods f (List.mem_reverse.1 hf)
  have hall := hs.append (hm.ids.append hn h₁ hab) h₀ (Nat.le_trans h₁ hab)
  have hids : ∀ i, (Stmt.idsAll ss).count i = (FieldDecl.idsAll members.fields).count i +
      fresh.count i := fun i => by
    rw [List.perm_iff_count.1 hp i, List.count_append, FieldDecl.count_idsAll_reverse]
  refine ⟨ClassDecl.tidy_iff.2 ⟨hname, hsup, ClassDecl.spliceFirst_tidy _ ht hrev, ?_,
    fun f hf => hm.staticMethods f (List.mem_reverse.1 hf),
    fun f hf => hm.staticFields f (List.mem_reverse.1 hf)⟩,
    hall.perm (List.perm_iff_count.2 fun i => ?_)⟩
  · intro f hf
    dsimp only at hf
    split at hf
    · cases hf
    · cases hf
      exact ⟨FunctionDecl.tidy_iff.2 ⟨by simp, ht⟩, rfl⟩
  · have := hids i
    cases hi : members.methods.reverse.any FunctionDecl.isInit with
    | true =>
      have hspl := List.perm_iff_count.1 (ClassDecl.spliceFirst_ids sup.isSome ss hi) i
      simp only [Stmt.ids, ClassDecl.ids, Members.ids, List.count_append,
        FunctionDecl.count_idsAll_reverse, FieldDecl.count_idsAll_reverse, Bool.true_or, if_true,
        List.count_nil] at hspl ⊢
      omega
    | false =>
      rw [ClassDecl.spliceFirst_eq _ _ hi]
      cases ss with
      | nil =>
        simp only [Stmt.ids, Stmt.idsAll, ClassDecl.ids, Members.ids, List.count_append,
          FunctionDecl.count_idsAll_reverse, FieldDecl.count_idsAll_reverse, List.isEmpty_nil,
          Bool.or_true, if_true, List.count_nil] at this ⊢
        omega
      | cons s ss =>
        simp only [Stmt.ids, ClassDecl.ids, FunctionDecl.ids, Members.ids, List.count_append,
          FunctionDecl.count_idsAll_reverse, FieldDecl.count_idsAll_reverse, List.isEmpty_cons,
          Bool.or_false, Bool.false_eq_true, if_false] at this ⊢
        omega

namespace Read

/-- The assignments to fields have the references of the initializers, and new ones for `this`. -/
theorem fieldAssignments_reads (a : Nat) {fields : List FieldDecl}
    (hf : ∀ f ∈ fields, Expr.TidyOption f.init) :
    Reads a (fieldAssignments fields) fun b ss => Stmt.TidyAll ss ∧
      ∃ fresh, Numbers a b fresh ∧ (Stmt.idsAll ss).Perm (FieldDecl.idsAll fields ++ fresh) := by
  induction fields generalizing a with
  | nil => exact .pure ⟨trivial, [], .nil, .refl _⟩
  | cons f fs ih =>
    obtain ⟨h, hfs⟩ := List.forall_mem_cons.1 hf
    rw [fieldAssignments]
    refine (refer_reads a _).bind fun b ref _ hr => ?_
    obtain ⟨rfl, rfl⟩ := hr
    refine (ih (a + 1) hfs).bind fun c ss hc hss => .pure ?_
    obtain ⟨ht, fresh, hn, hp⟩ := hss
    have hv : (f.init.getD (.literal .nil)).Tidy := by
      cases hi : f.init with
      | none => exact trivial
      | some e => exact h e hi
    have hids : (f.init.getD (.literal .nil)).ids = Expr.idsOption f.init := by
      cases f.init <;> rfl
    refine ⟨⟨⟨rfl, hv⟩, ht⟩, a :: fresh, (Numbers.single (Nat.lt_succ_self a)).append hn
      (Nat.le_succ a) hc, List.perm_iff_count.2 fun i => ?_⟩
    have := List.perm_iff_count.1 hp i
    simp only [Stmt.idsAll, Stmt.ids, Expr.ids, FieldDecl.idsAll, List.count_append, List.count_cons,
      List.count_nil, hids] at this ⊢
    omega

/-- The members of a class, put where they belong, keep their references. -/
theorem classOf_reads {a₀ a₁ a : Nat} {name : Token} {sup : Option Ref} {members : Members}
    (hname : name.IsName) (hsup : ∀ ref ∈ sup, ref.name.IsName)
    (hs : Numbers a₀ a₁ (sup.map (·.id)).toList) (hm : members.Fresh a₁ a) (h₀ : a₀ ≤ a₁)
    (h₁ : a₁ ≤ a) : Reads a (classOf name sup members) fun b s => s.Fresh a₀ b := by
  unfold classOf
  refine (fieldAssignments_reads a fun f hf => hm.fields f (List.mem_reverse.1 hf)).bind ?_
  rintro b ss hab ⟨ht, fresh, hn, hp⟩
  -- What is reported about the first `init` does not matter for the tree.
  have htree := hm.toClass hname hsup hs ht hn hp h₀ h₁ hab
  dsimp only
  split
  · refine .ite (fun _ => ?_) fun _ => .pure htree
    exact (report_reads b _ _).after fun _ _ => .pure htree
  · exact .pure htree

/-! ### Statements -/

theorem recover_scanned {r : Reader} (h : r.Scanned) : r.recover.Scanned := by
  have hdrop : ∀ (ts : List Token) (last : Token), Reader.dropSpoiled last ts ⊆ ts := by
    intro ts
    induction ts with
    | nil => intro last; exact List.Subset.refl _
    | cons t ts ih =>
      intro last
      rw [Reader.dropSpoiled]
      split
      · exact List.Subset.refl _
      · exact List.subset_cons_of_subset _ (ih t)
  intro t ht
  unfold Reader.recover at ht
  split at ht
  · next u us hu => exact h t (by rw [hu]; exact List.mem_cons_of_mem _ (hdrop us u ht))
  · exact h t ht

theorem recovering_reads {a : Nat} {p : Read Stmt} {Q : Nat → Stmt → Prop} (hp : Reads a p Q) :
    Reads a (recovering p) fun b x => ∀ s ∈ x, Q b s := by
  intro r hr ha
  have h := hp r hr ha
  unfold recovering
  split at h
  · next s r' hs =>
    simp only [hs]
    exact ⟨h.1, h.2.1, fun s' hs' => by cases hs'; exact h.2.2⟩
  · next e r' hs =>
    simp only [hs]
    cases e with
    | faulty =>
      exact ⟨recover_scanned h.1, nextId_recover r' ▸ h.2, by simp⟩
    | exhausted => exact h

/-- What the parts of the grammar of statements yield with `n` nested steps. -/
structure StmtReads (n : Nat) : Prop where
  declaration : ∀ a, Reads a (declaration n) fun b x => ∀ s ∈ x, s.Fresh a b
  block : ∀ {a₀ a acc}, a₀ ≤ a → Stmt.FreshAll a₀ a acc →
    Reads a (block n acc) fun b ss => Stmt.FreshAll a₀ b ss
  functionRest : ∀ role name a,
    Reads a (functionRest n role name) fun b f => f.name = name ∧ f.Fresh a b
  classDeclaration : ∀ a, Reads a (classDeclaration n) fun b s => s.Fresh a b
  classMembers : ∀ {a₀ a acc}, a₀ ≤ a → acc.Fresh a₀ a →
    Reads a (classMembers n acc) fun b m => m.Fresh a₀ b
  statement : ∀ a, Reads a (statement n) fun b s => s.Fresh a b ∧ s.declared = []
  branch : ∀ a, Reads a (branch n) fun b s => s.Fresh a b ∧ s.declared = []
  countedLoop : ∀ a, Reads a (countedLoop n) fun b s => s.Fresh a b ∧ s.declared = []

namespace StmtReads
variable {n : Nat}

theorem declaration_succ (ih : StmtReads n) (a : Nat) :
    Reads a (Read.declaration (n + 1)) fun b x => ∀ s ∈ x, s.Fresh a b := by
  have hstmt : Reads a (Read.statement n) fun b s => s.Fresh a b :=
    (ih.statement a).imp fun b s _ h => h.1
  rw [Read.declaration]
  refine recovering_reads ((site_reads a).after fun s _ => ?_)
  cases s with
  | stop p => exact hstmt
  | token t =>
    dsimp only
    split
    · exact (skip_reads a).after fun _ _ => varDeclaration_reads n a
    · refine (skip_reads a).after fun _ _ => (expectName_reads a _).after fun name hn => ?_
      exact (ih.functionRest _ name a).bind fun b f _ hf => .pure ⟨⟨hf.1 ▸ hn, hf.2.1⟩, hf.2.2⟩
    · exact (skip_reads a).after fun _ _ => ih.classDeclaration a
    · exact (skip_reads a).after fun _ _ => importDeclaration_reads n a t
    · exact (skip_reads a).after fun _ _ => exposeDeclaration_reads n a t
    · exact hstmt

theorem block_succ (ih : StmtReads n) {a₀ a : Nat} {acc : List Stmt} (hle : a₀ ≤ a)
    (h : Stmt.FreshAll a₀ a acc) :
    Reads a (Read.block (n + 1) acc) fun b ss => Stmt.FreshAll a₀ b ss := by
  rw [Read.block]
  refine (atEnd_reads a).after fun _ _ => (ahead_reads a _).after fun _ _ => ?_
  refine .ite (fun _ => (expectSymbol_reads a _ _).after fun _ _ => .pure h.reverse) fun _ => ?_
  refine (ih.declaration a).bind fun b x hab hx => ?_
  cases x with
  | none => exact ih.block (Nat.le_trans hle hab) (h.mono hab)
  | some s => exact ih.block (Nat.le_trans hle hab) (h.cons (hx s rfl) hle hab)

theorem functionRest_succ (ih : StmtReads n) (role : FunctionRole) (name : Token) (a : Nat) :
    Reads a (Read.functionRest (n + 1) role name) fun b f => f.name = name ∧ f.Fresh a b := by
  rw [Read.functionRest]
  refine (expectSymbol_reads a _ _).after fun _ _ => (ahead_reads a _).after fun _ _ => .either
    (P := fun b params => b = a ∧ ∀ p ∈ params, p.IsName) (.pure ⟨rfl, by simp⟩)
    (parameters_reads n a 0 (by simp)) fun b params _ hps => ?_
  obtain ⟨rfl, hps⟩ := hps
  refine (expectSymbol_reads b _ _).after fun _ _ => (expectSymbol_reads b _ _).after fun _ _ => ?_
  refine (ih.block (Nat.le_refl b) .nil).bind fun c body _ hb => .pure ⟨rfl, ?_, ?_⟩
  · exact FunctionDecl.tidy_iff.2 ⟨hps, hb.1⟩
  · rw [FunctionDecl.ids_eq]
    exact hb.2

theorem classDeclaration_succ (ih : StmtReads n) (a : Nat) :
    Reads a (Read.classDeclaration (n + 1)) fun b s => s.Fresh a b := by
  rw [Read.classDeclaration]
  refine (expectName_reads a _).after fun name hn => ?_
  refine (superclass_reads a name).bind fun b sup hab hs => ?_
  refine (expectSymbol_reads b _ _).after fun _ _ => ?_
  refine (ih.classMembers (Nat.le_refl b) .empty).bind fun c members hbc hm => ?_
  exact (expectSymbol_reads c _ _).after fun _ _ => classOf_reads hn hs.1 hs.2 hm hab hbc

theorem classMembers_succ (ih : StmtReads n) {a₀ a : Nat} {acc : Members} (hle : a₀ ≤ a)
    (h : acc.Fresh a₀ a) :
    Reads a (Read.classMembers (n + 1) acc) fun b m => m.Fresh a₀ b := by
  rw [Read.classMembers]
  refine (atEnd_reads a).after fun _ _ => (ahead_reads a _).after fun _ _ => ?_
  refine .ite (fun _ => .pure h) fun _ => ?_
  refine (acceptKeyword_reads a _).after fun static _ => (expectName_reads a _).after fun name _ => ?_
  refine (ahead_reads a _).after fun _ _ => .ite (fun _ => ?_) fun _ => ?_
  · exact (ih.functionRest _ name a).bind fun b f hab hf =>
      ih.classMembers (Nat.le_trans hle hab) (h.addMethod static hf.2 hle hab)
  · refine (typeName_reads a).after fun type _ => ?_
    refine (acceptSymbol_reads a _).after fun _ _ => .either
      (given_reads ((exprReads n).expression a)) (omitted_reads a) fun b init hab hi => ?_
    refine (expectSymbol_reads b _ _).after fun _ _ => ?_
    exact ih.classMembers (Nat.le_trans hle hab) (h.addField static hi hle hab)

theorem statement_succ (ih : StmtReads n) (a : Nat) :
    Reads a (Read.statement (n + 1)) fun b s => s.Fresh a b ∧ s.declared = [] := by
  rw [Read.statement]
  refine (site_reads a).after fun s _ => ?_
  cases s with
  | stop p => exact expressionStatement_reads n a
  | token t =>
    dsimp only
    split
    · refine (skip_reads a).after fun _ _ => ((exprReads n).expression a).bind fun b e _ he => ?_
      exact (expectSymbol_reads b _ _).after fun _ _ => .pure ⟨he, rfl⟩
    · exact (skip_reads a).after fun _ _ => ih.branch a
    · refine (skip_reads a).after fun _ _ => (expectSymbol_reads a _ _).after fun _ _ => ?_
      refine ((exprReads n).expression a).bind fun b e hab he => ?_
      refine (expectSymbol_reads b _ _).after fun _ _ => (ih.statement b).bind fun c s hbc hs => ?_
      refine .pure ⟨⟨⟨he.1, by simp [Expr.TidyOption], hs.1.1, hs.2⟩, ?_⟩, hs.2⟩
      simpa [Stmt.ids, Expr.idsOption] using he.2.append hs.1.2 hab hbc
    · exact (skip_reads a).after fun _ _ => ih.countedLoop a
    · refine (skip_reads a).after fun _ _ => (ahead_reads a _).after fun _ _ => ?_
      refine .either (omitted_reads a) (given_reads ((exprReads n).expression a))
        fun b value _ hv => (expectSymbol_reads b _ _).after fun _ _ => .pure ⟨hv, rfl⟩
    · refine (skip_reads a).after fun _ _ => (expectSymbol_reads a _ _).after fun _ _ => ?_
      exact .pure ⟨⟨trivial, .nil⟩, rfl⟩
    · refine (skip_reads a).after fun _ _ => (expectSymbol_reads a _ _).after fun _ _ => ?_
      exact .pure ⟨⟨trivial, .nil⟩, rfl⟩
    · refine (skip_reads a).after fun _ _ => ?_
      exact (ih.block (Nat.le_refl a) .nil).bind fun b body _ hb => .pure ⟨hb, rfl⟩
    · exact expressionStatement_reads n a

theorem branch_succ (ih : StmtReads n) (a : Nat) :
    Reads a (Read.branch (n + 1)) fun b s => s.Fresh a b ∧ s.declared = [] := by
  rw [Read.branch]
  refine (expectSymbol_reads a _ _).after fun _ _ => ?_
  refine ((exprReads n).expression a).bind fun b e hab he => ?_
  refine (expectSymbol_reads b _ _).after fun _ _ => (ih.statement b).bind fun c y hbc hy => ?_
  refine (acceptKeyword_reads c _).after fun _ _ => .ite (fun _ => ?_) fun _ => ?_
  · refine (ih.statement c).bind fun d no hcd hn => .pure ⟨⟨⟨he.1, hy.1.1, hy.2, hn.1.1, hn.2⟩, ?_⟩, ?_⟩
    · exact he.2.append (hy.1.2.append hn.1.2 hbc hcd) hab (Nat.le_trans hbc hcd)
    · simp [Stmt.declared, hy.2, hn.2]
  · exact .pure ⟨⟨⟨he.1, hy.1.1, hy.2⟩, he.2.append hy.1.2 hab hbc⟩, hy.2⟩

theorem loopClauses_reads (ih : StmtReads n) {a a₁ : Nat} {first : List Stmt} (h₁ : a ≤ a₁)
    (hf : Stmt.FreshAll a a₁ first) :
    Reads a₁ (loopClauses n first) fun b s => s.Fresh a b ∧ s.declared = [] := by
  unfold loopClauses
  refine (ahead_reads a₁ _).after fun _ _ => .either (P := fun b cond => cond.Fresh a₁ b)
    (.pure ⟨trivial, .nil⟩) ((exprReads n).expression a₁) fun a₂ cond h₂ hc => ?_
  refine (expectSymbol_reads a₂ _ _).after fun _ _ => (ahead_reads a₂ _).after fun _ _ => .either
    (omitted_reads a₂) (given_reads ((exprReads n).expression a₂)) fun a₃ step h₃ hs => ?_
  refine (expectSymbol_reads a₃ _ _).after fun _ _ => (ih.statement a₃).bind fun b body h₄ hb => ?_
  exact .pure ⟨.counted hf hc hs hb.1 hb.2 h₁ h₂ h₃ h₄, rfl⟩

theorem countedLoop_succ (ih : StmtReads n) (a : Nat) :
    Reads a (Read.countedLoop (n + 1)) fun b s => s.Fresh a b ∧ s.declared = [] := by
  have hrest : ∀ b s, a ≤ b → s.Fresh a b →
      Reads b (loopClauses n [s]) fun b s => s.Fresh a b ∧ s.declared = [] := fun b s hab hs =>
    ih.loopClauses_reads hab ⟨⟨hs.1, trivial⟩, by simpa [Stmt.idsAll] using hs.2⟩
  rw [countedLoop_eq]
  refine (expectSymbol_reads a _ _).after fun _ _ => (acceptKeyword_reads a _).after fun _ _ => ?_
  refine .ite (fun _ => ?_) fun _ => ?_
  · rw [bind_map_left]
    exact (varDeclaration_reads n a).bind hrest
  · refine (acceptSymbol_reads a _).after fun _ _ => .ite (fun _ => ?_) fun _ => ?_
    · exact ih.loopClauses_reads (Nat.le_refl a) .nil
    · rw [bind_map_left]
      exact (expressionStatement_reads n a).bind fun b s hab hs => hrest b s hab hs.1

end StmtReads

/-- The grammar of statements yields tidy trees with ids of their own. -/
theorem stmtReads (n : Nat) : StmtReads n := by
  induction n with
  | zero =>
    refine ⟨?_, ?_, ?_, ?_, ?_, ?_, ?_, ?_⟩
    all_goals intros; exact .throw _
  | succ n ih =>
    exact ⟨ih.declaration_succ, ih.block_succ, ih.functionRest_succ, ih.classDeclaration_succ,
      ih.classMembers_succ, ih.statement_succ, ih.branch_succ, ih.countedLoop_succ⟩

theorem declarations_reads (n : Nat) {a₀ a : Nat} {acc : List Stmt} (hle : a₀ ≤ a)
    (h : Stmt.FreshAll a₀ a acc) :
    Reads a (declarations n acc) fun b ss => Stmt.FreshAll a₀ b ss := by
  induction n generalizing a acc with
  | zero => exact .throw _
  | succ n ih =>
    rw [declarations]
    refine (atEnd_reads a).after fun _ _ => .ite (fun _ => .pure h.reverse) fun _ => ?_
    refine ((stmtReads n).declaration a).bind fun b x hab hx => ?_
    cases x with
    | none => exact ih (Nat.le_trans hle hab) (h.mono hab)
    | some s => exact ih (Nat.le_trans hle hab) (h.cons (hx s rfl) hle hab)

end Read

/-- Reading a text yields tidy trees whose references are numbered from `firstId` on, each by an id
of its own. -/
theorem Source.read_fresh (file : Option String) (text : String) (firstId : Nat) (ds : Diagnostics) :
    firstId ≤ (Source.read file text firstId ds).1.nextId ∧
      Stmt.FreshAll firstId (Source.read file text firstId ds).1.nextId
        (Source.read file text firstId ds).1.body := by
  simp only [Source.read, Program.read]
  have h := Read.declarations_reads (Program.steps (scan file text).tokens.length)
    (Nat.le_refl firstId) .nil ⟨(scan file text).tokens, (scan file text).stop, firstId, []⟩
    (scan_scanned file text) rfl
  split at h
  · next body r hb =>
    simp only [hb]
    exact h.2
  · next e r hb =>
    simp only [hb]
    exact ⟨h.2, .nil⟩

end Treewalk
