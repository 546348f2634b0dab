import Treewalk.Proofs.Written

/-!
# Trees belong to the file they are read from

`Stmt.InFile file s`: all tokens that the tree keeps are of the file. `Stays file p Q` is the rule
for the parts of the grammar: as long as the tokens ahead are of the file, those left and those at
which faults are reported are, too, and what `p` yields is as `Q` says.

`Program.read_inFile`: what is read from the tokens of a file belongs to the file, and so do the
tokens at which reading reports a fault.
-/

namespace Treewalk

/-! ### Trees -/

section

variable (file : Option String)

/-- The token is of the file. -/
def Token.InFile (t : Token) : Prop := t.file = file

mutual

/-- All tokens of an expression are of the file. -/
def Expr.InFile : Expr → Prop
  | .literal _ => True
  | .grouping e => Expr.InFile e
  | .unary op e => op.InFile file ∧ Expr.InFile e
  | .binary l op r | .logical l op r => Expr.InFile l ∧ op.InFile file ∧ Expr.InFile r
  | .ternary c y n => Expr.InFile c ∧ Expr.InFile y ∧ Expr.InFile n
  | .comma es => Expr.InFileAll es
  | .variable ref | .this ref => ref.name.InFile file
  | .assign ref e => ref.name.InFile file ∧ Expr.InFile e
  | .compound ref op e => ref.name.InFile file ∧ op.InFile file ∧ Expr.InFile e
  | .call e paren es => Expr.InFile e ∧ paren.InFile file ∧ Expr.InFileAll es
  | .get e x => Expr.InFile e ∧ x.InFile file
  | .set o x op e =>
    Expr.InFile o ∧ x.InFile file ∧ (∀ t ∈ op, t.InFile file) ∧ Expr.InFile e
  | .super ref x => ref.name.InFile file ∧ x.InFile file

/-- All of the expressions are of the file. -/
def Expr.InFileAll : List Expr → Prop
  | [] => True
  | e :: es => Expr.InFile e ∧ Expr.InFileAll es

end

/-- All tokens of a member that holds a value are of the file. -/
structure FieldDecl.InFile (f : FieldDecl) : Prop where
  name : f.name.InFile file
  typeName : ∀ t ∈ f.typeName, t.InFile file
  init : ∀ e ∈ f.init, e.InFile file

/-- All tokens of an import are of the file. -/
structure ImportDecl.InFile (decl : ImportDecl) : Prop where
  keyword : decl.keyword.InFile file
  names : ∀ t ∈ decl.names, t.InFile file
  path : decl.path.InFile file

mutual

/-- All tokens of a statement are of the file. -/
def Stmt.InFile : Stmt → Prop
  | .expr e => e.InFile file
  | .print keyword e => keyword.InFile file ∧ e.InFile file
  | .var name type init =>
    name.InFile file ∧ (∀ t ∈ type, t.InFile file) ∧ ∀ e ∈ init, e.InFile file
  | .block body | .decls body => Stmt.InFileAll body
  | .branch e y none => e.InFile file ∧ Stmt.InFile y
  | .branch e y (some n) => e.InFile file ∧ Stmt.InFile y ∧ Stmt.InFile n
  | .loop e step body => e.InFile file ∧ (∀ e ∈ step, e.InFile file) ∧ Stmt.InFile body
  | .function decl => FunctionDecl.InFile decl
  | .ret keyword value => keyword.InFile file ∧ ∀ e ∈ value, e.InFile file
  | .brk keyword | .cont keyword => keyword.InFile file
  | .cls decl => ClassDecl.InFile decl
  | .require decl => decl.InFile file
  | .expose keyword names => keyword.InFile file ∧ ∀ t ∈ names, t.InFile file

/-- All of the statements are of the file. -/
def Stmt.InFileAll : List Stmt → Prop
  | [] => True
  | s :: ss => Stmt.InFile s ∧ Stmt.InFileAll ss

/-- All tokens of a function are of the file. -/
def FunctionDecl.InFile : FunctionDecl → Prop
  | ⟨name, params, body⟩ =>
    name.InFile file ∧ (∀ t ∈ params, t.InFile file) ∧ Stmt.InFileAll body

/-- All of the functions are of the file. -/
def FunctionDecl.InFileAll : List FunctionDecl → Prop
  | [] => True
  | f :: fs => FunctionDecl.InFile f ∧ FunctionDecl.InFileAll fs

/-- All tokens of a class are of the file. -/
def ClassDecl.InFile : ClassDecl → Prop
  | ⟨name, superclass, methods, fields, staticMethods, staticFields⟩ =>
    name.InFile file ∧ (∀ ref ∈ superclass, ref.name.InFile file) ∧
      FunctionDecl.InFileAll methods ∧
      (match fields with
        | some f => FunctionDecl.InFile f
        | none => True) ∧
      FunctionDecl.InFileAll staticMethods ∧ ∀ f ∈ staticFields, f.InFile file

end

end

section

variable {file : Option String}

theorem Expr.inFileAll_iff {es : List Expr} :
    Expr.InFileAll file es ↔ ∀ e ∈ es, e.InFile file := by
  induction es with
  | nil => simp [InFileAll]
  | cons e es ih => simp [InFileAll, ih]

theorem Stmt.inFileAll_iff {ss : List Stmt} :
    Stmt.InFileAll file ss ↔ ∀ s ∈ ss, s.InFile file := by
  induction ss with
  | nil => simp [InFileAll]
  | cons s ss ih => simp [InFileAll, ih]

theorem FunctionDecl.inFileAll_iff {fs : List FunctionDecl} :
    FunctionDecl.InFileAll file fs ↔ ∀ f ∈ fs, f.InFile file := by
  induction fs with
  | nil => simp [InFileAll]
  | cons f fs ih => simp [InFileAll, ih]

theorem FunctionDecl.inFile_iff {f : FunctionDecl} :
    f.InFile file ↔ f.name.InFile file ∧ (∀ t ∈ f.params, t.InFile file) ∧
      ∀ s ∈ f.body, s.InFile file := by
  cases f
  simp [InFile, Stmt.inFileAll_iff]

theorem ClassDecl.inFile_iff {decl : ClassDecl} :
    decl.InFile file ↔ decl.name.InFile file ∧
      (∀ ref ∈ decl.superclass, ref.name.InFile file) ∧ (∀ f ∈ decl.methods, f.InFile file) ∧
      (∀ f ∈ decl.fields, f.InFile file) ∧ (∀ f ∈ decl.staticMethods, f.InFile file) ∧
      ∀ f ∈ decl.staticFields, f.InFile file := by
  obtain ⟨name, superclass, methods, fields, staticMethods, staticFields⟩ := decl
  cases fields <;> simp [InFile, FunctionDecl.inFileAll_iff]

end

/-! ### Rules for parts of the grammar -/

/-- If the site is a token, it is one of the file. -/
def Site.InFile (file : Option String) (s : Site) : Prop := ∀ t, s = .token t → t.InFile file

/-- The tokens ahead are of the file, and so are those at which faults were reported. -/
structure Reader.InFile (file : Option String) (r : Reader) : Prop where
  rest : ∀ t ∈ r.rest, t.InFile file
  faults : ∀ x ∈ r.faults, x.1.InFile file

theorem Reader.InFile.site {file : Option String} {r : Reader} (h : r.InFile file) :
    r.site.InFile file := by
  intro t ht
  unfold Reader.site at ht
  split at ht
  · next u us hu =>
    cases ht
    exact h.rest _ (by simp [hu])
  · cases ht

/-- The part of the grammar stays among tokens of the file. -/
def Stays {α : Type} (file : Option String) (p : Read α) (Q : α → Prop) : Prop :=
  ∀ r : Reader, r.InFile file →
    match p r with
    | .ok x r' => r'.InFile file ∧ Q x
    | .error _ r' => r'.InFile file

namespace Stays

variable {α β : Type} {file : Option String} {p : Read α} {P Q : α → Prop}

theorem pure {x : α} (h : Q x) : Stays file (pure x) Q := fun _ hr => ⟨hr, h⟩

theorem throw (e : Unread) : Stays file (throw e : Read α) Q := fun _ hr => hr

theorem bind {f : α → Read β} {Q : β → Prop} (hp : Stays file p P)
    (hf : ∀ x, P x → Stays file (f x) Q) : Stays file (p >>= f) Q := by
  intro r hr
  have h := hp r hr
  cases hx : p r with
  | ok x r₁ =>
    rw [hx] at h
    rw [Read.bind_ok hx]
    exact hf x h.2 r₁ h.1
  | error e r₁ =>
    rw [hx] at h
    rw [Read.bind_error hx]
    exact h

theorem map {f : α → β} {Q : β → Prop} (hp : Stays file p P) (h : ∀ x, P x → Q (f x)) :
    Stays file (f <$> p) Q := by
  rw [map_eq_pure_bind]
  exact hp.bind fun x hx => .pure (h x hx)

theorem ite {c : Prop} [Decidable c] {p' : Read α} (h : Stays file p Q) (h' : Stays file p' Q) :
    Stays file (if c then p else p') Q := by
  split
  · exact h
  · exact h'

/-- A part of which nothing has to be known, before another part. -/
theorem after {f : α → Read β} {Q : β → Prop} (hp : Stays file p P)
    (hf : ∀ x, Stays file (f x) Q) : Stays file (p >>= f) Q := hp.bind fun x _ => hf x

/-- One of two parts, before another part. -/
theorem either {c : Prop} [Decidable c] {q : Read α} {f : α → Read β} {Q : β → Prop}
    (hp : Stays file p P) (hq : Stays file q P) (hf : ∀ x, P x → Stays file (f x) Q) :
    Stays file (if c then p >>= f else q >>= f) Q := ite (hp.bind hf) (hq.bind hf)

/-- A part that may be missing. -/
theorem option {c : Prop} [Decidable c] {f : Option α → Read β} {Q : β → Prop}
    (hp : Stays file p P) (hf : ∀ o, (∀ x ∈ o, P x) → Stays file (f o) Q) :
    Stays file (if c then some <$> p >>= f else f none) Q := by
  refine .ite ((hp.map (Q := fun o => ∀ x ∈ o, P x) fun x hx => ?_).bind hf) (hf none (by simp))
  intro y hy
  cases hy
  exact hx

/-- The same, where the check is for what is there if the part is missing. -/
theorem optional {c : Prop} [Decidable c] {f : Option α → Read β} {Q : β → Prop}
    (hp : Stays file p P) (hf : ∀ o, (∀ x ∈ o, P x) → Stays file (f o) Q) :
    Stays file (if c then f none else some <$> p >>= f) Q := by
  refine .ite (hf none (by simp)) ((hp.map (Q := fun o => ∀ x ∈ o, P x) fun x hx => ?_).bind hf)
  intro y hy
  cases hy
  exact hx

end Stays

namespace Read

variable {file : Option String}

theorem site_stays : Stays file site (Site.InFile file) := fun _ hr => ⟨hr, hr.site⟩

theorem skip_stays : Stays file skip fun _ => True := fun _ hr =>
  ⟨⟨fun t ht => hr.rest t (List.mem_of_mem_tail ht), hr.faults⟩, trivial⟩

theorem ahead_stays (p : Token → Bool) : Stays file (ahead p) fun _ => True := fun _ hr =>
  ⟨hr, trivial⟩

theorem atEnd_stays : Stays file atEnd fun _ => True := fun _ hr => ⟨hr, trivial⟩

theorem report_stays {s : Site} (hs : s.InFile file) (f : ReadingFault) :
    Stays file (report s f) fun _ => True := fun _ hr =>
  ⟨⟨hr.rest, List.forall_mem_cons.2 ⟨hs, hr.faults⟩⟩, trivial⟩

/-- A part before which something may be reported. -/
theorem warned_stays {α : Type} {p : Read α} {Q : α → Prop} {c : Prop} [Decidable c]
    {f : ReadingFault} (hp : Stays file p Q) :
    Stays file (if c then do report (← site) f; p else p) Q :=
  .ite (site_stays.bind fun _ hs => (report_stays hs f).after fun _ => hp) hp

theorem fail_stays {α : Type} {Q : α → Prop} (f : ReadingFault) : Stays file (fail f) Q :=
  fun _ hr => ⟨hr.rest, List.forall_mem_cons.2 ⟨hr.site, hr.faults⟩⟩

theorem refer_stays {name : Token} (h : name.InFile file) :
    Stays file (refer name) fun ref => ref.name.InFile file :=
  fun _ hr => ⟨⟨hr.rest, hr.faults⟩, h⟩

theorem accept_stays (p : Token → Bool) :
    Stays file (accept p) fun o => ∀ t ∈ o, t.InFile file := by
  rintro ⟨rest, stop, nextId, faults⟩ hr
  cases rest with
  | nil => exact ⟨hr, by simp⟩
  | cons t ts =>
    rw [accept_of_cons]
    obtain ⟨ht, hts⟩ := List.forall_mem_cons.1 hr.rest
    by_cases hp : p t
    · rw [if_pos hp]
      refine ⟨⟨hts, hr.faults⟩, fun u hu => ?_⟩
      cases hu
      exact ht
    · rw [if_neg hp]
      exact ⟨hr, by simp⟩

theorem acceptSymbol_stays (s : Symbol) : Stays file (acceptSymbol s) fun _ => True :=
  (accept_stays _).after fun _ => .pure trivial

theorem acceptKeyword_stays (k : Keyword) : Stays file (acceptKeyword k) fun _ => True :=
  (accept_stays _).after fun _ => .pure trivial

theorem expect_stays (p : Token → Bool) (f : ReadingFault) :
    Stays file (expect p f) (Token.InFile file) :=
  (accept_stays p).bind fun o ho => by
    cases o with
    | none => exact fail_stays f
    | some t => exact .pure (ho t rfl)

theorem expectSymbol_stays (s : Symbol) (f : ReadingFault) :
    Stays file (expectSymbol s f) (Token.InFile file) := expect_stays _ f

theorem expectName_stays (f : ReadingFault) : Stays file (expectName f) (Token.InFile file) :=
  expect_stays _ f

/-! ### Expressions -/

/-- What the parts of the grammar of expressions yield with `n` nested steps. -/
structure ExprStays (file : Option String) (n : Nat) : Prop where
  expression : Stays file (expression n) (Expr.InFile file)
  parts : ∀ acc, (∀ e ∈ acc, e.InFile file) →
    Stays file (parts n acc) fun es => ∀ e ∈ es, e.InFile file
  assignment : Stays file (assignment n) (Expr.InFile file)
  ternary : Stays file (ternary n) (Expr.InFile file)
  operators : ∀ l, Stays file (operators n l) (Expr.InFile file)
  operatorsAfter : ∀ l left, left.InFile file →
    Stays file (operatorsAfter n l left) (Expr.InFile file)
  unary : Stays file (unary n) (Expr.InFile file)
  suffixes : ∀ e, e.InFile file → Stays file (suffixes n e) (Expr.InFile file)
  arguments : ∀ count acc, (∀ e ∈ acc, e.InFile file) →
    Stays file (arguments n count acc) fun es => ∀ e ∈ es, e.InFile file
  primary : Stays file (primary n) (Expr.InFile file)

namespace ExprStays

variable {n : Nat}

theorem expression_succ (ih : ExprStays file n) :
    Stays file (Read.expression (n + 1)) (Expr.InFile file) := by
  rw [Read.expression]
  refine ih.assignment.bind fun first hfirst => (ahead_stays _).after fun _ => ?_
  refine .ite ((ih.parts [first] (by simpa using hfirst)).bind fun es hes => ?_) (.pure hfirst)
  exact .pure (Expr.inFileAll_iff.2 hes)

theorem parts_succ (ih : ExprStays file n) (acc : List Expr) (hacc : ∀ e ∈ acc, e.InFile file) :
    Stays file (Read.parts (n + 1) acc) fun es => ∀ e ∈ es, e.InFile file := by
  rw [Read.parts]
  refine (acceptSymbol_stays _).after fun _ => .ite ?_ (.pure (by simpa using hacc))
  exact ih.assignment.bind fun part hpart =>
    ih.parts (part :: acc) (List.forall_mem_cons.2 ⟨hpart, hacc⟩)

theorem compoundOp?_inFile {op : Token} (h : op.InFile file) :
    ∀ t ∈ compoundOp? op, t.InFile file := by
  intro t ht
  unfold compoundOp? at ht
  split at ht
  · cases ht
    exact h
  · cases ht

theorem assigned_stays {target value : Expr} {op : Token} (ht : target.InFile file)
    (hop : op.InFile file) (hv : value.InFile file) :
    Stays file (assigned target op value) (Expr.InFile file) := by
  unfold assigned
  split
  · next ref =>
    refine .pure ?_
    split
    · next op' hop' => exact ⟨ht, compoundOp?_inFile hop op' hop', hv⟩
    · exact ⟨ht, hv⟩
  · next object name => exact .pure ⟨ht.1, ht.2, compoundOp?_inFile hop, hv⟩
  · refine (report_stays (fun t h => ?_) _).after fun _ => .pure ht
    cases h
    exact hop

theorem assignment_succ (ih : ExprStays file n) :
    Stays file (Read.assignment (n + 1)) (Expr.InFile file) := by
  rw [Read.assignment]
  refine ih.ternary.bind fun target ht => (accept_stays _).bind fun op hop => ?_
  cases op with
  | none => exact .pure ht
  | some op => exact ih.assignment.bind fun value hv => assigned_stays ht (hop op rfl) hv

theorem ternary_succ (ih : ExprStays file n) :
    Stays file (Read.ternary (n + 1)) (Expr.InFile file) := by
  rw [Read.ternary]
  refine (ih.operators .or).bind fun cond hc => (acceptSymbol_stays _).after fun _ =>
    .ite ?_ (.pure hc)
  refine ih.expression.bind fun yes hy => (expectSymbol_stays _ _).after fun _ => ?_
  exact ih.ternary.bind fun no hn => .pure ⟨hc, hy, hn⟩

theorem operators_succ (ih : ExprStays file n) (l : Level) :
    Stays file (Read.operators (n + 1) l) (Expr.InFile file) := by
  rw [Read.operators]
  split
  · exact (ih.operators _).bind fun first hfirst => ih.operatorsAfter l first hfirst
  · exact ih.unary.bind fun first hfirst => ih.operatorsAfter l first hfirst

theorem node_inFile (l : Level) {left right : Expr} {op : Token} (hl : left.InFile file)
    (hop : op.InFile file) (hr : right.InFile file) : (l.node left op right).InFile file := by
  cases l <;> exact ⟨hl, hop, hr⟩

theorem operatorsAfter_succ (ih : ExprStays file n) (l : Level) (left : Expr)
    (hl : left.InFile file) :
    Stays file (Read.operatorsAfter (n + 1) l left) (Expr.InFile file) := by
  rw [Read.operatorsAfter]
  refine (accept_stays _).bind fun op hop => ?_
  cases op with
  | none => exact .pure hl
  | some op =>
    dsimp only
    split
    · exact (ih.operators _).bind fun right hr =>
        ih.operatorsAfter l _ (node_inFile l hl (hop op rfl) hr)
    · exact ih.unary.bind fun right hr =>
        ih.operatorsAfter l _ (node_inFile l hl (hop op rfl) hr)

theorem unary_succ (ih : ExprStays file n) :
    Stays file (Read.unary (n + 1)) (Expr.InFile file) := by
  rw [Read.unary]
  refine (accept_stays _).bind fun op hop => ?_
  cases op with
  | none => exact ih.primary.bind fun e he => ih.suffixes e he
  | some op => exact ih.unary.bind fun e he => .pure ⟨hop op rfl, he⟩

theorem suffixes_succ (ih : ExprStays file n) (e : Expr) (he : e.InFile file) :
    Stays file (Read.suffixes (n + 1) e) (Expr.InFile file) := by
  rw [Read.suffixes]
  refine (acceptSymbol_stays _).after fun _ => .ite ?_ ?_
  · refine (ahead_stays _).after fun _ => .either (P := fun args => ∀ e ∈ args, e.InFile file)
      (.pure (by simp)) (ih.arguments 0 [] (by simp)) fun args hargs => ?_
    exact (expectSymbol_stays _ _).bind fun paren hp =>
      ih.suffixes _ ⟨he, hp, Expr.inFileAll_iff.2 hargs⟩
  · refine (acceptSymbol_stays _).after fun _ => .ite ?_ (.pure he)
    exact (expectName_stays _).bind fun name hname => ih.suffixes _ ⟨he, hname⟩

theorem arguments_succ (ih : ExprStays file n) (count : Nat) (acc : List Expr)
    (hacc : ∀ e ∈ acc, e.InFile file) :
    Stays file (Read.arguments (n + 1) count acc) fun es => ∀ e ∈ es, e.InFile file := by
  rw [Read.arguments]
  refine warned_stays (ih.assignment.bind fun arg harg => ?_)
  have hall : ∀ e ∈ arg :: acc, e.InFile file := List.forall_mem_cons.2 ⟨harg, hacc⟩
  refine (acceptSymbol_stays _).after fun _ => .ite (ih.arguments _ _ hall) (.pure ?_)
  exact fun e he => hall e (List.mem_reverse.1 he)

theorem primary_succ (ih : ExprStays file n) :
    Stays file (Read.primary (n + 1)) (Expr.InFile file) := by
  rw [Read.primary]
  refine site_stays.bind fun s hs => ?_
  cases s with
  | stop p => exact fail_stays _
  | token t =>
    have ht : t.InFile file := hs t rfl
    dsimp only
    split
    · exact skip_stays.after fun _ => .pure trivial
    · exact skip_stays.after fun _ => .pure trivial
    · exact skip_stays.after fun _ => .pure trivial
    · exact skip_stays.after fun _ => .pure trivial
    · exact skip_stays.after fun _ => .pure trivial
    · exact skip_stays.after fun _ => (refer_stays ht).bind fun ref href => .pure href
    · exact skip_stays.after fun _ => (refer_stays ht).bind fun ref href => .pure href
    · exact skip_stays.after fun _ => (expectSymbol_stays _ _).after fun _ =>
        (expectName_stays _).bind fun method hm => (refer_stays ht).bind fun ref href =>
          .pure ⟨href, hm⟩
    · exact skip_stays.after fun _ => ih.expression.bind fun inner hi =>
        (expectSymbol_stays _ _).after fun _ => .pure hi
    · exact fail_stays _

end ExprStays

theorem exprStays (file : Option String) (n : Nat) : ExprStays file n := by
  induction n with
  | zero =>
    refine ⟨?_, ?_, ?_, ?_, ?_, ?_, ?_, ?_, ?_, ?_⟩
    all_goals intros; exact .throw _
  | succ n ih =>
    exact ⟨ih.expression_succ, ih.parts_succ, ih.assignment_succ, ih.ternary_succ,
      ih.operators_succ, ih.operatorsAfter_succ, ih.unary_succ, ih.suffixes_succ,
      ih.arguments_succ, ih.primary_succ⟩

/-! ### Declarations without bodies -/

theorem typeName_stays : Stays file typeName fun o => ∀ t ∈ o, t.InFile file := by
  refine (acceptSymbol_stays _).after fun _ => .ite ?_ (.pure (by simp))
  exact (expectName_stays _).bind fun t ht => .pure (by simpa using ht)

theorem names_stays (f : ReadingFault) (n : Nat) {acc : List Token}
    (hacc : ∀ t ∈ acc, t.InFile file) :
    Stays file (names f n acc) fun ts => ∀ t ∈ ts, t.InFile file := by
  induction n generalizing acc with
  | zero => exact .throw _
  | succ n ih =>
    rw [names]
    refine (expectName_stays _).bind fun name hname => (acceptSymbol_stays _).after fun _ => ?_
    have hall : ∀ t ∈ name :: acc, t.InFile file := List.forall_mem_cons.2 ⟨hname, hacc⟩
    exact .ite (ih hall) (.pure fun t ht => hall t (List.mem_reverse.1 ht))

theorem parameters_stays (n count : Nat) {acc : List Token} (hacc : ∀ t ∈ acc, t.InFile file) :
    Stays file (parameters n count acc) fun ts => ∀ t ∈ ts, t.InFile file := by
  induction n generalizing count acc with
  | zero => exact .throw _
  | succ n ih =>
    rw [parameters]
    refine warned_stays ((expectName_stays _).bind fun name hname => ?_)
    have hall : ∀ t ∈ name :: acc, t.InFile file := List.forall_mem_cons.2 ⟨hname, hacc⟩
    refine (acceptSymbol_stays _).after fun _ => .ite (ih _ hall) (.pure ?_)
    exact fun t ht => hall t (List.mem_reverse.1 ht)

theorem varList_stays (n : Nat) {acc : List Stmt} (hacc : ∀ s ∈ acc, s.InFile file) :
    Stays file (varList n acc) fun ss => ∀ s ∈ ss, s.InFile file := by
  induction n generalizing acc with
  | zero => exact .throw _
  | succ n ih =>
    rw [varList]
    refine (expectName_stays _).bind fun name hname => typeName_stays.bind fun type htype =>
      (acceptSymbol_stays _).after fun _ => .option (exprStays file n).assignment
        fun init hinit => (acceptSymbol_stays _).after fun _ => ?_
    have hall : ∀ s ∈ Stmt.var name type init :: acc, s.InFile file :=
      List.forall_mem_cons.2 ⟨⟨hname, htype, hinit⟩, hacc⟩
    exact .ite (ih hall) (.pure fun s hs => hall s (List.mem_reverse.1 hs))

theorem varDeclaration_stays (n : Nat) : Stays file (varDeclaration n) (Stmt.InFile file) := by
  refine (varList_stays n (by simp)).bind fun ss hss => (expectSymbol_stays _ _).after fun _ =>
    .pure ?_
  split
  · exact hss _ (by simp)
  · exact Stmt.inFileAll_iff.2 hss

theorem importDeclaration_stays (n : Nat) {keyword : Token} (h : keyword.InFile file) :
    Stays file (importDeclaration n keyword) (Stmt.InFile file) := by
  refine (expectSymbol_stays _ _).after fun _ => (names_stays _ n (by simp)).bind fun ns hns =>
    (expectSymbol_stays _ _).after fun _ => (expect_stays _ _).after fun _ =>
      site_stays.bind fun s hs => ?_
  cases s with
  | stop p => exact fail_stays _
  | token t =>
    dsimp only
    split
    · exact skip_stays.after fun _ => (expectSymbol_stays _ _).after fun _ =>
        .pure ⟨h, hns, hs t rfl⟩
    · exact fail_stays _

theorem exposeDeclaration_stays (n : Nat) {keyword : Token} (h : keyword.InFile file) :
    Stays file (exposeDeclaration n keyword) (Stmt.InFile file) :=
  (names_stays _ n (by simp)).bind fun _ hns => (expectSymbol_stays _ _).after fun _ =>
    .pure ⟨h, hns⟩

theorem expressionStatement_stays (n : Nat) :
    Stays file (expressionStatement n) (Stmt.InFile file) :=
  (exprStays file n).expression.bind fun _ he => (expectSymbol_stays _ _).after fun _ => .pure he

theorem superclass_stays (name : Token) :
    Stays file (superclass name) fun sup => ∀ ref ∈ sup, ref.name.InFile file := by
  refine (acceptSymbol_stays _).after fun _ => .ite ?_ (.pure (by simp))
  refine (expectName_stays _).bind fun sup hsup => ?_
  have hrest : Stays file (do return some (← refer sup)) fun (o : Option Ref) =>
      ∀ ref ∈ o, ref.name.InFile file :=
    (refer_stays hsup).bind fun ref href => .pure (by simpa using href)
  refine .ite ((report_stays (fun t ht => ?_) _).after fun _ => hrest) hrest
  cases ht
  exact hsup

end Read

/-! ### Classes -/

/-- All tokens of the members are of the file. -/
structure Members.InFile (file : Option String) (ms : Members) : Prop where
  methods : ∀ f ∈ ms.methods, f.InFile file
  staticMethods : ∀ f ∈ ms.staticMethods, f.InFile file
  fields : ∀ f ∈ ms.fields, f.InFile file
  staticFields : ∀ f ∈ ms.staticFields, f.InFile file

section

variable {file : Option String} {ms : Members}

theorem Members.InFile.empty : ({} : Members).InFile file := by constructor <;> simp

theorem Members.InFile.addMethod (h : ms.InFile file) (static : Bool) {f : FunctionDecl}
    (hf : f.InFile file) : (ms.addMethod static f).InFile file := by
  cases static with
  | true => exact ⟨h.methods, List.forall_mem_cons.2 ⟨hf, h.staticMethods⟩, h.fields, h.staticFields⟩
  | false =>
    exact ⟨List.forall_mem_cons.2 ⟨hf, h.methods⟩, h.staticMethods, h.fields, h.staticFields⟩

theorem Members.InFile.addField (h : ms.InFile file) (static : Bool) {f : FieldDecl}
    (hf : f.InFile file) : (ms.addField static f).InFile file := by
  cases static with
  | true => exact ⟨h.methods, h.staticMethods, h.fields, List.forall_mem_cons.2 ⟨hf, h.staticFields⟩⟩
  | false =>
    exact ⟨h.methods, h.staticMethods, List.forall_mem_cons.2 ⟨hf, h.fields⟩, h.staticFields⟩

theorem ClassDecl.spliceFirst_inFile (hasSuper : Bool) {ss : List Stmt} {fs : List FunctionDecl}
    (hss : ∀ s ∈ ss, s.InFile file) (hfs : ∀ f ∈ fs, f.InFile file) :
    ∀ f ∈ spliceFirst hasSuper ss fs, f.InFile file := by
  induction fs with
  | nil => simp [spliceFirst]
  | cons m ms ih =>
    obtain ⟨hm, hms⟩ := List.forall_mem_cons.1 hfs
    obtain ⟨hname, hparams, hbody⟩ := FunctionDecl.inFile_iff.1 hm
    rw [spliceFirst]
    split
    · refine List.forall_mem_cons.2 ⟨FunctionDecl.inFile_iff.2 ⟨hname, hparams, ?_⟩, hms⟩
      intro s hs
      rcases List.mem_append.1 ((spliceInto_perm ..).mem_iff.1 hs) with hs | hs
      · exact hbody s hs
      · exact hss s hs
    · exact List.forall_mem_cons.2 ⟨hm, ih hms⟩

end

namespace Read

variable {file : Option String}

theorem fieldAssignments_stays {fields : List FieldDecl} (h : ∀ f ∈ fields, f.InFile file) :
    Stays file (fieldAssignments fields) fun ss => ∀ s ∈ ss, s.InFile file := by
  induction fields with
  | nil => exact .pure (by simp)
  | cons f fs ih =>
    obtain ⟨hf, hfs⟩ := List.forall_mem_cons.1 h
    have hvalue : (f.init.getD (.literal .nil)).InFile file := by
      cases hi : f.init with
      | none => trivial
      | some e => exact hf.init e hi
    -- The word `this` is made where the field's name is, and so it is of the same file.
    have hthis : (Token.placed (.keyword .this) "this" f.name).InFile file := hf.name
    rw [fieldAssignments]
    exact (refer_stays hthis).bind fun ref href => (ih hfs).bind fun ss hss =>
      .pure (List.forall_mem_cons.2 ⟨⟨href, hf.name, by simp, hvalue⟩, hss⟩)

theorem classOf_stays {name : Token} {sup : Option Ref} {ms : Members} (hname : name.InFile file)
    (hsup : ∀ ref ∈ sup, ref.name.InFile file) (hms : ms.InFile file) :
    Stays file (classOf name sup ms) (Stmt.InFile file) := by
  have hmethods : ∀ f ∈ ms.methods.reverse, f.InFile file := fun f hf =>
    hms.methods f (List.mem_reverse.1 hf)
  unfold classOf
  refine (fieldAssignments_stays fun f hf => hms.fields f (List.mem_reverse.1 hf)).bind
    fun ss hss => ?_
  have htree : (ClassDecl.mk name sup
      (ClassDecl.spliceFirst sup.isSome ss ms.methods.reverse)
      (if ms.methods.reverse.any FunctionDecl.isInit || ss.isEmpty then none
        else some ⟨.placed (.identifier initName) initName name, [], ss⟩)
      ms.staticMethods.reverse ms.staticFields.reverse).InFile file := by
    refine ClassDecl.inFile_iff.2 ⟨hname, hsup, ClassDecl.spliceFirst_inFile _ hss hmethods, ?_,
      fun f hf => hms.staticMethods f (List.mem_reverse.1 hf),
      fun f hf => hms.staticFields f (List.mem_reverse.1 hf)⟩
    intro f hf
    dsimp only at hf
    split at hf
    · cases hf
    · cases hf
      exact FunctionDecl.inFile_iff.2 ⟨hname, by simp, hss⟩
  dsimp only
  split
  · next f hf =>
    split
    · refine (report_stays (fun t ht => ?_) _).after fun _ => .pure htree
      cases ht
      exact (FunctionDecl.inFile_iff.1 (hmethods f (List.mem_of_find?_eq_some hf))).1
    · exact .pure htree
  · exact .pure htree

/-! ### Statements -/

theorem recovering_stays {p : Read Stmt} {Q : Stmt → Prop} (hp : Stays file p Q) :
    Stays file (recovering p) fun o => ∀ s ∈ o, Q s := by
  intro r hr
  have h := hp r hr
  unfold recovering
  split at h
  · next s r' hs =>
    simp only [hs]
    exact ⟨h.1, by simpa using h.2⟩
  · next e r' hs =>
    simp only [hs]
    cases e with
    | faulty =>
      have hin : r'.recover.InFile file :=
        ⟨fun t ht => h.rest t ((recover_suffix r').subset ht), faults_recover r' ▸ h.faults⟩
      exact ⟨hin, by simp⟩
    | exhausted => exact h

/-- What the parts of the grammar of statements yield with `n` nested steps. -/
structure StmtStays (file : Option String) (n : Nat) : Prop where
  declaration : Stays file (declaration n) fun o => ∀ s ∈ o, s.InFile file
  block : ∀ acc, (∀ s ∈ acc, s.InFile file) →
    Stays file (block n acc) fun ss => ∀ s ∈ ss, s.InFile file
  functionRest : ∀ role name, name.InFile file →
    Stays file (functionRest n role name) (FunctionDecl.InFile file)
  classDeclaration : Stays file (classDeclaration n) (Stmt.InFile file)
  classMembers : ∀ acc, acc.InFile file → Stays file (classMembers n acc) (Members.InFile file)
  statement : Stays file (statement n) (Stmt.InFile file)
  branch : Stays file (branch n) (Stmt.InFile file)
  countedLoop : Stays file (countedLoop n) (Stmt.InFile file)

namespace StmtStays

variable {n : Nat}

theorem declaration_succ (ih : StmtStays file n) :
    Stays file (Read.declaration (n + 1)) fun o => ∀ s ∈ o, s.InFile file := by
  rw [Read.declaration]
  refine recovering_stays (site_stays.bind fun s hs => ?_)
  cases s with
  | stop p => exact ih.statement
  | token t =>
    have ht : t.InFile file := hs t rfl
    dsimp only
    split
    · exact skip_stays.after fun _ => varDeclaration_stays n
    · exact skip_stays.after fun _ => (expectName_stays _).bind fun name hname =>
        (ih.functionRest _ name hname).bind fun f hf => .pure hf
    · exact skip_stays.after fun _ => ih.classDeclaration
    · exact skip_stays.after fun _ => importDeclaration_stays n ht
    · exact skip_stays.after fun _ => exposeDeclaration_stays n ht
    · exact ih.statement

theorem block_succ (ih : StmtStays file n) (acc : List Stmt) (hacc : ∀ s ∈ acc, s.InFile file) :
    Stays file (Read.block (n + 1) acc) fun ss => ∀ s ∈ ss, s.InFile file := by
  rw [Read.block]
  refine atEnd_stays.after fun _ => (ahead_stays _).after fun _ => .ite ?_ ?_
  · exact (expectSymbol_stays _ _).after fun _ => .pure (by simpa using hacc)
  · refine ih.declaration.bind fun o ho => ?_
    cases o with
    | none => exact ih.block acc hacc
    | some s => exact ih.block (s :: acc) (List.forall_mem_cons.2 ⟨ho s rfl, hacc⟩)

theorem functionRest_succ (ih : StmtStays file n) (role : FunctionRole) (name : Token)
    (hname : name.InFile file) :
    Stays file (Read.functionRest (n + 1) role name) (FunctionDecl.InFile file) := by
  rw [Read.functionRest]
  refine (expectSymbol_stays _ _).after fun _ => (ahead_stays _).after fun _ =>
    .either (P := fun params => ∀ t ∈ params, t.InFile file) (.pure (by simp))
      (parameters_stays n 0 (by simp)) fun params hparams => ?_
  exact (expectSymbol_stays _ _).after fun _ => (expectSymbol_stays _ _).after fun _ =>
    (ih.block [] (by simp)).bind fun body hb =>
      .pure (FunctionDecl.inFile_iff.2 ⟨hname, hparams, hb⟩)

theorem classDeclaration_succ (ih : StmtStays file n) :
    Stays file (Read.classDeclaration (n + 1)) (Stmt.InFile file) := by
  rw [Read.classDeclaration]
  exact (expectName_stays _).bind fun name hname => (superclass_stays name).bind fun sup hsup =>
    (expectSymbol_stays _ _).after fun _ => (ih.classMembers {} .empty).bind fun ms hms =>
      (expectSymbol_stays _ _).after fun _ => classOf_stays hname hsup hms

theorem classMembers_succ (ih : StmtStays file n) (acc : Members) (hacc : acc.InFile file) :
    Stays file (Read.classMembers (n + 1) acc) (Members.InFile file) := by
  rw [Read.classMembers]
  refine atEnd_stays.after fun _ => (ahead_stays _).after fun _ => .ite (.pure hacc) ?_
  refine (acceptKeyword_stays _).after fun static => (expectName_stays _).bind fun name hname =>
    (ahead_stays _).after fun _ => .ite ?_ ?_
  · exact (ih.functionRest _ name hname).bind fun f hf =>
      ih.classMembers _ (hacc.addMethod static hf)
  · exact typeName_stays.bind fun type htype => (acceptSymbol_stays _).after fun _ =>
      .option (exprStays file n).expression fun init hinit => (expectSymbol_stays _ _).after
        fun _ => ih.classMembers _ (hacc.addField static ⟨hname, htype, hinit⟩)

theorem statement_succ (ih : StmtStays file n) :
    Stays file (Read.statement (n + 1)) (Stmt.InFile file) := by
  rw [Read.statement]
  refine site_stays.bind fun s hs => ?_
  cases s with
  | stop p => exact expressionStatement_stays n
  | token t =>
    have ht : t.InFile file := hs t rfl
    have hexpr := (exprStays file n).expression
    dsimp only
    split
    · exact skip_stays.after fun _ => hexpr.bind fun e he => (expectSymbol_stays _ _).after
        fun _ => .pure ⟨ht, he⟩
    · exact skip_stays.after fun _ => ih.branch
    · exact skip_stays.after fun _ => (expectSymbol_stays _ _).after fun _ =>
        hexpr.bind fun e he => (expectSymbol_stays _ _).after fun _ =>
          ih.statement.bind fun body hb => .pure ⟨he, by simp, hb⟩
    · exact skip_stays.after fun _ => ih.countedLoop
    · exact skip_stays.after fun _ => (ahead_stays _).after fun _ =>
        .optional hexpr fun value hv => (expectSymbol_stays _ _).after fun _ => .pure ⟨ht, hv⟩
    · exact skip_stays.after fun _ => (expectSymbol_stays _ _).after fun _ => .pure ht
    · exact skip_stays.after fun _ => (expectSymbol_stays _ _).after fun _ => .pure ht
    · exact skip_stays.after fun _ => (ih.block [] (by simp)).bind fun body hb =>
        .pure (Stmt.inFileAll_iff.2 hb)
    · exact expressionStatement_stays n

theorem branch_succ (ih : StmtStays file n) :
    Stays file (Read.branch (n + 1)) (Stmt.InFile file) := by
  rw [Read.branch]
  refine (expectSymbol_stays _ _).after fun _ => (exprStays file n).expression.bind fun e he =>
    (expectSymbol_stays _ _).after fun _ => ih.statement.bind fun yes hy =>
      (acceptKeyword_stays _).after fun _ => .ite ?_ (.pure ⟨he, hy⟩)
  exact ih.statement.bind fun no hn => .pure ⟨he, hy, hn⟩

theorem loopClauses_stays (ih : StmtStays file n) {first : List Stmt}
    (hfirst : ∀ s ∈ first, s.InFile file) :
    Stays file (loopClauses n first) (Stmt.InFile file) := by
  have hexpr := (exprStays file n).expression
  unfold loopClauses
  refine (ahead_stays _).after fun _ => .either (P := Expr.InFile file) (.pure trivial) hexpr
    fun cond hcond => ?_
  refine (expectSymbol_stays _ _).after fun _ => (ahead_stays _).after fun _ =>
    .optional hexpr fun step hstep => (expectSymbol_stays _ _).after fun _ =>
      ih.statement.bind fun body hb => .pure (Stmt.inFileAll_iff.2 ?_)
  exact List.forall_mem_append.2 ⟨hfirst, List.forall_mem_singleton.2 ⟨hcond, hstep, hb⟩⟩

theorem countedLoop_succ (ih : StmtStays file n) :
    Stays file (Read.countedLoop (n + 1)) (Stmt.InFile file) := by
  have hrest : ∀ s : Stmt, s.InFile file → Stays file (loopClauses n [s]) (Stmt.InFile file) :=
    fun s hs => ih.loopClauses_stays (by simpa using hs)
  rw [countedLoop_eq]
  refine (expectSymbol_stays _ _).after fun _ => (acceptKeyword_stays _).after fun _ => .ite ?_ ?_
  · rw [bind_map_left]
    exact (varDeclaration_stays n).bind hrest
  · refine (acceptSymbol_stays _).after fun _ => .ite (ih.loopClauses_stays (by simp)) ?_
    rw [bind_map_left]
    exact (expressionStatement_stays n).bind hrest

end StmtStays

theorem stmtStays (file : Option String) (n : Nat) : StmtStays file n := by
  induction n with
  | zero =>
    refine ⟨?_, ?_, ?_, ?_, ?_, ?_, ?_, ?_⟩
    all_goals intros; exact .throw _
  | succ n ih =>
    exact ⟨ih.declaration_succ, ih.block_succ, ih.functionRest_succ, ih.classDeclaration_succ,
      ih.classMembers_succ, ih.statement_succ, ih.branch_succ, ih.countedLoop_succ⟩

theorem declarations_stays (n : Nat) {acc : List Stmt} (hacc : ∀ s ∈ acc, s.InFile file) :
    Stays file (declarations n acc) fun ss => ∀ s ∈ ss, s.InFile file := by
  induction n generalizing acc with
  | zero => exact .throw _
  | succ n ih =>
    rw [declarations]
    refine atEnd_stays.after fun _ => .ite (.pure (by simpa using hacc)) ?_
    refine (stmtStays file n).declaration.bind fun o ho => ?_
    cases o with
    | none => exact ih hacc
    | some s => exact ih (List.forall_mem_cons.2 ⟨ho s rfl, hacc⟩)

end Read

/-- What is read from tokens of a file is of the file, and so are the tokens that have a fault. -/
theorem Program.read_inFile {file : Option String} {tokens : List Token}
    (h : ∀ t ∈ tokens, t.InFile file) (stop : Pos) (firstId : Nat) :
    Stmt.InFileAll file (Program.read tokens stop firstId).body ∧
      ∀ x ∈ (Program.read tokens stop firstId).faults, x.1.InFile file := by
  have hread := Read.declarations_stays (steps tokens.length) (List.forall_mem_nil _)
    ⟨tokens, stop, firstId, []⟩ ⟨h, by simp⟩
  unfold Program.read
  split at hread
  · next body r hr =>
    rw [hr]
    exact ⟨Stmt.inFileAll_iff.2 hread.2, fun x hx => hread.1.faults x (List.mem_reverse.1 hx)⟩
  · next e r hr =>
    rw [hr]
    exact ⟨trivial, fun x hx => hread.faults x (List.mem_reverse.1 hx)⟩

end Treewalk
