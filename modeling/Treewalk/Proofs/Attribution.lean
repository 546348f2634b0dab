import Treewalk.Proofs.Blame
import Treewalk.Proofs.InFile

/-!
# Reports name the file that they are about

Reports about a text get the file that the collector is set to, which loads switch and switch back
around each file they process. `Setup.reports_attributed`: whatever a session did before, a call
that runs a file or a text reports what is wrong with characters under the name of the text they
are in and what is wrong with a token under the token's own file, and sets the collector back.

`Finding.InFile`: what binding the names of a tree finds is about tokens of the tree's file.
`Session.During s own t` is the invariant of a call that began in `s`: the trees at hand are those
of the files they are kept under, and each new report is one of a text or tree of the call.
`Files s own file file' q Q` is the rule for loads that start with the collector set to `file` and
leave it set to `file'`.
-/

namespace Treewalk

/-! ### What binding names finds -/

/-- The tokens of the finding are of the file. -/
def Finding.InFile (file : Option String) : Finding → Prop
  | .fault t _ => t.InFile file
  | .required decl => decl.InFile file
  | .exposed names => ∀ t ∈ names, t.InFile file
  | .local _ _ | .declared _ => True

/-- All that was found is about tokens of the file. -/
def Context.InFile (file : Option String) (c : Context) : Prop := ∀ x ∈ c.found, x.InFile file

namespace Context.InFile

variable {file : Option String} {c : Context}

theorem find (h : c.InFile file) {x : Finding} (hx : x.InFile file) : (c.find x).InFile file :=
  List.forall_mem_cons.2 ⟨hx, h⟩

theorem fault (h : c.InFile file) {t : Token} (ht : t.InFile file) (f : BindingFault) :
    (c.fault t f).InFile file := h.find ht

theorem faultIf (h : c.InFile file) {t : Token} (ht : t.InFile file) (f : BindingFault) (p : Prop)
    [Decidable p] : (if p then c.fault t f else c).InFile file := by
  split
  · exact h.fault ht f
  · exact h

theorem refer (h : c.InFile file) (ref : Ref) : (c.refer ref).InFile file := by
  unfold Context.refer
  split
  · exact h.find trivial
  · exact h

theorem note (h : c.InFile file) (x : String) (ready : Bool) : (c.note x ready).InFile file := by
  unfold Context.note
  split <;> exact h

theorem declare (h : c.InFile file) {name : Token} (hn : name.InFile file) :
    (c.declare name).InFile file := by
  unfold Context.declare
  split
  · exact (h.note _ _).faultIf hn _ _
  · exact h.find trivial

theorem define (h : c.InFile file) {name : Token} (hn : name.InFile file) :
    ((c.declare name).define name).InFile file := (h.declare hn).note _ _

theorem defineAll (h : c.InFile file) {names : List Token} (hn : ∀ t ∈ names, t.InFile file) :
    (c.defineAll names).InFile file := by
  induction names generalizing c with
  | nil => exact h
  | cons name names ih =>
    obtain ⟨hname, hnames⟩ := List.forall_mem_cons.1 hn
    exact ih (h.define hname) hnames

end Context.InFile

section

variable {file : Option String}

mutual

theorem Expr.bind_inFile : ∀ (e : Expr) {c : Context}, e.InFile file → c.InFile file →
    (e.bind c).InFile file
  | .literal _, _, _, hc => hc
  | .grouping e, _, he, hc => e.bind_inFile he hc
  | .unary _ e, _, he, hc => e.bind_inFile he.2 hc
  | .binary l _ r, _, he, hc | .logical l _ r, _, he, hc =>
    r.bind_inFile he.2.2 (l.bind_inFile he.1 hc)
  | .ternary t y n, _, he, hc =>
    n.bind_inFile he.2.2 (y.bind_inFile he.2.1 (t.bind_inFile he.1 hc))
  | .comma es, _, he, hc => Expr.bindAll_inFile es he hc
  | .variable ref, _, he, hc => (hc.faultIf he _ _).refer ref
  | .assign ref e, _, he, hc => (e.bind_inFile he.2 hc).refer ref
  | .compound ref _ e, _, he, hc => (e.bind_inFile he.2.2 hc).refer ref
  | .call callee _ args, _, he, hc =>
    Expr.bindAll_inFile args he.2.2 (callee.bind_inFile he.1 hc)
  | .get e _, _, he, hc => e.bind_inFile he.1 hc
  | .set e _ _ v, _, he, hc => e.bind_inFile he.1 (v.bind_inFile he.2.2.2 hc)
  | .this ref, c, he, hc => by
    rw [Expr.bind]
    split
    · exact hc.fault he _
    · split
      · exact hc.fault he _
      · exact hc.refer ref
  | .super ref _, c, he, hc => by
    rw [Expr.bind]
    split
    · exact hc.fault he.1 _
    · exact hc.fault he.1 _
    · split
      · exact hc.fault he.1 _
      · exact hc.refer ref

theorem Expr.bindAll_inFile : ∀ (es : List Expr) {c : Context}, Expr.InFileAll file es →
    c.InFile file → (Expr.bindAll es c).InFile file
  | [], _, _, hc => hc
  | e :: es, _, he, hc => Expr.bindAll_inFile es he.2 (e.bind_inFile he.1 hc)

end

theorem Expr.bindOption_inFile {e : Option Expr} {c : Context} (he : ∀ e' ∈ e, e'.InFile file)
    (hc : c.InFile file) : (Expr.bindOption e c).InFile file := by
  cases e with
  | none => exact hc
  | some e => exact e.bind_inFile (he e rfl) hc

theorem FieldDecl.bindAll_inFile {fields : List FieldDecl} {c : Context}
    (hf : ∀ f ∈ fields, f.InFile file) (hc : c.InFile file) :
    (FieldDecl.bindAll fields c).InFile file := by
  induction fields generalizing c with
  | nil => exact hc
  | cons f fs ih =>
    obtain ⟨hf, hfs⟩ := List.forall_mem_cons.1 hf
    exact ih hfs (Expr.bindOption_inFile hf.init hc)

/-- Classes bind names of the file if their members do. -/
theorem ClassDecl.bind_inFile_of {decl : ClassDecl} {c : Context} (hd : decl.InFile file)
    (hc : c.InFile file)
    (hs : ∀ {c}, c.InFile file → (FunctionDecl.bindStatics decl.staticMethods c).InFile file)
    (hm : ∀ {c}, c.InFile file → (FunctionDecl.bindMethods decl.methods c).InFile file)
    (hf : ∀ f ∈ decl.fields, ∀ {c}, c.InFile file → (FunctionDecl.bind .method f c).InFile file) :
    (decl.bind c).InFile file := by
  obtain ⟨hname, -, -, -, -, hfields⟩ := ClassDecl.inFile_iff.1 hd
  have hentered : (decl.entered c).InFile file := hc.define hname
  have hstatics : (decl.inStatics c).InFile file := by
    unfold ClassDecl.inStatics
    split
    · next ref _ =>
      have hsuper : ((decl.entered c).refer ref).push.InFile file := hentered.refer ref
      exact hsuper.note "super" true
    · exact hentered
  have hmembers : ({ FunctionDecl.bindStatics decl.staticMethods
      (FieldDecl.bindAll decl.staticFields (decl.inStatics c)) with
      inStatic := false }.push).InFile file := hs (FieldDecl.bindAll_inFile hfields hstatics)
  have hinstances : (decl.inInstances c).InFile file := hmembers.note "this" true
  have hafter : (decl.afterInstances c).InFile file := by
    have hmethods := hm hinstances
    unfold ClassDecl.afterInstances
    cases hfs : decl.fields with
    | none => exact hmethods
    | some f => exact hf f hfs hmethods
  rw [ClassDecl.bind_eq]
  dsimp only
  split <;> exact hafter

mutual

theorem Stmt.bind_inFile : ∀ (s : Stmt) {c : Context}, s.InFile file → c.InFile file →
    (s.bind c).InFile file
  | .expr e, _, hs, hc => e.bind_inFile hs hc
  | .print _ e, _, hs, hc => e.bind_inFile hs.2 hc
  | .var name _ init, _, hs, hc => (Expr.bindOption_inFile hs.2.2 (hc.declare hs.1)).note _ _
  | .block body, c, hs, hc =>
    Stmt.bindAll_inFile body hs (show c.push.InFile file from hc)
  | .decls body, _, hs, hc => Stmt.bindAll_inFile body hs hc
  | .branch e y none, _, hs, hc => y.bind_inFile hs.2 (e.bind_inFile hs.1 hc)
  | .branch e y (some n), _, hs, hc =>
    n.bind_inFile hs.2.2 (y.bind_inFile hs.2.1 (e.bind_inFile hs.1 hc))
  | .loop e step body, c, hs, hc => by
    have hbody : (body.bind { e.bind c with loops := (e.bind c).loops + 1 }).InFile file :=
      body.bind_inFile hs.2.2 (e.bind_inFile hs.1 hc)
    rw [Stmt.bind]
    exact Expr.bindOption_inFile hs.2.1 hbody
  | .function decl, _, hs, hc => by
    have hname := (FunctionDecl.inFile_iff.1 hs).1
    exact FunctionDecl.bind_inFile .function decl hs (hc.define hname)
  | .ret keyword value, _, hs, hc =>
    Expr.bindOption_inFile hs.2 ((hc.faultIf hs.1 _ _).faultIf hs.1 _ _)
  | .brk keyword, _, hs, hc | .cont keyword, _, hs, hc => hc.faultIf hs _ _
  | .cls decl, _, hs, hc => ClassDecl.bind_inFile decl hs hc
  | .require decl, c, hs, hc => by
    rw [Stmt.bind]
    split
    · exact hc.find hs
    · exact hc.fault hs.keyword _
  | .expose keyword names, c, hs, hc => by
    rw [Stmt.bind]
    split
    · exact hc.find hs.2
    · exact hc.fault hs.1 _

theorem Stmt.bindAll_inFile : ∀ (ss : List Stmt) {c : Context}, Stmt.InFileAll file ss →
    c.InFile file → (Stmt.bindAll ss c).InFile file
  | [], _, _, hc => hc
  | s :: ss, _, hs, hc => Stmt.bindAll_inFile ss hs.2 (s.bind_inFile hs.1 hc)

theorem FunctionDecl.bind_inFile (kind : FunctionKind) : ∀ (f : FunctionDecl) {c : Context},
    f.InFile file → c.InFile file → (FunctionDecl.bind kind f c).InFile file
  | ⟨_, params, body⟩, c, hf, hc => by
    have hinner : ({ c.push with function := some kind, loops := 0 } : Context).InFile file := hc
    exact Stmt.bindAll_inFile body hf.2.2 (hinner.defineAll hf.2.1)

theorem FunctionDecl.bindStatics_inFile : ∀ (fs : List FunctionDecl) {c : Context},
    FunctionDecl.InFileAll file fs → c.InFile file →
    (FunctionDecl.bindStatics fs c).InFile file
  | [], _, _, hc => hc
  | f :: fs, _, hfs, hc =>
    FunctionDecl.bindStatics_inFile fs hfs.2 (FunctionDecl.bind_inFile .function f hfs.1 hc)

theorem FunctionDecl.bindMethods_inFile : ∀ (fs : List FunctionDecl) {c : Context},
    FunctionDecl.InFileAll file fs → c.InFile file →
    (FunctionDecl.bindMethods fs c).InFile file
  | [], _, _, hc => hc
  | f :: fs, _, hfs, hc =>
    FunctionDecl.bindMethods_inFile fs hfs.2 (FunctionDecl.bind_inFile _ f hfs.1 hc)

theorem ClassDecl.bind_inFile : ∀ (decl : ClassDecl) {c : Context}, decl.InFile file →
    c.InFile file → (decl.bind c).InFile file
  | ⟨name, sup, methods, fields, staticMethods, staticFields⟩, _, hd, hc => by
    obtain ⟨-, -, hmethods, hfields, hstatics, -⟩ := ClassDecl.inFile_iff.1 hd
    refine ClassDecl.bind_inFile_of hd hc
      (FunctionDecl.bindStatics_inFile staticMethods (FunctionDecl.inFileAll_iff.2 hstatics))
      (FunctionDecl.bindMethods_inFile methods (FunctionDecl.inFileAll_iff.2 hmethods)) ?_
    cases fields with
    | none => simp
    | some f =>
      intro f' hf'
      injection hf' with hf'
      rw [← hf']
      exact FunctionDecl.bind_inFile .method f (hfields f rfl)

end

/-- All that binding the names of a program finds is about tokens of its file. -/
theorem findings_inFile {body : List Stmt} (h : Stmt.InFileAll file body) :
    ∀ x ∈ findings body, x.InFile file := fun x hx =>
  Stmt.bindAll_inFile body h (show ({} : Context).InFile file from List.forall_mem_nil _) x
    (List.mem_reverse.1 hx)

end

/-! ### The reports of a call -/

/-- A report at a token, about the token's file. -/
def Token.report (stage : Stage) (t : Token) (message : String) : Diagnostic :=
  ⟨stage, t.file, t.pos, .lexeme t.lexeme, message⟩

/-- What can be reported on account of a finding, and at which token. -/
inductive Finding.Says : Finding → Token → String → Prop where
  | fault (t : Token) (f : BindingFault) : Says (.fault t f) t f.message
  | unreadable (decl : ImportDecl) (e : DiskError) :
      Says (.required decl) decl.path (ModuleFault.unreadable decl.module e).message
  | cycle (decl : ImportDecl) (names : List String) :
      Says (.required decl) decl.path (ModuleFault.cycle names).message
  | failed (decl : ImportDecl) :
      Says (.required decl) decl.path (ModuleFault.failed decl.module).message
  | notExposed {decl : ImportDecl} {t : Token} (ht : t ∈ decl.names) :
      Says (.required decl) t (ModuleFault.notExposed t.lexeme decl.module).message
  | undeclared {names : List Token} {t : Token} (ht : t ∈ names) :
      Says (.exposed names) t (ModuleFault.undeclared t.lexeme).message

/-- The program that is read from a text of `file`. -/
def Source.program (file : Option String) (text : String) (firstId : Nat) : Program :=
  Program.read (scan file text).tokens (scan file text).stop firstId

theorem Source.program_inFile (file : Option String) (text : String) (firstId : Nat) :
    Stmt.InFileAll file (Source.program file text firstId).body ∧
      ∀ x ∈ (Source.program file text firstId).faults, x.1.InFile file :=
  Program.read_inFile (fun _ ht => scan_file ht) _ firstId

namespace Session

section

variable (s : Session) (own : Option (Option String × String))

/-- The texts that a call which begins in `s` can read, and how reports name them: `own`, the text
that it runs, if it runs one, and the files on the disk. -/
inductive Reads : Option String → String → Prop where
  | own {name : Option String} {text : String} (h : own = some (name, text)) : Reads name text
  | file {path : Path} {text : String} (h : s.disk.read path = .ok text) :
      Reads (some (s.displayName path)) text

/-- The trees whose names such a call can bind: of texts that it reads, and of files that were read
before. -/
inductive Binds : Option String → List Stmt → Prop where
  | read {file : Option String} {text : String} (h : s.Reads own file text) (firstId : Nat) :
      Binds file (Source.program file text firstId).body
  | kept {path : Path} {body : List Stmt} (h : s.parsed.get? path = some body) :
      Binds (some (s.displayName path)) body

/-- The report is about a text or tree of the call and under the right name. Those of failed runs
are not about a text. -/
inductive Filed : Diagnostic → Prop where
  /-- Characters that are no token are reported under the name of their text. -/
  | characters {file : Option String} {text : String} {p : Pos} {f : LexicalFault}
      (h : s.Reads own file text) (hf : (p, f) ∈ (scan file text).faults) :
      Filed ⟨.reading, file, p, .nowhere, f.message⟩
  | token {file : Option String} {text : String} {firstId : Nat} {t : Token} {f : ReadingFault}
      (h : s.Reads own file text) (ht : t.file = file)
      (hf : (.token t, f) ∈ (Source.program file text firstId).faults) :
      Filed (t.report .reading f.message)
  | ending {file : Option String} {text : String} {firstId : Nat} {p : Pos} {f : ReadingFault}
      (h : s.Reads own file text) (hf : (.stop p, f) ∈ (Source.program file text firstId).faults) :
      Filed ⟨.reading, file, p, .atEnd, f.message⟩
  | name {file : Option String} {body : List Stmt} {x : Finding} {t : Token} {message : String}
      (h : s.Binds own file body) (ht : t.file = file) (hx : x ∈ findings body)
      (hs : x.Says t message) : Filed (t.report .binding message)
  | run (f : Fault) : Filed ⟨.running, f.file, f.pos, .nowhere, f.message⟩

/-- The reports of `t` are those of `s` and others after them, which are filed. -/
def Attributes (t : Session) : Prop :=
  ∃ new, t.diagnostics.reported.toList = s.diagnostics.reported.toList ++ new ∧
    ∀ d ∈ new, s.Filed own d

/-- In the state `t` of a call that begins in `s` the disk is the same, trees are kept under the
names of their files, and what was reported since is filed. -/
structure During (t : Session) : Prop where
  root : t.root = s.root
  disk : t.disk = s.disk
  parsed : ∀ path body, t.parsed.get? path = some body →
    s.Binds own (some (s.displayName path)) body
  reports : s.Attributes own t

/-- The trees of all files read so far are of these files. -/
def Named : Prop := ∀ path body, s.parsed.get? path = some body →
  Stmt.InFileAll (some (s.displayName path)) body

end

variable {s t : Session} {own : Option (Option String × String)} {file : Option String}

theorem Binds.inFile {body : List Stmt} (hs : s.Named) (h : s.Binds own file body) :
    Stmt.InFileAll file body := by
  cases h with
  | read h firstId => exact (Source.program_inFile ..).1
  | kept h => exact hs _ _ h

namespace During

theorem refl (s : Session) (own : Option (Option String × String)) : s.During own s :=
  ⟨rfl, rfl, fun _ _ h => .kept h, [], by simp, by simp⟩

theorem displayName_eq (h : s.During own t) (path : Path) :
    t.displayName path = s.displayName path := by
  rw [displayName, h.root, ← displayName]

theorem push (h : s.During own t) {d : Diagnostic} (hd : s.Filed own d) :
    s.During own { t with diagnostics := t.diagnostics.push d } := by
  obtain ⟨new, hnew, hfiled⟩ := h.reports
  refine ⟨h.root, h.disk, h.parsed, new ++ [d], ?_, ?_⟩
  · simp [Diagnostics.push, hnew]
  · exact List.forall_mem_append.2 ⟨hfiled, List.forall_mem_singleton.2 hd⟩

/-- Reports at a token are filed if the collector is set to the token's file. -/
theorem reportAt (h : s.During own t) {u : Token} {stage : Stage} {message : String}
    (hfile : t.diagnostics.file = u.file) (hd : s.Filed own (u.report stage message)) :
    s.During own
      { t with diagnostics := t.diagnostics.reportAt stage (.token u) message } := by
  have heq : t.diagnostics.reportAt stage (.token u) message =
      t.diagnostics.push (u.report stage message) := by
    rw [Diagnostics.reportAt, hfile]
    rfl
  rw [heq]
  exact h.push hd

/-- Reports in a row, while the collector is set to `file`. -/
theorem foldl {α : Type} {f : Diagnostics → α → Diagnostics} {as : List α} (h : s.During own t)
    (hfile : t.diagnostics.file = file)
    (hf : ∀ ds : Diagnostics, ds.file = file → ∀ a ∈ as, ∃ d, s.Filed own d ∧ f ds a = ds.push d) :
    s.During own { t with diagnostics := as.foldl f t.diagnostics } ∧
      (as.foldl f t.diagnostics).file = file := by
  induction as generalizing t with
  | nil => exact ⟨h, hfile⟩
  | cons a as ih =>
    obtain ⟨d, hd, heq⟩ := hf _ hfile a List.mem_cons_self
    rw [List.foldl_cons, heq]
    exact ih (h.push hd) hfile fun ds hds a ha => hf ds hds a (List.mem_cons_of_mem _ ha)

/-- What is wrong with a text is filed if the collector is set to the text's name. -/
theorem read {text : String} (h : s.During own t) (hfile : t.diagnostics.file = file)
    (hr : s.Reads own file text) (firstId : Nat) :
    s.During own
        { t with diagnostics := (Source.read file text firstId t.diagnostics).2 } ∧
      (Source.read file text firstId t.diagnostics).2.file = file := by
  have hscan : s.During own { t with diagnostics := t.diagnostics.reportScan (scan file text) } ∧
      (t.diagnostics.reportScan (scan file text)).file = file := by
    refine h.foldl hfile fun ds hds a ha => ?_
    obtain ⟨p, f⟩ := a
    exact ⟨_, .characters hr ha, by rw [← hds]; rfl⟩
  refine foldl hscan.1 hscan.2 fun ds hds a ha => ?_
  obtain ⟨site, f⟩ := a
  cases site with
  | token u =>
    have hu : u.file = file := (Source.program_inFile file text firstId).2 _ ha u rfl
    exact ⟨_, .token hr hu ha, by rw [Token.report, hu, ← hds]; rfl⟩
  | stop p => exact ⟨_, .ending hr ha, by rw [← hds]; rfl⟩

end During

/-- Sessions keep the trees of their files through a call. -/
theorem Named.of_during (hs : s.Named) (h : s.During own t) : t.Named := by
  intro path body hb
  rw [h.displayName_eq]
  exact (h.parsed path body hb).inFile hs

end Session

/-! ### Rules -/

section

variable (s : Session) (own : Option (Option String × String))

/-- The load keeps the invariant of the call and sets the collector from `file` to `file'`. -/
def Files {α : Type} (file file' : Option String) (q : Load α) (Q : α → Prop) : Prop :=
  ∀ t : Session, s.During own t → t.diagnostics.file = file →
    match q t with
    | .ok a u => s.During own u ∧ u.diagnostics.file = file' ∧ Q a
    | .error _ u => s.During own u

end

namespace Files

variable {α β : Type} {s : Session} {own : Option (Option String × String)}
  {file file' file'' : Option String} {q : Load α} {P Q : α → Prop}

theorem pure {a : α} (h : Q a) : Files s own file file (Pure.pure a) Q := fun _ ht hf => ⟨ht, hf, h⟩

theorem throw (e : OutOfSteps) : Files s own file file' (throw e : Load α) Q := fun _ ht _ => ht

theorem bind {f : α → Load β} {Q : β → Prop} (h : Files s own file file' q P)
    (hf : ∀ a, P a → Files s own file' file'' (f a) Q) :
    Files s own file file'' (q >>= f) Q := by
  intro t ht hfile
  have hq := h t ht hfile
  have heq : (q >>= f) t = EStateM.bind q f t := rfl
  rw [heq, EStateM.bind]
  split at hq
  · next a u hu =>
    rw [hu]
    exact hf a hq.2.2 u hq.1 hq.2.1
  · next e u hu =>
    rw [hu]
    exact hq

/-- A step of whose answer nothing has to be known comes first. -/
theorem after {f : α → Load β} {Q : β → Prop} (h : Files s own file file' q P)
    (hf : ∀ a, Files s own file' file'' (f a) Q) : Files s own file file'' (q >>= f) Q :=
  h.bind fun a _ => hf a

theorem get {f : Session → Load α} (h : ∀ t, s.During own t → Files s own file file' (f t) Q) :
    Files s own file file' (MonadState.get >>= f) Q := fun t ht hfile => h t ht t ht hfile

theorem change {g : Session → Session}
    (h : ∀ t, s.During own t → t.diagnostics.file = file →
      s.During own (g t) ∧ (g t).diagnostics.file = file') :
    Files s own file file' (modify g) fun _ => True := fun t ht hfile =>
  have hg := h t ht hfile
  ⟨hg.1, hg.2, trivial⟩

theorem setFile (file file' : Option String) :
    Files s own file file' (Load.setFile file') (· = file) := fun _ ht hfile =>
  ⟨⟨ht.root, ht.disk, ht.parsed, ht.reports⟩, rfl, hfile⟩

theorem reports : Files s own file file Load.reports fun _ => True := fun _ ht hfile =>
  ⟨ht, hfile, trivial⟩

theorem newInterpreter : Files s own file file Load.newInterpreter fun _ => True :=
  fun _ ht hfile => ⟨⟨ht.root, ht.disk, ht.parsed, ht.reports⟩, hfile, trivial⟩

theorem perform (i : Interpreter) (p : Eval α) :
    Files s own file file (Load.perform i p) fun _ => True := by
  intro t ht hfile
  have hworld : ∀ w, s.During own { t with world := w } := fun w =>
    ⟨ht.root, ht.disk, ht.parsed, ht.reports⟩
  rw [Load.perform]
  cases p (Machine.ofParts t.world i t.config.maxDepth) with
  | ok a m => exact ⟨hworld _, hfile, trivial⟩
  | error e m =>
    cases e with
    | fault f => exact ⟨hworld _, hfile, trivial⟩
    | exhausted => exact hworld _

theorem reportFault (f : Fault) :
    Files s own file file
      (modify fun s => { s with diagnostics := s.diagnostics.reportFault f }) fun _ => True :=
  change fun _ ht hfile => ⟨ht.push (.run f), hfile⟩

theorem readText {text : String} (hr : s.Reads own file text) :
    Files s own file file (Load.readText file text) (s.Binds own file) := by
  intro t ht hfile
  obtain ⟨hds, hfile'⟩ := ht.read hfile hr t.nextRef
  exact ⟨⟨hds.root, hds.disk, hds.parsed, hds.reports⟩, hfile', .read hr t.nextRef⟩

theorem readFile {path : Path} {text : String} (hr : s.disk.read path = .ok text) :
    Files s own (some (s.displayName path)) (some (s.displayName path))
      (Load.readFile path (s.displayName path) text)
      (s.Binds own (some (s.displayName path))) := by
  refine .get fun t ht => ?_
  cases hp : t.parsed.get? path with
  | some body => exact .pure (ht.parsed path body hp)
  | none =>
    -- The new tree is kept under the path that its tokens are named for.
    refine (readText (.file hr)).bind fun body hb => bind (change fun u hu hfile => ?_) fun _ _ =>
      .pure hb
    refine ⟨⟨hu.root, hu.disk, fun path' body' hb' => ?_, hu.reports⟩, hfile⟩
    rw [Table.get?_insert] at hb'
    split at hb'
    · next heq =>
      cases hb'
      exact heq ▸ hb
    · exact hu.parsed path' body' hb'

end Files

/-! ### Loads -/

/-- The names that a file wants to expose are those that its tree exposes. -/
def Pending.Exposes (body : List Stmt) (p : Pending) : Prop :=
  ∀ t ∈ p.exposed, ∃ names, .exposed names ∈ findings body ∧ t ∈ names

/-- With `n` steps, loads file all of their reports. -/
structure LoadFiles (s : Session) (own : Option (Option String × String)) (n : Nat) : Prop where
  settle : ∀ {file body} dir fs p, s.Binds own file body → (∀ x ∈ fs, x ∈ findings body) →
    p.Exposes body → Files s own file file (Load.settle n dir fs p) (Pending.Exposes body)
  bindNames : ∀ {file body} dir i, s.Binds own file body →
    Files s own file file (Load.bindNames n dir body i) fun _ => True
  fetch : ∀ {file body} dir decl, s.Binds own file body → .required decl ∈ findings body →
    Files s own file file (Load.fetch n dir decl) fun _ => True
  process : ∀ {file} path text, s.disk.read path = .ok text →
    Files s own file file (Load.process n path text) fun _ => True
  processHere : ∀ path text, s.disk.read path = .ok text →
    Files s own (some (s.displayName path)) (some (s.displayName path))
      (Load.processHere n path (s.displayName path) text) fun _ => True

namespace LoadFiles

variable {s : Session} {own : Option (Option String × String)} {n : Nat} {file : Option String}
  {body : List Stmt}

/-- What is reported on account of a finding is filed. -/
theorem report {x : Finding} {t : Token} {f : ModuleFault} (hb : s.Binds own file body)
    (hx : x ∈ findings body) (hs : x.Says t f.message) (ht : t.file = file) :
    Files s own file file (Load.report t f) fun _ => True :=
  .change fun _ hu hfile => ⟨hu.reportAt (hfile.trans ht.symm) (.name hb ht hx hs), hfile⟩

theorem takeNames {decl : ImportDecl} (hs : s.Named) (hb : s.Binds own file body)
    (hx : .required decl ∈ findings body) (m : Module) {names : List Token}
    (hn : ∀ t ∈ names, t ∈ decl.names) (p : Pending) (hp : p.Exposes body) :
    Files s own file file (Load.takeNames decl m names p) (Pending.Exposes body) := by
  have hdecl : decl.InFile file := findings_inFile (hb.inFile hs) _ hx
  induction names generalizing p with
  | nil => exact .pure hp
  | cons name names ih =>
    obtain ⟨hname, hnames⟩ := List.forall_mem_cons.1 hn
    rw [Load.takeNames]
    split
    · have hdeclare : (p.declare name.lexeme).Exposes body := by
        unfold Pending.declare
        split <;> exact hp
      refine Files.after (.change fun t ht hfile => ?_) fun _ => ih hnames _ hdeclare
      split
      · exact ⟨⟨ht.root, ht.disk, ht.parsed, ht.reports⟩, hfile⟩
      · exact ⟨ht, hfile⟩
    · exact Files.after (report hb hx (.notExposed hname) (hdecl.names name hname)) fun _ =>
        ih hnames p hp

theorem exportsOf (hs : s.Named) (hb : s.Binds own file body) (declared : List String)
    {names : List Token} (hn : ∀ t ∈ names, ∃ ts, .exposed ts ∈ findings body ∧ t ∈ ts)
    (acc : List String) :
    Files s own file file (Load.exportsOf declared names acc) fun _ => True := by
  induction names generalizing acc with
  | nil => exact .pure trivial
  | cons name names ih =>
    obtain ⟨⟨ts, hx, ht⟩, hnames⟩ := List.forall_mem_cons.1 hn
    rw [Load.exportsOf]
    split
    · exact ih hnames _
    · have hfile : name.file = file := findings_inFile (hb.inFile hs) _ hx name ht
      exact Files.after (report hb hx (.undeclared ht) hfile) fun _ => ih hnames acc

theorem settle_succ (hs : s.Named) (ih : LoadFiles s own n) (dir : String) (fs : List Finding)
    (p : Pending) (hb : s.Binds own file body) (hfs : ∀ x ∈ fs, x ∈ findings body)
    (hp : p.Exposes body) :
    Files s own file file (Load.settle (n + 1) dir fs p) (Pending.Exposes body) := by
  cases fs with
  | nil => exact .pure hp
  | cons x fs =>
  obtain ⟨hx, hrest⟩ := List.forall_mem_cons.1 hfs
  have hin : x.InFile file := findings_inFile (hb.inFile hs) x hx
  -- The collector is set to `file` again after each import, so that the next finding is filed, too.
  cases x <;> rw [Load.settle]
  case «local» id d => exact ih.settle dir fs _ hb hrest hp
  case fault t f =>
    refine Files.after (.change fun u hu hfile => ?_) fun _ => ih.settle dir fs p hb hrest hp
    exact ⟨hu.reportAt (hfile.trans hin.symm) (.name hb hin hx (.fault t f)), hfile⟩
  case declared name =>
    refine ih.settle dir fs _ hb hrest ?_
    unfold Pending.declare
    split <;> exact hp
  case exposed names =>
    refine ih.settle dir fs _ hb hrest (List.forall_mem_append.2 ⟨hp, fun t ht => ?_⟩)
    exact ⟨names, hx, ht⟩
  case required decl =>
    refine (ih.fetch dir decl hb hx).after fun r => ?_
    cases r with
    | none => exact ih.settle dir fs p hb hrest hp
    | some m =>
      exact (takeNames hs hb hx m (fun _ ht => ht) p hp).bind fun p hp =>
        ih.settle dir fs _ hb hrest hp

theorem bindNames_succ (hs : s.Named) (ih : LoadFiles s own n) (dir : String) (i : Interpreter)
    (hb : s.Binds own file body) :
    Files s own file file (Load.bindNames (n + 1) dir body i) fun _ => True := by
  rw [Load.bindNames]
  refine (ih.settle dir _ { interpreter := i } hb (fun _ hx => hx) (List.forall_mem_nil _)).bind
    fun p hp => ?_
  exact (exportsOf hs hb p.declared hp []).after fun _ => .pure trivial

theorem fetch_succ (hs : s.Named) (ih : LoadFiles s own n) (dir : String) (decl : ImportDecl)
    (hb : s.Binds own file body) (hx : .required decl ∈ findings body) :
    Files s own file file (Load.fetch (n + 1) dir decl) fun _ => True := by
  have hdecl : decl.InFile file := findings_inFile (hb.inFile hs) _ hx
  have hreport : ∀ f : ModuleFault, (Finding.required decl).Says decl.path f.message →
      Files s own file file (do Load.report decl.path f; return (none : Option Module))
        fun _ => True := fun f hf =>
    (report hb hx hf hdecl.path).after fun _ => .pure trivial
  rw [Load.fetch]
  refine .get fun t ht => ?_
  cases t.disk.locate (Path.join dir (Load.fileName t.config decl.module)) with
  | error e => exact hreport _ (.unreadable decl e)
  | ok path =>
    dsimp only
    split
    · exact hreport _ (.cycle decl _)
    · cases t.modules.get? path with
      | some m => exact .pure trivial
      | none =>
        dsimp only
        split
        · exact hreport _ (.failed decl)
        · cases hr : t.disk.read path with
          | error e => exact hreport _ (.unreadable decl e)
          | ok text => exact ih.process path text (ht.disk ▸ hr)

/-- The collector is set to the file and back again, whatever comes of the file. -/
theorem process_succ (ih : LoadFiles s own n) (path : Path) (text : String)
    (hr : s.disk.read path = .ok text) :
    Files s own file file (Load.process (n + 1) path text) fun _ => True := by
  rw [Load.process]
  refine .get fun t ht => ?_
  rw [ht.displayName_eq]
  -- What was set before is what `setFile` answered, so it is not lost to nested files.
  refine (Files.setFile file _).bind fun before hbefore => ?_
  subst hbefore
  refine (ih.processHere path text hr).after fun result => (Files.setFile _ before).after fun _ => ?_
  split
  · refine Files.after (.change fun u hu hfile => ?_) fun _ => .pure trivial
    exact ⟨⟨hu.root, hu.disk, hu.parsed, hu.reports⟩, hfile⟩
  · exact .pure trivial

theorem processHere_succ (ih : LoadFiles s own n) (path : Path) (text : String)
    (hr : s.disk.read path = .ok text) :
    Files s own (some (s.displayName path)) (some (s.displayName path))
      (Load.processHere (n + 1) path (s.displayName path) text) fun _ => True := by
  have hloading : ∀ g : List Path → List Path, Files s own (some (s.displayName path))
      (some (s.displayName path)) (modify fun s => { s with loading := g s.loading }) fun _ => True :=
    fun g => .change fun t ht hfile => ⟨⟨ht.root, ht.disk, ht.parsed, ht.reports⟩, hfile⟩
  rw [Load.processHere]
  refine Files.reports.after fun before => (Files.readFile hr).bind fun body hb =>
    Files.reports.after fun _ => ?_
  split
  · exact .pure trivial
  refine Files.newInterpreter.after fun i => (hloading (· ++ [path])).after fun _ =>
    (ih.bindNames _ i hb).after fun r => ?_
  obtain ⟨exports, i⟩ := r
  refine (hloading List.dropLast).after fun _ => Files.reports.after fun _ => ?_
  split
  · exact .pure trivial
  refine (Files.perform i _).after fun r => ?_
  obtain ⟨result, i⟩ := r
  cases result with
  | error f => exact (Files.reportFault f).after fun _ => .pure trivial
  | ok a =>
    refine Files.after (.change fun t ht hfile => ?_) fun _ => .pure trivial
    exact ⟨⟨ht.root, ht.disk, ht.parsed, ht.reports⟩, hfile⟩

end LoadFiles

theorem loadFiles {s : Session} (hs : s.Named) (own : Option (Option String × String)) (n : Nat) :
    LoadFiles s own n := by
  induction n with
  | zero =>
    refine ⟨?_, ?_, ?_, ?_, ?_⟩
    all_goals intros; exact Files.throw _
  | succ n ih =>
    exact ⟨ih.settle_succ hs, ih.bindNames_succ hs, ih.fetch_succ hs, ih.process_succ,
      ih.processHere_succ⟩

namespace Files

variable {s : Session} {file : Option String}

theorem runFile (hs : s.Named) (n : Nat) (path : String) :
    Files s none file file (Load.runFile n path) fun _ => True := by
  refine .get fun t ht => ?_
  cases t.disk.locate (Path.join t.root path) with
  | error e => exact .pure trivial
  | ok path =>
    dsimp only
    cases t.modules.get? path with
    | some m => exact .pure trivial
    | none =>
      dsimp only
      cases hr : t.disk.read path with
      | error e => exact .pure trivial
      | ok text =>
        exact ((loadFiles hs none n).process path text (ht.disk ▸ hr)).after fun _ => .pure trivial

theorem runRead (hs : s.Named) {own : Option (Option String × String)} (n before : Nat)
    {body : List Stmt} (hb : s.Binds own file body) (i : Interpreter) :
    Files s own file file (Load.runRead n before body i) fun _ => True := by
  refine Files.reports.after fun _ => ?_
  split
  · exact .pure trivial
  refine .get fun t _ => ((loadFiles hs own n).bindNames t.root i hb).after fun r => ?_
  obtain ⟨exports, i⟩ := r
  refine Files.reports.after fun _ => ?_
  split
  · exact .pure trivial
  refine (Files.perform i _).after fun r => ?_
  obtain ⟨result, i⟩ := r
  cases result with
  | error f => exact (Files.reportFault f).after fun _ => .pure trivial
  | ok a => exact .pure trivial

theorem runSource (hs : s.Named) (n : Nat) (name : Option String) (text : String)
    (i : Interpreter) :
    Files s (some (name, text)) file file (Load.runSource n name text i) fun _ => True := by
  refine (setFile file name).bind fun before hbefore => ?_
  subst hbefore
  exact Files.reports.after fun _ => (readText (.own rfl)).bind fun body hb =>
    (runRead hs n _ hb i).after fun _ => (setFile name before).after fun _ => .pure trivial

end Files

/-! ### Sessions -/

/-- All that a call reports is filed, and if it ends then it leaves the collector set as it was. -/
structure Session.Attributed {α : Type} (s : Session) (own : Option (Option String × String))
    (r : EStateM.Result OutOfSteps Session α) : Prop where
  ended : ∀ a t, r = .ok a t →
    t.diagnostics.file = s.diagnostics.file ∧ s.Attributes own t
  cutOff : ∀ e t, r = .error e t → s.Attributes own t

theorem Files.attributed {α : Type} {s : Session} {own : Option (Option String × String)}
    {q : Load α} {Q : α → Prop}
    (h : Files s own s.diagnostics.file s.diagnostics.file q Q) : s.Attributed own (q s) := by
  have hs := h s (.refl s own) rfl
  constructor
  · intro a t hq
    rw [hq] at hs
    exact ⟨hs.2.1, hs.1.reports⟩
  · intro e t hq
    rw [hq] at hs
    exact hs.reports

/-- If the step ends, the trees of all files are still of these files. -/
def Load.KeepsTrees {α : Type} (q : Load α) : Prop :=
  ∀ s : Session, s.Named → match q s with
    | .ok _ t => t.Named
    | .error _ _ => True

namespace Load.KeepsTrees

variable {α β : Type} {q : Load α}

theorem pure (a : α) : KeepsTrees (Pure.pure a : Load α) := fun _ hs => hs

theorem bind {f : α → Load β} (h : q.KeepsTrees) (hf : ∀ a, (f a).KeepsTrees) :
    KeepsTrees (q >>= f) := by
  intro s hs
  have hq := h s hs
  have heq : (q >>= f) s = EStateM.bind q f s := rfl
  rw [heq, EStateM.bind]
  split at hq
  · next a t ht =>
    rw [ht]
    exact hf a t hq
  · next e t ht =>
    rw [ht]
    trivial

theorem map {f : α → β} (h : q.KeepsTrees) : KeepsTrees (f <$> q) := by
  rw [map_eq_pure_bind]
  exact h.bind fun a => pure (f a)

theorem change {g : Session → Session} (hr : ∀ s, (g s).root = s.root)
    (hp : ∀ s, (g s).parsed = s.parsed) : KeepsTrees (modify g : Load Unit) := by
  intro s hs path body hb
  rw [hp] at hb
  rw [Session.displayName, hr, ← Session.displayName]
  exact hs path body hb

theorem of_files (own : Option (Option String × String)) {Q : α → Prop}
    (h : ∀ {s : Session}, s.Named → Files s own s.diagnostics.file s.diagnostics.file q Q) :
    q.KeepsTrees := by
  intro s hs
  have hq := h hs s (.refl s own) rfl
  split at hq
  · exact hs.of_during hq.1
  · trivial

theorem keep (i : Interpreter) (store : Option String) (result : Except Fault Value) :
    (Load.keep i store result).KeepsTrees := by
  unfold Load.keep
  split
  · exact change (fun _ => rfl) fun _ => rfl
  · exact pure ()

theorem step (n : Nat) (is : Array Interpreter) (st : Step) : (Load.step n is st).KeepsTrees := by
  cases st with
  | newInterpreter => exact (of_files none fun _ => Files.newInterpreter).map
  | runFile path => exact (of_files _ fun hs => Files.runFile hs n path).bind fun _ => pure is
  | runSource who name text =>
    rw [Load.step]
    cases is[who]? with
    | none => exact pure is
    | some i => exact (of_files _ fun hs => Files.runSource hs n name text i).map
  | call who callee args paren store =>
    rw [Load.step]
    cases is[who]? with
    | none => exact pure is
    | some i =>
      refine bind (q := get) (fun _ hs => hs) fun s => ?_
      split
      · refine bind (of_files none fun _ => Files.perform i _) fun r => ?_
        obtain ⟨result, i⟩ := r
        exact (keep i store result).bind fun _ => pure _
      · exact pure is
  | defineGlobal who name value =>
    rw [Load.step]
    cases is[who]? with
    | none => exact pure is
    | some i => exact (change (fun _ => rfl) fun _ => rfl).bind fun _ => pure is
  | defineNative who f =>
    rw [Load.step]
    cases is[who]? with
    | none => exact pure is
    | some i => exact (change (fun _ => rfl) fun _ => rfl).bind fun _ => pure is
  | resetErrors | changeDisk => exact (change (fun _ => rfl) fun _ => rfl).bind fun _ => pure is

theorem steps (n : Nat) (ts : List Step) (is : Array Interpreter) :
    (Load.steps n ts is).KeepsTrees := by
  induction ts generalizing is with
  | nil => exact pure is
  | cons t ts ih => exact (step n is t).bind fun is => ih is

end Load.KeepsTrees

namespace Setup

variable {n : Nat} {ts : List Step} {is : Array Interpreter} {x : Session}

theorem named_of_run (s : Setup) (h : s.run n ts = .ok is x) : x.Named := by
  have hstart : s.session.Named := fun path body hb => by cases hb
  have hend := Load.KeepsTrees.steps n ts #[] s.session hstart
  unfold run at h
  rw [h] at hend
  exact hend

/-- Whatever a session did before, each new report of a call is filed, and if the call ends then
the collector is set as it was. -/
theorem reports_attributed (s : Setup) (h : s.run n ts = .ok is x) (k : Nat) :
    (∀ path, x.Attributed none (Load.runFile k path x)) ∧
      ∀ name text i, x.Attributed (some (name, text)) (Load.runSource k name text i x) := by
  have hx := s.named_of_run h
  exact ⟨fun path => (Files.runFile hx k path).attributed,
    fun name text i => (Files.runSource hx k name text i).attributed⟩

/-- The files that reports name after the steps and then a text of the first interpreter. -/
def reportedFiles (s : Setup) (n : Nat) (ts : List Step) (name : Option String) (text : String) :
    List (Option String) :=
  match s.run n ts with
  | .ok is x =>
    match is[0]? with
    | some i =>
      match Load.runSource n name text i x with
      | .ok _ t => t.diagnostics.reported.toList.map (·.file)
      | .error _ _ => []
    | none => []
  | .error _ _ => []

theorem exists_of_reportedFiles {s : Setup} {name : Option String} {text : String}
    {files : List (Option String)} (h : s.reportedFiles n ts name text = files)
    (hne : files ≠ []) :
    ∃ is x i i' t, s.run n ts = .ok is x ∧ is[0]? = some i ∧
      Load.runSource n name text i x = .ok i' t ∧
      t.diagnostics.reported.toList.map (·.file) = files := by
  unfold reportedFiles at h
  split at h
  case h_2 => exact absurd h.symm hne
  next is x hrun =>
  split at h
  case h_2 => exact absurd h.symm hne
  next i hi =>
  split at h
  case h_2 => exact absurd h.symm hne
  next i' t hsource => exact ⟨is, x, i, i', t, hrun, hi, hsource, h⟩

/-- The first file imports the second, which cannot be read, and ends with a fault of its own. -/
def brokenImport : Setup where
  root := "/"
  disk := Disk.addFile {} "/a.vuel" "import \x7b x \x7d from \"b\"; break;".toUTF8
    |>.addFile "/b.vuel" "@".toUTF8

/-- A text that imports the first file, from which it can have nothing. -/
def importsBroken : String := "import \x7b x \x7d from \"a\"; continue;"

/-- The reports of a text without a name are under no name, those before it under the names of the
files. -/
theorem reports_attributed_brokenImport :
    ∃ is x i i' t, brokenImport.run 30 [.newInterpreter, .runFile "a.vuel"] = .ok is x ∧
      is[0]? = some i ∧ Load.runSource 30 none importsBroken i x = .ok i' t ∧
      t.diagnostics.reported.toList.map (·.file) = [some "b.vuel", some "a.vuel", none, none] ∧
      t.diagnostics.file = x.diagnostics.file ∧ x.Attributes (some (none, importsBroken)) t := by
  have hfiles : brokenImport.reportedFiles 30 [.newInterpreter, .runFile "a.vuel"] none
      importsBroken = [some "b.vuel", some "a.vuel", none, none] := by decide +kernel
  obtain ⟨is, x, i, i', t, hrun, hi, hsource, hnames⟩ := exists_of_reportedFiles hfiles (by simp)
  have hcall := (reports_attributed brokenImport hrun 30).2 none importsBroken i
  exact ⟨is, x, i, i', t, hrun, hi, hsource, hnames, hcall.ended i' t hsource⟩

end Setup

end Treewalk
