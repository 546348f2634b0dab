import Treewalk.Session

/-!
# Failure is reported

Loads keep all reports and only add to them (`Diagnostics.Kept`). Most single steps are `Calm`: they
leave alone what a session knows of its files, too.

`Reports s q Q`: from `s` the step `q` keeps all reports, whether it ends or not, and if it ends
then `Q` holds of what it answers and leaves. `loadReports`: a file that is asked for or processed
is answered by nothing just if something was reported on the way.
-/

namespace Treewalk

/-! ### Reports that are kept -/

namespace Diagnostics

/-- The reports are those of `ds` and perhaps others after them. -/
def Kept (ds ds' : Diagnostics) : Prop := ds.reported.toList <+: ds'.reported.toList

theorem size_push (ds : Diagnostics) (d : Diagnostic) : (ds.push d).size = ds.size + 1 := by
  simp [size, push]

namespace Kept

variable {ds ds' ds'' : Diagnostics}

theorem refl (ds : Diagnostics) : Kept ds ds := List.prefix_refl _

theorem trans (h : Kept ds ds') (h' : Kept ds' ds'') : Kept ds ds'' := List.IsPrefix.trans h h'

theorem push (ds : Diagnostics) (d : Diagnostic) : Kept ds (ds.push d) := by
  simp [Kept, Diagnostics.push]

theorem foldl {α : Type} {f : Diagnostics → α → Diagnostics} (hf : ∀ ds a, Kept ds (f ds a))
    (as : List α) (ds : Diagnostics) : Kept ds (as.foldl f ds) := by
  induction as generalizing ds with
  | nil => exact .refl ds
  | cons a as ih => exact (hf ds a).trans (ih (f ds a))

theorem size_le (h : Kept ds ds') : ds.size ≤ ds'.size := by
  simpa [size] using List.IsPrefix.length_le h

end Kept

end Diagnostics

theorem Source.kept_read (file : Option String) (text : String) (firstId : Nat)
    (ds : Diagnostics) : ds.Kept (Source.read file text firstId ds).2 :=
  (Diagnostics.Kept.foldl (fun ds _ => .push ds _) _ ds).trans
    (Diagnostics.Kept.foldl (fun ds _ => .push ds _) _ _)

/-! ### Calm steps -/

/-- What the session knows of its files stays as it is, and reports are only added. -/
structure Session.Calm (s t : Session) : Prop where
  disk : t.disk = s.disk
  modules : t.modules = s.modules
  failed : t.failed = s.failed
  loading : t.loading = s.loading
  reports : s.diagnostics.Kept t.diagnostics

namespace Session.Calm

variable {s t u : Session}

theorem refl (s : Session) : s.Calm s := ⟨rfl, rfl, rfl, rfl, .refl _⟩

theorem trans (h : s.Calm t) (h' : t.Calm u) : s.Calm u :=
  ⟨h'.disk.trans h.disk, h'.modules.trans h.modules, h'.failed.trans h.failed,
    h'.loading.trans h.loading, h.reports.trans h'.reports⟩

theorem push (s : Session) (d : Diagnostic) :
    s.Calm { s with diagnostics := s.diagnostics.push d } := ⟨rfl, rfl, rfl, rfl, .push ..⟩

end Session.Calm

/-- The step is calm, whether it ends or not. -/
def Load.Calms {α : Type} (q : Load α) : Prop :=
  ∀ s, match q s with
    | .ok _ t => s.Calm t
    | .error _ t => s.Calm t

namespace Load.Calms

variable {α β : Type} {q : Load α}

theorem pure (a : α) : Calms (Pure.pure a : Load α) := fun s => .refl s

theorem change {f : Session → Session} (h : ∀ s, Session.Calm s (f s)) :
    Calms (modify f : Load Unit) := h

theorem answer {f : Session → α × Session} (h : ∀ s, Session.Calm s (f s).2) :
    Calms (modifyGet f : Load α) := h

theorem bind {f : α → Load β} (h : q.Calms) (hf : ∀ a, (f a).Calms) : Calms (q >>= f) := by
  intro s
  have hs := h s
  have heq : (q >>= f) s = EStateM.bind q f s := rfl
  rw [heq, EStateM.bind]
  revert hs
  cases q s with
  | error e t => exact id
  | ok a t =>
    intro hs
    have ht := hf a t
    dsimp only at hs ⊢
    revert ht
    cases f a t with
    | ok b u => exact hs.trans
    | error e u => exact hs.trans

theorem report (at_ : Token) (f : ModuleFault) : (Load.report at_ f).Calms :=
  change fun s => .push s _

theorem setFile (file : Option String) : (Load.setFile file).Calms :=
  answer fun _ => ⟨rfl, rfl, rfl, rfl, .refl _⟩

theorem newInterpreter : Load.newInterpreter.Calms := answer fun _ => ⟨rfl, rfl, rfl, rfl, .refl _⟩

theorem perform (i : Interpreter) (p : Eval α) : (Load.perform i p).Calms := by
  intro s
  rw [Load.perform]
  cases p (Machine.ofParts s.world i s.config.maxDepth) with
  | ok a m => exact ⟨rfl, rfl, rfl, rfl, .refl _⟩
  | error e m => cases e <;> exact ⟨rfl, rfl, rfl, rfl, .refl _⟩

theorem readText (file : Option String) (text : String) : (Load.readText file text).Calms :=
  answer fun _ => ⟨rfl, rfl, rfl, rfl, Source.kept_read ..⟩

theorem readFile (path : Path) (name text : String) : (Load.readFile path name text).Calms := by
  refine bind (q := get) (fun s => .refl s) fun s => ?_
  cases s.parsed.get? path with
  | some body => exact pure body
  | none =>
    refine (readText (some name) text).bind fun body => ?_
    exact bind (q := modify _) (fun _ => ⟨rfl, rfl, rfl, rfl, .refl _⟩) fun _ => pure body

theorem takeNames (decl : ImportDecl) (m : Module) (names : List Token) (p : Pending) :
    (Load.takeNames decl m names p).Calms := by
  induction names generalizing p with
  | nil => exact pure p
  | cons name names ih =>
    rw [Load.takeNames]
    split
    · refine (change fun s => ?_).bind fun _ => ih _
      split
      · exact ⟨rfl, rfl, rfl, rfl, .refl _⟩
      · exact .refl s
    · exact (report _ _).bind fun _ => ih p

theorem exportsOf (declared : List String) (names : List Token) (acc : List String) :
    (Load.exportsOf declared names acc).Calms := by
  induction names generalizing acc with
  | nil => exact pure _
  | cons name names ih =>
    rw [Load.exportsOf]
    split
    · exact ih _
    · exact (report _ _).bind fun _ => ih acc

end Load.Calms

/-! ### Rules -/

/-- The step takes back no report, and `Q` holds where it ends. -/
def Reports {α : Type} (s : Session) (q : Load α) (Q : α → Session → Prop) : Prop :=
  match q s with
  | .ok a t => s.diagnostics.Kept t.diagnostics ∧ Q a t
  | .error _ t => s.diagnostics.Kept t.diagnostics

namespace Reports

variable {α β : Type} {s t : Session} {q : Load α} {P Q : α → Session → Prop}

theorem pure {a : α} (h : Q a s) : Reports s (Pure.pure a) Q := ⟨.refl _, h⟩

theorem throw (e : OutOfSteps) : Reports s (throw e : Load α) Q := Diagnostics.Kept.refl _

theorem step {a : α} (hq : q s = .ok a t) (hk : s.diagnostics.Kept t.diagnostics) (h : Q a t) :
    Reports s q Q := by
  unfold Reports
  rw [hq]
  exact ⟨hk, h⟩

theorem imp (h : Reports s q P)
    (hPQ : ∀ a t, s.diagnostics.Kept t.diagnostics → P a t → Q a t) : Reports s q Q := by
  unfold Reports at h ⊢
  split at h
  · exact ⟨h.1, hPQ _ _ h.1 h.2⟩
  · exact h

theorem bind {f : α → Load β} {Q : β → Session → Prop} (h : Reports s q P)
    (hf : ∀ a t, s.diagnostics.Kept t.diagnostics → P a t → Reports t (f a) Q) :
    Reports s (q >>= f) Q := by
  unfold Reports at h ⊢
  have heq : (q >>= f) s = EStateM.bind q f s := rfl
  rw [heq, EStateM.bind]
  split at h
  · next a t hq =>
    have hrest := hf a t h.1 h.2
    rw [hq]
    unfold Reports at hrest
    dsimp only
    split at hrest
    · exact ⟨h.1.trans hrest.1, hrest.2⟩
    · exact h.1.trans hrest
  · next e t hq =>
    rw [hq]
    exact h

theorem calm (h : q.Calms) : Reports s q fun _ _ => True := by
  have hs := h s
  unfold Reports
  revert hs
  cases q s with
  | ok a t => exact fun hs => ⟨hs.reports, trivial⟩
  | error e t => exact fun hs => hs.reports

/-- A calm step comes first. -/
theorem after {f : α → Load β} {Q : β → Session → Prop} (h : q.Calms)
    (hf : ∀ a t, s.diagnostics.Kept t.diagnostics → Reports t (f a) Q) : Reports s (q >>= f) Q :=
  (calm h).bind fun a t hk _ => hf a t hk

theorem get {f : Session → Load α} (h : Reports s (f s) Q) :
    Reports s (MonadState.get >>= f) Q := h

theorem reports {f : Nat → Load α} (h : Reports s (f s.diagnostics.size) Q) :
    Reports s (Load.reports >>= f) Q := h

theorem change {g : Session → Session} {f : Unit → Load α}
    (hk : s.diagnostics.Kept (g s).diagnostics) (h : Reports (g s) (f ()) Q) :
    Reports s (modify g >>= f) Q :=
  bind (P := fun _ t => t = g s) (step rfl hk rfl) fun _ _ _ ht => ht ▸ h

theorem of_ok {a : α} (h : Reports s q Q) (hq : q s = .ok a t) :
    s.diagnostics.Kept t.diagnostics ∧ Q a t := by
  unfold Reports at h
  rwa [hq] at h

/-- What is reported at once is answered by nothing. -/
theorem report (at_ : Token) (f : ModuleFault) :
    Reports s (do Load.report at_ f; return (none : Option Module)) fun r t =>
      r = none ↔ s.diagnostics.size < t.diagnostics.size := by
  have hsize := Diagnostics.size_push s.diagnostics
    ⟨.binding, s.diagnostics.file, at_.pos, .lexeme at_.lexeme, f.message⟩
  refine step (t := _) rfl (.push ..) ⟨fun _ => ?_, fun _ => rfl⟩
  exact Nat.lt_of_lt_of_eq (Nat.lt_succ_self _) hsize.symm

/-- A run of a program reports nothing. -/
theorem perform (i : Interpreter) (p : Eval α) :
    Reports s (Load.perform i p) fun _ t => t.diagnostics = s.diagnostics := by
  unfold Reports Load.perform
  cases p (Machine.ofParts s.world i s.config.maxDepth) with
  | ok a m => exact ⟨.refl _, rfl⟩
  | error e m =>
    cases e with
    | fault f => exact ⟨.refl _, rfl⟩
    | exhausted => exact Diagnostics.Kept.refl _

end Reports

/-! ### Loads -/

/-- With `n` steps, loads keep reports, and answer nothing just if they add to them. -/
structure LoadReports (n : Nat) : Prop where
  settle : ∀ {s} dir fs p, Reports s (Load.settle n dir fs p) fun _ _ => True
  bindNames : ∀ {s} dir body i, Reports s (Load.bindNames n dir body i) fun _ _ => True
  fetch : ∀ {s} dir decl, Reports s (Load.fetch n dir decl) fun r t =>
    r = none ↔ s.diagnostics.size < t.diagnostics.size
  process : ∀ {s} path text, Reports s (Load.process n path text) fun r t =>
    r = none ↔ s.diagnostics.size < t.diagnostics.size
  processHere : ∀ {s} path name text, Reports s (Load.processHere n path name text) fun r t =>
    r = none ↔ s.diagnostics.size < t.diagnostics.size

namespace LoadReports

variable {n : Nat} {s : Session}

theorem settle_succ (ih : LoadReports n) (dir : String) (fs : List Finding) (p : Pending) :
    Reports s (Load.settle (n + 1) dir fs p) fun _ _ => True := by
  cases fs with
  | nil => exact .pure trivial
  | cons f fs =>
  cases f <;> rw [Load.settle]
  case «local» id d => exact ih.settle dir fs _
  case fault at_ f =>
    exact .after (Load.Calms.change fun s => .push s _) fun _ _ _ => ih.settle dir fs p
  case declared name => exact ih.settle dir fs _
  case exposed names => exact ih.settle dir fs _
  case required decl =>
    refine (ih.fetch dir decl).bind fun r t _ _ => ?_
    cases r with
    | none => exact ih.settle dir fs p
    | some m => exact .after (.takeNames _ _ _ _) fun p _ _ => ih.settle dir fs _

theorem bindNames_succ (ih : LoadReports n) (dir : String) (body : List Stmt) (i : Interpreter) :
    Reports s (Load.bindNames (n + 1) dir body i) fun _ _ => True := by
  rw [Load.bindNames]
  exact (ih.settle dir _ _).bind fun p t _ _ => .after (.exportsOf _ _ _) fun _ _ _ => .pure trivial

theorem fetch_succ (ih : LoadReports n) (dir : String) (decl : ImportDecl) :
    Reports s (Load.fetch (n + 1) dir decl) fun r t =>
      r = none ↔ s.diagnostics.size < t.diagnostics.size := by
  rw [Load.fetch]
  refine .get ?_
  cases s.disk.locate (Path.join dir (Load.fileName s.config decl.module)) with
  | error e => exact .report ..
  | ok path =>
    dsimp only
    split
    · exact .report ..
    · cases s.modules.get? path with
      | some m => exact .pure (by simp)
      | none =>
        dsimp only
        split
        · exact .report ..
        · cases s.disk.read path with
          | error e => exact .report ..
          | ok text => exact ih.process path text

theorem process_succ (ih : LoadReports n) (path : Path) (text : String) :
    Reports s (Load.process (n + 1) path text) fun r t =>
      r = none ↔ s.diagnostics.size < t.diagnostics.size := by
  have hfile : ∀ (s : Session) file, Reports s (Load.setFile file) fun _ t =>
      t.diagnostics.size = s.diagnostics.size := fun _ _ => .step rfl (.refl _) rfl
  rw [Load.process]
  refine .get ((hfile s _).bind fun before t _ ht => ?_)
  refine (ih.processHere path _ text).bind fun r u _ hr => (hfile u before).bind fun _ v _ hv => ?_
  rw [ht, ← hv] at hr
  split
  · exact .change (.refl _) (.pure hr)
  · exact .pure hr

theorem processHere_succ (ih : LoadReports n) (path : Path) (name text : String) :
    Reports s (Load.processHere (n + 1) path name text) fun r t =>
      r = none ↔ s.diagnostics.size < t.diagnostics.size := by
  rw [Load.processHere]
  refine .reports (.after (.readFile path name text) fun body t ht => .reports ?_)
  split
  · next hgrew => exact .pure ⟨fun _ => hgrew, fun _ => rfl⟩
  refine .after .newInterpreter fun i u hu => .change (.refl _) ?_
  refine (ih.bindNames _ body i).bind fun r v hv _ => ?_
  obtain ⟨exports, i⟩ := r
  refine .change (.refl _) (.reports ?_)
  dsimp only
  split
  · next hgrew => exact .pure ⟨fun _ => hgrew, fun _ => rfl⟩
  next hno =>
  refine (Reports.perform i _).bind fun r w hw hds => ?_
  obtain ⟨result, i⟩ := r
  cases result with
  | error f =>
    refine .change (.push ..) (.pure ⟨fun _ => ?_, fun _ => rfl⟩)
    show s.diagnostics.size < (w.diagnostics.reportFault f).size
    rw [Diagnostics.reportFault, Diagnostics.size_push]
    exact Nat.lt_succ_of_le (((ht.trans hu).trans hv).trans hw).size_le
  | ok a =>
    refine .change (.refl _) (.pure ?_)
    dsimp only
    rw [hds]
    simpa using hno

end LoadReports

theorem loadReports (n : Nat) : LoadReports n := by
  induction n with
  | zero =>
    refine ⟨?_, ?_, ?_, ?_, ?_⟩
    all_goals intros; exact Reports.throw _
  | succ n ih =>
    exact ⟨ih.settle_succ, ih.bindNames_succ, ih.fetch_succ, ih.process_succ, ih.processHere_succ⟩

namespace Reports

variable {s : Session}

/-- An entry file is answered by nothing just if something is reported. -/
theorem runFile (n : Nat) (path : String) : Reports s (Load.runFile n path) fun r t =>
    r = .ok none ↔ s.diagnostics.size < t.diagnostics.size := by
  refine .get ?_
  cases s.disk.locate (Path.join s.root path) with
  | error e => exact .pure (by simp)
  | ok path =>
    dsimp only
    cases s.modules.get? path with
    | some m => exact .pure (by simp)
    | none =>
      dsimp only
      cases s.disk.read path with
      | error e => exact .pure (by simp)
      | ok text =>
        exact ((loadReports n).process path text).bind fun r t _ h => .pure (by simpa using h)

theorem runRead (n before : Nat) (body : List Stmt) (i : Interpreter) :
    Reports s (Load.runRead n before body i) fun _ _ => True := by
  refine .reports ?_
  split
  · exact .pure trivial
  refine .get (((loadReports n).bindNames _ body i).bind fun r t _ _ => .reports ?_)
  obtain ⟨exports, i⟩ := r
  dsimp only
  split
  · exact .pure trivial
  refine (Reports.perform i _).bind fun r u _ _ => ?_
  obtain ⟨result, i⟩ := r
  cases result with
  | error f =>
    exact .after (Load.Calms.change fun s => .push s _) fun _ _ _ => .pure trivial
  | ok a => exact .pure trivial

theorem runSource (n : Nat) (name : Option String) (text : String) (i : Interpreter) :
    Reports s (Load.runSource n name text i) fun _ _ => True :=
  .after (.setFile name) fun file _ _ => .reports (.after (.readText name text) fun body _ _ =>
    (runRead n _ body i).bind fun _ _ _ _ => .after (.setFile file) fun _ _ _ => .pure trivial)

end Reports

end Treewalk
