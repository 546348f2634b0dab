import Treewalk.Proofs.SessionSteps

/-!
# Loading keeps what holds of a session

Binding the names of a file loads the files it imports, which are bound and run in turn.
`LoadKeeps n` is what holds of these functions with `n` steps, all at once.
-/

namespace Treewalk

/-- The text declares the names, or they are globals by now. -/
def HasDeclared (x : Logged Event Session) (g : Nat) (body : List Stmt) (names : List String) :
    Prop :=
  ∀ a ∈ names, .declared a ∈ findings body ∨ (x.scopes.here? g a).isSome

theorem HasDeclared.mono {x y : Logged Event Session} {g : Nat} {body : List Stmt}
    {names : List String} (h : HasDeclared x g body names)
    (hl : Later x.scopes x.log y.scopes y.log) : HasDeclared y g body names :=
  fun a ha => (h a ha).imp_right (hl.held g a)

/-- Between two states of which the second comes later, the interpreter with the globals `g` gets
the name from a module that exposes it, as an import among the findings asks. -/
def Granted (fs : List Finding) (x y : Logged Event Session) (g : Nat) (a : String) : Prop :=
  ∃ decl m i asked had s, .required decl ∈ fs ∧ a ∈ decl.names.map Token.lexeme ∧ a ∈ m.exports ∧
    i.globals = g ∧ Since (· = .moment (.taken decl m i asked had s)) x y

/-- From one state to a later one, the interpreter with the globals `g` has started and run nothing,
and its globals were changed by code that was come to or by imports among the findings. -/
structure Rested (g : Nat) (fs : List Finding) (x y : Logged Event Session) : Prop where
  log : ∃ new, y.log = new ++ x.log ∧ ∀ e ∈ new, ¬ e.Runs g
  vars : ∀ a, y.scopes.here? g a ≠ x.scopes.here? g a → Written x y g a ∨ Granted fs x y g a

theorem Granted.mono {fs fs' : List Finding} {x y x' y' : Logged Event Session} {g : Nat}
    {a : String} (h : Granted fs x y g a) (hfs : ∀ f ∈ fs, f ∈ fs')
    (hs : ∀ {P : Event → Prop}, Since P x y → Since P x' y') : Granted fs' x' y' g a := by
  obtain ⟨decl, m, i, asked, had, s, hd, hnames, hexports, hg, hsince⟩ := h
  exact ⟨decl, m, i, asked, had, s, hfs _ hd, hnames, hexports, hg, hs hsince⟩

namespace Rested

variable {g : Nat} {fs fs' : List Finding} {x y z : Logged Event Session}

theorem refl (g : Nat) (fs : List Finding) (x : Logged Event Session) : Rested g fs x x :=
  ⟨⟨[], rfl, by simp⟩, fun _ h => absurd rfl h⟩

theorem suffix (h : Rested g fs x y) : x.log <:+ y.log := by
  obtain ⟨new, hnew, -⟩ := h.log
  exact ⟨new, hnew.symm⟩

theorem mono (h : Rested g fs x y) (hfs : ∀ f ∈ fs, f ∈ fs') : Rested g fs' x y :=
  ⟨h.log, fun a ha => (h.vars a ha).imp_right fun h => h.mono hfs id⟩

theorem trans (h : Rested g fs x y) (h' : Rested g fs y z) : Rested g fs x z := by
  refine ⟨?_, fun a ha => ?_⟩
  · obtain ⟨new, hnew, hr⟩ := h.log
    obtain ⟨new', hnew', hr'⟩ := h'.log
    refine ⟨new' ++ new, by rw [hnew', hnew, List.append_assoc], fun e he => ?_⟩
    exact (List.mem_append.1 he).elim (hr' e) (hr e)
  · by_cases he : y.scopes.here? g a = x.scopes.here? g a
    · rw [← he] at ha
      exact (h'.vars a ha).imp (Since.before · h.suffix) (·.mono (fun _ => id) (·.before h.suffix))
    · exact (h.vars a he).imp (Since.after · h'.suffix) (·.mono (fun _ => id) (·.after h'.suffix))

theorem note {e : Event} (he : ¬ e.Runs g) : Rested g fs x { x with log := e :: x.log } :=
  ⟨⟨[e], rfl, fun _ h => List.mem_singleton.1 h ▸ he⟩, fun _ h => absurd rfl h⟩

/-- Other interpreters do something. -/
theorem of_grew {base : Nat} (hw : SessionGrew base none x y) (hg : g < base)
    (hlt : g < x.scopes.next) : Rested g fs x y := by
  have hno : ¬ (base ≤ g ∨ none = some g) := by simp; omega
  refine ⟨?_, fun a ha => .inl ((hw.vars g a hlt ha).resolve_left hno)⟩
  obtain ⟨new, hnew, ht⟩ := hw.ran
  exact ⟨new, hnew, fun e he hr => hno (((ht e he).1 g).1 hr.of)⟩

/-- The world stays as it is. -/
theorem of_eq {s : Session} (hs : s.world = x.state.world) : Rested g fs x { x with state := s } :=
  ⟨⟨[], rfl, by simp⟩, fun _ h => absurd (by rw [Logged.scopes, Logged.scopes, hs]) h⟩

/-- The interpreter gets the names of an import. -/
theorem taken {decl : ImportDecl} {m : Module} {i : Interpreter} {asked had s : Session}
    {L : List Event} (ht : Transfer decl.module m decl.names i had s) :
    Rested i.globals [.required decl] ⟨had, L⟩
      ⟨s, .moment (.taken decl m i asked had s) :: L⟩ := by
  refine ⟨⟨[_], rfl, fun _ h => List.mem_singleton.1 h ▸ id⟩, fun a ha => .inr ?_⟩
  have hvars := ht.vars i.globals a
  split at hvars
  · next h =>
    exact ⟨decl, m, i, asked, had, s, by simp, h.2.1, h.2.2, rfl, [_], rfl, _, by simp, rfl⟩
  · exact absurd hvars ha

theorem began (h : Rested g fs x y) {path : Option Path} {body : List Stmt}
    (hb : .began path g body ∈ y.log) : .began path g body ∈ x.log := by
  obtain ⟨new, hnew, hr⟩ := h.log
  rw [hnew] at hb
  exact (List.mem_append.1 hb).resolve_left fun hb => hr _ hb rfl

end Rested

/-- What an interpreter has come to once findings about a text have been settled. -/
structure Told (x : Logged Event Session) (p : Pending) (body : List Stmt) (fs : List Finding)
    (p' : Pending) (y : Logged Event Session) : Prop where
  globals : p'.interpreter.globals = p.interpreter.globals
  ready : Ready y p'.interpreter
  holds : Holds y.log p.interpreter.globals (findings body) p'.interpreter.bindings
  declared : HasDeclared y p.interpreter.globals body p'.declared
  faults : ∀ t f, .fault t f ∈ fs → x.state.diagnostics.size < y.state.diagnostics.size
  imports : ∀ decl, .required decl ∈ fs → Met y.log p.interpreter.globals decl
  rested : Rested p.interpreter.globals fs x y

/-- What an interpreter has come to once the names of a text are bound, with what the text
exposes. -/
structure NamesBound (x : Logged Event Session) (body : List Stmt) (i : Interpreter)
    (r : List String × Interpreter) (y : Logged Event Session) : Prop where
  globals : r.2.globals = i.globals
  ready : Ready y r.2
  table : TableOk y.log i.globals r.2.bindings
  knows : Knows y.log i.globals body
  accepted : Accepted body ∨ x.state.diagnostics.size < y.state.diagnostics.size
  declared : HasDeclared y i.globals body r.1
  rested : Rested i.globals (findings body) x y

/-- A file that was processed is a module, or else something was reported. -/
def Processed (x : Logged Event Session) (path : Path) : Option Module → Logged Event Session → Prop
  | some m, y => y.state.modules.get? path = some m
  | none, y => x.state.diagnostics.size < y.state.diagnostics.size

/-- With `n` steps, loads keep what holds of a session. -/
structure LoadKeeps (n : Nat) : Prop where
  settle : ∀ {x base own body} (dir : String) (done fs : List Finding) (p : Pending),
    Inv none x → (base ≤ x.scopes.next ∨ ∀ decl, .required decl ∉ fs) →
    base ≤ p.interpreter.globals ∨ own = some p.interpreter.globals → Ready x p.interpreter →
    HasRead x.log body → findings body = done ++ fs →
    Holds x.log p.interpreter.globals done p.interpreter.bindings →
    HasDeclared x p.interpreter.globals body p.declared →
    Keeps base own none x (Trail.settle n dir fs p) fun p' y => Told x p body fs p' y
  bindNames : ∀ {x base own} (dir : String) (body : List Stmt) (i : Interpreter),
    Inv none x → base ≤ x.scopes.next ∨ ImportFree body →
    base ≤ i.globals ∨ own = some i.globals → Ready x i → HasRead x.log body →
    TableOk x.log i.globals i.bindings →
    Keeps base own none x (Trail.bindNames n dir body i) (NamesBound x body i)
  fetch : ∀ {x} (dir : String) (decl : ImportDecl), Inv none x →
    Keeps x.scopes.next none none x (Trail.fetch n dir decl)
      fun r y => ∀ m, r = some m → ∃ p, y.state.modules.get? p = some m
  process : ∀ {x} (path : Path) (text : String), Inv none x → Allowed x.log path →
    Keeps x.scopes.next none none x (Trail.process n path text) (Processed x path)
  processHere : ∀ {x} (path : Path) (name text : String), Inv none x →
    name = x.state.displayName path → Allowed x.log path →
    Keeps x.scopes.next none (some path) x (Trail.processHere n path name text)
      fun r y => (r.isSome → Inv none y) ∧ Processed x path r y

namespace LoadKeeps

variable {x y : Logged Event Session} {base : Nat} {own : Option Nat} {n : Nat} {body : List Stmt}

/-- One finding `f` is settled, and the others come next. -/
theorem settle_rest (ih : LoadKeeps n) (dir : String) {done fs : List Finding} {f : Finding}
    {p q : Pending} (hfs : findings body = done ++ f :: fs)
    (hbase : base ≤ x.scopes.next ∨ ∀ decl, .required decl ∉ f :: fs)
    (hown : base ≤ p.interpreter.globals ∨ own = some p.interpreter.globals)
    (hbody : HasRead x.log body) (hw : SessionGrew base own x y) (hy : Inv none y)
    (hr : Ready y q.interpreter) (hg : q.interpreter.globals = p.interpreter.globals)
    (hB : Holds y.log p.interpreter.globals (done ++ [f]) q.interpreter.bindings)
    (hd : HasDeclared y p.interpreter.globals body q.declared)
    (hf : ∀ t e, f = .fault t e → x.state.diagnostics.size < y.state.diagnostics.size)
    (hmet : ∀ decl, f = .required decl → Met y.log p.interpreter.globals decl)
    (hrest : Rested p.interpreter.globals [f] x y) :
    Keeps base own none y (Trail.settle n dir fs q) fun q' z => Told x p body (f :: fs) q' z := by
  have hfs : findings body = (done ++ [f]) ++ fs := by rw [hfs, List.append_assoc]; rfl
  have hbase : base ≤ y.scopes.next ∨ ∀ decl, .required decl ∉ fs :=
    hbase.imp (fun h => Nat.le_trans h hw.later.next) fun h decl hd =>
      h decl (List.mem_cons_of_mem f hd)
  rw [← hg] at hown hB hd
  refine (ih.settle dir _ fs q hy hbase hown hr
    (hbody.mono hw.later.log) hfs hB hd).imp fun q' z hw' _ h =>
      ⟨h.globals.trans hg, h.ready, hg ▸ h.holds, hg ▸ h.declared, fun t e he => ?_,
        fun decl hd => ?_, ?_⟩
  · rcases List.mem_cons.1 he with he | he
    · exact Nat.lt_of_lt_of_le (hf t e he.symm) hw'.reports
    · exact Nat.lt_of_le_of_lt hw.reports (h.faults t e he)
  · rcases List.mem_cons.1 hd with hd | hd
    · exact (hmet decl hd.symm).mono hw'.later.log
    · exact hg ▸ h.imports decl hd
  · exact (hrest.mono (by simp)).trans (hg ▸ h.rested.mono fun _ => List.mem_cons_of_mem f)

/-- An import is answered, and the interpreter gets its names and the table of the module. -/
theorem settle_required (ih : LoadKeeps n) (dir : String) {done fs : List Finding}
    {decl : ImportDecl} {p : Pending} (hx : Inv none x)
    (hfs : findings body = done ++ .required decl :: fs)
    (hbase : base ≤ x.scopes.next)
    (hown : base ≤ p.interpreter.globals ∨ own = some p.interpreter.globals)
    (hr : Ready x p.interpreter) (hbody : HasRead x.log body)
    (hB : Holds x.log p.interpreter.globals done p.interpreter.bindings)
    (hd : HasDeclared x p.interpreter.globals body p.declared) :
    Keeps base own none x (Trail.settle (n + 1) dir (.required decl :: fs) p)
      fun p' y => Told x p body (.required decl :: fs) p' y := by
  have rest {y q} := ih.settle_rest (y := y) (p := p) (q := q) dir hfs (.inl hbase) hown hbody
  rw [Trail.settle]
  refine .get (.moment hx trivial fun hw₀ hx₀ => ?_)
  refine ((ih.fetch dir decl hx₀).grew.weaken hbase).bind fun r y _ hy h => ?_
  obtain ⟨hm, hw⟩ := h
  have hr₀ := hr.noted (e := .moment (.asked decl x.state)) (by simp)
  have hB := hw.holds hr.lt (by simp) (hB.cons fun h => h)
  have hd := hd.mono (hw₀.later.trans hw.later)
  have hread : HasRead y.log body := hbody.mono (hw₀.later.trans hw.later).log
  -- Files that are loaded have interpreters of their own.
  have hrest : Rested p.interpreter.globals [.required decl] x y :=
    (Rested.note (e := .moment (.asked decl x.state)) id).trans (.of_grew hw hr₀.lt hr₀.lt)
  have hr := hr₀.grew hw
  refine .moment hy trivial fun hw₁ hy₁ => ?_
  have hr₁ := hr.noted (e := .moment (.answered decl r x.state y.state)) (by simp)
  have hB₁ := hB.cons (e := .moment (.answered decl r x.state y.state)) fun h => h
  have hw₁ := (hw₀.trans (hw.weaken hbase)).trans hw₁
  have hrest₁ := hrest.trans (.note (e := .moment (.answered decl r x.state y.state)) id)
  cases r with
  | none =>
    refine rest hw₁ hy₁ hr₁ rfl (hB₁.other rfl) hd (by simp) (fun d hd => ?_) hrest₁
    injection hd with hd
    exact .inl ⟨x.state, y.state, hd ▸ List.mem_cons_self ..⟩
  | some m =>
    -- The file is a module by now, and its table is taken over after the names are.
    obtain ⟨path, hpath⟩ := hm m rfl
    have hok := hy.modules path m hpath
    have hne := hr.apart path m hpath
    refine .get (.after hy₁ (Plain.takeNames decl p hy₁ hr₁ hown hne hok.exports)
      fun p' s hs hi h => ?_)
    obtain ⟨i, declared, exposed⟩ := p'
    obtain ⟨hp, hdeclared, htransfer⟩ := h
    obtain rfl : i = p.interpreter := hp
    have hsub : ∀ f ∈ done, f ∈ findings body := fun f hf => by
      rw [hfs]
      exact List.mem_append_left _ hf
    have himported : Imported (.moment (.answered decl (some m) x.state y.state) :: y.log) decl m
        p.interpreter x.state y.state s := by
      refine ⟨⟨path, hpath⟩, hne, fun o ho => ?_, hok.exports, htransfer, ?_,
        ⟨body, done, hread.mono (List.suffix_cons ..), hsub, hB₁⟩, hok.table.cons fun h => h⟩
      · have hinner := hy₁.aligned.inner _ o ho
        rw [hr₁.root] at hinner
        cases hinner
      · obtain ⟨new, hnew, -⟩ := hw.ran
        refine ⟨.moment (.answered decl (some m) x.state y.state) :: new, x.log,
          congrArg _ hnew, fun a ha => ?_⟩
        have hwritten := (hw.vars _ a hr₀.lt ha).resolve_left
          fun h => h.elim (Nat.not_le_of_lt hr₀.lt) (by simp)
        obtain ⟨e, he, hwrites⟩ := hwritten.mem hnew
        exact ⟨e, List.mem_cons_of_mem _ he, hwrites⟩
    refine .moment hi himported fun hw₂ hi₂ => ?_
    have hr₂ := (hr₁.frame hs).noted
      (e := .moment (.taken decl m p.interpreter x.state y.state s)) (by simp)
    have htouch := hi₂.event (.imported p.interpreter.globals m.globals) trivial trivial
      (by simp) fun g (hg : _ = g) => hg ▸ ⟨hr₂.lt, hr₂.apart⟩
    refine Keeps.bind (P := fun _ z => z = _)
      (Keeps.note (fun g => ⟨fun hg => ?_, fun hg => hg.elim⟩) htouch rfl)
      fun _ z hw₃ hz he => ?_
    · exact hg ▸ hown
    · subst he
      have hr₃ := hr₂.noted (e := .imported p.interpreter.globals m.globals) (by simp)
      refine rest (((hw₁.trans hs.grew).trans hw₂).trans hw₃) hz (hr₃.congr rfl rfl rfl) rfl ?_ ?_
        (by simp) (fun d hd => ?_)
        ((hrest₁.trans (.taken htransfer)).trans (.note (e := .imported ..) id))
      · have hB₂ :=
          hB₁.cons (e := .moment (.taken decl m p.interpreter x.state y.state s)) fun h => h
        have htable := (hi₂.modules path m (hs.modules ▸ hpath)).table
        exact (hB₂.union htable hi₂.texts hi₂.boundRead
          (hread.mono ((List.suffix_cons ..).trans (List.suffix_cons ..))) hsub).other rfl
      · intro a ha
        exact (hdeclared a ha).elim (fun ha => (hd a ha).imp_right (hs.later.held _ a)) .inr
      · injection hd with hd
        exact hd ▸ .inr ⟨m, p.interpreter, x.state, y.state, s, rfl, by simp⟩

theorem settle_succ (ih : LoadKeeps n) (dir : String) (done fs : List Finding) (p : Pending)
    (hx : Inv none x) (hbase : base ≤ x.scopes.next ∨ ∀ decl, .required decl ∉ fs)
    (hown : base ≤ p.interpreter.globals ∨ own = some p.interpreter.globals)
    (hr : Ready x p.interpreter) (hbody : HasRead x.log body) (hfs : findings body = done ++ fs)
    (hB : Holds x.log p.interpreter.globals done p.interpreter.bindings)
    (hd : HasDeclared x p.interpreter.globals body p.declared) :
    Keeps base own none x (Trail.settle (n + 1) dir fs p) fun p' y => Told x p body fs p' y := by
  cases fs with
  | nil =>
    refine .pure hx ⟨rfl, hr, ?_, hd, by simp, by simp, .refl ..⟩
    rw [hfs, List.append_nil]
    exact hB
  | cons f fs =>
  have hsub : ∀ f' ∈ done, f' ∈ findings body := fun f' hf' => by
    rw [hfs]
    exact List.mem_append_left _ hf'
  have rest {y q} := ih.settle_rest (y := y) (p := p) (q := q) dir hfs hbase hown hbody
  cases f with
  | required decl =>
    have hbase := hbase.resolve_right fun h => h decl (List.mem_cons_self ..)
    exact ih.settle_required dir hx hfs hbase hown hr hbody hB hd
  | «local» id d =>
    rw [Trail.settle]
    exact rest (.refl ..) hx (hr.congr rfl rfl rfl) rfl
      (hB.insert hx.texts hx.boundRead hbody hsub (by simp [hfs])) hd (by simp) (by simp)
      (.refl ..)
  | fault at_ f =>
    rw [Trail.settle]
    refine .after hx (Plain.push hx) fun _ s hs hi h => ?_
    obtain ⟨hsize, hworld⟩ := h
    exact rest hs.grew hi (hr.frame hs) rfl (hB.other rfl) (hd.mono hs.later) (fun _ _ _ => hsize)
      (by simp) (.of_eq hworld)
  | declared name =>
    rw [Trail.settle]
    have hi : (p.declare name).interpreter = p.interpreter := p.interpreter_declare name
    refine rest (.refl ..) hx (hi ▸ hr) (by rw [hi]) (hi ▸ hB.other rfl) (fun a ha => ?_) (by simp)
      (by simp) (.refl ..)
    rcases Pending.mem_declare.1 ha with rfl | ha
    · exact .inl (by simp [hfs])
    · exact hd a ha
  | exposed names =>
    rw [Trail.settle]
    exact rest (.refl ..) hx hr rfl (hB.other rfl) hd (by simp) (by simp) (.refl ..)

theorem bindNames_succ (ih : LoadKeeps n) (dir : String) (body : List Stmt) (i : Interpreter)
    (hx : Inv none x) (hbase : base ≤ x.scopes.next ∨ ImportFree body)
    (hown : base ≤ i.globals ∨ own = some i.globals) (hr : Ready x i) (hbody : HasRead x.log body)
    (ht : TableOk x.log i.globals i.bindings) :
    Keeps base own none x (Trail.bindNames (n + 1) dir body i) (NamesBound x body i) := by
  rw [Trail.bindNames]
  refine (ih.settle dir [] (findings body) { interpreter := i } hx hbase hown hr hbody rfl ht
    (by simp [HasDeclared])).bind fun p y hw hy h => ?_
  have hg : p.interpreter.globals = i.globals := h.globals
  have hread : HasRead y.log body := hbody.mono hw.later.log
  have hholds : Holds y.log i.globals (findings body) p.interpreter.bindings := h.holds
  refine .moment hy ⟨hread, hg.symm ▸ hholds, hg.symm ▸ h.imports⟩ fun _ hy₁ => ?_
  have hr₁ := h.ready.noted (e := .moment (.resolved body p.interpreter y.state)) (by simp)
  have htouch := hy₁.event (.bound i.globals body) trivial
    (hread.mono (List.suffix_cons ..)) (by simp) fun g (he : _ = g) => by
      rw [← he, ← hg]
      exact ⟨hr₁.lt, hr₁.apart⟩
  refine Keeps.bind (P := fun _ z => z = _)
    (Keeps.note (fun g => ⟨fun he => ?_, fun he => he.elim⟩) htouch rfl) fun _ z _ hz he => ?_
  · exact he ▸ hown
  · subst he
    refine .after hz (Plain.exportsOf _ _ _ hz) fun exports s hs hi h' => .pure hi ?_
    obtain ⟨hexports, hworld⟩ := h'
    refine ⟨hg, (hr₁.noted (by simp)).frame hs,
      (hholds.cons (e := .moment (.resolved body p.interpreter y.state)) fun h => h).bound,
      .inl ⟨rfl, rfl⟩, ?_, fun a ha => ?_, ?_⟩
    · by_cases hok : Accepted body
      · exact .inl hok
      · refine .inr (Nat.lt_of_lt_of_le ?_ hs.reports)
        simp only [Accepted, Classical.not_forall, Classical.not_not] at hok
        obtain ⟨t, f, hf⟩ := hok
        exact h.faults t f hf
    · have ha : a ∈ p.declared := (hexports a ha).resolve_right (by simp)
      exact (h.declared a ha).imp_right (hs.later.held _ a)
    · have hresolved : Rested i.globals (findings body) y
          { y with log := .moment (.resolved body p.interpreter y.state) :: y.log } := .note id
      exact ((h.rested.trans hresolved).trans (.note (e := .bound ..) id)).trans (.of_eq hworld)

theorem fetch_succ (ih : LoadKeeps n) (dir : String) (decl : ImportDecl) (hx : Inv none x) :
    Keeps x.scopes.next none none x (Trail.fetch (n + 1) dir decl)
      fun r y => ∀ m, r = some m → ∃ p, y.state.modules.get? p = some m := by
  have hfail : ∀ at_ f, Keeps x.scopes.next none none x
      (do Traced.lift (Load.report at_ f); return none) fun (r : Option Module) y =>
        ∀ m, r = some m → ∃ p, y.state.modules.get? p = some m := fun at_ f =>
    .after hx (Plain.report hx at_ f) fun _ s _ hi _ => .pure hi (by simp)
  rw [Trail.fetch]
  refine .get ?_
  cases x.state.disk.locate (Path.join dir (Load.fileName x.state.config decl.module)) with
  | error e => exact hfail ..
  | ok path =>
    dsimp only
    split
    · exact hfail ..
    · cases hm : x.state.modules.get? path with
      | some m =>
        refine .pure hx fun m' he => ⟨path, ?_⟩
        rw [hm, he]
      | none =>
        dsimp only
        split
        · exact hfail ..
        · next hfailed =>
          cases x.state.disk.read path with
          | error e => exact hfail ..
          | ok text =>
            -- A file that has not failed was read without faults, if at all.
            have hclean : ¬ Faulty x.log path := fun hf =>
              hfailed (List.contains_iff_mem.2 ((hx.failed path hf).resolve_right (by simp)))
            exact (ih.process path text hx fun hf => absurd hf hclean).imp
              fun r y _ _ h m he => ⟨path, by rw [he] at h; exact h⟩

theorem process_succ (ih : LoadKeeps n) (path : Path) (text : String) (hx : Inv none x)
    (ha : Allowed x.log path) :
    Keeps x.scopes.next none none x (Trail.process (n + 1) path text) (Processed x path) := by
  rw [Trail.process]
  refine .moment hx trivial fun _ hx => ?_
  refine .get (.after hx (Plain.setFile hx _) fun before s hs hi h => ?_)
  obtain ⟨hsize, hroot⟩ := h
  have hname : x.state.displayName path = s.displayName path := by
    rw [Session.displayName, Session.displayName, hroot]
  refine ((ih.processHere path _ text hi hname (ha.noted (by simp))).weaken hs.later.next).bind
    fun r y _ hy h => ?_
  obtain ⟨hi, h⟩ := h
  cases r with
  | none =>
    refine .after hy (Plain.setFile hy before) fun _ s' _ hi hsize' => ?_
    refine (Keeps.fail hi).bind fun _ z _ hz hds => .moment hz trivial fun _ hz => .pure hz ?_
    calc x.state.diagnostics.size = s.diagnostics.size := hsize.symm
      _ < y.state.diagnostics.size := h
      _ = s'.diagnostics.size := hsize'.1.symm
      _ = z.state.diagnostics.size := by rw [hds]
  | some m =>
    have hy := hi rfl
    refine .after hy (Plain.setFile hy before) fun _ s hs hi _ => ?_
    refine .moment hi trivial fun _ hi => .pure hi ?_
    show s.modules.get? path = some m
    rw [hs.modules]
    exact h

theorem processHere_succ (ih : LoadKeeps n) (path : Path) (name text : String) (hx : Inv none x)
    (hname : name = x.state.displayName path) (ha : Allowed x.log path) :
    Keeps x.scopes.next none (some path) x (Trail.processHere (n + 1) path name text)
      fun r y => (r.isSome → Inv none y) ∧ Processed x path r y := by
  rw [Trail.processHere]
  refine .after hx (Plain.reports hx) fun before s _ _ h => ?_
  obtain ⟨rfl, rfl⟩ := h
  refine (Keeps.readFile hx path text hname ha).bind fun body y hw hy h => ?_
  obtain ⟨hcached, hclean⟩ := h
  refine .after hy (Plain.reports hy) fun size s _ _ h => ?_
  obtain ⟨rfl, rfl⟩ := h
  split
  · next hgrew => exact .pure hy ⟨by simp, hgrew⟩
  next hno =>
  obtain ⟨hy, ha⟩ := hclean hno
  refine .after hy (Plain.newInterpreter hy) fun i s₁ hs₁ hi₁ h => ?_
  obtain ⟨hr, hg, ht, hds₁⟩ := h
  refine .after hi₁ (Plain.loading hi₁ (· ++ [path])) fun _ s₂ hs₂ hi₂ hds₂ => ?_
  have hbase : x.scopes.next ≤ i.globals := hg ▸ hw.later.next
  have hnext : x.scopes.next ≤ s₂.world.heap.scopes.next :=
    Nat.le_trans hw.later.next (hs₁.trans hs₂).later.next
  refine .moment hi₂ trivial fun _ hi₂ => ?_
  have hr₂ := (hr.frame hs₂).noted (e := .moment (.stacked s₂)) (by simp)
  refine (ih.bindNames _ body i hi₂ (.inl hnext) (.inl hbase) hr₂
    ((hy.hasRead hcached).mono (List.suffix_cons ..)) (ht.cons fun h => h)).bind
    fun r z hw' hz h => ?_
  obtain ⟨exports, i'⟩ := r
  obtain ⟨hg', hr', ht', hk, hok, hdeclares, hrested⟩ := h
  have hcached' : s₂.parsed.get? path = some body := by rw [(hs₁.trans hs₂).parsed, hcached]
  refine .after hz (Plain.loading hz List.dropLast) fun _ s₃ hs₃ hi₃ hds₃ => ?_
  refine .moment hi₃ trivial fun _ hi₃ => ?_
  refine .after hi₃ (Plain.reports hi₃) fun size s₄ _ _ h => ?_
  obtain ⟨rfl, rfl⟩ := h
  dsimp only
  split
  · next hgrew => exact .pure hi₃.lenient ⟨by simp, hgrew⟩
  next hno' =>
  have hstart : Start z.log (some path) i'.globals body := by
    refine ⟨?_, hok.resolve_right ?_, ?_, by simp, fun p hp => ?_, fun path' body' hm => ?_⟩
    · rw [hg']
      exact hk
    · have := hw.reports
      rw [hds₃] at hno'
      dsimp only at hno ⊢
      rw [hds₂, hds₁]
      dsimp only
      omega
    · exact (hz.parsed path body).1 (hw'.cached path body hcached')
    · obtain ⟨faulty, hread⟩ := (hy.parsed path body).1 hcached
      exact Option.some.inj hp ▸
        hz.past.allowed ((List.suffix_cons ..).trans hw'.later.log) hread ha
    · -- The interpreter is new.
      rw [hg'] at hm
      have hm := (List.mem_cons.1 (hrested.began hm)).resolve_left (by simp)
      exact absurd (hg ▸ hy.begun _ _ _ hm) (Nat.lt_irrefl _)
  have hr₃ := (hr'.frame hs₃).noted (e := .moment (.stacked s₄)) (by simp)
  refine .start n hi₃ hr₃ ((hg' ▸ ht').cons fun h => h) (hstart.moment _)
    (fun _ _ => hg' ▸ hbase) (by simp) fun r v hw'' hv h => ?_
  obtain ⟨result, i''⟩ := r
  have hg'' : i''.globals = i'.globals := h.globals
  cases result with
  | error f =>
    refine .abort hv (h.failed f rfl) fun s hs hi => .pure hi.lenient ⟨by simp, ?_⟩
    calc x.state.diagnostics.size ≤ y.state.diagnostics.size := hw.reports
      _ = s₂.diagnostics.size := by rw [hds₂, hds₁]
      _ ≤ z.state.diagnostics.size := hw'.reports
      _ = s₄.diagnostics.size := by rw [hds₃]
      _ ≤ v.state.diagnostics.size := hw''.reports
      _ < s.diagnostics.size := hs
  | ok a =>
    have hglobals : i''.globals = i.globals := hg''.trans hg'
    refine (Keeps.install (m := ⟨path, name, exports, i''.globals, i''.bindings⟩) hv
      ⟨?_, h.table, ⟨body, ?_⟩, fun a ha => ?_⟩ ?_).bind
      fun _ w _ hw hm => .pure hw.lenient ⟨fun _ => hw, hm⟩
    · exact hg'' ▸ Nat.lt_of_lt_of_le hr₃.lt hw''.later.next
    · exact hg'' ▸ h.began
    · -- What the file exposes it has declared by running, or imported before.
      show (v.scopes.here? i''.globals a).isSome
      rw [hg'']
      rcases hdeclares a ha with hd | hd
      · exact h.declared rfl a (mem_declaredAll_of_declared hd)
      · exact hw''.later.held _ a (hs₃.later.held _ a (hg' ▸ hd))
    · exact hglobals ▸ hbase

end LoadKeeps

/-- Loads keep what holds of a session. -/
theorem loadKeeps (n : Nat) : LoadKeeps n := by
  induction n with
  | zero =>
    refine ⟨?_, ?_, ?_, ?_, ?_⟩
    all_goals intros; exact Keeps.throw ‹_› _
  | succ n ih =>
    exact ⟨ih.settle_succ, ih.bindNames_succ, ih.fetch_succ, ih.process_succ, ih.processHere_succ⟩

end Treewalk
