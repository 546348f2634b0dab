import Treewalk.Proofs.Imports

/-!
# Texts that are turned down

A text of no file is read, its names are bound, and it is started if neither reports anything. If
reading it reports something, the session has its reports and is otherwise as before. If binding its
names does, then the imports before have been met: files were loaded, which have interpreters of
their own, and the interpreter of the text has got what it asked for and its modules expose. It has
started and run nothing (`Refused`), but its globals may be written by code of programs that it
started before, if a file that is loaded calls it (`refusedText_writes_global`).
-/

namespace Treewalk

namespace Session

variable (s : Session) (name : Option String) (text : String)

/-- The statements of a text that is read next. -/
def trees : List Stmt := (Source.read name text s.nextRef (s.diagnostics.inFile name)).1.body

/-- The session that has read the text and reports about it by its name. -/
def reading : Session :=
  let read := Source.read name text s.nextRef (s.diagnostics.inFile name)
  { s with diagnostics := read.2, nextRef := read.1.nextId }

/-- The session that reports about another file. -/
def about (file : Option String) : Session := { s with diagnostics := s.diagnostics.inFile file }

end Session

namespace Load

variable {n : Nat} {name : Option String} {text : String} {i i' : Interpreter} {s s' t : Session}

theorem setFile_eq (name : Option String) (s : Session) :
    setFile name s = .ok s.diagnostics.file (s.about name) := rfl

theorem reports_eq (s : Session) : reports s = .ok s.diagnostics.size s := rfl

theorem readText_eq (name : Option String) (text : String) (s : Session) :
    readText name text (s.about name) = .ok (s.trees name text) (s.reading name text) := rfl

theorem runSource_eq (n : Nat) (name : Option String) (text : String) (i : Interpreter)
    (s : Session) : runSource n name text i s = (do
      let i ← runRead n s.diagnostics.size (s.trees name text) i
      let _ ← setFile s.diagnostics.file
      return i) (s.reading name text) := by
  rw [runSource, bind_of_ok (setFile_eq name s), bind_of_ok (reports_eq _),
    bind_of_ok (readText_eq name text s)]
  rfl

/-- Whatever becomes of the text, reports go to the file that they went to before. -/
theorem file_runSource (h : runSource n name text i s = .ok i' s') :
    s'.diagnostics.file = s.diagnostics.file := by
  rw [runSource_eq] at h
  cases hr : runRead n s.diagnostics.size (s.trees name text) i (s.reading name text) with
  | ok j t =>
    rw [bind_of_ok hr] at h
    cases h
    rfl
  | error e t =>
    rw [bind_of_error hr] at h
    cases h

/-- Reading the text reports something. -/
theorem runSource_of_read (h : s.diagnostics.size < (s.reading name text).diagnostics.size) :
    runSource n name text i s = .ok i ((s.reading name text).about s.diagnostics.file) := by
  have hr : runRead n s.diagnostics.size (s.trees name text) i (s.reading name text) =
      .ok i (s.reading name text) := by
    rw [runRead, bind_of_ok (reports_eq _), if_pos h]
    rfl
  rw [runSource_eq, bind_of_ok hr, bind_of_ok (setFile_eq _ _)]
  rfl

/-- Reading the text reports nothing, and binding its names does. -/
structure Refuses (n : Nat) (name : Option String) (text : String) (i : Interpreter) (s : Session)
    (r : List String × Interpreter) (t : Session) : Prop where
  read : ¬ s.diagnostics.size < (s.reading name text).diagnostics.size
  bound : bindNames n s.root (s.trees name text) i (s.reading name text) = .ok r t
  reports : s.diagnostics.size < t.diagnostics.size

end Load

/-- After `x`, with the events `new`, files were started with new globals, and these files ran. -/
structure OnlyFiles (x : Logged Event Session) (new : List Event) : Prop where
  started : ∀ path g body, .began path g body ∈ new → path.isSome ∧ x.scopes.next ≤ g
  ran : ∀ e ∈ new, ∀ m ∈ e.machine?, ∃ p body, .began (some p) m.globals body ∈ new

/-- What a text leaves that is turned down as its names are bound, from `x` to `y` with the events
`new`. -/
structure Refused (body : List Stmt) (i i' : Interpreter) (x y : Logged Event Session)
    (new : List Event) : Prop extends OnlyFiles x new where
  log : y.log = new ++ x.log
  file : y.state.diagnostics.file = x.state.diagnostics.file
  stand : SameStand i i'
  bindings : ∀ id d : Nat, i.bindings[id]? = some d → i'.bindings[id]? = some d
  idle : ∀ e ∈ new, ¬ e.Runs i.globals
  printed : y.state.world.sink = x.state.world.sink.replay new
  /-- A global is one that an import asks for and that its module exposes, or it is written by code
  of a program that the interpreter started before. -/
  globals : ∀ a, y.state.getGlobal i a ≠ x.state.getGlobal i a →
    (∃ decl m j asked had t, .required decl ∈ findings body ∧ a ∈ decl.names.map Token.lexeme ∧
      a ∈ m.exports ∧ j.globals = i.globals ∧ (∃ p, had.modules.get? p = some m) ∧
      .moment (.taken decl m j asked had t) ∈ new) ∨
    ∃ code k new₁ new₂ path program σ, new = new₁ ++ .reached code k :: new₂ ∧
      (Event.reached code k).Writes i.globals a ∧
      Stands (new₂ ++ x.log) k path i.globals program code σ ∧ .began path i.globals program ∈ x.log

section

variable {x y : Logged Event Session} {i i' : Interpreter} {n : Nat} {name : Option String}
  {text : String}

/-- The state when a text of no file is read. -/
def Logged.reading (x : Logged Event Session) (name : Option String) (text : String) :
    Logged Event Session :=
  ⟨x.state.reading name text,
    .read none (x.state.trees name text)
        (decide (x.state.diagnostics.size < (x.state.reading name text).diagnostics.size)) ::
      .scanned none name text (x.state.about name) :: x.log⟩

theorem Trail.readText_eq (name : Option String) (text : String) (x : Logged Event Session) :
    readText none name text { x with state := x.state.about name } =
      .ok (x.state.trees name text) (x.reading name text) := rfl

theorem Trail.runRead_of_bound {before : Nat} {body : List Stmt} {r : List String × Interpreter}
    (hread : ¬ before < x.state.diagnostics.size)
    (hb : bindNames n x.state.root body i x = .ok r y) (h : before < y.state.diagnostics.size) :
    runRead n before body i x = .ok r.2 y := by
  obtain ⟨exports, i'⟩ := r
  rw [runRead, bind_of_ok (Traced.lift_of_ok (Load.reports_eq _)), if_neg hread,
    bind_of_ok (Traced.lift_of_ok (q := get) rfl), bind_of_ok hb]
  dsimp only
  rw [bind_of_ok (Traced.lift_of_ok (Load.reports_eq _)), if_pos h]
  rfl

theorem Trail.runSource_of_ok
    (h : runRead n x.state.diagnostics.size (x.state.trees name text) i (x.reading name text) =
      .ok i' y) :
    runSource n name text i x =
      .ok i' { y with state := y.state.about x.state.diagnostics.file } := by
  rw [runSource, bind_of_ok (Traced.lift_of_ok (Load.setFile_eq name _)),
    bind_of_ok (Traced.lift_of_ok (Load.reports_eq _)), bind_of_ok (readText_eq name text x)]
  exact (bind_of_ok h).trans (bind_of_ok (Traced.lift_of_ok (Load.setFile_eq _ _)))

theorem Inv.reading (hx : Inv none x) (base : Nat) (own : Option Nat) (name : Option String)
    (text : String) :
    SessionGrew base own x (x.reading name text) ∧ Inv none (x.reading name text) := by
  have hplain : Plain base own x (Load.setFile name) _ := .setFile hx name
  obtain ⟨file, s, hset, hs, -⟩ := hplain
  obtain rfl : x.state.about name = s := by cases hset; rfl
  have hkeeps : Keeps base own none ⟨x.state.about name, x.log⟩ (Trail.readText none name text) _ :=
    .readText (hx.frame hs) name text
  obtain ⟨hw, hi, -⟩ := hkeeps.of_ok (Trail.readText_eq name text x)
  exact ⟨hs.grew.trans hw, hi⟩

/-- Globals that are written while others run are written by code of programs that were started with
them before. -/
theorem Rested.written {g : Nat} {fs : List Finding} {late : Option Path} {a : String}
    {new : List Event} (h : Rested g fs x y) (hy : Inv late y) (hroot : y.scopes.parent? g = none)
    (hnew : y.log = new ++ x.log) (hw : Written x y g a) :
    ∃ code k new₁ new₂ path program σ, new = new₁ ++ .reached code k :: new₂ ∧
      (Event.reached code k).Writes g a ∧ Stands (new₂ ++ x.log) k path g program code σ ∧
      .began path g program ∈ x.log := by
  obtain ⟨e, he, hwrites⟩ := hw.mem hnew
  obtain ⟨code, k, rfl⟩ := hwrites.reached
  obtain ⟨new₁, new₂, rfl⟩ := List.append_of_mem he
  have hB : (.reached code k :: (new₂ ++ x.log)) <:+ y.log :=
    ⟨new₁, by rw [hnew, List.append_assoc, List.cons_append]⟩
  have hB' := (List.suffix_cons ..).trans hB
  obtain ⟨path, g', program, σ, hs⟩ := hy.stands hB
  -- The scope was made for no code, so it is where the program of this code was started.
  obtain rfl := hs.eq_of_writes hwrites fun o ho => by
    have hinner := hy.aligned.inner g o (hB'.subset ho)
    rw [hroot] at hinner
    cases hinner
  exact ⟨code, k, new₁, new₂, path, program, σ, rfl, hwrites, hs, h.began (hB'.subset hs.began)⟩

/-- All that is done while the interpreter with the globals `g` is idle is done by files. -/
theorem SessionGrew.onlyFiles {g : Nat} {late : Option Path} {new : List Event} (hx : Inv late x)
    (hw : SessionGrew x.scopes.next (some g) x y) (hnew : y.log = new ++ x.log)
    (hidle : ∀ e ∈ new, ¬ e.Runs g) : OnlyFiles x new := by
  obtain ⟨new', hnew', hran⟩ := hw.ran
  obtain rfl := List.append_cancel_right (hnew.symm.trans hnew')
  have hother : ∀ e ∈ new, ∀ g', e.Runs g' → some g ≠ some g' := fun e he g' hg' ho =>
    hidle e he (Option.some.inj ho ▸ hg')
  have hnext : ∀ e ∈ new, ∀ g', e.Runs g' → x.scopes.next ≤ g' := fun e he g' hg' =>
    (((hran e he).1 g').1 hg'.of).resolve_right (hother e he g' hg')
  refine ⟨fun path g' body hb => ⟨?_, hnext _ hb g' rfl⟩, fun e he m hm => ?_⟩
  · cases path with
    | none => exact absurd ((hran _ hb).2.source g' body rfl) (hother _ hb g' rfl)
    | some p => rfl
  · have hruns := Event.runs_of_machine? hm
    obtain ⟨p, body, hb⟩ := ((hran e he).2.run m hm).resolve_left (hother e he _ hruns)
    refine ⟨p, body, (List.mem_append.1 (hnew ▸ hb)).resolve_right fun hold => ?_⟩
    -- What was started before has older globals.
    have hlt := hx.begun _ _ _ hold
    have hle := hnext e he _ hruns
    omega

/-- Binding the names of the text reports something. -/
theorem Inv.refused (hx : Inv none x) (hr : Ready x i) (ht : TableOk x.log i.globals i.bindings)
    {r : List String × Interpreter} {t : Session} (h : Load.Refuses n name text i x.state r t) :
    ∃ y new, Trail.runSource n name text i x = .ok r.2 y ∧
      Refused (x.state.trees name text) i r.2 x y new := by
  have herase := (Trail.loadErases n).bindNames x.state.root (x.state.trees name text) i
    (x.reading name text)
  obtain ⟨L, hL⟩ := Traced.exists_of_erase (herase.trans h.bound)
  obtain ⟨hw₁, hi₁⟩ := hx.reading x.scopes.next none name text
  have hkeeps : Keeps x.scopes.next (some i.globals) none (x.reading name text)
      (Trail.bindNames n x.state.root (x.state.trees name text) i) _ :=
    (loadKeeps n).bindNames _ _ i hi₁ (.inl hw₁.later.next) (.inr rfl) (hr.grew hw₁)
      ⟨none, _, List.mem_cons_self ..⟩ (hw₁.holds hr.lt (by simp) ht)
  obtain ⟨hw₂, hi₂, hbound⟩ := hkeeps.of_ok hL
  have hw : SessionGrew x.scopes.next (some i.globals) x ⟨t, L⟩ :=
    (hw₁.weaken (Nat.le_refl _)).trans hw₂
  have hrest := (Rested.of_grew hw₁ hr.lt hr.lt).trans hbound.rested
  obtain ⟨new, hnew, hidle⟩ := hrest.log
  have hrun := Trail.runRead_of_bound (x := x.reading name text) h.read hL h.reports
  refine ⟨⟨t.about x.state.diagnostics.file, L⟩, new, Trail.runSource_of_ok hrun,
    SessionGrew.onlyFiles hx hw hnew hidle, hnew, rfl, ⟨hbound.globals, ?_, ?_⟩,
    fun id d hd => ?_, hidle, ?_, fun a ha => ?_⟩
  · rw [hbound.ready.scope, hbound.globals, hr.scope]
  · rw [hbound.ready.depth, hr.depth]
  · obtain ⟨body, hk, hf⟩ := ((ht id d).1 hd).resolve_right (by simp)
    exact (hbound.table id d).2 (.inl ⟨body, hk.mono hw.later.log, hf⟩)
  · obtain ⟨new', hnew', hp⟩ := hw.prints
    rwa [← List.append_cancel_right (hnew.symm.trans hnew')] at hp
  · rcases hrest.vars a ha with hwritten | ⟨decl, m, j, asked, had, s, hd, hn, he, hg, hs⟩
    · have hroot : t.world.heap.scopes.parent? i.globals = none := by
        rw [← hbound.globals]
        exact hbound.ready.root
      exact .inr (hrest.written hi₂ hroot hnew hwritten)
    · obtain ⟨e, hm, rfl⟩ := hs.mem hnew
      obtain ⟨new₁, B, hB⟩ := List.append_of_mem (hnew ▸ List.mem_append_left _ hm)
      have himported : Imported B decl m j asked had s := (hi₂.past.follows ⟨new₁, hB.symm⟩).2
      exact .inl ⟨decl, m, j, asked, had, s, hd, hn, he, hg, himported.module, hm⟩

end

/-- A text that is given to an interpreter of a session. Reports go to the same file afterwards as
before. If reading the text reports something, then the interpreter is answered as it is, and the
store, what was printed and the clock are as before. If only binding its names does, the text is
`Refused`. -/
theorem rejected_source_leaves_interpreter (n : Nat) (name : Option String) (text : String) :
    (∀ (i : Interpreter) (s : Session),
      (∀ i' s', Load.runSource n name text i s = .ok i' s' →
        s'.diagnostics.file = s.diagnostics.file) ∧
      (s.diagnostics.size < (s.reading name text).diagnostics.size →
        ∃ s', Load.runSource n name text i s = .ok i s' ∧ s'.world = s.world ∧
          s'.diagnostics.file = s.diagnostics.file)) ∧
    ∀ (setup : Setup) (k : Nat) (ts : List Step) (is : Array Interpreter) (s : Session) (who : Nat)
      (i : Interpreter), setup.run k ts = .ok is s → is[who]? = some i →
      ∀ r t, Load.Refuses n name text i s r t →
        ∃ L y new, setup.logged k ts = .ok is ⟨s, L⟩ ∧
          Trail.runSource n name text i ⟨s, L⟩ = .ok r.2 y ∧
          Load.runSource n name text i s = .ok r.2 y.state ∧
          Refused (s.trees name text) i r.2 ⟨s, L⟩ y new := by
  refine ⟨fun i s => ⟨fun i' s' => Load.file_runSource, fun h => ?_⟩,
    fun setup k ts is s who i hrun hi r t h => ?_⟩
  · exact ⟨_, Load.runSource_of_read h, rfl, rfl⟩
  · obtain ⟨L, hL⟩ := Traced.exists_of_erase ((setup.erase_logged k ts).trans hrun)
    obtain ⟨hinv, hhost⟩ := setup.host hL
    obtain ⟨y, new, hy, hrefused⟩ := hinv.refused (hhost.ready who i hi) (hhost.table who i hi) h
    refine ⟨L, y, new, hL, hy, ?_, hrefused⟩
    have herase := Trail.runSource_erases n name text i ⟨s, L⟩
    rw [hy] at herase
    exact herase.symm

/-- Whether the finding is an import that asks for the name. -/
def Finding.asks (a : String) : Finding → Bool
  | .required decl => (decl.names.map Token.lexeme).contains a
  | _ => false

/-- Whether only binding the names of the text reports something when the first interpreter of the
session is given it, and whether that turns a global from true to false which no import of the text
asks for. -/
def Setup.spoils (s : Setup) (n : Nat) (ts : List Step) (text a : String) : Bool :=
  match s.run n ts with
  | .error .. => false
  | .ok is t =>
    match is[0]? with
    | none => false
    | some i =>
      match Load.bindNames n t.root (t.trees none text) i (t.reading none text) with
      | .error .. => false
      | .ok _ u =>
        match Load.runSource n none text i t with
        | .error .. => false
        | .ok i' t' =>
          decide (¬ t.diagnostics.size < (t.reading none text).diagnostics.size) &&
          decide (t.diagnostics.size < u.diagnostics.size) &&
          (findings (t.trees none text)).all (fun f => !f.asks a) &&
          (t.getGlobal i a).map Value.truthy == some true &&
          (t'.getGlobal i' a).map Value.truthy == some false

theorem Setup.of_spoils {s : Setup} {n : Nat} {ts : List Step} {text a : String}
    (h : s.spoils n ts text a = true) :
    ∃ is t i r u i' t', s.run n ts = .ok is t ∧ is[0]? = some i ∧
      Load.Refuses n none text i t r u ∧ Load.runSource n none text i t = .ok i' t' ∧
      (∀ decl, .required decl ∈ findings (t.trees none text) → a ∉ decl.names.map Token.lexeme) ∧
      (t.getGlobal i a).map Value.truthy = some true ∧
      (t'.getGlobal i' a).map Value.truthy = some false := by
  unfold spoils at h
  split at h
  · cases h
  next is t hrun =>
  split at h
  · cases h
  next i hi =>
  split at h
  · cases h
  next r u hb =>
  split at h
  · cases h
  next i' t' hsource =>
  simp only [Bool.and_eq_true, decide_eq_true_eq, beq_iff_eq, List.all_eq_true] at h
  obtain ⟨⟨⟨⟨hread, hreports⟩, hasks⟩, htrue⟩, hfalse⟩ := h
  refine ⟨is, t, i, r, u, i', t', hrun, hi, ⟨hread, hb, hreports⟩, hsource, fun decl hd => ?_,
    htrue, hfalse⟩
  simpa [Finding.asks] using hasks _ hd

/-- The first text of `callingSteps` has run. -/
def callingStart : List Step := callingSteps.take 2

/-- An import and a statement that cannot stand outside of functions. -/
def refusedText : String := "import \x7b x \x7d from \"b\"; return;"

theorem callingFile_spoils : callingFile.spoils 20 callingStart refusedText "g" = true := by
  decide +kernel

/-- The text is turned down as its names are bound, and the global `g` is another than before. -/
theorem refusedText_writes_global :
    ∃ is s i r t i' s', callingFile.run 20 callingStart = .ok is s ∧ is[0]? = some i ∧
      Load.Refuses 20 none refusedText i s r t ∧
      Load.runSource 20 none refusedText i s = .ok i' s' ∧
      (∀ decl, .required decl ∈ findings (s.trees none refusedText) →
        "g" ∉ decl.names.map Token.lexeme) ∧
      (s.getGlobal i "g").map Value.truthy = some true ∧
      (s'.getGlobal i' "g").map Value.truthy = some false :=
  Setup.of_spoils callingFile_spoils

/-- The global is written by code that the interpreter started before, in a run of a file that is
started on the way. -/
theorem rejected_source_leaves_interpreter_calling :
    ∃ is s i r t L y new, callingFile.run 20 callingStart = .ok is s ∧ is[0]? = some i ∧
      Load.Refuses 20 none refusedText i s r t ∧
      Trail.runSource 20 none refusedText i ⟨s, L⟩ = .ok r.2 y ∧
      Refused (s.trees none refusedText) i r.2 ⟨s, L⟩ y new ∧
      ∃ code k path program, .reached code k ∈ new ∧
        (Event.reached code k).Writes i.globals "g" ∧ .began path i.globals program ∈ L := by
  obtain ⟨is, s, i, r, t, i', s', hrun, hi, hr, hsource, hasks, htrue, hfalse⟩ :=
    Setup.of_spoils callingFile_spoils
  obtain ⟨L, y, new, -, hy, hy', h⟩ :=
    (rejected_source_leaves_interpreter 20 none refusedText).2 _ _ _ is s 0 i hrun hi r t hr
  refine ⟨is, s, i, r, t, L, y, new, hrun, hi, hr, hy, h, ?_⟩
  cases hsource.symm.trans hy'
  -- No import asks for the global, so it is code that has written it.
  have hchanged : y.state.getGlobal i "g" ≠ s.getGlobal i "g" := fun he => by
    rw [Session.getGlobal, h.stand.globals, ← Session.getGlobal, he, htrue] at hfalse
    cases hfalse
  rcases h.globals "g" hchanged with ⟨decl, -, -, -, -, -, hd, hn, -⟩ | h
  · exact absurd hn (hasks decl hd)
  · obtain ⟨code, k, new₁, new₂, path, program, -, rfl, hw, -, hb⟩ := h
    exact ⟨code, k, path, program, by simp, hw, hb⟩

end Treewalk
