import Treewalk.Proofs.Endings
import Treewalk.Proofs.Reports
import Treewalk.Proofs.SessionInv

/-!
# Single steps of a session

Most steps of a session leave no event and change little: they are `Plain`. The others read a text,
run code or end a file. An interpreter that is to run a program must be `Ready`.
-/

namespace Treewalk

/-! ### Interpreters -/

/-- The interpreter can start a program: it stands in its globals, which are no module's, and no
file was started with them. -/
structure Ready (x : Logged Event Session) (i : Interpreter) : Prop where
  root : x.scopes.parent? i.globals = none
  lt : i.globals < x.scopes.next
  scope : i.scope = i.globals
  depth : i.depth = 0
  apart : ∀ p m, x.state.modules.get? p = some m → m.globals ≠ i.globals
  sole : ∀ p body, .began (some p) i.globals body ∉ x.log

section

variable {x y : Logged Event Session} {base : Nat} {own : Option Nat} {late : Option Path}
  {i i' : Interpreter}

namespace Ready

theorem grew (h : Ready x i) (hw : SessionGrew x.scopes.next own x y) : Ready y i where
  root := by rw [hw.later.parent _ h.lt, h.root]
  lt := Nat.lt_of_lt_of_le h.lt hw.later.next
  scope := h.scope
  depth := h.depth
  apart p m hm := by
    rcases hw.modules p m hm with hm | hm
    · exact h.apart p m hm
    · have := h.lt
      omega
  sole p body hb := by
    obtain ⟨new, hnew, ht⟩ := hw.ran
    rw [hnew] at hb
    rcases List.mem_append.1 hb with hb | hb
    · have := ((ht _ hb).1 i.globals).2 rfl
      have := h.lt
      omega
    · exact h.sole p body hb

theorem frame (h : Ready x i) {s : Session} (hf : Frame base own x s) :
    Ready { x with state := s } i where
  root := by rw [Logged.scopes, hf.later.parent _ h.lt, h.root]
  lt := Nat.lt_of_lt_of_le h.lt hf.later.next
  scope := h.scope
  depth := h.depth
  apart p m hm := h.apart p m (hf.modules ▸ hm)
  sole := h.sole

theorem congr (h : Ready x i) (hg : i'.globals = i.globals) (hs : i'.scope = i.scope)
    (hd : i'.depth = i.depth) : Ready x i' := by
  refine ⟨?_, ?_, ?_, hd.trans h.depth, ?_, ?_⟩
  · rw [hg]
    exact h.root
  · rw [hg]
    exact h.lt
  · rw [hg, hs]
    exact h.scope
  · rw [hg]
    exact h.apart
  · rw [hg]
    exact h.sole

theorem noted (h : Ready x i) {e : Event} (he : ∀ p body, e ≠ .began (some p) i.globals body) :
    Ready { x with log := e :: x.log } i :=
  ⟨h.root, h.lt, h.scope, h.depth, h.apart, fun p body hb => (List.mem_cons.1 hb).elim
    (fun hb => he p body hb.symm) (h.sole p body)⟩

theorem here (h : Ready x i) {body : List Stmt} {L : List Event} (limit : Nat)
    (hb : Began L i.globals body) :
    Here ⟨Machine.ofParts x.state.world i limit, L⟩ i.globals body (.stmts body) [] := by
  refine ⟨hb, .program, ?_⟩
  show Chain x.scopes L i.globals i.scope []
  rw [h.scope]
  exact .root h.root h.lt

end Ready

/-! ### Plain steps -/

/-- The scopes stay as they are. -/
theorem Inv.aside (hx : Inv late x) {s : Session} (hworld : s.world = x.state.world)
    (hnext : s.nextRef = x.state.nextRef) (hparsed : s.parsed = x.state.parsed)
    (hfailed : s.failed = x.state.failed) (hmodules : s.modules = x.state.modules)
    (h : x.state.diagnostics.size ≤ s.diagnostics.size)
    (ha : x.state.diagnostics.Accounted x.log → s.diagnostics.Accounted x.log) :
    Frame base own x s := by
  refine ⟨?_, by rw [hworld], ?_, fun t a _ hne => absurd (by rw [hworld]) hne, hnext, hparsed,
    hfailed, hmodules, h, ha⟩
  · rw [hworld]
    exact hx.aligned
  · rw [hworld]
    exact .refl ..

theorem Frame.refl (hx : Inv late x) : Frame base own x x.state :=
  hx.aside rfl rfl rfl rfl rfl (Nat.le_refl _) id

theorem Frame.trans {s s' : Session} (h : Frame base own x s)
    (h' : Frame base own { x with state := s } s') : Frame base own x s' := by
  refine ⟨h'.aligned, h'.sink.trans h.sink, h.later.trans h'.later, fun t a ht hne => ?_,
    h'.nextRef.trans h.nextRef, h'.parsed.trans h.parsed, h'.failed.trans h.failed,
    h'.modules.trans h.modules, Nat.le_trans h.reports h'.reports,
    fun ha => h'.accounted (h.accounted ha)⟩
  by_cases he : s.world.heap.scopes.here? t a = x.scopes.here? t a
  · exact h'.vars t a (Nat.lt_of_lt_of_le ht h.later.next) (he.symm ▸ hne)
  · exact h.vars t a ht he

/-- The reports change and grow no fewer. -/
theorem Inv.reported (hx : Inv late x) {ds : Diagnostics}
    (h : x.state.diagnostics.size ≤ ds.size)
    (ha : x.state.diagnostics.Accounted x.log → ds.Accounted x.log) :
    Frame base own x { x.state with diagnostics := ds } :=
  hx.aside rfl rfl rfl rfl rfl h ha

/-- A global variable of an interpreter that may act is defined. -/
theorem Inv.defined (hx : Inv late x) {g : Nat} (hroot : x.scopes.parent? g = none)
    (hown : base ≤ g ∨ own = some g) {name : String} {v : Value} (hv : v.Aligned x.scopes x.log)
    {h : Heap} (hs : h.scopes = x.scopes.define g name v)
    (hi : h.instances = x.state.world.heap.instances)
    (hc : h.classes = x.state.world.heap.classes) :
    Frame base own x { x.state with world.heap := h } := by
  have haligned := hx.aligned.define g name (hv.mono (.define ..)) fun h => by simp [hroot] at h
  refine .store (haligned.congr hs hi hc) (hs ▸ .define ..) fun t a _ hne => ?_
  rw [hs] at hne
  obtain ⟨rfl, -⟩ := Scopes.of_here?_define_ne hne
  exact hown

/-- The plain step ends with an answer and a state of which `Q` holds, and makes no events. -/
def Plain {α : Type} (base : Nat) (own : Option Nat) (x : Logged Event Session) (q : Load α)
    (Q : α → Session → Prop) : Prop :=
  ∃ a s, q x.state = .ok a s ∧ Frame base own x s ∧ Q a s

namespace Plain

variable {α β : Type} {q : Load α} {P Q : α → Session → Prop}

theorem imp (h : Plain base own x q P) (hPQ : ∀ a s, Frame base own x s → P a s → Q a s) :
    Plain base own x q Q := by
  obtain ⟨a, s, hq, hf, hp⟩ := h
  exact ⟨a, s, hq, hf, hPQ a s hf hp⟩

theorem bind {f : α → Load β} {Q : β → Session → Prop} (hx : Inv late x) (h : Plain base own x q P)
    (hf : ∀ a s, Frame base own x s → Inv late { x with state := s } → P a s →
      Plain base own { x with state := s } (f a) Q) : Plain base own x (q >>= f) Q := by
  obtain ⟨a, s, hq, hs, hp⟩ := h
  obtain ⟨b, s', hq', hs', hp'⟩ := hf a s hs (hx.frame hs) hp
  refine ⟨b, s', ?_, hs.trans hs', hp'⟩
  show EStateM.bind q f x.state = _
  rw [EStateM.bind, hq]
  exact hq'

theorem pure {a : α} (hx : Inv late x) (h : Q a x.state) : Plain base own x (pure a) Q :=
  ⟨a, x.state, rfl, .refl hx, h⟩

theorem change {f : Session → Session} {Q : Unit → Session → Prop}
    (hf : Frame base own x (f x.state)) (h : Q () (f x.state)) : Plain base own x (modify f) Q :=
  ⟨(), f x.state, rfl, hf, h⟩

theorem push (hx : Inv late x) {f : Session → Diagnostic}
    (hf : (f x.state).stage ≠ .running := by exact Stage.noConfusion) :
    Plain base own x (modify fun s => { s with diagnostics := s.diagnostics.push (f s) })
    fun _ s => x.state.diagnostics.size < s.diagnostics.size ∧ s.world = x.state.world := by
  have hsize := Diagnostics.size_push x.state.diagnostics (f x.state)
  exact ⟨(), _, rfl, hx.reported (by omega) fun ha => ha.push hf, by dsimp only; omega, rfl⟩

theorem report (hx : Inv late x) (at_ : Token) (f : ModuleFault) :
    Plain base own x (Load.report at_ f) fun _ s =>
      x.state.diagnostics.size < s.diagnostics.size ∧ s.world = x.state.world := push hx

theorem reports (hx : Inv late x) : Plain base own x Load.reports fun n s =>
    n = x.state.diagnostics.size ∧ s = x.state := ⟨_, _, rfl, .refl hx, rfl, rfl⟩

theorem setFile (hx : Inv late x) (file : Option String) :
    Plain base own x (Load.setFile file) fun _ s =>
      s.diagnostics.size = x.state.diagnostics.size ∧ s.root = x.state.root :=
  ⟨_, _, rfl, hx.reported (Nat.le_refl _) id, rfl, rfl⟩

/-- Files that are being bound do not count. -/
theorem loading (hx : Inv late x) (f : List Path → List Path) :
    Plain base own x (modify fun s => { s with loading := f s.loading })
      fun _ s => s.diagnostics = x.state.diagnostics :=
  ⟨(), _, rfl, hx.aside rfl rfl rfl rfl rfl (Nat.le_refl _) id, rfl⟩

theorem newInterpreter (hx : Inv late x) : Plain base own x Load.newInterpreter fun i s =>
    Ready { x with state := s } i ∧ i.globals = x.scopes.next ∧ TableOk x.log i.globals i.bindings ∧
      s.diagnostics = x.state.diagnostics := by
  have hroot : AlignedHistory { x.state.world.heap with scopes := x.scopes.addRoot } x.log := by
    refine hx.aligned.store (.addRoot ..) (fun t y w hw => .inl ?_)
      (fun j inst y w hj hw => .inl ⟨inst, hj, hw⟩) (fun c => .inl rfl)
      (Scopes.parent?_addRoot _)
    rwa [Scopes.here?_addRoot] at hw
  have hparent : x.scopes.addRoot.parent? x.scopes.next = none := by
    rw [Scopes.parent?_addRoot, Scopes.parent?_eq_none (Nat.le_refl _)]
  let v : Value := .callable (.native x.state.world.heap.natives.size)
  have haligned := hroot.define (v := v) x.scopes.next "clock" trivial fun h => by
    simp [hparent] at h
  have hlater : Later x.scopes x.log (x.scopes.addRoot.define x.scopes.next "clock" v) x.log :=
    (Later.addRoot ..).trans (.define ..)
  refine ⟨_, _, rfl, .store (haligned.congr rfl rfl rfl) hlater fun t a ht hne => ?_,
    ⟨?_, ?_, rfl, rfl, fun p m hm => ?_, fun p body hb => ?_⟩, rfl, ?_, rfl⟩
  · -- Only the new scope is written.
    refine absurd ?_ hne
    show (x.scopes.addRoot.define x.scopes.next "clock" v).here? t a = _
    rw [← Scopes.here?_addRoot x.scopes t a]
    by_contra hne
    obtain ⟨rfl, -⟩ := Scopes.of_here?_define_ne hne
    exact Nat.lt_irrefl _ ht
  · show (x.scopes.addRoot.define x.scopes.next "clock" v).parent? x.scopes.next = none
    rw [Scopes.parent?_define, hparent]
  · show x.scopes.next < (x.scopes.addRoot.define x.scopes.next "clock" v).next
    simp
  · exact Nat.ne_of_lt (hx.modules p m hm).lt
  · exact Nat.lt_irrefl _ (hx.begun _ _ _ hb)
  · exact .empty _ _ fun e he ht => Nat.lt_irrefl _ (hx.touched e he _ ht)

/-- Names that are imported become globals of an interpreter that may act. -/
theorem takeAny (decl : ImportDecl) (m : Module) (names : List Token) (p : Pending)
    (hx : Inv late x) (hr : Ready x p.interpreter)
    (hown : base ≤ p.interpreter.globals ∨ own = some p.interpreter.globals) :
    Plain base own x (Load.takeNames decl m names p) fun _ _ => True := by
  induction names generalizing p x with
  | nil => exact pure hx trivial
  | cons name names ih =>
    rw [Load.takeNames]
    split
    · refine bind hx (P := fun _ _ => True) (change ?_ trivial) fun _ s hf hs _ => ?_
      · split
        · next v hv => exact hx.defined hr.root hown (hx.aligned.vars _ _ v hv) rfl rfl rfl
        · exact .refl hx
      · have hp := Pending.interpreter_declare p name.lexeme
        exact ih (p.declare name.lexeme) hs (hp ▸ hr.frame hf) (hp ▸ hown)
    · exact bind hx (report hx _ _) fun _ s hf hs _ => ih p hs (hr.frame hf) hown

/-- Names are imported from a module that has values for all that it exposes. -/
theorem takeNames (decl : ImportDecl) {m : Module} (p : Pending) (hx : Inv late x)
    (hr : Ready x p.interpreter)
    (hown : base ≤ p.interpreter.globals ∨ own = some p.interpreter.globals)
    (hne : m.globals ≠ p.interpreter.globals)
    (hm : ∀ a ∈ m.exports, (x.scopes.here? m.globals a).isSome) :
    Plain base own x (Load.takeNames decl m decl.names p) fun p' s =>
      p'.interpreter = p.interpreter ∧
        (∀ a ∈ p'.declared,
          a ∈ p.declared ∨ (s.world.heap.scopes.here? p.interpreter.globals a).isSome) ∧
        Transfer decl.module m decl.names p.interpreter x.state s := by
  obtain ⟨p', s, hrun, hf, -⟩ := takeAny decl m decl.names p hx hr hown
  obtain ⟨p'', s', hrun', hp, hd, ht⟩ :=
    Load.takeNames_transfer decl decl.names p x.state hne hr.lt hm
  cases hrun.symm.trans hrun'
  refine ⟨p', s, hrun, hf, hp, fun a ha => (hd a ha).imp_right fun h => ?_, ht⟩
  rw [ht.vars, if_pos ⟨rfl, h⟩]
  exact hm a h.2

theorem exportsOf (declared : List String) (names : List Token) (acc : List String)
    (hx : Inv late x) : Plain base own x (Load.exportsOf declared names acc)
      fun exports s => (∀ a ∈ exports, a ∈ declared ∨ a ∈ acc) ∧ s.world = x.state.world := by
  induction names generalizing acc x with
  | nil => exact pure hx ⟨fun a ha => .inr (List.mem_reverse.1 ha), rfl⟩
  | cons name names ih =>
    rw [Load.exportsOf]
    split
    · next hd =>
      refine (ih _ hx).imp fun exports _ _ h =>
        ⟨fun a ha => (h.1 a ha).elim .inl fun ha => ?_, h.2⟩
      split at ha
      · exact .inr ha
      · rcases List.mem_cons.1 ha with rfl | ha
        · exact .inl (List.contains_iff_mem.1 hd)
        · exact .inr ha
    · exact bind hx (report hx _ _) fun _ s _ hs h => (ih acc hs).imp fun _ _ _ h' =>
        ⟨h'.1, h'.2.trans h.2⟩

end Plain

theorem Keeps.plain {α : Type} {q : Load α} {P : α → Session → Prop} (hx : Inv late x)
    (h : Plain base own x q P) : Keeps base own late x (Traced.lift q) fun a y =>
      ∃ s, y = { x with state := s } ∧ Frame base own x s ∧ P a s := by
  obtain ⟨a, s, hq, hs, hp⟩ := h
  exact .lift hq hx hs ⟨s, rfl, hs, hp⟩

theorem Keeps.after {α β : Type} {q : Load α} {f : α → Trail β} {P : α → Session → Prop}
    {Q : β → Logged Event Session → Prop} {late' : Option Path} (hx : Inv late x)
    (h : Plain base own x q P)
    (hf : ∀ a s, Frame base own x s → Inv late { x with state := s } → P a s →
      Keeps base own late' { x with state := s } (f a) Q) :
    Keeps base own late' x (Traced.lift q >>= f) Q :=
  (Keeps.plain hx h).bind fun a y _ hy h => by
    obtain ⟨s, rfl, hs, hp⟩ := h
    exact hf a s hs hy hp

/-! ### Texts and runs -/

/-- A text is read: one of a file only if the file has not been read before. -/
theorem Inv.read (hx : Inv none x) {path : Option Path} {body : List Stmt} {faulty : Bool}
    {s : Session} (htexts : Texts (.read path body faulty :: x.log) s.nextRef)
    (hnew : ∀ p, path = some p → x.state.parsed.get? p = none)
    (hfrom : ReadFrom x.log path body faulty) (hworld : s.world = x.state.world)
    (hfailed : s.failed = x.state.failed) (hmodules : s.modules = x.state.modules)
    (hparsed : ∀ p b, s.parsed.get? p = some b ↔
      x.state.parsed.get? p = some b ∨ path = some p ∧ body = b)
    (ha : s.diagnostics.Accounted x.log)
    (hlate : faulty = true → late = path) : Inv late ⟨s, .read path body faulty :: x.log⟩ := by
  have hfollows : (Event.read path body faulty).Follows x.log := by
    refine ⟨fun p hp b f hr => ?_, hfrom⟩
    cases (hnew p hp).symm.trans ((hx.parsed p b).2 ⟨f, hr⟩)
  refine ⟨?_, ⟨hfollows, hx.past⟩, htexts, fun e he g ht => ?_, fun path g b hb => ?_,
    fun p b => ?_, fun p hp => ?_, fun p m hm => ?_, ha⟩
  · rw [hworld]
    exact hx.aligned.event trivial
  · rw [Logged.scopes, hworld]
    rcases List.mem_cons.1 he with rfl | he
    · exact ht.elim
    · exact hx.touched e he g ht
  · rw [Logged.scopes, hworld]
    exact hx.begun path g b ((List.mem_cons.1 hb).resolve_left (by simp))
  · rw [hparsed p b, hx.parsed p b]
    constructor
    · rintro (⟨f, hf⟩ | ⟨rfl, rfl⟩)
      · exact ⟨f, List.mem_cons_of_mem _ hf⟩
      · exact ⟨faulty, List.mem_cons_self ..⟩
    · rintro ⟨f, hf⟩
      rcases List.mem_cons.1 hf with he | hf
      · injection he with hp hb
        exact .inr ⟨hp.symm, hb.symm⟩
      · exact .inl ⟨f, hf⟩
  · obtain ⟨b, hb⟩ := hp
    rcases List.mem_cons.1 hb with he | hb
    · injection he with hp _ hf
      exact .inr ((hlate hf.symm).trans hp.symm)
    · rw [hfailed]
      exact .inl ((hx.failed p ⟨b, hb⟩).resolve_right (by simp))
  · have hok := hx.modules p m (hmodules ▸ hm)
    obtain ⟨b, hb⟩ := hok.began
    refine ⟨?_, hok.table.cons fun ht => ht, ⟨b, List.mem_cons_of_mem _ hb⟩, ?_⟩
    · rw [Logged.scopes, hworld]
      exact hok.lt
    · rw [Logged.scopes, hworld]
      exact hok.exports

/-- A text is given to be read, that of a file by the name of the file. -/
theorem Inv.scanned (hx : Inv late x) (path : Option Path) (file : Option String) (text : String)
    (hname : ∀ p, path = some p → file = some (x.state.displayName p)) :
    Inv late { x with log := .scanned path file text x.state :: x.log } :=
  hx.event (.scanned path file text x.state) trivial hname (by simp) fun _ h => h.elim

namespace Keeps

theorem readText (hx : Inv none x) (file : Option String) (text : String) :
    Keeps base own none x (Trail.readText none file text) fun body y =>
      .read none body (decide (x.state.diagnostics.size < y.state.diagnostics.size)) ∈ y.log := by
  have hs := hx.scanned none file text (by simp)
  refine .noting (fun _ => ⟨id, id⟩) hs fun _ => ?_
  refine ⟨.noting (fun _ => ⟨id, id⟩) rfl rfl (fun _ _ hp => hp) (Source.kept_read ..).size_le, ?_,
    List.mem_cons_self ..⟩
  exact hs.read (hs.texts.read file text x.state.diagnostics none _) (by simp)
    ⟨file, text, x.state, List.mem_cons_self .., rfl, rfl⟩ rfl rfl rfl
    (fun p b => ⟨.inl, fun h => h.resolve_right (by simp)⟩) (hs.accounted.read file text _)
    fun _ => rfl

theorem readFile (hx : Inv none x) (path : Path) {name : String} (text : String)
    (hname : name = x.state.displayName path) (ha : Allowed x.log path) :
    Keeps base own (some path) x (Trail.readFile path name text) fun body y =>
      y.state.parsed.get? path = some body ∧
        (¬ x.state.diagnostics.size < y.state.diagnostics.size →
          Inv none y ∧ Allowed y.log path) := by
  rw [Trail.readFile]
  refine .get ?_
  cases hp : x.state.parsed.get? path with
  | some body => exact .pure hx.lenient ⟨hp, fun _ => ⟨hx, ha⟩⟩
  | none =>
    let read := Source.read (some name) text x.state.nextRef x.state.diagnostics
    let faulty := decide (x.state.diagnostics.size < read.2.size)
    let s := { x.state with
      diagnostics := read.2, nextRef := read.1.nextId
      parsed := x.state.parsed.insert path read.1.body }
    have hinsert : ∀ p b, s.parsed.get? p = some b ↔
        x.state.parsed.get? p = some b ∨ some path = some p ∧ read.1.body = b := fun p b => by
      show (x.state.parsed.insert path read.1.body).get? p = some b ↔ _
      rw [Table.get?_insert]
      by_cases hpath : path = p
      · subst hpath
        simp [hp]
      · simp [hpath]
    have hscan := hx.scanned (some path) (some name) text fun p he => by
      rw [← Option.some.inj he, ← hname]
    let e : Event := .scanned (some path) (some name) text x.state
    have hi : ∀ {late}, (faulty = true → late = some path) →
        Inv late ⟨s, .read (some path) read.1.body faulty :: e :: x.log⟩ := fun hlate =>
      hscan.read (hscan.texts.read (some name) text x.state.diagnostics (some path) faulty)
        (fun p he => Option.some.inj he ▸ hp)
        ⟨some name, text, x.state, List.mem_cons_self .., rfl, rfl⟩ rfl rfl rfl hinsert
        (hscan.accounted.read _ text _) hlate
    have hgrew : SessionGrew base own x ⟨s, .read (some path) read.1.body faulty :: e :: x.log⟩ :=
      .trans (.note (e := e) fun _ => ⟨fun h => h.elim, fun h => h.elim⟩)
        (.noting (fun _ => ⟨id, id⟩) rfl rfl (fun p b h => (hinsert p b).2 (.inl h))
          (Source.kept_read ..).size_le)
    refine ⟨hgrew, hi fun _ => rfl, (hinsert path _).2 (.inr ⟨rfl, rfl⟩), fun hsize => ?_⟩
    have hclean : faulty = false := decide_eq_false hsize
    refine ⟨hi fun hf => ?_, ?_⟩
    · rw [hclean] at hf
      cases hf
    · -- The file was not read before, and now it is read without faults.
      rintro ⟨body, hb⟩
      rcases List.mem_cons.1 hb with he | hb
      · injection he with _ _ he
        exact absurd (he.trans hclean) (by simp)
      · rw [(hscan.parsed path body).2 ⟨true, hb⟩] at hp
        cases hp

end Keeps

/-- An interpreter whose table says what it knows has run for some time. -/
theorem Inv.ran (hx : Inv none x) (ht : TableOk x.log i.globals i.bindings)
    (hown : base ≤ i.globals ∨ own = some i.globals)
    (hfile : own = some i.globals ∨ ∃ p body, .began (some p) i.globals body ∈ x.log)
    {limit : Nat} {z : Logged Event Machine}
    (hg : Grew (fun _ _ => False) ⟨Machine.ofParts x.state.world i limit, x.log⟩ z) (hz : Sound z)
    (hsink : Heard ⟨Machine.ofParts x.state.world i limit, x.log⟩ z) :
    SessionGrew base own x ⟨{ x.state with world := z.state.world }, z.log⟩ ∧
      Inv none ⟨{ x.state with world := z.state.world }, z.log⟩ ∧
      TableOk z.log i.globals i.bindings := by
  obtain ⟨new, hlog, hof⟩ := hg.events
  dsimp only at hlog hof
  have hquiet : ∀ g, ∀ e ∈ new, ¬ e.Touches g := fun g e he => (hof e he).not_touches g
  have hread : ∀ {p body faulty}, Event.read p body faulty ∈ z.log →
      Event.read p body faulty ∈ x.log := fun hm => by
    rw [hlog] at hm
    exact (List.mem_append.1 hm).resolve_left fun h => hof _ h
  have hfaulty : ∀ {p}, Faulty z.log p → Faulty x.log p := fun ⟨body, hb⟩ => ⟨body, hread hb⟩
  have htable : ∀ {g fs B}, Holds x.log g fs B → Holds z.log g fs B := fun h => by
    rw [hlog]
    exact h.append (hquiet _)
  have hvars : ∀ s a, s < x.scopes.next → z.state.heap.scopes.here? s a ≠ x.scopes.here? s a →
      (base ≤ s ∨ own = some s) ∨ Written x ⟨{ x.state with world := z.state.world }, z.log⟩ s a :=
    fun s a hs hne => .inr ((hg.writes s a hs hne).resolve_left id)
  refine ⟨⟨⟨⟨new, hlog, fun e he => ⟨fun g => ?_, ?_, fun m hm => ?_⟩⟩, hsink, hvars⟩,
      hg.later, fun _ _ => .inl,
      fun _ _ hp => hp, Nat.le_refl _⟩,
    ⟨hz, ?_, hx.texts.anti ?_, ?_, fun path g body hb => ?_, fun p body => ?_,
      fun p hp => hx.failed p (hfaulty hp), fun p m hm => ?_, hlog ▸ hx.accounted.run hof⟩,
    htable ht⟩
  · have h := hof e he
    cases e with
    | reached code m => exact ⟨fun ht => ht ▸ h.1 ▸ hown, fun ht => ht.elim⟩
    | turn k =>
      refine ⟨fun ht => ?_, fun ht => ht.elim⟩
      obtain ⟨m, hm, rfl⟩ := ht
      exact (h m hm).1 ▸ hown
    | made | scanned | read | aborted | entered | moment =>
      exact ⟨fun ht => ht.elim, fun ht => ht.elim⟩
    | bound | imported | began => exact h.elim
  · rintro g body rfl
    exact (hof _ he).elim
  · have hglobals : m.globals = i.globals := (hof e he).globals hm
    rw [hglobals]
    refine hfile.imp_right ?_
    rintro ⟨p, body, hb⟩
    exact ⟨p, body, hg.later.event hb⟩
  · show Past z.log
    rw [hlog]
    exact hx.past.run (m := Machine.ofParts x.state.world i limit) ht hof
  · have hnone : new.filterMap Event.text? = [] :=
      List.filterMap_eq_nil_iff.2 fun e he => (hof e he).text?
    rw [hlog, textsRead, List.filterMap_append, hnone, List.nil_append]
  · intro e he g ht
    change e ∈ z.log at he
    rw [hlog] at he
    refine Nat.lt_of_lt_of_le (hx.touched e ?_ g ht) hg.later.next
    exact (List.mem_append.1 he).resolve_left fun h => hquiet g e h ht
  · change .began path g body ∈ z.log at hb
    rw [hlog] at hb
    refine Nat.lt_of_lt_of_le (hx.begun path g body ?_) hg.later.next
    exact (List.mem_append.1 hb).resolve_left fun h => hof _ h
  · refine (hx.parsed p body).trans (exists_congr fun faulty => ⟨fun h => ?_, hread⟩)
    exact hg.later.event h
  · have hok := hx.modules p m hm
    obtain ⟨body, hb⟩ := hok.began
    exact ⟨Nat.lt_of_lt_of_le hok.lt hg.later.next, htable hok.table, ⟨body, hg.later.event hb⟩,
      fun a ha => hg.later.held _ a (hok.exports a ha)⟩

/-- What an interpreter has come to by running `p`, whether that ended or failed. -/
structure Performed {α : Type} (p : Trace α) (x : Logged Event Session) (i : Interpreter)
    (r : Except Fault α × Interpreter) (y : Logged Event Session) : Prop where
  globals : r.2.globals = i.globals
  scope : r.2.scope = i.scope
  depth : r.2.depth = i.depth
  bindings : r.2.bindings = i.bindings
  table : TableOk y.log i.globals i.bindings
  failed : ∀ f, r.1 = .error f → ∃ m,
    p ⟨Machine.ofParts x.state.world i x.state.config.maxDepth, x.log⟩ =
      .error (.fault f) ⟨m, y.log⟩

theorem Keeps.perform {α : Type} {p : Trace α} {R : α → Scopes → List Event → Prop}
    (hx : Inv none x) (ht : TableOk x.log i.globals i.bindings)
    (hown : base ≤ i.globals ∨ own = some i.globals)
    (hfile : own = some i.globals ∨ ∃ p body, .began (some p) i.globals body ∈ x.log)
    (hlaw : p.Lawful)
    (h : Safe (fun _ _ => False) ⟨Machine.ofParts x.state.world i x.state.config.maxDepth, x.log⟩ p
      fun a y => R a y.state.heap.scopes y.log) :
    Keeps base own none x (Trail.perform i p) fun r y =>
      Performed p x i r y ∧ ∀ a, r.1 = .ok a → R a y.scopes y.log := by
  have hheard := hlaw Heard.law ⟨Machine.ofParts x.state.world i x.state.config.maxDepth, x.log⟩
  have hsteady := hlaw Steady.law ⟨Machine.ofParts x.state.world i x.state.config.maxDepth, x.log⟩
  unfold Safe at h
  unfold Keeps Trail.perform
  split at h
  · next a z hp =>
    obtain ⟨hg, hz, hr⟩ := h
    rw [hp] at hheard hsteady
    obtain ⟨hw, hi, htable⟩ := hx.ran ht hown hfile hg hz hheard
    rw [hp]
    refine ⟨hw, hi, ⟨hg.globals, hg.scope, hsteady.depth, hg.bindings, htable, by simp⟩,
      fun b hb => ?_⟩
    injection hb with hb
    exact hb ▸ hr
  · next e z hp =>
    obtain ⟨hg, hz⟩ := h
    rw [hp] at hheard hsteady
    obtain ⟨hw, hi, htable⟩ := hx.ran ht hown hfile hg hz hheard
    rw [hp]
    cases e with
    | fault f =>
      refine ⟨hw, hi, ⟨hg.globals, hg.scope, hsteady.depth, hg.bindings, htable, fun f' hf => ?_⟩,
        by simp⟩
      injection hf with hf
      exact ⟨z.state, hf ▸ hp⟩
    | exhausted => exact ⟨hw.toActed, hi⟩

/-- What an interpreter has come to by running a program. If the program ends then all that it
declares outside of its scopes is there. -/
structure ProgramRan (path : Option Path) (body : List Stmt) (i : Interpreter)
    (r : Except Fault Unit × Interpreter) (y : Logged Event Session) : Prop where
  globals : r.2.globals = i.globals
  scope : r.2.scope = i.scope
  depth : r.2.depth = i.depth
  table : TableOk y.log r.2.globals r.2.bindings
  began : .began path i.globals body ∈ y.log
  declared : r.1 = .ok () → ∀ a ∈ Stmt.declaredAll body, (y.scopes.here? i.globals a).isSome
  failed : ∀ f, r.1 = .error f → Aborts y.log path r.2.globals body f

/-- An interpreter starts a program that it knows. -/
theorem Keeps.start {β : Type} {f : Except Fault Unit × Interpreter → Trail β}
    {Q : β → Logged Event Session → Prop} {path : Option Path} {body : List Stmt} (n : Nat)
    (hx : Inv none x) (hr : Ready x i) (ht : TableOk x.log i.globals i.bindings)
    (hs : Start x.log path i.globals body)
    (hfile : ∀ p, path = some p → base ≤ i.globals) (hhost : path = none → own = some i.globals)
    (hf : ∀ r y, SessionGrew base own x y → Inv none y → ProgramRan path body i r y →
      Keeps base own late y (f r) Q) :
    Keeps base own late x (Traced.note (fun _ => .began path i.globals body) >>= fun _ =>
      Trail.perform i (Trace.run n body) >>= f) Q := by
  have hlt : ∀ path' g body', Event.began path i.globals body = .began path' g body' →
      g < x.scopes.next := fun path' g body' he => by
    injection he with _ he
    exact he ▸ hr.lt
  have hbegan := hx.event (.began path i.globals body) trivial hs hlt
    fun g he => he.elim
  have hown : base ≤ i.globals ∨ own = some i.globals := by
    cases path with
    | none => exact .inr (hhost rfl)
    | some p => exact .inl (hfile p rfl)
  refine Keeps.bind (P := fun _ y => y = _) (.note (fun g => ⟨fun he => he ▸ hown, fun he => ?_⟩)
    hbegan rfl rfl fun g body' he => ?_) fun _ y hw hy he => ?_
  · cases path with
    | none => exact he.elim
    | some p => exact (show i.globals = g from he) ▸ hfile p rfl
  · injection he with hp hg
    exact hg ▸ hhost hp
  subst he
  have hbacked : own = some i.globals ∨
      ∃ p b, .began (some p) i.globals b ∈ .began path i.globals body :: x.log := by
    cases path with
    | none => exact .inl (hhost rfl)
    | some p => exact .inr ⟨p, body, List.mem_cons_self ..⟩
  have hhere := hr.here x.state.config.maxDepth
    (L := .began path i.globals body :: x.log) ⟨path, List.mem_cons_self ..⟩
  have hsound : Sound ⟨Machine.ofParts x.state.world i x.state.config.maxDepth,
    .began path i.globals body :: x.log⟩ := hy.aligned
  have hrun := (Trace.run_safe (W := fun _ _ => False) n hsound hhere
    fun s hmem m flow m' => hs.accepted.exec_normal hmem).imp (Q := fun _ y =>
      ∀ a ∈ Stmt.declaredAll body, (y.state.heap.scopes.here? i.globals a).isSome)
    fun _ y hg _ h => by
      rw [hg.scope] at h
      exact hr.scope ▸ h
  refine (Keeps.perform (R := fun _ ss _ => ∀ a ∈ Stmt.declaredAll body,
    (ss.here? i.globals a).isSome) hy (ht.cons fun h => h) hown hbacked
      (Trace.run_lawful n body) hrun).bind fun r z hw' hz h => ?_
  obtain ⟨hp, hdeclared⟩ := h
  refine hf r z (hw.trans hw') hz ⟨hp.globals, hp.scope, hp.depth, ?_,
    hw'.later.event (List.mem_cons_self ..), fun hok => hdeclared () hok, fun f hfail => ?_⟩
  · rw [hp.globals, hp.bindings]
    exact hp.table
  · obtain ⟨m, hm⟩ := hp.failed f hfail
    obtain ⟨s, hs, trace, hlog, hfell⟩ := Trace.run_fell hm
    obtain ⟨new, hnew, hof⟩ := (Trace.run_erases n body).log
      ⟨Machine.ofParts x.state.world i x.state.config.maxDepth, .began path i.globals body :: x.log⟩
    rw [hm] at hnew
    refine ⟨new, x.log, by rw [hp.globals]; exact hnew, hof, s, hs, ?_⟩
    have hlog : running z.log = trace ++ [] := hlog
    rw [hlog, List.append_nil]
    exact hfell

/-- A program has failed, and that is reported. -/
theorem Keeps.abort {β : Type} {p : Unit → Trail β} {Q : β → Logged Event Session → Prop}
    {path : Option Path} {g : Nat} {body : List Stmt} {f : Fault} {late' : Option Path}
    (hx : Inv late x) (h : Aborts x.log path g body f)
    (hp : ∀ s, x.state.diagnostics.size < s.diagnostics.size →
      Inv late ⟨s, .aborted path g body f :: x.log⟩ →
      Keeps base own late' ⟨s, .aborted path g body f :: x.log⟩ (p ()) Q) :
    Keeps base own late' x (Traced.watch
      (modify fun s => { s with diagnostics := s.diagnostics.reportFault f })
      (fun _ _ _ => .aborted path g body f) >>= p) Q := by
  have hi := hx.reporting (.aborted path g body f) (hx.accounted.fault path g body f) trivial h
    (by simp) fun _ h => h.elim
  have hsize : (x.state.diagnostics.reportFault f).size = x.state.diagnostics.size + 1 :=
    Diagnostics.size_push ..
  have hwatch : Keeps base own late x (Traced.watch
      (modify fun s => { s with diagnostics := s.diagnostics.reportFault f })
      fun _ _ _ => .aborted path g body f) fun _ y => y = ⟨{ x.state with
        diagnostics := x.state.diagnostics.reportFault f }, .aborted path g body f :: x.log⟩ :=
    ⟨.noting (fun _ => ⟨id, id⟩) rfl rfl (fun _ _ h => h) (by dsimp only; omega), hi, rfl⟩
  refine hwatch.bind fun _ y _ _ hy => ?_
  subst hy
  exact hp _ (by dsimp only; omega) hi

theorem Keeps.fail {path : Path} (hx : Inv (some path) x) : Keeps base own none x
    (Traced.lift (modify fun s => { s with failed := path :: s.failed }))
      fun _ y => y.state.diagnostics = x.state.diagnostics := by
  refine ⟨⟨.still rfl, .refl .., fun _ _ => .inl, fun _ _ hp => hp, Nat.le_refl _⟩,
    ⟨hx.aligned, hx.past, hx.texts, hx.touched, hx.begun, hx.parsed, fun p hp => .inl ?_,
      fun p m hm => ?_, hx.accounted⟩, rfl⟩
  rotate_left
  · have hok := hx.modules p m hm
    exact ⟨hok.lt, hok.table, hok.began, hok.exports⟩
  rcases hx.failed p hp with hf | he
  · exact List.mem_cons_of_mem _ hf
  · injection he with he
    exact he ▸ List.mem_cons_self ..

/-- A file that ran to its end is a module. -/
theorem Keeps.install {path : Path} {m : Module} (hx : Inv none x) (hm : m.Ok x path)
    (hbase : base ≤ m.globals) : Keeps base own none x
      (Traced.lift (modify fun s => { s with modules := s.modules.insert path m }))
      fun _ y => y.state.modules.get? path = some m := by
  have hcases : ∀ {p m'}, (x.state.modules.insert path m).get? p = some m' →
      (path = p ∧ m = m') ∨ x.state.modules.get? p = some m' := fun h => by
    rw [Table.get?_insert] at h
    split at h
    · next hp => exact .inl ⟨hp, Option.some.inj h⟩
    · exact .inr h
  refine ⟨⟨.still rfl, .refl .., fun p m' hp => ?_, fun _ _ hp => hp, Nat.le_refl _⟩,
    ⟨hx.aligned, hx.past, hx.texts, hx.touched, hx.begun, hx.parsed, hx.failed, fun p m' hp => ?_,
      hx.accounted⟩, ?_⟩
  · rcases hcases hp with ⟨rfl, rfl⟩ | hp
    · exact .inr hbase
    · exact .inl hp
  · have hok : m'.Ok x p := by
      rcases hcases hp with ⟨rfl, rfl⟩ | hp
      · exact hm
      · exact hx.modules p m' hp
    exact ⟨hok.lt, hok.table, hok.began, hok.exports⟩
  · show (x.state.modules.insert path m).get? path = some m
    rw [Table.get?_insert, if_pos rfl]

end

end Treewalk
