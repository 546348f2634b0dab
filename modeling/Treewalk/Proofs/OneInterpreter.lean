import Treewalk.Proofs.Addressing

/-!
# One interpreter and no imports

A session that makes one interpreter, runs no files and reads no text that imports anything. All
code is then run by the interpreter that started it, which knows it (`Setup.stands`). So every
reference means what the text says, and it can be told when reading a local variable fails.
-/

namespace Treewalk

/-- The step makes no interpreter and runs no file. -/
def Step.isLocal : Step → Bool
  | .newInterpreter | .runFile _ => false
  | .runSource .. | .call .. | .defineGlobal .. | .defineNative .. | .resetErrors
  | .changeDisk _ => true

/-- No text was read that imports something. -/
def NoImports (L : List Event) : Prop := ∀ body, HasRead L body → ImportFree body

instance : DecidablePred ImportFree := fun program =>
  decidable_of_iff ((findings program).all fun | .required _ => false | _ => true)
    (by
      rw [List.all_eq_true]
      constructor
      · intro h decl hd
        exact absurd (h _ hd) (by simp)
      · intro h f hf
        split
        · exact absurd hf (h _)
        · rfl)

instance : DecidablePred NoImports := fun L =>
  decidable_of_iff (L.all fun | .read _ body _ => decide (ImportFree body) | _ => true)
    (by
      rw [List.all_eq_true]
      constructor
      · rintro h body ⟨path, faulty, hr⟩
        exact of_decide_eq_true (h _ hr)
      · intro h e he
        split
        · next path body faulty => exact decide_eq_true (h body ⟨path, faulty, he⟩)
        · rfl)

/-- The interpreter with the globals `g` has done everything, and no file was run, unless there were
imports. -/
def Lone (g : Nat) (L : List Event) : Prop :=
  NoImports L → ∀ e ∈ L, ∀ g', (e.Of g' → g' = g) ∧ ¬ e.OfFile g'

theorem Traced.last_map {ε e σ α β : Type} (f : α → β) (p : Traced ε e σ α) (x : Logged ε σ) :
    last ((f <$> p) x) = last (p x) := by
  show last (EStateM.map f p x) = _
  rw [EStateM.map]
  cases p x <;> rfl

theorem Traced.log_last_lift {ε e σ α : Type} (q : EStateM e σ α) (x : Logged ε σ) :
    (last (lift q x)).log = x.log := by
  rw [lift]
  cases q x.state <;> rfl

section

variable {x : Logged Event Session} {base : Nat} {own : Option Nat} {late : Option Path}
  {i : Interpreter} {g : Nat} {L L' : List Event}

theorem Keeps.ran {α : Type} {p : Trail α} {Q : α → Logged Event Session → Prop}
    (h : Keeps base own late x p Q) : Ran base own x.log (Traced.last (p x)).log := by
  unfold Keeps at h
  split at h
  · next hp =>
    rw [hp]
    exact h.1.ran
  · next hp =>
    rw [hp]
    exact h.1.ran

namespace Lone

theorem ran (h : Lone g L) (hr : ∀ base, Ran base (some g) L L') : Lone g L' := by
  intro hfree e he g'
  obtain ⟨new, rfl, ht⟩ := hr (g' + 1)
  rcases List.mem_append.1 he with he | he
  · have hby := (ht e he).1 g'
    refine ⟨fun hg' => ?_, fun hf => Nat.not_succ_le_self g' (hby.2 hf)⟩
    rcases hby.1 hg' with hle | ho
    · omega
    · exact (Option.some.inj ho).symm
  · exact h (fun body hb => hfree body (hb.mono (List.suffix_append ..))) e he g'

theorem of_import {body : List Stmt} (hb : HasRead L body) (hi : ¬ ImportFree body) : Lone g L :=
  fun hfree => absurd (hfree body hb) hi

end Lone

namespace Trail

theorem runSource_lone (n : Nat) (name : Option String) (text : String) (hx : Inv none x)
    (hr : Ready x i) (ht : TableOk x.log i.globals i.bindings) (hl : Lone i.globals x.log) :
    Lone i.globals (Traced.last (runSource n name text i x)).log := by
  have hplain : Plain x.scopes.next none x (Load.setFile name) _ := .setFile hx name
  obtain ⟨file, s, hset, hs, -⟩ := hplain
  have hreports : (Traced.lift Load.reports : Trail Nat) ⟨s, x.log⟩ =
    .ok s.diagnostics.size ⟨s, x.log⟩ := rfl
  have hi := hx.frame hs
  cases hp : readText none name text ⟨s, x.log⟩ with
  | error e y => cases hp
  | ok body y =>
  have hkeeps (base : Nat) (own : Option Nat) :
      Keeps base own none ⟨s, x.log⟩ (readText none name text) _ := .readText hi name text
  obtain ⟨hw, hinv, hmem⟩ := (hkeeps s.world.heap.scopes.next none).of_ok hp
  have hr₁ := hr.frame hs
  -- What comes after the text is read.
  let rest : Trail Interpreter := do
    let i' ← runRead n s.diagnostics.size body i
    let _ ← Traced.lift (Load.setFile file)
    return i'
  have hlast : Traced.last (runSource n name text i x) = Traced.last (rest y) := by
    rw [runSource, bind_of_ok (Traced.lift_of_ok hset), bind_of_ok hreports, bind_of_ok hp]
  have hrest {base} (hbase : base ≤ y.scopes.next ∨ ImportFree body) :
      Ran base (some i.globals) y.log (Traced.last (rest y)).log :=
    ((Keeps.runRead n hinv hbase (hr₁.grew hw) (hw.holds hr₁.lt (by simp) ht) hmem hw.reports).bind
      fun i' z _ hz _ => .after hz (Plain.setFile hz _) fun _ _ _ hi _ =>
        .pure (Q := fun _ _ => True) hi trivial).ran
  rw [hlast]
  by_cases himp : ImportFree body
  · exact (hl.ran fun _ => ((hkeeps _ _).of_ok hp).1.ran).ran fun _ => hrest (.inr himp)
  · have hsuffix := (hrest (.inl (Nat.le_refl _))).suffix
    exact .of_import (HasRead.mono ⟨none, _, hmem⟩ hsuffix) himp

/-- All interpreters of the host have the globals `g`. -/
def Only (g : Nat) (is : Array Interpreter) : Prop := ∀ (k : Nat) i, is[k]? = some i → i.globals = g

/-- The step has left only what the interpreter with the globals `g` has done, and answers no other
interpreter. -/
def LoneStep (g : Nat) (r : EStateM.Result OutOfSteps (Logged Event Session) (Array Interpreter)) :
    Prop :=
  Lone g (Traced.last r).log ∧ ∀ is y, r = .ok is y → Only g is

variable {is : Array Interpreter}

theorem loneStep_plain {q : Load (Array Interpreter)} (hl : Lone g x.log) (hg : Only g is)
    (h : ∃ s, q x.state = .ok is s) : LoneStep g (Traced.lift q x) := by
  obtain ⟨s, hq⟩ := h
  refine ⟨by rwa [Traced.log_last_lift], fun is' y he => ?_⟩
  rw [Traced.lift, hq] at he
  cases he
  exact hg

theorem step_lone (n : Nat) {t : Step} (ht : t.isLocal) (hx : Inv none x) (hh : Host x is)
    (hl : Lone g x.log) (hg : Only g is) : LoneStep g (step n is t x) := by
  have hstay : LoneStep g ((pure is : Trail (Array Interpreter)) x) :=
    ⟨hl, fun is' y he => by cases he; exact hg⟩
  cases t with
  | newInterpreter | runFile => cases ht
  | runSource who name text =>
    rw [step]
    cases hi : is[who]? with
    | none => exact hstay
    | some i =>
      obtain rfl := hg who i hi
      have hr := hh.ready who i hi
      have ht := hh.table who i hi
      refine ⟨?_, fun is' y he => ?_⟩
      · dsimp only
        rw [Traced.last_map]
        exact runSource_lone n name text hx hr ht hl
      · have hkeeps := (Keeps.runSource n name text hx hr ht).imp (Q := fun i' _ =>
          Only i.globals (is.setIfInBounds who i')) fun i' y _ _ h k j hj => ?_
        · exact ((Keeps.map (Q := fun is' _ => Only i.globals is') hkeeps).of_ok he).2.2
        · obtain ⟨j', hj', he⟩ := Host.globals_setIfInBounds hi h.1.globals hj
          exact he.trans (hg k j' hj')
  | call who callee args paren store =>
    cases hi : is[who]? with
    | none =>
      rw [step, hi]
      exact hstay
    | some i =>
      obtain rfl := hg who i hi
      have hkeeps (base : Nat) : Keeps base (some i.globals) none x
        (step n is (.call who callee args paren store)) _ := keeps_call n _ _ _ _ hx hh hi
      refine ⟨hl.ran fun _ => (hkeeps _).ran, fun is' y he k j hj => ?_⟩
      obtain ⟨j', hj', hglobals⟩ := ((hkeeps 0).of_ok he).2.2.2 k j hj
      exact hglobals.trans (hg k j' hj')
  | defineGlobal who name value =>
    refine loneStep_plain hl hg ?_
    rw [Load.step]
    cases is[who]? with
    | none => exact ⟨_, rfl⟩
    | some i => exact ⟨_, rfl⟩
  | defineNative who f =>
    refine loneStep_plain hl hg ?_
    rw [Load.step]
    cases is[who]? with
    | none => exact ⟨_, rfl⟩
    | some i => exact ⟨_, rfl⟩
  | resetErrors =>
    exact ⟨hl.ran fun _ => .note (fun _ => ⟨False.elim, False.elim⟩) rfl (by simp),
      fun is' y he => by cases he; exact hg⟩
  | changeDisk disk => exact loneStep_plain (q := Load.step n is (.changeDisk disk)) hl hg ⟨_, rfl⟩

theorem steps_lone (n : Nat) {ts : List Step} (hts : ∀ t ∈ ts, t.isLocal) (hx : Inv none x)
    (hh : Host x is) (hl : Lone g x.log) (hg : Only g is) : LoneStep g (steps n ts is x) := by
  induction ts generalizing is x with
  | nil => exact ⟨hl, fun is' y he => by cases he; exact hg⟩
  | cons t ts ih =>
    obtain ⟨ht, hts⟩ := List.forall_mem_cons.1 hts
    obtain ⟨hlone, honly⟩ := step_lone n ht hx hh hl hg
    have hgoes := step_goes n is t hx hh
    unfold Goes at hgoes
    show LoneStep g (EStateM.bind (step n is t) (steps n ts) x)
    rw [EStateM.bind]
    cases hp : step n is t x with
    | ok is' y =>
      rw [hp] at hlone hgoes
      exact ih hts hgoes.2.1 hgoes.2.2 hlone (honly is' y hp)
    | error e y =>
      rw [hp] at hlone
      exact ⟨hlone, fun is' y he => by cases he⟩

end Trail

end

/-- Unless a text imports something, all that happens in a session with one interpreter is done by
that one. -/
theorem Setup.lone (s : Setup) (n : Nat) {ts : List Step} (hts : ∀ t ∈ ts, t.isLocal) :
    ∃ g, Trail.LoneStep g (s.logged n (.newInterpreter :: ts)) := by
  have hplain : Plain 0 none ⟨s.session, []⟩ Load.newInterpreter _ := .newInterpreter (.start s)
  obtain ⟨i, s', hq, -⟩ := hplain
  have hp : Trail.step n #[] .newInterpreter ⟨s.session, []⟩ = .ok #[i] ⟨s', []⟩ := by
    show EStateM.map _ (Traced.lift Load.newInterpreter) _ = _
    rw [EStateM.map, Traced.lift, hq]
    rfl
  have hgoes := Trail.step_goes n #[] .newInterpreter (Inv.start s) (.empty _)
  unfold Goes at hgoes
  rw [hp] at hgoes
  refine ⟨i.globals, ?_⟩
  show Trail.LoneStep i.globals
    (EStateM.bind (Trail.step n #[] .newInterpreter) (Trail.steps n ts) _)
  rw [EStateM.bind, hp]
  refine Trail.steps_lone n hts hgoes.2.1 hgoes.2.2 (by simp [Lone]) fun k j hj => ?_
  obtain ⟨rfl, rfl⟩ : k = 0 ∧ j = i := by
    rw [Array.getElem?_singleton] at hj
    split at hj
    · next hk => exact ⟨hk, (Option.some.inj hj).symm⟩
    · cases hj
  rfl

/-- With one interpreter and without imports, the interpreter that runs code knows it. -/
theorem Setup.stands (s : Setup) (n : Nat) {ts : List Step} (hts : ∀ t ∈ ts, t.isLocal)
    (hfree : NoImports (s.events n (.newInterpreter :: ts))) {code : Code} {m : Machine}
    {B : List Event} (hB : (.reached code m :: B) <:+ s.events n (.newInterpreter :: ts)) :
    ∃ path g program σ, Stands B m path g program code σ ∧ Accepted program ∧
      Knows B m.globals program := by
  have hinv := s.inv n (.newInterpreter :: ts)
  obtain ⟨g₀, hlone, -⟩ := s.lone n hts
  obtain ⟨path, g, program, σ, hs⟩ := hinv.stands hB
  have hB' : B <:+ s.events n (.newInterpreter :: ts) := (List.suffix_cons ..).trans hB
  have hp := hinv.started hB' hs.began
  have hg : g = g₀ := (hlone hfree _ (hB'.subset hs.began) g).1 rfl
  have hm : m.globals = g₀ := (hlone hfree _ (hB.subset (List.mem_cons_self ..)) m.globals).1 rfl
  refine ⟨path, g, program, σ, hs, hp.accepted, ?_⟩
  rw [hm, ← hg]
  exact hp.knows

/-- In a session with one interpreter and without imports, every reference that a run comes to means
what the text says. -/
theorem reached_use_lexical (s : Setup) (n : Nat) (ts : List Step) (hts : ∀ t ∈ ts, t.isLocal)
    (hfree : NoImports (s.events n (.newInterpreter :: ts))) :
    Traced.erase (s.logged n (.newInterpreter :: ts)) = s.run n (.newInterpreter :: ts) ∧
      ∀ u ref m B, (.reached (.use u ref) m :: B) <:+ s.events n (.newInterpreter :: ts) →
        ∃ path g program σ, Stands B m path g program (.use u ref) σ ∧ Accepted program ∧
          Lexical B m ref g σ := by
  refine ⟨s.erase_logged n _, fun u ref m B hB => ?_⟩
  obtain ⟨path, g, program, σ, hs, hok, hk⟩ := s.stands n hts hfree hB
  exact ⟨path, g, program, σ, hs, hok, (s.inv n _).lexical hB hs hk⟩

/-- A text that fails, and one with a closure that is called when the scope around it was left. -/
def closureSteps : List Step :=
  [.runSource 0 none "print y;",
    .runSource 0 none "fun f(x) \x7b fun g() \x7b return x; \x7d return g; \x7d print f(1)();"]

/-- The closure finds the variable in the scope of the call that made it. -/
theorem reached_use_lexical_closure :
    (∀ t ∈ closureSteps, t.isLocal) ∧
      NoImports (Setup.events { root := "/" } 40 (.newInterpreter :: closureSteps)) ∧
      ∃ ref m B path g program σ, ref.name.lexeme = "x" ∧ m.bindings[ref.id]? = some 1 ∧
        (.reached (.use .variable ref) m :: B) <:+
          Setup.events { root := "/" } 40 (.newInterpreter :: closureSteps) ∧
        Stands B m path g program (.use .variable ref) σ ∧ Lexical B m ref g σ := by
  have hts : ∀ t ∈ closureSteps, t.isLocal := by decide
  have hfree : NoImports (Setup.events { root := "/" } 40 (.newInterpreter :: closureSteps)) := by
    decide +kernel
  obtain ⟨u, ref, m, B, hB, hp⟩ := exists_reached_use
    (L := Setup.events { root := "/" } 40 (.newInterpreter :: closureSteps))
    (p := fun u ref m => u = .variable ∧ ref.name.lexeme = "x" ∧ m.bindings[ref.id]? = some 1)
    (by decide +kernel)
  obtain ⟨rfl, hx, hd⟩ := hp
  obtain ⟨path, g, program, σ, hs, -, hl⟩ :=
    (reached_use_lexical { root := "/" } 40 closureSteps hts hfree).2 _ ref m B hB
  exact ⟨hts, hfree, ref, m, B, path, g, program, σ, hx, hd, hB, hs, hl⟩

/-! ### Reading local variables -/

/-- The place is in the initializer of the variable `x` of the innermost scope. -/
def Layer.Awaits (x : String) : List Layer → Prop
  | l :: _ => l.pending = some x
  | [] => False

/-- Only in its own initializer is a name declared that its scope need not hold. -/
theorem Stands.awaits {B : List Event} {m : Machine} {path : Option Path} {g : Nat}
    {program : List Stmt} {u : Use} {ref : Ref} {σ : List Layer}
    (h : Stands B m path g program (.use u ref) σ) {x : String} {d : Nat} {l : Layer}
    (hl : σ[d]? = some l) (hx : l.pending = some x) : d = 0 ∧ Layer.Awaits x σ := by
  have hs : Layer.Settled σ.tail := h.placed.settled
  match σ, d with
  | l' :: σ, 0 =>
    obtain rfl : l' = l := by simpa using hl
    exact ⟨rfl, hx⟩
  | l' :: σ, d + 1 =>
    have hmem : l ∈ σ := List.mem_of_getElem? (by simpa using hl)
    exact hs.absurd hmem hx

theorem Layer.Awaits.distance? {x : String} {σ : List Layer} (h : Layer.Awaits x σ) :
    Layer.distance? x σ = some 0 := by
  match σ with
  | l :: σ =>
    have hdec : l.Declares x := .inr h
    simp [Layer.distance?, List.findIdx?_cons, hdec]

/-- What a read of a variable that is not there ends in. -/
def Ref.undefined (ref : Ref) (m : Machine) : EStateM.Result Stop Machine Value :=
  .error (.fault (.ofToken ref.name (.undefinedVariable ref.name.lexeme))) m

theorem Machine.Means.lookUp {m : Machine} {ref : Ref} {t : Nat} (h : m.Means ref t) :
    (Eval.lookUp ref m = ref.undefined m ↔ m.heap.scopes.here? t ref.name.lexeme = none) ∧
      (Eval.lookUp ref m ≠ ref.undefined m → ∃ v, Eval.lookUp ref m = .ok v m) := by
  rw [h.read]
  cases m.heap.scopes.here? t ref.name.lexeme with
  | none => exact ⟨⟨fun _ => rfl, fun _ => rfl⟩, fun hne => absurd rfl hne⟩
  | some v => exact ⟨⟨fun he => (nomatch he), fun he => (nomatch he)⟩, fun _ => ⟨v, rfl⟩⟩

/-- The scope of a local variable does not hold it only if a compound assignment reads it in its own
initializer. -/
theorem Inv.here?_eq_none_iff {y : Logged Event Session} {late : Option Path} {B : List Event}
    {m : Machine} {path : Option Path} {g : Nat} {program : List Stmt} {u : Use} {ref : Ref}
    {σ : List Layer} (h : Inv late y) (hB : (.reached (.use u ref) m :: B) <:+ y.log)
    (hs : Stands B m path g program (.use u ref) σ) (hk : Knows B m.globals program)
    (hu : u.IsRead ∨ u = .compoundRead) {d t : Nat} (hd : m.bindings[ref.id]? = some d)
    (ht : m.heap.scopes.ancestor? m.scope d = some t) :
    m.heap.scopes.here? t ref.name.lexeme = none ↔ u = .compoundRead ∧
      Layer.Awaits ref.name.lexeme σ ∧ m.heap.scopes.here? m.scope ref.name.lexeme = none := by
  have hdist := (h.getElem?_eq_distance? hB hs hk).symm.trans hd
  have hzero : d = 0 → t = m.scope := fun he => by
    subst he
    exact (Option.some.inj ht).symm
  constructor
  · intro hnone
    obtain ⟨l, hl⟩ := Layer.nearest_of_distance? hdist
    obtain ⟨t', ht', -, hheld⟩ := hs.chain.ancestor? hl.here
    obtain rfl : t' = t := Option.some.inj (ht'.symm.trans ht)
    -- The scope holds what is declared before the place, so the name is one that is being declared.
    have hpending : l.pending = some ref.name.lexeme := hl.declares.resolve_left fun hx => by
      have := hheld _ hx
      simp [hnone] at this
    obtain ⟨rfl, hawaits⟩ := hs.awaits hl.here hpending
    have hp := h.started ((List.suffix_cons ..).trans hB) hs.began
    refine ⟨hu.resolve_left fun hread => ?_, hawaits, hzero rfl ▸ hnone⟩
    exact hs.placed.not_pending hp.tidy hp.nodup hp.accepted hread (List.mem_of_getElem? hl.here)
      hpending
  · rintro ⟨-, hawaits, hnone⟩
    rw [hawaits.distance?] at hdist
    rw [hzero (Option.some.inj hdist).symm]
    exact hnone

/-- In a session with one interpreter and without imports, reading a local variable fails exactly if
a compound assignment reads it in its own initializer and nothing has been assigned to it before. -/
theorem lookUp_local_undefined_iff (s : Setup) (n : Nat) (ts : List Step)
    (hts : ∀ t ∈ ts, t.isLocal) (hfree : NoImports (s.events n (.newInterpreter :: ts))) :
    Traced.erase (s.logged n (.newInterpreter :: ts)) = s.run n (.newInterpreter :: ts) ∧
      ∀ u ref m B d, (.reached (.use u ref) m :: B) <:+ s.events n (.newInterpreter :: ts) →
        u.IsRead ∨ u = .compoundRead → m.bindings[ref.id]? = some d →
        ∃ path g program σ, Stands B m path g program (.use u ref) σ ∧ Accepted program ∧
          (Eval.lookUp ref m = ref.undefined m ↔ u = .compoundRead ∧
            Layer.Awaits ref.name.lexeme σ ∧
            m.heap.scopes.here? m.scope ref.name.lexeme = none) ∧
          (Eval.lookUp ref m ≠ ref.undefined m → ∃ v, Eval.lookUp ref m = .ok v m) := by
  refine ⟨s.erase_logged n _, fun u ref m B d hB hu hd => ?_⟩
  have hinv := s.inv n (.newInterpreter :: ts)
  obtain ⟨path, g, program, σ, hs, hok, hk⟩ := s.stands n hts hfree hB
  obtain ⟨l, t, -, ht, -, -, hmeans⟩ := (hinv.lexical hB hs hk).near d hd
  have hnone := hinv.here?_eq_none_iff hB hs hk hu hd ht
  exact ⟨path, g, program, σ, hs, hok, hmeans.lookUp.1.trans hnone, hmeans.lookUp.2⟩

/-- A text with a compound assignment to a variable in its own initializer. -/
def ownInitializerSteps : List Step := [.runSource 0 none "\x7b var a = (a += 1); print a; \x7d"]

/-- The names of the text are bound without complaint, and yet the variable is not there. -/
theorem lookUp_local_undefined_ownInitializer :
    (∀ t ∈ ownInitializerSteps, t.isLocal) ∧
      NoImports (Setup.events { root := "/" } 40 (.newInterpreter :: ownInitializerSteps)) ∧
      ∃ ref m B path g program σ, m.bindings[ref.id]? = some 0 ∧
        (.reached (.use .compoundRead ref) m :: B) <:+
          Setup.events { root := "/" } 40 (.newInterpreter :: ownInitializerSteps) ∧
        Stands B m path g program (.use .compoundRead ref) σ ∧ Accepted program ∧
        Layer.Awaits ref.name.lexeme σ ∧ Eval.lookUp ref m = ref.undefined m := by
  have hts : ∀ t ∈ ownInitializerSteps, t.isLocal := by decide
  have hfree : NoImports (Setup.events { root := "/" } 40 (.newInterpreter ::
      ownInitializerSteps)) := by
    decide +kernel
  obtain ⟨u, ref, m, B, hB, hp⟩ := exists_reached_use
    (L := Setup.events { root := "/" } 40 (.newInterpreter :: ownInitializerSteps))
    (p := fun u ref m => u = .compoundRead ∧ m.bindings[ref.id]? = some 0 ∧
      Eval.failed (Eval.lookUp ref m))
    (by decide +kernel)
  obtain ⟨rfl, hd, herror⟩ := hp
  obtain ⟨path, g, program, σ, hs, hok, hiff, hvalue⟩ :=
    (lookUp_local_undefined_iff { root := "/" } 40 ownInitializerSteps hts hfree).2 _ ref m B 0 hB
      (.inr rfl) hd
  have hnot : Eval.lookUp ref m = ref.undefined m := by
    refine Classical.byContradiction fun hne => ?_
    obtain ⟨v, hv⟩ := hvalue hne
    rw [hv] at herror
    cases herror
  exact ⟨hts, hfree, ref, m, B, path, g, program, σ, hd, hB, hs, hok, (hiff.1 hnot).2.1, hnot⟩

end Treewalk
