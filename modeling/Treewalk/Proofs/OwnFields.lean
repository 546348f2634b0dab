import Treewalk.Proofs.Blame
import Treewalk.Proofs.Construction
import Treewalk.Proofs.Isolation

/-!
# Fields of new instances

`construction_initializes_fields`: in a session with one interpreter and without imports, a call of
a class that succeeds answers a new instance, which has all fields that the class and those above it
declare, as far up as no class declares `init` twice. Where one does, its last `init` is the one
that runs and its first the one that sets the fields (`repeatedInit_skips_field`).
-/

namespace Treewalk

/-! ### Texts without faults -/

theorem Diagnostics.size_foldl {α : Type} {f : Diagnostics → α → Diagnostics}
    (hf : ∀ ds a, (f ds a).size = ds.size + 1) (as : List α) (ds : Diagnostics) :
    (as.foldl f ds).size = ds.size + as.length := by
  induction as generalizing ds with
  | nil => rfl
  | cons a as ih =>
    rw [List.foldl_cons, ih, hf, List.length_cons]
    omega

/-- Each fault of a text is one report. -/
theorem Source.size_read (file : Option String) (text : String) (firstId : Nat) (ds : Diagnostics) :
    (Source.read file text firstId ds).2.size = ds.size + (scan file text).faults.length +
      (Source.read file text firstId ds).1.faults.length := by
  simp only [Source.read, Diagnostics.reportProgram, Diagnostics.reportScan]
  rw [Diagnostics.size_foldl, Diagnostics.size_foldl]
  · simp [Diagnostics.size, Diagnostics.push, Diagnostics.reportLexical]
  · simp [Diagnostics.size, Diagnostics.push, Diagnostics.reportAt]

section

variable {y : Logged Event Session} {late : Option Path} {B : List Event} {m : Machine} {g : Nat}
  {program : List Stmt}

/-- A program that came from no file is that of a text that was read without faults. -/
theorem Inv.faultless (h : Inv late y) (hB : B <:+ y.log) (hb : .began none g program ∈ B) :
    ∃ file text, TextOf B none program file text ∧
      (Code.stmts program).Written (scan file text).tokens True := by
  have hpast := h.past.suffix hB
  obtain ⟨new, B₁, rfl⟩ := List.append_of_mem hb
  have hstart : Start B₁ none g program := hpast.follows (List.suffix_append ..)
  obtain ⟨new₂, B₂, rfl⟩ := List.append_of_mem (hstart.clean rfl)
  have hB₂ : (.read none program false :: B₂) <:+
      new ++ .began none g program :: (new₂ ++ .read none program false :: B₂) :=
    (List.suffix_append ..).trans ((List.suffix_cons ..).trans (List.suffix_append ..))
  -- It was started because reading it made no reports, so there were no faults.
  obtain ⟨-, file, text, s, hs, rfl, hclean⟩ := hpast.follows hB₂
  refine ⟨file, text, ⟨⟨g, hb⟩, s, hB₂.subset (List.mem_cons_of_mem _ hs), rfl, by simp⟩, ?_⟩
  refine Source.read_written file text s.nextRef s.diagnostics True fun _ => ?_
  have hsize := Source.size_read file text s.nextRef s.diagnostics
  have hle := of_decide_eq_false hclean.symm
  exact List.eq_nil_of_length_eq_zero (by omega)

/-- The interpreter that has started all programs has their distances. -/
theorem Inv.versed (h : Inv late y) (hB : B <:+ y.log) (haligned : AlignedHistory m.heap B)
    (ht : TableOk B m.globals m.bindings)
    (hown : ∀ path g program, .began path g program ∈ B → path = none ∧ g = m.globals) :
    Versed ⟨m, B⟩ := by
  refine ⟨haligned, fun {g body u ref σ} hb hp => ?_, fun {g body} hb => ?_⟩
  · obtain ⟨path, hb⟩ := hb
    obtain ⟨-, rfl⟩ := hown path g body hb
    have hs := h.started hB hb
    refine Option.ext fun d => ?_
    rw [ht.getElem?_eq (h.texts.suffix hB) (h.past.suffix hB).boundRead hs.knows
      (hp.id_mem hs.nodup hs.accepted), hp.recorded_iff hs.nodup hs.accepted]
  · obtain ⟨path, hb⟩ := hb
    obtain ⟨rfl, -⟩ := hown path g body hb
    obtain ⟨file, text, -, hw⟩ := h.faultless hB hb
    exact ⟨_, hw⟩

end

/-! ### States of a session -/

/-- The session is in the state `m` after the events `B`, while it runs code or when it is done. -/
inductive Setup.Reaches (s : Setup) (n : Nat) (ts : List Step) (B : List Event) (m : Machine) :
    Prop where
  | during {e : Event} (hB : (e :: B) <:+ s.events n ts) (hm : m ∈ e.machine?)
  | after {is : Array Interpreter} {y : Logged Event Session} {k : Nat} {i : Interpreter}
      (hy : s.logged n ts = .ok is y) (hB : y.log = B) (hi : is[k]? = some i)
      (hm : .ofParts y.state.world i y.state.config.maxDepth = m)

theorem Event.follows_machine {e : Event} {B : List Event} {m : Machine} (hm : m ∈ e.machine?)
    (h : e.Follows B) : TableOk B m.globals m.bindings := by
  cases e with
  | reached code m' =>
    obtain rfl : m' = m := Option.some.inj hm
    exact h
  | turn k => exact h m hm
  | made | scanned | read | bound | imported | began | aborted | entered | moment => cases hm

/-- With one interpreter and without imports, the distances of all programs are known. -/
theorem Setup.Reaches.versed {s : Setup} {n : Nat} {ts : List Step} {B : List Event} {m : Machine}
    (h : s.Reaches n (.newInterpreter :: ts) B m) (hts : ∀ t ∈ ts, t.isLocal)
    (hfree : NoImports (s.events n (.newInterpreter :: ts))) :
    B <:+ s.events n (.newInterpreter :: ts) ∧ Versed ⟨m, B⟩ ∧
      ∀ path g program, .began path g program ∈ B → path = none := by
  have hinv := s.inv n (.newInterpreter :: ts)
  obtain ⟨g₀, hlone, honly⟩ := s.lone n hts
  have hbegan : ∀ path g program, .began path g program ∈ s.events n (.newInterpreter :: ts) →
      path = none ∧ g = g₀ := by
    intro path g program hb
    refine ⟨?_, (hlone hfree _ hb g).1 rfl⟩
    cases path with
    | none => rfl
    | some p => exact absurd rfl (hlone hfree _ hb g).2
  -- All runs are those of the one interpreter, whose table has all distances at any time.
  cases h with
  | @during e hB hm =>
    have hB' : B <:+ s.events n (.newInterpreter :: ts) := (List.suffix_cons ..).trans hB
    have hg : m.globals = g₀ :=
      (hlone hfree e (hB.subset (List.mem_cons_self ..)) m.globals).1 (Event.runs_of_machine? hm).of
    refine ⟨hB', hinv.versed hB' (hinv.aligned.snapshot hB hm)
      (Event.follows_machine hm (hinv.past.follows hB)) fun path g program hb => ?_,
      fun path g program hb => (hbegan path g program (hB'.subset hb)).1⟩
    rw [hg]
    exact hbegan path g program (hB'.subset hb)
  | @after is y k i hy hB hi hm =>
    subst hB hm
    have hfinal : s.final n (.newInterpreter :: ts) = y := by rw [Setup.final, hy]; rfl
    have hevents : s.events n (.newInterpreter :: ts) = y.log := by rw [Setup.events, hfinal]
    rw [hfinal] at hinv
    rw [hevents] at hbegan ⊢
    refine ⟨List.suffix_rfl,
      hinv.versed List.suffix_rfl hinv.aligned ?_ fun path g program hb => ?_,
      fun path g program hb => (hbegan path g program hb).1⟩
    · exact (s.host hy).2.table k i hi
    · rw [← honly is y hy k i hi] at hbegan
      exact hbegan path g program hb

/-! ### Classes and what they declare -/

/-- Upwards from the class `c` one comes to `a`, by way of these classes. -/
inductive Classes.Rises (cs : Classes) : Nat → Nat → List Nat → Prop where
  | here (c : Nat) : Rises cs c c [c]
  | up {c c' a : Nat} {k : Class} {way : List Nat} (hk : cs.cells[c]? = some k)
      (hs : k.superclass = some c') (h : Rises cs c' a way) : Rises cs c a (c :: way)

/-- The class `c` is the one that a text declares, with the members `ms`. -/
structure DeclaredAs (B : List Event) (c : Nat) (decl : ClassDecl) (ms : Members) : Prop where
  built : ∃ superclass s, .turn (.built c decl superclass s) ∈ B
  written : ∃ path program file text σ, TextOf B path program file text ∧
    Placed program (.stmt (.cls decl)) σ ∧ decl.ReadAs (scan file text).tokens True ms

theorem Versed.due {m : Machine} {B : List Event} (h : Versed ⟨m, B⟩) {c a : Nat} {way : List Nat}
    (hr : m.heap.classes.Rises c a way)
    (hs : ∀ b ∈ way, ∀ decl superclass s, .turn (.built b decl superclass s) ∈ B → decl.Sole)
    {decl : ClassDecl} {ms : Members} (hd : DeclaredAs B a decl ms) {field : FieldDecl}
    (hf : field ∈ ms.fields) : Due B field.name.lexeme c := by
  induction hr with
  | here c =>
    obtain ⟨superclass, s, hb⟩ := hd.built
    obtain ⟨_, _, _, _, _, -, -, hread⟩ := hd.written
    exact .own hb (hs c (List.mem_singleton_self c) _ _ _ hb) hread hf rfl
  | @up c c' a k way hk hsup _ ih =>
    obtain ⟨decl', superclass, s, hb⟩ := h.sound.classed c k hk
    obtain ⟨-, k', hk', hof⟩ := h.sound.built c decl' superclass s hb
    obtain rfl := Option.some.inj (hk.symm.trans hk')
    obtain rfl := hof.superclass.symm.trans hsup
    obtain ⟨hsole, hs⟩ := List.forall_mem_cons.1 hs
    exact .above hb (hsole _ _ _ hb) (ih hs hd)

theorem Inv.declaredAs {y : Logged Event Session} {late : Option Path} {B : List Event}
    {m : Machine} (h : Inv late y) (hB : B <:+ y.log) (hv : Versed ⟨m, B⟩)
    (hfiles : ∀ path g program, .began path g program ∈ B → path = none) {c : Nat}
    (hc : Built B c) :
    ∃ decl ms, DeclaredAs B c decl ms := by
  obtain ⟨decl, superclass, s, hb⟩ := hc
  obtain ⟨g, program, σ, ⟨path, hbegan⟩, hp, -⟩ := (hv.sound.built c decl superclass s hb).1.place
  obtain rfl := hfiles path g program hbegan
  obtain ⟨file, text, htext, hw⟩ := h.faultless hB hbegan
  obtain ⟨ms, hms⟩ := (hw _ (hp.contains (by simp))).2 decl rfl
  exact ⟨decl, ms, ⟨superclass, s, hb⟩, none, program, file, text, σ, htext, hp, hms⟩

/-- A class to which one comes upwards was made. -/
theorem Classes.Rises.built {h : Heap} {L : List Event} (hg : AlignedHistory h L) {c a : Nat}
    {way : List Nat} (hr : h.classes.Rises c a way) (hc : Built L c) : Built L a := by
  induction hr with
  | here => exact hc
  | @up c c' a k way hk hsup _ ih =>
    obtain ⟨decl, superclass, s, hb⟩ := hg.classed c k hk
    obtain ⟨hmade, k', hk', hof⟩ := hg.built c decl superclass s hb
    obtain rfl := Option.some.inj (hk.symm.trans hk')
    exact ih (hmade.above c' (hof.superclass.symm.trans hsup)).2.1

/-- In a session with one interpreter and without imports, a call of a class that succeeds, in
whatever state, answers a new instance of the class. Each class upwards of it was declared by a
text, and if on the way to it no class declares `init` twice then the instance has all the fields
that it declares. -/
theorem construction_initializes_fields (s : Setup) (n : Nat) (ts : List Step)
    (hts : ∀ t ∈ ts, t.isLocal) (hfree : NoImports (s.events n (.newInterpreter :: ts))) :
    Traced.erase (s.logged n (.newInterpreter :: ts)) = s.run n (.newInterpreter :: ts) ∧
      ∀ B m, s.Reaches n (.newInterpreter :: ts) B m → ∀ k c args paren d v m',
        c < m.heap.classes.next → (∀ v ∈ args, v.Aligned m.heap.scopes B) →
        Eval.call k (.cls c) args paren { m with depth := d } = .ok v m' →
        ∃ i inst, v = .inst i ∧ m.heap.instances[i]? = none ∧ m'.heap.instances[i]? = some inst ∧
          inst.cls = c ∧ ∀ a way, m.heap.classes.Rises c a way →
            (∃ decl ms, DeclaredAs B a decl ms) ∧
            ((∀ b ∈ way, ∀ decl superclass s, .turn (.built b decl superclass s) ∈ B → decl.Sole) →
              ∀ decl ms, DeclaredAs B a decl ms → ∀ field ∈ ms.fields,
                (inst.fields.get? field.name.lexeme).isSome) := by
  refine ⟨s.erase_logged n _, fun B m hm k c args paren d v m' hc hargs hcall => ?_⟩
  obtain ⟨hB, hv, hfiles⟩ := hm.versed hts hfree
  have hbuilt : Built B c := hv.sound.classed c _ (Array.getElem?_eq_getElem hc)
  have hv' : Versed ⟨{ m with depth := d }, B⟩ := ⟨hv.sound, hv.table, hv.text⟩
  have herase := ((Trace.runErases k).call (.cls c) args paren).state ⟨{ m with depth := d }, B⟩
  obtain ⟨L, hrun⟩ := Traced.exists_of_erase (herase.trans hcall)
  obtain ⟨-, i, rfl, hnew⟩ := Carries.call_cls k hv' hbuilt hargs _ _ hrun
  obtain ⟨inst, hinst, hcls⟩ := hnew.cls
  refine ⟨i, inst, rfl, hnew.fresh, hinst, hcls, fun a way hr => ⟨?_, ?_⟩⟩
  · exact (s.inv n _).declaredAs hB hv hfiles (hr.built hv.sound hbuilt)
  · intro hsole decl ms hd field hf
    obtain ⟨inst', hinst', hown⟩ := hnew.fields _ (hv.due hr hsole hd hf)
    obtain rfl := Option.some.inj (hinst.symm.trans hinst')
    exact hown

/-- A class with a field and two methods `init`. -/
def repeatedInit : String := "class A \x7b x = 1; init() \x7b\x7d init() \x7b\x7d \x7d A();"

/-- Of a session that ends without reports, for each instance whether it has the field. -/
def Setup.owners? (s : Setup) (n : Nat) (ts : List Step) (field : String) : Option (List Bool) :=
  match s.run n ts with
  | .ok _ s' =>
    if s'.diagnostics.isEmpty then
      some (s'.world.heap.instances.toList.map fun inst => (inst.fields.get? field).isSome)
    else none
  | .error .. => none

/-- The instance is made, and does not have the field. -/
theorem repeatedInit_skips_field :
    Setup.owners? { root := "/" } 40 [.newInterpreter, .runSource 0 none repeatedInit] "x" =
      some [false] := by
  decide +kernel

/-- An instance of a class without an `init` of its own, which has a field, as has its superclass.
-/
def derivedSteps : List Step :=
  [.runSource 0 none "class A \x7b x = 1; init(y) \x7b\x7d \x7d class B < A \x7b z = 2; \x7d B(3);"]

/-- The parenthesis of a call. -/
def anyParen : Token := ⟨.symbol .rightParen, ")", ⟨1, 1⟩, none⟩

/-- A class is called that has a superclass, and a second call would succeed as well. -/
def Event.callsDerived : Event → Bool
  | .turn (.called (.cls 1) args m) =>
    (m.heap.classes.cells[1]?.bind (·.superclass)) == some 0 &&
      match Eval.call 40 (.cls 1) args anyParen { m with depth := 0 } with
      | .ok .. => true
      | .error .. => false
  | _ => false

/-- The class that is made declares `init` at most once. -/
def Event.soleInit : Event → Bool
  | .turn (.built _ decl _ _) => decide decl.Sole
  | _ => true

/-- The instance has the fields of the class above its own. -/
theorem construction_initializes_fields_derived :
    (∀ t ∈ derivedSteps, t.isLocal) ∧
      NoImports (Setup.events { root := "/" } 40 (.newInterpreter :: derivedSteps)) ∧
      ∃ B m args v m' i inst,
        Setup.Reaches { root := "/" } 40 (.newInterpreter :: derivedSteps) B m ∧
        Eval.call 40 (.cls 1) args anyParen { m with depth := 0 } = .ok v m' ∧ v = .inst i ∧
        m'.heap.instances[i]? = some inst ∧ m.heap.classes.Rises 1 0 [1, 0] ∧
        ∃ decl ms, DeclaredAs B 0 decl ms ∧
          ∀ field ∈ ms.fields, (inst.fields.get? field.name.lexeme).isSome := by
  have hts : ∀ t ∈ derivedSteps, t.isLocal := by decide
  have hfree : NoImports (Setup.events { root := "/" } 40 (.newInterpreter :: derivedSteps)) := by
    decide +kernel
  have hcalls : (Setup.events { root := "/" } 40 (.newInterpreter :: derivedSteps)).any
      Event.callsDerived = true := by decide +kernel
  have hsole : (Setup.events { root := "/" } 40 (.newInterpreter :: derivedSteps)).all
      Event.soleInit = true := by decide +kernel
  refine ⟨hts, hfree, ?_⟩
  obtain ⟨e, he, hp⟩ := List.any_eq_true.1 hcalls
  obtain ⟨new, B, hlog⟩ := List.append_of_mem he
  have hB : (e :: B) <:+ Setup.events { root := "/" } 40 (.newInterpreter :: derivedSteps) :=
    ⟨new, hlog.symm⟩
  unfold Event.callsDerived at hp
  split at hp
  · next args m =>
    obtain ⟨hsup, hok⟩ := Bool.and_eq_true_iff.1 hp
    obtain ⟨k, hk, hsup⟩ := Option.bind_eq_some_iff.1 (eq_of_beq hsup)
    have hreaches : Setup.Reaches { root := "/" } 40 (.newInterpreter :: derivedSteps) B m :=
      .during hB rfl
    have hrises : m.heap.classes.Rises 1 0 [1, 0] := .up hk hsup (.here 0)
    split at hok
    · next v m' hcall =>
      have hinv := Setup.inv { root := "/" } 40 (.newInterpreter :: derivedSteps)
      obtain ⟨i, inst, hv, -, hinst, -, hdeclares⟩ :=
        (construction_initializes_fields { root := "/" } 40 derivedSteps hts hfree).2 B m hreaches
          40 1 args anyParen 0 v m' (Array.getElem?_eq_some_iff.1 hk).1
          (hinv.aligned.called _ args m B hB).2 hcall
      obtain ⟨⟨decl, ms, hd⟩, hfields⟩ := hdeclares 0 [1, 0] hrises
      refine ⟨B, m, args, v, m', i, inst, hreaches, hcall, hv, hinst, hrises, decl, ms, hd, ?_⟩
      refine hfields (fun b _ decl superclass s hb => ?_) decl ms hd
      have hmem := hB.subset (List.mem_cons_of_mem _ hb)
      exact of_decide_eq_true (List.all_eq_true.1 hsole _ hmem)
    · cases hok
  · cases hp

end Treewalk
