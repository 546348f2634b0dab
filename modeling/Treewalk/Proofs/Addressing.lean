import Treewalk.Proofs.SessionRun

/-!
# What references mean

Whatever a run comes to `Stands` in a program that was started, inside scopes that the chain of the
current scope was made for. If the interpreter at hand knows the program, then each reference is
`Lexical`: it means the variable of the scope around it that declares its name, or else a global of
the program. If not, all references of the program go `Astray`: they are taken for globals.
-/

namespace Treewalk

/-! ### The nearest scope -/

namespace Layer

variable {x : String} {σ : List Layer} {d : Nat}

/-- Of the scopes `σ`, innermost first, `l` is the nearest that declares `x`, and there are `d`
scopes inside it. -/
structure Nearest (x : String) (σ : List Layer) (d : Nat) (l : Layer) : Prop where
  here : σ[d]? = some l
  declares : l.Declares x
  inner : ∀ l' ∈ σ.take d, ¬ l'.Declares x

theorem nearest_of_distance? (h : distance? x σ = some d) : ∃ l, Nearest x σ d l := by
  obtain ⟨hd, hdec, hin⟩ := List.findIdx?_eq_some_iff_getElem.1 h
  refine ⟨σ[d], List.getElem?_eq_getElem hd, of_decide_eq_true hdec, fun l' hl' hdec' => ?_⟩
  obtain ⟨j, hj, rfl⟩ := List.mem_iff_getElem.1 hl'
  rw [List.length_take] at hj
  rw [List.getElem_take] at hdec'
  exact hin j (by omega) (decide_eq_true hdec')

theorem not_declares_of_distance? (h : distance? x σ = none) : ∀ l ∈ σ, ¬ l.Declares x := by
  intro l hl hdec
  have := List.findIdx?_eq_none_iff.1 h l hl
  simp [hdec] at this

end Layer

/-! ### References at a machine -/

/-- The reference means the variable of the scope `t`: what is read is there, and what is written
goes there. -/
structure Machine.Means (m : Machine) (ref : Ref) (t : Nat) : Prop where
  read : Eval.lookUp ref m = Eval.demand ref.name (.undefinedVariable ref.name.lexeme)
    (m.heap.scopes.here? t ref.name.lexeme) m
  write : ∀ s, Eval.target? m ref = some s → s = t

namespace Eval

variable {m : Machine} {ref : Ref}

theorem get_bind {α : Type} (f : Machine → Eval α) (m : Machine) :
    (get >>= f : Eval α) m = f m m := rfl

theorem lookUp_of_some {d : Nat} (hd : m.bindings[ref.id]? = some d) :
    lookUp ref m = demand ref.name (.undefinedVariable ref.name.lexeme)
      (m.heap.scopes.getAt? m.scope d ref.name.lexeme) m := by
  rw [lookUp, get_bind, hd]

theorem lookUp_of_none (hd : m.bindings[ref.id]? = none) :
    lookUp ref m = demand ref.name (.undefinedVariable ref.name.lexeme)
      (m.heap.scopes.get? (m.heap.scopes.root m.scope) ref.name.lexeme) m := by
  rw [lookUp, get_bind, hd]

theorem superMethod_of_none (hd : m.bindings[ref.id]? = none) (method : Token) :
    superMethod ref method m = fault ref.name .misplacedSuper m := by
  rw [superMethod, get_bind, hd]

/-- What is looked for is not there. -/
def failed {α : Type} : EStateM.Result Stop Machine α → Bool
  | .ok .. => false
  | .error .. => true

end Eval

namespace Scopes

variable {ss : Scopes} {s : Nat} {x : String}

/-- A scope without a parent is the only one that can hold a name of its chain. -/
theorem holder?_of_root (h : ss.parent? s = none) :
    ss.holder? s x = if (ss.here? s x).isSome then some s else none := by
  unfold holder?
  cases s with
  | zero => rfl
  | succ s => rw [holderWithin?, h]

theorem get?_of_root (h : ss.parent? s = none) : ss.get? s x = ss.here? s x := by
  rw [get?, holder?_of_root h]
  cases hx : ss.here? s x with
  | none => rfl
  | some v => exact hx

end Scopes

namespace Machine.Means

variable {m : Machine} {ref : Ref} {t : Nat}

theorem of_distance {d : Nat} (hd : m.bindings[ref.id]? = some d)
    (ht : m.heap.scopes.ancestor? m.scope d = some t) : m.Means ref t := by
  refine ⟨?_, fun s hs => ?_⟩
  · rw [Eval.lookUp_of_some hd, Scopes.getAt?, ht]
    rfl
  · rw [Eval.target?, hd] at hs
    exact Option.some.inj (hs.symm.trans ht)

theorem of_global (hd : m.bindings[ref.id]? = none) (hr : m.heap.scopes.root m.scope = t)
    (ht : m.heap.scopes.parent? t = none) : m.Means ref t := by
  refine ⟨?_, fun s hs => ?_⟩
  · rw [Eval.lookUp_of_none hd, hr, Scopes.get?_of_root ht]
  · rw [Eval.target?, hd] at hs
    dsimp only at hs
    rw [hr, Scopes.holder?_of_root ht] at hs
    split at hs
    · exact (Option.some.inj hs).symm
    · cases hs

end Machine.Means

theorem Chain.root_parent {ss : Scopes} {L : List Event} {g s : Nat} {σ : List Layer}
    (h : Chain ss L g s σ) : ss.parent? g = none := by
  induction h with
  | root hp => exact hp
  | layer _ _ _ _ _ _ ih => exact ih

/-! ### Where a run stands -/

/-- The code that the run with the state `m` has come to stands inside the scopes `σ` in a program
that was started from `path` with the globals `g`, and the current scope is the innermost of
them. -/
structure Stands (B : List Event) (m : Machine) (path : Option Path) (g : Nat)
    (program : List Stmt) (code : Code) (σ : List Layer) : Prop where
  began : .began path g program ∈ B
  placed : Placed program code σ
  chain : Chain m.heap.scopes B g m.scope σ

/-- The reference means what the text says: with a distance, the variable of the scope at that
distance, which was made for the nearest scope of the text that declares the name; without one, a
global of the program, and no scope around the reference declares the name. -/
structure Lexical (B : List Event) (m : Machine) (ref : Ref) (g : Nat) (σ : List Layer) : Prop where
  near : ∀ d, m.bindings[ref.id]? = some d → ∃ l t, Layer.Nearest ref.name.lexeme σ d l ∧
    m.heap.scopes.ancestor? m.scope d = some t ∧ .made t l.origin ∈ B ∧
    (∀ o, .made t o ∈ B → o = l.origin) ∧ m.Means ref t
  global : m.bindings[ref.id]? = none → (∀ l ∈ σ, ¬ l.Declares ref.name.lexeme) ∧
    m.heap.scopes.root m.scope = g ∧ m.Means ref g

/-- The reference is taken for one to a global, whatever the text says. There is no such global as
`super`. -/
structure Astray (m : Machine) (ref : Ref) (g : Nat) : Prop where
  unbound : m.bindings[ref.id]? = none
  means : m.Means ref g
  super : ∀ method, Eval.superMethod ref method m = Eval.fault ref.name .misplacedSuper m

/-- A run has come to such a use of a reference. -/
def ReachedUse (p : Use → Ref → Machine → Prop) : Event → Prop
  | .reached (.use u ref) m => p u ref m
  | _ => False

instance {p : Use → Ref → Machine → Prop} [∀ u ref m, Decidable (p u ref m)] :
    DecidablePred (ReachedUse p)
  | .reached (.use u ref) m => inferInstanceAs (Decidable (p u ref m))
  | .reached (.stmts _) _ | .reached (.stmt _) _ | .reached (.expr _) _
  | .reached (.function _) _ | .reached (.body _) _ | .made .. | .turn _ | .scanned ..
  | .read .. | .began .. | .aborted .. | .bound .. | .imported .. | .entered .. | .moment _ =>
    isFalse id

theorem exists_reached_use {L : List Event} {p : Use → Ref → Machine → Prop}
    (h : ∃ e ∈ L, ReachedUse p e) :
    ∃ u ref m B, (.reached (.use u ref) m :: B) <:+ L ∧ p u ref m := by
  obtain ⟨e, he, hp⟩ := h
  obtain ⟨new, B, rfl⟩ := List.append_of_mem he
  cases e with
  | reached code m =>
    cases code with
    | use u ref => exact ⟨u, ref, m, B, List.suffix_append .., hp⟩
    | stmts | stmt | expr | function | body => exact hp.elim
  | made | turn | scanned | read | began | aborted | bound | imported | entered | moment =>
    exact hp.elim

/-- A program can only have been started after it was read without faults, so that it is tidy and no
two references have one number, and was accepted, and after the interpreter came to know its
distances. -/
structure Started (B : List Event) (g : Nat) (program : List Stmt) : Prop where
  tidy : Stmt.TidyAll program
  nodup : (Stmt.idsAll program).Nodup
  accepted : Accepted program
  read : HasRead B program
  knows : Knows B g program

section

variable {y : Logged Event Session} {B : List Event} {code : Code} {m : Machine}
  {path : Option Path} {g : Nat} {program : List Stmt} {σ : List Layer} {u : Use} {ref : Ref}
  {late : Option Path}

namespace Inv

theorem stands (h : Inv late y) (hB : (.reached code m :: B) <:+ y.log) :
    ∃ path g program σ, Stands B m path g program code σ := by
  obtain ⟨g, program, σ, ⟨path, hb⟩, hp, hc⟩ := h.aligned.reached code m B hB
  exact ⟨path, g, program, σ, hb, hp, hc⟩

theorem started (h : Inv late y) (hB : B <:+ y.log) (hb : .began path g program ∈ B) :
    Started B g program := by
  obtain ⟨new, B', rfl⟩ := List.append_of_mem hb
  have hs : Start B' path g program := (h.past.suffix hB).follows (List.suffix_append ..)
  have hl : B' <:+ new ++ .began path g program :: B' :=
    (List.suffix_cons ..).trans (List.suffix_append ..)
  obtain ⟨faulty, hr⟩ := hs.read
  have hread : HasRead B' program := ⟨path, faulty, hr⟩
  have hread' := hread.mono (hl.trans hB)
  exact ⟨h.texts.tidy _ hread', h.texts.nodup _ hread', hs.accepted, hread.mono hl,
    hs.knows.mono hl⟩

theorem table (h : Inv late y) (hB : (.reached code m :: B) <:+ y.log) :
    TableOk B m.globals m.bindings := h.past.follows hB

theorem madeOnce (h : Inv late y) (hB : B <:+ y.log) {t : Nat} {o o' : Origin}
    (ho : .made t o ∈ B) (ho' : .made t o' ∈ B) : o' = o :=
  h.aligned.madeOnce t o' o (hB.subset ho') (hB.subset ho)

/-- The table of an interpreter that knows the program has what was found about it. -/
theorem getElem?_bindings (h : Inv late y) (hB : (.reached code m :: B) <:+ y.log)
    (hk : Knows B m.globals program) {id : Nat} (hid : id ∈ Stmt.idsAll program) (d : Nat) :
    m.bindings[id]? = some d ↔ .local id d ∈ findings program := by
  have hB' : B <:+ y.log := (List.suffix_cons ..).trans hB
  exact (h.table hB).getElem?_eq (h.texts.suffix hB') (h.past.suffix hB').boundRead hk hid d

/-- The table of an interpreter that does not know the program has nothing about it. -/
theorem getElem?_bindings_none (h : Inv late y) (hB : (.reached code m :: B) <:+ y.log)
    (hb : .began path g program ∈ B) (hk : ¬ Knows B m.globals program) {id : Nat}
    (hid : id ∈ Stmt.idsAll program) : m.bindings[id]? = none := by
  have hB' : B <:+ y.log := (List.suffix_cons ..).trans hB
  exact (h.table hB).getElem?_eq_none (h.texts.suffix hB')
    (h.past.suffix hB').boundRead (h.started hB' hb).read hk hid

/-- Of a reference that the run has come to, the table has the distance of the text. -/
theorem getElem?_eq_distance? (h : Inv late y) (hB : (.reached (.use u ref) m :: B) <:+ y.log)
    (hs : Stands B m path g program (.use u ref) σ) (hk : Knows B m.globals program) :
    m.bindings[ref.id]? = Layer.distance? ref.name.lexeme σ := by
  have hp := h.started ((List.suffix_cons ..).trans hB) hs.began
  refine Option.ext fun d => ?_
  rw [h.getElem?_bindings hB hk (hs.placed.id_mem hp.nodup hp.accepted),
    hs.placed.recorded_iff hp.nodup hp.accepted]

/-- An interpreter that knows the program goes by the text. -/
theorem lexical (h : Inv late y) (hB : (.reached (.use u ref) m :: B) <:+ y.log)
    (hs : Stands B m path g program (.use u ref) σ) (hk : Knows B m.globals program) :
    Lexical B m ref g σ := by
  have hB' : B <:+ y.log := (List.suffix_cons ..).trans hB
  have hdist := h.getElem?_eq_distance? hB hs hk
  refine ⟨fun d hd => ?_, fun hd => ?_⟩
  · obtain ⟨l, hl⟩ := Layer.nearest_of_distance? (hdist.symm.trans hd)
    obtain ⟨t, ht, hmade, -⟩ := hs.chain.ancestor? hl.here
    exact ⟨l, t, hl, ht, hmade, fun o ho => h.madeOnce hB' hmade ho, .of_distance hd ht⟩
  · have hroot := hs.chain.root_eq
    exact ⟨Layer.not_declares_of_distance? (hdist.symm.trans hd), hroot,
      .of_global hd hroot hs.chain.root_parent⟩

/-- An interpreter that does not know the program takes all references for globals of it. -/
theorem astray (h : Inv late y) (hB : (.reached (.use u ref) m :: B) <:+ y.log)
    (hs : Stands B m path g program (.use u ref) σ) (hk : ¬ Knows B m.globals program) :
    Astray m ref g := by
  have hp := h.started ((List.suffix_cons ..).trans hB) hs.began
  have hd := h.getElem?_bindings_none hB hs.began hk (hs.placed.id_mem hp.nodup hp.accepted)
  exact ⟨hd, .of_global hd hs.chain.root_eq hs.chain.root_parent, Eval.superMethod_of_none hd⟩

end Inv

end

/-- In any session, whatever code a run comes to, the interpreter at hand has all distances of its
program or none. It has them if it knows the program, as the interpreter does that started it, and
then references mean what the text says. If not, all of them mean globals of the program. -/
theorem reached_known_or_global (s : Setup) (n : Nat) (ts : List Step) :
    Traced.erase (s.logged n ts) = s.run n ts ∧
      ∀ code m B, (.reached code m :: B) <:+ s.events n ts →
        ∃ path g program σ, Stands B m path g program code σ ∧ Accepted program ∧
          (m.globals = g → Knows B m.globals program) ∧
          (Knows B m.globals program →
            (∀ id d, .local id d ∈ findings program → m.bindings[id]? = some d) ∧
              ∀ u ref, code = .use u ref → Lexical B m ref g σ) ∧
          (¬ Knows B m.globals program →
            (∀ id d, .local id d ∈ findings program → m.bindings[id]? = none) ∧
              ∀ u ref, code = .use u ref → Astray m ref g) := by
  refine ⟨s.erase_logged n ts, fun code m B hB => ?_⟩
  have hinv := s.inv n ts
  obtain ⟨path, g, program, σ, hs⟩ := hinv.stands hB
  have hp := hinv.started ((List.suffix_cons ..).trans hB) hs.began
  refine ⟨path, g, program, σ, hs, hp.accepted, fun hg => hg ▸ hp.knows, fun hk => ⟨?_, ?_⟩,
    fun hk => ⟨?_, ?_⟩⟩
  · exact fun id d hd => (hinv.getElem?_bindings hB hk (mem_ids_of_local hd) d).2 hd
  · rintro u ref rfl
    exact hinv.lexical hB hs hk
  · exact fun id d hd => hinv.getElem?_bindings_none hB hs.began hk (mem_ids_of_local hd)
  · rintro u ref rfl
    exact hinv.astray hB hs hk

/-- A class of one file keeps a closure of a second, and a third file calls it. -/
def strayClosure : Setup where
  root := "/"
  disk := Disk.addFile {} "/r.vuel" "class R \x7b\x7d expose R;".toUTF8
    |>.addFile "/a.vuel" ("import \x7b R \x7d from \"r\"; " ++
      "\x7b var x = 1; fun g() \x7b print x; \x7d R.g = g; \x7d").toUTF8
    |>.addFile "/b.vuel" "import \x7b R \x7d from \"r\"; R.g();".toUTF8

/-- A program for which this was found is given to an interpreter. -/
def BoundWith (f : Finding) : Event → Prop
  | .bound _ body => f ∈ findings body
  | _ => False

instance {f : Finding} : DecidablePred (BoundWith f)
  | .bound _ body => inferInstanceAs (Decidable (f ∈ findings body))
  | .reached .. | .made .. | .turn _ | .scanned .. | .read .. | .began .. | .aborted ..
  | .imported .. | .entered ..
  | .moment _ => isFalse id

/-- A distance is found for the variable in the closure, but the interpreter of the third file has
none and does not find the variable. -/
theorem strayClosure_unbound :
    (∃ e ∈ strayClosure.events 20 [.runFile "a.vuel", .runFile "b.vuel"],
      BoundWith (.local 0 1) e) ∧
      ∃ e ∈ strayClosure.events 20 [.runFile "a.vuel", .runFile "b.vuel"],
        ReachedUse (fun u ref m => u = .variable ∧ ref.id = 0 ∧ m.bindings[ref.id]? = none ∧
          Eval.failed (Eval.lookUp ref m)) e := by
  decide +kernel

end Treewalk
