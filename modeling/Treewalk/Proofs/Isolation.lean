import Treewalk.Proofs.Addressing

/-!
# Files keep their variables to themselves

All scopes of the code of a file lead to the globals of an interpreter that has run the file, and
the globals of one interpreter are never those of two files. So wherever a run comes to code that
writes a variable, the variable is one of the file that the code is from, also if the code is run by
the interpreter of another file and goes astray there.

A step of a session writes no other variables than these and the globals of the interpreter that the
host asks to do something.
-/

namespace Treewalk

/-- The store holds the closure: in a variable, in a field or as a member of a class. -/
inductive Heap.Holds (h : Heap) (f : Closure) : Prop where
  | var {s x} (hv : h.scopes.here? s x = some (.callable (.function f)))
  | field {i : Nat} {inst x} (hi : h.instances[i]? = some inst)
      (hv : inst.fields.get? x = some (.callable (.function f)))
  | method {c : Nat} {k x} (hk : h.classes.cells[c]? = some k) (hf : k.methods.get? x = some f)
  | init {c : Nat} {k} (hk : h.classes.cells[c]? = some k) (hf : k.fields = some f)
  | staticMethod {c : Nat} {k x} (hk : h.classes.cells[c]? = some k)
      (hf : k.staticMethods.get? x = some f)
  | static {c : Nat} {k x} (hk : h.classes.cells[c]? = some k)
      (hv : k.statics.get? x = some (.callable (.function f)))

section

variable {ss : Scopes} {L : List Event} {f : Closure}

end

/-! ### What code writes -/

theorem Chain.ancestor_length {ss : Scopes} {L : List Event} {g s : Nat} {σ : List Layer}
    (h : Chain ss L g s σ) : ss.ancestor? s σ.length = some g := by
  induction h with
  | root => rfl
  | layer _ hp _ _ _ _ ih => simpa [Scopes.ancestor?, hp] using ih

section

variable {B : List Event} {m : Machine} {path : Option Path} {g : Nat} {program : List Stmt}
  {code : Code} {σ : List Layer} {t : Nat}

/-- With a distance or without one, a reference writes to a scope around it. -/
theorem Stands.target_ancestor (h : Stands B m path g program code σ) {ref : Ref}
    (ht : Eval.target? m ref = some t) : ∃ d, m.heap.scopes.ancestor? m.scope d = some t := by
  unfold Eval.target? at ht
  split at ht
  · exact ⟨_, ht⟩
  · rw [h.chain.root_eq, Scopes.holder?_of_root h.chain.root_parent] at ht
    split at ht
    · exact ⟨σ.length, ht ▸ h.chain.ancestor_length⟩
    · cases ht

theorem Stands.writes_ancestor (h : Stands B m path g program code σ) {a : String}
    (hw : (Event.reached code m).Writes t a) : ∃ d, m.heap.scopes.ancestor? m.scope d = some t := by
  cases code with
  | stmt st => exact ⟨0, congrArg some hw.1⟩
  | use u ref =>
    cases u with
    | assign | compoundWrite => exact h.target_ancestor hw.1
    | «variable» | this | super | superclass | compoundRead => exact hw.elim
  | stmts | expr | function | body => exact hw.elim

end

/-! ### What a step of a session writes -/

namespace Trail

theorem steps_append (n : Nat) (ts us : List Step) (is : Array Interpreter) :
    steps n (ts ++ us) is = steps n ts is >>= steps n us := by
  induction ts generalizing is with
  | nil => rfl
  | cons t ts ih =>
    show step n is t >>= (fun is => steps n (ts ++ us) is) = (step n is t >>= steps n ts) >>= _
    rw [bind_assoc]
    exact congrArg _ (funext ih)

theorem steps_single (n : Nat) (t : Step) (is : Array Interpreter) :
    steps n [t] is = step n is t := bind_pure _

end Trail

namespace Setup

variable {s : Setup} {n : Nat} {ts : List Step} {is : Array Interpreter} {x : Logged Event Session}

theorem host (h : s.logged n ts = .ok is x) : Inv none x ∧ Host x is := by
  have hgoes := Trail.steps_goes n ts #[] (.start s) (.empty _)
  unfold Goes at hgoes
  unfold logged at h
  rw [h] at hgoes
  exact hgoes.2

theorem logged_append (h : s.logged n ts = .ok is x) (t : Step) :
    s.logged n (ts ++ [t]) = Trail.step n is t x := by
  unfold logged at h ⊢
  rw [Trail.steps_append]
  show EStateM.bind (Trail.steps n ts #[]) (Trail.steps n [t]) _ = _
  rw [EStateM.bind, h]
  exact congrFun (Trail.steps_single n t is) x

/-- Who acts in a step of a session. -/
theorem acted (h : s.logged n ts = .ok is x) (t : Step) :
    Acted x.scopes.next (t.own? is) x (s.final n (ts ++ [t])) := by
  obtain ⟨hx, hh⟩ := host h
  have hgoes := Trail.step_goes n is t hx hh
  unfold Goes at hgoes
  rw [final, logged_append h]
  split at hgoes
  · next hp =>
    rw [hp]
    exact hgoes.1
  · next hp =>
    rw [hp]
    exact hgoes.1

end Setup

end Treewalk
