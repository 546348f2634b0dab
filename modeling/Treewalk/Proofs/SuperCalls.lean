import Treewalk.Proofs.OneInterpreter
import Treewalk.Proofs.Placement

/-!
# What `this` and `super` mean

The names `this` and `super` are declared by the scopes that are opened for them and by no others
(`Placed.hides`), and nothing else is ever stored in them. So wherever one of them may be used, the
nearest scope of `this` belongs to the innermost class around the place, and the scope of `super` is
the next one out of it: both names mean what they did when the method was bound and when the class
was declared. A method of `super` is that of the first class that has it, from that class on upwards
(`Eval.Finds`).
-/

namespace Treewalk

/-- The scope has a hidden name just if it is opened for it. -/
structure Layer.Hides (l : Layer) : Prop where
  this : "this" ∈ l.names ↔ ∃ f, l.origin = .this f
  super : "super" ∈ l.names ↔ ∃ decl, l.origin = .super decl

mutual

theorem Stmt.declared_isName : ∀ (s : Stmt), s.Tidy → ∀ x ∈ s.declared, x ≠ "this" ∧ x ≠ "super"
  | .var name _ _, h | .function ⟨name, _, _⟩, h => by
    intro x hx
    rw [declared, List.mem_singleton] at hx
    exact hx ▸ h.1
  | .cls decl, h => by
    intro x hx
    rw [declared, List.mem_singleton] at hx
    exact hx ▸ (ClassDecl.tidy_iff.1 h).1
  | .decls body, h => by
    rw [declared]
    exact Stmt.declaredAll_isName body h
  | .branch _ y none, h => by
    have hy : y.declared = [] := h.2.2
    simp [declared, hy]
  | .branch _ y (some n), h => by
    have hy : y.declared = [] := h.2.2.1
    have hn : n.declared = [] := h.2.2.2.2
    simp [declared, hy, hn]
  | .loop _ _ body, h => by
    have hbody : body.declared = [] := h.2.2.2
    simp [declared, hbody]
  | .expr _, _ | .print _ _, _ | .block _, _ | .ret _ _, _ | .brk _, _ | .cont _, _
  | .require _, _ | .expose _ _, _ => by simp [declared]

theorem Stmt.declaredAll_isName : ∀ (ss : List Stmt), Stmt.TidyAll ss →
    ∀ x ∈ Stmt.declaredAll ss, x ≠ "this" ∧ x ≠ "super"
  | [], _ => by simp [declaredAll]
  | s :: ss, h => by
    intro x hx
    rw [declaredAll, List.mem_append] at hx
    exact hx.elim (s.declared_isName h.1 x) (Stmt.declaredAll_isName ss h.2 x)

end

namespace Layer

variable {σ : List Layer} {x : String}

theorem hides_define (h : ∀ l ∈ σ, l.Hides) (hx : x ≠ "this" ∧ x ≠ "super") :
    ∀ l ∈ define x σ, l.Hides := by
  cases σ with
  | nil => exact h
  | cons l σ =>
    obtain ⟨hl, hσ⟩ := List.forall_mem_cons.1 h
    refine List.forall_mem_cons.2 ⟨⟨?_, ?_⟩, hσ⟩
    · simp [hx.1.symm, hl.this]
    · simp [hx.2.symm, hl.super]

theorem hides_defineAll {xs : List String} (h : ∀ l ∈ σ, l.Hides)
    (hxs : ∀ x ∈ xs, x ≠ "this" ∧ x ≠ "super") : ∀ l ∈ defineAll xs σ, l.Hides := by
  induction xs generalizing σ with
  | nil => exact h
  | cons x xs ih =>
    obtain ⟨hx, hxs⟩ := List.forall_mem_cons.1 hxs
    exact ih (hides_define h hx) hxs

theorem hides_await (h : ∀ l ∈ σ, l.Hides) : ∀ l ∈ await x σ, l.Hides := by
  cases σ with
  | nil => exact h
  | cons l σ =>
    obtain ⟨hl, hσ⟩ := List.forall_mem_cons.1 h
    exact List.forall_mem_cons.2 ⟨⟨hl.this, hl.super⟩, hσ⟩

theorem hides_around {decl : ClassDecl} (h : ∀ l ∈ σ, l.Hides) (hname : decl.name.IsName) :
    ∀ l ∈ decl.around σ, l.Hides := by
  have hdefine := hides_define h hname
  unfold ClassDecl.around
  split
  · exact List.forall_mem_cons.2 ⟨⟨by simp, by simp⟩, hdefine⟩
  · exact hdefine

/-- The scopes up to one of which the origin is known. -/
theorem of_map_origin {inner rest : List Origin} {o : Origin}
    (h : σ.map (·.origin) = inner ++ o :: rest) :
    ∃ l, σ[inner.length]? = some l ∧ l.origin = o ∧
      ∀ l' ∈ σ.take inner.length, l'.origin ∈ inner := by
  obtain ⟨σ₁, σ₂, rfl, rfl, h₂⟩ := List.map_eq_append_iff.1 h
  obtain ⟨l, σ₃, rfl, rfl, -⟩ := List.map_eq_cons_iff.1 h₂
  refine ⟨l, by simp, rfl, fun l' hl' => ?_⟩
  rw [List.length_map, List.take_left] at hl'
  exact List.mem_map_of_mem hl'

theorem Nearest.distance? {d : Nat} {l : Layer} (h : Nearest x σ d l) :
    distance? x σ = some d := by
  obtain ⟨hd, rfl⟩ := List.getElem?_eq_some_iff.1 h.here
  refine List.findIdx?_eq_some_iff_getElem.2 ⟨hd, decide_eq_true h.declares, fun j hj => ?_⟩
  have hmem : σ[j] ∈ σ.take d := List.mem_take_iff_getElem.2 ⟨j, by omega, rfl⟩
  simp [h.inner _ hmem]

end Layer

/-- The hidden names are no other's. -/
theorem Placed.hides {program : List Stmt} {code : Code} {σ : List Layer}
    (ht : Stmt.TidyAll program) (h : Placed program code σ) : ∀ l ∈ σ, l.Hides := by
  induction h with
  | program => simp
  | head _ ih | expr _ _ ih | decls _ ih | yes _ ih | round _ ih | body _ ih | part _ _ ih
  | use _ _ ih => exact ih
  | tail hp ih => exact Layer.hides_defineAll ih (Stmt.declared_isName _ (hp.tidy ht).1)
  | init _ ih => exact Layer.hides_await ih
  | block _ ih =>
    exact List.forall_mem_cons.2 ⟨⟨by simp [Layer.block], by simp [Layer.block]⟩, ih⟩
  | no hp ih => exact Layer.hides_defineAll ih (Stmt.declared_isName _ (hp.tidy ht).2.1)
  | step hp ih => exact Layer.hides_defineAll ih (Stmt.declared_isName _ (hp.tidy ht).2.2.1)
  | function hp ih => exact Layer.hides_define ih (hp.tidy ht).1
  | superclass hp _ ih => exact Layer.hides_define ih (ClassDecl.tidy_iff.1 (hp.tidy ht)).1
  | staticField hp _ _ ih | staticMethod hp _ ih =>
    exact Layer.hides_around ih (ClassDecl.tidy_iff.1 (hp.tidy ht)).1
  | method hp _ ih =>
    refine List.forall_mem_cons.2 ⟨⟨by simp [Layer.this], by simp [Layer.this]⟩, ?_⟩
    exact Layer.hides_around ih (ClassDecl.tidy_iff.1 (hp.tidy ht)).1
  | @inside decl _ hp ih =>
    have hparams := (FunctionDecl.tidy_iff.1 (hp.tidy ht)).1
    refine List.forall_mem_cons.2 ⟨⟨?_, ?_⟩, ih⟩
    · simp only [Layer.call, List.mem_map, reduceCtorEq, exists_false, iff_false]
      rintro ⟨t, hmem, he⟩
      exact (hparams t hmem).1 he
    · simp only [Layer.call, List.mem_map, reduceCtorEq, exists_false, iff_false]
      rintro ⟨t, hmem, he⟩
      exact (hparams t hmem).2 he

/-! ### The scopes of the two names -/

section

variable {program : List Stmt} {code : Code} {σ : List Layer}

/-- A scope that has one of the hidden names, with none inside of it that has. -/
theorem Placed.nearest {x : String} (hx : x = "this" ∨ x = "super") (ht : Stmt.TidyAll program)
    (h : Placed program code σ) {d : Nat} {l : Layer} (hl : σ[d]? = some l) (hmem : x ∈ l.names)
    (hinner : ∀ l' ∈ σ.take d, x ∉ l'.names) : Layer.Nearest x σ d l := by
  refine ⟨hl, .inl hmem, fun l' hl' hdec => hdec.elim (hinner l' hl') fun hpending => ?_⟩
  have hname := h.pending_isName ht (List.mem_of_mem_take hl') hpending
  exact hx.elim hname.1 hname.2

/-- Of the scopes around code in a member of instances, those of `this` and `super`. -/
theorem Placed.nearest_hidden (ht : Stmt.TidyAll program) (h : Placed program code σ)
    {inner rest : List Origin} {f : FunctionDecl} (hinner : ∀ o ∈ inner, o.IsPlain)
    (ho : σ.map (·.origin) = inner ++ .this f :: rest) :
    (∃ l, Layer.Nearest "this" σ inner.length l ∧ l.origin = .this f ∧ "this" ∈ l.names) ∧
      ∀ decl rest', rest = .super decl :: rest' → ∃ l,
        Layer.Nearest "super" σ (inner.length + 1) l ∧ l.origin = .super decl ∧
          "super" ∈ l.names := by
  have hhides := h.hides ht
  constructor
  · obtain ⟨l, hl, hlo, hplain⟩ := Layer.of_map_origin ho
    have hmem := (hhides l (List.mem_of_getElem? hl)).this.2 ⟨f, hlo⟩
    refine ⟨l, h.nearest (.inl rfl) ht hl hmem fun l' hl' hin => ?_, hlo, hmem⟩
    obtain ⟨f', hf'⟩ := (hhides l' (List.mem_of_mem_take hl')).this.1 hin
    have hp := hinner _ (hplain l' hl')
    rw [hf'] at hp
    exact hp
  · rintro decl rest' rfl
    have ho' : σ.map (·.origin) = (inner ++ [.this f]) ++ .super decl :: rest' := by
      rw [ho, List.append_assoc]
      rfl
    obtain ⟨l, hl, hlo, hplain⟩ := Layer.of_map_origin ho'
    rw [List.length_append, List.length_singleton] at hl hplain
    have hmem := (hhides l (List.mem_of_getElem? hl)).super.2 ⟨decl, hlo⟩
    refine ⟨l, h.nearest (.inr rfl) ht hl hmem fun l' hl' hin => ?_, hlo, hmem⟩
    obtain ⟨decl', hd'⟩ := (hhides l' (List.mem_of_mem_take hl')).super.1 hin
    rcases List.mem_append.1 (hplain l' hl') with hp | hp
    · have hp := hinner _ hp
      rw [hd'] at hp
      exact hp
    · rw [hd'] at hp
      simp at hp

end

/-- All scopes of a chain but the last are inside others. -/
theorem Chain.parent_isSome {ss : Scopes} {L : List Event} {g s d t : Nat} {σ : List Layer}
    (h : Chain ss L g s σ) (hd : d < σ.length) (ht : ss.ancestor? s d = some t) :
    (ss.parent? t).isSome := by
  induction h generalizing d with
  | root => simp at hd
  | @layer s p l σ _ hp _ _ _ _ ih =>
    cases d with
    | zero =>
      obtain rfl : s = t := Option.some.inj ht
      rw [hp]
      rfl
    | succ d =>
      have ht : ss.ancestor? p d = some t := by simpa [Scopes.ancestor?, hp] using ht
      exact ih (Nat.lt_of_succ_lt_succ hd) ht

/-! ### Classes and those above them -/

/-- The lineage of a class goes on with that of its superclass, which is an earlier class. -/
theorem Classes.lineage_eq {cs : Classes} {c : Nat} {k : Class}
    (hup : ∀ (c : Nat) k c', cs.cells[c]? = some k → k.superclass = some c' → c' < c)
    (hk : cs.cells[c]? = some k) : cs.lineage c = k :: k.superclass.elim [] cs.lineage := by
  have hstable : ∀ n m c, c < n → c < m → cs.lineageWithin n c = cs.lineageWithin m c := by
    intro n
    induction n with
    | zero => simp
    | succ n ih =>
      intro m c hn hm
      obtain ⟨m, rfl⟩ := Nat.exists_eq_add_of_lt (Nat.zero_lt_of_lt hm)
      rw [Nat.zero_add] at hm ⊢
      rw [lineageWithin, lineageWithin]
      cases hk : cs.cells[c]? with
      | none => rfl
      | some k =>
        cases hs : k.superclass with
        | none => simp [hs]
        | some c' =>
          have hlt := hup c k c' hk hs
          simp only [hs]
          rw [ih m c' (by omega) (by omega)]
  rw [lineage, lineageWithin, hk]
  cases hs : k.superclass with
  | none => simp [hs]
  | some c' =>
    have hlt := hup c k c' hk hs
    simp [hs, lineage, hstable c (c' + 1) c' hlt (Nat.lt_succ_self c')]

/-- A superclass was made before the class. -/
theorem AlignedStore.superclass_lt {h : Heap} {L : List Event} (hg : AlignedStore h L)
    {c c' : Nat} {k : Class} (hk : h.classes.cells[c]? = some k) (hs : k.superclass = some c') :
    c' < c := by
  obtain ⟨decl, sup, s, hb⟩ := hg.classed c k hk
  obtain ⟨hmade, k', hk', hof⟩ := hg.built c decl sup s hb
  obtain rfl := Option.some.inj (hk.symm.trans hk')
  exact (hmade.above c' (hof.superclass ▸ hs)).1

/-- The classes from `c` on upwards. -/
inductive Classes.Lineage (cs : Classes) : Nat → List Class → Prop where
  | top {c : Nat} {k : Class} (hk : cs.cells[c]? = some k) (hs : k.superclass = none) :
      Lineage cs c [k]
  | under {c c' : Nat} {k : Class} {ks : List Class} (hk : cs.cells[c]? = some k)
      (hs : k.superclass = some c') (h : Lineage cs c' ks) : Lineage cs c (k :: ks)

namespace Classes.Lineage

variable {h : Heap} {L : List Event} {c : Nat} {ks : List Class}

theorem eq (hks : h.classes.Lineage c ks) (hg : AlignedStore h L) : h.classes.lineage c = ks := by
  have hup : ∀ (c : Nat) k c', h.classes.cells[c]? = some k → k.superclass = some c' → c' < c :=
    fun c k c' hk hs => hg.superclass_lt hk hs
  induction hks with
  | top hk hs => rw [Classes.lineage_eq hup hk, hs, Option.elim_none]
  | under hk hs _ ih => rw [Classes.lineage_eq hup hk, hs, Option.elim_some, ih]

theorem cell (hks : h.classes.Lineage c ks) {k : Class} (hk : k ∈ ks) :
    ∃ c' : Nat, h.classes.cells[c']? = some k := by
  induction hks with
  | @top c k' hk' =>
    obtain rfl := List.mem_singleton.1 hk
    exact ⟨c, hk'⟩
  | @under c c' k' ks hk' _ _ ih =>
    rcases List.mem_cons.1 hk with rfl | hk
    · exact ⟨c, hk'⟩
    · exact ih hk

/-- The first of them is the class itself. -/
theorem cells (hks : h.classes.Lineage c ks) : h.classes.cells[c]? = ks.head? := by
  cases hks with
  | top hk | under hk => rw [hk, List.head?_cons]

end Classes.Lineage

/-- Upwards from a class that was made there is always an end. -/
theorem AlignedStore.exists_lineage {h : Heap} {L : List Event} (hg : AlignedStore h L) {c : Nat}
    (hc : Built L c) : ∃ ks, h.classes.Lineage c ks := by
  -- By induction on the number of the class, which is greater than that of its superclass.
  induction c using Nat.strong_induction_on with
  | _ c ih =>
    obtain ⟨decl, superclass, s, hb⟩ := hc
    obtain ⟨hmade, k, hk, hof⟩ := hg.built c decl superclass s hb
    cases hs : superclass with
    | none => exact ⟨[k], .top hk (hof.superclass.trans hs)⟩
    | some c' =>
      obtain ⟨hlt, hc', -⟩ := hmade.above c' hs
      obtain ⟨ks, hks⟩ := ih c' hlt hc'
      exact ⟨k :: ks, .under hk (hof.superclass.trans hs) hks⟩

/-- In the state `m`, the closure is the method `f₀` with `this` bound to the instance `i`. -/
structure Closure.BoundIn (m : Machine) (f f₀ : Closure) (i : Nat) : Prop where
  decl : f.decl = f₀.decl
  parent : m.heap.scopes.parent? f.scope = some f₀.scope
  this : m.heap.scopes.here? f.scope "this" = some (.inst i)

/-! ### Receivers -/

/-- In a member of the instances of a class, `this` is the instance `i`, `d` scopes out. -/
structure Receiver (m : Machine) (program : List Stmt) (σ : List Layer) (decl : ClassDecl)
    (d i : Nat) : Prop where
  member : ∃ f l outer, Placed program (.stmt (.cls decl)) outer ∧ f ∈ decl.ofInstances ∧
    Layer.Nearest "this" σ d l ∧ l.origin = .this f
  held : m.heap.scopes.getAt? m.scope d "this" = some (.inst i)

/-- The next scope out of that of `this` holds the class `c`, which the superclass clause of the
class meant when this scope was made for it. -/
structure Superclass (B : List Event) (m : Machine) (σ : List Layer) (decl : ClassDecl)
    (d c : Nat) : Prop where
  near : ∃ l, Layer.Nearest "super" σ (d + 1) l ∧ l.origin = .super decl
  held : ∃ t, m.heap.scopes.ancestor? m.scope (d + 1) = some t ∧
    m.heap.scopes.here? t "super" = some (.callable (.cls c)) ∧ MadeFor B t decl c

namespace Eval

/-- A method that is looked up from the class `c` on, bound to the instance `i`. -/
def methodFrom (c i : Nat) (method : Token) : Eval Value := do
  if method.lexeme == initName then return .callable (← initializerOf c i)
  else
    let f ← demand method (.undefinedProperty method.lexeme)
      ((← get).heap.classes.method? c method.lexeme)
    return .callable (.function (← bindThis f i))

variable {m : Machine}

theorem superMethod_eq {ref : Ref} {c d i : Nat} (hd : m.bindings[ref.id]? = some (d + 1))
    (hsuper : m.heap.scopes.getAt? m.scope (d + 1) ref.name.lexeme = some (.callable (.cls c)))
    (hthis : m.heap.scopes.getAt? m.scope d "this" = some (.inst i)) (method : Token) :
    superMethod ref method m = methodFrom c i method m := by
  rw [superMethod, get_bind, hd]
  dsimp only
  rw [hsuper, hthis, methodFrom]
  simp only [demand, pure_bind]
  split
  · rfl
  · rfl

/-- What comes of looking up a method from the class `c` on and binding it to the instance `i`,
where `ks` are this class and those above it. The method is that of the first of them that has one,
and if none has then nothing is changed. What is called `init` is the method of `c` itself or else
all that initializes an instance of `c`. -/
inductive Finds (m : Machine) (c i : Nat) (ks : List Class) (name : Token) :
    EStateM.Result Stop Machine Value → Prop where
  | method {below above : List Class} {k : Class} {f f' : Closure} {m' : Machine}
      (hks : ks = below ++ k :: above)
      (hbelow : ∀ k' ∈ below, k'.methods.get? name.lexeme = none)
      (hf : k.methods.get? name.lexeme = some f) (hinit : name.lexeme = initName → below = [])
      (hb : f'.BoundIn m' f i) : Finds m c i ks name (.ok (.callable (.function f')) m')
  | initializer {k : Class} {id : Nat} {m' : Machine} (hname : name.lexeme = initName)
      (hk : ks.head? = some k) (hown : k.methods.get? initName = none) :
      Finds m c i ks name (.ok (.callable (.initializer id c i)) m')
  | missing (hname : name.lexeme ≠ initName)
      (hnone : ∀ k ∈ ks, k.methods.get? name.lexeme = none) :
      Finds m c i ks name
        (.error (.fault (.ofToken name (.undefinedProperty name.lexeme))) m)

/-- Only that there is no such method can go wrong. -/
theorem Finds.error {c i : Nat} {ks : List Class} {name : Token} {e : Stop} {m' : Machine}
    (h : Finds m c i ks name (.error e m')) :
    e = .fault (.ofToken name (.undefinedProperty name.lexeme)) := by
  cases h
  rfl

theorem bindThis_boundIn (f : Closure) (i : Nat) :
    ∃ f' m', bindThis f i m = .ok f' m' ∧ f'.BoundIn m' f i := by
  refine ⟨_, _, rfl, rfl, ?_, ?_⟩
  · simp [Scopes.parent?, Scopes.define, Scopes.addChild, Scopes.next, Array.getElem_modify]
  · simp [Scopes.here?, Scopes.define, Scopes.addChild, Scopes.next, Array.getElem_modify]

section

variable {c i : Nat} {ks : List Class} {name : Token}

/-- The name `init` is looked up in the first class only. -/
theorem initializerOf_finds (hks : m.heap.classes.Lineage c ks) (hname : name.lexeme = initName) :
    Finds m c i ks name ((do return .callable (← initializerOf c i) : Eval Value) m) := by
  obtain ⟨k, rest, rfl⟩ : ∃ k rest, ks = k :: rest := by
    cases hks with
    | top | under => exact ⟨_, _, rfl⟩
  have hcell : m.heap.classes.cells[c]? = some k := hks.cells
  cases hinit : k.methods.get? initName with
  | some f =>
    obtain ⟨f', m', hrun, hb⟩ := bindThis_boundIn (m := m) f i
    have hown : initializerOf c i m = .ok (.function f') m' := by
      rw [initializerOf, get_bind, hcell, Option.bind_some, Class.init?, hinit]
      exact bind_of_ok hrun
    rw [bind_of_ok hown]
    exact .method (List.nil_append (k :: rest)).symm (by simp) (hname ▸ hinit) (fun _ => rfl) hb
  | none =>
    have hown : initializerOf c i m = .ok (.initializer m.heap.nextId c i)
        { m with heap.nextId := m.heap.nextId + 1 } := by
      rw [initializerOf, get_bind, hcell, Option.bind_some, Class.init?, hinit]
      rfl
    rw [bind_of_ok hown]
    exact .initializer hname rfl hinit

theorem methodFrom_finds {L : List Event} (hg : AlignedStore m.heap L)
    (hks : m.heap.classes.Lineage c ks) (name : Token) :
    Finds m c i ks name (methodFrom c i name m) := by
  unfold methodFrom
  by_cases hname : name.lexeme = initName
  · rw [if_pos (beq_iff_eq.2 hname)]
    exact initializerOf_finds hks hname
  · rw [if_neg (by simpa using hname), get_bind, Classes.method?, hks.eq hg]
    cases hf : ks.findSome? (·.methods.get? name.lexeme) with
    | some f =>
      obtain ⟨below, k, above, heq, hf', hbelow⟩ := List.findSome?_eq_some_iff.1 hf
      obtain ⟨f', m', hrun, hb⟩ := bindThis_boundIn (m := m) f i
      rw [demand, pure_bind, bind_of_ok hrun]
      exact .method heq hbelow hf' (fun h => absurd h hname) hb
    | none => exact .missing hname (by simpa using hf)

end

end Eval

section

variable {y : Logged Event Session} {B : List Event} {m : Machine} {path : Option Path} {g : Nat}
  {program : List Stmt} {σ : List Layer} {u : Use} {ref : Ref} {late : Option Path}

/-- What a hidden name of a scope around the place is. -/
theorem Inv.hidden (h : Inv late y) (hB : (.reached (.use u ref) m :: B) <:+ y.log)
    (hs : Stands B m path g program (.use u ref) σ) {x : String} {d : Nat} {l : Layer}
    (hl : σ[d]? = some l) (hx : x ∈ l.names) :
    ∃ t v, m.heap.scopes.ancestor? m.scope d = some t ∧ m.heap.scopes.here? t x = some v ∧
      .made t l.origin ∈ B ∧ HiddenValue B t x v := by
  obtain ⟨t, ht, hmade, hheld⟩ := hs.chain.ancestor? hl
  obtain ⟨v, hv⟩ := Option.isSome_iff_exists.1 (hheld x hx)
  have hd : d < σ.length := (List.getElem?_eq_some_iff.1 hl).1
  have hparent := hs.chain.parent_isSome hd ht
  exact ⟨t, v, ht, hv, hmade, (h.aligned.before _ m B hB).hidden t x v hparent hv⟩

theorem Inv.receiver (h : Inv late y) (hB : (.reached (.use u ref) m :: B) <:+ y.log)
    (hs : Stands B m path g program (.use u ref) σ) {inner rest : List Origin} {decl : ClassDecl}
    {f : FunctionDecl} {outer : List Layer} (hinner : ∀ o ∈ inner, o.IsPlain)
    (ho : σ.map (·.origin) = inner ++ .this f :: rest)
    (hdecl : Placed program (.stmt (.cls decl)) outer) (hf : f ∈ decl.ofInstances) :
    ∃ i, Receiver m program σ decl inner.length i := by
  have hp := h.started ((List.suffix_cons ..).trans hB) hs.began
  obtain ⟨⟨l, hnear, hlo, hmem⟩, -⟩ := hs.placed.nearest_hidden hp.tidy hinner ho
  obtain ⟨t, v, ht, hv, -, hhidden⟩ := h.hidden hB hs hnear.here hmem
  obtain ⟨i, rfl⟩ := hhidden.this rfl
  refine ⟨i, ⟨f, l, outer, hdecl, hf, hnear, hlo⟩, ?_⟩
  rw [Scopes.getAt?, ht]
  exact hv

theorem Inv.superclass (h : Inv late y) (hB : (.reached (.use u ref) m :: B) <:+ y.log)
    (hs : Stands B m path g program (.use u ref) σ) {inner rest : List Origin} {decl : ClassDecl}
    {f : FunctionDecl} (hinner : ∀ o ∈ inner, o.IsPlain)
    (ho : σ.map (·.origin) = inner ++ .this f :: .super decl :: rest) :
    ∃ c, Superclass B m σ decl inner.length c := by
  have hB' : B <:+ y.log := (List.suffix_cons ..).trans hB
  have hp := h.started hB' hs.began
  obtain ⟨l, hnear, hlo, hmem⟩ := (hs.placed.nearest_hidden hp.tidy hinner ho).2 decl rest rfl
  obtain ⟨t, v, ht, hv, hmade, hhidden⟩ := h.hidden hB hs hnear.here hmem
  obtain ⟨decl', c, rfl, hfor⟩ := hhidden.super rfl
  -- The scope was made once, so it was for this class that it was made.
  have hmade' : .made t (.super decl') ∈ B := by
    obtain ⟨_, _, _, -, hsuffix, -⟩ := hfor
    exact hsuffix.subset (List.mem_cons_self ..)
  have he := h.madeOnce hB' hmade hmade'
  rw [hlo] at he
  injection he with he
  exact ⟨c, ⟨l, hnear, hlo⟩, t, ht, hv, he ▸ hfor⟩

end

/-- In a session with one interpreter and without imports, `this` always means an instance, and
`super` a method of the superclass that the class around it was declared with, or of the nearest one
above that has it, bound to that same instance. Nothing can go wrong with them but that there is no
such method. -/
theorem this_super_lexical (s : Setup) (n : Nat) (ts : List Step) (hts : ∀ t ∈ ts, t.isLocal)
    (hfree : NoImports (s.events n (.newInterpreter :: ts))) :
    Traced.erase (s.logged n (.newInterpreter :: ts)) = s.run n (.newInterpreter :: ts) ∧
      (∀ ref m B, (.reached (.use .this ref) m :: B) <:+ s.events n (.newInterpreter :: ts) →
        ∃ path g program σ decl d i, Stands B m path g program (.use .this ref) σ ∧
          Accepted program ∧ Receiver m program σ decl d i ∧
          Eval.lookUp ref m = .ok (.inst i) m) ∧
      ∀ ref m B, (.reached (.use .super ref) m :: B) <:+ s.events n (.newInterpreter :: ts) →
        ∃ path g program σ decl d i c, Stands B m path g program (.use .super ref) σ ∧
          Accepted program ∧ Receiver m program σ decl d i ∧ Superclass B m σ decl d c ∧
          (∃ ks, m.heap.classes.Lineage c ks ∧
            ∀ method, Eval.Finds m c i ks method (Eval.superMethod ref method m)) ∧
          ∀ method, Eval.superMethod ref method m = Eval.methodFrom c i method m ∧
            ∀ e m', Eval.superMethod ref method m = .error e m' →
              e = .fault (.ofToken method (.undefinedProperty method.lexeme)) := by
  have hinv := s.inv n (.newInterpreter :: ts)
  refine ⟨s.erase_logged n _, fun ref m B hB => ?_, fun ref m B hB => ?_⟩
  · obtain ⟨path, g, program, σ, hs, hok, hk⟩ := s.stands n hts hfree hB
    have hp := hinv.started ((List.suffix_cons ..).trans hB) hs.began
    obtain ⟨p, ⟨hcls, hstatic⟩, haround⟩ := hs.placed.lawful hok.lawful
    obtain ⟨kind, hkind⟩ := Option.isSome_iff_exists.1 hcls
    rw [Standing.Around, hkind, hstatic] at haround
    obtain ⟨inner, decl, f, outer, ho, hinner, hdecl, hf, -⟩ := haround
    obtain ⟨i, hr⟩ := hinv.receiver hB hs hinner ho hdecl hf
    refine ⟨path, g, program, σ, decl, inner.length, i, hs, hok, hr, ?_⟩
    obtain ⟨_, _, _, -, -, hnear, -⟩ := hr.member
    have hname : ref.name.lexeme = "this" := hs.placed.tidy hp.tidy
    have hd := hinv.getElem?_eq_distance? hB hs hk
    rw [hname, hnear.distance?] at hd
    rw [Eval.lookUp_of_some hd, hname, hr.held]
    rfl
  · obtain ⟨path, g, program, σ, hs, hok, hk⟩ := s.stands n hts hfree hB
    have hp := hinv.started ((List.suffix_cons ..).trans hB) hs.began
    obtain ⟨p, ⟨hcls, hstatic⟩, haround⟩ := hs.placed.lawful hok.lawful
    rw [Standing.Around, hcls, hstatic] at haround
    obtain ⟨inner, decl, f, outer, ho, hinner, hdecl, hf, hderived⟩ := haround
    have ho' : σ.map (·.origin) = inner ++ .this f :: .super decl :: outer.map (·.origin) := by
      rw [ho, ClassDecl.around, if_pos (hderived.1 rfl)]
      simp
    obtain ⟨i, hr⟩ := hinv.receiver hB hs hinner ho hdecl hf
    obtain ⟨c, hc⟩ := hinv.superclass hB hs hinner ho'
    obtain ⟨_, hnear, -⟩ := hc.near
    obtain ⟨t, ht, hheld, -⟩ := hc.held
    have hname : ref.name.lexeme = "super" := hs.placed.tidy hp.tidy
    have hd := hinv.getElem?_eq_distance? hB hs hk
    rw [hname, hnear.distance?] at hd
    have hsuper : m.heap.scopes.getAt? m.scope (inner.length + 1) ref.name.lexeme =
        some (.callable (.cls c)) := by
      rw [Scopes.getAt?, ht, hname]
      exact hheld
    have heq := Eval.superMethod_eq hd hsuper hr.held
    have haligned := hinv.aligned.before _ m B hB
    obtain ⟨ks, hks⟩ := haligned.exists_lineage (haligned.vars t _ _ hheld)
    have hfinds : ∀ method, Eval.Finds m c i ks method (Eval.superMethod ref method m) := by
      intro method
      rw [heq method]
      exact Eval.methodFrom_finds haligned hks method
    exact ⟨path, g, program, σ, decl, inner.length, i, c, hs, hok, hr, hc, ⟨ks, hks, hfinds⟩,
      fun method => ⟨heq method, fun e m' he => (he ▸ hfinds method).error⟩⟩

/-- A class between two others that have the same method, and an instance of the lowest. -/
def superSteps : List Step :=
  [.runSource 0 none ("class A \x7b m() \x7b return 1; \x7d \x7d " ++
    "class B < A \x7b k() \x7b fun g() \x7b return super.m(); \x7d return g(); \x7d \x7d " ++
    "class C < B \x7b m() \x7b return 2; \x7d \x7d print C().k();")]

/-- The name after `super`. -/
def superName : Token := ⟨.identifier "m", "m", ⟨1, 74⟩, none⟩

/-- Of a method that was found: where its name is declared, and the class of the instance that it is
bound to. -/
def Eval.found? : EStateM.Result Stop Machine Value → Option (Pos × String)
  | .ok (.callable (.function f)) m =>
    match m.heap.scopes.here? f.scope "this" with
    | some (.inst i) => (m.heap.instances[i]?.bind fun inst => m.heap.classes.cells[inst.cls]?).map
      fun k => (f.decl.name.pos, k.name)
    | _ => none
  | _ => none

/-- The function inside of the method comes to `super` for an instance of the class `C`, and finds
the method of the class `A`, which is declared first, and not that of `C`. -/
theorem this_super_lexical_nested :
    (∀ t ∈ superSteps, t.isLocal) ∧
      NoImports (Setup.events { root := "/" } 60 (.newInterpreter :: superSteps)) ∧
      ∃ ref m B path g program σ decl d i c ks f f' m',
        (.reached (.use .super ref) m :: B) <:+
          Setup.events { root := "/" } 60 (.newInterpreter :: superSteps) ∧
        Stands B m path g program (.use .super ref) σ ∧ Receiver m program σ decl d i ∧
        Superclass B m σ decl d c ∧ m.heap.classes.Lineage c ks ∧
        (∀ method, Eval.superMethod ref method m = Eval.methodFrom c i method m) ∧
        (∃ k ∈ ks, k.methods.get? "m" = some f) ∧ f.decl.name.pos = ⟨1, 11⟩ ∧
        Eval.superMethod ref superName m =
          .ok (.callable (.function f')) m' ∧ f'.BoundIn m' f i ∧
        (m'.heap.instances[i]?.bind fun inst => m'.heap.classes.cells[inst.cls]?).map (·.name) =
          some "C" := by
  have hts : ∀ t ∈ superSteps, t.isLocal := by decide
  have hfree : NoImports (Setup.events { root := "/" } 60 (.newInterpreter :: superSteps)) := by
    decide +kernel
  obtain ⟨u, ref, m, B, hB, rfl, hfound⟩ := exists_reached_use
    (L := Setup.events { root := "/" } 60 (.newInterpreter :: superSteps))
    (p := fun u ref m => u = .super ∧
      Eval.found? (Eval.superMethod ref superName m) =
        some (⟨1, 11⟩, "C")) (by decide +kernel)
  obtain ⟨path, g, program, σ, decl, d, i, c, hs, -, hr, hc, ⟨ks, hks, hfinds⟩, heq⟩ :=
    (this_super_lexical { root := "/" } 60 superSteps hts hfree).2.2 ref m B hB
  have hfind := hfinds superName
  generalize hr' : Eval.superMethod ref superName m = r at hfound hfind
  cases hfind with
  | @method below above k f f' m' hsplit _ hf _ hb =>
    simp only [Eval.found?, hb.this, Option.map_eq_some_iff, Prod.mk.injEq] at hfound
    obtain ⟨kc, hkc, hpos, hname⟩ := hfound
    have hk : k ∈ ks := hsplit ▸ List.mem_append_right _ (List.mem_cons_self ..)
    refine ⟨hts, hfree, ref, m, B, path, g, program, σ, decl, d, i, c, ks, f, f', m', hB, hs, hr,
      hc, hks, fun method => (heq method).1, ⟨k, hk, hf⟩, hb.decl ▸ hpos, hr', hb, ?_⟩
    rw [hkc, Option.map_some, hname]
  | initializer hname => exact absurd hname (by decide)
  | missing => simp [Eval.found?] at hfound

end Treewalk
