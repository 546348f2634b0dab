import Treewalk.Proofs.Addressing
import Treewalk.Proofs.Construction

/-!
# Static members are written locally and read along the superclasses

A static member is looked for in a class, then in its superclass, and so on; to set a static field
changes the table of one class. `static_writes_local` says for any number of writes what is read
from which class afterwards: a write is seen from its class and from the classes below it, down to
those under one that has a member of the name itself. The classes above it and beside it never see
it.
-/

namespace Treewalk

theorem Class.ownStatic?_insert (k : Class) (n x : String) (v : Value) :
    { k with statics := k.statics.insert n v }.ownStatic? x =
      if x = n then some v else k.ownStatic? x := by
  by_cases h : n = x <;> simp [Class.ownStatic?, h, eq_comm (a := x)]

namespace Classes

/-- A superclass was made before the class. -/
def Forest (cs : Classes) : Prop :=
  ∀ (c : Nat) k c', cs.cells[c]? = some k → k.superclass = some c' → c' < c

/-- The class `b` is `i` superclasses up from `c`. -/
inductive Above (cs : Classes) : Nat → Nat → Nat → Prop where
  | self {c : Nat} {k : Class} (hk : cs.cells[c]? = some k) : Above cs c 0 c
  | super {c c' i b : Nat} {k : Class} (hk : cs.cells[c]? = some k) (hs : k.superclass = some c')
      (h : Above cs c' i b) : Above cs c (i + 1) b

/-- The class `c` itself has a static field or a static method `x`. -/
def Defines (cs : Classes) (c : Nat) (x : String) : Prop :=
  ∃ k, cs.cells[c]? = some k ∧ ((k.statics.get? x).isSome ∨ (k.staticMethods.get? x).isSome)

/-- From `d` upwards, `c` comes before all other classes that have a static member `x`. -/
def Sees (cs : Classes) (d : Nat) (x : String) (c : Nat) : Prop :=
  ∃ i, Above cs d i c ∧ ∀ j < i, ∀ b, Above cs d j b → ¬ cs.Defines b x

/-- The static member that the class `c` itself has. -/
def own? (cs : Classes) (c : Nat) (x : String) : Option Value :=
  cs.cells[c]?.bind (·.ownStatic? x)

variable {cs cs' : Classes} {b c d i j : Nat} {x n : String} {v w : Value}

/-! ### Lookups -/

theorem own?_eq_none_iff : cs.own? c x = none ↔ ¬ cs.Defines c x := by
  rw [own?, Defines]
  cases hk : cs.cells[c]? with
  | none => simp
  | some k => cases hx : k.statics.get? x <;> simp [Class.ownStatic?, hx]

theorem Forest.le (hf : cs.Forest) (h : Above cs d i b) : b + i ≤ d := by
  induction h with
  | self => exact Nat.le_refl _
  | super hk hs _ ih =>
    have := hf _ _ _ hk hs
    omega

/-- A class comes once in the line of another. -/
theorem Forest.index_unique (hf : cs.Forest) (h : Above cs d i b) (h' : Above cs d j b) :
    i = j := by
  induction h generalizing j with
  | self =>
    have := hf.le h'
    omega
  | super hk hs h ih =>
    cases h' with
    | self =>
      have := hf.le h
      have := hf _ _ _ hk hs
      omega
    | super hk' hs' h' =>
      obtain rfl := Option.some.inj (hk.symm.trans hk')
      obtain rfl := Option.some.inj (hs.symm.trans hs')
      rw [ih h']

theorem Forest.static?_eq (hf : cs.Forest) {k : Class} (hk : cs.cells[d]? = some k) :
    cs.static? d x = (k.ownStatic? x).or (k.superclass.bind (cs.static? · x)) := by
  rw [static?, lineage_eq hf hk, List.findSome?_cons]
  cases k.ownStatic? x with
  | some v => rfl
  | none => cases k.superclass <;> rfl

theorem static?_of_none (hd : cs.cells[d]? = none) : cs.static? d x = none := by
  rw [static?, lineage, lineageWithin, hd]
  rfl

/-- What is read is the member of the nearest class that has one. -/
theorem Forest.static?_eq_some_iff (hf : cs.Forest) :
    cs.static? d x = some v ↔
      ∃ i b, Above cs d i b ∧ cs.own? b x = some v ∧
        ∀ j < i, ∀ b', Above cs d j b' → cs.own? b' x = none := by
  induction d using Nat.strongRecOn with
  | ind d ih =>
    cases hk : cs.cells[d]? with
    | none =>
      rw [static?_of_none hk]
      refine ⟨fun h => Option.noConfusion rfl (heq_of_eq h), ?_⟩
      rintro ⟨i, b, hb, -, -⟩
      cases hb with
      | self hk' => cases hk.symm.trans hk'
      | super hk' => cases hk.symm.trans hk'
    | some k =>
      have hown : cs.own? d x = k.ownStatic? x := by rw [own?, hk, Option.bind_some]
      rw [hf.static?_eq hk, ← hown]
      cases hv : cs.own? d x with
      | some w =>
        rw [Option.some_or]
        constructor
        · rintro ⟨⟩
          exact ⟨0, d, .self hk, hv, fun j hj => absurd hj (Nat.not_lt_zero j)⟩
        · rintro ⟨i, b, hb, hw, hnearer⟩
          cases hb with
          | self => exact hv.symm.trans hw
          | super =>
            have := hnearer 0 (Nat.succ_pos _) d (.self hk)
            cases hv.symm.trans this
      | none =>
        rw [Option.none_or, Option.bind_eq_some_iff]
        constructor
        · rintro ⟨s, hs, hw⟩
          obtain ⟨i, b, hb, hw, hnearer⟩ := (ih s (hf d k s hk hs)).1 hw
          refine ⟨i + 1, b, .super hk hs hb, hw, fun j hj b' hb' => ?_⟩
          cases hb' with
          | self => exact hv
          | super hk' hs' hb' =>
            obtain rfl := Option.some.inj (hk.symm.trans hk')
            obtain rfl := Option.some.inj (hs.symm.trans hs')
            exact hnearer _ (Nat.lt_of_succ_lt_succ hj) b' hb'
        · rintro ⟨i, b, hb, hw, hnearer⟩
          cases hb with
          | self => cases hv.symm.trans hw
          | super hk' hs hb =>
            obtain rfl := Option.some.inj (hk.symm.trans hk')
            refine ⟨_, hs, (ih _ (hf d k _ hk hs)).2 ⟨_, b, hb, hw, fun j hj b' hb' => ?_⟩⟩
            exact hnearer (j + 1) (Nat.succ_lt_succ hj) b' (.super hk hs hb')

/-- A static field goes before the static method of the class and before all that is inherited. -/
theorem Forest.static?_of_field (hf : cs.Forest) {k : Class} (hk : cs.cells[d]? = some k)
    (hv : k.statics.get? x = some v) : cs.static? d x = some v := by
  rw [hf.static?_eq hk, Class.ownStatic?, hv, Option.some_or]

/-! ### One write -/

theorem getElem?_setStatic :
    (cs.setStatic c n v).cells[d]? =
      cs.cells[d]?.map fun k =>
        if c = d then { k with statics := k.statics.insert n v } else k := by
  rw [setStatic, Array.getElem?_modify]
  by_cases h : c = d <;> simp [h]

/-- A write keeps the classes, each with its superclass. -/
theorem superclass_setStatic :
    (cs.setStatic c n v).cells[d]?.map (·.superclass) = cs.cells[d]?.map (·.superclass) := by
  rw [getElem?_setStatic, Option.map_map]
  congr 1
  funext k
  by_cases h : c = d <;> simp [h]

theorem Above.of_superclasses
    (h : ∀ d : Nat, cs'.cells[d]?.map (·.superclass) = cs.cells[d]?.map (·.superclass))
    (ha : Above cs d i b) : Above cs' d i b := by
  induction ha with
  | @self d k hk =>
    have := h d
    rw [hk] at this
    obtain ⟨k', hk', -⟩ := Option.map_eq_some_iff.1 this
    exact .self hk'
  | @super d s i b k hk hs _ ih =>
    have := h d
    rw [hk] at this
    obtain ⟨k', hk', hs'⟩ := Option.map_eq_some_iff.1 this
    exact .super hk' (hs'.trans hs) ih

theorem above_setStatic : Above (cs.setStatic c n v) d i b ↔ Above cs d i b :=
  ⟨.of_superclasses fun _ => superclass_setStatic.symm,
    .of_superclasses fun _ => superclass_setStatic⟩

theorem Forest.setStatic (hf : cs.Forest) : (cs.setStatic c n v).Forest := by
  intro d k s hk hs
  have hsame : (cs.setStatic c n v).cells[d]?.map (·.superclass) =
      cs.cells[d]?.map (·.superclass) := superclass_setStatic
  rw [hk] at hsame
  obtain ⟨k', hk', hs'⟩ := Option.map_eq_some_iff.1 hsame.symm
  exact hf d k' s hk' (hs'.trans hs)

theorem own?_setStatic {m : String} :
    (cs.setStatic c n v).own? b m =
      cs.cells[b]?.bind fun k => if c = b ∧ m = n then some v else k.ownStatic? m := by
  rw [own?, getElem?_setStatic, Option.bind_map]
  congr 1
  funext k
  by_cases h : c = b <;> simp [h, Class.ownStatic?_insert]

theorem own?_setStatic_of_ne {m : String} (h : ¬ (c = b ∧ m = n)) :
    (cs.setStatic c n v).own? b m = cs.own? b m := by
  rw [own?_setStatic, own?]
  simp only [if_neg h]

theorem own?_setStatic_self {k : Class} (hk : cs.cells[c]? = some k) :
    (cs.setStatic c n v).own? c n = some v := by
  rw [own?_setStatic, hk, Option.bind_some, if_pos ⟨rfl, rfl⟩]

/-- A write adds a member at most. -/
theorem own?_of_setStatic {m : String} (h : (cs.setStatic c n v).own? b m = none) :
    cs.own? b m = none := by
  rw [own?_setStatic] at h
  rw [own?]
  cases hk : cs.cells[b]? with
  | none => rfl
  | some k =>
    rw [hk, Option.bind_some] at h
    split at h
    · cases h
    · exact h

theorem Above.exists_cell (h : Above cs d i b) : ∃ k, cs.cells[b]? = some k := by
  induction h with
  | self hk => exact ⟨_, hk⟩
  | super _ _ _ ih => exact ih

theorem Forest.static?_setStatic_of_sees (hf : cs.Forest) (h : cs.Sees d n c) :
    (cs.setStatic c n v).static? d n = some v := by
  obtain ⟨i, hc, hnearer⟩ := h
  obtain ⟨k, hk⟩ := hc.exists_cell
  refine hf.setStatic.static?_eq_some_iff.2
    ⟨i, c, above_setStatic.2 hc, own?_setStatic_self hk, fun j hj b hb => ?_⟩
  have hb := above_setStatic.1 hb
  have hne : c ≠ b := by
    rintro rfl
    exact absurd (hf.index_unique hb hc) (Nat.ne_of_lt hj)
  rw [own?_setStatic_of_ne fun h => hne h.1]
  exact own?_eq_none_iff.2 (hnearer j hj b hb)

theorem Forest.static?_setStatic_of_not_sees (hf : cs.Forest) {m : String}
    (h : ¬ (m = n ∧ cs.Sees d n c)) : (cs.setStatic c n v).static? d m = cs.static? d m := by
  -- The write would be seen from the place of `c`, were there no member before it.
  have hseen : ∀ i, Above cs d i c → (∀ j < i, ∀ b, Above cs d j b → cs.own? b m = none) →
      m ≠ n := by
    rintro i hc hnearer rfl
    exact h ⟨rfl, i, hc, fun j hj b hb => own?_eq_none_iff.1 (hnearer j hj b hb)⟩
  have hsame : ∀ i b, Above cs d i b → (∀ j < i, ∀ b, Above cs d j b → cs.own? b m = none) →
      (cs.setStatic c n v).own? b m = cs.own? b m := by
    intro i b hb hnearer
    refine own?_setStatic_of_ne ?_
    rintro ⟨rfl, hm⟩
    exact hseen i hb hnearer hm
  ext w
  rw [hf.setStatic.static?_eq_some_iff, hf.static?_eq_some_iff]
  constructor
  · rintro ⟨i, b, hb, hw, hnearer⟩
    have hb := above_setStatic.1 hb
    have hnearer : ∀ j < i, ∀ b, Above cs d j b → cs.own? b m = none := fun j hj b hb =>
      own?_of_setStatic (hnearer j hj b (above_setStatic.2 hb))
    exact ⟨i, b, hb, (hsame i b hb hnearer).symm.trans hw, hnearer⟩
  · rintro ⟨i, b, hb, hw, hnearer⟩
    refine ⟨i, b, above_setStatic.2 hb, (hsame i b hb hnearer).trans hw, fun j hj b' hb' => ?_⟩
    have hb' := above_setStatic.1 hb'
    rw [hsame j b' hb' fun j' hj' => hnearer j' (hj'.trans hj)]
    exact hnearer j hj b' hb'

/-- What writing `v` to the static field `n` of `c` does to all reads. -/
structure SetLocally (cs : Classes) (c : Nat) (n : String) (v : Value) : Prop where
  /-- It is read from the classes between which and `c` none has a member of the name. -/
  seen : ∀ d m, m = n → cs.Sees d n c → (cs.setStatic c n v).static? d m = some v
  unseen : ∀ d m, ¬ (m = n ∧ cs.Sees d n c) → (cs.setStatic c n v).static? d m = cs.static? d m
  /-- Of the class itself it hides the method of the name and what is inherited. -/
  self : ∀ k, cs.cells[c]? = some k → (cs.setStatic c n v).static? c n = some v
  superclass : ∀ i d m, Above cs c (i + 1) d → (cs.setStatic c n v).static? d m = cs.static? d m
  sibling : ∀ s d m, d ≠ c → Above cs c 1 s → Above cs d 1 s →
    (cs.setStatic c n v).static? d m = cs.static? d m
  apart : ∀ d m, (∀ i, ¬ Above cs d i c) → (cs.setStatic c n v).static? d m = cs.static? d m

theorem Forest.not_above_of_super (hf : cs.Forest) (h : Above cs c (i + 1) d) (j : Nat) :
    ¬ Above cs d j c := by
  intro h'
  have := hf.le h
  have := hf.le h'
  omega

theorem Forest.not_above_of_sibling (hf : cs.Forest) {s : Nat} (hne : d ≠ c) (hc : Above cs c 1 s)
    (hd : Above cs d 1 s) (j : Nat) : ¬ Above cs d j c := by
  intro h
  cases h with
  | self => exact hne rfl
  | super hk hs h =>
    cases hd with
    | super hk' hs' hd =>
      cases hd with
      | self =>
        obtain rfl := Option.some.inj (hk.symm.trans hk')
        obtain rfl := Option.some.inj (hs.symm.trans hs')
        exact hf.not_above_of_super hc _ h

theorem Forest.setLocally (hf : cs.Forest) (c : Nat) (n : String) (v : Value) :
    cs.SetLocally c n v := by
  have apart : ∀ d m, (∀ i, ¬ Above cs d i c) →
      (cs.setStatic c n v).static? d m = cs.static? d m := by
    intro d m h
    refine hf.static?_setStatic_of_not_sees ?_
    rintro ⟨-, i, hc, -⟩
    exact h i hc
  exact {
    seen := by
      rintro d m rfl h
      exact hf.static?_setStatic_of_sees h
    unseen := fun d m h => hf.static?_setStatic_of_not_sees h
    self := fun k hk => hf.static?_setStatic_of_sees
      ⟨0, .self hk, fun j hj => absurd hj (Nat.not_lt_zero j)⟩
    superclass := fun i d m h => apart d m (hf.not_above_of_super h)
    sibling := fun s d m hne hc hd => apart d m (hf.not_above_of_sibling hne hc hd)
    apart := apart }

end Classes

/-! ### Many writes -/

/-- A write of a static field. -/
structure StaticWrite where
  cls : Nat
  name : String
  value : Value

namespace StaticWrite

/-- The value of the last of the writes to the static field `x` of `c`. -/
def last? (ws : List StaticWrite) (c : Nat) (x : String) : Option Value :=
  ws.reverse.findSome? fun w => if w.cls = c ∧ x = w.name then some w.value else none

theorem last?_cons (w : StaticWrite) (ws : List StaticWrite) (c : Nat) (x : String) :
    last? (w :: ws) c x =
      (last? ws c x).or (if w.cls = c ∧ x = w.name then some w.value else none) := by
  rw [last?, List.reverse_cons, List.findSome?_append, List.findSome?_singleton, last?]

end StaticWrite

namespace Classes

variable {cs : Classes} {b c d i : Nat} {x : String}

/-- Sets static fields one after the other. -/
def setStatics (cs : Classes) (ws : List StaticWrite) : Classes :=
  ws.foldl (fun cs w => cs.setStatic w.cls w.name w.value) cs

theorem setStatics_cons (w : StaticWrite) (ws : List StaticWrite) :
    cs.setStatics (w :: ws) = (cs.setStatic w.cls w.name w.value).setStatics ws :=
  rfl

theorem Forest.setStatics (hf : cs.Forest) (ws : List StaticWrite) :
    (cs.setStatics ws).Forest := by
  induction ws generalizing cs with
  | nil => exact hf
  | cons w ws ih => exact ih hf.setStatic

theorem above_setStatics (ws : List StaticWrite) :
    Above (cs.setStatics ws) d i b ↔ Above cs d i b := by
  induction ws generalizing cs with
  | nil => rfl
  | cons w ws ih => exact ih.trans above_setStatic

/-- A class has the value of the last write to it, or else what it had at first. -/
theorem own?_setStatics (ws : List StaticWrite) :
    (cs.setStatics ws).own? b x =
      cs.cells[b]?.bind fun k => (StaticWrite.last? ws b x).or (k.ownStatic? x) := by
  induction ws generalizing cs with
  | nil => rfl
  | cons w ws ih =>
    rw [setStatics_cons, ih, getElem?_setStatic, Option.bind_map]
    congr 1
    funext k
    rw [StaticWrite.last?_cons, Option.or_assoc]
    by_cases hb : w.cls = b
    · by_cases hx : x = w.name <;> simp [hb, hx, Class.ownStatic?_insert]
    · simp [hb]

end Classes

/-- To read a static member by a running program. -/
theorem Eval.property_cls (d : Nat) (name : Token) (m : Machine) :
    Eval.property (.callable (.cls d)) name m =
      (m.heap.classes.static? d name.lexeme).elim
        (Eval.fault name (.undefinedProperty name.lexeme) m) (.ok · m) := by
  rw [Eval.property, Eval.get_bind]
  cases m.heap.classes.static? d name.lexeme <;> rfl

/-- The classes of a session. -/
theorem Setup.forest (s : Setup) (n : Nat) (ts : List Step) :
    (s.final n ts).state.world.heap.classes.Forest :=
  fun _ _ _ hk hs => (s.inv n ts).aligned.superclass_lt hk hs

namespace Classes

/-- After any writes of static fields: a static member is read from the nearest class of the line
that has one, where its own last write goes before what it had. One more write, `c.n = v`, is read
from just the classes that have no nearer `n` than `c`, and nothing else that is read changes. -/
theorem static_writes_local {cs : Classes} (hf : cs.Forest) (ws : List StaticWrite) :
    (∀ d x v, (cs.setStatics ws).static? d x = some v ↔
      ∃ i b, Above cs d i b ∧ (cs.setStatics ws).own? b x = some v ∧
        ∀ j < i, ∀ b', Above cs d j b' → ¬ (cs.setStatics ws).Defines b' x) ∧
    (∀ b x, (cs.setStatics ws).own? b x =
      cs.cells[b]?.bind fun k => (StaticWrite.last? ws b x).or (k.ownStatic? x)) ∧
    (∀ (d : Nat) k x v, (cs.setStatics ws).cells[d]? = some k → k.statics.get? x = some v →
      (cs.setStatics ws).static? d x = some v) ∧
    (∀ c n v, (cs.setStatics ws).SetLocally c n v) ∧
    (∀ m : Machine, m.heap.classes = cs.setStatics ws →
      (∀ d name, Eval.property (.callable (.cls d)) name m =
        ((cs.setStatics ws).static? d name.lexeme).elim
          (Eval.fault name (.undefinedProperty name.lexeme) m) (.ok · m)) ∧
      ∀ w : StaticWrite, Eval.setProperty (.callable (.cls w.cls)) w.name w.value m =
        .ok () { m with heap.classes := cs.setStatics (ws ++ [w]) }) ∧
    ∀ (s : Setup) n ts, (s.final n ts).state.world.heap.classes.Forest := by
  have hf' := hf.setStatics ws
  refine ⟨fun d x v => ?_, fun b x => own?_setStatics ws, fun d k x v => hf'.static?_of_field,
    hf'.setLocally, ?_, Setup.forest⟩
  · simp only [hf'.static?_eq_some_iff, above_setStatics, own?_eq_none_iff]
  · intro m hm
    refine ⟨fun d name => hm ▸ Eval.property_cls d name m, fun w => ?_⟩
    rw [Eval.setProperty, hm, setStatics, setStatics, List.foldl_append]
    rfl

/-- `Shape` with a static field `count` and a static method `make`, and below it `Circle` and
`Square`. -/
def shapes : Classes :=
  ⟨#[⟨"Shape", none, {}, none, .ofList [("make", default)], .ofList [("count", .bool false)]⟩,
    ⟨"Circle", some 0, {}, none, {}, {}⟩, ⟨"Square", some 0, {}, none, {}, {}⟩]⟩

theorem shapes_forest : shapes.Forest := by
  intro c k c' hk hs
  rcases c with _ | _ | _ | c
  · cases hk
    cases hs
  · cases hk
    cases hs
    exact Nat.zero_lt_one
  · cases hk
    cases hs
    exact Nat.zero_lt_two
  · cases hk

/-- A write to `Circle.count` shows in `Circle` alone, one to `Shape.make` in `Square` too. -/
theorem static_writes_local_shapes :
    (shapes.setStatics [⟨1, "count", .bool true⟩]).static? 0 "count" = some (.bool false) ∧
    (shapes.setStatics [⟨1, "count", .bool true⟩]).static? 1 "count" = some (.bool true) ∧
    (shapes.setStatics [⟨1, "count", .bool true⟩]).static? 2 "count" = some (.bool false) ∧
    ((shapes.setStatics [⟨1, "count", .bool true⟩]).setStatic 0 "make" .nil).static? 2 "make" =
      some .nil := by
  have hlocal :=
    (static_writes_local shapes_forest [⟨1, "count", .bool true⟩]).2.2.2.1 0 "make" .nil
  refine ⟨rfl, rfl, rfl, hlocal.seen 2 "make" rfl ⟨1, .super rfl rfl (.self rfl), ?_⟩⟩
  rintro j hj b hb ⟨k, hk, hmake⟩
  obtain rfl : j = 0 := by omega
  cases hb with
  | self =>
    cases hk
    rcases hmake with hmake | hmake <;> cases hmake

end Classes

end Treewalk
