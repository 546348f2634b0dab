import Mathlib.Data.List.Flatten
import Treewalk.Proofs.Reading
import Treewalk.Proofs.Resolution
import Treewalk.Proofs.Traced

/-!
# What interpreters know

The table of bindings of an interpreter holds distances of references of many programs. `Knows L g
body` tells from the events of a session which: those whose names were bound for the interpreter
itself, and those that a module knew by the time the interpreter imported from it. `TableOk` says
that a table is just that.

References of different texts have different ids (`Texts`), so that no program can be told a wrong
distance: an interpreter has all distances of a program or none.
-/

namespace Treewalk

/-! ### Texts -/

/-- The trees are those of a text that was read. -/
def HasRead (L : List Event) (body : List Stmt) : Prop := ∃ path faulty, .read path body faulty ∈ L

theorem HasRead.mono {L L' : List Event} {body : List Stmt} (h : HasRead L body) (hl : L <:+ L') :
    HasRead L' body := by
  obtain ⟨path, faulty, h⟩ := h
  exact ⟨path, faulty, hl.subset h⟩

/-- The trees of the text that is read. -/
def Event.text? : Event → Option (List Stmt)
  | .read _ body _ => some body
  | _ => none

/-- The trees of all texts that were read. -/
abbrev textsRead (L : List Event) : List (List Stmt) := L.filterMap Event.text?

/-- The ids of all references in texts that were read. -/
abbrev idsRead (L : List Event) : List Nat := (textsRead L).flatMap Stmt.idsAll

theorem mem_textsRead {L : List Event} {body : List Stmt} :
    body ∈ textsRead L ↔ HasRead L body := by
  rw [List.mem_filterMap]
  constructor
  · rintro ⟨e, he, hbody⟩
    cases e with
    | read path body' faulty =>
      obtain rfl : body' = body := Option.some.inj hbody
      exact ⟨path, faulty, he⟩
    | made | reached | turn | scanned | bound | imported | began | aborted | entered | moment =>
      cases hbody
  · rintro ⟨path, faulty, h⟩
    exact ⟨_, h, rfl⟩

/-- The texts that were read, with references numbered below `next`. -/
structure Texts (L : List Event) (next : Nat) : Prop where
  tidy : ∀ body, HasRead L body → Stmt.TidyAll body
  nodup : ∀ body, HasRead L body → (Stmt.idsAll body).Nodup
  lt : ∀ body, HasRead L body → ∀ id ∈ Stmt.idsAll body, id < next
  /-- Texts share no references. -/
  apart : ∀ body body', HasRead L body → HasRead L body' → ∀ id ∈ Stmt.idsAll body,
    id ∈ Stmt.idsAll body' → body = body'
  /-- No number is given twice. -/
  numbered : (idsRead L).Nodup

namespace Texts

variable {L : List Event} {next : Nat} {body body' : List Stmt}

/-- A reference has one distance, in one program. -/
theorem local_unique (h : Texts L next) (hb : HasRead L body) (hb' : HasRead L body')
    {id d d' : Nat}
    (hd : .local id d ∈ findings body) (hd' : .local id d' ∈ findings body') :
    body = body' ∧ d = d' := by
  obtain rfl := h.apart body body' hb hb' id (mem_ids_of_local hd) (mem_ids_of_local hd')
  refine ⟨rfl, Finding.local_unique ?_ hd hd'⟩
  exact (h.nodup body hb).sublist (findings_ids body)

/-- Texts that are read are all that counts. -/
theorem anti {L' : List Event} (h : Texts L next) (hl : (textsRead L').Sublist (textsRead L)) :
    Texts L' next := by
  have hread : ∀ {body}, HasRead L' body → HasRead L body := fun hb =>
    mem_textsRead.1 (hl.subset (mem_textsRead.2 hb))
  exact ⟨fun body hb => h.tidy body (hread hb), fun body hb => h.nodup body (hread hb),
    fun body hb => h.lt body (hread hb),
    fun body body' hb hb' => h.apart body body' (hread hb) (hread hb'),
    h.numbered.sublist (hl.flatMap _)⟩

theorem suffix {L' : List Event} (h : Texts L next) (hl : L' <:+ L) : Texts L' next :=
  h.anti (hl.sublist.filterMap _)

/-- A text that is read has references of its own. -/
theorem read (h : Texts L next) (file : Option String) (text : String) (ds : Diagnostics)
    (path : Option Path) (faulty : Bool) :
    Texts (.read path (Source.read file text next ds).1.body faulty :: L)
      (Source.read file text next ds).1.nextId := by
  obtain ⟨hle, htidy, hnodup, hrange⟩ := Source.read_fresh file text next ds
  revert hle htidy hnodup hrange
  generalize (Source.read file text next ds).1 = program
  intro hle htidy hnodup hrange
  have hread : ∀ {body}, HasRead (.read path program.body faulty :: L) body →
      body = program.body ∨ HasRead L body := by
    rintro body ⟨path', faulty', hb⟩
    rcases List.mem_cons.1 hb with he | hb
    · injection he with _ he
      exact .inl he
    · exact .inr ⟨path', faulty', hb⟩
  refine ⟨fun body hb => ?_, fun body hb => ?_, fun body hb id hid => ?_,
    fun body body' hb hb' id hid hid' => ?_, ?_⟩
  · rcases hread hb with rfl | hb
    · exact htidy
    · exact h.tidy body hb
  · rcases hread hb with rfl | hb
    · exact hnodup
    · exact h.nodup body hb
  · rcases hread hb with rfl | hb
    · exact (hrange id hid).2
    · exact Nat.lt_of_lt_of_le (h.lt body hb id hid) hle
  · rcases hread hb with rfl | hb <;> rcases hread hb' with rfl | hb'
    · rfl
    · have := (hrange id hid).1
      have := h.lt body' hb' id hid'
      omega
    · have := (hrange id hid').1
      have := h.lt body hb id hid
      omega
    · exact h.apart body body' hb hb' id hid hid'
  · refine List.nodup_append.2 ⟨hnodup, h.numbered, fun id hid id' hid' => ?_⟩
    obtain ⟨body, hb, hid'⟩ := List.mem_flatMap.1 hid'
    have := (hrange id hid).1
    have := h.lt body (mem_textsRead.1 hb) id' hid'
    omega

end Texts

/-! ### Knowledge -/

/-- The event changes what the interpreter with the globals `g` knows. -/
def Event.Touches (g : Nat) : Event → Prop
  | .bound g' _ => g' = g
  | .imported g' _ => g' = g
  | _ => False

/-- After the events `L`, latest first, the interpreter with the globals `g` has been told the
distances of the program. -/
def Knows : List Event → Nat → List Stmt → Prop
  | [], _, _ => False
  | .bound g' body' :: L, g, body => (g' = g ∧ body' = body) ∨ Knows L g body
  | .imported g' module :: L, g, body => (g' = g ∧ Knows L module body) ∨ Knows L g body
  | _ :: L, g, body => Knows L g body

namespace Knows

variable {L new : List Event} {g g' : Nat} {body body' : List Stmt} {e : Event}

/-- Events that do not touch an interpreter leave what it knows. -/
theorem cons_iff (h : ¬ e.Touches g) : Knows (e :: L) g body ↔ Knows L g body := by
  cases e with
  | bound g' body' => exact ⟨fun hk => hk.resolve_left fun h' => h h'.1, .inr⟩
  | imported g' module => exact ⟨fun hk => hk.resolve_left fun h' => h h'.1, .inr⟩
  | made | reached | turn | scanned | read | began | aborted | entered | moment => exact Iff.rfl

theorem append_iff (h : ∀ e ∈ new, ¬ e.Touches g) : Knows (new ++ L) g body ↔ Knows L g body := by
  induction new with
  | nil => exact Iff.rfl
  | cons e new ih =>
    rw [List.cons_append, cons_iff (h e (by simp))]
    exact ih fun e' he' => h e' (by simp [he'])

theorem mono {L' : List Event} (h : Knows L g body) (hl : L <:+ L') : Knows L' g body := by
  obtain ⟨new, rfl⟩ := hl
  induction new with
  | nil => exact h
  | cons e new ih =>
    cases e with
    | bound | imported => exact .inr ih
    | made | reached | turn | scanned | read | began | aborted | entered | moment => exact ih

/-- What is known was bound at some time. -/
theorem of_bound (h : Knows L g body) : ∃ g, .bound g body ∈ L := by
  induction L generalizing g with
  | nil => exact h.elim
  | cons e L ih =>
    have later : (∃ g, .bound g body ∈ L) → ∃ g, .bound g body ∈ e :: L :=
      fun ⟨g, hg⟩ => ⟨g, List.mem_cons_of_mem _ hg⟩
    cases e with
    | bound g' body' =>
      rcases h with ⟨-, rfl⟩ | h
      · exact ⟨g', List.mem_cons_self ..⟩
      · exact later (ih h)
    | imported g' module =>
      rcases h with ⟨-, h⟩ | h
      · exact later (ih h)
      · exact later (ih h)
    | made | reached | turn | scanned | read | began | aborted | entered | moment =>
      exact later (ih h)

end Knows

/-! ### Tables -/

/-- The table holds the distances of the programs that the interpreter with the globals `g` knows,
and of the findings `fs`. -/
def Holds (L : List Event) (g : Nat) (fs : List Finding) (B : Bindings) : Prop :=
  ∀ id d, B[id]? = some d ↔
    (∃ body, Knows L g body ∧ .local id d ∈ findings body) ∨ .local id d ∈ fs

/-- The table holds the distances of all programs that its interpreter knows. -/
abbrev TableOk (L : List Event) (g : Nat) (B : Bindings) : Prop := Holds L g [] B

/-- Texts that are bound were read. -/
def BoundRead (L : List Event) : Prop := ∀ g body, .bound g body ∈ L → HasRead L body

namespace Holds

variable {L new : List Event} {g next : Nat} {fs : List Finding} {B B' : Bindings}
  {body : List Stmt}

theorem append (h : Holds L g fs B) (hnew : ∀ e ∈ new, ¬ e.Touches g) :
    Holds (new ++ L) g fs B := fun id d => by
  simp only [Knows.append_iff hnew]
  exact h id d

theorem cons {e : Event} (h : Holds L g fs B) (he : ¬ e.Touches g) : Holds (e :: L) g fs B :=
  fun id d => by
    simp only [Knows.cons_iff he]
    exact h id d

theorem empty (L : List Event) (g : Nat) (h : ∀ e ∈ L, ¬ e.Touches g) : TableOk L g {} := by
  intro id d
  have hno : ∀ body, ¬ Knows L g body := fun body hk => by
    rw [← List.append_nil L, Knows.append_iff h] at hk
    exact hk
  simp [hno]

theorem insert {id d : Nat} (h : Holds L g fs B) (ht : Texts L next) (hbr : BoundRead L)
    (hbody : HasRead L body) (hsub : ∀ f ∈ fs, f ∈ findings body)
    (hd : .local id d ∈ findings body) : Holds L g (fs ++ [.local id d]) (B.insert id d) := by
  intro id' d'
  rw [Std.TreeMap.getElem?_insert]
  by_cases hid : id = id'
  · subst hid
    simp only [Std.compare_self, if_true, Option.some.injEq, List.mem_append, List.mem_singleton]
    constructor
    · rintro rfl
      exact .inr (.inr rfl)
    · rintro (⟨body', hk, hd'⟩ | hd' | hd')
      · obtain ⟨g', hb⟩ := hk.of_bound
        exact (ht.local_unique hbody (hbr g' body' hb) hd hd').2
      · exact (ht.local_unique hbody hbody hd (hsub _ hd')).2
      · injection hd' with _ hd'
        exact hd'.symm
  · have hne : compare id id' ≠ .eq := fun hc => hid (Nat.compare_eq_eq.1 hc)
    have hloc : Finding.local id' d' ≠ .local id d := fun he => by
      injection he with he
      exact hid he.symm
    rw [if_neg hne, h id' d']
    simp [hloc]

theorem other {f : Finding} (h : Holds L g fs B) (hf : f.id? = none) :
    Holds L g (fs ++ [f]) B := by
  intro id d
  have hne : Finding.local id d ≠ f := fun he => by rw [← he] at hf; cases hf
  rw [h id d]
  simp [hne]

theorem union {module : Nat} (h : Holds L g fs B) (hm : TableOk L module B') (ht : Texts L next)
    (hbr : BoundRead L) (hbody : HasRead L body) (hsub : ∀ f ∈ fs, f ∈ findings body) :
    Holds (.imported g module :: L) g fs (B ∪ B') := by
  intro id d
  rw [Std.TreeMap.getElem?_union]
  have hread : ∀ {g body}, Knows L g body → HasRead L body := fun hk =>
    let ⟨g', hb⟩ := hk.of_bound
    hbr g' _ hb
  have hmodule : B'[id]? = some d ↔ ∃ body, Knows L module body ∧ .local id d ∈ findings body := by
    rw [hm id d]
    simp
  have hiff : ((∃ body, Knows (.imported g module :: L) g body ∧ .local id d ∈ findings body) ∨
      .local id d ∈ fs) ↔ B'[id]? = some d ∨ B[id]? = some d := by
    rw [hmodule, h id d]
    constructor
    · rintro (⟨body', ⟨-, hk⟩ | hk, hd⟩ | hd)
      · exact .inl ⟨body', hk, hd⟩
      · exact .inr (.inl ⟨body', hk, hd⟩)
      · exact .inr (.inr hd)
    · rintro (⟨body', hk, hd⟩ | ⟨body', hk, hd⟩ | hd)
      · exact .inl ⟨body', .inl ⟨rfl, hk⟩, hd⟩
      · exact .inl ⟨body', .inr hk, hd⟩
      · exact .inr hd
  rw [hiff]
  cases hB' : B'[id]? with
  | none => simp
  | some d' =>
    -- The two tables agree where they overlap.
    obtain ⟨body', hk', hd'⟩ : ∃ body, Knows L module body ∧ .local id d' ∈ findings body := by
      simpa using (hm id d').1 hB'
    have hagree : B[id]? = some d → d' = d := fun hB => by
      rcases (h id d).1 hB with ⟨body'', hk, hd⟩ | hd
      · exact (ht.local_unique (hread hk') (hread hk) hd' hd).2
      · exact (ht.local_unique (hread hk') hbody hd' (hsub _ hd)).2
    simp only [Option.some_or, Option.some.injEq]
    exact ⟨.inl, fun h => h.elim (fun h => h) hagree⟩

/-- All that was found about a text is in the table: the interpreter knows the text. -/
theorem bound (h : Holds L g (findings body) B) : TableOk (.bound g body :: L) g B := by
  intro id d
  rw [h id d]
  constructor
  · rintro (⟨body', hk, hd⟩ | hd)
    · exact .inl ⟨body', .inr hk, hd⟩
    · exact .inl ⟨body, .inl ⟨rfl, rfl⟩, hd⟩
  · rintro (⟨body', ⟨-, rfl⟩ | hk, hd⟩ | hd)
    · exact .inr hd
    · exact .inl ⟨body', hk, hd⟩
    · simp at hd

/-- Of a text that an interpreter does not know, the table has nothing. -/
theorem getElem?_eq_none (h : TableOk L g B) (ht : Texts L next) (hbr : BoundRead L)
    (hbody : HasRead L body) (hk : ¬ Knows L g body) {id : Nat} (hid : id ∈ Stmt.idsAll body) :
    B[id]? = none := by
  rw [Option.eq_none_iff_forall_ne_some]
  intro d hd
  rcases (h id d).1 hd with ⟨body', hk', hl⟩ | hl
  · obtain ⟨g', hb⟩ := hk'.of_bound
    obtain rfl := ht.apart body body' hbody (hbr g' body' hb) id hid (mem_ids_of_local hl)
    exact hk hk'
  · simp at hl

/-- Of a text that an interpreter knows, the table has what was found. -/
theorem getElem?_eq (h : TableOk L g B) (ht : Texts L next) (hbr : BoundRead L)
    (hk : Knows L g body) {id : Nat} (hid : id ∈ Stmt.idsAll body) (d : Nat) :
    B[id]? = some d ↔ .local id d ∈ findings body := by
  obtain ⟨g', hb⟩ := hk.of_bound
  refine ⟨fun hd => ?_, fun hd => (h id d).2 (.inl ⟨body, hk, hd⟩)⟩
  rcases (h id d).1 hd with ⟨body', hk', hl⟩ | hl
  · obtain ⟨g'', hb'⟩ := hk'.of_bound
    obtain rfl := ht.apart body body' (hbr g' body hb) (hbr g'' body' hb') id hid
      (mem_ids_of_local hl)
    exact hl
  · simp at hl

end Holds

end Treewalk
