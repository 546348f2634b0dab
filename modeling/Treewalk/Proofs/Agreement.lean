import Treewalk.Proofs.Isolation

/-!
# Tables of bindings agree

The ids of references are never given twice in a session, and what binding the names of a program
finds depends on nothing but its trees. So whatever tables of bindings there are in a session, each
of their entries is the distance that the one program with that reference calls for
(`Sourced`), no two of them disagree, and taking over the table of a module changes no entry.
-/

namespace Treewalk

/-- The distance of the reference `id`, if that is what was found. -/
def Finding.distance? (id : Nat) : Finding → Option Nat
  | .local id' d => if id' = id then some d else none
  | _ => none

/-- The distance that the trees of a program call for at the reference `id`. -/
def distanceIn? (program : List Stmt) (id : Nat) : Option Nat :=
  (findings program).findSome? (Finding.distance? id)

theorem Finding.distance?_eq_some {f : Finding} {id d : Nat} (h : f.distance? id = some d) :
    f = .local id d := by
  cases f with
  | «local» id' d' =>
    by_cases he : id' = id
    · rw [Finding.distance?, if_pos he] at h
      rw [he, Option.some.inj h]
    · rw [Finding.distance?, if_neg he] at h
      cases h
  | fault | declared | required | exposed => cases h

theorem distanceIn?_eq_some_iff {program : List Stmt} (hids : (Stmt.idsAll program).Nodup)
    {id d : Nat} : distanceIn? program id = some d ↔ .local id d ∈ findings program := by
  have hmem : ∀ {d}, distanceIn? program id = some d → .local id d ∈ findings program := fun h => by
    obtain ⟨f, hf, hd⟩ := List.exists_of_findSome?_eq_some h
    exact Finding.distance?_eq_some hd ▸ hf
  refine ⟨hmem, fun h => ?_⟩
  have hsome : (distanceIn? program id).isSome := by
    rw [distanceIn?, List.findSome?_isSome_iff]
    exact ⟨_, h, by simp [Finding.distance?]⟩
  obtain ⟨d', hd'⟩ := Option.isSome_iff_exists.1 hsome
  rw [hd', Finding.local_unique (hids.sublist (findings_ids program)) h (hmem hd')]

/-! ### Where entries come from -/

/-- Each entry of the table is what was found about a text that was read. -/
def Sourced (L : List Event) (B : Bindings) : Prop :=
  ∀ id d, B[id]? = some d → ∃ body, HasRead L body ∧ .local id d ∈ findings body

section

variable {L L' : List Event} {B B' : Bindings} {g : Nat} {fs : List Finding} {body : List Stmt}

namespace Sourced

theorem mono (h : Sourced L B) (hl : L <:+ L') : Sourced L' B := fun id d hd => by
  obtain ⟨body, hread, hloc⟩ := h id d hd
  exact ⟨body, hread.mono hl, hloc⟩

theorem union (h : Sourced L B) (h' : Sourced L B') : Sourced L (B ∪ B') := fun id d hd => by
  rw [Std.TreeMap.getElem?_union, Option.or_eq_some_iff] at hd
  rcases hd with hd | ⟨-, hd⟩
  · exact h' id d hd
  · exact h id d hd

end Sourced

theorem Holds.sourced (h : Holds L g fs B) (hbr : BoundRead L) (hbody : HasRead L body)
    (hsub : ∀ f ∈ fs, f ∈ findings body) : Sourced L B := by
  intro id d hd
  rcases (h id d).1 hd with ⟨body', hk, hloc⟩ | hloc
  · obtain ⟨g', hb⟩ := hk.of_bound
    exact ⟨body', hbr g' body' hb, hloc⟩
  · exact ⟨body, hbody, hsub _ hloc⟩

theorem TableOk.sourced (h : TableOk L g B) (hbr : BoundRead L) : Sourced L B := by
  intro id d hd
  obtain ⟨body, hk, hloc⟩ := ((h id d).1 hd).resolve_right (by simp)
  obtain ⟨g', hb⟩ := hk.of_bound
  exact ⟨body, hbr g' body hb, hloc⟩

end

/-! ### The tables of a session -/

/-- A table of bindings that there is in the session or at its end: of an interpreter that runs
code, has its names bound or takes something over, of a module, or of the host. -/
inductive Setup.HasTable (s : Setup) (n : Nat) (ts : List Step) : Bindings → Prop where
  | running {code m} (h : .reached code m ∈ s.events n ts) : s.HasTable n ts m.bindings
  | resolved {body i t} (h : .moment (.resolved body i t) ∈ s.events n ts) :
      s.HasTable n ts i.bindings
  | importer {decl m i asked had t} (h : .moment (.taken decl m i asked had t) ∈ s.events n ts) :
      s.HasTable n ts i.bindings
  | imported {decl m i asked had t} (h : .moment (.taken decl m i asked had t) ∈ s.events n ts) :
      s.HasTable n ts m.bindings
  | merged {decl m i asked had t} (h : .moment (.taken decl m i asked had t) ∈ s.events n ts) :
      s.HasTable n ts (i.bindings ∪ m.bindings)
  | module {p m} (h : (s.final n ts).state.modules.get? p = some m) : s.HasTable n ts m.bindings
  | host {is x i} {k : Nat} (h : s.logged n ts = .ok is x) (hi : is[k]? = some i) :
      s.HasTable n ts i.bindings

namespace Setup

variable {s : Setup} {n : Nat} {ts : List Step} {B B' : Bindings}

/-- What came before something that happened. -/
theorem follows {e : Event} (h : e ∈ s.events n ts) :
    ∃ L, L <:+ s.events n ts ∧ BoundRead L ∧ e.Follows L := by
  obtain ⟨new, L, hL⟩ := List.append_of_mem h
  have hpast := (s.inv n ts).past
  have hl : (e :: L) <:+ s.events n ts := ⟨new, hL.symm⟩
  exact ⟨L, (List.suffix_cons ..).trans hl,
    (hpast.suffix ((List.suffix_cons ..).trans hl)).boundRead, hpast.follows hl⟩

theorem sourced_importer {decl : ImportDecl} {m : Module} {i : Interpreter} {asked had t : Session}
    (h : .moment (.taken decl m i asked had t) ∈ s.events n ts) :
    Sourced (s.events n ts) i.bindings := by
  obtain ⟨L, hl, hbr, -, himported⟩ := s.follows h
  obtain ⟨body, fs, hread, hsub, hholds⟩ := himported.table
  exact (hholds.sourced hbr hread hsub).mono hl

theorem sourced_imported {decl : ImportDecl} {m : Module} {i : Interpreter} {asked had t : Session}
    (h : .moment (.taken decl m i asked had t) ∈ s.events n ts) :
    Sourced (s.events n ts) m.bindings := by
  obtain ⟨L, hl, hbr, -, himported⟩ := s.follows h
  exact (TableOk.sourced himported.moduleTable hbr).mono hl

theorem HasTable.sourced (h : s.HasTable n ts B) : Sourced (s.events n ts) B := by
  have hinv := s.inv n ts
  cases h with
  | running h =>
    obtain ⟨L, hl, hbr, htable⟩ := s.follows h
    exact (TableOk.sourced htable hbr).mono hl
  | resolved h =>
    obtain ⟨L, hl, hbr, -, hresolved⟩ := s.follows h
    exact (Holds.sourced hresolved.table hbr hresolved.read fun _ hf => hf).mono hl
  | importer h => exact sourced_importer h
  | imported h => exact sourced_imported h
  | merged h => exact (sourced_importer h).union (sourced_imported h)
  | module h => exact TableOk.sourced (hinv.modules _ _ h).table hinv.boundRead
  | @host is x i k h hi =>
    obtain ⟨hx, hhost⟩ := s.host h
    have hlog : s.events n ts = x.log := by rw [events, final, h]; rfl
    rw [hlog]
    exact TableOk.sourced (hhost.table k i hi) hx.boundRead

/-- Entries for one reference are the same in all tables. -/
theorem HasTable.agree (h : s.HasTable n ts B) (h' : s.HasTable n ts B') {id d d' : Nat}
    (hd : B[id]? = some d) (hd' : B'[id]? = some d') : d = d' := by
  obtain ⟨body, hread, hloc⟩ := h.sourced id d hd
  obtain ⟨body', hread', hloc'⟩ := h'.sourced id d' hd'
  exact ((s.inv n ts).texts.local_unique hread hread' hloc hloc').2

/-- An entry is what the one program with the reference calls for. -/
theorem HasTable.distance (h : s.HasTable n ts B) {id d : Nat} (hd : B[id]? = some d) :
    (∃ body, HasRead (s.events n ts) body ∧ id ∈ Stmt.idsAll body) ∧
      ∀ body, HasRead (s.events n ts) body → id ∈ Stmt.idsAll body →
        distanceIn? body id = some d := by
  have htexts := (s.inv n ts).texts
  obtain ⟨body, hread, hloc⟩ := h.sourced id d hd
  have hid := mem_ids_of_local hloc
  refine ⟨⟨body, hread, hid⟩, fun body' hread' hid' => ?_⟩
  obtain rfl := htexts.apart body body' hread hread' id hid hid'
  exact (distanceIn?_eq_some_iff (htexts.nodup body hread)).2 hloc

/-- When the names of a program are bound, the table has what the program calls for. -/
theorem resolved_distance {body : List Stmt} {i : Interpreter} {t : Session}
    (h : .moment (.resolved body i t) ∈ s.events n ts) :
    HasRead (s.events n ts) body ∧
      ∀ id ∈ Stmt.idsAll body, i.bindings[id]? = distanceIn? body id := by
  obtain ⟨L, hl, -, -, hread, hholds, -⟩ := s.follows h
  have hread' := hread.mono hl
  refine ⟨hread', fun id hid => Option.ext fun d => ⟨fun hd => ?_, fun hd => ?_⟩⟩
  · exact ((HasTable.resolved h).distance hd).2 body hread' hid
  · have hnodup := (s.inv n ts).texts.nodup body hread'
    exact (hholds id d).2 (.inr ((distanceIn?_eq_some_iff hnodup).1 hd))

end Setup

/-- In any session: no two references in the trees of all texts that were read have one id; when the
names of a program are bound, the interpreter has for each of its references what the trees of the
program alone call for; every entry of every table is such a distance; two tables never have
different entries for one reference; and an interpreter that takes over the table of a module keeps
all entries it had. -/
theorem tables_agree (s : Setup) (n : Nat) (ts : List Step) :
    Traced.erase (s.logged n ts) = s.run n ts ∧
      (idsRead (s.events n ts)).Nodup ∧
      (∀ body i t, .moment (.resolved body i t) ∈ s.events n ts →
        HasRead (s.events n ts) body ∧
          ∀ id ∈ Stmt.idsAll body, i.bindings[id]? = distanceIn? body id) ∧
      (∀ B, s.HasTable n ts B → ∀ id d : Nat, B[id]? = some d →
        (∃ body, HasRead (s.events n ts) body ∧ id ∈ Stmt.idsAll body) ∧
          ∀ body, HasRead (s.events n ts) body → id ∈ Stmt.idsAll body →
            distanceIn? body id = some d) ∧
      (∀ B B', s.HasTable n ts B → s.HasTable n ts B' → ∀ id d d' : Nat,
        B[id]? = some d → B'[id]? = some d' → d = d') ∧
      ∀ decl m i asked had t, .moment (.taken decl m i asked had t) ∈ s.events n ts →
        ∀ id d : Nat, i.bindings[id]? = some d → (i.bindings ∪ m.bindings)[id]? = some d := by
  refine ⟨s.erase_logged n ts, (s.inv n ts).texts.numbered, fun _ _ _ => Setup.resolved_distance,
    fun _ hB _ _ => hB.distance, fun _ _ hB hB' _ _ _ => hB.agree hB',
    fun decl m i asked had t h id d hd => ?_⟩
  rw [Std.TreeMap.getElem?_union]
  cases hm : m.bindings[id]? with
  | none => exact hd
  | some d' => rw [Setup.HasTable.agree (.imported h) (.importer h) hm hd, Option.some_or]

end Treewalk
