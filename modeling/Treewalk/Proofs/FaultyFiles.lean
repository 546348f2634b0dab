import Treewalk.Proofs.Addressing

/-!
# Files with faults

A file is read once, and what is wrong with its text is reported then. Later reads find the trees
that were made of the text and report nothing. So a faulty file is not run when it is read, and
never for an import; but it is run when the session is asked for it again.
-/

namespace Treewalk

instance {L : List Event} {p : Path} : Decidable (Faulty L p) :=
  decidable_of_iff (L.any fun | .read (some q) _ true => q = p | _ => false) (by
    rw [List.any_eq_true]
    constructor
    · rintro ⟨e, he, hp⟩
      split at hp
      · next q body => exact ⟨body, of_decide_eq_true hp ▸ he⟩
      · cases hp
    · rintro ⟨body, hb⟩
      exact ⟨_, hb, decide_eq_true rfl⟩)

section

variable {x y : Logged Event Session} {p : Path} {body : List Stmt} {m : Module}

/-- A file that had been read before is a module now: its trees were started. -/
theorem SessionGrew.began_cached {base : Nat} {own : Option Nat} (hw : SessionGrew base own x y)
    (hy : Inv none y) (hp : x.state.parsed.get? p = some body)
    (hm : y.state.modules.get? p = some m) :
    .began (some p) m.globals body ∈ y.log := by
  obtain ⟨body', hb⟩ := (hy.modules p m hm).began
  obtain ⟨new, B, hlog⟩ := List.append_of_mem hb
  have hs : Start B (some p) m.globals body' := hy.past.follows ⟨new, hlog.symm⟩
  obtain ⟨faulty, hr⟩ := hs.read
  have hr' : .read (some p) body' faulty ∈ y.log := by
    rw [hlog]
    exact List.mem_append_right _ (List.mem_cons_of_mem _ hr)
  have hbody : y.state.parsed.get? p = some body' := (hy.parsed p body').2 ⟨faulty, hr'⟩
  rw [hw.cached p body hp] at hbody
  exact Option.some.inj hbody ▸ hb

end

/-- Code of a file whose text is faulty is run only after the session was asked for the file again,
and before that the file is no module. Once it is asked for again, what was made of its text is run,
unless something else is reported. -/
theorem faulty_file_runs_iff_rerun (s : Setup) (n : Nat) (ts : List Step) :
    Traced.erase (s.logged n ts) = s.run n ts ∧
      (∀ code m B, (.reached code m :: B) <:+ s.events n ts →
        ∃ path g program σ, Stands B m path g program code σ ∧
          ∀ p, path = some p → Faulty B p → Rerun B p) ∧
      (∀ p m, (s.final n ts).state.modules.get? p = some m → Faulty (s.events n ts) p →
        Rerun (s.events n ts) p) ∧
      ∀ is x, s.logged n ts = .ok is x → ∀ f p text body,
        x.state.disk.locate (Path.join x.state.root f) = .ok p → x.state.modules.get? p = none →
        x.state.disk.read p = .ok text → x.state.parsed.get? p = some body →
        ∀ r y, Trail.runFile n f x = .ok r y → Load.runFile n f x.state = .ok r y.state ∧
          ((∃ m, r = .ok (some m) ∧ y.state.modules.get? p = some m ∧
              .began (some p) m.globals body ∈ y.log) ∨
            r = .ok none ∧ x.state.diagnostics.size < y.state.diagnostics.size) := by
  have hinv := s.inv n ts
  refine ⟨s.erase_logged n ts, fun code m B hB => ?_, fun p m hm => ?_,
    fun is x hx f p text body hloc hmod hdisk hparsed r y hrun => ⟨?_, ?_⟩⟩
  · obtain ⟨path, g, program, σ, hs⟩ := hinv.stands hB
    refine ⟨path, g, program, σ, hs, fun p hp => ?_⟩
    exact (hinv.past.suffix ((List.suffix_cons ..).trans hB)).began_allowed (hp ▸ hs.began)
  · obtain ⟨body, hb⟩ := (hinv.modules p m hm).began
    exact hinv.past.began_allowed hb
  · have he := Trail.runFile_erases n f x
    rw [hrun] at he
    exact he.symm
  · have hxinv : Inv none x := by
      rw [Setup.final, hx] at hinv
      exact hinv
    obtain ⟨hw, hy, hq⟩ := (Keeps.runFile n f hxinv).of_ok hrun
    obtain ⟨m, hr, hm⟩ := hq p text hloc hmod hdisk
    cases m with
    | some m => exact .inl ⟨m, hr, hm, hw.began_cached hy hparsed hm⟩
    | none => exact .inr ⟨hr, hm⟩

/-- A file with two statements, of which the second is faulty. -/
def faultyFile : Setup where
  root := "/"
  disk := Disk.addFile {} "/a.vuel" "print 1; print ;".toUTF8

/-- When the file is run for the second time, its first statement is run and it is a module. -/
theorem faultyFile_rerun :
    Faulty (faultyFile.events 20 [.runFile "a.vuel", .runFile "a.vuel"]) ["a.vuel"] ∧
      ((faultyFile.final 20 [.runFile "a.vuel"]).state.modules.get? ["a.vuel"]).isNone ∧
      (faultyFile.final 20 [.runFile "a.vuel"]).state.world.sink.bytes = "".toUTF8 ∧
      ((faultyFile.final 20 [.runFile "a.vuel", .runFile "a.vuel"]).state.modules.get?
        ["a.vuel"]).isSome ∧
      (faultyFile.final 20 [.runFile "a.vuel", .runFile "a.vuel"]).state.world.sink.bytes =
        "1\n".toUTF8 := by
  decide +kernel

end Treewalk
