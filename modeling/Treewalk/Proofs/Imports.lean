import Treewalk.Proofs.Isolation

/-!
# Imports hand over what is exposed

A module has a value for every name that it exposes: a file that ran to its end has come to all its
declarations, and what it got by imports was there before. So an import sets just those globals of
the importing interpreter that it asks for and that the module exposes (`Transfer`), each to the
value that the module has for it. While the module is loaded, the globals of the importing
interpreter are written by nothing but code of programs that this interpreter has started before;
that they can be written so is shown by `callingFile`.
-/

namespace Treewalk

/-- The scopes of a chain are made inside of its globals. -/
theorem Chain.made_ancestor {ss : Scopes} {L : List Event} {g s d t : Nat} {σ : List Layer}
    (h : Chain ss L g s σ) (ht : ss.ancestor? s d = some t) : t = g ∨ ∃ o, .made t o ∈ L := by
  induction h generalizing d with
  | root hp =>
    cases d with
    | zero => exact .inl (Option.some.inj ht).symm
    | succ d => simp [Scopes.ancestor?, hp] at ht
  | @layer s p l σ hmade hp _ _ _ _ ih =>
    cases d with
    | zero => exact .inr ⟨l.origin, Option.some.inj ht ▸ hmade⟩
    | succ d => exact ih (by simpa [Scopes.ancestor?, hp] using ht)

/-- Globals are written by code of programs that were started with them. -/
theorem Stands.eq_of_writes {B : List Event} {m : Machine} {path : Option Path} {g t : Nat}
    {program : List Stmt} {code : Code} {σ : List Layer} (h : Stands B m path g program code σ)
    {a : String} (hw : (Event.reached code m).Writes t a) (ht : ∀ o, .made t o ∉ B) : t = g := by
  obtain ⟨d, hd⟩ := h.writes_ancestor hw
  rcases h.chain.made_ancestor hd with heq | ⟨o, ho⟩
  · exact heq
  · exact absurd ho (ht o)

/-- Since the import came up, the globals of the interpreter were written only by code of programs
that the interpreter has started. -/
theorem Imported.written {L : List Event} {decl : ImportDecl} {m : Module} {i : Interpreter}
    {asked had s : Session} {y : Logged Event Session} {late : Option Path}
    (h : Imported L decl m i asked had s) (hy : Inv late y) (hL : L <:+ y.log) :
    ∃ B, (.moment (.asked decl asked) :: B) <:+ L ∧
      ∀ a, had.getGlobal i a ≠ asked.getGlobal i a →
        ∃ code k B' path program σ, (.reached code k :: B') <:+ L ∧
          (.moment (.asked decl asked) :: B) <:+ B' ∧
          (Event.reached code k).Writes i.globals a ∧
          Stands B' k path i.globals program code σ := by
  obtain ⟨new, B, hnew, hwritten⟩ := h.since
  refine ⟨B, ⟨new, hnew.symm⟩, fun a ha => ?_⟩
  obtain ⟨e, he, hw⟩ := hwritten a ha
  obtain ⟨new₁, new₂, rfl⟩ := List.append_of_mem he
  obtain ⟨code, k, rfl⟩ := hw.reached
  have hB : (.reached code k :: (new₂ ++ .moment (.asked decl asked) :: B)) <:+ L :=
    ⟨new₁, by rw [hnew, List.append_assoc, List.cons_append]⟩
  obtain ⟨path, g, program, σ, hs⟩ := hy.stands (hB.trans hL)
  obtain rfl := hs.eq_of_writes hw fun o ho =>
    h.outer o (((List.suffix_cons ..).trans hB).subset ho)
  exact ⟨code, k, _, path, program, σ, hB, List.suffix_append .., hw, hs⟩

/-- In any session: at every moment of it and at its end, each module has values for all that it
exposes; each import of a program whose names are bound was turned down or its names were taken; and
when the names of an import are taken, the module is one of the session, with globals of its own,
and the step sets the globals that are asked for and exposed to its values, reports each name that
is not exposed, and changes nothing else. Between the moment when the import came up and the moment
when the module was there, a global of the importing interpreter was written only by code of
programs that this interpreter had started. -/
theorem imports_exact (s : Setup) (n : Nat) (ts : List Step) :
    Traced.erase (s.logged n ts) = s.run n ts ∧
      (s.final n ts).state.Exposes ∧
      (∀ k, .moment k ∈ s.events n ts → k.state.Exposes) ∧
      (∀ body i t B, (.moment (.resolved body i t) :: B) <:+ s.events n ts →
        ∀ decl, .required decl ∈ findings body → Met B i.globals decl) ∧
      ∀ decl m i asked had t B, (.moment (.taken decl m i asked had t) :: B) <:+ s.events n ts →
        (∃ p, had.modules.get? p = some m) ∧ m.globals ≠ i.globals ∧
          (∀ a ∈ m.exports, (had.moduleValue m a).isSome) ∧
          Transfer decl.module m decl.names i had t ∧
          ∃ B₀, (.moment (.asked decl asked) :: B₀) <:+ B ∧
            ∀ a, had.getGlobal i a ≠ asked.getGlobal i a →
              ∃ code k B' path program σ, (.reached code k :: B') <:+ B ∧
                (.moment (.asked decl asked) :: B₀) <:+ B' ∧
                (Event.reached code k).Writes i.globals a ∧
                Stands B' k path i.globals program code σ := by
  have hinv := s.inv n ts
  refine ⟨s.erase_logged n ts, hinv.exposes, fun k hk => ?_, fun body i t B hB decl hd => ?_,
    fun decl m i asked had t B hB => ?_⟩
  · obtain ⟨new, L, hL⟩ := List.append_of_mem hk
    exact (hinv.past.follows ⟨new, hL.symm⟩).1
  · exact (hinv.past.follows hB).2.imports decl hd
  · have himported : Imported B decl m i asked had t := (hinv.past.follows hB).2
    exact ⟨himported.module, himported.apart, himported.exports, himported.transfer,
      himported.written hinv ((List.suffix_cons ..).trans hB)⟩

/-- A class of one file, and a second file that calls what it finds in that class. -/
def callingFile : Setup where
  root := "/"
  disk := Disk.addFile {} "/r.vuel" "class R \x7b\x7d expose R;".toUTF8
    |>.addFile "/b.vuel" "import \x7b R \x7d from \"r\"; R.f(); var x = true; expose x;".toUTF8

/-- The host leaves a function in the class that writes a global, and then imports from the second
file. -/
def callingSteps : List Step :=
  [.newInterpreter,
    .runSource 0 none ("import \x7b R \x7d from \"r\"; var g = true; " ++
      "fun f() \x7b g = false; \x7d R.f = f;"),
    .runSource 0 none "import \x7b x \x7d from \"b\";"]

/-- The names of an import are taken, and over the whole import the global `a`, which it does not
ask for, turns from true to false. -/
def TurnsFalse (a : String) : Event → Prop
  | .moment (.taken decl _ i asked _ t) => a ∉ decl.names.map Token.lexeme ∧
    (asked.getGlobal i a).map Value.truthy = some true ∧
    (t.getGlobal i a).map Value.truthy = some false
  | _ => False

instance {a : String} : DecidablePred (TurnsFalse a)
  | .moment (.taken ..) => inferInstanceAs (Decidable (_ ∧ _ ∧ _))
  | .moment (.opened ..) | .moment (.closed ..) | .moment (.stacked _) | .moment (.asked ..)
  | .moment (.answered ..) | .moment (.resolved ..) | .moment (.cleared _) | .reached ..
  | .made .. | .turn _ | .scanned .. | .read .. | .began .. | .aborted .. | .bound ..
  | .imported .. | .entered .. => isFalse id

/-- The second file loads without a report, and importing `x` from it changes the global `g`: the
file calls the importer's own function. -/
theorem callingFile_writes_importer :
    (callingFile.final 20 callingSteps).state.diagnostics.size = 0 ∧
      ∃ e ∈ callingFile.events 20 callingSteps, TurnsFalse "g" e := by
  decide +kernel

end Treewalk
