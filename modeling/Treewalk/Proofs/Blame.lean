import Treewalk.Proofs.Addressing
import Treewalk.Proofs.Written

/-!
# Failures name the code that failed

When a program fails, the code that runs innermost stands in the function that was called last, or
outside of all functions of the program. The failure is at the place of a token of that code, and
the file it names is the one that code was read from, whatever file was being run. It is reported
so, once.
-/

namespace Treewalk

/-! ### Texts of programs -/

/-- All tokens of a text belong to its file. -/
theorem scan_file {file : Option String} {text : String} {t : Token}
    (h : t ∈ (scan file text).tokens) : t.file = file := by
  obtain ⟨⟨p, piece⟩, -, ht⟩ := List.mem_filterMap.1 h
  simp only [Piece.token?] at ht
  split at ht
  · cases ht
    rfl
  · cases ht

/-- The trees of the program are those of `text`, with the tokens of `file`. If the program is that
of a file then this is how reports name it. -/
structure TextOf (B : List Event) (path : Option Path) (program : List Stmt)
    (file : Option String) (text : String) : Prop where
  began : ∃ g, .began path g program ∈ B
  scanned : ∃ s, .scanned path file text s ∈ B ∧
    (Source.read file text s.nextRef s.diagnostics).1.body = program ∧
    ∀ p, path = some p → file = some (s.displayName p)

/-- The code stands in the function that runs innermost, which is one of `program`; or no function
runs, and the code stands in `program` outside of all of them. -/
inductive Innermost (trace : List Code) (body : List Stmt) : List Stmt → Code → Prop where
  | function {decl : FunctionDecl} {program : List Stmt} {σ : List Layer} {code : Code}
      (hd : trace.findSome? Code.decl? = some decl) (hp : Placed program (.body decl) σ)
      (hc : (Code.body decl).Holds code) : Innermost trace body program code
  | outside {s : Stmt} {code : Code} (hd : trace.findSome? Code.decl? = none) (hs : s ∈ body)
      (hc : (Code.stmt s).Holds code) : Innermost trace body body code

/-- What is run inside a piece of code stands inside it. -/
theorem Code.Holds.contains {outer inner : Code} (h : outer.Holds inner) :
    outer.Contains inner := by
  induction h with
  | refl => exact .refl
  | tail _ h ih => exact ih.trans h.contains

theorem Innermost.contains {trace : List Code} {body program : List Stmt} {code : Code}
    (h : Innermost trace body program code) : (Code.stmts program).Contains code := by
  cases h with
  | function _ hp hc => exact (hp.contains (by simp)).trans hc.contains
  | outside _ hs hc => exact (Code.contains_stmts hs).trans hc.contains

section

variable {y : Logged Event Session} {late : Option Path} {B : List Event} {path : Option Path}
  {g : Nat} {program : List Stmt}

/-- A program that was started is that of some text. -/
theorem Inv.textOf (h : Inv late y) (hB : B <:+ y.log) (hb : .began path g program ∈ B) :
    ∃ file text, TextOf B path program file text := by
  have hpast := h.past.suffix hB
  obtain ⟨new, B₁, rfl⟩ := List.append_of_mem hb
  have hstart : Start B₁ path g program := hpast.follows (List.suffix_append ..)
  obtain ⟨faulty, hread⟩ := hstart.read
  obtain ⟨new₂, B₂, rfl⟩ := List.append_of_mem hread
  have hB₂ : (.read path program faulty :: B₂) <:+
      new ++ .began path g program :: (new₂ ++ .read path program faulty :: B₂) :=
    (List.suffix_append ..).trans ((List.suffix_cons ..).trans (List.suffix_append ..))
  -- What was read was scanned before that, by the name that the file had then.
  obtain ⟨-, file, text, s, hs, hbody, -⟩ := hpast.follows hB₂
  obtain ⟨new₃, B₃, rfl⟩ := List.append_of_mem hs
  have hname := hpast.follows (e := .scanned path file text s)
    (((List.suffix_append ..).trans (List.suffix_cons ..)).trans hB₂)
  exact ⟨file, text, ⟨g, hb⟩, s,
    hB₂.subset (List.mem_cons_of_mem _ (List.mem_append_right _ (List.mem_cons_self ..))), hbody,
    hname⟩

/-- A token at which code of a program can fail is at the place of a token of the text. -/
theorem TextOf.at {file : Option String} {text : String} {code : Code} {t : Token}
    (h : TextOf B path program file text) (hc : (Code.stmts program).Contains code)
    (ht : t ∈ code.blamed) : t.At (scan file text).tokens := by
  obtain ⟨s, -, rfl, -⟩ := h.scanned
  have hcode := Source.read_written file text s.nextRef s.diagnostics False False.elim code hc
  cases code with
  | expr e => exact hcode t ht
  | stmt s => exact hcode.1 t ht
  | stmts | function | body | use => simp [Code.blamed] at ht

/-- The code that failed stands in the function that runs innermost. -/
theorem Inv.innermost (h : Inv late y) (hB : B <:+ y.log) {body : List Stmt} {f : Fault}
    {inner : Code} {s : Stmt} (hs : s ∈ body) (hb : .began path g body ∈ B)
    (hfell : Fell f (.stmt s) (running B)) (hi : (running B).head? = some inner) :
    ∃ path' program, (∃ g', .began path' g' program ∈ B) ∧
      Innermost (running B) body program inner := by
  obtain ⟨trace, htrace⟩ : ∃ trace, running B = inner :: trace := by
    cases hr : running B with
    | nil => simp [hr] at hi
    | cons c trace =>
      rw [hr] at hi
      exact ⟨trace, by rw [Option.some.inj hi]⟩
  have hholds : (Treewalk.frame (.stmt s) (running B)).Holds inner := by
    have hruns := hfell.runs
    have hlast := hfell.outermost
    rw [htrace] at hruns hlast ⊢
    exact frame_holds hruns hlast
  cases hd : (running B).findSome? Code.decl? with
  | none =>
    refine ⟨path, body, ⟨g, hb⟩, .outside hd hs ?_⟩
    rwa [Treewalk.frame, hd] at hholds
  | some decl =>
    -- The run has come to the inside of the function, so this is placed in a program.
    obtain ⟨c, hc, hcd⟩ := List.exists_of_findSome?_eq_some hd
    obtain rfl : c = .body decl := by
      cases c with
      | body d => rw [Option.some.inj hcd]
      | stmts | stmt | expr | function | use => cases hcd
    obtain ⟨m, hm⟩ := mem_running hc
    obtain ⟨new, B', rfl⟩ := List.append_of_mem hm
    obtain ⟨path', g', program, σ, hstands⟩ := h.stands ((List.suffix_append ..).trans hB)
    refine ⟨path', program, ⟨g', ?_⟩, .function hd hstands.placed ?_⟩
    · exact List.mem_append_right _ (List.mem_cons_of_mem _ hstands.began)
    · rwa [Treewalk.frame, hd] at hholds

end

/-- The failure is at the place of a token of the code, and the code is a call just if the failure
is one of a call; then the token is its closing parenthesis. -/
structure Fault.Names (f : Fault) (code : Code) : Prop where
  token : ∃ t ∈ code.blamed, f.pos = t.pos ∧ f.file = t.file
  call : f.cause.OfCall ↔ code.IsCall
  paren : ∀ callee paren args, code = .expr (.call callee paren args) →
    f.pos = paren.pos ∧ f.file = paren.file

theorem Code.Stops.names {code : Code} {f : Fault} (h : code.Stops (.fault f)) : f.Names code := by
  cases h with
  | @fault t cause ht hc =>
    refine ⟨⟨t, ht, rfl, rfl⟩, hc, ?_⟩
    rintro callee paren args rfl
    obtain rfl : t = paren := List.mem_singleton.1 ht
    exact ⟨rfl, rfl⟩

/-- The failures of runs that are reported are just those of the programs that were aborted since
the reports were last forgotten, each once and in order. A program that fails has come to code that
it has not left: the innermost piece of it failed, and each other piece runs the one before it. The
failure names the innermost piece, which stands in the function that runs innermost or else outside
of all functions of the program; and it names the file from which that function, or the program, was
read, at the place of one of its tokens. -/
theorem fault_names_failing_code (s : Setup) (n : Nat) (ts : List Step) :
    Traced.erase (s.logged n ts) = s.run n ts ∧
      (s.final n ts).state.diagnostics.Accounted (s.events n ts) ∧
      ∀ path g body f B, (.aborted path g body f :: B) <:+ s.events n ts →
        Aborts B path g body f ∧
        ∃ code program path' file text, (running B).head? = some code ∧ f.Names code ∧
          Innermost (running B) body program code ∧ TextOf B path' program file text ∧
          f.file = file ∧ ∃ u ∈ (scan file text).tokens, f.pos = u.pos := by
  have hinv := s.inv n ts
  refine ⟨s.erase_logged n ts, hinv.accounted, fun path g body f B hB => ?_⟩
  have haborts : Aborts B path g body f := hinv.past.follows hB
  refine ⟨haborts, ?_⟩
  have hB' : B <:+ s.events n ts := (List.suffix_cons ..).trans hB
  obtain ⟨new, B₁, rfl, -, st, hst, hfell⟩ := haborts
  obtain ⟨code, hcode, hstops⟩ := hfell.failed
  obtain ⟨path', program, ⟨g', hb⟩, hinner⟩ :=
    hinv.innermost hB' hst (List.mem_append_right _ (List.mem_cons_self ..)) hfell hcode
  obtain ⟨file, text, htext⟩ := hinv.textOf hB' hb
  obtain ⟨tok, htok, hpos, hfile⟩ := hstops.names.token
  obtain ⟨u, hu, hupos, hufile⟩ := htext.at hinner.contains htok
  refine ⟨code, program, path', file, text, hcode, hstops.names, hinner, htext, ?_, u, hu, ?_⟩
  · rw [hfile, hufile, scan_file hu]
  · rw [hpos, hupos]

/-- The program that failed, and how. -/
def Event.failure? : Event → Option (Option Path × Fault)
  | .aborted path _ _ f => some (path, f)
  | _ => none

/-- The first file calls a function of the second, which fails. -/
def blamedFile : Setup where
  root := "/"
  disk := Disk.addFile {} "/a.vuel" "import \x7b f \x7d from \"b\"; f(true);".toUTF8
    |>.addFile "/b.vuel" "fun f(x)\n\x7b return -x; \x7d expose f;".toUTF8

/-- The first file fails, at the operator of the second. -/
theorem fault_names_failing_code_imported :
    ∃ g body f B, (.aborted (some ["a.vuel"]) g body f :: B) <:+
        blamedFile.events 30 [.runFile "a.vuel"] ∧
      f.file = some "b.vuel" ∧ f.pos = ⟨2, 10⟩ ∧
      ∃ code program path text, (running B).head? = some code ∧ f.Names code ∧
        Innermost (running B) body program code ∧ TextOf B path program (some "b.vuel") text := by
  have hfails : ((blamedFile.events 30 [.runFile "a.vuel"]).findSome? Event.failure?).map
      (fun r => (r.1, r.2.file, r.2.pos)) = some (some ["a.vuel"], some "b.vuel", ⟨2, 10⟩) := by
    decide +kernel
  obtain ⟨r, hr, hparts⟩ := Option.map_eq_some_iff.1 hfails
  obtain ⟨e, he, hfail⟩ := List.exists_of_findSome?_eq_some hr
  cases e with
  | aborted path g body f =>
    cases hfail
    simp only [Prod.mk.injEq] at hparts
    obtain ⟨rfl, hfile, hpos⟩ := hparts
    obtain ⟨new, B, hB⟩ := List.append_of_mem he
    have hsuffix : (.aborted (some ["a.vuel"]) g body f :: B) <:+
        blamedFile.events 30 [.runFile "a.vuel"] := ⟨new, hB.symm⟩
    obtain ⟨-, code, program, path, file, text, hcode, hnames, hinner, htext, hf, -⟩ :=
      (fault_names_failing_code blamedFile 30 [.runFile "a.vuel"]).2.2 _ g body f B hsuffix
    obtain rfl : file = some "b.vuel" := hf.symm.trans hfile
    exact ⟨g, body, f, B, hsuffix, hfile, hpos, code, program, path, text, hcode, hnames, hinner,
      htext⟩
  | made | reached | turn | scanned | read | bound | imported | began | entered | moment =>
    cases hfail

end Treewalk
