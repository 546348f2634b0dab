import Treewalk.Proofs.Scanning

/-!
# Texts put together

What is found in a text is found again in a longer one, as far as what comes next does not go on
with it. Nothing goes on after a line end, but for a string or a comment that is not closed
(`Piece.Fits.append`), and no token goes on after a blank (`Spells.parted`). So

* a text, a line end and a second text are scanned as the two by themselves, with the places of the
  second moved down (`scan_lines`);
* the lexemes of a text, with spaces between them, are scanned as its tokens (`scan_lexemes`);
* every string can be written between quotes (`scan_quoted`).
-/

namespace Treewalk

/-- The place `n` lines below. -/
def Pos.below (n : Nat) (p : Pos) : Pos := ⟨p.line + n, p.column⟩

/-- The token `n` lines below. -/
def Token.below (n : Nat) (t : Token) : Token := { t with pos := t.pos.below n }

namespace Pos

/-- A place is counted from the last line end that is before it. -/
theorem behind_line (pre cs : List Char) :
    behind (pre ++ '\n' :: cs) = (behind cs).below (pre.count '\n' + 1) := by
  have hline : (pre ++ '\n' :: cs).count '\n' + 1 = cs.count '\n' + 1 + (pre.count '\n' + 1) := by
    rw [List.count_append, List.count_cons_self]
    omega
  have hcolumn : (pre ++ '\n' :: cs).reverse.takeWhile (· != '\n') =
      cs.reverse.takeWhile (· != '\n') := by
    rw [List.reverse_append, List.reverse_cons, List.append_assoc, List.takeWhile_append]
    split
    · next hall =>
      -- `cs` is all one line, and the line end before it is where that starts
      rw [(List.takeWhile_prefix _).eq_of_length hall]
      simp
    · rfl
  rw [behind, behind, below, hline, hcolumn]

end Pos

namespace Lexer

variable {before cs rest more : List Char} {kind : Token.Kind} {taken : List Char}

/-- What a scan yields is read off the pieces of the text. -/
theorem scan_of_cut {text : String} {ps : List (Pos × Piece)} (h : Cut [] text.toList ps)
    (file : Option String) :
    scan file text =
      { tokens := ps.filterMap fun x => x.2.token? file x.1
        faults := ps.filterMap fun x => x.2.fault? x.1
        stop := Pos.behind text.toList } := by
  rw [cut_iff.1 h, ← List.nil_append text.toList, ← Pos.past_behind]
  rfl

/-- One piece may be the whole text. -/
theorem Cut.single {piece : Piece} (h : piece.Fits []) (before : List Char) :
    Cut before piece.taken [(Pos.behind before, piece)] := by
  have := Cut.piece h (Cut.done : Cut (before ++ piece.taken) [] [])
  rwa [List.append_nil] at this

/-! ### What comes next -/

theorem Clear.append {p : Char → Bool} {c : Char} (h : Clear p rest) (hc : p c = false) :
    Clear p (rest ++ c :: more) := by
  cases rest with
  | nil =>
    intro d hd
    cases hd
    exact hc
  | cons d rest => exact h

/-- A blank comes next, or the end. -/
def Parted (rest : List Char) : Prop := Clear (fun c => !isBlank c) rest

theorem Parted.clear {p : Char → Bool} (h : Parted rest)
    (hp : [' ', '\t', '\r', '\n'].any p = false) : Clear p rest := by
  intro c hc
  have hblank := h c hc
  rw [Bool.not_eq_false'] at hblank
  exact Bool.eq_false_iff.2 (List.any_eq_false.1 hp c (isBlank_iff.1 hblank))

theorem Parted.space : Parted (' ' :: rest) := by
  intro c hc
  cases hc
  rfl

theorem Parted.stop : Parted [] := by
  intro c hc
  cases hc

/-- No token goes on after a blank. -/
theorem Spells.parted (h : Spells kind taken rest) (hmore : Parted more) :
    Spells kind taken more := by
  cases h with
  | symbol _ _ =>
    exact .symbol (fun _ => hmore.clear (by decide)) fun _ => hmore.clear (by decide)
  | word hc hp _ => exact .word hc hp (hmore.clear (by decide))
  | string h => exact .string h
  | whole hne hd _ _ =>
    refine .whole hne hd (hmore.clear (by decide)) ?_
    -- a point would make a fraction of it, but a point is no blank
    rintro r rfl
    have hpoint := hmore '.' rfl
    exact absurd hpoint (by decide)
  | fraction hne hd hfne hf _ => exact .fraction hne hd hfne hf (hmore.clear (by decide))

/-- What is found before the end of a text is found before a line end. -/
theorem Spells.append (h : Spells kind taken rest) (more : List Char) :
    Spells kind taken (rest ++ '\n' :: more) := by
  cases h with
  | symbol he hs => exact .symbol (fun h => (he h).append rfl) fun h => (hs h).append rfl
  | word hc hp hr => exact .word hc hp (hr.append (by decide))
  | string h => exact .string h
  | whole hne hd hr hf =>
    refine .whole hne hd (hr.append (by decide)) fun r hpoint => ?_
    cases rest with
    | nil => cases hpoint
    | cons c rest =>
      obtain ⟨rfl, rfl⟩ := List.cons.inj hpoint
      exact (hf rest rfl).append (by decide)
  | fraction hne hd hfne hf hr => exact .fraction hne hd hfne hf (hr.append (by decide))

/-- What is not closed goes on to the end of the text. -/
def Form.Open (f : Form) : Prop := f = .fault .openString ∨ f = .fault .openComment

end Lexer

open Lexer

theorem Piece.Fits.append {piece : Piece} {rest : List Char} (h : piece.Fits rest)
    (hclosed : ¬piece.form.Open) (more : List Char) : piece.Fits (rest ++ '\n' :: more) := by
  cases h with
  | blank hc => exact .blank hc
  | lineComment hb hr => exact .lineComment hb (hr.append rfl)
  | blockComment hb => exact .blockComment hb
  | token hs => exact .token (hs.append more)
  | unexpected hb hs => exact .unexpected hb hs
  | openString _ => exact absurd (.inl rfl) hclosed
  | openComment _ => exact absurd (.inr rfl) hclosed

namespace Lexer

variable {before cs more : List Char} {ps qs : List (Pos × Piece)}

/-! ### Lines -/

theorem Cut.append (h : Cut before cs ps) (hclosed : ∀ x ∈ ps, ¬x.2.form.Open)
    (hmore : Cut (before ++ cs) ('\n' :: more) qs) :
    Cut before (cs ++ '\n' :: more) (ps ++ qs) := by
  induction h with
  | done => rwa [List.append_nil] at hmore
  | @piece before rest piece ps hp hcut ih =>
    obtain ⟨hpiece, hps⟩ := List.forall_mem_cons.1 hclosed
    rw [← List.append_assoc] at hmore
    rw [List.append_assoc]
    exact .piece (hp.append hpiece more) (ih hps hmore)

/-- The same pieces are found after more lines. -/
theorem Cut.lowered (h : Cut before cs ps) (pre : List Char) :
    Cut (pre ++ '\n' :: before) cs
      (ps.map fun x => (x.1.below (pre.count '\n' + 1), x.2)) := by
  induction h with
  | done => exact .done
  | @piece before rest piece ps hp hcut ih =>
    have hnext : Cut (pre ++ '\n' :: before ++ piece.taken) rest
        (ps.map fun x => (x.1.below (pre.count '\n' + 1), x.2)) := by
      rwa [List.append_assoc]
    have := Cut.piece hp hnext
    rwa [Pos.behind_line] at this

theorem tokens_below (ps : List (Pos × Piece)) (file : Option String) (n : Nat) :
    ((ps.map fun x => (x.1.below n, x.2)).filterMap fun x => x.2.token? file x.1) =
      (ps.filterMap fun x => x.2.token? file x.1).map (Token.below n) := by
  rw [List.filterMap_map, List.map_filterMap]
  refine List.filterMap_congr fun x _ => ?_
  obtain ⟨p, taken, form⟩ := x
  cases form <;> rfl

theorem faults_below (ps : List (Pos × Piece)) (n : Nat) :
    ((ps.map fun x => (x.1.below n, x.2)).filterMap fun x => x.2.fault? x.1) =
      (ps.filterMap fun x => x.2.fault? x.1).map fun x => (x.1.below n, x.2) := by
  rw [List.filterMap_map, List.map_filterMap]
  refine List.filterMap_congr fun x _ => ?_
  obtain ⟨p, taken, form⟩ := x
  cases form <;> rfl

/-- What is left open is reported. -/
theorem not_open_of_faults {file : Option String} {text : String}
    (h : ∀ x ∈ (scan file text).faults, x.2 ≠ .openString ∧ x.2 ≠ .openComment) :
    ∀ x ∈ pieces text.toList, ¬x.2.form.Open := by
  rintro ⟨p, taken, form⟩ hx hopen
  have hfault : ∀ f, form = .fault f → (p, f) ∈ (scan file text).faults := by
    rintro f rfl
    exact List.mem_filterMap.2 ⟨_, hx, rfl⟩
  rcases hopen with hopen | hopen
  · exact (h _ (hfault _ hopen)).1 rfl
  · exact (h _ (hfault _ hopen)).2 rfl

/-- If no string and no comment is left open by the first text, the second one is scanned in the
lines below it as it is by itself. -/
theorem scan_lines (file : Option String) (a b : String)
    (h : ∀ x ∈ (scan file a).faults, x.2 ≠ .openString ∧ x.2 ≠ .openComment) :
    let n := a.toList.count '\n' + 1
    scan file (a ++ "\n" ++ b) =
      { tokens := (scan file a).tokens ++ (scan file b).tokens.map (Token.below n)
        faults := (scan file a).faults ++ (scan file b).faults.map fun x => (x.1.below n, x.2)
        stop := (scan file b).stop.below n } := by
  intro n
  have ha : Cut [] a.toList (pieces a.toList) := cut_iff.2 rfl
  have hb : Cut [] b.toList (pieces b.toList) := cut_iff.2 rfl
  have htext : (a ++ "\n" ++ b).toList = a.toList ++ '\n' :: b.toList := by
    rw [String.toList_append, String.toList_append, List.append_assoc]
    rfl
  have hblank : Piece.Fits ⟨['\n'], .blank⟩ b.toList := .blank (by decide)
  have hline : Cut a.toList ('\n' :: b.toList) _ := .piece hblank (hb.lowered a.toList)
  have hcut := ha.append (not_open_of_faults h) hline
  rw [← htext] at hcut
  rw [scan_of_cut hcut, scan_of_cut ha, scan_of_cut hb, htext, Pos.behind_line,
    List.filterMap_append, List.filterMap_append, ← tokens_below, ← faults_below]
  rfl

/-- A string over two lines, a character that starts nothing, and a comment up to the seam. -/
theorem scan_lines_comment :
    let a := "x = \"p\nq\"; # // r"
    let b := "/* s */\n1.5"
    (∀ x ∈ (scan none a).faults, x.2 ≠ .openString ∧ x.2 ≠ .openComment) ∧
      scan none (a ++ "\n" ++ b) =
        { tokens := (scan none a).tokens ++ (scan none b).tokens.map (Token.below 2)
          faults := (scan none a).faults ++ (scan none b).faults.map fun x => (x.1.below 2, x.2)
          stop := (scan none b).stop.below 2 } := by
  intro a b
  have h : ∀ x ∈ (scan none a).faults, x.2 ≠ .openString ∧ x.2 ≠ .openComment := by
    decide +kernel
  have hcount : a.toList.count '\n' = 1 := by decide +kernel
  have := scan_lines none a b h
  rw [hcount] at this
  exact ⟨h, this⟩

/-! ### Lexemes -/

/-- The lexeme of the token spells it in some place. -/
def Spelled (t : Token) : Prop := ∃ rest, Spells t.kind t.lexeme.toList rest

theorem spelled_of_mem_scan {file : Option String} {text : String} {t : Token}
    (h : t ∈ (scan file text).tokens) : Spelled t := by
  have hcut : Cut [] text.toList (pieces text.toList) := cut_iff.2 rfl
  obtain ⟨⟨p, taken, form⟩, hmem, ht⟩ := List.mem_filterMap.1 h
  obtain ⟨l, r, hps⟩ := List.append_of_mem hmem
  have hfits := (hcut.at_piece hps).2
  generalize textOf r = rest at hfits
  cases hfits with
  | token hs =>
    cases ht
    refine ⟨rest, ?_⟩
    rwa [String.toList_ofList]
  | _ => cases ht

/-- Tokens written out with spaces between them are found again. -/
theorem exists_cut_spaced {ts : List Token} (h : ∀ t ∈ ts, Spelled t) (before : List Char) :
    ∃ ps, Cut before ([' '].intercalate (ts.map fun t => t.lexeme.toList)) ps ∧
      (ps.filterMap fun x => x.2.fault? x.1) = [] ∧
      ∀ file, (ps.filterMap fun x => x.2.token? file x.1).map (fun t => (t.kind, t.lexeme)) =
        ts.map fun t => (t.kind, t.lexeme) := by
  induction ts generalizing before with
  | nil => exact ⟨[], .done, rfl, fun file => rfl⟩
  | cons t ts ih =>
    obtain ⟨⟨rest, hspells⟩, hts⟩ := List.forall_mem_cons.1 h
    have htoken : ∀ more, Parted more → Piece.Fits ⟨t.lexeme.toList, .token t.kind⟩ more :=
      fun more hmore => .token (hspells.parted hmore)
    cases ts with
    | nil =>
      rw [List.map_singleton, List.intercalate_singleton]
      refine ⟨_, .single (htoken [] .stop) before, rfl, fun file => ?_⟩
      simp [Piece.token?, String.ofList_toList]
    | cons u us =>
      -- the space is a piece of its own and parts the lexeme from the next one
      obtain ⟨ps, hcut, hfaults, htokens⟩ := ih hts (before ++ t.lexeme.toList ++ [' '])
      have hspace : Piece.Fits ⟨[' '], .blank⟩
          ([' '].intercalate ((u :: us).map fun t => t.lexeme.toList)) := .blank (by decide)
      have hall := Cut.piece (htoken _ .space) (.piece hspace hcut)
      rw [List.map_cons, List.map_cons, List.intercalate_cons_cons, List.append_assoc]
      refine ⟨_, hall, ?_, fun file => ?_⟩
      · simpa [Piece.fault?] using hfaults
      · simpa [Piece.token?, String.ofList_toList] using htokens file

/-- The lexemes of a text, also of one with faults, say what its tokens are. -/
theorem scan_lexemes (file other : Option String) (text : String) :
    let tokens := (scan file text).tokens
    let again := scan other (" ".intercalate (tokens.map (·.lexeme)))
    again.faults = [] ∧
      again.tokens.map (fun t => (t.kind, t.lexeme)) =
        tokens.map fun t => (t.kind, t.lexeme) := by
  intro tokens again
  obtain ⟨ps, hcut, hfaults, htokens⟩ :=
    exists_cut_spaced (fun t (ht : t ∈ tokens) => spelled_of_mem_scan ht) []
  have htext : (" ".intercalate (tokens.map (·.lexeme))).toList =
      [' '].intercalate (tokens.map fun t => t.lexeme.toList) := by
    rw [String.toList_intercalate, List.map_map]
    rfl
  rw [← htext] at hcut
  have hagain : again = _ := scan_of_cut hcut other
  rw [hagain]
  exact ⟨hfaults, htokens other⟩

/-! ### Strings -/

/-- How `c` is written between quotes. A line end stands there as it is, or as an escape if
`short`. -/
def spell (short : Bool) : Char → List Char
  | '"' => ['\\', '"']
  | '\\' => ['\\', '\\']
  | '\n' => if short then ['\\', 'n'] else ['\n']
  | c => [c]

/-- How `cs` are written between quotes. A line end at the index `i` is an escape if `short i`. -/
def spellAll (short : Nat → Bool) (cs : List Char) : List Char :=
  (cs.mapIdx fun i c => spell (short i) c).flatten

theorem Quoted.spell {body value : List Char} (h : Quoted body value) (short : Bool) (c : Char) :
    Quoted (spell short c ++ body) (c :: value) := by
  unfold Lexer.spell
  split
  · exact .escaped h
  · exact .escaped h
  · split
    · exact .escaped h
    · exact .plain (by decide) (by decide) h
  · next hq hb _ => exact .plain hq hb h

theorem quoted_spellAll (short : Nat → Bool) (cs : List Char) : Quoted (spellAll short cs) cs := by
  induction cs generalizing short with
  | nil => exact .nil
  | cons c cs ih =>
    rw [spellAll, List.mapIdx_cons, List.flatten_cons]
    exact (ih fun i => short (i + 1)).spell (short 0) c

/-- A text may be one token. -/
theorem scan_of_spells {text : String} {kind : Token.Kind} (h : Spells kind text.toList [])
    (file : Option String) :
    scan file text =
      { tokens := [{ kind, lexeme := text, pos := .start, file }]
        faults := []
        stop := Pos.behind text.toList } := by
  rw [scan_of_cut (.single (.token h) [])]
  simp [Piece.token?, Piece.fault?, String.ofList_toList, Pos.behind, Pos.start]

/-- Every string is the value of the one token of a text. -/
theorem scan_quoted (file : Option String) (s : String) (short : Nat → Bool) :
    let text := String.ofList ('"' :: (spellAll short s.toList ++ ['"']))
    scan file text =
      { tokens := [{ kind := .string s, lexeme := text, pos := .start, file }]
        faults := []
        stop := Pos.behind text.toList } := by
  have hspells : Spells (.string (String.ofList s.toList)) _ [] :=
    .string (quoted_spellAll short s.toList)
  rw [String.ofList_toList] at hspells
  refine scan_of_spells ?_ file
  rw [String.toList_ofList]
  exact hspells

end Lexer

end Treewalk
