import Treewalk.Proofs.Spelling

/-!
# Nothing of a text is lost

`Cut before ahead ps`: the text ahead falls into the pieces `ps`, one after the other, each of which
fits where it stands and is put down at the place behind all that is before it. A place is counted
from the text alone (`Pos.behind`). `cut_iff`: every text falls into pieces in one way, which is the
one that the lexer finds.
-/

namespace Treewalk

/-- The place after `cs`, which stand at the start of a text: the line by the line ends in them, the
column by the characters after the last of these. -/
def Pos.behind (cs : List Char) : Pos :=
  ⟨cs.count '\n' + 1, (cs.reverse.takeWhile (· != '\n')).length + 1⟩

theorem Pos.behind_append (cs : List Char) (c : Char) :
    Pos.behind (cs ++ [c]) = (Pos.behind cs).after c := by
  by_cases hc : c = '\n'
  · subst hc
    simp [behind, after]
  · have hcount : (cs ++ [c]).count '\n' = cs.count '\n' := by
      rw [List.count_append, List.count_singleton, if_neg (by simpa using hc), Nat.add_zero]
    have hline : ((cs ++ [c]).reverse.takeWhile (· != '\n')).length =
        (cs.reverse.takeWhile (· != '\n')).length + 1 := by
      rw [List.reverse_append, List.reverse_singleton, List.singleton_append,
        List.takeWhile_cons_of_pos (by simpa using hc), List.length_cons]
    rw [behind, hcount, hline, after, if_neg hc, behind]

/-- Counting on from a place is counting from the start. -/
theorem Pos.past_behind (before cs : List Char) :
    (Pos.behind before).past cs = Pos.behind (before ++ cs) := by
  induction cs generalizing before with
  | nil => rw [List.append_nil]; rfl
  | cons c cs ih =>
    have hnext := ih (before ++ [c])
    rw [Pos.behind_append, List.append_assoc] at hnext
    exact hnext

namespace Lexer

/-- The text ahead falls into these pieces, each with its place. -/
inductive Cut : (before ahead : List Char) → List (Pos × Piece) → Prop where
  | done {before : List Char} : Cut before [] []
  | piece {before rest : List Char} {piece : Piece} {ps : List (Pos × Piece)}
      (hp : piece.Fits rest) (h : Cut (before ++ piece.taken) rest ps) :
      Cut before (piece.taken ++ rest) ((Pos.behind before, piece) :: ps)

/-- The lexer passes over the characters of the piece found last. -/
theorem cut_covered (taken rest : List Char) (p : Pos) (acc : List (Pos × Piece)) :
    cut (taken ++ rest) taken.length p acc = cut rest 0 (p.past taken) acc := by
  induction taken generalizing p with
  | nil => rfl
  | cons c taken ih => exact ih (p.after c)

theorem cut_first {c : Char} {cs rest : List Char} (p : Pos) (acc : List (Pos × Piece))
    (h : (Piece.first c cs).taken ++ rest = c :: cs) :
    cut (c :: cs) 0 p acc =
      cut rest 0 (p.past (Piece.first c cs).taken) ((p, Piece.first c cs) :: acc) := by
  have hhead := Piece.first_taken_head c cs
  cases htaken : (Piece.first c cs).taken with
  | nil =>
    rw [htaken] at hhead
    cases hhead
  | cons d taken =>
    rw [htaken] at h
    obtain ⟨rfl, rfl⟩ := List.cons.inj h
    rw [cut, htaken]
    exact cut_covered taken rest (p.after d) _

/-- The lexer cuts what is ahead. -/
theorem exists_cut (before cs : List Char) (acc : List (Pos × Piece)) :
    ∃ ps, Cut before cs ps ∧ cut cs 0 (Pos.behind before) acc = ps.reverse ++ acc := by
  -- By induction on the length of what is ahead, of which each piece takes at least a character.
  induction hn : cs.length using Nat.strong_induction_on generalizing before cs acc with
  | _ n ih =>
    cases cs with
    | nil => exact ⟨[], .done, rfl⟩
    | cons c cs =>
      obtain ⟨rest, hrest⟩ := Piece.first_taken_le c cs
      have hhead := Piece.first_taken_head c cs
      have hlength := congrArg List.length hrest
      have hpos : 0 < (Piece.first c cs).taken.length := by
        cases htaken : (Piece.first c cs).taken with
        | nil =>
          rw [htaken] at hhead
          cases hhead
        | cons d taken => simp
      rw [List.length_append] at hlength
      obtain ⟨ps, hcut, hps⟩ := ih rest.length (by omega) (before ++ (Piece.first c cs).taken) rest
        ((Pos.behind before, Piece.first c cs) :: acc) rfl
      refine ⟨(Pos.behind before, Piece.first c cs) :: ps, ?_, ?_⟩
      · have hpiece := Cut.piece (Piece.first_fits hrest) hcut
        rwa [hrest] at hpiece
      · rw [cut_first _ _ hrest, Pos.past_behind, hps]
        simp

/-- A text falls into pieces in one way. -/
theorem Cut.unique {before cs : List Char} {ps qs : List (Pos × Piece)} (hp : Cut before cs ps)
    (hq : Cut before cs qs) : ps = qs := by
  induction hp generalizing qs with
  | done =>
    generalize hcs : ([] : List Char) = cs at hq
    cases hq with
    | done => rfl
    | piece hfits hcut => exact absurd (List.append_eq_nil_iff.1 hcs.symm).1 hfits.taken_ne_nil
  | @piece before rest piece ps hfits hcut ih =>
    generalize hcs : piece.taken ++ rest = cs at hq
    cases hq with
    | done => exact absurd (List.append_eq_nil_iff.1 hcs).1 hfits.taken_ne_nil
    | @piece _ rest' piece' qs hfits' hcut' =>
      obtain ⟨c, taken, htaken⟩ := List.exists_cons_of_ne_nil hfits.taken_ne_nil
      have hahead : piece.taken ++ rest = c :: (taken ++ rest) := by rw [htaken]; rfl
      have hsame : piece = piece' := by
        rw [Piece.eq_first_of_fits hfits hahead,
          Piece.eq_first_of_fits hfits' (hcs.symm.trans hahead)]
      subst hsame
      have hrest := List.append_cancel_left hcs
      subst hrest
      rw [ih hcut']

theorem cut_iff {cs : List Char} {ps : List (Pos × Piece)} : Cut [] cs ps ↔ ps = pieces cs := by
  obtain ⟨qs, hcut, hqs⟩ := exists_cut [] cs []
  have hpieces : pieces cs = qs := by
    rw [List.append_nil] at hqs
    rw [pieces, ← List.reverse_reverse qs, ← hqs]
    rfl
  constructor
  · intro h
    rw [hpieces]
    exact h.unique hcut
  · rintro rfl
    rwa [hpieces]

/-- The text of some pieces in a row. -/
def textOf (ps : List (Pos × Piece)) : List Char := (ps.map (·.2.taken)).flatten

theorem Cut.textOf_eq {before cs : List Char} {ps : List (Pos × Piece)} (h : Cut before cs ps) :
    textOf ps = cs := by
  induction h with
  | done => rfl
  | @piece before rest piece ps hfits hcut ih =>
    rw [← ih]
    rfl

theorem Cut.at_piece {before cs : List Char} {ps : List (Pos × Piece)} (h : Cut before cs ps)
    {l r : List (Pos × Piece)} {p : Pos} {piece : Piece} (hps : ps = l ++ (p, piece) :: r) :
    p = Pos.behind (before ++ textOf l) ∧ piece.Fits (textOf r) := by
  induction h generalizing l with
  | done => simp at hps
  | @piece before rest first ps hfits hcut ih =>
    cases l with
    | nil =>
      obtain ⟨hfirst, rfl⟩ := List.cons.inj hps
      obtain ⟨rfl, rfl⟩ := Prod.mk.inj hfirst
      rw [hcut.textOf_eq]
      exact ⟨by simp [textOf], hfits⟩
    | cons x l =>
      obtain ⟨rfl, htail⟩ := List.cons.inj hps
      obtain ⟨hp, hpiece⟩ := ih htail
      refine ⟨?_, hpiece⟩
      rw [hp, List.append_assoc]
      rfl

/-- Every text is, in one way, a row of pieces that each fit where they stand. There is a token for
each piece that is one and nothing else: its kind, the characters of the piece, the place behind all
the text before it, and the file. What is wrong with the text are the pieces that are faults, each
once and at its first character; and the end is behind the whole text. -/
theorem scan_exact (file : Option String) (text : String) :
    ∃ ps : List (Pos × Piece),
      (∀ qs, Cut [] text.toList qs ↔ qs = ps) ∧
      textOf ps = text.toList ∧
      (∀ l p piece r, ps = l ++ (p, piece) :: r →
        p = Pos.behind (textOf l) ∧ piece.Fits (textOf r)) ∧
      (scan file text).tokens = ps.filterMap (fun x => match x.2.form with
        | .token kind => some { kind, lexeme := String.ofList x.2.taken, pos := x.1, file }
        | _ => none) ∧
      (scan file text).faults = ps.filterMap (fun x => match x.2.form with
        | .fault f => some (x.1, f)
        | _ => none) ∧
      (scan file text).stop = Pos.behind text.toList := by
  have hcut : Cut [] text.toList (pieces text.toList) := cut_iff.2 rfl
  refine ⟨pieces text.toList, fun qs => cut_iff, hcut.textOf_eq, ?_, rfl, rfl, ?_⟩
  · intro l p piece r hps
    exact hcut.at_piece hps
  · exact Pos.past_behind [] text.toList

end Lexer

end Treewalk
