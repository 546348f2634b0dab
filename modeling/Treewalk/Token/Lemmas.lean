import Treewalk.Token.Lexer

/-!
# Pieces of a text

A piece that the lexer finds is the start of the text ahead and covers at least the character it
starts at (`Piece.first_taken_le`, `Piece.first_taken_head`). So nothing of a text is lost or read
twice.
-/

namespace Treewalk

namespace Lexer

/-- What closes a comment is part of the text. -/
theorem commentRest?_le {cs taken : List Char} (h : commentRest? cs = some taken) :
    taken <+: cs := by
  induction cs using commentRest?.induct generalizing taken with
  | case1 cs =>
    simp only [commentRest?, Option.some.injEq] at h
    subst h
    exact ⟨cs, rfl⟩
  | case2 c cs hne ih =>
    rw [commentRest?.eq_2 c cs hne] at h
    obtain ⟨t, ht, rfl⟩ := Option.map_eq_some_iff.1 h
    obtain ⟨r, rfl⟩ := ih ht
    exact ⟨r, rfl⟩
  | case3 => simp [commentRest?] at h

/-- What closes a string is part of the text. -/
theorem stringRest?_le {cs taken value : List Char} (h : stringRest? cs = some (taken, value)) :
    taken <+: cs := by
  induction cs using stringRest?.induct generalizing taken value with
  | case1 cs =>
    simp only [stringRest?, Option.some.injEq, Prod.mk.injEq] at h
    obtain ⟨rfl, -⟩ := h
    exact ⟨cs, rfl⟩
  | case2 c cs ih =>
    simp only [stringRest?] at h
    obtain ⟨⟨t, v⟩, ht, hc⟩ := Option.map_eq_some_iff.1 h
    obtain ⟨r, rfl⟩ := ih ht
    cases hc
    exact ⟨r, rfl⟩
  | case3 => simp [stringRest?] at h
  | case4 c cs h1 h2 h3 ih =>
    rw [stringRest?.eq_4 c cs h1 h2 h3] at h
    obtain ⟨⟨t, v⟩, ht, hc⟩ := Option.map_eq_some_iff.1 h
    obtain ⟨r, rfl⟩ := ih ht
    cases hc
    exact ⟨r, rfl⟩
  | case5 => simp [stringRest?] at h

/-- A fraction is part of the text. -/
theorem fraction_le (cs : List Char) : fraction cs <+: cs := by
  unfold fraction
  split
  · split
    · exact (List.cons_prefix_cons.2 ⟨rfl, List.takeWhile_prefix _⟩)
    · exact List.nil_prefix
  · exact List.nil_prefix

end Lexer

namespace Piece
open Lexer

/-- A piece is the start of the text it is found in. -/
theorem first_taken_le (c : Char) (cs : List Char) : (first c cs).taken <+: c :: cs := by
  unfold first
  split
  · exact ⟨cs, rfl⟩
  split
  · split
    · next h => exact List.cons_prefix_cons.2 ⟨rfl, stringRest?_le h⟩
    · exact List.prefix_rfl
  split
  · exact List.cons_prefix_cons.2 ⟨rfl, List.takeWhile_prefix _⟩
  split
  · next hs =>
    split
    · next h =>
      refine List.cons_prefix_cons.2 ⟨rfl, ?_⟩
      cases cs with
      | nil => simp at hs
      | cons d cs =>
        simp only [List.head?_cons, Bool.and_eq_true, beq_iff_eq, Option.some.injEq] at hs
        obtain ⟨-, rfl⟩ := hs
        exact List.cons_prefix_cons.2 ⟨rfl, commentRest?_le h⟩
    · exact List.prefix_rfl
  split
  · refine List.cons_prefix_cons.2 ⟨rfl, ?_⟩
    obtain ⟨r, hr⟩ := fraction_le (cs.dropWhile Char.isDigit)
    refine ⟨r, ?_⟩
    change List.takeWhile Char.isDigit cs ++ fraction _ ++ r = cs
    rw [List.append_assoc, hr, List.takeWhile_append_dropWhile]
  split
  · exact List.cons_prefix_cons.2 ⟨rfl, List.takeWhile_prefix _⟩
  split
  · unfold ofSymbol
    split
    · exact ⟨_, rfl⟩
    · exact ⟨_, rfl⟩
  · exact ⟨cs, rfl⟩

/-- A piece covers the character it starts at. -/
theorem first_taken_head (c : Char) (cs : List Char) : (first c cs).taken.head? = some c := by
  unfold first ofSymbol
  grind

end Piece

end Treewalk
