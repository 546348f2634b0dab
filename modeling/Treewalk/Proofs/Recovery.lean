import Mathlib.Order.Bounds.Basic
import Treewalk.Proofs.Appending
import Treewalk.Proofs.Written

/-!
# Where reading goes on after a fault

A fault in a declaration leaves reading at some token, with the index `e` among all tokens. It is
specified to go on at the next boundary from `e` on: at a keyword that starts a declaration or a
statement, after a semicolon, or at the end (`Recovery.boundaries`). What it does is different in one
point: the token at `e` is passed over in any case (`Recovery.resumptions`). So reading goes on where
it is specified to just if that token is none of the keywords, and else what the keyword starts is
lost (`Recovery.declaration_resumes`).
-/

namespace Treewalk.Recovery
open Read

/-- The keywords that a declaration or a statement starts with. -/
def openers : List Keyword :=
  [.cls, .fun, .var, .for, .if, .while, .print, .return, .imports, .expose, .break, .continue]

/-- One of the keywords is at `i`. -/
def StartsAt (T : List Token) (i : Nat) : Prop := ∃ t ∈ T[i]?, ∃ k ∈ openers, t.isKeyword k = true

/-- A semicolon is at `i`. -/
def EndsAt (T : List Token) (i : Nat) : Prop := ∃ t ∈ T[i]?, t.isSymbol .semicolon = true

/-- Where reading of `T` may go on after a fault at `e`, as specified. -/
def boundaries (T : List Token) (e : Nat) : Set Nat :=
  {p | e ≤ p ∧ (p = T.length ∨ StartsAt T p ∨ e < p ∧ EndsAt T (p - 1))}

/-- Where it may go on, as it is read. -/
def resumptions (T : List Token) (e : Nat) : Set Nat :=
  {p | e ≤ p ∧ (p = T.length ∨ e < p ∧ (StartsAt T p ∨ EndsAt T (p - 1)))}

theorem resumesAt_iff (t : Token) :
    Reader.resumesAt t = true ↔ ∃ k ∈ openers, t.isKeyword k = true := by
  constructor
  · intro h
    unfold Reader.resumesAt at h
    split at h
    · next k hk =>
      refine ⟨k, ?_, ?_⟩
      · revert h
        cases k <;> simp [openers]
      · rw [Token.isKeyword, hk]
        exact beq_self_eq_true _
    · cases h
  · rintro ⟨k, hk, ht⟩
    rw [Reader.resumesAt, Token.kind_of_isKeyword ht]
    revert hk
    cases k <;> simp [openers]

section
variable {T ts : List Token} {t last : Token} {e p : Nat}

theorem startsAt_iff (h : T.drop e = t :: ts) : StartsAt T e ↔ Reader.resumesAt t = true := by
  have ht : T[e]? = some t := by
    rw [← Nat.add_zero e, ← List.getElem?_drop, h]
    rfl
  rw [resumesAt_iff, StartsAt, ht]
  simp

theorem endsAt_iff (h : T.drop e = t :: ts) : EndsAt T e ↔ t.isSymbol .semicolon = true := by
  have ht : T[e]? = some t := by
    rw [← Nat.add_zero e, ← List.getElem?_drop, h]
    rfl
  rw [EndsAt, ht]
  simp

theorem drop_succ (h : T.drop e = t :: ts) : T.drop (e + 1) = ts ∧ e < T.length := by
  refine ⟨?_, ?_⟩
  · rw [← List.drop_drop, h]
    rfl
  · by_contra hle
    rw [List.drop_eq_nil_of_le (Nat.le_of_not_lt hle)] at h
    cases h

/-- If nothing ends or starts right after `e`, the place to go on is the same from there. -/
theorem isLeast_resumptions_succ (he : e + 1 < T.length) (hs : ¬StartsAt T (e + 1))
    (hend : ¬EndsAt T e) (h : IsLeast (resumptions T (e + 1)) p) :
    IsLeast (resumptions T e) p := by
  obtain ⟨⟨hle, hp⟩, hleast⟩ := h
  refine ⟨⟨by omega, ?_⟩, ?_⟩
  · rcases hp with hp | ⟨hlt, hp⟩
    · exact .inl hp
    · exact .inr ⟨by omega, hp⟩
  · rintro q ⟨hle, hq⟩
    refine hleast ?_
    rcases hq with hq | ⟨hlt, hq⟩
    · exact ⟨by omega, .inl hq⟩
    · refine ⟨hlt, .inr ⟨?_, hq⟩⟩
      -- `q` is not `e + 1`, where there is nothing
      by_contra hge
      obtain rfl : q = e + 1 := by omega
      rcases hq with hq | hq
      · exact hs hq
      · exact hend hq

theorem dropSpoiled_resumes (h : T.drop e = last :: ts) :
    ∃ p, Reader.dropSpoiled last ts = T.drop p ∧ IsLeast (resumptions T e) p := by
  induction ts generalizing last e with
  | nil =>
    obtain ⟨hdrop, hlt⟩ := drop_succ h
    have hlen : T.length = e + 1 := by
      have := List.drop_eq_nil_iff.1 hdrop
      omega
    refine ⟨e + 1, hdrop.symm, ⟨by omega, .inl hlen.symm⟩, ?_⟩
    rintro q ⟨hle, hq⟩
    omega
  | cons t ts ih =>
    obtain ⟨hdrop, hlt⟩ := drop_succ h
    obtain ⟨-, hlt'⟩ := drop_succ hdrop
    rw [Reader.dropSpoiled]
    by_cases hc : (last.isSymbol .semicolon || Reader.resumesAt t) = true
    · rw [if_pos hc]
      rw [Bool.or_eq_true, ← endsAt_iff h, ← startsAt_iff hdrop] at hc
      refine ⟨e + 1, hdrop.symm, ⟨by omega, .inr ⟨by omega, hc.symm⟩⟩, ?_⟩
      rintro q ⟨hle, hq⟩
      omega
    · rw [if_neg hc]
      rw [Bool.or_eq_true, ← endsAt_iff h, ← startsAt_iff hdrop, not_or] at hc
      obtain ⟨p, hp, hleast⟩ := ih hdrop
      exact ⟨p, hp, isLeast_resumptions_succ hlt' hc.2 hc.1 hleast⟩

theorem recover_resumes {r : Reader} (he : e ≤ T.length) (h : r.rest = T.drop e) :
    ∃ p, r.recover = { r with rest := T.drop p } ∧ IsLeast (resumptions T e) p := by
  obtain ⟨rest, stop, id, faults⟩ := r
  cases rest with
  | nil =>
    have hlen : T.length = e := by
      have := List.drop_eq_nil_iff.1 h.symm
      omega
    refine ⟨e, ?_, ⟨le_refl e, .inl hlen.symm⟩, fun q hq => hq.1⟩
    rw [← h]
    rfl
  | cons t ts =>
    obtain ⟨p, hp, hleast⟩ := dropSpoiled_resumes h.symm
    refine ⟨p, ?_, hleast⟩
    rw [← hp]
    rfl

theorem startsAt_lt (h : StartsAt T e) : e < T.length := by
  obtain ⟨t, ht, -⟩ := h
  exact (List.getElem?_eq_some_iff.1 ht).1

/-- The one point in which the two differ. -/
theorem isLeast_boundaries_iff (h : IsLeast (resumptions T e) p) :
    IsLeast (boundaries T e) p ↔ ¬StartsAt T e := by
  obtain ⟨⟨hle, hp⟩, hleast⟩ := h
  constructor
  · rintro ⟨-, hb⟩ hs
    have hpe : p ≤ e := hb ⟨le_refl e, .inr (.inl hs)⟩
    have hlt := startsAt_lt hs
    omega
  · intro hs
    refine ⟨⟨hle, ?_⟩, ?_⟩
    · rcases hp with hp | ⟨hlt, hp | hp⟩
      · exact .inl hp
      · exact .inr (.inl hp)
      · exact .inr (.inr ⟨hlt, hp⟩)
    · rintro q ⟨hle, hq⟩
      refine hleast ⟨hle, ?_⟩
      rcases hq with hq | hq | ⟨hlt, hq⟩
      · exact .inl hq
      · -- a keyword is at `q`, and none is at `e`
        have hne : e ≠ q := fun heq => hs (heq ▸ hq)
        exact .inr ⟨by omega, .inl hq⟩
      · exact .inr ⟨hlt, .inr hq⟩

end

variable {T : List Token} {n : Nat} {r r₁ : Reader}

/-- A fault leaves reading at one of the tokens or at the end. -/
theorem declared_stops (hr : r.rest <:+ T) (h : declared n r = .error .faulty r₁) :
    ∃ e, e ≤ T.length ∧ r₁.rest = T.drop e := by
  have hmakes := (stmtMakes T False n).declared r hr
  rw [h] at hmakes
  exact ⟨_, Nat.sub_le _ _, List.suffix_iff_eq_drop.1 hmakes.1⟩

theorem declaration_of_faulty (h : declared n r = .error .faulty r₁) :
    declaration (n + 1) r = .ok none r₁.recover := by
  rw [declaration_eq, recovering, h]

theorem declarations_of_faulty (hr : r.rest ≠ []) (h : declared n r = .error .faulty r₁)
    (acc : List Stmt) : declarations (n + 2) acc r = declarations (n + 1) acc r₁.recover := by
  have hopen : ¬r.rest.isEmpty = true := fun h => hr (List.isEmpty_iff.1 h)
  rw [declarations, bind_ok (p := atEnd) (r := r) rfl, if_neg hopen,
    bind_ok (declaration_of_faulty h)]

theorem block_of_faulty (hr : r.rest ≠ []) (hopen : Avoids (·.isSymbol .rightBrace) r.rest)
    (h : declared n r = .error .faulty r₁) (acc : List Stmt) :
    block (n + 2) acc r = block (n + 1) acc r₁.recover := by
  have hgoes : ¬(r.rest.isEmpty || r.rest.head?.any (·.isSymbol .rightBrace)) = true := by
    rw [Bool.or_eq_true, not_or, List.isEmpty_iff, Bool.not_eq_true]
    exact ⟨hr, hopen⟩
  rw [block, bind_ok (p := atEnd) (r := r) rfl,
    bind_ok (p := ahead (·.isSymbol .rightBrace)) (r := r) rfl, if_neg hgoes,
    bind_ok (declaration_of_faulty h)]

/-- A fault at `e` while a declaration of `T` is read, in a program or in a block. -/
theorem declaration_resumes (hr : r.rest <:+ T) (h : declared n r = .error .faulty r₁) :
    ∃ e p, e ≤ T.length ∧ r₁.rest = T.drop e ∧ IsLeast (resumptions T e) p ∧
      declaration (n + 1) r = .ok none { r₁ with rest := T.drop p } ∧
      (r.rest ≠ [] → ∀ acc,
        declarations (n + 2) acc r = declarations (n + 1) acc { r₁ with rest := T.drop p } ∧
          (Avoids (·.isSymbol .rightBrace) r.rest →
            block (n + 2) acc r = block (n + 1) acc { r₁ with rest := T.drop p })) ∧
      (IsLeast (boundaries T e) p ↔ ¬StartsAt T e) ∧
      (StartsAt T e → IsLeast (boundaries T e) e ∧ e < p) := by
  obtain ⟨e, he, hrest⟩ := declared_stops hr h
  obtain ⟨p, hp, hleast⟩ := recover_resumes he hrest
  refine ⟨e, p, he, hrest, hleast, ?_, ?_, isLeast_boundaries_iff hleast, fun hs => ⟨?_, ?_⟩⟩
  · rw [declaration_of_faulty h, hp]
  · intro hne acc
    rw [← hp]
    exact ⟨declarations_of_faulty hne h acc, fun hopen => block_of_faulty hne hopen h acc⟩
  · exact ⟨⟨le_refl e, .inr (.inl hs)⟩, fun q hq => hq.1⟩
  · have hlt := startsAt_lt hs
    obtain ⟨⟨hle, hp⟩, -⟩ := hleast
    omega

/-- A semicolon is missing, and the statement after it has a fault too. -/
def missingSemicolon : List Token := (scan none "print 1\nprint ;").tokens

/-- The fault is found at the second `print`, and reading goes on after it. -/
theorem declaration_resumes_late :
    let start : Reader := ⟨missingSemicolon, .start, 0, []⟩
    ∃ r₁ p, start.rest <:+ missingSemicolon ∧ declared 40 start = .error .faulty r₁ ∧
      r₁.rest = missingSemicolon.drop 2 ∧ StartsAt missingSemicolon 2 ∧
      declaration 41 start = .ok none { r₁ with rest := missingSemicolon.drop p } ∧
      IsLeast (boundaries missingSemicolon 2) 2 ∧ 2 < p := by
  intro start
  obtain ⟨r₁, h, hr₁⟩ : ∃ r₁, declared 40 start = .error .faulty r₁ ∧
      r₁.rest = missingSemicolon.drop 2 := ⟨_, rfl, rfl⟩
  have hs : StartsAt missingSemicolon 2 := ⟨_, rfl, .print, by decide, rfl⟩
  obtain ⟨e, p, he, hrest, -, hdecl, -, -, hlate⟩ :=
    declaration_resumes (T := missingSemicolon) List.suffix_rfl h
  obtain rfl : e = 2 := by
    have hlen : missingSemicolon.length = 4 := rfl
    have heq := congrArg List.length (hr₁.symm.trans hrest)
    rw [List.length_drop, List.length_drop] at heq
    omega
  exact ⟨r₁, p, List.suffix_rfl, h, hr₁, hs, hdecl, hlate hs⟩

/-- What is wrong with the second statement is not reported, though it is where reading is specified
to go on. -/
theorem missingSemicolon_hides_fault :
    StartsAt missingSemicolon 2 ∧ IsLeast (boundaries missingSemicolon 2) 2 ∧
      (∃ r₁, declared 40 ⟨missingSemicolon, .start, 0, []⟩ = .error .faulty r₁ ∧
        r₁.rest = missingSemicolon.drop 2) ∧
      (Program.read missingSemicolon .start 0).faults.length = 1 ∧
      (Program.read (missingSemicolon.drop 2) .start 0).faults.length = 1 := by
  have hs : StartsAt missingSemicolon 2 := ⟨_, rfl, .print, by decide, rfl⟩
  refine ⟨hs, ⟨⟨le_refl 2, .inr (.inl hs)⟩, fun q hq => hq.1⟩, ⟨_, rfl, rfl⟩, ?_, ?_⟩
  · decide +kernel
  · decide +kernel

end Treewalk.Recovery
