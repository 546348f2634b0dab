import Treewalk.Token.Lemmas
import Treewalk.Proofs.Shape
import Mathlib.Data.List.Nodup

/-!
# Tokens and ids of a text

Words of a text are names or keywords by their spelling (`scan_scanned`). A tree is `Fresh` from `a`
up to `b` if it is tidy and its references have ids of their own from that range; trees of ranges
that follow each other can be put together.
-/

namespace Treewalk

/-! ### Tokens of a text -/

/-- What holds of the tokens of a text: words are either names or keywords. -/
structure Token.Scanned (t : Token) : Prop where
  name : t.isIdentifier → t.IsName
  this : t.kind = .keyword .this → t.lexeme = "this"
  super : t.kind = .keyword .super → t.lexeme = "super"

namespace Lexer

theorem mem_spellings {word : String} {k : Keyword} (h : Keyword.ofWord? word = some k) :
    (word, k) ∈ Keyword.spellings := by
  rw [Keyword.ofWord?, List.lookup_eq_some_iff] at h
  obtain ⟨l₁, l₂, h, -⟩ := h
  simp [h]

/-- A piece that is a word is a name or a keyword by its spelling. -/
theorem form_first {c : Char} {cs : List Char} {kind : Token.Kind}
    (h : (Piece.first c cs).form = .token kind) :
    kind = wordKind (String.ofList (Piece.first c cs).taken) ∨
      ∀ k w, kind ≠ .keyword k ∧ kind ≠ .identifier w := by
  revert h
  unfold Piece.first Piece.ofSymbol
  grind

theorem mem_cut {x : Pos × Piece} {cs : List Char} {n : Nat} {p : Pos} {acc : List (Pos × Piece)}
    (h : x ∈ cut cs n p acc) : x ∈ acc ∨ ∃ c ds, x.2 = Piece.first c ds := by
  induction cs generalizing n p acc with
  | nil => exact .inl h
  | cons c cs ih =>
    cases n with
    | succ n => exact ih h
    | zero =>
      rcases ih h with h | h
      · rcases List.mem_cons.1 h with rfl | h
        · exact .inr ⟨c, cs, rfl⟩
        · exact .inl h
      · exact .inr h

end Lexer

open Lexer in
theorem Token.Scanned.of_word {t : Token}
    (h : t.kind = wordKind t.lexeme ∨ ∀ k w, t.kind ≠ .keyword k ∧ t.kind ≠ .identifier w) :
    t.Scanned := by
  have hkey : ∀ {k}, t.kind = .keyword k → (t.lexeme, k) ∈ Keyword.spellings := fun {k} hk => by
    rcases h with h | h
    · rw [hk, wordKind] at h
      split at h
      · next k' hk' => cases h; exact mem_spellings hk'
      · cases h
    · exact absurd hk (h k "").1
  have hname : t.isIdentifier → Keyword.ofWord? t.lexeme = none := fun hi => by
    rcases h with h | h
    · rw [wordKind] at h
      split at h
      · simp [isIdentifier, h] at hi
      · assumption
    · simp only [isIdentifier] at hi
      split at hi
      · next w hw => exact absurd hw (h .and w).2
      · cases hi
  refine ⟨fun hi => ⟨fun hl => ?_, fun hl => ?_⟩, fun hk => ?_, fun hk => ?_⟩
  · have := hname hi
    rw [hl] at this
    exact absurd this (by decide)
  · have := hname hi
    rw [hl] at this
    exact absurd this (by decide)
  · have := hkey hk
    simpa [Keyword.spellings] using this
  · have := hkey hk
    simpa [Keyword.spellings] using this

theorem scan_scanned (file : Option String) (text : String) :
    ∀ t ∈ (scan file text).tokens, t.Scanned := by
  intro t ht
  obtain ⟨⟨p, piece⟩, hx, ht⟩ := List.mem_filterMap.1 ht
  obtain h | ⟨c, cs, rfl⟩ := Lexer.mem_cut (List.mem_reverse.1 hx)
  · cases h
  simp only [Piece.token?] at ht
  split at ht
  · next kind hk =>
    cases ht
    exact .of_word (Lexer.form_first hk)
  · cases ht

/-! ### Ids -/

/-- The ids are all different, and from `a` up to `b`. -/
def Numbers (a b : Nat) (ids : List Nat) : Prop := ids.Nodup ∧ ∀ i ∈ ids, a ≤ i ∧ i < b

namespace Numbers
variable {a b c : Nat} {xs ys : List Nat}

theorem nil : Numbers a b [] := ⟨List.nodup_nil, by simp⟩

theorem single (h : a < b) : Numbers a b [a] := ⟨List.nodup_singleton a, by simp [h]⟩

theorem append (hx : Numbers a b xs) (hy : Numbers b c ys) (hab : a ≤ b) (hbc : b ≤ c) :
    Numbers a c (xs ++ ys) := by
  refine ⟨List.nodup_append.2 ⟨hx.1, hy.1, fun i hi j hj => ?_⟩, fun i hi => ?_⟩
  · have := hx.2 i hi
    have := hy.2 j hj
    omega
  · rcases List.mem_append.1 hi with hi | hi
    · have := hx.2 i hi
      omega
    · have := hy.2 i hi
      omega

theorem perm (h : Numbers a b xs) (hp : xs.Perm ys) : Numbers a b ys :=
  ⟨hp.nodup_iff.1 h.1, fun i hi => h.2 i (hp.mem_iff.2 hi)⟩

theorem mono (h : Numbers a b xs) (hbc : b ≤ c) : Numbers a c xs :=
  ⟨h.1, fun i hi => ⟨(h.2 i hi).1, Nat.lt_of_lt_of_le (h.2 i hi).2 hbc⟩⟩

end Numbers

/-- A tidy expression with ids from `a` up to `b`. -/
def Expr.Fresh (a b : Nat) (e : Expr) : Prop := e.Tidy ∧ Numbers a b e.ids

/-- Tidy expressions with ids from `a` up to `b`. -/
def Expr.FreshAll (a b : Nat) (es : List Expr) : Prop := Expr.TidyAll es ∧ Numbers a b (Expr.idsAll es)

/-- A tidy expression with ids from `a` up to `b`, if there is one. -/
def Expr.FreshOption (a b : Nat) (e : Option Expr) : Prop :=
  Expr.TidyOption e ∧ Numbers a b (Expr.idsOption e)

/-- A tidy statement with ids from `a` up to `b`. -/
def Stmt.Fresh (a b : Nat) (s : Stmt) : Prop := s.Tidy ∧ Numbers a b s.ids

/-- Tidy statements with ids from `a` up to `b`. -/
def Stmt.FreshAll (a b : Nat) (ss : List Stmt) : Prop := Stmt.TidyAll ss ∧ Numbers a b (Stmt.idsAll ss)

/-- A tidy function with ids from `a` up to `b`. -/
def FunctionDecl.Fresh (a b : Nat) (f : FunctionDecl) : Prop := f.Tidy ∧ Numbers a b f.ids

theorem Expr.idsAll_eq (es : List Expr) : Expr.idsAll es = es.flatMap Expr.ids := by
  induction es with
  | nil => rfl
  | cons e es ih => simp [idsAll, ih]

theorem Stmt.idsAll_eq (ss : List Stmt) : Stmt.idsAll ss = ss.flatMap Stmt.ids := by
  induction ss with
  | nil => rfl
  | cons s ss ih => simp [idsAll, ih]

theorem FunctionDecl.idsAll_eq (fs : List FunctionDecl) :
    FunctionDecl.idsAll fs = fs.flatMap FunctionDecl.ids := by
  induction fs with
  | nil => rfl
  | cons f fs ih => simp [idsAll, ih]

theorem FieldDecl.idsAll_eq (fs : List FieldDecl) :
    FieldDecl.idsAll fs = fs.flatMap fun f => Expr.idsOption f.init := by
  induction fs with
  | nil => rfl
  | cons f fs ih => simp [idsAll, ih]

theorem FunctionDecl.count_idsAll_reverse (fs : List FunctionDecl) (i : Nat) :
    (FunctionDecl.idsAll fs.reverse).count i = (FunctionDecl.idsAll fs).count i := by
  simp only [FunctionDecl.idsAll_eq]
  exact List.perm_iff_count.1 ((List.reverse_perm fs).flatMap_right _) i

theorem FieldDecl.count_idsAll_reverse (fs : List FieldDecl) (i : Nat) :
    (FieldDecl.idsAll fs.reverse).count i = (FieldDecl.idsAll fs).count i := by
  simp only [FieldDecl.idsAll_eq]
  exact List.perm_iff_count.1 ((List.reverse_perm fs).flatMap_right _) i

namespace Expr.FreshAll
variable {a b c : Nat} {e : Expr} {es : List Expr}

theorem nil : Expr.FreshAll a b [] := ⟨trivial, .nil⟩

theorem cons (h : Expr.FreshAll a b es) (he : e.Fresh b c) (hab : a ≤ b) (hbc : b ≤ c) :
    Expr.FreshAll a c (e :: es) :=
  ⟨⟨he.1, h.1⟩, (h.2.append he.2 hab hbc).perm List.perm_append_comm⟩

theorem reverse (h : Expr.FreshAll a b es) : Expr.FreshAll a b es.reverse := by
  refine ⟨Expr.tidyAll_iff.2 fun e he => Expr.tidyAll_iff.1 h.1 e (List.mem_reverse.1 he), h.2.perm ?_⟩
  rw [Expr.idsAll_eq, Expr.idsAll_eq]
  exact (List.reverse_perm es).symm.flatMap_right _

end Expr.FreshAll

namespace Stmt.FreshAll
variable {a b c : Nat} {s : Stmt} {ss ts : List Stmt}

theorem nil : Stmt.FreshAll a b [] := ⟨trivial, .nil⟩

theorem cons (h : Stmt.FreshAll a b ss) (hs : s.Fresh b c) (hab : a ≤ b) (hbc : b ≤ c) :
    Stmt.FreshAll a c (s :: ss) :=
  ⟨⟨hs.1, h.1⟩, (h.2.append hs.2 hab hbc).perm List.perm_append_comm⟩

theorem reverse (h : Stmt.FreshAll a b ss) : Stmt.FreshAll a b ss.reverse := by
  refine ⟨Stmt.tidyAll_iff.2 fun s hs => Stmt.tidyAll_iff.1 h.1 s (List.mem_reverse.1 hs), h.2.perm ?_⟩
  rw [Stmt.idsAll_eq, Stmt.idsAll_eq]
  exact (List.reverse_perm ss).symm.flatMap_right _

theorem mono (h : Stmt.FreshAll a b ss) (hbc : b ≤ c) : Stmt.FreshAll a c ss := ⟨h.1, h.2.mono hbc⟩

end Stmt.FreshAll

/-- A counted loop: a block of what comes first and the loop itself. -/
theorem Stmt.Fresh.counted {a a₁ a₂ a₃ b : Nat} {first : List Stmt} {cond : Expr}
    {step : Option Expr} {body : Stmt} (hf : Stmt.FreshAll a a₁ first) (hc : cond.Fresh a₁ a₂)
    (hs : Expr.FreshOption a₂ a₃ step) (hb : body.Fresh a₃ b) (hd : body.declared = [])
    (h₁ : a ≤ a₁) (h₂ : a₁ ≤ a₂) (h₃ : a₂ ≤ a₃) (h₄ : a₃ ≤ b) :
    Stmt.Fresh a b (.block (first ++ [.loop cond step body])) := by
  refine ⟨Stmt.tidyAll_iff.2 fun s hs' => ?_, ?_⟩
  · rcases List.mem_append.1 hs' with hs' | hs'
    · exact Stmt.tidyAll_iff.1 hf.1 s hs'
    · rw [List.mem_singleton.1 hs']
      exact ⟨hc.1, hs.1, hb.1, hd⟩
  · have hall := hf.2.append (hc.2.append (hs.2.append hb.2 h₃ h₄) h₂ (by omega)) h₁ (by omega)
    refine hall.perm (List.perm_iff_count.2 fun i => ?_)
    simp only [Stmt.ids, Stmt.idsAll_eq, List.flatMap_append, List.flatMap_cons, List.flatMap_nil,
      List.append_nil, List.count_append]
    omega

end Treewalk
