import Mathlib.Data.List.Infix
import Mathlib.Data.List.TakeWhile
import Treewalk.Token.Lemmas

/-!
# What a text is made of

The rules by which a text falls into pieces, said without the lexer. `Spells kind taken rest`: the
characters `taken` are a token of that kind, and `rest` does not go on with it.
`Piece.Fits piece rest`: the piece is a blank, a comment, a token, a character that starts nothing,
or a string or comment that is never closed.

`Piece.first_fits`: the piece that the lexer finds fits. `Piece.eq_first_of_fits`: no other one does.
-/

namespace Treewalk

/-- The characters of a symbol. -/
def Symbol.chars : Symbol → List Char
  | .leftParen => ['(']
  | .rightParen => [')']
  | .leftBrace => ['{']
  | .rightBrace => ['}']
  | .leftBracket => ['[']
  | .rightBracket => [']']
  | .comma => [',']
  | .dot => ['.']
  | .colon => [':']
  | .question => ['?']
  | .semicolon => [';']
  | .plus => ['+']
  | .minus => ['-']
  | .star => ['*']
  | .slash => ['/']
  | .percent => ['%']
  | .plusEqual => ['+', '=']
  | .minusEqual => ['-', '=']
  | .starEqual => ['*', '=']
  | .slashEqual => ['/', '=']
  | .percentEqual => ['%', '=']
  | .bang => ['!']
  | .bangEqual => ['!', '=']
  | .equal => ['=']
  | .equalEqual => ['=', '=']
  | .greater => ['>']
  | .greaterEqual => ['>', '=']
  | .less => ['<']
  | .lessEqual => ['<', '=']

namespace Lexer

/-- Between quotes, `body` writes the string `value`. -/
inductive Quoted : (body value : List Char) → Prop where
  | nil : Quoted [] []
  | plain {c : Char} {body value : List Char} (hq : c ≠ '"') (hb : c ≠ '\\')
      (h : Quoted body value) : Quoted (c :: body) (c :: value)
  | escaped {c : Char} {body value : List Char} (h : Quoted body value) :
      Quoted ('\\' :: c :: body) (unescape c :: value)

/-- What is ahead does not start with a character as `p` says. -/
def Clear (p : Char → Bool) (rest : List Char) : Prop := ∀ c ∈ rest.head?, p c = false

/-- The characters are a token of the kind, which the rest does not go on with. -/
inductive Spells : Token.Kind → (taken rest : List Char) → Prop where
  /-- A symbol takes an equals sign that it can have, and a slash starts no comment. -/
  | symbol {s : Symbol} {rest : List Char} (he : s.withEqual?.isSome → Clear (· == '=') rest)
      (hs : s = .slash → Clear (fun c => c == '/' || c == '*') rest) :
      Spells (.symbol s) s.chars rest
  | word {c : Char} {part rest : List Char} (hc : isNameStart c = true)
      (hp : ∀ d ∈ part, isNamePart d = true) (hr : Clear isNamePart rest) :
      Spells (wordKind (String.ofList (c :: part))) (c :: part) rest
  | string {body value rest : List Char} (h : Quoted body value) :
      Spells (.string (String.ofList value)) ('"' :: (body ++ ['"'])) rest
  | whole {ds rest : List Char} (hne : ds ≠ []) (hd : ∀ d ∈ ds, d.isDigit = true)
      (hr : Clear Char.isDigit rest)
      (hf : ∀ r, rest = '.' :: r → Clear Char.isDigit r) :
      Spells (.number (numberValue ds [])) ds rest
  | fraction {ds fs rest : List Char} (hne : ds ≠ []) (hd : ∀ d ∈ ds, d.isDigit = true)
      (hfne : fs ≠ []) (hf : ∀ d ∈ fs, d.isDigit = true) (hr : Clear Char.isDigit rest) :
      Spells (.number (numberValue ds ('.' :: fs))) (ds ++ '.' :: fs) rest

end Lexer

open Lexer

/-- The piece may stand before the rest of the text. -/
inductive Piece.Fits : Piece → (rest : List Char) → Prop where
  | blank {c : Char} {rest : List Char} (h : c ∈ [' ', '\t', '\r', '\n']) : Fits ⟨[c], .blank⟩ rest
  | lineComment {body rest : List Char} (hb : '\n' ∉ body) (hr : Clear (· != '\n') rest) :
      Fits ⟨'/' :: '/' :: body, .comment⟩ rest
  /-- A comment ends at the first mark that ends one. -/
  | blockComment {body rest : List Char} (h : ¬ ['*', '/'] <:+: body) :
      Fits ⟨'/' :: '*' :: (body ++ ['*', '/']), .comment⟩ rest
  | token {kind : Token.Kind} {taken rest : List Char} (h : Spells kind taken rest) :
      Fits ⟨taken, .token kind⟩ rest
  | unexpected {c : Char} {rest : List Char} (hb : c ∉ [' ', '\t', '\r', '\n'])
      (h : ∀ kind taken rest, Spells kind taken rest → taken.head? ≠ some c) :
      Fits ⟨[c], .fault (.unexpected c)⟩ rest
  | openString {body : List Char} (h : ∀ b value, Quoted b value → ¬ b ++ ['"'] <+: body) :
      Fits ⟨'"' :: body, .fault .openString⟩ []
  | openComment {body : List Char} (h : ¬ ['*', '/'] <:+: body) :
      Fits ⟨'/' :: '*' :: body, .fault .openComment⟩ []

namespace Lexer

/-! ### Runs of characters -/

theorem of_not_clear {p : Char → Bool} {cs : List Char} (h : ¬ Clear p cs) :
    ∃ c, cs.head? = some c ∧ p c = true := by
  obtain ⟨c, hc⟩ := not_forall.1 h
  obtain ⟨hhead, hp⟩ := Classical.not_imp.1 hc
  exact ⟨c, hhead, by simpa using hp⟩

theorem clear_dropWhile (p : Char → Bool) (cs : List Char) : Clear p (cs.dropWhile p) := by
  intro c hc
  have := List.head?_dropWhile_not p cs
  rw [Option.mem_def.1 hc] at this
  simpa using this

theorem takeWhile_clear {p : Char → Bool} {ds rest : List Char} (hd : ∀ d ∈ ds, p d = true)
    (hr : Clear p rest) : (ds ++ rest).takeWhile p = ds := by
  rw [List.takeWhile_append_of_pos hd]
  cases rest with
  | nil => simp
  | cons c rest => simp [hr c rfl]

theorem dropWhile_clear {p : Char → Bool} {ds rest : List Char} (hd : ∀ d ∈ ds, p d = true)
    (hr : Clear p rest) : (ds ++ rest).dropWhile p = rest := by
  rw [List.dropWhile_append_of_pos hd]
  cases rest with
  | nil => rfl
  | cons c rest => simp [hr c rfl]

theorem eq_dropWhile {p : Char → Bool} {cs rest : List Char} (h : cs.takeWhile p ++ rest = cs) :
    rest = cs.dropWhile p := by
  nth_rewrite 2 [← List.takeWhile_append_dropWhile (p := p) (l := cs)] at h
  exact List.append_cancel_left h

/-! ### Comments -/

/-- The first mark that ends a comment is found. -/
theorem commentRest?_append {body rest : List Char} (h : ¬ ['*', '/'] <:+: body) :
    commentRest? (body ++ '*' :: '/' :: rest) = some (body ++ ['*', '/']) := by
  induction body with
  | nil => rfl
  | cons c body ih =>
    have hbody : ¬ ['*', '/'] <:+: body := fun hi => h (List.infix_cons hi)
    rw [List.cons_append, commentRest?.eq_2, ih hbody]
    · rfl
    · rintro tail rfl htail
      cases body with
      | nil => simp at htail
      | cons d body =>
        obtain rfl : d = '/' := (List.cons.inj htail).1
        exact h ⟨[], body, rfl⟩

theorem of_commentRest? {cs taken : List Char} (h : commentRest? cs = some taken) :
    ∃ body, taken = body ++ ['*', '/'] ∧ ¬ ['*', '/'] <:+: body := by
  induction cs using commentRest?.induct generalizing taken with
  | case1 cs =>
    refine ⟨[], ?_, by simp⟩
    simpa [commentRest?] using h.symm
  | case2 c cs hne ih =>
    rw [commentRest?.eq_2 c cs hne] at h
    obtain ⟨t, ht, rfl⟩ := Option.map_eq_some_iff.1 h
    obtain ⟨body, rfl, hbody⟩ := ih ht
    refine ⟨c :: body, rfl, fun hi => ?_⟩
    rcases List.infix_cons_iff.1 hi with hp | hi
    · -- The mark would have ended the comment here.
      obtain ⟨r, hr⟩ := commentRest?_le ht
      obtain ⟨u, hu⟩ := hp
      cases body with
      | nil => simp at hu
      | cons d body =>
        simp only [List.cons_append, List.nil_append, List.cons.injEq] at hu
        obtain ⟨rfl, rfl, -⟩ := hu
        exact hne (body ++ ['*', '/'] ++ r) rfl (by rw [← hr]; simp)
    · exact hbody hi
  | case3 => simp [commentRest?] at h

theorem commentRest?_eq_none {cs : List Char} :
    commentRest? cs = none ↔ ¬ ['*', '/'] <:+: cs := by
  constructor
  · intro h hi
    induction cs using commentRest?.induct with
    | case1 cs => simp [commentRest?] at h
    | case2 c cs hne ih =>
      rw [commentRest?.eq_2 c cs hne, Option.map_eq_none_iff] at h
      rcases List.infix_cons_iff.1 hi with ⟨u, hu⟩ | hi
      · simp only [List.cons_append, List.nil_append, List.cons.injEq] at hu
        obtain ⟨rfl, rfl⟩ := hu
        exact hne u rfl rfl
      · exact ih h hi
    | case3 => simp at hi
  · intro h
    cases hc : commentRest? cs with
    | none => rfl
    | some taken =>
      obtain ⟨body, rfl, -⟩ := of_commentRest? hc
      obtain ⟨r, rfl⟩ := commentRest?_le hc
      exact absurd ⟨body, r, rfl⟩ h

/-! ### Strings -/

/-- The first quote that no backslash hides is found. -/
theorem stringRest?_append {body value rest : List Char} (h : Quoted body value) :
    stringRest? (body ++ '"' :: rest) = some (body ++ ['"'], value) := by
  induction h with
  | nil => rfl
  | @plain c body value hq hb h ih =>
    rw [List.cons_append, stringRest?.eq_4, ih]
    · rfl
    · exact hq
    · exact fun d ds hc => absurd hc hb
    · exact fun hc => absurd hc hb
  | @escaped c body value h ih =>
    rw [List.cons_append, List.cons_append, stringRest?, ih]
    rfl

theorem of_stringRest? {cs taken value : List Char} (h : stringRest? cs = some (taken, value)) :
    ∃ body, taken = body ++ ['"'] ∧ Quoted body value := by
  induction cs using stringRest?.induct generalizing taken value with
  | case1 cs =>
    simp only [stringRest?, Option.some.injEq, Prod.mk.injEq] at h
    obtain ⟨rfl, rfl⟩ := h
    exact ⟨[], rfl, .nil⟩
  | case2 c cs ih =>
    rw [stringRest?] at h
    obtain ⟨⟨t, v⟩, ht, hc⟩ := Option.map_eq_some_iff.1 h
    obtain ⟨body, rfl, hbody⟩ := ih ht
    cases hc
    exact ⟨'\\' :: c :: body, rfl, .escaped hbody⟩
  | case3 => simp [stringRest?] at h
  | case4 c cs hq hb hb' ih =>
    rw [stringRest?.eq_4 c cs hq hb hb'] at h
    obtain ⟨⟨t, v⟩, ht, hc⟩ := Option.map_eq_some_iff.1 h
    obtain ⟨body, rfl, hbody⟩ := ih ht
    cases hc
    refine ⟨c :: body, rfl, .plain hq (fun hbs => ?_) hbody⟩
    cases cs with
    | nil => exact hb' hbs rfl
    | cons d cs => exact hb d cs hbs rfl
  | case5 => simp [stringRest?] at h

theorem stringRest?_eq_none {cs : List Char} :
    stringRest? cs = none ↔ ∀ b value, Quoted b value → ¬ b ++ ['"'] <+: cs := by
  constructor
  · rintro h b value hb ⟨r, rfl⟩
    rw [List.append_assoc, List.singleton_append, stringRest?_append hb] at h
    cases h
  · intro h
    cases hs : stringRest? cs with
    | none => rfl
    | some x =>
      obtain ⟨taken, value⟩ := x
      obtain ⟨body, rfl, hbody⟩ := of_stringRest? hs
      exact absurd (stringRest?_le hs) (h body value hbody)

/-! ### First characters -/

theorem isBlank_iff {c : Char} : isBlank c = true ↔ c ∈ [' ', '\t', '\r', '\n'] := by
  simp [isBlank, or_assoc]

/-- What cannot start a name or a number. -/
theorem not_start {c : Char} (h : isNameStart c = true ∨ c.isDigit = true) :
    isBlank c = false ∧ c ≠ '"' ∧ c ≠ '/' := by
  refine ⟨Bool.eq_false_iff.2 fun hb => ?_, ?_, ?_⟩
  · have := isBlank_iff.1 hb
    simp only [List.mem_cons, List.not_mem_nil, or_false] at this
    rcases this with rfl | rfl | rfl | rfl <;> revert h <;> decide
  · rintro rfl
    revert h
    decide
  · rintro rfl
    revert h
    decide

theorem isDigit_of_isNameStart {c : Char} (h : isNameStart c = true) : c.isDigit = false := by
  have hstart : isNameStart c = (decide (65 ≤ c.val ∧ c.val ≤ 90) ||
      (decide (97 ≤ c.val) && decide (c.val ≤ 122)) || c == '_') := rfl
  simp only [hstart, Bool.or_eq_true, Bool.and_eq_true, decide_eq_true_eq, beq_iff_eq] at h
  simp only [Char.isDigit, Bool.and_eq_false_iff, decide_eq_false_iff_not]
  rcases h with h | rfl
  · have h57 : (57 : UInt32) < 65 := by decide
    have h97 : (57 : UInt32) < 97 := by decide
    right
    rcases h with ⟨h, -⟩ | ⟨h, -⟩
    · exact UInt32.not_le.2 (UInt32.lt_of_lt_of_le h57 h)
    · exact UInt32.not_le.2 (UInt32.lt_of_lt_of_le h97 h)
  · decide

end Lexer

namespace Symbol

theorem chars_of_ofChar? {c : Char} {s : Symbol} (h : ofChar? c = some s) : s.chars = [c] := by
  unfold ofChar? at h
  split at h <;> cases h <;> rfl

theorem plain_of_ofChar? {c : Char} {s : Symbol} (h : ofChar? c = some s) :
    isBlank c = false ∧ c ≠ '"' ∧ c.isDigit = false ∧ isNameStart c = false := by
  unfold ofChar? at h
  split at h <;> cases h <;> decide

theorem chars_of_withEqual? {s t : Symbol} (h : s.withEqual? = some t) :
    t.chars = s.chars ++ ['='] ∧ t.withEqual? = none ∧ t ≠ .slash := by
  cases s <;> cases h <;> decide

/-- A symbol has one character, or two of which the second is an equals sign. -/
theorem of_chars {t : Symbol} {c : Char} {r : List Char} (h : t.chars = c :: r) :
    ∃ s, ofChar? c = some s ∧ (t = s ∧ r = [] ∨ s.withEqual? = some t ∧ r = ['=']) := by
  cases t <;> cases h <;> exact ⟨_, rfl, by decide⟩

theorem chars_ne_nil (t : Symbol) : t.chars ≠ [] := by cases t <;> simp [chars]

end Symbol

/-- The character starts a token, and each alternative rules out the others. -/
inductive Starts (c : Char) : Prop where
  | symbol {s : Symbol} (h : Symbol.ofChar? c = some s)
  | word (h : isNameStart c = true)
  | quote (h : c = '"')
  | digit (h : c.isDigit = true)

theorem Lexer.Spells.starts {kind : Token.Kind} {taken rest : List Char} {c : Char}
    (h : Spells kind taken rest) (hc : taken.head? = some c) : Starts c := by
  cases h with
  | @symbol s _ _ _ =>
    cases hs : s.chars with
    | nil => exact absurd hs s.chars_ne_nil
    | cons d r =>
      obtain ⟨t, ht, -⟩ := Symbol.of_chars hs
      rw [hs] at hc
      cases hc
      exact .symbol ht
  | word hd _ _ =>
    rw [← Option.some.inj hc]
    exact .word hd
  | string _ =>
    cases hc
    exact .quote rfl
  | whole _ hd _ _ => exact .digit (hd c (List.mem_of_mem_head? hc))
  | @fraction ds _ _ hne hd _ _ _ =>
    cases ds with
    | nil => exact absurd rfl hne
    | cons d ds =>
      rw [← Option.some.inj hc]
      exact .digit (hd d List.mem_cons_self)

theorem Starts.spells {c : Char} (h : Starts c) :
    ∃ kind taken, Spells kind taken [] ∧ taken.head? = some c := by
  have hclear : ∀ p, Clear p [] := fun p d hd => by cases hd
  cases h with
  | @symbol s hs =>
    refine ⟨_, s.chars, .symbol (fun _ => hclear _) fun _ => hclear _, ?_⟩
    rw [Symbol.chars_of_ofChar? hs]
    rfl
  | word hc => exact ⟨_, [c], .word hc (by simp) (hclear _), rfl⟩
  | quote hc => exact ⟨_, _, .string .nil, by rw [hc]; rfl⟩
  | digit hc => exact ⟨_, [c], .whole (by simp) (by simpa using hc) (hclear _) (by simp), rfl⟩

namespace Piece

/-! ### What the lexer finds, by the first character -/

section

variable {c : Char} {cs : List Char}

theorem first_blank (h : isBlank c = true) : first c cs = ⟨[c], .blank⟩ := by
  rw [first, if_pos h]

theorem first_quote_some {taken value : List Char} (h : stringRest? cs = some (taken, value)) :
    first '"' cs = ⟨'"' :: taken, .token (.string (String.ofList value))⟩ := by
  simp [first, isBlank, h]

theorem first_quote_none (h : stringRest? cs = none) :
    first '"' cs = ⟨'"' :: cs, .fault .openString⟩ := by
  simp [first, isBlank, h]

theorem first_line :
    first '/' ('/' :: cs) = ⟨'/' :: '/' :: cs.takeWhile (· != '\n'), .comment⟩ := by
  simp [first, isBlank]

theorem first_block_some {taken : List Char} (h : commentRest? cs = some taken) :
    first '/' ('*' :: cs) = ⟨'/' :: '*' :: taken, .comment⟩ := by
  simp [first, isBlank, h]

theorem first_block_none (h : commentRest? cs = none) :
    first '/' ('*' :: cs) = ⟨'/' :: '*' :: cs, .fault .openComment⟩ := by
  simp [first, isBlank, h]

theorem first_digit (h : c.isDigit = true) :
    first c cs =
      ⟨c :: cs.takeWhile Char.isDigit ++ fraction (cs.dropWhile Char.isDigit),
        .token (.number (numberValue (c :: cs.takeWhile Char.isDigit)
          (fraction (cs.dropWhile Char.isDigit))))⟩ := by
  obtain ⟨hb, hq, hs⟩ := not_start (.inr h)
  simp [first, hb, hq, hs, h]

theorem first_word (h : isNameStart c = true) :
    first c cs = ⟨c :: cs.takeWhile isNamePart,
      .token (wordKind (String.ofList (c :: cs.takeWhile isNamePart)))⟩ := by
  obtain ⟨hb, hq, hs⟩ := not_start (.inl h)
  simp [first, hb, hq, hs, h, isDigit_of_isNameStart h]

theorem first_symbol {s : Symbol} (hs : Symbol.ofChar? c = some s)
    (h : c = '/' → Clear (fun d => d == '/' || d == '*') cs) : first c cs = ofSymbol s c cs := by
  obtain ⟨hb, hq, hd, hn⟩ := Symbol.plain_of_ofChar? hs
  have hcomment : ∀ d, (d == '/' || d == '*') = true → (c == '/' && cs.head? == some d) = false := by
    intro d hd
    refine Bool.eq_false_iff.2 fun hboth => ?_
    obtain ⟨hc, hhead⟩ := Bool.and_eq_true_iff.1 hboth
    exact Bool.eq_false_iff.1 (h (eq_of_beq hc) d (eq_of_beq hhead)) hd
  simp [first, hb, hq, hd, hn, hs, hcomment '/' rfl, hcomment '*' rfl]

theorem first_other (hb : isBlank c = false) (h : ¬ Starts c) :
    first c cs = ⟨[c], .fault (.unexpected c)⟩ := by
  have hq : c ≠ '"' := fun hc => h (.quote hc)
  have hd : ¬ c.isDigit = true := fun hc => h (.digit hc)
  have hn : ¬ isNameStart c = true := fun hc => h (.word hc)
  have hs : Symbol.ofChar? c = none := Option.eq_none_iff_forall_ne_some.2 fun s hs => h (.symbol hs)
  have hc : c ≠ '/' := by
    rintro rfl
    cases hs
  simp [first, hb, hq, hd, hn, hs, hc]

end

/-! ### Symbols and numbers -/

theorem ofSymbol_equal {s t : Symbol} (ht : s.withEqual? = some t) (c : Char) (cs : List Char) :
    ofSymbol s c ('=' :: cs) = ⟨[c, '='], .token (.symbol t)⟩ := by
  simp only [ofSymbol, ht]

theorem ofSymbol_plain {s : Symbol} {cs : List Char}
    (h : s.withEqual?.isSome → Clear (· == '=') cs) (c : Char) :
    ofSymbol s c cs = ⟨[c], .token (.symbol s)⟩ := by
  unfold ofSymbol
  split
  · next t ds ht =>
    have := h (by simp [ht]) '=' rfl
    simp at this
  · rfl

theorem ofSymbol_fits {s : Symbol} {c : Char} {cs rest : List Char} (hs : Symbol.ofChar? c = some s)
    (hslash : c = '/' → Clear (fun d => d == '/' || d == '*') cs)
    (h : (ofSymbol s c cs).taken ++ rest = c :: cs) : (ofSymbol s c cs).Fits rest := by
  have hchars := Symbol.chars_of_ofChar? hs
  by_cases heq : s.withEqual?.isSome → Clear (· == '=') cs
  · rw [ofSymbol_plain heq] at h ⊢
    obtain rfl : rest = cs := (List.cons.inj h).2
    rw [← hchars]
    refine .token (.symbol heq fun hsl => hslash ?_)
    rw [hsl] at hchars
    exact (List.cons.inj hchars).1.symm
  · obtain ⟨he, hc⟩ := Classical.not_imp.1 heq
    obtain ⟨t, ht⟩ := Option.isSome_iff_exists.1 he
    obtain ⟨htc, hte, hts⟩ := Symbol.chars_of_withEqual? ht
    obtain ⟨d, hd, hdeq⟩ := of_not_clear hc
    obtain ⟨ds, rfl⟩ : ∃ ds, cs = '=' :: ds := by
      rw [eq_of_beq hdeq] at hd
      exact List.head?_eq_some_iff.1 hd
    rw [ofSymbol_equal ht] at h ⊢
    rw [show [c, '='] = t.chars by rw [htc, hchars]; rfl]
    exact .token (.symbol (by simp [hte]) fun hsl => absurd hsl hts)

theorem fraction_point {fs rest : List Char} (hne : fs ≠ []) (hf : ∀ d ∈ fs, d.isDigit = true)
    (hr : Clear Char.isDigit rest) : fraction ('.' :: (fs ++ rest)) = '.' :: fs := by
  cases fs with
  | nil => exact absurd rfl hne
  | cons d fs =>
    have hd : d.isDigit = true := hf d List.mem_cons_self
    have htake := takeWhile_clear hf hr
    simp only [fraction]
    rw [if_pos (by simpa using hd), htake]

theorem fraction_none {rest : List Char} (hf : ∀ r, rest = '.' :: r → Clear Char.isDigit r) :
    fraction rest = [] := by
  unfold fraction
  split
  · next r =>
    refine if_neg fun hany => ?_
    obtain ⟨d, hd, hdig⟩ := (Option.any_eq_true ..).1 hany
    rw [hf r rfl d hd] at hdig
    cases hdig
  · rfl

theorem number_spells {ds ahead rest : List Char} (hne : ds ≠ []) (hd : ∀ d ∈ ds, d.isDigit = true)
    (hr : Clear Char.isDigit ahead) (h : fraction ahead ++ rest = ahead) :
    Spells (.number (numberValue ds (fraction ahead))) (ds ++ fraction ahead) rest := by
  by_cases hf : ∀ r, ahead = '.' :: r → Clear Char.isDigit r
  · have hnone := fraction_none hf
    rw [hnone, List.nil_append] at h
    rw [hnone, List.append_nil]
    exact .whole hne hd (h ▸ hr) (h ▸ hf)
  · -- A point and a digit are next.
    obtain ⟨r, hf⟩ := not_forall.1 hf
    obtain ⟨rfl, hr'⟩ := Classical.not_imp.1 hf
    have hfs : ∀ d ∈ r.takeWhile Char.isDigit, d.isDigit = true :=
      fun d hd => List.mem_takeWhile_imp hd
    have hfne : r.takeWhile Char.isDigit ≠ [] := by
      obtain ⟨d, hd, hdig⟩ := of_not_clear hr'
      obtain ⟨r', rfl⟩ := List.head?_eq_some_iff.1 hd
      simp [hdig]
    have hpoint := fraction_point hfne hfs (clear_dropWhile Char.isDigit r)
    rw [List.takeWhile_append_dropWhile] at hpoint
    rw [hpoint] at h ⊢
    obtain rfl := eq_dropWhile (List.cons.inj h).2
    exact .fraction hne hd hfne hfs (clear_dropWhile Char.isDigit r)

/-! ### Pieces that fit -/

/-- What the lexer finds fits. -/
theorem first_fits {c : Char} {cs rest : List Char} (h : (first c cs).taken ++ rest = c :: cs) :
    (first c cs).Fits rest := by
  by_cases hblank : isBlank c = true
  · rw [first_blank hblank]
    exact .blank (isBlank_iff.1 hblank)
  by_cases hstarts : Starts c
  swap
  · rw [first_other (Bool.eq_false_iff.2 hblank) hstarts]
    refine .unexpected (fun hb => hblank (isBlank_iff.2 hb)) fun kind taken rest hspells hc => ?_
    exact hstarts (hspells.starts hc)
  cases hstarts with
  | word hc =>
    rw [first_word hc] at h ⊢
    obtain rfl := eq_dropWhile (List.cons.inj h).2
    exact .token (.word hc (fun d hd => List.mem_takeWhile_imp hd) (clear_dropWhile isNamePart cs))
  | quote hc =>
    subst hc
    cases hs : stringRest? cs with
    | some x =>
      obtain ⟨taken, value⟩ := x
      obtain ⟨body, rfl, hbody⟩ := of_stringRest? hs
      rw [first_quote_some hs]
      exact .token (.string hbody)
    | none =>
      rw [first_quote_none hs] at h ⊢
      obtain rfl : rest = [] := List.append_right_eq_self.1 h
      exact .openString (stringRest?_eq_none.1 hs)
  | digit hc =>
    rw [first_digit hc] at h ⊢
    have hd : ∀ d ∈ c :: cs.takeWhile Char.isDigit, d.isDigit = true :=
      List.forall_mem_cons.2 ⟨hc, fun d hd => List.mem_takeWhile_imp hd⟩
    refine .token (number_spells (by simp) hd (clear_dropWhile Char.isDigit cs) ?_)
    have h := (List.cons.inj h).2
    rw [List.append_eq, List.append_eq, List.append_assoc] at h
    exact eq_dropWhile h
  | @symbol s hs =>
    by_cases hcomment : c = '/' → Clear (fun d => d == '/' || d == '*') cs
    · rw [first_symbol hs hcomment] at h ⊢
      exact ofSymbol_fits hs hcomment h
    obtain ⟨rfl, hclear⟩ := Classical.not_imp.1 hcomment
    obtain ⟨d, hd, hkind⟩ := of_not_clear hclear
    obtain ⟨ds, rfl⟩ := List.head?_eq_some_iff.1 hd
    rcases Bool.or_eq_true_iff.1 hkind with hd | hd
    · obtain rfl := eq_of_beq hd
      rw [first_line] at h ⊢
      obtain rfl := eq_dropWhile (List.cons.inj (List.cons.inj h).2).2
      refine .lineComment (fun hmem => ?_) (clear_dropWhile _ _)
      simpa using List.mem_takeWhile_imp hmem
    · obtain rfl := eq_of_beq hd
      cases hs : commentRest? ds with
      | some taken =>
        obtain ⟨body, rfl, hbody⟩ := of_commentRest? hs
        rw [first_block_some hs]
        exact .blockComment hbody
      | none =>
        rw [first_block_none hs] at h ⊢
        obtain rfl : rest = [] := List.append_right_eq_self.1 h
        exact .openComment (commentRest?_eq_none.1 hs)

theorem eq_first_of_spells {kind : Token.Kind} {taken rest : List Char} {c : Char} {cs : List Char}
    (hspells : Spells kind taken rest) (h : taken ++ rest = c :: cs) :
    ⟨taken, .token kind⟩ = first c cs := by
  cases hspells with
  | @symbol s _ he hs =>
    cases hchars : s.chars with
    | nil => exact absurd hchars s.chars_ne_nil
    | cons d r =>
      rw [hchars, List.cons_append] at h
      obtain ⟨rfl, rfl⟩ := List.cons.inj h
      obtain ⟨t, ht, ⟨rfl, rfl⟩ | ⟨hte, rfl⟩⟩ := Symbol.of_chars hchars
      · have hslash : d = '/' → Clear (fun d => d == '/' || d == '*') rest := by
          rintro rfl
          cases ht
          exact hs rfl
        exact ((first_symbol ht hslash).trans (ofSymbol_plain he d)).symm
      · have hslash : d = '/' → Clear (fun d => d == '/' || d == '*') ('=' :: rest) := by
          rintro - e he
          cases he
          rfl
        exact ((first_symbol ht hslash).trans (ofSymbol_equal hte d rest)).symm
  | word hc hp hr =>
    obtain ⟨rfl, rfl⟩ := List.cons.inj h
    rw [first_word hc, List.append_eq, takeWhile_clear hp hr]
  | string hbody =>
    obtain ⟨rfl, rfl⟩ := List.cons.inj h
    rw [List.append_eq, List.append_assoc, List.singleton_append,
      first_quote_some (stringRest?_append hbody)]
  | whole hne hd hr hf =>
    cases taken with
    | nil => exact absurd rfl hne
    | cons d ds =>
      obtain ⟨rfl, rfl⟩ := List.cons.inj h
      obtain ⟨hc, hds⟩ := List.forall_mem_cons.1 hd
      rw [first_digit hc, List.append_eq, takeWhile_clear hds hr, dropWhile_clear hds hr,
        fraction_none hf, List.append_nil]
  | @fraction ds fs _ hne hd hfne hf hr =>
    cases ds with
    | nil => exact absurd rfl hne
    | cons d ds =>
      obtain ⟨rfl, rfl⟩ := List.cons.inj h
      obtain ⟨hc, hds⟩ := List.forall_mem_cons.1 hd
      have hpoint : Clear Char.isDigit ('.' :: (fs ++ rest)) := by
        intro e he
        cases he
        rfl
      have hsplit : (ds ++ '.' :: fs) ++ rest = ds ++ '.' :: (fs ++ rest) := by simp
      rw [first_digit hc, List.append_eq, List.append_eq, hsplit, takeWhile_clear hds hpoint,
        dropWhile_clear hds hpoint, fraction_point hfne hf hr]

theorem Fits.taken_ne_nil {piece : Piece} {rest : List Char} (hp : piece.Fits rest) :
    piece.taken ≠ [] := by
  cases hp with
  | token hs =>
    cases hs with
    | @symbol s _ _ _ => exact s.chars_ne_nil
    | word _ _ _ => simp
    | string _ => simp
    | whole hne _ _ => exact hne
    | fraction hne _ _ _ _ => simp
  | _ => simp

/-- What fits is what the lexer finds. -/
theorem eq_first_of_fits {piece : Piece} {c : Char} {cs rest : List Char} (hp : piece.Fits rest)
    (h : piece.taken ++ rest = c :: cs) : piece = first c cs := by
  cases hp with
  | blank hb =>
    obtain ⟨rfl, rfl⟩ := List.cons.inj h
    rw [first_blank (isBlank_iff.2 hb)]
  | lineComment hb hr =>
    obtain ⟨rfl, htail⟩ := List.cons.inj h
    subst htail
    have hbody : ∀ d ∈ _, (d != '\n') = true := fun d hd => bne_iff_ne.2 fun hn => hb (hn ▸ hd)
    rw [List.append_eq, List.cons_append, first_line, takeWhile_clear hbody hr]
  | blockComment hb =>
    obtain ⟨rfl, htail⟩ := List.cons.inj h
    subst htail
    rw [List.append_eq, List.cons_append, List.append_assoc]
    exact (first_block_some (commentRest?_append hb)).symm
  | token hs => exact eq_first_of_spells hs h
  | unexpected hb hs =>
    obtain ⟨rfl, rfl⟩ := List.cons.inj h
    rw [first_other]
    · exact Bool.eq_false_iff.2 fun hblank => hb (isBlank_iff.1 hblank)
    · intro hstarts
      obtain ⟨kind, taken, hspells, hhead⟩ := hstarts.spells
      exact hs kind taken [] hspells hhead
  | openString hs =>
    obtain ⟨rfl, rfl⟩ := List.cons.inj h
    rw [List.append_eq, List.append_nil, first_quote_none (stringRest?_eq_none.2 hs)]
  | openComment hs =>
    obtain ⟨rfl, rfl⟩ := List.cons.inj h
    rw [List.append_eq, List.append_nil, first_block_none (commentRest?_eq_none.2 hs)]

end Piece

end Treewalk
