import Treewalk.Proofs.Appending
import Treewalk.Proofs.Traced
import Treewalk.Proofs.Cursor

/-!
# Reading stays inside of the tokens

Read by an index (`Walk`), a program is what it is otherwise, and all that is marked down on the way
is lawful: no look goes past the end, nor back from the first token, and a part of the grammar is
entered only at a higher index than every part around it that binds as tightly or tighter. With the
number of steps that is enough (`Read.declarations_ends`), reading any tokens comes to its end that
way (`Program.read_stays_inside`).

`Walks` is the rule for one part of the grammar. The index it starts at and the parts around it are
fixed, so that a call inside of it is free (`Part.Free`) for one of two reasons: it binds tighter,
or a token is passed. What a part says about the index it ends at is needed for the second only.
-/

namespace Treewalk

/-- With `count` tokens, looks go to a token or to the end, and to one before only if there is one.
A part is entered at a higher index than all parts around it that bind as tightly or tighter. -/
def Mark.Lawful (count : Nat) : Mark → Prop
  | .ahead i => i ≤ count
  | .back i => 0 < i ∧ i ≤ count
  | .enter part i within => i ≤ count ∧ ∀ x ∈ within, part.rank ≤ x.1.rank → x.2 < i

/-- The cursor is at the index `i` of the tokens `T`, inside of the parts `S`, and all that was done
is lawful. -/
structure Cursor.At (T : List Token) (S : List (Part × Nat)) (i : Nat) (c : Cursor) : Prop where
  tokens : c.tokens = T
  within : c.within = S
  index : c.index = i
  inside : i ≤ T.length
  lawful : ∀ m ∈ c.marks, m.Lawful T.length

/-- Reading by an index ends as plain reading does, at an index as `Q` says. -/
def Walk.Left {α : Type} (T : List Token) (S : List (Part × Nat)) (i : Nat) (Q : α → Nat → Prop)
    (plain : EStateM.Result Unread Reader α) : EStateM.Result Unread Cursor α → Prop
  | .ok x c => plain = .ok x c.reader ∧ ∃ k, i ≤ k ∧ Q x k ∧ c.At T S k
  | .error e c => plain = .error e c.reader ∧ ∃ k, i ≤ k ∧ c.At T S k

/-- At the index `i`, inside of the parts `S`, `q` is lawful and does what `p` does. -/
def Walks {α : Type} (T : List Token) (S : List (Part × Nat)) (i : Nat) (p : Read α) (q : Walk α)
    (Q : α → Nat → Prop) : Prop :=
  ∀ c : Cursor, c.At T S i → Walk.Left T S i Q (p c.reader) (q c)

/-- The part can be entered at `i` from inside of the parts `S`. -/
def Part.Free (part : Part) (S : List (Part × Nat)) (i : Nat) : Prop :=
  ∀ x ∈ S, x.2 ≤ i ∧ (part.rank ≤ x.1.rank → x.2 < i)

namespace Part.Free
variable {part inner : Part} {S : List (Part × Nat)} {i k : Nat}

/-- A part that binds tighter can be entered right away. -/
theorem down (h : part.Free S i) (hr : part.rank < inner.rank) : inner.Free ((part, i) :: S) i := by
  intro x hx
  rcases List.mem_cons.1 hx with rfl | hx
  · exact ⟨Nat.le_refl _, fun hle => absurd hr (Nat.not_lt.2 hle)⟩
  · obtain ⟨hle, hlt⟩ := h x hx
    exact ⟨hle, fun hrank => hlt (Nat.le_of_lt (Nat.lt_of_lt_of_le hr hrank))⟩

/-- After a token every part can be entered. -/
theorem past (h : part.Free S i) (hk : i < k) : inner.Free ((part, i) :: S) k := by
  intro x hx
  rcases List.mem_cons.1 hx with rfl | hx
  · exact ⟨Nat.le_of_lt hk, fun _ => hk⟩
  · have hlt := Nat.lt_of_le_of_lt (h x hx).1 hk
    exact ⟨Nat.le_of_lt hlt, fun _ => hlt⟩

end Part.Free

namespace Cursor

/-- At a token. -/
theorem reader_of_token {c : Cursor} {t : Token} (ht : c.tokens[c.index]? = some t) :
    c.reader = ⟨t :: c.tokens.drop (c.index + 1), c.stop, c.nextId, c.faults⟩ := by
  obtain ⟨hlt, rfl⟩ := List.getElem?_eq_some_iff.1 ht
  rw [reader, List.drop_eq_getElem_cons hlt]

/-- At the end. -/
theorem reader_of_end {c : Cursor} (ht : c.tokens[c.index]? = none) :
    c.reader = ⟨[], c.stop, c.nextId, c.faults⟩ := by
  rw [reader, List.drop_eq_nil_of_le (List.getElem?_eq_none_iff.1 ht)]

/-- The cursor after the token ahead is passed. -/
def passed (c : Cursor) : Cursor :=
  mark (.back (c.index + 1)) { c.mark (.ahead c.index) with index := c.index + 1 }

namespace At
variable {T : List Token} {S : List (Part × Nat)} {i : Nat} {c : Cursor}

theorem mark {m : Mark} (h : c.At T S i) (hm : m.Lawful T.length) : (c.mark m).At T S i :=
  ⟨h.tokens, h.within, h.index, h.inside, List.forall_mem_cons.2 ⟨hm, h.lawful⟩⟩

theorem looked (h : c.At T S i) : (c.mark (.ahead c.index)).At T S i := by
  refine h.mark ?_
  rw [h.index]
  exact h.inside

theorem getElem? (h : c.At T S i) : c.tokens[c.index]? = T[i]? := by rw [h.tokens, h.index]

theorem lt_of_token {t : Token} (h : c.At T S i) (ht : c.tokens[c.index]? = some t) :
    i < T.length := by
  rw [h.getElem?] at ht
  exact (List.getElem?_eq_some_iff.1 ht).1

theorem eq_of_end (h : c.At T S i) (ht : c.tokens[c.index]? = none) : i = T.length := by
  rw [h.getElem?] at ht
  exact Nat.le_antisymm h.inside (List.getElem?_eq_none_iff.1 ht)

theorem passed (h : c.At T S i) (hlt : i < T.length) : c.passed.At T S (i + 1) := by
  obtain ⟨htokens, hwithin, hindex, -, hlawful⟩ := h.looked
  have hnext : Cursor.At T S (i + 1) { c.mark (.ahead c.index) with index := c.index + 1 } :=
    ⟨htokens, hwithin, congrArg (· + 1) hindex, hlt, hlawful⟩
  refine hnext.mark ?_
  rw [h.index]
  exact ⟨Nat.succ_pos i, hlt⟩

end At

end Cursor

section
variable {α β : Type} {T : List Token} {S : List (Part × Nat)} {i : Nat} {p p' : Read α}
  {q q' : Walk α} {P Q : α → Nat → Prop}

namespace Walks

theorem pure {x : α} (h : Q x i) : Walks T S i (pure x) (pure x) Q :=
  fun _ hc => ⟨rfl, i, Nat.le_refl i, h, hc⟩

theorem throw (e : Unread) : Walks T S i (throw e) (throw e) Q :=
  fun _ hc => ⟨rfl, i, Nat.le_refl i, hc⟩

theorem bind {f : α → Read β} {g : α → Walk β} {Q : β → Nat → Prop} (hp : Walks T S i p q P)
    (hf : ∀ x k, i ≤ k → P x k → Walks T S k (f x) (g x) Q) :
    Walks T S i (p >>= f) (q >>= g) Q := by
  intro c hc
  have h := hp c hc
  show Walk.Left T S i Q (EStateM.bind p f c.reader) (EStateM.bind q g c)
  rw [EStateM.bind, EStateM.bind]
  cases hq : q c with
  | error e c₁ =>
    rw [hq] at h
    rw [h.1]
    exact ⟨rfl, h.2⟩
  | ok x c₁ =>
    rw [hq] at h
    obtain ⟨hplain, k, hk, hx, hc₁⟩ := h
    rw [hplain]
    have h' := hf x k hk hx c₁ hc₁
    dsimp only
    cases hg : g x c₁ with
    | error e c₂ =>
      rw [hg] at h'
      obtain ⟨hplain', j, hj, hc₂⟩ := h'
      exact ⟨hplain', j, Nat.le_trans hk hj, hc₂⟩
    | ok y c₂ =>
      rw [hg] at h'
      obtain ⟨hplain', j, hj, hy, hc₂⟩ := h'
      exact ⟨hplain', j, Nat.le_trans hk hj, hy, hc₂⟩

theorem imp (hp : Walks T S i p q P) (h : ∀ x k, i ≤ k → P x k → Q x k) : Walks T S i p q Q := by
  intro c hc
  have hleft := hp c hc
  cases hq : q c with
  | error e c₁ =>
    rw [hq] at hleft
    exact hleft
  | ok x c₁ =>
    rw [hq] at hleft
    obtain ⟨hplain, k, hk, hx, hc₁⟩ := hleft
    exact ⟨hplain, k, hk, h x k hk hx, hc₁⟩

theorem map {g : α → β} {Q : β → Nat → Prop} (hp : Walks T S i p q P)
    (h : ∀ x k, i ≤ k → P x k → Q (g x) k) : Walks T S i (g <$> p) (g <$> q) Q := by
  rw [map_eq_pure_bind, map_eq_pure_bind]
  exact hp.bind fun x k hk hx => .pure (h x k hk hx)

theorem ite {b : Prop} [Decidable b] (h : b → Walks T S i p q Q) (h' : ¬b → Walks T S i p' q' Q) :
    Walks T S i (if b then p else p') (if b then q else q') Q := by
  split
  · next hb => exact h hb
  · next hb => exact h' hb

/-- A part that may be missing. -/
theorem optional {b : Prop} [Decidable b] {x : α} {f : α → Read β} {g : α → Walk β}
    {Q : β → Nat → Prop} (hp : Walks T S i p q P)
    (hf : ∀ x k, i ≤ k → Walks T S k (f x) (g x) Q) :
    Walks T S i (if b then f x else p >>= f) (if b then g x else q >>= g) Q :=
  .ite (fun _ => hf x i (Nat.le_refl i)) fun _ => hp.bind fun x k hk _ => hf x k hk

theorem enter {part : Part} (h : part.Free S i) (hp : Walks T ((part, i) :: S) i p q Q) :
    Walks T S i p (Walk.enter part q) Q := by
  intro c hc
  have hmark : (Mark.enter part c.index c.within).Lawful T.length := by
    rw [hc.index, hc.within]
    exact ⟨hc.inside, fun x hx => (h x hx).2⟩
  have hin : Cursor.At T ((part, i) :: S) i
      { c.mark (.enter part c.index c.within) with within := (part, c.index) :: c.within } := by
    obtain ⟨htokens, -, hindex, hinside, hlawful⟩ := hc.mark hmark
    exact ⟨htokens, by rw [hc.index, hc.within], hindex, hinside, hlawful⟩
  have hout : ∀ {k c'}, Cursor.At T ((part, i) :: S) k c' →
      Cursor.At T S k { c' with within := c.within } := fun h' =>
    ⟨h'.tokens, hc.within, h'.index, h'.inside, h'.lawful⟩
  have hleft := hp _ hin
  unfold Walk.enter
  cases hq : q { c.mark (.enter part c.index c.within) with
      within := (part, c.index) :: c.within } with
  | error e c' =>
    rw [hq] at hleft
    obtain ⟨hplain, k, hk, hc'⟩ := hleft
    exact ⟨hplain, k, hk, hout hc'⟩
  | ok x c' =>
    rw [hq] at hleft
    obtain ⟨hplain, k, hk, hx, hc'⟩ := hleft
    exact ⟨hplain, k, hk, hx, hout hc'⟩

end Walks

end

/-! ### Single steps -/

namespace Walk
variable {α β : Type} {T : List Token} {S : List (Part × Nat)} {i : Nat} {c : Cursor}

theorem site_walks :
    Walks T S i Read.site site fun s k => k = i ∧ ∀ t, s = .token t → i < T.length := by
  intro c hc
  rw [site, bind_of_ok (p := look) (s := c) rfl]
  cases ht : c.tokens[c.index]? with
  | none =>
    have hsite : Read.site c.reader = .ok (.stop c.stop) c.reader := by
      rw [Cursor.reader_of_end ht]
      rfl
    exact ⟨hsite, i, Nat.le_refl i, ⟨rfl, fun t h => Site.noConfusion h⟩, hc.looked⟩
  | some t =>
    have hsite : Read.site c.reader = .ok (.token t) c.reader := by
      rw [Cursor.reader_of_token ht]
      rfl
    exact ⟨hsite, i, Nat.le_refl i, ⟨rfl, fun _ _ => hc.lt_of_token ht⟩, hc.looked⟩

theorem ahead_walks (p : Token → Bool) : Walks T S i (Read.ahead p) (ahead p) fun _ k => k = i := by
  intro c hc
  refine ⟨?_, i, Nat.le_refl i, rfl, hc.looked⟩
  rw [Read.ahead, ← List.head?_drop]
  rfl

theorem atEnd_walks :
    Walks T S i Read.atEnd atEnd fun b k => k = i ∧ (b = false → i < T.length) := by
  intro c hc
  have hopen : c.tokens[c.index]?.isNone = false → i < T.length := by
    intro h
    obtain ⟨t, ht⟩ := Option.isSome_iff_exists.1 (Option.isNone_eq_false_iff.1 h)
    exact hc.lt_of_token ht
  refine ⟨?_, i, Nat.le_refl i, ⟨rfl, hopen⟩, hc.looked⟩
  have hempty : c.reader.rest.isEmpty = c.tokens[c.index]?.isNone := by
    rw [← List.head?_drop]
    show (c.tokens.drop c.index).isEmpty = _
    cases c.tokens.drop c.index <;> rfl
  rw [Read.atEnd, hempty]
  rfl

/-- The token that was passed is the one before. -/
theorem pass_back {t : Token} (ht : c.tokens[c.index]? = some t) :
    (pass >>= fun _ => back : Walk Token) (c.mark (.ahead c.index)) = .ok t c.passed := by
  have hlast : c.tokens.getD c.index default = t := by
    rw [List.getD_eq_getElem?_getD, ht]
    rfl
  rw [← hlast]
  rfl

theorem advance_of_token {t : Token} (ht : c.tokens[c.index]? = some t) :
    advance c = .ok t c.passed := by
  rw [advance, bind_of_ok (p := look) (s := c) rfl, ht]
  exact pass_back ht

theorem advance_of_end (ht : c.tokens[c.index]? = none) :
    ∃ t, advance c = .ok t (Cursor.mark (.back c.index) (c.mark (.ahead c.index))) := by
  rw [advance, bind_of_ok (p := look) (s := c) rfl, ht]
  exact ⟨_, rfl⟩

theorem skip_walks (h : i < T.length) : Walks T S i Read.skip skip fun _ k => k = i + 1 := by
  intro c hc
  have ht : c.tokens[c.index]? = some T[i] := by
    rw [hc.getElem?]
    exact List.getElem?_eq_getElem h
  rw [skip, bind_of_ok (advance_of_token ht), Read.skip, Cursor.reader_of_token ht]
  exact ⟨rfl, i + 1, Nat.le_succ i, rfl, hc.passed h⟩

/-- A part whose first token is seen already. -/
theorem skipped_walks {p : Read α} {q : Walk α} (h : i < T.length)
    (hp : Walks T S (i + 1) p q fun _ _ => True) :
    Walks T S i (do Read.skip; p) (do skip; q) fun _ k => i < k := by
  refine (skip_walks h).bind fun _ j _ hj => ?_
  subst hj
  exact hp.imp fun _ k hk _ => hk

theorem accept_walks (p : Token → Bool) :
    Walks T S i (Read.accept p) (accept p) fun o k => o.isSome = true → i < k := by
  intro c hc
  rw [accept, bind_of_ok (p := ahead p) (s := c) rfl]
  cases ht : c.tokens[c.index]? with
  | none =>
    have hnone : Read.accept p c.reader = .ok none c.reader := by
      rw [Cursor.reader_of_end ht]
      rfl
    exact ⟨hnone, i, Nat.le_refl i, fun h => Bool.noConfusion h, hc.looked⟩
  | some t =>
    have haccept : Read.accept p c.reader = if p t = true
        then .ok (some t) ⟨c.tokens.drop (c.index + 1), c.stop, c.nextId, c.faults⟩
        else .ok none c.reader := by
      rw [Cursor.reader_of_token ht]
      rfl
    rw [haccept, Option.any_some]
    by_cases hp : p t = true
    · rw [if_pos hp, if_pos hp, ← bind_assoc, bind_of_ok (pass_back ht)]
      exact ⟨rfl, i + 1, Nat.le_succ i, fun _ => Nat.lt_succ_self i, hc.passed (hc.lt_of_token ht)⟩
    · rw [if_neg hp, if_neg hp]
      exact ⟨rfl, i, Nat.le_refl i, fun h => Bool.noConfusion h, hc.looked⟩

/-- A step that does not look at the tokens. -/
theorem unseeing_walks {p : Read α} (hp : ∀ more, Blind more p) :
    Walks T S i p (unseeing p) fun _ k => k = i := by
  intro c hc
  obtain ⟨x, r, hx, hrest, hmore⟩ :=
    hp (c.tokens.drop c.index) ⟨[], c.stop, c.nextId, c.faults⟩
  have hrest : r.rest = [] := hrest
  have hplain : p c.reader = .ok x (r.before (c.tokens.drop c.index)) := hmore
  rw [hplain, unseeing, hx, Reader.before, hrest]
  exact ⟨rfl, i, Nat.le_refl i, rfl, hc.tokens, hc.within, hc.index, hc.inside, hc.lawful⟩

theorem report_walks (s : Site) (f : ReadingFault) :
    Walks T S i (Read.report s f) (report s f) fun _ k => k = i :=
  unseeing_walks fun _ => Read.report_blind s f

theorem refer_walks (name : Token) :
    Walks T S i (Read.refer name) (refer name) fun _ k => k = i :=
  unseeing_walks fun _ => Read.refer_blind name

theorem fail_walks {Q : α → Nat → Prop} (f : ReadingFault) :
    Walks T S i (Read.fail f) (fail f) Q := by
  have hfail : (Read.fail f : Read α) =
      Read.site >>= fun s => Read.report s f >>= fun _ => throw .faulty := rfl
  rw [hfail, fail]
  exact site_walks.bind fun s k _ _ => (report_walks s f).bind fun _ _ _ _ => .throw _

theorem acceptSymbol_walks (s : Symbol) :
    Walks T S i (Read.acceptSymbol s) (acceptSymbol s) fun b k => b = true → i < k :=
  (accept_walks _).bind fun _ _ _ h => .pure h

theorem acceptKeyword_walks (w : Keyword) :
    Walks T S i (Read.acceptKeyword w) (acceptKeyword w) fun b k => b = true → i < k :=
  (accept_walks _).bind fun _ _ _ h => .pure h

theorem expect_walks (p : Token → Bool) (f : ReadingFault) :
    Walks T S i (Read.expect p f) (expect p f) fun _ k => i < k :=
  (accept_walks p).bind fun o k _ h => by
    cases o with
    | none => exact fail_walks f
    | some t => exact .pure (h rfl)

theorem expectSymbol_walks (s : Symbol) (f : ReadingFault) :
    Walks T S i (Read.expectSymbol s f) (expectSymbol s f) fun _ k => i < k := expect_walks _ f

theorem expectName_walks (f : ReadingFault) :
    Walks T S i (Read.expectName f) (expectName f) fun _ k => i < k := expect_walks _ f

/-- A part that is there if the symbol `s` is. -/
theorem introduced_walks {p : Read α} {q : Walk α} {f : α → Read β} {g : α → Walk β} {s : Symbol}
    {x : α} {P : α → Nat → Prop} {Q : β → Nat → Prop} (hp : ∀ k, i < k → Walks T S k p q P)
    (hf : ∀ x k, i ≤ k → Walks T S k (f x) (g x) Q) :
    Walks T S i (do if ← Read.acceptSymbol s then p >>= f else f x)
      (do if ← acceptSymbol s then q >>= g else g x) Q := by
  refine (acceptSymbol_walks s).bind fun given k hk h => .ite (fun hm => ?_) fun _ => hf x k hk
  exact (hp k (h hm)).bind fun x j hj _ => hf x j (Nat.le_trans hk hj)

/-- A part after a report that is made only if `b`. -/
theorem reported_walks {b : Prop} [Decidable b] {p : Read α} {q : Walk α} {f : ReadingFault}
    {Q : α → Nat → Prop} (hp : Walks T S i p q Q) :
    Walks T S i (do if b then Read.report (← Read.site) f
                    p)
      (do if b then report (← site) f
          q) Q := by
  refine .ite (fun _ => ?_) fun _ => hp
  refine site_walks.bind fun s k _ hk => (report_walks s f).bind fun _ j _ hj => ?_
  rw [hj, hk.1]
  exact hp

/-! ### Recovery -/

/-- From the token after `last` on, the tokens are passed that recovery drops. -/
theorem passSpoiled_ok {last : Token} {n : Nat} (hc : c.At T S i) (hpos : 0 < i)
    (hlast : T[i - 1]? = some last) (hn : T.length ≤ i + n) :
    ∃ c' k, passSpoiled n c = .ok () c' ∧ i ≤ k ∧ c'.At T S k ∧
      c'.reader = { c.reader with rest := Reader.dropSpoiled last c.reader.rest } := by
  induction n generalizing c i last with
  | zero =>
    have ht : c.tokens[c.index]? = none := by
      rw [hc.getElem?]
      exact List.getElem?_eq_none hn
    refine ⟨c, i, rfl, Nat.le_refl i, hc, ?_⟩
    rw [Cursor.reader_of_end ht]
    rfl
  | succ n ih =>
    rw [passSpoiled, bind_of_ok (p := look) (s := c) rfl]
    cases ht : c.tokens[c.index]? with
    | none =>
      refine ⟨_, i, rfl, Nat.le_refl i, hc.looked, ?_⟩
      rw [Cursor.reader_of_end ht]
      exact Cursor.reader_of_end ht
    | some t =>
      have hback : back (c.mark (.ahead c.index)) =
          .ok last (Cursor.mark (.back c.index) (c.mark (.ahead c.index))) := by
        have hget : c.tokens.getD (c.index - 1) default = last := by
          rw [List.getD_eq_getElem?_getD, hc.tokens, hc.index, hlast]
          rfl
        rw [← hget]
        rfl
      have hmark : (Mark.back c.index).Lawful T.length := by
        rw [hc.index]
        exact ⟨hpos, hc.inside⟩
      have hc₁ := hc.looked.mark hmark
      dsimp only
      rw [bind_of_ok hback, Cursor.reader_of_token ht, Reader.dropSpoiled]
      by_cases hstop : (last.isSymbol .semicolon || Reader.resumesAt t) = true
      · rw [if_pos hstop, if_pos hstop]
        exact ⟨_, i, rfl, Nat.le_refl i, hc₁, Cursor.reader_of_token ht⟩
      · have hadvance : advance (Cursor.mark (.back c.index) (c.mark (.ahead c.index))) =
            .ok t (Cursor.mark (.back c.index) (c.mark (.ahead c.index))).passed :=
          advance_of_token ht
        rw [if_neg hstop, if_neg hstop, bind_of_ok hadvance]
        have hti : T[i + 1 - 1]? = some t := by
          rw [Nat.add_sub_cancel, ← hc.getElem?, ht]
        obtain ⟨c', k, hpass, hk, hc', hreader⟩ :=
          ih (hc₁.passed (hc.lt_of_token ht)) (Nat.succ_pos i) hti (by omega)
        exact ⟨c', k, hpass, by omega, hc', hreader⟩

/-- Recovery passes a token if there is one. -/
theorem recover_ok (hT : T ≠ []) (hc : c.At T S i) :
    ∃ c' k, recover c = .ok () c' ∧ i ≤ k ∧ (i < T.length → i < k) ∧ c'.At T S k ∧
      c'.reader = c.reader.recover := by
  cases ht : c.tokens[c.index]? with
  | none =>
    -- at the end there is a token before only because there is one at all
    have hi := hc.eq_of_end ht
    have hlen : 0 < T.length := List.length_pos_iff.2 hT
    obtain ⟨t, hadvance⟩ := advance_of_end ht
    have hmark : (Mark.back c.index).Lawful T.length := by
      rw [hc.index]
      exact ⟨by omega, hc.inside⟩
    have hc₁ := hc.looked.mark hmark
    have hzero : c.tokens.length - c.index = 0 := by
      rw [hc.tokens, hc.index]
      omega
    refine ⟨_, i, ?_, Nat.le_refl i, by omega, hc₁, ?_⟩
    · rw [recover, bind_of_ok hadvance]
      show passSpoiled (c.tokens.length - c.index) _ = _
      rw [hzero]
      rfl
    · rw [Cursor.reader_of_end ht]
      exact Cursor.reader_of_end ht
  | some t =>
    have hlt := hc.lt_of_token ht
    have hti : T[i + 1 - 1]? = some t := by
      rw [Nat.add_sub_cancel, ← hc.getElem?, ht]
    have hn : T.length ≤ i + 1 + (T.length - (i + 1)) := by omega
    obtain ⟨c', k, hpass, hk, hc', hreader⟩ :=
      passSpoiled_ok (hc.passed hlt) (Nat.succ_pos i) hti hn
    refine ⟨c', k, ?_, by omega, by omega, hc', ?_⟩
    · rw [recover, bind_of_ok (advance_of_token ht)]
      show passSpoiled (c.tokens.length - (c.index + 1)) _ = _
      rw [hc.tokens, hc.index]
      exact hpass
    · rw [hreader, Cursor.reader_of_token ht]
      rfl

/-- So no fault keeps reading at its place. -/
theorem recovering_walks {p : Read Stmt} {q : Walk Stmt} (hT : T ≠ [])
    (h : Walks T S i p q fun _ k => i < k) :
    Walks T S i (Read.recovering p) (recovering q) fun _ k => i < T.length → i < k := by
  intro c hc
  have hleft := h c hc
  unfold recovering Read.recovering
  cases hq : q c with
  | ok s c₁ =>
    rw [hq] at hleft
    obtain ⟨hplain, k, hk, hlt, hc₁⟩ := hleft
    rw [hplain]
    exact ⟨rfl, k, hk, fun _ => hlt, hc₁⟩
  | error e c₁ =>
    rw [hq] at hleft
    obtain ⟨hplain, k, hk, hc₁⟩ := hleft
    rw [hplain]
    cases e with
    | exhausted => exact ⟨rfl, k, hk, hc₁⟩
    | faulty =>
      obtain ⟨c₂, j, hrecover, hj, hlt, hc₂, hreader⟩ := recover_ok hT hc₁
      dsimp only
      rw [bind_of_ok hrecover, ← hreader]
      exact ⟨rfl, j, by omega, fun _ => by omega, hc₂⟩

end Walk

/-! ### Expressions -/

theorem Level.rank_tighter {l l' : Level} (h : l.tighter? = some l') : l.rank < l'.rank := by
  cases l <;> cases h <;> decide

theorem Level.rank_lt (l : Level) : l.rank < 6 := by cases l <;> decide

/-- Expressions are read by an index as they are otherwise. All but the rests of lists take a
token. -/
structure ExprWalks (T : List Token) (n : Nat) : Prop where
  expression : ∀ {S i}, Part.expression.Free S i →
    Walks T S i (Read.expression n) (Walk.expression n) fun _ k => i < k
  parts : ∀ {S i} acc, Part.parts.Free S i →
    Walks T S i (Read.parts n acc) (Walk.parts n acc) fun _ _ => True
  assignment : ∀ {S i}, Part.assignment.Free S i →
    Walks T S i (Read.assignment n) (Walk.assignment n) fun _ k => i < k
  ternary : ∀ {S i}, Part.ternary.Free S i →
    Walks T S i (Read.ternary n) (Walk.ternary n) fun _ k => i < k
  operators : ∀ {S i} l, (Part.operators l).Free S i →
    Walks T S i (Read.operators n l) (Walk.operators n l) fun _ k => i < k
  operatorsAfter : ∀ {S i} l left, (Part.operatorsAfter l).Free S i →
    Walks T S i (Read.operatorsAfter n l left) (Walk.operatorsAfter n l left) fun _ _ => True
  unary : ∀ {S i}, Part.unary.Free S i →
    Walks T S i (Read.unary n) (Walk.unary n) fun _ k => i < k
  suffixes : ∀ {S i} e, Part.suffixes.Free S i →
    Walks T S i (Read.suffixes n e) (Walk.suffixes n e) fun _ _ => True
  arguments : ∀ {S i} count acc, Part.arguments.Free S i →
    Walks T S i (Read.arguments n count acc) (Walk.arguments n count acc) fun _ k => i < k
  primary : ∀ {S i}, Part.primary.Free S i →
    Walks T S i (Read.primary n) (Walk.primary n) fun _ k => i < k

namespace ExprWalks
open Walk
variable {T : List Token} {S : List (Part × Nat)} {n i : Nat}

theorem expression_succ (ih : ExprWalks T n) (h : Part.expression.Free S i) :
    Walks T S i (Read.expression (n + 1)) (Walk.expression (n + 1)) fun _ k => i < k := by
  rw [Read.expression, Walk.expression]
  refine .enter h ((ih.assignment (h.down (by decide))).bind fun first k _ hk => ?_)
  refine (ahead_walks _).bind fun _ j _ hj => ?_
  subst hj
  refine .ite (fun _ => ?_) fun _ => .pure hk
  exact (ih.parts _ (h.past hk)).bind fun es j hj _ => .pure (by omega)

theorem parts_succ (ih : ExprWalks T n) (acc : List Expr) (h : Part.parts.Free S i) :
    Walks T S i (Read.parts (n + 1) acc) (Walk.parts (n + 1) acc) fun _ _ => True := by
  rw [Read.parts, Walk.parts]
  refine .enter h ((acceptSymbol_walks _).bind fun more k _ hk => ?_)
  refine .ite (fun hm => ?_) fun _ => .pure trivial
  have hk := hk hm
  exact (ih.assignment (h.past hk)).bind fun part j hj _ => ih.parts _ (h.past (by omega))

theorem assignment_succ (ih : ExprWalks T n) (h : Part.assignment.Free S i) :
    Walks T S i (Read.assignment (n + 1)) (Walk.assignment (n + 1)) fun _ k => i < k := by
  rw [Read.assignment, Walk.assignment]
  refine .enter h ((ih.ternary (h.down (by decide))).bind fun target k _ hk => ?_)
  refine (accept_walks _).bind fun op j hj _ => ?_
  cases op with
  | none => exact .pure (by omega)
  | some op =>
    refine (ih.assignment (h.past (by omega))).bind fun value a _ ha => ?_
    exact (unseeing_walks fun _ => ExprProlongs.assigned_blind target op value).imp
      fun _ _ _ _ => by omega

theorem ternary_succ (ih : ExprWalks T n) (h : Part.ternary.Free S i) :
    Walks T S i (Read.ternary (n + 1)) (Walk.ternary (n + 1)) fun _ k => i < k := by
  rw [Read.ternary, Walk.ternary]
  refine .enter h ((ih.operators .or (h.down (by decide))).bind fun cond k _ hk => ?_)
  refine (acceptSymbol_walks _).bind fun more j hj _ => .ite (fun _ => ?_) fun _ => .pure (by omega)
  refine (ih.expression (h.past (by omega))).bind fun yes a _ ha => ?_
  refine (expectSymbol_walks _ _).bind fun _ b _ hb => ?_
  exact (ih.ternary (h.past (by omega))).bind fun no d _ hd => .pure (by omega)

/-- The operands of a level, where the part around them was entered at `i`. -/
theorem operand {part : Part} (ih : ExprWalks T n) (l : Level) {k : Nat} {f : Expr → Read Expr}
    {g : Expr → Walk Expr} {Q : Expr → Nat → Prop} (h : part.Free S i) (hik : i ≤ k)
    (hrank : i < k ∨ part.rank = 7 + l.rank)
    (hf : ∀ e j, k < j → Walks T ((part, i) :: S) j (f e) (g e) Q) :
    Walks T ((part, i) :: S) k
      (match l.tighter? with
        | some l => Read.operators n l >>= f
        | none => Read.unary n >>= f)
      (match l.tighter? with
        | some l => Walk.operators n l >>= g
        | none => Walk.unary n >>= g) Q := by
  have hfree : ∀ inner : Part, 7 + l.rank < inner.rank → inner.Free ((part, i) :: S) k := by
    intro inner hinner
    -- the first operand is read where the level is entered, the others behind an operator
    by_cases hlt : i < k
    · exact h.past hlt
    · obtain rfl : i = k := by omega
      exact h.down (by omega)
  cases ht : l.tighter? with
  | none =>
    have := l.rank_lt
    exact (ih.unary (hfree _ (by simp only [Part.rank]; omega))).bind fun e j _ hj => hf e j hj
  | some l' =>
    have := Level.rank_tighter ht
    exact (ih.operators l' (hfree _ (by simp only [Part.rank]; omega))).bind
      fun e j _ hj => hf e j hj

theorem operators_succ (ih : ExprWalks T n) (l : Level) (h : (Part.operators l).Free S i) :
    Walks T S i (Read.operators (n + 1) l) (Walk.operators (n + 1) l) fun _ k => i < k := by
  rw [Read.operators, Walk.operators]
  refine .enter h (ih.operand l h (Nat.le_refl i) (.inr rfl) fun first k hk => ?_)
  exact (ih.operatorsAfter l first (h.past hk)).imp fun _ _ _ _ => by omega

theorem operatorsAfter_succ (ih : ExprWalks T n) (l : Level) (left : Expr)
    (h : (Part.operatorsAfter l).Free S i) :
    Walks T S i (Read.operatorsAfter (n + 1) l left) (Walk.operatorsAfter (n + 1) l left)
      fun _ _ => True := by
  rw [Read.operatorsAfter, Walk.operatorsAfter]
  refine .enter h ((accept_walks _).bind fun op k hk hop => ?_)
  cases op with
  | none => exact .pure trivial
  | some op =>
    refine ih.operand l h hk (.inl (hop rfl)) fun right j hj => ?_
    exact ih.operatorsAfter l _ (h.past (by omega))

theorem unary_succ (ih : ExprWalks T n) (h : Part.unary.Free S i) :
    Walks T S i (Read.unary (n + 1)) (Walk.unary (n + 1)) fun _ k => i < k := by
  rw [Read.unary, Walk.unary]
  refine .enter h ((accept_walks _).bind fun op k hk hop => ?_)
  cases op with
  | none =>
    -- that no token was taken is not said here, but either way will do
    have hfree : Part.primary.Free ((.unary, i) :: S) k := by
      obtain rfl | hlt := Nat.eq_or_lt_of_le hk
      · exact h.down (by decide)
      · exact h.past hlt
    refine (ih.primary hfree).bind fun e j _ hj => ?_
    exact (ih.suffixes e (h.past (by omega))).imp fun _ _ _ _ => by omega
  | some op =>
    have hop := hop rfl
    exact (ih.unary (h.past hop)).bind fun e j _ hj => .pure (by omega)

theorem suffixes_succ (ih : ExprWalks T n) (e : Expr) (h : Part.suffixes.Free S i) :
    Walks T S i (Read.suffixes (n + 1) e) (Walk.suffixes (n + 1) e) fun _ _ => True := by
  rw [Read.suffixes, Walk.suffixes]
  refine .enter h ((acceptSymbol_walks _).bind fun call k hk hcall => ?_)
  refine .ite (fun hm => ?_) fun _ => ?_
  · have hcall := hcall hm
    refine (ahead_walks _).bind fun _ j hj _ => ?_
    refine .optional (ih.arguments 0 [] (h.past (by omega))) fun args a ha => ?_
    refine (expectSymbol_walks _ _).bind fun paren b hb _ => ?_
    exact ih.suffixes _ (h.past (by omega))
  · refine (acceptSymbol_walks _).bind fun get j hj hget => ?_
    refine .ite (fun hm => ?_) fun _ => .pure trivial
    have hget := hget hm
    exact (expectName_walks _).bind fun x a ha _ => ih.suffixes _ (h.past (by omega))

theorem arguments_succ (ih : ExprWalks T n) (count : Nat) (acc : List Expr)
    (h : Part.arguments.Free S i) :
    Walks T S i (Read.arguments (n + 1) count acc) (Walk.arguments (n + 1) count acc)
      fun _ k => i < k := by
  rw [Read.arguments, Walk.arguments]
  refine .enter h (reported_walks ?_)
  refine (ih.assignment (h.down (by decide))).bind fun arg k _ hk => ?_
  refine (acceptSymbol_walks _).bind fun _ j hj _ => .ite (fun _ => ?_) fun _ => .pure (by omega)
  exact (ih.arguments _ _ (h.past (by omega))).imp fun _ _ _ _ => by omega

theorem primary_succ (ih : ExprWalks T n) (h : Part.primary.Free S i) :
    Walks T S i (Read.primary (n + 1)) (Walk.primary (n + 1)) fun _ k => i < k := by
  rw [Read.primary, Walk.primary]
  refine .enter h (site_walks.bind fun s k _ hs => ?_)
  obtain ⟨rfl, hs⟩ := hs
  cases s with
  | stop pos => exact fail_walks _
  | token t =>
    have hlt := hs t rfl
    have hplain : ∀ e : Expr, Walks T ((.primary, k) :: S) k (do Read.skip; return e)
        (do Walk.skip; return e) fun _ j => k < j := fun e => skipped_walks hlt (.pure trivial)
    have href : ∀ f : Ref → Expr, Walks T ((.primary, k) :: S) k
        (do Read.skip; return f (← Read.refer t)) (do Walk.skip; return f (← Walk.refer t))
        fun _ j => k < j := fun f =>
      skipped_walks hlt ((refer_walks t).bind fun _ _ _ _ => .pure trivial)
    dsimp only
    cases t.kind with
    | number x => exact hplain _
    | string x => exact hplain _
    | identifier x => exact href _
    | keyword w =>
      cases w with
      | true | false | nil => exact hplain _
      | this => exact href _
      | super =>
        refine skipped_walks hlt ((expectSymbol_walks _ _).bind fun _ a _ _ => ?_)
        refine (expectName_walks _).bind fun x b _ _ => ?_
        exact (refer_walks t).bind fun _ _ _ _ => .pure trivial
      | _ => exact fail_walks _
    | symbol s =>
      cases s with
      | leftParen =>
        refine skipped_walks hlt ((ih.expression (h.past k.lt_succ_self)).bind fun e a _ _ => ?_)
        exact (expectSymbol_walks _ _).bind fun _ _ _ _ => .pure trivial
      | _ => exact fail_walks _

end ExprWalks

theorem exprWalks (T : List Token) (n : Nat) : ExprWalks T n := by
  induction n with
  | zero =>
    refine ⟨?_, ?_, ?_, ?_, ?_, ?_, ?_, ?_, ?_, ?_⟩
    all_goals intros; exact .throw _
  | succ n ih =>
    exact ⟨ih.expression_succ, ih.parts_succ, ih.assignment_succ, ih.ternary_succ,
      ih.operators_succ, ih.operatorsAfter_succ, ih.unary_succ, ih.suffixes_succ,
      ih.arguments_succ, ih.primary_succ⟩

/-! ### Declarations without bodies -/

namespace Walk
variable {T : List Token} {S : List (Part × Nat)} {n i : Nat}

theorem typeName_walks : Walks T S i Read.typeName typeName fun _ _ => True := by
  refine (acceptSymbol_walks _).bind fun _ _ _ _ => .ite (fun _ => ?_) fun _ => .pure trivial
  exact (expectName_walks _).bind fun _ _ _ _ => .pure trivial

theorem names_walks (f : ReadingFault) (acc : List Token) (h : Part.names.Free S i) :
    Walks T S i (Read.names f n acc) (names f n acc) fun _ _ => True := by
  induction n generalizing acc i S with
  | zero => exact .throw _
  | succ n ih =>
    rw [Read.names, names]
    refine .enter h ((expectName_walks _).bind fun x k _ hk => ?_)
    refine (acceptSymbol_walks _).bind fun _ j hj _ => .ite (fun _ => ?_) fun _ => .pure trivial
    exact ih _ (h.past (by omega))

theorem parameters_walks (count : Nat) (acc : List Token) (h : Part.parameters.Free S i) :
    Walks T S i (Read.parameters n count acc) (parameters n count acc) fun _ _ => True := by
  induction n generalizing count acc i S with
  | zero => exact .throw _
  | succ n ih =>
    rw [Read.parameters, parameters]
    refine .enter h (reported_walks ((expectName_walks _).bind fun x k _ hk => ?_))
    refine (acceptSymbol_walks _).bind fun _ j hj _ => .ite (fun _ => ?_) fun _ => .pure trivial
    exact ih _ _ (h.past (by omega))

theorem varList_walks (acc : List Stmt) (h : Part.varList.Free S i) :
    Walks T S i (Read.varList n acc) (varList n acc) fun _ _ => True := by
  induction n generalizing acc i S with
  | zero => exact .throw _
  | succ n ih =>
    rw [Read.varList, varList]
    refine .enter h ((expectName_walks _).bind fun x k _ hk => ?_)
    refine typeName_walks.bind fun type j hj _ => ?_
    refine introduced_walks (P := fun _ _ => True) (fun a ha => ?_) fun init a ha => ?_
    · exact ((exprWalks T n).assignment (h.past (by omega))).map fun _ _ _ _ => trivial
    · refine (acceptSymbol_walks _).bind fun _ b hb _ => .ite (fun _ => ?_) fun _ => .pure trivial
      exact ih _ (h.past (by omega))

theorem varDeclaration_walks (h : Part.varDeclaration.Free S i) :
    Walks T S i (Read.varDeclaration n) (varDeclaration n) fun _ k => i < k := by
  refine .enter h ((varList_walks [] (h.down (by decide))).bind fun _ k hk _ => ?_)
  exact (expectSymbol_walks _ _).bind fun _ _ _ _ => .pure (by omega)

theorem importDeclaration_walks (keyword : Token) (h : Part.importDeclaration.Free S i) :
    Walks T S i (Read.importDeclaration n keyword) (importDeclaration n keyword)
      fun _ _ => True := by
  refine .enter h ((expectSymbol_walks _ _).bind fun _ a _ ha => ?_)
  refine (names_walks _ [] (h.past ha)).bind fun ns b _ _ => ?_
  refine (expectSymbol_walks _ _).bind fun _ d _ _ => (expect_walks _ _).bind fun _ e _ _ => ?_
  refine site_walks.bind fun s k _ hs => ?_
  obtain ⟨rfl, hs⟩ := hs
  cases s with
  | stop pos => exact fail_walks _
  | token path =>
    dsimp only
    cases path.kind with
    | string module =>
      refine (skip_walks (hs path rfl)).bind fun _ _ _ _ => ?_
      exact (expectSymbol_walks _ _).bind fun _ _ _ _ => .pure trivial
    | _ => exact fail_walks _

theorem exposeDeclaration_walks (keyword : Token) (h : Part.exposeDeclaration.Free S i) :
    Walks T S i (Read.exposeDeclaration n keyword) (exposeDeclaration n keyword)
      fun _ _ => True := by
  refine .enter h ((names_walks _ [] (h.down (by decide))).bind fun _ _ _ _ => ?_)
  exact (expectSymbol_walks _ _).bind fun _ _ _ _ => .pure trivial

theorem expressionStatement_walks (h : Part.expressionStatement.Free S i) :
    Walks T S i (Read.expressionStatement n) (expressionStatement n) fun _ k => i < k := by
  refine .enter h (((exprWalks T n).expression (h.down (by decide))).bind fun _ k _ hk => ?_)
  exact (expectSymbol_walks _ _).bind fun _ _ _ _ => .pure (by omega)

theorem superclass_walks (name : Token) :
    Walks T S i (Read.superclass name) (superclass name) fun _ _ => True := by
  have hrefer : ∀ (t : Token) (k : Nat), Walks T S k (do return some (← Read.refer t))
      (do return some (← refer t)) fun _ _ => True := fun t k =>
    (refer_walks t).bind fun _ _ _ _ => .pure trivial
  refine (acceptSymbol_walks _).bind fun _ _ _ _ => .ite (fun _ => ?_) fun _ => .pure trivial
  refine (expectName_walks _).bind fun t k _ _ => .ite (fun _ => ?_) fun _ => hrefer t k
  exact (report_walks _ _).bind fun _ j _ _ => hrefer t j

end Walk

/-! ### Statements -/

/-- Statements are read by an index as they are otherwise. A statement takes a token, and so does a
declaration before the end. -/
structure StmtWalks (T : List Token) (n : Nat) : Prop where
  declaration : ∀ {S i}, Part.declaration.Free S i →
    Walks T S i (Read.declaration n) (Walk.declaration n) fun _ k => i < T.length → i < k
  block : ∀ {S i} acc, Part.block.Free S i →
    Walks T S i (Read.block n acc) (Walk.block n acc) fun _ _ => True
  functionRest : ∀ {S i} role name, Part.functionRest.Free S i →
    Walks T S i (Read.functionRest n role name) (Walk.functionRest n role name) fun _ _ => True
  classDeclaration : ∀ {S i}, Part.classDeclaration.Free S i →
    Walks T S i (Read.classDeclaration n) (Walk.classDeclaration n) fun _ _ => True
  classMembers : ∀ {S i} acc, Part.classMembers.Free S i →
    Walks T S i (Read.classMembers n acc) (Walk.classMembers n acc) fun _ _ => True
  statement : ∀ {S i}, Part.statement.Free S i →
    Walks T S i (Read.statement n) (Walk.statement n) fun _ k => i < k
  branch : ∀ {S i}, Part.branch.Free S i →
    Walks T S i (Read.branch n) (Walk.branch n) fun _ _ => True
  countedLoop : ∀ {S i}, Part.countedLoop.Free S i →
    Walks T S i (Read.countedLoop n) (Walk.countedLoop n) fun _ _ => True

namespace Walk

/-- The clauses of a `for` after the first one, and its body. -/
def loopClauses (n : Nat) (first : List Stmt) : Walk Stmt := do
  let cond ←
    if ← ahead (·.isSymbol .semicolon) then pure (Expr.literal (.bool true)) else expression n
  let _ ← expectSymbol .semicolon (.noSemicolon .loopCondition)
  let step ← if ← ahead (·.isSymbol .rightParen) then pure none else some <$> expression n
  let _ ← expectSymbol .rightParen (.noCloseParen .loopClauses)
  let body ← statement n
  return .block (first ++ [.loop cond step body])

theorem countedLoop_eq (n : Nat) : countedLoop (n + 1) = enter .countedLoop (do
    let _ ← expectSymbol .leftParen (.noOpenParen .countedLoop)
    if ← acceptKeyword .var then (fun s => [s]) <$> varDeclaration n >>= loopClauses n
    else do
      if ← acceptSymbol .semicolon then loopClauses n []
      else (fun s => [s]) <$> expressionStatement n >>= loopClauses n) := by
  rw [countedLoop]
  rfl

end Walk

namespace StmtWalks
open Walk
variable {T : List Token} {S : List (Part × Nat)} {n i : Nat}

theorem declaration_succ (hT : T ≠ []) (ih : StmtWalks T n) (h : Part.declaration.Free S i) :
    Walks T S i (Read.declaration (n + 1)) (Walk.declaration (n + 1))
      fun _ k => i < T.length → i < k := by
  rw [Read.declaration, Walk.declaration]
  refine .enter h (recovering_walks hT (site_walks.bind fun s k _ hs => ?_))
  obtain ⟨rfl, hs⟩ := hs
  have hstatement := ih.statement (h.down (by decide))
  cases s with
  | stop pos => exact hstatement
  | token t =>
    have hlt := hs t rfl
    have hfree : ∀ {inner : Part}, inner.Free ((.declaration, k) :: S) (k + 1) :=
      h.past k.lt_succ_self
    dsimp only
    cases t.kind with
    | keyword w =>
      cases w with
      | var => exact skipped_walks hlt ((varDeclaration_walks hfree).imp fun _ _ _ _ => trivial)
      | «fun» =>
        refine skipped_walks hlt ((expectName_walks _).bind fun x a _ ha => ?_)
        exact (ih.functionRest _ x (h.past (by omega))).bind fun _ _ _ _ => .pure trivial
      | cls => exact skipped_walks hlt (ih.classDeclaration hfree)
      | imports => exact skipped_walks hlt (importDeclaration_walks t hfree)
      | expose => exact skipped_walks hlt (exposeDeclaration_walks t hfree)
      | _ => exact hstatement
    | _ => exact hstatement

theorem block_succ (ih : StmtWalks T n) (acc : List Stmt) (h : Part.block.Free S i) :
    Walks T S i (Read.block (n + 1) acc) (Walk.block (n + 1) acc) fun _ _ => True := by
  rw [Read.block, Walk.block]
  refine .enter h (atEnd_walks.bind fun ended k _ hopen => ?_)
  obtain ⟨rfl, hopen⟩ := hopen
  refine (ahead_walks _).bind fun closed j _ hj => ?_
  subst hj
  refine .ite (fun _ => ?_) fun hb => ?_
  · exact (expectSymbol_walks _ _).bind fun _ _ _ _ => .pure trivial
  · have hlt := hopen (Bool.eq_false_iff.2 fun he => hb (by rw [he]; rfl))
    refine (ih.declaration (h.down (by decide))).bind fun x a _ ha => ?_
    have hfree : Part.block.Free ((.block, j) :: S) a := h.past (ha hlt)
    cases x with
    | none => exact ih.block acc hfree
    | some s => exact ih.block (s :: acc) hfree

theorem functionRest_succ (ih : StmtWalks T n) (role : FunctionRole) (name : Token)
    (h : Part.functionRest.Free S i) :
    Walks T S i (Read.functionRest (n + 1) role name) (Walk.functionRest (n + 1) role name)
      fun _ _ => True := by
  rw [Read.functionRest, Walk.functionRest]
  refine .enter h ((expectSymbol_walks _ _).bind fun _ a _ ha => ?_)
  refine (ahead_walks _).bind fun _ b hb _ => ?_
  refine .optional (parameters_walks 0 [] (h.past (by omega))) fun params d hd => ?_
  refine (expectSymbol_walks _ _).bind fun _ e he _ => ?_
  refine (expectSymbol_walks _ _).bind fun _ j hj _ => ?_
  exact (ih.block [] (h.past (by omega))).bind fun _ _ _ _ => .pure trivial

theorem classDeclaration_succ (ih : StmtWalks T n) (h : Part.classDeclaration.Free S i) :
    Walks T S i (Read.classDeclaration (n + 1)) (Walk.classDeclaration (n + 1))
      fun _ _ => True := by
  rw [Read.classDeclaration, Walk.classDeclaration]
  refine .enter h ((expectName_walks _).bind fun x a _ ha => ?_)
  refine (superclass_walks x).bind fun sup b hb _ => ?_
  refine (expectSymbol_walks _ _).bind fun _ d hd _ => ?_
  refine (ih.classMembers _ (h.past (by omega))).bind fun members e _ _ => ?_
  refine (expectSymbol_walks _ _).bind fun _ j _ _ => ?_
  exact (unseeing_walks fun _ => Read.classOf_blind x sup members).imp fun _ _ _ _ => trivial

theorem classMembers_succ (ih : StmtWalks T n) (acc : Members) (h : Part.classMembers.Free S i) :
    Walks T S i (Read.classMembers (n + 1) acc) (Walk.classMembers (n + 1) acc)
      fun _ _ => True := by
  rw [Read.classMembers, Walk.classMembers]
  refine .enter h (atEnd_walks.bind fun _ a ha _ => (ahead_walks _).bind fun _ b hb _ => ?_)
  refine .ite (fun _ => .pure trivial) fun _ => ?_
  refine (acceptKeyword_walks _).bind fun static d hd _ => ?_
  refine (expectName_walks _).bind fun x e _ he => (ahead_walks _).bind fun _ j hj _ => ?_
  refine .ite (fun _ => ?_) fun _ => ?_
  · refine (ih.functionRest _ x (h.past (by omega))).bind fun f k hk _ => ?_
    exact ih.classMembers _ (h.past (by omega))
  · refine typeName_walks.bind fun type k hk _ => ?_
    refine introduced_walks (P := fun _ _ => True) (fun m hm => ?_) fun init m hm => ?_
    · exact ((exprWalks T n).expression (h.past (by omega))).map fun _ _ _ _ => trivial
    · refine (expectSymbol_walks _ _).bind fun _ l hl _ => ?_
      exact ih.classMembers _ (h.past (by omega))

theorem statement_succ (ih : StmtWalks T n) (h : Part.statement.Free S i) :
    Walks T S i (Read.statement (n + 1)) (Walk.statement (n + 1)) fun _ k => i < k := by
  rw [Read.statement, Walk.statement]
  refine .enter h (site_walks.bind fun s k _ hs => ?_)
  obtain ⟨rfl, hs⟩ := hs
  have hexpr : ∀ {j : Nat}, k < j → Walks T ((.statement, k) :: S) j (Read.expression n)
      (Walk.expression n) fun _ a => j < a := fun hj => (exprWalks T n).expression (h.past hj)
  have hexpression := expressionStatement_walks (T := T) (n := n) (h.down (by decide))
  cases s with
  | stop pos => exact hexpression
  | token t =>
    have hlt := hs t rfl
    have hfree : ∀ {inner : Part}, inner.Free ((.statement, k) :: S) (k + 1) :=
      h.past k.lt_succ_self
    have hsemicolon : ∀ {f : ReadingFault} {s : Stmt} {j : Nat},
        Walks T ((.statement, k) :: S) j (do let _ ← Read.expectSymbol .semicolon f; return s)
          (do let _ ← Walk.expectSymbol .semicolon f; return s) fun _ _ => True :=
      (expectSymbol_walks _ _).bind fun _ _ _ _ => .pure trivial
    dsimp only
    cases t.kind with
    | keyword w =>
      cases w with
      | print => exact skipped_walks hlt ((hexpr (by omega)).bind fun e a _ _ => hsemicolon)
      | «if» => exact skipped_walks hlt (ih.branch hfree)
      | «while» =>
        refine skipped_walks hlt ((expectSymbol_walks _ _).bind fun _ a _ ha => ?_)
        refine (hexpr (by omega)).bind fun cond b _ hb => ?_
        refine (expectSymbol_walks _ _).bind fun _ d _ hd => ?_
        exact (ih.statement (h.past (by omega))).bind fun _ _ _ _ => .pure trivial
      | «for» => exact skipped_walks hlt (ih.countedLoop hfree)
      | «return» =>
        refine skipped_walks hlt ((ahead_walks _).bind fun _ a ha _ => ?_)
        have hvalue := (hexpr (j := a) (by omega)).map (g := some) (Q := fun _ _ => True)
          fun _ _ _ _ => trivial
        exact .optional hvalue fun value b _ => hsemicolon
      | «break» | «continue» => exact skipped_walks hlt hsemicolon
      | _ => exact hexpression
    | symbol s =>
      cases s with
      | leftBrace =>
        exact skipped_walks hlt ((ih.block [] hfree).bind fun _ _ _ _ => .pure trivial)
      | _ => exact hexpression
    | _ => exact hexpression

theorem branch_succ (ih : StmtWalks T n) (h : Part.branch.Free S i) :
    Walks T S i (Read.branch (n + 1)) (Walk.branch (n + 1)) fun _ _ => True := by
  rw [Read.branch, Walk.branch]
  refine .enter h ((expectSymbol_walks _ _).bind fun _ a _ ha => ?_)
  refine ((exprWalks T n).expression (h.past ha)).bind fun cond b hb _ => ?_
  refine (expectSymbol_walks _ _).bind fun _ d hd _ => ?_
  refine (ih.statement (h.past (by omega))).bind fun yes e he _ => ?_
  refine (acceptKeyword_walks _).bind fun _ j hj _ => .ite (fun _ => ?_) fun _ => .pure trivial
  exact (ih.statement (h.past (by omega))).bind fun _ _ _ _ => .pure trivial

theorem countedLoop_succ (ih : StmtWalks T n) (h : Part.countedLoop.Free S i) :
    Walks T S i (Read.countedLoop (n + 1)) (Walk.countedLoop (n + 1)) fun _ _ => True := by
  have hexpr : ∀ {j : Nat}, i < j → Walks T ((.countedLoop, i) :: S) j (Read.expression n)
      (Walk.expression n) fun _ _ => True := fun hj =>
    ((exprWalks T n).expression (h.past hj)).imp fun _ _ _ _ => trivial
  have hrest : ∀ (first : List Stmt) (k : Nat), i < k →
      Walks T ((.countedLoop, i) :: S) k (Read.loopClauses n first) (Walk.loopClauses n first)
        fun _ _ => True := by
    intro first k hk
    refine (ahead_walks _).bind fun _ a _ _ => .optional (hexpr (by omega)) fun cond b _ => ?_
    refine (expectSymbol_walks _ _).bind fun _ d _ _ => (ahead_walks _).bind fun _ e _ _ => ?_
    have hstep := (hexpr (j := e) (by omega)).map (g := some) (Q := fun _ _ => True)
      fun _ _ _ _ => trivial
    refine .optional hstep fun step j _ => (expectSymbol_walks _ _).bind fun _ l _ _ => ?_
    exact (ih.statement (h.past (by omega))).bind fun _ _ _ _ => .pure trivial
  rw [Read.countedLoop_eq, Walk.countedLoop_eq]
  refine .enter h ((expectSymbol_walks _ _).bind fun _ a _ ha => ?_)
  refine (acceptKeyword_walks _).bind fun _ b _ _ => .ite (fun _ => ?_) fun _ => ?_
  · have hfirst := varDeclaration_walks (T := T) (n := n) (h.past (k := b) (by omega))
    exact (hfirst.map (Q := fun _ k => i < k) fun _ _ _ _ => by omega).bind
      fun first k _ hk => hrest first k hk
  · refine (acceptSymbol_walks _).bind fun _ d _ _ => .ite (fun _ => ?_) fun _ => ?_
    · exact hrest [] d (by omega)
    · have hfirst := expressionStatement_walks (T := T) (n := n) (h.past (k := d) (by omega))
      exact (hfirst.map (Q := fun _ k => i < k) fun _ _ _ _ => by omega).bind
        fun first k _ hk => hrest first k hk

end StmtWalks

theorem stmtWalks {T : List Token} (hT : T ≠ []) (n : Nat) : StmtWalks T n := by
  induction n with
  | zero =>
    refine ⟨?_, ?_, ?_, ?_, ?_, ?_, ?_, ?_⟩
    all_goals intros; exact .throw _
  | succ n ih =>
    exact ⟨ih.declaration_succ hT, ih.block_succ, ih.functionRest_succ, ih.classDeclaration_succ,
      ih.classMembers_succ, ih.statement_succ, ih.branch_succ, ih.countedLoop_succ⟩

/-! ### Programs -/

namespace Walk
variable {T : List Token} {S : List (Part × Nat)} {n i : Nat}

theorem declarations_walks (acc : List Stmt) (h : Part.declarations.Free S i) :
    Walks T S i (Read.declarations n acc) (declarations n acc) fun _ _ => True := by
  induction n generalizing acc i S with
  | zero => exact .throw _
  | succ n ih =>
    rw [Read.declarations, declarations]
    refine .enter h (atEnd_walks.bind fun ended k _ hopen => ?_)
    obtain ⟨rfl, hopen⟩ := hopen
    refine .ite (fun _ => .pure trivial) fun hb => ?_
    -- declarations are asked for only if there is a token, so recovery may look back
    have hlt := hopen (Bool.eq_false_iff.2 hb)
    have hT : T ≠ [] := List.ne_nil_of_length_pos (by omega)
    refine ((stmtWalks hT n).declaration (h.down (by decide))).bind fun x a _ ha => ?_
    have hfree : Part.declarations.Free ((.declarations, k) :: S) a := h.past (ha hlt)
    cases x with
    | none => exact ih acc hfree
    | some s => exact ih (s :: acc) hfree

end Walk

/-- Nothing is around the first part. -/
theorem Part.free_nil (part : Part) (i : Nat) : part.Free [] i :=
  fun _ hx => absurd hx List.not_mem_nil

/-- What is read at all is read by an index, up to the end. -/
theorem Walk.declarations_ok {tokens : List Token} {stop : Pos} {firstId n : Nat} {body : List Stmt}
    {r : Reader} (h : Read.declarations n [] ⟨tokens, stop, firstId, []⟩ = .ok body r) :
    ∃ c, declarations n [] (.start tokens stop firstId) = .ok body c ∧ c.reader = r ∧
      c.index = tokens.length ∧ ∀ m ∈ c.marks, m.Lawful tokens.length := by
  have hstart : (Cursor.start tokens stop firstId).At tokens [] 0 :=
    ⟨rfl, rfl, rfl, Nat.zero_le _, List.forall_mem_nil _⟩
  have hplain : Read.declarations n [] (Cursor.start tokens stop firstId).reader = .ok body r := h
  have hleft := declarations_walks (n := n) [] (Part.free_nil _ 0) _ hstart
  cases hq : declarations n [] (Cursor.start tokens stop firstId) with
  | error e c =>
    rw [hq] at hleft
    cases hplain.symm.trans hleft.1
  | ok body' c =>
    rw [hq] at hleft
    obtain ⟨hplain', k, -, -, hc⟩ := hleft
    cases hplain.symm.trans hplain'
    have hrest : c.tokens.drop c.index = [] := Read.declarations_rest h
    rw [hc.tokens, List.drop_eq_nil_iff] at hrest
    have hindex : c.index ≤ tokens.length := hc.index ▸ hc.inside
    exact ⟨c, rfl, rfl, Nat.le_antisymm hindex hrest, hc.lawful⟩

/-- Before the end, a declaration takes a token, also one with a fault. -/
theorem Read.declaration_takes {n : Nat} {r : Reader} (hr : r.rest ≠ [])
    (hn : 12 * r.rest.length + 13 ≤ n) :
    ∃ x r' k, Read.declaration n r = .ok x r' ∧
      0 < k ∧ k ≤ r.rest.length ∧ r'.rest = r.rest.drop k := by
  have hstart : Cursor.At r.rest [] 0 ⟨r.rest, r.stop, 0, r.nextId, r.faults, [], []⟩ :=
    ⟨rfl, rfl, rfl, Nat.zero_le _, List.forall_mem_nil _⟩
  have hleft := (stmtWalks hr n).declaration (Part.free_nil _ 0) _ hstart
  have hends := (stmtEnds n).declaration r.rest.length hn r rfl
  cases hq : Walk.declaration n ⟨r.rest, r.stop, 0, r.nextId, r.faults, [], []⟩ with
  | error e c =>
    rw [hq] at hleft
    have hplain : Read.declaration n r = .error e c.reader := hleft.1
    rw [hplain] at hends
    cases e with
    | faulty => exact absurd hplain Read.declaration_not_faulty
    | exhausted => exact hends.elim
  | ok x c =>
    rw [hq] at hleft
    obtain ⟨hplain, k, -, hk, hc⟩ := hleft
    refine ⟨x, c.reader, k, hplain, hk (List.length_pos_iff.2 hr), hc.inside, ?_⟩
    rw [Cursor.reader, hc.tokens, hc.index]

namespace Program

/-- From `12 * tokens.length + 14` steps on, reading comes to its end and takes no more of them. -/
theorem exists_declarations (tokens : List Token) (stop : Pos) (firstId : Nat) :
    ∃ body r, read tokens stop firstId = ⟨body, r.faults.reverse, r.nextId⟩ ∧
      ∀ n, 12 * tokens.length + 14 ≤ n →
        Read.declarations n [] ⟨tokens, stop, firstId, []⟩ = .ok body r := by
  have hends := Read.declarations_ends [] (Nat.le_refl (12 * tokens.length + 14))
    ⟨tokens, stop, firstId, []⟩ rfl
  cases h : Read.declarations (12 * tokens.length + 14) [] ⟨tokens, stop, firstId, []⟩ with
  | error e r =>
    rw [h] at hends
    cases e with
    | faulty => exact absurd h Read.declarations_not_faulty
    | exhausted => exact hends.elim
  | ok body r =>
    have hall : ∀ n, 12 * tokens.length + 14 ≤ n →
        Read.declarations n [] ⟨tokens, stop, firstId, []⟩ = .ok body r := fun n hn =>
      Read.declarations_after [] hn h
    have hsteps : 12 * tokens.length + 14 ≤ steps tokens.length := by
      rw [steps]
      omega
    refine ⟨body, r, ?_, hall⟩
    rw [read, hall _ hsteps]

/-- Whatever the tokens, reading comes to its end with a number of nested steps that is linear in
theirs, and does so by an index that stays inside of them: it never passes the end, the token before
is never asked for at the first one, and no part of the grammar is entered again, nor one that binds
less, before a token is passed. From any place before the end, a declaration takes a token, also one
with a fault. -/
theorem read_stays_inside (tokens : List Token) (stop : Pos) (firstId : Nat) :
    (∀ n, 12 * tokens.length + 14 ≤ n → ∃ body c,
      Read.declarations n [] ⟨tokens, stop, firstId, []⟩ = .ok body c.reader ∧
      Walk.declarations n [] (.start tokens stop firstId) = .ok body c ∧
      read tokens stop firstId = ⟨body, c.faults.reverse, c.nextId⟩ ∧
      c.index = tokens.length ∧ ∀ m ∈ c.marks, m.Lawful tokens.length) ∧
    ∀ n r, r.rest ≠ [] → 12 * r.rest.length + 13 ≤ n → ∃ x r' k,
      Read.declaration n r = .ok x r' ∧
      0 < k ∧ k ≤ r.rest.length ∧ r'.rest = r.rest.drop k := by
  obtain ⟨body, r, hread, hall⟩ := exists_declarations tokens stop firstId
  refine ⟨fun n hn => ?_, fun n r hr hn => Read.declaration_takes hr hn⟩
  obtain ⟨c, hwalk, rfl, hindex, hlawful⟩ := Walk.declarations_ok (hall n hn)
  exact ⟨body, c, hall n hn, hwalk, hread, hindex, hlawful⟩

end Program

/-- The end is reached inside of a `break` without its semicolon. -/
example :
    let found := scan none "break"
    (match Walk.declarations 26 [] (.start found.tokens found.stop 0) with
      | .ok _ c => c.marks.reverse
      | .error _ _ => []) =
    [.enter .declarations 0 [], .ahead 0,
      .enter .declaration 0 [(.declarations, 0)], .ahead 0,
      .enter .statement 0 [(.declaration, 0), (.declarations, 0)], .ahead 0, .ahead 0, .back 1,
      .ahead 1, .ahead 1, .ahead 1, .back 1,
      .enter .declarations 1 [(.declarations, 0)], .ahead 1] := by decide +kernel

end Treewalk
