import Treewalk.Proofs.SessionLoad

/-!
# Whole sessions keep what holds of them

The steps that a host can ask for, and whole sessions of them (`Setup.inv`).
-/

namespace Treewalk

section

variable {x y : Logged Event Session} {base : Nat} {own : Option Nat} {late : Option Path}
  {i i' : Interpreter}

/-- A file that can be read and is no module yet becomes one, or else something is reported. -/
theorem Keeps.runFile (n : Nat) (path : String) (hx : Inv none x) :
    Keeps x.scopes.next none none x (Trail.runFile n path) fun r y =>
      ∀ p text, x.state.disk.locate (Path.join x.state.root path) = .ok p →
        x.state.modules.get? p = none → x.state.disk.read p = .ok text →
        ∃ m, r = .ok m ∧ Processed x p m y := by
  unfold Trail.runFile
  refine .get ?_
  cases x.state.disk.locate (Path.join x.state.root path) with
  | error e => exact .pure hx fun _ _ he => nomatch he
  | ok path =>
    dsimp only
    cases hm : x.state.modules.get? path with
    | some m =>
      refine .pure hx fun p _ he hp => ?_
      cases he
      cases hm.symm.trans hp
    | none =>
      dsimp only
      cases hd : x.state.disk.read path with
      | error e =>
        refine .pure hx fun p _ he _ hp => ?_
        cases he
        cases hd.symm.trans hp
      | ok text =>
        have hentered := hx.event (.entered path) trivial trivial (by simp)
          fun g he => he.elim
        refine Keeps.bind (P := fun _ y => y = _)
          (.note (fun g => ⟨fun he => he.elim, fun he => he.elim⟩) hentered rfl)
          fun _ y _ hy he => ?_
        subst he
        have ha : Allowed (.entered path :: x.log) path := fun hf =>
          ⟨x.log, List.suffix_refl _, hf.of_cons (by simp)⟩
        refine ((loadKeeps n).process path text hy ha).bind fun r z _ hz h => .pure hz ?_
        intro p _ he _ _
        cases he
        refine ⟨r, rfl, ?_⟩
        cases r <;> exact h

/-- The second interpreter stands where the first does, with as many calls open. -/
structure SameStand (i i' : Interpreter) : Prop where
  globals : i'.globals = i.globals
  scope : i'.scope = i.scope
  depth : i'.depth = i.depth

/-- A text of no file is bound and run. -/
theorem Keeps.runRead (n : Nat) {before : Nat} {body : List Stmt} (hx : Inv none x)
    (hbase : base ≤ x.scopes.next ∨ ImportFree body) (hr : Ready x i)
    (ht : TableOk x.log i.globals i.bindings)
    (hread : .read none body (decide (before < x.state.diagnostics.size)) ∈ x.log)
    (hbefore : before ≤ x.state.diagnostics.size) :
    Keeps base (some i.globals) none x (Trail.runRead n before body i) fun i' y =>
      SameStand i i' ∧ TableOk y.log i'.globals i'.bindings := by
  unfold Trail.runRead
  refine .after hx (Plain.reports hx) fun size s _ _ h => ?_
  obtain ⟨rfl, rfl⟩ := h
  split
  · exact .pure hx ⟨⟨rfl, rfl, rfl⟩, ht⟩
  next hclean =>
  rw [decide_eq_false hclean] at hread
  refine .get (((loadKeeps n).bindNames _ body i hx hbase (.inr rfl) hr ⟨none, false, hread⟩
    ht).bind fun r z hw hz h => ?_)
  obtain ⟨exports, i'⟩ := r
  obtain ⟨hg, hr', ht', hk, hok, -, -⟩ := h
  refine .after hz (Plain.reports hz) fun size s _ _ h => ?_
  obtain ⟨rfl, rfl⟩ := h
  have hsame : SameStand i i' :=
    ⟨hg, hr'.scope.trans (hg.trans hr.scope.symm), hr'.depth.trans hr.depth.symm⟩
  dsimp only
  split
  · exact .pure hz ⟨hsame, hg ▸ ht'⟩
  next hno =>
  have hread := hw.later.event hread
  have hstart : Start z.log none i'.globals body :=
    ⟨hg ▸ hk, hok.resolve_right (by omega), ⟨false, hread⟩, fun _ => hread, by simp,
      fun path' body' hb => Option.eq_none_iff_forall_ne_some.2 fun p hp =>
        hr'.sole p body' (hp ▸ hb)⟩
  refine .start n hz hr' (hg ▸ ht') hstart (by simp) (fun _ => congrArg some hg.symm)
    fun r v _ hv h => ?_
  obtain ⟨result, i''⟩ := r
  have hsame' : SameStand i i'' :=
    ⟨h.globals.trans hg, h.scope.trans hsame.scope, h.depth.trans hsame.depth⟩
  cases result with
  | error f =>
    exact .abort hv (h.failed f rfl) fun _ _ hi => .pure hi ⟨hsame', h.table.cons fun h => h⟩
  | ok a => exact .pure hv ⟨hsame', h.table⟩

theorem Keeps.runSource (n : Nat) (name : Option String) (text : String) (hx : Inv none x)
    (hr : Ready x i) (ht : TableOk x.log i.globals i.bindings) :
    Keeps x.scopes.next (some i.globals) none x (Trail.runSource n name text i) fun i' y =>
      SameStand i i' ∧ TableOk y.log i'.globals i'.bindings := by
  unfold Trail.runSource
  refine .after hx (Plain.setFile hx name) fun file s₁ hs₁ hi₁ _ => ?_
  refine .after hi₁ (Plain.reports hi₁) fun before s _ _ h => ?_
  obtain ⟨rfl, rfl⟩ := h
  refine ((Keeps.readText hi₁ name text).grew.weaken hs₁.later.next).bind
    fun body y _ hy h => ?_
  obtain ⟨hread, hw⟩ := h
  have hr := hr.frame hs₁
  refine (Keeps.runRead n hy (.inl (Nat.le_trans hs₁.later.next hw.later.next)) (hr.grew hw)
    (hw.holds hr.lt (by simp) ht) hread hw.reports).bind fun i' z _ hz h => ?_
  exact .after hz (Plain.setFile hz file) fun _ _ _ hi _ => .pure hi h

/-- The interpreters of a host are ready, know what their tables say, and are different. -/
structure Host (x : Logged Event Session) (is : Array Interpreter) : Prop where
  ready : ∀ (k : Nat) i, is[k]? = some i → Ready x i
  table : ∀ (k : Nat) i, is[k]? = some i → TableOk x.log i.globals i.bindings
  apart : ∀ (j k : Nat) i i', is[j]? = some i → is[k]? = some i' → i.globals = i'.globals → j = k

namespace Host

variable {is : Array Interpreter}

theorem empty (x : Logged Event Session) : Host x #[] := by constructor <;> simp

theorem grew (h : Host x is) (hw : SessionGrew x.scopes.next none x y) : Host y is :=
  ⟨fun k i hi => (h.ready k i hi).grew hw,
    fun k i hi => hw.holds (h.ready k i hi).lt (by simp) (h.table k i hi), h.apart⟩

theorem getElem?_setIfInBounds {who k : Nat} {j : Interpreter}
    (hj : (is.setIfInBounds who i')[k]? = some j) :
    (who = k ∧ j = i') ∨ (who ≠ k ∧ is[k]? = some j) := by
  rw [Array.getElem?_setIfInBounds] at hj
  split at hj
  · next he =>
    split at hj
    · exact .inl ⟨he, (Option.some.inj hj).symm⟩
    · cases hj
  · next hne => exact .inr ⟨hne, hj⟩

/-- A place keeps its globals if the interpreter that has run does. -/
theorem globals_setIfInBounds {who : Nat} (hi : is[who]? = some i) (hg : i'.globals = i.globals)
    {k : Nat} {j : Interpreter} (hj : (is.setIfInBounds who i')[k]? = some j) :
    ∃ j', is[k]? = some j' ∧ j.globals = j'.globals := by
  rcases getElem?_setIfInBounds hj with ⟨rfl, rfl⟩ | ⟨-, hj⟩
  · exact ⟨i, hi, hg⟩
  · exact ⟨j, hj, rfl⟩

theorem update (h : Host x is) {who : Nat} (hi : is[who]? = some i)
    (hw : SessionGrew x.scopes.next (some i.globals) x y) (hs : SameStand i i')
    (ht : TableOk y.log i'.globals i'.bindings) :
    Host y (is.setIfInBounds who i') := by
  refine ⟨fun k j hj => ?_, fun k j hj => ?_, fun j k a b ha hb he => ?_⟩
  · rcases getElem?_setIfInBounds hj with ⟨rfl, rfl⟩ | ⟨-, hj⟩
    · exact ((h.ready _ i hi).grew hw).congr hs.globals hs.scope hs.depth
    · exact (h.ready k j hj).grew hw
  · rcases getElem?_setIfInBounds hj with ⟨rfl, rfl⟩ | ⟨hne, hj⟩
    · exact ht
    · refine hw.holds (h.ready k j hj).lt (fun he => hne ?_) (h.table k j hj)
      exact h.apart who k i j hi hj (Option.some.inj he)
  · obtain ⟨a', ha', hga⟩ := globals_setIfInBounds hi hs.globals ha
    obtain ⟨b', hb', hgb⟩ := globals_setIfInBounds hi hs.globals hb
    exact h.apart j k a' b' ha' hb' (by rw [← hga, ← hgb, he])

theorem push (h : Host x is) (hw : SessionGrew x.scopes.next none x y) (hr : Ready y i)
    (hg : x.scopes.next ≤ i.globals) (ht : TableOk y.log i.globals i.bindings) :
    Host y (is.push i) := by
  have hcases : ∀ {k : Nat} {j}, (is.push i)[k]? = some j →
      (k = is.size ∧ j = i) ∨ is[k]? = some j := fun {k j} hj => by
    rw [Array.getElem?_push] at hj
    split at hj
    · next he => exact .inl ⟨he, (Option.some.inj hj).symm⟩
    · exact .inr hj
  have hy := h.grew hw
  refine ⟨fun k j hj => ?_, fun k j hj => ?_, fun j k a b ha hb he => ?_⟩
  · rcases hcases hj with ⟨-, rfl⟩ | hj
    · exact hr
    · exact hy.ready k j hj
  · rcases hcases hj with ⟨-, rfl⟩ | hj
    · exact ht
    · exact hy.table k j hj
  · rcases hcases ha with ⟨rfl, rfl⟩ | ha' <;> rcases hcases hb with ⟨rfl, rfl⟩ | hb'
    · rfl
    · have := (h.ready k b hb').lt
      omega
    · have := (h.ready j a ha').lt
      omega
    · exact h.apart j k a b ha' hb' he

end Host

theorem Given.value_aligned (hx : Inv late x) (i : Interpreter) (v : Given) :
    (v.value x.state i).Aligned x.scopes x.log := by
  cases v with
  | literal l => exact Value.ofLiteral_aligned ..
  | global name =>
    rw [Given.value]
    cases hv : x.state.getGlobal i name with
    | some v => exact hx.aligned.vars i.globals name v hv
    | none => trivial

theorem Plain.keep (hx : Inv late x) (hroot : x.scopes.parent? i.globals = none)
    (hown : base ≤ i.globals ∨ own = some i.globals) (store : Option String)
    {result : Except Fault Value} (h : ∀ v, result = .ok v → v.Aligned x.scopes x.log) :
    Plain base own x (Load.keep i store result) fun _ _ => True := by
  match store, result with
  | some name, .ok v => exact .change (hx.defined hroot hown (h v rfl) rfl rfl rfl) trivial
  | some name, .error f => exact .pure hx trivial
  | none, result => exact .pure hx trivial

/-- Whether the step ends or not, it leaves a session with `Inv`, and `R` holds of the states before
and after it; and if it ends, the interpreters that it answers can each start a program (`Host`). -/
def Goes (R : Logged Event Session → Logged Event Session → Prop) (x : Logged Event Session)
    (p : Trail (Array Interpreter)) : Prop :=
  match p x with
  | .ok is y => R x y ∧ Inv none y ∧ Host y is
  | .error _ y => R x y ∧ Inv none y

theorem Keeps.goes {p : Trail (Array Interpreter)}
    (h : Keeps base own none x p fun is y => SessionGrew base own x y → Host y is) :
    Goes (Acted base own) x p := by
  unfold Keeps at h
  unfold Goes
  split at h
  · next hp =>
    rw [hp]
    exact ⟨h.1.toActed, h.2.1, h.2.2 h.1⟩
  · next hp =>
    rw [hp]
    exact h

/-- The globals of the interpreter that the host asks to do something. -/
def Step.own? (is : Array Interpreter) : Step → Option Nat
  | .runSource who _ _ | .call who _ _ _ _ | .defineGlobal who _ _ | .defineNative who _ =>
    is[who]?.map (·.globals)
  | .newInterpreter | .runFile _ | .resetErrors | .changeDisk _ => none

namespace Trail

variable {is : Array Interpreter}

theorem goes_plain {q : Load (Array Interpreter)} (hx : Inv none x) (hh : Host x is)
    (h : Plain base own x q fun is' _ => is' = is) : Goes (Acted base own) x (Traced.lift q) := by
  have hkeeps : Keeps base own none x (Traced.lift q) _ := .plain hx h
  refine (hkeeps.imp fun is' y _ _ h _ => ?_).goes
  obtain ⟨s, rfl, hs, rfl⟩ := h
  exact ⟨fun k i hi => (hh.ready k i hi).frame hs, hh.table, hh.apart⟩

theorem keeps_call (n : Nat) {who : Nat} (callee : String) (args : List Given) (paren : Token)
    (store : Option String) (hx : Inv none x) (hh : Host x is) (hi : is[who]? = some i) :
    Keeps base (some i.globals) none x (step n is (.call who callee args paren store)) fun is' y =>
      (SessionGrew x.scopes.next (some i.globals) x y → Host y is') ∧
        ∀ (k : Nat) j, is'[k]? = some j → ∃ j', is[k]? = some j' ∧ j.globals = j'.globals := by
  rw [step, hi]
  refine .get ?_
  dsimp only
  split
  · next c hc =>
    have hargs : ∀ v ∈ args.map (·.value x.state i), v.Aligned x.scopes x.log := fun v hv => by
      obtain ⟨a, -, rfl⟩ := List.mem_map.1 hv
      exact a.value_aligned hx i
    have hsound : Sound ⟨Machine.ofParts x.state.world i x.state.config.maxDepth, x.log⟩ :=
      hx.aligned
    have hcallee := hx.aligned.vars i.globals callee _ hc
    have hcall := (Trace.runSafe n).call (W := fun _ _ => False) c _ paren hsound hcallee hargs
    refine (Keeps.perform (R := fun v ss L => v.Aligned ss L) hx (hh.table who i hi) (.inr rfl)
      (.inl rfl) (Trace.call_lawful n c _ paren) hcall).bind fun r y hw hy h => ?_
    obtain ⟨result, i'⟩ := r
    obtain ⟨hp, hv⟩ := h
    have hg : i'.globals = i.globals := hp.globals
    have hroot : y.scopes.parent? i'.globals = none := by
      have hr := hh.ready who i hi
      rw [hg, hw.later.parent _ hr.lt, hr.root]
    refine .after hy (Plain.keep hy hroot (.inr (congrArg some hg.symm)) store hv) ?_
    refine fun _ s _ hi' _ => .pure hi' ⟨fun hw => ?_, ?_⟩
    · refine hh.update hi hw ⟨hg, hp.scope, hp.depth⟩ ?_
      rw [hg, hp.bindings]
      exact hp.table
    · exact fun k j hj => Host.globals_setIfInBounds hi hg hj
  · refine .pure hx ⟨fun hw => ?_, fun k j hj => ⟨j, hj, rfl⟩⟩
    exact hh

theorem step_goes (n : Nat) (is : Array Interpreter) (t : Step) (hx : Inv none x)
    (hh : Host x is) : Goes (Acted x.scopes.next (t.own? is)) x (step n is t) := by
  have hstay : Goes (Acted x.scopes.next none) x (pure is) := ⟨.refl .., hx, hh⟩
  cases t with
  | newInterpreter =>
    have hkeeps : Keeps x.scopes.next none none x (Traced.lift Load.newInterpreter) _ :=
      .plain hx (Plain.newInterpreter hx)
    refine (Keeps.map (hkeeps.imp fun i y _ _ h hw => ?_)).goes
    obtain ⟨s, rfl, -, hr, hg, ht, -⟩ := h
    exact hh.push hw hr (Nat.le_of_eq hg.symm) ht
  | runFile path =>
    exact ((Keeps.runFile n path hx).bind fun _ y hw hy _ =>
      .pure hy fun hw' => hh.grew hw').goes
  | runSource who name text =>
    rw [step, Step.own?]
    cases hi : is[who]? with
    | none => exact hstay
    | some i =>
      refine (Keeps.map ((Keeps.runSource n name text hx (hh.ready who i hi)
        (hh.table who i hi)).imp fun i' y _ _ h hw => ?_)).goes
      exact hh.update hi hw h.1 h.2
  | call who callee args paren store =>
    rw [Step.own?]
    cases hi : is[who]? with
    | none =>
      rw [step, hi]
      exact hstay
    | some i =>
      exact ((keeps_call n callee args paren store hx hh hi).imp fun _ _ _ _ h => h.1).goes
  | defineGlobal who name value =>
    refine goes_plain hx hh ?_
    rw [Load.step, Step.own?]
    cases hi : is[who]? with
    | none => exact .pure hx rfl
    | some i =>
      refine .bind hx (P := fun _ _ => True) (.change ?_ trivial) fun _ s _ hs _ => .pure hs rfl
      exact hx.defined (hh.ready who i hi).root (.inr rfl) (value.value_aligned hx i) rfl rfl rfl
  | defineNative who f =>
    refine goes_plain hx hh ?_
    rw [Load.step, Step.own?]
    cases hi : is[who]? with
    | none => exact .pure hx rfl
    | some i =>
      refine .bind hx (P := fun _ _ => True) (.change ?_ trivial) fun _ s _ hs _ => .pure hs rfl
      exact hx.defined (v := .callable (.native _)) (hh.ready who i hi).root (.inr rfl) trivial
        rfl rfl rfl
  | resetErrors =>
    have ha : x.state.diagnostics.clear.Accounted (.moment (.cleared
        { x.state with diagnostics := x.state.diagnostics.clear }) :: x.log) := rfl
    refine ⟨.note (fun _ => ⟨False.elim, False.elim⟩) rfl (by simp) rfl,
      hx.reporting _ ha trivial ⟨hx.exposes, trivial⟩ (by simp) fun _ h => h.elim,
      fun k i hi => ?_, fun k i hi => (hh.table k i hi).cons id, hh.apart⟩
    have hr := hh.ready k i hi
    exact ⟨hr.root, hr.lt, hr.scope, hr.depth, hr.apart, fun p body hb =>
      hr.sole p body ((List.mem_cons.1 hb).resolve_left (by simp))⟩
  | changeDisk disk =>
    refine goes_plain (q := Load.step n is (.changeDisk disk)) hx hh ?_
    rw [Load.step]
    refine .bind hx (P := fun _ _ => True) (.change ?_ trivial) fun _ s _ hs _ => .pure hs rfl
    exact hx.aside rfl rfl rfl rfl rfl (Nat.le_refl _) id

/-- What holds in the course of a session does so to its end. -/
theorem steps_goes (n : Nat) (ts : List Step) (is : Array Interpreter) (hx : Inv none x)
    (hh : Host x is) : Goes (fun x y => x.log <:+ y.log) x (steps n ts is) := by
  induction ts generalizing is x with
  | nil => exact ⟨List.suffix_refl _, hx, hh⟩
  | cons t ts ih =>
    have h := step_goes n is t hx hh
    unfold Goes at h ⊢
    show match EStateM.bind (step n is t) (steps n ts) x with
      | .ok is y => x.log <:+ y.log ∧ Inv none y ∧ Host y is
      | .error _ y => x.log <:+ y.log ∧ Inv none y
    rw [EStateM.bind]
    split at h
    · next is' y hp =>
      rw [hp]
      have hrest := ih is' h.2.1 h.2.2
      unfold Goes at hrest
      dsimp only
      split at hrest
      · exact ⟨h.1.ran.suffix.trans hrest.1, hrest.2⟩
      · exact ⟨h.1.ran.suffix.trans hrest.1, hrest.2⟩
    · next e y hp =>
      rw [hp]
      exact ⟨h.1.ran.suffix, h.2⟩

end Trail

/-- Nothing has happened in a session before its first step. -/
theorem Inv.start (s : Setup) : Inv none ⟨s.session, []⟩ := by
  have hvars : ∀ s x, Scopes.empty.here? s x = none := by simp [Scopes.here?, Scopes.empty]
  have hclasses : ∀ c : Nat, Classes.empty.cells[c]? = none := by simp [Classes.empty]
  have hno : ∀ {body}, ¬ HasRead [] body := by simp [HasRead]
  refine ⟨⟨⟨fun s x v hv => ?_, by simp [Setup.session], fun c k hk => ?_, fun s x v _ hv => ?_,
    by simp, by simp, by simp, fun c k hk => ?_⟩, by simp [Began], by simp, by simp⟩, trivial,
    ⟨fun _ h => absurd h hno, fun _ h => absurd h hno, fun _ h => absurd h hno,
      fun _ _ h => absurd h hno, List.nodup_nil⟩, by simp, by simp, fun p body => ?_,
    by simp [Faulty], fun p m hm => ?_, rfl⟩
  · cases (hvars s x).symm.trans hv
  · cases (hclasses c).symm.trans hk
  · cases (hvars s x).symm.trans hv
  · cases (hclasses c).symm.trans hk
  · constructor
    · intro h
      cases h
    · simp
  · cases hm

/-- What holds in the course of a session holds of what it leaves. -/
theorem Setup.inv (s : Setup) (n : Nat) (ts : List Step) : Inv none (s.final n ts) := by
  have h := Trail.steps_goes n ts #[] (.start s) (.empty _)
  unfold Goes at h
  unfold final logged
  split at h
  · next is y hp =>
    rw [hp]
    exact h.2.1
  · next e y hp =>
    rw [hp]
    exact h.2

end

end Treewalk
