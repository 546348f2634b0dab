import Treewalk.Proofs.Loading

/-!
# Calls of a session

What follows for a whole call of a session that runs a file or a text. `processed_once`: no file is
processed twice in a call, however the files import each other, and an import of a file whose names
are being bound is turned down. `failure_reported`: nothing fails without a report and nothing else
is reported, and with a file fail all files that are under way.
-/

namespace Treewalk

section

variable {s : Session} {x : Logged Event Session} {p : Path}

/-! ### Calls are in order -/

theorem Amid.start (s : Session) : Amid s [] [] ⟨s, []⟩ where
  disk := rfl
  once := List.nodup_nil
  files _ hp := absurd hp List.not_mem_nil
  closed _ _ _ hc := absurd hc List.not_mem_nil
  moments _ _ hB := absurd hB.length_le (by simp)
  reports _ hk := absurd hk List.not_mem_nil
  pending _ hp := absurd hp List.not_mem_nil
  under := rfl
  loading := (List.append_nil _).symm

namespace Orders

theorem runFile (s : Session) (n : Nat) (path : String) :
    Orders s ⟨s, []⟩ (Trail.runFile n path) fun _ y => Amid s [] [] y := by
  have hx := Amid.start s
  refine .get ?_
  cases s.disk.locate (Path.join s.root path) with
  | error e => exact .pure hx
  | ok path =>
    dsimp only
    cases hm : s.modules.get? path with
    | some m => exact .pure hx
    | none =>
      dsimp only
      cases hread : s.disk.read path with
      | error e => exact .pure hx
      | ok text =>
        have hprocess := (loadOrders s n).process path text (hx.note (e := .entered path))
          (by simp [Event.opened?]) hm (Disk.mem_files_of_read hread)
        exact .noted (hprocess.bind fun _ _ _ hy => .pure hy)

theorem runRead (n before : Nat) (body : List Stmt) (i : Interpreter) (hx : Amid s [] [] x) :
    Orders s x (Trail.runRead n before body i) fun _ y => Amid s [] [] y := by
  refine .reports ?_
  split
  · exact .pure hx
  refine .get (((loadOrders s n).bindNames _ body i hx).bind fun r y _ hy => .reports ?_)
  obtain ⟨exports, i⟩ := r
  dsimp only
  split
  · exact .pure hy
  refine .noted (.idly (Trail.perform_erases i (Trace.run_erases n body) fun _ => Event.OfRun.plain)
    (.perform i _) hy.note fun r z hz => ?_)
  obtain ⟨result, i⟩ := r
  cases result with
  | error f =>
    exact .idly (.watch _ _ (by simp [Event.Plain])) (Load.Calms.change fun s => .push s _) hz
      fun _ _ hv => .pure hv
  | ok a => exact .pure hz

theorem runSource (s : Session) (n : Nat) (name : Option String) (text : String)
    (i : Interpreter) :
    Orders s ⟨s, []⟩ (Trail.runSource n name text i) fun _ y => Amid s [] [] y :=
  .after (.setFile name) (.start s) fun file _ hx => .reports (.idly
    (Trail.readText_erases none name text (by simp [Event.Plain]) (by simp [Event.Plain]))
    (.readText name text) hx fun body _ hy => (runRead n _ body i hy).bind fun _ _ _ hz =>
      .after (.setFile file) hz fun _ _ hv => .pure hv)

theorem halted {α : Type} {p : Trail α} (h : Orders s ⟨s, []⟩ p fun _ y => Amid s [] [] y) :
    Halted s (Traced.last (p ⟨s, []⟩)) := (h.imp fun _ _ _ hy => hy.toHalted).last

/-- A call that returns leaves no file under way. -/
theorem returned {α : Type} {p : Trail α} {q : Load α} {a : α} {t : Session}
    (h : Orders s ⟨s, []⟩ p fun _ y => Amid s [] [] y) (he : Trail.Erases p q)
    (hq : q s = .ok a t) : t.loading = s.loading ∧ underWay (Traced.last (p ⟨s, []⟩)).log = [] := by
  have hs := he.state ⟨s, []⟩
  unfold Orders at h
  revert h hs
  cases p ⟨s, []⟩ with
  | error e y =>
    intro _ hs
    cases hs.trans hq
  | ok b y =>
    intro h hs
    cases hs.trans hq
    exact ⟨by simpa using h.2.loading, h.2.under⟩

end Orders

/-! ### No file is processed twice -/

/-- In the call that has logged `L` on the disk `d`, files are loaded one inside the other and each
once. -/
structure LoadsOnce (d : Disk) (L : List Event) : Prop where
  /-- No file is ever in the stack of those that are being bound twice. -/
  stack : ∀ k, .moment k ∈ L → k.state.loading.Nodup
  /-- A file that starts to be processed is not in the stack, which is made of the files that are
  under way. -/
  entry : ∀ p t B, (.moment (.opened p t) :: B) <:+ L →
    t.loading = (underWay B).reverse ∧ p ∉ t.loading
  once : (processed L).Nodup
  nesting : ∀ B, B <:+ L → (underWay B).length ≤ d.files.card

namespace Orderly

theorem suffix_nodup (h : Orderly s x) {B : List Event} (hB : B <:+ x.log) : (processed B).Nodup :=
  h.once.sublist (processed_suffix hB).sublist

theorem loadsOnce (h : Orderly s x) (hs : s.loading = []) : LoadsOnce s.disk x.log where
  stack k hk := by
    obtain ⟨new, B, hB⟩ := List.append_of_mem hk
    have hB : (.moment k :: B) <:+ x.log := ⟨new, hB.symm⟩
    have hloading := (h.moments k B hB).loading
    rw [hs, List.nil_append] at hloading
    have hnodup := (h.suffix_nodup ((List.suffix_cons ..).trans hB)).sublist (underWay_sublist B)
    exact (List.nodup_reverse.2 hnodup).sublist hloading.sublist
  entry p t B hB := by
    have hloading : t.loading = s.loading ++ (underWay B).reverse := (h.moments _ B hB).comes
    rw [hs, List.nil_append] at hloading
    refine ⟨hloading, fun hp => ?_⟩
    rw [hloading, List.mem_reverse] at hp
    exact (List.nodup_cons.1 (h.suffix_nodup hB)).1 ((underWay_sublist B).subset hp)
  once := h.once
  nesting B hB := by
    have hnodup := (h.suffix_nodup hB).sublist (underWay_sublist B)
    rw [← List.toFinset_card_of_nodup hnodup]
    refine Finset.card_le_card fun p hp => h.files p ?_
    exact (processed_suffix hB).subset ((underWay_sublist B).subset (List.mem_toFinset.1 hp))

end Orderly

theorem Orders.loadsOnce {α : Type} {p : Trail α} {q : Load α}
    (h : Orders s ⟨s, []⟩ p fun _ y => Amid s [] [] y) (he : Trail.Erases p q)
    (hs : s.loading = []) :
    Traced.erase (p ⟨s, []⟩) = q s ∧ LoadsOnce s.disk (Traced.last (p ⟨s, []⟩)).log ∧
      ∀ a t, q s = .ok a t → t.loading = [] :=
  ⟨he.state _, h.halted.toOrderly.loadsOnce hs, fun _ _ hq => (h.returned he hq).1.trans hs⟩

/-- What comes from the first `a` on. -/
theorem dropWhile_ne_of_not_mem {α : Type} [BEq α] [LawfulBEq α] {a : α} {before after : List α}
    (h : a ∉ before) : (before ++ a :: after).dropWhile (· != a) = a :: after := by
  have hne : ∀ b ∈ before, (b != a) = true := fun b hb => by simpa using ne_of_mem_of_not_mem hb h
  rw [List.dropWhile_append_of_pos hne, List.dropWhile_cons_of_neg (by simp)]

/-- An import of a file that is being bound is turned down. The report names the files from that one
on, and that one again. -/
theorem Load.fetch_cycle (n : Nat) {dir : String} {decl : ImportDecl} {t : Session}
    (hp : t.disk.locate (Path.join dir (fileName t.config decl.module)) = .ok p)
    (hloading : p ∈ t.loading) : ∃ before after, t.loading = before ++ p :: after ∧ p ∉ before ∧
      Load.fetch (n + 1) dir decl t = .ok none { t with
        diagnostics := t.diagnostics.push
          { stage := .binding, file := t.diagnostics.file, pos := decl.path.pos
            location := .lexeme decl.path.lexeme
            message := "Import cycle detected: " ++
              " -> ".intercalate ((p :: after ++ [p]).map t.displayName) ++ "." } } := by
  obtain ⟨before, after, heq, hbefore⟩ := List.eq_append_cons_of_mem hloading
  refine ⟨before, after, heq, hbefore, ?_⟩
  have hrun : Load.fetch (n + 1) dir decl t = (do
      Load.report decl.path (.cycle ((t.loading.dropWhile (· != p) ++ [p]).map t.displayName))
      return none : Load (Option Module)) t := by
    have hget (f : Session → Load (Option Module)) : (get >>= f) t = f t t := rfl
    rw [Load.fetch, hget, hp]
    dsimp only
    rw [if_pos (List.contains_iff_mem.2 hloading)]
  have haround : t.loading.dropWhile (· != p) = p :: after :=
    heq ▸ dropWhile_ne_of_not_mem hbefore
  rw [hrun, haround]
  rfl

/-- No file is processed twice. Whatever files import each other, and whatever the session has
loaded before: in a call that runs a file or a text, files are loaded as `LoadsOnce` says, and no
file is being bound when the call returns. An import of a file that is being bound is turned down
with a report of the cycle, which lists the stack from that file on and the file again. -/
theorem processed_once (s : Session) (hs : s.loading = []) (n : Nat) :
    (∀ path, Traced.erase (Trail.runFile n path ⟨s, []⟩) = Load.runFile n path s ∧
      LoadsOnce s.disk (Traced.last (Trail.runFile n path ⟨s, []⟩)).log ∧
      ∀ r t, Load.runFile n path s = .ok r t → t.loading = []) ∧
    (∀ name text i, Traced.erase (Trail.runSource n name text i ⟨s, []⟩) =
        Load.runSource n name text i s ∧
      LoadsOnce s.disk (Traced.last (Trail.runSource n name text i ⟨s, []⟩)).log ∧
      ∀ i' t, Load.runSource n name text i s = .ok i' t → t.loading = []) ∧
    ∀ (t : Session) dir decl p,
      t.disk.locate (Path.join dir (Load.fileName t.config decl.module)) = .ok p →
      p ∈ t.loading → ∃ before after, t.loading = before ++ p :: after ∧ p ∉ before ∧
        Load.fetch (n + 1) dir decl t = .ok none { t with
          diagnostics := t.diagnostics.push
            { stage := .binding, file := t.diagnostics.file, pos := decl.path.pos
              location := .lexeme decl.path.lexeme
              message := "Import cycle detected: " ++
                " -> ".intercalate ((p :: after ++ [p]).map t.displayName) ++ "." } } := by
  refine ⟨fun path => ?_, fun name text i => ?_, fun t dir decl p => Load.fetch_cycle n⟩
  · exact (Orders.runFile s n path).loadsOnce (Trail.runFile_erases n path) hs
  · exact (Orders.runSource s n name text i).loadsOnce (Trail.runSource_erases n name text i) hs

/-- Two files that import each other, and a third that imports both. -/
def cyclicSession : Session where
  root := "/"
  disk := Disk.addFile {} "/a.vuel" "import \x7b x \x7d from \"b\"; var y = 1; expose y;".toUTF8
    |>.addFile "/b.vuel" "import \x7b y \x7d from \"a\"; var x = 2; expose x;".toUTF8
    |>.addFile "/c.vuel" "import \x7b x \x7d from \"b\"; import \x7b y \x7d from \"a\";".toUTF8

/-- All three are processed when the third is run, each once. -/
theorem processed_once_cyclicSession :
    cyclicSession.loading = [] ∧
      processed (Traced.last (Trail.runFile 40 "c.vuel" ⟨cyclicSession, []⟩)).log =
        [["a.vuel"], ["b.vuel"], ["c.vuel"]] ∧
      LoadsOnce cyclicSession.disk
        (Traced.last (Trail.runFile 40 "c.vuel" ⟨cyclicSession, []⟩)).log :=
  ⟨rfl, by decide +kernel, ((processed_once cyclicSession rfl 40).1 "c.vuel").2.1⟩

/-! ### Failures -/

namespace Diagnostics

variable {ds : Diagnostics}

theorem exitCode_eq_zero : ds.exitCode = 0 ↔ ds.size = 0 := by
  have hfree : ds.exitCode = 0 ↔ ds.hadError = false ∧ ds.hadFault = false := by
    unfold exitCode
    split <;> simp_all
  rw [hfree, hadError, hadFault, Array.any_eq_false', Array.any_eq_false', size,
    Array.size_eq_zero_iff]
  constructor
  · rintro ⟨herror, hfault⟩
    refine Array.eq_empty_iff_forall_not_mem.2 fun d hd => hfault d hd ?_
    simpa using herror d hd
  · rintro h
    simp [h]

end Diagnostics

theorem opened_unique {L : List Event} {t t' : Session} (hn : (processed L).Nodup)
    (h : .moment (.opened p t) ∈ L) (h' : .moment (.opened p t') ∈ L) : t = t' := by
  induction L with
  | nil => cases h
  | cons e L ih =>
    have mem_processed {t : Session} (h : .moment (.opened p t) ∈ L) : p ∈ processed L :=
      List.mem_filterMap.2 ⟨_, h, rfl⟩
    rcases List.mem_cons.1 h with rfl | hL
    · rcases List.mem_cons.1 h' with heq | hL'
      · injection heq with heq
        injection heq with _ heq
        exact heq.symm
      · exact absurd (mem_processed hL') (List.nodup_cons.1 hn).1
    · rcases List.mem_cons.1 h' with rfl | hL'
      · exact absurd (mem_processed hL) (List.nodup_cons.1 hn).1
      · exact ih (hn.sublist (processed_suffix (List.suffix_cons ..)).sublist) hL hL'

/-- The file has failed, or will: it is closed with nothing or not at all, and it is no module. -/
structure Fails (x : Logged Event Session) (p : Path) : Prop where
  closed : ∀ r t, .moment (.closed p r t) ∈ x.log → r = none
  module : x.state.modules.get? p = none
  failed : p ∈ underWay x.log ∨ p ∈ x.state.failed

/-- A failure takes all files down that are under way. -/
structure FailuresSpread (x : Logged Event Session) : Prop where
  /-- An import was answered with nothing. -/
  imported : ∀ decl t₀ t B, (.moment (.answered decl none t₀ t) :: B) <:+ x.log →
    ∀ p ∈ underWay B, Fails x p
  /-- A file was closed with nothing. -/
  processed : ∀ q t B, (.moment (.closed q none t) :: B) <:+ x.log → ∀ p ∈ underWay B, Fails x p

namespace Halted

variable {k k' : Moment} {B₀ B : List Event}

/-- A file during which something is reported is closed with nothing. -/
theorem closed_none (h : Halted s x) (h₀ : (.moment k :: B₀) <:+ B)
    (hB : (.moment k' :: B) <:+ x.log)
    (hgrew : k.state.diagnostics.size < k'.state.diagnostics.size)
    (hp₀ : p ∈ Treewalk.processed (.moment k :: B₀)) (hp : p ∈ underWay B) {r : Option Module}
    {t : Session} (hc : .moment (.closed p r t) ∈ x.log) : r = none := by
  obtain ⟨new, C, hC⟩ := List.append_of_mem hc
  have hC : (.moment (.closed p r t) :: C) <:+ x.log := ⟨new, hC.symm⟩
  have hcloses := h.moments _ C hC
  obtain ⟨t₀, C₀, hopened, -, hr⟩ := hcloses.comes
  -- the file was opened no later than the reports were counted first
  have hsince : t₀.diagnostics.size ≤ k.state.diagnostics.size := by
    obtain ⟨e, he, hep⟩ := List.mem_filterMap.1 hp₀
    obtain ⟨t₁, rfl⟩ := Event.opened?_eq_some hep
    have hk : (.moment k :: B₀) <:+ x.log := h₀.trans ((List.suffix_cons ..).trans hB)
    cases opened_unique h.once ((hopened.trans ((List.suffix_cons ..).trans hC)).subset
      (List.mem_cons_self ..)) (hk.subset he)
    rcases List.mem_cons.1 he with heq | he
    · injection heq with heq
      subst heq
      exact Nat.le_refl _
    · exact ((h.moments _ _ hk).reports _ he).size_le
  -- and is closed no earlier than they were counted again
  have huntil : k'.state.diagnostics.size ≤ t.diagnostics.size := by
    have heq (heq : (.moment k' :: B) = .moment (.closed p r t) :: C) :
        k'.state.diagnostics.size ≤ t.diagnostics.size := by
      injection heq with heq
      injection heq with heq
      subst heq
      exact Nat.le_refl _
    rcases List.suffix_or_suffix_of_suffix hB hC with hle | hle
    · rcases List.suffix_cons_iff.1 hle with hle | hle
      · exact heq hle
      · exact (hcloses.reports _ (hle.subset (List.mem_cons_self ..))).size_le
    · rcases List.suffix_cons_iff.1 hle with hle | hle
      · exact heq hle.symm
      · have hBlog : B <:+ x.log := (List.suffix_cons ..).trans hB
        exact absurd (hle.subset (List.mem_cons_self ..))
          ((h.bracketed.suffix hBlog).not_closed (h.suffix_nodup hBlog) hp)
  exact hr.2 (by omega)

theorem fails (h : Halted s x) (h₀ : (.moment k :: B₀) <:+ B) (hB : (.moment k' :: B) <:+ x.log)
    (hgrew : k.state.diagnostics.size < k'.state.diagnostics.size)
    (hp₀ : p ∈ Treewalk.processed (.moment k :: B₀)) (hp : p ∈ underWay B) : Fails x p := by
  have hnone := fun r t => h.closed_none h₀ hB hgrew hp₀ hp (r := r) (t := t)
  by_cases hu : p ∈ underWay x.log
  · exact ⟨hnone, h.pending p hu, .inl hu⟩
  have hopened : p ∈ Treewalk.processed x.log :=
    (processed_suffix ((List.suffix_cons ..).trans hB)).subset ((underWay_sublist B).subset hp)
  obtain ⟨r, t, hc⟩ := h.bracketed.closed hopened hu
  obtain ⟨hmodule, hfailed⟩ := h.closed p r t hc
  have hr := hnone r t hc
  exact ⟨hnone, hmodule.trans hr, .inr (hfailed hr)⟩

theorem failuresSpread (h : Halted s x) : FailuresSpread x where
  imported decl t₀ t B hB p hp := by
    obtain ⟨B₀, h₀, hU, hr⟩ := (h.moments _ B hB).comes
    exact h.fails h₀ hB (hr.1 rfl) ((underWay_sublist B₀).subset (hU ▸ hp)) hp
  processed q t B hB p hp := by
    obtain ⟨t₀, B₀, h₀, hU, hr⟩ := (h.moments _ B hB).comes
    refine h.fails h₀ hB (hr.1 rfl) ?_ hp
    rw [hU] at hp
    exact (underWay_sublist B₀).cons_cons q |>.subset hp

end Halted

theorem Orders.failuresSpread {α : Type} {p : Trail α} {q : Load α}
    (h : Orders s ⟨s, []⟩ p fun _ y => Amid s [] [] y) (he : Trail.Erases p q) :
    Traced.erase (p ⟨s, []⟩) = q s ∧ FailuresSpread (Traced.last (p ⟨s, []⟩)) ∧
      ∀ a t, q s = .ok a t → underWay (Traced.last (p ⟨s, []⟩)).log = [] :=
  ⟨he.state _, h.halted.failuresSpread, fun _ _ hq => (h.returned he hq).2⟩

/-- Nothing fails without a report, and nothing else is reported. Reports are only added. An import
or a file is answered with nothing just if something is reported meanwhile, and so is the file of a
call; a call that is answered with a module or with an error of the disk reports nothing. With
an import or a file that fails, all files fail that are under way, so that none becomes a module;
in a session without reports, the exit status tells whether the file of a call became one. -/
theorem failure_reported (s : Session) (n : Nat) :
    (∀ dir decl, Reports s (Load.fetch n dir decl) fun r t =>
      r = none ↔ s.diagnostics.size < t.diagnostics.size) ∧
    (∀ path text, Reports s (Load.process n path text) fun r t =>
      r = none ↔ s.diagnostics.size < t.diagnostics.size) ∧
    (∀ path, Reports s (Load.runFile n path) fun r t =>
      (r = .ok none ↔ s.diagnostics.size < t.diagnostics.size) ∧
      (((∃ m, r = .ok (some m)) ∨ ∃ e, r = .error e) ↔
        t.diagnostics.size = s.diagnostics.size) ∧
      (s.diagnostics.size = 0 → ((∃ m, r = .ok (some m)) ↔
        (∃ m, r = .ok m) ∧ t.diagnostics.exitCode = 0))) ∧
    (∀ name text i, Reports s (Load.runSource n name text i) fun _ _ => True) ∧
    (∀ path, Traced.erase (Trail.runFile n path ⟨s, []⟩) = Load.runFile n path s ∧
      FailuresSpread (Traced.last (Trail.runFile n path ⟨s, []⟩)) ∧
      ∀ r t, Load.runFile n path s = .ok r t →
        underWay (Traced.last (Trail.runFile n path ⟨s, []⟩)).log = []) ∧
    ∀ name text i, Traced.erase (Trail.runSource n name text i ⟨s, []⟩) =
        Load.runSource n name text i s ∧
      FailuresSpread (Traced.last (Trail.runSource n name text i ⟨s, []⟩)) ∧
      ∀ i' t, Load.runSource n name text i s = .ok i' t →
        underWay (Traced.last (Trail.runSource n name text i ⟨s, []⟩)).log = [] := by
  refine ⟨(loadReports n).fetch, (loadReports n).process, fun path => ?_, Reports.runSource n,
    fun path => ?_, fun name text i => ?_⟩
  · refine (Reports.runFile n path).imp fun r t hk hr => ?_
    have hsize : t.diagnostics.size = s.diagnostics.size ↔ r ≠ .ok none := by
      have hle := hk.size_le
      rw [Ne, hr]
      omega
    refine ⟨hr, ?_, fun hs => ?_⟩
    · rw [hsize]
      rcases r with e | _ | m <;> simp
    · rw [Diagnostics.exitCode_eq_zero, ← hs, hsize]
      rcases r with e | _ | m <;> simp
  · exact (Orders.runFile s n path).failuresSpread (Trail.runFile_erases n path)
  · exact (Orders.runSource s n name text i).failuresSpread (Trail.runSource_erases n name text i)

end

end Treewalk
