import Mathlib.Data.Finset.Card
import Mathlib.Data.Finset.Dedup
import Treewalk.Proofs.Reports
import Treewalk.Proofs.TracedSession

/-!
# The order in which files are loaded

The log of a call tells which files were `processed` and which are `underWay`. `Orderly s x` is what
kept by a call that started from the session `s`, whatever that session was: no file is processed
twice, one that was closed is the module that it was closed with or has failed, and what is opened
later is closed earlier (`Moment.Comes`). `Amid s U W x`: between two steps, the files `U` are under
way, and the names of the files `W` are being bound.

`Orders s x p Q`: from `x` the step `p` leaves a state that is in order, whether it ends or not, and
if it ends then `Q` holds of what it answers and leaves. `loadOrders`: so do all loads.
-/

namespace Treewalk

/-! ### Files of a disk -/

theorem Table.mem_keys_of_get? {κ β : Type} [DecidableEq κ] {t : Table κ β} {k : κ} {v : β}
    (h : t.get? k = some v) : k ∈ t.entries.map Prod.fst := by
  have hlookup : ∀ {entries : List (κ × β)}, Table.lookup k entries = some v →
      k ∈ entries.map Prod.fst := fun {entries} => by
    induction entries with
    | nil => intro h; cases h
    | cons e rest ih =>
      intro h
      rw [Table.lookup] at h
      split at h
      · next he => exact he ▸ List.mem_cons_self ..
      · exact List.mem_cons_of_mem _ (ih h)
  exact hlookup h

namespace Disk

/-- There is a file under the path. -/
def isFile (d : Disk) (p : Path) : Bool :=
  match d.entry? p with
  | some (.file _) => true
  | _ => false

/-- The paths of all files. -/
def files (d : Disk) : Finset Path := ((d.entries.entries.map Prod.fst).filter d.isFile).toFinset

theorem mem_files_of_read {d : Disk} {p : Path} {text : String} (h : d.read p = .ok text) :
    p ∈ d.files := by
  cases p with
  | nil => simp [read, entry?] at h
  | cons name names =>
    have hentry : ∃ content, d.entry? (name :: names) = some (.file content) := by
      rw [read] at h
      split at h
      · cases h
      · cases h
      · next content hc => exact ⟨content, hc⟩
    obtain ⟨content, hc⟩ := hentry
    rw [files, List.mem_toFinset, List.mem_filter]
    refine ⟨Table.mem_keys_of_get? (t := d.entries) hc, ?_⟩
    rw [isFile, hc]

end Disk

/-! ### Files that are opened and closed -/

/-- The file that starts to be processed. -/
def Event.opened? : Event → Option Path
  | .moment (.opened p _) => some p
  | _ => none

/-- The files that have started to be processed, latest first. -/
abbrev processed (L : List Event) : List Path := L.filterMap Event.opened?

/-- The files that have started to be processed and are not done, innermost first. -/
def underWay : List Event → List Path
  | [] => []
  | .moment (.opened p _) :: L => p :: underWay L
  | .moment (.closed ..) :: L => (underWay L).tail
  | _ :: L => underWay L

/-- The event neither opens nor closes a file. -/
def Event.Aside : Event → Prop
  | .moment (.opened ..) | .moment (.closed ..) => False
  | _ => True

/-- The event is no moment of loading. -/
def Event.Plain (e : Event) : Prop := ∀ k, e ≠ .moment k

/-- Files are closed in the opposite order in which they were opened. -/
def Bracketed (L : List Event) : Prop :=
  ∀ p r t B, (.moment (.closed p r t) :: B) <:+ L → ∃ U, underWay B = p :: U

section

variable {L new : List Event} {e : Event} {p : Path} {r : Option Module} {t : Session}

theorem Event.aside_or (e : Event) : e.Aside ∨ (∃ p t, e = .moment (.opened p t)) ∨
    ∃ p r t, e = .moment (.closed p r t) := by
  cases e with
  | moment k =>
    cases k with
    | opened p t => exact .inr (.inl ⟨p, t, rfl⟩)
    | closed p r t => exact .inr (.inr ⟨p, r, t, rfl⟩)
    | stacked | asked | answered | taken | resolved | cleared => exact .inl trivial
  | made | reached | turn | scanned | read | bound | imported | began | aborted | entered =>
    exact .inl trivial

theorem Event.Plain.aside (h : e.Plain) : e.Aside := by
  rcases e.aside_or with he | ⟨p, t, rfl⟩ | ⟨p, r, t, rfl⟩
  · exact he
  · exact absurd rfl (h _)
  · exact absurd rfl (h _)

theorem Event.OfRun.plain (h : e.OfRun) : e.Plain := by
  rintro k rfl
  exact h.elim

theorem underWay_opened : underWay (.moment (.opened p t) :: L) = p :: underWay L := rfl

theorem underWay_closed : underWay (.moment (.closed p r t) :: L) = (underWay L).tail := rfl

theorem Event.opened?_eq_some (h : e.opened? = some p) : ∃ t, e = .moment (.opened p t) := by
  rcases e.aside_or with he | ⟨q, t, rfl⟩ | ⟨q, r, t, rfl⟩
  · cases e with
    | moment k =>
      cases k with
      | opened | closed => exact he.elim
      | stacked | asked | answered | taken | resolved | cleared => cases h
    | made | reached | turn | scanned | read | bound | imported | began | aborted | entered =>
      cases h
  · exact ⟨t, Option.some.inj h ▸ rfl⟩
  · cases h

theorem underWay_cons (h : e.Aside) : underWay (e :: L) = underWay L := by
  cases e with
  | moment k =>
    cases k with
    | opened | closed => exact h.elim
    | stacked | asked | answered | taken | resolved | cleared => rfl
  | made | reached | turn | scanned | read | bound | imported | began | aborted | entered => rfl

theorem processed_cons (h : e.Aside) : processed (e :: L) = processed L := by
  refine List.filterMap_cons_none (Option.eq_none_iff_forall_ne_some.2 fun p hp => ?_)
  obtain ⟨t, rfl⟩ := Event.opened?_eq_some hp
  exact h

theorem underWay_append (h : ∀ e ∈ new, e.Plain) : underWay (new ++ L) = underWay L := by
  induction new with
  | nil => rfl
  | cons e new ih =>
    obtain ⟨he, hnew⟩ := List.forall_mem_cons.1 h
    rw [List.cons_append, underWay_cons he.aside, ih hnew]

theorem processed_append (h : ∀ e ∈ new, e.Plain) : processed (new ++ L) = processed L := by
  induction new with
  | nil => rfl
  | cons e new ih =>
    obtain ⟨he, hnew⟩ := List.forall_mem_cons.1 h
    rw [List.cons_append, processed_cons he.aside, ih hnew]

/-- A file under way has been opened. -/
theorem underWay_sublist (L : List Event) : (underWay L).Sublist (processed L) := by
  induction L with
  | nil => exact .slnil
  | cons e L ih =>
    rcases e.aside_or with he | ⟨p, t, rfl⟩ | ⟨p, r, t, rfl⟩
    · rw [underWay_cons he, processed_cons he]
      exact ih
    · exact ih.cons_cons p
    · exact (List.tail_sublist _).trans ih

theorem processed_suffix {B : List Event} (h : B <:+ L) : processed B <:+ processed L :=
  h.filterMap _

namespace Bracketed

theorem suffix {B : List Event} (h : Bracketed L) (hB : B <:+ L) : Bracketed B :=
  fun p r t B' hB' => h p r t B' (hB'.trans hB)

theorem tail (h : Bracketed (e :: L)) : Bracketed L := h.suffix (List.suffix_cons ..)

/-- A file that was closed had been opened. -/
theorem mem_processed (h : Bracketed L) (hc : .moment (.closed p r t) ∈ L) : p ∈ processed L := by
  obtain ⟨new, B, rfl⟩ := List.append_of_mem hc
  obtain ⟨U, hU⟩ := h p r t B (List.suffix_append ..)
  have hB : B <:+ new ++ .moment (.closed p r t) :: B :=
    (List.suffix_cons ..).trans (List.suffix_append ..)
  exact (processed_suffix hB).subset ((underWay_sublist B).subset (hU ▸ List.mem_cons_self ..))

/-- A file that was opened is under way or was closed. -/
theorem closed (h : Bracketed L) (hp : p ∈ processed L) (hu : p ∉ underWay L) :
    ∃ r t, .moment (.closed p r t) ∈ L := by
  induction L with
  | nil => cases hp
  | cons e L ih =>
    have later (h : ∃ r t, .moment (.closed p r t) ∈ L) :
        ∃ r t, .moment (.closed p r t) ∈ e :: L := by
      obtain ⟨r, t, hc⟩ := h
      exact ⟨r, t, List.mem_cons_of_mem _ hc⟩
    rcases e.aside_or with he | ⟨q, t, rfl⟩ | ⟨q, r, t, rfl⟩
    · rw [underWay_cons he] at hu
      rw [processed_cons he] at hp
      exact later (ih h.tail hp hu)
    · rw [underWay_opened, List.mem_cons, not_or] at hu
      exact later (ih h.tail ((List.mem_cons.1 hp).resolve_left hu.1) hu.2)
    · by_cases hpq : p = q
      · exact ⟨r, t, hpq ▸ List.mem_cons_self ..⟩
      · obtain ⟨U, hU⟩ := h q r t L (List.suffix_refl _)
        rw [underWay_closed, hU] at hu
        refine later (ih h.tail hp ?_)
        rw [hU]
        exact List.not_mem_cons_of_ne_of_not_mem hpq hu

/-- A file under way has not been closed. -/
theorem not_closed (h : Bracketed L) (hn : (processed L).Nodup) (hp : p ∈ underWay L) :
    .moment (.closed p r t) ∉ L := by
  induction L with
  | nil => cases hp
  | cons e L ih =>
    have hn' : (processed L).Nodup := hn.sublist (processed_suffix (List.suffix_cons ..)).sublist
    rcases e.aside_or with he | ⟨q, t', rfl⟩ | ⟨q, r', t', rfl⟩
    · rw [underWay_cons he] at hp
      refine List.not_mem_cons_of_ne_of_not_mem ?_ (ih h.tail hn' hp)
      rintro rfl
      exact he
    · refine List.not_mem_cons_of_ne_of_not_mem (by simp) fun hc => ?_
      rcases List.mem_cons.1 hp with rfl | hp
      · exact (List.nodup_cons.1 hn).1 (h.tail.mem_processed hc)
      · exact ih h.tail hn' hp hc
    · obtain ⟨U, hU⟩ := h q r' t' L (List.suffix_refl _)
      have hnU := hn'.sublist (underWay_sublist L)
      rw [hU] at hnU
      rw [underWay_closed, hU] at hp
      refine List.not_mem_cons_of_ne_of_not_mem ?_ (ih h.tail hn' (hU ▸ List.mem_cons_of_mem q hp))
      intro hc
      injection hc with hc
      injection hc with hc
      exact (List.nodup_cons.1 hnU).1 (hc ▸ hp)

end Bracketed

end

/-! ### What is in order -/

/-- In a call that started from `s` and after the events `B`: a file is opened when the names of all
files under way are being bound; it is closed, and a request answered, when all that was opened
since is closed, and nothing is answered just if something was reported in between. -/
def Moment.Comes (s : Session) (B : List Event) : Moment → Prop
  | .opened _ t => t.loading = s.loading ++ (underWay B).reverse
  | .closed p r t => ∃ t₀ B₀, (.moment (.opened p t₀) :: B₀) <:+ B ∧
    underWay B = p :: underWay B₀ ∧ (r = none ↔ t₀.diagnostics.size < t.diagnostics.size)
  | .answered decl r t₀ t => ∃ B₀, (.moment (.asked decl t₀) :: B₀) <:+ B ∧
    underWay B₀ = underWay B ∧ (r = none ↔ t₀.diagnostics.size < t.diagnostics.size)
  | .stacked .. | .asked .. | .taken .. | .resolved .. | .cleared .. => True

/-- At the moment the files being bound are the outermost of those under way, and what was reported
at an earlier one still is. -/
structure Moment.Meets (s : Session) (B : List Event) (k : Moment) : Prop where
  loading : k.state.loading <+: s.loading ++ (underWay B).reverse
  reports : ∀ k', .moment k' ∈ B → k'.state.diagnostics.Kept k.state.diagnostics
  comes : k.Comes s B

/-- Since the call started from `s`, each file of the disk was processed at most once, one that was
closed is what it was closed with, and no report was taken back. -/
structure Orderly (s : Session) (x : Logged Event Session) : Prop where
  disk : x.state.disk = s.disk
  once : (processed x.log).Nodup
  files : ∀ p ∈ processed x.log, p ∈ s.disk.files
  closed : ∀ p r t, .moment (.closed p r t) ∈ x.log →
    x.state.modules.get? p = r ∧ (r = none → p ∈ x.state.failed)
  moments : ∀ k B, (.moment k :: B) <:+ x.log → k.Meets s B
  reports : ∀ k, .moment k ∈ x.log → k.state.diagnostics.Kept x.state.diagnostics

/-- A call that may have come to an end before its time is in order, and files under way are no
modules. -/
structure Halted (s : Session) (x : Logged Event Session) : Prop extends Orderly s x where
  pending : ∀ p ∈ underWay x.log, x.state.modules.get? p = none

/-- Between two steps of a call the files `U` are under way, and the names of the files `W` are
being bound. -/
structure Amid (s : Session) (U W : List Path) (x : Logged Event Session) : Prop
    extends Halted s x where
  under : underWay x.log = U
  loading : x.state.loading = s.loading ++ W.reverse

/-- From `x` on nothing has happened to files. -/
structure Idle (x y : Logged Event Session) : Prop where
  calm : x.state.Calm y.state
  log : ∃ new, y.log = new ++ x.log ∧ ∀ e ∈ new, e.Plain

section

variable {s : Session} {U W : List Path} {x y : Logged Event Session} {k : Moment} {p : Path}

/-- A moment that is not among the events in front was there before. -/
theorem suffix_of_plain {new L B : List Event} (h : (.moment k :: B) <:+ new ++ L)
    (hnew : ∀ e ∈ new, e.Plain) : (.moment k :: B) <:+ L := by
  induction new with
  | nil => exact h
  | cons e new ih =>
    obtain ⟨he, hnew⟩ := List.forall_mem_cons.1 hnew
    refine ih ((List.suffix_cons_iff.1 h).resolve_left fun heq => ?_) hnew
    injection heq with heq
    exact he k heq.symm

namespace Idle

theorem underWay_eq (h : Idle x y) : underWay y.log = underWay x.log := by
  obtain ⟨new, hnew, hplain⟩ := h.log
  rw [hnew, underWay_append hplain]

theorem processed_eq (h : Idle x y) : processed y.log = processed x.log := by
  obtain ⟨new, hnew, hplain⟩ := h.log
  rw [hnew, processed_append hplain]

theorem suffix (h : Idle x y) : x.log <:+ y.log := by
  obtain ⟨new, hnew, -⟩ := h.log
  exact ⟨new, hnew.symm⟩

theorem moment (h : Idle x y) {B : List Event} (hB : (.moment k :: B) <:+ y.log) :
    (.moment k :: B) <:+ x.log := by
  obtain ⟨new, hnew, hplain⟩ := h.log
  exact suffix_of_plain (hnew ▸ hB) hplain

theorem mem (h : Idle x y) (hk : .moment k ∈ y.log) : .moment k ∈ x.log := by
  obtain ⟨new, B, hB⟩ := List.append_of_mem hk
  exact (h.moment ⟨new, hB.symm⟩).subset (List.mem_cons_self ..)

/-- The state alone changes. -/
theorem of_calm {t : Session} (h : x.state.Calm t) : Idle x { x with state := t } :=
  ⟨h, [], rfl, by simp⟩

/-- An event is noted. -/
theorem of_plain {e : Event} (h : e.Plain) : Idle x { x with log := e :: x.log } :=
  ⟨.refl _, [e], rfl, by simpa using h⟩

end Idle

namespace Orderly

theorem bracketed (h : Orderly s x) : Bracketed x.log := fun _ _ _ B hB => by
  obtain ⟨_, B₀, -, hU, -⟩ := (h.moments _ B hB).comes
  exact ⟨underWay B₀, hU⟩

theorem nodup_underWay (h : Orderly s x) : (underWay x.log).Nodup :=
  h.once.sublist (underWay_sublist _)

theorem idle (h : Orderly s x) (hq : Idle x y) : Orderly s y where
  disk := hq.calm.disk.trans h.disk
  once := hq.processed_eq ▸ h.once
  files := hq.processed_eq ▸ h.files
  closed p r t hc := by
    rw [hq.calm.modules, hq.calm.failed]
    exact h.closed p r t (hq.mem hc)
  moments k B hB := h.moments k B (hq.moment hB)
  reports k hk := (h.reports k (hq.mem hk)).trans hq.calm.reports

/-- What a moment has to show. -/
theorem moment (h : Orderly s x) (hk : k.state = x.state)
    (hloading : x.state.loading <+: s.loading ++ (underWay x.log).reverse)
    (hcomes : k.Comes s x.log)
    (hopen : ∀ p t, k = .opened p t → p ∉ processed x.log ∧ p ∈ s.disk.files)
    (hclose : ∀ p r t, k = .closed p r t →
      x.state.modules.get? p = r ∧ (r = none → p ∈ x.state.failed)) :
    Orderly s { x with log := .moment k :: x.log } := by
  have hprocessed : processed (.moment k :: x.log) = processed x.log ∨
      ∃ p, processed (.moment k :: x.log) = p :: processed x.log ∧ p ∉ processed x.log ∧
        p ∈ s.disk.files := by
    rcases (Event.moment k).aside_or with he | ⟨q, t, he⟩ | ⟨q, r, t, he⟩
    · exact .inl (processed_cons he)
    · cases he
      exact .inr ⟨q, rfl, hopen q t rfl⟩
    · cases he
      exact .inl rfl
  refine ⟨h.disk, ?_, fun p hp => ?_, fun p r t hc => ?_, fun k' B hB => ?_, fun k' hk' => ?_⟩
  · rcases hprocessed with heq | ⟨p, heq, hnew, -⟩
    · exact heq.symm ▸ h.once
    · exact heq.symm ▸ List.nodup_cons.2 ⟨hnew, h.once⟩
  · rcases hprocessed with heq | ⟨q, heq, -, hq⟩
    · exact h.files p (heq ▸ hp)
    · rcases List.mem_cons.1 (heq ▸ hp) with rfl | hp
      · exact hq
      · exact h.files p hp
  · rcases List.mem_cons.1 hc with hc | hc
    · injection hc with hc
      exact hclose p r t hc.symm
    · exact h.closed p r t hc
  · rcases List.suffix_cons_iff.1 hB with heq | hB
    · injection heq with heq hL
      injection heq with heq
      subst heq hL
      refine ⟨hk ▸ hloading, fun k' hk' => ?_, hcomes⟩
      rw [hk]
      exact h.reports k' hk'
    · exact h.moments k' B hB
  · rcases List.mem_cons.1 hk' with heq | hk'
    · injection heq with heq
      rw [heq, hk]
      exact .refl _
    · exact h.reports k' hk'

/-- What is not being bound and is neither a module nor has failed has not been processed. -/
theorem not_processed (h : Orderly s x) (hu : p ∉ underWay x.log)
    (hm : x.state.modules.get? p = none) (hf : p ∉ x.state.failed) : p ∉ processed x.log := by
  intro hp
  obtain ⟨r, t, hc⟩ := h.bracketed.closed hp hu
  obtain ⟨hr, hfailed⟩ := h.closed p r t hc
  exact hf (hfailed (hr.symm.trans hm))

end Orderly

theorem Halted.idle (h : Halted s x) (hq : Idle x y) : Halted s y := by
  refine ⟨h.toOrderly.idle hq, fun p hp => ?_⟩
  rw [hq.calm.modules]
  exact h.pending p (hq.underWay_eq ▸ hp)

namespace Amid

theorem idle (h : Amid s U W x) (hq : Idle x y) : Amid s U W y :=
  ⟨h.toHalted.idle hq, hq.underWay_eq.trans h.under, hq.calm.loading.trans h.loading⟩

/-- An event is noted that is no moment of loading. -/
theorem note {e : Event} (h : Amid s U W x) (he : e.Plain := by simp [Event.Plain]) :
    Amid s U W { x with log := e :: x.log } := h.idle (.of_plain he)

/-- Other files are being bound from now on. -/
theorem stack (h : Amid s U W x) {l : List Path} (V : List Path) (hl : l = s.loading ++ V.reverse) :
    Amid s U V { x with state := { x.state with loading := l } } :=
  ⟨⟨⟨h.disk, h.once, h.files, h.closed, h.moments, h.reports⟩, h.pending⟩, h.under, hl⟩

theorem loading_prefix (h : Amid s U W x) (hW : W <:+ U) :
    x.state.loading <+: s.loading ++ (underWay x.log).reverse := by
  rw [h.loading, h.under]
  exact (List.prefix_append_right_inj _).2 (List.reverse_prefix.2 hW)

/-- A moment comes that opens no file and closes none. -/
theorem moment (h : Amid s U W x) (hW : W <:+ U) (hk : k.state = x.state)
    (ha : (Event.moment k).Aside) (hcomes : k.Comes s x.log) :
    Amid s U W { x with log := .moment k :: x.log } := by
  refine ⟨⟨h.toOrderly.moment hk (h.loading_prefix hW) hcomes (fun p t he => ?_)
    fun p r t he => ?_, fun p hp => ?_⟩, (underWay_cons ha).trans h.under, h.loading⟩
  · subst he
    exact ha.elim
  · subst he
    exact ha.elim
  · exact h.pending p (underWay_cons ha ▸ hp)

/-- A file starts to be processed. -/
theorem opened (h : Amid s W W x) (hp : p ∉ processed x.log) (hm : x.state.modules.get? p = none)
    (hf : p ∈ s.disk.files) :
    Amid s (p :: W) W { x with log := .moment (.opened p x.state) :: x.log } := by
  have hloading : x.state.loading = s.loading ++ (underWay x.log).reverse := h.under ▸ h.loading
  have hprefix := h.loading_prefix (List.suffix_refl W)
  refine ⟨⟨h.toOrderly.moment rfl hprefix hloading (fun q t he => ?_) (by simp), fun q hq => ?_⟩,
    congrArg _ h.under, h.loading⟩
  · injection he with he
    exact he ▸ ⟨hp, hf⟩
  · rcases List.mem_cons.1 hq with rfl | hq
    · exact hm
    · exact h.pending q hq

end Amid

end

/-- A file has been read, bound and run as far as it went: it is the module that is answered. -/
structure Done (s : Session) (p : Path) (W : List Path) (r : Option Module)
    (x : Logged Event Session) : Prop extends Orderly s x where
  under : underWay x.log = p :: W
  loading : x.state.loading = s.loading ++ W.reverse
  pending : ∀ q ∈ W, x.state.modules.get? q = none
  result : x.state.modules.get? p = r

namespace Done

variable {s : Session} {p : Path} {W : List Path} {r : Option Module} {x y : Logged Event Session}

theorem idle (h : Done s p W r x) (hq : Idle x y) : Done s p W r y where
  toOrderly := h.toOrderly.idle hq
  under := hq.underWay_eq.trans h.under
  loading := hq.calm.loading.trans h.loading
  pending := hq.calm.modules ▸ h.pending
  result := hq.calm.modules ▸ h.result

/-- Nothing was made of the file. -/
theorem of_none (h : Amid s (p :: W) W x) : Done s p W none x := by
  have hpending : ∀ q ∈ p :: W, x.state.modules.get? q = none := h.under ▸ h.pending
  exact ⟨h.toOrderly, h.under, h.loading, (List.forall_mem_cons.1 hpending).2,
    (List.forall_mem_cons.1 hpending).1⟩

/-- The file is a module from now on. -/
theorem install (h : Amid s (p :: W) W x) (m : Module) :
    Done s p W (some m)
      { x with state := { x.state with modules := x.state.modules.insert p m } } := by
  have hnodup : (p :: W).Nodup := h.under ▸ h.nodup_underWay
  have hp : p ∈ underWay x.log := h.under.symm ▸ List.mem_cons_self ..
  refine ⟨⟨h.disk, h.once, h.files, fun q r t hc => ?_, h.moments, h.reports⟩, h.under, h.loading,
    fun q hq => ?_, Table.get?_insert_self ..⟩
  · have hne : p ≠ q := by
      rintro rfl
      exact h.bracketed.not_closed h.once hp hc
    obtain ⟨hr, hf⟩ := h.closed q r t hc
    exact ⟨(Table.get?_insert_ne _ _ hne).trans hr, hf⟩
  · have hne : p ≠ q := fun he => (List.nodup_cons.1 hnodup).1 (he ▸ hq)
    exact (Table.get?_insert_ne _ _ hne).trans (h.pending q (h.under ▸ List.mem_cons_of_mem p hq))

/-- The file has failed. -/
theorem fail (h : Done s p W r x) :
    Done s p W r { x with state := { x.state with failed := p :: x.state.failed } } := by
  refine ⟨⟨h.disk, h.once, h.files, fun q r t hc => ?_, h.moments, h.reports⟩, h.under, h.loading,
    h.pending, h.result⟩
  obtain ⟨hr, hf⟩ := h.closed q r t hc
  exact ⟨hr, fun hn => List.mem_cons_of_mem _ (hf hn)⟩

/-- The file has been processed. -/
theorem close (h : Done s p W r x) (hr : r = none → p ∈ x.state.failed)
    {t₀ : Session} {B₀ : List Event} (hB : (.moment (.opened p t₀) :: B₀) <:+ x.log)
    (hW : underWay B₀ = W)
    (hsize : r = none ↔ t₀.diagnostics.size < x.state.diagnostics.size) :
    Amid s W W { x with log := .moment (.closed p r x.state) :: x.log } := by
  have hloading : x.state.loading <+: s.loading ++ (underWay x.log).reverse := by
    rw [h.loading, h.under]
    exact (List.prefix_append_right_inj _).2 (List.reverse_prefix.2 (List.suffix_cons ..))
  have hunder : underWay (.moment (.closed p r x.state) :: x.log) = W := by
    rw [underWay_closed, h.under, List.tail_cons]
  refine ⟨⟨h.toOrderly.moment rfl hloading ⟨t₀, B₀, hB, hW.symm ▸ h.under, hsize⟩ (by simp)
    fun q r' t he => ?_, fun q hq => h.pending q (hunder ▸ hq)⟩, hunder, h.loading⟩
  injection he with he he'
  exact he ▸ he' ▸ ⟨h.result, hr⟩

end Done

/-! ### Rules -/

/-- From `x` the step keeps the call in order; if it ends then with an answer and a state of `Q`. -/
def Orders {α : Type} (s : Session) (x : Logged Event Session) (p : Trail α)
    (Q : α → Logged Event Session → Prop) : Prop :=
  match p x with
  | .ok a y => x.log <:+ y.log ∧ Q a y
  | .error _ y => Halted s y

namespace Orders

variable {α β : Type} {s : Session} {U W : List Path} {x : Logged Event Session} {p : Trail α}
  {P Q : α → Logged Event Session → Prop}

theorem pure {a : α} (h : Q a x) : Orders s x (Pure.pure a) Q := ⟨List.suffix_refl _, h⟩

theorem throw (hx : Halted s x) (e : OutOfSteps) : Orders s x (throw e : Trail α) Q := hx

theorem imp (h : Orders s x p P) (hPQ : ∀ a y, x.log <:+ y.log → P a y → Q a y) :
    Orders s x p Q := by
  unfold Orders at h ⊢
  split at h
  · exact ⟨h.1, hPQ _ _ h.1 h.2⟩
  · exact h

theorem bind {f : α → Trail β} {Q : β → Logged Event Session → Prop} (h : Orders s x p P)
    (hf : ∀ a y, x.log <:+ y.log → P a y → Orders s y (f a) Q) : Orders s x (p >>= f) Q := by
  unfold Orders at h ⊢
  have heq : (p >>= f) x = EStateM.bind p f x := rfl
  rw [heq, EStateM.bind]
  split at h
  · next a y hp =>
    have hrest := hf a y h.1 h.2
    rw [hp]
    unfold Orders at hrest
    dsimp only
    split at hrest
    · exact ⟨h.1.trans hrest.1, hrest.2⟩
    · exact hrest
  · next e y hp =>
    rw [hp]
    exact h

theorem noted {event : Session → Event} {f : Unit → Trail α}
    (h : Orders s { x with log := event x.state :: x.log } (f ()) Q) :
    Orders s x (Traced.note event >>= f) Q :=
  bind (P := fun _ y => y = { x with log := event x.state :: x.log })
    ⟨List.suffix_cons .., rfl⟩ fun _ _ _ hy => hy ▸ h

theorem get {f : Session → Trail α} (h : Orders s x (f x.state) Q) :
    Orders s x (Traced.lift MonadState.get >>= f) Q := h

theorem reports {f : Nat → Trail α} (h : Orders s x (f x.state.diagnostics.size) Q) :
    Orders s x (Traced.lift Load.reports >>= f) Q := h

theorem change {g : Session → Session} {f : Unit → Trail α}
    (h : Orders s { x with state := g x.state } (f ()) Q) :
    Orders s x (Traced.lift (modify g) >>= f) Q := h

/-- Nothing happens to files in a calm step that logs no moments. -/
theorem idle {q : Load α} (he : Traced.Erases Event.Plain p q) (hq : q.Calms) (hx : Halted s x) :
    Orders s x p fun _ y => Idle x y := by
  obtain ⟨new, hnew, hplain⟩ := he.log x
  have hcalm := hq x.state
  rw [← he.state x] at hcalm
  unfold Orders
  cases hp : p x with
  | ok a y =>
    rw [hp] at hnew hcalm
    have hidle : Idle x y := ⟨hcalm, new, hnew, hplain⟩
    exact ⟨hidle.suffix, hidle⟩
  | error e y =>
    rw [hp] at hnew hcalm
    exact hx.idle ⟨hcalm, new, hnew, hplain⟩

/-- An idle step comes first. -/
theorem idly {q : Load α} {f : α → Trail β} {Q : β → Logged Event Session → Prop}
    (he : Traced.Erases Event.Plain p q) (hq : q.Calms) (hx : Amid s U W x)
    (hf : ∀ a y, Amid s U W y → Orders s y (f a) Q) : Orders s x (p >>= f) Q :=
  (idle he hq hx.toHalted).bind fun a y _ hy => hf a y (hx.idle hy)

theorem after {q : Load α} {f : α → Trail β} {Q : β → Logged Event Session → Prop} (hq : q.Calms)
    (hx : Amid s U W x) (hf : ∀ a y, Amid s U W y → Orders s y (f a) Q) :
    Orders s x (Traced.lift q >>= f) Q := idly (.step q) hq hx hf

/-- What the plain step reports. -/
theorem reported {q : Load α} {R : α → Session → Prop} (h : Orders s x p Q)
    (he : Trail.Erases p q) (hr : Reports x.state q R) :
    Orders s x p fun a y => Q a y ∧ R a y.state := by
  have hs := he.state x
  unfold Orders at h ⊢
  split at h
  · next a y hp =>
    rw [hp] at hs
    exact ⟨h.1, h.2, (hr.of_ok hs.symm).2⟩
  · exact h

theorem last (h : Orders s x p fun _ y => Halted s y) : Halted s (Traced.last (p x)) := by
  unfold Orders at h
  split at h
  · next hp =>
    rw [hp]
    exact h.2
  · next hp =>
    rw [hp]
    exact h

end Orders

/-! ### Loads -/

/-- With `n` steps, loads keep a call that started from `s` in order. -/
structure LoadOrders (s : Session) (n : Nat) : Prop where
  settle : ∀ {x W} dir fs p, Amid s W W x →
    Orders s x (Trail.settle n dir fs p) fun _ y => Amid s W W y
  bindNames : ∀ {x W} dir body i, Amid s W W x →
    Orders s x (Trail.bindNames n dir body i) fun _ y => Amid s W W y
  fetch : ∀ {x W} dir decl, Amid s W W x →
    Orders s x (Trail.fetch n dir decl) fun _ y => Amid s W W y
  process : ∀ {x W} path text, Amid s W W x → path ∉ processed x.log →
    x.state.modules.get? path = none → path ∈ s.disk.files →
    Orders s x (Trail.process n path text) fun _ y => Amid s W W y
  processHere : ∀ {x W} path name text, Amid s (path :: W) W x →
    Orders s x (Trail.processHere n path name text) fun r y => Done s path W r y

namespace LoadOrders

variable {s : Session} {n : Nat} {x : Logged Event Session} {W : List Path}

theorem settle_succ (ih : LoadOrders s n) (dir : String) (fs : List Finding) (p : Pending)
    (hx : Amid s W W x) : Orders s x (Trail.settle (n + 1) dir fs p) fun _ y => Amid s W W y := by
  cases fs with
  | nil => exact .pure hx
  | cons f fs =>
  cases f <;> rw [Trail.settle]
  case «local» id d => exact ih.settle dir fs _ hx
  case fault at_ f =>
    exact .after (Load.Calms.change fun s => .push s _) hx fun _ _ hy => ih.settle dir fs p hy
  case declared name => exact ih.settle dir fs _ hx
  case exposed names => exact ih.settle dir fs _ hx
  case required decl =>
    have hW := List.suffix_refl W
    refine .get (.noted ?_)
    have hx₁ := hx.moment (k := .asked decl x.state) hW rfl trivial trivial
    refine ((ih.fetch dir decl hx₁).reported ((Trail.loadErases n).fetch dir decl)
      ((loadReports n).fetch dir decl)).bind fun r y hl h => .noted ?_
    obtain ⟨hy, hr⟩ := h
    have hy₁ := hy.moment (k := .answered decl r x.state y.state) hW rfl trivial
      ⟨x.log, hl, hx.under.trans hy.under.symm, hr⟩
    cases r with
    | none => exact ih.settle dir fs p hy₁
    | some m =>
      refine .get (.after (.takeNames decl m decl.names p) hy₁ fun p z hz => .noted ?_)
      have hz₁ := hz.moment (k := .taken decl m p.interpreter x.state y.state z.state) hW rfl
        trivial trivial
      exact .noted (ih.settle dir fs _ hz₁.note)

theorem bindNames_succ (ih : LoadOrders s n) (dir : String) (body : List Stmt) (i : Interpreter)
    (hx : Amid s W W x) :
    Orders s x (Trail.bindNames (n + 1) dir body i) fun _ y => Amid s W W y := by
  rw [Trail.bindNames]
  refine (ih.settle dir _ _ hx).bind fun p y _ hy => .noted (.noted ?_)
  have hy₁ := hy.moment (k := .resolved body p.interpreter y.state) (List.suffix_refl W) rfl trivial
    trivial
  exact .after (.exportsOf _ _ _) hy₁.note fun _ _ hz => .pure hz

theorem fetch_succ (ih : LoadOrders s n) (dir : String) (decl : ImportDecl) (hx : Amid s W W x) :
    Orders s x (Trail.fetch (n + 1) dir decl) fun _ y => Amid s W W y := by
  have hfail (at_ : Token) (f : ModuleFault) : Orders s x
      (do Traced.lift (Load.report at_ f); return (none : Option Module)) fun _ y => Amid s W W y :=
    .after (.report at_ f) hx fun _ _ hy => .pure hy
  rw [Trail.fetch]
  refine .get ?_
  cases x.state.disk.locate (Path.join dir (Load.fileName x.state.config decl.module)) with
  | error e => exact hfail ..
  | ok path =>
    dsimp only
    split
    · exact hfail ..
    next hloading =>
    cases hm : x.state.modules.get? path with
    | some m => exact .pure hx
    | none =>
      dsimp only
      split
      · exact hfail ..
      next hfailed =>
      cases hread : x.state.disk.read path with
      | error e => exact hfail ..
      | ok text =>
        -- A file that is read now is neither being bound nor a module, nor has it failed.
        have hunder : path ∉ underWay x.log := fun hp => hloading (by
          rw [List.contains_iff_mem, hx.loading]
          exact List.mem_append_right _ (List.mem_reverse.2 (hx.under ▸ hp)))
        refine ih.process path text hx ?_ hm ?_
        · exact hx.not_processed hunder hm fun hf => hfailed (List.contains_iff_mem.2 hf)
        · exact hx.disk ▸ Disk.mem_files_of_read hread

theorem process_succ (ih : LoadOrders s n) (path : Path) (text : String) (hx : Amid s W W x)
    (hp : path ∉ processed x.log) (hm : x.state.modules.get? path = none)
    (hf : path ∈ s.disk.files) :
    Orders s x (Trail.process (n + 1) path text) fun _ y => Amid s W W y := by
  have hfile : ∀ (y : Logged Event Session) file, Idle y { y with
      state := { y.state with diagnostics := y.state.diagnostics.inFile file } } := fun y file =>
    .of_calm ⟨rfl, rfl, rfl, rfl, .refl _⟩
  rw [Trail.process]
  refine .noted (.get ?_)
  have hx₁ := (hx.opened hp hm hf).idle (hfile _ (some (x.state.displayName path)))
  refine Orders.bind (P := fun r y => r = x.state.diagnostics.file ∧ y = _)
    ⟨List.suffix_refl _, rfl, rfl⟩ fun before y _ hy => ?_
  obtain ⟨rfl, rfl⟩ := hy
  refine ((ih.processHere path _ text hx₁).reported ((Trail.loadErases n).processHere path _ text)
    ((loadReports n).processHere path _ text)).bind fun r y hl h => ?_
  obtain ⟨hy, hr⟩ := h
  refine Orders.bind (P := fun _ z => z = _) ⟨List.suffix_refl _, rfl⟩ fun _ z _ hz => ?_
  subst hz
  have hy₁ := hy.idle (hfile y x.state.diagnostics.file)
  cases r with
  | none =>
    exact .change (.noted (.pure (hy₁.fail.close (fun _ => List.mem_cons_self ..) hl hx.under hr)))
  | some m => exact .noted (.pure (hy₁.close (by simp) hl hx.under hr))

theorem processHere_succ (ih : LoadOrders s n) (path : Path) (name text : String)
    (hx : Amid s (path :: W) W x) :
    Orders s x (Trail.processHere (n + 1) path name text) fun r y => Done s path W r y := by
  rw [Trail.processHere]
  refine .reports (.idly (Trail.readFile_erases path name text (by simp [Event.Plain])
    (by simp [Event.Plain]))
    (.readFile path name text) hx fun body y hy => .reports ?_)
  split
  · exact .pure (.of_none hy)
  refine .after .newInterpreter hy fun i z hz => .change (.noted ?_)
  -- The file is entered into those that are being bound, and taken out again.
  have hz₁ := hz.stack (l := z.state.loading ++ [path]) (path :: W) (by
    rw [hz.loading, List.reverse_cons, List.append_assoc])
  have hz₂ := hz₁.moment (k := .stacked _) (List.suffix_refl _) rfl trivial trivial
  refine (ih.bindNames _ body i hz₂).bind fun r v _ hv => ?_
  obtain ⟨exports, i⟩ := r
  refine .change (.noted ?_)
  have hv₁ := hv.stack (l := v.state.loading.dropLast) W (by
    rw [hv.loading, List.reverse_cons, ← List.append_assoc, List.dropLast_concat])
  have hv₂ := hv₁.moment (k := .stacked _) (List.suffix_cons ..) rfl trivial trivial
  refine .reports ?_
  dsimp only
  split
  · exact .pure (.of_none hv₂)
  refine .noted (.idly (Trail.perform_erases i (Trace.run_erases n body) fun _ => Event.OfRun.plain)
    (.perform i _) hv₂.note fun r w hw => ?_)
  obtain ⟨result, i⟩ := r
  cases result with
  | error f =>
    exact .idly (.watch _ _ (by simp [Event.Plain])) (Load.Calms.change fun s => .push s _) hw
      fun _ _ hu => .pure (.of_none hu)
  | ok a => exact .change (.pure (.install hw _))

end LoadOrders

/-- Loads keep a call in order. -/
theorem loadOrders (s : Session) (n : Nat) : LoadOrders s n := by
  induction n with
  | zero =>
    refine ⟨fun _ _ _ hx => ?_, fun _ _ _ hx => ?_, fun _ _ hx => ?_, fun _ _ hx _ _ _ => ?_,
      fun _ _ _ hx => ?_⟩
    all_goals exact Orders.throw hx.toHalted _
  | succ n ih =>
    exact ⟨ih.settle_succ, ih.bindNames_succ, ih.fetch_succ, ih.process_succ, ih.processHere_succ⟩

end Treewalk
