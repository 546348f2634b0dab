import Treewalk.Proofs.Derived
import Treewalk.Proofs.Followed

/-!
# Reading accepts the grammar

A program is read without a fault exactly if its tokens are derived. One direction is
`Read.derived_of_declarations`: what reading takes without a fault has a derivation. The other is
`follows`: what has a derivation is taken. Both leave out readings that run out of steps, which no
program does (`Program.read_not_exhausted`).
-/

namespace Treewalk
open Grammar

theorem Grammar.Row.of_parts {M : Phrase → List Token → Prop} {p : Phrase}
    {parts : List (List Token)} (h : ∀ w ∈ parts, M p w) :
    Row M (List.replicate parts.length p) parts.flatten := by
  induction parts with
  | nil => rfl
  | cons w parts ih =>
    have hrest : ∀ v ∈ parts, M p v := fun v hv => h v (List.mem_cons_of_mem _ hv)
    exact ⟨w, parts.flatten, rfl, h w List.mem_cons_self, ih hrest⟩

namespace Program
variable {tokens : List Token} {stop : Pos} {firstId : Nat}

theorem derived_of_read (h : (read tokens stop firstId).faults = []) :
    ∃ parts, Derived tokens parts := by
  have hyields := Read.declarations_yields (steps tokens.length) [] ⟨tokens, stop, firstId, []⟩
  unfold read at h
  cases hr : Read.declarations (steps tokens.length) [] ⟨tokens, stop, firstId, []⟩ with
  | ok ss r =>
    rw [hr] at h
    exact Read.derived_of_declarations hr (List.reverse_eq_nil_iff.1 h)
  | error e r =>
    rw [hr] at h hyields
    cases e with
    | faulty => exact absurd (List.reverse_eq_nil_iff.1 h) hyields
    | exhausted => exact absurd hr (read_not_exhausted tokens stop firstId r)

theorem read_of_derived {parts : List (List Token)} (h : Derived tokens parts) :
    (read tokens stop firstId).faults = [] ∧
      (read tokens stop firstId).body.length = parts.length := by
  obtain ⟨rfl, hparts⟩ := h
  have hrow : Row Follows (List.replicate parts.length .declaration) parts.flatten :=
    .of_parts fun w hw => follows (hparts w hw)
  have htakes := Follows.declarations (steps parts.flatten.length) [] hrow stop firstId []
  rw [List.append_nil] at htakes
  rcases htakes with ⟨ss, id, hread, hlength⟩ | ⟨r, hread⟩
  · rw [read, hread]
    exact ⟨rfl, by simpa using hlength⟩
  · exact absurd hread (read_not_exhausted parts.flatten stop firstId r)

/-- Reading reports nothing exactly for the texts of the grammar, and makes one statement of each of
their declarations. -/
theorem read_faultless_iff_derived (tokens : List Token) (stop : Pos) (firstId : Nat) :
    ((read tokens stop firstId).faults = [] ↔ ∃ parts, Derived tokens parts) ∧
      ∀ parts, Derived tokens parts → (read tokens stop firstId).body.length = parts.length := by
  refine ⟨⟨derived_of_read, ?_⟩, fun parts h => (read_of_derived h).2⟩
  rintro ⟨parts, h⟩
  exact (read_of_derived h).1

end Program

end Treewalk
