/-!
# Tables

`Table κ β` maps keys to values and keeps the order in which keys first came in. `get?_insert` says
what a table holds after a write; nothing else about its layout matters.
-/

namespace Treewalk

/-- Keys with their values, in the order of their first write. -/
structure Table (κ β : Type) where
  entries : List (κ × β)
deriving Repr

namespace Table

variable {κ β : Type} [DecidableEq κ]

/-- The table without keys. -/
def empty : Table κ β := ⟨[]⟩

instance : EmptyCollection (Table κ β) := ⟨empty⟩
instance : Inhabited (Table κ β) := ⟨empty⟩

/-- The value of `k` among `entries`. -/
def lookup (k : κ) : List (κ × β) → Option β
  | [] => none
  | (a, b) :: rest => if a = k then some b else lookup k rest

/-- `entries` with `k` set to `v`, in place if `k` is there and at the end if not. -/
def write (k : κ) (v : β) : List (κ × β) → List (κ × β)
  | [] => [(k, v)]
  | (a, b) :: rest => if a = k then (k, v) :: rest else (a, b) :: write k v rest

/-- The value of `k`, if the table has one. -/
def get? (t : Table κ β) (k : κ) : Option β := lookup k t.entries

/-- The table with `k` set to `v`. -/
def insert (t : Table κ β) (k : κ) (v : β) : Table κ β := ⟨write k v t.entries⟩

/-- Whether the table has a value for `k`. -/
def contains (t : Table κ β) (k : κ) : Bool := (t.get? k).isSome

/-- The table of `entries`; of two entries with one key the later counts. -/
def ofList (entries : List (κ × β)) : Table κ β :=
  entries.foldl (fun t e => t.insert e.1 e.2) empty

/-- A write is seen under its own key only. -/
theorem lookup_write (k a : κ) (v : β) (entries : List (κ × β)) :
    lookup a (write k v entries) = if k = a then some v else lookup a entries := by
  induction entries with
  | nil => simp [write, lookup]
  | cons e rest ih =>
    obtain ⟨b, w⟩ := e
    by_cases hb : b = k
    · subst hb
      by_cases hk : b = a <;> simp [write, lookup, hk]
    · by_cases ha : b = a
      · subst ha
        simp [write, lookup, hb, Ne.symm hb]
      · simp [write, lookup, hb, ha, ih]

/-- Of two writes under one key the later counts. -/
theorem write_write (k : κ) (v w : β) (entries : List (κ × β)) :
    write k v (write k w entries) = write k v entries := by
  induction entries with
  | nil => simp [write]
  | cons e rest ih =>
    obtain ⟨b, u⟩ := e
    by_cases hb : b = k
    · simp [write, hb]
    · simp [write, hb, ih]

@[simp] theorem insert_insert (t : Table κ β) (k : κ) (v w : β) :
    (t.insert k w).insert k v = t.insert k v :=
  congrArg Table.mk (write_write k v w t.entries)

@[simp] theorem get?_empty (a : κ) : (empty : Table κ β).get? a = none := rfl

/-- What a table holds after a write. -/
@[simp] theorem get?_insert (t : Table κ β) (k a : κ) (v : β) :
    (t.insert k v).get? a = if k = a then some v else t.get? a :=
  lookup_write k a v t.entries

theorem get?_insert_self (t : Table κ β) (k : κ) (v : β) : (t.insert k v).get? k = some v := by
  simp

theorem get?_insert_ne (t : Table κ β) {k a : κ} (v : β) (h : k ≠ a) :
    (t.insert k v).get? a = t.get? a := by
  simp [h]

theorem contains_insert (t : Table κ β) (k a : κ) (v : β) :
    (t.insert k v).contains a = (decide (k = a) || t.contains a) := by
  by_cases h : k = a <;> simp [contains, h]

end Table

end Treewalk
