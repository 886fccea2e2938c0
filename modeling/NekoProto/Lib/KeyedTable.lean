import Mathlib.Data.List.Basic
import Mathlib.Data.Nat.Notation

/-!
# Tables with keys

An association list as a map: what is found under a key after an entry was put in, taken out, or
all entries under some of the keys were taken out.
-/

namespace KeyedTable

variable {κ α : Type*} [DecidableEq κ]

/-- The table without the entries whose keys do not satisfy a predicate. -/
def keep (p : κ → Bool) (table : List (κ × α)) : List (κ × α) := table.filter fun entry => p entry.1

/-- The table without a key. -/
def erase (key : κ) (table : List (κ × α)) : List (κ × α) := keep (fun k => k ≠ key) table

/-- The table with an entry, in place of the one that was under its key. -/
def assign (key : κ) (value : α) (table : List (κ × α)) : List (κ × α) :=
  (key, value) :: erase key table

theorem lookup_cons (k : κ) (value : α) (table : List (κ × α)) (key : κ) :
    ((k, value) :: table).lookup key = if key = k then some value else table.lookup key := by
  rw [List.lookup_cons]
  by_cases h : key = k
  · rw [if_pos h, beq_iff_eq.mpr h]
  · rw [if_neg h, beq_eq_false_iff_ne.mpr h]

theorem lookup_keep (p : κ → Bool) (table : List (κ × α)) (key : κ) :
    (keep p table).lookup key = if p key then table.lookup key else none := by
  induction table with
  | nil => cases p key <;> rfl
  | cons entry table ih =>
    obtain ⟨k, value⟩ := entry
    unfold keep at ih ⊢
    by_cases hp : p k
    · rw [List.filter_cons, if_pos hp, lookup_cons, lookup_cons, ih]
      by_cases h : key = k
      · rw [if_pos h, if_pos h, if_pos (h ▸ hp)]
      · rw [if_neg h, if_neg h]
    · rw [List.filter_cons, if_neg hp, lookup_cons, ih]
      by_cases h : key = k
      · rw [if_neg (h ▸ hp), if_neg (h ▸ hp)]
      · rw [if_neg h]

theorem lookup_erase (key' : κ) (table : List (κ × α)) (key : κ) :
    (erase key' table).lookup key = if key = key' then none else table.lookup key := by
  rw [erase, lookup_keep]
  by_cases h : key = key' <;> simp [h]

theorem lookup_assign (key' : κ) (value : α) (table : List (κ × α)) (key : κ) :
    (assign key' value table).lookup key =
      if key = key' then some value else table.lookup key := by
  rw [assign, lookup_cons, lookup_erase]
  by_cases h : key = key'
  · rw [if_pos h, if_pos h]
  · rw [if_neg h, if_neg h, if_neg h]

/-- The table without several keys. -/
theorem lookup_eraseAll (keys : List κ) (table : List (κ × α)) {key : κ} (h : key ∉ keys) :
    (keys.foldl (fun table k => erase k table) table).lookup key = table.lookup key := by
  induction keys generalizing table with
  | nil => rfl
  | cons k keys ih =>
    rw [List.mem_cons, not_or] at h
    rw [List.foldl_cons, ih _ h.2, lookup_erase, if_neg h.1]

theorem mem_of_lookup {table : List (κ × α)} {key : κ} {value : α}
    (h : table.lookup key = some value) : (key, value) ∈ table := by
  induction table with
  | nil => cases h
  | cons entry table ih =>
    obtain ⟨k, v⟩ := entry
    rw [lookup_cons] at h
    split_ifs at h with hkey
    · obtain rfl := Option.some.inj h
      exact hkey ▸ List.mem_cons_self ..
    · exact List.mem_cons_of_mem _ (ih h)

end KeyedTable
