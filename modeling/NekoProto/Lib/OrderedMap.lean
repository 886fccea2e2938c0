import NekoProto.Lib.KeyedTable
import Mathlib.Data.List.Sort
import Mathlib.Data.List.Perm.Basic

/-!
# Ordered maps

A map as the list of its entries in the order of their keys. Inserting keeps the entry that is
under the key already, so what is found afterwards is known (`find_insert`), and a map is known by
what is found in it (`OrderedMap.ext_find`).
-/

variable {κ α : Type*} [LinearOrder κ]

/-- A map, with its entries in the order of their keys. -/
structure OrderedMap (κ α : Type*) [LinearOrder κ] where
  entries : List (κ × α)
  sorted : entries.Pairwise fun a b => a.1 < b.1

namespace OrderedMap

open KeyedTable (lookup_cons)

/-- The map without entries. -/
def empty : OrderedMap κ α := ⟨[], .nil⟩

/-- The value under a key. -/
def find (m : OrderedMap κ α) (key : κ) : Option α := m.entries.lookup key

/-- The number of entries. -/
def size (m : OrderedMap κ α) : ℕ := m.entries.length

/-- The entries with a new one in its place, unless there is one under its key. -/
def insertEntry (key : κ) (value : α) : List (κ × α) → List (κ × α)
  | [] => [(key, value)]
  | (k, v) :: rest =>
    if key < k then (key, value) :: (k, v) :: rest
    else if key = k then (k, v) :: rest
    else (k, v) :: insertEntry key value rest

theorem keys_insertEntry {key k : κ} {value : α} {entries : List (κ × α)} (hk : k < key)
    (h : ∀ entry ∈ entries, k < entry.1) :
    ∀ entry ∈ insertEntry key value entries, k < entry.1 := by
  induction entries with
  | nil =>
    rintro entry hentry
    obtain rfl := List.mem_singleton.mp hentry
    exact hk
  | cons first rest ih =>
    obtain ⟨k', v⟩ := first
    have hrest := ih fun entry hentry => h entry (List.mem_cons_of_mem _ hentry)
    unfold insertEntry
    split_ifs
    · exact List.forall_mem_cons.mpr ⟨hk, h⟩
    · exact h
    · exact List.forall_mem_cons.mpr ⟨h _ List.mem_cons_self, hrest⟩

theorem sorted_insertEntry {key : κ} {value : α} {entries : List (κ × α)}
    (h : entries.Pairwise fun a b => a.1 < b.1) :
    (insertEntry key value entries).Pairwise fun a b => a.1 < b.1 := by
  induction entries with
  | nil => exact List.pairwise_singleton _ _
  | cons first rest ih =>
    obtain ⟨k, v⟩ := first
    obtain ⟨hfirst, hrest⟩ := List.pairwise_cons.mp h
    unfold insertEntry
    split_ifs with hlt heq
    · refine List.pairwise_cons.mpr ⟨?_, h⟩
      exact List.forall_mem_cons.mpr ⟨hlt, fun entry hentry => hlt.trans (hfirst entry hentry)⟩
    · exact h
    · have hgt : k < key := lt_of_le_of_ne (not_lt.mp hlt) (Ne.symm heq)
      exact List.pairwise_cons.mpr ⟨keys_insertEntry hgt hfirst, ih hrest⟩

/-- `std::map::insert`. -/
def insert (m : OrderedMap κ α) (key : κ) (value : α) : OrderedMap κ α :=
  ⟨insertEntry key value m.entries, sorted_insertEntry m.sorted⟩

@[simp] theorem find_empty (key : κ) : (empty : OrderedMap κ α).find key = none := rfl

theorem lookup_eq_none {k : κ} {rest : List (κ × α)} (h : ∀ entry ∈ rest, k < entry.1) {key : κ}
    (hkey : key ≤ k) : rest.lookup key = none := by
  rw [List.lookup_eq_none_iff]
  intro entry hentry
  exact bne_iff_ne.mpr (lt_of_le_of_lt hkey (h entry hentry)).ne

theorem lookup_insertEntry (key : κ) (value : α) {entries : List (κ × α)}
    (h : entries.Pairwise fun a b => a.1 < b.1) (k : κ) :
    (insertEntry key value entries).lookup k =
      if k = key then some ((entries.lookup key).getD value) else entries.lookup k := by
  induction entries with
  | nil => exact lookup_cons key value [] k
  | cons first rest ih =>
    obtain ⟨k', v⟩ := first
    obtain ⟨hfirst, hrest⟩ := List.pairwise_cons.mp h
    unfold insertEntry
    by_cases hlt : key < k'
    · have hnone : rest.lookup key = none := lookup_eq_none hfirst hlt.le
      rw [if_pos hlt, lookup_cons key, lookup_cons k' v rest key, if_neg hlt.ne, hnone]
      rfl
    by_cases heq : key = k'
    · subst heq
      rw [if_neg hlt, if_pos rfl, lookup_cons, lookup_cons, if_pos rfl]
      by_cases hk : k = key
      · rw [if_pos hk, if_pos hk]
        rfl
      · rw [if_neg hk, if_neg hk]
    · rw [if_neg hlt, if_neg heq, lookup_cons, ih hrest, lookup_cons k' v rest key, if_neg heq,
        lookup_cons]
      by_cases hk : k = k'
      · rw [if_pos hk, if_pos hk, if_neg fun h => heq (h.symm.trans hk)]
      · rw [if_neg hk, if_neg hk]

/-- **Inserting** adds an entry under a new key, and changes nothing under one that is there. -/
theorem find_insert (m : OrderedMap κ α) (key : κ) (value : α) (k : κ) :
    (m.insert key value).find k =
      if k = key then some ((m.find key).getD value) else m.find k :=
  lookup_insertEntry key value m.sorted k

theorem find_insert_new {m : OrderedMap κ α} {key : κ} {value : α} (h : m.find key = none) (k : κ) :
    (m.insert key value).find k = if k = key then some value else m.find k := by
  rw [find_insert, h]
  rfl

theorem mem_entries_iff {m : OrderedMap κ α} {key : κ} {value : α} :
    (key, value) ∈ m.entries ↔ m.find key = some value := by
  obtain ⟨entries, sorted⟩ := m
  unfold find
  simp only
  induction entries with
  | nil => exact iff_of_false List.not_mem_nil (by simp)
  | cons first rest ih =>
    obtain ⟨k, v⟩ := first
    obtain ⟨hfirst, hrest⟩ := List.pairwise_cons.mp sorted
    rw [lookup_cons, List.mem_cons, ih hrest]
    by_cases hk : key = k
    · subst hk
      rw [if_pos rfl, lookup_eq_none hfirst le_rfl]
      simp [eq_comm]
    · rw [if_neg hk]
      simp [hk]

/-- **A map is known by what is found in it.** -/
theorem ext_find {m m' : OrderedMap κ α} (h : ∀ key, m.find key = m'.find key) : m = m' := by
  have hnodup : ∀ m : OrderedMap κ α, m.entries.Nodup := fun m =>
    m.sorted.imp fun hlt heq => hlt.ne (congrArg Prod.fst heq)
  have hmem : ∀ entry, entry ∈ m.entries ↔ entry ∈ m'.entries := by
    rintro ⟨key, value⟩
    rw [mem_entries_iff, mem_entries_iff, h]
  have hperm := (List.perm_ext_iff_of_nodup (hnodup m) (hnodup m')).mpr hmem
  have hentries : m.entries = m'.entries :=
    hperm.eq_of_pairwise (fun a b _ _ hab hba => absurd hba hab.asymm) m.sorted m'.sorted
  cases m
  cases m'
  congr

end OrderedMap
