import Mathlib.Data.List.Basic
import LinkedPath.Keyed

/-!
# Keyed lists, continued

With distinct keys a look-up finds every entry, and what `put` leaves in a list
is old or new.  Changing all values by a function commutes with looking up,
putting and erasing.
-/

namespace LinkedPath.Keyed

variable {α β : Type}

theorem lookup_of_mem {key : String} {value : α} {entries : List (String × α)}
    (hnodup : (keys entries).Nodup) (h : (key, value) ∈ entries) :
    entries.lookup key = some value := by
  induction entries with
  | nil => simp at h
  | cons entry rest ih =>
      obtain ⟨k, v⟩ := entry
      rw [keys_cons, List.nodup_cons] at hnodup
      rw [lookup_cons_ite]
      rcases List.mem_cons.mp h with heq | hrest
      · cases heq
        rw [if_pos rfl]
      · have hne : key ≠ k := by
          rintro rfl
          exact hnodup.1 (List.mem_map.mpr ⟨(key, value), hrest, rfl⟩)
        rw [if_neg hne]
        exact ih hnodup.2 hrest

/-- With distinct keys the order of the entries makes no difference. -/
theorem lookup_perm {key : String} {entries others : List (String × α)} (h : entries.Perm others)
    (hnodup : (keys entries).Nodup) : entries.lookup key = others.lookup key := by
  have hnodup' : (keys others).Nodup := (h.map Prod.fst).nodup_iff.mp hnodup
  apply Option.ext
  intro value
  constructor
  · intro hlookup
    exact lookup_of_mem hnodup' (h.mem_iff.mp (mem_of_lookup_eq_some hlookup))
  · intro hlookup
    exact lookup_of_mem hnodup (h.mem_iff.mpr (mem_of_lookup_eq_some hlookup))

theorem lookup_eq_none_of_not_mem {key : String} {entries : List (String × α)}
    (h : key ∉ keys entries) : entries.lookup key = none := by
  rw [Option.eq_none_iff_forall_ne_some]
  intro value hlookup
  exact h (List.mem_map_of_mem (mem_of_lookup_eq_some hlookup))

theorem not_mem_keys_of_lookup_eq_none {key : String} {entries : List (String × α)}
    (h : entries.lookup key = none) : key ∉ keys entries := by
  intro hmem
  obtain ⟨entry, hentry, hkey⟩ := List.mem_map.mp hmem
  have hne := List.lookup_eq_none_iff.mp h entry hentry
  simp [hkey] at hne

/-- A new key is put at the end. -/
theorem put_of_not_mem {name : String} (value : α) {entries : List (String × α)}
    (h : name ∉ keys entries) : put name value entries = entries ++ [(name, value)] := by
  induction entries with
  | nil => rfl
  | cons entry rest ih =>
      obtain ⟨k, v⟩ := entry
      rw [keys_cons, List.mem_cons, not_or] at h
      rw [put, if_neg (Ne.symm h.1), ih h.2, List.cons_append]

theorem mem_of_mem_put {name : String} {value : α} {entries : List (String × α)}
    {entry : String × α} (h : entry ∈ put name value entries) :
    entry.2 = value ∨ entry ∈ entries := by
  induction entries with
  | nil =>
      left
      rw [List.mem_singleton.mp h]
  | cons first rest ih =>
      obtain ⟨k, v⟩ := first
      rw [put] at h
      split at h
      · rcases List.mem_cons.mp h with rfl | hrest
        · exact Or.inl rfl
        · exact Or.inr (List.mem_cons_of_mem _ hrest)
      · rcases List.mem_cons.mp h with rfl | hrest
        · exact Or.inr List.mem_cons_self
        · rcases ih hrest with hvalue | hmem
          · exact Or.inl hvalue
          · exact Or.inr (List.mem_cons_of_mem _ hmem)

/-- Putting a key that is there changes no property of the entries that the two
values of the key share. -/
theorem exists_mem_put_iff {key : String} {old new : α}
    {entries : List (String × α)} {property : String × α → Prop}
    (hold : entries.lookup key = some old) (h : property (key, new) ↔ property (key, old)) :
    (∃ entry ∈ put key new entries, property entry) ↔ ∃ entry ∈ entries, property entry := by
  induction entries with
  | nil => contradiction
  | cons entry rest ih =>
      obtain ⟨k, v⟩ := entry
      rw [lookup_cons_ite] at hold
      by_cases hkey : k = key
      · subst hkey
        rw [if_pos rfl, Option.some.injEq] at hold
        subst hold
        simp only [put, if_true, List.exists_mem_cons_iff, h]
      · rw [if_neg fun heq => hkey heq.symm] at hold
        simp only [put, hkey, if_false, List.exists_mem_cons_iff, ih hold]

/-- Put entries one after the other. -/
def putAll (named entries : List (String × α)) : List (String × α) :=
  named.foldl (fun entries entry => put entry.1 entry.2 entries) entries

/-! ## Changing all values -/

variable (f : α → β)

theorem lookup_map (name : String) (entries : List (String × α)) :
    (entries.map (Prod.map id f)).lookup name = (entries.lookup name).map f := by
  induction entries with
  | nil => rfl
  | cons entry rest ih =>
      obtain ⟨k, v⟩ := entry
      show ((k, f v) :: rest.map (Prod.map id f)).lookup name = _
      rw [lookup_cons_ite, lookup_cons_ite, ih]
      split <;> rfl

/-- Looking up a name that no other key is renamed to. -/
theorem lookup_rename {rename : String → String} {name : String} {entries : List (String × α)}
    (f : String → α → β) (h : ∀ key ∈ keys entries, rename key = name ↔ key = name) :
    (entries.map fun entry => (rename entry.1, f entry.1 entry.2)).lookup name =
      (entries.lookup name).map (f name) := by
  induction entries with
  | nil => rfl
  | cons entry rest ih =>
      obtain ⟨k, v⟩ := entry
      rw [keys_cons, List.forall_mem_cons] at h
      rw [List.map_cons, lookup_cons_ite, lookup_cons_ite, ih h.2]
      by_cases hk : name = k
      · subst hk
        rw [if_pos (h.1.mpr rfl).symm, if_pos rfl, Option.map_some]
      · have hne : name ≠ rename k := fun heq => hk (h.1.mp heq.symm).symm
        rw [if_neg hne, if_neg hk]

theorem map_put (name : String) (value : α) (entries : List (String × α)) :
    (put name value entries).map (Prod.map id f) =
      put name (f value) (entries.map (Prod.map id f)) := by
  induction entries with
  | nil => rfl
  | cons entry rest ih =>
      obtain ⟨k, v⟩ := entry
      by_cases hk : k = name
      · simp [put, hk]
      · simp [put, hk, ih]

theorem map_putAll (named entries : List (String × α)) :
    (putAll named entries).map (Prod.map id f) =
      putAll (named.map (Prod.map id f)) (entries.map (Prod.map id f)) := by
  induction named generalizing entries with
  | nil => rfl
  | cons entry rest ih =>
      show (putAll rest (put entry.1 entry.2 entries)).map (Prod.map id f) = _
      rw [ih, map_put]
      rfl

theorem map_erase (name : String) (entries : List (String × α)) :
    (erase name entries).map (Prod.map id f) = erase name (entries.map (Prod.map id f)) := by
  rw [erase, erase, List.filter_map]
  rfl

end LinkedPath.Keyed
