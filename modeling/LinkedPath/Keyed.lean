/-!
# Keyed lists

Pairs of a key and a value in the order in which the keys first appeared.  A
key that is put again keeps its place and takes the new value.  Objects of a
document, the aliases of a context and the names of a session are all such
lists.  The core function `List.lookup` reads them; the lemmas say what
`put` does to a look-up and to the list of keys.
-/

namespace LinkedPath.Keyed

variable {α : Type}

/-- Set the value of a key, in place when the key is present and at the end
otherwise. -/
def put (key : String) (value : α) : List (String × α) → List (String × α)
  | [] => [(key, value)]
  | (k, v) :: rest =>
      if k = key then (key, value) :: rest else (k, v) :: put key value rest

/-- The list without the entries of a key. -/
def erase (key : String) (entries : List (String × α)) : List (String × α) :=
  entries.filter fun entry => entry.1 != key

/-- The keys, in order of first appearance. -/
def keys (entries : List (String × α)) : List String :=
  entries.map Prod.fst

@[simp] theorem keys_nil : keys ([] : List (String × α)) = [] := rfl

@[simp] theorem keys_cons (entry : String × α) (rest : List (String × α)) :
    keys (entry :: rest) = entry.1 :: keys rest := rfl

/-- Putting a key adds it to the keys exactly when it is new. -/
theorem keys_put (key : String) (value : α) (entries : List (String × α)) :
    keys (put key value entries) =
      if key ∈ keys entries then keys entries else keys entries ++ [key] := by
  induction entries with
  | nil => simp [put]
  | cons entry rest ih =>
      obtain ⟨k, v⟩ := entry
      by_cases hk : k = key
      · simp [put, hk]
      · have hk' : key ≠ k := fun h => hk h.symm
        by_cases hmem : key ∈ keys rest <;> simp [put, hk, hk', ih, hmem]

theorem nodup_keys_put (key : String) (value : α) {entries : List (String × α)}
    (h : (keys entries).Nodup) : (keys (put key value entries)).Nodup := by
  rw [keys_put]
  split
  · exact h
  · rename_i hnew
    rw [List.nodup_append]
    refine ⟨h, by simp, ?_⟩
    intro a ha b hb
    simp only [List.mem_singleton] at hb
    subst hb
    rintro rfl
    exact hnew ha

/-- A look-up finds the first entry when the key is its key and looks on
otherwise. -/
theorem lookup_cons_ite (key k : String) (v : α) (rest : List (String × α)) :
    ((k, v) :: rest).lookup key = if key = k then some v else rest.lookup key := by
  by_cases h : key = k
  · simp [h]
  · have hbeq : (key == k) = false := by simp [h]
    simp [List.lookup_cons, hbeq, h]

/-- A look-up after a put finds the new value under the key and the old one
elsewhere. -/
theorem lookup_put (key other : String) (value : α) (entries : List (String × α)) :
    (put key value entries).lookup other =
      if other = key then some value else entries.lookup other := by
  induction entries with
  | nil => rw [put, lookup_cons_ite]
  | cons entry rest ih =>
      obtain ⟨k, v⟩ := entry
      by_cases hk : k = key
      · subst hk
        simp only [put, if_true, lookup_cons_ite]
        by_cases h : other = k <;> simp [h]
      · simp only [put, hk, if_false, lookup_cons_ite, ih]
        by_cases ho : other = k
        · subst ho
          simp [hk]
        · simp [ho]

/-- After an erasure the key is gone and every other key is as before. -/
theorem lookup_erase (key other : String) (entries : List (String × α)) :
    (erase key entries).lookup other =
      if other = key then none else entries.lookup other := by
  induction entries with
  | nil => simp [erase]
  | cons entry rest ih =>
      obtain ⟨k, v⟩ := entry
      unfold erase at ih ⊢
      by_cases hk : k = key
      · subst hk
        by_cases h : other = k <;> simpa [lookup_cons_ite, h] using ih
      · by_cases ho : other = k
        · subst ho
          simp [hk]
        · simpa [hk, lookup_cons_ite, ho] using ih

theorem mem_of_lookup_eq_some {key : String} {value : α} {entries : List (String × α)}
    (h : entries.lookup key = some value) : (key, value) ∈ entries := by
  induction entries with
  | nil => simp at h
  | cons entry rest ih =>
      obtain ⟨k, v⟩ := entry
      rw [lookup_cons_ite] at h
      split at h
      · rename_i hk
        cases h
        simp [hk]
      · exact List.mem_cons_of_mem _ (ih h)

end LinkedPath.Keyed
