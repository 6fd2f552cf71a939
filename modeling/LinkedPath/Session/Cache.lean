import LinkedPath.Decimal.Binary
import LinkedPath.Decimal.Fixed
import LinkedPath.Keyed
import LinkedPath.Query.Compiled

/-!
# Query caches

A query cache keeps compiled selectors under their texts and counts how many
look-ups found one.  The first selector stored under a text stays until the
cache is cleared.  Every stored selector gets a serial number, which tells
apart selectors that are equal but were stored separately.  The main statement
is `lookup_insert`: an insertion decides what one text has and touches no other.
-/

namespace LinkedPath

/-- The look-ups that found something and those that did not. -/
structure Tally where
  hits : Nat
  misses : Nat
  deriving DecidableEq, Repr, Inhabited

namespace Tally

/-- No look-ups. -/
def zero : Tally := { hits := 0, misses := 0 }

/-- The share of hits in percent; 0 before the first look-up. -/
def hitRatio (tally : Tally) : Float :=
  let total := tally.hits + tally.misses
  if total = 0 then 0 else Float.ofNat tally.hits / Float.ofNat total * 100

/-- The wording of a tally: both counts, and the share with one decimal. -/
def text (tally : Tally) : String :=
  let (num, den) := (Decimal.Binary.ofFloat tally.hitRatio).fraction
  "hits: " ++ toString tally.hits ++ ", misses: " ++ toString tally.misses ++
    ", hit ratio: " ++ Decimal.fixed 1 num den ++ "%"

end Tally

/-- A compiled selector in a cache. -/
structure Stored where
  serial : Nat
  query : Compiled
  deriving DecidableEq, Repr

/-- Compiled selectors by text, the look-ups so far, and the number of
selectors stored so far. -/
structure QueryCache where
  entries : List (String × Stored)
  tally : Tally
  stored : Nat
  deriving DecidableEq, Repr

namespace QueryCache

/-- The cache without entries. -/
def empty : QueryCache := { entries := [], tally := .zero, stored := 0 }

instance : Inhabited QueryCache := ⟨empty⟩

/-- Look up a text and count the look-up. -/
def get? (cache : QueryCache) (text : String) : Option Stored × QueryCache :=
  match cache.entries.lookup text with
  | some found =>
      (some found, { cache with tally := { cache.tally with hits := cache.tally.hits + 1 } })
  | none =>
      (none, { cache with tally := { cache.tally with misses := cache.tally.misses + 1 } })

/-- Store a selector under a text unless the text has one; the selector that
the text has then. -/
def insert (cache : QueryCache) (text : String) (query : Compiled) : Stored × QueryCache :=
  match cache.entries.lookup text with
  | some found => (found, cache)
  | none =>
      let found := { serial := cache.stored, query }
      (found,
        { cache with
          entries := Keyed.put text found cache.entries
          stored := cache.stored + 1 })

/-- Forget all entries and look-ups. -/
def clear (cache : QueryCache) : QueryCache :=
  { cache with entries := [], tally := .zero }

@[simp] theorem get?_fst (cache : QueryCache) (text : String) :
    (cache.get? text).1 = cache.entries.lookup text := by
  unfold get?
  cases hfound : cache.entries.lookup text with
  | none => rfl
  | some found => rfl

@[simp] theorem entries_get? (cache : QueryCache) (text : String) :
    (cache.get? text).2.entries = cache.entries := by
  unfold get?
  split <;> rfl

/-- Every look-up is counted once. -/
theorem tally_get? (cache : QueryCache) (text : String) :
    (cache.get? text).2.tally.hits + (cache.get? text).2.tally.misses =
      cache.tally.hits + cache.tally.misses + 1 := by
  unfold get?
  split <;> simp only <;> omega

/-- After an insertion the text has the selector that the insertion handed
out, and every other text is as before. -/
theorem lookup_insert (cache : QueryCache) (text other : String) (query : Compiled) :
    (cache.insert text query).2.entries.lookup other =
      if other = text then some (cache.insert text query).1
      else cache.entries.lookup other := by
  unfold insert
  split
  · rename_i found hfound
    by_cases h : other = text
    · simp [h, hfound]
    · simp [h]
  · rw [Keyed.lookup_put]

/-- The number of entries. -/
def size (cache : QueryCache) : Nat := cache.entries.length

/-- There are no entries. -/
def isEmpty (cache : QueryCache) : Bool := cache.entries.isEmpty

end QueryCache

end LinkedPath
