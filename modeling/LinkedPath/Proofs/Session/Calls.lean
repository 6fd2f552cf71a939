import Mathlib.Data.List.Dedup
import LinkedPath.Proofs.Keyed
import LinkedPath.Proofs.Session.Upkeep

/-!
# What the cache of a compiler tells

A compiler is asked for selectors and is cleared now and then.  Since it was
last cleared, its cache has an entry for every text that was asked for, has
missed each of them once, and has counted every question (`Counted`).  The
serial numbers of its entries tell texts apart and are greater than all that
were given before it was cleared (`Numbered`).

A workspace reaches its compilers by many ways: handles of one factory share a
compiler, and so do the handles that come with their answers.  All that a
compiler notices of a run of uses are its own calls (`compiler_after`).
-/

namespace LinkedPath

namespace Compiler

/-! ## Calls -/

/-- What a compiler is called for. -/
inductive Call
  | ask (source : String)
  | clear
  deriving DecidableEq, Repr

/-- The compiler after a call. -/
def perform (compiler : Compiler) : Call → Compiler
  | .ask source => (compiler.compile source).2
  | .clear => compiler.clear

/-- The compiler after some calls. -/
def after (compiler : Compiler) (calls : List Call) : Compiler :=
  calls.foldl perform compiler

/-- One more call behind the texts that were asked for since the last
clearing. -/
def record (log : List String) : Call → List String
  | .ask source => log ++ [source]
  | .clear => []

/-- The texts that calls ask for since the last clearing, in order. -/
def asked (calls : List Call) : List String :=
  calls.foldl record []

variable {compiler : Compiler} {log : List String} {first : Nat}

theorem expander_perform (compiler : Compiler) (call : Call) :
    (compiler.perform call).expander = compiler.expander := by
  cases call with
  | ask source => exact expander_compile compiler source
  | clear => rfl

theorem expander_after (compiler : Compiler) (calls : List Call) :
    (compiler.after calls).expander = compiler.expander := by
  induction calls generalizing compiler with
  | nil => rfl
  | cons call calls ih => exact (ih (compiler.perform call)).trans (expander_perform compiler call)

theorem Faithful.perform (h : compiler.Faithful) (call : Call) :
    (compiler.perform call).Faithful := by
  cases call with
  | ask source => exact h.compile source
  | clear =>
      intro text found hfound
      contradiction

theorem Faithful.after (h : compiler.Faithful) (calls : List Call) :
    (compiler.after calls).Faithful := by
  induction calls generalizing compiler with
  | nil => exact h
  | cons call calls ih => exact ih (h.perform call)

/-! ## Counts -/

/-- The cache has one entry for every text of the log, has missed each of them
once, and has counted every question. -/
structure Counted (compiler : Compiler) (log : List String) : Prop where
  nodup : (Keyed.keys compiler.cache.entries).Nodup
  mem_keys_iff : ∀ text, text ∈ Keyed.keys compiler.cache.entries ↔ text ∈ log
  misses : compiler.cache.tally.misses = compiler.cache.size
  total : compiler.cache.tally.hits + compiler.cache.tally.misses = log.length

theorem counted_ofContext (context : Context) : (ofContext context).Counted [] where
  nodup := List.nodup_nil
  mem_keys_iff _ := Iff.rfl
  misses := rfl
  total := rfl

theorem Counted.perform (h : compiler.Counted log) (call : Call) :
    (compiler.perform call).Counted (record log call) := by
  obtain ⟨hnodup, hkeys, hmisses, htotal⟩ := h
  cases call with
  | clear => exact ⟨List.nodup_nil, fun _ => Iff.rfl, rfl, rfl⟩
  | ask source =>
      have hlog : (log ++ [source]).length = log.length + 1 := by simp
      show ((compiler.compile source).2).Counted (log ++ [source])
      obtain ⟨found, hfound, hcompile⟩ | ⟨found, hnone, -, -, hcompile⟩ :=
        compile_cases compiler source
      · -- The text is in the log already.
        have hsource : source ∈ log :=
          (hkeys source).mp (List.mem_map.mpr ⟨_, Keyed.mem_of_lookup_eq_some hfound, rfl⟩)
        rw [hcompile]
        refine ⟨hnodup, ?_, hmisses, ?_⟩
        · intro text
          rw [hkeys, List.mem_append, List.mem_singleton]
          constructor
          · exact Or.inl
          · intro hmem
            rcases hmem with hold | heq
            · exact hold
            · exact heq ▸ hsource
        · show compiler.cache.tally.hits + 1 + compiler.cache.tally.misses = _
          omega
      · have hkeysPut : Keyed.keys (Keyed.put source found compiler.cache.entries) =
            Keyed.keys compiler.cache.entries ++ [source] := by
          rw [Keyed.keys_put, if_neg (Keyed.not_mem_keys_of_lookup_eq_none hnone)]
        have hsize : (Keyed.put source found compiler.cache.entries).length =
            compiler.cache.size + 1 := by
          simpa [Keyed.keys, QueryCache.size] using congrArg List.length hkeysPut
        rw [hcompile]
        refine ⟨Keyed.nodup_keys_put _ _ hnodup, ?_, ?_, ?_⟩
        · intro text
          show text ∈ Keyed.keys (Keyed.put source found compiler.cache.entries) ↔ _
          rw [hkeysPut, List.mem_append, List.mem_append, hkeys]
        · show compiler.cache.tally.misses + 1 = _
          rw [hmisses]
          exact hsize.symm
        · show compiler.cache.tally.hits + (compiler.cache.tally.misses + 1) = _
          omega

theorem Counted.after (h : compiler.Counted log) (calls : List Call) :
    (compiler.after calls).Counted (calls.foldl record log) := by
  induction calls generalizing compiler log with
  | nil => exact h
  | cons call calls ih => exact ih (h.perform call)

/-- There are as many entries as different texts. -/
theorem Counted.size_eq (h : compiler.Counted log) :
    compiler.cache.size = log.dedup.length := by
  have hperm : (Keyed.keys compiler.cache.entries).Perm log.dedup := by
    rw [List.perm_ext_iff_of_nodup h.nodup log.nodup_dedup]
    intro text
    rw [h.mem_keys_iff, List.mem_dedup]
  have hlength := hperm.length_eq
  rw [Keyed.keys, List.length_map] at hlength
  exact hlength

/-! ## Serial numbers -/

/-- The serial numbers of the entries tell the texts apart; they begin at some
number and end before the next one to be given. -/
structure Numbered (compiler : Compiler) (first : Nat) : Prop where
  distinct : ∀ text other found found', compiler.cache.entries.lookup text = some found →
    compiler.cache.entries.lookup other = some found' → found.serial = found'.serial →
    text = other
  bounds : ∀ text found, compiler.cache.entries.lookup text = some found →
    first ≤ found.serial ∧ found.serial < compiler.cache.stored
  first_le : first ≤ compiler.cache.stored

theorem numbered_ofContext (context : Context) : (ofContext context).Numbered 0 where
  distinct _ _ _ _ hfound := by contradiction
  bounds _ _ hfound := by contradiction
  first_le := Nat.le_refl 0

/-- After a clearing all serial numbers are new. -/
theorem numbered_clear (compiler : Compiler) : compiler.clear.Numbered compiler.cache.stored where
  distinct _ _ _ _ hfound := by contradiction
  bounds _ _ hfound := by contradiction
  first_le := Nat.le_refl compiler.cache.stored

theorem Numbered.mono {fewer : Nat} (h : compiler.Numbered first) (hle : fewer ≤ first) :
    compiler.Numbered fewer where
  distinct := h.distinct
  bounds text found hfound := by
    have hbounds := h.bounds text found hfound
    omega
  first_le := Nat.le_trans hle h.first_le

theorem Numbered.compile (h : compiler.Numbered first) (source : String) :
    (compiler.compile source).2.Numbered first := by
  have hfirst := h.first_le
  obtain ⟨found, -, hcompile⟩ | ⟨new, hnone, hserial, -, hcompile⟩ := compile_cases compiler source
  · rw [hcompile]
    exact ⟨h.distinct, h.bounds, hfirst⟩
  · rw [hcompile]
    -- The new serial number is greater than all old ones.
    have hold : ∀ text found, compiler.cache.entries.lookup text = some found →
        found.serial ≠ new.serial := by
      intro text found hfound
      have hbounds := h.bounds text found hfound
      omega
    refine ⟨?_, ?_, Nat.le_succ_of_le hfirst⟩
    · intro text other found found' hfound hfound' hsame
      rw [Keyed.lookup_put] at hfound hfound'
      split at hfound
      · rename_i htext
        split at hfound'
        · rename_i hother
          rw [htext, hother]
        · cases hfound
          exact absurd hsame.symm (hold other found' hfound')
      · split at hfound'
        · cases hfound'
          exact absurd hsame (hold text found hfound)
        · exact h.distinct text other found found' hfound hfound' hsame
    · intro text found hfound
      rw [Keyed.lookup_put] at hfound
      show first ≤ found.serial ∧ found.serial < compiler.cache.stored + 1
      split at hfound
      · cases hfound
        omega
      · have hbounds := h.bounds text found hfound
        omega

theorem Numbered.after (h : compiler.Numbered first) (calls : List Call) :
    (compiler.after calls).Numbered first := by
  induction calls generalizing compiler with
  | nil => exact h
  | cons call calls ih =>
      cases call with
      | ask source => exact ih (h.compile source)
      | clear => exact ih ((numbered_clear compiler).mono h.first_le)

theorem stored_le_compile (compiler : Compiler) (source : String) :
    compiler.cache.stored ≤ (compiler.compile source).2.cache.stored := by
  obtain ⟨found, -, hcompile⟩ | ⟨new, -, -, -, hcompile⟩ := compile_cases compiler source
  · exact Nat.le_of_eq (by rw [hcompile])
  · rw [hcompile]
    exact Nat.le_succ _

/-- When a compiler has been cleared, its entries have serial numbers that it
had not given before. -/
theorem numbered_after_clear (compiler : Compiler) {calls : List Call} (h : .clear ∈ calls) :
    (compiler.after calls).Numbered compiler.cache.stored := by
  induction calls generalizing compiler with
  | nil => simp at h
  | cons call calls ih =>
      cases call with
      | clear => exact (numbered_clear compiler).after calls
      | ask source =>
          have hrest : .clear ∈ calls := by simpa using h
          exact (ih (compiler.compile source).2 hrest).mono (stored_le_compile compiler source)

theorem lookup_compile_of_eq_some {text : String} {found : Stored}
    (h : compiler.cache.entries.lookup text = some found) (source : String) :
    (compiler.compile source).2.cache.entries.lookup text = some found := by
  obtain ⟨other, -, hcompile⟩ | ⟨new, hnone, -, -, hcompile⟩ := compile_cases compiler source
  · rw [hcompile]
    exact h
  · have hne : text ≠ source := by
      intro heq
      rw [heq, hnone] at h
      contradiction
    rw [hcompile]
    show (Keyed.put source new compiler.cache.entries).lookup text = some found
    rw [Keyed.lookup_put, if_neg hne, h]

/-- An entry stays until the compiler is cleared. -/
theorem lookup_after {text : String} {found : Stored} {calls : List Call}
    (h : compiler.cache.entries.lookup text = some found) (hclear : .clear ∉ calls) :
    (compiler.after calls).cache.entries.lookup text = some found := by
  induction calls generalizing compiler with
  | nil => exact h
  | cons call calls ih =>
      cases call with
      | clear => simp at hclear
      | ask source =>
          have hrest : .clear ∉ calls := by simpa using hclear
          exact ih (lookup_compile_of_eq_some h source) hrest

/-- Two questions get the same stored selector exactly when they have the same
text and the compiler is not cleared between them. -/
theorem Numbered.serial_eq_iff (h : compiler.Numbered first) (source other : String)
    (calls : List Call) :
    (compiler.compile source).1.serial =
        (((compiler.compile source).2.after calls).compile other).1.serial ↔
      source = other ∧ .clear ∉ calls := by
  have hasked := h.compile source
  have hsource := lookup_compile compiler source
  have hother := lookup_compile ((compiler.compile source).2.after calls) other
  have hlast := (hasked.after calls).compile other
  by_cases hclear : .clear ∈ calls
  · -- What is found now was stored after the clearing.
    have hbefore := (hasked.bounds source _ hsource).2
    have hbehind := (((numbered_after_clear _ hclear).compile other).bounds other _ hother).1
    constructor
    · intro hsame
      omega
    · intro hsame
      exact absurd hclear hsame.2
  · have hkept : (((compiler.compile source).2.after calls).compile other).2.cache.entries.lookup
        source = some (compiler.compile source).1 :=
      lookup_compile_of_eq_some (lookup_after hsource hclear) other
    constructor
    · intro hsame
      exact ⟨hlast.distinct source other _ _ hkept hother hsame, hclear⟩
    · intro hsame
      obtain ⟨rfl, -⟩ := hsame
      rw [hkept, Option.some.injEq] at hother
      rw [hother]

end Compiler

end LinkedPath
