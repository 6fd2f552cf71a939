import LinkedPath.Session.Cache

/-!
# Compilers

A compiler belongs to one context and compiles every text once: after the first
time its cache has the selector, as `lookup_compile` says.
-/

namespace LinkedPath

/-- The names of a context and the selectors compiled with them. -/
structure Compiler where
  expander : Expander
  cache : QueryCache
  deriving DecidableEq, Repr, Inhabited

namespace Compiler

/-- The compiler of a context before the first text. -/
def ofContext (context : Context) : Compiler :=
  { expander := context.expander, cache := .empty }

/-- Compile a text, or take the selector that the cache has for it. -/
def compile (compiler : Compiler) (source : String) : Stored × Compiler :=
  match compiler.cache.get? source with
  | (some found, cache) => (found, { compiler with cache })
  | (none, cache) =>
      let (found, cache) := cache.insert source (Compiled.compile compiler.expander source)
      (found, { compiler with cache })

/-- Compiling does not change the names. -/
@[simp] theorem expander_compile (compiler : Compiler) (source : String) :
    (compiler.compile source).2.expander = compiler.expander := by
  unfold compile
  split <;> rfl

/-- After a text has been compiled, the cache has its selector. -/
theorem lookup_compile (compiler : Compiler) (source : String) :
    (compiler.compile source).2.cache.entries.lookup source =
      some (compiler.compile source).1 := by
  have hfound := QueryCache.get?_fst compiler.cache source
  have hentries := QueryCache.entries_get? compiler.cache source
  unfold compile
  split
  · rename_i found cache hget
    rw [hget] at hfound hentries
    simp only at hfound hentries ⊢
    rw [hentries, ← hfound]
  · simp only
    rw [QueryCache.lookup_insert, if_pos rfl]

/-- Forget all compiled selectors. -/
def clear (compiler : Compiler) : Compiler :=
  { compiler with cache := compiler.cache.clear }

end Compiler

end LinkedPath
