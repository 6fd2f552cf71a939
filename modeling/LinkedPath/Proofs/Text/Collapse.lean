import LinkedPath.Proofs.Text.Blank

/-!
# Runs of blanks

`collapse` writes one space for every run of blanks.  A run never goes on
across a character that is not blank (`collapse_append_cons`), so collapsing
can be done before or after a text is cut: at its blank ends (`trim_collapse`),
or at the first character that fails a test which does not tell blanks apart
(`takeWhile_collapse`, `dropWhile_collapse`).
-/

namespace LinkedPath.Text

/-- The text with one space for every run of blanks. -/
def collapse : List Char → List Char
  | [] => []
  | c :: rest => if isBlank c then ' ' :: collapse (trimStart rest) else c :: collapse rest
termination_by text => text.length
decreasing_by
  · exact Nat.lt_succ_of_le (trimStart_length_le rest)
  · exact Nat.lt_succ_self _

variable {c d : Char} {text : List Char}

@[simp] theorem collapse_nil : collapse [] = [] := by rw [collapse]

@[simp] theorem collapse_cons_of_blank (h : isBlank c = true) :
    collapse (c :: text) = ' ' :: collapse (trimStart text) := by
  rw [collapse, if_pos h]

@[simp] theorem collapse_cons_of_not_blank (h : isBlank c = false) :
    collapse (c :: text) = c :: collapse text := by
  rw [collapse, if_neg (by simp [h])]

/-- Of two blanks in a row the first one does not count. -/
theorem collapse_cons_cons (hc : isBlank c = true) (hd : isBlank d = true) :
    collapse (c :: d :: text) = collapse (d :: text) := by
  rw [collapse_cons_of_blank hc, trimStart_cons_of_blank hd, collapse_cons_of_blank hd]

theorem collapse_eq_nil_iff : collapse text = [] ↔ text = [] := by
  cases text with
  | nil => simp
  | cons c rest => cases hc : isBlank c <;> simp [hc]

theorem collapse_eq_self (h : ∀ c ∈ text, isBlank c = false) : collapse text = text := by
  induction text with
  | nil => exact collapse_nil
  | cons c rest ih =>
      obtain ⟨hc, hrest⟩ := List.forall_mem_cons.mp h
      rw [collapse_cons_of_not_blank hc, ih hrest]

theorem collapse_of_blank (h : ∀ c ∈ text, isBlank c = true) :
    ∀ c ∈ collapse text, isBlank c = true := by
  cases text with
  | nil => simp
  | cons c rest =>
      obtain ⟨hc, hrest⟩ := List.forall_mem_cons.mp h
      simp [hc, trimStart_eq_nil_iff.mpr hrest]

/-! ## Cutting a text -/

theorem trimStart_append_cons (front : List Char) (h : isBlank d = false) :
    trimStart (front ++ d :: text) = trimStart front ++ d :: text := by
  induction front with
  | nil => simp [h]
  | cons c front ih => cases hc : isBlank c <;> simp [hc, ih]

theorem collapse_append_cons (front : List Char) (h : isBlank d = false) :
    collapse (front ++ d :: text) = collapse front ++ d :: collapse text := by
  induction front using collapse.induct with
  | case1 => simp [h]
  | case2 c front hc ih => simp [hc, trimStart_append_cons front h, ih]
  | case3 c front hc ih =>
      have hplain : isBlank c = false := by simpa using hc
      simp [hplain, ih]

variable {test : Char → Bool}

theorem trimStart_takeWhile (htest : ∀ c, isBlank c = true → test c = true) (text : List Char) :
    trimStart (text.takeWhile test) = (trimStart text).takeWhile test := by
  induction text with
  | nil => rfl
  | cons c rest ih =>
      cases hc : isBlank c with
      | true => simp [hc, htest c hc, ih]
      | false => cases htestc : test c <;> simp [hc, htestc]

theorem dropWhile_trimStart (htest : ∀ c, isBlank c = true → test c = true) (text : List Char) :
    (trimStart text).dropWhile test = text.dropWhile test := by
  induction text with
  | nil => rfl
  | cons c rest ih =>
      cases hc : isBlank c with
      | true => simp [hc, htest c hc, ih]
      | false => simp [hc]

/-- A test that does not tell blanks apart takes a run of blanks as a whole. -/
theorem takeWhile_collapse (htest : ∀ c, isBlank c = true → test c = test ' ') (text : List Char) :
    (collapse text).takeWhile test = collapse (text.takeWhile test) := by
  induction text using collapse.induct with
  | case1 => simp
  | case2 c rest hc ih =>
      cases hspace : test ' ' with
      | true =>
          have hblank : ∀ d, isBlank d = true → test d = true := fun d hd =>
            (htest d hd).trans hspace
          simp [hc, hspace, hblank c hc, ih, trimStart_takeWhile hblank]
      | false => simp [hc, hspace, htest c hc]
  | case3 c rest hc ih =>
      have hplain : isBlank c = false := by simpa using hc
      cases htestc : test c <;> simp [hplain, htestc, ih]

theorem dropWhile_collapse (htest : ∀ c, isBlank c = true → test c = test ' ') (text : List Char) :
    (collapse text).dropWhile test = collapse (text.dropWhile test) := by
  induction text using collapse.induct with
  | case1 => simp
  | case2 c rest hc ih =>
      cases hspace : test ' ' with
      | true =>
          have hblank : ∀ d, isBlank d = true → test d = true := fun d hd =>
            (htest d hd).trans hspace
          simp [hc, hspace, hblank c hc, ih, dropWhile_trimStart hblank]
      | false => simp [hc, hspace, htest c hc]
  | case3 c rest hc ih =>
      have hplain : isBlank c = false := by simpa using hc
      cases htestc : test c <;> simp [hplain, htestc, ih]

theorem trimStart_collapse (text : List Char) :
    trimStart (collapse text) = collapse (trimStart text) :=
  dropWhile_collapse (fun c hc => by simp [hc]) text

/-- A text that is not blank has a last character that is not. -/
theorem blank_or_exists_last (text : List Char) :
    (∀ c ∈ text, isBlank c = true) ∨
      ∃ front d gap, isBlank d = false ∧ (∀ c ∈ gap, isBlank c = true) ∧
        text = front ++ d :: gap := by
  induction text with
  | nil => exact Or.inl (List.forall_mem_nil _)
  | cons c rest ih =>
      obtain hblank | ⟨front, d, gap, hd, hgap, rfl⟩ := ih
      · cases hc : isBlank c with
        | true => exact Or.inl (List.forall_mem_cons.mpr ⟨hc, hblank⟩)
        | false => exact Or.inr ⟨[], c, rest, hc, hblank, rfl⟩
      · exact Or.inr ⟨c :: front, d, gap, hd, hgap, rfl⟩

theorem trimEnd_collapse (text : List Char) :
    trimEnd (collapse text) = collapse (trimEnd text) := by
  obtain hblank | ⟨front, d, gap, hd, hgap, rfl⟩ := blank_or_exists_last text
  · rw [trimEnd_eq_nil_iff.mpr hblank, trimEnd_eq_nil_iff.mpr (collapse_of_blank hblank),
      collapse_nil]
  · rw [collapse_append_cons front hd, trimEnd_append_cons _ hd, trimEnd_append_cons _ hd,
      trimEnd_eq_nil_iff.mpr hgap, trimEnd_eq_nil_iff.mpr (collapse_of_blank hgap),
      collapse_append_cons front hd, collapse_nil]

/-- The ends can be trimmed before or after runs are collapsed. -/
theorem trim_collapse (text : List Char) : trim (collapse text) = collapse (trim text) := by
  rw [trim, trimStart_collapse, trimEnd_collapse, trim]

end LinkedPath.Text
