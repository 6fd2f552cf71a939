import Mathlib.Data.List.DropRight
import LinkedPath.Text.Blank

/-!
# Trimming

Trimming looks at blanks only, so it stops at the first character of its end
that is not blank: whatever stands in front of such a character stays when the
end is trimmed (`trimEnd_append_cons`), and the two ends can be trimmed in
either order (`trimStart_trimEnd`).
-/

namespace LinkedPath.Text

variable {c : Char} {text : List Char}

@[simp] theorem trimStart_cons_of_blank (h : isBlank c = true) :
    trimStart (c :: text) = trimStart text := by
  simp [trimStart, h]

@[simp] theorem trimStart_cons_of_not_blank (h : isBlank c = false) :
    trimStart (c :: text) = c :: text := by
  simp [trimStart, h]

theorem trimStart_append_of_blank {gap : List Char} (h : ∀ d ∈ gap, isBlank d = true) :
    trimStart (gap ++ text) = trimStart text := by
  induction gap with
  | nil => rfl
  | cons d gap ih =>
      have hd : isBlank d = true := h d (by simp)
      have hgap : ∀ e ∈ gap, isBlank e = true := fun e he => h e (by simp [he])
      show trimStart (d :: (gap ++ text)) = trimStart text
      rw [trimStart_cons_of_blank hd, ih hgap]

/-- A text that has characters left when its start is trimmed has blanks and
then a character that is not blank. -/
theorem exists_of_trimStart_eq_cons {rest : List Char} (h : trimStart text = c :: rest) :
    isBlank c = false ∧ ∃ gap, (∀ d ∈ gap, isBlank d = true) ∧ text = gap ++ c :: rest := by
  induction text with
  | nil => simp at h
  | cons d text ih =>
      cases hd : isBlank d with
      | false =>
          rw [trimStart_cons_of_not_blank hd] at h
          obtain ⟨rfl, rfl⟩ := List.cons.inj h
          exact ⟨hd, [], by simp, rfl⟩
      | true =>
          rw [trimStart_cons_of_blank hd] at h
          obtain ⟨hc, gap, hgap, rfl⟩ := ih h
          exact ⟨hc, d :: gap, by simpa [hd] using hgap, rfl⟩

theorem trimStart_eq_nil_iff : trimStart text = [] ↔ ∀ d ∈ text, isBlank d = true := by
  simp [trimStart, List.dropWhile_eq_nil_iff]

/-- Trimming the end is the library's `rdropWhile`. -/
theorem trimEnd_eq_rdropWhile (text : List Char) : trimEnd text = text.rdropWhile isBlank := rfl

/-- A character that is not blank protects all that stands in front of it. -/
theorem trimEnd_append_cons (front : List Char) (h : isBlank c = false) :
    trimEnd (front ++ c :: text) = front ++ c :: trimEnd text := by
  have hstop : (c :: front.reverse).dropWhile isBlank = c :: front.reverse := by simp [h]
  have hreverse : (front ++ c :: text).reverse = text.reverse ++ c :: front.reverse := by simp
  rw [trimEnd, hreverse, List.dropWhile_append, hstop]
  split
  · rename_i hnil
    have htext : trimEnd text = [] := by simpa [trimEnd] using hnil
    simp [htext]
  · simp [trimEnd]

theorem trimEnd_cons_of_not_blank (h : isBlank c = false) :
    trimEnd (c :: text) = c :: trimEnd text :=
  trimEnd_append_cons [] h

theorem trimEnd_eq_nil_iff : trimEnd text = [] ↔ ∀ d ∈ text, isBlank d = true := by
  rw [trimEnd_eq_rdropWhile, List.rdropWhile_eq_nil_iff]

theorem trimEnd_isPrefix (text : List Char) : trimEnd text <+: text := by
  rw [trimEnd_eq_rdropWhile]
  exact List.rdropWhile_prefix isBlank text

/-- The two ends can be trimmed in either order. -/
theorem trimStart_trimEnd (text : List Char) : trimStart (trimEnd text) = trim text := by
  cases hstart : trimStart text with
  | nil =>
      have hblank := trimStart_eq_nil_iff.mp hstart
      simp [trim, hstart, trimEnd_eq_nil_iff.mpr hblank]
  | cons c rest =>
      obtain ⟨hc, gap, hgap, rfl⟩ := exists_of_trimStart_eq_cons hstart
      rw [trim, hstart, trimEnd_append_cons gap hc, trimStart_append_of_blank hgap,
        trimStart_cons_of_not_blank hc, trimEnd_cons_of_not_blank hc]

theorem trim_eq_nil_iff : trim text = [] ↔ ∀ d ∈ text, isBlank d = true := by
  rw [← trimStart_eq_nil_iff, trim]
  cases hstart : trimStart text with
  | nil => simp
  | cons c rest =>
      obtain ⟨hc, -⟩ := exists_of_trimStart_eq_cons hstart
      simp [trimEnd_cons_of_not_blank hc]

theorem isBlank_of_head?_trimStart (h : (trimStart text).head? = some c) : isBlank c = false := by
  obtain ⟨rest, hstart⟩ := List.head?_eq_some_iff.mp h
  exact (exists_of_trimStart_eq_cons hstart).1

theorem trimStart_eq_self (h : ∀ d, text.head? = some d → isBlank d = false) :
    trimStart text = text := by
  cases text with
  | nil => rfl
  | cons d rest => exact trimStart_cons_of_not_blank (h d rfl)

/-- What is trimmed off the start are blanks. -/
theorem exists_append_trimStart (text : List Char) :
    ∃ gap, (∀ d ∈ gap, isBlank d = true) ∧ text = gap ++ trimStart text :=
  ⟨text.takeWhile isBlank, fun _ hd => List.mem_takeWhile_imp hd,
    List.takeWhile_append_dropWhile.symm⟩

/-- What is trimmed off the end are blanks. -/
theorem exists_append_trimEnd (text : List Char) :
    ∃ gap, (∀ d ∈ gap, isBlank d = true) ∧ text = trimEnd text ++ gap :=
  ⟨text.rtakeWhile isBlank, fun _ hd => List.mem_rtakeWhile_imp hd,
    List.rdropWhile_append_rtakeWhile.symm⟩

theorem trim_length_le (text : List Char) : (trim text).length ≤ text.length :=
  (trimEnd_length_le _).trans (trimStart_length_le text)

theorem mem_of_mem_trim (h : c ∈ trim text) : c ∈ text :=
  (List.dropWhile_suffix isBlank).mem ((trimEnd_isPrefix _).mem h)

theorem trimStart_trim (text : List Char) : trimStart (trim text) = trim text := by
  rw [← trimStart_trimEnd]
  exact List.dropWhile_idempotent isBlank _

theorem trim_trim (text : List Char) : trim (trim text) = trim text := by
  have hend : trimEnd (trim text) = trim text := List.rdropWhile_idempotent isBlank _
  rw [trim, trimStart_trim, hend]

theorem trim_cons_of_blank (h : isBlank c = true) : trim (c :: text) = trim text := by
  rw [trim, trimStart_cons_of_blank h, trim]

theorem trim_eq_self (h : ∀ d ∈ text, isBlank d = false) : trim text = text := by
  have hstart : trimStart text = text :=
    trimStart_eq_self fun d hd => h d (List.mem_of_head? hd)
  rw [trim, hstart, trimEnd_eq_rdropWhile, List.rdropWhile_eq_self_iff]
  intro hne
  simp [h _ (List.getLast_mem hne)]

/-! ## What is not blank -/

/-- The text without its blanks. -/
def visible (text : List Char) : List Char :=
  text.filter fun c => !isBlank c

@[simp] theorem visible_append (front text : List Char) :
    visible (front ++ text) = visible front ++ visible text :=
  List.filter_append ..

@[simp] theorem visible_cons_of_not_blank (h : isBlank c = false) :
    visible (c :: text) = c :: visible text := by
  simp [visible, h]

theorem visible_eq_nil_iff : visible text = [] ↔ ∀ d ∈ text, isBlank d = true := by
  simp [visible]

theorem visible_trimStart (text : List Char) : visible (trimStart text) = visible text := by
  obtain ⟨gap, hgap, happend⟩ := exists_append_trimStart text
  conv_rhs => rw [happend, visible_append, visible_eq_nil_iff.mpr hgap, List.nil_append]

theorem visible_trimEnd (text : List Char) : visible (trimEnd text) = visible text := by
  have h := visible_trimStart text.reverse
  simpa [visible, trimEnd, trimStart, List.filter_reverse] using congrArg List.reverse h

@[simp] theorem visible_trim (text : List Char) : visible (trim text) = visible text := by
  rw [trim, visible_trimEnd, visible_trimStart]

end LinkedPath.Text
