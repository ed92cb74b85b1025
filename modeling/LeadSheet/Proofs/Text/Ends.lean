import LeadSheet.Text.Space
import Mathlib.Data.List.TakeWhile

/-!
# Texts and their ends

Relations for what is done with the ends of texts, apart from how it is done: a
text without the blanks at its ends (`Text.Trimmed`), and a text with a line feed
at the end of every line (`Text.Unified`).

What is said of every character of a fixed text is decided by running through
the text.  Quantified over characters it could be decided in other ways, so
`forall_mem_of_all` and the lemmas beside it lead it back to `List.all`,
`Option.all` and `Option.any`.
-/

namespace LeadSheet

/-! ### Checking texts -/

variable {α : Type} {P : α → Prop} [DecidablePred P]

theorem forall_mem_of_all {as : List α} (h : (as.all fun a => decide (P a)) = true) :
    ∀ a ∈ as, P a :=
  fun a ha => of_decide_eq_true (List.all_eq_true.mp h a ha)

theorem forall_mem_option_of_all {o : Option α} (h : (o.all fun a => decide (P a)) = true) :
    ∀ a ∈ o, P a := by
  intro a ha
  rw [Option.mem_def.mp ha] at h
  exact of_decide_eq_true h

theorem exists_mem_option_of_any {o : Option α} (h : (o.any fun a => decide (P a)) = true) :
    ∃ a ∈ o, P a := by
  cases o with
  | none => cases h
  | some a => exact ⟨a, rfl, of_decide_eq_true h⟩

end LeadSheet

namespace LeadSheet.Text

/-! ### Blanks at the ends -/

/-- **A text with blanks around it**: it starts and ends with none itself. -/
structure Trimmed (cs name : List Char) : Prop where
  around : ∃ before after, cs = before ++ name ++ after
    ∧ (∀ c ∈ before, isBlank c = true) ∧ ∀ c ∈ after, isBlank c = true
  first : ∀ c ∈ name.head?, isBlank c = false
  last : ∀ c ∈ name.getLast?, isBlank c = false

theorem trimStart_of_head? {cs : List Char} (h : ∀ c ∈ cs.head?, isBlank c = false) :
    trimStart cs = cs := by
  cases cs with
  | nil => rfl
  | cons c cs => exact trimStart_eq_self (h c rfl)

theorem trimStart_append {before : List Char} (h : ∀ c ∈ before, isBlank c = true)
    (cs : List Char) : trimStart (before ++ cs) = trimStart cs :=
  List.dropWhile_append_of_pos h

theorem exists_eq_append_trimStart (cs : List Char) :
    ∃ before, cs = before ++ trimStart cs ∧ (∀ c ∈ before, isBlank c = true)
      ∧ ∀ c ∈ (trimStart cs).head?, isBlank c = false := by
  refine ⟨cs.takeWhile isBlank, List.takeWhile_append_dropWhile.symm,
    fun c hc => List.mem_takeWhile_imp hc, fun c hc => ?_⟩
  have hhead := List.head?_dropWhile_not isBlank cs
  rw [show (cs.dropWhile isBlank).head? = some c from hc] at hhead
  simpa using hhead

theorem Trimmed.eq_trim {cs name : List Char} (h : Trimmed cs name) : trim cs = name := by
  obtain ⟨before, after, rfl, hbefore, hafter⟩ := h.around
  have hafter' : ∀ c ∈ after.reverse, isBlank c = true := fun c hc =>
    hafter c (List.mem_reverse.mp hc)
  have hend : trimEnd (name ++ after) = name := by
    rw [trimEnd, List.reverse_append, trimStart_append hafter', trimStart_of_head?, List.reverse_reverse]
    rw [List.head?_reverse]
    exact h.last
  rw [trim, List.append_assoc, trimStart_append hbefore]
  cases name with
  | nil =>
    have hnil : trimStart after = [] := by
      rw [← List.append_nil after, trimStart_append hafter]
      rfl
    rw [List.nil_append, hnil]
    rfl
  | cons c cs =>
    rw [trimStart_of_head? (show ∀ d ∈ (c :: cs ++ after).head?, isBlank d = false from h.first)]
    exact hend

theorem trimmed_trim (cs : List Char) : Trimmed cs (trim cs) := by
  obtain ⟨before, hbefore, hblank, hfirst⟩ := exists_eq_append_trimStart cs
  obtain ⟨after, hafter, hblank', hlast⟩ := exists_eq_append_trimStart (trimStart cs).reverse
  have hsplit : trimStart cs = trim cs ++ after.reverse := by
    rw [trim, trimEnd, ← List.reverse_append, ← hafter, List.reverse_reverse]
  refine ⟨⟨before, after.reverse, ?_, hblank, fun c hc => hblank' c (List.mem_reverse.mp hc)⟩, ?_, ?_⟩
  · rw [List.append_assoc, ← hsplit, ← hbefore]
  · intro c hc
    refine hfirst c ?_
    rw [hsplit, List.head?_append, hc]
    rfl
  · rw [trim, trimEnd, List.getLast?_reverse]
    exact hlast

/-- **Taking off the blanks at both ends** leaves the text that they are around. -/
theorem trim_eq_iff {cs name : List Char} : trim cs = name ↔ Trimmed cs name :=
  ⟨fun h => h ▸ trimmed_trim cs, Trimmed.eq_trim⟩

/-! ### Ends of lines -/

/-- **A text with a line feed at the end of every line**, whichever of the three ends
it had there. -/
inductive Unified : List Char → List Char → Prop
  | nil : Unified [] []
  | both {cs ds : List Char} : Unified cs ds → Unified ('\r' :: '\n' :: cs) ('\n' :: ds)
  | carriage {cs ds : List Char} : cs.head? ≠ some '\n' → Unified cs ds →
      Unified ('\r' :: cs) ('\n' :: ds)
  | other {c : Char} {cs ds : List Char} : c ≠ '\r' → Unified cs ds → Unified (c :: cs) (c :: ds)

theorem unified_unifyLineEnds (cs : List Char) : Unified cs (unifyLineEnds cs) := by
  fun_induction unifyLineEnds cs with
  | case1 => exact .nil
  | case2 cs ih => exact .both ih
  | case3 c cs hboth ih =>
    split
    · rename_i hc
      subst hc
      refine .carriage (fun hhead => ?_) ih
      cases cs with
      | nil => cases hhead
      | cons d cs =>
        obtain rfl := Option.some.inj hhead
        exact hboth cs rfl rfl
    · rename_i hc
      exact .other hc ih

theorem Unified.eq_unifyLineEnds {cs ds : List Char} (h : Unified cs ds) :
    unifyLineEnds cs = ds := by
  induction h with
  | nil => rfl
  | both _ ih => rw [unifyLineEnds, ih]
  | carriage hhead _ ih =>
    rw [unifyLineEnds, if_pos rfl, ih]
    exact fun cs' _ heq => hhead (heq ▸ rfl)
  | other hc _ ih =>
    rw [unifyLineEnds, if_neg hc, ih]
    exact fun cs' heq => absurd heq hc

/-- **The line ends of a text are unified** in one way. -/
theorem unifyLineEnds_eq_iff {cs ds : List Char} : unifyLineEnds cs = ds ↔ Unified cs ds :=
  ⟨fun h => h ▸ unified_unifyLineEnds cs, Unified.eq_unifyLineEnds⟩

end LeadSheet.Text
