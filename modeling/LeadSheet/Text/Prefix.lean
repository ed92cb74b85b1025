/-!
# Prefixes

Taking a fixed word off the start of a text.  `after?_eq_some` says that
nothing is lost, and `after?_append` that a word before a text is always taken
off.  `takeWhile_append_stop` and `dropWhile_append_stop` say the same of a word
that ends where a property does.
-/

namespace LeadSheet.Text

/-- What follows a word that the text starts with. -/
def after? : List Char → List Char → Option (List Char)
  | [], cs => some cs
  | _ :: _, [] => none
  | w :: ws, c :: cs => if w = c then after? ws cs else none

@[simp] theorem after?_append (ws cs : List Char) : after? ws (ws ++ cs) = some cs := by
  induction ws with
  | nil => rfl
  | cons w ws ih => simpa [after?] using ih

theorem after?_eq_some {ws cs rest : List Char} : after? ws cs = some rest ↔ cs = ws ++ rest := by
  refine ⟨fun h => ?_, fun h => h ▸ after?_append ws rest⟩
  induction ws generalizing cs with
  | nil => simpa [after?] using h
  | cons w ws ih =>
    cases cs with
    | nil => simp [after?] at h
    | cons c cs =>
      by_cases hw : w = c
      · subst hw
        simp only [after?, if_true] at h
        rw [ih h, List.cons_append]
      · simp [after?, hw] at h

section

variable {α : Type} {p : α → Bool} {xs ys : List α}

theorem takeWhile_append_stop (hx : ∀ a ∈ xs, p a = true) (hy : ∀ a ∈ ys.head?, p a = false) :
    (xs ++ ys).takeWhile p = xs := by
  rw [List.takeWhile_append_of_pos hx]
  cases ys with
  | nil => rw [List.takeWhile_nil, List.append_nil]
  | cons y ys => rw [List.takeWhile_cons_of_neg (by simp [hy y rfl]), List.append_nil]

theorem dropWhile_append_stop (hx : ∀ a ∈ xs, p a = true) (hy : ∀ a ∈ ys.head?, p a = false) :
    (xs ++ ys).dropWhile p = ys := by
  rw [List.dropWhile_append_of_pos hx]
  cases ys with
  | nil => rfl
  | cons y ys => rw [List.dropWhile_cons_of_neg (by simp [hy y rfl])]

end

end LeadSheet.Text
