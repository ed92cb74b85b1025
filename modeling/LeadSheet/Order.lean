/-!
# Putting a list in order

`inOrder` puts the members of a list in the order of a relation `before` and
leaves those as they are that it does not tell apart.  `perm_inOrder` says that
nothing is lost, `pairwise_inOrder` that the result is in order, and
`filter_inOrder` that a part of the list is put in order with the whole.  A list
that is in order stays as it is (`inOrder_eq_self`).
-/

namespace LeadSheet

variable {α : Type} (before : α → α → Bool)

/-- Puts a value behind the members of a list that come before it. -/
def insertInOrder (a : α) : List α → List α
  | [] => [a]
  | b :: bs => if before b a then b :: insertInOrder a bs else a :: b :: bs

def inOrder (as : List α) : List α :=
  as.foldr (insertInOrder before) []

theorem perm_insertInOrder (a : α) (as : List α) : (insertInOrder before a as).Perm (a :: as) := by
  induction as with
  | nil => exact .refl _
  | cons b bs ih =>
    rw [insertInOrder]
    split
    · exact (ih.cons b).trans (.swap a b bs)
    · exact .refl _

theorem perm_inOrder (as : List α) : (inOrder before as).Perm as := by
  induction as with
  | nil => exact .refl _
  | cons a as ih => exact (perm_insertInOrder before a _).trans (ih.cons a)

variable {before}

theorem pairwise_insertInOrder (htrans : ∀ a b c, ¬ before b a → ¬ before c b → ¬ before c a)
    (hasymm : ∀ a b, before a b → ¬ before b a) {a : α} {as : List α}
    (h : as.Pairwise fun x y => ¬ before y x) :
    (insertInOrder before a as).Pairwise fun x y => ¬ before y x := by
  induction as with
  | nil => simp [insertInOrder]
  | cons b bs ih =>
    have hb := List.pairwise_cons.mp h
    rw [insertInOrder]
    split
    · rename_i hba
      refine List.pairwise_cons.mpr ⟨fun c hc => ?_, ih hb.2⟩
      rcases List.mem_cons.mp ((perm_insertInOrder before a bs).mem_iff.mp hc) with rfl | hc
      · exact hasymm _ _ hba
      · exact hb.1 c hc
    · rename_i hba
      refine List.pairwise_cons.mpr ⟨fun c hc => ?_, h⟩
      rcases List.mem_cons.mp hc with rfl | hc
      · exact hba
      · exact htrans _ _ _ hba (hb.1 c hc)

theorem pairwise_inOrder (htrans : ∀ a b c, ¬ before b a → ¬ before c b → ¬ before c a)
    (hasymm : ∀ a b, before a b → ¬ before b a) (as : List α) :
    (inOrder before as).Pairwise fun x y => ¬ before y x := by
  induction as with
  | nil => simp [inOrder]
  | cons a as ih => exact pairwise_insertInOrder htrans hasymm ih

theorem insertInOrder_eq_cons {a : α} {as : List α} (h : ∀ b ∈ as, ¬ before b a) :
    insertInOrder before a as = a :: as := by
  cases as with
  | nil => rfl
  | cons b bs => rw [insertInOrder, if_neg (h b (List.mem_cons_self ..))]

/-- **A list that is in order stays as it is.** -/
theorem inOrder_eq_self {as : List α} (h : as.Pairwise fun x y => ¬ before y x) :
    inOrder before as = as := by
  induction as with
  | nil => rfl
  | cons a as ih =>
    obtain ⟨ha, has⟩ := List.pairwise_cons.mp h
    show insertInOrder before a (inOrder before as) = a :: as
    rw [ih has, insertInOrder_eq_cons ha]

theorem filter_insertInOrder (htrans : ∀ a b c, ¬ before b a → ¬ before c b → ¬ before c a)
    (P : α → Bool) (a : α) {as : List α} (h : as.Pairwise fun x y => ¬ before y x) :
    (insertInOrder before a as).filter P
      = if P a then insertInOrder before a (as.filter P) else as.filter P := by
  induction as with
  | nil => cases ha : P a <;> simp [insertInOrder, ha]
  | cons b bs ih =>
    obtain ⟨hb, hbs⟩ := List.pairwise_cons.mp h
    by_cases hba : before b a
    · rw [insertInOrder, if_pos hba, List.filter_cons, ih hbs]
      cases hP : P b <;> cases ha : P a <;> simp [insertInOrder, hP, hba]
    · -- nothing that is kept of the rest comes before the value
      have hfirst : ∀ c ∈ (b :: bs).filter P, ¬ before c a := by
        intro c hc
        rcases List.mem_cons.mp (List.mem_filter.mp hc).1 with rfl | hc
        · exact hba
        · exact htrans _ _ _ hba (hb c hc)
      rw [insertInOrder, if_neg hba, insertInOrder_eq_cons hfirst, List.filter_cons]

/-- **A part of a list is put in order with the whole.** -/
theorem filter_inOrder (htrans : ∀ a b c, ¬ before b a → ¬ before c b → ¬ before c a)
    (hasymm : ∀ a b, before a b → ¬ before b a) (P : α → Bool) (as : List α) :
    (inOrder before as).filter P = inOrder before (as.filter P) := by
  induction as with
  | nil => rfl
  | cons a as ih =>
    show (insertInOrder before a (inOrder before as)).filter P = _
    rw [filter_insertInOrder htrans P a (pairwise_inOrder htrans hasymm as), ih, List.filter_cons]
    cases P a <;> rfl

end LeadSheet
