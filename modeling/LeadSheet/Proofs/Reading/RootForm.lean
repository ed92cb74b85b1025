import LeadSheet.Proofs.Reading.Fault
import LeadSheet.Proofs.Writing.Root

/-!
# The forms of roots

What may stand at a place of a chord symbol is a form: the texts that are
allowed there, each with what it says.  Forms are told apart from the readers,
which are shown to take just them.

A root is a capital letter with an accidental, or an accidental and a numeral
(`Root.Form`).  The reader takes the longest one that a text starts with
(`Root.take_eq_some_iff`), so no root is ever cut short, and there is only one
longest one (`Root.Longest.eq`).
-/

namespace LeadSheet

open Text

/-! ### Words in an order -/

theorem after?_eq_none_of_head {ws cs : List Char} (hw : ws ≠ []) (h : ws.head? ≠ cs.head?) :
    after? ws cs = none := by
  cases ws with
  | nil => exact absurd rfl hw
  | cons w ws =>
    cases cs with
    | nil => rfl
    | cons c cs =>
      rw [after?, if_neg fun he => h (congrArg some he)]

/-- If no word stands in front of a longer one that starts with it, the word
that is found first is the longest. -/
theorem exists_findSome?_after? {α : Type} (word : α → List Char) {w : α} (zs : List Char) :
    ∀ {ws : List α},
      (ws.Pairwise fun u v => word u <+: word v → (word v).length ≤ (word u).length) → w ∈ ws →
      ∃ r : α × List Char, (ws.findSome? fun u =>
          (after? (word u) (word w ++ zs)).map fun rest => (u, rest)) = some r
        ∧ r.2.length ≤ zs.length := by
  intro ws
  induction ws with
  | nil => intro _ hw; cases hw
  | cons u ws ih =>
    intro horder hw
    obtain ⟨hu, horder⟩ := List.pairwise_cons.mp horder
    rw [List.findSome?_cons]
    cases hafter : after? (word u) (word w ++ zs) with
    | none =>
      have hne : w ≠ u := by
        rintro rfl
        rw [after?_append] at hafter
        cases hafter
      exact ih horder ((List.mem_cons.mp hw).resolve_left hne)
    | some rest =>
      have htext : word w ++ zs = word u ++ rest := after?_eq_some.mp hafter
      have hlength := congrArg List.length htext
      rw [List.length_append, List.length_append] at hlength
      refine ⟨(u, rest), rfl, ?_⟩
      show rest.length ≤ zs.length
      rcases List.mem_cons.mp hw with rfl | hw
      · omega
      · by_contra hlong
        -- a longer rest makes `u` the start of `w`, which then does not stand behind it in the list
        have hshort : word u <+: word w :=
          List.prefix_of_prefix_length_le ⟨rest, htext.symm⟩ (List.prefix_append _ _) (by omega)
        have := hu w hw hshort
        omega

/-! ### Roots -/

/-- The text of an accidental, which may be nothing. -/
inductive Accidental.Form : List Char → Accidental → Prop
  | none : Form [] .natural
  | sharp {c : Char} (h : c = '#' ∨ c = '♯') : Form [c] .sharp
  | flat {c : Char} (h : c = 'b' ∨ c = '♭') : Form [c] .flat

/-- The text of a root, and whether it is a numeral in small letters: a capital
letter with an accidental, or an accidental and a numeral all in one case. -/
inductive Root.Form : List Char → Root × Bool → Prop
  | pitch {l : Char × Fin 12} (hl : l ∈ PitchClass.letters) {xs : List Char} {a : Accidental}
      (ha : Accidental.Form xs a) : Form (l.1 :: xs) (.pitch (.spelled l.1 l.2 a), false)
  | degree {xs : List Char} {a : Accidental} (ha : Accidental.Form xs a) (number : Fin 7)
      (small : Bool) :
      Form (xs ++ Degree.numeralOf number small) (.degree ⟨number, a, a ≠ .natural⟩, small)

/-- The longest text of a root that a text starts with. -/
structure Root.Longest (cs xs : List Char) (r : Root × Bool) : Prop where
  form : Form xs r
  start : xs <+: cs
  longest : ∀ ys q, ys <+: cs → Form ys q → ys.length ≤ xs.length

namespace Accidental

theorem ofChar?_eq_some_iff {c : Char} {a : Accidental} :
    ofChar? c = some a ↔ Form [c] a := by
  constructor
  · intro h
    unfold ofChar? at h
    split at h
    · rename_i hc
      obtain rfl := Option.some.inj h
      exact .sharp hc
    · split at h
      · rename_i hc
        obtain rfl := Option.some.inj h
        exact .flat hc
      · cases h
  · intro h
    cases h with
    | sharp h => rcases h with rfl | rfl <;> rfl
    | flat h => rcases h with rfl | rfl <;> rfl

theorem Form.cases {xs : List Char} {a : Accidental} (h : Form xs a) :
    (xs = [] ∧ a = .natural) ∨ ∃ c, xs = [c] ∧ ofChar? c = some a := by
  cases h with
  | none => exact .inl ⟨rfl, rfl⟩
  | sharp hc => exact .inr ⟨_, rfl, ofChar?_eq_some_iff.mpr (.sharp hc)⟩
  | flat hc => exact .inr ⟨_, rfl, ofChar?_eq_some_iff.mpr (.flat hc)⟩

theorem Form.take {xs : List Char} {a : Accidental} (h : Form xs a) : take xs = (a, []) := by
  rcases h.cases with ⟨rfl, rfl⟩ | ⟨c, rfl, hc⟩
  · rfl
  · rw [Accidental.take, hc]

theorem Form.length_take_le {xs : List Char} {a : Accidental} (h : Form xs a) (zs : List Char) :
    (Accidental.take (xs ++ zs)).2.length ≤ zs.length := by
  rcases h.cases with ⟨rfl, rfl⟩ | ⟨c, rfl, hc⟩
  · exact (Accidental.take_suffix zs).length_le
  · rw [List.singleton_append, Accidental.take, hc]

theorem form_take (cs : List Char) :
    ∃ xs, Form xs (take cs).1 ∧ cs = xs ++ (take cs).2 := by
  fun_cases Accidental.take cs with
  | case1 => exact ⟨[], .none, rfl⟩
  | case2 c cs a ha => exact ⟨[c], ofChar?_eq_some_iff.mp ha, rfl⟩
  | case3 c cs ha => exact ⟨[], .none, rfl⟩

end Accidental

/-- The characters that roots are written with. -/
def Root.characters : List Char :=
  "CDEFGABIViv#♯b♭".toList

theorem Root.Form.mem_characters {xs : List Char} {r : Root × Bool} (h : Form xs r) :
    ∀ c ∈ xs, c ∈ characters := by
  have haccidental : ∀ {xs : List Char} {a : Accidental}, Accidental.Form xs a →
      ∀ c ∈ xs, c ∈ characters := by
    intro xs a ha
    cases ha with
    | none => nofun
    | sharp h => rcases h with rfl | rfl <;> exact List.forall_mem_singleton.mpr (by decide)
    | flat h => rcases h with rfl | rfl <;> exact List.forall_mem_singleton.mpr (by decide)
  have hletter : ∀ l ∈ PitchClass.letters, l.1 ∈ characters := by decide
  have hnumeral : ∀ (n : Fin 7) (small : Bool), ∀ c ∈ Degree.numeralOf n small,
      c ∈ characters := by
    intro n small
    refine forall_mem_of_all ?_
    revert n small
    decide
  cases h with
  | pitch hl ha => exact List.forall_mem_cons.mpr ⟨hletter _ hl, haccidental ha⟩
  | degree ha number small =>
    exact List.forall_mem_append.mpr ⟨haccidental ha, hnumeral number small⟩

theorem Root.Form.ne_nil {xs : List Char} {r : Root × Bool} (h : Form xs r) : xs ≠ [] := by
  have hnumeral : ∀ (n : Fin 7) (small : Bool), Degree.numeralOf n small ≠ [] := by decide
  cases h with
  | pitch => exact List.cons_ne_nil _ _
  | degree ha number small => exact List.append_ne_nil_of_right_ne_nil _ (hnumeral number small)

namespace Root

theorem letter_eq_of_isUpper {c : Char} {l : Char × Fin 12} (hc : c.isUpper = true)
    (h : PitchClass.letter? c = some l) : l.1 = c := by
  have hupper : c.toUpper = c := by
    have hrange : 65 ≤ c.toNat ∧ c.toNat ≤ 90 := by
      have hval : c.val ≥ 'A'.val ∧ c.val ≤ 'Z'.val := of_decide_eq_true hc
      simpa [UInt32.le_iff_toNat_le] using hval
    unfold Char.toUpper
    rw [dif_neg]
    intro hlow
    have hsmall : 97 ≤ c.toNat := by simpa [UInt32.le_iff_toNat_le] using hlow.1
    omega
  unfold PitchClass.letter? at h
  rw [hupper] at h
  split at h
  all_goals first
    | (obtain rfl := Option.some.inj h; rfl)
    | cases h

theorem takeCapital_degree {xs : List Char} {a : Accidental} (ha : Accidental.Form xs a)
    (number : Fin 7) (small : Bool) (zs : List Char) :
    PitchClass.takeCapital (xs ++ (Degree.numeralOf number small ++ zs)) = none := by
  have hcons : ∀ (c : Char) (cs : List Char), c.isUpper = false ∨ PitchClass.letter? c = none →
      PitchClass.takeCapital (c :: cs) = none := by
    intro c cs h
    rw [PitchClass.takeCapital]
    rcases h with h | h
    · rw [if_neg (by simp [h])]
    · rw [PitchClass.takeName_cons, h, Option.map_none, ite_self]
  cases ha with
  | none =>
    have hhead : ∃ c ∈ (Degree.numeralOf number small).head?,
        c.isUpper = false ∨ PitchClass.letter? c = none := by
      refine exists_mem_option_of_any ?_
      revert number small
      decide
    obtain ⟨c, hc, hstop⟩ := hhead
    obtain ⟨cs, hcs⟩ := List.head?_eq_some_iff.mp hc
    rw [hcs]
    exact hcons c _ hstop
  | sharp h => rcases h with rfl | rfl <;> exact hcons _ _ (.inl (by decide))
  | flat h => rcases h with rfl | rfl <;> exact hcons _ _ (.inl (by decide))

theorem take_accidental {xs : List Char} {a : Accidental} (ha : Accidental.Form xs a)
    (number : Fin 7) (small : Bool) (zs : List Char) :
    Accidental.take (xs ++ (Degree.numeralOf number small ++ zs))
      = (a, Degree.numeralOf number small ++ zs) := by
  refine Accidental.take_append ha.take ?_
  have hhead : ∃ c ∈ (Degree.numeralOf number small).head?, Accidental.ofChar? c = none := by
    refine exists_mem_option_of_any ?_
    revert number small
    decide
  obtain ⟨c, hc, hstop⟩ := hhead
  obtain ⟨cs, hcs⟩ := List.head?_eq_some_iff.mp hc
  rw [hcs]
  intro d hd
  obtain rfl : c = d := by simpa using hd
  exact hstop

theorem exists_takeNumeral (number : Fin 7) (small : Bool) (zs : List Char) :
    ∃ r rest, takeNumeral (Degree.numeralOf number small ++ zs) = some (r, rest)
      ∧ rest.length ≤ zs.length := by
  have horder : ∀ small, numeralOrder.Pairwise fun u v =>
      Degree.numeralOf u small <+: Degree.numeralOf v small →
        (Degree.numeralOf v small).length ≤ (Degree.numeralOf u small).length := by
    decide
  have hmem : ∀ number, number ∈ numeralOrder := by decide
  obtain ⟨⟨number', rest⟩, hfound, hle⟩ :=
    exists_findSome?_after? (fun n => Degree.numeralOf n small) zs (horder small) (hmem number)
  cases small with
  | false =>
    have hfound : takeNumeralOf Degree.numerals (Degree.numeralOf number false ++ zs)
        = some (number', rest) := hfound
    exact ⟨(number', false), rest, by rw [takeNumeral, hfound], hle⟩
  | true =>
    have hfound : takeNumeralOf Degree.smallNumerals (Degree.numeralOf number true ++ zs)
        = some (number', rest) := hfound
    have hhead : ∀ n m : Fin 7, Degree.numeralOf n false ≠ []
        ∧ (Degree.numeralOf n false).head? ≠ (Degree.numeralOf m true).head?
        ∧ (Degree.numeralOf m true).head?.isSome := by
      decide
    have hcapital : takeNumeralOf Degree.numerals (Degree.numeralOf number true ++ zs) = none := by
      refine List.findSome?_eq_none_iff.mpr fun n _ => ?_
      obtain ⟨hne, hdiffers, hsome⟩ := hhead n number
      have hdiffers : (Degree.numeralOf n false).head?
          ≠ (Degree.numeralOf number true ++ zs).head? := by
        rw [List.head?_append, Option.or_of_isSome hsome]
        exact hdiffers
      exact congrArg (Option.map _) (after?_eq_none_of_head hne hdiffers)
    exact ⟨(number', true), rest, by rw [takeNumeral, hcapital, hfound]; rfl, hle⟩

theorem Form.exists_take {ys : List Char} {q : Root × Bool} (h : Form ys q) (zs : List Char) :
    ∃ r rest, Root.take (ys ++ zs) = some (r, rest) ∧ rest.length ≤ zs.length := by
  unfold Root.take
  cases h with
  | @pitch l hl xs a ha =>
    have hletter : ∀ l ∈ PitchClass.letters, l.1.isUpper = true
        ∧ PitchClass.letter? l.1 = some l := by
      decide
    obtain ⟨hupper, hl⟩ := hletter l hl
    rw [List.cons_append, PitchClass.takeCapital, if_pos hupper, PitchClass.takeName_cons, hl]
    exact ⟨_, _, rfl, ha.length_take_le zs⟩
  | @degree xs a ha number small =>
    obtain ⟨r, rest, hr, hle⟩ := exists_takeNumeral number small zs
    rw [List.append_assoc, takeCapital_degree ha]
    dsimp only
    unfold Degree.take
    rw [take_accidental ha]
    simp only [hr, Option.map_some]
    exact ⟨_, rest, rfl, hle⟩

theorem Form.take {xs : List Char} {r : Root × Bool} (h : Form xs r) :
    Root.take xs = some (r, []) := by
  unfold Root.take
  cases h with
  | @pitch l hl xs a ha =>
    have hletter : ∀ l ∈ PitchClass.letters, l.1.isUpper = true
        ∧ PitchClass.letter? l.1 = some l := by
      decide
    obtain ⟨hupper, hl⟩ := hletter l hl
    rw [PitchClass.takeCapital, if_pos hupper, PitchClass.takeName_cons, hl, Option.map_some,
      ha.take]
  | @degree xs a ha number small =>
    have hcapital := takeCapital_degree ha number small []
    have haccidental := take_accidental ha number small []
    have hnumeral : takeNumeral (Degree.numeralOf number small ++ [])
        = some ((number, small), []) :=
      Degree.takeNumeral_numeralOf number small fun c hc => absurd hc (Option.not_mem_none c)
    rw [List.append_nil] at hcapital haccidental hnumeral
    rw [hcapital]
    dsimp only
    unfold Degree.take
    rw [haccidental]
    simp only [hnumeral, Option.map_some]

theorem form_of_take {cs rest : List Char} {r : Root × Bool} (h : Root.take cs = some (r, rest)) :
    ∃ xs, Form xs r ∧ cs = xs ++ rest := by
  unfold Root.take at h
  split at h
  · rename_i p rest' htake
    obtain ⟨rfl, rfl⟩ := Prod.mk.inj (Option.some.inj h)
    cases cs with
    | nil => cases htake
    | cons c cs =>
      simp only [PitchClass.takeCapital, Option.ite_none_right_eq_some] at htake
      obtain ⟨hupper, htake⟩ := htake
      rw [PitchClass.takeName_cons] at htake
      obtain ⟨l, hl, heq⟩ := Option.map_eq_some_iff.mp htake
      obtain ⟨rfl, rfl⟩ := Prod.mk.inj heq
      obtain ⟨xs, hform, hcs⟩ := Accidental.form_take cs
      obtain rfl := letter_eq_of_isUpper hupper hl
      refine ⟨l.1 :: xs, .pitch (PitchClass.mem_letters hl) hform, ?_⟩
      rw [List.cons_append, ← hcs]
  · obtain ⟨⟨⟨d, small⟩, rest'⟩, htake, heq⟩ := Option.map_eq_some_iff.mp h
    obtain ⟨rfl, rfl⟩ := Prod.mk.inj heq
    unfold Degree.take at htake
    obtain ⟨⟨⟨number, small'⟩, rest''⟩, hnumeral, heq⟩ := Option.map_eq_some_iff.mp htake
    obtain ⟨hdegree, rfl⟩ := Prod.mk.inj heq
    obtain ⟨rfl, rfl⟩ := Prod.mk.inj hdegree
    obtain ⟨xs, hform, hcs⟩ := Accidental.form_take cs
    refine ⟨xs ++ Degree.numeralOf number small', .degree hform number small', ?_⟩
    have htext : (Accidental.take cs).2 = Degree.numeralOf number small' ++ rest'' := by
      unfold takeNumeral at hnumeral
      split at hnumeral
      · rename_i n rest hcapital
        cases hnumeral
        obtain ⟨m, -, hm⟩ := List.exists_of_findSome?_eq_some hcapital
        obtain ⟨rest, hrest, heq⟩ := Option.map_eq_some_iff.mp hm
        cases heq
        exact after?_eq_some.mp hrest
      · obtain ⟨⟨n, rest⟩, hsmall, heq⟩ := Option.map_eq_some_iff.mp hnumeral
        cases heq
        obtain ⟨m, -, hm⟩ := List.exists_of_findSome?_eq_some hsmall
        obtain ⟨rest, hrest, heq⟩ := Option.map_eq_some_iff.mp hm
        cases heq
        exact after?_eq_some.mp hrest
    rw [List.append_assoc, ← htext, ← hcs]

theorem Longest.eq {cs xs ys : List Char} {r q : Root × Bool} (h : Longest cs xs r)
    (h' : Longest cs ys q) : xs = ys ∧ r = q := by
  have hlength : xs.length = ys.length :=
    Nat.le_antisymm (h'.longest xs r h.start h.form) (h.longest ys q h'.start h'.form)
  have heq : xs = ys :=
    (List.prefix_of_prefix_length_le h.start h'.start hlength.le).eq_of_length hlength
  subst heq
  have htake := h.form.take.symm.trans h'.form.take
  exact ⟨rfl, congrArg Prod.fst (Option.some.inj htake)⟩

/-- **The longest root a text starts with is taken off it.** -/
theorem take_eq_some_iff {cs rest : List Char} {r : Root × Bool} :
    Root.take cs = some (r, rest) ↔ ∃ xs, Longest cs xs r ∧ cs = xs ++ rest := by
  have hsound : ∀ {r rest}, Root.take cs = some (r, rest) →
      ∃ xs, Longest cs xs r ∧ cs = xs ++ rest := by
    intro r rest h
    obtain ⟨xs, hform, hcs⟩ := form_of_take h
    refine ⟨xs, ⟨hform, ⟨rest, hcs.symm⟩, fun ys q hys hq => ?_⟩, hcs⟩
    obtain ⟨zs, hzs⟩ := hys
    obtain ⟨r', rest', htake, hle⟩ := hq.exists_take zs
    rw [hzs, h] at htake
    obtain ⟨-, rfl⟩ := Prod.mk.inj (Option.some.inj htake)
    have hlength := congrArg List.length (hzs.trans hcs)
    rw [List.length_append, List.length_append] at hlength
    omega
  refine ⟨hsound, ?_⟩
  rintro ⟨xs, hlongest, hcs⟩
  obtain ⟨r', rest', htake, -⟩ := hlongest.form.exists_take rest
  rw [← hcs] at htake
  obtain ⟨ys, hlongest', hcs'⟩ := hsound htake
  obtain ⟨rfl, rfl⟩ := hlongest.eq hlongest'
  rw [htake, List.append_cancel_left (hcs.symm.trans hcs')]

end Root

end LeadSheet
