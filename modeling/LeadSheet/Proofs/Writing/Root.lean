import LeadSheet.Chord.Printer
import LeadSheet.Chord.Reader
import LeadSheet.Pitch.Reader
import LeadSheet.Proofs.Text.Ends

/-!
# Written roots and keys read back

A pitch class is `Spelled` if it is a letter with an accidental, which is what
every pitch class that is read is (`PitchClass.spelled_of_takeName`) and every
degree that is turned into a pitch (`Root.legible_toPitch`).  A root is
`Legible` if its pitch is spelled, or if its degree is borrowed just when it
has an accidental; reading and converting only make such roots.

A legible root reads back from its text unless something follows that looks
like more of it (`Root.take_text`), and a key reads back with the same tonic
(`Key.read_text`).
-/

namespace LeadSheet

open Text

/-- A character that no reader of scores stops at. -/
def isPlain (c : Char) : Bool :=
  !isBlank c && !(c ∈ ['|', '(', ')', '[', ']', ':', ',', '/'])

theorem isBlank_of_isPlain {c : Char} (h : isPlain c = true) : isBlank c = false := by
  simp only [isPlain, Bool.and_eq_true, Bool.not_eq_true'] at h
  exact h.1

theorem trim_eq_self {cs : List Char} (h : ∀ c ∈ cs, isBlank c = false) : trim cs = cs := by
  have hstart : ∀ ds : List Char, (∀ c ∈ ds, isBlank c = false) → trimStart ds = ds := by
    intro ds hd
    cases ds with
    | nil => rfl
    | cons d ds => exact trimStart_eq_self (hd d (List.mem_cons_self ..))
  have hrev : ∀ c ∈ cs.reverse, isBlank c = false := by
    intro c hc
    exact h c (List.mem_reverse.mp hc)
  rw [trim, hstart cs h, trimEnd, hstart cs.reverse hrev, List.reverse_reverse]

theorem after?_append_of_notMem : ∀ {ws : List Char} (xs : List Char) {cs : List Char},
    (∀ c ∈ cs.head?, c ∉ ws) → after? ws (xs ++ cs) = (after? ws xs).map (· ++ cs) := by
  intro ws
  induction ws with
  | nil => intro xs cs _; rfl
  | cons w ws ih =>
    intro xs cs h
    cases xs with
    | nil =>
      cases cs with
      | nil => rfl
      | cons c cs =>
        have hc : w ≠ c := fun he => h c rfl (he ▸ List.mem_cons_self ..)
        show (if w = c then after? ws cs else none) = none
        rw [if_neg hc]
    | cons x xs =>
      rw [List.cons_append, after?, after?]
      by_cases hx : w = x
      · rw [if_pos hx, if_pos hx]
        exact ih xs fun c hc hm => h c hc (List.mem_cons_of_mem w hm)
      · rw [if_neg hx, if_neg hx]
        rfl

/-! ### Accidentals -/

/-- What follows an accidental does not matter, unless it is a natural before
something that looks like one. -/
theorem Accidental.take_append {cs rest : List Char} {a : Accidental} (h : take cs = (a, []))
    (hrest : ∀ c ∈ rest.head?, ofChar? c = none) : take (cs ++ rest) = (a, rest) := by
  cases cs with
  | nil =>
    obtain rfl : natural = a := congrArg Prod.fst h
    exact take_symbol natural fun _ => hrest
  | cons c cs =>
    rw [take] at h
    rw [List.cons_append, take]
    cases hc : ofChar? c with
    | none => rw [hc] at h; cases h
    | some b =>
      rw [hc] at h
      obtain ⟨rfl, rfl⟩ := Prod.mk.inj h
      rfl

theorem Accidental.isPlain_of_ofChar? {c : Char} {a : Accidental} (h : ofChar? c = some a) :
    isPlain c = true := by
  unfold ofChar? at h
  split at h
  · rename_i hc
    rcases hc with rfl | rfl <;> decide
  · split at h
    · rename_i hc
      rcases hc with rfl | rfl <;> decide
    · cases h

theorem Accidental.isPlain_of_take {cs : List Char} {a : Accidental} (h : take cs = (a, [])) :
    ∀ c ∈ cs, isPlain c = true := by
  cases cs with
  | nil => intro c hc; cases hc
  | cons d cs =>
    rw [take] at h
    cases hd : ofChar? d with
    | none => rw [hd] at h; cases h
    | some b =>
      rw [hd] at h
      obtain ⟨-, rfl⟩ := Prod.mk.inj h
      intro c hc
      obtain rfl := List.mem_singleton.mp hc
      exact isPlain_of_ofChar? hd

/-! ### Pitch names -/

namespace PitchClass

def letters : List (Char × Fin 12) :=
  ['C', 'D', 'E', 'F', 'G', 'A', 'B'].filterMap letter?

/-- A pitch class that is a letter with an accidental. -/
def Spelled (p : PitchClass) : Prop :=
  ∃ r ∈ letters, ∃ a, p = spelled r.1 r.2 a

theorem mem_letters {c : Char} {r : Char × Fin 12} (h : letter? c = some r) : r ∈ letters := by
  unfold letter? at h
  split at h
  all_goals first
    | (obtain rfl := Option.some.inj h; decide)
    | cases h

theorem isPlain_of_isLower {c : Char} (h : c.isLower = true) : isPlain c = true := by
  have hrange : 97 ≤ c.toNat ∧ c.toNat ≤ 122 := by
    have hval : (c.val ≥ 'a'.val && c.val ≤ 'z'.val) = true := h
    simpa [UInt32.le_iff_toNat_le] using hval
  have hblank : isBlank c = false := by
    simp [isBlank]
    omega
  have hstop : c ∉ ['|', '(', ')', '[', ']', ':', ',', '/'] := by
    intro hc
    simp only [List.mem_cons, List.not_mem_nil, or_false] at hc
    rcases hc with rfl | rfl | rfl | rfl | rfl | rfl | rfl | rfl
    all_goals exact absurd h (by decide)
  simp [isPlain, hblank, hstop]

theorem isPlain_of_letter? {c : Char} {r : Char × Fin 12} (h : letter? c = some r) :
    isPlain c = true := by
  by_cases hlow : c.isLower = true
  · exact isPlain_of_isLower hlow
  · have hupper : c.toUpper = c := by
      unfold Char.toUpper
      rw [dif_neg]
      intro hc
      refine hlow ?_
      show (c.val ≥ 'a'.val && c.val ≤ 'z'.val) = true
      simpa using hc
    unfold letter? at h
    rw [hupper] at h
    split at h
    all_goals first
      | decide
      | cases h

theorem takeName_cons (c : Char) (cs : List Char) :
    takeName (c :: cs) = (letter? c).map fun r =>
      (spelled r.1 r.2 (Accidental.take cs).1, (Accidental.take cs).2) := by
  rw [takeName]

theorem spelled_of_takeName {cs rest : List Char} {p : PitchClass}
    (h : takeName cs = some (p, rest)) : p.Spelled := by
  cases cs with
  | nil => cases h
  | cons c cs =>
    rw [takeName_cons] at h
    obtain ⟨r, hr, heq⟩ := Option.map_eq_some_iff.mp h
    obtain ⟨rfl, -⟩ := Prod.mk.inj heq
    exact ⟨r, mem_letters hr, _, rfl⟩

theorem toList_name_spelled (letter : Char) (value : Fin 12) (a : Accidental) :
    (spelled letter value a).name.toList = letter :: a.symbol.toList := by
  have hne : String.ofList (letter :: a.symbol.toList) ≠ "" := by
    intro h
    have := congrArg String.toList h
    simp at this
  simp [spelled, name]

theorem takeName_name {p : PitchClass} (h : p.Spelled) :
    takeName p.name.toList = some (p, []) := by
  obtain ⟨r, hr, a, rfl⟩ := h
  have hletter : ∀ r ∈ letters, letter? r.1 = some r := by decide
  have htake : Accidental.take a.symbol.toList = (a, []) := by cases a <;> rfl
  rw [toList_name_spelled, takeName_cons, hletter r hr, htake]
  rfl

theorem takeName_append {cs rest : List Char} {p : PitchClass} (h : takeName cs = some (p, []))
    (hrest : ∀ c ∈ rest.head?, Accidental.ofChar? c = none) :
    takeName (cs ++ rest) = some (p, rest) := by
  cases cs with
  | nil => cases h
  | cons c cs =>
    rw [takeName_cons] at h
    obtain ⟨r, hr, heq⟩ := Option.map_eq_some_iff.mp h
    obtain ⟨hp, hnil⟩ := Prod.mk.inj heq
    have htake : Accidental.take cs = ((Accidental.take cs).1, []) := Prod.ext rfl hnil
    rw [List.cons_append, takeName_cons, Accidental.take_append htake hrest, hr, ← hp]
    rfl

theorem isPlain_of_takeName {cs : List Char} {p : PitchClass} (h : takeName cs = some (p, [])) :
    ∀ c ∈ cs, isPlain c = true := by
  cases cs with
  | nil => cases h
  | cons c cs =>
    rw [takeName_cons] at h
    obtain ⟨r, hr, heq⟩ := Option.map_eq_some_iff.mp h
    have htake : Accidental.take cs = ((Accidental.take cs).1, []) :=
      Prod.ext rfl (Prod.mk.inj heq).2
    intro d hd
    rcases List.mem_cons.mp hd with rfl | hd
    · exact isPlain_of_letter? hr
    · exact Accidental.isPlain_of_take htake d hd

theorem spelled_sharpName (v : Fin 12) : (⟨v, some (nameIn sharpNames v)⟩ : PitchClass).Spelled := by
  have h : ∀ v, ∃ r ∈ letters, ∃ a ∈ [Accidental.natural, .sharp],
      (⟨v, some (nameIn sharpNames v)⟩ : PitchClass) = spelled r.1 r.2 a := by decide
  obtain ⟨r, hr, a, -, heq⟩ := h v
  exact ⟨r, hr, a, heq⟩

theorem spelled_flatName (v : Fin 12) : (⟨v, some (nameIn flatNames v)⟩ : PitchClass).Spelled := by
  have h : ∀ v, ∃ r ∈ letters, ∃ a ∈ [Accidental.natural, .flat],
      (⟨v, some (nameIn flatNames v)⟩ : PitchClass) = spelled r.1 r.2 a := by decide
  obtain ⟨r, hr, a, -, heq⟩ := h v
  exact ⟨r, hr, a, heq⟩

end PitchClass

/-! ### Keys -/

namespace Key

def modeText : Mode → String
  | .major => ""
  | .minor => "m"
  | m => ":" ++ m.name

/-- A key whose tonic has a name that is read as its tone. -/
def Legible (k : Key) : Prop :=
  ∃ p, PitchClass.takeName k.tonic.name.toList = some (p, []) ∧ p.value = k.tonic.value

/-- The key that the text of a key is read as. -/
def reread (k : Key) : Key :=
  match Key.read k.text with
  | .ok k' => k'
  | .error _ => k

theorem toList_text (k : Key) : k.text.toList = k.tonic.name.toList ++ (modeText k.mode).toList := by
  unfold text modeText
  cases k.mode <;> simp

theorem readMode_modeText (m : Mode) (text : String) :
    readMode text (modeText m).toList = .ok m := by
  have hpart : modePart (modeText m).toList ≠ ['M'] := by cases m <;> decide
  have hname : Mode.ofName? (String.ofList (lower (modePart (modeText m).toList))) = some m := by
    cases m <;> decide
  unfold readMode
  rw [if_neg hpart]
  simp only [hname]

/-- **A key reads back from its text**, its tonic spelled as its name is
read. -/
theorem read_text {k : Key} {p : PitchClass}
    (h : PitchClass.takeName k.tonic.name.toList = some (p, [])) :
    Key.read k.text = .ok ⟨p, k.mode⟩ := by
  have hblank : ∀ c ∈ k.text.toList, isBlank c = false := by
    have hmode : ∀ m : Mode, ∀ c ∈ (modeText m).toList, isBlank c = false := by
      intro m
      refine forall_mem_of_all ?_
      cases m <;> decide
    intro c hc
    rw [toList_text] at hc
    rcases List.mem_append.mp hc with hc | hc
    · exact isBlank_of_isPlain (PitchClass.isPlain_of_takeName h c hc)
    · exact hmode k.mode c hc
  have haccidental : ∀ c ∈ (modeText k.mode).toList.head?, Accidental.ofChar? c = none := by
    refine forall_mem_option_of_all ?_
    cases k.mode <;> decide
  have hline : '\n' ∉ (modeText k.mode).toList := by cases k.mode <;> decide
  unfold Key.read
  rw [trim_eq_self hblank, toList_text, PitchClass.takeName_append h haccidental]
  simp only [if_neg hline, readMode_modeText]
  rfl

theorem reread_eq {k : Key} {p : PitchClass}
    (h : PitchClass.takeName k.tonic.name.toList = some (p, [])) : k.reread = ⟨p, k.mode⟩ := by
  rw [reread, read_text h]

theorem spelled_of_read {text : String} {k : Key} (h : Key.read text = .ok k) :
    k.tonic.Spelled := by
  unfold Key.read at h
  split at h
  · cases h
  · rename_i tonic rest htake
    split at h
    · cases h
    · cases hm : readMode text rest with
      | error e => rw [hm] at h; cases h
      | ok m =>
        rw [hm] at h
        cases h
        exact PitchClass.spelled_of_takeName htake

theorem legible_of_spelled {k : Key} (h : k.tonic.Spelled) : k.Legible :=
  ⟨k.tonic, PitchClass.takeName_name h, rfl⟩

theorem reread_of_spelled {k : Key} (h : k.tonic.Spelled) : k.reread = k :=
  reread_eq (PitchClass.takeName_name h)

end Key

/-! ### Roots -/

/-- A degree that is borrowed just when it has an accidental. -/
def Degree.Legible (d : Degree) : Prop :=
  d.borrowed = decide (d.accidental ≠ .natural)

/-- A root as reading and converting make it. -/
def Root.Legible : Root → Prop
  | .pitch p => p.Spelled
  | .degree d => d.Legible

def continuesRoot (c : Char) : Bool :=
  c ∈ ['#', '♯', 'b', '♭', 'I', 'V', 'i', 'v']

theorem Accidental.ofChar?_of_continuesRoot {c : Char} (h : continuesRoot c = false) :
    ofChar? c = none := by
  simp only [continuesRoot, List.mem_cons, List.not_mem_nil, or_false, decide_eq_false_iff_not,
    not_or] at h
  obtain ⟨h₁, h₂, h₃, h₄, -⟩ := h
  unfold ofChar?
  rw [if_neg (not_or.mpr ⟨h₁, h₂⟩), if_neg (not_or.mpr ⟨h₃, h₄⟩)]

namespace Degree

/-- The numeral of a step in capital or in small letters. -/
def numeralOf (number : Fin 7) (small : Bool) : List Char :=
  ((if small then smallNumerals else numerals).getD number "").toList

theorem toList_numeral (d : Degree) (small : Bool) :
    (d.numeral small).toList = d.accidental.symbol.toList ++ numeralOf d.number small := by
  simp [numeral, numeralOf]

theorem takeNumeralOf_append {numerals : List String} (xs : List Char) {cs : List Char}
    (h : ∀ c ∈ cs.head?, ∀ number : Fin 7, c ∉ (numerals.getD number "").toList) :
    takeNumeralOf numerals (xs ++ cs)
      = (takeNumeralOf numerals xs).map fun r => (r.1, r.2 ++ cs) := by
  unfold takeNumeralOf
  rw [List.map_findSome?]
  congr 1
  funext number
  show (after? _ (xs ++ cs)).map _ = ((after? _ xs).map _).map _
  rw [after?_append_of_notMem xs fun c hc => h c hc number, Option.map_map, Option.map_map]
  rfl

theorem takeNumeral_numeralOf (number : Fin 7) (small : Bool) {rest : List Char}
    (hrest : ∀ c ∈ rest.head?, continuesRoot c = false) :
    takeNumeral (numeralOf number small ++ rest) = some ((number, small), rest) := by
  have hstop : ∀ (number : Fin 7) (small : Bool), ∀ c ∈ numeralOf number small,
      continuesRoot c = true := by
    intro number small
    refine forall_mem_of_all ?_
    revert number small
    decide
  have hcapital : ∀ c ∈ rest.head?, ∀ number : Fin 7, c ∉ (numerals.getD number "").toList :=
    fun c hc number hmem => by
      have := hstop number false c hmem
      rw [hrest c hc] at this
      cases this
  have hsmall : ∀ c ∈ rest.head?, ∀ number : Fin 7, c ∉ (smallNumerals.getD number "").toList :=
    fun c hc number hmem => by
      have := hstop number true c hmem
      rw [hrest c hc] at this
      cases this
  have hplain : ∀ (number : Fin 7),
      takeNumeralOf numerals (numeralOf number false) = some (number, [])
      ∧ takeNumeralOf numerals (numeralOf number true) = none
      ∧ takeNumeralOf smallNumerals (numeralOf number true) = some (number, []) := by decide
  obtain ⟨h₁, h₂, h₃⟩ := hplain number
  unfold takeNumeral
  rw [takeNumeralOf_append _ hcapital, takeNumeralOf_append _ hsmall]
  cases small with
  | false => rw [h₁]; rfl
  | true => rw [h₂, h₃]; rfl

theorem take_numeral {d : Degree} (h : d.Legible) (small : Bool) {rest : List Char}
    (hrest : ∀ c ∈ rest.head?, continuesRoot c = false) :
    Degree.take ((d.numeral small).toList ++ rest) = some ((d, small), rest) := by
  have hhead : ∀ c ∈ (numeralOf d.number small ++ rest).head?, Accidental.ofChar? c = none := by
    have hnumeral : ∀ (number : Fin 7) (small : Bool), ∃ c cs, numeralOf number small = c :: cs
        ∧ Accidental.ofChar? c = none := by
      intro number small
      have h : ∃ c ∈ (numeralOf number small).head?, Accidental.ofChar? c = none := by
        refine exists_mem_option_of_any ?_
        revert number small
        decide
      obtain ⟨c, hhead, hc⟩ := h
      obtain ⟨cs, hcs⟩ := List.head?_eq_some_iff.mp hhead
      exact ⟨c, cs, hcs, hc⟩
    obtain ⟨c, cs, hcs, hc⟩ := hnumeral d.number small
    intro c' hc'
    rw [hcs] at hc'
    obtain rfl : c = c' := by simpa using hc'
    exact hc
  unfold Degree.take
  rw [toList_numeral, List.append_assoc, Accidental.take_symbol d.accidental fun _ => hhead]
  simp only [takeNumeral_numeralOf d.number small hrest, Option.map_some]
  rw [← h]

end Degree

namespace Root

/-- Whether the reader of a root takes its numeral for one in small letters. -/
def readSmall (r : Root) (minor : Bool) : Bool :=
  r.isDegree && minor

/-- **A legible root reads back from its text**, unless more of it seems to
follow. -/
theorem take_text {r : Root} (h : r.Legible) (minor : Bool) {rest : List Char}
    (hrest : ∀ c ∈ rest.head?, continuesRoot c = false) :
    Root.take ((r.text minor).toList ++ rest) = some ((r, r.readSmall minor), rest) := by
  have haccidental : ∀ c ∈ rest.head?, Accidental.ofChar? c = none :=
    fun c hc => Accidental.ofChar?_of_continuesRoot (hrest c hc)
  unfold Root.take
  cases r with
  | pitch p =>
    have hname := PitchClass.takeName_append (PitchClass.takeName_name h) haccidental
    have hcapital : PitchClass.takeCapital (p.name.toList ++ rest) = some (p, rest) := by
      obtain ⟨r, hr, a, rfl⟩ := h
      have hupper : ∀ r ∈ PitchClass.letters, r.1.isUpper = true := by decide
      rw [PitchClass.toList_name_spelled, List.cons_append] at hname ⊢
      rw [PitchClass.takeCapital, if_pos (hupper r hr), hname]
    have htext : ((Root.pitch p).text minor).toList = p.name.toList := rfl
    rw [htext, hcapital]
    rfl
  | degree d =>
    have hcapital : PitchClass.takeCapital ((d.numeral minor).toList ++ rest) = none := by
      have hhead : ∀ (a : Accidental) (number : Fin 7) (small : Bool), ∃ c cs,
          a.symbol.toList ++ Degree.numeralOf number small = c :: cs
          ∧ (c.isUpper = true → PitchClass.letter? c = none) := by
        intro a number small
        have h : ∃ c ∈ (a.symbol.toList ++ Degree.numeralOf number small).head?,
            c.isUpper = true → PitchClass.letter? c = none := by
          refine exists_mem_option_of_any ?_
          revert number small
          cases a <;> decide
        obtain ⟨c, hhead, hc⟩ := h
        obtain ⟨cs, hcs⟩ := List.head?_eq_some_iff.mp hhead
        exact ⟨c, cs, hcs, hc⟩
      obtain ⟨c, cs, hcs, hc⟩ := hhead d.accidental d.number minor
      rw [Degree.toList_numeral, hcs, List.cons_append, PitchClass.takeCapital]
      by_cases hupper : c.isUpper = true
      · rw [if_pos hupper, PitchClass.takeName_cons, hc hupper]
        rfl
      · rw [if_neg hupper]
    have htext : ((Root.degree d).text minor).toList = (d.numeral minor).toList := rfl
    rw [htext, hcapital]
    dsimp only
    rw [Degree.take_numeral h minor hrest]
    rfl

theorem legible_of_take {cs rest : List Char} {r : Root} {small : Bool}
    (h : Root.take cs = some ((r, small), rest)) : r.Legible := by
  unfold Root.take at h
  split at h
  · rename_i p rest' htake
    obtain ⟨rfl, -⟩ := Prod.mk.inj (Prod.mk.inj (Option.some.inj h)).1
    cases cs with
    | nil => cases htake
    | cons c cs =>
      rw [PitchClass.takeCapital] at htake
      split at htake
      · exact PitchClass.spelled_of_takeName htake
      · cases htake
  · obtain ⟨⟨⟨d, small'⟩, rest'⟩, htake, heq⟩ := Option.map_eq_some_iff.mp h
    obtain ⟨rfl, -⟩ := Prod.mk.inj (Prod.mk.inj heq).1
    unfold Degree.take at htake
    obtain ⟨⟨⟨number, small''⟩, rest''⟩, -, heq'⟩ := Option.map_eq_some_iff.mp htake
    obtain ⟨rfl, -⟩ := Prod.mk.inj (Prod.mk.inj heq').1
    rfl

theorem legible_toDegree {key : Option Key} {r s : Root} (hr : r.Legible)
    (h : r.toDegree key = .ok s) : s.Legible := by
  cases r with
  | degree d => cases h; exact hr
  | pitch p =>
    cases key with
    | none => cases h
    | some k =>
      cases h
      have hfound : Degree.ofInterval? k.mode (k.tonic.interval p)
          = some (Degree.ofPitch p k) := by
        simp [Degree.ofPitch]
      obtain ⟨a, -, ha⟩ := List.exists_of_findSome?_eq_some hfound
      obtain ⟨number, -, heq⟩ := Option.map_eq_some_iff.mp ha
      show (Degree.ofPitch p k).Legible
      rw [← heq]
      rfl

theorem legible_toPitch {key : Option Key} {r s : Root} (hr : r.Legible)
    (h : r.toPitch key = .ok s) : s.Legible := by
  cases r with
  | pitch p => cases h; exact hr
  | degree d =>
    cases key with
    | none => cases h
    | some k =>
      cases h
      show (d.pitch k).Spelled
      unfold Degree.pitch
      cases d.accidental with
      | flat => exact PitchClass.spelled_flatName _
      | sharp => exact PitchClass.spelled_sharpName _
      | natural =>
        show (k.respell _).Spelled
        unfold Key.respell Key.spell
        by_cases hk : k.signature < 0
        · rw [if_pos hk]; exact PitchClass.spelled_flatName _
        · rw [if_neg hk]; exact PitchClass.spelled_sharpName _

theorem isPlain_text {r : Root} (h : r.Legible) (minor : Bool) :
    ∀ c ∈ (r.text minor).toList, isPlain c = true := by
  cases r with
  | pitch p => exact PitchClass.isPlain_of_takeName (PitchClass.takeName_name h)
  | degree d =>
    have hnumeral : ∀ (number : Fin 7) (small : Bool), ∀ c ∈ Degree.numeralOf number small,
        isPlain c = true := by
      intro number small
      refine forall_mem_of_all ?_
      revert number small
      decide
    intro c hc
    change c ∈ (d.numeral minor).toList at hc
    rw [Degree.toList_numeral] at hc
    rcases List.mem_append.mp hc with hc | hc
    · have haccidental : ∀ a : Accidental, ∀ c ∈ a.symbol.toList, isPlain c = true := by
        intro a
        refine forall_mem_of_all ?_
        cases a <;> decide
      exact haccidental d.accidental c hc
    · exact hnumeral d.number minor c hc

/-- A root starts like no other word, and a sharp in front is not all. -/
theorem exists_cons_text {r : Root} (h : r.Legible) (minor : Bool) :
    ∃ c cs, (r.text minor).toList = c :: cs ∧ c ∉ ['_', '=', '%', 'N', '@'] ∧ (c = '#' → cs ≠ []) := by
  cases r with
  | pitch p =>
    obtain ⟨l, hl, a, rfl⟩ := h
    have hletter : ∀ l ∈ PitchClass.letters, l.1 ∉ ['_', '=', '%', 'N', '@'] ∧ l.1 ≠ '#' := by
      decide
    refine ⟨l.1, a.symbol.toList, PitchClass.toList_name_spelled l.1 l.2 a, (hletter l hl).1, ?_⟩
    intro hsharp
    exact absurd hsharp (hletter l hl).2
  | degree d =>
    have hdegree : ∀ (a : Accidental) (number : Fin 7) (small : Bool), ∃ c cs,
        a.symbol.toList ++ Degree.numeralOf number small = c :: cs
        ∧ c ∉ ['_', '=', '%', 'N', '@'] ∧ (c = '#' → cs ≠ []) := by
      intro a number small
      have hnumeral : ∃ c ∈ (Degree.numeralOf number small).head?,
          c ∉ ['_', '=', '%', 'N', '@'] ∧ c ≠ '#' := by
        refine exists_mem_option_of_any ?_
        revert number small
        decide
      obtain ⟨c, hhead, hc, hsharp⟩ := hnumeral
      obtain ⟨cs, hcs⟩ := List.head?_eq_some_iff.mp hhead
      rw [hcs]
      cases a with
      | flat => exact ⟨'b', c :: cs, rfl, by decide, fun _ => List.cons_ne_nil _ _⟩
      | natural => exact ⟨c, cs, rfl, hc, fun he => absurd he hsharp⟩
      | sharp => exact ⟨'#', c :: cs, rfl, by decide, fun _ => List.cons_ne_nil _ _⟩
    have htext : ((Root.degree d).text minor).toList
        = d.accidental.symbol.toList ++ Degree.numeralOf d.number minor :=
      Degree.toList_numeral d minor
    rw [htext]
    exact hdegree d.accidental d.number minor

end Root

end LeadSheet
