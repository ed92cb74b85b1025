import LeadSheet.Score.Reader
import LeadSheet.Token.Reader
import Mathlib.Data.List.Forall2

/-!
# Reading does not depend on the place

A word knows the line and column it stands at only for the sake of messages.
Two attempts `Agree` if they come to the same result, or both to none; every
reader of the chord grammar agrees with itself at another place, and so does
the reader of words (`TokenContent.read_agree`).  A builder looks at what a
token says and at nothing else (`Builder.feed_agree`).
-/

namespace LeadSheet

open Text

section Agree

variable {ε α β : Type}

/-- Two attempts come to the same: one result, or none from either. -/
def Agree (x y : Except ε α) : Prop :=
  x.toOption = y.toOption

theorem Agree.refl (x : Except ε α) : Agree x x := rfl

theorem Agree.symm {x y : Except ε α} (h : Agree x y) : Agree y x :=
  Eq.symm h

theorem agree_error (e e' : ε) : Agree (.error e : Except ε α) (.error e') := rfl

theorem Agree.bind {x y : Except ε α} {f g : α → Except ε β} (h : Agree x y)
    (hfg : ∀ a, Agree (f a) (g a)) : Agree (x >>= f) (y >>= g) := by
  cases x with
  | error e =>
    cases y with
    | error e' => exact agree_error e e'
    | ok b => cases h
  | ok a =>
    cases y with
    | error e' => cases h
    | ok b =>
      obtain rfl : a = b := Option.some.inj h
      exact hfg a

theorem Agree.map {x y : Except ε α} (f : α → β) (h : Agree x y) : Agree (x.map f) (y.map f) := by
  cases x with
  | error e =>
    cases y with
    | error e' => exact agree_error e e'
    | ok b => cases h
  | ok a =>
    cases y with
    | error e' => cases h
    | ok b =>
      obtain rfl : a = b := Option.some.inj h
      exact Agree.refl _

theorem Agree.exists_error {x y : Except ε α} {e : ε} (h : Agree x y) (hx : x = .error e) :
    ∃ e', y = .error e' := by
  subst hx
  cases y with
  | error e' => exact ⟨e', rfl⟩
  | ok b => cases h

theorem ok_bind (a : α) (f : α → Except ε β) : (Except.ok a >>= f) = f a := rfl

theorem exists_of_bind_eq_ok {x : Except ε α} {f : α → Except ε β} {b : β}
    (h : x >>= f = .ok b) : ∃ a, x = .ok a ∧ f a = .ok b := by
  cases x with
  | error e => cases h
  | ok a => exact ⟨a, rfl, h⟩

theorem exists_eq_error_iff {x : Except ε α} : (∃ e, x = .error e) ↔ ¬∃ a, x = .ok a := by
  cases x with
  | error e => simp
  | ok a => simp

theorem of_bind_eq_error {x : Except ε α} {f : α → Except ε β} {e : ε}
    (h : x >>= f = .error e) : x = .error e ∨ ∃ a, x = .ok a ∧ f a = .error e := by
  cases x with
  | error e' => exact .inl (congrArg Except.error (Except.error.inj h))
  | ok a => exact .inr ⟨a, rfl, h⟩

theorem of_map_eq_error {x : Except ε α} {f : α → β} {e : ε} (h : x.map f = .error e) :
    x = .error e := by
  cases x with
  | error e' => exact congrArg Except.error (Except.error.inj h)
  | ok a => cases h

theorem exists_of_map_eq_ok {x : Except ε α} {f : α → β} {b : β} (h : x.map f = .ok b) :
    ∃ a, x = .ok a ∧ f a = b := by
  cases x with
  | error e => cases h
  | ok a => exact ⟨a, rfl, Except.ok.inj h⟩

theorem eq_ok_of_mapError {δ : Type} {x : Except ε α} {f : ε → δ} {a : α}
    (h : x.mapError f = .ok a) : x = .ok a := by
  cases x with
  | error e => cases h
  | ok b => exact congrArg Except.ok (Except.ok.inj h)

theorem mapM_eq_ok_iff {f : α → Except ε β} : ∀ {as : List α} {bs : List β},
    as.mapM f = .ok bs ↔ List.Forall₂ (fun a b => f a = .ok b) as bs := by
  intro as
  induction as with
  | nil =>
    intro bs
    rw [List.forall₂_nil_left_iff]
    exact ⟨fun h => (Except.ok.inj h).symm, fun h => h ▸ rfl⟩
  | cons a as ih =>
    intro bs
    rw [List.mapM_cons]
    constructor
    · intro h
      obtain ⟨b, hb, h⟩ := exists_of_bind_eq_ok h
      obtain ⟨bs', hbs', h⟩ := exists_of_bind_eq_ok h
      cases h
      exact .cons hb (ih.mp hbs')
    · intro h
      cases h with
      | cons hb htail =>
        rw [hb, ih.mpr htail]
        rfl

theorem exists_mapM_eq_ok {f : α → Except ε β} {as : List α} (h : ∀ a ∈ as, ∃ b, f a = .ok b) :
    ∃ bs, as.mapM f = .ok bs := by
  induction as with
  | nil => exact ⟨[], rfl⟩
  | cons a as ih =>
    obtain ⟨⟨b, hb⟩, htail⟩ := List.forall_mem_cons.mp h
    obtain ⟨bs, hbs⟩ := ih htail
    exact ⟨b :: bs, by rw [List.mapM_cons, hb, hbs]; rfl⟩

theorem exists_of_forall₂ {R : α → β → Prop} {as : List α} {bs : List β}
    (h : List.Forall₂ R as bs) : ∀ b ∈ bs, ∃ a ∈ as, R a b := by
  induction h with
  | nil => intro b hb; cases hb
  | cons hab _ ih =>
    intro b hb
    rcases List.mem_cons.mp hb with rfl | hb
    · exact ⟨_, List.mem_cons_self .., hab⟩
    · obtain ⟨a, ha, hr⟩ := ih b hb
      exact ⟨a, List.mem_cons_of_mem _ ha, hr⟩

theorem forall_mem_iff_of_forall₂ {P : α → Prop} {R : β → Prop} {as : List α} {bs : List β}
    (h : List.Forall₂ (fun a b => P a ↔ R b) as bs) : (∀ a ∈ as, P a) ↔ ∀ b ∈ bs, R b := by
  induction h with
  | nil => simp
  | cons hab _ ih => simp [hab, ih]

theorem exists_of_mem_mapM {f : α → Except ε β} {as : List α} {bs : List β}
    (h : as.mapM f = .ok bs) {b : β} (hb : b ∈ bs) : ∃ a ∈ as, f a = .ok b :=
  exists_of_forall₂ (mapM_eq_ok_iff.mp h) b hb

theorem foldlM_keeps {f : β → α → Except ε β} (P : β → Prop) :
    ∀ {as : List α} {b b' : β}, (∀ a ∈ as, ∀ b b', P b → f b a = .ok b' → P b') → P b →
      as.foldlM f b = .ok b' → P b' := by
  intro as
  induction as with
  | nil =>
    intro b b' _ hb h
    cases h
    exact hb
  | cons a as ih =>
    intro b b' hstep hb h
    rw [List.foldlM_cons] at h
    obtain ⟨b₁, h₁, h₂⟩ := exists_of_bind_eq_ok h
    refine ih (fun a' ha' => hstep a' (List.mem_cons_of_mem a ha')) ?_ h₂
    exact hstep a (List.mem_cons_self ..) b b₁ hb h₁

theorem Agree.eq_ok {x y : Except ε α} {a : α} (h : Agree x y) (hx : x = .ok a) : y = .ok a := by
  subst hx
  cases y with
  | error e => cases h
  | ok b => rw [Option.some.inj h]

theorem eq_ok_of_toOption {x : Except ε α} {a : α} (h : x.toOption = some a) : x = .ok a := by
  cases x with
  | error e => cases h
  | ok b => rw [Option.some.inj h]

end Agree

/-! ### Chords -/

theorem readRoot_eq_ok_iff {s : Source} {place : RootPlace} {cs : List Char}
    {r : (Root × Bool) × List Char} : readRoot s place cs = .ok r ↔ Root.take cs = some r := by
  unfold readRoot
  cases Root.take cs with
  | none => exact ⟨nofun, nofun⟩
  | some q => exact ⟨fun h => congrArg some (Except.ok.inj h), fun h => congrArg _ (Option.some.inj h)⟩

theorem readRoot_agree (s t : Source) (place : RootPlace) (cs : List Char) :
    Agree (readRoot s place cs) (readRoot t place cs) := by
  unfold readRoot
  cases Root.take cs with
  | none => exact agree_error _ _
  | some r => exact Agree.refl _

theorem Item.toExtension_agree (s t : Source) (m n : Nat) (i : Item) :
    Agree (i.toExtension s m) (i.toExtension t n) := by
  unfold Item.toExtension
  split
  · exact Agree.refl _
  · cases ChordStep.ofNumber? i.value with
    | none => exact agree_error _ _
    | some step =>
      cases i.word with
      | none => exact Agree.refl _
      | some w =>
        by_cases hs : i.sign = .natural
        · simp only [hs, if_true]; exact Agree.refl _
        · simp only [hs, if_false]; exact agree_error _ _

theorem readBare_agree (s t : Source) (tail tail' cs : List Char) :
    Agree (readBare s tail cs) (readBare t tail' cs) := by
  induction hn : cs.length using Nat.strongRecOn generalizing cs with
  | ind n ih =>
    rw [readBare, readBare]
    split
    · exact Agree.refl _
    · rename_i i rest hi
      have hlt : rest.length < n := hn ▸ Item.length_takeBare hi
      exact (Item.toExtension_agree s t _ _ i).bind fun e =>
        (ih rest.length hlt rest rfl).bind fun r => Agree.refl _

theorem readQuality_agree (table : Table) (s t : Source) (small : Bool) (cs : List Char) :
    Agree (readQuality table s small cs) (readQuality table t small cs) := by
  unfold readQuality
  cases table.take? cs with
  | none => exact Agree.refl _
  | some r =>
    obtain ⟨q, rest⟩ := r
    dsimp only
    split
    · exact agree_error _ _
    · refine (readBare_agree s t _ _ _).bind fun r => ?_
      by_cases hr : r.2.isEmpty
      · simp only [hr, if_true]; exact Agree.refl _
      · simp only [hr]; exact agree_error _ _

theorem readItem_agree (s t : Source) (m n : Nat) (cs : List Char) :
    Agree (readItem s m cs) (readItem t n cs) := by
  unfold readItem
  cases Item.read? cs with
  | none => exact agree_error _ _
  | some i => exact Item.toExtension_agree s t m n i

theorem readGroup_agree (s t : Source) (m n : Nat) (inner : List Char) :
    Agree (readGroup s m inner) (readGroup t n inner) := by
  unfold readGroup
  generalize inner.splitOn ',' = pieces
  induction pieces generalizing m n with
  | nil => exact Agree.refl _
  | cons piece pieces ih =>
    simp only [locateItems, List.mapM_cons]
    exact (readItem_agree s t _ _ _).bind fun e => (ih _ _).bind fun es => Agree.refl _

theorem readGroups_agree (s t : Source) (cs : List Char) :
    Agree (readGroups s cs) (readGroups t cs) := by
  induction hn : cs.length using Nat.strongRecOn generalizing cs with
  | ind n ih =>
    rw [readGroups.eq_def, readGroups.eq_def]
    cases cs with
    | nil => exact Agree.refl _
    | cons c cs =>
      dsimp only
      cases closerOf? c with
      | none => exact Agree.refl _
      | some closer =>
        dsimp only
        split
        · exact agree_error _ _
        · rename_i inner rest hsplit
          have hlt : rest.length < n := by
            rw [← hn, eq_of_splitAt? hsplit, List.length_cons, List.length_append,
              List.length_cons]
            omega
          by_cases ht : (trim inner).isEmpty
          · simp only [ht, if_true]; exact agree_error _ _
          · simp only [ht]
            exact (readGroup_agree s t _ _ inner).bind fun es =>
              (ih rest.length hlt rest rfl).bind fun r => Agree.refl _

theorem readBass_agree (s t : Source) (cs : List Char) : Agree (readBass s cs) (readBass t cs) := by
  unfold readBass
  split
  · exact (readRoot_agree s t _ _).bind fun r => Agree.refl _
  · exact Agree.refl _

theorem Chord.read_agree (table : Table) {s t : Source} (h : s.text = t.text) :
    Agree (Chord.read table s) (Chord.read table t) := by
  unfold Chord.read
  rw [h]
  refine (readRoot_agree s t _ _).bind fun r => ?_
  refine (readQuality_agree table s t _ _).bind fun q => ?_
  refine (readGroups_agree s t _).bind fun g => ?_
  refine (readBass_agree s t _).bind fun b => ?_
  by_cases hb : b.2.isEmpty
  · simp only [hb, if_true]; exact Agree.refl _
  · simp only [hb]; exact agree_error _ _

/-! ### Words -/

variable {Q : Type} [Quantity Q]

theorem splitDuration_agree (line column line' column' : Int) (word : List Char) :
    Agree (splitDuration line column word : Except ReadFault (List Char × Option Q))
      (splitDuration line' column' word) := by
  unfold splitDuration
  cases splitColon word with
  | none => exact Agree.refl _
  | some r =>
    dsimp only
    split
    · exact Agree.refl _
    · cases (readBeats r.2 : Except Cause Q) with
      | ok beats => exact Agree.refl _
      | error cause => exact agree_error _ _

theorem Sound.read_agree (table : Table) {s t : Source} (h : s.text = t.text) :
    Agree (Sound.read table s) (Sound.read table t) := by
  unfold Sound.read
  rw [h]
  split
  · exact Agree.refl _
  · split
    · exact Agree.refl _
    · split
      · exact Agree.refl _
      · exact (Chord.read_agree table h).map _

theorem TokenContent.read_sound (table : Table) {s : Source} (h : s.text.head? ≠ some '@') :
    (TokenContent.read table s : Except ReadFault (TokenContent Q))
      = (splitDuration s.line s.column s.text >>= fun r =>
          (Sound.read table { s with text := r.1 }).map fun sound => .sound sound r.2) := by
  unfold TokenContent.read
  split
  · rename_i name heq
    exact absurd (by rw [heq]; rfl) h
  · cases (splitDuration s.line s.column s.text : Except ReadFault (List Char × Option Q)) with
    | error e => rfl
    | ok r =>
      show (Sound.read table { s with text := r.1 } >>= fun sound =>
        pure (TokenContent.sound sound r.2)) = (Sound.read table { s with text := r.1 }).map _
      cases Sound.read table { s with text := r.1 } with
      | error e => rfl
      | ok sound => rfl

theorem TokenContent.read_key (table : Table) {name : List Char} {k : Key}
    (h : Key.read (String.ofList name) = .ok k) (line column : Int) :
    (TokenContent.read table ⟨'@' :: name, line, column⟩ : Except ReadFault (TokenContent Q))
      = .ok (.key k) := by
  unfold TokenContent.read
  split
  · rename_i name' heq
    obtain rfl : name = name' := (List.cons.inj heq).2
    rw [h]
  · rename_i hne
    exact absurd rfl (hne name)

/-- **A word says the same wherever it stands.** -/
theorem TokenContent.read_agree (table : Table) {s t : Source} (h : s.text = t.text) :
    Agree (TokenContent.read table s : Except ReadFault (TokenContent Q))
      (TokenContent.read table t) := by
  unfold TokenContent.read
  rw [h]
  split
  · rename_i name _
    cases Key.read (String.ofList name) with
    | ok k => exact Agree.refl _
    | error e => exact agree_error _ _
  · refine (splitDuration_agree _ _ _ _ _).bind fun r => ?_
    obtain ⟨body, duration⟩ := r
    have hsound : Agree (Sound.read table { s with text := body })
        (Sound.read table { t with text := body }) := Sound.read_agree table rfl
    exact hsound.bind fun sound => Agree.refl _

/-! ### Builders -/

theorem Builder.feed_agree (b : Builder Q) {t u : Token Q} (h : t.content = u.content) :
    Agree (b.feed t) (b.feed u) := by
  unfold Builder.feed
  rw [h]
  cases u.content with
  | sound s d =>
    cases s with
    | again =>
      cases b.previous with
      | none => exact agree_error _ _
      | some c => exact Agree.refl _
    | _ => exact Agree.refl _
  | _ => exact Agree.refl _

end LeadSheet
