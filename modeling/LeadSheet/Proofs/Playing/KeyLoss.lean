import LeadSheet.Proofs.Playing.Whole
import LeadSheet.Proofs.Writing.Reread

/-!
# Keys that are lost in writing

A score text has marks for keys and none for their absence.  So a chord
without a key, behind an entry that is in one, comes under that key when the
score is written and read again: the score loses its key (`Score.losesKey`).
In a score text keys only go forward and none is lost
(`Score.Kept.losesKeyFrom_eq_false`).

What has a key comes back under a key that is like it (`Score.keyShown_shows`).
Where a key is lost, every chord comes under a key, though one had none
(`Score.chordsKeyed_of_losesKeyFrom`).
-/

namespace LeadSheet

/-! ### Like keys -/

/-- A key with the same tones, spelling apart. -/
structure Key.Like (k k' : Key) : Prop where
  tonic : k'.tonic.value = k.tonic.value
  mode : k'.mode = k.mode

theorem Key.Legible.like_reread {k : Key} (h : k.Legible) : k.Like k.reread := by
  obtain ⟨p, hname, hvalue⟩ := h
  rw [reread_eq hname]
  exact ⟨hvalue, rfl⟩

theorem Root.tone_like {k k' : Key} (h : k.Like k') (r : Root) :
    r.tone (some k') = r.tone (some k) := by
  cases r with
  | pitch p => rfl
  | degree d =>
    refine congrArg Except.ok ?_
    rw [d.pitch_value, d.pitch_value, h.tonic, h.mode]

theorem Chord.alike_like {k k' : Key} (h : k.Like k') (c : Chord) :
    c.Alike (some k) (some k') c := by
  refine ⟨Root.tone_like h c.root, rfl, rfl, ?_⟩
  cases c.bass with
  | none => rfl
  | some r => exact congrArg some (Root.tone_like h r)

def Shows (k now : Option Key) : Prop :=
  ∀ x ∈ k, ∃ y ∈ now, x.Like y

variable {Q : Type}

namespace Score

/-! ### Losing a key -/

/-- Whether the first chord without a key, among some entries, stands behind a
key. -/
def losesKeyFrom (s : Score Q) (keyed : Bool) : List (Entry Q) → Bool
  | [] => false
  | e :: es =>
    match s.keyOf e with
    | some _ => losesKeyFrom s true es
    | none => if e.chord?.isSome then keyed else losesKeyFrom s keyed es

/-- Whether the first chord of a score without a key stands behind a key. -/
def losesKey (s : Score Q) : Bool :=
  s.losesKeyFrom (s.keys.getD 0 none).isSome s.entries

/-- **When every change is marked no key is lost.** -/
theorem Kept.losesKeyFrom_eq_false {s : Score Q} : ∀ {es : List (Entry Q)} {index : Nat},
    s.Kept index es → s.losesKeyFrom (s.keys.getD index none).isSome es = false := by
  intro es
  induction es with
  | nil => intro index _; rfl
  | cons e es ih =>
    intro index h
    have hrest : s.losesKeyFrom (s.keyOf e).isSome es = false := ih h.2
    rw [losesKeyFrom]
    cases hkey : s.keyOf e with
    | some k =>
      rw [hkey] at hrest
      exact hrest
    | none =>
      rcases h.1 with hindex | hsome
      · have hnow : s.keys.getD index none = none := by
          rw [← hindex]
          exact hkey
        rw [hkey] at hrest
        rw [hnow]
        dsimp only
        split
        · rfl
        · exact hrest
      · rw [hkey] at hsome
        cases hsome

theorem losesKeyFrom_congr {s s' : Score Q} {es es' : List (Entry Q)}
    (h : List.Forall₂ (fun e e' => s'.keyOf e' = s.keyOf e
      ∧ e'.chord?.isSome = e.chord?.isSome) es es') : ∀ keyed : Bool,
    s'.losesKeyFrom keyed es' = s.losesKeyFrom keyed es := by
  induction h with
  | nil => intro keyed; rfl
  | @cons e e' es es' he _ ih =>
    intro keyed
    obtain ⟨hkey, hchord⟩ := he
    rw [losesKeyFrom, losesKeyFrom, hkey, hchord, ih, ih]

/-! ### The keys that are shown -/

theorem keyShown_shows {s : Score Q} {index : Nat} {now : Option Key} {e : Entry Q}
    (hmark : ∀ k, s.newKey? index e = some k → k.Legible)
    (hnow : Shows (s.keys.getD index none) now) : Shows (s.keyOf e) (s.keyShown index now e) := by
  intro x hx
  unfold keyShown
  by_cases hi : e.keyIndex = index
  · rw [newKey?_of_eq hi]
    refine hnow x ?_
    rw [← hi]
    exact hx
  · have hnew : s.newKey? index e = some x := (newKey?_of_ne hi).trans hx
    rw [hnew]
    exact ⟨_, rfl, (hmark x hnew).like_reread⟩

theorem isSome_keyShown {s : Score Q} {index : Nat} {now : Option Key} {e : Entry Q}
    (hnow : now.isSome) : (s.keyShown index now e).isSome := by
  unfold keyShown
  cases s.newKey? index e with
  | none => exact hnow
  | some k => rfl

theorem keyShown_of_none {s : Score Q} {index : Nat} {now : Option Key} {e : Entry Q}
    (h : s.keyOf e = none) : s.keyShown index now e = now := by
  unfold keyShown
  cases hnew : s.newKey? index e with
  | none => rfl
  | some k =>
    rw [keyOf_of_newKey? hnew] at h
    cases h

def ChordsKeyed (es : List (Entry Q)) (ks : List (Option Key)) : Prop :=
  List.Forall₂ (fun e k => e.chord?.isSome → k.isSome) es ks

theorem chordsKeyed_of_isSome (s : Score Q) : ∀ (es : List (Entry Q)) (index : Nat)
    (now : Option Key), now.isSome → ChordsKeyed es (s.keysShown index now es) := by
  intro es
  induction es with
  | nil => intro index now _; exact .nil
  | cons e es ih =>
    intro index now hnow
    have hshown : (s.keyShown index now e).isSome := isSome_keyShown hnow
    exact .cons (fun _ => hshown) (ih e.keyIndex _ hshown)

/-- **Where a key is lost, every chord comes under a key, though one had
none.** -/
theorem chordsKeyed_of_losesKeyFrom {s : Score Q} : ∀ {es : List (Entry Q)} {index : Nat}
    {now : Option Key}, s.Marks Key.Legible index es → Shows (s.keys.getD index none) now →
    s.losesKeyFrom now.isSome es = true →
    ChordsKeyed es (s.keysShown index now es)
      ∧ ∃ e ∈ es, e.chord?.isSome ∧ s.keyOf e = none := by
  intro es
  induction es with
  | nil => intro index now _ _ h; cases h
  | cons e es ih =>
    intro index now hmarks hnow h
    have hshows := keyShown_shows hmarks.1 hnow
    rw [losesKeyFrom] at h
    rw [keysShown]
    cases hkey : s.keyOf e with
    | some k =>
      rw [hkey] at h
      have hsome : (s.keyShown index now e).isSome := by
        obtain ⟨y, hy, -⟩ := hshows k hkey
        rw [hy]
        rfl
      have hrest : s.losesKeyFrom (s.keyShown index now e).isSome es = true := by
        rw [hsome]
        exact h
      obtain ⟨hchords, d, hd, hlost⟩ := ih hmarks.2 hshows hrest
      exact ⟨.cons (fun _ => hsome) hchords, d, List.mem_cons_of_mem e hd, hlost⟩
    | none =>
      rw [hkey] at h
      have hshown : s.keyShown index now e = now := keyShown_of_none hkey
      rw [hshown] at hshows ⊢
      dsimp only at h
      -- the first chord without a key: what is in effect here stays in effect from now on
      by_cases hchord : e.chord?.isSome
      · rw [if_pos hchord] at h
        exact ⟨.cons (fun _ => h) (s.chordsKeyed_of_isSome es e.keyIndex now h), e,
          List.mem_cons_self .., hchord, hkey⟩
      · rw [if_neg hchord] at h
        obtain ⟨hchords, d, hd, hlost⟩ := ih hmarks.2 hshows h
        exact ⟨.cons (fun hchord' => absurd hchord' hchord) hchords, d,
          List.mem_cons_of_mem e hd, hlost⟩

end Score

end LeadSheet
