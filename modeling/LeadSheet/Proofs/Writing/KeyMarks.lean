import LeadSheet.Proofs.Playing.Rewriting

/-!
# The keys that marks bring back

The marks of a score text say which key begins, and every entry behind a mark
is in that key.  So what comes back from a text is the keys of the entries,
carried on to those that have none (`carried`): `Score.keysShown_like`.

A datum can go back to the key it started in, which may be none.  Its entries
come back under their own keys just when no entry without a key stands behind a
key (`carried_eq_self_iff`): `Score.keys_of_rewritten_datum`.
-/

namespace LeadSheet

/-! ### Carrying keys on -/

/-- Keys that go on where there is none, behind a first one. -/
def carried (now : Option Key) : List (Option Key) → List (Option Key)
  | [] => []
  | k :: ks => k.or now :: carried (k.or now) ks

theorem carried_eq_self_iff : ∀ {ks : List (Option Key)} {now : Option Key},
    carried now ks = ks
      ↔ ∀ before after, ks = before ++ none :: after → now = none ∧ ∀ k ∈ before, k = none := by
  intro ks
  induction ks with
  | nil =>
    intro now
    exact ⟨fun _ before after h => absurd h.symm (by simp), fun _ => rfl⟩
  | cons k ks ih =>
    intro now
    rw [carried, List.cons.injEq, ih]
    constructor
    · rintro ⟨hk, hks⟩ before after heq
      cases before with
      | nil =>
        obtain ⟨rfl, -⟩ := List.cons.inj heq
        exact ⟨hk, fun k hk => nomatch hk⟩
      | cons k' before =>
        obtain ⟨rfl, htail⟩ := List.cons.inj heq
        obtain ⟨hor, hbefore⟩ := hks before after htail
        obtain ⟨rfl, rfl⟩ := Option.or_eq_none_iff.mp hor
        exact ⟨rfl, List.forall_mem_cons.mpr ⟨rfl, hbefore⟩⟩
    · intro h
      refine ⟨?_, fun before after heq => ?_⟩
      · cases k with
        | some x => rfl
        | none => exact (h [] ks rfl).1
      · obtain ⟨hnow, hbefore⟩ := h (k :: before) after (by rw [heq]; rfl)
        obtain ⟨hk, hbefore⟩ := List.forall_mem_cons.mp hbefore
        exact ⟨by rw [hk, hnow]; rfl, hbefore⟩

theorem Key.Like.refl (k : Key) : k.Like k := ⟨rfl, rfl⟩

theorem like_iff_carried {ks ks' : List (Option Key)} {now : Option Key}
    (h : List.Forall₂ (Option.Rel Key.Like) (carried now ks) ks') :
    List.Forall₂ (Option.Rel Key.Like) ks ks' ↔ carried now ks = ks := by
  constructor
  · intro hlike
    induction hlike generalizing now with
    | nil => rfl
    | @cons k k' ks ks' hk _ ih =>
      obtain ⟨hcarried, htail⟩ := List.forall₂_cons.mp h
      have hsame : k.or now = k := by
        cases hk with
        | some _ => rfl
        | none =>
          rw [Option.none_or] at hcarried ⊢
          cases hcarried
          rfl
      rw [carried, ih htail, hsame]
  · intro hsame
    rw [hsame] at h
    exact h

variable {Q : Type}

namespace Score

/-- **The keys in effect are like those of the entries, carried on.** -/
theorem keysShown_like {s : Score Q} : ∀ {es : List (Entry Q)} {index : Nat}
    {now shown : Option Key}, s.Marks Key.Legible index es →
    Shows (s.keys.getD index none) shown → Option.Rel Key.Like now shown →
    List.Forall₂ (Option.Rel Key.Like) (carried now (es.map s.keyOf))
      (s.keysShown index shown es) := by
  intro es
  induction es with
  | nil => intro index now shown _ _ _; exact .nil
  | cons e es ih =>
    intro index now shown hmarks hshows hlike
    have hshows' := keyShown_shows hmarks.1 hshows
    rw [List.map_cons, carried, keysShown]
    have hstep : Option.Rel Key.Like ((s.keyOf e).or now) (s.keyShown index shown e) := by
      cases hkey : s.keyOf e with
      | none =>
        rw [keyShown_of_none hkey]
        exact hlike
      | some k =>
        obtain ⟨k', hk', hlike'⟩ := hshows' k hkey
        rw [Option.mem_def.mp hk']
        exact .some hlike'
    exact .cons hstep (ih hmarks.2 hshows' hstep)

variable [Quantity Q]

/-- **Which keys come back from the text of a datum.**  Its text is read under
the same first key, and gives the same entries but for the numbers of their
keys.  An entry comes under its key, or one like it, and an entry without a key
under the last one before it; so all entries keep their keys just when none
without a key stands behind one. -/
theorem keys_of_rewritten_datum (hQ : Faithful Q) {key : Option Key} {text : String} {s : Score Q}
    (hread : Score.readDatum Table.standard key text = .ok s) (hkey : ∀ k ∈ key, k.Legible) :
    ∃ s' : Score Q, Score.read Table.standard key s.text = .ok s'
      ∧ List.Forall₂ (fun e e' => e' = { e with keyIndex := e'.keyIndex }) s.entries s'.entries
      ∧ List.Forall₂ (Option.Rel Key.Like) (carried key (s.entries.map s.keyOf))
          (s'.entries.map s'.keyOf)
      ∧ (List.Forall₂ (Option.Rel Key.Like) (s.entries.map s.keyOf) (s'.entries.map s'.keyOf)
          ↔ ∀ before after, s.entries.map s.keyOf = before ++ none :: after →
            key = none ∧ ∀ k ∈ before, k = none) := by
  have hlegible := legible_of_readDatum hread
  have hmarks := hlegible.marks hkey
  have hfirst : s.keys.getD 0 none = key := by
    obtain ⟨rest, hkeys, -⟩ := hlegible.keys
    rw [hkeys]
    rfl
  have hshows : Shows (s.keys.getD 0 none) key := by
    rw [hfirst]
    exact fun k hk => ⟨k, hk, .refl k⟩
  have hlike : Option.Rel Key.Like key key := by
    cases key with
    | none => exact .none
    | some k => exact .some (.refl k)
  have hkeys := keysShown_like hmarks hshows hlike
  rw [← map_keyOf_renumbered] at hkeys
  exact ⟨s.renumbered key, read_text hQ key hlegible.chained hlegible.entries hmarks,
    s.forall₂_renumber s.entries 0 [key] 0, hkeys,
    (like_iff_carried hkeys).trans carried_eq_self_iff⟩

/-- A measure in a key and one without: the second comes back in the key of the
first. -/
theorem keys_of_rewritten_datum_lost_key :
    Faithful Rat ∧ ∃ s s' : Score Rat,
      Score.readDatum Table.standard none "(score (keyed D (I)) (I))" = .ok s
      ∧ s.entries.map s.keyOf = [some ⟨⟨2, some "D"⟩, .major⟩, none]
      ∧ s.text = "@D I | I"
      ∧ Score.read Table.standard none s.text = .ok s'
      ∧ List.Forall₂ (Option.Rel Key.Like)
          [some ⟨⟨2, some "D"⟩, .major⟩, some ⟨⟨2, some "D"⟩, .major⟩] (s'.entries.map s'.keyOf)
      ∧ ¬ List.Forall₂ (Option.Rel Key.Like) (s.entries.map s.keyOf)
          (s'.entries.map s'.keyOf) := by
  have hwritten : (Score.readDatum (Q := Rat) Table.standard none
      "(score (keyed D (I)) (I))").toOption.map (fun s => (s.entries.map s.keyOf, s.text))
        = some ([some ⟨⟨2, some "D"⟩, .major⟩, none], "@D I | I") := by
    decide +kernel
  obtain ⟨s, hs, hwritten⟩ := Option.map_eq_some_iff.mp hwritten
  obtain ⟨hkeys, htext⟩ := Prod.mk.inj hwritten
  have hs := eq_ok_of_toOption hs
  obtain ⟨s', hread, -, hcarried, hiff⟩ :=
    keys_of_rewritten_datum Exact.faithful hs fun k hk => nomatch hk
  rw [hkeys] at hcarried hiff
  refine ⟨Exact.faithful, s, s', hs, hkeys, htext, hread, hcarried, fun hlike => ?_⟩
  rw [hkeys] at hlike
  have hlost := (hiff.mp hlike [some ⟨⟨2, some "D"⟩, .major⟩] [] rfl).2
  exact absurd (hlost _ (List.mem_singleton_self _)) (by simp)

end Score

end LeadSheet
