import LeadSheet.Proofs.Number.Exact
import LeadSheet.Proofs.Score.Converted
import LeadSheet.Proofs.Writing.Score

/-!
# Reading undoes writing

Numbering the keys of a score anew leaves its entries what and where they are
(`Score.forall₂_renumber`).  Under which key an entry comes to stand is told by
the marks alone (`Score.keysShown`, `Score.map_keyOf_renumbered`).

In a score text the keys only go forward, so every change of key is marked
(`Score.Forward.kept`) by a key that is spelled.  Then the entries keep their
keys (`Score.keysShown_of_kept`), and the score is written as before
(`Score.text_renumbered`): `Score.read_text_of_read`.
-/

namespace LeadSheet

variable {Q : Type}

namespace Score

/-! ### What the marks tell -/

def keyShown (s : Score Q) (index : Nat) (now : Option Key) (e : Entry Q) : Option Key :=
  match s.newKey? index e with
  | none => now
  | some k => some k.reread

/-- The keys in effect at some entries, behind an entry under some key. -/
def keysShown (s : Score Q) (index : Nat) (now : Option Key) : List (Entry Q) → List (Option Key)
  | [] => []
  | e :: es => s.keyShown index now e :: keysShown s e.keyIndex (s.keyShown index now e) es

theorem forall₂_renumber (s : Score Q) : ∀ (es : List (Entry Q)) (index : Nat)
    (keys : List (Option Key)) (now : Nat),
    List.Forall₂ (fun e e' => e' = { e with keyIndex := e'.keyIndex }) es
      (s.renumber index keys now es).1 := by
  intro es
  induction es with
  | nil => intro index keys now; exact .nil
  | cons e es ih =>
    intro index keys now
    rw [renumber]
    cases s.newKey? index e with
    | none => exact .cons rfl (ih _ _ _)
    | some k => exact .cons rfl (ih _ _ _)

theorem exists_keys_renumber (s : Score Q) : ∀ (es : List (Entry Q)) (index : Nat)
    (keys : List (Option Key)) (now : Nat),
    ∃ more, (s.renumber index keys now es).2 = keys ++ more := by
  intro es
  induction es with
  | nil => intro index keys now; exact ⟨[], (List.append_nil _).symm⟩
  | cons e es ih =>
    intro index keys now
    rw [renumber]
    cases s.newKey? index e with
    | none => exact ih _ _ _
    | some k =>
      obtain ⟨more, hmore⟩ := ih e.keyIndex (keys ++ [some k.reread]) keys.length
      exact ⟨some k.reread :: more, by rw [hmore, List.append_assoc]; rfl⟩

theorem getD_append_of_lt {keys more : List (Option Key)} {i : Nat} (h : i < keys.length) :
    (keys ++ more).getD i none = keys.getD i none := by
  rw [List.getD_eq_getElem?_getD, List.getD_eq_getElem?_getD, List.getElem?_append_left h]

theorem map_keys_renumber (s : Score Q) : ∀ (es : List (Entry Q)) (index : Nat)
    (keys : List (Option Key)) (now : Nat), now < keys.length →
    (s.renumber index keys now es).1.map
        (fun e => (s.renumber index keys now es).2.getD e.keyIndex none)
      = s.keysShown index (keys.getD now none) es := by
  intro es
  induction es with
  | nil => intro index keys now _; rfl
  | cons e es ih =>
    intro index keys now hnow
    rw [renumber, keysShown, keyShown]
    cases s.newKey? index e with
    | none =>
      -- later marks only add keys, so that of `e` is still found at its number
      obtain ⟨more, hmore⟩ := s.exists_keys_renumber es e.keyIndex keys now
      have hih := ih e.keyIndex keys now hnow
      dsimp only
      rw [List.map_cons, hih]
      congr 1
      show (s.renumber e.keyIndex keys now es).2.getD now none = _
      rw [hmore, getD_append_of_lt hnow]
    | some k =>
      have hlen : keys.length < (keys ++ [some k.reread]).length := by
        rw [List.length_append, List.length_singleton]
        exact Nat.lt_succ_self _
      have hget : (keys ++ [some k.reread]).getD keys.length none = some k.reread := by
        rw [List.getD_eq_getElem?_getD, List.getElem?_concat_length]
        rfl
      obtain ⟨more, hmore⟩ :=
        s.exists_keys_renumber es e.keyIndex (keys ++ [some k.reread]) keys.length
      have hih := ih e.keyIndex (keys ++ [some k.reread]) keys.length hlen
      rw [hget] at hih
      dsimp only
      rw [List.map_cons, hih]
      congr 1
      show (s.renumber e.keyIndex (keys ++ [some k.reread]) keys.length es).2.getD keys.length none
        = _
      rw [hmore, getD_append_of_lt hlen, hget]

theorem map_keyOf_renumbered (s : Score Q) (key : Option Key) :
    (s.renumbered key).entries.map (s.renumbered key).keyOf = s.keysShown 0 key s.entries :=
  s.map_keys_renumber s.entries 0 [key] 0 Nat.one_pos

/-! ### Every change is marked -/

/-- Every change of key is one to a key that can be marked. -/
def Kept (s : Score Q) (index : Nat) : List (Entry Q) → Prop
  | [] => True
  | e :: es => (e.keyIndex = index ∨ (s.keyOf e).isSome) ∧ Kept s e.keyIndex es

theorem exists_keyOf_of_pos {key : Option Key} {s : Score Q} (h : KeysFrom key s.keys) {e : Entry Q}
    (hpos : 0 < e.keyIndex) (hlt : e.keyIndex < s.keys.length) :
    ∃ k, s.keyOf e = some k ∧ k.tonic.Spelled := by
  obtain ⟨rest, hkeys, hrest⟩ := h
  obtain ⟨i, hi⟩ : ∃ i, e.keyIndex = i + 1 := ⟨e.keyIndex - 1, by omega⟩
  have hlen : i < rest.length := by
    rw [hi, hkeys, List.length_cons, List.length_map] at hlt
    omega
  refine ⟨rest[i], ?_, hrest _ (List.getElem_mem hlen)⟩
  unfold keyOf
  rw [hi, hkeys, List.getD_cons_succ, List.getD_eq_getElem?_getD, List.getElem?_map,
    List.getElem?_eq_getElem hlen]
  rfl

/-- **When keys only go forward, every change is marked**, by a key that is
spelled. -/
theorem Forward.kept {key : Option Key} {s : Score Q} (hkeys : KeysFrom key s.keys)
    (h : s.Forward) :
    s.Kept 0 s.entries ∧ s.Marks (fun k => k.tonic.Spelled) 0 s.entries := by
  have hrun : ∀ (es : List (Entry Q)) (index : Nat), (∀ e ∈ es, index ≤ e.keyIndex) →
      (es.map Entry.keyIndex).Pairwise (· ≤ ·) → (∀ e ∈ es, e.keyIndex < s.keys.length) →
      s.Kept index es ∧ s.Marks (fun k => k.tonic.Spelled) index es := by
    intro es
    induction es with
    | nil => intro index _ _ _; exact ⟨trivial, trivial⟩
    | cons e es ih =>
      intro index hbehind hascending hindex
      rw [List.map_cons, List.pairwise_cons] at hascending
      obtain ⟨hkept, hmarks⟩ := ih e.keyIndex
        (fun d hd => hascending.1 d.keyIndex (List.mem_map_of_mem hd)) hascending.2
        fun d hd => hindex d (List.mem_cons_of_mem e hd)
      have hle := hbehind e (List.mem_cons_self ..)
      by_cases hi : e.keyIndex = index
      · refine ⟨⟨.inl hi, hkept⟩, ⟨?_, hmarks⟩⟩
        intro k hk
        rw [newKey?_of_eq hi] at hk
        cases hk
      · obtain ⟨k, hk, hspelled⟩ := exists_keyOf_of_pos hkeys (e := e) (by omega)
          (hindex e (List.mem_cons_self ..))
        refine ⟨⟨.inr (by rw [hk]; rfl), hkept⟩, ⟨?_, hmarks⟩⟩
        intro k' hk'
        rw [newKey?_of_ne hi, hk] at hk'
        obtain rfl := Option.some.inj hk'
        exact hspelled
  exact hrun s.entries 0 (fun e _ => Nat.zero_le _) h.ascending h.index

theorem keyShown_of_ne {s : Score Q} {index : Nat} {now : Option Key} {e : Entry Q}
    (hi : e.keyIndex ≠ index) (hsome : (s.keyOf e).isSome)
    (hspelled : ∀ k, s.newKey? index e = some k → k.tonic.Spelled) :
    s.keyShown index now e = s.keyOf e := by
  obtain ⟨k, hk⟩ := Option.isSome_iff_exists.mp hsome
  have hnew : s.newKey? index e = some k := by rw [newKey?_of_ne hi, hk]
  unfold keyShown
  rw [hnew, hk]
  exact congrArg some (Key.reread_of_spelled (hspelled k hnew))

/-- **When every change is marked, the entries keep their keys.** -/
theorem keysShown_of_kept {s : Score Q} : ∀ {es : List (Entry Q)} {index : Nat},
    s.Kept index es → s.Marks (fun k => k.tonic.Spelled) index es →
    s.keysShown index (s.keys.getD index none) es = es.map s.keyOf := by
  intro es
  induction es with
  | nil => intro index _ _; rfl
  | cons e es ih =>
    intro index hkept hmarks
    have hshown : s.keyShown index (s.keys.getD index none) e = s.keyOf e := by
      by_cases hi : e.keyIndex = index
      · rw [keyShown, newKey?_of_eq hi, ← hi]
        rfl
      · exact keyShown_of_ne hi (hkept.1.resolve_left hi) hmarks.1
    rw [keysShown, hshown, List.map_cons]
    exact congrArg _ (ih hkept.2 hmarks.2)

variable [Quantity Q]

theorem entriesText_renumber (s : Score Q) : ∀ (es : List (Entry Q)) (previous : Option (Entry Q))
    (keys : List (Option Key)) (now : Nat) (s' : Score Q),
    s.Marks (fun k => k.tonic.Spelled) (indexBehind previous) es → now < keys.length →
    (previous = none → now = 0) → s'.keys = (s.renumber (indexBehind previous) keys now es).2 →
    s'.entriesText (previous.map fun p => { p with keyIndex := now })
        (s.renumber (indexBehind previous) keys now es).1
      = s.entriesText previous es := by
  intro es
  induction es with
  | nil => intro previous keys now s' _ _ _ _; rfl
  | cons e es ih =>
    intro previous keys now s' hmarks hnow hstart hkeys
    have hindex : indexBehind (previous.map fun p => { p with keyIndex := now }) = now := by
      cases previous with
      | none => exact (hstart rfl).symm
      | some p => rfl
    have hseparator : ∀ i, ({ e with keyIndex := i } : Entry Q).separator
        (previous.map fun p => { p with keyIndex := now }) = e.separator previous := by
      intro i
      cases previous with
      | none => rfl
      | some p => rfl
    have hcons : ∀ (i : Nat) (ds : List (Entry Q)),
        s'.keyMark now { e with keyIndex := i } = s.keyMark (indexBehind previous) e →
        s'.entriesText (some { e with keyIndex := i }) ds = s.entriesText (some e) es →
        s'.entriesText (previous.map fun p => { p with keyIndex := now })
          ({ e with keyIndex := i } :: ds) = s.entriesText previous (e :: es) := by
      intro i ds hmark hrest
      rw [entriesText, entriesText, hseparator, hrest]
      change _ ++ s'.keyMark (indexBehind _) _ ++ _ ++ _
        = _ ++ s.keyMark (indexBehind previous) e ++ _ ++ _
      rw [hindex, hmark]
      rfl
    rw [renumber] at hkeys ⊢
    cases hnew : s.newKey? (indexBehind previous) e with
    | none =>
      rw [hnew] at hkeys
      refine hcons now _ ?_ (ih (some e) keys now s' hmarks.2 hnow (fun h => by cases h) hkeys)
      rw [keyMark_eq, keyMark_eq, hnew, newKey?, if_pos rfl]
    | some k =>
      rw [hnew] at hkeys
      have hlen : keys.length < (keys ++ [some k.reread]).length := by
        rw [List.length_append, List.length_singleton]
        exact Nat.lt_succ_self _
      refine hcons keys.length _ ?_
        (ih (some e) (keys ++ [some k.reread]) keys.length s' hmarks.2 hlen
          (fun h => by cases h) hkeys)
      -- the mark is that of the key as it is read back, which is the key itself
      obtain ⟨more, hmore⟩ :=
        s.exists_keys_renumber es e.keyIndex (keys ++ [some k.reread]) keys.length
      have hkeyOf : s'.keyOf { e with keyIndex := keys.length } = some k := by
        show s'.keys.getD keys.length none = some k
        rw [hkeys]
        show (s.renumber e.keyIndex (keys ++ [some k.reread]) keys.length es).2.getD _ none = _
        rw [hmore, getD_append_of_lt hlen, List.getD_eq_getElem?_getD,
          List.getElem?_concat_length, Key.reread_of_spelled (hmarks.1 k hnew)]
        rfl
      rw [keyMark_eq, keyMark_eq, hnew, newKey?_of_ne (by show keys.length ≠ now; omega), hkeyOf]

theorem text_renumbered {s : Score Q} (key : Option Key)
    (h : s.Marks (fun k => k.tonic.Spelled) 0 s.entries) : (s.renumbered key).text = s.text :=
  entriesText_renumber s s.entries none [key] 0 (s.renumbered key) h Nat.one_pos (fun _ => rfl) rfl

omit [Quantity Q] in
theorem Marks.imp {P P' : Key → Prop} (hP : ∀ k, P k → P' k) {s : Score Q} :
    ∀ {es : List (Entry Q)} {index : Nat}, s.Marks P index es → s.Marks P' index es := by
  intro es
  induction es with
  | nil => intro index _; trivial
  | cons e es ih => intro index h; exact ⟨fun k hk => hP k (h.1 k hk), ih h.2⟩

theorem legible_and_forward {key : Option Key} {text : String} {s₀ s : Score Q}
    (hread : Score.read Table.standard key text = .ok s₀)
    (hs : s = s₀ ∨ s₀.toDegrees = .ok s ∨ s₀.toPitches = .ok s) : s.Legible key ∧ s.Forward := by
  have hlegible := legible_of_read hread
  have hforward := forward_of_read hread
  rcases hs with rfl | hs | hs
  · exact ⟨hlegible, hforward⟩
  · exact ⟨hlegible.convert (fun _ _ _ => Root.legible_toDegree) hs, hforward.convert hs⟩
  · exact ⟨hlegible.convert (fun _ _ _ => Root.legible_toPitch) hs, hforward.convert hs⟩

/-- **Reading undoes writing.**  A score that was read from a text, or either
conversion of it, reads back from its text under the same key: entry by entry
the same content, place, duration, line and key, and the same text again. -/
theorem read_text_of_read (hQ : Faithful Q) {key : Option Key} {text : String} {s₀ s : Score Q}
    (hread : Score.read Table.standard key text = .ok s₀)
    (hs : s = s₀ ∨ s₀.toDegrees = .ok s ∨ s₀.toPitches = .ok s) :
    ∃ s' : Score Q, Score.read Table.standard key s.text = .ok s'
      ∧ List.Forall₂ (fun e e' => e'.content = e.content ∧ e'.measure = e.measure
          ∧ e'.beat = e.beat ∧ e'.duration = e.duration ∧ e'.line = e.line
          ∧ s'.keyOf e' = s.keyOf e) s.entries s'.entries
      ∧ s'.text = s.text := by
  obtain ⟨hlegible, hforward⟩ := legible_and_forward hread hs
  obtain ⟨hkept, hmarks⟩ := hforward.kept hlegible.keys
  refine ⟨s.renumbered key, ?_, ?_, text_renumbered key hmarks⟩
  · exact read_text hQ key hlegible.chained hlegible.entries
      (hmarks.imp fun k => Key.legible_of_spelled)
  · have hstart : s.keys.getD 0 none = key := by
      obtain ⟨rest, hkeys, -⟩ := hlegible.keys
      rw [hkeys]
      rfl
    have hkeys : (s.renumbered key).entries.map (s.renumbered key).keyOf
        = s.entries.map s.keyOf := by
      rw [map_keyOf_renumbered, ← keysShown_of_kept hkept hmarks, hstart]
    have hentries := s.forall₂_renumber s.entries 0 [key] 0
    refine (forall₂_and hentries (forall₂_of_map_eq hkeys)).imp fun e e' he => ?_
    obtain ⟨heq, hkey⟩ := he
    rw [heq] at hkey ⊢
    exact ⟨rfl, rfl, rfl, rfl, rfl, hkey⟩

/-- A tune with a change of key, in degrees. -/
theorem read_text_of_read_tune :
    Faithful Rat ∧ ∃ s₀ s : Score Rat,
      Score.read Table.standard none "@A Bm7b5/A:0.5 | =\n@Em iv(b9) E:2" = .ok s₀
      ∧ s₀.toDegrees = .ok s
      ∧ s.text = "@A iiø7/I:0.5 | =\n@Em iv(b9) I:2"
      ∧ ∃ s' : Score Rat, Score.read Table.standard none s.text = .ok s'
        ∧ List.Forall₂ (fun e e' => e'.content = e.content ∧ e'.measure = e.measure
            ∧ e'.beat = e.beat ∧ e'.duration = e.duration ∧ e'.line = e.line
            ∧ s'.keyOf e' = s.keyOf e) s.entries s'.entries
        ∧ s'.text = s.text := by
  have htext : ((Score.read (Q := Rat) Table.standard none
      "@A Bm7b5/A:0.5 | =\n@Em iv(b9) E:2").toOption.bind fun s => s.toDegrees.toOption).map
        Score.text = some "@A iiø7/I:0.5 | =\n@Em iv(b9) I:2" := by
    decide +kernel
  obtain ⟨s, hs, htext⟩ := Option.map_eq_some_iff.mp htext
  obtain ⟨s₀, hread, hs⟩ := Option.bind_eq_some_iff.mp hs
  have hread := eq_ok_of_toOption hread
  have hs := eq_ok_of_toOption hs
  exact ⟨Exact.faithful, s₀, s, hread, hs, htext,
    read_text_of_read Exact.faithful hread (.inr (.inl hs))⟩

end Score

end LeadSheet
