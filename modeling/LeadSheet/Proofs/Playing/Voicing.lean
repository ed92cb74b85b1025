import LeadSheet.Proofs.Playing.Whole

/-!
# Where a chord is placed

The tones of a chord are stacked up from its root, and the stack is moved by an octave
at most (`Chord.exists_placed`).  A bass is moved down by octaves while it is not below
the chord and then up while the next octave is: both loops end (`exists_loop`), and
together they end in the octave right below the chord, from wherever they start
(`bassLoops_iff`).

`Chord.placed_of_read` puts the two together: whatever the octave and the chord
before, a chord stands on its root, and its bass right below it.
-/

namespace LeadSheet

/-! ### Loops over notes -/

/-- The runs of a loop that moves a note by a shift as long as a test holds. -/
inductive Loop (goes : Int → Prop) (shift : Int) : Int → Int → Prop
  | rest {n : Int} (h : ¬ goes n) : Loop goes shift n n
  | turn {n m : Int} (h : goes n) (run : Loop goes shift (n + shift) m) : Loop goes shift n m

namespace Loop

variable {goes : Int → Prop} {shift n m : Int}

theorem not_goes (h : Loop goes shift n m) : ¬ goes m := by
  induction h with
  | rest h => exact h
  | turn _ _ ih => exact ih

theorem invariant {P : Int → Prop} (hstep : ∀ n, goes n → P n → P (n + shift))
    (h : Loop goes shift n m) (hn : P n) : P m := by
  induction h with
  | rest => exact hn
  | turn h _ ih => exact ih (hstep _ h hn)

theorem emod_eq (h : Loop goes shift n m) : m % shift = n % shift :=
  h.invariant (P := fun k => k % shift = n % shift) (fun _ _ hk => by simpa using hk) rfl

theorem emod_eq_of_neg (h : Loop goes (-shift) n m) : m % shift = n % shift := by
  simpa only [Int.emod_neg] using h.emod_eq

theorem eq_or_goes (h : Loop goes shift n m) : m = n ∨ goes n ∧ goes (m - shift) := by
  induction h with
  | rest => exact .inl rfl
  | @turn n m hgoes _ ih =>
    refine .inr ⟨hgoes, ?_⟩
    rcases ih with rfl | ⟨-, hlast⟩
    · rwa [Int.add_sub_cancel]
    · exact hlast

end Loop

theorem exists_loop (goes : Int → Prop) (shift : Int) (measure : Int → Nat)
    (hless : ∀ n, goes n → measure (n + shift) < measure n) (n : Int) :
    ∃ m, Loop goes shift n m := by
  induction hk : measure n using Nat.strongRecOn generalizing n with
  | ind k ih =>
    by_cases h : goes n
    · obtain ⟨m, hm⟩ := ih _ (hk ▸ hless n h) (n + shift) rfl
      exact ⟨m, .turn h hm⟩
    · exact ⟨n, .rest h⟩

/-- The runs of the two loops that put a bass below a limit: down by octaves while it
is not below, then up by octaves while it stays below. -/
def BassLoops (limit note bass : Int) : Prop :=
  ∃ n, Loop (limit ≤ ·) (-12) note n ∧ Loop (· + 12 < limit) 12 n bass

/-- **The loops of a bass end, and only in the octave right below the limit.** -/
theorem bassLoops_iff {limit note bass : Int} :
    BassLoops limit note bass ↔ bass = wholeBelow note limit := by
  have hends : ∀ {bass}, BassLoops limit note bass → bass = wholeBelow note limit := by
    rintro bass ⟨n, hdown, hup⟩
    have hn := hdown.not_goes
    have hnear := hup.not_goes
    have hbelow : bass < limit := hup.invariant (P := (· < limit)) (fun k hk _ => hk) (by omega)
    have hname : bass % 12 = note % 12 := hup.emod_eq.trans hdown.emod_eq_of_neg
    have hwhole := wholeBelow_lt note limit
    have hwhole' := le_wholeBelow_add note limit
    have hname' := wholeBelow_emod note limit
    omega
  refine ⟨hends, ?_⟩
  rintro rfl
  obtain ⟨n, hdown⟩ := exists_loop (limit ≤ ·) (-12)
    (fun n => (n + 12 - limit).toNat) (fun n hn => by omega) note
  obtain ⟨bass, hup⟩ := exists_loop (· + 12 < limit) 12
    (fun n => (limit - n).toNat) (fun n hn => by omega) n
  have hrun : BassLoops limit note bass := ⟨n, hdown, hup⟩
  exact hends hrun ▸ hrun

/-! ### Chords in place -/

/-- A chord on its root.  The close strategy leaves the root in the octave, the nearest
one moves it by at most one. -/
structure Chord.Placed (strategy : Strategy) (octave : Int) (root : PitchClass) (c : Chord)
    (lowest : Int) (notes : List Int) : Prop where
  head : notes.head? = some lowest
  ascending : notes.Pairwise (· < ·)
  /-- The chord has the notes of its tones and no others. -/
  tones : notes.map (· - lowest) = c.intervals
  name : lowest % 12 = root.value
  close : strategy = .close → lowest = 12 * (octave + 1) + root.value
  near : lowest - (12 * (octave + 1) + root.value) ∈ [-12, 0, 12]

/-- A bass right below a note, where two loops lead that start an octave below a
given one. -/
structure BassPlaced (octave : Int) (p : PitchClass) (lowest bass : Int) : Prop where
  loops : BassLoops lowest (noteIn (octave - 1) (p.value : Int)) bass
  name : bass % 12 = p.value
  below : bass < lowest
  near : lowest ≤ bass + 12

theorem moved_whole (octaves : Int) (notes : List Int) :
    moved octaves notes = notes.map (· + octaves * 12) :=
  rfl

theorem exists_place_eq (strategy : Strategy) (previous : Option (Voiced Int))
    (notes : List Int) : ∃ shift ∈ ([-12, 0, 12] : List Int),
      (strategy = .close → shift = 0) ∧ strategy.place previous notes = notes.map (· + shift) := by
  have hstays : notes = notes.map (· + (0 : Int)) := by simp
  unfold Strategy.place
  split
  · split
    · exact ⟨0, by decide, fun _ => rfl, hstays⟩
    · rename_i p _
      have hmem := firstLeast_mem (fun c => distance c p.chord)
        [moved (-1) notes, moved 1 notes] (moved 0 notes)
      simp only [List.mem_cons, List.not_mem_nil, or_false, moved_whole] at hmem
      unfold towards
      rcases hmem with h | h | h
      · exact ⟨0, by decide, fun _ => rfl, h⟩
      · exact ⟨-12, by decide, nofun, h⟩
      · exact ⟨12, by decide, nofun, h⟩
  · exact ⟨0, by decide, fun _ => rfl, hstays⟩

theorem Chord.exists_placed {c : Chord} (hhead : c.intervals.head? = some 0)
    (strategy : Strategy) (octave : Int) (previous : Option (Voiced Int)) (root : PitchClass) :
    ∃ lowest notes, strategy.place previous (stack octave root c) = lowest :: notes
      ∧ c.Placed strategy octave root lowest (lowest :: notes) := by
  obtain ⟨shift, hshift, hclose, hplace⟩ := exists_place_eq strategy previous (stack octave root c)
  let lowest : Int := 12 * (octave + 1) + root.value + shift
  -- a stack is made of tones above its root, so it moves with its root
  have hnotes : strategy.place previous (stack octave root c) = c.intervals.map (lowest + ·) := by
    rw [hplace]
    unfold stack
    rw [List.map_map]
    refine List.map_congr_left fun i _ => ?_
    show ((octave + 1) * 12 + root.value) + i + shift = 12 * (octave + 1) + root.value + shift + i
    omega
  obtain ⟨tones, htones⟩ := List.head?_eq_some_iff.mp hhead
  have hcons : c.intervals.map (lowest + ·) = lowest :: tones.map (lowest + ·) := by
    rw [htones, List.map_cons, Int.add_zero]
  have hshift' : shift = -12 ∨ shift = 0 ∨ shift = 12 := by simpa using hshift
  refine ⟨lowest, tones.map (lowest + ·), hnotes.trans hcons, ?_⟩
  constructor
  · rfl
  · rw [← hcons]
    exact c.sorted_intervals.map _ fun _ _ h => by omega
  · rw [← hcons, List.map_map]
    refine (List.map_congr_left fun i _ => ?_).trans (List.map_id _)
    show lowest + i - lowest = i
    omega
  · have := root.value.isLt
    show (12 * (octave + 1) + (root.value : Int) + shift) % 12 = root.value
    omega
  · intro h
    show 12 * (octave + 1) + (root.value : Int) + shift = _
    rw [hclose h, Int.add_zero]
  · have hmoved : lowest - (12 * (octave + 1) + root.value) = shift := by
      show 12 * (octave + 1) + (root.value : Int) + shift - _ = _
      omega
    rwa [hmoved]

theorem bassNote_of_resolve {c : Chord} {key : Option Key} {r : Root} {p : PitchClass}
    (hbass : c.bass = some r) (hp : r.resolve key = .ok p) (octave lowest : Int) :
    ∃ bass, bassNote octave key c lowest = .ok (some bass)
      ∧ BassPlaced octave p lowest bass := by
  let note : Int := noteIn (octave - 1) (p.value : Int)
  refine ⟨wholeBelow note lowest, ?_, bassLoops_iff.mpr rfl, ?_, wholeBelow_lt _ _,
    le_wholeBelow_add _ _⟩
  · unfold bassNote
    rw [hbass]
    dsimp only
    rw [hp]
    rfl
  · have := p.value.isLt
    rw [wholeBelow_emod]
    show ((octave - 1 + 1) * 12 + (p.value : Int)) % 12 = p.value
    omega

/-- **Chords and basses are placed in their octaves.**  A chord whose degrees have a
key is placed in every octave and behind every chord: on its root, with its tones above
it, and with its bass right below it if it has one. -/
theorem Chord.placed_of_read {source : Source} {c : Chord}
    (hread : Chord.read Table.standard source = .ok c) {key : Option Key} (hkey : c.Keyed key)
    (strategy : Strategy) (octave : Int) (previous : Option (Voiced Int)) :
    c.intervals.head? = some 0 ∧ (∀ n ∈ c.intervals, 0 ≤ n ∧ n ≤ 22)
      ∧ ∃ root lowest v, c.root.resolve key = .ok root
        ∧ strategy.voice octave key previous c = .ok v
        ∧ c.Placed strategy octave root lowest v.chord
        ∧ (c.bass = none → v.bass = none)
        ∧ ∀ r, c.bass = some r → ∃ p bass, r.resolve key = .ok p ∧ v.bass = some bass
          ∧ BassPlaced octave p lowest bass := by
  have hquality := (legible_of_read hread).quality
  have hhead := head?_intervals hquality
  refine ⟨hhead, intervals_nonneg_le hquality, ?_⟩
  obtain ⟨root, hroot⟩ := (c.root.exists_resolve_iff key).mpr fun h => (hkey h).1
  obtain ⟨lowest, notes, hplace, hplaced⟩ := exists_placed hhead strategy octave previous root
  have hvoice : strategy.voice octave key previous c
      = (bassNote octave key c lowest).map fun bass => ⟨lowest :: notes, bass⟩ := by
    unfold Strategy.voice
    rw [hroot]
    dsimp only
    rw [hplace]
  cases hbass : c.bass with
  | none =>
    have hnone : bassNote octave key c lowest = .ok none := by
      unfold bassNote
      rw [hbass]
    rw [hnone] at hvoice
    exact ⟨root, lowest, _, hroot, hvoice, hplaced, fun _ => rfl, nofun⟩
  | some r =>
    obtain ⟨p, hp⟩ := (r.exists_resolve_iff key).mpr fun h => (hkey h).2 r hbass
    obtain ⟨bass, hnote, hunder⟩ := bassNote_of_resolve hbass hp octave lowest
    rw [hnote] at hvoice
    refine ⟨root, lowest, _, hroot, hvoice, hplaced, nofun, fun r' hr' => ?_⟩
    obtain rfl := Option.some.inj hr'
    exact ⟨p, bass, hp, rfl, hunder⟩

/-- A chord that leaves its third out is moved up towards the one before, and its bass
with it. -/
theorem Chord.placed_of_read_slash : ∃ c v bass,
    Chord.read Table.standard { text := "ii7(b5,omit3)/V".toList } = .ok c
      ∧ c.Keyed (some ⟨⟨0, none⟩, .major⟩)
      ∧ Strategy.nearest.voice (4 : Int) (some ⟨⟨0, none⟩, .major⟩) (some ⟨[79, 84, 88], none⟩) c
        = .ok v
      ∧ v.chord = [74, 80, 84] ∧ v.bass = some bass
      ∧ c.Placed .nearest 4 ⟨2, some "D"⟩ 74 v.chord ∧ BassPlaced 4 ⟨7, some "G"⟩ 74 bass := by
  let key : Option Key := some ⟨⟨0, none⟩, .major⟩
  have hfound : ((Chord.read Table.standard { text := "ii7(b5,omit3)/V".toList }).toOption.map
      fun c => (c.root.resolve key, c.bass.map (Root.resolve key),
        (Strategy.nearest.voice (4 : Int) key (some ⟨[79, 84, 88], none⟩) c).toOption.map
          Voiced.chord))
      = some (.ok ⟨2, some "D"⟩, some (.ok ⟨7, some "G"⟩), some [74, 80, 84]) := by
    decide +kernel
  obtain ⟨c, hread, hvalues⟩ := Option.map_eq_some_iff.mp hfound
  obtain ⟨hroot, hrest⟩ := Prod.mk.inj hvalues
  obtain ⟨hbass, hchord⟩ := Prod.mk.inj hrest
  have hread := eq_ok_of_toOption hread
  have hkey : c.Keyed key := nofun
  obtain ⟨v, hv, hchord⟩ := Option.map_eq_some_iff.mp hchord
  obtain ⟨r, hr, hp⟩ := Option.map_eq_some_iff.mp hbass
  have hv := eq_ok_of_toOption hv
  obtain ⟨-, -, root, lowest, v', hroot', hv', hplaced, -, hslash⟩ :=
    placed_of_read hread hkey .nearest 4 (some ⟨[79, 84, 88], none⟩)
  obtain ⟨p, bass, hp', hbass, hunder⟩ := hslash r hr
  obtain rfl := Except.ok.inj (hv.symm.trans hv')
  obtain rfl := Except.ok.inj (hroot.symm.trans hroot')
  obtain rfl := Except.ok.inj (hp.symm.trans hp')
  obtain rfl : 74 = lowest := by
    have := hplaced.head
    rw [hchord] at this
    exact Option.some.inj this
  exact ⟨c, v, bass, hread, hkey, hv, hchord, hbass, hplaced, hunder⟩

end LeadSheet
