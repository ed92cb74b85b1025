import LeadSheet.Proofs.Playing.Voicing
import LeadSheet.Proofs.Settings.Checked

/-!
# The shape of a chord that is played

A chord is placed with its notes in ascending order and its bass below them
(`Voiced.Shaped`, `Chord.shaped_of_voice`).  Then every note is brought into range on its
own, by as many octaves as it takes (`octavesOut`), and two notes that are moved
differently may meet or pass each other.  The shape stays just when none do
(`Voiced.StaysApart`, `Voiced.shaped_fit_iff`).  In the octaves in the middle none have
to be moved (`Chord.inRange_of_voice`), and in each of the others some score loses its
shape (`Score.exists_losesShape`).

`Placings` is the run of the strategy through a score: every chord is placed behind the one
before it, brought into range.  `Score.shaped_of_read` says of every chord of a timeline
whether it has its shape.
-/

namespace LeadSheet

/-- A voicing with its notes in ascending order and its bass below them. -/
structure Voiced.Shaped {ν : Type} [NoteNumber ν] (v : Voiced ν) : Prop where
  ascending : v.chord.Pairwise fun m n => NoteNumber.less m n = true
  bass : ∀ b ∈ v.bass, ∀ n ∈ v.chord, NoteNumber.less b n = true

instance {ν : Type} [NoteNumber ν] (v : Voiced ν) : Decidable v.Shaped :=
  decidable_of_iff ((v.chord.Pairwise fun m n => NoteNumber.less m n = true)
      ∧ ∀ b ∈ v.bass, ∀ n ∈ v.chord, NoteNumber.less b n = true)
    ⟨fun h => ⟨h.1, h.2⟩, fun h => ⟨h.ascending, h.bass⟩⟩

/-! ### Notes brought into range -/

/-- The octaves that a note is moved down by to be in range. -/
def octavesOut (n : Int) : Int :=
  (n - wholeFit n) / 12

theorem wholeFit_eq (n : Int) : wholeFit n = n - 12 * octavesOut n := by
  have hname := wholeFit_emod n
  unfold octavesOut
  omega

/-- The notes of a voicing of which no two are so far out of range that they meet or pass
each other when they are brought into it. -/
def Voiced.StaysApart (v : Voiced Int) : Prop :=
  v.notes.Pairwise fun m n => 12 * (octavesOut n - octavesOut m) < n - m

namespace Voiced

variable {v : Voiced Int}

theorem shaped_iff : v.Shaped ↔ v.notes.Pairwise (· < ·) := by
  have hless : ∀ {m n : Int}, NoteNumber.less m n = true ↔ m < n := decide_eq_true_iff
  unfold notes
  cases hbass : v.bass with
  | none =>
    refine ⟨fun h => h.ascending.imp hless.mp, fun h => ⟨h.imp hless.mpr, fun b hb => ?_⟩⟩
    rw [hbass] at hb
    cases hb
  | some b =>
    refine Iff.trans ?_ List.pairwise_cons.symm
    constructor
    · intro h
      exact ⟨fun n hn => hless.mp (h.bass b hbass n hn), h.ascending.imp hless.mp⟩
    · rintro ⟨hbelow, hascending⟩
      refine ⟨hascending.imp hless.mpr, fun b' hb' n hn => ?_⟩
      rw [hbass] at hb'
      cases hb'
      exact hless.mpr (hbelow n hn)

/-- **Bringing a voicing into range keeps its shape** just when its notes stay apart. -/
theorem shaped_fit_iff : (v.map wholeFit).Shaped ↔ v.StaysApart := by
  have hless : ∀ m n : Int, wholeFit m < wholeFit n
      ↔ 12 * (octavesOut n - octavesOut m) < n - m := by
    intro m n
    rw [wholeFit_eq, wholeFit_eq]
    omega
  rw [shaped_iff, notes_map, List.pairwise_map]
  exact List.Pairwise.iff hless

theorem Shaped.staysApart (h : v.Shaped) (hrange : ∀ n ∈ v.notes, 0 ≤ n ∧ n ≤ highestNote) :
    v.StaysApart := by
  have hin : ∀ n ∈ v.notes, octavesOut n = 0 := by
    intro n hn
    unfold octavesOut
    rw [wholeFit_of_mem (hrange n hn).1 (hrange n hn).2]
    simp
  refine (shaped_iff.mp h).imp_of_mem fun {m n} hm hn hless => ?_
  rw [hin m hm, hin n hn]
  omega

theorem shaped_whole_iff {Q : Type} [Quantity Q] :
    (v.map (Number.whole (Q := Q))).Shaped ↔ v.Shaped := by
  have hless : ∀ m n : Int, NoteNumber.less (Number.whole m : Number Q) (.whole n) = true
      ↔ NoteNumber.less m n = true := by
    intro m n
    show Number.less (Number.whole m : Number Q) (.whole n) = true ↔ _
    rw [Number.less_whole rfl]
    exact Iff.rfl
  constructor
  · intro h
    refine ⟨(List.pairwise_map.mp h.ascending).imp (hless _ _).mp, fun b hb n hn => ?_⟩
    exact (hless b n).mp (h.bass _ (Option.mem_map_of_mem _ hb) _ (List.mem_map_of_mem hn))
  · intro h
    refine ⟨List.pairwise_map.mpr (h.ascending.imp (hless _ _).mpr), fun b hb n hn => ?_⟩
    obtain ⟨b', hb', rfl⟩ := Option.mem_map.mp hb
    obtain ⟨n', hn', rfl⟩ := List.mem_map.mp hn
    exact (hless b' n').mpr (h.bass b' hb' n' hn')

end Voiced

/-! ### Chords that are placed -/

theorem bass_of_bassNote {octave lowest : Int} {key : Option Key} {c : Chord} {bass : Option Int}
    (h : bassNote octave key c lowest = .ok bass) :
    ∀ b ∈ bass, b < lowest ∧ lowest ≤ b + 12 := by
  unfold bassNote at h
  split at h
  · cases h
    intro b hb
    cases hb
  · split at h
    · cases h
    · cases h
      intro b hb
      obtain rfl := Option.some.inj hb
      exact ⟨wholeBelow_lt _ _, le_wholeBelow_add _ _⟩

section Placed

variable {strategy : Strategy} {octave : Int} {key : Option Key} {previous : Option (Voiced Int)}
  {c : Chord} {v : Voiced Int}

theorem Chord.exists_placed_of_voice (hquality : c.quality ∈ Quality.standard)
    (h : strategy.voice octave key previous c = .ok v) :
    ∃ root lowest, c.Placed strategy octave root lowest v.chord
      ∧ ∀ b ∈ v.bass, b < lowest ∧ lowest ≤ b + 12 := by
  obtain ⟨root, lowest, notes, -, hplace, hchord, hbass⟩ := exists_of_voice h
  obtain ⟨lowest', notes', hplace', hplaced⟩ :=
    exists_placed (head?_intervals hquality) strategy octave previous root
  obtain ⟨rfl, rfl⟩ := List.cons.inj (hplace.symm.trans hplace')
  exact ⟨root, lowest, hchord ▸ hplaced, bass_of_bassNote hbass⟩

theorem Chord.Placed.mem_notes {root : PitchClass} {lowest : Int} {notes : List Int}
    (h : c.Placed strategy octave root lowest notes) (hquality : c.quality ∈ Quality.standard) :
    ∀ n ∈ notes, lowest ≤ n ∧ n ≤ lowest + 22 := by
  intro n hn
  have htone : n - lowest ∈ c.intervals := h.tones ▸ List.mem_map_of_mem hn
  have hrange := intervals_nonneg_le hquality _ htone
  omega

/-- **A chord that is placed has its shape.** -/
theorem Chord.shaped_of_voice (hquality : c.quality ∈ Quality.standard)
    (h : strategy.voice octave key previous c = .ok v) : v.Shaped := by
  obtain ⟨root, lowest, hplaced, hbass⟩ := exists_placed_of_voice hquality h
  refine ⟨hplaced.ascending.imp decide_eq_true, fun b hb n hn => decide_eq_true ?_⟩
  have hbelow := (hbass b hb).1
  have hlow := (hplaced.mem_notes hquality n hn).1
  omega

/-- The octaves in which a strategy puts no chord of a standard quality out of range. -/
def Strategy.InRange (strategy : Strategy) (octave : Int) : Prop :=
  (strategy = .close ∧ 0 ≤ octave ∧ octave ≤ 6) ∨ (1 ≤ octave ∧ octave ≤ 5)

/-- **In the middle octaves a chord is placed in range.** -/
theorem Chord.inRange_of_voice (hquality : c.quality ∈ Quality.standard)
    (h : strategy.voice octave key previous c = .ok v) (hrange : strategy.InRange octave) :
    ∀ n ∈ v.notes, 0 ≤ n ∧ n ≤ highestNote := by
  obtain ⟨root, lowest, hplaced, hbass⟩ := exists_placed_of_voice hquality h
  have hroot := root.value.isLt
  have hlowest : 12 ≤ lowest ∧ lowest ≤ 105 := by
    rcases hrange with ⟨hclose, hlow, hhigh⟩ | ⟨hlow, hhigh⟩
    · rw [hplaced.close hclose]
      omega
    · have hnear := hplaced.near
      simp only [List.mem_cons, List.not_mem_nil, or_false] at hnear
      omega
  intro n hn
  unfold highestNote
  rcases List.mem_append.mp hn with hn | hn
  · have hbelow := hbass n (Option.mem_toList.mp hn)
    omega
  · have hnote := hplaced.mem_notes hquality n hn
    omega

end Placed

/-! ### Scores -/

variable {Q : Type} {strategy : Strategy} {octave : Int} {s : Score Q}

/-- The voicings that a strategy gives to the chords of some entries, before they are
brought into range.  Each is placed behind the one before it, brought into range. -/
inductive Placings (strategy : Strategy) (octave : Int) (s : Score Q) :
    Option (Voiced Int) → List (Entry Q) → List (Voiced Int) → Prop
  | nil {previous : Option (Voiced Int)} : Placings strategy octave s previous [] []
  | silent {previous : Option (Voiced Int)} {e : Entry Q} {es : List (Entry Q)}
      {vs : List (Voiced Int)} (h : e.chord? = none)
      (run : Placings strategy octave s previous es vs) :
      Placings strategy octave s previous (e :: es) vs
  | chord {previous : Option (Voiced Int)} {e : Entry Q} {es : List (Entry Q)} {c : Chord}
      {v : Voiced Int} {vs : List (Voiced Int)} (h : e.chord? = some c)
      (hv : strategy.voice octave (s.keyOf e) previous c = .ok v)
      (run : Placings strategy octave s (some (v.map wholeFit)) es vs) :
      Placings strategy octave s previous (e :: es) (v :: vs)

theorem Placings.forall_mem {P : Voiced Int → Prop} {previous : Option (Voiced Int)}
    {es : List (Entry Q)} {vs : List (Voiced Int)} (h : Placings strategy octave s previous es vs)
    (hP : ∀ e ∈ es, ∀ c ∈ e.chord?, ∀ previous v,
      strategy.voice octave (s.keyOf e) previous c = .ok v → P v) : ∀ v ∈ vs, P v := by
  induction h with
  | nil => intro v hv; cases hv
  | silent _ _ ih => exact ih (List.forall_mem_cons.mp hP).2
  | chord h hv _ ih =>
    obtain ⟨hhead, htail⟩ := List.forall_mem_cons.mp hP
    exact List.forall_mem_cons.mpr ⟨hhead _ h _ _ hv, ih htail⟩

variable [Quantity Q]

theorem exists_placings : ∀ {es : List (Entry Q)} {previous : Option (Voiced Int)}
    {ts : List (TimedChord Int Q)}, timelineFrom strategy octave s previous es = .ok ts →
    ∃ vs, Placings strategy octave s previous es vs
      ∧ List.Forall₂ (fun v t => t.voiced = v.map wholeFit) vs ts := by
  intro es
  induction es with
  | nil =>
    intro previous ts h
    cases h
    exact ⟨[], .nil, .nil⟩
  | cons e es ih =>
    intro previous ts h
    cases hc : e.chord? with
    | none =>
      rw [timelineFrom_of_silent hc] at h
      obtain ⟨vs, hvs, hall⟩ := ih h
      exact ⟨vs, .silent hc hvs, hall⟩
    | some c =>
      obtain ⟨placed, voiced, rest, hv, hfit, hrest, rfl⟩ :=
        timelineFrom_of_chord (Entry.chord?_eq_some_iff.mp hc) h
      rw [placed.fit_whole] at hfit
      cases hfit
      obtain ⟨vs, hvs, hall⟩ := ih hrest
      exact ⟨placed :: vs, .chord hc hv hvs, .cons rfl hall⟩

/-- What a timeline makes of a chord that is placed. -/
structure Fitted (strategy : Strategy) (octave : Int) (v : Voiced Int) (w : Voiced (Number Q)) :
    Prop where
  placed : v.Shaped
  fitted : w = (v.map wholeFit).map .whole
  shaped_iff : w.Shaped ↔ v.StaysApart
  shaped : strategy.InRange octave → w.Shaped

theorem fitted_of_voice {key : Option Key} {previous : Option (Voiced Int)} {c : Chord}
    {v : Voiced Int} (hquality : c.quality ∈ Quality.standard)
    (h : strategy.voice octave key previous c = .ok v) :
    Fitted strategy octave v ((v.map wholeFit).map (Number.whole (Q := Q))) := by
  have hplaced := Chord.shaped_of_voice hquality h
  have hiff : ((v.map wholeFit).map (Number.whole (Q := Q))).Shaped ↔ v.StaysApart :=
    Voiced.shaped_whole_iff.trans Voiced.shaped_fit_iff
  exact ⟨hplaced, rfl, hiff, fun hrange =>
    hiff.mpr (hplaced.staysApart (Chord.inRange_of_voice hquality h hrange))⟩

namespace Score

/-- **The shape of the chords of a score.**  A score whose degrees have a key is played
from chords that have their shape, and brought into range they keep it just when their
notes stay apart.  In the middle octaves they always do. -/
theorem shaped_of_read {settings : Settings Q} {key : Option Key} {text : String}
    (hread : Score.read Table.standard key text = .ok s) (hkeyed : s.Keyed)
    {number : Number Q} (hoctave : settings.octave = .number number)
    (hn : number.asInt? = some octave) :
    ∃ ts vs, timeline settings s = .ok ts
      ∧ Placings settings.voicing octave s none s.entries vs
      ∧ List.Forall₂ (fun v t => Fitted settings.voicing octave v t.voiced) vs ts := by
  have hmade := made_of_read Table.reads_standard hread
  have hquality : ∀ e ∈ s.entries, ∀ c ∈ e.chord?, c.quality ∈ Quality.standard :=
    fun e he c hc => ((hmade.entries e he).chord c hc).quality
  obtain ⟨ts, hts⟩ := (exists_timeline_iff hoctave hn fun e he c hc =>
    List.ne_nil_of_mem (Chord.zero_mem_intervals (hquality e he c hc))).mpr hkeyed
  have hwhole := hts
  rw [timeline_of_whole hoctave hn] at hwhole
  obtain ⟨ts', hts', rfl⟩ := exists_of_map_eq_ok hwhole
  obtain ⟨vs, hvs, hall⟩ := exists_placings hts'
  have hfitted := hvs.forall_mem fun e he c hc _ _ hv =>
    fitted_of_voice (Q := Q) (hquality e he c hc) hv
  have hboth := (List.forall₂_and_left _ _).mpr ⟨hfitted, hall⟩
  refine ⟨_, vs, hts, hvs, List.forall₂_map_right_iff.mpr (hboth.imp fun v t hvt => ?_)⟩
  have hvoiced : (t.map (Number.whole (Q := Q))).voiced = (v.map wholeFit).map .whole := by
    rw [← hvt.2]
    rfl
  rw [hvoiced]
  exact hvt.1

/-- In the highest octave a seventh on B ends below its root. -/
theorem shaped_of_read_high_seventh :
    ∃ (settings : Settings Rat) (s : Score Rat) (ts : List (TimedChord (Number Rat) Rat))
      (vs : List (Voiced Int)), settings.octave = .number (.whole 8)
      ∧ (Number.whole 8 : Number Rat).asInt? = some 8
      ∧ Score.read Table.standard none "C B7" = .ok s ∧ s.Keyed ∧ timeline settings s = .ok ts
      ∧ List.Forall₂ (fun v t => Fitted settings.voicing 8 v t.voiced) vs ts
      ∧ ts.map (fun t => t.voiced.chord) = [[.whole 108, .whole 112, .whole 115],
        [.whole 119, .whole 123, .whole 126, .whole 117]]
      ∧ ¬ ∀ t ∈ ts, t.voiced.Shaped := by
  let settings : Settings Rat := { Settings.standard with octave := .number (.whole 8) }
  let seventh : Quality :=
    { name := "dominant7", symbol := "7", intervals := [0, 4, 7, 10], aliases := ["dom7"] }
  let s : Score Rat :=
    ⟨[⟨.chord ⟨.pitch ⟨0, some "C"⟩, Quality.majorTriad, [], none⟩, 0, 0, 1, 0, 0⟩,
      ⟨.chord ⟨.pitch ⟨11, some "B"⟩, seventh, [], none⟩, 0, 1, 1, 0, 0⟩], [none]⟩
  have hread : Score.read Table.standard none "C B7" = .ok s := by
    decide +kernel
  have hkeyed : s.Keyed := by
    have hpitches : ∀ e ∈ s.entries, ∀ c ∈ e.chord?, c.root.isDegree = false ∧ c.bass = none := by
      decide
    intro e he c hc _
    obtain ⟨hroot, hbass⟩ := hpitches e he c hc
    refine ⟨hroot, fun r hr => ?_⟩
    rw [hbass] at hr
    cases hr
  let chords : List (List (Number Rat)) := [[.whole 108, .whole 112, .whole 115],
    [.whole 119, .whole 123, .whole 126, .whole 117]]
  have hnotes : (timeline settings s).toOption.map (fun ts => ts.map fun t => t.voiced.chord)
      = some chords := by
    decide +kernel
  have hoctave : settings.octave = .number (.whole 8) := rfl
  obtain ⟨ts, vs, hts, -, hall⟩ := shaped_of_read hread hkeyed hoctave rfl
  rw [hts] at hnotes
  have hnotes : ts.map (fun t => t.voiced.chord) = chords := Option.some.inj hnotes
  refine ⟨settings, s, ts, vs, hoctave, rfl, hread, hkeyed, hts, hall, hnotes, fun h => ?_⟩
  have hascending : ∀ chord ∈ ts.map (fun t => t.voiced.chord),
      chord.Pairwise fun m n => NoteNumber.less m n = true :=
    List.forall_mem_map.mpr fun t ht => (h t ht).ascending
  rw [hnotes] at hascending
  exact absurd (hascending _ (List.mem_cons_of_mem _ (List.mem_cons_self ..))) (by decide)

/-- A score is read and has a chord that is out of shape when it is played. -/
def LosesShape (settings : Settings Rat) (text : String) : Prop :=
  ∃ s ts, Score.read Table.standard none text = .ok s ∧ timeline settings s = .ok ts
    ∧ ¬ ∀ t ∈ ts, t.voiced.Shaped

theorem losesShape_of_any {settings : Settings Rat} {text : String}
    (h : (((Score.read Table.standard none text).toOption.bind fun s =>
      (timeline settings s).toOption).any fun ts => !decide (∀ t ∈ ts, t.voiced.Shaped)) = true) :
    LosesShape settings text := by
  obtain ⟨ts, hts, hlost⟩ := (Option.any_eq_true _ _).mp h
  obtain ⟨s, hread, hts⟩ := Option.bind_eq_some_iff.mp hts
  refine ⟨s, ts, eq_ok_of_toOption hread, eq_ok_of_toOption hts, ?_⟩
  simpa using hlost

/-- **In every other octave there is a score that is out of shape.** -/
theorem exists_losesShape {strategy : Strategy} {octave : Int} (hlow : 0 ≤ octave)
    (hhigh : octave ≤ 8) (hout : ¬ strategy.InRange octave) : ∃ text, LosesShape
      { Settings.standard with voicing := strategy, octave := .number (.whole octave) } text := by
  unfold Strategy.InRange at hout
  cases strategy with
  | close =>
    obtain rfl | rfl : octave = 7 ∨ octave = 8 := by
      simp only [true_and] at hout
      omega
    · exact ⟨"B7(#13)", losesShape_of_any (by decide +kernel)⟩
    · exact ⟨"B7", losesShape_of_any (by decide +kernel)⟩
  | nearest =>
    obtain rfl | rfl | rfl | rfl : octave = 0 ∨ octave = 6 ∨ octave = 7 ∨ octave = 8 := by
      simp only [reduceCtorEq, false_and, false_or] at hout
      omega
    · exact ⟨"C B/B", losesShape_of_any (by decide +kernel)⟩
    · exact ⟨"B D G B7(#13)", losesShape_of_any (by decide +kernel)⟩
    · exact ⟨"B7(#13)", losesShape_of_any (by decide +kernel)⟩
    · exact ⟨"B7", losesShape_of_any (by decide +kernel)⟩

end Score

end LeadSheet
