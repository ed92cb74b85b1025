import LeadSheet.Midi.File
import LeadSheet.Proofs.Playing.Balance
import Mathlib.Algebra.Order.BigOperators.Group.List

/-!
# The notes of a file and those of the events

The file of a score and its events hold the same chords, but their ticks are
found in two ways.  Events start and end at the tick nearest to the start and
the end of a chord.  In a file, whatever writes it (`PlacesNotes`), the start
and the duration of a chord are cut off, so a note is up to a tick early there
and ends up to two ticks early (`TimedChord.cut_le_ticks`).

`Score.written_perm_scheduled_iff`: the notes of the file are those of the
events just when both ways lead to the same ticks for every chord.  They do if
every duration is a whole number of ticks.
-/

namespace LeadSheet

/-- If the pairs of two lists of notes do not fall in some measure, the lists are
no rearrangement of each other unless they have the same measures. -/
theorem eq_of_perm_map {α β : Type} {f g : α → β} (measure : β → Int) {as : List α}
    (hperm : (as.map f).Perm (as.map g)) (hle : ∀ a ∈ as, measure (f a) ≤ measure (g a)) :
    ∀ a ∈ as, measure (f a) = measure (g a) := by
  have hsum := (hperm.map measure).sum_eq
  rw [List.map_map, List.map_map] at hsum
  intro a ha
  by_contra hne
  have hlt := List.sum_lt_sum (measure ∘ f) (measure ∘ g) hle
    ⟨a, ha, lt_of_le_of_ne (hle a ha) hne⟩
  exact absurd hsum hlt.ne

/-! ### Notes -/

def NoteSpan.movedTo {ν Q : Type} (start finish : Int) (n : NoteSpan ν Q) : NoteSpan ν Q :=
  { n with start, finish }

variable {ν : Type} {settings : Settings Rat}

namespace TimedChord

/-- The tick a chord starts at in a file. -/
def cutStart (settings : Settings Rat) (t : TimedChord ν Rat) : Int :=
  cutAt settings t.start

def cutFinish (settings : Settings Rat) (t : TimedChord ν Rat) : Int :=
  cutAt settings t.start + cutAt settings t.duration

/-- A chord has the same ticks in a file as in the events. -/
def SameTicks (settings : Settings Rat) (t : TimedChord ν Rat) : Prop :=
  t.cutStart settings = t.startTick settings ∧ t.cutFinish settings = t.finishTick settings

def written (settings : Settings Rat) (t : TimedChord ν Rat) : List (NoteSpan ν Rat) :=
  (t.spans settings).map (NoteSpan.movedTo (t.cutStart settings) (t.cutFinish settings))

/-- **In a file a chord starts up to a tick early and ends up to two ticks
early.** -/
theorem cut_le_ticks {t : TimedChord ν Rat} (hstart : 0 ≤ settings.beatTicks * t.start)
    (hduration : 0 ≤ settings.beatTicks * t.duration) :
    (t.cutStart settings ≤ t.startTick settings
        ∧ t.startTick settings ≤ t.cutStart settings + 1)
      ∧ t.cutFinish settings ≤ t.finishTick settings
      ∧ t.finishTick settings ≤ t.cutFinish settings + 2 := by
  refine ⟨cutOff_le_roundEven hstart, ?_⟩
  unfold cutFinish finishTick tickAt cutAt
  rw [mul_add, cutOff_of_nonneg hstart, cutOff_of_nonneg hduration]
  generalize settings.beatTicks * t.start = x
  generalize settings.beatTicks * t.duration = y
  have hx := Int.floor_le x
  have hx' := Int.lt_floor_add_one x
  have hy := Int.floor_le y
  have hy' := Int.lt_floor_add_one y
  have hlower : roundEven ((⌊x⌋ + ⌊y⌋ : Int) : Rat) ≤ roundEven (x + y) :=
    roundEven_mono (by push_cast; linarith)
  have hupper : roundEven (x + y) ≤ roundEven ((⌊x⌋ + ⌊y⌋ + 2 : Int) : Rat) :=
    roundEven_mono (by push_cast; linarith)
  rw [roundEven_intCast] at hlower hupper
  exact ⟨hlower, hupper⟩

end TimedChord

theorem TimedChord.sameTicks_of_whole {t : TimedChord ν Rat}
    (hstart : ∃ n : Int, settings.beatTicks * t.start = n)
    (hduration : ∃ n : Int, settings.beatTicks * t.duration = n) : t.SameTicks settings := by
  obtain ⟨n, hn⟩ := hstart
  obtain ⟨m, hm⟩ := hduration
  unfold SameTicks cutFinish cutStart startTick finishTick tickAt cutAt
  rw [mul_add, hn, hm, ← Int.cast_add, cutOff_intCast, cutOff_intCast, roundEven_intCast,
    roundEven_intCast]
  exact ⟨rfl, rfl⟩

theorem TimedChord.spans_ne_nil {t : TimedChord ν Rat} (h : t.voiced.chord ≠ []) :
    t.spans settings ≠ [] :=
  List.append_ne_nil_of_right_ne_nil _ (by simpa using h)

theorem TimedChord.written_eq_spans {t : TimedChord ν Rat} (h : t.SameTicks settings) :
    t.written settings = t.spans settings := by
  obtain ⟨hstart, hfinish⟩ := h
  have hself : ∀ n ∈ t.spans settings,
      n.movedTo (t.cutStart settings) (t.cutFinish settings) = n := by
    intro n hn
    obtain ⟨hs, hf⟩ := ticks_of_mem_spans hn
    rw [hstart, hfinish, ← hs, ← hf]
    rfl
  unfold written
  rw [List.map_congr_left hself, List.map_id']

/-- **The notes of chords are the same in a file just when the ticks of every
chord are.** -/
theorem written_perm_spans_iff {ts : List (TimedChord ν Rat)}
    (htimes : ∀ t ∈ ts, 0 ≤ settings.beatTicks * t.start ∧ 0 ≤ settings.beatTicks * t.duration)
    (hnotes : ∀ t ∈ ts, t.voiced.chord ≠ []) :
    (ts.flatMap (TimedChord.written settings)).Perm (ts.flatMap (TimedChord.spans settings))
      ↔ ∀ t ∈ ts, t.SameTicks settings := by
  constructor
  · intro hperm
    -- Every note goes with its chord, so both lists are made of one list of pairs.
    let pairs := ts.flatMap fun t => (t.spans settings).map fun n => (t, n)
    have hwritten : ts.flatMap (TimedChord.written settings)
        = pairs.map fun x => x.2.movedTo (x.1.cutStart settings) (x.1.cutFinish settings) := by
      simp only [pairs, List.map_flatMap, List.map_map]
      rfl
    have hspans : ts.flatMap (TimedChord.spans settings) = pairs.map Prod.snd := by
      simp only [pairs, List.map_flatMap, List.map_map, Function.comp_def, List.map_id']
    have hpair : ∀ x ∈ pairs, (x.1.cutStart settings ≤ x.1.startTick settings
          ∧ x.1.cutFinish settings ≤ x.1.finishTick settings)
        ∧ x.2.start = x.1.startTick settings ∧ x.2.finish = x.1.finishTick settings := by
      intro x hx
      obtain ⟨t, ht, hx⟩ := List.mem_flatMap.mp hx
      obtain ⟨n, hn, rfl⟩ := List.mem_map.mp hx
      obtain ⟨⟨hstart, -⟩, hfinish, -⟩ := TimedChord.cut_le_ticks (htimes t ht).1 (htimes t ht).2
      exact ⟨⟨hstart, hfinish⟩, TimedChord.ticks_of_mem_spans hn⟩
    rw [hwritten, hspans] at hperm
    have hstarts := eq_of_perm_map NoteSpan.start hperm fun x hx => by
      rw [(hpair x hx).2.1]
      exact (hpair x hx).1.1
    have hfinishes := eq_of_perm_map NoteSpan.finish hperm fun x hx => by
      rw [(hpair x hx).2.2]
      exact (hpair x hx).1.2
    intro t ht
    obtain ⟨n, hn⟩ := List.exists_mem_of_ne_nil _ (TimedChord.spans_ne_nil (hnotes t ht))
    have hx : (t, n) ∈ pairs := List.mem_flatMap.mpr ⟨t, ht, List.mem_map_of_mem hn⟩
    exact ⟨(hstarts _ hx).trans (hpair _ hx).2.1, (hfinishes _ hx).trans (hpair _ hx).2.2⟩
  · intro hticks
    have heq : ∀ t ∈ ts, t.written settings = t.spans settings := fun t ht =>
      TimedChord.written_eq_spans (hticks t ht)
    rw [List.flatMap_congr heq]

/-! ### Files -/

/-- The note of a sheet as a file with so many ticks to a quarter note has it: the
start and the duration are cut off on their own. -/
def SheetNote.placed (resolution : Int) (n : SheetNote Rat) : NoteSpan (Number Rat) Rat :=
  ⟨cutOff (resolution * n.time), cutOff (resolution * n.time) + cutOff (resolution * n.duration),
    n.pitch, n.volume, n.channel⟩

/-- **What is assumed of what writes sound files**: the bytes that come of a sheet hold
its notes, in some order, with start and duration cut off. -/
def PlacesNotes (write : SoundWriter Rat)
    (Holds : List UInt8 → List (NoteSpan (Number Rat) Rat) → Prop) : Prop :=
  ∀ sheet bytes, write sheet = .ok bytes →
    ∃ ns, Holds bytes ns ∧ ns.Perm (sheet.notes.map (SheetNote.placed sheet.resolution))

theorem placed_sheet (tempo : Number Rat) (ts : List (TimedChord (Number Rat) Rat)) :
    (settings.sheet tempo ts).notes.map (SheetNote.placed (settings.sheet tempo ts).resolution)
      = ts.flatMap (TimedChord.written settings) := by
  have hticks : ∀ x : Rat, cutOff (((960 : Int) : Rat) * quarters settings x) = cutAt settings x := by
    intro x
    have hproduct : ((960 : Int) : Rat) * quarters settings x = settings.beatTicks * x := by
      unfold Settings.beatTicks
      rw [← Number.toQuantity_eq_value]
      show _ * (x * settings.beatDuration.toQuantity) = _
      push_cast
      ring
    rw [hproduct]
    rfl
  have hchord : ∀ t : TimedChord (Number Rat) Rat,
      (t.sheetNotes settings).map (SheetNote.placed 960) = t.written settings := by
    intro t
    unfold TimedChord.sheetNotes TimedChord.written TimedChord.spans
    rw [← Settings.bassChannel_eq_above]
    simp only [List.map_append, List.map_map, Function.comp_def, SheetNote.placed, hticks]
    rfl
  show (ts.flatMap (TimedChord.sheetNotes settings)).map (SheetNote.placed 960) = _
  rw [List.map_flatMap]
  exact List.flatMap_congr fun t _ => hchord t

/-- A note of a track with the ticks it sounds from and to. -/
def TrackNote.span {Q : Type} (n : TrackNote Q) : NoteSpan (Number Q) Q :=
  ⟨n.start, n.start + n.duration, n.pitch, n.velocity, n.channel⟩

/-- A file of which two tracks are those of some notes. -/
def HasNotes (bytes : List UInt8) (ns : List (NoteSpan (Number Rat) Rat)) : Prop :=
  ∃ (header conductor chords basses : List UInt8) (chordHead bassHead : TrackHead Rat)
    (chordNotes bassNotes : List (TrackNote Rat)), bytes = header ++ conductor ++ chords ++ basses
      ∧ chordHead.noteTrack chordNotes = .ok chords ∧ bassHead.noteTrack bassNotes = .ok basses
      ∧ ns = (chordNotes ++ bassNotes).map TrackNote.span

/-- **Files are written as it is assumed.** -/
theorem placesNotes_bytes : PlacesNotes SoundSheet.bytes HasNotes := by
  intro sheet bytes h
  unfold SoundSheet.bytes at h
  obtain ⟨microseconds, -, h⟩ := exists_of_bind_eq_ok h
  obtain ⟨notes, hnotes, h⟩ := exists_of_bind_eq_ok h
  obtain ⟨conductor, -, h⟩ := exists_of_bind_eq_ok h
  obtain ⟨chords, hchords, h⟩ := exists_of_bind_eq_ok h
  obtain ⟨basses, hbasses, h⟩ := exists_of_bind_eq_ok h
  refine ⟨_, ⟨_, _, _, _, _, _, _, _, (Except.ok.inj h).symm, hchords, hbasses, rfl⟩, ?_⟩
  have hspans : notes.map TrackNote.span = sheet.notes.map (SheetNote.placed sheet.resolution) := by
    have hsheet : ∀ n : SheetNote Rat, n.toTrack sheet.resolution = pure ⟨n.track,
        cutOff (sheet.resolution * n.time), cutOff (sheet.resolution * n.duration), n.pitch,
        n.volume, n.channel⟩ := by
      intro n
      unfold SheetNote.toTrack
      rw [toTicks_truncate_eq_ok, toTicks_truncate_eq_ok]
      rfl
    rw [funext hsheet, List.mapM_pure] at hnotes
    obtain rfl := Except.ok.inj hnotes
    rw [List.map_map]
    rfl
  rw [← hspans]
  refine List.Perm.map _ ?_
  -- a note is on one of the two tracks
  have hother : ∀ n : TrackNote Rat, decide (n.track = .bass) = !decide (n.track = .chords) := by
    intro n
    cases n.track <;> rfl
  rw [funext hother]
  exact List.filter_append_perm _ notes

namespace Score

variable {s : Score Rat} {ts : List (TimedChord (Number Rat) Rat)}

theorem beatTicks_timeline_nonneg (hbeat : 0 < settings.beatTicks)
    (hchain : Chained none s.entries) (hlasting : Lasting s.entries)
    (hts : timeline settings s = .ok ts) :
    ∀ t ∈ ts, 0 ≤ settings.beatTicks * t.start ∧ 0 ≤ settings.beatTicks * t.duration := by
  have hduration : ∀ e ∈ s.entries, 0 ≤ settings.beatTicks * e.duration := fun e he =>
    mul_nonneg hbeat.le (hlasting e he)
  refine times_timeline (P := fun x => 0 ≤ settings.beatTicks * x) hchain (mul_nonneg hbeat.le le_rfl)
    hduration ?_ hts
  intro e he x hx
  show 0 ≤ settings.beatTicks * (x + e.duration)
  rw [mul_add]
  exact add_nonneg hx (hduration e he)

theorem beatTicks_timeline_whole (hchain : Chained none s.entries)
    (hwhole : ∀ e ∈ s.entries, ∃ n : Int, settings.beatTicks * e.duration = n)
    (hts : timeline settings s = .ok ts) :
    ∀ t ∈ ts, (∃ n : Int, settings.beatTicks * t.start = n)
      ∧ ∃ n : Int, settings.beatTicks * t.duration = n := by
  have hzero : settings.beatTicks * Quantity.ofInt 0 = ((0 : Int) : Rat) := mul_zero _
  refine times_timeline (P := fun x => ∃ n : Int, settings.beatTicks * x = n) hchain
    ⟨0, hzero⟩ hwhole ?_ hts
  rintro e he x ⟨n, hn⟩
  obtain ⟨m, hm⟩ := hwhole e he
  exact ⟨n + m, by rw [Int.cast_add, ← hn, ← hm]; exact mul_add ..⟩

/-- **A file holds the notes of the events just when every chord has the same
ticks in both.**  Every chord has if all durations are whole numbers of ticks.
Else a chord may start a tick early in the file and end up to two ticks
early. -/
theorem written_perm_scheduled_iff {write : SoundWriter Rat}
    {Holds : List UInt8 → List (NoteSpan (Number Rat) Rat) → Prop}
    (hwrite : PlacesNotes write Holds) {raw : RawSettings Rat} (hcheck : raw.check = .ok settings)
    {table : Table} {key : Option Key} {text : String}
    (hread : Score.read table key text = .ok s) {tempo : Number Rat} {bytes : List UInt8}
    (hbytes : s.encodeWith write settings tempo = .ok bytes) {es : List (Event (Number Rat) Rat)}
    (hes : s.events settings = .ok es) :
    ∃ ts ns, timeline settings s = .ok ts ∧ Holds bytes ns
      ∧ es = eventsFrom 0 (inOrder NoteSwitch.before
          ((ts.flatMap (TimedChord.spans settings)).flatMap NoteSpan.switches))
      ∧ (ns.Perm (ts.flatMap (TimedChord.spans settings)) ↔ ∀ t ∈ ts, t.SameTicks settings)
      ∧ ((∀ e ∈ s.entries, ∃ n : Int, settings.beatTicks * e.duration = n) →
          ∀ t ∈ ts, t.SameTicks settings)
      ∧ ∀ t ∈ ts, (t.cutStart settings ≤ t.startTick settings
            ∧ t.startTick settings ≤ t.cutStart settings + 1)
          ∧ t.cutFinish settings ≤ t.finishTick settings
          ∧ t.finishTick settings ≤ t.cutFinish settings + 2 := by
  have hmade := made_of_read (fun _ _ _ => trivial : table.Reads fun _ => True) hread
  have hlasting := lasting_of_made hmade.entries
  obtain ⟨_, -, hbytes⟩ := exists_of_bind_eq_ok hbytes
  obtain ⟨ts, hts, hbytes⟩ := exists_of_bind_eq_ok hbytes
  obtain ⟨ns, hholds, hperm⟩ := hwrite _ _ hbytes
  rw [placed_sheet] at hperm
  have htimes := beatTicks_timeline_nonneg (beatTicks_pos hcheck) hmade.chained hlasting hts
  have hscheduled : es = eventsFrom 0 (inOrder NoteSwitch.before
      ((ts.flatMap (TimedChord.spans settings)).flatMap NoteSpan.switches)) := by
    obtain ⟨ts', hts', hes⟩ := exists_of_bind_eq_ok hes
    obtain rfl : ts = ts' := Except.ok.inj (hts.symm.trans hts')
    exact Except.ok.inj (hes.symm.trans (schedule_eq_ok ts))
  refine ⟨ts, ns, hts, hholds, hscheduled, ?_, fun hwhole t ht => ?_,
    fun t ht => TimedChord.cut_le_ticks (htimes t ht).1 (htimes t ht).2⟩
  · -- the chords follow each other, so one that moves is not made up for by another one
    rw [hperm.congr_left]
    exact written_perm_spans_iff htimes (spaced_timeline hmade.chained hlasting hts).2
  · obtain ⟨hstart, hduration⟩ := beatTicks_timeline_whole hmade.chained hwhole hts t ht
    exact TimedChord.sameTicks_of_whole hstart hduration

/-- Behind a chord of about a third of a beat the next one starts at another tick
in a file. -/
theorem not_written_perm_scheduled_third :
    (Settings.standard : Settings Rat).raw.check = .ok Settings.standard
      ∧ ∃ (s : Score Rat) (bytes : List UInt8) (es : List (Event (Number Rat) Rat)),
        Score.read Table.standard none "C:.333 D" = .ok s
          ∧ s.encode Settings.standard (.whole 120) = .ok bytes
          ∧ s.events Settings.standard = .ok es
          ∧ ∃ ts ns, timeline Settings.standard s = .ok ts ∧ HasNotes bytes ns
            ∧ ¬ ns.Perm (ts.flatMap (TimedChord.spans Settings.standard)) := by
  have hcheck : (Settings.standard : Settings Rat).raw.check = .ok Settings.standard := rfl
  obtain ⟨s, hread, hbytes, hes, hticks⟩ : ∃ s ∈ (Score.read (Q := Rat) Table.standard none
      "C:.333 D").toOption, (s.encode Settings.standard (.whole 120)).toOption.isSome = true
        ∧ (s.events Settings.standard).toOption.isSome = true
        ∧ ((timeline Settings.standard s).toOption.any fun ts => ts.any fun t =>
            t.cutStart Settings.standard != t.startTick Settings.standard) = true :=
    exists_mem_option_of_any (by decide +kernel)
  have hread := eq_ok_of_toOption hread
  obtain ⟨bytes, hbytes⟩ := Option.isSome_iff_exists.mp hbytes
  obtain ⟨es, hes⟩ := Option.isSome_iff_exists.mp hes
  have hbytes := eq_ok_of_toOption hbytes
  have hes := eq_ok_of_toOption hes
  obtain ⟨ts, ns, hts, hholds, -, hiff, -⟩ :=
    written_perm_scheduled_iff placesNotes_bytes hcheck hread hbytes hes
  refine ⟨hcheck, s, bytes, es, hread, hbytes, hes, ts, ns, hts, hholds, fun hperm => ?_⟩
  rw [hts] at hticks
  obtain ⟨t, ht, hne⟩ := List.any_eq_true.mp hticks
  exact absurd (hiff.mp hperm t ht).1 (by simpa using hne)

end Score

end LeadSheet
