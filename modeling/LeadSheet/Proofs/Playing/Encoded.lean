import LeadSheet.Midi.File
import LeadSheet.Proofs.Playing.Whole
import LeadSheet.Proofs.Settings.Checked

/-!
# What can be encoded

A file is made of bytes, so encoding a score fails where a number does not fit
into its byte.  Of what writes files only that is assumed
(`SoundSheet.WritesBytes`), and the writer of this library does so
(`SoundSheet.writesBytes_bytes`).

With whole settings that were looked at, velocities, programs, channels and
notes always fit; only the time signature may not (`Settings.SignatureFits`),
since no bound of it is looked at.  Apart from that the tempo has to fit
(`quarterMicroseconds_cases`) and degrees need a key.

`Score.encode_cases`: a score is encoded just when these three are so, and else
the fault is that of the first that is not.
-/

namespace LeadSheet

variable {Q : Type}

/-! ### Bytes -/

def Number.IsByte (n : Number Q) : Prop :=
  ∃ i, n.asInt? = some i ∧ 0 ≤ i ∧ i ≤ 255

def Number.IsChannel (n : Number Q) : Prop :=
  ∃ i, n.asInt? = some i ∧ 0 ≤ i ∧ i ≤ 15

/-- Something is written just when some numbers fit into their bytes. -/
def WrittenIff {α : Type} (Fits : Prop) (r : Except PlayFault α) : Prop :=
  (Fits ∧ ∃ a, r = .ok a) ∨ (¬ Fits ∧ r = .error .notByte)

namespace WrittenIff

variable {α β : Type} {P P' : Prop} {r : Except PlayFault α} {f : α → Except PlayFault β}

theorem pure (a : α) : WrittenIff True (.ok a) :=
  .inl ⟨trivial, a, rfl⟩

theorem congr (h : WrittenIff P r) (hiff : P ↔ P') : WrittenIff P' r :=
  propext hiff ▸ h

theorem bind (h : WrittenIff P r) (hf : ∀ a, WrittenIff P' (f a)) : WrittenIff (P ∧ P') (r >>= f) := by
  rcases h with ⟨hP, a, rfl⟩ | ⟨hP, rfl⟩
  · exact (hf a).congr (by simp [hP])
  · exact .inr ⟨fun h => hP h.1, rfl⟩

theorem bind_of_ok (h : ∃ a, r = .ok a) (hf : ∀ a, WrittenIff P (f a)) : WrittenIff P (r >>= f) := by
  obtain ⟨a, rfl⟩ := h
  exact hf a

theorem mapM {γ : Type} {g : γ → Except PlayFault α} {R : γ → Prop} {cs : List γ}
    (h : ∀ c ∈ cs, WrittenIff (R c) (g c)) : WrittenIff (∀ c ∈ cs, R c) (cs.mapM g) := by
  induction cs with
  | nil => exact (pure []).congr (by simp)
  | cons c cs ih =>
    obtain ⟨hc, hcs⟩ := List.forall_mem_cons.mp h
    rw [List.mapM_cons]
    refine (hc.bind fun a => (ih hcs).bind fun as => pure (a :: as)).congr ?_
    simp

end WrittenIff

theorem writtenIff_toByte (n : Number Q) : WrittenIff n.IsByte (toByte n) := by
  unfold toByte Number.IsByte
  cases n.asInt? with
  | none => exact .inr ⟨by simp, rfl⟩
  | some i =>
    by_cases hrange : 0 ≤ i ∧ i ≤ 255
    · exact .inl ⟨⟨i, rfl, hrange⟩, _, if_pos hrange⟩
    · exact .inr ⟨fun ⟨i', hi, h⟩ => hrange (Option.some.inj hi ▸ h), if_neg hrange⟩

theorem Number.IsChannel.exists_statusByte (message : Nat) {channel : Number Q}
    (h : channel.IsChannel) : ∃ b, statusByte message channel = .ok b := by
  obtain ⟨i, hi, -⟩ := h
  unfold statusByte
  rw [hi]
  exact ⟨_, rfl⟩

/-! ### Sheets -/

/-- A minute of so many beats has quarter notes of some microseconds, and not of
too many. -/
def TempoFits (n : Int) : Prop :=
  4 ≤ n ∧ n ≤ 60000000

namespace SoundSheet

/-- **The numbers of a sheet that are written as a byte each fit into it.** -/
structure Fits (sheet : SoundSheet Q) : Prop where
  numerator : sheet.numerator.IsByte
  power : sheet.power.IsByte
  clocks : sheet.clocks.IsByte
  chords : sheet.chords.program.IsByte
  bass : sheet.bass.program.IsByte
  notes : ∀ n ∈ sheet.notes, n.pitch.IsByte ∧ n.volume.IsByte

/-- A sheet with nothing else in it that could not be written: 960 ticks to a quarter
note, a tempo that fits, channels that there are, and finite times. -/
structure Usual [Quantity Q] (sheet : SoundSheet Q) : Prop where
  resolution : sheet.resolution = 960
  tempo : ∃ n, sheet.tempo.asInt? = some n ∧ TempoFits n
  chords : sheet.chords.channel.IsChannel
  bass : sheet.bass.channel.IsChannel
  notes : ∀ n ∈ sheet.notes, n.channel.IsChannel
    ∧ (Quantity.toRat? (n.time * Quantity.ofInt 960)).isSome
    ∧ (Quantity.toRat? (n.duration * Quantity.ofInt 960)).isSome

/-- **What is assumed of what writes sound files**: velocities, programs and the parts
of the time signature are written as a byte each, and one that does not fit is a
fault. -/
def WritesBytes [Quantity Q] (write : SoundWriter Q) : Prop :=
  ∀ sheet, sheet.Usual → WrittenIff sheet.Fits (write sheet)

end SoundSheet

theorem writtenIff_messages {n : TrackNote Q} (h : n.channel.IsChannel) :
    WrittenIff (n.pitch.IsByte ∧ n.velocity.IsByte) n.messages := by
  unfold TrackNote.messages
  refine .bind_of_ok (h.exists_statusByte 9) fun on => .bind_of_ok (h.exists_statusByte 8) fun off => ?_
  refine ((writtenIff_toByte _).bind fun pitch => (writtenIff_toByte _).bind fun velocity =>
    .pure _).congr ?_
  simp

theorem writtenIff_noteTrack {head : TrackHead Q} (hhead : head.channel.IsChannel)
    {notes : List (TrackNote Q)} (hnotes : ∀ n ∈ notes, n.channel.IsChannel) :
    WrittenIff (head.program.IsByte ∧ ∀ n ∈ notes, n.pitch.IsByte ∧ n.velocity.IsByte)
      (head.noteTrack notes) := by
  unfold TrackHead.noteTrack
  refine .bind_of_ok (hhead.exists_statusByte 12) fun status => ?_
  refine ((writtenIff_toByte _).bind fun program =>
    (WrittenIff.mapM fun n hn => writtenIff_messages (hnotes n hn)).bind fun messages =>
      .pure _).congr ?_
  simp

theorem writtenIff_conductorTrack (sheet : SoundSheet Q) (microseconds : Int) :
    WrittenIff (sheet.numerator.IsByte ∧ sheet.power.IsByte ∧ sheet.clocks.IsByte)
      (sheet.conductorTrack microseconds) := by
  unfold SoundSheet.conductorTrack
  refine ((writtenIff_toByte _).bind fun numerator => (writtenIff_toByte _).bind fun power =>
    (writtenIff_toByte _).bind fun clocks => .pure _).congr ?_
  simp

variable [Quantity Q]

theorem exists_toTicks (round : Rat → Int) {resolution : Int} {x : Q}
    (h : (Quantity.toRat? (x * Quantity.ofInt resolution)).isSome) :
    ∃ n, toTicks round resolution x = .ok n := by
  obtain ⟨r, hr⟩ := Option.isSome_iff_exists.mp h
  unfold toTicks
  rw [Quantity.toInt_of_exact hr]
  exact ⟨_, rfl⟩

theorem parts_of_toTrack {resolution : Int} {n : SheetNote Q} {m : TrackNote Q}
    (h : n.toTrack resolution = .ok m) : m.track = n.track ∧ m.pitch = n.pitch
      ∧ m.velocity = n.volume ∧ m.channel = n.channel := by
  obtain ⟨start, -, h⟩ := exists_of_bind_eq_ok h
  obtain ⟨duration, -, h⟩ := exists_of_bind_eq_ok h
  obtain rfl := Except.ok.inj h
  exact ⟨rfl, rfl, rfl, rfl⟩

/-- **Files are written as it is assumed.** -/
theorem SoundSheet.writesBytes_bytes : WritesBytes (bytes (Q := Q)) := by
  intro sheet husual
  have htempo : ∃ us, beatMicroseconds sheet.tempo = .ok us := by
    obtain ⟨n, hn, -⟩ := husual.tempo
    unfold beatMicroseconds
    rw [hn]
    exact ⟨_, rfl⟩
  have hnote : ∀ n ∈ sheet.notes, ∃ m, n.toTrack sheet.resolution = .ok m := by
    intro n hn
    obtain ⟨-, htime, hduration⟩ := husual.notes n hn
    rw [husual.resolution]
    obtain ⟨start, hstart⟩ := exists_toTicks truncate htime
    obtain ⟨duration, hduration⟩ := exists_toTicks truncate hduration
    unfold SheetNote.toTrack
    rw [hstart, hduration]
    exact ⟨_, rfl⟩
  obtain ⟨notes, hnotes⟩ := exists_mapM_eq_ok hnote
  have hpairs : List.Forall₂ (fun n m => n.toTrack sheet.resolution = .ok m) sheet.notes notes :=
    mapM_eq_ok_iff.mp hnotes
  have hchannels : ∀ m ∈ notes, m.channel.IsChannel := by
    intro m hm
    obtain ⟨n, hn, hnm⟩ := exists_of_forall₂ hpairs m hm
    exact (parts_of_toTrack hnm).2.2.2 ▸ (husual.notes n hn).1
  have hbytes : (∀ n ∈ sheet.notes, n.pitch.IsByte ∧ n.volume.IsByte)
      ↔ ∀ m ∈ notes, m.pitch.IsByte ∧ m.velocity.IsByte := by
    refine forall_mem_iff_of_forall₂ (hpairs.imp fun n m hnm => ?_)
    obtain ⟨-, hpitch, hvelocity, -⟩ := parts_of_toTrack hnm
    rw [hpitch, hvelocity]
  have hon : ∀ track, ∀ m ∈ notes.filter (fun m => m.track = track), m.channel.IsChannel :=
    fun track m hm => hchannels m (List.mem_of_mem_filter hm)
  unfold bytes
  rw [hnotes]
  refine .bind_of_ok htempo fun us => ?_
  refine ((writtenIff_conductorTrack sheet us).bind fun conductor =>
    (writtenIff_noteTrack husual.chords (hon .chords)).bind fun chords =>
      (writtenIff_noteTrack husual.bass (hon .bass)).bind fun basses => .pure _).congr ?_
  constructor
  · rintro ⟨⟨hnumerator, hpower, hclocks⟩, ⟨hchords, hchordNotes⟩, ⟨hbass, hbassNotes⟩, -⟩
    refine ⟨hnumerator, hpower, hclocks, hchords, hbass, hbytes.mpr fun m hm => ?_⟩
    cases htrack : m.track with
    | chords => exact hchordNotes m (List.mem_filter.mpr ⟨hm, by simp [htrack]⟩)
    | bass => exact hbassNotes m (List.mem_filter.mpr ⟨hm, by simp [htrack]⟩)
  · intro h
    have hall := hbytes.mp h.notes
    exact ⟨⟨h.numerator, h.power, h.clocks⟩,
      ⟨h.chords, fun m hm => hall m (List.mem_of_mem_filter hm)⟩,
      ⟨h.bass, fun m hm => hall m (List.mem_of_mem_filter hm)⟩, trivial⟩

/-! ### The time signature -/

/-- A time signature of which the numerator and the power of two fit into their
bytes. -/
def Settings.SignatureFits (settings : Settings Q) : Prop :=
  (∃ n, settings.numerator.asInt? = some n ∧ n < 256)
    ∧ ∃ d, settings.denominator.asInt? = some d ∧ d < 2 ^ 256

omit [Quantity Q] in
theorem isByte_log2_iff {d : Int} (h : 1 ≤ d) :
    (Number.whole (d.toNat.log2 : Int) : Number Q).IsByte ↔ d < 2 ^ 256 := by
  have hne : d.toNat ≠ 0 := by omega
  have hlog : d.toNat.log2 < 256 ↔ d.toNat < 2 ^ 256 := Nat.log2_lt hne
  have hcast : d < 2 ^ 256 ↔ d.toNat < 2 ^ 256 := by omega
  rw [hcast, ← hlog]
  constructor
  · rintro ⟨i, hi, -, hle⟩
    obtain rfl := Option.some.inj hi
    omega
  · intro hlt
    exact ⟨_, rfl, by omega, by omega⟩

theorem isByte_numerator_iff {n : Number Q} {m : Int} (hm : n.asInt? = some m)
    (h : n.less (.whole 1) = false) : n.IsByte ↔ m < 256 := by
  rw [Number.less_whole hm] at h
  have hpositive : 1 ≤ m := Int.not_lt.mp (of_decide_eq_false h)
  constructor
  · rintro ⟨i, hi, -, hle⟩
    obtain rfl := Option.some.inj (hm.symm.trans hi)
    omega
  · intro hlt
    exact ⟨m, hm, by omega, by omega⟩

/-! ### The tempo -/

/-- **A whole tempo above zero is written just when it fits.** -/
theorem quarterMicroseconds_cases {tempo : Number Q} {n : Int} (hn : tempo.asInt? = some n)
    (hpositive : 0 < n) :
    (TempoFits n ∧ ∃ microseconds, quarterMicroseconds tempo = .ok microseconds)
      ∨ ¬ TempoFits n
        ∧ quarterMicroseconds tempo = .error (tempoFault .tempoOutOfRange tempo) := by
  have hlow : 1 ≤ minute / n ↔ n ≤ 60000000 := by
    rw [Int.le_ediv_iff_mul_le hpositive]
    unfold minute
    omega
  have hhigh : minute / n ≤ longestQuarter ↔ 4 ≤ n := by
    rw [← Int.lt_add_one_iff, Int.ediv_lt_iff_lt_mul hpositive]
    unfold minute longestQuarter
    omega
  have hquotient : (1 ≤ minute.tdiv n ∧ minute.tdiv n ≤ longestQuarter) ↔ TempoFits n := by
    rw [Int.tdiv_eq_ediv_of_nonneg (by decide), hlow, hhigh]
    exact and_comm
  have hbeat : beatMicroseconds tempo = .ok (minute.tdiv n) := by
    unfold beatMicroseconds
    rw [hn]
  unfold quarterMicroseconds
  rw [Number.atMost_whole hn, if_neg (by simpa using hpositive), hbeat]
  dsimp only
  by_cases hfits : TempoFits n
  · exact .inl ⟨hfits, _, if_pos (hquotient.mpr hfits)⟩
  · exact .inr ⟨hfits, if_neg fun h => hfits (hquotient.mp h)⟩

/-! ### Times -/

variable (Q) in
/-- A quantity in which the times of a score stay finite, since they are small in
some sense.  For double precision that is at most 2⁶⁴: no duration is longer
than `maxDuration`, so the sum with one is rounded to at most that again. -/
structure Steady (Small : Q → Prop) : Prop where
  zero : Small (Quantity.ofInt 0)
  usual : Small usualDuration
  beats : ∀ d, IsBeats d → Small d
  add : ∀ x d, Small x → IsBeats d ∨ d = usualDuration → Small (x + d)
  finite : ∀ x, Small x →
    (Quantity.toRat? (x * Quantity.ofInt 1 * Quantity.ofInt ticksPerQuarter)).isSome

theorem steady_exact : Steady Rat fun _ => True :=
  ⟨trivial, trivial, fun _ _ => trivial, fun _ _ _ _ => trivial, fun _ _ => rfl⟩

variable {Small : Q → Prop} {settings : Settings Q}

theorem Steady.timeline (hQ : Steady Q Small) {P : Chord → Prop} {key : Option Key} {s : Score Q}
    (hmade : s.Made P key) {ts : List (TimedChord (Number Q) Q)}
    (hts : timeline settings s = .ok ts) : ∀ t ∈ ts, Small t.start ∧ Small t.duration := by
  refine Score.times_timeline hmade.chained hQ.zero (fun e he => ?_) (fun e he x hx => ?_) hts
  · rcases (hmade.entries e he).duration with hbeats | husual
    · exact hQ.beats _ hbeats
    · rw [husual]
      exact hQ.usual
  · exact hQ.add x _ hx (hmade.entries e he).duration

/-! ### Files -/

/-- Settings whose numbers, the length of a beat apart, are whole. -/
structure Settings.Whole (settings : Settings Q) : Prop where
  velocity : ∃ n, settings.velocity.asInt? = some n
  bassVelocity : ∃ n, settings.bassVelocity.asInt? = some n
  octave : ∃ octave n, settings.octave = .number octave ∧ octave.asInt? = some n
  program : ∃ n, settings.program.asInt? = some n
  channel : ∃ n, settings.channel.asInt? = some n
  numerator : ∃ n, settings.numerator.asInt? = some n

theorem Number.InRange.isByte {highest : Nat} {a : Number Q} (h : a.InRange highest)
    (hle : highest ≤ 255) (ha : ∃ n, a.asInt? = some n) : a.IsByte := by
  obtain ⟨n, hn⟩ := ha
  obtain ⟨hlow, hhigh⟩ := h.whole hn
  exact ⟨n, hn, hlow, by omega⟩

theorem Settings.isChannel {raw : RawSettings Q} (hcheck : raw.check = .ok settings)
    (hwhole : settings.Whole) :
    settings.channel.IsChannel ∧ settings.bassChannel.IsChannel := by
  obtain ⟨channel, hchannel⟩ := hwhole.channel
  have hchecked := (RawSettings.checked_of_check hcheck).channel
  obtain ⟨hlow, hhigh⟩ := (inRange_of_checkRange hchecked).2.whole hchannel
  have hhigh : channel ≤ 14 := hhigh
  exact ⟨⟨channel, hchannel, hlow, by omega⟩,
    ⟨channel + 1, Number.asInt?_add_whole hchannel 1, by omega, by omega⟩⟩

/-- **The notes of a timeline can be written**: each is on a channel, at a finite time,
and its pitch and its velocity fit into their bytes. -/
theorem fits_of_mem_sheet (hQ : Steady Q Small) {raw : RawSettings Q}
    (hcheck : raw.check = .ok settings) (hwhole : settings.Whole)
    (hbeat : settings.beatDuration = .fraction (Quantity.ofInt 1)) (tempo : Number Q)
    {ts : List (TimedChord (Number Q) Q)} (htimes : ∀ t ∈ ts, Small t.start ∧ Small t.duration)
    (hpitches : ∀ t ∈ ts, ∀ p ∈ t.voiced.notes, p.IsByte) :
    ∀ n ∈ (settings.sheet tempo ts).notes, (n.channel.IsChannel
        ∧ (Quantity.toRat? (n.time * Quantity.ofInt 960)).isSome
        ∧ (Quantity.toRat? (n.duration * Quantity.ofInt 960)).isSome)
      ∧ n.pitch.IsByte ∧ n.volume.IsByte := by
  have hchecked := RawSettings.checked_of_check hcheck
  have hvelocity := (inRange_of_checkRange hchecked.velocity).2.isByte (by decide) hwhole.velocity
  have hbassVelocity :=
    (inRange_of_checkRange hchecked.bassVelocity).2.isByte (by decide) hwhole.bassVelocity
  obtain ⟨hchannel, hbassChannel⟩ := Settings.isChannel hcheck hwhole
  have hfinite : ∀ x, Small x →
      (Quantity.toRat? (quarters settings x * Quantity.ofInt 960)).isSome := by
    intro x hx
    unfold quarters
    rw [hbeat]
    exact hQ.finite x hx
  intro n hn
  obtain ⟨t, ht, hn⟩ := List.mem_flatMap.mp hn
  have hstart := hfinite _ (htimes t ht).1
  have hduration := hfinite _ (htimes t ht).2
  rcases List.mem_append.mp hn with hn | hn
  · obtain ⟨p, hp, rfl⟩ := List.mem_map.mp hn
    exact ⟨⟨hbassChannel, hstart, hduration⟩, hpitches t ht p (List.mem_append_left _ hp),
      hbassVelocity⟩
  · obtain ⟨p, hp, rfl⟩ := List.mem_map.mp hn
    exact ⟨⟨hchannel, hstart, hduration⟩, hpitches t ht p (List.mem_append_right _ hp), hvelocity⟩

/-- **The sheet of a timeline fits just when the time signature does.** -/
theorem fits_sheet_iff {raw : RawSettings Q} (hcheck : raw.check = .ok settings)
    (hwhole : settings.Whole) {tempo : Number Q} {ts : List (TimedChord (Number Q) Q)}
    (hnotes : ∀ n ∈ (settings.sheet tempo ts).notes, n.pitch.IsByte ∧ n.volume.IsByte) :
    (settings.sheet tempo ts).Fits ↔ settings.SignatureFits := by
  have hchecked := RawSettings.checked_of_check hcheck
  have hprogram := (inRange_of_checkRange hchecked.program).2.isByte (by decide) hwhole.program
  obtain ⟨n, hn⟩ := hwhole.numerator
  obtain ⟨hnumerator, hdenominator, d, hd, -⟩ := signature_of_checkTimeSignature hchecked.signature
  rw [Number.less_whole hd] at hdenominator
  have hpositive : 1 ≤ d := Int.not_lt.mp (of_decide_eq_false hdenominator)
  have hparts : settings.SignatureFits ↔ settings.numerator.IsByte
      ∧ (settings.sheet tempo ts).power.IsByte := by
    unfold Settings.sheet Settings.SignatureFits
    rw [hd, Option.getD_some, isByte_numerator_iff hn hnumerator, isByte_log2_iff hpositive, hn]
    simp
  rw [hparts]
  exact ⟨fun h => ⟨h.numerator, h.power⟩, fun h =>
    ⟨h.1, h.2, ⟨24, rfl, by decide, by decide⟩, hprogram, hprogram, hnotes⟩⟩

namespace Score

/-- **What whole settings make of a score.**  With a usual beat and a whole tempo
above zero a score is written just when the tempo fits, every degree has a key
and the time signature fits; else the fault is that of the first that is not
so. -/
theorem encode_cases {write : SoundWriter Q} (hwrite : SoundSheet.WritesBytes write)
    (hQ : Steady Q Small) {raw : RawSettings Q}
    (hcheck : raw.check = .ok settings) (hwhole : settings.Whole)
    (hbeat : settings.beatDuration = Settings.standard.beatDuration) {key : Option Key}
    {text : String} {s : Score Q} (hread : Score.read Table.standard key text = .ok s
      ∨ Score.readDatum Table.standard key text = .ok s)
    {tempo : Number Q} {n : Int} (hn : tempo.asInt? = some n) (hpositive : 0 < n) :
    (TempoFits n ∧ s.Keyed ∧ settings.SignatureFits
        ∧ ∃ bytes, s.encodeWith write settings tempo = .ok bytes)
      ∨ (¬ TempoFits n
        ∧ s.encodeWith write settings tempo = .error (tempoFault .tempoOutOfRange tempo))
      ∨ (TempoFits n ∧ ¬ s.Keyed ∧ ∃ k, s.encodeWith write settings tempo = .error (.key k))
      ∨ TempoFits n ∧ s.Keyed ∧ ¬ settings.SignatureFits
        ∧ s.encodeWith write settings tempo = .error .notByte := by
  have hmade : s.Made Chord.Legible key := by
    rcases hread with hread | hread
    · exact made_of_read Table.reads_standard hread
    · exact made_of_readDatum Table.reads_standard hread
  have htones : ∀ e ∈ s.entries, ∀ c ∈ e.chord?, c.intervals ≠ [] := fun e he c hc =>
    List.ne_nil_of_mem (Chord.zero_mem_intervals ((hmade.entries e he).chord c hc).quality)
  obtain ⟨octave, m, hoctave, hm⟩ := hwhole.octave
  have hkeyed := exists_timeline_iff hoctave hm htones
  unfold encodeWith
  rcases quarterMicroseconds_cases hn hpositive with ⟨htempo, us, hus⟩ | ⟨htempo, hus⟩
  · rw [hus, ok_bind]
    -- ahead of the writer a score only fails for want of a key
    cases hts : timeline settings s with
    | error f =>
      have hunkeyed : ¬ s.Keyed := fun h => by
        obtain ⟨ts, hok⟩ := hkeyed.mpr h
        rw [hts] at hok
        cases hok
      obtain ⟨k, rfl⟩ := exists_keyFault_of_timeline hoctave hm htones hts
      exact .inr (.inr (.inl ⟨htempo, hunkeyed, k, rfl⟩))
    | ok ts =>
      have hpitches : ∀ t ∈ ts, ∀ p ∈ t.voiced.notes, p.IsByte := by
        intro t ht p hp
        obtain ⟨i, rfl, hlow, hhigh⟩ := notes_timeline hoctave hm hts t ht p hp
        have hle : i ≤ 127 := hhigh
        exact ⟨i, rfl, hlow, by omega⟩
      have hnotes := fits_of_mem_sheet hQ hcheck hwhole hbeat tempo (hQ.timeline hmade hts)
        hpitches
      obtain ⟨hchannel, hbassChannel⟩ := Settings.isChannel hcheck hwhole
      have husual : (settings.sheet tempo ts).Usual :=
        ⟨rfl, ⟨n, hn, htempo⟩, hchannel, hbassChannel, fun n hn => (hnotes n hn).1⟩
      -- what is left for the writer to refuse is the time signature
      have hfits := fits_sheet_iff hcheck hwhole fun n hn => (hnotes n hn).2
      rw [ok_bind]
      rcases (hwrite _ husual).congr hfits with ⟨hsignature, hbytes⟩ | ⟨hsignature, hbytes⟩
      · exact .inl ⟨htempo, hkeyed.mp ⟨ts, hts⟩, hsignature, hbytes⟩
      · exact .inr (.inr (.inr ⟨htempo, hkeyed.mp ⟨ts, hts⟩, hsignature, hbytes⟩))
  · rw [hus]
    exact .inr (.inl ⟨htempo, rfl⟩)

/-- A time signature of 256 quarters is allowed, but it cannot be written. -/
theorem encode_cases_signature_256 :
    ∃ (settings : Settings Rat) (s : Score Rat), settings.raw.check = .ok settings
      ∧ settings.Whole ∧ settings.beatDuration = Settings.standard.beatDuration
      ∧ Score.read Table.standard none "C" = .ok s
      ∧ s.encode settings (.whole 120) = .error .notByte := by
  let settings : Settings Rat := { Settings.standard with numerator := .whole 256 }
  let s : Score Rat := ⟨[⟨.chord ⟨.pitch ⟨0, some "C"⟩, Quality.majorTriad, [], none⟩, 0, 0, 1, 0, 0⟩],
    [none]⟩
  have hcheck : settings.raw.check = .ok settings := rfl
  have hwhole : settings.Whole :=
    ⟨⟨80, rfl⟩, ⟨68, rfl⟩, ⟨.whole 4, 4, rfl, rfl⟩, ⟨0, rfl⟩, ⟨0, rfl⟩, ⟨256, rfl⟩⟩
  have hread : Score.read Table.standard none "C" = .ok s := by
    decide +kernel
  refine ⟨settings, s, hcheck, hwhole, rfl, hread, ?_⟩
  have hkeyed : s.Keyed := by
    intro e he c hc _
    obtain rfl := List.mem_singleton.mp he
    obtain rfl := Option.some.inj hc
    exact ⟨rfl, fun r hr => nomatch hr⟩
  have hsignature : ¬ settings.SignatureFits := by
    rintro ⟨⟨n, hn, hle⟩, -⟩
    obtain rfl : 256 = n := Option.some.inj hn
    omega
  have htempo : (Number.whole 120 : Number Rat).asInt? = some 120 := rfl
  rcases encode_cases SoundSheet.writesBytes_bytes steady_exact hcheck hwhole rfl (.inl hread) htempo (by decide) with
    ⟨-, -, h, -⟩ | ⟨h, -⟩ | ⟨-, h, -⟩ | ⟨-, -, -, h⟩
  · exact absurd h hsignature
  · exact absurd ⟨by decide, by decide⟩ h
  · exact absurd hkeyed h
  · exact h

end Score

end LeadSheet
