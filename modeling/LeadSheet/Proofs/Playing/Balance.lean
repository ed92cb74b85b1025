import LeadSheet.Proofs.Playing.Span
import LeadSheet.Proofs.Playing.Switches
import LeadSheet.Proofs.Playing.Ticks
import LeadSheet.Proofs.Playing.Whole
import LeadSheet.Proofs.Settings.Checked

/-!
# What is switched on is switched off

With exact times the chords of a score become notes whose ticks follow each
other as the chords do (`Spaced.ticks`), since rounding keeps the order.  So
its events switch every note off as often as on, and always afterwards just
when no chord is shorter than a tick can tell: `Score.events_balanced`.
-/

namespace LeadSheet

/-! ### Notes -/

variable {ν : Type} {settings : Settings Rat}

namespace TimedChord

def startTick (settings : Settings Rat) (t : TimedChord ν Rat) : Int :=
  tickAt settings t.start

def finishTick (settings : Settings Rat) (t : TimedChord ν Rat) : Int :=
  tickAt settings (t.start + t.duration)

/-- **The notes of a chord**: the bass first, which is on the channel above that of
the chord. -/
def spans (settings : Settings Rat) (t : TimedChord ν Rat) : List (NoteSpan ν Rat) :=
  t.voiced.bass.toList.map (fun n => ⟨t.startTick settings, t.finishTick settings, n,
      settings.bassVelocity, settings.channel.above⟩)
    ++ t.voiced.chord.map fun n => ⟨t.startTick settings, t.finishTick settings, n,
      settings.velocity, settings.channel⟩

theorem switches_eq_ok (t : TimedChord ν Rat) :
    t.switches settings = .ok ((t.spans settings).flatMap NoteSpan.switches) := by
  unfold switches spans
  rw [ticks_eq_ok, ticks_eq_ok, ← Settings.bassChannel_eq_above, List.flatMap_append,
    List.flatMap_map, List.flatMap_map]
  rfl

theorem ticks_of_mem_spans {t : TimedChord ν Rat} {n : NoteSpan ν Rat}
    (h : n ∈ t.spans settings) : n.start = t.startTick settings
      ∧ n.finish = t.finishTick settings := by
  unfold spans at h
  rcases List.mem_append.mp h with h | h
  · obtain ⟨p, -, rfl⟩ := List.mem_map.mp h
    exact ⟨rfl, rfl⟩
  · obtain ⟨p, -, rfl⟩ := List.mem_map.mp h
    exact ⟨rfl, rfl⟩

end TimedChord

theorem Spaced.ticks (hbeat : 0 < settings.beatTicks)
    {ts : List (TimedChord ν Rat)} (h : Spaced ts) {t : TimedChord ν Rat} (ht : t ∈ ts)
    (hempty : t.startTick settings = t.finishTick settings) :
    ∀ u ∈ ts, u.finishTick settings ≤ t.startTick settings
      ∨ t.startTick settings ≤ u.startTick settings := by
  have hpairs := List.Pairwise.forall_of_forall_of_flip
    (R := fun u v : TimedChord ν Rat => u = v ∨ u.finish ≤ v.start ∨ v.finish ≤ u.start)
    (fun _ _ => .inl rfl) (h.apart.imp fun huv => .inr (.inl huv))
    (h.apart.imp fun huv => .inr (.inr huv))
  intro u hu
  rcases hpairs hu ht with rfl | hbefore | hafter
  · exact .inr (Int.le_refl _)
  · exact .inl (tickAt_mono hbeat hbefore)
  · refine .inr ?_
    rw [hempty]
    exact tickAt_mono hbeat hafter

/-! ### Events -/

variable {Q : Type}

theorem exists_of_prefix_eventsFrom : ∀ {xs : List (NoteSwitch ν Q)} {now : Int}
    {es : List (Event ν Q)}, es <+: eventsFrom now xs → ∃ ys, ys <+: xs ∧ es = eventsFrom now ys := by
  intro xs
  induction xs with
  | nil =>
    intro now es h
    exact ⟨[], List.prefix_rfl, List.prefix_nil.mp h⟩
  | cons x xs ih =>
    intro now es h
    rw [eventsFrom] at h
    rcases List.prefix_cons_iff.mp h with rfl | ⟨ds, rfl, hds⟩
    · exact ⟨[], List.nil_prefix, rfl⟩
    · obtain ⟨ys, hys, rfl⟩ := ih hds
      exact ⟨x :: ys, (List.prefix_cons_inj x).mpr hys, rfl⟩

theorem eventsFrom_mono : ∀ {xs ys : List (NoteSwitch ν Q)} {now : Int}, ys <+: xs →
    eventsFrom now ys <+: eventsFrom now xs := by
  intro xs
  induction xs with
  | nil =>
    intro ys now h
    obtain rfl := List.prefix_nil.mp h
    exact List.prefix_rfl
  | cons x xs ih =>
    intro ys now h
    rcases List.prefix_cons_iff.mp h with rfl | ⟨zs, rfl, hzs⟩
    · exact List.nil_prefix
    · exact (List.prefix_cons_inj _).mpr (ih hzs)

/-- How often a pitch is switched on, or off, on a channel. -/
def eventCount (channel pitch : Rat) (isOn : Bool) (es : List (Event (Number Rat) Rat)) : Nat :=
  es.countP fun e => e.isOn == isOn && (e.channel.toQuantity == channel
    && e.pitch.toQuantity == pitch)

def isAt (channel pitch : Rat) (p c : Number Rat) : Bool :=
  c.toQuantity == channel && p.toQuantity == pitch

theorem eventCount_eventsFrom (channel pitch : Rat) (isOn : Bool) :
    ∀ (xs : List (NoteSwitch (Number Rat) Rat)) (now : Int),
      eventCount channel pitch isOn (eventsFrom now xs)
        = switchCount (isAt channel pitch) isOn xs := by
  intro xs
  induction xs with
  | nil => intro now; rfl
  | cons x xs ih =>
    intro now
    have hrest := ih x.tick
    unfold eventCount switchCount at hrest ⊢
    rw [eventsFrom, List.countP_cons, List.countP_cons, hrest]
    rfl

theorem schedule_eq_ok (ts : List (TimedChord ν Rat)) :
    schedule settings ts = .ok (eventsFrom 0 (inOrder NoteSwitch.before
      ((ts.flatMap (TimedChord.spans settings)).flatMap NoteSpan.switches))) := by
  have hswitches : ts.mapM (TimedChord.switches settings)
      = .ok (ts.map fun t => (t.spans settings).flatMap NoteSpan.switches) := by
    rw [funext TimedChord.switches_eq_ok]
    exact List.mapM_pure
  unfold schedule
  rw [hswitches, List.flatMap_assoc]
  rfl

/-! ### Scores -/

/-- Events of which every one that switches a note off follows one that
switches it on. -/
def OffAfterOn (es : List (Event (Number Rat) Rat)) : Prop :=
  ∀ ds, ds <+: es → ∀ channel pitch : Rat,
    eventCount channel pitch false ds ≤ eventCount channel pitch true ds

/-- **Notes are switched off after they are switched on just when every chord
lasts for some ticks.** -/
theorem offAfterOn_schedule_iff (hbeat : 0 < settings.beatTicks)
    {ts : List (TimedChord (Number Rat) Rat)} (hspaced : Spaced ts)
    (hnotes : ∀ t ∈ ts, t.voiced.chord ≠ []) {es : List (Event (Number Rat) Rat)}
    (hes : schedule settings ts = .ok es) :
    OffAfterOn es ↔ ∀ t ∈ ts, t.startTick settings < t.finishTick settings := by
  rw [schedule_eq_ok] at hes
  obtain rfl := Except.ok.inj hes
  constructor
  · intro hoff t ht
    by_contra hlt
    have hempty : t.startTick settings = t.finishTick settings :=
      Int.le_antisymm (tickAt_mono hbeat (hspaced.lasting t ht)) (Int.not_lt.mp hlt)
    obtain ⟨p, ps, hp⟩ := List.exists_cons_of_ne_nil (hnotes t ht)
    -- The first note of the chord is the one that is switched off too early.
    obtain ⟨n, hn, hpitch, hchannel⟩ : ∃ n ∈ t.spans settings,
        n.pitch = p ∧ n.channel = settings.channel := by
      refine ⟨_, List.mem_append_right _ (List.mem_map_of_mem ?_), rfl, rfl⟩
      rw [hp]
      exact List.mem_cons_self ..
    obtain ⟨hstart, hfinish⟩ := TimedChord.ticks_of_mem_spans hn
    have happart : ∀ m ∈ ts.flatMap (TimedChord.spans settings),
        m.finish ≤ n.start ∨ n.start ≤ m.start := by
      intro m hm
      obtain ⟨u, hu, hm⟩ := List.mem_flatMap.mp hm
      obtain ⟨hstart', hfinish'⟩ := TimedChord.ticks_of_mem_spans hm
      rw [hstart, hstart', hfinish']
      exact hspaced.ticks hbeat ht hempty u hu
    obtain ⟨xs, hxs, hcount⟩ := exists_prefix_switchCount_lt
      (P := isAt settings.channel.toQuantity p.toQuantity)
      (List.mem_flatMap.mpr ⟨t, ht, hn⟩) (by rw [hpitch, hchannel]; simp [isAt])
      (by rw [hstart, hfinish, hempty]) happart
    have hle := hoff _ (eventsFrom_mono hxs) settings.channel.toQuantity p.toQuantity
    rw [eventCount_eventsFrom, eventCount_eventsFrom] at hle
    omega
  · intro hlasts ds hds channel pitch
    obtain ⟨ys, hys, rfl⟩ := exists_of_prefix_eventsFrom hds
    rw [eventCount_eventsFrom, eventCount_eventsFrom]
    refine switchCount_prefix_le _ (fun n hn => ?_) hys
    obtain ⟨t, ht, hn⟩ := List.mem_flatMap.mp hn
    obtain ⟨hstart, hfinish⟩ := TimedChord.ticks_of_mem_spans hn
    rw [hstart, hfinish]
    exact hlasts t ht

theorem Number.value_pos {n : Number Rat} (h : ¬ n.atMost (.whole 0)) : 0 < n.value := by
  cases n with
  | flag b => cases b <;> revert h <;> decide
  | whole n =>
    have hle : ¬ n ≤ 0 := fun hle => h (decide_eq_true hle)
    show (0 : Rat) < (n : Rat)
    exact_mod_cast Int.not_le.mp hle
  | fraction x =>
    have hle : ¬ x ≤ ((0 : Int) : Rat) := fun hle => h (decide_eq_true hle)
    exact_mod_cast Rat.not_le.mp hle

theorem beatTicks_pos {raw : RawSettings Rat} (h : raw.check = .ok settings) :
    0 < settings.beatTicks := by
  obtain ⟨-, -, hpositive⟩ :=
    duration_of_checkBeatDuration (RawSettings.checked_of_check h).beatDuration
  have hvalue := Number.value_pos (n := settings.beatDuration) (by simp [hpositive])
  exact mul_pos (by norm_num) hvalue

namespace Score

/-- **What is switched on is switched off.**  With exact times a score is
played whenever the octave is whole, its degrees have a key and its chords have
tones.  Its events switch every pitch on every channel off as often as on, and
never more often up to any point just when every chord lasts for some ticks. -/
theorem events_balanced {raw : RawSettings Rat} (hcheck : raw.check = .ok settings)
    {table : Table} {key : Option Key} {text : String} {s : Score Rat}
    (hread : Score.read table key text = .ok s ∨ Score.readDatum table key text = .ok s) :
    (∀ octave n, settings.octave = .number octave → octave.asInt? = some n → s.Keyed →
        (∀ e ∈ s.entries, ∀ c ∈ e.chord?, c.intervals ≠ []) → ∃ es, s.events settings = .ok es)
      ∧ ∀ es, s.events settings = .ok es → ∃ ts, timeline settings s = .ok ts
        ∧ (∀ channel pitch, eventCount channel pitch false es = eventCount channel pitch true es)
        ∧ (OffAfterOn es ↔ ∀ t ∈ ts, t.startTick settings < t.finishTick settings) := by
  have hmade : s.Made (fun _ => True) key := by
    rcases hread with hread | hread
    · exact made_of_read (fun _ _ _ => trivial) hread
    · exact made_of_readDatum (fun _ _ _ => trivial) hread
  refine ⟨fun octave n hoctave hn hkeyed htones => ?_, fun es hes => ?_⟩
  · obtain ⟨ts, hts⟩ := (exists_timeline_iff hoctave hn htones).mpr hkeyed
    unfold events
    rw [hts]
    exact ⟨_, schedule_eq_ok ts⟩
  · obtain ⟨ts, hts, hes⟩ := exists_of_bind_eq_ok hes
    obtain ⟨hspaced, hnotes⟩ := spaced_timeline hmade.chained (lasting_of_made hmade.entries) hts
    refine ⟨ts, hts, fun channel pitch => ?_,
      offAfterOn_schedule_iff (beatTicks_pos hcheck) hspaced hnotes hes⟩
    rw [schedule_eq_ok] at hes
    obtain rfl := Except.ok.inj hes
    rw [eventCount_eventsFrom, eventCount_eventsFrom]
    exact switchCount_inOrder _ _

/-- A chord of a tenth of a tick. -/
theorem events_balanced_short_chord :
    (Settings.standard : Settings Rat).raw.check = .ok Settings.standard
      ∧ ∃ (s : Score Rat) (es : List (Event (Number Rat) Rat)),
        Score.read Table.standard none "C:0.0001" = .ok s
          ∧ s.events Settings.standard = .ok es ∧ ¬ OffAfterOn es := by
  have hcheck : (Settings.standard : Settings Rat).raw.check = .ok Settings.standard := rfl
  have hread : Score.read (Q := Rat) Table.standard none "C:0.0001"
      = .ok ⟨[⟨.chord ⟨.pitch ⟨0, some "C"⟩, Quality.majorTriad, [], none⟩, 0, 0, 1 / 10000, 0, 0⟩],
        [none]⟩ := by
    decide +kernel
  have hplayed := events_balanced hcheck (.inl hread)
  have hkeyed : Score.Keyed (⟨[⟨.chord ⟨.pitch ⟨0, some "C"⟩, Quality.majorTriad, [], none⟩, 0, 0,
      1 / 10000, 0, 0⟩], [none]⟩ : Score Rat) := by
    intro e he c hc _
    obtain rfl := List.mem_singleton.mp he
    obtain rfl := Option.some.inj hc
    exact ⟨rfl, fun r hr => nomatch hr⟩
  obtain ⟨es, hes⟩ := hplayed.1 _ 4 rfl rfl hkeyed (by decide)
  refine ⟨hcheck, _, es, hread, hes, fun hoff => ?_⟩
  obtain ⟨ts, hts, -, hlasts⟩ := hplayed.2 es hes
  cases hts
  have := hlasts.mp hoff _ (List.mem_cons_self ..)
  revert this
  decide +kernel

end Score

end LeadSheet
