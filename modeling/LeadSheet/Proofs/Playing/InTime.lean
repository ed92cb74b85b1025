import LeadSheet.Proofs.Playing.Written

/-!
# Events are in time

An event tells only how many ticks it is behind the one before.  Added up, these
lead back to the switches that the events were made of (`switchesFrom_eventsFrom`),
so the events of a score say when every note is switched on and off.

Putting switches in order keeps those that switch notes on in the order of the
chords (`filter_isOn_inOrder`), and at one tick nothing is switched off behind
what is switched on.  So the notes of a chord stay together
(`exists_of_filter_isOn`), each but the first with no ticks between.

`Score.events_inTime` says all this of the events of a score (`InTime`).
-/

namespace LeadSheet

/-! ### The ticks of events -/

section Events

variable {ν Q : Type}

/-- What events switch, from a tick on: every event is at the sum of the ticks up
to it. -/
def switchesFrom (now : Int) : List (Event ν Q) → List (NoteSwitch ν Q)
  | [] => []
  | e :: es =>
    ⟨now + e.delta, e.isOn, e.pitch, e.velocity, e.channel⟩ :: switchesFrom (now + e.delta) es

/-- **Added up, the ticks of events are those of the switches they were made
of.** -/
@[simp] theorem switchesFrom_eventsFrom (now : Int) (xs : List (NoteSwitch ν Q)) :
    switchesFrom now (eventsFrom now xs) = xs := by
  induction xs generalizing now with
  | nil => rfl
  | cons x xs ih =>
    have htick : now + (x.tick - now) = x.tick := by omega
    simp [eventsFrom, switchesFrom, htick, ih]

/-- The tick of the last of some switches, or where they start. -/
def lastTick (now : Int) : List (NoteSwitch ν Q) → Int
  | [] => now
  | x :: xs => lastTick x.tick xs

theorem eventsFrom_append (now : Int) (xs ys : List (NoteSwitch ν Q)) :
    eventsFrom now (xs ++ ys) = eventsFrom now xs ++ eventsFrom (lastTick now xs) ys := by
  induction xs generalizing now with
  | nil => rfl
  | cons x xs ih => simp [eventsFrom, lastTick, ih]

theorem add_sum_delta_eventsFrom (now : Int) (xs : List (NoteSwitch ν Q)) :
    now + ((eventsFrom now xs).map Event.delta).sum = lastTick now xs := by
  induction xs generalizing now with
  | nil => simp [eventsFrom, lastTick]
  | cons x xs ih =>
    have htail := ih x.tick
    simp only [eventsFrom, lastTick, List.map_cons, List.sum_cons]
    omega

theorem delta_nonneg_of_mem_eventsFrom {now : Int} {xs : List (NoteSwitch ν Q)}
    (hstart : ∀ x ∈ xs, now ≤ x.tick) (horder : xs.Pairwise fun x y => ¬ y.before x) :
    ∀ e ∈ eventsFrom now xs, 0 ≤ e.delta := by
  induction xs generalizing now with
  | nil => simp [eventsFrom]
  | cons x xs ih =>
    obtain ⟨hx, hxs⟩ := List.pairwise_cons.mp horder
    have hnow := hstart x (List.mem_cons_self ..)
    have hnext : ∀ y ∈ xs, x.tick ≤ y.tick := by
      intro y hy
      have hnot := hx y hy
      rw [NoteSwitch.before_iff] at hnot
      omega
    intro e he
    rcases List.mem_cons.mp he with rfl | he
    · show 0 ≤ x.tick - now
      omega
    · exact ih hnext hxs e he

/-- Notes that are switched on together, some ticks behind what came before. -/
def notesOn (delta : Int) : List (NoteSpan ν Q) → List (Event ν Q)
  | [] => []
  | n :: ns => ⟨true, n.pitch, n.velocity, delta, n.channel⟩ :: notesOn 0 ns

theorem eventsFrom_map_on {now tick : Int} {ns : List (NoteSpan ν Q)}
    (h : ∀ n ∈ ns, n.start = tick) :
    eventsFrom now (ns.map NoteSpan.on) = notesOn (tick - now) ns := by
  induction ns generalizing now with
  | nil => rfl
  | cons n ns ih =>
    obtain ⟨hn, hns⟩ := List.forall_mem_cons.mp h
    have hrest : eventsFrom tick (ns.map NoteSpan.on) = notesOn (tick - tick) ns := ih hns
    simp [eventsFrom, notesOn, NoteSpan.on, hn] at hrest ⊢
    exact hrest

/-! ### What is switched on -/

/-- The notes of a schedule are switched on in their order, if that is the order of
their ticks. -/
theorem filter_isOn_inOrder {ns : List (NoteSpan ν Q)}
    (h : ns.Pairwise fun m n => m.start ≤ n.start) :
    (inOrder NoteSwitch.before (ns.flatMap NoteSpan.switches)).filter NoteSwitch.isOn
      = ns.map NoteSpan.on := by
  have hon : (ns.flatMap NoteSpan.switches).filter NoteSwitch.isOn = ns.map NoteSpan.on := by
    clear h
    induction ns with
    | nil => rfl
    | cons n ns ih =>
      rw [List.flatMap_cons, List.filter_append, ih]
      rfl
  rw [filter_inOrder NoteSwitch.before_trans NoteSwitch.before_asymm, hon]
  refine inOrder_eq_self (List.pairwise_map.mpr (h.imp fun {m n} hmn => ?_))
  rw [NoteSwitch.before_iff]
  simpa [NoteSpan.on] using hmn

/-- What is switched on at the tick of the switch in front follows right behind
it. -/
theorem exists_append_of_filter_isOn {x : NoteSwitch ν Q} {xs : List (NoteSwitch ν Q)}
    (horder : (x :: xs).Pairwise fun y z => ¬ z.before y) (hx : x.isOn = true)
    {bs cs : List (NoteSwitch ν Q)} (hbs : ∀ b ∈ bs, b.tick = x.tick)
    (hfilter : xs.filter NoteSwitch.isOn = bs ++ cs) :
    ∃ after, xs = bs ++ after ∧ after.filter NoteSwitch.isOn = cs := by
  induction bs generalizing x xs with
  | nil => exact ⟨xs, rfl, hfilter⟩
  | cons b bs ih =>
    obtain ⟨hb, hbs⟩ := List.forall_mem_cons.mp hbs
    obtain ⟨between, rest, rfl, hoff, hon, hrest⟩ := List.filter_eq_cons_iff.mp hfilter
    obtain ⟨hfirst, horder⟩ := List.pairwise_cons.mp horder
    cases between with
    | nil =>
      obtain ⟨after, rfl, hafter⟩ := ih horder hon (fun c hc => (hbs c hc).trans hb.symm) hrest
      exact ⟨after, rfl, hafter⟩
    | cons y between =>
      -- a switch in between is behind an on and before another one at that tick
      have hy := hoff y (List.mem_cons_self ..)
      have hbehind := hfirst y (by simp)
      have hbefore := (List.pairwise_cons.mp horder).1 b (by simp)
      rw [NoteSwitch.before_iff] at hbehind hbefore
      simp [hx, hy] at hbehind hbefore
      omega

theorem exists_of_filter_isOn {xs : List (NoteSwitch ν Q)}
    (horder : xs.Pairwise fun x y => ¬ y.before x) {tick : Int} {as bs cs : List (NoteSwitch ν Q)}
    (hbs : ∀ b ∈ bs, b.tick = tick) (hfilter : xs.filter NoteSwitch.isOn = as ++ bs ++ cs) :
    ∃ before after, xs = before ++ bs ++ after ∧ before.filter NoteSwitch.isOn = as
      ∧ after.filter NoteSwitch.isOn = cs := by
  rw [List.append_assoc] at hfilter
  obtain ⟨before, rest, rfl, hbefore, hrest⟩ := List.filter_eq_append_iff.mp hfilter
  have horder := (List.pairwise_append.mp horder).2.1
  cases bs with
  | nil => exact ⟨before, rest, by simp, hbefore, hrest⟩
  | cons b bs =>
    obtain ⟨hb, hbs⟩ := List.forall_mem_cons.mp hbs
    obtain ⟨offs, more, rfl, hoff, hon, hmore⟩ := List.filter_eq_cons_iff.mp hrest
    obtain ⟨after, rfl, hafter⟩ := exists_append_of_filter_isOn
      (List.pairwise_append.mp horder).2.1 hon (fun c hc => (hbs c hc).trans hb.symm) hmore
    refine ⟨before ++ offs, after, by simp, ?_, hafter⟩
    rw [List.filter_append, hbefore, List.filter_eq_nil_iff.mpr hoff, List.append_nil]

end Events

/-! ### Schedules -/

variable {ν : Type} {settings : Settings Rat} {ts : List (TimedChord ν Rat)}

/-- Events that play some chords in time. -/
structure InTime (settings : Settings Rat) (ts : List (TimedChord ν Rat))
    (es : List (Event ν Rat)) : Prop where
  /-- No event is before the one in front of it. -/
  delta_nonneg : ∀ e ∈ es, 0 ≤ e.delta
  /-- Every note is switched on at the tick its chord starts and off at the tick it
  ends, and nothing else happens. -/
  switches : (switchesFrom 0 es).Perm
    ((ts.flatMap (TimedChord.spans settings)).flatMap NoteSpan.switches)
  /-- At one tick nothing is switched off behind what is switched on. -/
  offFirst : (switchesFrom 0 es).Pairwise fun x y =>
    x.tick = y.tick → x.isOn = true → y.isOn = true
  /-- The notes of a chord are switched on one behind the other, behind those of the
  chords in front of it and with no ticks between them. -/
  together : ∀ us t vs, ts = us ++ t :: vs → ∃ before delta after,
    es = before ++ notesOn delta (t.spans settings) ++ after
      ∧ (before.map Event.delta).sum + delta = t.startTick settings
      ∧ (switchesFrom 0 before).filter NoteSwitch.isOn
        = (us.flatMap (TimedChord.spans settings)).map NoteSpan.on

theorem Spaced.pairwise_spans (hbeat : 0 < settings.beatTicks) (h : Spaced ts) :
    (ts.flatMap (TimedChord.spans settings)).Pairwise fun m n => m.start ≤ n.start := by
  refine List.pairwise_flatMap.mpr ⟨fun t _ => ?_, ?_⟩
  · refine List.pairwise_of_forall_mem_list fun m hm n hn => ?_
    rw [(TimedChord.ticks_of_mem_spans hm).1, (TimedChord.ticks_of_mem_spans hn).1]
  · refine h.apart.imp_of_mem fun {t u} ht hu htu m hm n hn => ?_
    rw [(TimedChord.ticks_of_mem_spans hm).1, (TimedChord.ticks_of_mem_spans hn).1]
    exact tickAt_mono hbeat (le_trans (h.lasting t ht) htu)

theorem tick_nonneg_of_mem_switches (hbeat : 0 < settings.beatTicks)
    (h : Spaced ts) (hstart : ∀ t ∈ ts, 0 ≤ t.startTick settings) :
    ∀ x ∈ (ts.flatMap (TimedChord.spans settings)).flatMap NoteSpan.switches, 0 ≤ x.tick := by
  intro x hx
  obtain ⟨n, hn, hx⟩ := List.mem_flatMap.mp hx
  obtain ⟨t, ht, hn⟩ := List.mem_flatMap.mp hn
  obtain ⟨hs, hf⟩ := TimedChord.ticks_of_mem_spans hn
  have hfirst := hstart t ht
  have hlast : t.startTick settings ≤ t.finishTick settings := tickAt_mono hbeat (h.lasting t ht)
  simp only [NoteSpan.switches, List.mem_cons, List.not_mem_nil, or_false] at hx
  rcases hx with rfl | rfl
  · show 0 ≤ n.start
    omega
  · show 0 ≤ n.finish
    omega

/-- **The events of chords that follow each other are in time.** -/
theorem Spaced.inTime (hbeat : 0 < settings.beatTicks) (h : Spaced ts)
    (hstart : ∀ t ∈ ts, 0 ≤ t.startTick settings) {es : List (Event ν Rat)}
    (hes : schedule settings ts = .ok es) : InTime settings ts es := by
  rw [schedule_eq_ok] at hes
  obtain rfl := Except.ok.inj hes
  have horder := pairwise_switches
    ((ts.flatMap (TimedChord.spans settings)).flatMap NoteSpan.switches)
  have hperm := perm_inOrder NoteSwitch.before
    ((ts.flatMap (TimedChord.spans settings)).flatMap NoteSpan.switches)
  -- the first three follow from the order of the switches alone; for the last one the chords have
  -- to come one behind the other, as what they switch on then stays in its order
  refine ⟨?_, ?_, ?_, fun us t vs hts => ?_⟩
  · refine delta_nonneg_of_mem_eventsFrom (fun x hx => ?_) horder
    exact tick_nonneg_of_mem_switches hbeat h hstart x (hperm.mem_iff.mp hx)
  · rw [switchesFrom_eventsFrom]
    exact hperm
  · rw [switchesFrom_eventsFrom]
    refine horder.imp fun {x y} hxy htick hx => ?_
    rw [NoteSwitch.before_iff] at hxy
    by_contra hy
    exact hxy (.inr ⟨htick.symm, by simpa using hy, hx⟩)
  · have hon := filter_isOn_inOrder (h.pairwise_spans hbeat)
    have hticks : ∀ n ∈ t.spans settings, n.start = t.startTick settings :=
      fun n hn => (TimedChord.ticks_of_mem_spans hn).1
    have hchords : (ts.flatMap (TimedChord.spans settings)).map NoteSpan.on
        = (us.flatMap (TimedChord.spans settings)).map NoteSpan.on
          ++ (t.spans settings).map NoteSpan.on
          ++ (vs.flatMap (TimedChord.spans settings)).map NoteSpan.on := by
      rw [hts]
      simp
    have hswitched : ∀ x ∈ (t.spans settings).map NoteSpan.on, x.tick = t.startTick settings :=
      List.forall_mem_map.mpr hticks
    obtain ⟨before, after, hsplit, hbefore, -⟩ :=
      exists_of_filter_isOn horder hswitched (hon.trans hchords)
    let played := before ++ (t.spans settings).map NoteSpan.on
    refine ⟨eventsFrom 0 before, t.startTick settings - lastTick 0 before,
      eventsFrom (lastTick 0 played) after, ?_, ?_, ?_⟩
    · rw [hsplit, eventsFrom_append, eventsFrom_append, eventsFrom_map_on hticks]
    · have hsum := add_sum_delta_eventsFrom 0 before
      omega
    · rw [switchesFrom_eventsFrom]
      exact hbefore

namespace Score

/-- **The events of a score are in time.**  If its chords have notes and times, it
has events, which switch every note on at the tick nearest to the start of its
chord and off at the tick nearest to the end. -/
theorem events_inTime {raw : RawSettings Rat} (hcheck : raw.check = .ok settings) {table : Table}
    {key : Option Key} {text : String} {s : Score Rat} (hread : Score.read table key text = .ok s)
    {ts : List (TimedChord (Number Rat) Rat)} (hts : timeline settings s = .ok ts) :
    ∃ es, s.events settings = .ok es ∧ InTime settings ts es := by
  have hmade := made_of_read (fun _ _ _ => trivial : table.Reads fun _ => True) hread
  have hlasting := lasting_of_made hmade.entries
  have hbeat := beatTicks_pos hcheck
  have hspaced := (spaced_timeline hmade.chained hlasting hts).1
  have hstart : ∀ t ∈ ts, 0 ≤ t.startTick settings := by
    intro t ht
    have htime := (beatTicks_timeline_nonneg hbeat hmade.chained hlasting hts t ht).1
    exact Int.le_trans (Int.floor_nonneg.mpr htime) (floor_le_roundEven _)
  have hes : schedule settings ts = _ := schedule_eq_ok ts
  refine ⟨_, ?_, hspaced.inTime hbeat hstart hes⟩
  unfold events
  rw [hts]
  exact hes

/-- A chord with a bass, one that lasts for no tick, and one at the tick of that. -/
theorem events_inTime_tune : ∃ (s : Score Rat) (ts : List (TimedChord (Number Rat) Rat))
    (es : List (Event (Number Rat) Rat)),
    (Settings.standard : Settings Rat).raw.check = .ok Settings.standard
      ∧ Score.read Table.standard none "C/G:1.5 D:0.0001 | E" = .ok s
      ∧ timeline Settings.standard s = .ok ts ∧ s.events Settings.standard = .ok es
      ∧ ts.map (fun t => (t.startTick Settings.standard, t.finishTick Settings.standard))
        = [(0, 1440), (1440, 1440), (1440, 2400)]
      ∧ InTime Settings.standard ts es := by
  have hticks : ((Score.read (Q := Rat) Table.standard none "C/G:1.5 D:0.0001 | E").toOption.bind
      fun s => (timeline Settings.standard s).toOption).map
        (fun ts => ts.map fun t =>
          (t.startTick Settings.standard, t.finishTick Settings.standard))
      = some [(0, 1440), (1440, 1440), (1440, 2400)] := by
    decide +kernel
  obtain ⟨ts, hfound, hticks⟩ := Option.map_eq_some_iff.mp hticks
  obtain ⟨s, hread, hts⟩ := Option.bind_eq_some_iff.mp hfound
  have hread := eq_ok_of_toOption hread
  have hts := eq_ok_of_toOption hts
  have hcheck : (Settings.standard : Settings Rat).raw.check = .ok Settings.standard := rfl
  obtain ⟨es, hes, htime⟩ := events_inTime hcheck hread hts
  exact ⟨s, ts, es, hcheck, hread, hts, hes, hticks, htime⟩

end Score

end LeadSheet
