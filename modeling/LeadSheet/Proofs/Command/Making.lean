import LeadSheet.Command.Work
import LeadSheet.Proofs.Reading.Place
import LeadSheet.Proofs.Text.Path
import LeadSheet.Proofs.Text.Utf8

/-!
# What a command makes

What a command makes of its files is told by relations in which no note and no
failure is left (`Command.Makes`).  The score is what its file says, which is
UTF-8, from the key that was given on.  The settings are those of their file, in
which the options replace two.  The product is then what the conversion comes to,
or what the sheet of the score is written as.

The work of a command succeeds just when it makes something
(`Command.result_work_eq_ok_iff`), whatever tools it is done with.
-/

namespace LeadSheet

/-! ### Results of work -/

namespace Work

variable {α β ε : Type}

theorem result_bind_eq_ok_iff {w : Work α} {f : α → Work β} {b : β} :
    (w >>= f).result = .ok b ↔ ∃ a, w.result = .ok a ∧ (f a).result = .ok b := by
  show (w.andThen f).result = .ok b ↔ _
  cases hw : w.result with
  | error failure =>
    rw [andThen_of_error hw]
    exact ⟨nofun, nofun⟩
  | ok a =>
    rw [andThen_of_ok hw]
    exact ⟨fun h => ⟨a, rfl, h⟩, fun ⟨_, ha, h⟩ => Except.ok.inj ha ▸ h⟩

theorem result_noting_bind (notes : List Note) (f : Unit → Work β) :
    (noting notes >>= f).result = (f ()).result := rfl

theorem result_pure_eq_ok_iff {a b : α} : (pure a : Work α).result = .ok b ↔ a = b :=
  ⟨Except.ok.inj, congrArg Except.ok⟩

theorem result_map_eq_ok_iff {w : Work α} {f : α → β} {b : β} :
    (f <$> w).result = .ok b ↔ ∃ a, w.result = .ok a ∧ f a = b := by
  rw [← bind_pure_comp, result_bind_eq_ok_iff]
  simp only [result_pure_eq_ok_iff]

theorem result_ofExcept_eq_ok_iff {failure : ε → Failure} {r : Except ε α} {a : α} :
    (ofExcept failure r).result = .ok a ↔ r = .ok a := by
  cases r with
  | error e => exact ⟨nofun, nofun⟩
  | ok b => exact ⟨fun h => congrArg _ (Except.ok.inj h), fun h => congrArg _ (Except.ok.inj h)⟩

end Work

variable {Q : Type} [Quantity Q]

/-! ### Reading the score -/

namespace ScoreOptions

variable {o : ScoreOptions}

/-- **The key that a score starts in**: the one that was given, or none if nothing but
blanks was. -/
def StartsIn (o : ScoreOptions) (key : Option Key) : Prop :=
  ∃ name, Text.Trimmed (o.tonic.getD "").toList name
    ∧ if name = [] then key = none
      else ∃ k, Key.read (String.ofList name) = .ok k ∧ key = some k

/-- **A score is written in brackets** if the options say so, or if they say nothing and
the name of its file does. -/
def InBrackets (o : ScoreOptions) : Prop :=
  o.format = .datum ∨ o.format = .auto ∧ (Text.EndsInAnyCase o.input.toList ".sexp".toList
    ∨ Text.EndsInAnyCase o.input.toList ".scm".toList)

/-- **The score that bytes hold**: the bytes are the UTF-8 of a text, and that is read
with the key. -/
def Reads (o : ScoreOptions) (bytes : List UInt8) (s : Score Q) : Prop :=
  ∃ key text lines, o.StartsIn key ∧ bytes = Text.utf8 text ∧ Text.Unified text.toList lines
    ∧ (o.InBrackets → Score.readDatum Table.standard key (String.ofList lines) = .ok s)
    ∧ (¬ o.InBrackets → Score.read Table.standard key (String.ofList lines) = .ok s)

theorem key_eq_ok_iff {key : Option Key} : o.key = .ok key ↔ o.StartsIn key := by
  have hname : ∀ name, Text.Trimmed (o.tonic.getD "").toList name
      ↔ Text.trim (o.tonic.getD "").toList = name := fun _ => Text.trim_eq_iff.symm
  unfold ScoreOptions.key StartsIn
  simp only [hname, exists_eq_left', List.isEmpty_iff]
  split
  · exact ⟨fun h => (Except.ok.inj h).symm, fun h => congrArg _ h.symm⟩
  · cases Key.read (String.ofList (Text.trim (o.tonic.getD "").toList)) with
    | error fault => exact ⟨nofun, fun ⟨_, h, _⟩ => nomatch h⟩
    | ok k =>
      exact ⟨fun h => ⟨k, rfl, (Except.ok.inj h).symm⟩, fun ⟨_, h, hk⟩ => by cases h; cases hk; rfl⟩

theorem isDatum_iff : o.isDatum = true ↔ o.InBrackets := by
  unfold isDatum InBrackets
  rw [← Text.suffix_lower_iff (by simp [Text.IsOwnLower]),
    ← Text.suffix_lower_iff (by simp [Text.IsOwnLower])]
  cases o.format <;>
    simp [datumSuffixes, List.isPrefixOf_iff_prefix, ← List.reverse_suffix]

theorem result_readScore_eq_ok_iff {bytes : List UInt8} {s : Score Q} :
    (o.readScore bytes).result = .ok s ↔ o.Reads bytes s := by
  have hread : ∀ key cs, (if o.isDatum = true then (do
          Work.noting (datumNotes Q Table.standard key cs)
          Work.ofExcept .reading (Score.readDatum Table.standard key cs))
        else (do
          Work.noting (scoreNotes Q Table.standard key cs)
          Work.ofExcept .reading (Score.read Table.standard key cs)) : Work (Score Q)).result = .ok s
      ↔ (o.InBrackets → Score.readDatum Table.standard key cs = .ok s)
        ∧ (¬ o.InBrackets → Score.read Table.standard key cs = .ok s) := by
    intro key cs
    rw [← isDatum_iff]
    split <;> rename_i hdatum <;>
      simp [hdatum, Work.result_noting_bind, Work.result_ofExcept_eq_ok_iff]
  unfold readScore Reads
  simp only [Work.result_bind_eq_ok_iff, Work.result_ofExcept_eq_ok_iff, key_eq_ok_iff, hread]
  constructor
  · rintro ⟨key, hkey, cs, hcs, hscore⟩
    refine ⟨key, String.ofList cs, Text.unifyLineEnds cs, hkey, Text.decode_eq_ok_iff.mp hcs, ?_, hscore⟩
    rw [String.toList_ofList]
    exact Text.unified_unifyLineEnds cs
  · rintro ⟨key, text, lines, hkey, hbytes, hlines, hscore⟩
    refine ⟨key, hkey, text.toList, Text.decode_eq_ok_iff.mpr ?_, ?_⟩
    · rw [String.ofList_toList]
      exact hbytes
    · rw [hlines.eq_unifyLineEnds]
      exact hscore

end ScoreOptions

/-! ### Reading the settings -/

/-- **Settings in which the options replace two**: the voicing and the octave are as
the options say, if they do, and all else is left. -/
structure SoundOptions.Merges (o : SoundOptions) (base settings : Settings Q) : Prop where
  voicing : settings.voicing = match o.voicing with
    | some voicing => voicing
    | none => base.voicing
  octave : settings.octave = match o.octave with
    | some n => .number (.whole n)
    | none => base.octave
  velocity : settings.velocity = base.velocity
  bassVelocity : settings.bassVelocity = base.bassVelocity
  beatDuration : settings.beatDuration = base.beatDuration
  program : settings.program = base.program
  channel : settings.channel = base.channel
  numerator : settings.numerator = base.numerator
  denominator : settings.denominator = base.denominator

/-- **The settings of a sound**: those of the settings file, or else the standard
ones, and over them what the options say. -/
def SoundOptions.Settles (o : SoundOptions) (readYaml : YamlReader Q)
    (config : Option (List UInt8)) (settings : Settings Q) : Prop :=
  ∃ base, o.Merges base settings ∧ match o.config, config with
    | none, _ => base = Settings.standard
    | some path, some bytes =>
      ∃ plain, Path.Plain path plain ∧ Settings.ofFileWith readYaml plain bytes = .ok base
    | some _, none => False

omit [Quantity Q] in
theorem SoundOptions.merges_iff {o : SoundOptions} {base settings : Settings Q} :
    o.Merges base settings ↔ o.override base = settings := by
  constructor
  · intro h
    obtain ⟨voicing, octave, velocity, bassVelocity, beatDuration, program, channel, numerator,
      denominator⟩ := h
    obtain ⟨velocity', bassVelocity', octave', beatDuration', program', channel', voicing', numerator',
      denominator'⟩ := settings
    subst voicing octave velocity bassVelocity beatDuration program channel numerator denominator
    unfold override
    cases o.voicing <;> cases o.octave <;> rfl
  · rintro rfl
    unfold override
    constructor <;> first | rfl | (cases o.voicing <;> rfl) | (cases o.octave <;> rfl)

theorem result_readSettings_eq_ok_iff {readYaml : YamlReader Q} {path : String}
    {bytes : List UInt8} {settings : Settings Q} :
    (readSettings readYaml path bytes).result = .ok settings
      ↔ Settings.ofFileWith readYaml path bytes = .ok settings := by
  unfold readSettings
  simp only [Work.result_bind_eq_ok_iff, Work.result_ofExcept_eq_ok_iff, Work.result_noting_bind]
  constructor
  · rintro ⟨fields, hfields, hsettings⟩
    rw [Settings.ofFileWith, hfields, ok_bind, hsettings]
    rfl
  · intro h
    obtain ⟨fields, hfields, h⟩ := exists_of_bind_eq_ok h
    exact ⟨fields, hfields, eq_ok_of_mapError h⟩

theorem SoundOptions.result_readSettings_eq_ok_iff {o : SoundOptions} {readYaml : YamlReader Q}
    {config : Option (List UInt8)} (hconfig : config.isSome = o.config.isSome)
    {settings : Settings Q} : (o.readSettings readYaml config).result = .ok settings
      ↔ o.Settles readYaml config settings := by
  unfold SoundOptions.readSettings Settles
  simp only [merges_iff, ← Path.plainPath_eq_iff, exists_eq_left']
  cases hpath : o.config with
  | none => simp [Work.result_pure_eq_ok_iff]
  | some path =>
    cases config with
    | none => simp [hpath] at hconfig
    | some bytes =>
      simp only [Work.result_map_eq_ok_iff, LeadSheet.result_readSettings_eq_ok_iff]
      exact exists_congr fun base => And.comm

/-! ### Making -/

/-- **Where a sound goes**: where the options say, or else next to the score. -/
def ScoreOptions.SoundGoesTo (o : ScoreOptions) (path : String) : Prop :=
  match o.output with
  | some output => path = output
  | none =>
    if o.input = "-" ∨ o.input = "<stdin>" then path = "output.mid"
    else Path.Renamed o.input ".mid" path

/-- **What a command makes of its files**, given its tools. -/
inductive Command.Makes (tools : Toolkit Q) : Command → Sources → Product → Prop
  | degrees {o : ScoreOptions} {sources : Sources} {s s' : Score Q} {path : Option String}
      (hread : o.Reads sources.score s) (hconvert : s.toDegrees = .ok s')
      (hpath : Option.Rel Path.Plain o.output path) :
      Makes tools (.degrees o) sources (.text path (s'.text ++ "\n"))
  | pitches {o : ScoreOptions} {sources : Sources} {s s' : Score Q} {path : Option String}
      (hread : o.Reads sources.score s) (hconvert : s.toPitches = .ok s')
      (hpath : Option.Rel Path.Plain o.output path) :
      Makes tools (.pitches o) sources (.text path (s'.text ++ "\n"))
  | sound {o : ScoreOptions} {options : SoundOptions} {sources : Sources} {settings : Settings Q}
      {s : Score Q} {path : String} {bytes : List UInt8}
      (hsettings : options.Settles tools.readYaml sources.config settings)
      (hread : o.Reads sources.score s) (hpath : o.SoundGoesTo path)
      (hencode : s.encodeWith tools.writeSound settings (.whole options.tempo) = .ok bytes) :
      Makes tools (.sound o options) sources (.sound path bytes)

theorem ScoreOptions.soundPath_eq_iff {o : ScoreOptions} {path : String} :
    o.soundPath = path ↔ o.SoundGoesTo path := by
  unfold soundPath SoundGoesTo
  cases o.output with
  | some output => exact eq_comm
  | none =>
    simp only [inputNames, List.mem_cons, List.not_mem_nil, or_false,
      ← Path.withSuffix_eq_iff (by decide : ".mid" ≠ "")]
    split
    · exact eq_comm
    · exact Iff.rfl

theorem map_plainPath_eq_iff {output path : Option String} :
    output.map plainPath = path ↔ Option.Rel Path.Plain output path := by
  constructor
  · rintro rfl
    cases output with
    | none => exact .none
    | some output => exact .some (Path.plainPath_eq_iff.mp rfl)
  · intro h
    cases h with
    | none => rfl
    | some h => exact congrArg some (Path.plainPath_eq_iff.mpr h)

theorem result_writeScore_eq_ok_iff {style : String} {convert : Score Q → Except KeyFault (Score Q)}
    {o : ScoreOptions} {s : Score Q} {p : Product} :
    (writeScore style convert o s).result = .ok p
      ↔ ∃ s', convert s = .ok s' ∧ .text (o.output.map plainPath) (s'.text ++ "\n") = p := by
  unfold writeScore
  simp only [Work.result_bind_eq_ok_iff, Work.result_ofExcept_eq_ok_iff, Work.result_noting_bind,
    Work.result_pure_eq_ok_iff]

/-- The tempo is looked at ahead of the encoder, which looks at it first too. -/
theorem result_playScore_eq_ok_iff {write : SoundWriter Q} {o : ScoreOptions} {tempo : Int}
    {settings : Settings Q} {s : Score Q} {p : Product} :
    (playScore write o tempo settings s).result = .ok p
      ↔ ∃ bytes, s.encodeWith write settings (.whole tempo) = .ok bytes
        ∧ .sound o.soundPath bytes = p := by
  unfold playScore
  simp only [Work.result_bind_eq_ok_iff, Work.result_ofExcept_eq_ok_iff, Work.result_noting_bind,
    Work.result_pure_eq_ok_iff]
  constructor
  · rintro ⟨_, _, hencode⟩
    exact hencode
  · rintro ⟨bytes, hencode, hp⟩
    obtain ⟨microseconds, htempo, -⟩ := exists_of_bind_eq_ok hencode
    exact ⟨microseconds, htempo, bytes, hencode, hp⟩

/-- **The work of a command succeeds just when it makes something** of the files that
it names. -/
theorem Command.result_work_eq_ok_iff {tools : Toolkit Q} {c : Command} {sources : Sources}
    (hconfig : sources.config.isSome = c.config.isSome) {p : Product} :
    (c.work tools sources).result = .ok p ↔ c.Makes tools sources p := by
  unfold work
  cases c with
  | degrees o =>
    simp only [Work.result_bind_eq_ok_iff, ScoreOptions.result_readScore_eq_ok_iff,
      result_writeScore_eq_ok_iff]
    constructor
    · rintro ⟨s, hread, s', hconvert, rfl⟩
      exact .degrees hread hconvert (map_plainPath_eq_iff.mp rfl)
    · rintro ⟨hread, hconvert, hpath⟩
      obtain rfl := map_plainPath_eq_iff.mpr hpath
      exact ⟨_, hread, _, hconvert, rfl⟩
  | pitches o =>
    simp only [Work.result_bind_eq_ok_iff, ScoreOptions.result_readScore_eq_ok_iff,
      result_writeScore_eq_ok_iff]
    constructor
    · rintro ⟨s, hread, s', hconvert, rfl⟩
      exact .pitches hread hconvert (map_plainPath_eq_iff.mp rfl)
    · rintro (_ | ⟨hread, hconvert, hpath⟩)
      obtain rfl := map_plainPath_eq_iff.mpr hpath
      exact ⟨_, hread, _, hconvert, rfl⟩
  | sound o options =>
    simp only [Work.result_bind_eq_ok_iff, SoundOptions.result_readSettings_eq_ok_iff hconfig,
      ScoreOptions.result_readScore_eq_ok_iff, result_playScore_eq_ok_iff]
    constructor
    · rintro ⟨settings, hsettings, s, hread, bytes, hencode, rfl⟩
      exact .sound hsettings hread (ScoreOptions.soundPath_eq_iff.mp rfl) hencode
    · rintro (_ | _ | ⟨hsettings, hread, hpath, hencode⟩)
      obtain rfl := ScoreOptions.soundPath_eq_iff.mpr hpath
      exact ⟨_, hsettings, _, hread, _, hencode, rfl⟩

end LeadSheet
