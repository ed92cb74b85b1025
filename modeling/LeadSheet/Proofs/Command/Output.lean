import LeadSheet.Command.Run
import LeadSheet.Proofs.Command.Disk
import LeadSheet.Proofs.Command.Making

/-!
# What a command writes

A command opens its files, makes something of them and delivers that; only then
is anything written.  So a command that makes nothing, for whatever reason,
leaves the disk as it was and ends with a status other than zero, and one that
makes something leaves exactly that in its file (`Command.Ends`).

`Disk.run_ends`: this is so of every run, whatever tells what the arguments ask
for, reads YAML and writes sound.
-/

namespace LeadSheet

/-! ### Files of a command -/

def Ending.status : Ending → Nat
  | exit status => status
  | crash _ => 1

theorem Outcome.status_failed (verbose : Bool) (notes : List Note) (failure : Failure) :
    (failed verbose notes failure).ending.status ≠ 0 := by
  unfold failed
  cases failure.message? with
  | some message => exact Nat.one_ne_zero
  | none => exact Nat.one_ne_zero

theorem Outcome.status_unread (path : String) (fault : HostFault) :
    (unread path fault).ending.status ≠ 0 := by
  cases fault with
  | notPath => exact status_failed false [] (.sourceFile path .notPath)
  | _ => exact Nat.succ_ne_zero 1

theorem isPath_iff {path : String} : isPath path = true ↔ Char.ofNat 0 ∉ path.toList := by
  simp [isPath]

/-- The file that a path names can be read, and holds some bytes. -/
def Disk.Opens (d : Disk) (path : String) (bytes : List UInt8) : Prop :=
  Char.ofNat 0 ∉ path.toList ∧ d.read path = .ok bytes

/-- The input of a command holds some bytes: it is that of the program if a dash
stands for it. -/
def ScoreOptions.Opens (o : ScoreOptions) (input : List UInt8) (d : Disk) (score : List UInt8) :
    Prop :=
  if o.input = "-" then score = input else d.Opens o.input score

/-- **What the files of a command hold**: its input, and its settings file if it has
one. -/
def Command.Opens (c : Command) (input : List UInt8) (d : Disk) (sources : Sources) : Prop :=
  match c with
  | degrees o => o.Opens input d sources.score ∧ sources.config = none
  | pitches o => o.Opens input d sources.score ∧ sources.config = none
  | sound o options =>
    o.Opens input d sources.score ∧ Option.Rel d.Opens options.config sources.config

theorem Command.opens_iff {c : Command} {input : List UInt8} {d : Disk} {sources : Sources} :
    c.Opens input d sources
      ↔ c.options.Opens input d sources.score ∧ Option.Rel d.Opens c.config sources.config := by
  have hnone : sources.config = none ↔ Option.Rel d.Opens none sources.config := by
    cases sources.config with
    | none => exact ⟨fun _ => .none, fun _ => rfl⟩
    | some bytes => exact ⟨nofun, nofun⟩
  cases c with
  | degrees o => exact and_congr_right fun _ => hnone
  | pitches o => exact and_congr_right fun _ => hnone
  | sound o options => exact Iff.rfl

theorem Command.Opens.unique {c : Command} {input : List UInt8} {d : Disk}
    {sources sources' : Sources} (h : c.Opens input d sources) (h' : c.Opens input d sources') :
    sources = sources' := by
  obtain ⟨score, config⟩ := sources
  obtain ⟨score', config'⟩ := sources'
  obtain ⟨hs, hc⟩ := opens_iff.mp h
  obtain ⟨hs', hc'⟩ := opens_iff.mp h'
  have hscore : score = score' := by
    unfold ScoreOptions.Opens at hs hs'
    split at hs
    · rename_i hdash
      rw [if_pos hdash] at hs'
      exact hs.trans hs'.symm
    · rename_i hdash
      rw [if_neg hdash] at hs'
      exact Except.ok.inj (hs.2.symm.trans hs'.2)
  have hconfig : config = config' := by
    dsimp only at hc hc'
    generalize c.config = path at hc hc'
    cases hc with
    | none => cases hc'; rfl
    | some hc =>
      cases hc' with
      | some hc' => exact congrArg some (Except.ok.inj (hc.2.symm.trans hc'.2))
  rw [hscore, hconfig]

theorem Command.Opens.isSome_config {c : Command} {input : List UInt8} {d : Disk}
    {sources : Sources} (h : c.Opens input d sources) :
    sources.config.isSome = c.config.isSome := by
  have hconfig := (opens_iff.mp h).2
  generalize c.config = path, sources.config = config at hconfig ⊢
  cases hconfig <;> rfl

namespace Disk

variable {d : Disk} {input : List UInt8}

theorem run_readFile (input : List UInt8) (d : Disk) (path : String) :
    ∃ r, StateT.run ((host input).readFile path) d = (r, d)
      ∧ ∀ bytes, r = .ok bytes ↔ d.Opens path bytes := by
  unfold Host.readFile Opens
  rw [← isPath_iff]
  by_cases hpath : isPath path = true
  · rw [if_pos hpath]
    exact ⟨d.read path, rfl, by simp [hpath]⟩
  · rw [if_neg hpath]
    exact ⟨.error .notPath, rfl, by simp [hpath]⟩

theorem run_readInput (input : List UInt8) (d : Disk) (path : String) :
    ∃ r, StateT.run ((host input).readInput path) d = (r, d)
      ∧ ∀ bytes, r = .ok bytes ↔ if path = "-" then bytes = input else d.Opens path bytes := by
  unfold Host.readInput
  by_cases hdash : path = "-"
  · simp only [if_pos hdash]
    exact ⟨.ok input, rfl, fun bytes => ⟨fun h => (Except.ok.inj h).symm, fun h => h ▸ rfl⟩⟩
  · simp only [if_neg hdash]
    exact run_readFile input d path

theorem run_withFile (input : List UInt8) (d : Disk) (path : String) :
    (∃ bytes, d.Opens path bytes ∧ ∀ go,
      StateT.run ((host input).withFile path go) d = StateT.run (go bytes) d)
    ∨ (∀ bytes, ¬d.Opens path bytes) ∧ ∃ outcome : Outcome, outcome.ending.status ≠ 0
      ∧ ∀ go, StateT.run ((host input).withFile path go) d = (outcome, d) := by
  obtain ⟨r, hrun, hr⟩ := run_readFile input d path
  cases r with
  | ok bytes =>
    refine .inl ⟨bytes, (hr bytes).mp rfl, fun go => ?_⟩
    rw [Host.withFile, StateT.run_bind, hrun]
    rfl
  | error fault =>
    refine .inr ⟨fun bytes h => (nomatch (hr bytes).mpr h), _, Outcome.status_unread path fault,
      fun go => ?_⟩
    rw [Host.withFile, StateT.run_bind, hrun]
    rfl

theorem run_tryFiles (input : List UInt8) (d : Disk) (paths : List String) :
    ∃ outcome : Outcome, outcome.ending.status ≠ 0
      ∧ StateT.run ((host input).tryFiles paths) d = (outcome, d) := by
  induction paths with
  | nil => exact ⟨.misused, Nat.succ_ne_zero 1, rfl⟩
  | cons path paths ih =>
    rcases run_withFile input d path with ⟨bytes, -, hrun⟩ | ⟨-, outcome, hstatus, hrun⟩
    · rw [Host.tryFiles, hrun]
      exact ih
    · exact ⟨outcome, hstatus, hrun _⟩

/-- **A command goes on with what its files hold**, or else ends in a failure
with the disk as it was. -/
theorem run_withSources (input : List UInt8) (d : Disk) (c : Command) :
    (∃ sources, c.Opens input d sources ∧ ∀ go,
      StateT.run ((host input).withSources c go) d = StateT.run (go sources) d)
    ∨ (∀ sources, ¬c.Opens input d sources) ∧ ∃ outcome : Outcome, outcome.ending.status ≠ 0
      ∧ ∀ go, StateT.run ((host input).withSources c go) d = (outcome, d) := by
  simp only [Command.opens_iff]
  obtain ⟨r, hrun, hr⟩ := run_readInput input d c.options.input
  unfold Host.withSources
  -- the settings are opened ahead of the score
  cases hconfig : c.config with
  | none =>
    cases r with
    | ok score =>
      refine .inl ⟨⟨score, none⟩, ⟨(hr score).mp rfl, .none⟩, fun go => ?_⟩
      dsimp only
      rw [StateT.run_bind, hrun]
      rfl
    | error fault =>
      refine .inr ⟨fun sources h => ?_, _, Outcome.status_unread c.options.input fault, fun go => ?_⟩
      · cases (hr _).mpr h.1
      · dsimp only
        rw [StateT.run_bind, hrun]
        rfl
  | some path =>
    rcases run_withFile input d path with ⟨bytes, hopens, hfile⟩ | ⟨hnone, outcome, hstatus, hfile⟩
    · cases r with
      | ok score =>
        refine .inl ⟨⟨score, some bytes⟩, ⟨(hr score).mp rfl, .some hopens⟩,
          fun go => (hfile _).trans ?_⟩
        rw [StateT.run_bind, hrun]
        rfl
      | error fault =>
        refine .inr ⟨fun sources h => ?_, _, Outcome.status_unread c.options.input fault,
          fun go => (hfile _).trans ?_⟩
        · cases (hr _).mpr h.1
        · rw [StateT.run_bind, hrun]
          rfl
    · refine .inr ⟨fun sources h => ?_, outcome, hstatus, fun go => hfile _⟩
      obtain ⟨score, config⟩ := sources
      cases h.2 with
      | some hopens => exact hnone _ hopens

end Disk

/-! ### Runs -/

/-- The file that a product goes to, with what it is to hold. -/
def Product.file : Product → Option (String × List UInt8)
  | .text path s => path.map fun path => (path, Text.utf8 s)
  | .sound path bytes => some (path, bytes)

def Product.shown : Product → String
  | .text none s => s
  | _ => ""

/-- **How a command ends**, given its tools, what its files held and the disk as it
was. -/
structure Command.Ends (tools : Toolkit Float) (c : Command) (input : List UInt8) (d : Disk)
    (outcome : Outcome) (d' : Disk) : Prop where
  /-- A command that makes nothing fails and leaves the disk as it was. -/
  failed : (∀ sources p, c.Opens input d sources → ¬c.Makes tools sources p) →
    outcome.ending.status ≠ 0 ∧ d' = d
  /-- What goes to no file is shown. -/
  shown : ∀ sources p, c.Opens input d sources → c.Makes tools sources p → p.file = none →
    outcome.ending.status = 0 ∧ outcome.shown = p.shown ∧ d' = d
  /-- What goes to a file that can be written is all that is written. -/
  written : ∀ sources p path bytes, c.Opens input d sources → c.Makes tools sources p →
    p.file = some (path, bytes) → Char.ofNat 0 ∉ path.toList → (∃ d₂, d.write path bytes = .ok d₂) →
    outcome.ending.status = 0 ∧ d.IsWritten path bytes d'

namespace Disk

variable {d : Disk} {input : List UInt8} {tools : Toolkit Float}

theorem run_writeFile (input : List UInt8) {path : String} {bytes : List UInt8} {d₂ : Disk}
    (hpath : isPath path = true) (hwrite : d.write path bytes = .ok d₂) :
    StateT.run ((host input).writeFile path bytes) d = (.ok (), d₂) := by
  rw [Host.writeFile, if_pos hpath]
  show _ = pure (Except.ok (), d₂)
  simp [host, hwrite]

theorem run_deliver_shown (verbose : Bool) (notes : List Note) {p : Product}
    (hfile : p.file = none) :
    StateT.run ((host input).deliver verbose notes p) d = (.done verbose notes p.shown, d) := by
  match p, hfile with
  | .text none s, _ => rfl

theorem run_deliver_written (input : List UInt8) (verbose : Bool) (notes : List Note)
    {p : Product} {path : String} {bytes : List UInt8} {d₂ : Disk}
    (hfile : p.file = some (path, bytes)) (hpath : isPath path = true)
    (hwrite : d.write path bytes = .ok d₂) : ∃ notes',
      StateT.run ((host input).deliver verbose notes p) d = (.done verbose notes' "", d₂) := by
  have hrun := run_writeFile input hpath hwrite
  match p, hfile with
  | .text (some path) s, hfile =>
    obtain ⟨rfl, rfl⟩ := Prod.mk.inj (Option.some.inj hfile)
    refine ⟨notes, ?_⟩
    rw [Host.deliver, StateT.run_bind, Text.encode_eq_utf8, hrun]
    rfl
  | .sound path bytes, hfile =>
    obtain ⟨rfl, rfl⟩ := Prod.mk.inj (Option.some.inj hfile)
    refine ⟨notes ++ [.said ("Wrote '" ++ path ++ "'.")], ?_⟩
    rw [Host.deliver, StateT.run_bind, hrun]
    rfl

theorem ends_carryOut (verbose : Bool) (c : Command) {outcome : Outcome} {d' : Disk}
    (h : StateT.run ((host input).carryOut tools verbose c) d = (outcome, d')) :
    c.Ends tools input d outcome d' := by
  unfold Host.carryOut at h
  rcases run_withSources input d c with ⟨sources, hopens, hrun⟩ | ⟨hnone, outcome', hstatus, hrun⟩
  · rw [hrun] at h
    have hmakes : ∀ {sources' p}, c.Opens input d sources' → c.Makes tools sources' p →
        (c.work tools sources).result = .ok p := by
      intro sources' p hopens' hp
      rw [hopens.unique hopens']
      exact (Command.result_work_eq_ok_iff hopens'.isSome_config).mpr hp
    dsimp only at h
    cases hresult : (c.work tools sources).result with
    | error failure =>
      rw [hresult] at h
      obtain ⟨rfl, rfl⟩ := Prod.mk.inj h
      refine ⟨fun _ => ⟨Outcome.status_failed _ _ failure, rfl⟩, fun _ p hopens' hp => ?_,
        fun _ p _ _ hopens' hp => ?_⟩
      · cases hresult.symm.trans (hmakes hopens' hp)
      · cases hresult.symm.trans (hmakes hopens' hp)
    | ok p =>
      rw [hresult] at h
      refine ⟨fun hnone => absurd
          ((Command.result_work_eq_ok_iff hopens.isSome_config).mp hresult) (hnone _ _ hopens),
        fun _ p' hopens' hp hfile => ?_,
        fun _ p' path bytes hopens' hp hfile hpath ⟨d₂, hwrite⟩ => ?_⟩
      · obtain rfl := Except.ok.inj (hresult.symm.trans (hmakes hopens' hp))
        obtain ⟨rfl, rfl⟩ := Prod.mk.inj ((run_deliver_shown verbose _ hfile).symm.trans h)
        exact ⟨rfl, rfl, rfl⟩
      · obtain rfl := Except.ok.inj (hresult.symm.trans (hmakes hopens' hp))
        obtain ⟨notes, hdeliver⟩ := run_deliver_written input verbose (c.work tools sources).notes
          hfile (isPath_iff.mpr hpath) hwrite
        obtain ⟨rfl, rfl⟩ := Prod.mk.inj (hdeliver.symm.trans h)
        exact ⟨rfl, isWritten_of_write hwrite⟩
  · rw [hrun] at h
    obtain ⟨rfl, rfl⟩ := Prod.mk.inj h
    exact ⟨fun _ => ⟨hstatus, rfl⟩, fun sources p hopens => absurd hopens (hnone sources),
      fun sources p path bytes hopens => absurd hopens (hnone sources)⟩

/-- **A run that fails touches no file**, and a command that does not fail
writes what it makes of its files, in the place it is to go to and nowhere else. -/
theorem run_ends {args : List String} {outcome : Outcome} {d' : Disk}
    (h : StateT.run ((host input).runWith tools args) d = (outcome, d')) :
    match tools.readArguments args with
    | .usage _ => outcome.ending.status ≠ 0 ∧ d' = d
    | .help => outcome.ending.status = 0 ∧ d' = d
    | .version => outcome.ending.status = 0 ∧ d' = d
    | .command _ c => c.Ends tools input d outcome d' := by
  unfold Host.runWith at h
  generalize tools.readArguments args = request at h
  cases request with
  | usage opened =>
    obtain ⟨outcome', hstatus, hrun⟩ := run_tryFiles input d opened
    obtain ⟨rfl, rfl⟩ := Prod.mk.inj (hrun.symm.trans h)
    exact ⟨hstatus, rfl⟩
  | help =>
    obtain ⟨rfl, rfl⟩ := Prod.mk.inj h
    exact ⟨rfl, rfl⟩
  | version =>
    obtain ⟨rfl, rfl⟩ := Prod.mk.inj h
    exact ⟨rfl, rfl⟩
  | command verbose c => exact ends_carryOut verbose c h

/-- Two chords of the input, `@C C | Am7`, for a new file. -/
theorem run_ends_degrees : ∃ (outcome : Outcome) (d' : Disk) (s' : Score Float),
    StateT.run ((host [64, 67, 32, 67, 32, 124, 32, 65, 109, 55]).run
        ["degree", "-", "-o", "out.txt"]) {} = (outcome, d')
      ∧ outcome.ending.status = 0
      ∧ ({} : Disk).IsWritten "out.txt" (Text.utf8 (s'.text ++ "\n")) d' := by
  have hread : ((Score.read Table.standard none "@C C | Am7"
      : Except ReadFault (Score Float)).toOption.bind fun s => s.toDegrees.toOption).isSome
        = true := by
    decide +kernel
  obtain ⟨s', hs'⟩ := Option.isSome_iff_exists.mp hread
  obtain ⟨s, hs, hs'⟩ := Option.bind_eq_some_iff.mp hs'
  let o : ScoreOptions := { input := "-", output := some "out.txt" }
  have hscore : o.Reads [64, 67, 32, 67, 32, 124, 32, 65, 109, 55] s := by
    refine ⟨none, "@C C | Am7", "@C C | Am7".toList, ⟨[], ?_, by rw [if_pos rfl]⟩, by decide +kernel, ?_,
      fun h => ?_, fun _ => ?_⟩
    · exact Text.trim_eq_iff.mp rfl
    · exact Text.unifyLineEnds_eq_iff.mp (by decide)
    · exact absurd (ScoreOptions.isDatum_iff.mpr h) (by decide)
    · exact eq_ok_of_toOption hs
  have hmakes : (Command.degrees o).Makes (.standard : Toolkit Float)
      { score := [64, 67, 32, 67, 32, 124, 32, 65, 109, 55] } _ :=
    .degrees hscore (eq_ok_of_toOption hs') (.some (Path.plainPath_eq_iff.mp rfl))
  have hopens : (Command.degrees o).Opens [64, 67, 32, 67, 32, 124, 32, 65, 109, 55] {}
      { score := [64, 67, 32, 67, 32, 124, 32, 65, 109, 55] } :=
    ⟨rfl, rfl⟩
  have hends : (Command.degrees o).Ends .standard [64, 67, 32, 67, 32, 124, 32, 65, 109, 55] {} _ _ :=
    @run_ends _ _ .standard ["degree", "-", "-o", "out.txt"] _ _ rfl
  obtain ⟨hstatus, hwritten⟩ := hends.written _ _ "out.txt" _ hopens hmakes rfl (by decide) ⟨_, rfl⟩
  exact ⟨_, _, s', rfl, hstatus, hwritten⟩

end Disk

end LeadSheet
