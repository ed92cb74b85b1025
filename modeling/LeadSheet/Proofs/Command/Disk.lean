import LeadSheet.Command.Disk
import LeadSheet.Proofs.Reading.Place

/-!
# Writing a file

A path leads to a place (`Disk.placeOf`), and only directories are looked at on
the way there.  A file is never written in the place of a directory, so every
path leads to the same place as before (`placeOf_congr`): a file that was
written can be read where it was written, and every other file is left as it
was (`isWritten_of_write`).
-/

namespace LeadSheet.Disk

variable {d d' : Disk} {path : String} {bytes : List UInt8} {p : Place}

def placeOf (d : Disk) (path : String) : Except HostFault Place := do
  let (here, part) ← d.locate path
  step here part

def SameDirectories (d d' : Disk) : Prop :=
  ∀ q, d.find? q = some .directory ↔ d'.find? q = some .directory

theorem SameDirectories.symm (h : SameDirectories d d') : SameDirectories d' d :=
  fun q => (h q).symm

theorem walk_congr (h : SameDirectories d d') {here there : Place} {parts : List (List Char)}
    (hwalk : d.walk here parts = .ok there) : d'.walk here parts = .ok there := by
  induction parts generalizing here with
  | nil => exact hwalk
  | cons part parts ih =>
    rw [walk] at hwalk ⊢
    obtain ⟨next, hstep, hwalk⟩ := exists_of_bind_eq_ok hwalk
    rw [hstep, ok_bind]
    split at hwalk
    · rename_i hnext
      rw [(h next).mp hnext]
      exact ih hwalk
    · cases hwalk
    · cases hwalk

theorem placeOf_congr (h : SameDirectories d d') (hplace : d.placeOf path = .ok p) :
    d'.placeOf path = .ok p := by
  unfold placeOf at hplace ⊢
  obtain ⟨⟨here, part⟩, hlocate, hstep⟩ := exists_of_bind_eq_ok hplace
  suffices hsame : d'.locate path = .ok (here, part) by
    rw [hsame]
    exact hstep
  unfold locate at hlocate ⊢
  split at hlocate
  · cases hlocate
  · rename_i hlength
    rw [if_neg hlength]
    dsimp only at hlocate ⊢
    split at hlocate
    · obtain ⟨here', hwalk, heq⟩ := exists_of_map_eq_ok hlocate
      rw [walk_congr h hwalk]
      exact congrArg Except.ok heq
    · cases hlocate
    · exact hlocate

theorem exists_locate_of_placeOf (h : d.placeOf path = .ok p) :
    ∃ here part, d.locate path = .ok (here, part) ∧ step here part = .ok p := by
  obtain ⟨⟨here, part⟩, hlocate, hstep⟩ := exists_of_bind_eq_ok h
  exact ⟨here, part, hlocate, hstep⟩

theorem read_eq_ok_iff_placeOf : d.read path = .ok bytes ↔ ∃ p, d.placeOf path = .ok p
    ∧ (steps path.toList).2 = false ∧ d.find? p = some (.file bytes) := by
  unfold read
  constructor
  · intro h
    obtain ⟨⟨here, part⟩, hlocate, h⟩ := exists_of_bind_eq_ok h
    obtain ⟨p, hstep, h⟩ := exists_of_bind_eq_ok h
    refine ⟨p, by rw [placeOf, hlocate]; exact hstep, ?_⟩
    split at h
    · rename_i content hfind
      split at h
      · cases h
      · rename_i hslash
        cases h
        exact ⟨by simpa using hslash, hfind⟩
    · cases h
    · cases h
  · rintro ⟨p, hplace, hslash, hfind⟩
    obtain ⟨here, part, hlocate, hstep⟩ := exists_locate_of_placeOf hplace
    simp only [hlocate, hstep, ok_bind, hfind, hslash]
    rfl

theorem write_eq_ok_iff_placeOf : d.write path bytes = .ok d' ↔ ∃ p, d.placeOf path = .ok p
    ∧ (steps path.toList).2 = false ∧ d.find? p ≠ some .directory ∧ d' = d.put p bytes := by
  unfold write
  constructor
  · intro h
    obtain ⟨⟨here, part⟩, hlocate, h⟩ := exists_of_bind_eq_ok h
    dsimp only at h
    split at h
    · cases h
    · rename_i hslash
      obtain ⟨p, hstep, h⟩ := exists_of_bind_eq_ok h
      refine ⟨p, by rw [placeOf, hlocate]; exact hstep, by simpa using hslash, ?_⟩
      split at h
      · cases h
      · rename_i hfind
        exact ⟨hfind, (Except.ok.inj h).symm⟩
  · rintro ⟨p, hplace, hslash, hfind, rfl⟩
    obtain ⟨here, part, hlocate, hstep⟩ := exists_locate_of_placeOf hplace
    simp only [hlocate, hstep, ok_bind, hslash]
    rfl

theorem find?_put (hp : d.find? p ≠ some .directory) :
    (d.put p bytes).find? p = some (.file bytes) := by
  refine find?_put_self ?_
  by_contra hall
  rw [Bool.not_eq_false] at hall
  exact hp (by rw [find?, if_pos hall])

theorem sameDirectories_put (hp : d.find? p ≠ some .directory) :
    SameDirectories d (d.put p bytes) := by
  intro q
  by_cases hq : q = p
  · subst hq
    rw [find?_put hp]
    exact iff_of_false hp nofun
  · rw [find?_put_of_ne hq]

/-- **What writing a file does**: the file can be read at its path, and what
stands at any other place is left as it was, so files elsewhere are read like
before. -/
structure IsWritten (d : Disk) (path : String) (bytes : List UInt8) (d' : Disk) : Prop where
  read : d'.read path = .ok bytes
  others : ∃ p, d.placeOf path = .ok p ∧ (∀ q, q ≠ p → d'.find? q = d.find? q)
    ∧ ∀ path', d.placeOf path' ≠ .ok p → ∀ content,
      d'.read path' = .ok content ↔ d.read path' = .ok content

theorem isWritten_of_write (h : d.write path bytes = .ok d') : IsWritten d path bytes d' := by
  obtain ⟨p, hplace, hslash, hp, rfl⟩ := write_eq_ok_iff_placeOf.mp h
  have hsame : SameDirectories d (d.put p bytes) := sameDirectories_put hp
  refine ⟨read_eq_ok_iff_placeOf.mpr ⟨p, placeOf_congr hsame hplace, hslash, find?_put hp⟩,
    p, hplace, fun q => find?_put_of_ne, fun path' hne content => ?_⟩
  rw [read_eq_ok_iff_placeOf, read_eq_ok_iff_placeOf]
  constructor
  · rintro ⟨q, hq, hrest⟩
    have hq := placeOf_congr hsame.symm hq
    have hqp : q ≠ p := fun heq => hne (heq ▸ hq)
    rw [find?_put_of_ne hqp] at hrest
    exact ⟨q, hq, hrest⟩
  · rintro ⟨q, hq, hrest⟩
    have hqp : q ≠ p := fun heq => hne (heq ▸ hq)
    rw [← find?_put_of_ne hqp] at hrest
    exact ⟨q, placeOf_congr hsame hq, hrest⟩

end LeadSheet.Disk
