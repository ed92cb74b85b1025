import LeadSheet.Pitch.Reader

/-!
# Roots

A chord stands on a root, which is a pitch or a degree.  A degree needs a key
to become a pitch and a pitch needs one to become a degree; each already is
what it is without a key.

`resolve_toPitch` and `resolve_toDegree` say that neither conversion changes
the tone a root stands for.
-/

namespace LeadSheet

/-- A root written as a pitch or as a degree of the key. -/
inductive Root where
  | pitch (p : PitchClass)
  | degree (d : Degree)
deriving DecidableEq

namespace Root

def isDegree : Root → Bool
  | pitch _ => false
  | degree _ => true

def resolve (key : Option Key) : Root → Except KeyFault PitchClass
  | pitch p => .ok p
  | degree d =>
    match key with
    | some k => .ok (d.pitch k)
    | none => .error (.degreeNeedsKey d)

/-- A root as a degree of the key. -/
def toDegree (key : Option Key) : Root → Except KeyFault Root
  | degree d => .ok (degree d)
  | pitch p =>
    match key with
    | some k => .ok (degree (Degree.ofPitch p k))
    | none => .error (.pitchNeedsKey p)

/-- A root as a pitch, spelled as the key has it. -/
def toPitch (key : Option Key) : Root → Except KeyFault Root
  | pitch p => .ok (pitch p)
  | degree d =>
    match key with
    | some k => .ok (pitch (d.pitch k))
    | none => .error (.degreeHasNoPitch d)

/-- **A root as a pitch is the same tone.** -/
theorem resolve_toPitch {key : Option Key} {r s : Root} (h : r.toPitch key = .ok s) :
    s.resolve key = r.resolve key := by
  cases r with
  | pitch p => simp only [toPitch, Except.ok.injEq] at h; subst h; rfl
  | degree d =>
    cases key with
    | none => simp [toPitch] at h
    | some k => simp only [toPitch, Except.ok.injEq] at h; subst h; rfl

end Root

theorem Degree.pitch_value (d : Degree) (k : Key) :
    (d.pitch k).value
      = PitchClass.wrap (k.tonic.value.val + k.mode.step d.number + d.accidental.offset) := by
  unfold Degree.pitch
  cases d.accidental <;> rfl

/-- **A pitch class is the pitch of its degree.** -/
theorem Degree.pitch_ofPitch (p : PitchClass) (k : Key) :
    ((Degree.ofPitch p k).pitch k).value = p.value := by
  have h : Degree.ofInterval? k.mode (k.tonic.interval p) = some (Degree.ofPitch p k) := by
    simp [Degree.ofPitch]
  have hs := Degree.step_of_ofInterval? h
  rw [Degree.pitch_value]
  apply Fin.ext
  have := congrArg Fin.val hs
  simp only [PitchClass.wrap, PitchClass.interval] at this ⊢
  omega

/-- **A root as a degree is the same tone**, spelling apart. -/
theorem Root.resolve_toDegree {key : Option Key} {r s : Root} (h : r.toDegree key = .ok s) :
    (s.resolve key).map PitchClass.value = (r.resolve key).map PitchClass.value := by
  cases r with
  | degree d => simp only [toDegree, Except.ok.injEq] at h; subst h; rfl
  | pitch p =>
    cases key with
    | none => simp [toDegree] at h
    | some k =>
      simp only [toDegree, Except.ok.injEq] at h
      subst h
      simp [resolve, Except.map, Degree.pitch_ofPitch]

end LeadSheet
