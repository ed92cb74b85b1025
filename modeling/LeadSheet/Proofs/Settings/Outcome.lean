import LeadSheet.Number.Quantity
import LeadSheet.Proofs.Settings.Checked
import Mathlib.Algebra.Ring.Int.Defs
import Mathlib.Algebra.Ring.Nat

/-!
# Which settings are refused without a word

Settings are looked at in a fixed order (`Check.all`), and the first value that
does not pass decides what goes wrong.  A value can fail to pass in two ways:
it is no good for its setting, which is said in words, or it `Misfits`, as it
cannot be compared with the bounds of its setting at all, and nothing is said.

`Settles` is the judgement of one attempt: when it succeeds, and when it fails
without a word.  It is composed along a run (`Settles.bind`, `Settles.mapM`),
where the attempts before one have to pass before that one counts
(`FirstMisfits`).  So reading a mapping ends in valid settings or in words, if
and only if no misfit is the first thing that does not pass
(`Settings.valid_or_told_iff`).
-/

namespace LeadSheet

variable {Q : Type}

/-! ### Attempts -/

section Settles

variable {α β : Type}

/-- The first thing on a list that does not pass is a misfit. -/
def FirstMisfits (passes misfits : α → Prop) : List α → Prop
  | [] => False
  | a :: as => misfits a ∨ passes a ∧ FirstMisfits passes misfits as

/-- When an attempt succeeds, and when it fails without a word. -/
structure Settles (x : Except SettingsFault α) (passes misfits : Prop) : Prop where
  ok : (∃ a, x = .ok a) ↔ passes
  untold : (∃ f, x = .error f ∧ f.message? = none) ↔ misfits

def Told (x : Except SettingsFault α) : Prop :=
  ∃ f, x = .error f ∧ f.message? ≠ none

variable {x : Except SettingsFault α} {passes misfits passes' misfits' : Prop}

theorem settles_ok (a : α) (hpasses : passes) (hmisfits : ¬ misfits) :
    Settles (.ok a : Except SettingsFault α) passes misfits where
  ok := iff_of_true ⟨a, rfl⟩ hpasses
  untold := iff_of_false (fun ⟨_, h, _⟩ => nomatch h) hmisfits

theorem Told.settles (h : Told x) (hpasses : ¬ passes) (hmisfits : ¬ misfits) :
    Settles x passes misfits := by
  obtain ⟨f, rfl, hf⟩ := h
  refine ⟨iff_of_false (fun ⟨_, h⟩ => nomatch h) hpasses, iff_of_false ?_ hmisfits⟩
  rintro ⟨g, hg, hnone⟩
  obtain rfl := Except.error.inj hg
  exact hf hnone

theorem settles_untold {f : SettingsFault} (hf : f.message? = none) (hpasses : ¬ passes)
    (hmisfits : misfits) : Settles (.error f : Except SettingsFault α) passes misfits where
  ok := iff_of_false (fun ⟨_, h⟩ => nomatch h) hpasses
  untold := iff_of_true ⟨f, rfl, hf⟩ hmisfits

theorem Settles.bind {g : α → Except SettingsFault β} (hx : Settles x passes misfits)
    (hg : ∀ a, x = .ok a → Settles (g a) passes' misfits') :
    Settles (x >>= g) (passes ∧ passes') (misfits ∨ passes ∧ misfits') := by
  cases x with
  | error f =>
    have hfails : ¬ passes := fun h => nomatch hx.ok.mpr h
    refine ⟨iff_of_false (fun ⟨_, h⟩ => nomatch h) fun h => hfails h.1, ?_⟩
    rw [← hx.untold]
    constructor
    · rintro ⟨f', hf', hnone⟩
      exact .inl ⟨f, rfl, Except.error.inj hf' ▸ hnone⟩
    · rintro (⟨f', hf', hnone⟩ | ⟨h, -⟩)
      · exact ⟨f, rfl, Except.error.inj hf' ▸ hnone⟩
      · exact absurd h hfails
  | ok a =>
    have hpasses : passes := hx.ok.mp ⟨a, rfl⟩
    have hmisfits : ¬ misfits := fun h => by
      obtain ⟨f, hf, -⟩ := hx.untold.mpr h
      cases hf
    rw [ok_bind, and_iff_right hpasses, and_iff_right hpasses, or_iff_right hmisfits]
    exact hg a rfl

theorem Settles.mapM {f : α → Except SettingsFault β} {passes misfits : α → Prop}
    (h : ∀ a, Settles (f a) (passes a) (misfits a)) (as : List α) :
    Settles (as.mapM f) (∀ a ∈ as, passes a) (FirstMisfits passes misfits as) := by
  induction as with
  | nil => exact settles_ok [] (fun _ ha => nomatch ha) id
  | cons a as ih =>
    have htail (b : β) : Settles (as.mapM f >>= fun bs => .ok (b :: bs)) (∀ a ∈ as, passes a)
        (FirstMisfits passes misfits as) := by
      simpa only [and_true, and_false, or_false] using
        ih.bind fun bs _ => settles_ok (b :: bs) trivial not_false
    rw [List.mapM_cons, List.forall_mem_cons]
    exact (h a).bind fun b _ => htail b

theorem told_bind {g : α → Except SettingsFault β}
    (hx : ∀ f, x = .error f → f.message? ≠ none) (hg : ∀ a, Told (g a)) : Told (x >>= g) := by
  cases x with
  | error f => exact ⟨f, rfl, hx f rfl⟩
  | ok a => exact hg a

end Settles

/-! ### Names -/

theorem unknownKeys_eq_none_iff {keys : List (Value Q)} :
    unknownKeys keys = none ↔ ∀ k ∈ keys, k.setting?.isSome = true := by
  have hfilter : (keys.filter fun k => k.setting?.isNone) = []
      ↔ ∀ k ∈ keys, k.setting?.isSome = true := by
    simp only [List.filter_eq_nil_iff, Option.isNone_iff_eq_none, ← Option.isSome_iff_ne_none]
  rw [← hfilter]
  unfold unknownKeys
  split
  · rename_i hnil
    exact iff_of_true rfl hnil
  · rename_i hne
    refine iff_of_false ?_ hne
    split <;> exact Option.some_ne_none _

theorem exists_mapM_points {ks : List (Value Q)} (h : ∀ k ∈ ks, k.points?.isSome = true) :
    ∃ names, ks.mapM Value.points? = some names := by
  induction ks with
  | nil => exact ⟨[], rfl⟩
  | cons k ks ih =>
    obtain ⟨hk, hks⟩ := List.forall_mem_cons.mp h
    obtain ⟨name, hname⟩ := Option.isSome_iff_exists.mp hk
    obtain ⟨names, hnames⟩ := ih hks
    exact ⟨name :: names, by rw [List.mapM_cons, hname, hnames]; rfl⟩

theorem told_of_unknownKeys {keys : List (Value Q)} (hkeys : ∀ k ∈ keys, k.points?.isSome = true)
    {f : SettingsFault} (h : unknownKeys keys = some f) : f.message? ≠ none := by
  have hunknown : ∀ k ∈ keys.filter fun k => k.setting?.isNone, k.points?.isSome = true :=
    fun k hk => hkeys k (List.mem_of_mem_filter hk)
  obtain ⟨names, hnames⟩ := exists_mapM_points hunknown
  unfold unknownKeys at h
  split at h
  · cases h
  · rw [hnames] at h
    cases h
    exact Option.some_ne_none _

/-! ### What passes and what misfits -/

inductive Check where
  /-- The parts of the time signature, which are made whole. -/
  | parts
  | range (x : Setting) (highest : Nat)
  | beatDuration
  | voicing
  /-- The two numbers of the time signature. -/
  | signature

/-- The order in which settings are looked at. -/
def Check.all : List Check :=
  [.parts, .range .velocity 127, .range .bassVelocity 127, .range .program 127,
   .range .channel 14, .beatDuration, .voicing, .signature]

variable [Quantity Q]

namespace Value

/-- A value that no whole number can be made of: an infinite one, or one that is
neither a number nor a text. -/
def PartMisfits : Value Q → Prop
  | number (.fraction x) => Quantity.toInt truncate x = .error .infinite
  | number _ | text _ | torn _ => False
  | _ => True

/-- A value that has no parts, or has one that misfits behind whole ones. -/
def PartsMisfit : Value Q → Prop
  | null | text _ | torn _ => False
  | list items => FirstMisfits (fun w => ∃ n, w.toWhole = .ok n) PartMisfits items
  | mapping fields =>
    FirstMisfits (fun w => ∃ n, w.toWhole = .ok n) PartMisfits (fields.map Prod.fst)
  | _ => True

/-- A value that is no length: no number, or a whole one that is too large. -/
def DurationMisfits : Value Q → Prop
  | number n => n.asInt?.isSome = true ∧ Quantity.isFinite n.toQuantity = false
  | _ => True

/-- A value that is no name of anything. -/
def VoicingMisfits : Value Q → Prop
  | list _ | mapping _ => True
  | _ => False

end Value

namespace Check

/-- The value looked at is good for its setting. -/
def Passes (r : RawSettings Q) : Check → Prop
  | parts => ∃ v, wholeSignature (r .timeSignature) = .ok v
  | range x highest => ∃ n, r x = .number n ∧ n.InRange highest
  | beatDuration => ∃ n, r .beatDuration = .number n ∧ n.IsDuration
  | voicing => ∃ s : Strategy, r .voicing = .text s.name
  | signature => ∃ (n : Int) (k : Nat), 1 ≤ n
    ∧ wholeSignature (r .timeSignature) = .ok (.list [.number (.whole n), .number (.whole (2 ^ k))])

/-- The value looked at is nothing that its setting can be compared with. -/
def Misfits (r : RawSettings Q) : Check → Prop
  | parts => (r .timeSignature).PartsMisfit
  | range x _ => ∀ n, r x ≠ .number n
  | beatDuration => (r .beatDuration).DurationMisfits
  | voicing => (r .voicing).VoicingMisfits
  | signature => r .timeSignature = .null

end Check

/-! ### Numbers and the voicing -/

theorem told_of_written {n : Number Q} {f : SettingsFault} (h : written n = .error f) :
    f.message? ≠ none := by
  unfold written at h
  split at h
  · split at h
    · cases h
    · cases h
      exact Option.some_ne_none _
  · cases h

theorem settles_checkRange (x : Setting) (highest : Nat) (v : Value Q) :
    Settles (checkRange x highest v) (∃ n, v = .number n ∧ n.InRange highest)
      (∀ n, v ≠ .number n) := by
  by_cases hnumber : ∃ n, v = .number n
  · obtain ⟨n, rfl⟩ := hnumber
    have hfits : ¬ ∀ m, Value.number n ≠ .number m := fun h => h n rfl
    by_cases hrange : ((Number.whole 0).atMost n && n.atMost (.whole highest)) = true
    · have hok : checkRange x highest (.number n) = .ok n := if_pos hrange
      rw [hok]
      exact settles_ok n ⟨n, inRange_of_checkRange hok⟩ hfits
    · have htold : Told (checkRange x highest (.number n)) := by
        simp only [checkRange, hrange]
        exact told_bind (fun _ => told_of_written) fun value => ⟨_, rfl, Option.some_ne_none _⟩
      refine htold.settles ?_ hfits
      rintro ⟨m, hm, hlow, hhigh⟩
      cases hm
      exact hrange (by rw [hlow, hhigh]; rfl)
  · have hnone : ∀ n, v ≠ .number n := not_exists.mp hnumber
    have hcheck : checkRange x highest v = .error .wrongKind := by
      unfold checkRange
      split
      · exact absurd rfl (hnone _)
      · rfl
    rw [hcheck]
    refine settles_untold rfl ?_ hnone
    rintro ⟨n, hn, -⟩
    exact hnone n hn

theorem settles_checkBeatDuration_of_finite {n : Number Q}
    (hfinite : Quantity.isFinite n.toQuantity = true) :
    Settles (checkBeatDuration (.number n)) (∃ m, Value.number n = .number m ∧ m.IsDuration)
      (Value.number n).DurationMisfits := by
  have hfits : ¬ (Value.number n).DurationMisfits := by
    intro h
    rw [Value.DurationMisfits, hfinite] at h
    cases h.2
  by_cases hpositive : n.atMost (.whole 0) = true
  · have htold : checkBeatDuration (.number n) = .error (.beatDuration n.text) := by
      simp only [checkBeatDuration, hfinite, hpositive, if_true]
    refine Told.settles ⟨_, htold, Option.some_ne_none _⟩ ?_ hfits
    rintro ⟨m, hm, -, hm'⟩
    cases hm
    rw [hpositive] at hm'
    cases hm'
  · have hok : checkBeatDuration (.number n) = .ok n := by
      simp only [checkBeatDuration, hfinite, hpositive, if_true]
      rfl
    rw [hok]
    exact settles_ok n ⟨n, duration_of_checkBeatDuration hok⟩ hfits

theorem settles_checkBeatDuration_of_infinite {n : Number Q}
    (hinfinite : Quantity.isFinite n.toQuantity = false) :
    Settles (checkBeatDuration (.number n)) (∃ m, Value.number n = .number m ∧ m.IsDuration)
      (Value.number n).DurationMisfits := by
  have hno : ¬ ∃ m, Value.number n = .number m ∧ m.IsDuration := by
    rintro ⟨m, hm, hfinite, -⟩
    cases hm
    rw [hinfinite] at hfinite
    cases hfinite
  cases n with
  | fraction x =>
    have htold : checkBeatDuration (.number (.fraction x) : Value Q)
        = .error (.beatDuration (Number.fraction x).text) := by
      simp only [checkBeatDuration, hinfinite]
      rfl
    refine Told.settles ⟨_, htold, Option.some_ne_none _⟩ hno fun h => ?_
    cases h.1
  | flag b =>
    have hcheck : checkBeatDuration (.number (.flag b) : Value Q) = .error .tooLarge := by
      simp only [checkBeatDuration, hinfinite]
      rfl
    exact hcheck ▸ settles_untold rfl hno ⟨rfl, hinfinite⟩
  | whole i =>
    have hcheck : checkBeatDuration (.number (.whole i) : Value Q) = .error .tooLarge := by
      simp only [checkBeatDuration, hinfinite]
      rfl
    exact hcheck ▸ settles_untold rfl hno ⟨rfl, hinfinite⟩

theorem settles_checkBeatDuration (v : Value Q) :
    Settles (checkBeatDuration v) (∃ n, v = .number n ∧ n.IsDuration) v.DurationMisfits := by
  by_cases hnumber : ∃ n, v = .number n
  · obtain ⟨n, rfl⟩ := hnumber
    cases hfinite : Quantity.isFinite n.toQuantity with
    | true => exact settles_checkBeatDuration_of_finite hfinite
    | false => exact settles_checkBeatDuration_of_infinite hfinite
  · have hnone : ∀ n, v ≠ .number n := not_exists.mp hnumber
    have hmisfits : v.DurationMisfits := by
      unfold Value.DurationMisfits
      split
      · exact absurd rfl (hnone _)
      · trivial
    have hcheck : checkBeatDuration v = .error .wrongKind := by
      unfold checkBeatDuration
      split
      · exact absurd rfl (hnone _)
      · rfl
    rw [hcheck]
    refine settles_untold rfl ?_ hmisfits
    rintro ⟨n, hn, -⟩
    exact hnone n hn

theorem Strategy.ofName?_eq_some_iff {name : String} {s : Strategy} :
    ofName? name = some s ↔ name = s.name := by
  constructor
  · intro h
    exact (beq_iff_eq.mp (List.find?_some (p := fun v : Strategy => v.name == name) h)).symm
  · rintro rfl
    exact ofName?_name s

theorem settles_checkVoicing (v : Value Q) :
    Settles (checkVoicing v) (∃ s : Strategy, v = .text s.name) v.VoicingMisfits := by
  by_cases htext : ∃ name, v = .text name
  · obtain ⟨name, rfl⟩ := htext
    cases hname : Strategy.ofName? name with
    | some s =>
      have hcheck : checkVoicing (.text name : Value Q) = .ok s := by
        simp only [checkVoicing, hname]
      rw [hcheck]
      exact settles_ok s ⟨s, congrArg Value.text (Strategy.ofName?_eq_some_iff.mp hname)⟩ id
    | none =>
      have hcheck : checkVoicing (.text name : Value Q) = .error (.voicing name) := by
        simp only [checkVoicing, hname]
      refine Told.settles ⟨_, hcheck, Option.some_ne_none _⟩ ?_ id
      rintro ⟨s, hs⟩
      rw [Strategy.ofName?_eq_some_iff.mpr (Value.text.inj hs)] at hname
      cases hname
  · have hno : ¬ ∃ s : Strategy, v = .text s.name := by
      rintro ⟨s, hs⟩
      exact htext ⟨s.name, hs⟩
    cases v with
    | list items => exact settles_untold rfl hno trivial
    | mapping fields => exact settles_untold rfl hno trivial
    | text name => exact absurd ⟨name, rfl⟩ htext
    | number n =>
      have htold : Told (checkVoicing (.number n : Value Q)) :=
        told_bind (fun _ => told_of_written) fun name => ⟨_, rfl, Option.some_ne_none _⟩
      exact htold.settles hno id
    | _ => exact Told.settles ⟨_, rfl, Option.some_ne_none _⟩ hno id

/-! ### The time signature -/

theorem told_of_wholeOfPoints {ns : List Nat} {f : SettingsFault}
    (h : wholeOfPoints ns = .error f) : f.message? ≠ none := by
  unfold wholeOfPoints at h
  split at h <;> cases h <;> exact Option.some_ne_none _

theorem settles_toWhole (v : Value Q) :
    Settles v.toWhole (∃ n, v.toWhole = .ok n) v.PartMisfits := by
  refine ⟨Iff.rfl, ?_⟩
  have htext (ns : List Nat) : ¬ ∃ f, wholeOfPoints ns = .error f ∧ f.message? = none :=
    fun ⟨_, h, hf⟩ => told_of_wholeOfPoints h hf
  have hok (i : Int) :
      ¬ ∃ f, (.ok i : Except SettingsFault Int) = .error f ∧ f.message? = none := by
    rintro ⟨f, h, -⟩
    cases h
  cases v with
  | text s => exact iff_of_false (htext _) id
  | torn ns => exact iff_of_false (htext _) id
  | number n =>
    cases n with
    | flag b => exact iff_of_false (hok _) id
    | whole i => exact iff_of_false (hok i) id
    | fraction x =>
      simp only [Value.toWhole, Value.PartMisfits, Number.asInt?, Number.toQuantity]
      cases Quantity.toInt truncate x with
      | ok i => exact iff_of_false (hok i) (by rintro ⟨⟩)
      | error e =>
        cases e with
        | infinite => exact iff_of_true ⟨_, rfl, rfl⟩ rfl
        | nan =>
          refine iff_of_false ?_ (by rintro ⟨⟩)
          rintro ⟨f, h, hf⟩
          cases h
          cases hf
  | _ => exact iff_of_true ⟨_, rfl, rfl⟩ trivial

theorem settles_wholeSignature (v : Value Q) :
    Settles (wholeSignature v) (∃ w, wholeSignature v = .ok w) v.PartsMisfit := by
  refine ⟨Iff.rfl, ?_⟩
  have htext (ns : List Nat) : ¬ ∃ f, (do
      let n ← wholeOfPoints (splitSignature ns).1
      let d ← wholeOfPoints (splitSignature ns).2
      pure (.list [.number (.whole n), .number (.whole d)] : Value Q)) = .error f
        ∧ f.message? = none := by
    rintro ⟨f, h, hf⟩
    rcases of_bind_eq_error h with h | ⟨n, -, h⟩
    · exact told_of_wholeOfPoints h hf
    · rcases of_bind_eq_error h with h | ⟨d, -, h⟩
      · exact told_of_wholeOfPoints h hf
      · cases h
  have hitems (items : List (Value Q)) : (∃ f, ((items.mapM Value.toWhole).map fun ns =>
      (.list (ns.map fun n => .number (.whole n)) : Value Q)) = .error f ∧ f.message? = none)
        ↔ FirstMisfits (fun w => ∃ n, w.toWhole = .ok n) Value.PartMisfits items := by
    rw [← (Settles.mapM settles_toWhole items).untold]
    constructor
    · rintro ⟨f, h, hf⟩
      exact ⟨f, of_map_eq_error h, hf⟩
    · rintro ⟨f, h, hf⟩
      exact ⟨f, by rw [h]; rfl, hf⟩
  cases v with
  | null =>
    refine iff_of_false ?_ id
    rintro ⟨f, h, -⟩
    cases h
  | text s => exact iff_of_false (htext _) id
  | torn ns => exact iff_of_false (htext ns) id
  | list items => exact hitems items
  | mapping fields => exact hitems (fields.map Prod.fst)
  | _ => exact iff_of_true ⟨_, rfl, rfl⟩ trivial

theorem whole_of_wholeSignature {v w : Value Q} (h : wholeSignature v = .ok w) :
    v = .null ∧ w = .null ∨ v ≠ .null
      ∧ ∃ ns : List Int, w = .list (ns.map fun n => .number (.whole n)) := by
  have htext {ns : List Nat} (h : (do
      let n ← wholeOfPoints (splitSignature ns).1
      let d ← wholeOfPoints (splitSignature ns).2
      pure (.list [.number (.whole n), .number (.whole d)] : Value Q)) = .ok w) :
        ∃ ns : List Int, w = .list (ns.map fun n => .number (.whole n)) := by
    obtain ⟨n, -, h⟩ := exists_of_bind_eq_ok h
    obtain ⟨d, -, h⟩ := exists_of_bind_eq_ok h
    cases h
    exact ⟨[n, d], rfl⟩
  have hitems {items : List (Value Q)} (h : ((items.mapM Value.toWhole).map fun ns =>
      (.list (ns.map fun n => .number (.whole n)) : Value Q)) = .ok w) :
        ∃ ns : List Int, w = .list (ns.map fun n => .number (.whole n)) := by
    obtain ⟨ns, -, h⟩ := exists_of_map_eq_ok h
    exact ⟨ns, h.symm⟩
  cases v with
  | null =>
    cases h
    exact .inl ⟨rfl, rfl⟩
  | text s => exact .inr ⟨nofun, htext h⟩
  | torn ns => exact .inr ⟨nofun, htext h⟩
  | list items => exact .inr ⟨nofun, hitems h⟩
  | mapping fields => exact .inr ⟨nofun, hitems h⟩
  | _ => cases h

theorem isPowerOfTwo_iff {n : Nat} (hn : n ≠ 0) : isPowerOfTwo n = true ↔ ∃ k, n = 2 ^ k := by
  unfold isPowerOfTwo
  rw [decide_eq_true_iff]
  constructor
  · intro h
    refine ⟨n.log2, ?_⟩
    by_contra hne
    -- Unless the number is its highest bit alone, its predecessor has that bit too.
    have hle : 2 ^ n.log2 ≤ n := Nat.log2_self_le hn
    have hlt : n < 2 ^ (n.log2 + 1) := Nat.lt_log2_self
    have hbit : n.testBit n.log2 = true := Nat.testBit_of_two_pow_le_and_two_pow_add_one_gt hle hlt
    have hbit' : (n - 1).testBit n.log2 = true :=
      Nat.testBit_of_two_pow_le_and_two_pow_add_one_gt (by omega) (by omega)
    have hand : (n &&& (n - 1)).testBit n.log2 = true := by
      rw [Nat.testBit_and, hbit, hbit']
      rfl
    rw [h, Nat.zero_testBit] at hand
    cases hand
  · rintro ⟨k, rfl⟩
    rw [Nat.and_two_pow_sub_one_eq_mod, Nat.mod_self]

theorem checkTimeSignature_pair (n d : Int) :
    (1 ≤ n ∧ ∃ k : Nat, d = 2 ^ k) ∧ checkTimeSignature
        (.list [.number (.whole n), .number (.whole d)] : Value Q) = .ok (.whole n, .whole d)
      ∨ (¬ (1 ≤ n ∧ ∃ k : Nat, d = 2 ^ k)) ∧ Told (checkTimeSignature
        (.list [.number (.whole n), .number (.whole d)] : Value Q)) := by
  have htold : Told (do
      let numerator ← written (.whole n : Number Q)
      let denominator ← written (.whole d : Number Q)
      .error (.timeSignature numerator denominator) : Except SettingsFault (Number Q × Number Q)) :=
    told_bind (fun _ => told_of_written) fun _ =>
      told_bind (fun _ => told_of_written) fun _ => ⟨_, rfl, Option.some_ne_none _⟩
  have hless (m : Int) : (Number.whole m : Number Q).less (.whole 1) = decide (m < 1) :=
    Number.less_whole rfl 1
  simp only [checkTimeSignature, Value.items?, hless, Number.asInt?, decide_eq_true_iff]
  by_cases hn : n < 1
  · exact .inr ⟨fun h => absurd h.1 (by omega), by rw [if_pos hn]; exact htold⟩
  · rw [if_neg hn]
    by_cases hd : d < 1
    · refine .inr ⟨?_, by rw [if_pos hd]; exact htold⟩
      rintro ⟨-, k, rfl⟩
      have hpositive : (0 : Int) < 2 ^ k := Int.pow_pos (by decide)
      omega
    · rw [if_neg hd]
      have hpower : isPowerOfTwo d.toNat = true ↔ ∃ k : Nat, d = 2 ^ k := by
        rw [isPowerOfTwo_iff (by omega)]
        refine exists_congr fun k => ?_
        rw [← Int.toNat_of_nonneg (by omega : 0 ≤ d), Int.toNat_natCast]
        exact_mod_cast Iff.rfl
      by_cases hd' : isPowerOfTwo d.toNat = true
      · exact .inl ⟨⟨by omega, hpower.mp hd'⟩, if_pos hd'⟩
      · exact .inr ⟨fun h => hd' (hpower.mpr h.2), by rw [if_neg hd']; exact htold⟩

theorem settles_checkTimeSignature {v w : Value Q} (hv : wholeSignature v = .ok w) :
    Settles (checkTimeSignature w) (∃ (n : Int) (k : Nat), 1 ≤ n
        ∧ wholeSignature v = .ok (.list [.number (.whole n), .number (.whole (2 ^ k))]))
      (v = .null) := by
  rcases whole_of_wholeSignature hv with ⟨rfl, rfl⟩ | ⟨hne, ns, rfl⟩
  · refine settles_untold rfl ?_ rfl
    rintro ⟨n, k, -, h⟩
    cases h
  · have hlength (hns : ns.length ≠ 2) : ¬ ∃ (n : Int) (k : Nat), 1 ≤ n
        ∧ wholeSignature v = .ok (.list [.number (.whole n), .number (.whole (2 ^ k))]) := by
      rintro ⟨n, k, -, h⟩
      rw [hv] at h
      have hlist := congrArg List.length (Value.list.inj (Except.ok.inj h))
      rw [List.length_map] at hlist
      exact hns hlist
    match ns with
    | [n, d] =>
      rcases checkTimeSignature_pair (Q := Q) n d with ⟨⟨hn, k, rfl⟩, h⟩ | ⟨hnot, h⟩
      · exact h ▸ settles_ok _ ⟨n, k, hn, hv⟩ hne
      · refine h.settles ?_ hne
        rintro ⟨n', k, hn', h'⟩
        rw [hv] at h'
        cases h'
        exact hnot ⟨hn', k, rfl⟩
    | [] => exact Told.settles ⟨_, rfl, Option.some_ne_none _⟩ (hlength (by simp)) hne
    | [n] => exact Told.settles ⟨_, rfl, Option.some_ne_none _⟩ (hlength (by simp)) hne
    | n :: d :: e :: ns =>
      have hcheck : checkTimeSignature (.list ((n :: d :: e :: ns).map
          fun n => .number (.whole n)) : Value Q) = .error .tooManyParts :=
        congrArg Except.error (if_neg (by simp))
      exact Told.settles ⟨_, hcheck, Option.some_ne_none _⟩ (hlength (by simp)) hne

/-! ### Mappings -/

/-- Settings that are good for something: numbers that fit their bytes, a finite
length above zero, and a time signature over a power of two. -/
structure Settings.IsValid (s : Settings Q) : Prop where
  velocity : s.velocity.InRange 127
  bassVelocity : s.bassVelocity.InRange 127
  program : s.program.InRange 127
  channel : s.channel.InRange 14
  beatDuration : s.beatDuration.IsDuration
  numerator : ∃ n : Int, 1 ≤ n ∧ s.numerator = .whole n
  denominator : ∃ k : Nat, s.denominator = .whole (2 ^ k)

namespace RawSettings

/-- **Settings are refused without a word just if a misfit is the first thing
that does not pass.** -/
theorem settles_check (r : RawSettings Q) :
    Settles (wholeSignature (r .timeSignature) >>= fun v => (r.set .timeSignature v).check)
      (∀ c ∈ Check.all, c.Passes r)
      (FirstMisfits (Check.Passes r) (Check.Misfits r) Check.all) := by
  have hrun := (settles_wholeSignature (r .timeSignature)).bind
    (g := fun v => (r.set .timeSignature v).check) fun v hv =>
    (settles_checkRange .velocity 127 (r .velocity)).bind fun velocity _ =>
    (settles_checkRange .bassVelocity 127 (r .bassVelocity)).bind fun bassVelocity _ =>
    (settles_checkRange .program 127 (r .program)).bind fun program _ =>
    (settles_checkRange .channel 14 (r .channel)).bind fun channel _ =>
    (settles_checkBeatDuration (r .beatDuration)).bind fun beatDuration _ =>
    (settles_checkVoicing (r .voicing)).bind fun voicing _ =>
    (settles_checkTimeSignature hv).bind fun ⟨numerator, denominator⟩ _ =>
      settles_ok _ trivial not_false
  refine ⟨hrun.ok.trans ?_, hrun.untold⟩
  simp only [Check.all, List.forall_mem_cons, Check.Passes, List.not_mem_nil, false_imp_iff,
    implies_true]

end RawSettings

namespace Settings

variable {fields : List (Value Q × Value Q)}

theorem isValid_of_ofFields {settings : Settings Q} (h : ofFields fields = .ok settings) :
    settings.IsValid := by
  unfold ofFields at h
  split at h
  · cases h
  · obtain ⟨v, hv, h⟩ := exists_of_bind_eq_ok h
    have hchecked := RawSettings.checked_of_check h
    have hnumbers : checkTimeSignature v = .ok (settings.numerator, settings.denominator) :=
      hchecked.signature
    obtain ⟨n, k, hn, hwhole⟩ := (settles_checkTimeSignature hv).ok.mp ⟨_, hnumbers⟩
    obtain rfl := Except.ok.inj (hv.symm.trans hwhole)
    have hok : checkTimeSignature (.list [.number (.whole n), .number (.whole (2 ^ k))] : Value Q)
        = .ok (.whole n, .whole (2 ^ k)) := by
      rcases checkTimeSignature_pair (Q := Q) n (2 ^ k) with ⟨-, hok⟩ | ⟨hnot, -⟩
      · exact hok
      · exact absurd ⟨hn, k, rfl⟩ hnot
    have hpair := Except.ok.inj (hnumbers.symm.trans hok)
    exact {
      velocity := (inRange_of_checkRange hchecked.velocity).2
      bassVelocity := (inRange_of_checkRange hchecked.bassVelocity).2
      program := (inRange_of_checkRange hchecked.program).2
      channel := (inRange_of_checkRange hchecked.channel).2
      beatDuration := (duration_of_checkBeatDuration hchecked.beatDuration).2
      numerator := ⟨n, hn, congrArg Prod.fst hpair⟩
      denominator := ⟨k, congrArg Prod.snd hpair⟩ }

theorem untold_iff (hnames : ∀ p ∈ fields, p.1.points?.isSome = true) :
    (∃ fault, ofFields fields = .error fault ∧ fault.message? = none)
      ↔ (∀ p ∈ fields, p.1.setting?.isSome = true)
        ∧ FirstMisfits (Check.Passes (standard.raw.update fields))
          (Check.Misfits (standard.raw.update fields)) Check.all := by
  have hkeys : (∀ p ∈ fields, p.1.setting?.isSome = true)
      ↔ unknownKeys (fields.map Prod.fst) = none := by
    rw [unknownKeys_eq_none_iff, List.forall_mem_map]
  rw [hkeys]
  unfold ofFields
  cases hunknown : unknownKeys (fields.map Prod.fst) with
  | some fault =>
    refine iff_of_false ?_ fun h => nomatch h.1
    rintro ⟨f, hf, hnone⟩
    obtain rfl := Except.error.inj hf
    exact told_of_unknownKeys (List.forall_mem_map.mpr hnames) hunknown hnone
  | none =>
    rw [and_iff_right rfl]
    exact (standard.raw.update fields).settles_check.untold

/-- **Reading a mapping of settings by name ends in valid settings or in words,
unless a value that its setting cannot be compared with is the first that does
not pass.** -/
theorem valid_or_told_iff (hnames : ∀ p ∈ fields, p.1.points?.isSome = true) :
    ((∃ settings, ofFields fields = .ok settings ∧ settings.IsValid)
        ∨ ∃ fault message, ofFields fields = .error fault ∧ fault.message? = some message)
      ↔ ¬ ((∀ p ∈ fields, p.1.setting?.isSome = true)
        ∧ FirstMisfits (Check.Passes (standard.raw.update fields))
          (Check.Misfits (standard.raw.update fields)) Check.all) := by
  rw [← untold_iff hnames]
  constructor
  · rintro (⟨settings, h, -⟩ | ⟨fault, message, h, hmessage⟩) ⟨f, hf, hnone⟩
    · rw [h] at hf
      cases hf
    · rw [h] at hf
      cases hf
      rw [hnone] at hmessage
      cases hmessage
  · intro hnot
    cases h : ofFields fields with
    | ok settings => exact .inl ⟨settings, rfl, isValid_of_ofFields h⟩
    | error fault =>
      refine .inr ⟨fault, ?_⟩
      cases hmessage : fault.message? with
      | some message => exact ⟨message, rfl, rfl⟩
      | none => exact absurd ⟨fault, h, hmessage⟩ hnot

/-- A velocity that is a text is refused without a word. -/
theorem not_valid_or_told_loud :
    let fields : List (Value Rat × Value Rat) := [(.text "velocity", .text "loud")]
    (∀ p ∈ fields, p.1.points?.isSome = true)
      ∧ ¬ ((∃ settings, ofFields fields = .ok settings ∧ settings.IsValid)
        ∨ ∃ fault message, ofFields fields = .error fault ∧ fault.message? = some message) := by
  intro fields
  have hnames : ∀ p ∈ fields, p.1.points?.isSome = true := by
    intro p hp
    obtain rfl := List.mem_singleton.mp hp
    rfl
  refine ⟨hnames, ?_⟩
  rw [valid_or_told_iff hnames, not_not]
  refine ⟨?_, .inr ⟨⟨_, rfl⟩, .inl fun n h => nomatch h⟩⟩
  intro p hp
  obtain rfl := List.mem_singleton.mp hp
  decide

end Settings

end LeadSheet
