import LeadSheet.Playing.Schedule
import LeadSheet.Proofs.Reading.Place

/-!
# Switching notes on and off

A note is a span of ticks on a channel, which is switched on where it starts
and off where it ends (`NoteSpan`).  Switches in order are told apart by a
tick: whether something happens before notes are switched on there.

Over a whole schedule every note is switched off as often as on
(`switchCount_inOrder`).  If every note lasts for some ticks, this is so of the
notes that ended in time, whatever comes first (`switchCount_prefix_le`); a
note that lasts for none is switched off too early
(`exists_prefix_switchCount_lt`), if no other note sounds at its tick.
-/

namespace LeadSheet

variable {ν Q : Type}

structure NoteSpan (ν Q : Type) where
  start : Int
  finish : Int
  pitch : ν
  velocity : Number Q
  channel : Number Q

namespace NoteSpan

def on (n : NoteSpan ν Q) : NoteSwitch ν Q :=
  ⟨n.start, true, n.pitch, n.velocity, n.channel⟩

def off (n : NoteSpan ν Q) : NoteSwitch ν Q :=
  ⟨n.finish, false, n.pitch, .whole 0, n.channel⟩

def switches (n : NoteSpan ν Q) : List (NoteSwitch ν Q) :=
  [n.on, n.off]

end NoteSpan

/-- How often notes of a kind are switched on, or off. -/
def switchCount (P : ν → Number Q → Bool) (isOn : Bool) (xs : List (NoteSwitch ν Q)) : Nat :=
  xs.countP fun x => x.isOn == isOn && P x.pitch x.channel

/-! ### The order of switches -/

theorem NoteSwitch.before_iff {x y : NoteSwitch ν Q} :
    x.before y = true ↔ x.tick < y.tick ∨ x.tick = y.tick ∧ x.isOn = false ∧ y.isOn = true := by
  unfold NoteSwitch.before switchesBefore
  cases x.isOn <;> cases y.isOn <;> simp

theorem NoteSwitch.before_trans (x y z : NoteSwitch ν Q) (hyx : ¬ y.before x)
    (hzy : ¬ z.before y) : ¬ z.before x := by
  rw [NoteSwitch.before_iff] at hyx hzy ⊢
  cases hx : x.isOn <;> cases hy : y.isOn <;> cases hz : z.isOn <;> simp_all <;> omega

theorem NoteSwitch.before_asymm (x y : NoteSwitch ν Q) (hxy : x.before y) : ¬ y.before x := by
  rw [NoteSwitch.before_iff] at hxy ⊢
  cases hx : x.isOn <;> cases hy : y.isOn <;> simp_all <;> omega

theorem pairwise_switches (xs : List (NoteSwitch ν Q)) :
    (inOrder NoteSwitch.before xs).Pairwise fun x y => ¬ y.before x :=
  pairwise_inOrder NoteSwitch.before_trans NoteSwitch.before_asymm xs

/-! ### Counting switches -/

theorem countP_switches (R : NoteSwitch ν Q → Bool) : ∀ ns : List (NoteSpan ν Q),
    (ns.flatMap NoteSpan.switches).countP R
      = ns.countP (fun n => R n.on) + ns.countP (fun n => R n.off) := by
  intro ns
  induction ns with
  | nil => rfl
  | cons n ns ih =>
    rw [List.flatMap_cons, List.countP_append, ih, List.countP_cons, List.countP_cons]
    unfold NoteSpan.switches
    rw [List.countP_cons, List.countP_cons, List.countP_nil]
    omega

theorem countP_on (R : NoteSwitch ν Q → Bool) (ns : List (NoteSpan ν Q)) :
    (ns.flatMap NoteSpan.switches).countP (fun x => x.isOn == true && R x)
      = ns.countP fun n => R n.on := by
  have hoff : ns.countP (fun n : NoteSpan ν Q => n.off.isOn == true && R n.off) = 0 :=
    List.countP_eq_zero.mpr fun n _ => by simp [NoteSpan.off]
  rw [countP_switches, hoff, Nat.add_zero]
  exact List.countP_congr fun n _ => by simp [NoteSpan.on]

theorem countP_off (R : NoteSwitch ν Q → Bool) (ns : List (NoteSpan ν Q)) :
    (ns.flatMap NoteSpan.switches).countP (fun x => x.isOn == false && R x)
      = ns.countP fun n => R n.off := by
  have hon : ns.countP (fun n : NoteSpan ν Q => n.on.isOn == false && R n.on) = 0 :=
    List.countP_eq_zero.mpr fun n _ => by simp [NoteSpan.on]
  rw [countP_switches, hon, Nat.zero_add]
  exact List.countP_congr fun n _ => by simp [NoteSpan.off]

/-- **Over a whole schedule notes are switched off as often as on.** -/
theorem switchCount_inOrder (P : ν → Number Q → Bool) (ns : List (NoteSpan ν Q)) :
    switchCount P false (inOrder NoteSwitch.before (ns.flatMap NoteSpan.switches))
      = switchCount P true (inOrder NoteSwitch.before (ns.flatMap NoteSpan.switches)) := by
  have hperm := perm_inOrder NoteSwitch.before (ns.flatMap NoteSpan.switches)
  unfold switchCount
  rw [hperm.countP_eq, hperm.countP_eq, countP_on, countP_off]
  rfl

/-! ### Switches up to a point -/

/-- **Notes that last for some ticks are switched off after they are switched
on.**  Of the first switch that is left out, let the tick be `T`: what is
switched off before it has ended by `T`, and what starts before `T` is switched
on before it. -/
theorem switchCount_prefix_le (P : ν → Number Q → Bool) {ns : List (NoteSpan ν Q)}
    (hlasts : ∀ n ∈ ns, n.start < n.finish) {xs : List (NoteSwitch ν Q)}
    (hxs : xs <+: inOrder NoteSwitch.before (ns.flatMap NoteSpan.switches)) :
    switchCount P false xs ≤ switchCount P true xs := by
  obtain ⟨ys, hys⟩ := hxs
  cases ys with
  | nil =>
    rw [List.append_nil] at hys
    rw [hys]
    exact Nat.le_of_eq (switchCount_inOrder P ns)
  | cons y ys =>
    have hperm := perm_inOrder NoteSwitch.before (ns.flatMap NoteSpan.switches)
    have hsorted := pairwise_switches (ns.flatMap NoteSpan.switches)
    rw [← hys] at hperm hsorted
    obtain ⟨-, hbehind, hbetween⟩ := List.pairwise_append.mp hsorted
    -- `y` comes right behind `xs`: what ends in `xs` is over by the tick of `y`
    have hended : switchCount P false xs ≤ ns.countP fun n =>
        P n.pitch n.channel && decide (n.finish ≤ y.tick) := by
      calc switchCount P false xs
          ≤ xs.countP fun x => x.isOn == false
              && (P x.pitch x.channel && decide (x.tick ≤ y.tick)) := by
            refine List.countP_mono_left fun x hx h => ?_
            have hnot := hbetween x hx y (List.mem_cons_self ..)
            rw [NoteSwitch.before_iff] at hnot
            simp only [Bool.and_eq_true, beq_iff_eq, decide_eq_true_eq] at h ⊢
            exact ⟨h.1, h.2, by omega⟩
        _ ≤ (xs ++ y :: ys).countP fun x => x.isOn == false
              && (P x.pitch x.channel && decide (x.tick ≤ y.tick)) := by
            rw [List.countP_append]
            exact Nat.le_add_right _ _
        _ = ns.countP fun n => P n.pitch n.channel && decide (n.finish ≤ y.tick) := by
            rw [hperm.countP_eq, countP_off]
            rfl
    -- and what starts before that tick is switched on in `xs`
    have hstarted : (ns.countP fun n => P n.pitch n.channel && decide (n.start < y.tick))
        ≤ switchCount P true xs := by
      have hrest : (y :: ys).countP (fun x => x.isOn == true
          && (P x.pitch x.channel && decide (x.tick < y.tick))) = 0 := by
        refine List.countP_eq_zero.mpr fun x hx => ?_
        have hnot : ¬ x.tick < y.tick := by
          intro hlt
          rcases List.mem_cons.mp hx with rfl | hx
          · exact Int.lt_irrefl _ hlt
          · have := (List.pairwise_cons.mp hbehind).1 x hx
            exact this (NoteSwitch.before_iff.mpr (.inl hlt))
        simp [hnot]
      calc (ns.countP fun n => P n.pitch n.channel && decide (n.start < y.tick))
          = (xs ++ y :: ys).countP fun x => x.isOn == true
              && (P x.pitch x.channel && decide (x.tick < y.tick)) := by
            rw [hperm.countP_eq, countP_on]
            rfl
        _ = xs.countP fun x => x.isOn == true
              && (P x.pitch x.channel && decide (x.tick < y.tick)) := by
            rw [List.countP_append, hrest, Nat.add_zero]
        _ ≤ switchCount P true xs := by
            refine List.countP_mono_left fun x _ h => ?_
            simp only [Bool.and_eq_true] at h ⊢
            exact ⟨h.1, h.2.1⟩
    refine Nat.le_trans hended (Nat.le_trans ?_ hstarted)
    refine List.countP_mono_left fun n hn h => ?_
    have hlast := hlasts n hn
    simp only [Bool.and_eq_true, decide_eq_true_eq] at h ⊢
    exact ⟨h.1, by omega⟩

theorem filter_prefix_of_pairwise {α : Type} {R : α → α → Prop} {D : α → Bool}
    (hdown : ∀ a b, R a b → D b → D a) : ∀ {as : List α}, as.Pairwise R → as.filter D <+: as := by
  intro as
  induction as with
  | nil => intro _; exact List.prefix_rfl
  | cons a as ih =>
    intro h
    obtain ⟨ha, has⟩ := List.pairwise_cons.mp h
    by_cases hD : D a
    · rw [List.filter_cons_of_pos hD]
      exact List.prefix_cons_inj a |>.mpr (ih has)
    · have hnone : (a :: as).filter D = [] := by
        refine List.filter_eq_nil_iff.mpr fun b hb hDb => ?_
        rcases List.mem_cons.mp hb with rfl | hb
        · exact hD hDb
        · exact hD (hdown a b (ha b hb) hDb)
      rw [hnone]
      exact List.nil_prefix

theorem countP_lt_countP {α : Type} {p q : α → Bool} {as : List α} (h : ∀ a ∈ as, p a → q a)
    {a : α} (ha : a ∈ as) (hp : p a = false) (hq : q a = true) : as.countP p < as.countP q := by
  obtain ⟨bs, cs, rfl⟩ := List.append_of_mem ha
  have hbs : bs.countP p ≤ bs.countP q :=
    List.countP_mono_left fun b hb => h b (List.mem_append_left _ hb)
  have hcs : cs.countP p ≤ cs.countP q :=
    List.countP_mono_left fun c hc => h c (List.mem_append_right _ (List.mem_cons_of_mem _ hc))
  rw [List.countP_append, List.countP_append, List.countP_cons, List.countP_cons, hp, hq]
  simp only [Bool.false_eq_true, if_false, if_true]
  omega

theorem switchCount_filter (P : ν → Number Q → Bool) (D : NoteSwitch ν Q → Bool) (isOn : Bool)
    (xs : List (NoteSwitch ν Q)) :
    switchCount P isOn ((inOrder NoteSwitch.before xs).filter D)
      = xs.countP fun x => x.isOn == isOn && (P x.pitch x.channel && D x) := by
  unfold switchCount
  rw [List.countP_filter, (perm_inOrder NoteSwitch.before xs).countP_eq]
  simp only [Bool.and_assoc]

/-- **A note that lasts for no tick is switched off too early**, if every other
note has ended by then or starts then at the earliest. -/
theorem exists_prefix_switchCount_lt {P : ν → Number Q → Bool} {ns : List (NoteSpan ν Q)}
    {n : NoteSpan ν Q} (hn : n ∈ ns) (hP : P n.pitch n.channel = true) (hempty : n.start = n.finish)
    (happart : ∀ m ∈ ns, m.finish ≤ n.start ∨ n.start ≤ m.start) :
    ∃ xs, xs <+: inOrder NoteSwitch.before (ns.flatMap NoteSpan.switches)
      ∧ switchCount P true xs < switchCount P false xs := by
  have hsorted := pairwise_switches (ns.flatMap NoteSpan.switches)
  have hdown : ∀ x y : NoteSwitch ν Q, ¬ y.before x → y.before n.on → x.before n.on := by
    intro x y hxy hy
    rw [NoteSwitch.before_iff] at hxy hy ⊢
    simp only [NoteSpan.on] at hy ⊢
    cases hx : x.isOn <;> cases hy : y.isOn <;> simp_all <;> omega
  -- the first part up to where `n` is switched on holds the end of `n`, but not its start
  refine ⟨_, filter_prefix_of_pairwise hdown hsorted, ?_⟩
  rw [switchCount_filter, switchCount_filter, countP_on, countP_off]
  have hon : ∀ m : NoteSpan ν Q, m.on.before n.on = decide (m.start < n.start) := by
    intro m
    rw [Bool.eq_iff_iff, NoteSwitch.before_iff]
    simp [NoteSpan.on]
  have hoff : ∀ m : NoteSpan ν Q, m.off.before n.on = decide (m.finish ≤ n.start) := by
    intro m
    rw [Bool.eq_iff_iff, NoteSwitch.before_iff]
    simp [NoteSpan.on, NoteSpan.off]
    omega
  refine countP_lt_countP (fun m hm h => ?_) hn ?_ ?_
  · rw [hon] at h
    rw [hoff]
    simp only [Bool.and_eq_true, decide_eq_true_eq] at h ⊢
    rcases happart m hm with hended | hlater
    · exact ⟨h.1, hended⟩
    · omega
  · rw [hon]
    simp
  · rw [hoff, hempty]
    show (P n.pitch n.channel && decide (n.finish ≤ n.finish)) = true
    rw [hP, decide_eq_true (Int.le_refl _)]
    rfl

end LeadSheet
