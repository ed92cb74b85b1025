import LeadSheet.Datum.Score
import LeadSheet.Proofs.Reading.Place

/-!
# Keyed measures as they nest

`Builder.readMeasure` reads a measure the way its brackets nest: a keyed one is
entered, the measure inside is read, and the builder is asked to restore the
key that was in effect before, which fails if that key is not there.

`Score.readDatum` takes steps instead (`Datum.stepOf_of_mem` says which) and
keeps the keys to go back to in a stack.  Both come to the same
(`Score.readNested_eq`): the stack holds what the nesting does, and the key to
go back to always is there.
-/

namespace LeadSheet

/-! ### The steps of a measure -/

inductive Datum.Contains (s : Source) : Datum → Prop
  | atom : Contains s (.atom s)
  | item {line column : Int} {items : List Datum} {d : Datum} (hd : d ∈ items)
      (h : Contains s d) : Contains s (.list line column items)

/-- **What a step of a measure can be**: the way into a key that is read, the
way back, an atom of the measure as a word, the end of a measure, or the fault
of a place. -/
inductive Datum.StepOf (d : Datum) : MeasureStep → Prop
  | enter {name : String} {k : Key} (hk : Key.read name = .ok k) (line column : Int) :
      StepOf d (.enter k line column)
  | leave : StepOf d .leave
  | word {s : Source} (hs : d.Contains s) : StepOf d (.word s)
  | close : StepOf d .close
  | misread (m : Misreading) : StepOf d (.fail (.misreading m))
  | badKey (line column : Int) (f : KeyFault) : StepOf d (.fail (.key (.located line column f)))

theorem Datum.StepOf.of_item {line column : Int} {items : List Datum} {d : Datum} (hd : d ∈ items)
    {st : MeasureStep} (h : d.StepOf st) : (Datum.list line column items).StepOf st := by
  cases h with
  | enter hk line column => exact .enter hk line column
  | leave => exact .leave
  | word hs => exact .word (.item hd hs)
  | close => exact .close
  | misread m => exact .misread m
  | badKey line column f => exact .badKey line column f

theorem Datum.stepOf_of_mem {d : Datum} {st : MeasureStep} (h : st ∈ d.steps) : d.StepOf st := by
  fun_induction Datum.steps d with
  | case1 s =>
    obtain rfl := List.mem_singleton.mp h
    exact .misread _
  | case2 line column head tonic measure k hk hkeyed ih =>
    rcases List.mem_cons.mp h with rfl | h
    · exact .enter hk line column
    · rcases List.mem_append.mp h with h | h
      · exact (ih h).of_item (by simp)
      · obtain rfl := List.mem_singleton.mp h
        exact .leave
  | case3 line column head tonic measure e he hkeyed =>
    obtain rfl := List.mem_singleton.mp h
    exact .badKey _ _ _
  | case4 line column items hitems hkeyed =>
    obtain rfl := List.mem_singleton.mp h
    exact .misread _
  | case5 line column items hkeyed =>
    rcases List.mem_append.mp h with h | h
    · obtain ⟨d, hd, rfl⟩ := List.mem_map.mp h
      cases d with
      | atom s => exact .word (.item hd .atom)
      | list line column items => exact .misread _
    · obtain rfl := List.mem_singleton.mp h
      exact .close

/-! ### Reading as it nests -/

variable {Q : Type} [Quantity Q]

/-- Takes an item of a measure, which is a word. -/
def Builder.readMeasureItem (table : Table) (b : Builder Q) :
    Datum → Except ReadFault (Builder Q)
  | .atom s => Token.read table s >>= b.feed
  | .list line column _ => .error (.misreading ⟨.nestedMeasure, line, column, "("⟩)

def Builder.readMeasure (table : Table) (b : Builder Q) :
    Datum → Except (ReadFault ⊕ KeyIndexFault) (Builder Q)
  | .atom s =>
    .error (.inl (.misreading
      ⟨.notAMeasure (String.ofList s.text), s.line, s.column, String.ofList s.text⟩))
  | .list line column items =>
    if Datum.startsWith "keyed" items then
      match items with
      | [_, .atom tonic, measure] =>
        match Key.read (String.ofList tonic.text) with
        | .ok k => do
          let inner ← readMeasure table (b.changeKey (some k)) measure
          (inner.restoreKey b.keyIndex).mapError .inr
        | .error e => .error (.inl (.key (.located tonic.line tonic.column e)))
      | _ => .error (.inl (.misreading ⟨.notKeyed, line, column, "keyed"⟩))
    else ((items.foldlM (readMeasureItem table) b).map closeMeasure).mapError .inl

/-- Reads a score written as a datum, its measures as they nest. -/
def Score.readNested (table : Table) (key : Option Key) (text : String) :
    Except (ReadFault ⊕ KeyIndexFault) (Score Q) := do
  let d ← (Datum.read text).mapError .inl
  let measures ← d.measures.mapError .inl
  let b ← measures.foldlM (Builder.readMeasure table) (Builder.start key)
  pure b.closeLine.score

/-! ### Steps that do what the nesting does -/

/-- The steps come to the result of a reader that nests: whatever keys there
are to go back to, they are there afterwards, and the builder still has every
key it had and is in one of them. -/
inductive Matches (table : Table) (b : Builder Q) (steps : List MeasureStep) :
    Except (ReadFault ⊕ KeyIndexFault) (Builder Q) → Prop
  | done {b' : Builder Q}
      (run : ∀ outer, steps.foldlM (ScoreBuilding.perform table) ⟨b, outer⟩ = .ok ⟨b', outer⟩)
      (keys : b.keys.length ≤ b'.keys.length) (valid : b'.keyIndex < b'.keys.length) :
      Matches table b steps (.ok b')
  | failed {f : ReadFault}
      (run : ∀ outer, steps.foldlM (ScoreBuilding.perform table) ⟨b, outer⟩ = .error f) :
      Matches table b steps (.error (.inl f))

theorem Matches.append {table : Table} {b : Builder Q} {xs ys : List MeasureStep}
    {x : Except (ReadFault ⊕ KeyIndexFault) (Builder Q)}
    {f : Builder Q → Except (ReadFault ⊕ KeyIndexFault) (Builder Q)} (h : Matches table b xs x)
    (hf : ∀ b', b'.keyIndex < b'.keys.length → Matches table b' ys (f b')) :
    Matches table b (xs ++ ys) (x >>= f) := by
  cases h with
  | failed run =>
    refine .failed fun outer => ?_
    rw [List.foldlM_append, run outer]
    rfl
  | @done b' run keys valid =>
    show Matches table b (xs ++ ys) (f b')
    have hrun : ∀ outer, (xs ++ ys).foldlM (ScoreBuilding.perform table) ⟨b, outer⟩
        = ys.foldlM (ScoreBuilding.perform table) ⟨b', outer⟩ := by
      intro outer
      rw [List.foldlM_append, run outer]
      rfl
    have hy := hf b' valid
    generalize f b' = y at hy
    cases hy with
    | done run' keys' valid' =>
      exact .done (fun outer => (hrun outer).trans (run' outer)) (Nat.le_trans keys keys') valid'
    | failed run' => exact .failed fun outer => (hrun outer).trans (run' outer)

theorem Builder.keys_of_feed {b b' : Builder Q} {t : Token Q} (h : b.feed t = .ok b')
    (hv : b.keyIndex < b.keys.length) :
    b.keys.length ≤ b'.keys.length ∧ b'.keyIndex < b'.keys.length := by
  unfold feed at h
  split at h
  case h_2 =>
    split at h
    · obtain rfl := Except.ok.inj h; exact ⟨Nat.le_refl _, hv⟩
    · cases h
  case h_5 k _ =>
    obtain rfl := Except.ok.inj h
    simp [changeKey]
  all_goals
    obtain rfl := Except.ok.inj h
    simpa [append] using hv

theorem matches_item (table : Table) {b : Builder Q} (hv : b.keyIndex < b.keys.length) (d : Datum) :
    Matches table b [d.itemStep] ((b.readMeasureItem table d).mapError .inl) := by
  cases d with
  | list line column items => exact .failed fun outer => rfl
  | atom s =>
    have hperform : ∀ outer, ScoreBuilding.perform table ⟨b, outer⟩ (.word s)
        = (Token.read table s >>= b.feed).map (⟨·, outer⟩) := by
      intro outer
      show (Token.read table s >>= fun t => b.feed t >>= fun b' =>
        pure (⟨b', outer⟩ : ScoreBuilding Q)) = _
      cases (Token.read table s : Except ReadFault (Token Q)) with
      | error e => rfl
      | ok t => show (b.feed t >>= fun b' => pure _) = (b.feed t).map _; cases b.feed t <;> rfl
    have hrun : ∀ outer, [Datum.itemStep (.atom s)].foldlM (ScoreBuilding.perform table) ⟨b, outer⟩
        = (Token.read table s >>= b.feed).map (⟨·, outer⟩) := by
      intro outer
      rw [List.foldlM_cons]
      show (ScoreBuilding.perform table ⟨b, outer⟩ (.word s) >>= pure) = _
      rw [hperform]
      exact bind_pure _
    show Matches table b _ ((Token.read table s >>= b.feed).mapError .inl)
    cases hfeed : Token.read table s >>= b.feed with
    | error f => exact .failed fun outer => by rw [hrun, hfeed]; rfl
    | ok b' =>
      obtain ⟨t, -, ht⟩ := exists_of_bind_eq_ok hfeed
      obtain ⟨hkeys, hvalid⟩ := Builder.keys_of_feed ht hv
      exact .done (fun outer => by rw [hrun, hfeed]; rfl) hkeys hvalid

theorem matches_items (table : Table) : ∀ (ds : List Datum) {b : Builder Q},
    b.keyIndex < b.keys.length →
    Matches table b (ds.map Datum.itemStep ++ [.close])
      (((ds.foldlM (Builder.readMeasureItem table) b).map Builder.closeMeasure).mapError .inl) := by
  intro ds
  induction ds with
  | nil =>
    intro b hv
    exact .done (fun outer => rfl) (by simp) (by simpa using hv)
  | cons d ds ih =>
    intro b hv
    have h := (matches_item table hv d).append fun b' hv' => ih hv'
    rw [List.map_cons, List.cons_append, List.foldlM_cons]
    cases hd : b.readMeasureItem table d with
    | error f => rw [hd] at h; exact h
    | ok b' => rw [hd] at h; exact h

theorem restoreKey_of_lt {Q : Type} {b : Builder Q} {index : Nat} (h : index < b.keys.length) :
    b.restoreKey index = .ok (b.returnTo index) := by
  unfold Builder.restoreKey
  rw [if_pos ⟨Int.natCast_nonneg _, by exact_mod_cast h⟩]
  rfl

theorem matches_measure (table : Table) (d : Datum) : ∀ {b : Builder Q},
    b.keyIndex < b.keys.length → Matches table b d.steps (b.readMeasure table d) := by
  induction d using Datum.steps.induct with
  | case1 s =>
    intro b _
    rw [Datum.steps, Builder.readMeasure]
    exact .failed fun outer => rfl
  | case2 line column head tonic measure k hk hkeyed ih =>
    intro b hv
    rw [Datum.steps, Builder.readMeasure, if_pos hkeyed, if_pos hkeyed]
    simp only [hk]
    have hchange : (b.changeKey (some k)).keyIndex < (b.changeKey (some k)).keys.length := by
      simp [Builder.changeKey]
    have henter : ∀ (steps : List MeasureStep) (outer : List Nat),
        (MeasureStep.enter k line column :: steps).foldlM (ScoreBuilding.perform table) ⟨b, outer⟩
          = steps.foldlM (ScoreBuilding.perform table)
            ⟨b.changeKey (some k), b.keyIndex :: outer⟩ := by
      intro steps outer
      rw [List.foldlM_cons]
      rfl
    have h := ih hchange
    generalize (b.changeKey (some k)).readMeasure table measure = x at h
    cases h with
    | failed run =>
      refine .failed fun outer => ?_
      rw [henter, List.foldlM_append, run]
      rfl
    | @done inner run keys valid =>
      -- the key to go back to was there on entering, and no key is ever lost
      have hle : b.keys.length ≤ inner.keys.length := by
        have : b.keys.length + 1 ≤ inner.keys.length := by simpa [Builder.changeKey] using keys
        omega
      have hback : b.keyIndex < inner.keys.length := Nat.lt_of_lt_of_le hv hle
      show Matches table b _ ((inner.restoreKey b.keyIndex).mapError .inr)
      rw [restoreKey_of_lt hback]
      refine .done (fun outer => ?_) hle hback
      rw [henter, List.foldlM_append, run]
      rfl
  | case3 line column head tonic measure e he hkeyed =>
    intro b _
    rw [Datum.steps, Builder.readMeasure, if_pos hkeyed, if_pos hkeyed]
    simp only [he]
    exact .failed fun outer => rfl
  | case4 line column items hitems hkeyed =>
    intro b _
    rw [Datum.steps, Builder.readMeasure, if_pos hkeyed, if_pos hkeyed]
    · exact .failed fun outer => rfl
    · exact hitems
    · exact hitems
  | case5 line column items hkeyed =>
    intro b hv
    rw [Datum.steps.eq_def, Builder.readMeasure.eq_def]
    dsimp only
    rw [if_neg hkeyed, if_neg hkeyed]
    exact matches_items table items hv

theorem matches_measures (table : Table) : ∀ (ds : List Datum) {b : Builder Q},
    b.keyIndex < b.keys.length →
    Matches table b (ds.flatMap Datum.steps) (ds.foldlM (Builder.readMeasure table) b) := by
  intro ds
  induction ds with
  | nil => intro b hv; exact .done (fun outer => rfl) (Nat.le_refl _) hv
  | cons d ds ih =>
    intro b hv
    rw [List.flatMap_cons, List.foldlM_cons]
    exact (matches_measure table d hv).append fun b' hv' => ih hv'

/-- **A datum is read as it nests**, and the key to go back to is always
there. -/
theorem Score.readNested_eq (table : Table) (key : Option Key) (text : String) :
    (Score.readNested table key text : Except (ReadFault ⊕ KeyIndexFault) (Score Q))
      = (Score.readDatum table key text).mapError .inl := by
  unfold Score.readNested Score.readDatum
  cases Datum.read text with
  | error f => rfl
  | ok d =>
    show (d.measures.mapError Sum.inl >>= _) = Except.mapError _ (d.measures >>= _)
    cases d.measures with
    | error f => rfl
    | ok ds =>
      have h := matches_measures table ds (b := Builder.start (Q := Q) key) Nat.one_pos
      show (ds.foldlM (Builder.readMeasure table) (Builder.start key) >>= _)
        = Except.mapError _ ((ds.flatMap Datum.steps).foldlM (ScoreBuilding.perform table) _ >>= _)
      generalize ds.foldlM (Builder.readMeasure table) (Builder.start (Q := Q) key) = x at h
      cases h with
      | done run => rw [run []]; rfl
      | failed run => rw [run []]; rfl

end LeadSheet
