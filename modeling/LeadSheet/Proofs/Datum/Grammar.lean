import LeadSheet.Proofs.Datum.Nesting
import LeadSheet.Proofs.Reading.Total

/-!
# The grammar of data

A datum is spelled by an atom, or by data between parentheses
(`Datum.Spelled`).  A row of pieces that has not spelled a datum yet leaves
some lists open (`LeavesOpen`): each of them is a parenthesis with whole data
behind it, up to the parenthesis of the next.

The reader keeps a stack of open lists, and what it holds says how the pieces
it has taken are spelled (`DatumReader.Reached`): every piece keeps this, or is
refused for one of four reasons (`Datum.Refused`).  In the other direction a
row that is spelled in some way brings the reader to that point
(`foldlM_spelled`, `foldlM_leavesOpen`).  So the grammar and the reasons say
exactly what is read and what is not
(`Datum.read_eq_ok_iff_spelled`, `Datum.read_eq_error_iff_refused`).
-/

namespace LeadSheet

open Text

/-! ### The grammar -/

mutual

/-- **The datum that a row of pieces spells**: an atom, or a list of what stands
between parentheses.  It has the place of the first piece. -/
inductive Datum.Spelled : List DatumLexeme → Datum → Prop
  | atom (s : Source) : Spelled [.atom s] (.atom s)
  | list {line column line' column' : Int} {ls : List DatumLexeme} {items : List Datum}
      (h : Datum.SpelledAll ls items) :
      Spelled (.opening line column :: (ls ++ [.closing line' column'])) (.list line column items)

/-- The data that a row of pieces spells one after the other. -/
inductive Datum.SpelledAll : List DatumLexeme → List Datum → Prop
  | nil : SpelledAll [] []
  | cons {ls ms : List DatumLexeme} {d : Datum} {ds : List Datum} (h : Datum.Spelled ls d)
      (hs : SpelledAll ms ds) : SpelledAll (ls ++ ms) (d :: ds)

end

/-- **The lists that a row of pieces leaves open**, the innermost first, with the
data that each of them has so far. -/
inductive LeavesOpen : List DatumLexeme → List OpenList → Prop
  | nil : LeavesOpen [] []
  | opening {ls ms : List DatumLexeme} {os : List OpenList} {line column : Int}
      {items : List Datum} (h : LeavesOpen ls os) (hs : Datum.SpelledAll ms items) :
      LeavesOpen (ls ++ .opening line column :: ms) (⟨line, column, items⟩ :: os)

/-- **Why a row of pieces is no datum.**  A parenthesis that closes nothing can
only be the first piece: behind any other a list is open or a datum complete. -/
inductive Datum.Refused : List DatumLexeme → ReadFault → Prop
  | empty : Refused [] (.misreading { cause := .noDatum })
  | behind {ls : List DatumLexeme} {d : Datum} (h : Spelled ls d) (l : DatumLexeme)
      (rest : List DatumLexeme) :
      Refused (ls ++ l :: rest) (l.fault (.afterDatum (String.ofList l.text)))
  | unopened (line column : Int) (rest : List DatumLexeme) :
      Refused (.closing line column :: rest) (.misreading ⟨.unopened, line, column, ")"⟩)
  | unclosed {ls : List DatumLexeme} {o : OpenList} {os : List OpenList}
      (h : LeavesOpen ls (o :: os)) : Refused ls (.misreading ⟨.unclosed, o.line, o.column, "("⟩)

namespace Datum

theorem Spelled.all {ls : List DatumLexeme} {d : Datum} (h : Spelled ls d) : SpelledAll ls [d] := by
  simpa using SpelledAll.cons h .nil

theorem SpelledAll.append {ls ms : List DatumLexeme} {ds es : List Datum} (h : SpelledAll ls ds)
    (hs : SpelledAll ms es) : SpelledAll (ls ++ ms) (ds ++ es) := by
  match h with
  | .nil => exact hs
  | .cons h h' =>
    rw [List.append_assoc, List.cons_append]
    exact .cons h (h'.append hs)

theorem Spelled.exists_cons {ls : List DatumLexeme} {d : Datum} (h : Spelled ls d) :
    ∃ l rest, ls = l :: rest ∧ d.line = l.line ∧ d.column = l.column := by
  cases h with
  | atom s => exact ⟨.atom s, [], rfl, rfl, rfl⟩
  | list h => exact ⟨.opening _ _, _, rfl, rfl, rfl⟩

theorem SpelledAll.exists_of_mem {ls : List DatumLexeme} {ds : List Datum} (h : SpelledAll ls ds)
    {d : Datum} (hd : d ∈ ds) : ∃ xs ms ys, ls = xs ++ ms ++ ys ∧ Spelled ms d := by
  match h with
  | @SpelledAll.cons ls ms _ _ h hs =>
    rcases List.mem_cons.mp hd with rfl | hd
    · exact ⟨[], ls, ms, rfl, h⟩
    · obtain ⟨xs, ms', ys, rfl, hspelled⟩ := hs.exists_of_mem hd
      exact ⟨ls ++ xs, ms', ys, by simp, hspelled⟩

/-- A datum stands somewhere in another one, or is that one. -/
inductive PartOf (e : Datum) : Datum → Prop
  | self : PartOf e e
  | item {line column : Int} {items : List Datum} {d : Datum} (hd : d ∈ items)
      (h : PartOf e d) : PartOf e (.list line column items)

theorem Spelled.exists_part {d e : Datum} (hpart : e.PartOf d) :
    ∀ {ls : List DatumLexeme}, Spelled ls d → ∃ xs l ms ys, ls = xs ++ l :: ms ++ ys
      ∧ Spelled (l :: ms) e ∧ e.line = l.line ∧ e.column = l.column := by
  induction hpart with
  | self =>
    intro ls h
    obtain ⟨l, rest, rfl, hline, hcolumn⟩ := h.exists_cons
    exact ⟨[], l, rest, [], by simp, h, hline, hcolumn⟩
  | @item line column items d hd _ ih =>
    intro ls h
    cases h with
    | @list _ _ line' column' _ _ hs =>
      obtain ⟨xs, ms, ys, rfl, hspelled⟩ := hs.exists_of_mem hd
      obtain ⟨xs', l, ms', ys', rfl, hpart⟩ := ih hspelled
      exact ⟨.opening line column :: (xs ++ xs'), l, ms', ys' ++ (ys ++ [.closing line' column']),
        by simp, hpart⟩

end Datum

/-! ### What the reader holds -/

namespace DatumReader

open Datum (Spelled SpelledAll Refused)

/-- How the pieces that a reader has taken are spelled. -/
inductive Reached : List DatumLexeme → DatumReader → Prop
  | underway {ls : List DatumLexeme} {os : List OpenList} (h : LeavesOpen ls os) :
      Reached ls ⟨os, none⟩
  | complete {ls : List DatumLexeme} {d : Datum} (h : Spelled ls d) : Reached ls ⟨[], some d⟩

namespace Reached

variable {ls ms : List DatumLexeme} {l : DatumLexeme} {r r' : DatumReader} {f : ReadFault}

theorem add {os : List OpenList} {d : Datum} (h : LeavesOpen ls os) (hd : Spelled ms d) :
    Reached (ls ++ ms) (DatumReader.add os d) := by
  cases h with
  | nil => exact .complete hd
  | @opening ls xs os line column items h hs =>
    rw [List.append_assoc, List.cons_append]
    exact .underway (h.opening (hs.append hd.all))

theorem take (h : Reached ls r) (ht : r.take l = .ok r') : Reached (ls ++ [l]) r' := by
  cases h with
  | complete hd => cases ht
  | underway hopen =>
    cases l with
    | opening line column =>
      cases ht
      exact .underway (hopen.opening .nil)
    | closing line column =>
      cases hopen with
      | nil => cases ht
      | @opening ls ms os line' column' items hopen hs =>
        cases ht
        rw [List.append_assoc, List.cons_append]
        exact add hopen (.list hs)
    | atom s =>
      cases ht
      exact add hopen (.atom s)

theorem refused (h : Reached ls r) (ht : r.take l = .error f) (rest : List DatumLexeme) :
    Refused (ls ++ l :: rest) f := by
  cases h with
  | complete hd =>
    cases ht
    exact .behind hd l rest
  | underway hopen =>
    cases l with
    | opening line column => cases ht
    | atom s => cases ht
    | closing line column =>
      cases hopen with
      | nil =>
        cases ht
        exact .unopened line column rest
      | opening _ _ => cases ht

theorem run (h : Reached ls r) : (∀ r', ms.foldlM DatumReader.take r = .ok r' →
      Reached (ls ++ ms) r')
    ∧ ∀ f, ms.foldlM DatumReader.take r = .error f → Refused (ls ++ ms) f := by
  induction ms generalizing ls r with
  | nil =>
    refine ⟨fun r' hr => ?_, nofun⟩
    cases hr
    rwa [List.append_nil]
  | cons l ms ih =>
    rw [List.foldlM_cons]
    cases htake : r.take l with
    | error e =>
      refine ⟨nofun, fun f hf => ?_⟩
      cases hf
      exact h.refused htake ms
    | ok r₁ =>
      rw [List.append_cons]
      exact ih (h.take htake)

theorem finish (h : Reached ls r) : (∀ d, r.finish = .ok d → Spelled ls d)
    ∧ ∀ f, r.finish = .error f → Refused ls f := by
  cases h with
  | complete hd =>
    refine ⟨fun d h => ?_, nofun⟩
    cases h
    exact hd
  | underway hopen =>
    refine ⟨fun d h => ?_, fun f h => ?_⟩
    · cases hopen <;> cases h
    · cases hopen with
      | nil =>
        cases h
        exact .empty
      | opening hbefore hs =>
        cases h
        exact .unclosed (hbefore.opening hs)

end Reached

/-! ### Where a spelled row leads -/

mutual

theorem foldlM_spelled {ls : List DatumLexeme} {d : Datum} (h : Spelled ls d)
    (os : List OpenList) : ls.foldlM take ⟨os, none⟩ = .ok (add os d) := by
  match h with
  | .atom s => rfl
  | @Spelled.list line column line' column' ls _ hs =>
    have hinner := foldlM_spelledAll hs ⟨line, column, []⟩ os
    rw [List.foldlM_cons]
    show (ls ++ [DatumLexeme.closing line' column']).foldlM take
      ⟨⟨line, column, []⟩ :: os, none⟩ = _
    rw [List.foldlM_append, hinner]
    rfl

theorem foldlM_spelledAll {ls : List DatumLexeme} {ds : List Datum} (h : SpelledAll ls ds)
    (o : OpenList) (os : List OpenList) :
    ls.foldlM take ⟨o :: os, none⟩ = .ok ⟨{ o with items := o.items ++ ds } :: os, none⟩ := by
  match h with
  | .nil => simp [pure, Except.pure]
  | @SpelledAll.cons ls ms d _ h hs =>
    rw [List.foldlM_append, foldlM_spelled h (o :: os)]
    show ms.foldlM take ⟨{ o with items := o.items ++ [d] } :: os, none⟩ = _
    rw [foldlM_spelledAll hs]
    simp

end

theorem foldlM_leavesOpen {ls : List DatumLexeme} {os : List OpenList} (h : LeavesOpen ls os) :
    ls.foldlM take {} = .ok ⟨os, none⟩ := by
  induction h with
  | nil => rfl
  | @opening ls ms os line column items _ hs ih =>
    rw [List.foldlM_append, ih]
    show ms.foldlM take ⟨⟨line, column, []⟩ :: os, none⟩ = _
    rw [foldlM_spelledAll hs]
    rfl

end DatumReader

namespace Datum

open DatumReader (foldlM_spelled foldlM_leavesOpen)

/-- **The data that are read are those of the grammar.** -/
theorem read_eq_ok_iff_spelled {text : String} {d : Datum} :
    Datum.read text = .ok d ↔ Spelled (lexDatum text) d := by
  constructor
  · intro h
    obtain ⟨r, hrun, hfinish⟩ := exists_of_bind_eq_ok h
    exact ((DatumReader.Reached.underway .nil).run.1 r hrun).finish.1 d hfinish
  · intro h
    unfold Datum.read
    rw [foldlM_spelled h []]
    rfl

/-- **What is refused is refused for one of the four reasons.** -/
theorem read_eq_error_iff_refused {text : String} {f : ReadFault} :
    Datum.read text = .error f ↔ Refused (lexDatum text) f := by
  constructor
  · intro h
    have hstart : DatumReader.Reached [] {} := .underway .nil
    rcases of_bind_eq_error h with hrun | ⟨r, hrun, hfinish⟩
    · exact hstart.run.2 f hrun
    · exact (hstart.run.1 r hrun).finish.2 f hfinish
  · intro h
    unfold Datum.read
    generalize lexDatum text = ls at h
    cases h with
    | empty => rfl
    | behind hd l rest =>
      rw [List.foldlM_append, foldlM_spelled hd []]
      rfl
    | unopened line column rest => rfl
    | unclosed hopen =>
      rw [foldlM_leavesOpen hopen]
      rfl

theorem Refused.malformedDatum {ls : List DatumLexeme} {f : ReadFault} (h : Refused ls f) :
    ∃ m, f = .misreading m ∧ m.cause.toClass = .malformedDatum := by
  cases h with
  | empty => exact ⟨_, rfl, rfl⟩
  | behind hd l rest => exact ⟨_, rfl, rfl⟩
  | unopened line column rest => exact ⟨_, rfl, rfl⟩
  | unclosed hopen => exact ⟨_, rfl, rfl⟩

end Datum

/-- **A text is read as the one datum it spells.**  It is read just when its pieces
follow the grammar, and what is read is the tree of the derivation: every part
of it has the place of its first piece.  Any other text is refused as a
malformed datum, for the reason that fits it.  Every piece stands at its
place in the text. -/
theorem Datum.read_iff_spelled_or_refused (text : String) :
    (∀ d, Datum.read text = .ok d ↔ Datum.Spelled (lexDatum text) d)
      ∧ (∀ f, Datum.read text = .error f ↔ Datum.Refused (lexDatum text) f)
      ∧ (∀ f, Datum.read text = .error f →
        ∃ m, f = .misreading m ∧ m.cause.toClass = .malformedDatum)
      ∧ (∀ d e, Datum.read text = .ok d → e.PartOf d → ∃ xs l ms ys,
        lexDatum text = xs ++ l :: ms ++ ys ∧ Datum.Spelled (l :: ms) e
        ∧ e.line = l.line ∧ e.column = l.column)
      ∧ ∀ l ∈ lexDatum text, ∃ (n : Nat) (cs before after : List Char),
        (lines text.toList)[n]? = some cs ∧ l.source.Inside ⟨cs, n + 1, 1⟩ before after := by
  refine ⟨fun d => Datum.read_eq_ok_iff_spelled, fun f => Datum.read_eq_error_iff_refused,
    fun f hf => (Datum.read_eq_error_iff_refused.mp hf).malformedDatum,
    fun d e hd hpart => Datum.Spelled.exists_part hpart (Datum.read_eq_ok_iff_spelled.mp hd),
    fun l hl => ?_⟩
  obtain ⟨n, cs, before, after, hcs, hin⟩ := exists_inside_of_mem_lexDatumLines hl
  refine ⟨n, cs, before, after, hcs, ?_⟩
  rwa [Int.add_comm]

end LeadSheet
