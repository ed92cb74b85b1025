import LeadSheet.Proofs.Datum.Nesting

/-!
# The atoms of data

Reading a datum makes no atom of its own: what holds of every atom among the
pieces of a text holds of every atom of the datum that is read
(`Datum.all_of_read`), and of those of its measures (`Datum.all_of_measures`).
-/

namespace LeadSheet

/-- Every atom of a datum is of a kind. -/
def Datum.All (P : Source → Prop) (d : Datum) : Prop :=
  ∀ s, d.Contains s → P s

variable {P : Source → Prop}

theorem Datum.all_list {line column : Int} {items : List Datum} :
    (Datum.list line column items).All P ↔ ∀ d ∈ items, d.All P := by
  constructor
  · intro h d hd s hs
    exact h s (.item hd hs)
  · intro h s hs
    cases hs with
    | item hd hs => exact h _ hd s hs

theorem Datum.all_of_measures {d : Datum} (h : d.All P) {ds : List Datum}
    (hds : d.measures = .ok ds) : ∀ m ∈ ds, m.All P := by
  cases d with
  | atom s => cases hds
  | list line column items =>
    simp only [measures] at hds
    split at hds
    · obtain rfl := Except.ok.inj hds
      exact fun m hm => all_list.mp h m (List.mem_of_mem_tail hm)
    · cases hds

structure DatumReader.All (P : Source → Prop) (r : DatumReader) : Prop where
  items : ∀ o ∈ r.openLists, ∀ d ∈ o.items, d.All P
  result : ∀ d ∈ r.result, d.All P

namespace DatumReader

theorem all_add {os : List OpenList} {d : Datum} (hos : ∀ o ∈ os, ∀ d ∈ o.items, d.All P)
    (hd : d.All P) : (add os d).All P := by
  cases os with
  | nil =>
    refine ⟨fun o ho => absurd ho List.not_mem_nil, fun e he => ?_⟩
    obtain rfl : d = e := Option.some.inj he
    exact hd
  | cons o os =>
    refine ⟨fun o' ho' => ?_, fun e he => absurd he (Option.not_mem_none e)⟩
    rcases List.mem_cons.mp ho' with rfl | ho'
    · intro e he
      rcases List.mem_append.mp he with he | he
      · exact hos o (List.mem_cons_self ..) e he
      · obtain rfl : e = d := List.mem_singleton.mp he
        exact hd
    · exact hos o' (List.mem_cons_of_mem o ho')

theorem all_take {r r' : DatumReader} (h : r.All P) {l : DatumLexeme}
    (hl : ∀ s, l = .atom s → P s) (htake : r.take l = .ok r') : r'.All P := by
  unfold take at htake
  split at htake
  · cases htake
  · split at htake
    · obtain rfl := Except.ok.inj htake
      refine ⟨fun o ho => ?_, fun d hd => absurd hd (Option.not_mem_none d)⟩
      rcases List.mem_cons.mp ho with rfl | ho
      · exact fun d hd => absurd hd List.not_mem_nil
      · exact h.items o ho
    · split at htake
      · cases htake
      · rename_i o os hopen
        obtain rfl := Except.ok.inj htake
        have hall : ∀ o' ∈ o :: os, ∀ d ∈ o'.items, d.All P := hopen ▸ h.items
        exact all_add (fun o' ho' => hall o' (List.mem_cons_of_mem o ho'))
          (Datum.all_list.mpr (hall o (List.mem_cons_self ..)))
    · obtain rfl := Except.ok.inj htake
      refine all_add h.items fun s hs => ?_
      cases hs
      exact hl _ rfl

theorem all_foldlM {ls : List DatumLexeme} : ∀ {r r' : DatumReader}, r.All P →
    (∀ s, .atom s ∈ ls → P s) → ls.foldlM take r = .ok r' → r'.All P := by
  induction ls with
  | nil =>
    intro r r' h _ hrun
    cases hrun
    exact h
  | cons l ls ih =>
    intro r r' h hls hrun
    rw [List.foldlM_cons] at hrun
    obtain ⟨r₁, htake, hrest⟩ := exists_of_bind_eq_ok hrun
    have hr₁ : r₁.All P := all_take h (fun s hs => hls s (by rw [hs]; exact List.mem_cons_self ..))
      htake
    exact ih hr₁ (fun s hs => hls s (List.mem_cons_of_mem l hs)) hrest

theorem all_of_finish {r : DatumReader} (h : r.All P) {d : Datum} (hd : r.finish = .ok d) :
    d.All P := by
  unfold finish at hd
  split at hd
  · cases hd
  · rename_i hresult
    obtain rfl := Except.ok.inj hd
    exact h.result _ hresult
  · cases hd

end DatumReader

/-- **Every atom of a datum is one of the pieces of its text.** -/
theorem Datum.all_of_read {text : String} (h : ∀ s, .atom s ∈ lexDatum text → P s) {d : Datum}
    (hd : Datum.read text = .ok d) : d.All P := by
  obtain ⟨r, hrun, hfinish⟩ := exists_of_bind_eq_ok hd
  have hstart : DatumReader.All P {} :=
    ⟨fun o ho => absurd ho List.not_mem_nil, fun d hd => absurd hd (Option.not_mem_none d)⟩
  exact DatumReader.all_of_finish (DatumReader.all_foldlM hstart h hrun) hfinish

end LeadSheet
