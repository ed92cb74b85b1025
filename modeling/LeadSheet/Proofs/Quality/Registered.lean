import LeadSheet.Proofs.Quality.Longest
import LeadSheet.Proofs.Reading.Place
import LeadSheet.Quality.Standard

/-!
# Registering qualities

Registering a quality fails just when one of its symbols belongs to a quality of
another name (`Table.registerAs_eq_error_iff`).  Otherwise its symbols are found
to be its own and all others are found as before (`Table.find?_registerAs`).

So a table that was made of a list and had qualities registered one after the
other finds the latest quality that has a symbol: `Table.lookups_of_registerAll`.
-/

namespace LeadSheet

namespace Table

variable {t t' : Table} {q : Quality} {variantOf : Option String}

/-! ### One quality -/

theorem conflict?_eq_none_iff :
    t.conflict? q = none ↔ ∀ s ∈ q.symbols, ∀ r, t.find? s = some r → r.name = q.name := by
  unfold conflict?
  rw [List.findSome?_eq_none_iff]
  refine forall₂_congr fun s _ => ?_
  cases t.find? s with
  | none => simp
  | some holder => simp

theorem register_eq_ok (h : t.register q = .ok t') :
    t'.qualities = t.qualities ++ [q] ∧ t'.minorVariants = t.minorVariants := by
  unfold register at h
  split at h
  · cases h
  · cases h
    exact ⟨rfl, rfl⟩

theorem exists_register_iff : (∃ t', t.register q = .ok t') ↔ t.conflict? q = none := by
  unfold register
  split
  · rename_i c hc
    simp [hc]
  · rename_i hc
    simp [hc]

theorem qualities_registerAs (h : t.registerAs q variantOf = .ok t') :
    t'.qualities = t.qualities ++ [q] := by
  cases variantOf with
  | none => exact (register_eq_ok h).1
  | some name => exact (register_eq_ok (t := t.withMinorVariant name q.name) h).1

/-- **The symbols of a quality that is registered are its own, and all others
are found as before.** -/
theorem find?_registerAs (h : t.registerAs q variantOf = .ok t') (s : String) :
    t'.find? s = if s ∈ q.symbols then some q else t.find? s := by
  unfold find?
  rw [qualities_registerAs h, List.reverse_append, List.reverse_singleton, List.singleton_append,
    List.find?_cons]
  by_cases hs : s ∈ q.symbols
  · simp [hs]
  · simp [hs]

/-- **A quality is refused just when one of its symbols belongs to a quality of
another name.** -/
theorem registerAs_eq_error_iff : (∃ c, t.registerAs q variantOf = .error c)
    ↔ ∃ s ∈ q.symbols, ∃ r, t.find? s = some r ∧ r.name ≠ q.name := by
  have hregister : ∀ u : Table, (∀ s, u.find? s = t.find? s) →
      ((∃ c, u.register q = .error c)
        ↔ ∃ s ∈ q.symbols, ∃ r, t.find? s = some r ∧ r.name ≠ q.name) := by
    intro u hu
    rw [exists_eq_error_iff, exists_register_iff, conflict?_eq_none_iff]
    simp only [hu]
    push Not
    rfl
  cases variantOf with
  | none => exact hregister t fun _ => rfl
  | some name => exact hregister (t.withMinorVariant name q.name) fun _ => rfl

/-! ### One quality after the other -/

/-- Registers qualities, each as the minor variant of another if one is
named. -/
def registerAll (t : Table) (rs : List (Quality × Option String)) : Except Conflict Table :=
  rs.foldlM (fun t r => t.registerAs r.1 r.2) t

theorem qualities_registerAll : ∀ {rs : List (Quality × Option String)} {t : Table},
    t.registerAll rs = .ok t' → t'.qualities = t.qualities ++ rs.map Prod.fst := by
  intro rs
  induction rs with
  | nil =>
    intro t h
    cases h
    exact (List.append_nil _).symm
  | cons r rs ih =>
    intro t h
    obtain ⟨u, hu, h⟩ := exists_of_bind_eq_ok h
    rw [ih h, qualities_registerAs hu, List.append_assoc, List.map_cons, List.singleton_append]

theorem ofList_eq_registerAll (qs : List Quality) (variants : List (String × String)) :
    ofList qs variants = (empty variants).registerAll (qs.map fun q => (q, none)) := by
  unfold ofList registerAll
  rw [List.foldlM_map]
  rfl

theorem qualities_ofList {qs : List Quality} {variants : List (String × String)}
    (h : ofList qs variants = .ok t) : t.qualities = qs := by
  rw [ofList_eq_registerAll] at h
  rw [qualities_registerAll h, List.map_map]
  exact (List.nil_append _).trans (List.map_id _)

theorem foldlM_register : ∀ {qs : List Quality} {u t : Table}, u.minorVariants = t.minorVariants →
    t.qualities = u.qualities ++ qs → qs.foldlM register u = .ok t := by
  intro qs
  induction qs with
  | nil =>
    intro ⟨us, uvariants, hu⟩ ⟨ts, tvariants, ht⟩ hvariants hqualities
    obtain rfl : ts = us := hqualities.trans (List.append_nil us)
    obtain rfl : uvariants = tvariants := hvariants
    rfl
  | cons q qs ih =>
    intro u t hvariants hqualities
    have hold : ∀ r ∈ u.qualities, r ∈ t.qualities := fun r hr => by
      rw [hqualities]
      exact List.mem_append_left _ hr
    have hnew : q ∈ t.qualities := by
      rw [hqualities]
      exact List.mem_append_right _ (List.mem_cons_self ..)
    have hfree : u.conflict? q = none := conflict?_eq_none_iff.mpr fun s hs r hr =>
      t.consistent r (hold r (find?_mem hr)) q hnew s (find?_symbols hr) hs
    obtain ⟨u', hu'⟩ := exists_register_iff.mpr hfree
    obtain ⟨hqualities', hvariants'⟩ := register_eq_ok hu'
    rw [List.foldlM_cons, hu', ok_bind]
    refine ih (hvariants'.trans hvariants) ?_
    rw [hqualities, hqualities', List.append_assoc, List.singleton_append]

theorem ofList_self (t : Table) : ofList t.qualities t.minorVariants = .ok t :=
  foldlM_register rfl rfl

/-- **A table stays consistent however many qualities are registered.**  A
symbol is that of the latest quality that has it.  A further quality is refused
just when one of its symbols belongs to a quality of another name; otherwise its
symbols become its own, and every other one is found, or not, as before.  What
is read at a place of a text is the longest symbol there, the empty one if there
is no other, with the place behind it. -/
theorem lookups_of_registerAll {qs : List Quality} {variants : List (String × String)}
    {rs : List (Quality × Option String)} {t₀ t : Table} (hlist : ofList qs variants = .ok t₀)
    (hrs : t₀.registerAll rs = .ok t) :
    (∀ s, t.find? s = (qs ++ rs.map Prod.fst).reverse.find? fun q => decide (s ∈ q.symbols))
      ∧ (∀ q variantOf, (∃ c, t.registerAs q variantOf = .error c)
          ↔ ∃ s ∈ q.symbols, ∃ r, t.find? s = some r ∧ r.name ≠ q.name)
      ∧ (∀ q variantOf t', t.registerAs q variantOf = .ok t' →
          ∀ s, t'.find? s = if s ∈ q.symbols then some q else t.find? s)
      ∧ (∀ (cs : List Char) (start : Nat) (q : Quality) (finish : Int),
          t.takeAt? cs start = some (q, finish)
            ↔ ∃ s, t.Longest (cs.drop start) s q ∧ finish = start + s.length)
      ∧ ∀ cs, (∃ s q, t.Longest cs s q) ↔ ∃ s ∈ t.symbols, s.toList <+: cs := by
  refine ⟨fun s => ?_, fun q variantOf => registerAs_eq_error_iff,
    fun q variantOf t' h => find?_registerAs h, fun cs start q finish => takeAt?_eq_some_iff,
    fun cs => exists_longest_iff⟩
  rw [find?, qualities_registerAll hrs, qualities_ofList hlist]

/-- A quality takes the place of an older one of its name, which keeps the
symbol that the new one lacks; a third one may not have that. -/
theorem lookups_of_registerAll_quartal :
    ∃ t : Table, ofList Quality.standard Quality.standardMinorVariants = .ok standard
      ∧ standard.registerAll
          [({ name := "quartal", symbol := "q4", intervals := [0, 5, 10] }, none),
            ({ name := "quartal", symbol := "q", intervals := [0, 5, 10, 15] }, some "suspended4")]
        = .ok t
      ∧ (t.find? "q4").map Quality.intervals = some [0, 5, 10]
      ∧ (t.find? "q").map Quality.intervals = some [0, 5, 10, 15]
      ∧ (t.find? "7sus4").map Quality.name = some "dominant7sus4"
      ∧ (∃ c, t.registerAs { name := "other", symbol := "o4", intervals := [0], aliases := ["q4"] }
          none = .error c) := by
  have hrun : (standard.registerAll
      [({ name := "quartal", symbol := "q4", intervals := [0, 5, 10] }, none),
        ({ name := "quartal", symbol := "q", intervals := [0, 5, 10, 15] },
          some "suspended4")]).toOption.isSome = true := by
    decide +kernel
  obtain ⟨t, ht⟩ := Option.isSome_iff_exists.mp hrun
  have ht := eq_ok_of_toOption ht
  have hlist : ofList Quality.standard Quality.standardMinorVariants = .ok standard :=
    standard.ofList_self
  obtain ⟨hfind, hrefused, -⟩ := lookups_of_registerAll hlist ht
  refine ⟨t, hlist, ht, ?_, ?_, ?_, (hrefused _ _).mpr ⟨"q4", by decide, _, hfind "q4", by decide⟩⟩
  · rw [hfind]
    decide +kernel
  · rw [hfind]
    decide +kernel
  · rw [hfind]
    decide +kernel

end Table

end LeadSheet
