import LeadSheet.Proofs.Text.Ends
import LeadSheet.Text.Path
import LeadSheet.Text.Prefix
import Mathlib.Data.List.Infix

/-!
# Paths and names

Relations for what is done with paths, apart from how it is done: a path without
the parts that say nothing (`Path.Plain`), and one with another suffix
(`Path.Renamed`).  A path is slashes in front of parts (`Path.Root`,
`Path.Parts`), and a name is a stem that a suffix may follow (`Path.Stem`).

Whether the lower case of a name ends in a word of ASCII is seen from the end of
the name itself (`suffix_lower_iff`).  Only `i` and `k` come from other letters
too, and of these the first is not alone then.
-/

namespace LeadSheet.Path

/-! ### Parts of a path -/

/-- **The parts of a path**: what stands between its slashes, apart from nothing and
single points. -/
def Parts (path : List Char) (parts : List (List Char)) : Prop :=
  ∃ pieces, pieces ≠ [] ∧ (∀ piece ∈ pieces, '/' ∉ piece)
    ∧ path = List.intercalate ['/'] pieces
    ∧ parts = pieces.filter fun piece => piece ≠ [] ∧ piece ≠ ['.']

/-- **The slashes in front of a path**: any number of them is one, save that two are
two. -/
def Root (path root : List Char) : Prop :=
  ∃ count rest, path = List.replicate count '/' ++ rest ∧ rest.head? ≠ some '/'
    ∧ root = List.replicate (if count = 2 then 2 else min count 1) '/'

theorem notMem_of_mem_splitOn {c : Char} {cs piece : List Char} (h : piece ∈ cs.splitOn c) :
    c ∉ piece := by
  induction cs generalizing piece with
  | nil =>
    rw [List.splitOn_nil, List.mem_singleton] at h
    simp [h]
  | cons d cs ih =>
    rw [List.splitOn_cons_eq_if_modifyHead] at h
    split at h
    · rcases List.mem_cons.mp h with rfl | h
      · exact List.not_mem_nil
      · exact ih h
    · rename_i hd
      obtain ⟨first, more, hsplit⟩ := List.exists_cons_of_ne_nil (List.splitOn_ne_nil c cs)
      rw [hsplit, List.modifyHead_cons] at h
      rcases List.mem_cons.mp h with rfl | h
      · have hfirst : c ∉ first := ih (by rw [hsplit]; exact List.mem_cons_self ..)
        simpa [hfirst] using fun hc => hd (by simp [hc])
      · refine ih ?_
        rw [hsplit]
        exact List.mem_cons_of_mem _ h

theorem pathParts_eq_iff {path : List Char} {parts : List (List Char)} :
    pathParts path = parts ↔ Parts path parts := by
  have hsame : ∀ pieces : List (List Char),
      (pieces.filter fun part => !part.isEmpty && part ≠ ['.'])
        = pieces.filter fun piece => piece ≠ [] ∧ piece ≠ ['.'] := by
    intro pieces
    refine List.filter_congr fun piece _ => ?_
    cases piece <;> simp
  unfold pathParts
  rw [hsame]
  constructor
  · rintro rfl
    exact ⟨_, List.splitOn_ne_nil '/' path, fun _ => notMem_of_mem_splitOn,
      (List.intercalate_splitOn '/').symm, rfl⟩
  · rintro ⟨pieces, hne, hslash, rfl, rfl⟩
    rw [List.splitOn_intercalate '/' hslash hne]

theorem ne_nil_of_mem_pathParts {path part : List Char} (h : part ∈ pathParts path) :
    part ≠ [] := by
  have hpart := (List.mem_filter.mp h).2
  rintro rfl
  simp at hpart

theorem exists_replicate_append (path : List Char) :
    ∃ count rest, path = List.replicate count '/' ++ rest ∧ rest.head? ≠ some '/' := by
  induction path with
  | nil => exact ⟨0, [], rfl, nofun⟩
  | cons c path ih =>
    by_cases hc : c = '/'
    · obtain ⟨count, rest, rfl, hrest⟩ := ih
      exact ⟨count + 1, rest, by rw [hc, List.replicate_succ, List.cons_append], hrest⟩
    · exact ⟨0, c :: path, rfl, by simpa using hc⟩

theorem pathRoot_replicate_append (count : Nat) {rest : List Char} (h : rest.head? ≠ some '/') :
    pathRoot (List.replicate count '/' ++ rest)
      = List.replicate (if count = 2 then 2 else min count 1) '/' := by
  have hrest : ∀ c cs, rest = c :: cs → c ≠ '/' := by
    rintro c cs rfl rfl
    exact h rfl
  match count with
  | 0 | 1 | 2 =>
    cases rest with
    | nil => rfl
    | cons c cs =>
      have hc := hrest c cs rfl
      simp [pathRoot, hc]
  | count + 3 =>
    have hmin : min (count + 3) 1 = 1 := by omega
    rw [if_neg (by omega), hmin]
    rfl

theorem pathRoot_eq_iff {path root : List Char} : pathRoot path = root ↔ Root path root := by
  constructor
  · rintro rfl
    obtain ⟨count, rest, rfl, hrest⟩ := exists_replicate_append path
    exact ⟨count, rest, rfl, hrest, pathRoot_replicate_append count hrest⟩
  · rintro ⟨count, rest, rfl, hrest, rfl⟩
    exact pathRoot_replicate_append count hrest

/-! ### Plain paths -/

/-- **A path without what says nothing**: its parts with a slash between any two of
them, or a point if nothing is left. -/
def Plain (path plain : String) : Prop :=
  ∃ root parts, Root path.toList root ∧ Parts path.toList parts
    ∧ if root = [] ∧ parts = [] then plain = "." else
      plain = String.ofList (root ++ List.intercalate ['/'] parts)

theorem intercalate_eq_nil_iff {parts : List (List Char)} (h : ∀ part ∈ parts, part ≠ []) :
    List.intercalate ['/'] parts = [] ↔ parts = [] := by
  match parts with
  | [] => simp
  | [part] => simpa using h part (List.mem_singleton_self part)
  | part :: part' :: parts => simp [List.intercalate_cons_cons]

theorem plainPath_eq_iff {path plain : String} : plainPath path = plain ↔ Plain path plain := by
  have hempty : (pathRoot path.toList ++ List.intercalate ['/'] (pathParts path.toList)).isEmpty
      = true ↔ pathRoot path.toList = [] ∧ pathParts path.toList = [] := by
    rw [List.isEmpty_iff, List.append_eq_nil_iff,
      intercalate_eq_nil_iff fun _ => ne_nil_of_mem_pathParts]
  unfold Plain plainPath joinPath
  simp only [← pathRoot_eq_iff, ← pathParts_eq_iff, exists_and_left, exists_eq_left', hempty]
  split
  · exact eq_comm
  · exact eq_comm

/-! ### Suffixes -/

/-- **A name without its suffix**, which is what the last point starts; a point at
either end of the name starts none. -/
inductive Stem (name : List Char) : List Char → Prop
  | suffixed {stem behind : List Char} (hname : name = stem ++ '.' :: behind)
      (hlast : '.' ∉ behind) (hstem : stem ≠ []) (hbehind : behind ≠ []) : Stem name stem
  | whole (h : ∀ before behind, name = before ++ '.' :: behind → '.' ∉ behind →
      before = [] ∨ behind = []) : Stem name name

/-- **A path whose last name has another suffix.** -/
def Renamed (path ending renamed : String) : Prop :=
  ∃ root parts, Root path.toList root ∧ Parts path.toList parts
    ∧ (parts = [] → renamed = path)
    ∧ ∀ before name, parts = before ++ [name] → ∃ stem, Stem name stem
      ∧ renamed = String.ofList
        (root ++ List.intercalate ['/'] (before ++ [stem ++ ending.toList]))

theorem splitPoint_append {before behind : List Char} (h : '.' ∉ behind) :
    splitPoint (before ++ '.' :: behind) = some (before, behind) := by
  have hbehind : (before ++ '.' :: behind).reverse.takeWhile (· ≠ '.') = behind.reverse := by
    rw [List.reverse_append, List.reverse_cons, List.append_assoc]
    refine Text.takeWhile_append_stop (fun c hc => ?_) ?_
    · have hne : c ≠ '.' := fun he => h (he ▸ List.mem_reverse.mp hc)
      simpa using hne
    · simp
  have hlength : (before ++ '.' :: behind).length = before.length + (behind.length + 1) := by simp
  unfold splitPoint
  simp only [hbehind, List.length_reverse, hlength, List.reverse_reverse]
  rw [if_neg (by omega), show before.length + (behind.length + 1) - behind.length - 1
    = before.length by omega, List.take_left]

theorem splitPoint_of_notMem {cs : List Char} (h : '.' ∉ cs) : splitPoint cs = none := by
  have hall : cs.reverse.takeWhile (· ≠ '.') = cs.reverse := by
    refine List.takeWhile_eq_self_iff.mpr fun c hc => ?_
    have hne : c ≠ '.' := fun he => h (he ▸ List.mem_reverse.mp hc)
    simpa using hne
  unfold splitPoint
  simp only [hall, List.length_reverse, if_true]

theorem exists_last_point {cs : List Char} (h : '.' ∈ cs) :
    ∃ before behind, cs = before ++ '.' :: behind ∧ '.' ∉ behind := by
  obtain ⟨as, bs, hcs, has⟩ := List.eq_append_cons_of_mem (List.mem_reverse.mpr h)
  refine ⟨bs.reverse, as.reverse, ?_, by simpa using has⟩
  rw [← List.reverse_reverse cs, hcs]
  simp

theorem stem_eq_iff {name stem : List Char} : LeadSheet.stem name = stem ↔ Stem name stem := by
  have hright : ∀ {stem}, Stem name stem → LeadSheet.stem name = stem := by
    intro stem h
    cases h with
    | suffixed hname hlast hstem hbehind =>
      unfold LeadSheet.stem
      rw [hname, splitPoint_append hlast]
      simp [hstem, hbehind]
    | whole h =>
      unfold LeadSheet.stem
      by_cases hpoint : '.' ∈ name
      · obtain ⟨before, behind, hname, hlast⟩ := exists_last_point hpoint
        rw [hname, splitPoint_append hlast, ← hname]
        rcases h before behind hname hlast with rfl | rfl <;> simp
      · rw [splitPoint_of_notMem hpoint]
  refine ⟨?_, hright⟩
  rintro rfl
  by_cases hpoint : ∃ before behind, name = before ++ '.' :: behind ∧ '.' ∉ behind
    ∧ before ≠ [] ∧ behind ≠ []
  · obtain ⟨before, behind, hname, hlast, hbefore, hbehind⟩ := hpoint
    have hstem : Stem name before := .suffixed hname hlast hbefore hbehind
    rw [hright hstem]
    exact hstem
  · have hstem : Stem name name := .whole fun before behind hname hlast => by
      by_contra hboth
      exact hpoint ⟨before, behind, hname, hlast, by tauto, by tauto⟩
    rw [hright hstem]
    exact hstem

theorem withSuffix_eq_iff {path ending renamed : String} (hending : ending ≠ "") :
    withSuffix path ending = renamed ↔ Renamed path ending renamed := by
  have hne : ending.toList ≠ [] := fun h => hending (String.toList_eq_nil_iff.mp h)
  unfold Renamed withSuffix joinPath
  simp only [← pathRoot_eq_iff, ← pathParts_eq_iff, ← stem_eq_iff, exists_eq_left', exists_and_left]
  rcases List.eq_nil_or_concat (pathParts path.toList) with hparts | ⟨before, name, hparts⟩
  · simp only [hparts]
    exact ⟨fun h => ⟨fun _ => h.symm, fun before name h => by simp at h⟩, fun h => (h.1 trivial).symm⟩
  · rw [List.concat_eq_append] at hparts
    have hspelled : ∀ before' : List (List Char),
        (pathRoot path.toList ++ List.intercalate ['/'] (before' ++ [stem name ++ ending.toList])).isEmpty
          = false := by
      intro before'
      cases before' with
      | nil => simp [hne]
      | cons part before' => cases before' <;> simp [List.intercalate_cons_cons]
    simp only [hparts, List.getLast?_concat, List.dropLast_concat, hspelled, Bool.false_eq_true,
      if_false]
    refine ⟨fun h => ⟨fun hnil => by simp at hnil, fun before' name' hsame => ?_⟩,
      fun h => (h.2 before name rfl).symm⟩
    obtain ⟨rfl, hname⟩ := List.append_inj' hsame rfl
    obtain rfl := (List.cons.inj hname).1
    exact h.symm

end LeadSheet.Path

namespace LeadSheet.Text

/-! ### Endings in any case -/

/-- A character of ASCII that no other letter has for its lower case: none behind `z`,
and not `k`, which the sign of the kelvin has. -/
def IsOwnLower (c : Char) : Prop :=
  c.toNat ≠ 0 ∧ c.toNat ≠ 0x6B ∧ c.toNat ≤ 0x7A

instance : DecidablePred IsOwnLower := fun _ => inferInstanceAs (Decidable (_ ∧ _ ∧ _))

/-- **A text that ends in a word, in capital or small letters.** -/
def EndsInAnyCase (cs word : List Char) : Prop :=
  ∃ ending, ending <:+ cs ∧ ending.map Char.toLower = word

theorem toLower_of_le {c : Char} (h : 0x80 ≤ c.toNat) : c.toLower = c := by
  refine dif_neg fun hupper => ?_
  have hle : c.toNat ≤ 0x5A := UInt32.le_iff_toNat_le.mp hupper.2
  omega

theorem eq_toNat_of_ofNat_eq {n : Nat} {c : Char} (h : Char.ofNat n = c) (hc : c.toNat ≠ 0) :
    n = c.toNat := by
  by_cases hn : n.isValidChar
  · rw [Char.ofNat, dif_pos hn] at h
    exact h ▸ rfl
  · rw [Char.ofNat, dif_neg hn] at h
    exact absurd (h ▸ rfl) hc

theorem behind_or_kelvin_of_mem_caseRuns : ∀ run ∈ caseRuns, 0x80 ≤ run.last →
    0x7A < run.first + run.shift ∨ run.first = run.last ∧ run.first + run.shift = 0x6B :=
  forall_mem_of_all (by decide +kernel)

theorem lowerChar_eq_iff {c d : Char} (hd : IsOwnLower d) : lowerChar c = d ↔ c.toLower = d := by
  obtain ⟨hzero, hk, hz⟩ := hd
  unfold lowerChar
  split
  · exact Iff.rfl
  · rename_i hc
    rw [toLower_of_le (Nat.not_lt.mp hc)]
    have hne : c ≠ d := by
      rintro rfl
      omega
    split
    · rename_i run hrun
      have hmem := List.mem_of_find?_eq_some hrun
      have hwithin := List.find?_some hrun
      simp only [Bool.and_eq_true, decide_eq_true_eq] at hwithin
      refine iff_of_false (fun h => ?_) hne
      have hnat := eq_toNat_of_ofNat_eq h hzero
      have hshift := behind_or_kelvin_of_mem_caseRuns run hmem (by omega)
      omega
    · exact iff_of_false hne hne

/-- Two letters become something else than the table says, and nothing that is of
ASCII at the end. -/
theorem exists_lowerAfter_cons (before : List Char) (c : Char) (cs : List Char) :
    ∃ others last, lowerAfter before (c :: cs) = others ++ last :: lowerAfter (c :: before) cs
      ∧ (others = [] ∧ last = lowerChar c ∨ ¬IsOwnLower last ∧ 0x80 ≤ c.toNat) := by
  rw [lowerAfter]
  split
  · exact ⟨['i'], Char.ofNat 0x307, rfl, .inr ⟨by decide, by omega⟩⟩
  · split
    · refine ⟨[], _, rfl, .inr ⟨?_, by omega⟩⟩
      split <;> decide
    · exact ⟨[], _, rfl, .inl ⟨rfl, rfl⟩⟩

section

variable {word : List Char} (h : ∀ c ∈ word, IsOwnLower c)
include h

theorem lowerAfter_eq_iff {before cs : List Char} :
    lowerAfter before cs = word ↔ cs.map Char.toLower = word := by
  induction cs generalizing before word with
  | nil => exact Iff.rfl
  | cons c cs ih =>
    obtain ⟨others, last, hcons, ⟨rfl, rfl⟩ | ⟨hlast, hc⟩⟩ := exists_lowerAfter_cons before c cs
    · rw [hcons, List.nil_append, List.map_cons]
      cases word with
      | nil => simp
      | cons d word =>
        rw [List.cons.injEq, List.cons.injEq, lowerChar_eq_iff (h d (List.mem_cons_self ..)),
          ih fun c hc => h c (List.mem_cons_of_mem _ hc)]
    · rw [hcons, List.map_cons, toLower_of_le hc]
      refine iff_of_false ?_ ?_
      · rintro rfl
        exact hlast (h last (by simp))
      · rintro rfl
        have hz := (h c (List.mem_cons_self ..)).2.2
        omega

theorem suffix_lowerAfter_iff {before cs : List Char} :
    word <:+ lowerAfter before cs ↔ EndsInAnyCase cs word := by
  induction cs generalizing before with
  | nil =>
    constructor
    · intro hnil
      rw [lowerAfter, List.suffix_nil] at hnil
      exact ⟨[], List.suffix_rfl, hnil.symm⟩
    · rintro ⟨ending, hending, rfl⟩
      rw [List.suffix_nil.mp hending]
      exact List.suffix_rfl
  | cons c cs ih =>
    obtain ⟨others, last, hcons, hlast⟩ := exists_lowerAfter_cons before c cs
    constructor
    · intro hword
      -- a word that is longer than what follows is all of it, since `last` is in it then
      have hends : word = lowerAfter before (c :: cs) ∨ word <:+ lowerAfter (c :: before) cs := by
        rcases hlast with ⟨rfl, -⟩ | ⟨hlast, -⟩
        · rw [hcons] at hword ⊢
          exact List.suffix_cons_iff.mp hword
        · rw [hcons] at hword
          rcases List.suffix_or_suffix_of_suffix hword (List.suffix_append others _) with hin | hout
          · rcases List.suffix_cons_iff.mp hin with rfl | hin
            · exact absurd (h last (List.mem_cons_self ..)) hlast
            · exact .inr hin
          · exact absurd (h last (hout.subset (List.mem_cons_self ..))) hlast
      rcases hends with hall | hends
      · exact ⟨c :: cs, List.suffix_rfl, (lowerAfter_eq_iff h).mp hall.symm⟩
      · obtain ⟨ending, hending, hmap⟩ := ih.mp hends
        exact ⟨ending, hending.trans (List.suffix_cons c cs), hmap⟩
    · rintro ⟨ending, hending, hmap⟩
      rcases List.suffix_cons_iff.mp hending with rfl | hending
      · exact (lowerAfter_eq_iff h).mpr hmap ▸ List.suffix_rfl
      · rw [hcons]
        exact (ih.mpr ⟨ending, hending, hmap⟩).trans
          ((List.suffix_cons last _).trans (List.suffix_append others _))

theorem suffix_lower_iff {cs : List Char} : word <:+ lower cs ↔ EndsInAnyCase cs word :=
  suffix_lowerAfter_iff h

end

end LeadSheet.Text
