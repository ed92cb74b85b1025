import LeadSheet.Proofs.Reading.ItemForm
import LeadSheet.Proofs.Reading.Total
import LeadSheet.Proofs.Writing.Chord

/-!
# The grammar of chord symbols

A chord symbol is a root, the symbol of a quality, items directly behind it,
groups of items and a bass (`SymbolParts`).  `Chord.Parse` says when these are
the parts of a text and which chord they make: the root and the symbol are the
longest ones, what stands in front of the groups holds no character that opens
one, and a group ends at the first character that closes it.

`Chord.read_eq_ok_iff`: a text is read as a chord just when it has parts that
make it, and no text has parts in two ways.
-/

namespace LeadSheet

open Text

/-! ### Groups -/

/-- The text of a group: items between commas, blanks around them allowed, up to
the first character that closes it. -/
inductive Extension.GroupForm : List Char → List Extension → Prop
  | group {opener closer : Char} (h : (opener, closer) ∈ [('(', ')'), ('[', ']')])
      {inner : List Char} (hinner : closer ∉ inner) {es : List Extension}
      (hitems : List.Forall₂ GroupedForm ((inner.splitOn ',').map trim) es) :
      GroupForm (opener :: (inner ++ [closer])) es

theorem closerOf?_eq_some_iff {c d : Char} :
    closerOf? c = some d ↔ (c, d) ∈ [('(', ')'), ('[', ']')] := by
  unfold closerOf?
  constructor
  · intro h
    split at h
    · rename_i hc
      subst hc
      obtain rfl := Option.some.inj h
      decide
    · split at h
      · rename_i hc
        subst hc
        obtain rfl := Option.some.inj h
        decide
      · cases h
  · intro h
    simp only [List.mem_cons, Prod.mk.injEq, List.not_mem_nil, or_false] at h
    rcases h with ⟨rfl, rfl⟩ | ⟨rfl, rfl⟩ <;> rfl

theorem notMem_of_splitAt? {c : Char} : ∀ {cs a b : List Char}, splitAt? c cs = some (a, b) →
    c ∉ a := by
  intro cs
  induction cs with
  | nil => intro a b h; cases h
  | cons d cs ih =>
    intro a b h
    rw [splitAt?] at h
    split at h
    · obtain ⟨rfl, -⟩ := Prod.mk.inj (Option.some.inj h)
      exact List.not_mem_nil
    · rename_i hd
      obtain ⟨⟨a', b'⟩, hab, heq⟩ := Option.map_eq_some_iff.mp h
      obtain ⟨rfl, -⟩ := Prod.mk.inj heq
      exact List.not_mem_cons_of_ne_of_not_mem (Ne.symm hd) (ih hab)

theorem map_snd_locateItems : ∀ (pieces : List (List Char)) (start : Nat),
    (locateItems start pieces).map Prod.snd = pieces.map trim := by
  intro pieces
  induction pieces with
  | nil => intro start; rfl
  | cons piece pieces ih =>
    intro start
    rw [locateItems, List.map_cons, List.map_cons, ih]

theorem forms_of_readGroup {s : Source} {start : Nat} {inner : List Char} {es : List Extension}
    (h : readGroup s start inner = .ok es) :
    List.Forall₂ Extension.GroupedForm ((inner.splitOn ',').map trim) es := by
  rw [← map_snd_locateItems (inner.splitOn ',') start, List.forall₂_map_left_iff]
  exact (mapM_eq_ok_iff.mp h).imp fun _ _ => form_of_readItem

/-- **What stands between the ends of a group is read as items just when it has
the form of items.** -/
theorem readGroup_eq_ok_iff (s : Source) (start : Nat) {inner : List Char}
    (hfit : DigitsFit inner) {es : List Extension} : readGroup s start inner = .ok es
      ↔ List.Forall₂ Extension.GroupedForm ((inner.splitOn ',').map trim) es := by
  have hitem : ∀ {r : Nat × List Char} {e : Extension},
      r ∈ locateItems start (inner.splitOn ',') →
        (readItem s r.1 r.2 = .ok e ↔ Extension.GroupedForm r.2 e) := by
    intro r e hr
    obtain ⟨piece, hpiece, heq⟩ := mem_locateItems hr
    refine readItem_eq_ok_iff s r.1 ?_
    rw [heq]
    exact hfit.of_infix ((isInfix_trim piece).trans (infix_of_mem_splitOn hpiece))
  unfold readGroup
  rw [mapM_eq_ok_iff, ← map_snd_locateItems (inner.splitOn ',') start, List.forall₂_map_left_iff,
    List.forall₂_iff_zip, List.forall₂_iff_zip]
  exact and_congr_right fun _ =>
    ⟨fun h r e hre => (hitem (List.of_mem_zip hre).1).mp (h hre),
      fun h r e hre => (hitem (List.of_mem_zip hre).1).mpr (h hre)⟩

theorem mem_trim {c : Char} {cs : List Char} (hc : c ∈ cs) (hblank : isBlank c = false) :
    c ∈ trim cs := by
  have hstart : ∀ {ds}, c ∈ ds → c ∈ trimStart ds := by
    intro ds hd
    rw [← List.takeWhile_append_dropWhile (p := isBlank) (l := ds)] at hd
    rcases List.mem_append.mp hd with hd | hd
    · rw [List.mem_takeWhile_imp hd] at hblank
      cases hblank
    · exact hd
  exact List.mem_reverse.mpr (hstart (List.mem_reverse.mpr (hstart hc)))

theorem isEmpty_trim_of_grouped {inner : List Char} {es : List Extension}
    (h : List.Forall₂ Extension.GroupedForm ((inner.splitOn ',').map trim) es) :
    (trim inner).isEmpty = false := by
  obtain ⟨piece, pieces, hpieces⟩ := List.exists_cons_of_ne_nil (List.splitOn_ne_nil ',' inner)
  have hpiece : piece ∈ inner.splitOn ',' := by
    rw [hpieces]
    exact List.mem_cons_self ..
  rw [hpieces, List.map_cons] at h
  obtain ⟨e, es', he, -, -⟩ := List.forall₂_cons_left_iff.mp h
  obtain ⟨c, hc, hdigit⟩ := he.exists_digit
  have hinner : c ∈ inner :=
    ((isInfix_trim piece).trans (infix_of_mem_splitOn hpiece)).subset hc
  rw [List.isEmpty_eq_false_iff]
  exact List.ne_nil_of_mem (mem_trim hinner (isBlank_of_isDigit hdigit))

theorem forms_of_readGroups {s : Source} {cs rest : List Char} {es : List Extension}
    (h : readGroups s cs = .ok (es, rest)) :
    ∃ gs ess, List.Forall₂ Extension.GroupForm gs ess ∧ cs = gs.flatten ++ rest
      ∧ es = ess.flatten ∧ ∀ c ∈ rest.head?, closerOf? c = none := by
  -- a group has two brackets, so that what is left behind one is shorter
  induction hn : cs.length using Nat.strongRecOn generalizing cs es with
  | ind n ih =>
    rw [readGroups.eq_def] at h
    cases cs with
    | nil =>
      cases h
      exact ⟨[], [], .nil, rfl, rfl, fun c hc => (nomatch hc)⟩
    | cons c cs =>
      dsimp only at h
      split at h
      · rename_i hcloser
        cases h
        refine ⟨[], [], .nil, rfl, rfl, fun d hd => ?_⟩
        obtain rfl : c = d := by simpa using hd
        exact hcloser
      · rename_i closer hcloser
        split at h
        · cases h
        · rename_i inner rest' hsplit
          split at h
          · cases h
          · obtain ⟨es', hgroup, h⟩ := exists_of_bind_eq_ok h
            obtain ⟨⟨more, rest''⟩, hmore, h⟩ := exists_of_bind_eq_ok h
            cases h
            have hcs : cs = inner ++ closer :: rest' := eq_of_splitAt? hsplit
            have hlt : rest'.length < n := by
              rw [← hn, hcs, List.length_cons, List.length_append, List.length_cons]
              omega
            obtain ⟨gs, ess, hforms, rfl, rfl, hstop⟩ :=
              ih rest'.length hlt hmore rfl
            have hitems := forms_of_readGroup hgroup
            have hform : Extension.GroupForm (c :: (inner ++ [closer])) es' :=
              .group (closerOf?_eq_some_iff.mp hcloser) (notMem_of_splitAt? hsplit) hitems
            refine ⟨_ :: gs, es' :: ess, .cons hform hforms, ?_, rfl, hstop⟩
            rw [hcs, List.flatten_cons]
            simp

theorem readGroups_flatten (s : Source) {gs : List (List Char)} {ess : List (List Extension)}
    (h : List.Forall₂ Extension.GroupForm gs ess) {rest : List Char}
    (hstop : ∀ c ∈ rest.head?, closerOf? c = none) (hfit : DigitsFit gs.flatten) :
    readGroups s (gs.flatten ++ rest) = .ok (ess.flatten, rest) := by
  induction h with
  | nil =>
    rw [List.flatten_nil, List.nil_append, List.flatten_nil]
    cases rest with
    | nil => rw [readGroups]
    | cons c cs =>
      rw [readGroups.eq_def]
      dsimp only
      split
      · rfl
      · rename_i closer hcloser
        rw [hstop c rfl] at hcloser
        cases hcloser
  | @cons g es gs ess hg _ ih =>
    cases hg with
    | @group opener closer hends inner hclose es hitems =>
      rw [List.flatten_cons] at hfit
      have hmore := ih (hfit.of_infix (List.suffix_append _ _).isInfix)
      have hinner : inner <:+: opener :: (inner ++ [closer]) := ⟨[opener], [closer], by simp⟩
      have hitemsfit := hfit.of_infix (hinner.trans (List.prefix_append _ _).isInfix)
      have hsplit := splitAt?_append (gs.flatten ++ rest) hclose
      have htext : (opener :: (inner ++ [closer])) ++ gs.flatten ++ rest
          = opener :: (inner ++ closer :: (gs.flatten ++ rest)) := by
        simp
      rw [List.flatten_cons, List.flatten_cons, htext,
        readGroups_cons s (closerOf?_eq_some_iff.mpr hends) hsplit (isEmpty_trim_of_grouped hitems),
        (readGroup_eq_ok_iff s _ hitemsfit).mpr hitems, hmore]
      rfl

namespace Extension.GroupForm

theorem exists_cons {g : List Char} {es : List Extension} (h : GroupForm g es) :
    ∃ c cs closer, g = c :: cs ∧ closerOf? c = some closer := by
  cases h with
  | group hends => exact ⟨_, _, _, rfl, closerOf?_eq_some_iff.mpr hends⟩

theorem append_inj {g g' xs ys : List Char} {es es' : List Extension} (h : GroupForm g es)
    (h' : GroupForm g' es') (heq : g ++ xs = g' ++ ys) : g = g' ∧ xs = ys := by
  cases h with
  | @group opener closer hends inner hinner es hitems =>
    cases h' with
    | @group opener' closer' hends' inner' hinner' es' hitems' =>
      rw [List.cons_append, List.cons_append, List.cons.injEq] at heq
      obtain ⟨rfl, htail⟩ := heq
      obtain rfl : closer = closer' := Option.some.inj
        ((closerOf?_eq_some_iff.mpr hends).symm.trans (closerOf?_eq_some_iff.mpr hends'))
      rw [List.append_assoc, List.append_assoc, List.singleton_append, List.singleton_append]
        at htail
      have hsplit := splitAt?_append xs hinner
      rw [htail, splitAt?_append ys hinner'] at hsplit
      obtain ⟨rfl, rfl⟩ := Prod.mk.inj (Option.some.inj hsplit)
      exact ⟨rfl, rfl⟩

end Extension.GroupForm

theorem Extension.groups_inj {gs : List (List Char)} {ess : List (List Extension)} {xs : List Char}
    (h : List.Forall₂ GroupForm gs ess) (hx : ∀ c ∈ xs.head?, closerOf? c = none) :
    ∀ {hs : List (List Char)} {dss : List (List Extension)} {ys : List Char},
      List.Forall₂ GroupForm hs dss → (∀ c ∈ ys.head?, closerOf? c = none) →
      gs.flatten ++ xs = hs.flatten ++ ys → gs = hs ∧ xs = ys := by
  have hopen : ∀ {g : List Char} {es : List Extension} {zs ys : List Char}, GroupForm g es →
      (∀ c ∈ ys.head?, closerOf? c = none) → ys ≠ g ++ zs := by
    intro g es zs ys hg hstop heq
    obtain ⟨c, cs, closer, rfl, hc⟩ := hg.exists_cons
    rw [heq] at hstop
    rw [hstop c rfl] at hc
    cases hc
  induction h with
  | nil =>
    intro hs dss ys hforms hy heq
    cases hforms with
    | nil => exact ⟨rfl, heq⟩
    | cons hg _ =>
      rw [List.flatten_cons, List.append_assoc] at heq
      exact absurd heq (hopen hg hx)
  | cons hg _ ih =>
    intro hs dss ys hforms hy heq
    cases hforms with
    | nil =>
      rw [List.flatten_cons, List.append_assoc] at heq
      exact absurd heq.symm (hopen hg hy)
    | cons hg' hforms =>
      rw [List.flatten_cons, List.flatten_cons, List.append_assoc, List.append_assoc] at heq
      obtain ⟨rfl, hrest⟩ := hg.append_inj hg' heq
      obtain ⟨rfl, rfl⟩ := ih hforms hy hrest
      exact ⟨rfl, rfl⟩

/-! ### The quality -/

theorem head_inj {xs ys zs ws : List Char} (hx : ∀ c ∈ xs, endsHead c = false)
    (hy : ∀ c ∈ ys, endsHead c = false) (hz : ∀ c ∈ zs.head?, endsHead c = true)
    (hw : ∀ c ∈ ws.head?, endsHead c = true) (heq : xs ++ zs = ys ++ ws) : xs = ys ∧ zs = ws := by
  have hcut : ∀ {as bs : List Char}, (∀ c ∈ as, endsHead c = false) →
      (∀ c ∈ bs.head?, endsHead c = true) → (as ++ bs).takeWhile (fun c => !endsHead c) = as := by
    intro as bs ha hb
    exact takeWhile_append_stop (fun c hc => by simp [ha c hc]) fun c hc => by simp [hb c hc]
  have hxy : xs = ys := by rw [← hcut hx hz, heq, hcut hy hw]
  subst hxy
  exact ⟨rfl, List.append_cancel_left heq⟩

theorem endsHead_of_mem_takeWhile (cs : List Char) :
    ∀ c ∈ cs.takeWhile (fun c => !endsHead c), endsHead c = false := by
  intro c hc
  simpa using List.mem_takeWhile_imp hc

theorem endsHead_head?_dropWhile (cs : List Char) :
    ∀ c ∈ (cs.dropWhile fun c => !endsHead c).head?, endsHead c = true := by
  intro c hc
  have hnot := List.head?_dropWhile_not (fun c => !endsHead c) cs
  rw [Option.mem_def.mp hc] at hnot
  simpa using hnot

/-- Of two cuts of a text, the one that leaves less stands further on. -/
theorem exists_between {as bs xs ys : List Char} (h : as ++ bs = xs ++ ys)
    (hle : ys.length ≤ bs.length) : ∃ mid, xs = as ++ mid ∧ bs = mid ++ ys := by
  rcases List.append_eq_append_iff.mp h with h | ⟨extra, rfl, rfl⟩
  · exact h
  · rw [List.length_append] at hle
    obtain rfl : extra = [] := List.length_eq_zero_iff.mp (by omega)
    exact ⟨[], by simp, rfl⟩

/-- **A quality is read just when** the longest symbol is followed by items up to what
ends the head. -/
theorem readQuality_eq_ok_iff {t : Table} {s : Source} {small : Bool} {cs tail : List Char}
    {q : Quality} {es : List Extension} : readQuality t s small cs = .ok ((q, es), tail)
      ↔ ∃ symbol quality mid, t.Longest cs symbol quality ∧ cs = symbol.toList ++ mid ++ tail
        ∧ (∀ c ∈ symbol.toList ++ mid, endsHead c = false)
        ∧ (∀ c ∈ tail.head?, endsHead c = true) ∧ readBare s tail mid = .ok (es, [])
        ∧ q = if small then t.minorVariant quality else quality := by
  unfold readQuality
  dsimp only
  constructor
  · intro h
    have hcs : cs.takeWhile (fun c => !endsHead c) ++ cs.dropWhile (fun c => !endsHead c) = cs :=
      List.takeWhile_append_dropWhile
    have hhead := endsHead_of_mem_takeWhile cs
    have hstop := endsHead_head?_dropWhile cs
    generalize cs.takeWhile (fun c => !endsHead c) = head at h hcs hhead
    generalize (cs.dropWhile fun c => !endsHead c) = tail' at h hcs hstop
    split at h
    · cases h
    · rename_i quality rest htake
      obtain ⟨symbol, hlongest, hsymbol⟩ := Table.take?_eq_some_iff.mp htake
      -- a symbol may reach over the end of the head, which its length tells
      split at h
      · cases h
      · rename_i hlength
        obtain ⟨⟨bare, left⟩, hbare, h⟩ := exists_of_bind_eq_ok h
        dsimp only at h
        split at h
        · rename_i hleft
          cases h
          obtain rfl := List.isEmpty_iff.mp hleft
          obtain ⟨mid, rfl, rfl⟩ := exists_between (hsymbol.symm.trans hcs.symm)
            (Nat.le_of_not_lt hlength)
          rw [List.length_append, Nat.add_sub_cancel, List.take_left] at hbare
          exact ⟨symbol, quality, mid, hlongest, hcs.symm, hhead, hstop, hbare, rfl⟩
        · cases h
  · rintro ⟨symbol, quality, mid, hlongest, hcs, hhead, hstop, hbare, rfl⟩
    have hdrop : cs.dropWhile (fun c => !endsHead c) = tail := by
      rw [hcs]
      exact dropWhile_append_stop (fun c hc => by simp [hhead c hc]) fun c hc => by
        simp [hstop c hc]
    have htake : t.take? cs = some (quality, mid ++ tail) :=
      Table.take?_eq_some_iff.mpr ⟨symbol, hlongest, hcs.trans (List.append_assoc ..)⟩
    have hlength : ¬(mid ++ tail).length < tail.length := by
      rw [List.length_append]
      omega
    have hmid : (mid ++ tail).take ((mid ++ tail).length - tail.length) = mid := by
      rw [List.length_append, Nat.add_sub_cancel, List.take_left]
    simp only [hdrop, htake, if_neg hlength, hmid, hbare]
    rfl

/-- The head of a chord, where `tail` follows: the longest symbol of a quality,
filled up with items. -/
structure HeadForm (t : Table) (cs : List Char) (symbol : String) (quality : Quality)
    (xss : List (List Char)) (es : List Extension) (tail : List Char) : Prop where
  longest : t.Longest cs symbol quality
  bare : List.Forall₂ Extension.BareForm xss es
  text : cs = symbol.toList ++ xss.flatten ++ tail
  head : ∀ c ∈ symbol.toList ++ xss.flatten, endsHead c = false
  stop : ∀ c ∈ tail.head?, endsHead c = true

theorem exists_headForm {t : Table} {s : Source} {small : Bool} {cs tail : List Char}
    {q : Quality} {es : List Extension} (h : readQuality t s small cs = .ok ((q, es), tail)) :
    ∃ symbol quality xss, HeadForm t cs symbol quality xss es tail
      ∧ q = if small then t.minorVariant quality else quality := by
  obtain ⟨symbol, quality, mid, hlongest, hcs, hhead, hstop, hbare, hq⟩ :=
    readQuality_eq_ok_iff.mp h
  obtain ⟨xss, hforms, rfl⟩ := form_of_readBare hbare
  rw [List.append_nil] at hcs hhead
  exact ⟨symbol, quality, xss, ⟨hlongest, hforms, hcs, hhead, hstop⟩, hq⟩

theorem HeadForm.readQuality {t : Table} {cs tail : List Char} {symbol : String}
    {quality : Quality} {xss : List (List Char)} {es : List Extension}
    (h : HeadForm t cs symbol quality xss es tail) (hfit : DigitsFit cs) (s : Source)
    (small : Bool) : readQuality t s small cs
      = .ok ((if small then t.minorVariant quality else quality, es), tail) := by
  have hflat : DigitsFit xss.flatten := by
    refine hfit.of_infix ?_
    rw [h.text]
    exact (List.suffix_append _ _).isInfix.trans (List.prefix_append _ _).isInfix
  exact readQuality_eq_ok_iff.mpr ⟨symbol, quality, xss.flatten, h.longest, h.text, h.head, h.stop,
    readBare_flatten s tail h.bare hflat, rfl⟩

/-! ### The bass -/

/-- The text of a bass: nothing, or a slash and a root. -/
inductive Root.BassForm : List Char → Option Root → Prop
  | absent : BassForm [] none
  | slash {xs : List Char} {r : Root} {small : Bool} (h : Form xs (r, small)) :
      BassForm ('/' :: xs) (some r)

theorem Root.BassForm.eq_slash {xs : List Char} {bass : Option Root} (h : BassForm xs bass) :
    ∀ c ∈ xs.head?, c = '/' := by
  intro c hc
  cases h with
  | absent => cases hc
  | slash h => exact (Option.some.inj hc).symm

/-- **A bass is read to the end of a text just when the text is one.** -/
theorem readBass_eq_ok_iff {s : Source} {cs : List Char} {bass : Option Root} :
    readBass s cs = .ok (bass, []) ↔ Root.BassForm cs bass := by
  constructor
  · intro h
    unfold readBass at h
    split at h
    · rename_i xs
      obtain ⟨⟨⟨r, small⟩, rest⟩, hroot, h⟩ := exists_of_bind_eq_ok h
      cases h
      obtain ⟨ys, hform, hxs⟩ := Root.form_of_take (readRoot_eq_ok_iff.mp hroot)
      rw [List.append_nil] at hxs
      exact hxs ▸ .slash hform
    · cases h
      exact .absent
  · intro h
    cases h with
    | absent => rfl
    | slash h =>
      rw [readBass, readRoot, h.take]
      rfl

/-! ### The whole -/

/-- The parts that a chord symbol is cut into. -/
@[ext]
structure SymbolParts where
  root : List Char
  symbol : String
  bare : List (List Char)
  groups : List (List Char)
  bass : List Char
deriving DecidableEq

namespace SymbolParts

def head (p : SymbolParts) : List Char :=
  p.symbol.toList ++ p.bare.flatten

def tail (p : SymbolParts) : List Char :=
  p.groups.flatten ++ p.bass

def text (p : SymbolParts) : List Char :=
  p.root ++ (p.head ++ p.tail)

end SymbolParts

inductive Chord.Parse (t : Table) (p : SymbolParts) : Chord → Prop
  | intro {root : Root} {small : Bool} {quality : Quality} {bare : List Extension}
      {groups : List (List Extension)} {bass : Option Root}
      (hroot : Root.Longest p.text p.root (root, small))
      (hsymbol : t.Longest (p.head ++ p.tail) p.symbol quality)
      (hhead : ∀ c ∈ p.head, endsHead c = false)
      (hbare : List.Forall₂ Extension.BareForm p.bare bare)
      (hgroups : List.Forall₂ Extension.GroupForm p.groups groups)
      (hbass : Root.BassForm p.bass bass) :
      Parse t p
        ⟨root, if small then t.minorVariant quality else quality, bare ++ groups.flatten, bass⟩

theorem endsHead_iff {c : Char} : endsHead c = true ↔ (∃ d, closerOf? c = some d) ∨ c = '/' := by
  simp only [closerOf?_eq_some_iff, endsHead, Bool.or_eq_true, decide_eq_true_eq, List.mem_cons,
    Prod.mk.injEq, List.not_mem_nil, or_false, exists_or, exists_eq_right]

theorem Root.BassForm.closerOf?_eq_none {xs : List Char} {bass : Option Root}
    (h : BassForm xs bass) : ∀ c ∈ xs.head?, closerOf? c = none := by
  intro c hc
  rw [h.eq_slash c hc]
  rfl

theorem endsHead_tail {gs : List (List Char)} {ess : List (List Extension)} {xs : List Char}
    {bass : Option Root} (hgroups : List.Forall₂ Extension.GroupForm gs ess)
    (hbass : Root.BassForm xs bass) : ∀ c ∈ (gs.flatten ++ xs).head?, endsHead c = true := by
  intro c hc
  rw [endsHead_iff]
  cases hgroups with
  | nil => exact .inr (hbass.eq_slash c hc)
  | cons hg _ =>
    obtain ⟨d, ds, closer, rfl, hd⟩ := hg.exists_cons
    obtain rfl : d = c := Option.some.inj hc
    exact .inl ⟨closer, hd⟩

namespace Chord

variable {t : Table}

theorem exists_parse_of_read {s : Source} {c : Chord} (h : Chord.read t s = .ok c) :
    ∃ p : SymbolParts, p.text = s.text ∧ Parse t p c := by
  obtain ⟨root, small, q, bare, groups, bass, cs, ds, es, hroot, hquality, hgroups, hbass, rfl⟩ :=
    exists_parts_of_read h
  obtain ⟨xs, hlongest, htext⟩ := Root.take_eq_some_iff.mp (readRoot_eq_ok_iff.mp hroot)
  obtain ⟨symbol, quality, yss, hhead, rfl⟩ := exists_headForm hquality
  obtain ⟨gs, ess, hforms, htail, rfl, -⟩ := forms_of_readGroups hgroups
  let p : SymbolParts := ⟨xs, symbol, yss, gs, es⟩
  have hp : p.head ++ p.tail = cs := by rw [hhead.text, htail]; rfl
  have hptext : p.text = s.text := by rw [htext, ← hp]; rfl
  exact ⟨p, hptext, .intro (hptext ▸ hlongest) (hp ▸ hhead.longest) hhead.head hhead.bare hforms
    (readBass_eq_ok_iff.mp hbass)⟩

theorem Parse.read {s : Source} {p : SymbolParts} {c : Chord} (h : Parse t p c)
    (hfit : DigitsFit s.text) (hp : p.text = s.text) : Chord.read t s = .ok c := by
  cases h with
  | @intro root small quality bare groups bass hroot hsymbol hhead hbare hgroups hbass =>
    have hrest : DigitsFit (p.head ++ p.tail) :=
      hfit.of_infix (hp ▸ (List.suffix_append _ _).isInfix)
    have htail : DigitsFit p.groups.flatten :=
      hrest.of_infix ((List.prefix_append _ _).isInfix.trans (List.suffix_append _ _).isInfix)
    have hreadRoot : readRoot s .chord s.text = .ok ((root, small), p.head ++ p.tail) :=
      readRoot_eq_ok_iff.mpr (Root.take_eq_some_iff.mpr ⟨p.root, hp ▸ hroot, hp.symm⟩)
    have hform : HeadForm t (p.head ++ p.tail) p.symbol quality p.bare bare p.tail :=
      ⟨hsymbol, hbare, rfl, hhead, endsHead_tail hgroups hbass⟩
    exact read_of_parts hreadRoot (hform.readQuality hrest s small)
      (readGroups_flatten s hgroups hbass.closerOf?_eq_none htail) (readBass_eq_ok_iff.mpr hbass)

/-- **A text has parts in one way.** -/
theorem Parse.parts_eq {p q : SymbolParts} {c d : Chord} (h : Parse t p c) (h' : Parse t q d)
    (heq : p.text = q.text) : p = q := by
  cases h with
  | intro hroot hsymbol hhead hbare hgroups hbass =>
    cases h' with
    | intro hroot' hsymbol' hhead' hbare' hgroups' hbass' =>
      have hrootEq : p.root = q.root := (hroot.eq (heq ▸ hroot')).1
      have hrest : p.head ++ p.tail = q.head ++ q.tail := by
        unfold SymbolParts.text at heq
        rw [hrootEq] at heq
        exact List.append_cancel_left heq
      obtain ⟨hheadEq, htailEq⟩ := head_inj hhead hhead' (endsHead_tail hgroups hbass)
        (endsHead_tail hgroups' hbass') hrest
      have hsymbolEq : p.symbol = q.symbol := by
        rw [hsymbol.eq_longestSymbol, hsymbol'.eq_longestSymbol, hrest]
      have hbareEq : p.bare = q.bare := by
        unfold SymbolParts.head at hheadEq
        rw [hsymbolEq] at hheadEq
        exact Extension.flatten_inj hbare hbare' (List.append_cancel_left hheadEq)
      obtain ⟨hgroupsEq, hbassEq⟩ := Extension.groups_inj hgroups hbass.closerOf?_eq_none hgroups'
        hbass'.closerOf?_eq_none htailEq
      exact SymbolParts.ext hrootEq hsymbolEq hbareEq hgroupsEq hbassEq

/-- **A text whose digits fit is read as a chord just when it has parts that make
the chord, and it has parts in one way only.** -/
theorem read_eq_ok_iff (t : Table) {s : Source} (hfit : DigitsFit s.text) :
    (∀ c, Chord.read t s = .ok c ↔ ∃ p : SymbolParts, p.text = s.text ∧ Parse t p c)
      ∧ ∀ p q c d, p.text = s.text → q.text = s.text → Parse t p c → Parse t q d →
        p = q ∧ c = d := by
  have hread : ∀ {c}, Chord.read t s = .ok c ↔ ∃ p : SymbolParts, p.text = s.text ∧ Parse t p c :=
    ⟨exists_parse_of_read, fun ⟨_, hp, h⟩ => h.read hfit hp⟩
  refine ⟨fun c => hread, fun p q c d hp hq h h' => ⟨h.parts_eq h' (hp.trans hq.symm), ?_⟩⟩
  have hsame := (hread.mpr ⟨p, hp, h⟩).symm.trans (hread.mpr ⟨q, hq, h'⟩)
  exact Except.ok.inj hsame

/-- `VII` is no `VI` with something behind it, and `7b5` no seventh with an item
behind it. -/
theorem exists_parse_seven_flat_five :
    DigitsFit "VII7b5add9(b9, #11)[omit3]/Bb".toList ∧ ∃ p : SymbolParts,
      p.text = "VII7b5add9(b9, #11)[omit3]/Bb".toList ∧ Parse Table.standard p
        { root := .degree ⟨6, .natural, false⟩
          quality := { name := "dominant7-flat5", symbol := "7b5", intervals := [0, 4, 6, 10],
                       aliases := ["7-5"] }
          extensions := [⟨.ninth, .add⟩, ⟨.ninth, .alter .flat⟩, ⟨.eleventh, .alter .sharp⟩,
            ⟨.third, .leaveOut⟩]
          bass := some (.pitch (.spelled 'B' 11 .flat)) } := by
  have hfit : DigitsFit "VII7b5add9(b9, #11)[omit3]/Bb".toList :=
    digitsFit_of_length_le (by decide)
  exact ⟨hfit, ((read_eq_ok_iff Table.standard (s := ⟨_, 1, 1⟩) hfit).1 _).mp
    (eq_ok_of_toOption (by decide +kernel))⟩

end Chord

end LeadSheet
