import Oba.Library.Greedy
import Oba.Storage.Entry

/-! # Substring matching

`matchSubstring` of `match.go`: the value and the components of the pattern are compared in
lower case, and the components are looked for one after another. The position moves on by the
lengths of the components as they are written, which need not be their lengths in lower case.
-/

namespace Oba.Filters

open Greedy List
open Storage (Bytes)

/-- Go's `bytes.ToLower`. Texts in lower case stay as they are, also next to each other. -/
structure Lowering where
  lower : Bytes → Bytes
  lower_flatMap : ∀ parts : List Bytes, lower (parts.flatMap lower) = parts.flatMap lower

/-- `s[pos:]`, which fails behind the end of `s`. -/
def sliceFrom (s : Bytes) (pos : Nat) : Option Bytes :=
  if pos ≤ s.length then some (s.drop pos) else none

section

variable (lower : Bytes → Bytes)

/-- The loop over the middle components: `none` where it fails, else the position behind them if
they are all found. -/
def anyLoop (valueLower : Bytes) : List Bytes → Nat → Option (Option Nat)
  | [], pos => some (some pos)
  | substr :: rest, pos =>
    if substr = [] then anyLoop valueLower rest pos
    else match sliceFrom valueLower pos with
      | none => none
      | some tail =>
        match index (lower substr) tail with
        | none => some none
        | some idx => anyLoop valueLower rest (pos + (idx + substr.length))

/-- The middle and the final components, from a position on. -/
def matchFrom (valueLower : Bytes) (any : List Bytes) (final : Bytes) (pos : Nat) : Option Bool :=
  match anyLoop lower valueLower any pos with
  | none => none
  | some none => some false
  | some (some pos) =>
    if final = [] then some true
    else (sliceFrom valueLower pos).map fun tail => (lower final).isSuffixOf tail

/-- `none` where the code fails with an index out of range. -/
def matchSubstring (value initial : Bytes) (any : List Bytes) (final : Bytes) : Option Bool :=
  let valueLower := lower value
  if initial ≠ [] ∧ ¬ (lower initial).isPrefixOf valueLower then some false
  else matchFrom lower valueLower any final initial.length

end

/-! ## What it should be -/

variable (lowering : Lowering)

/-- The value in lower case is the initial component, then the middle ones in order with any text
between them, then the final one. -/
def Matches (value initial : Bytes) (any : List Bytes) (final : Bytes) : Prop :=
  ∃ rest, lowering.lower value = lowering.lower initial ++ rest ∧
    Splits (lowering.lower final) (any.map lowering.lower) rest

/-- `matchSubstring` returns, and returns what it should. -/
def Correct (value initial : Bytes) (any : List Bytes) (final : Bytes) : Prop :=
  ∃ result, matchSubstring lowering.lower value initial any final = some result ∧
    (result = true ↔ Matches lowering value initial any final)

/-- The components that are there. -/
def components (initial : Bytes) (any : List Bytes) (final : Bytes) : List Bytes :=
  (initial :: any ++ [final]).filter (· ≠ [])

/-- Every component but the last has the same length in lower case. -/
def LengthsKept (initial : Bytes) (any : List Bytes) (final : Bytes) : Prop :=
  ∀ c ∈ (components initial any final).dropLast, (lowering.lower c).length = c.length

/-! ## The loop -/

section

variable {lower : Bytes → Bytes}

lemma anyLoop_filter (valueLower : Bytes) (any : List Bytes) (pos : Nat) :
    anyLoop lower valueLower any pos = anyLoop lower valueLower (any.filter (· ≠ [])) pos := by
  induction any generalizing pos with
  | nil => rfl
  | cons substr rest ih =>
    by_cases hsubstr : substr = []
    · simp [anyLoop, hsubstr, ih]
    · simp [anyLoop, hsubstr, ih]

lemma anyLoop_append (valueLower : Bytes) (parts others : List Bytes) (pos : Nat) :
    anyLoop lower valueLower (parts ++ others) pos = match anyLoop lower valueLower parts pos with
      | none => none
      | some none => some none
      | some (some pos) => anyLoop lower valueLower others pos := by
  induction parts generalizing pos with
  | nil => rfl
  | cons substr rest ih =>
    rw [cons_append, anyLoop, anyLoop]
    split
    · exact ih pos
    · cases sliceFrom valueLower pos with
      | none => rfl
      | some tail =>
        dsimp only
        cases index (lower substr) tail with
        | none => rfl
        | some idx => exact ih _

variable {valueLower final : Bytes} {pos : Nat} {parts : List Bytes} {any : List Bytes}

/-- With lengths that are kept the loop takes first occurrences. -/
lemma anyLoop_of_kept (hparts : ∀ c ∈ parts, c ≠ [] ∧ (lower c).length = c.length)
    (hpos : pos ≤ valueLower.length) :
    ∃ result : Option Nat, anyLoop lower valueLower parts pos = some result ∧
      remainder (parts.map lower) (valueLower.drop pos) = result.map (valueLower.drop ·) ∧
      ∀ p ∈ result, p ≤ valueLower.length := by
  induction parts generalizing pos with
  | nil =>
    refine ⟨some pos, rfl, rfl, ?_⟩
    rintro p ⟨⟩
    exact hpos
  | cons c rest ih =>
    obtain ⟨hne, hlength⟩ := hparts c mem_cons_self
    rw [anyLoop, if_neg hne, sliceFrom, if_pos hpos, map_cons, remainder]
    dsimp only
    cases hindex : index (lower c) (valueLower.drop pos) with
    | none => exact ⟨none, rfl, rfl, by simp⟩
    | some idx =>
      have hle := length_le_of_index hindex
      rw [length_drop] at hle
      dsimp only
      rw [hlength, drop_drop]
      exact ih (fun c hc => hparts c (mem_cons_of_mem _ hc)) (by omega)

/-- The components behind the initial one, those that are there. -/
def later (any : List Bytes) (final : Bytes) : List Bytes := (any ++ [final]).filter (· ≠ [])

lemma later_of_nil (any : List Bytes) : later any [] = any.filter (· ≠ []) := by simp [later]

lemma later_of_ne_nil (any : List Bytes) (hfinal : final ≠ []) :
    later any final = any.filter (· ≠ []) ++ [final] := by simp [later, hfinal]

lemma matchFrom_filter (valueLower : Bytes) (any : List Bytes) (final : Bytes) (pos : Nat) :
    matchFrom lower valueLower any final pos =
      matchFrom lower valueLower (any.filter (· ≠ [])) final pos := by
  rw [matchFrom, matchFrom, anyLoop_filter]

lemma matchFrom_correct (hpos : pos ≤ valueLower.length)
    (hkept : ∀ c ∈ (later any final).dropLast, (lower c).length = c.length) (hnil : lower [] = []) :
    ∃ result, matchFrom lower valueLower any final pos = some result ∧
      (result = true ↔ Splits (lower final) ((any.filter (· ≠ [])).map lower)
        (valueLower.drop pos)) := by
  have hne : ∀ c ∈ any.filter (· ≠ []), c ≠ [] := by simp
  rw [matchFrom_filter]
  generalize hparts : any.filter (· ≠ []) = parts at hne
  by_cases hfinal : final = []
  · subst hfinal
    rw [later_of_nil, hparts] at hkept
    rw [splits_iff_remainder, hnil]
    rcases eq_nil_or_concat parts with rfl | ⟨earlier, last, rfl⟩
    · exact ⟨true, rfl, by simp [remainder]⟩
    · rw [concat_eq_append, dropLast_concat] at hkept
      rw [concat_eq_append] at hne ⊢
      have hboth : ∀ c ∈ earlier, c ≠ [] ∧ (lower c).length = c.length :=
        fun c hc => ⟨hne c (mem_append_left _ hc), hkept c hc⟩
      have hlast : last ≠ [] := hne last (by simp)
      obtain ⟨result, hloop, hremainder, hle⟩ := anyLoop_of_kept hboth hpos
      rw [matchFrom, anyLoop_append, hloop, map_append, remainder_append, hremainder]
      cases result with
      | none => exact ⟨false, rfl, by simp⟩
      | some p =>
        have hp : p ≤ valueLower.length := hle p rfl
        cases hindex : index (lower last) (valueLower.drop p) <;>
          simp [anyLoop, remainder, hlast, sliceFrom, hp, hindex]
  · rw [later_of_ne_nil any hfinal, hparts, dropLast_concat] at hkept
    have hboth : ∀ c ∈ parts, c ≠ [] ∧ (lower c).length = c.length :=
      fun c hc => ⟨hne c hc, hkept c hc⟩
    obtain ⟨result, hloop, hremainder, hle⟩ := anyLoop_of_kept hboth hpos
    rw [matchFrom, hloop, splits_iff_remainder, hremainder]
    cases result with
    | none => exact ⟨false, rfl, by simp⟩
    | some p =>
      have hp : p ≤ valueLower.length := hle p rfl
      simp [hfinal, sliceFrom, hp]

/-- The position moves on by the written lengths. -/
lemma le_of_anyLoop {p : Nat} (hloop : anyLoop lower valueLower parts pos = some (some p)) :
    pos + (parts.map length).sum ≤ p := by
  induction parts generalizing pos with
  | nil =>
    cases hloop
    simp
  | cons c rest ih =>
    rw [anyLoop] at hloop
    split at hloop
    next hc =>
      simpa [hc] using ih hloop
    · split at hloop
      · cases hloop
      next tail _ =>
        split at hloop
        · cases hloop
        next idx _ =>
          have hle := ih hloop
          simp only [map_cons, sum_cons]
          omega

lemma le_length_of_sliceFrom {s tail part : Bytes} (hslice : sliceFrom s pos = some tail)
    (hpart : part.length ≤ tail.length) : pos + part.length ≤ s.length := by
  obtain ⟨hpos, ⟨⟩⟩ := Option.ite_none_right_eq_some.mp hslice
  rw [length_drop] at hpart
  omega

/-- A match leaves room for the written lengths of all components but the last. -/
lemma le_length_of_matchFrom (hmatch : matchFrom lower valueLower any final pos = some true)
    {earlier : List Bytes} {last : Bytes} (hlater : later any final = earlier ++ [last]) :
    pos + (earlier.map length).sum + (lower last).length ≤ valueLower.length := by
  rw [matchFrom_filter, matchFrom] at hmatch
  split at hmatch
  · cases hmatch
  · cases hmatch
  next p hloop =>
    by_cases hfinal : final = []
    · subst hfinal
      have hlast : last ≠ [] := by
        have hmem : last ∈ later any [] := hlater ▸ mem_append_right _ mem_cons_self
        simpa using (mem_filter.mp hmem).2
      rw [← later_of_nil, hlater, anyLoop_append] at hloop
      split at hloop
      · cases hloop
      · cases hloop
      next q hearlier =>
        have hle := le_of_anyLoop hearlier
        rw [anyLoop, if_neg hlast] at hloop
        split at hloop
        · cases hloop
        next tail hslice =>
          split at hloop
          · cases hloop
          next idx hindex =>
            have hpart := (Nat.le_add_left _ _).trans (length_le_of_index hindex)
            have hroom := le_length_of_sliceFrom hslice hpart
            omega
    · rw [later_of_ne_nil any hfinal] at hlater
      obtain ⟨hearlier, hlast⟩ := append_inj' hlater rfl
      obtain rfl := singleton_inj.mp hlast
      have hle := le_of_anyLoop (hearlier ▸ hloop)
      rw [if_neg hfinal] at hmatch
      obtain ⟨tail, hslice, hsuffix⟩ := Option.map_eq_some_iff.mp hmatch
      have hroom := le_length_of_sliceFrom hslice (isSuffixOf_iff_suffix.mp hsuffix).length_le
      omega

end

/-! ## Lengths that are kept -/

lemma Lowering.lower_nil : lowering.lower [] = [] := lowering.lower_flatMap []

lemma splits_filter (last : Bytes) (any : List Bytes) (s : Bytes) :
    Splits last (any.map lowering.lower) s ↔
      Splits last ((any.filter (· ≠ [])).map lowering.lower) s := by
  induction any generalizing s with
  | nil => rfl
  | cons c rest ih =>
    by_cases hc : c = []
    · simp [hc, lowering.lower_nil, splits_nil_cons, ih]
    · simp [hc, Splits, ih]

lemma components_of_nil (any : List Bytes) (final : Bytes) :
    components [] any final = later any final := by simp [components, later]

variable {initial final : Bytes} {any : List Bytes}

lemma components_of_ne_nil (hinitial : initial ≠ []) (any : List Bytes) (final : Bytes) :
    components initial any final = initial :: later any final := by
  simp [components, later, hinitial]

lemma mem_components_of_mem_later {c : Bytes} (hc : c ∈ later any final) :
    c ∈ components initial any final := by
  rw [later, mem_filter] at hc
  rw [components, mem_filter]
  exact ⟨mem_cons_of_mem _ hc.1, hc.2⟩

/-- Components that are not there do not matter. -/
lemma matches_filter (value initial : Bytes) (any : List Bytes) (final : Bytes) :
    Matches lowering value initial any final ↔
      ∃ rest, lowering.lower value = lowering.lower initial ++ rest ∧
        Splits (lowering.lower final) ((any.filter (· ≠ [])).map lowering.lower) rest :=
  exists_congr fun rest => and_congr_right fun _ => splits_filter lowering _ any rest

lemma correct_of_no_initial (hkept : LengthsKept lowering [] any final) (value : Bytes) :
    Correct lowering value [] any final := by
  rw [LengthsKept, components_of_nil] at hkept
  obtain ⟨result, hmatch, hsplits⟩ :=
    matchFrom_correct (Nat.zero_le (lowering.lower value).length) hkept lowering.lower_nil
  refine ⟨result, by simpa [matchSubstring] using hmatch, ?_⟩
  rw [matches_filter, hsplits]
  simp [lowering.lower_nil]

lemma correct_of_initial (hinitial : initial ≠ [])
    (hkept : LengthsKept lowering initial any final) (value : Bytes) :
    Correct lowering value initial any final := by
  rw [LengthsKept, components_of_ne_nil hinitial] at hkept
  unfold Correct
  rw [matches_filter, matchSubstring]
  by_cases hstarts : lowering.lower initial <+: lowering.lower value
  · obtain ⟨rest, hrest⟩ := hstarts
    have hcompare : (∃ rest', lowering.lower value = lowering.lower initial ++ rest' ∧
        Splits (lowering.lower final) ((any.filter (· ≠ [])).map lowering.lower) rest') ↔
        Splits (lowering.lower final) ((any.filter (· ≠ [])).map lowering.lower) rest := by
      simp [← hrest]
    rw [if_neg (by simp [← hrest]), hcompare]
    by_cases hlater : later any final = []
    · -- the initial component is the last one
      obtain ⟨hany, hfinal⟩ : any.filter (· ≠ []) = [] ∧ final = [] := by
        simpa [later, filter_append] using hlater
      subst hfinal
      refine ⟨true, ?_, ?_⟩
      · rw [matchFrom_filter, hany]
        rfl
      · rw [hany]
        simp [Splits, lowering.lower_nil]
    · rw [dropLast_cons_of_ne_nil hlater] at hkept
      have hlength := hkept initial mem_cons_self
      have hpos : initial.length ≤ (lowering.lower value).length := by
        rw [← hrest, length_append]
        omega
      obtain ⟨result, hmatch, hsplits⟩ := matchFrom_correct hpos
        (fun c hc => hkept c (mem_cons_of_mem _ hc)) lowering.lower_nil
      have hdrop : (lowering.lower value).drop initial.length = rest := by
        rw [← hrest, ← hlength, drop_left]
      exact ⟨result, hmatch, hdrop ▸ hsplits⟩
  · refine ⟨false, if_pos ⟨hinitial, by simpa using hstarts⟩, ?_⟩
    simp only [Bool.false_eq_true, false_iff]
    rintro ⟨rest, hrest, _⟩
    exact hstarts ⟨rest, hrest.symm⟩

/-! ## Lengths that are not kept -/

lemma flatMap_later (any : List Bytes) (final : Bytes) :
    (later any final).flatMap lowering.lower =
      ((any.filter (· ≠ [])).map lowering.lower).flatten ++ lowering.lower final := by
  by_cases hfinal : final = []
  · subst hfinal
    rw [later_of_nil, lowering.lower_nil, append_nil, flatMap_def]
  · rw [later_of_ne_nil any hfinal, flatMap_append, flatMap_singleton, flatMap_def]

lemma flatMap_components (initial : Bytes) (any : List Bytes) (final : Bytes) :
    (components initial any final).flatMap lowering.lower =
      lowering.lower initial ++ (later any final).flatMap lowering.lower := by
  by_cases hinitial : initial = []
  · subst hinitial
    rw [components_of_nil, lowering.lower_nil, nil_append]
  · rw [components_of_ne_nil hinitial, flatMap_cons]

/-- The components next to each other, in lower case, are a match. -/
lemma matches_components (initial : Bytes) (any : List Bytes) (final : Bytes) :
    Matches lowering ((components initial any final).flatMap lowering.lower) initial any final := by
  rw [matches_filter, lowering.lower_flatMap, flatMap_components]
  refine ⟨_, rfl, ?_⟩
  rw [flatMap_later]
  exact splits_flatten _ _

lemma lengthsKept_of_correct
    (hshort : ∀ c ∈ components initial any final, (lowering.lower c).length ≤ c.length)
    (hcorrect : ∀ value, Correct lowering value initial any final) :
    LengthsKept lowering initial any final := by
  obtain ⟨result, hmatch, hresult⟩ :=
    hcorrect ((components initial any final).flatMap lowering.lower)
  obtain rfl := hresult.mpr (matches_components lowering initial any final)
  rw [matchSubstring, lowering.lower_flatMap, flatMap_components, if_neg (by simp)] at hmatch
  rcases eq_nil_or_concat (later any final) with hlater | ⟨earlier, last, hlater⟩
  · -- at most the initial component is there
    intro c hc
    by_cases hinitial : initial = [] <;>
      simp [hinitial, components_of_nil, components_of_ne_nil, hlater] at hc
  · rw [concat_eq_append] at hlater
    have hroom := le_length_of_matchFrom hmatch hlater
    have hall : ∀ c ∈ initial :: earlier, (lowering.lower c).length ≤ c.length := by
      intro c hc
      by_cases hempty : c = []
      · rw [hempty, lowering.lower_nil]
      · apply hshort c
        rcases mem_cons.mp hc with rfl | hmem
        · simp [components, hempty]
        · have hmem : c ∈ later any final := hlater ▸ mem_append_left _ hmem
          exact mem_components_of_mem_later hmem
    have hsum : ((initial :: earlier).map length).sum ≤
        ((initial :: earlier).map fun c => (lowering.lower c).length).sum := by
      simp only [hlater, length_append, length_flatMap, map_append, map_cons,
        map_nil, sum_append, sum_cons, sum_nil] at hroom ⊢
      omega
    have hfront : ∀ c ∈ (components initial any final).dropLast, c ∈ initial :: earlier := by
      intro c hc
      by_cases hinitial : initial = []
      · rw [hinitial, components_of_nil, hlater, dropLast_concat] at hc
        exact mem_cons_of_mem _ hc
      · rw [components_of_ne_nil hinitial, hlater, ← cons_append, dropLast_concat] at hc
        exact hc
    intro c hc
    by_contra hne
    have hlt := sum_lt_sum (fun c => (lowering.lower c).length) length hall
      ⟨c, hfront c hc, lt_of_le_of_ne (hall c (hfront c hc)) hne⟩
    exact absurd hsum (Nat.not_le_of_lt hlt)

/-- `matchSubstring` is right for all values if every component of the pattern but the last has
the same length in lower case; where no component grows in lower case, only then. -/
theorem matchSubstring_correct_iff (initial : Bytes) (any : List Bytes) (final : Bytes) :
    (LengthsKept lowering initial any final →
        ∀ value, Correct lowering value initial any final) ∧
      ((∀ c ∈ components initial any final, (lowering.lower c).length ≤ c.length) →
        ((∀ value, Correct lowering value initial any final) ↔
          LengthsKept lowering initial any final)) := by
  have hcorrect : LengthsKept lowering initial any final →
      ∀ value, Correct lowering value initial any final := by
    intro hkept value
    by_cases hinitial : initial = []
    · subst hinitial
      exact correct_of_no_initial lowering hkept value
    · exact correct_of_initial lowering hinitial hkept value
  exact ⟨hcorrect, fun hshort => ⟨lengthsKept_of_correct lowering hshort, hcorrect⟩⟩

/-! ## A letter that shrinks

The Kelvin sign, three bytes of UTF-8, is the letter `k` in lower case. -/

def kelvinSign : Bytes := [0xE2, 0x84, 0xAA]

/-- An ASCII character that is no capital letter. -/
def IsSmall (b : UInt8) : Prop := b < 128 ∧ ¬ (65 ≤ b ∧ b ≤ 90)

def smallByte (b : UInt8) : UInt8 :=
  if 65 ≤ b ∧ b ≤ 90 then b + 32 else if b < 128 then b else 63

lemma isSmall_smallByte (b : UInt8) : IsSmall (smallByte b) := by
  unfold IsSmall smallByte
  split
  next hupper =>
    simp only [UInt8.le_iff_toNat_le, UInt8.lt_iff_toNat_lt, UInt8.toNat_add,
      UInt8.toNat_ofNat] at hupper ⊢
    omega
  next hother =>
    split
    next hascii => exact ⟨hascii, hother⟩
    · exact ⟨by decide, by decide⟩

lemma smallByte_of_isSmall {b : UInt8} (hb : IsSmall b) : smallByte b = b := by
  rw [smallByte, if_neg hb.2, if_pos hb.1]

/-- Lower case for texts of ASCII letters and Kelvin signs; other bytes become question marks. -/
def lowerKelvin : Bytes → Bytes
  | 0xE2 :: 0x84 :: 0xAA :: rest => 107 :: lowerKelvin rest
  | b :: rest => smallByte b :: lowerKelvin rest
  | [] => []

lemma isSmall_lowerKelvin (s : Bytes) : ∀ b ∈ lowerKelvin s, IsSmall b := by
  induction s using lowerKelvin.induct with
  | case1 rest ih => exact forall_mem_cons.mpr ⟨⟨by decide, by decide⟩, ih⟩
  | case2 c rest hc ih =>
    rw [lowerKelvin]
    · exact forall_mem_cons.mpr ⟨isSmall_smallByte c, ih⟩
    · exact hc
  | case3 => simp [lowerKelvin]

lemma lowerKelvin_of_isSmall {s : Bytes} (hs : ∀ b ∈ s, IsSmall b) : lowerKelvin s = s := by
  induction s using lowerKelvin.induct with
  | case1 rest ih => exact absurd (hs 0xE2 mem_cons_self).1 (by decide)
  | case2 c rest hc ih =>
    rw [lowerKelvin, smallByte_of_isSmall (hs c mem_cons_self),
      ih fun b hb => hs b (mem_cons_of_mem _ hb)]
    exact hc
  | case3 => rfl

def kelvinLowering : Lowering where
  lower := lowerKelvin
  lower_flatMap parts := by
    apply lowerKelvin_of_isSmall
    intro b hb
    obtain ⟨part, _, hpart⟩ := mem_flatMap.mp hb
    exact isSmall_lowerKelvin part b hpart

/-- As the final component the Kelvin sign does no harm. -/
theorem matchSubstring_correct_kelvin :
    (lowerKelvin kelvinSign).length ≠ kelvinSign.length ∧
      ∀ value, Correct kelvinLowering value [65] [[66], [67]] kelvinSign :=
  ⟨by decide, (matchSubstring_correct_iff kelvinLowering [65] [[66], [67]] kelvinSign).1
    fun c hc => by revert c; decide⟩

/-- With a Kelvin sign as the initial component, the code fails on a value that is just that and
rejects a value that ends as it should. -/
theorem matchSubstring_kelvin :
    matchSubstring lowerKelvin kelvinSign kelvinSign [] [98] = none ∧
      matchSubstring lowerKelvin (kelvinSign ++ [97, 98]) kelvinSign [] [98] = some false ∧
      Matches kelvinLowering (kelvinSign ++ [97, 98]) kelvinSign [] [98] :=
  ⟨by decide, by decide, ⟨[97, 98], rfl, ⟨[97], rfl⟩⟩⟩

end Oba.Filters
