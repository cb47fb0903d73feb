import Oba.Acl.Scope

/-! # Names that the index writes

The index writes the name of a node from its components, with commas between them. Blanks around
a component are dropped even where a backslash escapes them, and such a backslash then escapes the
comma that is written after it.
-/

namespace Oba.Storage

open List

open Acl (escapes escapes_append pieces pieces_ne_nil)

variable {c rdn : Bytes} {s : Bytes}

/-! ## Texts put together -/

lemma length_pieces_append (s t : Bytes) (escaped : Bool) :
    (pieces (s ++ t) escaped).length + 1 =
      (pieces s escaped).length + (pieces t (escapes s escaped)).length := by
  induction s, escaped using Oba.Acl.pieces.induct with
  | case1 escaped => exact add_comm _ _
  | case2 b s ih => simpa [pieces, escapes] using ih
  | case3 s ih => simpa [pieces, escapes, Nat.add_right_comm _ 1] using ih
  | case4 b s hcomma ih => simpa [pieces, escapes, hcomma] using ih

lemma pieces_eq_singleton {escaped : Bool} (h : (pieces s escaped).length ≤ 1) :
    pieces s escaped = [s] := by
  obtain ⟨piece, others, hpieces⟩ := exists_cons_of_ne_nil (pieces_ne_nil s escaped)
  obtain rfl : others = [] := by simpa [hpieces] using h
  have htext := Acl.intercalate_pieces s escaped
  rw [hpieces, intercalate_singleton] at htext
  rw [hpieces, htext]

/-- A piece is not cut again. -/
lemma pieces_cut {piece : Bytes} (h : piece ∈ pieces s false) : pieces piece false = [piece] := by
  generalize hs : pieces s false = all at h
  induction all generalizing s with
  | nil => cases h
  | cons first others ih =>
    by_cases hnil : others = []
    · subst hnil
      obtain rfl := mem_singleton.mp h
      have htext := Acl.intercalate_pieces s false
      rw [hs, intercalate_singleton] at htext
      rwa [← htext] at hs
    · obtain ⟨rest, -, -, hfirst, hrest⟩ := Acl.exists_of_pieces_cons hs hnil
      rcases mem_cons.mp h with rfl | hpiece
      exacts [hfirst, ih hrest hpiece]

/-! ## Blanks and letters -/

lemma pieces_blank (h : ∀ b ∈ s, isSpace b) :
    (pieces s false).length = 1 ∧ escapes s false = false := by
  induction s with
  | nil => exact ⟨rfl, rfl⟩
  | cons b s ih =>
    obtain ⟨hb, hs⟩ := forall_mem_cons.mp h
    have hcomma : b ≠ 44 := by rintro rfl; cases hb
    have hbackslash : b ≠ 92 := by rintro rfl; cases hb
    simpa [pieces, escapes, hcomma, hbackslash] using ih hs

lemma exists_trimSpace (s : Bytes) : ∃ before after, s = before ++ (trimSpace s ++ after) ∧
    (∀ b ∈ before, isSpace b) ∧ ∀ b ∈ after, isSpace b := by
  refine ⟨s.takeWhile isSpace, (s.dropWhile isSpace).rtakeWhile isSpace, ?_,
    fun b => mem_takeWhile_imp, fun b => mem_rtakeWhile_imp⟩
  have hback : s.dropWhile isSpace = trimSpace s ++ (s.dropWhile isSpace).rtakeWhile isSpace :=
    (rdropWhile_append_rtakeWhile ..).symm
  rw [← hback, takeWhile_append_dropWhile]

lemma length_pieces_trimSpace_le (s : Bytes) :
    (pieces (trimSpace s) false).length ≤ (pieces s false).length := by
  obtain ⟨before, after, hs, hbefore, -⟩ := exists_trimSpace s
  obtain ⟨hlength, hescapes⟩ := pieces_blank hbefore
  have hfront := length_pieces_append before (trimSpace s ++ after) false
  have hback := length_pieces_append (trimSpace s) after false
  have hpos := length_pos_of_ne_nil (pieces_ne_nil after (escapes (trimSpace s) false))
  rw [← hs, hlength, hescapes] at hfront
  omega

lemma lower_eq_iff (b other : UInt8) (h : other < 65 ∨ 90 < other ∧ other < 97) :
    (if 65 ≤ b ∧ b ≤ 90 then b + 32 else b) = other ↔ b = other := by
  simp only [UInt8.lt_iff_toNat_lt, UInt8.toNat_ofNat] at h
  split
  next hupper =>
    simp only [UInt8.le_iff_toNat_le, UInt8.toNat_add, UInt8.toNat_ofNat, ← UInt8.toNat_inj] at *
    omega
  · rfl

lemma length_pieces_toLower (s : Bytes) (escaped : Bool) :
    (pieces (toLower s) escaped).length = (pieces s escaped).length := by
  have hcomma := fun b => lower_eq_iff b 44 (by decide)
  have hbackslash := fun b => lower_eq_iff b 92 (by decide)
  unfold toLower
  induction s, escaped using Oba.Acl.pieces.induct with
  | case1 => rfl
  | case2 b s ih => simpa [pieces] using ih
  | case3 s ih => simpa [pieces] using ih
  | case4 b s hne ih => simpa [pieces, hcomma, hbackslash, hne] using ih

/-! ## Components -/

lemma trimSpace_append_cons {t : Bytes} {b : UInt8} (hs : trimSpace s = s) (hne : s ≠ [])
    (hb : isSpace b = false) (ht : trimSpace t = t) : trimSpace (s ++ b :: t) = s ++ b :: t := by
  refine trimSpace_of_ends ?_ ?_
  · rw [head?_append_of_ne_nil _ hne, ← hs]
    exact (ends_trimSpace s).1
  · rw [getLast?_append_of_ne_nil _ (cons_ne_nil b t)]
    cases t with
    | nil => simpa using hb
    | cons b' t =>
      rw [getLast?_cons_cons, ← ht]
      exact (ends_trimSpace _).2

section

variable (h : normalizeRDN rdn = .ok c)
include h

/-- A component that is kept reads as itself. -/
lemma normalizeRDN_normal : trimSpace c = c ∧ normalizeRDN c = .ok c := by
  obtain ⟨attrType, attrValue, -, hequal, hne, rfl⟩ := normalizeRDN_ok_iff.mp h
  have htype : trimSpace (toLower (trimSpace attrType)) = toLower (trimSpace attrType) := by
    rw [← toLower_trimSpace, trimSpace_trimSpace]
  have hlower : toLower (trimSpace attrType) ≠ [] := by simpa [toLower] using hne
  have hvalue := trimSpace_trimSpace attrValue
  have htrim := trimSpace_append_cons htype hlower (b := 61) rfl hvalue
  refine ⟨htrim, normalizeRDN_ok_iff.mpr ⟨_, _, htrim, ?_, by rwa [htype], ?_⟩⟩
  · intro hmem
    obtain ⟨b, hb, heq⟩ := mem_map.mp hmem
    obtain rfl := (lower_eq_iff b 61 (by decide)).mp heq
    exact hequal ((trimSpace_sublist attrType).mem hb)
  · rw [htype, hvalue, toLower_toLower]

lemma pieces_normal (hrdn : pieces rdn false = [rdn]) : pieces c false = [c] := by
  obtain ⟨attrType, attrValue, htrim, -, -, rfl⟩ := normalizeRDN_ok_iff.mp h
  have hlength := length_pieces_trimSpace_le rdn
  rw [hrdn, htrim, length_singleton] at hlength
  -- an equals sign ends whatever a backslash before it escapes
  have hequal : ∀ (s : Bytes) (escaped : Bool),
      (pieces (61 :: s) escaped).length = (pieces s false).length := by
    intro s escaped
    cases escaped <;> simp [pieces]
  have hbefore := length_pieces_append attrType (61 :: attrValue) false
  have hafter := length_pieces_append (toLower (trimSpace attrType))
    (61 :: trimSpace attrValue) false
  have htype := length_pieces_trimSpace_le attrType
  have hvalue := length_pieces_trimSpace_le attrValue
  have hpos := length_pos_of_ne_nil (pieces_ne_nil attrType false)
  have hpos' := length_pos_of_ne_nil (pieces_ne_nil attrValue false)
  rw [hequal] at hbefore hafter
  rw [length_pieces_toLower] at hafter
  exact pieces_eq_singleton (by omega)

lemma escapes_normal : escapes c false = escapes (trimSpace rdn) false := by
  obtain ⟨attrType, attrValue, htrim, -, -, rfl⟩ := normalizeRDN_ok_iff.mp h
  have hequal : ∀ (s : Bytes) (escaped : Bool), escapes (61 :: s) escaped = escapes s false := by
    intro s escaped
    cases escaped <;> rfl
  rw [htrim, escapes_append, escapes_append, hequal, hequal]
  obtain ⟨before, after, hvalue, hbefore, hafter⟩ := exists_trimSpace attrValue
  generalize trimSpace attrValue = value at hvalue ⊢
  subst hvalue
  -- no blanks follow, since they would stand at the end of the component
  obtain rfl : after = [] := by
    by_contra hne
    obtain ⟨blanks, last, rfl⟩ := eq_nil_or_concat after |>.resolve_left hne
    have hlast := (ends_trimSpace rdn).2 last (by simp [htrim, getLast?_cons])
    rw [hafter last (by simp)] at hlast
    cases hlast
  rw [escapes_append, (pieces_blank hbefore).2, append_nil]

end

/-- A component as the index keeps it. -/
structure Normal (c : Bytes) : Prop where
  trimmed : trimSpace c = c
  ne_nil : c ≠ []
  kept : normalizeRDN c = .ok c
  whole : pieces c false = [c]

/-! ## Whole names -/

/-- The components come back, or a comma between them is lost. -/
lemma pieces_intercalate {cs : List Bytes} (hne : cs ≠ [])
    (h : ∀ c ∈ cs, Normal c) :
    trimSpace ([44].intercalate cs) = [44].intercalate cs ∧
      if ∀ c ∈ cs.dropLast, escapes c false = false then pieces ([44].intercalate cs) false = cs
      else (pieces ([44].intercalate cs) false).length < cs.length := by
  induction cs with
  | nil => exact absurd rfl hne
  | cons c cs ih =>
    obtain ⟨⟨hc, hcne, -, hcpieces⟩, hcs⟩ := forall_mem_cons.mp h
    by_cases hnil : cs = []
    · subst hnil
      simp [hc, hcpieces]
    obtain ⟨htrim, hsplit⟩ := ih hnil hcs
    have hjoin := intercalate_append [44] (cons_ne_nil c []) hnil
    rw [singleton_append, intercalate_singleton, append_assoc, singleton_append] at hjoin
    rw [hjoin]
    refine ⟨trimSpace_append_cons hc hcne rfl htrim, ?_⟩
    simp only [dropLast_cons_of_ne_nil hnil, forall_mem_cons]
    cases hescapes : escapes c false with
    | false =>
      rw [Acl.pieces_append_comma _ hescapes, hcpieces]
      simpa using hsplit
    | true =>
      have hlength := length_pieces_append c (44 :: [44].intercalate cs) false
      rw [hcpieces, hescapes, pieces, length_modifyHead] at hlength
      have hle : (pieces ([44].intercalate cs) false).length ≤ cs.length := by
        split at hsplit
        · rw [hsplit]
        · exact hsplit.le
      rw [if_neg (by simp)]
      simp only [length_cons, length_nil] at hlength ⊢
      omega

/-- No component but the last one ends, without the blanks around it, in a backslash that would
escape what follows. -/
def Separable (dn : Bytes) : Prop :=
  ∀ piece ∈ ((pieces (trimSpace dn) false).filter (trimSpace · ≠ [])).dropLast,
    escapes (trimSpace piece) false = false

instance (dn : Bytes) : Decidable (Separable dn) :=
  inferInstanceAs (Decidable (∀ piece ∈ _, _))

lemma splitDN_eq_map (s : Bytes) :
    splitDN s = ((pieces s false).filter (trimSpace · ≠ [])).map trimSpace := by
  rw [Acl.splitDN_eq]
  induction pieces s false with
  | nil => rfl
  | cons piece others ih =>
    rw [flatMap_cons, ih, component, filter_cons]
    split <;> simp_all

section

variable {dn : Bytes} {path : List Bytes} (h : parseDN dn = .ok path)
include h

lemma normal_of_mem_path (hmem : c ∈ path) : Normal c := by
  obtain ⟨rdn, hrdn, hnormal⟩ := exists_of_mem_path h hmem
  obtain ⟨htrim, hc⟩ := normalizeRDN_normal hnormal
  refine ⟨htrim, ne_nil_of_mem_path h hmem, hc, pieces_normal hnormal ?_⟩
  rw [splitDN_eq_map] at hrdn
  obtain ⟨piece, hpiece, rfl⟩ := mem_map.mp hrdn
  have hcut := pieces_cut (mem_of_mem_filter hpiece)
  have hlength := length_pieces_trimSpace_le piece
  rw [hcut] at hlength
  exact pieces_eq_singleton hlength

lemma separable_iff : Separable dn ↔ ∀ c ∈ path.tail, escapes c false = false := by
  have hcomponents := (parseDN_ok_iff.mp h).2
  unfold Separable
  rw [splitDN_eq_map, map_map, ← forall₂_eq_eq_eq, forall₂_map_left_iff,
    forall₂_map_right_iff] at hcomponents
  generalize (pieces (trimSpace dn) false).filter _ = parts at *
  have hescapes : parts.map (fun piece => escapes (trimSpace piece) false) =
      path.reverse.map (escapes · false) := by
    rw [← forall₂_eq_eq_eq, forall₂_map_left_iff, forall₂_map_right_iff]
    refine hcomponents.imp fun piece c hc => ?_
    rw [escapes_normal hc, trimSpace_trimSpace]
  have hlast := congrArg dropLast hescapes
  rw [← map_dropLast, ← map_dropLast, dropLast_reverse] at hlast
  have hall := congrArg (fun l => ∀ b ∈ l, b = false) hlast
  simpa only [forall_mem_map, mem_reverse, eq_iff_iff] using hall

end

/-- A name is read as the components it is written from exactly when none of them but the root
takes the comma after it for its own. -/
lemma parseDN_intercalate_iff {path : List Bytes} (hne : path ≠ [])
    (h : ∀ c ∈ path, Normal c) :
    parseDN (joinDNReverse path) = .ok path ↔ ∀ c ∈ path.tail, escapes c false = false := by
  have hkept : ∀ c ∈ path.reverse, Normal c := fun c hc => h c (mem_reverse.mp hc)
  obtain ⟨htrim, hsplit⟩ := pieces_intercalate (reverse_ne_nil_iff.mpr hne) hkept
  rw [parseDN_ok_iff, joinDNReverse, htrim, splitDN_eq_map]
  simp only [dropLast_reverse, mem_reverse] at hsplit
  split at hsplit
  next hclean =>
    refine iff_of_true ⟨hne, ?_⟩ hclean
    rw [hsplit, filter_eq_self.mpr fun c hc => ?_, map_map]
    · refine map_congr_left fun c hc => ?_
      rw [Function.comp, (hkept c hc).trimmed, (hkept c hc).kept]
    · rw [(hkept c hc).trimmed]
      exact decide_eq_true (hkept c hc).ne_nil
  next hlost =>
    refine iff_of_false ?_ hlost
    rintro ⟨-, hcomponents⟩
    have hlength := congrArg length hcomponents
    simp only [length_map] at hlength
    exact absurd hsplit (not_lt.mpr (hlength ▸ length_filter_le _ _))

end Oba.Storage
