import Oba.Filters.Parser
import Oba.Filters.Rendering

/-! # Reading the text of a filter

The parser takes values as they are written: it does not undo escapes, and an operator inside a
value is taken for that of the filter. The text of a filter is read as the filter itself exactly
if no value needs escapes or holds such an operator and nothing in the filter is empty.
-/

namespace Oba.Filters

open Greedy List
open Storage (Bytes ascii trimSpace isSpace trimSpace_of_ends trimSpace_of_not_isSpace)

variable {b : UInt8} {s text : Bytes} {children : List Filter}

/-! ## Names -/

namespace IsName

variable {attr : Bytes} (hname : IsName attr)
include hname

lemma not_mem (hb : isNameByte b = false) : b ∉ attr := by
  intro hmem
  rw [hname.2 b hmem] at hb
  cases hb

lemma trimSpace_eq : trimSpace attr = attr := by
  apply trimSpace_of_not_isSpace
  intro b hb
  have hbyte := hname.2 b hb
  cases hspace : isSpace b with
  | false => rfl
  | true =>
    unfold isSpace at hspace
    unfold isNameByte at hbyte
    simp only [decide_eq_true_eq, UInt8.le_iff_toNat_le, ← UInt8.toNat_inj,
      UInt8.toNat_ofNat] at hspace hbyte
    omega

end IsName

/-! ## Operators -/

section

variable {attr front : Bytes} {a : UInt8}

/-- An operator that does not begin in `front` is looked for behind it. -/
lemma splitAtOperator_eq_none_iff (hne : front ≠ []) (hfront : a ∉ front) (op rest : Bytes) :
    splitAtOperator (a :: op) (front ++ rest) = none ↔ ¬ a :: op <:+: rest := by
  rw [← index_eq_none_iff, splitAtOperator, index_append_of_not_mem hfront]
  cases hindex : index (a :: op) rest with
  | none => simp
  | some i =>
    obtain ⟨n, hn⟩ : ∃ n, front.length + i = n + 1 :=
      Nat.exists_eq_succ_of_ne_zero (by have := length_pos_iff.mpr hne; omega)
    simp [hn]

variable (hname : IsName attr)
include hname

/-- Behind a name and the sign of its filter. -/
lemma splitAtOperator_behind (op sign written : Bytes)
    (hop : op.head?.any fun a => !isNameByte a && !sign.contains a) :
    splitAtOperator op (attr ++ (sign ++ written)) = none ↔ ¬ op <:+: written := by
  obtain _ | ⟨a, op⟩ := op
  · cases hop
  · obtain ⟨ha, hsign⟩ : isNameByte a = false ∧ a ∉ sign := by simpa using hop
    rw [← append_assoc]
    refine splitAtOperator_eq_none_iff (append_ne_nil_of_left_ne_nil hname.1 sign) ?_ op written
    simp [hname.not_mem ha, hsign]

lemma splitAtOperator_name (op value : Bytes) (hop : op.head?.any (!isNameByte ·)) :
    splitAtOperator op (attr ++ (op ++ value)) = some (attr, value) := by
  have hindex : index op (attr ++ (op ++ value)) = some attr.length := by
    obtain _ | ⟨a, op⟩ := op
    · cases hop
    · rw [index_append_of_not_mem (hname.not_mem (by simpa using hop)),
        index_of_isPrefix (prefix_append (a :: op) value)]
      rfl
  obtain ⟨n, hn⟩ := Nat.exists_eq_succ_of_ne_zero
    (pos_iff_ne_zero.mp (length_pos_iff.mpr hname.1))
  have htake : (attr ++ (op ++ value)).take attr.length = attr := take_left
  have hdrop : (attr ++ (op ++ value)).drop (attr.length + op.length) = value := by
    rw [← length_append, ← append_assoc, drop_left]
  rw [splitAtOperator, hindex]
  rw [hn] at htake hdrop ⊢
  dsimp only
  rw [htake, hdrop, hname.trimSpace_eq]

variable (value written : Bytes)

lemma parseSimpleFilter_greaterOrEqual :
    parseSimpleFilter (attr ++ (ascii ">=" ++ written)) = .ok (.greaterOrEqual attr value) ↔
      written = value := by
  have hsplit := splitAtOperator_name hname (ascii ">=") written rfl
  rw [parseSimpleFilter, hsplit]
  simp [named_eq_ok, hname.1]

lemma parseSimpleFilter_lessOrEqual :
    parseSimpleFilter (attr ++ (ascii "<=" ++ written)) = .ok (.lessOrEqual attr value) ↔
      ¬ ascii ">=" <:+: written ∧ written = value := by
  have hgreater := splitAtOperator_behind hname (ascii ">=") (ascii "<=") written rfl
  have hless := splitAtOperator_name hname (ascii "<=") written rfl
  rw [← hgreater, parseSimpleFilter]
  cases splitAtOperator (ascii ">=") (attr ++ (ascii "<=" ++ written)) with
  | none => simp [hless, named_eq_ok, hname.1]
  | some found => simp [named_eq_ok]

lemma parseSimpleFilter_approxMatch :
    parseSimpleFilter (attr ++ (ascii "~=" ++ written)) = .ok (.approxMatch attr value) ↔
      (¬ ascii ">=" <:+: written ∧ ¬ ascii "<=" <:+: written) ∧ written = value := by
  have hgreater := splitAtOperator_behind hname (ascii ">=") (ascii "~=") written rfl
  have hless := splitAtOperator_behind hname (ascii "<=") (ascii "~=") written rfl
  have happrox := splitAtOperator_name hname (ascii "~=") written rfl
  rw [← hgreater, ← hless, parseSimpleFilter]
  cases splitAtOperator (ascii ">=") (attr ++ (ascii "~=" ++ written)) with
  | none =>
    cases splitAtOperator (ascii "<=") (attr ++ (ascii "~=" ++ written)) with
    | none => simp [happrox, named_eq_ok, hname.1]
    | some found => simp [named_eq_ok]
  | some found => simp [named_eq_ok]

/-- Filters with an operator of two characters. -/
def Filter.isOrdering : Filter → Bool
  | .greaterOrEqual _ _ | .lessOrEqual _ _ | .approxMatch _ _ => true
  | _ => false

/-- The text behind a single equals sign has no operator that is looked for first. -/
def Operatorless (written : Bytes) : Prop :=
  ¬ ascii ">=" <:+: written ∧ ¬ ascii "<=" <:+: written ∧ ¬ ascii "~=" <:+: written

/-- Behind a single equals sign, a filter of another kind is read unless there is another
operator. -/
lemma parseSimpleFilter_equals {f : Filter} (hf : f.isOrdering = false) :
    parseSimpleFilter (attr ++ (ascii "=" ++ written)) = .ok f ↔
      Operatorless written ∧ readEquals attr written = f := by
  have hgreater := splitAtOperator_behind hname (ascii ">=") (ascii "=") written rfl
  have hless := splitAtOperator_behind hname (ascii "<=") (ascii "=") written rfl
  have happrox := splitAtOperator_behind hname (ascii "~=") (ascii "=") written rfl
  have hequals := splitAtOperator_name hname (ascii "=") written rfl
  have hother : ∀ {x : Bytes} {g : Filter}, g.isOrdering → named x g ≠ .ok f := by
    intro x g hg heq
    rw [(named_eq_ok.mp heq).2, hf] at hg
    cases hg
  rw [Operatorless, ← hgreater, ← hless, ← happrox, parseSimpleFilter]
  cases splitAtOperator (ascii ">=") (attr ++ (ascii "=" ++ written)) with
  | none =>
    cases splitAtOperator (ascii "<=") (attr ++ (ascii "=" ++ written)) with
    | none =>
      cases splitAtOperator (ascii "~=") (attr ++ (ascii "=" ++ written)) with
      | none => simp [hequals, named_eq_ok, hname.1]
      | some found => exact iff_of_false (hother rfl) (by simp)
    | some found => exact iff_of_false (hother rfl) (by simp)
  | some found => exact iff_of_false (hother rfl) (by simp)

lemma parseSimpleFilter_equality :
    parseSimpleFilter (attr ++ (ascii "=" ++ escape value)) = .ok (.equality attr value) ↔
      escape value = value ∧ Operatorless value := by
  have hstar : 42 ∉ escape value := fun hmem => (inert_escape value 42 hmem).2.2 rfl
  have hread : readEquals attr (escape value) = .equality attr (escape value) := by
    rw [readEquals, if_neg, if_neg hstar]
    intro heq
    exact hstar (heq ▸ mem_singleton_self 42)
  rw [parseSimpleFilter_equals hname (escape value) rfl, hread]
  constructor
  · rintro ⟨hplain, heq⟩
    have hsame : escape value = value := by simpa using heq
    exact ⟨hsame, hsame ▸ hplain⟩
  · rintro ⟨hsame, hplain⟩
    rw [hsame]
    exact ⟨hplain, rfl⟩

lemma parseSimpleFilter_present :
    parseSimpleFilter (attr ++ ascii "=*") = .ok (.present attr) :=
  (parseSimpleFilter_equals hname (ascii "*") rfl).mpr ⟨by unfold Operatorless; decide, rfl⟩

end

/-! ## Substrings -/

namespace SubstringFilter

variable (sf : SubstringFilter)

lemma not_mem_parts : ∀ part ∈ sf.parts, (42 : UInt8) ∉ part := by
  intro part hpart hmem
  have hescaped : ∃ c, part = escape c := by
    simp only [parts, cons_append, mem_cons, mem_append, mem_map, not_mem_nil, or_false] at hpart
    rcases hpart with rfl | ⟨c, -, rfl⟩ | rfl
    · exact ⟨_, rfl⟩
    · exact ⟨c, rfl⟩
    · exact ⟨_, rfl⟩
  obtain ⟨c, rfl⟩ := hescaped
  exact (inert_escape c 42 hmem).2.2 rfl

lemma splitOn_parts : ([42].intercalate sf.parts).splitOn 42 = sf.parts :=
  splitOn_intercalate 42 sf.not_mem_parts (by simp [parts])

lemma parseSubstringFilter_parts (attr : Bytes) :
    parseSubstringFilter attr ([42].intercalate sf.parts) =
      .substring ⟨attr, escape sf.initial, (sf.any.map escape).filter (· ≠ []),
        escape sf.final⟩ := by
  have hlast : (escape sf.initial :: sf.any.map escape ++ [escape sf.final]).getLastD [] =
      escape sf.final := by
    rw [getLastD_eq_getLast?, getLast?_concat]
    rfl
  rw [parseSubstringFilter, splitOn_parts, parts, hlast]
  simp

/-- Without components the text is a single star. -/
lemma intercalate_parts_eq_star_iff :
    [42].intercalate sf.parts = [42] ↔ sf.initial = [] ∧ sf.any = [] ∧ sf.final = [] := by
  constructor
  · intro heq
    have hsplit := sf.splitOn_parts
    rw [heq, show splitOn (42 : UInt8) [42] = [[], []] from rfl] at hsplit
    cases hany : sf.any <;> simp_all [parts, escape_eq_nil_iff]
  · rintro ⟨hinitial, hany, hfinal⟩
    simp [parts, hinitial, hany, hfinal, escape, escapeFrom]

/-- The middle components are read as they are exactly if they need no escapes and none of them
is empty. -/
lemma filter_map_escape_eq_iff (any : List Bytes) :
    (any.map escape).filter (· ≠ []) = any ↔ ∀ c ∈ any, c ≠ [] ∧ escape c = c := by
  constructor
  · intro heq
    have hall : (any.map escape).filter (· ≠ []) = any.map escape := by
      apply List.Sublist.eq_of_length filter_sublist
      rw [heq, length_map]
    have hmap : any.map escape = any := hall.symm.trans heq
    have hsame := map_eq_map_iff.mp (hmap.trans (map_id any).symm)
    intro c hc
    have hne := filter_eq_self.mp hall (escape c) (mem_map_of_mem hc)
    exact ⟨by simpa [escape_eq_nil_iff] using hne, hsame c hc⟩
  · intro hall
    have hmap : any.map escape = any :=
      (map_congr_left fun c hc => (hall c hc).2).trans (map_id any)
    rw [hmap, filter_eq_self]
    intro c hc
    simpa using (hall c hc).1

/-- The text of a substring filter is read as this filter. -/
structure Plain : Prop where
  some_component : ¬ (sf.initial = [] ∧ sf.any = [] ∧ sf.final = [])
  initial : escape sf.initial = sf.initial
  any : ∀ c ∈ sf.any, c ≠ [] ∧ escape c = c
  final : escape sf.final = sf.final
  operatorless : Operatorless ([42].intercalate (sf.initial :: sf.any ++ [sf.final]))

lemma parts_of_escape_eq (hinitial : escape sf.initial = sf.initial)
    (hany : ∀ c ∈ sf.any, c ≠ [] ∧ escape c = c) (hfinal : escape sf.final = sf.final) :
    sf.parts = sf.initial :: sf.any ++ [sf.final] := by
  have hmap : sf.any.map escape = sf.any :=
    (map_congr_left fun c hc => (hany c hc).2).trans (map_id sf.any)
  rw [parts, hinitial, hmap, hfinal]

lemma readEquals_parts (attr : Bytes)
    (hsome : ¬ (sf.initial = [] ∧ sf.any = [] ∧ sf.final = [])) :
    readEquals attr ([42].intercalate sf.parts) =
      .substring ⟨attr, escape sf.initial, (sf.any.map escape).filter (· ≠ []),
        escape sf.final⟩ := by
  have hstar : 42 ∈ [42].intercalate sf.parts := by
    cases hany : sf.any <;> simp [parts, intercalate, hany]
  rw [readEquals, if_neg (mt sf.intercalate_parts_eq_star_iff.mp hsome), if_pos hstar,
    parseSubstringFilter_parts]

lemma parseSimpleFilter_substring (hname : IsName sf.attr) :
    parseSimpleFilter (sf.attr ++ (ascii "=" ++ [42].intercalate sf.parts)) = .ok (.substring sf) ↔
      sf.Plain := by
  rw [parseSimpleFilter_equals hname _ rfl]
  constructor
  · rintro ⟨hplain, heq⟩
    have hsome : ¬ (sf.initial = [] ∧ sf.any = [] ∧ sf.final = []) := by
      intro hempty
      rw [readEquals, if_pos (sf.intercalate_parts_eq_star_iff.mpr hempty)] at heq
      cases heq
    rw [readEquals_parts sf _ hsome] at heq
    injection heq with heq
    have hinitial : escape sf.initial = sf.initial := congrArg SubstringFilter.initial heq
    have hany := (filter_map_escape_eq_iff _).mp (congrArg SubstringFilter.any heq)
    have hfinal : escape sf.final = sf.final := congrArg SubstringFilter.final heq
    rw [parts_of_escape_eq sf hinitial hany hfinal] at hplain
    exact ⟨hsome, hinitial, hany, hfinal, hplain⟩
  · intro h
    rw [readEquals_parts sf _ h.some_component, (filter_map_escape_eq_iff _).mpr h.any, h.initial,
      h.final, parts_of_escape_eq sf h.initial h.any h.final]
    exact ⟨h.operatorless, rfl⟩

end SubstringFilter

/-! ## Parentheses -/

/-- The search for a closing parenthesis goes on behind `s` as before it. -/
def Balanced (s : Bytes) : Prop :=
  ∀ (depth : Int) (rest : Bytes), 1 ≤ depth →
    closing depth (s ++ rest) = (closing depth rest).map (s.length + ·)

lemma balanced_nil : Balanced [] := by
  intro depth rest _
  simp

lemma Balanced.append {t : Bytes} (hs : Balanced s) (ht : Balanced t) : Balanced (s ++ t) := by
  intro depth rest hdepth
  rw [append_assoc, hs depth _ hdepth, ht depth _ hdepth, Option.map_map, length_append]
  congr 1
  funext i
  simp only [Function.comp_apply]
  omega

lemma Balanced.cons (hopen : b ≠ 40) (hclose : b ≠ 41) (hs : Balanced s) : Balanced (b :: s) := by
  have hbyte : Balanced [b] := fun depth rest _ => by simp [closing, hopen, hclose, add_comm]
  exact hbyte.append hs

lemma balanced_of_forall (hs : ∀ b ∈ s, b ≠ 40 ∧ b ≠ 41) : Balanced s := by
  induction s with
  | nil => exact balanced_nil
  | cons b rest ih =>
    obtain ⟨hb, hrest⟩ := forall_mem_cons.mp hs
    exact .cons hb.1 hb.2 (ih hrest)

lemma closing_cons_parens (hs : Balanced s) {depth : Int} (hdepth : 0 ≤ depth) (rest : Bytes) :
    closing depth (40 :: (s ++ [41]) ++ rest) =
      if depth = 0 then some (s.length + 1)
      else (closing depth rest).map ((40 :: (s ++ [41])).length + ·) := by
  rw [cons_append, append_assoc, closing, if_pos rfl, hs _ _ (by omega),
    singleton_append, closing, if_neg (by decide), if_pos rfl, Int.add_sub_cancel]
  by_cases hzero : depth = 0
  · simp [hzero]
  · rw [if_neg hzero, if_neg hzero, Option.map_map, Option.map_map]
    congr 1
    funext i
    simp only [Function.comp_apply, length_cons, length_append, length_nil]
    omega

lemma Balanced.parens (hs : Balanced s) : Balanced (40 :: (s ++ [41])) := by
  intro depth rest hdepth
  rw [closing_cons_parens hs (by omega), if_neg (by omega)]

lemma IsName.balanced {attr : Bytes} (hname : IsName attr) : Balanced attr :=
  balanced_of_forall fun _ hb =>
    ⟨fun h => hname.not_mem rfl (h ▸ hb), fun h => hname.not_mem rfl (h ▸ hb)⟩

lemma balanced_escape (value : Bytes) : Balanced (escape value) :=
  balanced_of_forall fun b hb => ⟨(inert_escape value b hb).1, (inert_escape value b hb).2.1⟩

lemma balanced_intercalate {parts : List Bytes} (hparts : ∀ part ∈ parts, Balanced part) :
    Balanced ([42].intercalate parts) := by
  induction parts with
  | nil => exact balanced_nil
  | cons part rest ih =>
    obtain ⟨hpart, hrest⟩ := forall_mem_cons.mp hparts
    cases rest with
    | nil => rwa [intercalate_singleton]
    | cons next rest =>
      rw [intercalate_cons_cons]
      exact (hpart.append (.cons (by decide) (by decide) balanced_nil)).append (ih hrest)

lemma SubstringFilter.balanced (sf : SubstringFilter) : Balanced ([42].intercalate sf.parts) := by
  apply balanced_intercalate
  simp only [parts, forall_mem_append, forall_mem_cons, forall_mem_map]
  exact ⟨⟨balanced_escape _, fun c _ => balanced_escape c⟩, balanced_escape _, by simp⟩

/-- A filter is written as its parentheses and a text in which parentheses are closed. -/
def Enclosed (s : Bytes) : Prop := ∃ body, s = 40 :: (body ++ [41]) ∧ Balanced body

lemma enclosed_simple {attr sign written : Bytes} (hname : IsName attr) (hsign : Balanced sign)
    (hwritten : Balanced written) :
    Enclosed (ascii "(" ++ attr ++ sign ++ written ++ ascii ")") := by
  refine ⟨attr ++ sign ++ written, ?_, (hname.balanced.append hsign).append hwritten⟩
  simp [ascii]

lemma enclosed_composite {sign : UInt8} (hopen : sign ≠ 40) (hclose : sign ≠ 41)
    (htext : Balanced text) : Enclosed ([40, sign] ++ text ++ ascii ")") :=
  ⟨sign :: text, rfl, .cons hopen hclose htext⟩

lemma Enclosed.balanced (h : Enclosed s) : Balanced s := by
  obtain ⟨body, rfl, hbody⟩ := h
  exact hbody.parens

mutual

lemma enclosed_render : ∀ {f : Filter}, Named f → Enclosed (render f)
  | .and _, hnamed | .or _, hnamed =>
    enclosed_composite (by decide) (by decide) (balanced_renderAll hnamed)
  | .not child, hnamed =>
    enclosed_composite (by decide) (by decide) (enclosed_render (f := child) hnamed).balanced
  | .substring sf, hname =>
    enclosed_simple hname (balanced_of_forall (by decide +kernel)) sf.balanced
  | .present attr, hname =>
    ⟨attr ++ ascii "=*", by simp [render, ascii],
      IsName.balanced hname |>.append (balanced_of_forall (by decide +kernel))⟩
  | .equality _ value, hname | .greaterOrEqual _ value, hname | .lessOrEqual _ value, hname
  | .approxMatch _ value, hname =>
    enclosed_simple hname (balanced_of_forall (by decide +kernel)) (balanced_escape value)

lemma balanced_renderAll : ∀ {children : List Filter}, AllNamed children →
    Balanced (renderAll children)
  | [], _ => balanced_nil
  | _ :: _, hnamed => (enclosed_render hnamed.1).balanced.append (balanced_renderAll hnamed.2)

end

/-! ## Reading filters -/

mutual

/-- The text of a filter is read as this filter. -/
def Plain : Filter → Prop
  | .and children => children ≠ [] ∧ AllPlain children
  | .or children => children ≠ [] ∧ AllPlain children
  | .not child => Plain child
  | .equality _ value => escape value = value ∧ Operatorless value
  | .substring sf => sf.Plain
  | .greaterOrEqual _ value => escape value = value
  | .lessOrEqual _ value => ¬ ascii ">=" <:+: escape value ∧ escape value = value
  | .present _ => True
  | .approxMatch _ value =>
    (¬ ascii ">=" <:+: escape value ∧ ¬ ascii "<=" <:+: escape value) ∧ escape value = value

def AllPlain : List Filter → Prop
  | [] => True
  | child :: rest => Plain child ∧ AllPlain rest

end

lemma Enclosed.not_isSpace_last (h : Enclosed s) : ∀ b ∈ s.getLast?, isSpace b = false := by
  obtain ⟨body, rfl, -⟩ := h
  rw [← cons_append, getLast?_concat]
  simp [isSpace]

lemma Enclosed.not_isSpace_first (h : Enclosed s) (rest : Bytes) :
    ∀ b ∈ (s ++ rest).head?, isSpace b = false := by
  obtain ⟨body, rfl, -⟩ := h
  simp [isSpace]

lemma trimSpace_enclosed (h : Enclosed s) : trimSpace s = s :=
  trimSpace_of_ends (s.append_nil ▸ h.not_isSpace_first []) h.not_isSpace_last

lemma not_isSpace_last_renderAll : ∀ {children : List Filter}, AllNamed children →
    ∀ b ∈ (renderAll children).getLast?, isSpace b = false
  | [], _, b, hb => by simp [renderAll] at hb
  | child :: rest, hnamed, b, hb => by
      rw [renderAll, getLast?_append] at hb
      rcases Option.or_eq_some_iff.mp hb with hlater | ⟨-, hfirst⟩
      · exact not_isSpace_last_renderAll hnamed.2 b hlater
      · exact (enclosed_render hnamed.1).not_isSpace_last b hfirst

lemma trimSpace_renderAll (hnamed : AllNamed children) :
    trimSpace (renderAll children) = renderAll children := by
  cases children with
  | nil => rfl
  | cons child rest =>
    exact trimSpace_of_ends ((enclosed_render hnamed.1).not_isSpace_first _)
      (not_isSpace_last_renderAll hnamed)

lemma length_le_renderAll : ∀ {children : List Filter}, AllNamed children →
    children.length ≤ (renderAll children).length
  | [], _ => Nat.zero_le _
  | child :: rest, hnamed => by
      obtain ⟨body, hbody, -⟩ := enclosed_render hnamed.1
      have hle := length_le_renderAll hnamed.2
      rw [renderAll, hbody]
      simp only [length_cons, length_append]
      omega

lemma parseFilter_parens (fuel : Nat) (body : Bytes) :
    parseFilter (fuel + 1) (40 :: (body ++ [41])) = parseInner (parseFilter fuel) body := by
  have hlast : (40 :: (body ++ [41])).getLast? = some 41 := by
    rw [← cons_append, getLast?_concat]
  have htrim : trimSpace (40 :: (body ++ [41])) = 40 :: (body ++ [41]) := by
    apply trimSpace_of_ends
    · simp [isSpace]
    · rw [hlast]
      simp [isSpace]
  rw [parseFilter, htrim]
  simp [hlast]

lemma parseComposite_eq_ok_iff {make : List Filter → Filter} (hmake : make.Injective)
    {result : Except FilterError (List Filter)} :
    parseComposite make result = .ok (make children) ↔ children ≠ [] ∧ result = .ok children := by
  cases result with
  | error err => simp [parseComposite]
  | ok found =>
    unfold parseComposite
    split
    next heq => cases heq
    next found' heq =>
      cases heq
      split
      next hempty => simp [hempty, eq_comm]
      next hfound =>
        simp only [Except.ok.injEq, hmake.eq_iff]
        exact ⟨fun h => ⟨h ▸ hfound, h⟩, And.right⟩

/-- One turn of the loop reads one filter. -/
lemma parseFilterLoop_enclosed {parse : Bytes → Except FilterError Filter} {n : Nat}
    {rest : Bytes} (htext : Enclosed text) (hrest : trimSpace rest = rest) (f : Filter)
    (fs : List Filter) :
    parseFilterLoop parse (n + 1) (text ++ rest) = .ok (f :: fs) ↔
      parse text = .ok f ∧ parseFilterLoop parse n rest = .ok fs := by
  obtain ⟨body, rfl, hbody⟩ := htext
  have hclosing : closing 0 (40 :: (body ++ [41]) ++ rest) = some (body.length + 1) := by
    rw [closing_cons_parens hbody le_rfl, if_pos rfl]
  have hlength : (40 :: (body ++ [41])).length = body.length + 1 + 1 := by simp
  have htake :
      (40 :: (body ++ [41]) ++ rest).take (body.length + 1 + 1) = 40 :: (body ++ [41]) := by
    rw [← hlength, take_left]
  have hdrop : (40 :: (body ++ [41]) ++ rest).drop (body.length + 1 + 1) = rest := by
    rw [← hlength, drop_left]
  rw [cons_append] at hclosing htake hdrop ⊢
  rw [parseFilterLoop, hclosing]
  dsimp only
  rw [htake, hdrop, hrest]
  cases parse (40 :: (body ++ [41])) with
  | error err => simp
  | ok found => cases parseFilterLoop parse n rest <;> simp [Except.map]

lemma parseInner_name {parse : Bytes → Except FilterError Filter} {attr : Bytes}
    (hname : IsName attr) (rest : Bytes) :
    parseInner parse (attr ++ rest) = parseSimpleFilter (attr ++ rest) := by
  obtain ⟨b, more, rfl⟩ := exists_cons_of_ne_nil hname.1
  have hother : ∀ {c : UInt8}, isNameByte c = false → b ≠ c := by
    rintro c hc rfl
    exact hname.not_mem hc mem_cons_self
  rw [cons_append, parseInner]
  simp [hother (c := 38) rfl, hother (c := 124) rfl, hother (c := 33) rfl]

lemma parseFilter_simple {attr : Bytes} (hname : IsName attr) (written : Bytes) (fuel : Nat) :
    parseFilter (fuel + 1) (40 :: (attr ++ written ++ [41])) =
      parseSimpleFilter (attr ++ written) := by
  rw [parseFilter_parens, parseInner_name hname]

lemma parseFilter_text {attr : Bytes} (hname : IsName attr) (sign written : Bytes) (fuel : Nat) :
    parseFilter (fuel + 1) (ascii "(" ++ attr ++ sign ++ written ++ ascii ")") =
      parseSimpleFilter (attr ++ (sign ++ written)) := by
  rw [← parseFilter_simple hname _ fuel]
  simp [ascii]

mutual

lemma parseFilter_render_iff : ∀ {f : Filter} {fuel : Nat}, Named f →
    (render f).length < fuel → (parseFilter fuel (render f) = .ok f ↔ Plain f)
  | .and children, fuel + 1, hnamed, hfuel => by
      have htext : render (.and children) = 40 :: (38 :: renderAll children ++ [41]) := rfl
      rw [htext] at hfuel ⊢
      rw [parseFilter_parens]
      refine (parseComposite_eq_ok_iff fun _ _ => Filter.and.inj).trans
        (and_congr_right fun _ => ?_)
      rw [parseFilterList, trimSpace_renderAll hnamed]
      exact parseFilterLoop_renderAll_iff hnamed (by simp at hfuel; omega)
        (length_le_renderAll hnamed)
  | .or children, fuel + 1, hnamed, hfuel => by
      have htext : render (.or children) = 40 :: (124 :: renderAll children ++ [41]) := rfl
      rw [htext] at hfuel ⊢
      rw [parseFilter_parens]
      refine (parseComposite_eq_ok_iff fun _ _ => Filter.or.inj).trans (and_congr_right fun _ => ?_)
      rw [parseFilterList, trimSpace_renderAll hnamed]
      exact parseFilterLoop_renderAll_iff hnamed (by simp at hfuel; omega)
        (length_le_renderAll hnamed)
  | .not child, fuel + 1, hnamed, hfuel => by
      have htext : render (.not child) = 40 :: (33 :: render child ++ [41]) := rfl
      rw [htext] at hfuel ⊢
      rw [parseFilter_parens]
      have ih := parseFilter_render_iff (f := child) hnamed
        (show (render child).length < fuel by simp at hfuel; omega)
      rw [Plain, ← ih]
      show (parseFilter fuel (trimSpace (render child))).map Filter.not = _ ↔ _
      rw [trimSpace_enclosed (enclosed_render (f := child) hnamed)]
      cases parseFilter fuel (render child) <;> simp [Except.map]
  | .equality attr value, fuel + 1, hname, _ => by
      rw [render, parseFilter_text hname]
      exact parseSimpleFilter_equality hname value
  | .substring sf, fuel + 1, hname, _ => by
      rw [render, parseFilter_text hname]
      exact sf.parseSimpleFilter_substring hname
  | .greaterOrEqual attr value, fuel + 1, hname, _ => by
      rw [render, parseFilter_text hname]
      exact parseSimpleFilter_greaterOrEqual hname value (escape value)
  | .lessOrEqual attr value, fuel + 1, hname, _ => by
      rw [render, parseFilter_text hname]
      exact parseSimpleFilter_lessOrEqual hname value (escape value)
  | .present attr, fuel + 1, hname, _ => by
      have htext : render (.present attr) = 40 :: (attr ++ ascii "=*" ++ [41]) := by
        simp [render, ascii]
      rw [htext, parseFilter_simple hname]
      exact iff_of_true (parseSimpleFilter_present hname) trivial
  | .approxMatch attr value, fuel + 1, hname, _ => by
      rw [render, parseFilter_text hname]
      exact parseSimpleFilter_approxMatch hname value (escape value)

lemma parseFilterLoop_renderAll_iff : ∀ {children : List Filter} {fuel n : Nat},
    AllNamed children → (renderAll children).length < fuel → children.length ≤ n →
      (parseFilterLoop (parseFilter fuel) n (renderAll children) = .ok children ↔ AllPlain children)
  | [], fuel, n, _, _, _ => by simp [renderAll, parseFilterLoop, AllPlain]
  | child :: rest, fuel, n + 1, hnamed, hfuel, hn => by
      rw [renderAll, length_append] at hfuel
      rw [renderAll, parseFilterLoop_enclosed (enclosed_render hnamed.1)
        (trimSpace_renderAll hnamed.2), parseFilter_render_iff hnamed.1 (by omega),
        parseFilterLoop_renderAll_iff hnamed.2 (by omega) (Nat.le_of_succ_le_succ hn), AllPlain]

end

/-- The text of a filter whose attributes have names is read as the filter itself exactly if the
filter is plain. -/
theorem parse_render_iff {f : Filter} (hnamed : Named f) : parse (render f) = .ok f ↔ Plain f := by
  have henclosed := enclosed_render hnamed
  have hne : render f ≠ [] := by
    obtain ⟨body, hbody, -⟩ := henclosed
    rw [hbody]
    exact cons_ne_nil _ _
  rw [parse, trimSpace_enclosed henclosed, if_neg hne]
  exact parseFilter_render_iff hnamed (Nat.lt_succ_self _)

/-- Persons whose surname does not begin with an a. -/
def personFilter : Filter :=
  .and [.equality (ascii "objectClass") (ascii "person"),
    .not (.substring ⟨ascii "sn", ascii "a", [], []⟩)]

theorem parse_render_iff_personFilter :
    parse (render personFilter) = .ok personFilter ↔ Plain personFilter :=
  parse_render_iff (f := personFilter)
    ⟨⟨by decide +kernel, by decide +kernel⟩, ⟨by decide +kernel, by decide +kernel⟩, trivial⟩

/-- A star in a value is read as its escape, an operator in a value is read as that of the
filter, and a conjunction of nothing is not read. -/
theorem parse_render_fails :
    parse (render (.equality (ascii "cn") (ascii "*"))) =
        .ok (.equality (ascii "cn") (ascii "\\2a")) ∧
      parse (render (.equality (ascii "cn") (ascii "a>=b"))) =
        .ok (.greaterOrEqual (ascii "cn=a") (ascii "b")) ∧
      parse (render (.and [])) = .error .invalidFilter :=
  ⟨rfl, rfl, rfl⟩

end Oba.Filters
