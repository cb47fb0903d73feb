import Oba.Acl.Evaluator
import Oba.Storage.Radix

/-! # What the scopes of a rule mean

A rule is compared with the end of a name as a text. The components of the name are the pieces
between the commas that no backslash escapes, so a comma of the text need not separate components,
and a text at the end of the name need not begin with one.
-/

namespace Oba.Acl

open List

open Storage (Bytes ascii isASCII toLower trimSpace splitDN splitLoop component normalizeRDN)

variable {l : List Bytes} {first s piece : Bytes} {escaped : Bool}

/-! ## Pieces of a text -/

/-- Whether the byte after the text is escaped. -/
def escapes : Bytes → Bool → Bool
  | [], escaped => escaped
  | _ :: rest, true => escapes rest false
  | c :: rest, false => escapes rest (c = 92)

/-- The pieces of a text between its unescaped commas. -/
def pieces : Bytes → Bool → List Bytes
  | [], _ => [[]]
  | c :: rest, true => (pieces rest false).modifyHead (c :: ·)
  | c :: rest, false =>
    if c = 44 then [] :: pieces rest false else (pieces rest (c = 92)).modifyHead (c :: ·)

lemma pieces_ne_nil (s : Bytes) (escaped : Bool) : pieces s escaped ≠ [] := by
  induction s, escaped using pieces.induct with
  | case1 | case3 => exact cons_ne_nil _ _
  | case2 c rest ih => simpa [pieces] using ih
  | case4 c rest hcomma ih => simpa [pieces, hcomma] using ih

lemma intercalate_modifyHead {c : UInt8} (h : l ≠ []) :
    [44].intercalate (l.modifyHead (c :: ·)) = c :: [44].intercalate l := by
  match l with
  | [] => exact absurd rfl h
  | [_] => rfl
  | _ :: _ :: _ => rfl

/-- The pieces make up the text. -/
lemma intercalate_pieces (s : Bytes) (escaped : Bool) :
    [44].intercalate (pieces s escaped) = s := by
  induction s, escaped using pieces.induct with
  | case1 => rfl
  | case2 c rest ih => rw [pieces, intercalate_modifyHead (pieces_ne_nil _ _), ih]
  | case3 rest ih =>
    have happend := Storage.intercalate_append [44] (cons_ne_nil ([] : Bytes) [])
      (pieces_ne_nil rest false)
    rwa [ih] at happend
  | case4 c rest hcomma ih =>
    rw [pieces, if_neg hcomma, intercalate_modifyHead (pieces_ne_nil _ _), ih]

lemma modifyHead_append {α : Type} {f : α → α} {l m : List α} (h : l ≠ []) :
    (l ++ m).modifyHead f = l.modifyHead f ++ m := by
  cases l with
  | nil => exact absurd rfl h
  | cons _ _ => rfl

lemma pieces_append_comma (rest : Bytes) (h : escapes first escaped = false) :
    pieces (first ++ 44 :: rest) escaped = pieces first escaped ++ pieces rest false := by
  induction first, escaped using pieces.induct with
  | case1 escaped =>
    obtain rfl : escaped = false := h
    rfl
  | case2 c first ih =>
    rw [cons_append, pieces, ih h, modifyHead_append (pieces_ne_nil _ _), pieces]
  | case3 first ih =>
    rw [cons_append, pieces, ih h]
    rfl
  | case4 c first hcomma ih =>
    rw [cons_append, pieces, if_neg hcomma, ih h, modifyHead_append (pieces_ne_nil _ _),
      pieces, if_neg hcomma]

lemma escapes_append (s t : Bytes) (escaped : Bool) :
    escapes (s ++ t) escaped = escapes t (escapes s escaped) := by
  induction s generalizing escaped with
  | nil => rfl
  | cons c s ih => cases escaped <;> exact ih _

/-- The first piece ends at an unescaped comma, and is not cut again. -/
lemma exists_of_pieces_cons {others : List Bytes} (h : pieces s escaped = piece :: others)
    (hne : others ≠ []) :
    ∃ rest, s = piece ++ 44 :: rest ∧ escapes piece escaped = false ∧
      pieces piece escaped = [piece] ∧ pieces rest false = others := by
  induction s, escaped using pieces.induct generalizing piece with
  | case1 => exact absurd (cons.inj h).2.symm hne
  | case3 s =>
    obtain ⟨rfl, hs⟩ := cons.inj h
    exact ⟨s, rfl, rfl, rfl, hs⟩
  | case2 c s ih =>
    obtain ⟨first, tail, hs⟩ := exists_cons_of_ne_nil (pieces_ne_nil s false)
    rw [pieces, hs] at h
    obtain ⟨rfl, rfl⟩ := cons.inj h
    obtain ⟨rest, rfl, hescapes, hfirst, hrest⟩ := ih hs
    exact ⟨rest, rfl, hescapes, by rw [pieces, hfirst]; rfl, hrest⟩
  | case4 c s hcomma ih =>
    obtain ⟨first, tail, hs⟩ := exists_cons_of_ne_nil (pieces_ne_nil s (c = 92))
    rw [pieces, if_neg hcomma, hs] at h
    obtain ⟨rfl, rfl⟩ := cons.inj h
    obtain ⟨rest, rfl, hescapes, hfirst, hrest⟩ := ih hs
    exact ⟨rest, rfl, hescapes, by rw [pieces, if_neg hcomma, hfirst]; rfl, hrest⟩

/-- Components are pieces without the blanks around them. -/
lemma splitLoop_eq (s current : Bytes) (escaped : Bool) :
    splitLoop s current escaped =
      ((pieces s escaped).modifyHead (current ++ ·)).flatMap component := by
  have hcons : ∀ (c : UInt8) (next : Bool) (rest current : Bytes),
      ((pieces rest next).modifyHead (c :: ·)).modifyHead (current ++ ·) =
        (pieces rest next).modifyHead (current ++ [c] ++ ·) := by
    intro c next rest current
    obtain ⟨piece, others, hpieces⟩ := exists_cons_of_ne_nil (pieces_ne_nil rest next)
    rw [hpieces]
    simp
  induction s, current, escaped using Oba.Storage.splitLoop.induct with
  | case1 current escaped => simp [splitLoop, pieces]
  | case2 c rest current ih => rw [splitLoop, ih, pieces, hcons]
  | case3 rest current ih =>
    rw [splitLoop, if_pos rfl, ih, pieces, if_neg (by decide), hcons]
    rfl
  | case4 rest current _ ih =>
    rw [splitLoop, ih, pieces]
    obtain ⟨piece, others, hpieces⟩ := exists_cons_of_ne_nil (pieces_ne_nil rest false)
    rw [hpieces]
    simp
  | case5 c rest current hbackslash hcomma ih =>
    rw [splitLoop, if_neg hbackslash, if_neg hcomma, ih, pieces, if_neg hcomma, hcons,
      decide_eq_false hbackslash]

lemma splitDN_eq (s : Bytes) : splitDN s = (pieces s false).flatMap component := by
  obtain ⟨piece, others, hpieces⟩ := exists_cons_of_ne_nil (pieces_ne_nil s false)
  rw [splitDN, splitLoop_eq, hpieces]
  rfl

/-! ## Plain texts -/

/-- The components of a text as the directory keeps them, where they are RDNs. -/
def components (s : Bytes) : List Bytes :=
  (splitDN s).map fun rdn => (normalizeRDN rdn).toOption.getD rdn

/-- A text of ASCII that is made up of its components and the commas between them. -/
@[mk_iff]
structure Plain (s : Bytes) : Prop where
  ascii : isASCII s
  joined : [44].intercalate (splitDN s) = s
  normal : components s = splitDN s

instance (s : Bytes) : Decidable (Plain s) :=
  decidable_of_iff _ (plain_iff s).symm

/-- The length of a text, with a comma after each piece. -/
def weight (l : List Bytes) : Nat := (l.map fun piece => piece.length + 1).sum

lemma length_intercalate (h : l ≠ []) : ([44].intercalate l).length + 1 = weight l := by
  induction l with
  | nil => exact absurd rfl h
  | cons piece l ih =>
    by_cases hnil : l = []
    · subst hnil
      simp [weight, intercalate]
    · have hlength := congrArg length
        (Storage.intercalate_append [44] (cons_ne_nil piece []) hnil)
      have hfirst : [44].intercalate [piece] = piece := by simp [intercalate]
      have hweight : weight (piece :: l) = piece.length + 1 + weight l := rfl
      rw [hfirst, length_append, length_append, length_singleton, singleton_append] at hlength
      rw [hweight, ← ih hnil]
      omega

lemma weight_component_le (piece : Bytes) : weight (component piece) ≤ piece.length + 1 := by
  unfold component weight
  have hle := (Storage.trimSpace_sublist piece).length_le
  split
  · exact Nat.zero_le _
  · simpa using hle

/-- A component that weighs as much as its piece is the piece. -/
lemma component_eq (h : weight (component piece) = piece.length + 1) :
    component piece = [piece] ∧ piece ≠ [] := by
  unfold component weight at *
  split at h
  · cases h
  next hne =>
    have htrim : trimSpace piece = piece :=
      (Storage.trimSpace_sublist piece).eq_of_length (by simpa using h)
    rw [if_neg hne]
    exact ⟨by rw [htrim], htrim ▸ hne⟩

lemma flatMap_component (h : weight (l.flatMap component) = weight l) :
    l.flatMap component = l ∧ [] ∉ l := by
  have happend : ∀ xs ys, weight (xs ++ ys) = weight xs + weight ys := by
    simp [weight]
  have hle : ∀ l, weight (l.flatMap component) ≤ weight l := by
    intro l
    induction l with
    | nil => exact le_rfl
    | cons piece l ih =>
      rw [flatMap_cons, happend]
      exact Nat.add_le_add (weight_component_le piece) ih
  induction l with
  | nil => exact ⟨rfl, not_mem_nil⟩
  | cons piece l ih =>
    have hfirst := weight_component_le piece
    have hrest := hle l
    have hweight : weight (piece :: l) = piece.length + 1 + weight l := rfl
    rw [flatMap_cons, happend] at h
    obtain ⟨hl, hnil⟩ := ih (by omega)
    have hweight : weight (component piece) = piece.length + 1 := by omega
    obtain ⟨hpiece, hne⟩ := component_eq hweight
    rw [flatMap_cons, hpiece, hl]
    exact ⟨rfl, fun hmem => (mem_cons.mp hmem).elim (fun heq => hne heq.symm) hnil⟩

/-- The components of a plain text are its pieces. -/
lemma Plain.splitDN_eq (h : Plain s) (hs : s ≠ []) :
    splitDN s = pieces s false ∧ [] ∉ pieces s false := by
  have hne : splitDN s ≠ [] := by
    intro hnil
    exact hs (h.joined.symm.trans (by rw [hnil]; rfl))
  have hlength := length_intercalate hne
  rw [h.joined] at hlength
  have hpieces := length_intercalate (pieces_ne_nil s false)
  rw [intercalate_pieces] at hpieces
  rw [Acl.splitDN_eq] at hlength ⊢
  exact flatMap_component (hlength.symm.trans hpieces)

/-! ## Scopes -/

/-- One component, complete: no unescaped comma stands in it or would stand after it. -/
def Unbroken (rdn : Bytes) : Prop := pieces rdn false = [rdn] ∧ escapes rdn false = false

section Texts

variable {base target : Bytes}

lemma suffix_pieces_iff : pieces base false <:+ pieces target false ↔
    target = base ∨ ∃ first, target = first ++ 44 :: base ∧ escapes first false = false := by
  constructor
  · rintro ⟨xs, hxs⟩
    induction xs generalizing target with
    | nil =>
      rw [← intercalate_pieces target false, ← hxs, nil_append, intercalate_pieces]
      exact .inl rfl
    | cons piece xs ih =>
      obtain ⟨rest, rfl, hpiece, -, hrest⟩ := exists_of_pieces_cons hxs.symm
        (append_ne_nil_of_right_ne_nil xs (pieces_ne_nil base false))
      obtain rfl | ⟨first, rfl, hfirst⟩ := ih hrest.symm
      · exact .inr ⟨piece, rfl, hpiece⟩
      · exact .inr ⟨piece ++ 44 :: first, by simp, by rw [escapes_append, hpiece]; exact hfirst⟩
  · rintro (rfl | ⟨first, rfl, hescapes⟩)
    · exact suffix_refl _
    · exact ⟨_, (pieces_append_comma base hescapes).symm⟩

lemma cons_pieces_iff : (∃ rdn, pieces target false = rdn :: pieces base false) ↔
    ∃ first, target = first ++ 44 :: base ∧ Unbroken first := by
  constructor
  · rintro ⟨rdn, hrdn⟩
    obtain ⟨rest, rfl, hescapes, hpieces, hrest⟩ := exists_of_pieces_cons hrdn (pieces_ne_nil _ _)
    rw [← intercalate_pieces rest false, hrest, intercalate_pieces]
    exact ⟨rdn, rfl, hpieces, hescapes⟩
  · rintro ⟨first, rfl, hpieces, hescapes⟩
    exact ⟨first, by rw [pieces_append_comma base hescapes, hpieces]; rfl⟩

lemma Plain.ne_nil_of_comma {rest : Bytes} (h : Plain target)
    (heq : target = first ++ 44 :: rest) :
    first ≠ [] := by
  rintro rfl
  have hne : target ≠ [] := by simp [heq]
  refine (h.splitDN_eq hne).2 ?_
  rw [heq]
  exact mem_cons_self

lemma Plain.suffix_splitDN_iff (hbase : Plain base) (htarget : Plain target) (hne : base ≠ []) :
    splitDN base <:+ splitDN target ↔
      target = base ∨ ∃ first, target = first ++ 44 :: base ∧ escapes first false = false := by
  by_cases hempty : target = []
  · subst hempty
    rw [(hbase.splitDN_eq hne).1]
    have hnil : splitDN [] = [] := rfl
    simp [hnil, hne.symm, pieces_ne_nil]
  · rw [(hbase.splitDN_eq hne).1, (htarget.splitDN_eq hempty).1, suffix_pieces_iff]

lemma Plain.cons_splitDN_iff (hbase : Plain base) (htarget : Plain target) (hne : base ≠ []) :
    (∃ rdn, splitDN target = rdn :: splitDN base) ↔
      ∃ first, target = first ++ 44 :: base ∧ Unbroken first := by
  by_cases hempty : target = []
  · subst hempty
    have hnil : splitDN [] = [] := rfl
    simp [hnil]
  · rw [(hbase.splitDN_eq hne).1, (htarget.splitDN_eq hempty).1, cons_pieces_iff]

lemma trimSuffix_append (s last : Bytes) : trimSuffix (s ++ last) last = s := by
  rw [trimSuffix]
  simp

lemma trimSuffix_of_not_mem (h : 44 ∉ s) : trimSuffix s [44] = s := by
  refine if_neg fun hlast => h ?_
  exact (isSuffixOf_iff_suffix.mp hlast).subset mem_cons_self

/-- The text before the parent has no comma, or only one at its end. -/
lemma isImmediateChild_iff (hbase : base ≠ []) : isImmediateChild base target ↔
    ∃ first, first ≠ [] ∧ 44 ∉ first ∧ (target = first ++ base ∨ target = first ++ 44 :: base) := by
  have hends : ∀ first, isImmediateChild base (first ++ base) =
      (decide (first ≠ []) && decide (trimSuffix first [44] ≠ []) &&
        decide (44 ∉ trimSuffix first [44])) := by
    intro first
    unfold isImmediateChild
    rw [if_neg (by simp [hbase]), trimSuffix_append]
    by_cases hfirst : first = []
    · simp [hfirst]
    · by_cases htrim : trimSuffix first [44] = []
      · simp [hfirst, htrim]
      · simp [hfirst, htrim]
  constructor
  · intro h
    have hsuffix : base <:+ target := by
      unfold isImmediateChild at h
      split at h
      · cases h
      · split at h
        · cases h
        next hsuffix => exact isSuffixOf_iff_suffix.mp (by simpa using hsuffix)
    obtain ⟨first, rfl⟩ := hsuffix
    rw [hends, Bool.and_eq_true, Bool.and_eq_true, decide_eq_true_iff, decide_eq_true_iff,
      decide_eq_true_iff] at h
    obtain ⟨⟨hfirst, htrim⟩, hcomma⟩ := h
    by_cases hlast : [44].isSuffixOf first
    · obtain ⟨rdn, rfl⟩ := isSuffixOf_iff_suffix.mp hlast
      rw [trimSuffix_append] at htrim hcomma
      exact ⟨rdn, htrim, hcomma, .inr (by simp)⟩
    · have htrimmed : trimSuffix first [44] = first := if_neg hlast
      rw [htrimmed] at hcomma
      exact ⟨first, hfirst, hcomma, .inl rfl⟩
  · rintro ⟨first, hfirst, hcomma, rfl | rfl⟩
    · rw [hends, trimSuffix_of_not_mem hcomma]
      simp [hfirst, hcomma]
    · rw [append_cons, hends, trimSuffix_append]
      simp [hfirst, hcomma]

lemma isSubtreeMatch_iff (hbase : base ≠ []) : isSubtreeMatch base target ↔
    target = base ∨ ∃ first, target = first ++ 44 :: base := by
  unfold isSubtreeMatch
  rw [if_neg hbase]
  by_cases htarget : target = []
  · rw [htarget]
    simp [hbase.symm]
  · rw [if_neg htarget, decide_eq_true_iff, isSuffixOf_iff_suffix]
    refine or_congr_right ⟨?_, ?_⟩
    · rintro ⟨first, rfl⟩
      exact ⟨first, rfl⟩
    · rintro ⟨first, rfl⟩
      exact suffix_append first _

/-- The commas before a rule with scope one are those that separate components: no comma-free text
runs into the rule's target, and what stands before the comma is one component just if it has no
comma. An empty target has no children. -/
structure OneSpelled (base target : Bytes) : Prop where
  joined : ∀ first, base ≠ [] → target = first ++ base → 44 ∉ first → first = []
  comma : ∀ first, base ≠ [] → target = first ++ 44 :: base → (44 ∉ first ↔ Unbroken first)
  root : base = [] → (splitDN target).length ≠ 1

/-- When the comparison of texts finds exactly the children. -/
lemma isImmediateChild_spelled_iff (hbase : Plain base) (htarget : Plain target) :
    (isImmediateChild base target ↔ ∃ rdn, splitDN target = rdn :: splitDN base) ↔
      OneSpelled base target := by
  by_cases hnil : base = []
  · subst hnil
    constructor
    · intro h
      refine ⟨fun _ hne => absurd rfl hne, fun _ hne => absurd rfl hne, fun _ hlength => ?_⟩
      obtain ⟨rdn, hrdn⟩ := length_eq_one_iff.mp hlength
      exact absurd (h.mpr ⟨rdn, hrdn⟩) Bool.false_ne_true
    · intro h
      refine ⟨fun hfalse => absurd hfalse Bool.false_ne_true, ?_⟩
      rintro ⟨rdn, hrdn⟩
      exact absurd (congrArg length hrdn) (h.root rfl)
  · rw [isImmediateChild_iff hnil, hbase.cons_splitDN_iff htarget hnil]
    have hfirst : ∀ first, target = first ++ 44 :: base → first ≠ [] :=
      fun first => htarget.ne_nil_of_comma
    have hsame : ∀ {first first' : Bytes}, target = first ++ 44 :: base →
        target = first' ++ 44 :: base → first = first' := fun h h' =>
      append_cancel_right (h.symm.trans h')
    have hmem : ∀ {first first' : Bytes}, target = first ++ 44 :: base →
        target = first' ++ base → 44 ∈ first' := by
      intro first first' h h'
      rw [h, append_cons] at h'
      rw [← append_cancel_right h']
      simp
    constructor
    · intro h
      refine ⟨fun first _ heq hcomma => ?_, fun first _ heq => ⟨fun hcomma => ?_, fun hone => ?_⟩,
        fun hbase => absurd hbase hnil⟩
      · by_contra hne
        obtain ⟨first', heq', -⟩ := h.mp ⟨first, hne, hcomma, .inl heq⟩
        exact hcomma (hmem heq' heq)
      · obtain ⟨first', heq', hone⟩ := h.mp ⟨first, hfirst first heq, hcomma, .inr heq⟩
        rwa [hsame heq heq']
      · obtain ⟨first', -, hcomma, heq' | heq'⟩ := h.mpr ⟨first, heq, hone⟩
        · exact absurd (hmem heq heq') hcomma
        · rwa [hsame heq heq']
    · intro h
      constructor
      · rintro ⟨first, hne, hcomma, heq | heq⟩
        · exact absurd (h.joined first hnil heq hcomma) hne
        · exact ⟨first, heq, (h.comma first hnil heq).mp hcomma⟩
      · rintro ⟨first, heq, hone⟩
        exact ⟨first, hfirst first heq, (h.comma first hnil heq).mpr hone, .inr heq⟩

/-- The comma before a rule with scope subtree separates components. -/
def SubtreeSpelled (base target : Bytes) : Prop :=
  ∀ first, base ≠ [] → target = first ++ 44 :: base → escapes first false = false

/-- When the comparison of texts finds exactly the descendants. -/
lemma isSubtreeMatch_spelled_iff (hbase : Plain base) (htarget : Plain target) :
    (isSubtreeMatch base target ↔ splitDN base <:+ splitDN target) ↔
      SubtreeSpelled base target := by
  by_cases hnil : base = []
  · subst hnil
    have htrue : isSubtreeMatch [] target = true := if_pos rfl
    have hsuffix : splitDN [] <:+ splitDN target := nil_suffix
    exact ⟨fun _ _ hne => absurd rfl hne, fun _ => ⟨fun _ => hsuffix, fun _ => htrue⟩⟩
  · rw [isSubtreeMatch_iff hnil, hbase.suffix_splitDN_iff htarget hnil]
    constructor
    · intro h first _ heq
      rcases h.mp (.inr ⟨first, heq⟩) with hself | ⟨first', heq', hescapes⟩
      · have hlength := congrArg length (heq.symm.trans hself)
        rw [length_append, length_cons] at hlength
        omega
      · rwa [append_cancel_right (heq.symm.trans heq')]
    · intro h
      refine or_congr_right ⟨?_, ?_⟩
      · rintro ⟨first, heq⟩
        exact ⟨first, heq, h first hnil heq⟩
      · rintro ⟨first, heq, -⟩
        exact ⟨first, heq⟩

end Texts

/-- What the scopes of a rule are to mean for a name, components being split at unescaped commas:
its parent is the rule's target, or the rule's target ends it. -/
structure ScopeMeaning (rule : ACL) (target : Bytes) : Prop where
  one : rule.scope = .one → (matchesTarget rule target ↔
    ∃ rdn, components (toLower target) = rdn :: components (toLower rule.target))
  subtree : rule.scope = .subtree → (matchesTarget rule target ↔
    components (toLower rule.target) <:+ components (toLower target))

/-- The text of a rule's target stands in the name as its components do. -/
structure ScopeSpelled (rule : ACL) (target : Bytes) : Prop where
  one : rule.scope = .one → OneSpelled (toLower rule.target) (toLower target)
  subtree : rule.scope = .subtree → SubtreeSpelled (toLower rule.target) (toLower target)

/-- A rule for everybody. -/
def ruleFor (target : String) (scope : Scope) : ACL :=
  ⟨ascii target, scope, ascii "*", Right.read, [], false⟩

end Oba.Acl
