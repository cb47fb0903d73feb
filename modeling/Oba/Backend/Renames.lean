import Mathlib.Data.Finset.Max
import Oba.Backend.ModifyDN
import Oba.Storage.Newest

/-! # What a rename does to the directory

The entries below a renamed entry keep the part of their DN that comes before the old DN. The
code finds that part by the first occurrence of the text of the old DN, which need not be the one
at the end.
-/

namespace Oba.Backend

open Storage ObaDB List
open Function (update update_of_ne update_self)

/-! ## The names after a rename -/

/-- The entry is the given one or below it. -/
def inSubtree (old dn : Bytes) : Bool :=
  match parseDN old, parseDN dn with
  | .ok path, .ok q => path.isPrefixOf q
  | _, _ => false

/-- The entry is one level below the given one. -/
def isChild (old dn : Bytes) : Bool :=
  match parseDN old, parseDN dn with
  | .ok path, .ok q => RadixTree.childOf path q
  | _, _ => false

/-- The old DN at the end of a DN is replaced. -/
def rename (old new dn : Bytes) : Bytes :=
  if inSubtree old dn then dn.take (dn.length - old.length) ++ new else dn

/-- The names of a directory after a rename: those of the entry and of the entries below it have
the new DN at their end, no two have become one, and the other entries are the same. -/
structure Renamed (old new : Bytes) (directory directory' : Bytes → Option Attributes) :
    Prop where
  names : ∀ dn, (directory' dn).isSome ↔ ∃ d, (directory d).isSome ∧ rename old new d = dn
  distinct : ∀ d d', (directory d).isSome → (directory d').isSome →
    rename old new d = rename old new d' → d = d'
  others : ∀ d, (directory d).isSome → inSubtree old d = false → directory' d = directory d

/-- An entry below the given one. -/
structure Descends (directory : Bytes → Option Attributes) (old dn : Bytes) : Prop where
  entry : (directory dn).isSome
  below : inSubtree old dn
  ne : dn ≠ old

/-- What a rename needs besides: the DNs before and after it are as the index lists them, and if
there are entries below, one of them is a child, the new DN is not among theirs, and the names
that they should get are free. -/
structure Movable (directory : Bytes → Option Attributes) (old new : Bytes) : Prop where
  oldName : isCanonical old
  newName : isCanonical new
  child : ∀ dn, Descends directory old dn → ∃ c, Descends directory old c ∧ isChild old c
  outside : ∀ dn, Descends directory old dn → inSubtree old new → new = old
  canonical : ∀ dn, Descends directory old dn → isCanonical (replaceParentDN dn old new)
  free : ∀ dn, Descends directory old dn → (directory (rename old new dn)).isSome →
    rename old new dn = dn ∨ rename old new dn = old

/-- The old DN occurs in the DN of an entry below first at the end. -/
def AtEnd (directory : Bytes → Option Attributes) (old : Bytes) : Prop :=
  ∀ dn, Descends directory old dn → index old dn = some (dn.length - old.length)

section Names

variable {old new dn : Bytes} {path q : List Bytes}

lemma toLower_of_canonical (h : Canonical dn path) : toLower dn = dn := by
  have hnormalized := congrArg toLower h.normalized
  unfold normalizeDN at hnormalized
  rw [toLower_trimSpace, toLower_toLower] at hnormalized
  exact hnormalized.symm.trans h.normalized

section

variable (hold : Canonical old path)
include hold

lemma inSubtree_eq (hdn : Canonical dn q) : inSubtree old dn = path.isPrefixOf q := by
  unfold inSubtree
  rw [hold.parsed, hdn.parsed]

lemma inSubtree_self : inSubtree old old = true := by
  rw [inSubtree_eq hold hold, isPrefixOf_iff_prefix]

/-- The DN of an entry below has the old DN at its end. -/
lemma exists_relative (hdn : Canonical dn q) (hbelow : inSubtree old dn) (hne : dn ≠ old) :
    ∃ relative, relative ≠ [] ∧ dn = relative ++ [44] ++ old := by
  rw [inSubtree_eq hold hdn, isPrefixOf_iff_prefix] at hbelow
  obtain ⟨rest, rfl⟩ := hbelow
  have hrest : rest ≠ [] := by
    rintro rfl
    rw [append_nil] at hdn
    exact hne (hdn.joined.symm.trans hold.joined)
  have hpath : path ≠ [] := by
    rintro rfl
    exact hold.ne_nil hold.joined.symm
  refine ⟨joinDNReverse rest, joinDNReverse_ne_nil hrest fun c hc =>
    ne_nil_of_mem_path hdn.parsed (mem_append_right _ hc), ?_⟩
  rw [← hdn.joined, joinDNReverse_append hpath hrest, hold.joined]

lemma rename_self : rename old new old = new := by
  rw [rename, if_pos (inSubtree_self hold), Nat.sub_self, take_zero, nil_append]

end

lemma rename_of_not (h : inSubtree old dn = false) : rename old new dn = dn := by
  rw [rename, h]
  rfl

lemma rename_relative {relative : Bytes} (hbelow : inSubtree old dn)
    (hdn : dn = relative ++ [44] ++ old) : rename old new dn = relative ++ [44] ++ new := by
  have hlength : dn.length - old.length = (relative ++ [44]).length := by
    rw [hdn, length_append, Nat.add_sub_cancel]
  rw [rename, if_pos hbelow, hlength, hdn, take_left]

lemma index_le {part s : Bytes} {n : Nat} (h : part <+: s.drop n) :
    ∃ i ≤ n, index part s = some i ∧ part <+: s.drop i := by
  induction s generalizing n with
  | nil =>
    rw [drop_nil, prefix_nil] at h
    exact ⟨0, Nat.zero_le n, if_pos h, h ▸ prefix_rfl⟩
  | cons b rest ih =>
    unfold index
    by_cases hfirst : part.isPrefixOf (b :: rest)
    · exact ⟨0, Nat.zero_le n, if_pos hfirst, isPrefixOf_iff_prefix.mp hfirst⟩
    · rw [if_neg hfirst]
      cases n with
      | zero => exact absurd ( isPrefixOf_iff_prefix.mpr h) hfirst
      | succ n =>
        obtain ⟨i, hle, hindex, hpart⟩ := ih h
        exact ⟨i + 1, Nat.succ_le_succ hle, by rw [hindex]; rfl, hpart⟩

/-- A text that can be moved by one place consists of one letter. -/
lemma eq_of_prefix_cons {b : UInt8} {s : Bytes} (h : s <+: b :: s) : ∀ c ∈ s, c = b := by
  induction s with
  | nil => exact forall_mem_nil _
  | cons c s ih =>
    obtain ⟨rfl, htail⟩ := cons_prefix_cons.mp h
    exact forall_mem_cons.mpr ⟨rfl, ih htail⟩

lemma length_trimComma_le (s : Bytes) : (trimComma s).length ≤ s.length := by
  unfold trimComma
  split
  · exact s.dropLast_prefix.length_le
  · exact le_rfl

/-- The code finds the part before the old DN if the old DN occurs first at the end, and otherwise
a shorter one. -/
lemma replaceParentDN_cases (new : Bytes) (hold : Canonical old path) (hdn : Canonical dn q)
    (hbelow : inSubtree old dn) (hne : dn ≠ old) :
    index old dn = some (dn.length - old.length) ∧
        replaceParentDN dn old new = rename old new dn ∨
      index old dn ≠ some (dn.length - old.length) ∧
        (replaceParentDN dn old new).length < (rename old new dn).length := by
  obtain ⟨relative, hrelative, hsplit⟩ := exists_relative hold hdn hbelow hne
  have hlength : dn.length - old.length = relative.length + 1 := by
    rw [hsplit, length_append, Nat.add_sub_cancel, length_append, length_singleton]
  have htake : dn.take (relative.length + 1) = relative ++ [44] := by
    rw [hsplit]
    exact take_left' (by simp)
  have hdrop : dn.drop (relative.length + 1) = old := by
    rw [hsplit]
    exact drop_left' (by simp)
  have hatEnd : old <+: dn.drop (relative.length + 1) := hdrop.symm ▸ prefix_rfl
  obtain ⟨i, hle, hindex, hpart⟩ := index_le hatEnd
  rw [rename_relative hbelow hsplit, hlength]
  unfold replaceParentDN
  rw [toLower_of_canonical hold, toLower_of_canonical hdn, hindex]
  dsimp only
  rcases Nat.lt_or_eq_of_le hle with hlt | rfl
  · have hshort : i < relative.length := by
      refine Nat.lt_of_le_of_ne (Nat.le_of_lt_succ hlt) fun heq => ?_
      rw [heq, hsplit, append_assoc, drop_left] at hpart
      exact absurd (eq_of_prefix_cons hpart 61 (mem_of_parseDN hold.parsed)) (by decide)
    have htrim := (length_trimComma_le (dn.take i)).trans (length_take_le i dn)
    refine .inr ⟨fun heq => hlt.ne (Option.some.inj heq), ?_⟩
    split
    · simp only [length_append, length_singleton]
      omega
    · simp only [length_append, length_singleton]
      omega
  · have htrim : trimComma (relative ++ [44]) = relative := by
      rw [trimComma, if_pos getLast?_concat, dropLast_concat]
    rw [htake, htrim, if_neg hrelative]
    exact .inl ⟨rfl, rfl⟩

/-- No two entries in the subtree get the same name. -/
lemma rename_injective {dn' : Bytes} {q' : List Bytes} (hold : Canonical old path)
    (hdn : Canonical dn q) (hdn' : Canonical dn' q') (hbelow : inSubtree old dn)
    (hbelow' : inSubtree old dn') (h : rename old new dn = rename old new dn') : dn = dn' := by
  have hsuffix : ∀ {d q}, Canonical d q → inSubtree old d →
      d = d.take (d.length - old.length) ++ old := by
    intro d q hd hbelow
    by_cases heq : d = old
    · rw [heq, Nat.sub_self, take_zero, nil_append]
    · obtain ⟨relative, -, hsplit⟩ := exists_relative hold hd hbelow heq
      have hlength : d.length - old.length = (relative ++ [44]).length := by
        rw [hsplit, length_append, Nat.add_sub_cancel]
      rw [hlength]
      conv_rhs => rw [hsplit, take_left]
      exact hsplit
  rw [rename, if_pos hbelow, rename, if_pos hbelow'] at h
  rw [hsuffix hdn hbelow, hsuffix hdn' hbelow', append_cancel_right h]

end Names

/-! ## Entries that are moved one after the other -/

/-- The entries at some DNs have been moved to other DNs. They are all there if none was moved to
a DN from which one was still to be moved. -/
structure Moved (target : Bytes → Bytes) (dns : List Bytes)
    (directory directory' : Bytes → Option Attributes) : Prop where
  there : (∀ d ∈ dns, target d = d ∨ target d ∉ dns) → ∀ d ∈ dns, (directory' (target d)).isSome
  gone : ∀ d ∈ dns, (∀ d' ∈ dns, target d' ≠ d) → directory' d = none
  kept : ∀ d, d ∉ dns → (∀ d' ∈ dns, target d' ≠ d) → directory' d = directory d

section Moves

variable {target : Bytes → Bytes} {dns : List Bytes} {dn : Bytes}
  {directory directory' : Bytes → Option Attributes}

lemma Moved.nil (target : Bytes → Bytes) (directory : Bytes → Option Attributes) :
    Moved target [] directory directory :=
  ⟨fun _ _ hd => absurd hd not_mem_nil, fun _ hd => absurd hd not_mem_nil, fun _ _ _ => rfl⟩

lemma Moved.cons {attributes : Attributes}
    (h : Moved target dns (update (update directory dn none) (target dn)
      (some attributes)) directory') : Moved target (dn :: dns) directory directory' where
  there := fun htarget => by
    have htail : ∀ d ∈ dns, target d = d ∨ target d ∉ dns := fun d hd =>
      (htarget d (mem_cons_of_mem _ hd)).imp_right fun hnot hmem =>
        hnot (mem_cons_of_mem _ hmem)
    refine forall_mem_cons.mpr ⟨?_, h.there htail⟩
    by_cases hagain : ∃ d ∈ dns, target d = target dn
    · obtain ⟨d, hd, heq⟩ := hagain
      exact heq ▸ h.there htail d hd
    · have hlast : target dn ∉ dns := by
        intro hmem
        rcases htarget dn mem_cons_self with heq | hnot
        · exact hagain ⟨dn, heq ▸ hmem, rfl⟩
        · exact hnot (mem_cons_of_mem _ hmem)
      rw [h.kept _ hlast fun d hd heq => hagain ⟨d, hd, heq⟩, update_self]
      rfl
  gone := fun d hd hleft => by
    obtain ⟨hfirst, hrest⟩ := forall_mem_cons.mp hleft
    by_cases hmem : d ∈ dns
    · exact h.gone d hmem hrest
    · obtain rfl : d = dn := (mem_cons.mp hd).resolve_right hmem
      rw [h.kept d hmem hrest, update_of_ne (Ne.symm hfirst), update_self]
  kept := fun d hd hleft => by
    obtain ⟨hfirst, hrest⟩ := forall_mem_cons.mp hleft
    obtain ⟨hne, hmem⟩ := ne_and_not_mem_of_not_mem_cons hd
    rw [h.kept d hmem hrest, update_of_ne (Ne.symm hfirst), update_of_ne hne]

/-- The targets of the DNs that are moved matter, and no others. -/
lemma Moved.congr {target' : Bytes → Bytes} (h : Moved target dns directory directory')
    (heq : ∀ d ∈ dns, target d = target' d) : Moved target' dns directory directory' where
  there := fun htarget d hd => by
    rw [← heq d hd]
    refine h.there (fun d hd => ?_) d hd
    rw [heq d hd]
    exact htarget d hd
  gone := fun d hd hleft => h.gone d hd fun d' hd' => heq d' hd' ▸ hleft d' hd'
  kept := fun d hd hleft => h.kept d hd fun d' hd' => heq d' hd' ▸ hleft d' hd'

end Moves

/-- If one map reaches all values of another and its own are never longer, then the two are the
same: a DN with the longest value among those at which they differ has no place. -/
lemma eq_of_onto {f g : Bytes → Bytes} {dns : List Bytes}
    (hcases : ∀ d ∈ dns, f d = g d ∨ (f d).length < (g d).length)
    (honto : ∀ d ∈ dns, ∃ e ∈ dns, f e = g d)
    (hinjective : ∀ d ∈ dns, ∀ e ∈ dns, g d = g e → d = e) : ∀ d ∈ dns, f d = g d := by
  by_contra hdiffer
  obtain ⟨d, hd, hne⟩ : ∃ d ∈ dns, f d ≠ g d := by simpa using hdiffer
  obtain ⟨longest, hlongest, hmax⟩ := (dns.toFinset.filter fun d => f d ≠ g d).exists_max_image
    (fun d => (g d).length) ⟨d, by simp [hd, hne]⟩
  obtain ⟨hmem, hne⟩ : longest ∈ dns ∧ f longest ≠ g longest := by simpa using hlongest
  obtain ⟨e, he, heq⟩ := honto longest hmem
  rcases hcases e he with hsame | hshort
  · obtain rfl := hinjective e he longest hmem (hsame.symm.trans heq)
    exact hne heq
  · have hdiffers : f e ≠ g e := fun hsame => (hsame ▸ hshort).false
    have hle := hmax e (by simp [he, hdiffers])
    rw [heq] at hshort
    exact (lt_of_lt_of_le hshort hle).false

section Rename

variable {target : Bytes → Bytes} {old new : Bytes} {attributes : Attributes} {dns : List Bytes}
  {path : List Bytes} {directory directory' : Bytes → Option Attributes}

/-- An entry has been moved to its new DN, and then those below it to other DNs. -/
structure MovedSubtree (target : Bytes → Bytes) (old new : Bytes) (dns : List Bytes)
    (attributes : Attributes) (directory directory' : Bytes → Option Attributes) : Prop where
  canonical : ∀ d, (directory d).isSome → isCanonical d
  movable : Movable directory old new
  entry : (directory old).isSome
  unused : new ≠ old → directory new = none
  all : ∀ d, d ∈ dns ↔ Descends directory old d
  moved : Moved target dns (update (update directory old none) new (some attributes)) directory'

namespace MovedSubtree

section

variable (h : MovedSubtree target old new dns attributes directory directory')
include h

/-- The new name of an entry below is not that of an entry which is still to be moved. -/
lemma rename_free :
    ∀ d ∈ dns, rename old new d = d ∨ rename old new d ∉ dns := by
  intro d hd
  by_cases htarget : rename old new d ∈ dns
  · have hdescends := (h.all _).mp htarget
    exact .inl ((h.movable.free d ((h.all d).mp hd) hdescends.entry).resolve_right hdescends.ne)
  · exact .inr htarget

lemma congr (heq : ∀ d ∈ dns, target d = rename old new d) :
    MovedSubtree (rename old new) old new dns attributes directory directory' :=
  { h with moved := h.moved.congr heq }

variable (hold : Canonical old path)
include hold

/-- An entry outside the subtree is not where one of the subtree goes. -/
lemma rename_ne {d d' : Bytes} (hd : (directory d).isSome) (hd' : (directory d').isSome)
    (hbelow : inSubtree old d) (hout : inSubtree old d' = false) :
    rename old new d ≠ d' := by
  rintro rfl
  by_cases hself : d = old
  · rw [hself, rename_self hold] at hd' hout
    have hne : new ≠ old := by
      rintro rfl
      rw [inSubtree_self hold] at hout
      cases hout
    rw [h.unused hne] at hd'
    cases hd'
  · rcases h.movable.free d ⟨hd, hbelow, hself⟩ hd' with hsame | hsame
    · rw [hsame, hbelow] at hout
      cases hout
    · rw [hsame, inSubtree_self hold] at hout
      cases hout

lemma distinct {d d' : Bytes} (hd : (directory d).isSome) (hd' : (directory d').isSome)
    (heq : rename old new d = rename old new d') : d = d' := by
  cases hbelow : inSubtree old d with
  | true =>
    cases hbelow' : inSubtree old d' with
    | true =>
      obtain ⟨q, hq⟩ := isCanonical_iff.mp (h.canonical d hd)
      obtain ⟨q', hq'⟩ := isCanonical_iff.mp (h.canonical d' hd')
      exact rename_injective hold hq hq' hbelow hbelow' heq
    | false =>
      rw [rename_of_not hbelow'] at heq
      exact absurd heq (h.rename_ne hold hd hd' hbelow hbelow')
  | false =>
    rw [rename_of_not hbelow] at heq
    cases hbelow' : inSubtree old d' with
    | true => exact absurd heq.symm (h.rename_ne hold hd' hd hbelow' hbelow)
    | false => rwa [rename_of_not hbelow'] at heq

/-- The name that an entry below should get is one to which an entry was moved, if it is there in
the end. -/
lemma exists_target {d : Bytes} (hd : d ∈ dns)
    (hthere : (directory' (rename old new d)).isSome) : ∃ e ∈ dns, target e = rename old new d := by
  by_contra hnone
  have hleft : ∀ e ∈ dns, target e ≠ rename old new d := fun e he heq => hnone ⟨e, he, heq⟩
  have hdescends := (h.all d).mp hd
  by_cases hmem : rename old new d ∈ dns
  · rw [h.moved.gone _ hmem hleft] at hthere
    cases hthere
  · obtain ⟨q, hq⟩ := isCanonical_iff.mp (h.canonical d hdescends.entry)
    obtain ⟨relative, -, hsplit⟩ := exists_relative hold hq hdescends.below hdescends.ne
    have hnew : rename old new d ≠ new := by
      intro heq
      have hlength := congrArg length heq
      rw [rename_relative hdescends.below hsplit, length_append, length_append,
        length_singleton] at hlength
      omega
    rw [h.moved.kept _ hmem hleft, update_of_ne hnew] at hthere
    by_cases heq : rename old new d = old
    · rw [heq, update_self] at hthere
      cases hthere
    · rw [update_of_ne heq] at hthere
      rcases h.movable.free d hdescends hthere with hsame | hsame
      · exact hmem (hsame.symm ▸ hd)
      · exact heq hsame

end

section

variable (h : MovedSubtree (rename old new) old new dns attributes directory directory')
include h

section

variable (hold : Canonical old path)
include hold

lemma others {d : Bytes} (hd : (directory d).isSome)
    (hout : inSubtree old d = false) : directory' d = directory d := by
  have hne : d ≠ old := by
    rintro rfl
    rw [inSubtree_self hold] at hout
    cases hout
  have hne' : d ≠ new := by
    rintro rfl
    exact h.rename_ne hold h.entry hd (inSubtree_self hold) hout (rename_self hold)
  have hmem : d ∉ dns := by
    intro hmem
    rw [((h.all d).mp hmem).below] at hout
    cases hout
  have htargets : ∀ d' ∈ dns, rename old new d' ≠ d := fun d' hd' =>
    h.rename_ne hold ((h.all d').mp hd').entry hd ((h.all d').mp hd').below hout
  rw [h.moved.kept d hmem htargets, update_of_ne hne', update_of_ne hne]

/-- Every name after the rename is the new name of an entry. -/
lemma exists_of_name {dn : Bytes} (hdn : (directory' dn).isSome) :
    ∃ d, (directory d).isSome ∧ rename old new d = dn := by
  by_cases htarget : ∃ d ∈ dns, rename old new d = dn
  · obtain ⟨d, hd, heq⟩ := htarget
    exact ⟨d, ((h.all d).mp hd).entry, heq⟩
  · have hleft : ∀ d ∈ dns, rename old new d ≠ dn := fun d hd heq => htarget ⟨d, hd, heq⟩
    by_cases hmem : dn ∈ dns
    · rw [h.moved.gone dn hmem hleft] at hdn
      cases hdn
    · rw [h.moved.kept dn hmem hleft] at hdn
      by_cases hself : dn = new
      · exact ⟨old, h.entry, hself ▸ rename_self hold⟩
      · rw [update_of_ne hself] at hdn
        by_cases heq : dn = old
        · rw [heq, update_self] at hdn
          cases hdn
        · rw [update_of_ne heq] at hdn
          cases hbelow : inSubtree old dn with
          | true => exact absurd ((h.all dn).mpr ⟨hdn, hbelow, heq⟩) hmem
          | false => exact ⟨dn, hdn, rename_of_not hbelow⟩

/-- Every entry has its new name after the rename. -/
lemma isSome_rename {d : Bytes} (hd : (directory d).isSome) :
    (directory' (rename old new d)).isSome := by
  cases hbelow : inSubtree old d with
  | false =>
    rw [rename_of_not hbelow, h.others hold hd hbelow]
    exact hd
  | true =>
    by_cases heq : d = old
    · rw [heq, rename_self hold]
      by_cases htarget : ∃ d ∈ dns, rename old new d = new
      · obtain ⟨d, hd, htarget⟩ := htarget
        exact htarget ▸ h.moved.there h.rename_free d hd
      · have hmem : new ∉ dns := by
          intro hmem
          have hdescends := (h.all new).mp hmem
          exact hdescends.ne (h.movable.outside new hdescends hdescends.below)
        rw [h.moved.kept new hmem fun d hd heq => htarget ⟨d, hd, heq⟩, update_self]
        rfl
    · exact h.moved.there h.rename_free d ((h.all d).mpr ⟨hd, hbelow, heq⟩)

end

lemma renamed : Renamed old new directory directory' := by
  obtain ⟨path, hold⟩ := isCanonical_iff.mp h.movable.oldName
  refine ⟨fun dn => ⟨h.exists_of_name hold, ?_⟩, fun d d' => h.distinct hold,
    fun d => h.others hold⟩
  rintro ⟨d, hd, rfl⟩
  exact h.isSome_rename hold hd

end

/-- The entries have the names that they should get just if the old DN is found at the end of
their DNs. -/
lemma renamed_iff (h : MovedSubtree (replaceParentDN · old new) old new dns attributes directory
    directory') : Renamed old new directory directory' ↔ AtEnd directory old := by
  obtain ⟨path, hold⟩ := isCanonical_iff.mp h.movable.oldName
  have hcases : ∀ d, Descends directory old d →
      index old d = some (d.length - old.length) ∧ replaceParentDN d old new = rename old new d ∨
        index old d ≠ some (d.length - old.length) ∧
          (replaceParentDN d old new).length < (rename old new d).length := by
    intro d hd
    obtain ⟨q, hq⟩ := isCanonical_iff.mp (h.canonical d hd.entry)
    exact replaceParentDN_cases new hold hq hd.below hd.ne
  constructor
  · intro hrenamed
    have hsame : ∀ d ∈ dns, replaceParentDN d old new = rename old new d := by
      refine eq_of_onto (fun d hd => ?_) (fun d hd => ?_) fun d hd e he heq => ?_
      · exact (hcases d ((h.all d).mp hd)).imp And.right And.right
      · exact h.exists_target hold hd ((hrenamed.names _).mpr ⟨d, ((h.all d).mp hd).entry, rfl⟩)
      · exact h.distinct hold ((h.all d).mp hd).entry ((h.all e).mp he).entry heq
    intro d hd
    rcases hcases d hd with ⟨hend, -⟩ | ⟨-, hshort⟩
    · exact hend
    · rw [hsame d ((h.all d).mpr hd)] at hshort
      exact absurd hshort (lt_irrefl _)
  · intro hend
    refine (h.congr fun d hd => ?_).renamed
    have hd := (h.all d).mp hd
    rcases hcases d hd with ⟨-, hsame⟩ | ⟨hnot, -⟩
    · exact hsame
    · exact absurd (hend d hd) hnot

end MovedSubtree

end Rename

end Oba.Backend
