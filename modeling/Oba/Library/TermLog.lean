import Mathlib.Data.Finset.Card
import Mathlib.Order.Nat
import Mathlib.Data.Nat.Find

/-! # Logs whose entries carry the term of their origin

A replicated log is a list of entries, each stamped with a term. Every term has
one origin: the log of whoever wrote the entries of that term. A log is coherent
when each of its entries sits on the same history as in the log it came from. The
module develops the consequences of coherence: two coherent logs that agree on the
term at one index agree on everything below it, reconciling a coherent log with a
chunk of another keeps it coherent, and a log that is at least as up to date as a
voter's log holds what the voter's log holds.
-/

namespace TermLog

open List

variable {Entry : Type*} {size i prev : Nat} {e a : Entry}

/-- The two logs hold the same entries, or the same absence, up to `bound`. -/
def AgreeUpTo (bound : Nat) (xs ys : List Entry) : Prop :=
  ∀ i ≤ bound, xs[i]? = ys[i]?

/-- The two logs hold different entries at some index up to `bound`. -/
def DivergeBy (bound : Nat) (xs ys : List Entry) : Prop :=
  ∃ i ≤ bound, ∃ a b, xs[i]? = some a ∧ ys[i]? = some b ∧ a ≠ b

namespace AgreeUpTo

variable {bound small : Nat} {xs ys zs : List Entry}

lemma refl (bound : Nat) (xs : List Entry) : AgreeUpTo bound xs xs := fun _ _ => rfl

section

variable (h : AgreeUpTo bound xs ys)
include h

lemma symm : AgreeUpTo bound ys xs := fun i hi => (h i hi).symm

lemma trans (h' : AgreeUpTo bound ys zs) :
    AgreeUpTo bound xs zs := fun i hi => (h i hi).trans (h' i hi)

lemma mono (hle : small ≤ bound) : AgreeUpTo small xs ys :=
  fun i hi => h i (hi.trans hle)

lemma not_diverge : ¬ DivergeBy bound xs ys := by
  rintro ⟨i, hi, a, b, ha, hb, hne⟩
  have := h i hi
  simp_all

lemma lt_length (hlt : bound < xs.length) : bound < ys.length := by
  have := h bound le_rfl
  rw [List.getElem?_eq_getElem hlt] at this
  exact (List.getElem?_eq_some_iff.mp this.symm).1

end

end AgreeUpTo

lemma agreeUpTo_of_isPrefix {xs ys : List Entry} {bound : Nat} (hpre : xs <+: ys)
    (hlt : bound < xs.length) : AgreeUpTo bound xs ys := by
  obtain ⟨rest, rfl⟩ := hpre
  intro i hi
  rw [getElem?_append_left (by omega)]

lemma agreeUpTo_take {xs : List Entry} {bound : Nat} (hlt : bound < size) :
    AgreeUpTo bound (xs.take size) xs := by
  intro i hi
  rw [getElem?_take_of_lt (by omega)]

lemma DivergeBy.mono_of_isPrefix {bound : Nat} {xs ys xs' ys' : List Entry}
    (h : DivergeBy bound xs ys) (hxs : xs <+: xs') (hys : ys <+: ys') :
    DivergeBy bound xs' ys' := by
  obtain ⟨i, hi, a, b, ha, hb, hne⟩ := h
  obtain ⟨_, rfl⟩ := hxs
  obtain ⟨_, rfl⟩ := hys
  refine ⟨i, hi, a, b, ?_, ?_, hne⟩
  · rw [List.getElem?_append_left (List.getElem?_eq_some_iff.mp ha).1, ha]
  · rw [List.getElem?_append_left (List.getElem?_eq_some_iff.mp hb).1, hb]

lemma getElem?_of_isPrefix {xs ys : List Entry} (hpre : xs <+: ys) (he : xs[i]? = some e) :
    ys[i]? = some e := by
  rw [← he]
  exact (agreeUpTo_of_isPrefix hpre (List.getElem?_eq_some_iff.mp he).1 i le_rfl).symm

lemma getElem?_append_singleton {xs : List Entry} (h : (xs ++ [e])[i]? = some a) :
    xs[i]? = some a ∨ (i = xs.length ∧ e = a) := by
  rcases lt_or_ge i xs.length with hlt | hge
  · exact .inl (by rwa [List.getElem?_append_left hlt] at h)
  · have hlen := (List.getElem?_eq_some_iff.mp h).1
    rw [length_append, length_singleton] at hlen
    obtain rfl : i = xs.length := by omega
    exact .inr ⟨rfl, by simpa using h⟩

/-! ## Coherence -/

section Coherence

variable (base : Entry) (term : Entry → Nat) (origin : Nat → List Entry)

/-- Every entry past the base sits on the history of the log its term originates from. -/
structure Coherent (xs : List Entry) : Prop where
  base_eq : xs[0]? = some base
  agree : ∀ i e, 0 < i → xs[i]? = some e → AgreeUpTo i xs (origin (term e))

variable {base term origin}
variable {xs ys : List Entry} {b : Entry} {origin' : Nat → List Entry} {log : List Entry}
  {idx : Nat}

lemma Coherent.length_pos (h : Coherent base term origin xs) : 0 < xs.length :=
  (List.getElem?_eq_some_iff.mp h.base_eq).1

/-- Coherent logs that agree on the term at one index agree on all entries up to it. -/
lemma Coherent.agreeUpTo (hx : Coherent base term origin xs) (hy : Coherent base term origin ys)
    (ha : xs[i]? = some a) (hb : ys[i]? = some b) (hterm : term a = term b) :
    AgreeUpTo i xs ys := by
  rcases Nat.eq_zero_or_pos i with rfl | hpos
  · intro j hj
    obtain rfl : j = 0 := by omega
    rw [hx.base_eq, hy.base_eq]
  · have hright := hy.agree i b hpos hb
    rw [← hterm] at hright
    exact (hx.agree i a hpos ha).trans hright.symm

lemma Coherent.take (h : Coherent base term origin xs) (size : Nat) :
    Coherent base term origin (xs.take (size + 1)) := by
  refine ⟨?_, ?_⟩
  · rw [List.getElem?_take_of_lt (by omega), h.base_eq]
  · intro i e hpos he
    have hlt : i < size + 1 := by
      have := (List.getElem?_eq_some_iff.mp he).1
      rw [length_take] at this
      omega
    rw [List.getElem?_take_of_lt hlt] at he
    exact (agreeUpTo_take hlt).trans (h.agree i e hpos he)

/-- Coherence survives when the origins grow at their ends. -/
lemma Coherent.of_origin_grow (h : Coherent base term origin xs)
    (hgrow : ∀ t, origin t <+: origin' t) : Coherent base term origin' xs := by
  refine ⟨h.base_eq, ?_⟩
  intro i e hpos he
  have hagree := h.agree i e hpos he
  have hlt := hagree.lt_length (List.getElem?_eq_some_iff.mp he).1
  exact hagree.trans (agreeUpTo_of_isPrefix (hgrow _) hlt)

/-- Writing an entry at the end of the origin of its own term. -/
lemma Coherent.append (h : Coherent base term origin' xs) (e : Entry)
    (horigin : origin' (term e) = xs ++ [e]) : Coherent base term origin' (xs ++ [e]) := by
  refine ⟨?_, ?_⟩
  · rw [List.getElem?_append_left h.length_pos, h.base_eq]
  · intro i a hpos ha
    rcases getElem?_append_singleton ha with hold | ⟨rfl, rfl⟩
    · have hlt := (List.getElem?_eq_some_iff.mp hold).1
      exact (agreeUpTo_of_isPrefix (prefix_append xs [e]) hlt).symm.trans (h.agree i a hpos hold)
    · rw [horigin]
      exact AgreeUpTo.refl _ _

/-- With terms bounded by the origin's own term, terms never fall along a coherent log. -/
lemma Coherent.term_mono
    (hbound : ∀ (t i : Nat) (e : Entry), (origin t)[i]? = some e → term e ≤ t)
    (h : Coherent base term origin xs) {j : Nat} (hij : i ≤ j) (ha : xs[i]? = some a)
    (hb : xs[j]? = some b) : term a ≤ term b := by
  rcases Nat.eq_zero_or_pos j with rfl | hpos
  · obtain rfl : i = 0 := by omega
    obtain rfl : a = b := by simpa [ha] using hb
    exact le_rfl
  · have hagree := h.agree j b hpos hb i hij
    rw [ha] at hagree
    exact hbound _ i a hagree.symm

/-! ## Reconciling with a chunk of another log -/

variable (term) in
/-- Walk over the received entries from index `idx` on: keep what has the right term,
cut at the first conflict, and append from there on. -/
def reconcile : List Entry → Nat → List Entry → List Entry
  | log, _, [] => log
  | log, idx, e :: rest =>
    match log[idx]? with
    | some old =>
      if term old = term e then reconcile log (idx + 1) rest
      else reconcile (log.take idx ++ [e]) (idx + 1) rest
    | none => reconcile (log ++ [e]) (idx + 1) rest

variable (term) in
/-- A log that ends where the received entries begin. -/
lemma reconcile_end (log chunk : List Entry) :
    reconcile term log log.length chunk = log ++ chunk := by
  induction chunk generalizing log with
  | nil => rw [reconcile, append_nil]
  | cons e rest ih =>
    have hrest := ih (log ++ [e])
    rw [length_append, length_singleton, append_assoc, singleton_append] at hrest
    rw [reconcile, getElem?_eq_none le_rfl]
    exact hrest

variable (term) in
/-- One received entry: it has the term of the old one, or all that follows replaces the rest of
the log. -/
lemma reconcile_cons (hidx : idx ≤ log.length) (e : Entry) (rest : List Entry) :
    (∃ old, log[idx]? = some old ∧ term old = term e ∧
      reconcile term log idx (e :: rest) = reconcile term log (idx + 1) rest) ∨
    (∀ old, log[idx]? = some old → term old ≠ term e) ∧
      reconcile term log idx (e :: rest) = log.take idx ++ e :: rest := by
  have hcut := reconcile_end term (log.take idx ++ [e]) rest
  rw [length_append, length_take_of_le hidx, length_singleton, append_assoc,
    singleton_append] at hcut
  rw [reconcile]
  cases hold : log[idx]? with
  | none =>
    rw [take_of_length_le (getElem?_eq_none_iff.mp hold)] at hcut ⊢
    exact .inr ⟨nofun, hcut⟩
  | some old =>
    dsimp only
    by_cases hterm : term old = term e
    · exact .inl ⟨old, rfl, hterm, if_pos hterm⟩
    · rw [if_neg hterm]
      exact .inr ⟨fun _ heq => Option.some.inj heq ▸ hterm, hcut⟩

/-- What holds of every old entry and of every received one, each with its position, holds
after reconciling. -/
lemma forall_reconcile {P : Nat → Entry → Prop} (chunk : List Entry) (hidx : idx ≤ log.length)
    (hlog : ∀ i e, log[i]? = some e → P i e) (hchunk : ∀ k e, chunk[k]? = some e → P (idx + k) e)
    (i : Nat) (e : Entry) (he : (reconcile term log idx chunk)[i]? = some e) : P i e := by
  induction chunk generalizing idx with
  | nil => exact hlog i e he
  | cons first rest ih =>
    rcases reconcile_cons term hidx first rest with ⟨old, hold, -, heq⟩ | ⟨-, heq⟩
    · have hlt : idx + 1 ≤ log.length := (List.getElem?_eq_some_iff.mp hold).1
      refine ih hlt (fun k e hk => ?_) (heq ▸ he)
      rw [Nat.add_assoc, Nat.add_comm 1 k]
      exact hchunk (k + 1) e hk
    · have hlength : (log.take idx).length = idx := length_take_of_le hidx
      rw [heq] at he
      rcases lt_or_ge i idx with hlt | hge
      · rw [List.getElem?_append_left (by omega), List.getElem?_take_of_lt hlt] at he
        exact hlog i e he
      · rw [List.getElem?_append_right (by omega), hlength] at he
        exact Nat.add_sub_cancel' hge ▸ hchunk _ e he

/-- A log stays longer than `bound` when no received entry conflicts up to there. -/
lemma lt_length_reconcile {bound : Nat} (chunk : List Entry) (hidx : idx ≤ log.length)
    (hbound : bound < log.length)
    (hkeep : ∀ k e old, chunk[k]? = some e → idx + k ≤ bound → log[idx + k]? = some old →
      term old = term e) : bound < (reconcile term log idx chunk).length := by
  induction chunk generalizing idx with
  | nil => exact hbound
  | cons first rest ih =>
    rcases reconcile_cons term hidx first rest with ⟨old, hold, -, heq⟩ | ⟨hne, heq⟩
    · rw [heq]
      have hlt : idx + 1 ≤ log.length := (List.getElem?_eq_some_iff.mp hold).1
      refine ih hlt fun k e old hk hle hold => ?_
      rw [Nat.add_assoc, Nat.add_comm 1 k] at hle hold
      exact hkeep (k + 1) e old hk hle hold
    · rw [heq, length_append, length_take_of_le hidx]
      refine lt_of_lt_of_le (Nat.lt_of_not_le fun hle => ?_) (Nat.le_add_right idx _)
      have hold := List.getElem?_eq_getElem (show idx < log.length by omega)
      exact hne _ hold (hkeep 0 first _ rfl hle hold)

variable (term) in
/-- Where the two logs hold entries of one term, they agree up to there. -/
def Matching (xs ys : List Entry) : Prop :=
  ∀ (i : Nat) (a b : Entry), xs[i]? = some a → ys[i]? = some b → term a = term b → AgreeUpTo i xs ys

lemma AgreeUpTo.take_eq (h : AgreeUpTo size xs ys) : xs.take (size + 1) = ys.take (size + 1) := by
  refine ext_getElem? fun i => ?_
  rcases lt_or_ge size i with hgt | hle
  · rw [getElem?_eq_none (by simp; omega), getElem?_eq_none (by simp; omega)]
  · rw [getElem?_take_of_lt (by omega), getElem?_take_of_lt (by omega), h i hle]

/-- Reconciling a log with the entries of a matching one that follow an index they agree up to:
either all of them are there, or the other log is taken over up to the last of them. -/
lemma reconcile_matching (hmatch : Matching term xs ys) (chunk : List Entry)
    (hagree : AgreeUpTo prev xs ys) (hlen : prev < xs.length)
    (hchunk : ∀ j < chunk.length, ys[prev + 1 + j]? = chunk[j]?) :
    (AgreeUpTo (prev + chunk.length) xs ys ∧ prev + chunk.length < xs.length ∧
      reconcile term xs (prev + 1) chunk = xs) ∨
    ¬ (AgreeUpTo (prev + chunk.length) xs ys ∧ prev + chunk.length < xs.length) ∧
      reconcile term xs (prev + 1) chunk = ys.take (prev + chunk.length + 1) := by
  induction chunk generalizing prev with
  | nil => exact .inl ⟨hagree, hlen, rfl⟩
  | cons e rest ih =>
    have he : ys[prev + 1]? = some e := by simpa using hchunk 0 (by simp)
    rw [length_cons, ← Nat.add_assoc, Nat.add_right_comm]
    rcases reconcile_cons term (Nat.succ_le_of_lt hlen) e rest
      with ⟨old, hold, hterm, heq⟩ | ⟨hne, heq⟩
    · rw [heq]
      refine ih (hmatch _ _ _ hold he hterm) (List.getElem?_eq_some_iff.mp hold).1 fun j hj => ?_
      have hnext : ys[prev + 1 + (j + 1)]? = rest[j]? := hchunk (j + 1) (by simpa using hj)
      rwa [Nat.add_comm j, ← Nat.add_assoc] at hnext
    · refine .inr ⟨fun ⟨hall, hlong⟩ => ?_, ?_⟩
      · exact hne e (by rw [hall (prev + 1) (by omega), he]) rfl
      · have hrest : (ys.drop (prev + 1)).take (rest.length + 1) = e :: rest := by
          refine ext_getElem? fun j => ?_
          rcases lt_or_ge j (rest.length + 1) with hlt | hge
          · rw [List.getElem?_take_of_lt hlt, List.getElem?_drop, hchunk j hlt]
          · rw [List.getElem?_eq_none (by simp; omega), List.getElem?_eq_none hge]
        rw [heq, hagree.take_eq, ← hrest, ← take_add]
        rfl

/-- What reconciling a coherent log with a chunk of a coherent log produces, where the
chunk starts right after an index at which the logs agree. -/
structure Reconciled (last : Nat) (source before after : List Entry) : Prop where
  agree : AgreeUpTo last after source
  reach : last < after.length
  shape : after = before ∨ after = source.take (last + 1)
  keep : AgreeUpTo last before source → last < before.length → after = before

lemma reconcile_spec (hsource : Coherent base term origin ys) (chunk : List Entry) (prev : Nat)
    (hlog : Coherent base term origin xs) (hagree : AgreeUpTo prev xs ys)
    (hlen : prev < xs.length)
    (hchunk : ∀ j < chunk.length, ys[prev + 1 + j]? = chunk[j]?) :
    Reconciled (prev + chunk.length) ys xs (reconcile term xs (prev + 1) chunk) := by
  have hmatch : Matching term xs ys := fun _ _ _ => hlog.agreeUpTo hsource
  rcases reconcile_matching hmatch chunk hagree hlen hchunk with ⟨hall, hlong, heq⟩ | ⟨hnot, heq⟩
  · rw [heq]
    exact ⟨hall, hlong, .inl rfl, fun _ _ => rfl⟩
  · have hylen : prev + chunk.length < ys.length := by
      rcases Nat.eq_zero_or_pos chunk.length with hzero | hpos
      · exact absurd ⟨by rwa [hzero], by rwa [hzero]⟩ hnot
      · have hlast := (hchunk (chunk.length - 1) (by omega)).trans
          (List.getElem?_eq_getElem (by omega))
        have := (List.getElem?_eq_some_iff.mp hlast).1
        omega
    rw [heq]
    refine ⟨agreeUpTo_take (Nat.lt_succ_self _), ?_, .inr rfl, fun hall hlong => ?_⟩
    · rw [length_take]
      omega
    · exact absurd ⟨hall, hlong⟩ hnot

namespace Reconciled

variable {last bound : Nat} {source before after zs : List Entry}

section

variable (h : Reconciled last source before after)
include h

lemma coherent (hsource : Coherent base term origin source)
    (hbefore : Coherent base term origin before) : Coherent base term origin after := by
  rcases h.shape with rfl | rfl
  · exact hbefore
  · exact hsource.take last

/-- Reconciling never loses what the log already shares with the source. -/
lemma agree_keep (hagree : AgreeUpTo bound before source) (hlt : bound < before.length) :
    AgreeUpTo bound after source ∧ bound < after.length := by
  rcases lt_or_ge last bound with hgt | hle
  · rw [h.keep (hagree.mono hgt.le) (by omega)]
    exact ⟨hagree, hlt⟩
  · exact ⟨h.agree.mono hle, lt_of_le_of_lt hle h.reach⟩

/-- What the log shares with any other log survives, unless the source diverges from it. -/
lemma agree_or_diverge (hreach : last < source.length) (hagree : AgreeUpTo bound before zs)
    (hlt : bound < before.length) :
    (AgreeUpTo bound after zs ∧ bound < after.length) ∨ DivergeBy bound source zs := by
  classical
  by_cases hsame : AgreeUpTo bound before source
  · obtain ⟨hkept, hlong⟩ := h.agree_keep hsame hlt
    exact .inl ⟨hkept.trans (hsame.symm.trans hagree), hlong⟩
  · -- compare at the first index where the log and the source differ
    have hex : ∃ i, i ≤ bound ∧ before[i]? ≠ source[i]? := by
      simpa [AgreeUpTo] using hsame
    obtain ⟨hdle, hdne⟩ := Nat.find_spec hex
    have hbelow : ∀ i < Nat.find hex, before[i]? = source[i]? := by
      intro i hi
      by_contra hne
      exact Nat.find_min hex hi ⟨by omega, hne⟩
    rcases lt_or_ge last (Nat.find hex) with hgt | hle
    · rw [h.keep (fun i hi => hbelow i (by omega)) (by omega)]
      exact .inl ⟨hagree, hlt⟩
    · right
      have hsrc : source[Nat.find hex]? = some (source[Nat.find hex]) :=
        getElem?_eq_getElem (by omega)
      have hbef : before[Nat.find hex]? = some (before[Nat.find hex]) :=
        getElem?_eq_getElem (by omega)
      refine ⟨Nat.find hex, hdle, _, _, hsrc, (hagree _ hdle).symm.trans hbef, ?_⟩
      intro heq
      exact hdne (by rw [hbef, hsrc, heq])

end

end Reconciled

/-! ## Being at least as up to date -/

variable (term) in
/-- The term of the last entry, zero for an empty log. -/
def lastTerm (log : List Entry) : Nat := (log.getLast?.map term).getD 0

variable (term) in
/-- The voting rule: a higher last term, or the same last term and no shorter a log. -/
def UpToDate (candidate voter : List Entry) : Prop :=
  lastTerm term voter < lastTerm term candidate ∨
    (lastTerm term voter = lastTerm term candidate ∧ voter.length ≤ candidate.length)

variable (term) in
lemma lastTerm_eq (he : log[log.length - 1]? = some e) : lastTerm term log = term e := by
  rw [lastTerm, getLast?_eq_getElem?, he]
  rfl

/-- The voter's log reaches an entry written in its own term `t`. A log at least as up to
date holds the same entries, if every later origin it could end on holds them. -/
lemma agreeUpTo_of_upToDate {candidate voter : List Entry} {t : Nat} (hbase : term base = 0)
    (hbound : ∀ (t i : Nat) (e : Entry), (origin t)[i]? = some e → term e ≤ t)
    (horigin : ∀ t, Coherent base term origin (origin t))
    (hcandidate : Coherent base term origin candidate) (hvoter : Coherent base term origin voter)
    (hpos : 0 < i) (he : (origin t)[i]? = some e) (hterm : term e = t)
    (hagree : AgreeUpTo i voter (origin t)) (hup : UpToDate term candidate voter)
    (hlater : t < lastTerm term candidate →
      AgreeUpTo i (origin (lastTerm term candidate)) (origin t)) :
    AgreeUpTo i candidate (origin t) := by
  have hvi : voter[i]? = some e := by rw [hagree i le_rfl, he]
  have hvlen := (List.getElem?_eq_some_iff.mp hvi).1
  have hclen := hcandidate.length_pos
  obtain ⟨vlast, hvlast⟩ : ∃ a, voter[voter.length - 1]? = some a :=
    ⟨_, List.getElem?_eq_getElem (by omega)⟩
  obtain ⟨clast, hclast⟩ : ∃ a, candidate[candidate.length - 1]? = some a :=
    ⟨_, List.getElem?_eq_getElem (by omega)⟩
  have hvterm : t ≤ lastTerm term voter := by
    rw [lastTerm_eq term hvlast, ← hterm]
    exact hvoter.term_mono hbound (by omega) hvi hvlast
  have hcand : 0 < candidate.length - 1 → AgreeUpTo (candidate.length - 1) candidate
      (origin (lastTerm term candidate)) := by
    intro hc
    rw [lastTerm_eq term hclast]
    exact hcandidate.agree _ _ hc hclast
  rcases lt_or_ge t (lastTerm term candidate) with hgt | hle
  · have hc : 0 < candidate.length - 1 := by
      by_contra hzero
      have hz : candidate.length - 1 = 0 := by omega
      have hlast := lastTerm_eq term (by rw [hz, hcandidate.base_eq] : _ = some base)
      omega
    have hin : i ≤ candidate.length - 1 := by
      by_contra hshort
      have hat := hlater hgt i le_rfl
      rw [he] at hat
      have hend := hcand hc (candidate.length - 1) le_rfl
      rw [hclast] at hend
      have hmono := (horigin _).term_mono hbound (by omega) hend.symm hat
      rw [← lastTerm_eq term hclast] at hmono
      omega
    exact ((hcand hc).mono hin).trans (hlater hgt)
  · rcases hup with hlt | ⟨heq, hlen⟩
    · omega
    · have hct : lastTerm term candidate = t := by omega
      rw [hct] at hcand
      exact (hcand (by omega)).mono (by omega)

end Coherence

/-! ## Two logs that match -/

section Match

variable {term : Entry → Nat} {xs ys : List Entry}

lemma isPrefix_iff_agreeUpTo {bound : Nat} (hlen : ys.length = bound + 1) :
    ys <+: xs ↔ AgreeUpTo bound xs ys := by
  constructor
  · intro hpre
    exact (agreeUpTo_of_isPrefix hpre (by omega)).symm
  · intro hagree
    have htake : ys = xs.take (bound + 1) := by rw [hagree.take_eq, ← hlen, take_length]
    rw [htake]
    exact take_prefix _ _

/-- Reconciling a log with all that a matching one holds after an index they agree up to. -/
lemma reconcile_drop (hmatch : Matching term xs ys) (hagree : AgreeUpTo prev xs ys)
    (hlen : prev < xs.length) :
    (ys <+: xs → reconcile term xs (prev + 1) (ys.drop (prev + 1)) = xs) ∧
      (¬ ys <+: xs → reconcile term xs (prev + 1) (ys.drop (prev + 1)) = ys) := by
  have hylen := hagree.lt_length hlen
  have hlast : ys.length = prev + (ys.drop (prev + 1)).length + 1 := by
    rw [length_drop]
    omega
  rw [isPrefix_iff_agreeUpTo hlast]
  rcases reconcile_matching hmatch _ hagree hlen (fun j _ => getElem?_drop.symm)
    with ⟨hall, -, heq⟩ | ⟨hnot, heq⟩
  · exact ⟨fun _ => heq, fun hne => absurd hall hne⟩
  · refine ⟨fun hall => absurd ⟨hall, hall.symm.lt_length (by omega)⟩ hnot, fun _ => ?_⟩
    rw [heq, ← hlast, take_length]

variable [DecidableEq Entry]

/-- How many entries the two logs share from their start on. -/
def commonLength : List Entry → List Entry → Nat
  | a :: as, b :: bs => if a = b then commonLength as bs + 1 else 0
  | _, _ => 0

lemma lt_commonLength : i < commonLength xs ys ↔ i < xs.length ∧ AgreeUpTo i xs ys := by
  induction xs generalizing ys i with
  | nil => simp [commonLength]
  | cons a as ih =>
    cases ys with
    | nil =>
      simp only [commonLength, Nat.not_lt_zero, false_iff, not_and]
      intro _ hagree
      cases hagree 0 (Nat.zero_le _)
    | cons b bs =>
      unfold commonLength
      by_cases hab : a = b
      · rw [if_pos hab]
        cases i with
        | zero =>
          refine ⟨fun _ => ⟨Nat.succ_pos _, fun j hj => ?_⟩, fun _ => Nat.succ_pos _⟩
          obtain rfl := Nat.le_zero.mp hj
          exact congrArg some hab
        | succ i =>
          rw [Nat.add_lt_add_iff_right, ih, length_cons, Nat.add_lt_add_iff_right]
          refine and_congr_right fun _ => ⟨fun hagree j hj => ?_, fun hagree j hj => ?_⟩
          · cases j with
            | zero => exact congrArg some hab
            | succ j => exact hagree j (Nat.le_of_succ_le_succ hj)
          · exact hagree (j + 1) (Nat.succ_le_succ hj)
      · rw [if_neg hab]
        refine ⟨fun hlt => absurd hlt (Nat.not_lt_zero _), fun ⟨_, hagree⟩ => ?_⟩
        exact absurd (Option.some.inj (hagree 0 (Nat.zero_le _))) hab

end Match

end TermLog
