import Oba.Backend.UidRepair

/-! # The records of a repair

The map groups records by their uids. A record that the second phase deletes stays in its group,
so the third phase may choose it and delete all the others.
-/

namespace Oba.Backend

open Storage List

/-! ## The record that is kept -/

section Choice

variable {rec other third : UIDRecord} {records : List UIDRecord}

namespace UIDRecord

/-- The better score comes first, then the smaller DN. -/
def preference : UIDRecord → UIDRecord → Ordering :=
  compareLex (compareOn fun rec => -rec.score) (compareOn UIDRecord.dn)

instance : Std.TransCmp preference := inferInstanceAs (Std.TransCmp (compareLex _ _))

lemma precedes_iff : rec.precedes other ↔ preference rec other = .lt := by
  dsimp only [precedes, preference, compareLex, compareOn]
  rcases lt_trichotomy (-rec.score) (-other.score) with hlt | heq | hgt
  · rw [if_pos (by omega), compare_lt_iff_lt.mpr hlt]
    simpa using hlt
  · rw [if_neg (by omega), compare_eq_iff_eq.mpr heq]
    simp
  · rw [if_pos (by omega), compare_gt_iff_gt.mpr hgt]
    simpa using hgt.le

lemma not_precedes_iff : (!other.precedes rec) = true ↔ (preference rec other).isLE := by
  rw [Bool.not_eq_true', Bool.eq_false_iff, Ne, precedes_iff]
  exact ⟨fun h => by_contra fun hle => h (Std.OrientedCmp.lt_of_not_isLE hle),
    Std.OrientedCmp.not_lt_of_isLE⟩

lemma precedes_total (hne : rec.dn ≠ other.dn) : rec.precedes other ∨ other.precedes rec := by
  rw [precedes_iff, precedes_iff]
  cases hcompare : preference rec other with
  | lt => exact .inl rfl
  | eq => exact absurd (Std.LawfulEqOrd.eq_of_compare (compareLex_eq_eq.mp hcompare).2) hne
  | gt => exact .inr (Std.OrientedCmp.lt_of_gt hcompare)

end UIDRecord

instance : Std.Total fun rec other : UIDRecord => (!other.precedes rec) = true where
  total rec other := by
    rw [UIDRecord.not_precedes_iff, UIDRecord.not_precedes_iff, or_iff_not_imp_left]
    intro hle
    rw [Std.OrientedCmp.lt_of_not_isLE hle]
    rfl

instance : IsTrans UIDRecord fun rec other => (!other.precedes rec) = true where
  trans rec other third h h' := by
    rw [UIDRecord.not_precedes_iff] at h h' ⊢
    exact Std.TransCmp.isLE_trans h h'

lemma chooseCanonicalUIDRecord_spec {keep : UIDRecord}
    (h : chooseCanonicalUIDRecord records = some keep) :
    keep ∈ records ∧ ∀ rec ∈ records, ¬ rec.precedes keep := by
  have hsorted := records.pairwise_insertionSort fun rec other => (!other.precedes rec) = true
  obtain ⟨rest, hrest⟩ := head?_eq_some_iff.mp h
  rw [hrest] at hsorted
  have hmem : ∀ rec, rec ∈ records ↔ rec ∈ keep :: rest := fun rec =>
    hrest ▸ (mem_insertionSort _).symm
  refine ⟨(hmem keep).mpr mem_cons_self, fun rec hrec hprecedes => ?_⟩
  rcases mem_cons.mp ((hmem rec).mp hrec) with rfl | htail
  · cases (UIDRecord.precedes_iff.mp hprecedes).symm.trans Std.ReflCmp.compare_self
  · have hbefore := rel_of_pairwise_cons hsorted htail
    rw [hprecedes] at hbefore
    cases hbefore

lemma chooseCanonicalUIDRecord_isSome (h : records ≠ []) :
    ∃ keep, chooseCanonicalUIDRecord records = some keep := by
  unfold chooseCanonicalUIDRecord
  cases hsorted : records.insertionSort fun rec other => (!other.precedes rec) = true with
  | nil =>
    have hlength := congrArg length hsorted
    rw [length_insertionSort] at hlength
    exact absurd (eq_nil_of_length_eq_zero hlength) h
  | cons keep rest => exact ⟨keep, rfl⟩

end Choice

/-! ## The groups -/

lemma dn_ne_of_nodup {before after : List UIDRecord} {rec : UIDRecord}
    (hnodup : ((before ++ rec :: after).map UIDRecord.dn).Nodup) :
    ∀ other ∈ before ++ after, other.dn ≠ rec.dn := by
  rw [map_append] at hnodup
  intro other hother heq
  have hmem : rec.dn ∈ (before ++ after).map UIDRecord.dn := heq ▸ mem_map_of_mem hother
  rw [map_append] at hmem
  exact (nodup_middle.mp hnodup).notMem hmem

namespace UIDMap

variable {m : UIDMap} {rec : UIDRecord} {uid : Bytes}

lemma group_insert {others : List UIDRecord} :
    UIDMap.group (m.insert rec.uid others) uid = if uid = rec.uid then others else m.group uid := by
  unfold group
  rw [Std.ExtTreeMap.getElem?_insert, if_congr Std.LawfulEqCmp.compare_eq_iff_eq rfl rfl]
  simp only [eq_comm (a := uid)]
  split <;> rfl

lemma group_remove : (m.remove rec).group uid =
    if uid = rec.uid then (m.group rec.uid).filter (·.dn ≠ rec.dn) else m.group uid := by
  unfold remove
  dsimp only
  split
  next hnil =>
    split
    next heq => rw [heq, hnil, filter_nil]
    · rfl
  · split
    next hfiltered =>
      rw [hfiltered]
      unfold group
      rw [Std.ExtTreeMap.getElem?_erase, if_congr Std.LawfulEqCmp.compare_eq_iff_eq rfl rfl]
      simp only [eq_comm (a := uid)]
      split <;> rfl
    · exact group_insert

/-- The map holds the records, each in the group of its uid. -/
def Holds (m : UIDMap) (records : List UIDRecord) : Prop :=
  ∀ uid rec, rec ∈ m.group uid ↔ rec ∈ records ∧ rec.uid = uid

lemma holds_empty : Holds ∅ [] := fun uid rec => by simp [group]

variable {records before after : List UIDRecord}

lemma Holds.add (h : m.Holds records) (rec : UIDRecord) : (m.add rec).Holds (records ++ [rec]) := by
  intro uid r
  rw [UIDMap.add, group_insert, mem_append, mem_singleton]
  split
  next heq =>
    rw [mem_append, mem_singleton, h rec.uid r, heq]
    constructor
    · rintro (⟨hmem, huid⟩ | rfl)
      · exact ⟨.inl hmem, huid⟩
      · exact ⟨.inr rfl, rfl⟩
    · rintro ⟨hmem | rfl, huid⟩
      · exact .inl ⟨hmem, huid⟩
      · exact .inr rfl
  next hne =>
    rw [h uid r]
    constructor
    · exact fun ⟨hmem, huid⟩ => ⟨.inl hmem, huid⟩
    · rintro ⟨hmem | rfl, huid⟩
      · exact ⟨hmem, huid⟩
      · exact absurd huid.symm hne

lemma Holds.foldl_add (h : m.Holds before) (after : List UIDRecord) :
    UIDMap.Holds (after.foldl UIDMap.add m) (before ++ after) := by
  induction after generalizing m before with
  | nil => rwa [append_nil]
  | cons rec after ih =>
    have hrest := ih (h.add rec)
    rwa [append_assoc] at hrest

/-- The record gets another uid. -/
lemma Holds.replace (h : m.Holds (before ++ rec :: after))
    (hnodup : ((before ++ rec :: after).map UIDRecord.dn).Nodup) (uid : Bytes) :
    UIDMap.Holds ((m.remove rec).add { rec with uid }) (before ++ { rec with uid } :: after) := by
  have hothers := dn_ne_of_nodup hnodup
  -- what is left when the record has gone
  have hremoved : UIDMap.Holds (m.remove rec) (before ++ after) := by
    intro u r
    have hsplit : r ∈ before ++ rec :: after ↔ r = rec ∨ r ∈ before ++ after := by
      simp only [mem_append, mem_cons]
      tauto
    rw [group_remove]
    split
    next heq =>
      rw [mem_filter, h rec.uid r, heq, hsplit, decide_eq_true_iff]
      constructor
      · rintro ⟨⟨rfl | hmem, huid⟩, hne⟩
        · exact absurd rfl hne
        · exact ⟨hmem, huid⟩
      · exact fun ⟨hmem, huid⟩ => ⟨⟨.inr hmem, huid⟩, hothers r hmem⟩
    next hne =>
      rw [h u r, hsplit]
      constructor
      · rintro ⟨rfl | hmem, huid⟩
        · exact absurd huid.symm hne
        · exact ⟨hmem, huid⟩
      · exact fun ⟨hmem, huid⟩ => ⟨.inr hmem, huid⟩
  have hadded := hremoved.add { rec with uid }
  intro u r
  rw [hadded u r]
  simp only [mem_append, mem_cons, not_mem_nil, or_false]
  tauto

end UIDMap

/-! ## What becomes of the records -/

section Phases

variable (kept : List UIDRecord)

/-- The second phase deletes the entry, since the uid of its RDN is in use. -/
def UIDRecord.doomed (rec : UIDRecord) : Bool :=
  rec.mismatched && kept.any (·.uid = rec.rdnValue)

/-- The record in the map after the second phase. -/
def UIDRecord.matched (rec : UIDRecord) : UIDRecord :=
  if rec.mismatched && !rec.doomed kept then { rec with uid := rec.rdnValue } else rec

/-- The first two phases take no uid out of use and give none away twice: every uid has a user
that agrees with its RDN, and no two users are to get a uid that is not in use. -/
structure Orderly (records users : Set UIDRecord) : Prop where
  settled : ∀ rec ∈ records, ∃ user ∈ users, user.mismatched = false ∧ user.uid = rec.uid
  targets : ∀ rec ∈ users, ∀ other ∈ users, rec.mismatched → other.mismatched →
    rec.rdnValue = other.rdnValue → rec.dn = other.dn ∨ ∃ user ∈ users, user.uid = rec.rdnValue

/-- A user whose RDN is the uid of another one is not preferred to all users that share its own
uid and agree with their RDN. -/
def Preferred (users : Set UIDRecord) : Prop :=
  ∀ rec ∈ users, rec.mismatched → (∃ user ∈ users, user.uid = rec.rdnValue) →
    ∃ other ∈ users, other.mismatched = false ∧ other.uid = rec.uid ∧ other.precedes rec

/-- The records whose entries are left in the end. -/
def survivors (m : UIDMap) : List UIDRecord :=
  ((kept.filter (!UIDRecord.doomed kept ·)).map (UIDRecord.matched kept)).filter fun rec =>
    (chooseCanonicalUIDRecord (m.group rec.uid)).any (·.dn = rec.dn)

variable {kept} {rec : UIDRecord} {before after : List UIDRecord} {m : UIDMap}
  {records : Set UIDRecord}

lemma UIDRecord.doomed_iff :
    rec.doomed kept ↔ rec.mismatched ∧ rec.rdnValue ∈ kept.map UIDRecord.uid := by
  simp [doomed]

lemma UIDRecord.dn_matched (rec : UIDRecord) : (rec.matched kept).dn = rec.dn := by
  unfold matched
  split <;> rfl

lemma UIDRecord.map_dn_matched (l : List UIDRecord) :
    (l.map (UIDRecord.matched kept)).map UIDRecord.dn = l.map UIDRecord.dn := by
  rw [map_map]
  exact map_congr_left fun rec _ => rec.dn_matched

lemma UIDRecord.rdnAttr_matched (rec : UIDRecord) : (rec.matched kept).rdnAttr = rec.rdnAttr := by
  unfold matched
  split <;> rfl

lemma UIDRecord.rdnValue_matched (rec : UIDRecord) :
    (rec.matched kept).rdnValue = rec.rdnValue := by
  unfold matched
  split <;> rfl

lemma UIDRecord.matched_of_not_mismatched (h : rec.mismatched = false) :
    rec.matched kept = rec := by
  rw [matched, if_neg (by simp [h])]

lemma UIDRecord.matched_of_doomed (h : rec.doomed kept) : rec.matched kept = rec := by
  rw [matched, if_neg (by simp [h])]

lemma UIDRecord.matched_of_not_doomed (hmismatched : rec.mismatched)
    (h : rec.doomed kept = false) : rec.matched kept = { rec with uid := rec.rdnValue } := by
  rw [matched, if_pos (by simp [h, hmismatched])]

/-- An entry that is not deleted in the second phase agrees with its RDN after it. -/
lemma UIDRecord.mismatched_matched (h : rec.doomed kept = false) :
    (rec.matched kept).mismatched = false := by
  cases hmismatched : rec.mismatched with
  | false => rwa [matched_of_not_mismatched hmismatched]
  | true =>
    rw [matched_of_not_doomed hmismatched h, mismatched]
    simp

/-- The second phase finds a conflict just for the records that are doomed. -/
lemma any_group_iff (horderly : Orderly records {rec | rec ∈ kept})
    (hall : ∀ rec ∈ kept, rec ∈ records) (hnodup : (kept.map UIDRecord.dn).Nodup)
    (hkept : before ++ rec :: after = kept) (hmismatched : rec.mismatched)
    (hm : m.Holds (before.map (UIDRecord.matched kept) ++ rec :: after)) :
    (m.group rec.rdnValue).any (·.dn ≠ rec.dn) ↔ rec.doomed kept := by
  have hrec : rec ∈ kept := hkept ▸ mem_append_right _ mem_cons_self
  rw [any_eq_true]
  constructor
  · rintro ⟨other, hother, hne⟩
    obtain ⟨hmem, huid⟩ := (hm _ other).mp hother
    have hne : other.dn ≠ rec.dn := of_decide_eq_true hne
    refine UIDRecord.doomed_iff.mpr ⟨hmismatched, ?_⟩
    rcases mem_append.mp hmem with hbefore | hafter
    · obtain ⟨first, hfirst, rfl⟩ := mem_map.mp hbefore
      have hfirst' : first ∈ kept := hkept ▸ mem_append_left (rec :: after) hfirst
      rw [UIDRecord.dn_matched] at hne
      cases hdoomed : first.doomed kept with
      | true =>
        rw [UIDRecord.matched_of_doomed hdoomed] at huid
        exact huid ▸ mem_map_of_mem hfirst'
      | false =>
        cases hfirstMismatched : first.mismatched with
        | false =>
          rw [UIDRecord.matched_of_not_mismatched hfirstMismatched] at huid
          exact huid ▸ mem_map_of_mem hfirst'
        | true =>
          rw [UIDRecord.matched_of_not_doomed hfirstMismatched hdoomed] at huid
          exact mem_map.mpr ((horderly.targets rec hrec first hfirst' hmismatched
            hfirstMismatched huid.symm).resolve_left hne.symm)
    · exact huid ▸ mem_map_of_mem (hkept ▸ mem_append_right before hafter)
  · intro hdoomed
    obtain ⟨held, hheld, hheldUid⟩ := mem_map.mp (UIDRecord.doomed_iff.mp hdoomed).2
    obtain ⟨other, hother, hagrees, huid⟩ := horderly.settled held (hall held hheld)
    have hne : other.dn ≠ rec.dn := by
      intro heq
      have hsame := inj_on_of_nodup_map hnodup hother hrec heq
      rw [hsame, hmismatched] at hagrees
      cases hagrees
    refine ⟨other, (hm _ other).mpr ⟨?_, huid.trans hheldUid⟩, decide_eq_true hne⟩
    rcases mem_append.mp (hkept ▸ hother) with hbefore | hafter
    · refine mem_append_left _ (mem_map.mpr ⟨other, hbefore, ?_⟩)
      exact UIDRecord.matched_of_not_mismatched hagrees
    · exact mem_append_right _ hafter

/-- The group of a uid that was in use has the records with that uid and no others. -/
lemma mem_group_iff (hm : m.Holds (kept.map (UIDRecord.matched kept)))
    (hused : rec.uid ∈ kept.map UIDRecord.uid) :
    rec ∈ m.group rec.uid ↔ rec ∈ kept ∧ (rec.mismatched = false ∨ rec.doomed kept) := by
  rw [hm rec.uid rec]
  constructor
  · rintro ⟨hmem, -⟩
    obtain ⟨first, hfirst, rfl⟩ := mem_map.mp hmem
    cases hdoomed : first.doomed kept with
    | true =>
      rw [UIDRecord.matched_of_doomed hdoomed]
      exact ⟨hfirst, .inr hdoomed⟩
    | false =>
      cases hmismatched : first.mismatched with
      | false =>
        rw [UIDRecord.matched_of_not_mismatched hmismatched]
        exact ⟨hfirst, .inl hmismatched⟩
      | true =>
        rw [UIDRecord.matched_of_not_doomed hmismatched hdoomed] at hused
        rw [UIDRecord.doomed_iff.mpr ⟨hmismatched, hused⟩] at hdoomed
        cases hdoomed
  · rintro ⟨hmem, hcases⟩
    refine ⟨mem_map.mpr ⟨rec, hmem, ?_⟩, rfl⟩
    exact hcases.elim UIDRecord.matched_of_not_mismatched UIDRecord.matched_of_doomed

lemma mem_survivors_iff : rec ∈ survivors kept m ↔
    (∃ first ∈ kept, first.doomed kept = false ∧ first.matched kept = rec) ∧
      ∃ keep, chooseCanonicalUIDRecord (m.group rec.uid) = some keep ∧ keep.dn = rec.dn := by
  unfold survivors
  rw [mem_filter, mem_map]
  simp only [mem_filter, Bool.not_eq_true', and_assoc]
  cases chooseCanonicalUIDRecord (m.group rec.uid) <;> simp

lemma survivors_unique {other : UIDRecord} (hrec : rec ∈ survivors kept m)
    (hother : other ∈ survivors kept m) (huid : rec.uid = other.uid) : rec.dn = other.dn := by
  obtain ⟨-, keep, hkeep, hdn⟩ := mem_survivors_iff.mp hrec
  obtain ⟨-, keep', hkeep', hdn'⟩ := mem_survivors_iff.mp hother
  rw [huid, hkeep'] at hkeep
  rw [← hdn, ← hdn', Option.some.inj hkeep]

/-- Every uid is left just if the third phase chooses no entry that was deleted before. -/
lemma uids_left_iff (horderly : Orderly records {rec | rec ∈ kept})
    (hall : ∀ rec ∈ kept, rec ∈ records) (hnodup : (kept.map UIDRecord.dn).Nodup)
    (hm : m.Holds (kept.map (UIDRecord.matched kept))) :
    (∀ rec ∈ records, ∃ left ∈ survivors kept m, left.uid = rec.uid) ↔
      Preferred {rec | rec ∈ kept} := by
  constructor
  · intro hleft rec hrec hmismatched htarget
    have hdoomed : rec.doomed kept := UIDRecord.doomed_iff.mpr ⟨hmismatched, mem_map.mpr htarget⟩
    have hused : rec.uid ∈ kept.map UIDRecord.uid := mem_map_of_mem hrec
    obtain ⟨left, hsurvives, hleftUid⟩ := hleft rec (hall rec hrec)
    obtain ⟨⟨first, hfirst, hlives, rfl⟩, keep, hkeep, hdn⟩ := mem_survivors_iff.mp hsurvives
    have hagrees := UIDRecord.mismatched_matched hlives
    -- the uid was in use, so the record that is left is not one that has got it
    have hgroup : first.matched kept ∈ m.group (first.matched kept).uid :=
      (hm _ _).mpr ⟨mem_map_of_mem hfirst, rfl⟩
    obtain ⟨hmem, -⟩ := (mem_group_iff hm (hleftUid ▸ hused)).mp hgroup
    obtain ⟨hkeepGroup, hbest⟩ := chooseCanonicalUIDRecord_spec hkeep
    rw [hleftUid] at hkeepGroup
    have hkeepUid := ((hm _ keep).mp hkeepGroup).2
    have hkeepMem : keep ∈ kept := ((mem_group_iff hm (hkeepUid ▸ hused)).mp
      (hkeepUid.symm ▸ hkeepGroup)).1
    rw [← inj_on_of_nodup_map hnodup hkeepMem hmem hdn] at hagrees
    refine ⟨keep, hkeepMem, hagrees, hkeepUid, ?_⟩
    have hne : keep.dn ≠ rec.dn := by
      intro heq
      obtain rfl := inj_on_of_nodup_map hnodup hkeepMem hrec heq
      rw [hmismatched] at hagrees
      cases hagrees
    refine (UIDRecord.precedes_total hne).resolve_right (hbest rec ?_)
    rw [hleftUid]
    exact (mem_group_iff hm hused).mpr ⟨hrec, .inr hdoomed⟩
  · intro hpreferred rec hrec
    obtain ⟨other, hother, hagrees, huid⟩ := horderly.settled rec hrec
    have hused : rec.uid ∈ kept.map UIDRecord.uid := huid ▸ mem_map_of_mem hother
    have hgroup : other ∈ m.group rec.uid :=
      huid ▸ (mem_group_iff hm (huid ▸ hused)).mpr ⟨hother, .inl hagrees⟩
    obtain ⟨keep, hkeep⟩ := chooseCanonicalUIDRecord_isSome (ne_nil_of_mem hgroup)
    obtain ⟨hkeepGroup, hbest⟩ := chooseCanonicalUIDRecord_spec hkeep
    have hkeepUid := ((hm _ keep).mp hkeepGroup).2
    obtain ⟨hkeepMem, hcases⟩ := (mem_group_iff hm (hkeepUid ▸ hused)).mp
      (hkeepUid.symm ▸ hkeepGroup)
    have hkept : keep.mismatched = false := by
      refine hcases.resolve_right fun hdoomed => ?_
      obtain ⟨better, hbetter, hbetterAgrees, hbetterUid, hprecedes⟩ :=
        hpreferred keep hkeepMem (UIDRecord.doomed_iff.mp hdoomed).1
          (mem_map.mp (UIDRecord.doomed_iff.mp hdoomed).2)
      have hbetterUid := hbetterUid.trans hkeepUid
      refine hbest better ?_ hprecedes
      exact hbetterUid ▸ (mem_group_iff hm (hbetterUid ▸ hused)).mpr ⟨hbetter, .inl hbetterAgrees⟩
    refine ⟨keep, mem_survivors_iff.mpr ⟨⟨keep, hkeepMem, ?_, ?_⟩, keep, ?_, rfl⟩, hkeepUid⟩
    · simp [UIDRecord.doomed, hkept]
    · exact UIDRecord.matched_of_not_mismatched hkept
    · rw [hkeepUid]
      exact hkeep

end Phases

end Oba.Backend
