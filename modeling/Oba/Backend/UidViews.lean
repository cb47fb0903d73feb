import Oba.Backend.UidRecords

/-! # The uids of a directory

The records of a repair are made from what the backend reads. Where attributes are stored under
names in lower case and an entry has one uid at most, they say which entries have which uids.
-/

namespace Oba.Backend

open Storage ObaDB UnorderedMap List

variable {entry : Entry}

/-! ## Attributes -/

def uidValues (attributes : Attributes) : List Bytes := (attributes[ascii "uid"]?).getD []

/-- The entry has the uid, among others perhaps. Blank values are no uids. -/
def HasUid (attributes : Attributes) (uid : Bytes) : Prop :=
  uid ≠ [] ∧ ∃ value ∈ uidValues attributes, trimSpace value = uid

/-- Attributes under names in lower case, as the backend stores them. -/
def LowerNamed (attributes : Attributes) : Prop := ∀ name, name ∈ attributes → toLower name = name

/-- Attributes with one uid at most. -/
structure Tidy (attributes : Attributes) : Prop where
  lower : LowerNamed attributes
  single : (uidValues attributes).length ≤ 1

section Attributes

variable {attributes : Attributes} {dn uid : Bytes}

lemma lowerNames_eq (h : LowerNamed attributes) (order : MapOrder) :
    lowerNames order attributes = attributes := by
  have hrange : ∀ binding ∈ order.range attributes, toLower binding.1 = binding.1 := by
    intro binding hbinding
    exact h binding.1 ((order.mem_iff_mem_range attributes).mpr ⟨binding.2, hbinding⟩)
  have hsame : (order.range attributes).map (fun binding => (toLower binding.1, binding.2)) =
      order.range attributes :=
    (map_congr_left fun binding hbinding => by rw [hrange binding hbinding]; rfl).trans (map_id _)
  have hfold : insertAll ∅ ((order.range attributes).map fun binding =>
      (toLower binding.1, binding.2)) = lowerNames order attributes := by
    rw [insertAll, foldl_map, lowerNames]
  rw [← hfold, hsame, insertAll_range]

lemma map_uid_uidRecord : (uidRecord entry).map UIDRecord.uid = some uid ↔
    uid ≠ [] ∧ trimSpace (getFirstAttribute entry (ascii "uid")) = uid := by
  unfold uidRecord
  by_cases hblank : trimSpace (getFirstAttribute entry (ascii "uid")) = []
  · rw [if_pos hblank]
    constructor
    · intro hnone
      cases hnone
    · exact fun ⟨hne, huid⟩ => absurd (huid ▸ hblank) hne
  · rw [if_neg hblank]
    constructor
    · intro huid
      cases huid
      exact ⟨hblank, rfl⟩
    · exact fun ⟨_, huid⟩ => congrArg some huid

/-- The uid of the record is the only one. -/
lemma hasUid_iff (h : Tidy attributes) :
    HasUid attributes uid ↔ (uidRecord ⟨dn, attributes⟩).map UIDRecord.uid = some uid := by
  have hfirst : getFirstAttribute ⟨dn, attributes⟩ (ascii "uid") =
      ((uidValues attributes).head?).getD [] := by
    have hname : toLower (ascii "uid") = ascii "uid" := by decide
    unfold getFirstAttribute getAttribute uidValues
    rw [hname]
  rw [map_uid_uidRecord, hfirst]
  refine and_congr_right fun hne => ?_
  have hsingle := h.single
  rcases hcases : uidValues attributes with _ | ⟨value, rest⟩
  · have hnil : trimSpace [] = [] := rfl
    simp [hnil, Ne.symm hne]
  · rw [hcases, length_cons] at hsingle
    obtain rfl : rest = [] := eq_nil_of_length_eq_zero (by omega)
    simp

lemma uidRecord_dn {rec : UIDRecord} (h : uidRecord entry = some rec) :
    rec.dn = normalizeDN entry.dn ∧ rec.rdnAttr = (parseDNFirstRDN entry.dn).1 ∧
      rec.rdnValue = (parseDNFirstRDN entry.dn).2 ∧
      rec.isUsersOU = isUnderOU entry.dn (ascii "users") := by
  unfold uidRecord at h
  dsimp only at h
  split at h
  · cases h
  · cases h
    exact ⟨rfl, rfl, rfl, rfl⟩

end Attributes

/-! ## Modifications -/

section Modify

variable {s : Settings} {inv : Invocation} {attributes : Attributes} {dn bindDN : Bytes}
  {change : Modification}

lemma lowerNamed_setAttribute (h : LowerNamed entry.attributes) (name : Bytes)
    (values : List Bytes) : LowerNamed (setAttribute entry name values).attributes := by
  intro other hother
  rcases Std.ExtTreeMap.mem_insert.mp hother with heq | hmem
  · rw [← Std.LawfulEqOrd.eq_of_compare heq, toLower_toLower]
  · exact h other hmem

lemma uidValues_setAttribute {name : Bytes} (hname : toLower name ≠ ascii "uid") (entry : Entry)
    (values : List Bytes) :
    uidValues (setAttribute entry name values).attributes = uidValues entry.attributes := by
  unfold uidValues setAttribute
  rw [Std.ExtTreeMap.getElem?_insert, if_neg fun heq => hname (Std.LawfulEqOrd.eq_of_compare heq)]

/-- The operational attributes have nothing to do with the uid. -/
lemma setOperationalAttrs_uid (bindDN : Bytes) (h : LowerNamed entry.attributes)
    (now uuid : Bytes) :
    LowerNamed (setOperationalAttrs .modify bindDN now uuid entry).attributes ∧
      uidValues (setOperationalAttrs .modify bindDN now uuid entry).attributes =
        uidValues entry.attributes := by
  unfold setOperationalAttrs
  constructor
  · exact lowerNamed_setAttribute (lowerNamed_setAttribute (lowerNamed_setAttribute h _ _) _ _) _ _
  · rw [uidValues_setAttribute (by decide), uidValues_setAttribute (by decide),
      uidValues_setAttribute (by decide)]

lemma applyModification_uid (h : LowerNamed entry.attributes)
    (hchange : change = uidRemoval ∨ ∃ uid, change = uidReplacement uid) :
    LowerNamed (applyModification entry change).attributes ∧
      uidValues (applyModification entry change).attributes = change.values := by
  have hname : toLower (ascii "uid") = ascii "uid" := by decide
  rcases hchange with rfl | ⟨uid, rfl⟩
  · refine ⟨fun other hother => h other (Std.ExtTreeMap.mem_of_mem_erase hother), ?_⟩
    show ((entry.attributes.erase (toLower (ascii "uid")))[ascii "uid"]?).getD [] = []
    rw [hname, Std.ExtTreeMap.getElem?_erase_self]
    rfl
  · refine ⟨lowerNamed_setAttribute h _ _, ?_⟩
    show ((entry.attributes.insert (toLower (ascii "uid")) [uid])[ascii "uid"]?).getD [] = [uid]
    rw [hname, Std.ExtTreeMap.getElem?_insert_self]
    rfl

/-- The attributes that a modification of the uid stores. -/
lemma modifyEntry_uid {new : Entry} (h : LowerNamed attributes)
    (hchange : change = uidRemoval ∨ ∃ uid, change = uidReplacement uid)
    (hnew : inv.modifyEntry s [change] bindDN ⟨dn, attributes⟩ = .ok new) :
    Tidy new.attributes ∧ uidValues new.attributes = change.values := by
  have hentry : LowerNamed (Entry.mk dn attributes).attributes := h
  obtain ⟨hchanged, hvalues⟩ := applyModification_uid hentry hchange
  obtain ⟨hlower, hsame⟩ := setOperationalAttrs_uid bindDN hchanged inv.now inv.uuid
  unfold Invocation.modifyEntry Invocation.checkEntry at hnew
  rw [foldl_cons, foldl_nil, convertFromStorageEntry, lowerNames_eq h] at hnew
  split at hnew
  · cases hnew
  · split at hnew
    · cases hnew
      rw [convertToStorageEntry]
      rw [lowerNames_eq hlower, hsame, hvalues]
      refine ⟨⟨hlower, ?_⟩, rfl⟩
      rw [hsame, hvalues]
      rcases hchange with rfl | ⟨uid, rfl⟩ <;> simp [uidRemoval, uidReplacement]
    · cases hnew

end Modify

/-! ## Directories -/

section

variable (directory : Bytes → Option Attributes)

/-- The record of the entry at a DN. -/
def recordAt (dn : Bytes) : Option UIDRecord :=
  (directory dn).bind fun attributes => uidRecord ⟨dn, attributes⟩

/-- The records of the entries with a uid. -/
def uidRecords : Set UIDRecord :=
  {rec | recordAt directory rec.dn = some rec}

/-- The records of the users with a uid. -/
def uidUsers : Set UIDRecord :=
  {rec | recordAt directory rec.dn = some rec ∧ rec.isUsersOU}

/-- The records tell the uids of the directory. -/
def Shows (records : List UIDRecord) : Prop :=
  ∀ dn uid, (recordAt directory dn).map UIDRecord.uid = some uid ↔
    ∃ rec ∈ records, rec.dn = dn ∧ rec.uid = uid

end

section Directories

variable {directory : Bytes → Option Attributes} {records before after : List UIDRecord}
  {rec : UIDRecord} {dn uid : Bytes} {value : Option Attributes}

lemma recordAt_update (dn d : Bytes) : recordAt (Function.update directory dn value) d =
    if d = dn then value.bind (fun attributes => uidRecord ⟨dn, attributes⟩)
    else recordAt directory d := by
  unfold recordAt
  split
  next heq => rw [heq, Function.update_self]
  next hne => rw [Function.update_of_ne hne]

/-- An entry loses its uid or goes. -/
lemma Shows.erase (h : Shows directory records)
    (hvalue : (value.bind fun attributes => uidRecord ⟨dn, attributes⟩) = none) :
    Shows (Function.update directory dn value) (records.filter (·.dn ≠ dn)) := by
  intro d u
  rw [recordAt_update]
  by_cases heq : d = dn
  · rw [if_pos heq, hvalue]
    constructor
    · intro hnone
      cases hnone
    · rintro ⟨rec, hrec, hdn, -⟩
      exact absurd (hdn.trans heq) (of_decide_eq_true (mem_filter.mp hrec).2)
  · rw [if_neg heq, h d u]
    refine exists_congr fun rec => ?_
    rw [mem_filter, decide_eq_true_iff]
    constructor
    · rintro ⟨hrec, rfl, huid⟩
      exact ⟨⟨hrec, heq⟩, rfl, huid⟩
    · exact fun ⟨⟨hrec, _⟩, hdn, huid⟩ => ⟨hrec, hdn, huid⟩

lemma filter_middle (hnodup : ((before ++ rec :: after).map UIDRecord.dn).Nodup) :
    (before ++ rec :: after).filter (·.dn ≠ rec.dn) = before ++ after := by
  have hothers := dn_ne_of_nodup hnodup
  rw [filter_append, filter_cons_of_neg (by simp)]
  rw [filter_eq_self.mpr fun other hother =>
      decide_eq_true (hothers other (mem_append_left _ hother)),
    filter_eq_self.mpr fun other hother =>
      decide_eq_true (hothers other (mem_append_right _ hother))]

/-- An entry gets another uid. -/
lemma Shows.replace (h : Shows directory (before ++ rec :: after))
    (hnodup : ((before ++ rec :: after).map UIDRecord.dn).Nodup)
    (hvalue : (value.bind fun attributes => uidRecord ⟨rec.dn, attributes⟩).map UIDRecord.uid =
      some uid) :
    Shows (Function.update directory rec.dn value) (before ++ { rec with uid } :: after) := by
  have hothers := dn_ne_of_nodup hnodup
  intro d u
  rw [recordAt_update]
  by_cases heq : d = rec.dn
  · rw [if_pos heq, hvalue]
    constructor
    · intro huid
      exact ⟨{ rec with uid }, mem_append_right _ mem_cons_self, heq.symm, Option.some.inj huid⟩
    · rintro ⟨other, hother, hdn, rfl⟩
      rcases mem_append.mp hother with hbefore | hrest
      · exact absurd (hdn.trans heq) (hothers other (mem_append_left _ hbefore))
      · rcases mem_cons.mp hrest with rfl | hafter
        · rfl
        · exact absurd (hdn.trans heq) (hothers other (mem_append_right _ hafter))
  · have hmem (own : UIDRecord) {other : UIDRecord} (hne : other.dn ≠ own.dn) :
        other ∈ before ++ own :: after ↔ other ∈ before ++ after := by
      rw [mem_append, mem_cons, mem_append, or_iff_right (mt (congrArg UIDRecord.dn) hne)]
    rw [if_neg heq, h d u]
    refine exists_congr fun other => and_congr_left fun hother => ?_
    have hne : other.dn ≠ rec.dn := hother.1 ▸ heq
    exact (hmem rec hne).trans (hmem { rec with uid } hne).symm

variable {τ : Type} {db : ObaDB τ}

lemma recordAt_dn (h : recordAt db.directory dn = some rec) :
    rec.dn = dn ∧ ∃ path, Canonical dn path := by
  obtain ⟨attributes, hattributes, hrec⟩ := Option.bind_eq_some_iff.mp h
  obtain ⟨path, hpath⟩ := canonical_of_directory hattributes
  exact ⟨(uidRecord_dn hrec).1.trans hpath.normalized, path, hpath⟩

/-- What a record has from the DN. -/
lemma recordAt_fields (h : rec ∈ uidRecords directory) :
    rec.rdnAttr = (parseDNFirstRDN rec.dn).1 ∧ rec.rdnValue = (parseDNFirstRDN rec.dn).2 ∧
      rec.isUsersOU = isUnderOU rec.dn (ascii "users") := by
  obtain ⟨attributes, -, hrec⟩ := Option.bind_eq_some_iff.mp h
  exact (uidRecord_dn hrec).2

lemma shows_of_mem (hrecords : ∀ rec, rec ∈ records ↔ rec ∈ uidRecords db.directory) :
    Shows db.directory records := by
  intro dn uid
  constructor
  · intro h
    obtain ⟨rec, hrec, huid⟩ := Option.map_eq_some_iff.mp h
    obtain ⟨rfl, -⟩ := recordAt_dn hrec
    exact ⟨rec, (hrecords rec).mpr hrec, rfl, huid⟩
  · rintro ⟨rec, hrec, rfl, rfl⟩
    have hat : recordAt db.directory rec.dn = some rec := (hrecords rec).mp hrec
    rw [hat]
    rfl

lemma map_filterMap_sublist {α β γ : Type} {f : α → Option β} {g : β → γ} {k : α → γ}
    {l : List α} (h : ∀ a ∈ l, ∀ b, f a = some b → g b = k a) :
    ((l.filterMap f).map g).Sublist (l.map k) := by
  induction l with
  | nil => exact .slnil
  | cons a l ih =>
    obtain ⟨hfirst, hrest⟩ := forall_mem_cons.mp h
    cases hf : f a with
    | none =>
      rw [filterMap_cons_none hf]
      exact (ih hrest).cons _
    | some b =>
      rw [filterMap_cons_some hf, map_cons, hfirst b hf]
      exact (ih hrest).cons_cons _

/-- The search of a repair finds the records of all entries with a uid. -/
lemma search_records (h : AtRest db)
    (htidy : ∀ dn attributes, db.directory dn = some attributes → Tidy attributes)
    (orders : Bytes → MapOrder) : ∃ entries db', search orders db [] 2 none = (.ok entries, db') ∧
      AtRest db' ∧ db'.directory = db.directory ∧
      (∀ rec, rec ∈ entries.filterMap uidRecord ↔ rec ∈ uidRecords db.directory) ∧
      ((db.radix.paths.map Prod.fst).Nodup →
        ((entries.filterMap uidRecord).map UIDRecord.dn).Nodup) := by
  have halone := h.quiet.alone h.indexed
  obtain ⟨hquiet, hindexed, hdirectory⟩ := h.quiet.rollback h.indexed
    (db.begin.2.reread_search db.begin.1 db.radix.iterate)
  have hiterated : iterated db.begin.2 db.begin.1 (normalizeDN []) 2 none =
      (.ok db.entries, (db.begin.2.search db.begin.1 db.radix.iterate).2) := by
    unfold iterated ObaDB.searchByDN
    exact if_pos ⟨by decide, rfl⟩
  have hmem : ∀ entry, entry ∈ db.entries ↔ db.directory entry.dn = some entry.attributes := by
    intro entry
    have hsearch : entry ∈ (db.begin.2.search db.begin.1
        ((db.begin.2.radix.paths.filter fun _ => true).map fun p => joinDNReverse p.1)).1 ↔ _ :=
      halone.mem_search fun _ => true
    rw [filter_true] at hsearch
    refine hsearch.trans ⟨And.left, fun hattributes => ⟨hattributes, ?_⟩⟩
    obtain ⟨q, hq⟩ := canonical_of_directory hattributes
    exact ⟨q, hq, rfl⟩
  have hconvert : db.entries.map
      (fun entry => convertFromStorageEntry (orders entry.dn) entry) = db.entries := by
    refine (map_congr_left fun entry hentry => ?_).trans (map_id' _)
    rw [convertFromStorageEntry, lowerNames_eq (htidy _ _ ((hmem entry).mp hentry)).lower]
  refine ⟨db.entries, _, ?_, ⟨hquiet, hindexed⟩, hdirectory, fun rec => ?_, fun hpaths => ?_⟩
  · unfold search
    rw [hiterated]
    dsimp only [Except.map]
    rw [hconvert]
  · rw [mem_filterMap]
    constructor
    · rintro ⟨entry, hentry, hrec⟩
      have hattributes := (hmem entry).mp hentry
      obtain ⟨q, hq⟩ := canonical_of_directory hattributes
      have hdn := (uidRecord_dn hrec).1.trans hq.normalized
      show (db.directory rec.dn).bind _ = some rec
      rw [hdn, hattributes]
      exact hrec
    · intro hrec
      obtain ⟨attributes, hattributes, hrecord⟩ := Option.bind_eq_some_iff.mp hrec
      exact ⟨⟨rec.dn, attributes⟩, (hmem _).mpr hattributes, hrecord⟩
  · have hentries : (db.entries.map Entry.dn).Nodup := by
      have hcanonical : ∀ dn ∈ db.radix.iterate, ∃ path, Canonical dn path := fun dn hdn =>
        h.quiet.synced.iterate hdn
      rw [ObaDB.entries, halone.synced.search_eq (.inl halone.active) hcanonical]
      have hsublist := map_filterMap_sublist (g := Entry.dn) (k := id) (l := db.radix.iterate)
        (f := fun dn => (db.begin.2.sees db.begin.1 dn).map (Entry.mk dn))
        fun dn _ entry hentry => by
          obtain ⟨attributes, -, rfl⟩ := Option.map_eq_some_iff.mp hentry
          rfl
      rw [map_id] at hsublist
      exact (nodup_iterate hpaths h.quiet.synced.paths).sublist hsublist
    refine hentries.sublist (map_filterMap_sublist fun entry hentry rec hrec => ?_)
    obtain ⟨q, hq⟩ := canonical_of_directory ((hmem entry).mp hentry)
    exact (uidRecord_dn hrec).1.trans hq.normalized

end Directories

end Oba.Backend
