import Oba.Storage.Newest

/-! # The uids of the users

An entry can have several uids. The check of a put compares the first one of the new entry, in
the iteration order of its attributes, with the first one of every user that the index lists and
the transaction sees.
-/

namespace Oba.Storage

open List Option

/-- The uids of an entry, trimmed and in lower case. -/
def uids (attributes : Attributes) : List Bytes :=
  attributes.toList.flatMap fun binding =>
    if toLower binding.1 = ascii "uid" then binding.2.filterMap canonicalUID else []

/-- The entry has at most one uid. -/
def OneUid (attributes : Attributes) : Prop :=
  ∀ uid ∈ uids attributes, ∀ uid' ∈ uids attributes, uid = uid'

instance (attributes : Attributes) : Decidable (OneUid attributes) :=
  inferInstanceAs (Decidable (∀ uid ∈ uids attributes, ∀ uid' ∈ uids attributes, uid = uid'))

lemma canonicalUID_ne_nil {raw uid : Bytes} (h : canonicalUID raw = some uid) : uid ≠ [] := by
  obtain ⟨hblank, huid⟩ := ite_none_left_eq_some.mp h
  rw [← some.inj huid]
  exact fun hnil => hblank (.inr hnil)

lemma mem_uids {attributes : Attributes} {uid : Bytes} :
    uid ∈ uids attributes ↔ ∃ binding ∈ attributes.toList, toLower binding.1 = ascii "uid" ∧
      ∃ raw ∈ binding.2, canonicalUID raw = some uid := by
  unfold uids
  rw [mem_flatMap]
  refine exists_congr fun binding => and_congr_right fun _ => ?_
  split
  next hname => simp only [hname, true_and, mem_filterMap]
  next hname => simp only [hname, false_and, not_mem_nil]

section Extract

variable {attributes : Attributes} {uid : Bytes}

lemma ne_nil_of_mem_uids (h : uid ∈ uids attributes) : uid ≠ [] := by
  obtain ⟨_, -, -, raw, -, huid⟩ := mem_uids.mp h
  exact canonicalUID_ne_nil huid

lemma extractCanonicalUID_mem (order : MapOrder) (h : uid ∈ uids attributes) :
    extractCanonicalUID order attributes ∈ uids attributes := by
  obtain ⟨binding, hbinding, hname, raw, hraw, huid⟩ := mem_uids.mp h
  unfold extractCanonicalUID
  cases hfirst : (order.range attributes).findSome? fun binding =>
      if toLower binding.1 = ascii "uid" then binding.2.findSome? canonicalUID else none with
  | none =>
    have hnone := findSome?_eq_none_iff.mp hfirst binding
      ((order.perm attributes).mem_iff.mpr hbinding)
    rw [if_pos hname] at hnone
    rw [findSome?_eq_none_iff.mp hnone raw hraw] at huid
    cases huid
  | some first =>
    obtain ⟨found, hmem, hfound⟩ := exists_of_findSome?_eq_some hfirst
    obtain ⟨hname, hvalue⟩ := ite_none_right_eq_some.mp hfound
    exact mem_uids.mpr ⟨found, (order.perm attributes).mem_iff.mp hmem, hname,
      exists_of_findSome?_eq_some hvalue⟩

/-- The check looks at the uid of an entry that has one. -/
lemma OneUid.extractCanonicalUID (hone : OneUid attributes) (order : MapOrder)
    (h : uid ∈ uids attributes) : Storage.extractCanonicalUID order attributes = uid :=
  hone _ (extractCanonicalUID_mem order h) uid h

end Extract

/-- No two users have a uid in common. -/
def UidsUnique (content : Bytes → Option Attributes) : Prop :=
  ∀ dn dn' attributes attributes', isUsersSubtreeDN dn → isUsersSubtreeDN dn' →
    content dn = some attributes → content dn' = some attributes' →
    ∀ uid ∈ uids attributes, uid ∈ uids attributes' → dn = dn'

section Unique

variable {content content' : Bytes → Option Attributes}

lemma UidsUnique.congr (h : UidsUnique content)
    (hsame : ∀ dn, isUsersSubtreeDN dn → content' dn = content dn) : UidsUnique content' := by
  intro dn dn' attributes attributes' hdn hdn' hcontent hcontent'
  rw [hsame dn hdn] at hcontent
  rw [hsame dn' hdn'] at hcontent'
  exact h dn dn' attributes attributes' hdn hdn' hcontent hcontent'

/-- No other user has a uid of the entry. -/
def OwnUids (content : Bytes → Option Attributes) (dn : Bytes) (attributes : Attributes) : Prop :=
  ∀ other attributes', other ≠ dn → isUsersSubtreeDN other → content other = some attributes' →
    ∀ uid ∈ uids attributes, uid ∉ uids attributes'

lemma UidsUnique.update (h : UidsUnique content) {dn : Bytes} {value : Option Attributes}
    (hown : isUsersSubtreeDN dn → ∀ attributes ∈ value, OwnUids content dn attributes) :
    UidsUnique (Function.update content dn value) := by
  intro d d' attributes attributes' hd hd' hcontent hcontent' uid huid huid'
  by_contra hne
  by_cases heq : d = dn
  · subst heq
    rw [Function.update_self] at hcontent
    rw [Function.update_of_ne (Ne.symm hne)] at hcontent'
    exact hown hd attributes hcontent d' attributes' (Ne.symm hne) hd' hcontent' uid huid huid'
  · rw [Function.update_of_ne heq] at hcontent
    by_cases heq' : d' = dn
    · subst heq'
      rw [Function.update_self] at hcontent'
      exact hown hd' attributes' hcontent' d attributes hne hd hcontent uid huid' huid
    · rw [Function.update_of_ne heq'] at hcontent'
      exact hne (h d d' attributes attributes' hd hd' hcontent hcontent' uid huid huid')

end Unique

/-! ## The check -/

namespace ObaDB

variable {τ : Type} {db db' : ObaDB τ} {tx : Nat} {dn : Bytes} {path : List Bytes} {orders : Orders}

/-- What a scan that finds no second owner has compared. -/
lemma Synced.uidScan (h : db.Synced) (htx : db.isActive tx) {uid : Bytes} {position : Nat}
    {dns : List Bytes} (hdns : ∀ d ∈ dns, ∃ q, Canonical d q)
    (hscan : (db.uidScan orders tx dn uid position dns).1 = true) :
    ∀ d ∈ dns, d ≠ dn → isUsersSubtreeDN d → ∀ attributes, db.reads tx d = some attributes →
      ∃ order, extractCanonicalUID order attributes ≠ uid := by
  induction dns generalizing db position with
  | nil => exact fun d hd => absurd hd not_mem_nil
  | cons other rest ih =>
    obtain ⟨⟨q, hother⟩, hrest⟩ := forall_mem_cons.mp hdns
    rw [ObaDB.uidScan] at hscan
    cases hvisible : db.visible tx other with | mk result read =>
    have hread : Reread db read := reread_of_visible hvisible
    -- the rest of the scan reads the same in the database that the first read leaves
    have hafter : ∀ {position : Nat},
        (read.uidScan orders tx dn uid position rest).1 = true →
        ∀ d ∈ rest, d ≠ dn → isUsersSubtreeDN d → ∀ attributes,
          db.reads tx d = some attributes →
            ∃ order, extractCanonicalUID order attributes ≠ uid := by
      intro position hscan d hd hne husers attributes hreads
      obtain ⟨q, hcanonical⟩ := hrest d hd
      rw [← h.reads_reread hread htx hcanonical] at hreads
      exact ih (h.reread hread) (hread.isActive tx ▸ htx) hrest hscan d hd hne husers attributes
        hreads
    rw [hvisible] at hscan
    refine forall_mem_cons.mpr ⟨fun hne husers attributes hreads => ?_, ?_⟩
    · unfold reads at hreads
      rw [hvisible] at hreads
      cases result with
      | error err => cases hreads
      | ok v =>
        obtain rfl : v.data = attributes := some.inj hreads
        dsimp only at hscan
        rw [if_neg (by simp [hother.ne_nil, hne, husers])] at hscan
        refine ⟨orders (.oldUid position), fun heq => ?_⟩
        rw [if_pos heq] at hscan
        cases hscan
    · cases result with
      | error err => exact hafter hscan
      | ok v =>
        dsimp only at hscan
        split at hscan
        · exact hafter hscan
        · split at hscan
          · cases hscan
          · exact hafter hscan

/-- A put that passes the check has uids of its own, if the index lists the users and every entry
has one uid. -/
lemma Synced.ownUids (h : db.Synced) (htx : db.isActive tx) {attributes : Attributes}
    {content : Bytes → Option Attributes}
    (hcheck : (db.checkUIDUnique orders tx dn attributes).1 = true) (hdn : isUsersSubtreeDN dn)
    (hone : OneUid attributes)
    (hlisted : ∀ d, isUsersSubtreeDN d → (content d).isSome → d ∈ db.radix.iterate)
    (hreads : ∀ d ∈ db.radix.iterate, isUsersSubtreeDN d → db.reads tx d = content d)
    (hsingle : ∀ d attributes, isUsersSubtreeDN d → content d = some attributes →
      OneUid attributes) : OwnUids content dn attributes := by
  intro other attributes' hne hother hcontent uid huid huid'
  have hmem := hlisted other hother (by rw [hcontent]; rfl)
  unfold checkUIDUnique at hcheck
  rw [hone.extractCanonicalUID _ huid] at hcheck
  rw [if_neg (by
    rw [not_or, not_not]
    exact ⟨ne_nil_of_mem_uids huid, hdn⟩)]
    at hcheck
  obtain ⟨order, hdiffer⟩ := h.uidScan htx (fun _ => h.iterate) hcheck other hmem hne hother
    attributes' ((hreads other hmem hother).trans hcontent)
  exact hdiffer ((hsingle other attributes' hother hcontent).extractCanonicalUID order huid')

end ObaDB

end Oba.Storage
