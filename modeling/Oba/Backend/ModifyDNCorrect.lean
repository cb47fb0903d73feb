import Oba.Backend.Renames
import Oba.Backend.Serial

/-! # Renames that succeed

A rename reads in one transaction and writes in another. When no other transaction is under way,
what it writes is the moved entry and then the moved entries below it.
-/

namespace Oba.Backend

open Storage ObaDB List Raft
open Function (update update_of_ne update_self)

/-! ## The loop over the entries below -/

section Calls

variable {τ : Type} {trees : IndexTrees τ} {db db' : ObaDB τ} {tx : Nat} {old new : Bytes}
  {path : List Bytes} {call : ModifyDNCall} {orders : Nat → Orders} {q : List Bytes}
  {directory : Bytes → Option Attributes} {attributes : Attributes}

lemma moveChildren_moved {i : Nat} {children : List Entry} (h : db.Alone tx)
    (hnames : ∀ child ∈ children, (∃ q, Canonical child.dn q) ∧
      ∃ q, Canonical (replaceParentDN child.dn old new) q)
    (hok : moveChildren trees orders tx old new i children db = (.ok (), db')) :
    Moved (replaceParentDN · old new) (children.map Entry.dn) db.directory db'.directory := by
  induction children generalizing db i with
  | nil =>
    cases hok
    exact .nil _ _
  | cons child rest ih =>
    obtain ⟨⟨⟨q, hq⟩, ⟨q', hq'⟩⟩, hrest⟩ := forall_mem_cons.mp hnames
    rw [moveChildren] at hok
    split at hok
    · cases hok
    next deleted hdelete =>
      split at hok
      · cases hok
      next moved hput =>
        obtain ⟨hdeleted, hgone⟩ := h.delete (hq.normalized.symm ▸ hq) hdelete
        obtain ⟨hmoved, hthere⟩ := hdeleted.put (hq'.normalized.symm ▸ hq') hput
        have hrestMoved := ih hmoved hrest hok
        rw [hthere, hgone, hq.normalized, hq'.normalized] at hrestMoved
        exact .cons hrestMoved

lemma equalFold_iff {dn : Bytes} (hdn : Canonical dn q) (hold : Canonical old path) :
    equalFold dn old ↔ dn = old := by
  unfold equalFold
  rw [toLower_of_canonical hdn, toLower_of_canonical hold, decide_eq_true_iff]

/-- The descendants are moved one by one. -/
lemma updateChildrenDNs_moved (h : db.Alone tx) (hold : Canonical old path)
    (hnames : ∀ d, Descends db.directory old d → isCanonical (replaceParentDN d old new))
    (hok : updateChildrenDNs trees orders db tx old new = (.ok (), db')) :
    ∃ dns, (∀ d, d ∈ dns ↔ Descends db.directory old d) ∧
      Moved (replaceParentDN · old new) dns db.directory db'.directory := by
  obtain ⟨entries, hentries, hmem⟩ :=
    h.searchByDN (hold.normalized.symm ▸ hold) (.inr ⟨rfl, rfl⟩)
  have hread := db.reread_searchByDN tx old .subtree
  unfold updateChildrenDNs at hok
  cases hsearch : db.searchByDN tx old .subtree with | mk result read =>
  rw [hsearch] at hok hentries hread
  obtain rfl : result = .ok entries := hentries
  dsimp only at hok hread
  have hcanonical : ∀ entry ∈ entries, ∃ q, Canonical entry.dn q := fun entry hentry =>
    ((hmem entry).mp hentry).2.imp fun _ hq => hq.1
  have hdescends : ∀ entry, entry ∈ entries.filter (fun entry => !equalFold entry.dn old) →
      Descends db.directory old entry.dn := by
    intro entry hentry
    obtain ⟨hfound, hfold⟩ := mem_filter.mp hentry
    obtain ⟨hattributes, q, hq, hbelow⟩ := (hmem entry).mp hfound
    refine ⟨by rw [hattributes]; rfl, by rwa [inSubtree_eq hold hq], fun heq => ?_⟩
    rw [(equalFold_iff hq hold).mpr heq] at hfold
    cases hfold
  have hdns : ∀ d, d ∈ (entries.filter fun entry => !equalFold entry.dn old).map Entry.dn ↔
      Descends db.directory old d := by
    intro d
    constructor
    · intro hd
      obtain ⟨entry, hentry, rfl⟩ := mem_map.mp hd
      exact hdescends entry hentry
    · intro hd
      obtain ⟨attributes, hattributes⟩ := Option.isSome_iff_exists.mp hd.entry
      obtain ⟨q, hq⟩ := canonical_of_directory hattributes
      refine mem_map.mpr ⟨⟨d, attributes⟩, mem_filter.mpr ⟨(hmem _).mpr
        ⟨hattributes, q, hq, by rw [← inSubtree_eq hold hq]; exact hd.below⟩, ?_⟩, rfl⟩
      rw [Bool.not_eq_true', Bool.eq_false_iff]
      exact fun hfold => hd.ne ((equalFold_iff hq hold).mp hfold)
  have hmoved := moveChildren_moved (h.reread hread) (fun child hchild => ?_) hok
  · rw [hread.directory] at hmoved
    exact ⟨_, hdns, hmoved⟩
  · exact ⟨hcanonical child (mem_of_mem_filter hchild),
      isCanonical_iff.mp (hnames child.dn (hdescends child hchild))⟩

/-! ## The writes of a rename -/

lemma descends_update (hout : inSubtree old new → new = old) (dn : Bytes) :
    Descends (update (update directory old none) new (some attributes)) old dn ↔
      Descends directory old dn := by
  constructor
  · rintro ⟨hentry, hbelow, hne⟩
    have hne' : dn ≠ new := by
      rintro rfl
      exact hne (hout hbelow)
    rw [update_of_ne hne', update_of_ne hne] at hentry
    exact ⟨hentry, hbelow, hne⟩
  · rintro ⟨hentry, hbelow, hne⟩
    refine ⟨?_, hbelow, hne⟩
    by_cases heq : dn = new
    · rw [heq, update_self]
      rfl
    · rwa [update_of_ne heq, update_of_ne hne]

/-- What is known of a rename when it begins to write. -/
structure Checked (call : ModifyDNCall) (db : ObaDB τ) (entry : Entry) (children : Bool) :
    Prop where
  quiet : Quiet db
  indexed : db.Indexed
  found : (db.directory call.oldDN).isSome
  unused : entry.dn ≠ call.oldDN → db.directory entry.dn = none
  children : children = true ↔ ∃ c, Descends db.directory call.oldDN c ∧ isChild call.oldDN c

/-! ## The checks -/

lemma newDNFree_true (h : db.Alone tx) (hfree : newDNFree db tx old new = (true, db')) :
    Reread db db' ∧ (isCanonical old → isCanonical new → new ≠ old → db.directory new = none) := by
  unfold newDNFree at hfree
  split at hfree
  next hfold =>
    cases hfree
    refine ⟨.refl db, fun hold hnew hne => ?_⟩
    obtain ⟨path, hold⟩ := isCanonical_iff.mp hold
    obtain ⟨path', hnew⟩ := isCanonical_iff.mp hnew
    exact absurd ((equalFold_iff hold hnew).mp hfold).symm hne
  · have hread := db.reread_get tx new
    cases hget : db.get tx new with | mk result read =>
    rw [hget] at hfree hread
    cases result with
    | ok entry => cases hfree
    | error err =>
      cases hfree
      refine ⟨hread, fun _ hnew _ => ?_⟩
      obtain ⟨path, hnew⟩ := isCanonical_iff.mp hnew
      have hnone := h.get (hnew.normalized.symm ▸ hnew) hnew.ne_nil
      rw [hget, hnew.normalized] at hnone
      cases hdirectory : db.directory new with
      | none => rfl
      | some attributes =>
        rw [hdirectory] at hnone
        cases hnone

lemma reread_superiorFound (db : ObaDB τ) (tx : Nat) (newSuperior : Bytes) :
    Reread db (superiorFound db tx newSuperior).2 := by
  unfold superiorFound
  split
  · exact .refl db
  · have hread := db.reread_get tx (normalizeDN newSuperior)
    split
    next heq => rwa [heq] at hread
    next heq => rwa [heq] at hread

lemma isChild_eq {dn : Bytes} (hold : Canonical old path) (hdn : Canonical dn q) :
    isChild old dn = RadixTree.childOf path q := by
  unfold isChild
  rw [hold.parsed, hdn.parsed]

lemma descends_of_isChild {dn : Bytes} (hold : Canonical old path) (hdn : Canonical dn q)
    (hentry : (directory dn).isSome) (hchild : RadixTree.childOf path q) :
    Descends directory old dn := by
  obtain ⟨hne, hparent⟩ := of_decide_eq_true hchild
  have habove : path <+: q := hparent ▸ q.dropLast_prefix
  refine ⟨hentry, by rwa [inSubtree_eq hold hdn, isPrefixOf_iff_prefix], ?_⟩
  rintro rfl
  cases hold.parsed.symm.trans hdn.parsed
  have hlength := congrArg length hparent
  rw [length_dropLast] at hlength
  have hpos := length_pos_of_ne_nil hne
  omega

/-- The search for children finds them. -/
lemma hasChildren_ok {children : Bool} (h : db.Alone tx) (hold : Canonical old path)
    (hok : hasChildren db tx old = (.ok children, db')) :
    Reread db db' ∧ (children = true ↔ ∃ c, Descends db.directory old c ∧ isChild old c) := by
  obtain ⟨entries, hentries, hmem⟩ :=
    h.searchByDN (hold.normalized.symm ▸ hold) (.inl ⟨rfl, rfl⟩)
  have hread := db.reread_searchByDN tx old .oneLevel
  unfold hasChildren at hok
  cases hsearch : db.searchByDN tx old .oneLevel with | mk result read =>
  rw [hsearch] at hok hentries hread
  obtain rfl : result = .ok entries := hentries
  obtain ⟨hchildren, rfl⟩ := Prod.mk.inj hok
  cases hchildren
  refine ⟨hread, ?_⟩
  rw [decide_eq_true_iff]
  constructor
  · intro hne
    obtain ⟨entry, hentry⟩ := exists_mem_of_ne_nil entries hne
    obtain ⟨hattributes, q, hq, hchild⟩ := (hmem entry).mp hentry
    exact ⟨entry.dn, descends_of_isChild hold hq (by rw [hattributes]; rfl) hchild,
      by rwa [isChild_eq hold hq]⟩
  · rintro ⟨c, hc, hchild⟩
    obtain ⟨attributes, hattributes⟩ := Option.isSome_iff_exists.mp hc.entry
    obtain ⟨q, hq⟩ := canonical_of_directory hattributes
    rw [isChild_eq hold hq] at hchild
    exact ne_nil_of_mem ((hmem ⟨c, attributes⟩).mpr ⟨hattributes, q, hq, hchild⟩)

namespace Checked

variable {entry : Entry} {children : Bool}

section

variable (h : Checked call db entry children) (hmovable : Movable db.directory call.oldDN entry.dn)
include h hmovable

/-- The entry has been moved and the entries below it as well, if there are any. -/
lemma renamed_iff {dns : List Bytes}
    (hdns : ∀ d, d ∈ dns ↔ children = true ∧ Descends db.directory call.oldDN d)
    (hmoved : Moved (replaceParentDN · call.oldDN entry.dn) dns
      (update (update db.directory call.oldDN none) entry.dn (some attributes)) directory) :
    Renamed call.oldDN entry.dn db.directory directory ↔ AtEnd db.directory call.oldDN := by
  have hsubtree : MovedSubtree (replaceParentDN · call.oldDN entry.dn) call.oldDN entry.dn dns
      attributes db.directory directory := by
    refine ⟨fun d hd => ?_, hmovable, h.found, h.unused, fun d => ?_, hmoved⟩
    · obtain ⟨attributes, hattributes⟩ := Option.isSome_iff_exists.mp hd
      exact isCanonical_iff.mpr (canonical_of_directory hattributes)
    · rw [hdns]
      exact ⟨And.right, fun hd => ⟨h.children.mpr (hmovable.child d hd), hd⟩⟩
  exact hsubtree.renamed_iff

/-- After the entry, the entries below it are moved. -/
lemma moveBelow {put moved : ObaDB τ} (halone : put.Alone tx)
    (hthere : put.directory =
      update (update db.directory call.oldDN none) entry.dn (some attributes))
    (hmove : (if children then updateChildrenDNs trees call.orders put tx call.oldDN entry.dn
      else (.ok (), put)) = (.ok (), moved)) :
    Renamed call.oldDN entry.dn db.directory moved.directory ↔ AtEnd db.directory call.oldDN := by
  cases children with
  | false =>
    obtain rfl : put = moved := (Prod.mk.inj hmove).2
    have hnone : ∀ d, d ∈ [] ↔ false = true ∧ Descends db.directory call.oldDN d := by simp
    rw [hthere]
    exact h.renamed_iff hmovable hnone (.nil _ _)
  | true =>
    obtain ⟨path, hold⟩ := isCanonical_iff.mp hmovable.oldName
    obtain ⟨c, hc, -⟩ := h.children.mp rfl
    have hbelow : ∀ d, Descends put.directory call.oldDN d ↔
        Descends db.directory call.oldDN d := by
      rw [hthere]
      exact descends_update (hmovable.outside c hc)
    obtain ⟨dns, hdns, hmoved⟩ := updateChildrenDNs_moved halone hold
      (fun d hd => hmovable.canonical d ((hbelow d).mp hd)) hmove
    rw [hthere] at hmoved
    exact h.renamed_iff hmovable (fun d => by simp [hdns, hbelow]) hmoved

lemma moveEntry (hok : Backend.moveEntry trees call db entry children = (.ok (), db')) :
    Renamed call.oldDN entry.dn db.directory db'.directory ↔ AtEnd db.directory call.oldDN := by
  obtain ⟨path, hold⟩ := isCanonical_iff.mp hmovable.oldName
  obtain ⟨path', hnew⟩ := isCanonical_iff.mp hmovable.newName
  unfold Backend.moveEntry at hok
  dsimp only at hok
  split at hok
  · cases hok
  next deleted hdelete =>
    split at hok
    · cases hok
    next put hput =>
      obtain ⟨hdeleted, hgone⟩ :=
        (h.quiet.alone h.indexed).delete (hold.normalized.symm ▸ hold) hdelete
      obtain ⟨halone, hthere⟩ := hdeleted.put (hnew.normalized.symm ▸ hnew) hput
      rw [hgone, hold.normalized, hnew.normalized] at hthere
      split at hok
      · cases hok
      next moved hmove =>
        have hmoved := h.moveBelow hmovable halone hthere hmove
        have hcommitted := moved.directory_commit db.begin.1
        split at hok
        · cases hok
        next final hcommit =>
          cases hok
          rw [hcommit] at hcommitted
          rwa [hcommitted]

end

/-- A delete in a command gets on to the put only if it has deleted the entry. -/
lemma delete_ok (h : Checked call db entry children) {path : List Bytes}
    (hold : Canonical call.oldDN path) {orders : Orders} {result : Except EngineError Unit}
    {deleted : ObaDB τ}
    (hdelete : db.begin.2.delete trees orders db.begin.1 call.oldDN = (result, deleted))
    (hgoes : applyResultFromError (classifyDeleteApplyError result) ≠ .fatal) :
    result = .ok () := by
  have hresult : (db.begin.2.delete trees orders db.begin.1 call.oldDN).1 = result := by
    rw [hdelete]
  have hfound : db.begin.2.reads db.begin.1 call.oldDN ≠ none := by
    rw [(h.quiet.alone h.indexed).reads hold]
    exact Option.isSome_iff_ne_none.mp h.found
  have habsent : ∀ err, err = .entryNotFound ∨ err = .version .deleted → result ≠ .error err := by
    rintro err herr rfl
    have hnone := reads_of_delete_absent hresult herr
    rw [hold.normalized] at hnone
    exact hfound hnone
  unfold classifyDeleteApplyError at hgoes
  split at hgoes
  · rfl
  · exact absurd rfl (habsent _ (.inl rfl))
  · exact absurd rfl (habsent _ (.inr rfl))
  · exact absurd hresult (delete_ne_writeConflict orders _ _ _)
  · exact absurd rfl hgoes

/-- On the leader of a cluster the entry is moved by one command. -/
lemma proposeModifyDN (h : Checked call db entry false)
    (hmovable : Movable db.directory call.oldDN entry.dn) (hfits : entry.Fits 2)
    (hok : Backend.proposeModifyDN trees call db entry = (.ok (), db')) :
    Renamed call.oldDN entry.dn db.directory db'.directory ↔ AtEnd db.directory call.oldDN := by
  obtain ⟨path, hold⟩ := isCanonical_iff.mp hmovable.oldName
  obtain ⟨path', hnew⟩ := isCanonical_iff.mp hmovable.newName
  have hlower : toLower (trimSpace call.oldDN) = call.oldDN := by
    rw [toLower_trimSpace]
    exact hold.normalized
  unfold Backend.proposeModifyDN applyLDAPCommand at hok
  dsimp only [applyModifyDNCommand] at hok
  rw [hlower, deserializeEntry_serializeEntry _ hfits] at hok
  cases hdelete : db.begin.2.delete trees (call.orders 0) db.begin.1 call.oldDN with
    | mk result deleted =>
  rw [hdelete] at hok
  split at hok
  next hfatal =>
    cases herr : classifyDeleteApplyError result with
    | none =>
      rw [herr] at hfatal
      cases hfatal
    | some err =>
      rw [herr] at hok hfatal
      have hanswer : answer (some err) = .ok () := (Prod.mk.inj hok).1
      unfold answer at hanswer
      rw [hfatal] at hanswer
      cases hanswer
  next hgoes =>
    obtain rfl := h.delete_ok hold hdelete hgoes
    obtain ⟨hdeleted, hgone⟩ :=
      (h.quiet.alone h.indexed).delete (hold.normalized.symm ▸ hold) hdelete
    dsimp only [applyPut] at hok
    cases hput : deleted.put trees (call.orders 0) db.begin.1 entry with | mk result put =>
    rw [hput] at hok
    cases herr : classifyPutApplyError result with
    | some err =>
      have hanswer : answer (classifyPutApplyError result) = .ok () := by
        rw [herr] at hok ⊢
        exact (Prod.mk.inj hok).1
      rw [answer_classifyPut hanswer] at herr
      cases herr
    | none =>
      obtain rfl := classifyPutApplyError_eq_none.mpr herr
      obtain ⟨halone, hthere⟩ := hdeleted.put (hnew.normalized.symm ▸ hnew) hput
      rw [hgone, hold.normalized, hnew.normalized] at hthere
      have hstays : (if false then updateChildrenDNs trees call.orders put db.begin.1 call.oldDN
          entry.dn else (.ok (), put)) = (.ok (), put) := rfl
      have hmoved := h.moveBelow hmovable halone hthere hstays
      have hcommitted := put.directory_commit db.begin.1
      rw [herr, finishCommand] at hok
      cases hcommit : put.commit db.begin.1 with | mk result final =>
      rw [hcommit] at hok hcommitted
      cases result with
      | error err => cases hok
      | ok _ =>
        cases hok
        rwa [hcommitted]

end Checked

/-- The calls of the checks when they have passed. -/
lemma checkModifyDN_eq_ok {entry : Entry} {children : Bool}
    (hok : checkModifyDN call db = (.ok (entry, children), db')) :
    ∃ found newDN read free above read', db.begin.2.get db.begin.1 call.oldDN = (.ok found, read) ∧
      call.newDN = .ok newDN ∧ newDNFree read db.begin.1 call.oldDN newDN = (true, free) ∧
      superiorFound free db.begin.1 call.request.newSuperior = (true, above) ∧
      hasChildren above db.begin.1 call.oldDN = (.ok children, read') ∧
      entry = call.toStore found newDN ∧ db' = read'.rollback db.begin.1 := by
  unfold checkModifyDN at hok
  dsimp only at hok
  split at hok
  · cases hok
  next found read hget =>
    split at hok
    · cases hok
    next newDN hnew =>
      split at hok
      · cases hok
      next free hfree =>
        split at hok
        · cases hok
        next above habove =>
          split at hok
          · cases hok
          next children' read' hchildren =>
            split at hok
            · cases hok
            · obtain ⟨hresult, rfl⟩ := Prod.mk.inj hok
              cases hresult
              exact ⟨found, newDN, read, free, above, read', hget, hnew, hfree, habove, hchildren,
                rfl, rfl⟩

/-- What is known when the checks have passed. -/
lemma checkModifyDN_ok (hquiet : Quiet db) (hindexed : db.Indexed)
    (hold : isCanonical call.oldDN) {entry : Entry} {children : Bool}
    (hok : checkModifyDN call db = (.ok (entry, children), db')) :
    db'.directory = db.directory ∧ call.newDN = .ok entry.dn ∧
      (∃ attributes, db.directory call.oldDN = some attributes ∧
        entry = call.toStore ⟨call.oldDN, attributes⟩ entry.dn) ∧
      (isCanonical entry.dn → Checked call db' entry children) := by
  obtain ⟨found, newDN, read, free, above, read', hget, hnew, hfree, habove, hchildren, rfl, rfl⟩ :=
    checkModifyDN_eq_ok hok
  obtain ⟨path, hpath⟩ := isCanonical_iff.mp hold
  have halone := hquiet.alone hindexed
  have hread : Reread db.begin.2 read := by
    have hreread := db.begin.2.reread_get db.begin.1 call.oldDN
    rwa [hget] at hreread
  obtain ⟨hreadFree, hunused⟩ := newDNFree_true (halone.reread hread) hfree
  have hreadAbove : Reread free above := by
    have hreread := reread_superiorFound free db.begin.1 call.request.newSuperior
    rwa [habove] at hreread
  have hbefore := (hread.trans hreadFree).trans hreadAbove
  obtain ⟨hreadChildren, hhas⟩ := hasChildren_ok (halone.reread hbefore) hpath hchildren
  obtain ⟨hrest, hrestIndexed, hdirectory⟩ :=
    hquiet.rollback hindexed (hbefore.trans hreadChildren)
  -- the read database has the directory of the first one
  have hbegin : db.begin.2.directory = db.directory := rfl
  rw [hread.directory] at hunused
  rw [hbefore.directory] at hhas
  obtain ⟨hdn, hreads⟩ := get_ok (congrArg Prod.fst hget)
  rw [hpath.normalized] at hdn hreads
  rw [halone.reads hpath, hbegin] at hreads
  refine ⟨hdirectory, hnew, ⟨found.attributes, hreads, ?_⟩, fun hnewName => ?_⟩
  · rw [← hdn]
    rfl
  · refine ⟨hrest, hrestIndexed, ?_, fun hne => ?_, ?_⟩
    · rw [hdirectory, hreads]
      rfl
    · rw [hdirectory]
      exact hunused hold hnewName hne
    · rw [hdirectory]
      exact hhas

end Calls

/-! ## Examples -/

/-- A rename with the attributes in ascending order. -/
def ModifyDNCall.plain (dn newRDN newSuperior : String) : ModifyDNCall :=
  ⟨⟨ascii dn, ascii newRDN, true, ascii newSuperior⟩, fun _ => .ascending, fun _ _ => .ascending⟩

/-- Entries without attributes. -/
def bare (dns : List String) : List Entry := dns.map fun dn => ⟨ascii dn, ∅⟩

def staff : List Entry := bare ["dc=x", "ou=a,dc=x", "cn=c,ou=a,dc=x"]

lemma descends_staff {dn : Bytes} (h : Descends (onDisk staff).directory (ascii "ou=a,dc=x") dn) :
    dn = ascii "cn=c,ou=a,dc=x" := by
  have hnames : ∀ entry ∈ staff, isCanonical entry.dn := by decide +kernel
  have hother : ∀ dn ∈ staff.map Entry.dn, inSubtree (ascii "ou=a,dc=x") dn →
      dn ≠ ascii "ou=a,dc=x" → dn = ascii "cn=c,ou=a,dc=x" := by decide +kernel
  exact hother dn (mem_of_directory_onDisk hnames h.entry) h.below h.ne

lemma movable_staff :
    Movable (onDisk staff).directory (ascii "ou=a,dc=x") (ascii "ou=b,dc=x") := by
  have hchild : Descends (onDisk staff).directory (ascii "ou=a,dc=x") (ascii "cn=c,ou=a,dc=x") :=
    ⟨by decide +kernel, by decide +kernel, by decide⟩
  exact {
    oldName := by decide +kernel
    newName := by decide +kernel
    child := fun dn _ => ⟨_, hchild, by decide +kernel⟩
    outside := fun dn _ hinside => absurd hinside (by decide +kernel)
    canonical := fun dn hdn => by rw [descends_staff hdn]; decide +kernel
    free := fun dn hdn => by rw [descends_staff hdn]; decide +kernel }

end Oba.Backend
