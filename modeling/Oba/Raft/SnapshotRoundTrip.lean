import Oba.Raft.Snapshot
import Oba.Storage.Writes

/-! # Restoring a snapshot

A receiver that restores a snapshot ends with the sender's entries, configuration and ACLs,
provided that it does not leave the bytes of a section unread and then read a later one.
-/

namespace Oba.Raft

open ByteCodec Storage List Option
open FullStateMachine (restoreLog restoreAppliers restoreACL restoreConfig)

variable {τ : Type} (trees : IndexTrees τ) {entries : List Entry}

/-! ## The size of a database in a snapshot -/

def databaseSize (entries : List Entry) : Nat :=
  4 + (entries.map fun entry => 4 + entrySize entry).sum

lemma length_writeEntries (orders : EntryOrders) (entries : List Entry) :
    (writeEntries orders entries).length = databaseSize entries := by
  simp only [writeEntries, length_append, length_putUint, length_flatMap,
    length_putBlock, length_serializeEntry, databaseSize]

lemma entrySize_lt {entry : Entry} (hmem : entry ∈ entries) :
    entrySize entry < databaseSize entries := by
  have hle := single_le_sum (fun _ _ => Nat.zero_le _) _
    (mem_map_of_mem (f := fun e => 4 + entrySize e) hmem)
  unfold databaseSize
  omega

lemma length_lt_databaseSize (entries : List Entry) : entries.length < databaseSize entries := by
  have hpos : ∀ n ∈ entries.map (fun e => 4 + entrySize e), 1 ≤ n := by
    intro n hn
    obtain ⟨_, _, rfl⟩ := mem_map.mp hn
    omega
  have hle := length_le_sum_of_one_le _ hpos
  rw [length_map] at hle
  unfold databaseSize
  omega

/-! ## Restoring one database -/

/-- Entries that a database with the given indexes can take over from a snapshot. -/
structure Transferable (indexes : List (Bytes × IndexType)) (entries : List Entry) : Prop where
  canonical : ∀ entry ∈ entries, ∃ path, Canonical entry.dn path
  nodup : (entries.map Entry.dn).Nodup
  fits : ∀ entry ∈ entries, entry.Fits 2
  size : databaseSize entries < 256 ^ 4
  uids : ∀ entry ∈ entries, isUsersSubtreeDN entry.dn → ∀ other ∈ entries, other.dn ≠ entry.dn →
    isUsersSubtreeDN other.dn → ∀ order order', extractCanonicalUID order entry.attributes ≠ [] →
      extractCanonicalUID order' other.attributes ≠ extractCanonicalUID order entry.attributes
  indexable : ∀ entry ∈ entries, ObaDB.Indexable trees indexes entry.attributes

variable {db : ObaDB τ} {content : Bytes → Option Attributes} {bytes : Bytes}

/-- The entries of the receiver are deleted one by one. -/
lemma deleteEntries_settled (orders : EntryOrders) (hdb : db.Settled content) {dns : List Bytes}
    (hnodup : dns.Nodup) (hdns : ∀ dn ∈ dns, (content dn).isSome) :
    (deleteEntries trees orders dns db).indexes = db.indexes ∧
      (deleteEntries trees orders dns db).Settled fun dn =>
        if dn ∈ dns then none else content dn := by
  induction dns generalizing db content with
  | nil => simpa [deleteEntries] using hdb
  | cons dn rest ih =>
    obtain ⟨hfresh, hrest⟩ := nodup_cons.mp hnodup
    obtain ⟨hdn, hothers⟩ := forall_mem_cons.mp hdns
    obtain ⟨path, hcanonical, _⟩ := hdb.view.listed dn hdn
    obtain ⟨hindexes, hsettled⟩ := hdb.delete trees hcanonical hdn (orders dn)
    have hstep := ih hsettled hrest fun other hother => by
      have hne : other ≠ dn := fun heq => hfresh (heq ▸ hother)
      rw [Function.update_of_ne hne]
      exact hothers other hother
    have hcontent : (fun other => if other ∈ rest then none
          else Function.update content dn none other) =
        fun other => if other ∈ dn :: rest then none else content other := by
      funext other
      by_cases heq : other = dn <;> simp [heq]
    exact ⟨hstep.1.trans hindexes, hcontent ▸ hstep.2⟩

/-- What a database shows after entries were put in it. -/
def withEntries (content : Bytes → Option Attributes) : List Entry → Bytes → Option Attributes
  | [] => content
  | entry :: rest => withEntries (Function.update content entry.dn (some entry.attributes)) rest

lemma withEntries_eq_some (hnodup : (entries.map Entry.dn).Nodup) (entry : Entry) :
    withEntries content entries entry.dn = some entry.attributes ↔
      entry ∈ entries ∨ entry.dn ∉ entries.map Entry.dn ∧
        content entry.dn = some entry.attributes := by
  induction entries generalizing content with
  | nil => simp [withEntries]
  | cons first rest ih =>
    obtain ⟨hfresh, hrest⟩ := nodup_cons.mp hnodup
    rw [withEntries, ih hrest]
    by_cases heq : entry.dn = first.dn
    · have habsent : entry ∉ rest := fun hmem => hfresh (heq ▸ mem_map_of_mem hmem)
      have hentry : first.attributes = entry.attributes ↔ entry = first := by
        obtain ⟨dn, attributes⟩ := entry
        obtain ⟨dn', attributes'⟩ := first
        simp_all [eq_comm]
      simp [heq, habsent, hfresh, hentry]
    · have hne : entry ≠ first := fun h => heq (h ▸ rfl)
      simp [heq, hne]

/-- The entries of a snapshot are put one after another. -/
lemma putEntries_settled {indexes : List (Bytes × IndexType)} {all : List Entry}
    (hall : Transferable trees indexes all) (hdb : db.Settled content)
    (hindexes : db.indexes = indexes) (hsub : ∀ entry ∈ entries, entry ∈ all)
    (hold : ∀ dn attributes, content dn = some attributes → ⟨dn, attributes⟩ ∈ all)
    (orders written : EntryOrders) : ∃ restored,
      putEntries trees orders entries.length (entries.flatMap fun entry =>
        putBlock 4 (serializeEntry (written entry.dn .write) entry)) db = (none, restored) ∧
      restored.Settled (withEntries content entries) := by
  induction entries generalizing db content with
  | nil => exact ⟨db, rfl, hdb⟩
  | cons entry rest ih =>
    obtain ⟨hentry, hrest⟩ := forall_mem_cons.mp hsub
    obtain ⟨path, hcanonical⟩ := hall.canonical entry hentry
    have hfits := hall.fits entry hentry
    have hlength : (serializeEntry (written entry.dn .write) entry).length < 256 ^ 4 := by
      rw [length_serializeEntry]
      exact (entrySize_lt hentry).trans hall.size
    have hfree : isUsersSubtreeDN entry.dn → ∀ order,
        extractCanonicalUID order entry.attributes ≠ [] →
        ObaDB.UidFree content entry.dn (extractCanonicalUID order entry.attributes) := by
      intro husers order huid other data order' hne hother hdata
      exact hall.uids entry hentry husers ⟨other, data⟩ (hold other data hdata) hne hother
        order order' huid
    obtain ⟨writtenDB, hput, hcommit, hsame, hsettled⟩ := hdb.put trees hcanonical
      (hfits.mono (by decide)) (hindexes ▸ hall.indexable entry hentry) hfree (orders entry.dn)
    obtain ⟨restored, hrestored, hfinal⟩ := ih hsettled (hsame.trans hindexes) hrest
      fun dn attributes hdn => by
        by_cases heq : dn = entry.dn
        · subst heq
          rw [Function.update_self] at hdn
          exact some.inj hdn ▸ hentry
        · exact hold dn attributes (by rwa [Function.update_of_ne heq] at hdn)
    refine ⟨restored, ?_, hfinal⟩
    rw [length_cons, putEntries, flatMap_cons, readBlock_putBlock hlength]
    dsimp only
    rw [deserializeEntry_serializeEntry _ hfits]
    dsimp only
    rw [hput]
    dsimp only
    rw [show writtenDB.commit db.begin.1 = (.ok (), (writtenDB.commit db.begin.1).2) from
      Prod.ext hcommit rfl]
    exact hrestored

/-- A settled database takes over the entries of another one. -/
lemma restoreEngine_writeEntries (hdb : db.Settled content)
    (hentries : Transferable trees db.indexes entries) (orders : RestoreOrders)
    (written : EntryOrders) : ∃ restored,
      restoreEngine trees orders db (writeEntries written entries) = (none, restored) ∧
      restored.entries.Perm entries := by
  have hlisted := hdb.list
  have hindexes : ((db.begin.2.search db.begin.1 db.radix.iterate).2.rollback
      db.begin.1).indexes = db.indexes := by
    rw [(db.begin.2.reread_search db.begin.1 db.radix.iterate).frame]
    rfl
  have hexisting : ∀ dn ∈ (db.entries.map Entry.dn).reverse, (content dn).isSome := by
    intro dn hdn
    rw [mem_reverse, hdb.map_dn_entries] at hdn
    exact (mem_filter.mp hdn).2
  obtain ⟨hkept, hempty⟩ := deleteEntries_settled trees orders.deletes hlisted
    (nodup_reverse.mpr hdb.nodup_entries) hexisting
  have hnone : (fun dn => if dn ∈ (db.entries.map Entry.dn).reverse then none else content dn) =
      fun _ => none := by
    funext dn
    split
    · rfl
    next hdn =>
      rw [mem_reverse, hdb.map_dn_entries] at hdn
      by_contra hsome
      have hsome := isSome_iff_ne_none.mpr hsome
      exact hdn (mem_filter.mpr ⟨hdb.view.mem_iterate hsome, hsome⟩)
  rw [hnone] at hempty
  obtain ⟨restored, hrestored, hsettled⟩ := putEntries_settled trees hentries hempty
    (hkept.trans hindexes) (fun _ h => h) nofun orders.puts written
  refine ⟨restored, ?_, ?_⟩
  · have hcount : entries.length % 256 ^ 4 = entries.length :=
      Nat.mod_eq_of_lt ((length_lt_databaseSize entries).trans hentries.size)
    unfold restoreEngine writeEntries
    rw [readUint_putUint, hcount]
    exact hrestored
  · have hnodup : restored.entries.Nodup := .of_map _ hsettled.nodup_entries
    refine (perm_ext_iff_of_nodup hnodup (.of_map _ hentries.nodup)).mpr fun entry => ?_
    rw [hsettled.mem_entries, withEntries_eq_some hentries.nodup]
    simp

/-! ## Sections -/

/-- The bytes of a section that is not attached stay where they are. -/
lemma readSection_putBlock (attached : Bool) (hfits : bytes.length < 256 ^ 4) (rest : Bytes) :
    readSection attached (putBlock 4 bytes ++ rest) =
      if bytes ≠ [] ∧ attached then .data bytes rest else .skipped (bytes ++ rest) := by
  unfold readSection putBlock
  rw [append_assoc, readUint_putUint, Nat.mod_eq_of_lt hfits]
  dsimp only
  rw [readBytes_append]
  simp only [length_pos_iff]

lemma readSection_absent (s : Bytes) :
    readSection false s = .missing ∨ ∃ rest, readSection false s = .skipped rest := by
  unfold readSection
  cases readUint 4 s with
  | none => exact .inl rfl
  | some read => exact .inr ⟨read.2, if_neg (by simp)⟩

/-- The sender's applier saves a nonempty snapshot, and the receiver's takes over what it has
saved. No applier need do so for all its states. -/
structure Applier.Passes {σ : Type} (applier : Applier σ) (sender receiver : Option σ) : Prop where
  saves : ∀ s ∈ sender, ∃ bytes, applier.snapshot s = some bytes ∧ bytes ≠ [] ∧
    bytes.length < 256 ^ 4
  restores : ∀ s ∈ sender, ∀ bytes, applier.snapshot s = some bytes → ∀ r ∈ receiver,
    ∃ r', applier.restore bytes r = some r' ∧ applier.snapshot r' = some bytes

/-- The applier after a restore is there if it was there before, and agrees with the sender's. -/
structure TakenOver {σ : Type} (applier : Applier σ) (sender before after : Option σ) : Prop where
  attached : after.isSome = before.isSome
  same : ∀ s ∈ sender, ∀ r ∈ after, applier.snapshot r = applier.snapshot s

section

variable {σ ρ : Type} {config : Applier σ} {acl : Applier ρ} {sender configSender : Option σ}
  {aclSender : Option ρ} {configData aclData s rest : Bytes}

lemma TakenOver.of_absent {before : Option σ} (h : sender = none ∨ before = none) :
    TakenOver config sender before before := by
  refine ⟨rfl, ?_⟩
  rcases h with rfl | rfl <;> nofun

/-- The section of an applier, which is empty only if the applier is not attached. -/
structure Saved (applier : Applier σ) (sender : Option σ) (bytes : Bytes) : Prop where
  snapshot : snapshotApplier applier sender = some bytes
  fits : bytes.length < 256 ^ 4
  empty : bytes = [] ↔ sender = none

lemma Applier.Passes.saved {receiver : Option σ} (h : config.Passes sender receiver) :
    ∃ bytes, Saved config sender bytes := by
  cases sender with
  | none => exact ⟨[], rfl, by decide, by simp⟩
  | some s =>
    obtain ⟨bytes, hbytes, hne, hlength⟩ := h.saves s rfl
    exact ⟨bytes, hbytes, hlength, by simp [hne]⟩

/-- A section is left unread where nothing is to be taken over. -/
lemma Saved.read {before : Option σ} (hpasses : config.Passes sender before)
    (hsaved : Saved config sender bytes) (rest : Bytes) :
    (readSection before.isSome (putBlock 4 bytes ++ rest) = .skipped (bytes ++ rest) ∧
        (sender = none ∨ before = none)) ∨
      ∃ after, readSection before.isSome (putBlock 4 bytes ++ rest) = .data bytes rest ∧
        restoreApplier config before bytes = (none, after) ∧
          TakenOver config sender before after := by
  have hread := readSection_putBlock before.isSome hsaved.fits rest
  cases sender with
  | none => exact .inl ⟨hread.trans (if_neg (by simp [hsaved.empty])), .inl rfl⟩
  | some s =>
    cases before with
    | none => exact .inl ⟨hread.trans (if_neg (by simp)), .inr rfl⟩
    | some r =>
      obtain ⟨r', hrestore, hsame⟩ := hpasses.restores s rfl bytes hsaved.snapshot r rfl
      refine .inr ⟨some r', hread.trans (if_pos ⟨by simp [hsaved.empty], rfl⟩), ?_, rfl, ?_⟩
      · simp [restoreApplier, hrestore]
      · intro _ hs _ hr
        cases hs
        cases hr
        exact hsame.trans hsaved.snapshot.symm

variable (sm : FullStateMachine τ σ ρ)

lemma restoreACL_absent (h : sm.aclApplier = none) (s : Bytes) :
    sm.restoreACL acl s = (none, sm) := by
  unfold restoreACL readSection
  rw [h]
  cases readUint 4 s <;> simp

lemma restoreACL_section {sender : Option ρ} (hpasses : acl.Passes sender sm.aclApplier)
    (hsaved : Saved acl sender bytes) :
    ∃ applier,
      sm.restoreACL acl (putBlock 4 bytes) = (none, { sm with aclApplier := applier }) ∧
      TakenOver acl sender sm.aclApplier applier := by
  have hread := hsaved.read hpasses []
  rw [append_nil] at hread
  unfold restoreACL
  obtain ⟨hskipped, habsent⟩ | ⟨applier, hdata, hrestore, htaken⟩ := hread
  · rw [hskipped]
    exact ⟨sm.aclApplier, rfl, .of_absent habsent⟩
  · rw [hdata]
    dsimp only
    rw [hrestore]
    exact ⟨applier, rfl, htaken⟩

lemma restoreAppliers_absent (hconfig : sm.configApplier = none) (hacl : sm.aclApplier = none)
    (s : Bytes) : sm.restoreAppliers config acl 2 s = (none, sm) := by
  unfold restoreAppliers restoreConfig readSection
  rw [hconfig]
  cases readUint 4 s <;> simp [restoreACL_absent sm hacl]

/-- Both appliers, when the ACLs are not read after a configuration that was left unread. -/
lemma restoreAppliers_section (hconfigPasses : config.Passes configSender sm.configApplier)
    (haclPasses : acl.Passes aclSender sm.aclApplier)
    (hconfigSaved : Saved config configSender configData) (haclSaved : Saved acl aclSender aclData)
    (haligned : configSender.isSome → sm.configApplier.isSome ∨ sm.aclApplier = none) :
    ∃ configAfter aclAfter,
      sm.restoreAppliers config acl 2 (putBlock 4 configData ++ putBlock 4 aclData) =
        (none, { sm with configApplier := configAfter, aclApplier := aclAfter }) ∧
      TakenOver config configSender sm.configApplier configAfter ∧
      TakenOver acl aclSender sm.aclApplier aclAfter := by
  unfold restoreAppliers restoreConfig
  rw [if_pos (by decide)]
  obtain ⟨hskipped, habsent⟩ | ⟨applier, hdata, hrestore, htaken⟩ :=
    hconfigSaved.read hconfigPasses (putBlock 4 aclData)
  · rw [hskipped]
    by_cases hsender : configSender = none
    · obtain rfl := hconfigSaved.empty.mpr hsender
      obtain ⟨aclAfter, hacl, htaken⟩ := restoreACL_section sm haclPasses haclSaved
      exact ⟨sm.configApplier, aclAfter, hacl, .of_absent habsent, htaken⟩
    · have hnone := habsent.resolve_left hsender
      have hacl : sm.aclApplier = none :=
        (haligned (isSome_iff_ne_none.mpr hsender)).resolve_left (by simp [hnone])
      exact ⟨sm.configApplier, sm.aclApplier, restoreACL_absent sm hacl _, .of_absent habsent,
        .of_absent (.inr hacl)⟩
  · obtain ⟨aclAfter, hacl, haclTaken⟩ := restoreACL_section
      { sm with configApplier := applier } haclPasses haclSaved
    rw [hdata]
    dsimp only
    rw [hrestore]
    exact ⟨applier, aclAfter, hacl, htaken, haclTaken⟩

/-- A log database after a restore is there if it was there before, and has the entries of the
sender's. -/
structure LogTakenOver (sender before after : Option (ObaDB τ)) : Prop where
  attached : after.isSome = before.isSome
  same : ∀ db ∈ sender, ∀ db' ∈ after, db'.entries.Perm db.entries

/-- What a sender's log database needs to be restored. -/
def LogReady (sender receiver : Option (ObaDB τ)) : Prop :=
  ∀ db ∈ sender, ∀ db' ∈ receiver, Transferable trees db'.indexes db.entries ∧
    ∃ content, db'.Settled content

lemma writeEntries_ne_nil (orders : EntryOrders) (entries : List Entry) :
    writeEntries orders entries ≠ [] := by
  simp [writeEntries, putUint]

lemma restoreLog_skipped (orders : RestoreOrders)
    (h : readSection sm.logEngine.isSome s = .skipped rest) :
    sm.restoreLog trees config acl orders 2 s = sm.restoreAppliers config acl 2 rest := by
  unfold restoreLog
  rw [h]

lemma restoreLog_data (orders : RestoreOrders) {db restored : ObaDB τ}
    (hlog : sm.logEngine = some db) (h : readSection true s = .data bytes rest)
    (hrestored : restoreEngine trees orders db bytes = (none, restored)) :
    sm.restoreLog trees config acl orders 2 s =
      restoreAppliers config acl 2 rest { sm with logEngine := some restored } := by
  unfold restoreLog
  rw [hlog, isSome_some, h]
  dsimp only
  rw [hrestored]

lemma restoreLog_absent (orders : RestoreOrders) (hlog : sm.logEngine = none)
    (hconfig : sm.configApplier = none) (hacl : sm.aclApplier = none) (s : Bytes) :
    sm.restoreLog trees config acl orders 2 s = (none, sm) := by
  have hread := readSection_absent s
  rcases hread with hread | ⟨rest, hread⟩
  · unfold restoreLog
    rw [hlog, isSome_none, hread]
  · rw [restoreLog_skipped trees sm orders (by rw [hlog]; exact hread)]
    exact restoreAppliers_absent sm hconfig hacl rest

/-- The log database and the sections behind it. -/
lemma restoreLog_section (hconfigPasses : config.Passes configSender sm.configApplier)
    (haclPasses : acl.Passes aclSender sm.aclApplier)
    {logSender : Option (ObaDB τ)} (hready : LogReady trees logSender sm.logEngine)
    (hconfigSaved : Saved config configSender configData) (haclSaved : Saved acl aclSender aclData)
    (hlogAligned : logSender.isSome →
      sm.logEngine.isSome ∨ sm.configApplier = none ∧ sm.aclApplier = none)
    (haligned : configSender.isSome → sm.configApplier.isSome ∨ sm.aclApplier = none)
    (orders : RestoreOrders) (written : EntryOrders) : ∃ logAfter configAfter aclAfter,
      sm.restoreLog trees config acl orders 2 (putBlock 4 (snapshotLog written logSender).1 ++
          (putBlock 4 configData ++ putBlock 4 aclData)) =
        (none, ⟨⟨sm.mainEngine, logAfter⟩, configAfter, aclAfter⟩) ∧
      LogTakenOver logSender sm.logEngine logAfter ∧
      TakenOver config configSender sm.configApplier configAfter ∧
      TakenOver acl aclSender sm.aclApplier aclAfter := by
  cases logSender with
  | none =>
    obtain ⟨configAfter, aclAfter, happliers, hconfig, hacl⟩ :=
      restoreAppliers_section sm hconfigPasses haclPasses hconfigSaved haclSaved haligned
    rw [restoreLog_skipped trees sm orders (readSection_putBlock _ (by simp [snapshotLog]) _)]
    exact ⟨sm.logEngine, configAfter, aclAfter, happliers, ⟨rfl, nofun⟩, hconfig, hacl⟩
  | some db =>
    cases hlog : sm.logEngine with
    | none =>
      obtain ⟨hconfig, hacl⟩ := (hlogAligned rfl).resolve_left (by simp [hlog])
      refine ⟨none, sm.configApplier, sm.aclApplier, ?_, ⟨rfl, nofun⟩, .of_absent (.inr hconfig),
        .of_absent (.inr hacl)⟩
      rw [restoreLog_absent trees sm orders hlog hconfig hacl, ← hlog]
    | some db' =>
      obtain ⟨htransfer, content, hsettled⟩ := hready db rfl db' hlog
      obtain ⟨restored, hrestored, hperm⟩ :=
        restoreEngine_writeEntries trees hsettled htransfer orders written
      have hread := readSection_putBlock true
        (length_writeEntries written db.entries ▸ htransfer.size)
        (putBlock 4 configData ++ putBlock 4 aclData)
      obtain ⟨configAfter, aclAfter, happliers, hconfig, hacl⟩ := restoreAppliers_section
        { sm with logEngine := some restored } hconfigPasses haclPasses hconfigSaved haclSaved
        haligned
      refine ⟨some restored, configAfter, aclAfter, ?_, ⟨rfl, ?_⟩, hconfig, hacl⟩
      · exact (restoreLog_data trees sm orders hlog hread hrestored).trans happliers
      · rintro _ hdb _ hdb'
        exact some.inj hdb ▸ some.inj hdb' ▸ hperm

end

/-! ## The round trip -/

/-- Which of the components that need not be there are attached. -/
structure Attached where
  log : Bool
  config : Bool
  acl : Bool
  deriving DecidableEq, Repr

def FullStateMachine.attached {σ ρ : Type} (sm : FullStateMachine τ σ ρ) : Attached :=
  ⟨sm.logEngine.isSome, sm.configApplier.isSome, sm.aclApplier.isSome⟩

/-- The receiver reads no section after one that it has left unread. -/
def Attached.Aligned (sender receiver : Attached) : Prop :=
  (sender.log → receiver.log ∨ ¬ receiver.config ∧ ¬ receiver.acl) ∧
    (sender.config → receiver.config ∨ ¬ receiver.acl)

instance (sender receiver : Attached) : Decidable (sender.Aligned receiver) :=
  inferInstanceAs (Decidable (_ ∧ _))

section

variable {σ ρ : Type} (config : Applier σ) (acl : Applier ρ)

/-- The receiver restores a snapshot of the sender, unless the snapshot fails. -/
def restoreSnapshot (mainWritten logWritten : EntryOrders) (mainOrders logOrders : RestoreOrders)
    (sender receiver : FullStateMachine τ σ ρ) :
    Option (Option RestoreError × FullStateMachine τ σ ρ) :=
  (sender.snapshot config acl mainWritten logWritten).1.map fun data =>
    receiver.restore trees config acl mainOrders logOrders data

/-- The receiver ends with the sender's main database, and with the sender's state of
everything that both have attached. -/
def RoundTrip (sender receiver : FullStateMachine τ σ ρ) : Prop :=
  ∀ mainWritten logWritten mainOrders logOrders, ∃ restored,
    restoreSnapshot trees config acl mainWritten logWritten mainOrders logOrders sender receiver =
      some (none, restored) ∧
    restored.mainEngine.entries.Perm sender.mainEngine.entries ∧
    LogTakenOver sender.logEngine receiver.logEngine restored.logEngine ∧
    TakenOver config sender.configApplier receiver.configApplier restored.configApplier ∧
    TakenOver acl sender.aclApplier receiver.aclApplier restored.aclApplier

/-- The sender's entries can be transferred, the receiver's databases are settled, and the
appliers pass on what they hold. -/
structure Ready (sender receiver : FullStateMachine τ σ ρ) : Prop where
  main : Transferable trees receiver.mainEngine.indexes sender.mainEngine.entries
  settled : ∃ content, receiver.mainEngine.Settled content
  log : LogReady trees sender.logEngine receiver.logEngine
  config : config.Passes sender.configApplier receiver.configApplier
  acl : acl.Passes sender.aclApplier receiver.aclApplier

variable {config acl}

/-- A receiver finds every section that it reads where the sender has written it. -/
lemma roundTrip_of_aligned {sender receiver : FullStateMachine τ σ ρ}
    (haligned : sender.attached.Aligned receiver.attached)
    (hready : Ready trees config acl sender receiver) :
    RoundTrip trees config acl sender receiver := by
  intro mainWritten logWritten mainOrders logOrders
  obtain ⟨content, hsettled⟩ := hready.settled
  obtain ⟨main, hmain, hperm⟩ :=
    restoreEngine_writeEntries trees hsettled hready.main mainOrders mainWritten
  obtain ⟨configData, hconfigSaved⟩ := hready.config.saved
  obtain ⟨aclData, haclSaved⟩ := hready.acl.saved
  have hlogAligned : sender.logEngine.isSome → receiver.logEngine.isSome ∨
      receiver.configApplier = none ∧ receiver.aclApplier = none := by
    simpa [FullStateMachine.attached] using haligned.1
  have hconfigAligned : sender.configApplier.isSome →
      receiver.configApplier.isSome ∨ receiver.aclApplier = none := by
    simpa [FullStateMachine.attached] using haligned.2
  obtain ⟨log, configAfter, aclAfter, hrest, hlog, hconfig, hacl⟩ := restoreLog_section trees
    { receiver with mainEngine := main } hready.config hready.acl hready.log hconfigSaved
    haclSaved hlogAligned hconfigAligned logOrders logWritten
  refine ⟨⟨⟨main, log⟩, configAfter, aclAfter⟩, ?_, hperm, hlog, hconfig, hacl⟩
  have hsnapshot : (sender.snapshot config acl mainWritten logWritten).1 =
      some (2 :: (putBlock 4 (writeEntries mainWritten sender.mainEngine.entries) ++
        (putBlock 4 (snapshotLog logWritten sender.logEngine).1 ++
          (putBlock 4 configData ++ putBlock 4 aclData)))) := by
    simp only [FullStateMachine.snapshot, hconfigSaved.snapshot, haclSaved.snapshot,
      bind_eq_bind, bind_some, append_assoc]
    rfl
  have hread := readSection_putBlock true
    (length_writeEntries mainWritten sender.mainEngine.entries ▸ hready.main.size)
    (putBlock 4 (snapshotLog logWritten sender.logEngine).1 ++
      (putBlock 4 configData ++ putBlock 4 aclData))
  rw [if_pos ⟨writeEntries_ne_nil mainWritten _, rfl⟩] at hread
  rw [restoreSnapshot, hsnapshot, map_some, FullStateMachine.restore, hread]
  dsimp only
  rw [hmain]
  exact congrArg some hrest

end

/-! ## Databases with one entry -/

def anyOrders : EntryOrders := fun _ _ => .ascending

/-- A database after one entry was put in it. -/
def oneEntry (entry : Entry) : ObaDB Unit :=
  let (tx, db) := (ObaDB.new ()).begin
  ((db.put .empty (anyOrders entry.dn) tx entry).2.commit tx).2

section

variable {entry : Entry} {path : List Bytes}

section

variable (hdn : Canonical entry.dn path) (hfits : entry.Fits 2)
include hdn hfits

lemma oneEntry_settled : (oneEntry entry).Settled
      (Function.update (fun _ => none) entry.dn (some entry.attributes)) := by
  obtain ⟨written, hput, _, _, hsettled⟩ := (ObaDB.new_settled ()).put .empty hdn
    (hfits.mono (by decide)) (fun _ _ _ _ _ _ _ => rfl) (fun _ _ _ => nofun) (anyOrders entry.dn)
  dsimp only [oneEntry]
  rw [hput]
  exact hsettled

lemma oneEntry_entries : (oneEntry entry).entries = [entry] := by
  have hsettled := oneEntry_settled hdn hfits
  refine perm_singleton.mp ((perm_ext_iff_of_nodup (.of_map _ hsettled.nodup_entries)
    (nodup_singleton _)).mpr fun other => ?_)
  rw [hsettled.mem_entries]
  obtain ⟨dn, attributes⟩ := other
  obtain ⟨dn', attributes'⟩ := entry
  by_cases heq : dn = dn'
  · simp [heq, eq_comm]
  · simp [heq]

lemma oneEntry_transferable (hsize : databaseSize [entry] < 256 ^ 4)
    (indexes : List (Bytes × IndexType)) :
    Transferable .empty indexes (oneEntry entry).entries := by
  rw [oneEntry_entries hdn hfits]
  refine ⟨?_, nodup_singleton _, ?_, hsize, ?_, fun _ _ _ _ _ _ _ _ _ => rfl⟩
  · exact forall_mem_singleton.mpr ⟨path, hdn⟩
  · exact forall_mem_singleton.mpr hfits
  · refine forall_mem_singleton.mpr fun _ => forall_mem_singleton.mpr ?_
    exact fun hne => absurd rfl hne

end

end

/-- A user with one uid. -/
def user (dn uid : String) : Entry :=
  ⟨ascii dn, UnorderedMap.insertAll ∅ [(ascii "uid", [ascii uid])]⟩

/-! ## Sections that are left unread -/

/-- An applier that saves five bytes and takes over nothing else. -/
def fiveBytes : Applier Unit :=
  ⟨fun _ => some [1, 0, 0, 0, 7], fun bytes _ => if bytes = [1, 0, 0, 0, 7] then some () else none⟩

lemma fiveBytes_passes (sender receiver : Option Unit) : fiveBytes.Passes sender receiver :=
  ⟨fun _ _ => ⟨_, rfl, by decide, by decide⟩,
    fun _ _ _ h _ _ => ⟨(), if_pos (some.inj h).symm, h⟩⟩

def logEntry : Entry := ⟨ascii "cn=entry", ∅⟩

/-- A state machine with empty main database and the given components. -/
def machine (attached : Attached) (log : ObaDB Unit) : FullStateMachine Unit Unit Unit :=
  { mainEngine := .new (), logEngine := if attached.log then some log else none
    configApplier := if attached.config then some () else none
    aclApplier := if attached.acl then some () else none }

lemma attached_machine (attached : Attached) (log : ObaDB Unit) :
    (machine attached log).attached = attached := by
  obtain ⟨hasLog, hasConfig, hasACL⟩ := attached
  cases hasLog <;> cases hasConfig <;> cases hasACL <;> rfl

/-- The log database of the sender has an entry if the receiver has no log database. -/
def senderLog (receiver : Attached) : ObaDB Unit :=
  if receiver.log then .new () else oneEntry logEntry

lemma new_transferable (indexes : List (Bytes × IndexType)) :
    Transferable .empty indexes (ObaDB.new ()).entries :=
  ⟨nofun, .nil, nofun, by decide, nofun, nofun⟩

lemma machine_ready (sender receiver : Attached) :
    Ready .empty fiveBytes fiveBytes (machine sender (senderLog receiver))
      (machine receiver (.new ())) := by
  refine ⟨new_transferable _, ⟨_, ObaDB.new_settled ()⟩, fun db hdb db' hdb' => ?_,
    fiveBytes_passes _ _, fiveBytes_passes _ _⟩
  obtain ⟨_, hsender⟩ := ite_none_right_eq_some.mp hdb
  obtain ⟨hlog, hreceiver⟩ := ite_none_right_eq_some.mp hdb'
  rw [← some.inj hsender, ← some.inj hreceiver, senderLog, if_pos hlog]
  exact ⟨new_transferable _, _, ObaDB.new_settled ()⟩

/-- What the receiver makes of a snapshot that it does not read in step. -/
def restoreMisaligned (sender receiver : Attached) : Option (Option RestoreError) :=
  (restoreSnapshot .empty fiveBytes fiveBytes anyOrders anyOrders ⟨anyOrders, anyOrders⟩
    ⟨anyOrders, anyOrders⟩ (machine sender (senderLog receiver)) (machine receiver (.new ()))).map
      Prod.fst

lemma restoreMisaligned_fails : ∀ (log config acl log' config' acl' : Bool),
    ¬ Attached.Aligned ⟨log, config, acl⟩ ⟨log', config', acl'⟩ →
      restoreMisaligned ⟨log, config, acl⟩ ⟨log', config', acl'⟩ ≠ some none := by
  decide +kernel

/-- A state machine whose main database has one user. -/
def userMachine (attached : Attached) (dn uid : String) : FullStateMachine Unit Unit Unit :=
  { machine attached (.new ()) with mainEngine := oneEntry (user dn uid) }

end Oba.Raft
