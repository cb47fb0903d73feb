import Oba.Storage.Contents
import Oba.Storage.Session
import Oba.Storage.WALCalls

/-! # Durability

Transactions that run one after the other leave the last write of every DN. Closing the
database and opening it again keeps it, through the caches, if the caches have room for it and
every DN has been spelled in one way.
-/

namespace Oba.Storage

open List Option WriteCall

variable {calls : List WriteCall}

/-! ## The log of a session -/

/-- A log that is opened again goes on at the given LSN. -/
def WAL.Logged (w : WAL) (next : Nat) : Prop :=
  ∃ l : RecordList, w.Represents l ∧ nextLSN l.kept = next ∧ l.next = next

namespace WAL.Logged

variable {w w' : WAL} {next : Nat}

lemma append (h : w.Logged next) {txID : UInt64} {type : UInt8} {lsn : Nat}
    (hnext : next < 256 ^ 8) (hok : w.append (newWALRecord 0 txID type) = .ok (lsn, w')) :
    w'.Logged (next + 1) := by
  obtain ⟨l, hw, -, rfl⟩ := h
  have hsize : (newWALRecord 0 txID type).Buffered := by
    have hheader : 4 + walRecordHeaderSize ≤ walBufferSize := by decide
    exact hheader
  obtain ⟨w'', hcall, hw'⟩ := hw.call (c := .append (newWALRecord 0 txID type)) hnext
    fun r hr => WALCall.append.inj hr ▸ hsize
  rw [WAL.call, hok] at hcall
  cases hcall
  refine ⟨_, hw', ?_, rfl⟩
  rw [RecordList.call, nextLSN_append (cons_ne_nil _ _)]
  rfl

lemma sync (h : w.Logged next) (hok : w.sync = .ok w') : w'.Logged next := by
  obtain ⟨l, hw, hlast, hnext⟩ := h
  have hflush := WAL.flushBuffer_eq hw.holds.buffer
  cases hflush.symm.trans hok
  exact ⟨l, ⟨hw.holds.flushed, hw.next⟩, hlast, hnext⟩

lemma close (h : w.Logged next) :
    w.currentLSN = next ∧ ∃ file, w.close = .ok file ∧ (openWAL file).currentLSN = next := by
  obtain ⟨l, hw, hlast, hnext⟩ := h
  obtain ⟨file, hclose, -, hreopened⟩ := hw.close
  exact ⟨hw.next.trans hnext, file, hclose, hreopened.trans hlast⟩

end WAL.Logged

/-! ## What was written -/

namespace WriteCall

/-- The DN under which a call writes. -/
def dn : WriteCall → Bytes
  | put _ entry => normalizeDN entry.dn
  | delete _ dn => normalizeDN dn

/-- What a call leaves at its DN. -/
def value : WriteCall → Option Attributes
  | put _ entry => some entry.attributes
  | delete _ _ => none

def apply (content : Bytes → Option Attributes) (c : WriteCall) : Bytes → Option Attributes :=
  Function.update content c.dn c.value

end WriteCall

/-- The last write of every DN. -/
def lastWrites (txs : List (List WriteCall)) : Bytes → Option Attributes :=
  txs.flatten.foldl WriteCall.apply fun _ => none

/-- An entry whose parts fit the fields of its serialisation and of the entry cache. -/
structure Entry.Storable (entry : Entry) : Prop where
  fits : entry.Fits 4
  dn : entry.dn.length < 2 ^ 16
  size : ∀ order, (serializeEntry order entry).length < 2 ^ 32

def WriteCall.Storable (c : WriteCall) : Prop := ∀ a, c.value = some a → Entry.Storable ⟨c.dn, a⟩

lemma foldl_apply_storable (hcalls : ∀ c ∈ calls, c.Storable)
    {content : Bytes → Option Attributes}
    (hcontent : ∀ dn a, content dn = some a → Entry.Storable ⟨dn, a⟩) (dn : Bytes) (a : Attributes)
    (h : calls.foldl apply content dn = some a) : Entry.Storable ⟨dn, a⟩ := by
  induction calls generalizing content with
  | nil => exact hcontent dn a h
  | cons c calls ih =>
    refine ih (fun c' hc' => hcalls c' (mem_cons_of_mem c hc')) (fun d b hd => ?_) h
    by_cases hdn : d = c.dn
    · subst hdn
      rw [apply, Function.update_self] at hd
      exact hcalls c mem_cons_self b hd
    · rw [apply, Function.update_of_ne hdn] at hd
      exact hcontent d b hd

namespace Session

variable {τ : Type} {s s' : Session τ} {dns : List Bytes} {content : Bytes → Option Attributes}
  {next : Nat} {tx : Nat}

/-- A session between transactions. -/
structure Rested (s : Session τ) (dns : List Bytes) (content : Bytes → Option Attributes)
    (next : Nat) : Prop where
  holding : s.db.Holding s.db.nextTxID dns content
  committed : ∀ dn v rest, s.db.store.versions dn = v :: rest → v.commitTS ≠ 0
  logged : s.wal.Logged next
  entryCache : s.entryCache = none

lemma rested_create (trees : τ) (dns : List Bytes) :
    (create trees).Rested dns (fun _ => none) 1 where
  holding := by
    refine ⟨Nat.zero_lt_one, forall_mem_nil _, ?_, fun _ _ => rfl, fun _ h => absurd rfl h,
      fun _ h => absurd h (by simp), fun path => ?_, fun _ _ _ => rfl⟩
    · intro dn v rest hchain
      cases hchain
    · simp [create, ObaDB.new, RadixTree.lookupPath]
  committed := by
    intro dn v rest hchain
    cases hchain
  logged := ⟨_, openWAL_represents, rfl, rfl⟩
  entryCache := rfl

variable (trees : IndexTrees τ)

lemma write_holding {c : WriteCall} (h : s.db.Holding tx dns content) (hspelled : Spelled dns)
    (hdn : c.dn ∈ dns) (hstorable : c.Storable) (hok : s.write trees tx c = .ok s') :
    s'.db.Holding tx dns (c.apply content) ∧ s'.db.nextTxID = s.db.nextTxID ∧
      s'.wal = s.wal ∧ s'.entryCache = s.entryCache := by
  unfold write at hok
  split at hok
  · cases hok
  next db hcall =>
    cases hok
    cases c with
    | put orders entry =>
      have hstored : ObaDB.stored orders entry.normalized = entry.attributes := by
        have hfits : Entry.Fits 4 entry.normalized :=
          (hstorable _ rfl).fits
        rw [ObaDB.stored, deserializeEntry_serializeEntry _ hfits, getD_some]
      have hput := h.put trees hspelled hdn (congrArg Prod.fst hcall)
      rw [hstored] at hput
      obtain rfl := congrArg Prod.snd hcall
      exact ⟨hput.1, hput.2, rfl, rfl⟩
    | delete orders dn =>
      have hdelete := h.delete trees hspelled hdn (congrArg Prod.fst hcall)
      obtain rfl := congrArg Prod.snd hcall
      exact ⟨hdelete.1, hdelete.2, rfl, rfl⟩

/-- The calls of a transaction, one after the other. -/
lemma writes_holding (h : s.db.Holding tx dns content) (hspelled : Spelled dns)
    (hdns : ∀ c ∈ calls, c.dn ∈ dns) (hstorable : ∀ c ∈ calls, c.Storable)
    (hok : s.writes trees tx calls = .ok s') :
    s'.db.Holding tx dns (calls.foldl apply content) ∧
      s'.db.nextTxID = s.db.nextTxID ∧ s'.wal = s.wal ∧ s'.entryCache = s.entryCache := by
  induction calls generalizing s content with
  | nil =>
    cases hok
    exact ⟨h, rfl, rfl, rfl⟩
  | cons c calls ih =>
    unfold writes at hok
    split at hok
    · cases hok
    next written hwrite =>
      obtain ⟨hholding, hnext, hwal, hcache⟩ := write_holding trees h hspelled
        (hdns c mem_cons_self) (hstorable c mem_cons_self) hwrite
      obtain ⟨hholding', hnext', hwal', hcache'⟩ := ih hholding
        (fun c' hc' => hdns c' (mem_cons_of_mem c hc'))
        (fun c' hc' => hstorable c' (mem_cons_of_mem c hc')) hok
      exact ⟨hholding', hnext'.trans hnext, hwal'.trans hwal, hcache'.trans hcache⟩

/-- A transaction that has committed leaves the session at rest. -/
lemma transaction_rested (h : s.Rested dns content next) (hspelled : Spelled dns)
    (hdns : ∀ c ∈ calls, c.dn ∈ dns) (hstorable : ∀ c ∈ calls, c.Storable)
    (hnext : next + 2 ≤ 256 ^ 8) (hok : s.transaction trees calls = .ok s') :
    s'.Rested dns (calls.foldl apply content) (next + 2) := by
  unfold transaction begin at hok
  cases hbegin : s.wal.append (newWALRecord 0 (.ofNat s.db.nextTxID) walBegin) with
  | error fault =>
    rw [hbegin] at hok
    cases hok
  | ok result =>
    rw [hbegin] at hok
    dsimp only at hok
    split at hok
    · cases hok
    next written hwrites =>
      have hlogged := h.logged.append (by omega) hbegin
      obtain ⟨hholding, htx, hwal, hcache⟩ := writes_holding trees h.holding.begin hspelled hdns
        hstorable hwrites
      unfold commit at hok
      cases hcommit : written.db.commit s.db.begin.1 with | mk result committed =>
      rw [hcommit] at hok
      cases result with
      | error err => cases hok
      | ok _ =>
        dsimp only at hok
        split at hok
        · cases hok
        next appended happend =>
          split at hok
          · cases hok
          next synced hsync =>
            cases hok
            obtain ⟨hresult, hcommitted, htx'⟩ := hholding.commit
            rw [hcommit] at hresult hcommitted htx'
            have hid : s.db.begin.1 + 1 = committed.nextTxID := (htx'.trans htx).symm
            rw [hwal] at happend
            refine ⟨hid ▸ hresult, hcommitted, ?_, hcache.trans h.entryCache⟩
            exact (hlogged.append (by omega) happend).sync hsync

/-- After transactions that return no error, the contents are the last writes. -/
lemma run_rested {txs : List (List WriteCall)} (h : s.Rested dns content next)
    (hspelled : Spelled dns) (hdns : ∀ c ∈ txs.flatten, c.dn ∈ dns)
    (hstorable : ∀ c ∈ txs.flatten, c.Storable) (hnext : next + 2 * txs.length ≤ 256 ^ 8)
    (hok : s.run trees txs = .ok s') :
    s'.Rested dns (txs.flatten.foldl apply content) (next + 2 * txs.length) := by
  induction txs generalizing s content next with
  | nil =>
    cases hok
    exact h
  | cons calls txs ih =>
    rw [length_cons] at hnext
    unfold run at hok
    split at hok
    · cases hok
    next rested htransaction =>
      have hstep := transaction_rested trees h hspelled (fun c hc => hdns c (mem_append_left _ hc))
        (fun c hc => hstorable c (mem_append_left _ hc)) (by omega) htransaction
      have hrest := ih hstep (fun c hc => hdns c (mem_append_right _ hc))
        (fun c hc => hstorable c (mem_append_right _ hc)) (by omega) hok
      rw [flatten_cons, foldl_append, length_cons,
        show next + 2 * (txs.length + 1) = next + 2 + 2 * txs.length by omega]
      exact hrest

/-! ## Closing and opening -/

/-- The caches have room for what `Close` writes to them. -/
structure Closable (s : Session τ) (walk : s.db.radix.Walk) (range : s.db.store.Range)
    (orders : Bytes → MapOrder) : Prop where
  nodes : walk.nodes.length < 2 ^ 31
  nodeData : (RadixTree.serializeNodes walk).length < 2 ^ 64
  children : ∀ path ∈ walk.nodes, walk.nodes.countP (RadixTree.childOf path) < 2 ^ 16
  entries : range.dns.length < 2 ^ 32
  entryData : (VersionStore.savedData range orders).length < 2 ^ 64

/-- Between transactions, what is saved are the contents. -/
lemma Rested.saved (h : s.Rested dns content next) (dn : Bytes) :
    (s.db.store.saved dn).map Version.data = content dn := by
  unfold VersionStore.saved
  cases hchain : s.db.store.versions dn with
  | nil => exact (h.holding.absent dn hchain).symm
  | cons v rest =>
    have hcommitted := h.committed dn v rest hchain
    rw [← (h.holding.newest dn v rest hchain).1, Version.live]
    cases hdeleted : v.deleted <;> simp [Option.filter, hcommitted, hdeleted]

variable {walk : s.db.radix.Walk} {range : s.db.store.Range} {orders : Bytes → MapOrder}

section

variable (h : s.Rested dns content next) (hclosable : s.Closable walk range orders)
  (hstorable : ∀ dn a, content dn = some a → Entry.Storable ⟨dn, a⟩)
include h hclosable hstorable

lemma Rested.savedFits : VersionStore.SavedFits range orders := by
  have hentry : ∀ dn v, s.db.store.saved dn = some v → Entry.Storable ⟨dn, v.data⟩ := by
    intro dn v hv
    refine hstorable dn v.data ?_
    rw [← h.saved, hv, map_some]
  exact ⟨hclosable.entries, hclosable.entryData, fun dn v hv => (hentry dn v hv).dn,
    fun dn v hv => (hentry dn v hv).size _, fun dn v hv => (hentry dn v hv).fits⟩

lemma Rested.walkFits : walk.Fits := by
  refine ⟨hclosable.nodes, hclosable.nodeData, fun path hpath => ?_, hclosable.children⟩
  rcases walk.mem_nodes.mp hpath with rfl | ⟨p, hp, hbelow⟩
  · exact Nat.two_pow_pos 16
  · -- the node is above an entry, whose DN is short
    have hentry : (s.db.radix.lookupPath p.1).isSome :=
      AssocList.lookup_isSome_iff.mpr (mem_map_of_mem hp)
    obtain ⟨dn, hdn, hsome⟩ := (h.holding.listed p.1).mp hentry
    obtain ⟨a, ha⟩ := isSome_iff_exists.mp hsome
    have hlength := (hstorable dn a ha).dn
    rcases eq_nil_or_concat path with rfl | ⟨above, key, rfl⟩
    · exact Nat.two_pow_pos 16
    · have hkey : key ∈ p.1 := hbelow.subset (by simp)
      have hle := length_le_of_parseDN hdn hkey
      simpa using hle.trans_lt hlength

/-- What the caches give back. -/
lemma Rested.close (hnext : next < 256 ^ 8) :
    ∃ files versions, s.close walk range orders = .ok files ∧
      (openFiles files).db.store = { VersionStore.new with versions := versions } ∧
      (∀ dn, match s.db.store.saved dn with
        | some v => ∃ page, versions dn = [⟨0, 1, v.data, page, false⟩]
        | none => versions dn = []) ∧
      (openFiles files).db.pages = s.db.pages ∧
      ∀ path, (openFiles files).db.radix.lookupPath path =
        (s.db.radix.lookupPath path).map (· % 256 ^ 8) := by
  obtain ⟨hlsn, file, hclose, hopened⟩ := h.logged.close
  obtain ⟨versions, hversions, hloaded⟩ :=
    VersionStore.loadCache_saveCache (h.savedFits hclosable hstorable) hnext
  obtain ⟨radix, hradix, hlisted⟩ :=
    RadixTree.Walk.loadCache_saveCache (h.walkFits hclosable hstorable) hnext
  -- without chains there is no entry cache, but the index is empty too
  have hpreload : ∀ db : ObaDB τ, db.radix = radix →
      (if decide (range.dns ≠ []) then db else preloadHotEntries db) = db := by
    intro db hdb
    split_ifs with hdns
    · rfl
    · have hpaths : db.radix.paths = [] := by
        rw [hdb, eq_nil_iff_forall_not_mem]
        intro p hp
        have hsome : (radix.lookupPath p.1).isSome :=
          AssocList.lookup_isSome_iff.mpr (mem_map_of_mem hp)
        rw [hlisted, isSome_map, h.holding.listed] at hsome
        obtain ⟨dn, -, hcontent⟩ := hsome
        have hmem : dn ∈ range.dns := (range.mem_iff dn).mpr fun hnil => by
          rw [h.holding.absent dn hnil] at hcontent
          cases hcontent
        exact hdns (decide_eq_true (ne_nil_of_mem hmem))
      rw [preloadHotEntries, hpaths]
      rfl
  unfold Session.close
  rw [hclose, hlsn, h.entryCache, or_none]
  refine ⟨_, versions, rfl, ?_⟩
  dsimp only [openFiles]
  rw [hopened, hversions, hradix, getD_some]
  dsimp only
  rw [hpreload _ rfl]
  exact ⟨rfl, hloaded, rfl, hlisted⟩

end

/-- A reader of the database that is opened again gets the contents. -/
lemma Rested.reopened (h : s.Rested dns content next) (hspelled : Spelled dns)
    (hclosable : s.Closable walk range orders)
    (hstorable : ∀ dn a, content dn = some a → Entry.Storable ⟨dn, a⟩) (hnext : next < 256 ^ 8) :
    ∃ files, s.close walk range orders = .ok files ∧ ∀ dn ∈ dns, ∀ tx, 0 < tx →
      (openFiles files).db.reads tx dn = content dn := by
  obtain ⟨files, versions, hfiles, hstore, hloaded, -, hlisted⟩ :=
    h.close hclosable hstorable hnext
  refine ⟨files, hfiles, fun dn hdn tx htx => ?_⟩
  have hsaved := h.saved dn
  have hchain := hloaded dn
  rw [ObaDB.reads_eq, hstore]
  dsimp only
  cases hv : s.db.store.saved dn with
  | some v =>
    rw [hv] at hsaved hchain
    obtain ⟨page, hpage⟩ := hchain
    have hvisible : Version.isVisibleTo ⟨0, 1, v.data, page, false⟩ tx tx = true := by
      simpa [Version.isVisibleTo] using Nat.succ_le_of_lt htx
    rw [hpage, find?_cons_of_pos (p := fun w : Version => w.isVisibleTo tx tx) hvisible,
      ← hsaved]
    rfl
  | none =>
    rw [hv] at hsaved hchain
    have hlookup : (openFiles files).db.radix.lookup dn = none := by
      unfold RadixTree.lookup
      split
      · rfl
      next path hpath =>
        by_contra hne
        have hsome := isSome_iff_ne_none.mpr hne
        rw [hlisted, isSome_map] at hsome
        obtain ⟨dn', hpath', hcontent⟩ := (h.holding.listed path).mp hsome
        obtain rfl := hspelled dn hdn dn' (h.holding.mem hcontent) path hpath hpath'
        rw [← hsaved] at hcontent
        cases hcontent
    have hnone : (openFiles files).db.diskLoader dn = none := by
      rw [ObaDB.diskLoader, hlookup]
    rw [hchain, hnone, ← hsaved]
    rfl

end Session

/-- Transactions that return no error, `Close`, and a `Get` after the database is opened again:
it gives the last write of the DN. -/
theorem durability {τ : Type} (trees : IndexTrees τ) (t : τ) (txs : List (List WriteCall))
    (s : Session τ) (hrun : (Session.create t).run trees txs = .ok s)
    (hlog : 2 * txs.length + 1 < 2 ^ 64) (hstorable : ∀ c ∈ txs.flatten, c.Storable)
    (walk : s.db.radix.Walk) (range : s.db.store.Range) (orders : Bytes → MapOrder)
    (hclosable : s.Closable walk range orders) (tx : Nat) (htx : 0 < tx) (dn : Bytes)
    (hdn : dn ≠ []) (hspelled : Spelled (normalizeDN dn :: txs.flatten.map WriteCall.dn)) :
    ∃ files, s.close walk range orders = .ok files ∧
      ((Session.openFiles files).db.get tx dn).1 = match lastWrites txs (normalizeDN dn) with
        | some attributes => .ok ⟨normalizeDN dn, attributes⟩
        | none => .error .entryNotFound := by
  have hdns : ∀ c ∈ txs.flatten, c.dn ∈ normalizeDN dn :: txs.flatten.map WriteCall.dn :=
    fun c hc => mem_cons_of_mem _ (mem_map_of_mem hc)
  have hrested := Session.run_rested trees
    (Session.rested_create t (normalizeDN dn :: txs.flatten.map WriteCall.dn)) hspelled hdns
    hstorable (by omega) hrun
  obtain ⟨files, hclose, hreads⟩ := hrested.reopened hspelled hclosable
    (foldl_apply_storable hstorable (by simp)) (by omega)
  refine ⟨files, hclose, ?_⟩
  rw [ObaDB.get_eq _ tx hdn, hreads _ mem_cons_self tx htx]
  rfl

/-! ### An entry that is changed once -/

def changedTwice : List (List WriteCall) :=
  [[.put (fun _ => .ascending) (person "1")], [.put (fun _ => .ascending) (person "2")]]

def changedSession : Session Unit :=
  ((Session.create ()).run .empty changedTwice).toOption.getD (Session.create ())

lemma run_changedTwice : (Session.create ()).run .empty changedTwice = .ok changedSession :=
  rfl

lemma storable_changedTwice : ∀ c ∈ changedTwice.flatten, c.Storable := by
  have hsmall : ∀ c ∈ changedTwice.flatten, ∀ a ∈ c.value, Entry.Fits 4 ⟨c.dn, a⟩ ∧
      c.dn.length < 2 ^ 16 ∧ (serializeEntry .ascending ⟨c.dn, a⟩).length < 2 ^ 32 := by
    decide +kernel
  intro c hc a ha
  obtain ⟨hfits, hdn, hsize⟩ := hsmall c hc a ha
  exact ⟨hfits, hdn, fun order => length_serializeEntry_order order .ascending _ ▸ hsize⟩

def changedWalk : changedSession.db.radix.Walk where
  nodes := [[], [ascii "dc=x"], [ascii "dc=x", ascii "cn=a"]]
  perm := by decide +kernel
  root := rfl

lemma rested_changedSession {dns : List Bytes} (hspelled : Spelled dns) (hmem : personDN ∈ dns) :
    changedSession.Rested dns (lastWrites changedTwice) 5 := by
  refine Session.run_rested .empty (Session.rested_create () dns) hspelled ?_
    storable_changedTwice (by decide) run_changedTwice
  intro c hc
  have hdn : ∀ c ∈ changedTwice.flatten, c.dn = personDN := by decide +kernel
  exact hdn c hc ▸ hmem

lemma spelled_personDN : Spelled [personDN] := by
  intro dn hdn dn' hdn' _ _ _
  rw [mem_singleton.mp hdn, mem_singleton.mp hdn']

def changedRange : changedSession.db.store.Range where
  dns := [personDN]
  nodup := nodup_singleton _
  mem_iff := by
    have hholding := (rested_changedSession spelled_personDN mem_cons_self).holding
    intro dn
    refine ⟨fun hdn hnil => ?_, hholding.chained dn⟩
    rw [mem_singleton.mp hdn] at hnil
    have hsome : (lastWrites changedTwice personDN).isSome := by decide +kernel
    rw [hholding.absent personDN hnil] at hsome
    cases hsome

lemma closable_changedSession :
    changedSession.Closable changedWalk changedRange fun _ => .ascending where
  nodes := by decide
  nodeData := by decide +kernel
  children := by decide +kernel
  entries := Nat.one_lt_two_pow (n := 32) (by decide)
  entryData := by decide +kernel

theorem durability_changedTwice : ∃ files,
    changedSession.close changedWalk changedRange (fun _ => .ascending) = .ok files ∧
      ((Session.openFiles files).db.get 1 (ascii "CN=a,dc=x ")).1 = .ok (person "2") := by
  have hspelled : Spelled (normalizeDN (ascii "CN=a,dc=x ") ::
      changedTwice.flatten.map WriteCall.dn) := by
    intro dn hdn dn' hdn' _ _ _
    rw [eq_of_mem_replicate (n := 3) hdn, eq_of_mem_replicate (n := 3) hdn']
  obtain ⟨files, hclose, hget⟩ := durability .empty () changedTwice changedSession
    run_changedTwice (by decide) storable_changedTwice changedWalk changedRange
    (fun _ => .ascending) closable_changedSession 1 (by decide) (ascii "CN=a,dc=x ") (by decide)
    hspelled
  refine ⟨files, hclose, hget.trans ?_⟩
  rfl

/-- The same entry under another spelling of its DN has its first value. -/
theorem respelled_get_stale : ∃ files,
    (Session.create ()).run .empty changedTwice = .ok changedSession ∧
      changedSession.close changedWalk changedRange (fun _ => .ascending) = .ok files ∧
      parseDN (ascii "cn=a, dc=x") = parseDN (ascii "cn=a,dc=x") ∧
      ((Session.openFiles files).db.get 1 (ascii "cn=a, dc=x")).1 =
        .ok ⟨ascii "cn=a, dc=x", (person "1").attributes⟩ := by
  have hrested := rested_changedSession spelled_personDN mem_cons_self
  obtain ⟨files, versions, hfiles, hstore, hloaded, hpages, hlisted⟩ :=
    hrested.close closable_changedSession (foldl_apply_storable storable_changedTwice (by simp))
      (by decide)
  refine ⟨files, run_changedTwice, hfiles, by decide +kernel, ?_⟩
  -- the other spelling has no chain and is read from the first page of the entry
  have hchain : versions (ascii "cn=a, dc=x") = [] := by
    have hmem : ascii "cn=a, dc=x" ∉ changedRange.dns := by decide
    have hsaved := hloaded (ascii "cn=a, dc=x")
    rwa [changedRange.saved_of_not_mem hmem] at hsaved
  have hpage : (Session.openFiles files).db.radix.lookup (ascii "cn=a, dc=x") = some 1 := by
    exact (hlisted _).trans (by decide +kernel)
  have hload : (Session.openFiles files).db.diskLoader (ascii "cn=a, dc=x") =
      some ⟨0, 1, (person "1").attributes, 1, false⟩ := by
    rw [ObaDB.diskLoader, hpage]
    rw [hpages]
    rfl
  have hnormal : normalizeDN (ascii "cn=a, dc=x") = ascii "cn=a, dc=x" := by decide +kernel
  rw [ObaDB.get_eq _ 1 (by decide), hnormal, ObaDB.reads_eq, hstore]
  dsimp only
  rw [hchain, hload]
  rfl

end Oba.Storage
