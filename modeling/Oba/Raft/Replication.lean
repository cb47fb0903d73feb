import Oba.Raft.LogFile
import Oba.Raft.StateMachine

/-! # A put on its way to a follower

The leader writes an entry into a command, the command into a log entry and log entries
into an AppendEntries request; the follower reads them back in the opposite order. Every
layer puts lengths in front of its parts, and a length that does not fit its field wraps.
-/

namespace Oba.Raft

open ByteCodec Storage List Option

variable {bytes : Bytes} {c : WireCommand} {entry : Entry} {order : MapOrder} {dbID : UInt8}
  {index term : Nat} {members : List Bytes}

/-! ## Commands -/

def cmdPut : UInt8 := 0
def cmdDelete : UInt8 := 1
def cmdModifyDN : UInt8 := 2

/-- A command with all the fields that are sent. -/
structure WireCommand where
  type : UInt8
  databaseID : UInt8
  dn : Bytes
  oldDN : Bytes
  entryDN : Bytes
  entryData : Bytes
  configData : Bytes
  aclData : Bytes
  deriving DecidableEq, Repr

/-- `Command.Serialize` -/
def WireCommand.serialize (c : WireCommand) : Bytes :=
  c.type :: c.databaseID :: (putBlock 2 c.dn ++ putBlock 2 c.oldDN ++ putBlock 2 c.entryDN ++
    putBlock 4 c.entryData ++ putBlock 4 c.configData ++ putBlock 4 c.aclData)

/-- A field that commands of the old format lack. A read that fails uses up the reader. -/
def readOptionalBlock (s : Bytes) : Bytes × Bytes := (readBlock 4 s).getD ([], [])

/-- `none` is `ErrLogCorrupted`. -/
def deserializeCommand : Bytes → Option WireCommand
  | type :: databaseID :: s => do
    let (dn, s) ← readBlock 2 s
    let (oldDN, s) ← readBlock 2 s
    let (entryDN, s) ← readBlock 2 s
    let (entryData, s) ← readBlock 4 s
    let (configData, s) := readOptionalBlock s
    let (aclData, _) := readOptionalBlock s
    some ⟨type, databaseID, dn, oldDN, entryDN, entryData, configData, aclData⟩
  | _ => none

def ldapCommandType (type : UInt8) : Option CommandType :=
  if type = cmdPut then some .put
  else if type = cmdDelete then some .delete
  else if type = cmdModifyDN then some .modifyDN
  else none

/-- The command as `Apply` runs it, when it is an LDAP command. -/
def WireCommand.ldap (c : WireCommand) : Option Command :=
  (ldapCommandType c.type).map fun type =>
    ⟨type, c.databaseID.toNat, c.dn, c.oldDN, c.entryData⟩

def createPutCommandForDB (order : MapOrder) (entry : Entry) (dbID : UInt8) : WireCommand :=
  ⟨cmdPut, dbID, entry.dn, [], entry.dn, serializeEntry order entry, [], []⟩

/-- The lengths of a command fit their fields. -/
structure WireCommand.Fits (c : WireCommand) : Prop where
  dn : c.dn.length < 256 ^ 2
  oldDN : c.oldDN.length < 256 ^ 2
  entryDN : c.entryDN.length < 256 ^ 2
  entryData : c.entryData.length < 256 ^ 4
  configData : c.configData.length < 256 ^ 4
  aclData : c.aclData.length < 256 ^ 4

lemma readOptionalBlock_putBlock (hfits : bytes.length < 256 ^ 4) (rest : Bytes) :
    readOptionalBlock (putBlock 4 bytes ++ rest) = (bytes, rest) := by
  rw [readOptionalBlock, readBlock_putBlock hfits, getD_some]

lemma deserializeCommand_serialize (hfits : c.Fits) :
    deserializeCommand c.serialize = some c := by
  have hacl := readOptionalBlock_putBlock hfits.aclData []
  rw [append_nil] at hacl
  unfold WireCommand.serialize deserializeCommand
  simp only [append_assoc, readBlock_putBlock hfits.dn, readBlock_putBlock hfits.oldDN,
    readBlock_putBlock hfits.entryDN, readBlock_putBlock hfits.entryData,
    readOptionalBlock_putBlock hfits.configData, hacl, bind_eq_bind, bind_some]

lemma length_entryData_of_deserializeCommand {data : Bytes}
    (h : deserializeCommand data = some c) :
    c.entryData.length ≤ data.length := by
  unfold deserializeCommand at h
  split at h
  next type databaseID s =>
    obtain ⟨⟨dn, s₁⟩, hdn, h⟩ := bind_eq_some_iff.mp h
    obtain ⟨⟨oldDN, s₂⟩, holdDN, h⟩ := bind_eq_some_iff.mp h
    obtain ⟨⟨entryDN, s₃⟩, hentryDN, h⟩ := bind_eq_some_iff.mp h
    obtain ⟨⟨entryData, s₄⟩, hentryData, h⟩ := bind_eq_some_iff.mp h
    cases h
    have hdnLen := (readBlock_some hdn).2
    have holdDNLen := (readBlock_some holdDN).2
    have hentryDNLen := (readBlock_some hentryDN).2
    have hentryDataLen := (readBlock_some hentryData).2
    simp only [length_cons]
    omega
  · cases h

lemma length_serialize_createPutCommandForDB (order : MapOrder) (entry : Entry) (dbID : UInt8) :
    (createPutCommandForDB order entry dbID).serialize.length =
      20 + 2 * entry.dn.length + entrySize entry := by
  simp only [createPutCommandForDB, WireCommand.serialize, length_cons, length_append,
    length_putBlock, length_serializeEntry, length_nil]
  omega

/-! ## AppendEntries requests -/

/-- `AppendEntriesArgs.Serialize` -/
def AppendEntriesArgs.serialize (args : AppendEntriesArgs) : Bytes :=
  putUint 8 args.term ++ putUint 8 args.leaderID ++ putUint 8 args.prevLogIndex ++
    putUint 8 args.prevLogTerm ++ putUint 8 args.entries.length ++ putUint 8 args.leaderCommit ++
    args.entries.flatMap fun entry => putBlock 4 entry.serialize

def readLogEntry (s : Bytes) : Option (LogEntry × Bytes) := do
  let (entryData, s) ← readBlock 4 s
  match deserializeLogEntry entryData with
  | .ok entry => some (entry, s)
  | .error _ => none

def deserializeAppendEntriesArgs (data : Bytes) : Option AppendEntriesArgs :=
  if data.length < 48 then none
  else
    let numEntries := getUint ((data.drop 32).take 8)
    if numEntries > maxEntries then none
    else do
      let (entries, _) ← readMany readLogEntry numEntries (data.drop 48)
      some
        { term := getUint (data.take 8)
          leaderID := getUint ((data.drop 8).take 8)
          prevLogIndex := getUint ((data.drop 16).take 8)
          prevLogTerm := getUint ((data.drop 24).take 8)
          entries := entries
          leaderCommit := getUint ((data.drop 40).take 8) }

/-- The numbers of a request have 64 bits, and so has the length of its entries. -/
structure AppendEntriesArgs.Fits (args : AppendEntriesArgs) : Prop where
  term : args.term < 256 ^ 8
  leaderID : args.leaderID < 256 ^ 8
  prevLogIndex : args.prevLogIndex < 256 ^ 8
  prevLogTerm : args.prevLogTerm < 256 ^ 8
  length : args.entries.length < 256 ^ 8
  leaderCommit : args.leaderCommit < 256 ^ 8
  entries : ∀ entry ∈ args.entries, entry.Fits

/-- The header comes back; the entries are read one after the other, unless they are too many. -/
lemma deserializeAppendEntriesArgs_serialize {args : AppendEntriesArgs} (hfits : args.Fits) :
    deserializeAppendEntriesArgs args.serialize =
      if args.entries.length > maxEntries then none
      else (readMany readLogEntry args.entries.length
        (args.entries.flatMap fun entry => putBlock 4 entry.serialize)).map
          fun r => { args with entries := r.1 } := by
  unfold deserializeAppendEntriesArgs AppendEntriesArgs.serialize
  rw [if_neg (by simp only [length_append, length_putUint]; omega)]
  simp [drop_append, drop_putUint, getUint_putUint_of_lt hfits.term,
    getUint_putUint_of_lt hfits.leaderID, getUint_putUint_of_lt hfits.prevLogIndex,
    getUint_putUint_of_lt hfits.prevLogTerm, getUint_putUint_of_lt hfits.length,
    getUint_putUint_of_lt hfits.leaderCommit, map_eq_bind]

lemma readLogEntry_putBlock {entry : LogEntry} (hfits : entry.Fits)
    (hsize : entry.serialize.length < 256 ^ 4) (rest : Bytes) :
    readLogEntry (putBlock 4 entry.serialize ++ rest) = some (entry, rest) := by
  have hcommand : entry.command.length < 256 ^ 4 := by
    rw [LogEntry.length_serialize] at hsize
    omega
  unfold readLogEntry
  simp only [readBlock_putBlock hsize, deserializeLogEntry_serialize_of_lt hfits hcommand,
    bind_eq_bind, bind_some]

/-- A record whose length wraps is cut to the length that was written. -/
lemma size_of_readLogEntry_putBlock {rest s : Bytes} {entry : LogEntry}
    (h : readLogEntry (putBlock 4 bytes ++ rest) = some (entry, s)) :
    entry.serialize.length ≤ bytes.length % 256 ^ 4 := by
  obtain ⟨⟨entryData, s'⟩, hblock, h⟩ := bind_eq_some_iff.mp h
  have hlength : entryData.length = bytes.length % 256 ^ 4 := by
    unfold readBlock putBlock at hblock
    simp only [append_assoc, readUint_putUint, bind_eq_bind, bind_some] at hblock
    exact (readBytes_some hblock).1
  dsimp only at h
  split at h
  next found hread =>
    cases h
    exact hlength ▸ size_of_deserializeLogEntry hread
  · cases h

/-! ## The entry that a follower reconstructs -/

/-- The entry that `applyLDAPCommand` puts for a log entry. -/
def LogEntry.putEntry (logEntry : LogEntry) : Option Entry := do
  let record ← deserializeCommand logEntry.command
  let cmd ← record.ldap
  match cmd.type with
  | .put => deserializeEntry cmd.entryData
  | _ => none

/-- The entry that a follower puts for the log entry at a position of a request. -/
def reconstruct (request : Bytes) (position : Nat) : Option Entry :=
  (deserializeAppendEntriesArgs request).bind fun args =>
    args.entries[position]?.bind LogEntry.putEntry

/-- The log entry of a put. -/
def putLogEntry (order : MapOrder) (dbID : UInt8) (index term : Nat) (entry : Entry) : LogEntry :=
  ⟨index, term, logEntryCommand, (createPutCommandForDB order entry dbID).serialize⟩

/-- The lengths of an entry fit 16 bits, and its record fits 32 bits. -/
structure Replicable (entry : Entry) : Prop where
  fits : entry.Fits 2
  size : 41 + 2 * entry.dn.length + entrySize entry < 256 ^ 4

lemma length_serialize_putLogEntry (order : MapOrder) (dbID : UInt8) (index term : Nat)
    (entry : Entry) : (putLogEntry order dbID index term entry).serialize.length =
      41 + 2 * entry.dn.length + entrySize entry := by
  rw [LogEntry.length_serialize, putLogEntry, length_serialize_createPutCommandForDB]
  omega

lemma LogEntry.putEntry_eq_some {logEntry : LogEntry} (h : logEntry.putEntry = some entry) :
    entry.Fits 2 ∧ entrySize entry ≤ logEntry.command.length := by
  obtain ⟨record, hrecord, h⟩ := bind_eq_some_iff.mp h
  obtain ⟨cmd, hcmd, h⟩ := bind_eq_some_iff.mp h
  obtain ⟨type, -, rfl⟩ := map_eq_some_iff.mp hcmd
  split at h
  · exact (deserializeEntry_some h).imp_right (·.trans
      (length_entryData_of_deserializeCommand hrecord))
  · cases h

lemma putEntry_putLogEntry (hfits : (createPutCommandForDB order entry dbID).Fits) :
    (putLogEntry order dbID index term entry).putEntry =
      deserializeEntry (serializeEntry order entry) := by
  unfold LogEntry.putEntry putLogEntry
  simp only [deserializeCommand_serialize hfits, bind_eq_bind, bind_some]
  rfl

section

variable {args : AppendEntriesArgs} {before after : List LogEntry} {logEntry : LogEntry}

lemma readMany_readLogEntry {entries : List LogEntry} (hfits : ∀ entry ∈ entries, entry.Fits)
    (hsize : ∀ entry ∈ entries, entry.serialize.length < 256 ^ 4) (count : Nat) (s : Bytes) :
    readMany readLogEntry (entries.length + count)
      ((entries.flatMap fun entry => putBlock 4 entry.serialize) ++ s) =
        (readMany readLogEntry count s).map fun r => (entries ++ r.1, r.2) :=
  readMany_flatMap_append entries
    (fun entry hmem => readLogEntry_putBlock (hfits entry hmem) (hsize entry hmem)) count s

/-- A request is received as it was sent when there are not too many entries and the record of
each has a 32-bit length. -/
lemma deserializeAppendEntriesArgs_eq_some (hfits : args.Fits)
    (hcount : args.entries.length ≤ maxEntries)
    (hsize : ∀ entry ∈ args.entries, entry.serialize.length < 256 ^ 4) :
    deserializeAppendEntriesArgs args.serialize = some args := by
  have hread := readMany_readLogEntry hfits.entries hsize 0 []
  rw [add_zero, append_nil] at hread
  rw [deserializeAppendEntriesArgs_serialize hfits, if_neg (not_lt.mpr hcount), hread]
  simp [readMany]

/-- What is reconstructed was read from the record at the position. -/
lemma reconstruct_eq_some (hfits : args.Fits)
    (hentries : args.entries = before ++ logEntry :: after)
    (hbefore : ∀ other ∈ before, other.serialize.length < 256 ^ 4)
    (h : reconstruct args.serialize before.length = some entry) :
    args.entries.length ≤ maxEntries ∧ ∃ found : LogEntry,
      found.serialize.length ≤ logEntry.serialize.length % 256 ^ 4 ∧
        found.putEntry = some entry := by
  obtain ⟨received, hreceived, h⟩ := bind_eq_some_iff.mp h
  obtain ⟨found, hfound, h⟩ := bind_eq_some_iff.mp h
  rw [deserializeAppendEntriesArgs_serialize hfits] at hreceived
  split at hreceived
  · cases hreceived
  next hcount =>
    refine ⟨not_lt.mp hcount, found, ?_, h⟩
    have hfitsBefore : ∀ other ∈ before, other.Fits := by
      intro other hmem
      apply hfits.entries
      rw [hentries]
      exact mem_append_left _ hmem
    rw [hentries, length_append, flatMap_append,
      readMany_readLogEntry hfitsBefore hbefore] at hreceived
    obtain ⟨⟨entries, s⟩, hitems, rfl⟩ := map_eq_some_iff.mp hreceived
    obtain ⟨⟨rest, s'⟩, hread, heq⟩ := map_eq_some_iff.mp hitems
    cases heq
    obtain ⟨⟨first, s₁⟩, hfirst, hread⟩ := bind_eq_some_iff.mp hread
    obtain ⟨⟨others, s₂⟩, -, hread⟩ := bind_eq_some_iff.mp hread
    cases hread
    rw [getElem?_append_right (le_rfl), Nat.sub_self] at hfound
    rw [← some.inj hfound]
    exact size_of_readLogEntry_putBlock hfirst

/-- The record of a put that fits is read back, whatever the entry in it becomes. -/
lemma reconstruct_putLogEntry (before after : List LogEntry) (hfits : args.Fits)
    (hentries : args.entries = before ++ putLogEntry order dbID index term entry :: after)
    (hothers : ∀ other ∈ before ++ after, other.serialize.length < 256 ^ 4)
    (hcount : args.entries.length ≤ maxEntries) (hdn : entry.dn.length < 256 ^ 2)
    (hsize : 41 + 2 * entry.dn.length + entrySize entry < 256 ^ 4) :
    reconstruct args.serialize before.length = deserializeEntry (serializeEntry order entry) := by
  have hsizes : ∀ other ∈ args.entries, other.serialize.length < 256 ^ 4 := by
    intro other hmem
    rw [hentries] at hmem
    rcases mem_append.mp hmem with hbefore | hafter
    · exact hothers other (mem_append_left _ hbefore)
    · rcases mem_cons.mp hafter with rfl | hafter
      · rwa [length_serialize_putLogEntry]
      · exact hothers other (mem_append_right _ hafter)
  have hcommand : (createPutCommandForDB order entry dbID).Fits := by
    have hdata : (serializeEntry order entry).length < 256 ^ 4 := by
      rw [length_serializeEntry]
      omega
    exact ⟨hdn, by simp [createPutCommandForDB], hdn, hdata, by simp [createPutCommandForDB],
      by simp [createPutCommandForDB]⟩
  unfold reconstruct
  rw [deserializeAppendEntriesArgs_eq_some hfits hcount hsizes, bind_some, hentries,
    getElem?_append_right (le_rfl), Nat.sub_self]
  exact putEntry_putLogEntry hcommand

/-- A follower puts the entry of a put exactly when the lengths of the entry fit the fields of
the formats and the request has no more entries than a follower accepts. -/
theorem put_replication (before after : List LogEntry) {order : MapOrder} {dbID : UInt8}
    {index term : Nat} {entry : Entry} (hfits : args.Fits)
    (hentries : args.entries = before ++ putLogEntry order dbID index term entry :: after)
    (hothers : ∀ other ∈ before ++ after, other.serialize.length < 256 ^ 4) :
    reconstruct args.serialize before.length = some entry ↔
      Replicable entry ∧ args.entries.length ≤ maxEntries := by
  constructor
  · intro h
    obtain ⟨hcount, found, hfound, hput⟩ := reconstruct_eq_some hfits hentries
      (fun other hmem => hothers other (mem_append_left _ hmem)) h
    obtain ⟨hentry, hsize⟩ := LogEntry.putEntry_eq_some hput
    have hdn := hentry.dn
    rw [length_serialize_putLogEntry, LogEntry.length_serialize] at hfound
    -- a length that wraps is smaller than what the entry alone takes up
    exact ⟨⟨hentry, by omega⟩, hcount⟩
  · rintro ⟨hentry, hcount⟩
    rw [reconstruct_putLogEntry before after hfits hentries hothers hcount hentry.fits.dn
      hentry.size]
    exact deserializeEntry_serializeEntry order hentry.fits

end

/-! ## A group with 65536 members -/

/-- A group with the given values of `member`. -/
def group (members : List Bytes) : Entry :=
  ⟨ascii "cn=all,dc=x", (∅ : Attributes).insert (ascii "member") members⟩

/-- The request that carries one put. -/
def putRequest (entry : Entry) : AppendEntriesArgs :=
  ⟨1, 1, 0, 0, [putLogEntry .ascending 0 1 1 entry], 0⟩

lemma putRequest_fits (entry : Entry) : (putRequest entry).Fits := by
  refine ⟨?_, ?_, ?_, ?_, ?_, ?_, ?_⟩
  case refine_7 =>
    intro logEntry hmem
    rw [mem_singleton.mp hmem]
    simp [LogEntry.Fits, putLogEntry]
  all_goals simp [putRequest]

lemma toList_group (members : List Bytes) :
    (group members).attributes.toList = [(ascii "member", members)] :=
  UnorderedMap.Order.range_singleton .ascending (ascii "member") members

lemma entrySize_group (members : List Bytes) : entrySize (group members) =
    25 + (members.map fun value => 4 + value.length).sum := by
  simp only [entrySize, toList_group, map_cons, map_nil, sum_singleton]
  simp [group, ascii]
  omega

theorem put_replication_pair :
    reconstruct (putRequest (group [ascii "uid=a", ascii "uid=b"])).serialize 0 =
      some (group [ascii "uid=a", ascii "uid=b"]) := by
  refine (put_replication [] [] (putRequest_fits _) rfl (by simp)).mpr ⟨?_, by decide⟩
  exact ⟨by decide +kernel, by decide +kernel⟩

/-- A count of values that wraps to zero leaves the attribute without values. -/
lemma deserializeEntry_group (hcount : members.length % 256 ^ 2 = 0) :
    deserializeEntry (serializeEntry .ascending (group members)) = some (group []) := by
  have hname : (ascii "member").length < 256 ^ 2 := by decide
  have hdn : (group members).dn.length < 256 ^ 2 := by simp [group, ascii]
  have hone : (group members).attributes.size % 256 ^ 2 = 1 := by
    simp [group, Std.ExtTreeMap.size_insert]
  have hrange : UnorderedMap.Order.ascending.range (group members).attributes =
      [(ascii "member", members)] := toList_group members
  unfold deserializeEntry
  rw [serializeEntry, hrange]
  simp only [append_assoc, readBlock_putBlock hdn, readUint_putUint, hone, readMany,
    readAttribute, putAttribute, readBlock_putBlock hname, hcount, flatMap_cons,
    bind_eq_bind, bind_some]
  rfl

/-- The record of a group is read back, whatever becomes of its values. -/
lemma reconstruct_group (hsize : 88 + (members.map fun value => 4 + value.length).sum < 256 ^ 4) :
    reconstruct (putRequest (group members)).serialize 0 =
      deserializeEntry (serializeEntry .ascending (group members)) := by
  have hdn : (group members).dn.length = 11 := by simp [group, ascii]
  refine reconstruct_putLogEntry [] [] (putRequest_fits _) rfl (by simp)
    (by simp [putRequest, maxEntries]) (by rw [hdn]; decide) ?_
  rw [entrySize_group]
  omega

lemma sum_equalMembers (n : Nat) :
    ((replicate n (ascii "uid=a")).map fun value => 4 + value.length).sum = n * 9 := by
  have hlength : (ascii "uid=a").length = 5 := by decide
  rw [map_replicate, sum_replicate_nat, hlength]

/-- The follower of a leader with a group of 65536 members has the group without members. -/
theorem group_loses_members :
    reconstruct (putRequest (group (List.replicate 65536 (ascii "uid=a")))).serialize 0 =
      some (group []) := by
  rw [reconstruct_group]
  · apply deserializeEntry_group
    norm_num
  · rw [sum_equalMembers]
    omega

end Oba.Raft
