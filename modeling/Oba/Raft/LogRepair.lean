import Oba.Raft.CommitIndex
import Oba.Raft.Replication

/-! # Repairing a follower's log

`replicateTo` and `handleAppendEntries` over their wire formats, round after round. The leader
steps back until the follower accepts, and then sends all that follows. A request with more
than 10000 entries is refused as corrupt, whatever it holds, and the leader steps back further.
-/

namespace Oba.Raft

open ByteCodec TermLog Storage List RaftLog

variable {reply : AppendEntriesReply} {log : RaftLog}

/-! ## Replies on the wire -/

/-- `AppendEntriesReply.Serialize` -/
def AppendEntriesReply.serialize (reply : AppendEntriesReply) : Bytes :=
  putUint 8 reply.term ++ [if reply.success then 1 else 0] ++ putUint 8 reply.conflictTerm ++
    putUint 8 reply.conflictIndex

def deserializeAppendEntriesReply (data : Bytes) : Option AppendEntriesReply :=
  if data.length < 25 then none
  else some
    { term := getUint (data.take 8)
      success := data.getD 8 0 = 1
      conflictTerm := getUint ((data.drop 9).take 8)
      conflictIndex := getUint ((data.drop 17).take 8) }

structure AppendEntriesReply.Fits (reply : AppendEntriesReply) : Prop where
  term : reply.term < 256 ^ 8
  conflictTerm : reply.conflictTerm < 256 ^ 8
  conflictIndex : reply.conflictIndex < 256 ^ 8

lemma deserializeAppendEntriesReply_serialize (hfits : reply.Fits) :
    deserializeAppendEntriesReply reply.serialize = some reply := by
  have hindex : getUint ((putUint 8 reply.conflictIndex).take 8) = reply.conflictIndex := by
    rw [take_of_length_le (length_putUint 8 _).le, getUint_putUint_of_lt hfits.conflictIndex]
  unfold deserializeAppendEntriesReply AppendEntriesReply.serialize
  simp [drop_append, drop_putUint, getUint_putUint_of_lt hfits.term,
    getUint_putUint_of_lt hfits.conflictTerm, hindex]

/-! ## Rounds -/

/-- `handleAppendEntries` from bytes to bytes. -/
def receiveAppendEntries (data : Bytes) (st : NodeState) : NodeState × Bytes :=
  match deserializeAppendEntriesArgs data with
  | none => (st, AppendEntriesReply.serialize ⟨st.currentTerm, false, 0, 0⟩)
  | some args =>
    let (st, reply) := handleAppendEntries args st
    (st, reply.serialize)

/-- `replicateTo` of the leader `id`, whose request and reply are not lost. -/
def replicateTo (id : NodeId) (peers : List NodeId) (peer : NodeId)
    (nodes : NodeState × NodeState) : NodeState × NodeState :=
  let (leader, follower) := nodes
  if leader.state ≠ .leader then (leader, follower)
  else
    let args := replicateArgs id peer leader
    let (follower, answer) := receiveAppendEntries args.serialize follower
    match deserializeAppendEntriesReply answer with
    | none => (leader, follower)
    | some reply =>
      (handleAppendReply peers peer (leader.nextIndex peer) args.entries.length reply leader,
        follower)

lemma replicateTo_stopped {id : NodeId} {peers : List NodeId} {peer : NodeId}
    {nodes : NodeState × NodeState} (hstopped : nodes.1.state ≠ .leader) :
    replicateTo id peers peer nodes = nodes := by
  unfold replicateTo
  exact if_pos hstopped

/-- The follower's log equals the leader's after some number of rounds. -/
def Repaired (id : NodeId) (peers : List NodeId) (peer : NodeId) (leader follower : NodeState) :
    Prop :=
  ∃ rounds, ((replicateTo id peers peer)^[rounds] (leader, follower)).2.log.entries =
    leader.log.entries

/-- Where the leader's search for the follower's log ends. Beyond the entries they share it
steps back one by one, or to the first entry of the term that conflicts. -/
def repairStart (leader follower : RaftLog) (next : Nat) : Nat :=
  let common := commonLength leader.entries follower.entries
  if next ≤ common then next
  else if follower.termAt common = 0 then common
  else conflictStart follower (follower.termAt common) common

/-- A leader and one of its followers: both logs start with the dummy entry and match, and the
next index is one the leader's log can have. All numbers have 64 bits, and the records of the
leader's entries have 32-bit lengths. -/
structure Replicating (id peer : NodeId) (leader follower : NodeState) : Prop where
  leads : leader.state = .leader
  leaderBase : leader.log.entries[0]? = some dummyEntry
  followerBase : follower.log.entries[0]? = some dummyEntry
  matching : Matching LogEntry.term leader.log.entries follower.log.entries
  next_pos : 1 ≤ leader.nextIndex peer
  next_le : leader.nextIndex peer ≤ leader.log.entries.length
  id_fits : id < 256 ^ 8
  leaderTerm : leader.currentTerm < 256 ^ 8
  followerTerm : follower.currentTerm < 256 ^ 8
  commit : leader.commitIndex < 256 ^ 8
  leaderLength : leader.log.entries.length < 256 ^ 8
  followerLength : follower.log.entries.length < 256 ^ 8
  leaderEntries : ∀ e ∈ leader.log.entries, e.Fits ∧ e.serialize.length < 256 ^ 4
  followerEntries : ∀ e ∈ follower.log.entries, e.Fits

/-- The follower is in a newer term, holds more than the leader, or the leader would have to
send more entries than one request may carry. -/
def Hopeless (peer : NodeId) (leader follower : NodeState) : Prop :=
  leader.currentTerm < follower.currentTerm ∨ leader.log.entries <+: follower.log.entries ∨
    maxEntries <
      leader.log.entries.length - repairStart leader.log follower.log (leader.nextIndex peer)

/-! ## The search -/

/-- The run of one term that ends at `prev` starts at `conflictStart`, from wherever in it the
search begins. -/
lemma conflictStart_run {t prev : Nat} (hpos : 0 < prev) (hterm : log.termAt prev = t) :
    conflictStart log t prev ≤ prev ∧ ∀ j, conflictStart log t prev ≤ j → j ≤ prev →
      log.termAt j = t ∧ conflictStart log t j = conflictStart log t prev := by
  induction prev with
  | zero => omega
  | succ i ih =>
    have hstep : conflictStart log t (i + 1) =
        if i + 1 = 1 then 1 else conflictStart log t i := by
      rw [conflictStart, if_neg (not_not_intro hterm)]
    have hself : ∀ j, i + 1 ≤ j → j ≤ i + 1 →
        log.termAt j = t ∧ conflictStart log t j = conflictStart log t (i + 1) := by
      intro j hge hle
      obtain rfl : j = i + 1 := le_antisymm hle hge
      exact ⟨hterm, rfl⟩
    by_cases hone : i + 1 = 1
    · rw [if_pos hone] at hstep
      exact ⟨by omega, fun j hge => hself j (by omega)⟩
    · rw [if_neg hone] at hstep
      by_cases hbefore : log.termAt i = t
      · obtain ⟨hle, hrun⟩ := ih (by omega) hbefore
        rw [hstep]
        refine ⟨by omega, fun j hge hj => ?_⟩
        rcases lt_or_ge i j with hlt | hji
        · rw [← hstep]
          exact hself j hlt hj
        · exact hrun j hge hji
      · obtain ⟨k, rfl⟩ : ∃ k, i = k + 1 := ⟨i - 1, by omega⟩
        have hhere : conflictStart log t (k + 1) = k + 2 := by
          rw [conflictStart, if_pos hbefore]
        rw [hstep, hhere]
        refine ⟨le_rfl, fun j hge hj => ?_⟩
        rw [← hhere, ← hstep]
        exact hself j hge hj

/-- The number of entries two logs share. -/
abbrev sharedLength (leader follower : RaftLog) : Nat :=
  commonLength leader.entries follower.entries

variable {leader follower : RaftLog} {next count : Nat}

lemma repairStart_of_le (hle : next ≤ sharedLength leader follower) :
    repairStart leader follower next = next := if_pos hle

lemma repairStart_of_gt (hgt : sharedLength leader follower < next) :
    repairStart leader follower next =
      if follower.termAt (sharedLength leader follower) = 0 then sharedLength leader follower
      else conflictStart follower (follower.termAt (sharedLength leader follower))
        (sharedLength leader follower) := if_neg (not_le.mpr hgt)

lemma repairStart_le (next : Nat) (hpos : 0 < sharedLength leader follower) :
    repairStart leader follower next ≤ next := by
  rcases lt_or_ge (sharedLength leader follower) next with hgt | hle
  · rw [repairStart_of_gt hgt]
    split
    · exact hgt.le
    · exact (conflictStart_run hpos rfl).1.trans hgt.le
  · rw [repairStart_of_le hle]

/-- Where the leader goes on after a refusal for its previous entry. -/
def stepBack (follower : RaftLog) (next : Nat) : Nat :=
  if follower.termAt (next - 1) = 0 then next - 1
  else conflictStart follower (follower.termAt (next - 1)) (next - 1)

/-- A step back stays above the entries that are shared, or ends where the search ends. -/
lemma repairStart_stepBack (hpos : 0 < sharedLength leader follower)
    (hgt : sharedLength leader follower < next) :
    repairStart leader follower (stepBack follower next) = repairStart leader follower next ∧
      1 ≤ stepBack follower next ∧ stepBack follower next < next := by
  set common := sharedLength leader follower with hcommon
  have hprev : 0 < next - 1 := by omega
  rw [repairStart_of_gt hgt, stepBack]
  by_cases hzero : follower.termAt (next - 1) = 0
  · rw [if_pos hzero]
    refine ⟨?_, hprev, by omega⟩
    rcases lt_or_ge common (next - 1) with hstill | hend
    · exact repairStart_of_gt hstill
    · obtain heq : next - 1 = common := by omega
      rw [heq] at hzero ⊢
      rw [if_pos hzero]
      exact repairStart_of_le le_rfl
  · rw [if_neg hzero]
    obtain ⟨hle, hrun⟩ :=
      conflictStart_run hprev (rfl : follower.termAt (next - 1) = follower.termAt (next - 1))
    refine ⟨?_, conflictStart_pos _ _ hprev, by omega⟩
    rcases lt_or_ge common (conflictStart follower (follower.termAt (next - 1)) (next - 1))
      with hstill | hend
    · exact repairStart_of_gt hstill
    · obtain ⟨hterm, hstart⟩ := hrun common hend (by omega)
      rw [repairStart_of_le hend, hterm, if_neg hzero, hstart]

/-! ## One round -/

section Conflict

variable {args : AppendEntriesArgs} {st : NodeState}

lemma logConflict_missing (hprev : args.prevLogIndex > 0)
    (hmissing : st.log.lastIndex < args.prevLogIndex) :
    logConflict args st = some ⟨st.currentTerm, false, 0, st.log.lastIndex + 1⟩ := by
  rw [logConflict, if_pos hprev, if_pos hmissing]

lemma logConflict_term (hprev : args.prevLogIndex > 0)
    (hthere : args.prevLogIndex ≤ st.log.lastIndex)
    (hterm : st.log.termAt args.prevLogIndex ≠ args.prevLogTerm) :
    logConflict args st = some ⟨st.currentTerm, false, st.log.termAt args.prevLogIndex,
      conflictStart st.log (st.log.termAt args.prevLogIndex) args.prevLogIndex⟩ := by
  rw [logConflict, if_pos hprev, if_neg (not_lt.mpr hthere), if_pos hterm]

lemma logConflict_there (hthere : args.prevLogIndex ≤ st.log.lastIndex)
    (hterm : st.log.termAt args.prevLogIndex = args.prevLogTerm) : logConflict args st = none := by
  rw [logConflict, if_neg (not_lt.mpr hthere), if_neg (not_not_intro hterm), ite_self]

end Conflict

/-- The follower that has stored all entries of a request. -/
abbrev stored (id peer : NodeId) (leader follower : NodeState) : NodeState :=
  storeEntries (replicateArgs id peer leader) (acceptLeader (replicateArgs id peer leader) follower)

/-- The leader that knows it. -/
abbrev caughtUp (peers : List NodeId) (peer : NodeId) (leader : NodeState) : NodeState :=
  updateCommitIndex peers ((leader.setNextIndex peer leader.log.entries.length).setMatchIndex peer
    (leader.log.entries.length - 1))

namespace Replicating

variable {id peer : NodeId} {peers : List NodeId} {leader follower : NodeState}

lemma common_pos (h : Replicating id peer leader follower) :
    0 < sharedLength leader.log follower.log := by
  refine lt_commonLength.mpr ⟨(List.getElem?_eq_some_iff.mp h.leaderBase).1, fun i hi => ?_⟩
  rw [Nat.le_zero.mp hi, h.leaderBase, h.followerBase]

lemma termAt_lt (hentries : ∀ e ∈ log.entries, e.Fits) (i : Nat) : log.termAt i < 256 ^ 8 := by
  unfold termAt
  split
  next e he => exact (hentries e (mem_of_getElem? he)).2
  · decide

lemma args_fits (h : Replicating id peer leader follower) :
    (replicateArgs id peer leader).Fits where
  term := h.leaderTerm
  leaderID := h.id_fits
  prevLogIndex := by
    have hlt := h.next_le.trans_lt h.leaderLength
    simp only [replicateArgs]
    omega
  prevLogTerm := termAt_lt (fun e he => (h.leaderEntries e he).1) _
  length := by
    refine lt_of_le_of_lt ?_ h.leaderLength
    simp only [replicateArgs, getFrom, length_drop]
    exact Nat.sub_le _ _
  leaderCommit := h.commit
  entries := fun e he => (h.leaderEntries e (mem_of_mem_drop he)).1

lemma length_args (leader : NodeState) : (replicateArgs id peer leader).entries.length =
    leader.log.entries.length - leader.nextIndex peer := length_drop

lemma not_oversized (hfew : leader.log.entries.length - leader.nextIndex peer ≤ maxEntries) :
    ¬ maxEntries < (replicateArgs id peer leader).entries.length :=
  not_lt.mpr ((length_args leader).trans_le hfew)

lemma not_stale (hterm : follower.currentTerm ≤ leader.currentTerm) :
    ¬ (replicateArgs id peer leader).term < follower.currentTerm := not_lt.mpr hterm

variable {follower' : NodeState}

/-- A round whose answer can be read. -/
lemma round_eq (h : Replicating id peer leader follower) (hfits : reply.Fits)
    (hreceive : receiveAppendEntries (replicateArgs id peer leader).serialize follower =
      (follower', reply.serialize)) :
    replicateTo id peers peer (leader, follower) =
      (handleAppendReply peers peer (leader.nextIndex peer)
        (replicateArgs id peer leader).entries.length reply leader, follower') := by
  unfold replicateTo
  dsimp only
  rw [if_neg (not_not_intro h.leads), hreceive]
  rw [deserializeAppendEntriesReply_serialize hfits]

lemma refusal_fits {term : Nat} (hterm : term < 256 ^ 8) :
    AppendEntriesReply.Fits ⟨term, false, 0, 0⟩ :=
  ⟨hterm, Nat.pow_pos (by decide), Nat.pow_pos (by decide)⟩

section

variable (h : Replicating id peer leader follower)
include h

lemma round_refused (hmany : maxEntries < leader.log.entries.length - leader.nextIndex peer) :
    replicateTo id peers peer (leader, follower) =
      (handleAppendReply peers peer (leader.nextIndex peer)
        (replicateArgs id peer leader).entries.length ⟨follower.currentTerm, false, 0, 0⟩ leader,
        follower) := by
  refine h.round_eq (refusal_fits h.followerTerm) ?_
  unfold receiveAppendEntries
  rw [deserializeAppendEntriesArgs_serialize h.args_fits, length_args, if_pos hmany]

lemma round_decoded (hfew : leader.log.entries.length - leader.nextIndex peer ≤ maxEntries)
    (hfits : (handleAppendEntries (replicateArgs id peer leader) follower).2.Fits) :
    replicateTo id peers peer (leader, follower) =
      (handleAppendReply peers peer (leader.nextIndex peer)
        (replicateArgs id peer leader).entries.length
        (handleAppendEntries (replicateArgs id peer leader) follower).2 leader,
        (handleAppendEntries (replicateArgs id peer leader) follower).1) := by
  refine h.round_eq hfits ?_
  have hdecoded : deserializeAppendEntriesArgs (replicateArgs id peer leader).serialize =
      some (replicateArgs id peer leader) :=
    deserializeAppendEntriesArgs_eq_some h.args_fits ((length_args leader).trans_le hfew)
      fun e he => (h.leaderEntries e (mem_of_mem_drop he)).2
  unfold receiveAppendEntries
  rw [hdecoded]

/-- A follower in a newer term refuses, and so does the decoder. -/
lemma round_newer (hnewer : leader.currentTerm < follower.currentTerm) :
    replicateTo id peers peer (leader, follower) =
      (leader.becomeFollower follower.currentTerm, follower) := by
  have hreply : ∀ count, handleAppendReply peers peer (leader.nextIndex peer) count
      ⟨follower.currentTerm, false, 0, 0⟩ leader = leader.becomeFollower follower.currentTerm :=
    fun _ => if_pos hnewer
  rcases lt_or_ge maxEntries (leader.log.entries.length - leader.nextIndex peer)
    with hmany | hfew
  · rw [h.round_refused hmany, hreply]
  · have hstale : handleAppendEntries (replicateArgs id peer leader) follower =
        (follower, ⟨follower.currentTerm, false, 0, 0⟩) := by
      unfold handleAppendEntries
      rw [if_neg (not_oversized hfew),
        if_pos (show (replicateArgs id peer leader).term < follower.currentTerm from hnewer)]
    rw [h.round_decoded hfew (hstale ▸ refusal_fits h.followerTerm), hstale]
    exact congrArg (·, follower) (hreply _)

end

section

variable (h : Replicating id peer leader follower)
include h

/-- Beyond the entries they share the previous entry is missing or has another term. -/
lemma logConflict_beyond {st : NodeState} (hlog : st.log = follower.log)
    (hterm : st.currentTerm = leader.currentTerm)
    (hgt : sharedLength leader.log follower.log < leader.nextIndex peer) :
    ∃ reply, logConflict (replicateArgs id peer leader) st = some reply ∧ reply.Fits ∧
      reply.term = leader.currentTerm ∧ reply.success = false ∧
      (if reply.conflictTerm > 0 then reply.conflictIndex else leader.nextIndex peer - 1) =
        stepBack follower.log (leader.nextIndex peer) := by
  have hcommon := h.common_pos
  have hlength := (List.getElem?_eq_some_iff.mp h.followerBase).1
  have hprev : leader.nextIndex peer - 1 > 0 := by omega
  have hbound := h.followerLength
  have hlast : st.log.lastIndex = follower.log.entries.length - 1 := by
    rw [hlog, lastIndex_eq hlength]
  rcases lt_or_ge (follower.log.entries.length - 1) (leader.nextIndex peer - 1)
    with hmissing | hthere
  · refine ⟨_, logConflict_missing hprev (hlast.trans_lt hmissing), ?_, hterm, rfl, ?_⟩
    · exact ⟨hterm.trans_lt h.leaderTerm, Nat.pow_pos (by decide), by dsimp only; omega⟩
    · rw [stepBack, termAt_eq_zero (by omega)]
      rfl
  · have hfollower : leader.nextIndex peer - 1 < follower.log.entries.length := by omega
    have hleader : leader.nextIndex peer - 1 < leader.log.entries.length := by
      have := h.next_le
      omega
    have hother : st.log.termAt (leader.nextIndex peer - 1) ≠
        leader.log.termAt (leader.nextIndex peer - 1) := by
      intro hsame
      rw [hlog, termAt_eq (List.getElem?_eq_getElem hfollower),
        termAt_eq (List.getElem?_eq_getElem hleader)] at hsame
      have hagree := h.matching _ _ _ (List.getElem?_eq_getElem hleader)
        (List.getElem?_eq_getElem hfollower) hsame.symm
      exact (lt_commonLength.mpr ⟨hleader, hagree⟩).not_ge (Nat.le_sub_one_of_lt hgt)
    have hstart : conflictStart follower.log (follower.log.termAt (leader.nextIndex peer - 1))
        (leader.nextIndex peer - 1) ≤ leader.nextIndex peer - 1 := (conflictStart_run hprev rfl).1
    refine ⟨_, logConflict_term hprev (hthere.trans_eq hlast.symm) hother, ?_, hterm, rfl, ?_⟩
    · refine ⟨hterm.trans_lt h.leaderTerm, hlog ▸ termAt_lt h.followerEntries _, ?_⟩
      rw [hlog]
      exact hstart.trans_lt (by omega)
    · rw [hlog, stepBack]
      by_cases hzero : follower.log.termAt (leader.nextIndex peer - 1) = 0
      · rw [if_pos hzero, if_neg (hzero.symm ▸ lt_irrefl 0)]
      · rw [if_neg hzero]
        exact if_pos (Nat.pos_of_ne_zero hzero)

/-- Up to the entries they share the previous entry is there. -/
lemma logConflict_within {st : NodeState} (hlog : st.log = follower.log)
    (hle : leader.nextIndex peer ≤ sharedLength leader.log follower.log) :
    logConflict (replicateArgs id peer leader) st = none := by
  have hlength := (List.getElem?_eq_some_iff.mp h.followerBase).1
  have hpos := h.next_pos
  obtain ⟨hleader, hagree⟩ := lt_commonLength.mp
    (show leader.nextIndex peer - 1 < sharedLength leader.log follower.log by omega)
  have hfollower := hagree.lt_length hleader
  have hsame : follower.log.termAt (leader.nextIndex peer - 1) =
      leader.log.termAt (leader.nextIndex peer - 1) := by
    unfold termAt
    rw [hagree _ le_rfl]
  have hlast : st.log.lastIndex = follower.log.entries.length - 1 := by
    rw [hlog, lastIndex_eq hlength]
  exact logConflict_there (hlast ▸ Nat.le_sub_one_of_lt hfollower) (hlog ▸ hsame)

/-- What the follower holds after it has accepted. -/
lemma accepted_entries : (stored id peer leader follower).log.entries =
      reconcile LogEntry.term follower.log.entries (leader.nextIndex peer)
        (leader.log.entries.drop (leader.nextIndex peer)) := by
  have hlength := (List.getElem?_eq_some_iff.mp h.followerBase).1
  rw [stored, storeEntries_eq, (acceptLeader_same (replicateArgs id peer leader) follower).log]
  rw [appendEntriesFrom_entries _ _ _ hlength]
  simp only [replicateArgs, getFrom, Nat.sub_add_cancel h.next_pos]

lemma accepted_cases
    (hle : leader.nextIndex peer ≤ sharedLength leader.log follower.log) :
    let after := (stored id peer leader follower).log.entries
    (leader.log.entries <+: follower.log.entries → after = follower.log.entries) ∧
      (¬ leader.log.entries <+: follower.log.entries → after = leader.log.entries) := by
  have hpos := h.next_pos
  obtain ⟨hleader, hagree⟩ := lt_commonLength.mp
    (show leader.nextIndex peer - 1 < sharedLength leader.log follower.log by omega)
  have hmatch : Matching LogEntry.term follower.log.entries leader.log.entries :=
    fun i a b ha hb heq => (h.matching i b a hb ha heq.symm).symm
  have hreconcile := reconcile_drop hmatch hagree.symm (hagree.lt_length hleader)
  rw [Nat.sub_add_cancel hpos, ← h.accepted_entries] at hreconcile
  exact hreconcile

section

variable (hfew : leader.log.entries.length - leader.nextIndex peer ≤ maxEntries)
  (hterm : follower.currentTerm ≤ leader.currentTerm)
include hfew hterm

omit h in
lemma handleAppendEntries_of_conflict (hconflict : logConflict (replicateArgs id peer leader)
      (acceptLeader (replicateArgs id peer leader) follower) = some reply) :
    handleAppendEntries (replicateArgs id peer leader) follower =
      (acceptLeader (replicateArgs id peer leader) follower, reply) := by
  unfold handleAppendEntries
  rw [if_neg (not_oversized hfew), if_neg (not_stale hterm)]
  dsimp only
  rw [hconflict]

lemma round_conflict
    (hgt : sharedLength leader.log follower.log < leader.nextIndex peer) :
    replicateTo id peers peer (leader, follower) =
      (leader.setNextIndex peer (stepBack follower.log (leader.nextIndex peer)),
        acceptLeader (replicateArgs id peer leader) follower) := by
  have hcommon := h.common_pos
  obtain ⟨reply, hconflict, hfits, hreplyTerm, hsuccess, hnext⟩ := h.logConflict_beyond
    (acceptLeader_same (replicateArgs id peer leader) follower).log (acceptLeader_term hterm) hgt
  have hhandled := handleAppendEntries_of_conflict hfew hterm hconflict
  have hreply : handleAppendReply peers peer (leader.nextIndex peer)
      (replicateArgs id peer leader).entries.length reply leader =
        leader.setNextIndex peer (stepBack follower.log (leader.nextIndex peer)) := by
    unfold handleAppendReply
    rw [if_neg (by omega), if_neg (by simp [hsuccess]), ← hnext]
    split
    · rfl
    · rw [if_pos (by omega)]
  rw [h.round_decoded hfew (by rw [hhandled]; exact hfits), hhandled]
  exact congrArg (·, acceptLeader (replicateArgs id peer leader) follower) hreply

lemma round_accepted
    (hle : leader.nextIndex peer ≤ sharedLength leader.log follower.log) :
    replicateTo id peers peer (leader, follower) =
      (caughtUp peers peer leader, stored id peer leader follower) := by
  have hnone := h.logConflict_within
    (acceptLeader_same (replicateArgs id peer leader) follower).log hle
  have hhandled : handleAppendEntries (replicateArgs id peer leader) follower =
      (stored id peer leader follower, ⟨leader.currentTerm, true, 0, 0⟩) := by
    unfold handleAppendEntries
    rw [if_neg (not_oversized hfew), if_neg (not_stale hterm)]
    dsimp only
    rw [hnone, acceptLeader_term hterm]
    rfl
  have hreply : handleAppendReply peers peer (leader.nextIndex peer)
      (replicateArgs id peer leader).entries.length ⟨leader.currentTerm, true, 0, 0⟩ leader =
        caughtUp peers peer leader := by
    unfold handleAppendReply
    rw [if_neg (lt_irrefl _), if_pos rfl, length_args, Nat.add_sub_cancel' h.next_le]
  have hfits : AppendEntriesReply.Fits ⟨leader.currentTerm, true, 0, 0⟩ :=
    ⟨h.leaderTerm, Nat.pow_pos (by decide), Nat.pow_pos (by decide)⟩
  rw [h.round_decoded hfew (by rw [hhandled]; exact hfits), hhandled, hreply]

end

/-! ## All rounds -/

/-- The pair after a round in which neither log has changed. -/
lemma moved {leader' : NodeState} (hstate : leader'.state = leader.state)
    (hterm : leader'.currentTerm = leader.currentTerm) (hlog : leader'.log = leader.log)
    (hcommit : leader'.commitIndex < 256 ^ 8) (hpos : 1 ≤ leader'.nextIndex peer)
    (hle : leader'.nextIndex peer ≤ leader.log.entries.length)
    (hfollower : follower'.log.entries = follower.log.entries)
    (hnewTerm : follower'.currentTerm < 256 ^ 8) : Replicating id peer leader' follower' where
  leads := hstate.trans h.leads
  leaderBase := hlog ▸ h.leaderBase
  followerBase := hfollower ▸ h.followerBase
  matching := by rw [hlog, hfollower]; exact h.matching
  next_pos := hpos
  next_le := by rw [hlog]; exact hle
  id_fits := h.id_fits
  leaderTerm := hterm ▸ h.leaderTerm
  followerTerm := hnewTerm
  commit := hcommit
  leaderLength := by rw [hlog]; exact h.leaderLength
  followerLength := by rw [hfollower]; exact h.followerLength
  leaderEntries := by rw [hlog]; exact h.leaderEntries
  followerEntries := by rw [hfollower]; exact h.followerEntries

/-- A step back of the leader. -/
lemma setNextIndex (hpos : 1 ≤ next) (hle : next ≤ leader.log.entries.length)
    (hfollower : follower'.log.entries = follower.log.entries)
    (hnewTerm : follower'.currentTerm < 256 ^ 8) :
    Replicating id peer (leader.setNextIndex peer next) follower' := by
  have hnext : (leader.setNextIndex peer next).nextIndex peer = next := Function.update_self ..
  exact h.moved rfl rfl rfl h.commit (hnext.symm ▸ hpos) (hnext.trans_le hle) hfollower hnewTerm

/-- The pair after a refusal for the previous entry. -/
lemma stepsBack (hterm : follower.currentTerm ≤ leader.currentTerm)
    (hgt : sharedLength leader.log follower.log < leader.nextIndex peer) :
    let leader' := leader.setNextIndex peer (stepBack follower.log (leader.nextIndex peer))
    let follower' := acceptLeader (replicateArgs id peer leader) follower
    Replicating id peer leader' follower' ∧ leader'.nextIndex peer < leader.nextIndex peer ∧
      (Hopeless peer leader' follower' ↔ Hopeless peer leader follower) := by
  intro leader' follower'
  obtain ⟨hsame, hpos, hlt⟩ := repairStart_stepBack h.common_pos hgt
  have hlog : follower'.log = follower.log := (acceptLeader_same _ _).log
  have hnewTerm : follower'.currentTerm = leader.currentTerm := acceptLeader_term hterm
  have hnext : leader'.nextIndex peer = stepBack follower.log (leader.nextIndex peer) :=
    Function.update_self ..
  refine ⟨h.setNextIndex hpos (hlt.le.trans h.next_le) (congrArg entries hlog)
    (hnewTerm.trans_lt h.leaderTerm), hnext.trans_lt hlt, ?_⟩
  unfold Hopeless
  rw [hnext, hlog, hnewTerm]
  simp only [leader', NodeState.setNextIndex_log, NodeState.setNextIndex_currentTerm, hsame,
    lt_irrefl, not_lt.mpr hterm]

/-- The search ends, and the follower takes over the leader's log. -/
lemma repaired (hhope : ¬ Hopeless peer leader follower) :
    Repaired id peers peer leader follower := by
  obtain ⟨next, hnext⟩ : ∃ next, leader.nextIndex peer = next := ⟨_, rfl⟩
  induction next using Nat.strong_induction_on generalizing leader follower with
  | _ next ih =>
  obtain ⟨hterm, hextends, hcount⟩ := by
    rw [Hopeless, not_or, not_or, not_lt] at hhope
    exact hhope
  have hstart := repairStart_le (leader.nextIndex peer) h.common_pos
  have hfew : leader.log.entries.length - leader.nextIndex peer ≤ maxEntries := by omega
  rcases lt_or_ge (sharedLength leader.log follower.log)
    (leader.nextIndex peer) with hgt | hle
  · obtain ⟨hback, hlt, hsame⟩ := h.stepsBack hterm hgt
    obtain ⟨rounds, hrounds⟩ := ih _ (hnext ▸ hlt) hback (mt hsame.mp hhope) rfl
    refine ⟨rounds + 1, ?_⟩
    rw [Function.iterate_succ_apply, h.round_conflict hfew hterm hgt]
    exact hrounds
  · refine ⟨1, ?_⟩
    rw [Function.iterate_one, h.round_accepted hfew hterm hle]
    exact (h.accepted_cases hle).2 hextends

/-- The pair after an accepted request that has changed nothing. -/
lemma accepted_pair (hterm : follower.currentTerm ≤ leader.currentTerm)
    (hkept : (stored id peer leader follower).log.entries = follower.log.entries) :
    let leader' := caughtUp peers peer leader
    Replicating id peer leader' (stored id peer leader follower) ∧ leader'.log = leader.log := by
  intro leader'
  have hlength := (List.getElem?_eq_some_iff.mp h.leaderBase).1
  have hbound := h.leaderLength
  have hkeeps : leader' = _ := updateCommitIndex_eq _ _
  have hlog : leader'.log = leader.log := by rw [hkeeps]; rfl
  have hnext : leader'.nextIndex peer = leader.log.entries.length := by
    rw [hkeeps]
    exact Function.update_self ..
  have hcommit : leader'.commitIndex < 256 ^ 8 := by
    rcases updateCommitIndex_cases peers ((leader.setNextIndex peer
      leader.log.entries.length).setMatchIndex peer (leader.log.entries.length - 1))
      with hsame | ⟨idx, hidx, _, hle, _⟩
    · rw [show leader' = _ from hsame]
      exact h.commit
    · rw [show leader' = _ from hidx]
      have hlast : leader.log.lastIndex = leader.log.entries.length - 1 :=
        lastIndex_eq hlength
      exact (hle.trans_eq hlast).trans_lt (by omega)
  refine ⟨h.moved (by rw [hkeeps]; rfl) (by rw [hkeeps]; rfl) hlog hcommit (by omega) hnext.le
    hkept ?_, hlog⟩
  rw [stored, storeEntries_eq]
  exact (acceptLeader_term hterm).trans_lt h.leaderTerm

/-- Without hope a round leaves the follower's log as it is, and no hope. -/
lemma hopeless_round (hopeless : Hopeless peer leader follower) :
    let nodes := replicateTo id peers peer (leader, follower)
    nodes.2.log.entries = follower.log.entries ∧ (nodes.1.state ≠ .leader ∨
      (Replicating id peer nodes.1 nodes.2 ∧ Hopeless peer nodes.1 nodes.2)) := by
  intro nodes
  rcases lt_or_ge leader.currentTerm follower.currentTerm with hnewer | hterm
  · have hround : nodes = _ := h.round_newer hnewer
    rw [hround]
    exact ⟨rfl, .inl (by simp)⟩
  rcases lt_or_ge maxEntries (leader.log.entries.length - leader.nextIndex peer)
    with hmany | hfew
  · have hround : nodes = _ := h.round_refused hmany
    -- whatever the next index becomes, the request does not get smaller
    have hstill : ∀ next, next ≤ leader.nextIndex peer →
        maxEntries < leader.log.entries.length - repairStart leader.log follower.log next := by
      intro next hle
      have hstart := repairStart_le next h.common_pos
      omega
    rw [hround]
    refine ⟨rfl, .inr ?_⟩
    unfold handleAppendReply
    rw [if_neg (not_lt.mpr hterm), if_neg (by simp), if_neg (by simp)]
    split
    next hgt =>
      have hnext : (leader.setNextIndex peer (leader.nextIndex peer - 1)).nextIndex peer =
          leader.nextIndex peer - 1 := Function.update_self ..
      refine ⟨h.setNextIndex (by omega) ((Nat.sub_le _ _).trans h.next_le) rfl h.followerTerm,
        .inr (.inr ?_)⟩
      rw [hnext]
      exact hstill _ (Nat.sub_le _ _)
    · exact ⟨h, .inr (.inr (hstill _ le_rfl))⟩
  rcases lt_or_ge (sharedLength leader.log follower.log)
    (leader.nextIndex peer) with hgt | hle
  · have hround : nodes = _ := h.round_conflict hfew hterm hgt
    obtain ⟨hback, _, hsame⟩ := h.stepsBack hterm hgt
    rw [hround]
    exact ⟨congrArg entries (acceptLeader_same _ _).log, .inr ⟨hback, hsame.mpr hopeless⟩⟩
  · have hround : nodes = _ := h.round_accepted hfew hterm hle
    have hextends : leader.log.entries <+: follower.log.entries := by
      rcases hopeless with hnewer | hextends | hmany
      · omega
      · exact hextends
      · rw [repairStart_of_le hle] at hmany
        omega
    have hkept := (h.accepted_cases hle).1 hextends
    rw [hround]
    obtain ⟨hpair, hlog⟩ := h.accepted_pair hterm hkept
    exact ⟨hkept, .inr ⟨hpair, .inr (.inl (by rw [hlog, hkept]; exact hextends))⟩⟩

/-- Without hope the follower's log never changes. -/
lemma not_repaired (hopeless : Hopeless peer leader follower)
    (hne : follower.log.entries ≠ leader.log.entries) :
    ¬ Repaired id peers peer leader follower := by
  have hrounds : ∀ rounds, let nodes := (replicateTo id peers peer)^[rounds] (leader, follower)
      nodes.2.log.entries = follower.log.entries ∧ (nodes.1.state ≠ .leader ∨
        (Replicating id peer nodes.1 nodes.2 ∧ Hopeless peer nodes.1 nodes.2)) := by
    intro rounds
    induction rounds with
    | zero => exact ⟨rfl, .inr ⟨h, hopeless⟩⟩
    | succ rounds ih =>
      rw [Function.iterate_succ_apply']
      obtain ⟨hlog, hstopped | ⟨hpair, hstill⟩⟩ := ih
      · rw [replicateTo_stopped hstopped]
        exact ⟨hlog, .inl hstopped⟩
      · obtain ⟨hlog', hnext⟩ := hpair.hopeless_round hstill
        exact ⟨hlog'.trans hlog, hnext⟩
  rintro ⟨rounds, hequal⟩
  exact hne ((hrounds rounds).1.symm.trans hequal)

end

end Replicating

/-- Over the wire format and without losses, rounds of replication end with equal logs exactly
if they are equal at the start or there is hope. -/
theorem repaired_iff (id : NodeId) (peers : List NodeId) (peer : NodeId)
    (leader follower : NodeState) (hpair : Replicating id peer leader follower) :
    Repaired id peers peer leader follower ↔
      follower.log.entries = leader.log.entries ∨ ¬ Hopeless peer leader follower := by
  constructor
  · intro hrepaired
    by_contra hnot
    rw [not_or, not_not] at hnot
    exact hpair.not_repaired hnot.2 hnot.1 hrepaired
  · rintro (hequal | hhope)
    · exact ⟨0, hequal⟩
    · exact hpair.repaired hhope

/-- A new leader of term 2 over a log, and a follower of term 1. -/
def leaderOver (entries : List LogEntry) : NodeState :=
  { NodeState.new with
    currentTerm := 2, state := .leader, log := ⟨entries, none⟩
    nextIndex := fun _ => entries.length }

def followerOver (entries : List LogEntry) : NodeState :=
  { NodeState.new with currentTerm := 1, log := ⟨entries, none⟩ }

/-- The log of a leader that has appended `count` no-op entries in term 1. -/
def noops (count : Nat) : List LogEntry :=
  dummyEntry :: (List.range count).map fun i => ⟨i + 1, 1, logEntryNoop, []⟩

lemma length_noops (count : Nat) : (noops count).length = count + 1 := by simp [noops]

lemma noops_fits (hcount : count < 2 ^ 32) :
    ∀ e ∈ noops count, e.Fits ∧ e.serialize.length < 256 ^ 4 := by
  intro e he
  rcases mem_cons.mp he with rfl | he
  · exact ⟨by simp [LogEntry.Fits, dummyEntry], by decide⟩
  · obtain ⟨i, hi, rfl⟩ := mem_map.mp he
    have hlt := mem_range.mp hi
    refine ⟨⟨?_, Nat.one_lt_two_pow (by decide)⟩, ?_⟩
    · dsimp only
      omega
    · simp [LogEntry.length_serialize]

lemma replicating_noops (hcount : count < 2 ^ 32) :
    Replicating 1 2 (leaderOver (noops count)) (followerOver [dummyEntry]) where
  leads := rfl
  leaderBase := rfl
  followerBase := rfl
  matching := by
    intro i a b ha hb _ j hj
    obtain ⟨rfl, _⟩ := Option.ite_none_right_eq_some.mp (getElem?_singleton ▸ hb)
    obtain rfl := Nat.le_zero.mp hj
    rfl
  next_pos := by simp [leaderOver, length_noops]
  next_le := le_rfl
  id_fits := by decide
  leaderTerm := by simp [leaderOver]
  followerTerm := by decide
  commit := by simp [leaderOver, NodeState.new]
  leaderLength := by
    simp only [leaderOver, length_noops]
    omega
  followerLength := by decide
  leaderEntries := noops_fits hcount
  followerEntries := by
    intro e he
    rw [mem_singleton.mp he]
    simp [LogEntry.Fits, dummyEntry]

/-- An empty follower has to get all entries in one request. -/
lemma repairStart_noops (count : Nat) :
    repairStart (leaderOver (noops count)).log (followerOver [dummyEntry]).log (count + 1) = 1 := by
  have hcommon : commonLength (noops count) [dummyEntry] = 1 := by
    rw [noops]
    cases (range count).map _ <;> rfl
  unfold repairStart
  simp only [leaderOver, followerOver, hcommon]
  split
  · omega
  · rfl

lemma hopeless_noops (hpos : 0 < count) :
    Hopeless 2 (leaderOver (noops count)) (followerOver [dummyEntry]) ↔ maxEntries < count := by
  have hnext : (leaderOver (noops count)).nextIndex 2 = count + 1 := length_noops count
  have hlength : (leaderOver (noops count)).log.entries.length = count + 1 := length_noops count
  have hlonger : ¬ (leaderOver (noops count)).log.entries <+:
      (followerOver [dummyEntry]).log.entries := by
    intro hextends
    have hle := hextends.length_le
    simp only [followerOver, length_singleton] at hle
    omega
  have hterm : ¬ (leaderOver (noops count)).currentTerm <
      (followerOver [dummyEntry]).currentTerm := by simp [leaderOver, followerOver]
  rw [Hopeless, hnext, repairStart_noops, hlength, Nat.add_sub_cancel]
  simp only [hterm, hlonger, false_or]

/-- Three missing entries are sent at once. -/
theorem repaired_iff_three_noops :
    Replicating 1 2 (leaderOver (noops 3)) (followerOver [dummyEntry]) ∧
      Repaired 1 [2] 2 (leaderOver (noops 3)) (followerOver [dummyEntry]) := by
  have hpair := replicating_noops (show 3 < 2 ^ 32 by decide)
  refine ⟨hpair, (repaired_iff 1 [2] 2 _ _ hpair).mpr (.inr ?_)⟩
  rw [hopeless_noops (by decide)]
  decide

/-- With one entry more than a request may carry the logs never become equal. -/
theorem noops_never_repaired :
    Replicating 1 2 (leaderOver (noops 10001)) (followerOver [dummyEntry]) ∧
      ¬ Repaired 1 [2] 2 (leaderOver (noops 10001)) (followerOver [dummyEntry]) := by
  have hpair := replicating_noops (show 10001 < 2 ^ 32 by decide)
  refine ⟨hpair, hpair.not_repaired ((hopeless_noops (by decide)).mpr (by decide)) ?_⟩
  intro hequal
  have hlength := congrArg List.length hequal
  rw [show (leaderOver (noops 10001)).log.entries.length = 10001 + 1 from length_noops 10001]
    at hlength
  cases hlength

end Oba.Raft
