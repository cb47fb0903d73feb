import Oba.Library.TermLog
import Oba.Raft.State

/-! # The handlers of a Raft node

`node.go`: each RPC handler, the reply processing of `replicateTo`, the commit rule and
the leader transition, as functions on `NodeState`. The arguments of the RPCs are those
of `rpc.go`; of their byte format only the refusal of oversized batches matters here.
-/

namespace Oba.Raft

structure RequestVoteArgs where
  term : Nat
  candidateID : NodeId
  lastLogIndex : Nat
  lastLogTerm : Nat
  deriving DecidableEq, Repr

structure RequestVoteReply where
  term : Nat
  voteGranted : Bool
  deriving DecidableEq, Repr

structure AppendEntriesArgs where
  term : Nat
  leaderID : NodeId
  prevLogIndex : Nat
  prevLogTerm : Nat
  entries : List LogEntry
  leaderCommit : Nat
  deriving DecidableEq, Repr

structure AppendEntriesReply where
  term : Nat
  success : Bool
  conflictTerm : Nat
  conflictIndex : Nat
  deriving DecidableEq, Repr

/-! ## RequestVote -/

/-- The term update both handlers start with. -/
def updateTerm (term : Nat) (s : NodeState) : NodeState :=
  if term > s.currentTerm then s.becomeFollower term else s

/-- Whether the node may vote for the candidate and the candidate's log is at least as
up to date as the node's. -/
def canVote (args : RequestVoteArgs) (s : NodeState) : Bool :=
  (s.votedFor = 0 || s.votedFor = args.candidateID) && (args.lastLogTerm > s.log.lastTerm ||
      (args.lastLogTerm = s.log.lastTerm && args.lastLogIndex ≥ s.log.lastIndex))

def handleRequestVote (args : RequestVoteArgs) (s : NodeState) : NodeState × RequestVoteReply :=
  if args.term < s.currentTerm then (s, ⟨s.currentTerm, false⟩)
  else
    let s := updateTerm args.term s
    if canVote args s then (s.setVotedFor args.candidateID, ⟨s.currentTerm, true⟩)
    else (s, ⟨s.currentTerm, false⟩)

/-! ## AppendEntries -/

/-- `DeserializeAppendEntriesArgs` refuses a batch of more than this many entries. -/
def maxEntries : Nat := 10000

/-- A node that hears from a leader of its own term stops being a candidate. -/
def acceptLeader (args : AppendEntriesArgs) (s : NodeState) : NodeState :=
  let s := if args.term > s.currentTerm then s.becomeFollower args.term
    else if s.state = .candidate then s.becomeFollower args.term
    else s
  s.setLeaderID args.leaderID

/-- The search for the first index of the conflicting term. -/
def conflictStart (log : RaftLog) (conflictTerm : Nat) : Nat → Nat
  | 0 => 0
  | i + 1 =>
    if log.termAt (i + 1) ≠ conflictTerm then i + 2
    else if i + 1 = 1 then 1
    else conflictStart log conflictTerm i

/-- The refusal for a previous entry that is missing or has another term. -/
def logConflict (args : AppendEntriesArgs) (s : NodeState) : Option AppendEntriesReply :=
  if args.prevLogIndex > 0 then
    if args.prevLogIndex > s.log.lastIndex then
      some ⟨s.currentTerm, false, 0, s.log.lastIndex + 1⟩
    else if s.log.termAt args.prevLogIndex ≠ args.prevLogTerm then
      let conflictTerm := s.log.termAt args.prevLogIndex
      some ⟨s.currentTerm, false, conflictTerm, conflictStart s.log conflictTerm args.prevLogIndex⟩
    else none
  else none

/-- The loop over the received entries, from index `idx` on. -/
def appendEntriesFrom : RaftLog → Nat → List LogEntry → RaftLog
  | log, _, [] => log
  | log, idx, entry :: rest =>
    if idx ≤ log.lastIndex then
      if log.termAt idx ≠ entry.term then
        appendEntriesFrom ((log.truncateFrom idx).append entry) (idx + 1) rest
      else appendEntriesFrom log (idx + 1) rest
    else appendEntriesFrom (log.append entry) (idx + 1) rest

def followCommit (leaderCommit : Nat) (s : NodeState) : NodeState :=
  if leaderCommit > s.commitIndex then
    s.setCommitIndex (if s.log.lastIndex < leaderCommit then s.log.lastIndex else leaderCommit)
  else s

/-- Storing the entries once the previous one matches, and learning the commit index. -/
def storeEntries (args : AppendEntriesArgs) (s : NodeState) : NodeState :=
  followCommit args.leaderCommit
    { s with log := appendEntriesFrom s.log (args.prevLogIndex + 1) args.entries }

def handleAppendEntries (args : AppendEntriesArgs) (s : NodeState) :
    NodeState × AppendEntriesReply :=
  if maxEntries < args.entries.length then (s, ⟨s.currentTerm, false, 0, 0⟩)
  else if args.term < s.currentTerm then (s, ⟨s.currentTerm, false, 0, 0⟩)
  else
    let s := acceptLeader args s
    match logConflict args s with
    | some reply => (s, reply)
    | none => (storeEntries args s, ⟨s.currentTerm, true, 0, 0⟩)

/-! ## Leading -/

/-- The transition to leader: fresh indices for the peers and a no-op entry of the term. -/
def becomeLeader (id : NodeId) (peers : List NodeId) (s : NodeState) : NodeState :=
  let s := (s.becomeLeader id).initLeaderState peers
  s.appendEntry ⟨s.log.lastIndex + 1, s.currentTerm, logEntryNoop, []⟩

/-- What `replicateTo` sends to a peer. -/
def replicateArgs (id : NodeId) (peer : NodeId) (s : NodeState) : AppendEntriesArgs :=
  { term := s.currentTerm
    leaderID := id
    prevLogIndex := s.nextIndex peer - 1
    prevLogTerm := s.log.termAt (s.nextIndex peer - 1)
    entries := s.log.getFrom (s.nextIndex peer)
    leaderCommit := s.commitIndex }

/-- Whether a majority holds index `idx`: this node and the peers whose match index
reaches it. -/
def replicatedOnMajority (peers : List NodeId) (s : NodeState) (idx : Nat) : Bool :=
  peers.isEmpty || 1 + peers.countP (fun p => s.matchIndex p ≥ idx) > (peers.length + 1) / 2

/-- The highest index above the commit index, at most `idx`, with an entry of the current
term that a majority holds. -/
def findCommit (peers : List NodeId) (s : NodeState) : Nat → Option Nat
  | 0 => none
  | idx + 1 =>
    if idx + 1 > s.commitIndex then
      if s.log.termAt (idx + 1) = s.currentTerm ∧ replicatedOnMajority peers s (idx + 1) then
        some (idx + 1)
      else findCommit peers s idx
    else none

def updateCommitIndex (peers : List NodeId) (s : NodeState) : NodeState :=
  match findCommit peers s s.log.lastIndex with
  | some idx => s.setCommitIndex idx
  | none => s

/-- What `replicateTo` does with a reply. `nextIndex` and `count` are what it captured when
it sent the request; the node may have changed its state and term since. -/
def handleAppendReply (peers : List NodeId) (peer : NodeId) (nextIndex count : Nat)
    (reply : AppendEntriesReply) (s : NodeState) : NodeState :=
  if reply.term > s.currentTerm then s.becomeFollower reply.term
  else if reply.success then
    updateCommitIndex peers
      ((s.setNextIndex peer (nextIndex + count)).setMatchIndex peer (nextIndex + count - 1))
  else if reply.conflictTerm > 0 then s.setNextIndex peer reply.conflictIndex
  else if s.nextIndex peer > 1 then s.setNextIndex peer (s.nextIndex peer - 1)
  else s

/-- The log and commit part of `appendCommandAndTrack`. -/
def appendCommand (peers : List NodeId) (data : List UInt8) (s : NodeState) : NodeState :=
  updateCommitIndex peers
    (s.appendEntry ⟨s.log.lastIndex + 1, s.currentTerm, logEntryCommand, data⟩)

/-! ## Roles

Apart from starting an election and winning one, a node ends every handler as a follower or
keeps its role and term. -/

def RoleKept (s s' : NodeState) : Prop :=
  s'.state = .follower ∨ (s'.state = s.state ∧ s'.currentTerm = s.currentTerm)

lemma RoleKept.refl (s : NodeState) : RoleKept s s := .inr ⟨rfl, rfl⟩

section

variable {s s' : NodeState} (h : RoleKept s s')
include h

lemma RoleKept.of_ne_follower (hne : s'.state ≠ .follower) :
    s'.state = s.state ∧ s'.currentTerm = s.currentTerm :=
  h.resolve_left hne

lemma RoleKept.of_leader (hlead : s'.state = .leader) :
    s.state = .leader ∧ s'.currentTerm = s.currentTerm := by
  obtain ⟨hstate, hterm⟩ := h.of_ne_follower (by simp [hlead])
  exact ⟨hstate ▸ hlead, hterm⟩

lemma RoleKept.of_candidate (hcand : s'.state = .candidate) :
    s.state = .candidate ∧ s'.currentTerm = s.currentTerm := by
  obtain ⟨hstate, hterm⟩ := h.of_ne_follower (by simp [hcand])
  exact ⟨hstate ▸ hcand, hterm⟩

end

lemma updateTerm_role (term : Nat) (s : NodeState) : RoleKept s (updateTerm term s) := by
  unfold updateTerm
  split
  · exact .inl rfl
  · exact RoleKept.refl s

lemma handleRequestVote_role (args : RequestVoteArgs) (s : NodeState) :
    RoleKept s (handleRequestVote args s).1 := by
  unfold handleRequestVote
  split
  · exact RoleKept.refl s
  · dsimp only
    split <;> exact updateTerm_role args.term s

lemma acceptLeader_role (args : AppendEntriesArgs) (s : NodeState) :
    RoleKept s (acceptLeader args s) := by
  unfold acceptLeader
  split
  · exact .inl rfl
  · split
    · exact .inl rfl
    · exact RoleKept.refl s

/-! ## Frames

Voting and changing roles leaves the log and the indices alone. The commit rules change the
commit index and nothing else. -/

structure SameIndices (s s' : NodeState) : Prop where
  log : s'.log = s.log
  nextIndex : s'.nextIndex = s.nextIndex
  matchIndex : s'.matchIndex = s.matchIndex
  commitIndex : s'.commitIndex = s.commitIndex

lemma SameIndices.refl (s : NodeState) : SameIndices s s := ⟨rfl, rfl, rfl, rfl⟩

lemma updateTerm_same (term : Nat) (s : NodeState) : SameIndices s (updateTerm term s) := by
  unfold updateTerm
  split <;> exact ⟨rfl, rfl, rfl, rfl⟩

lemma handleRequestVote_same (args : RequestVoteArgs) (s : NodeState) :
    SameIndices s (handleRequestVote args s).1 := by
  obtain ⟨hlog, hnext, hmatch, hcommit⟩ := updateTerm_same args.term s
  unfold handleRequestVote
  split
  · exact SameIndices.refl s
  · dsimp only
    split <;> exact ⟨hlog, hnext, hmatch, hcommit⟩

lemma acceptLeader_same (args : AppendEntriesArgs) (s : NodeState) :
    SameIndices s (acceptLeader args s) := by
  unfold acceptLeader
  split
  · exact ⟨rfl, rfl, rfl, rfl⟩
  · split <;> exact ⟨rfl, rfl, rfl, rfl⟩

lemma followCommit_eq (leaderCommit : Nat) (s : NodeState) :
    followCommit leaderCommit s = s.setCommitIndex (followCommit leaderCommit s).commitIndex := by
  unfold followCommit
  split <;> rfl

lemma updateCommitIndex_eq (peers : List NodeId) (s : NodeState) :
    updateCommitIndex peers s = s.setCommitIndex (updateCommitIndex peers s).commitIndex := by
  unfold updateCommitIndex
  split <;> rfl

lemma storeEntries_eq (args : AppendEntriesArgs) (s : NodeState) :
    storeEntries args s = { s with
        log := appendEntriesFrom s.log (args.prevLogIndex + 1) args.entries
        commitIndex := (storeEntries args s).commitIndex } := by
  unfold storeEntries
  rw [followCommit_eq]
  rfl

lemma handleAppendEntries_role (args : AppendEntriesArgs) (s : NodeState) :
    RoleKept s (handleAppendEntries args s).1 := by
  unfold handleAppendEntries
  split
  · exact RoleKept.refl s
  · split
    · exact RoleKept.refl s
    · dsimp only
      split
      · exact acceptLeader_role args s
      · rw [storeEntries_eq]
        exact acceptLeader_role args s

lemma handleAppendReply_role (peers : List NodeId) (peer : NodeId) (nextIndex count : Nat)
    (reply : AppendEntriesReply) (s : NodeState) :
    RoleKept s (handleAppendReply peers peer nextIndex count reply s) := by
  unfold handleAppendReply
  split
  · exact .inl rfl
  · split
    · rw [updateCommitIndex_eq]
      exact .inr ⟨rfl, rfl⟩
    · split
      · exact .inr ⟨rfl, rfl⟩
      · split <;> exact .inr ⟨rfl, rfl⟩

lemma appendCommand_role (peers : List NodeId) (data : List UInt8) (s : NodeState) :
    RoleKept s (appendCommand peers data s) := by
  rw [appendCommand, updateCommitIndex_eq]
  exact .inr ⟨rfl, rfl⟩

end Oba.Raft
