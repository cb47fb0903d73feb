import Mathlib.Logic.Function.Basic
import Mathlib.Tactic.Simps.Basic
import Oba.Raft.Log

/-! # The state of a Raft node

`state.go`: the fields of `NodeState`, the methods that change them, and what a node
reads back from its data directory when it starts.
-/

namespace Oba.Raft

open Option

/-- A node identifier. Zero is no node: `NodeConfig.Validate` refuses it. -/
abbrev NodeId := Nat

/-- The three node states. -/
inductive Role
  | follower
  | candidate
  | leader
  deriving DecidableEq, Repr

/-- The two small files of a data directory: the term and vote of `term.dat`, and the
index of `last_applied.dat`. A missing file is `none`. -/
structure StateDir where
  term : Option (Nat × NodeId)
  lastApplied : Option Nat
  deriving DecidableEq, Repr

structure NodeState where
  currentTerm : Nat
  votedFor : NodeId
  log : RaftLog
  state : Role
  commitIndex : Nat
  lastApplied : Nat
  nextIndex : NodeId → Nat
  matchIndex : NodeId → Nat
  leaderID : NodeId
  dataDir : Option StateDir

/-- A stored log whose slice has no `nil` in it. -/
def StoredLog.toRaftLog (l : StoredLog) : Option RaftLog :=
  (l.entries.mapM id).map fun entries => ⟨entries, some l.file⟩

lemma StoredLog.toRaftLog_ne_nil {bytes : List UInt8} {stored : StoredLog} {log : RaftLog}
    (hstored : newRaftLogWithDir bytes = .ok stored) (hlog : stored.toRaftLog = some log) :
    log.entries ≠ [] := by
  unfold newRaftLogWithDir at hstored
  split at hstored
  · cases hstored
  · obtain ⟨⟩ := hstored
    obtain ⟨entries, hread, rfl⟩ := map_eq_some_iff.mp hlog
    rintro rfl
    simp only [buildEntries, List.mapM_cons, id_eq, pure_def, bind_eq_bind, bind_some] at hread
    obtain ⟨rest, _, hrest⟩ := bind_eq_some_iff.mp hread
    cases hrest

namespace NodeState

def new : NodeState :=
  { currentTerm := 0, votedFor := 0, log := RaftLog.new, state := .follower
    commitIndex := 0, lastApplied := 0, nextIndex := fun _ => 0, matchIndex := fun _ => 0
    leaderID := 0, dataDir := none }

/-- The state of a node whose data directory is still empty. -/
def newInDir : NodeState :=
  { new with log := RaftLog.newInDir, dataDir := some ⟨none, none⟩ }

section

variable (s : NodeState)

@[simps]
def persistTermAndVote : NodeState :=
  { s with dataDir := s.dataDir.map fun dir =>
      { dir with term := some (s.currentTerm, s.votedFor) } }

@[simps]
def persistLastApplied : NodeState :=
  { s with dataDir := s.dataDir.map fun dir => { dir with lastApplied := some s.lastApplied } }

def setVotedFor (candidateID : NodeId) : NodeState :=
  persistTermAndVote { s with votedFor := candidateID }

def setLastApplied (index : Nat) : NodeState :=
  persistLastApplied { s with lastApplied := index }

@[simps]
def setCommitIndex (index : Nat) : NodeState :=
  { s with commitIndex := index }

@[simps]
def setLeaderID (id : NodeId) : NodeState :=
  { s with leaderID := id }

@[simps]
def setNextIndex (peerID : NodeId) (index : Nat) : NodeState :=
  { s with nextIndex := Function.update s.nextIndex peerID index }

@[simps]
def setMatchIndex (peerID : NodeId) (index : Nat) : NodeState :=
  { s with matchIndex := Function.update s.matchIndex peerID index }

@[simps]
def initLeaderState (peers : List NodeId) : NodeState :=
  { s with
    nextIndex := fun id => if id ∈ peers then s.log.lastIndex + 1 else s.nextIndex id
    matchIndex := fun id => if id ∈ peers then 0 else s.matchIndex id }

/-- Neither the new term nor the cleared vote is written to `term.dat`. -/
@[simps]
def becomeFollower (term : Nat) : NodeState :=
  { s with state := .follower, currentTerm := term, votedFor := 0 }

@[simps]
def becomeCandidate : NodeState :=
  { s with state := .candidate, currentTerm := s.currentTerm + 1, leaderID := 0 }

@[simps]
def becomeLeader (nodeID : NodeId) : NodeState :=
  { s with state := .leader, leaderID := nodeID }

@[simps]
def appendEntry (entry : LogEntry) : NodeState :=
  { s with log := s.log.append entry }

/-- `loadPersistedState`, on the state `NewNodeStateWithDir` has just built: the term and
vote of `term.dat`, the end of the log as commit index, and at most that as last applied. -/
@[simps]
def loadPersistedState (dir : StateDir) : NodeState :=
  { s with
    currentTerm := (dir.term.getD (s.currentTerm, s.votedFor)).1
    votedFor := (dir.term.getD (s.currentTerm, s.votedFor)).2
    commitIndex := s.log.lastIndex
    lastApplied := match dir.lastApplied with
      | some index => if index > s.log.lastIndex then s.log.lastIndex else index
      | none => s.log.lastIndex }

end

/-- `NewNodeStateWithDir` over the files of `dir` and a log read back from its own file. -/
def newWithDir (dir : StateDir) (log : RaftLog) : NodeState :=
  loadPersistedState { new with log := log, dataDir := some dir } dir

/-- What a stopped node comes back as: `NewNode` over the same configuration, then
`ClusterBackend.Start`, which clears the main database and replays from index 0. The
result is `none` when the log file cannot be read, or holds a gap that the slice keeps
as a `nil` entry. -/
def restart (s : NodeState) : Option NodeState :=
  match s.dataDir with
  | some dir =>
    match newRaftLogWithDir ((s.log.file.map (·.bytes)).getD []) with
    | .ok stored => stored.toRaftLog.map fun log => (newWithDir dir log).setLastApplied 0
    | .error _ => none
  | none => some (new.setLastApplied 0)

section

variable {s s' : NodeState} (hrestart : s.restart = some s')
include hrestart

/-- Everything a restart can end in. -/
lemma restart_cases :
    (∃ dir log, s.dataDir = some dir ∧
        (∃ bytes stored, newRaftLogWithDir bytes = .ok stored ∧ stored.toRaftLog = some log) ∧
        s' = (newWithDir dir log).setLastApplied 0) ∨
      (s.dataDir = none ∧ s' = new.setLastApplied 0) := by
  unfold restart at hrestart
  split at hrestart
  next dir hdir =>
    split at hrestart
    next stored hstored =>
      obtain ⟨log, hlog, rfl⟩ := map_eq_some_iff.mp hrestart
      exact .inl ⟨dir, log, hdir, ⟨_, stored, hstored, hlog⟩, rfl⟩
    · cases hrestart
  next hnone => exact .inr ⟨hnone, (some.inj hrestart).symm⟩

/-- What a restarted node knows of its term and vote is what `term.dat` holds. -/
lemma restart_vote :
    s'.state = .follower ∧
      ((∃ dir, s.dataDir = some dir ∧ (s'.currentTerm, s'.votedFor) = dir.term.getD (0, 0) ∧
          s'.dataDir.map (·.term) = some dir.term) ∨
        (s.dataDir = none ∧ s'.currentTerm = 0 ∧ s'.votedFor = 0 ∧ s'.dataDir = none)) := by
  obtain ⟨dir, log, hdir, _, rfl⟩ | ⟨hnone, rfl⟩ := restart_cases hrestart
  · exact ⟨rfl, .inl ⟨dir, hdir, rfl, rfl⟩⟩
  · exact ⟨rfl, .inr ⟨hnone, rfl, rfl, rfl⟩⟩

/-- A restarted node takes its whole log to be committed. -/
lemma restart_commitIndex : s'.commitIndex = s'.log.lastIndex := by
  obtain ⟨dir, log, _, _, rfl⟩ | ⟨_, rfl⟩ := restart_cases hrestart <;> rfl

lemma restart_log_ne_nil : s'.log.entries ≠ [] := by
  obtain ⟨dir, log, _, ⟨_, _, hstored, hlog⟩, rfl⟩ | ⟨_, rfl⟩ := restart_cases hrestart
  · exact StoredLog.toRaftLog_ne_nil hstored hlog
  · exact List.cons_ne_nil _ _

end

end NodeState

end Oba.Raft
