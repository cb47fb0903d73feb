import Oba.Raft.Votes

/-! # Changes of a node's log

A step changes the log of its node in one of three ways: not at all, by the leader's own
append, or by storing the entries of an AppendEntries request whose previous entry matches.
-/

namespace Oba.Raft

open TermLog List RaftLog

/-- A restart reads back the log the node held. -/
def RestartKeepsLog (s : Cluster) : Action → Prop
  | .restart id => ∀ st, (s.node id).st.restart = some st →
      st.log.entries = (s.node id).st.log.entries
  | _ => True

/-! ## AppendEntries on the log -/

/-- The loop of `handleAppendEntries` reconciles the log with the received entries. -/
lemma appendEntriesFrom_entries (log : RaftLog) (idx : Nat) (received : List LogEntry)
    (hpos : 0 < log.entries.length) :
    (appendEntriesFrom log idx received).entries =
      reconcile LogEntry.term log.entries idx received := by
  induction received generalizing log idx with
  | nil => rfl
  | cons e rest ih =>
    unfold appendEntriesFrom reconcile
    rw [lastIndex_eq hpos]
    cases hold : log.entries[idx]? with
    | none =>
      have hlen := List.getElem?_eq_none_iff.mp hold
      rw [if_neg (by omega), ih _ _ (by simp)]
      rfl
    | some old =>
      have hlen := (List.getElem?_eq_some_iff.mp hold).1
      rw [if_pos (by omega), termAt_eq hold]
      by_cases hterm : old.term = e.term
      · rw [if_neg (not_not_intro hterm), ih _ _ hpos]
        simp [hterm]
      · rw [if_pos hterm, ih _ _ (by simp)]
        simp [hterm]

/-- An accepted request: not oversized, not of an older term, and its previous entry is
there. -/
structure Accepted (args : AppendEntriesArgs) (st : NodeState) : Prop where
  term : st.currentTerm ≤ args.term
  noConflict : logConflict args (acceptLeader args st) = none

variable {args : AppendEntriesArgs} {st : NodeState}

lemma acceptLeader_term (hge : st.currentTerm ≤ args.term) :
    (acceptLeader args st).currentTerm = args.term := by
  unfold acceptLeader
  split
  · rfl
  next hle =>
    split
    · rfl
    · exact le_antisymm hge (not_lt.mp hle)

/-- The three outcomes of the AppendEntries handler. -/
lemma handleAppendEntries_cases (args : AppendEntriesArgs) (st : NodeState) :
    ((handleAppendEntries args st).1 = st ∧ (handleAppendEntries args st).2.success = false ∧
        (handleAppendEntries args st).2.conflictTerm = 0) ∨
      (st.currentTerm ≤ args.term ∧ (handleAppendEntries args st).1 = acceptLeader args st ∧
        logConflict args (acceptLeader args st) = some (handleAppendEntries args st).2) ∨
      (Accepted args st ∧
        (handleAppendEntries args st).1 = storeEntries args (acceptLeader args st) ∧
        (handleAppendEntries args st).2.success = true ∧
        (handleAppendEntries args st).2.conflictTerm = 0) := by
  unfold handleAppendEntries
  split
  · exact .inl ⟨rfl, rfl, rfl⟩
  · split
    · exact .inl ⟨rfl, rfl, rfl⟩
    next hge =>
      dsimp only
      split
      next reply hconflict =>
        exact .inr (.inl ⟨not_lt.mp hge, rfl, hconflict⟩)
      next hnone =>
        exact .inr (.inr ⟨⟨not_lt.mp hge, hnone⟩, rfl, rfl, rfl⟩)

lemma conflictStart_pos (log : RaftLog) (t : Nat) {i : Nat} (hpos : 0 < i) :
    1 ≤ conflictStart log t i := by
  induction i with
  | zero => omega
  | succ i ih =>
    unfold conflictStart
    split
    · omega
    · split
      · exact le_rfl
      · exact ih (by omega)

lemma logConflict_spec {reply : AppendEntriesReply}
    (hconflict : logConflict args st = some reply) :
    reply.success = false ∧ (0 < reply.conflictTerm → 1 ≤ reply.conflictIndex) := by
  unfold logConflict at hconflict
  split at hconflict
  next hprev =>
    split at hconflict
    · cases hconflict
      exact ⟨rfl, fun h => absurd h (lt_irrefl _)⟩
    · split at hconflict
      · cases hconflict
        exact ⟨rfl, fun _ => conflictStart_pos _ _ hprev⟩
      · cases hconflict
  · cases hconflict

/-- What it takes for the previous entry to be accepted. -/
lemma logConflict_eq_none (hpos : 0 < st.log.entries.length)
    (hnone : logConflict args st = none) :
    args.prevLogIndex < st.log.entries.length ∧
      (0 < args.prevLogIndex → ∃ e, st.log.entries[args.prevLogIndex]? = some e ∧
        e.term = args.prevLogTerm) := by
  unfold logConflict at hnone
  split at hnone
  next hprev =>
    rw [lastIndex_eq hpos] at hnone
    split at hnone
    · cases hnone
    next hle =>
      have hlen : args.prevLogIndex < st.log.entries.length := by omega
      refine ⟨hlen, fun _ => ⟨_, getElem?_eq_getElem hlen, ?_⟩⟩
      split at hnone
      · cases hnone
      next hterm =>
        rw [termAt_eq (getElem?_eq_getElem hlen)] at hterm
        exact Classical.not_not.mp hterm
  next hprev => exact ⟨by omega, fun h => absurd h hprev⟩

/-! ## One step -/

/-- A leader, old or new, writes an entry of its own term at the end of its log. -/
structure LeaderAppend (st st' : NodeState) (e : LogEntry) : Prop where
  entries : st'.log.entries = st.log.entries ++ [e]
  entryTerm : e.term = st.currentTerm
  index : e.index = st.log.lastIndex + 1
  leads : st'.state = .leader
  term : st'.currentTerm = st.currentTerm
  before : st.state = .leader ∨ st.state = .candidate

inductive LogChange (action : Action) (st st' : NodeState) : Prop
  | kept (hlog : st'.log.entries = st.log.entries)
      (hlead : st'.state = .leader → st.state = .leader ∧ st'.currentTerm = st.currentTerm)
  | written (e : LogEntry) (happend : LeaderAppend st st' e)
  | merged (call : AppendCall) (haction : action = .deliverAppend call)
      (haccepted : Accepted call.args st)
      (hst : st' = storeEntries call.args (acceptLeader call.args st))

variable {cfg : Config} {s s' : Cluster} {action : Action} {id : NodeId} {peers : List NodeId}

lemma LogChange.of_append (e : LogEntry) (hlead : st.state = .leader)
    (hterm : e.term = st.currentTerm) (hindex : e.index = st.log.lastIndex + 1)
    (peers : List NodeId) : LogChange action st (updateCommitIndex peers (st.appendEntry e)) := by
  rw [updateCommitIndex_eq]
  exact .written e ⟨rfl, hterm, hindex, hlead, rfl, .inl hlead⟩

lemma LogChange.of_becomeLeader (hcandidate : st.state = .candidate) :
    LogChange action st (becomeLeader id peers st) :=
  .written ⟨st.log.lastIndex + 1, st.currentTerm, logEntryNoop, []⟩
    ⟨rfl, rfl, rfl, rfl, rfl, .inr hcandidate⟩

lemma handleAppendReply_log (peers : List NodeId) (peer : NodeId) (nextIndex count : Nat)
    (reply : AppendEntriesReply) (st : NodeState) :
    (handleAppendReply peers peer nextIndex count reply st).log = st.log := by
  unfold handleAppendReply
  split
  · rfl
  · split
    · rw [updateCommitIndex_eq]
      rfl
    · split
      · rfl
      · split <;> rfl

lemma LogChange.of_appendEntries {call : AppendCall} :
    LogChange (.deliverAppend call) st (handleAppendEntries call.args st).1 := by
  rcases handleAppendEntries_cases call.args st with ⟨hst, _⟩ | ⟨_, hst, _⟩ | ⟨haccepted, hst, _⟩
  · rw [hst]
    exact .kept rfl (RoleKept.refl st).of_leader
  · rw [hst]
    exact .kept (congrArg entries (acceptLeader_same _ _).log)
      (acceptLeader_role _ _).of_leader
  · exact .merged call rfl haccepted hst

lemma LogChange.of_voteReply {call : VoteCall} {reply : Option RequestVoteReply} {n : Node} :
    LogChange action n.st (n.processVoteReply id peers call reply).st := by
  have houtcome := Node.processVoteReply_cases id peers call reply n
  generalize n.processVoteReply id peers call reply = n' at houtcome
  cases houtcome with
  | ignored | abandoned | counted => exact .kept rfl fun h => ⟨h, rfl⟩
  | steppedDown | retried => exact .kept rfl fun h => by cases h
  | won r e hel hballot hstate => exact .of_becomeLeader hstate

lemma Node.applyNext_log (result : ApplyResult) (n : Node) :
    (n.applyNext result).1.st.log = n.st.log := by
  unfold Node.applyNext
  split
  · rfl
  · split <;> rfl

/-- What a step does to the log of its node. -/
lemma Cluster.Step.logChange (hstep : Cluster.Step cfg s action s')
    (hkeep : RestartKeepsLog s action) :
    LogChange action (s.node action.actor).st (s'.node action.actor).st := by
  cases hstep <;> simp only [Action.actor, Cluster.put_node_self]
  case timeout => exact .kept rfl fun h => by cases h
  case campaignAlone hcandidate hidle halone => exact .of_becomeLeader hcandidate
  case campaign | replicate | applyScan => exact .kept rfl fun h => ⟨h, rfl⟩
  case deliverVote =>
    exact .kept (congrArg entries (handleRequestVote_same _ _).log)
      (handleRequestVote_role _ _).of_leader
  case voteReply => exact .of_voteReply
  case deliverAppend => exact .of_appendEntries
  case appendReply =>
    exact .kept (congrArg entries (handleAppendReply_log _ _ _ _ _ _))
      (handleAppendReply_role _ _ _ _ _ _).of_leader
  case propose hid hleader => exact .of_append _ hleader rfl rfl _
  case applyNext =>
    exact .kept (congrArg entries (Node.applyNext_log _ _))
      (Node.applyNext_role _ _).of_leader
  case restart st hid hrestart =>
    refine .kept (hkeep st hrestart) fun h => ?_
    rw [(NodeState.restart_vote hrestart).1] at h
    cases h

lemma Cluster.Step.mem_of_deliverAppend {call : AppendCall}
    (hstep : Cluster.Step cfg s (.deliverAppend call) s') : call ∈ s.appendCalls := by
  cases hstep with
  | deliverAppend hcall => exact hcall

end Oba.Raft
