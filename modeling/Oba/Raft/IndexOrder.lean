import Oba.Raft.CommitIndex
import Oba.Raft.LogFile
import Oba.Raft.Process

/-! # The indices of one node

A started node under every request, reply, timeout and proposal, in any order. Requests may carry
anything, and the state machine may refuse or accept any snapshot. As in `Oba.Raft.Cluster` it is
assumed that handlers are atomic steps; the apply loop takes one step per round.
-/

namespace Oba.Raft

open TermLog Execution List Option RaftLog NodeState

variable {entries : List LogEntry} {e : LogEntry} {st : NodeState}

inductive NodeEvent
  | requestVote (args : RequestVoteArgs)
  | appendEntries (args : AppendEntriesArgs)
  | installSnapshot (args : InstallSnapshotArgs) (restored : Bool)
  | timeout
  | campaign
  | voteReply (call : VoteCall) (reply : Option RequestVoteReply)
  | appendReply (call : AppendCall) (reply : AppendEntriesReply)
  | propose (data : List UInt8)
  | applyScan
  | applyNext (result : ApplyResult)
  deriving DecidableEq, Repr

def handleInstallSnapshot (args : InstallSnapshotArgs) (restored : Bool) (st : NodeState) :
    NodeState :=
  if args.term < st.currentTerm then st else installSnapshot args restored (updateTerm args.term st)

namespace Node

def step (id : NodeId) (peers : List NodeId) (n : Node) : NodeEvent → Option Node
  | .requestVote args => some { n with st := (handleRequestVote args n.st).1 }
  | .appendEntries args => some { n with st := (handleAppendEntries args n.st).1 }
  | .installSnapshot args restored =>
    some { n with st := handleInstallSnapshot args restored n.st }
  | .timeout =>
    if n.election.isSome = true ∨ n.st.state = .follower then some (n.startElection id) else none
  | .campaign =>
    if n.st.state = .candidate ∧ n.election = none then
      if peers.isEmpty then some { n with st := becomeLeader id peers n.st }
      else some (Cluster.openElection n)
    else none
  | .voteReply call reply => some (n.processVoteReply id peers call reply)
  | .appendReply call reply => some (n.processAppendReply peers call reply)
  | .propose data =>
    if n.st.state = .leader then some { n with st := appendCommand peers data n.st } else none
  | .applyScan => if n.applyTo ≤ n.applyAt then some n.applyScan else none
  | .applyNext result => if n.applyAt < n.applyTo then some (n.applyNext result).1 else none

/-- A node that starts for the first time, or from what an earlier one left on disk. -/
inductive Started : Node → Prop
  | fresh (hasDir : Bool) : Started (start hasDir)
  | restarted {st st' : NodeState} (hrestart : st.restart = some st') : Started ⟨st', none, 0, 0, 0⟩

end Node

/-- The entry found at an index carries that index, and the indices of the node are in order. -/
structure IndicesInOrder (st : NodeState) : Prop where
  numbered : ∀ (i : Nat) (e : LogEntry), st.log.get i = .ok e → e.index = i
  applied_le : st.lastApplied ≤ st.commitIndex
  commit_le : st.commitIndex ≤ st.log.lastIndex

/-- The entries of a request carry the indices they are stored at, and none of them has another
term than an entry the node takes to be committed. -/
def AppendEntriesArgs.Continues (args : AppendEntriesArgs) (st : NodeState) : Prop :=
  ∀ p ∈ args.entries.zipIdx (args.prevLogIndex + 1), p.1.index = p.2 ∧
    (p.2 ≤ st.commitIndex → st.log.termAt p.2 = p.1.term)

instance (args : AppendEntriesArgs) (st : NodeState) : Decidable (args.Continues st) :=
  inferInstanceAs (Decidable (∀ _ ∈ _, _))

/-- No snapshot is installed, and the entries that are stored continue the log. -/
def Node.KeepsOrder (n : Node) : NodeEvent → Prop
  | .installSnapshot args restored => n.st.currentTerm ≤ args.term → restored = false
  | .appendEntries args => n.st.currentTerm ≤ args.term →
      logConflict args (acceptLeader args n.st) = none → args.Continues n.st
  | _ => True

instance (n : Node) (event : NodeEvent) : Decidable (n.KeepsOrder event) := by
  cases event <;> unfold Node.KeepsOrder <;> infer_instance

/-! ## The invariant -/

def AtOwnIndex (entries : List LogEntry) : Prop :=
  ∀ (i : Nat) (e : LogEntry), entries[i]? = some e → e.index = i

structure Node.InOrder (n : Node) : Prop where
  numbered : AtOwnIndex n.st.log.entries
  commit : n.st.commitIndex < n.st.log.entries.length
  applied : n.st.lastApplied ≤ n.st.commitIndex
  scanned : n.applyTo ≤ n.st.commitIndex
  cursor : n.applyAt = n.st.lastApplied

/-- What a step may do to the indices. -/
structure Node.Advances (n n' : Node) : Prop where
  inOrder : n'.InOrder
  commit : n.st.commitIndex ≤ n'.st.commitIndex
  applied : n.st.lastApplied ≤ n'.st.lastApplied

lemma Node.InOrder.indicesInOrder {n : Node} (h : n.InOrder) : IndicesInOrder n.st := by
  have hcommit := h.commit
  refine ⟨fun i e hget => h.numbered i e ?_, h.applied, ?_⟩
  · unfold RaftLog.get at hget
    split at hget
    next found hfound => rw [hfound, Except.ok.inj hget]
    · cases hget
  · rw [RaftLog.lastIndex_eq (by omega)]
    omega

lemma AtOwnIndex.append (hnum : AtOwnIndex entries) (he : e.index = entries.length) :
    AtOwnIndex (entries ++ [e]) := by
  intro i e' hget
  rcases getElem?_append_singleton hget with hold | ⟨hlast, rfl⟩
  · exact hnum i e' hold
  · omega

lemma atOwnIndex_dummy : AtOwnIndex [dummyEntry] := by
  intro i e hget
  obtain ⟨hzero, ⟨⟩⟩ := ite_none_right_eq_some.mp (getElem?_singleton ▸ hget)
  exact hzero.symm

/-! ## Starting -/

lemma index_of_buildEntries {records : List LogEntry} {i : Nat}
    (hget : (buildEntries records)[i]? = some (some e)) : e.index = i := by
  cases i with
  | zero =>
    cases hget
    rfl
  | succ i =>
    rw [buildEntries, List.getElem?_cons_succ, List.getElem?_map, map_eq_some_iff] at hget
    obtain ⟨j, hj, hmap⟩ := hget
    obtain ⟨hlt, rfl⟩ := List.getElem?_eq_some_iff.mp hj
    rw [getElem_range] at hmap
    exact (of_entryMap hmap).2

lemma eq_map_some_of_mapM_id {stored : List (Option LogEntry)}
    (hread : stored.mapM id = some entries) : stored = entries.map some := by
  induction stored generalizing entries with
  | nil =>
    cases hread
    rfl
  | cons first rest ih =>
    rw [mapM_cons] at hread
    obtain ⟨e, hfirst, hread⟩ := bind_eq_some_iff.mp hread
    obtain ⟨others, hothers, hread⟩ := bind_eq_some_iff.mp hread
    cases hread
    rw [ih hothers]
    exact congrArg (· :: _) hfirst

lemma StoredLog.toRaftLog_atOwnIndex {bytes : List UInt8} {stored : StoredLog} {log : RaftLog}
    (hstored : newRaftLogWithDir bytes = .ok stored) (hlog : stored.toRaftLog = some log) :
    AtOwnIndex log.entries := by
  unfold newRaftLogWithDir at hstored
  split at hstored
  · cases hstored
  next records _ _ =>
    obtain ⟨⟩ := hstored
    obtain ⟨entries, hread, rfl⟩ := map_eq_some_iff.mp hlog
    intro i e hget
    have hbuilt : buildEntries records = entries.map some := eq_map_some_of_mapM_id hread
    have hfound : (buildEntries records)[i]? = some (some e) := by
      rw [hbuilt, getElem?_map, hget, map_some]
    exact index_of_buildEntries hfound

lemma NodeState.restart_atOwnIndex {st' : NodeState} (hrestart : st.restart = some st') :
    AtOwnIndex st'.log.entries := by
  obtain ⟨dir, log, _, ⟨_, _, hstored, hlog⟩, rfl⟩ | ⟨_, rfl⟩ := restart_cases hrestart
  · exact StoredLog.toRaftLog_atOwnIndex hstored hlog
  · exact atOwnIndex_dummy

lemma Node.Started.inOrder {n : Node} (hstarted : n.Started) : n.InOrder := by
  cases hstarted with
  | fresh hasDir => cases hasDir <;> exact ⟨atOwnIndex_dummy, by decide, le_rfl, le_rfl, rfl⟩
  | @restarted st st' hrestart =>
    have hpos := length_pos_iff.mpr (restart_log_ne_nil hrestart)
    have happlied : st'.lastApplied = 0 := by
      obtain ⟨dir, log, _, _, rfl⟩ | ⟨_, rfl⟩ := restart_cases hrestart <;> rfl
    refine ⟨restart_atOwnIndex hrestart, ?_, ?_, Nat.zero_le _, happlied.symm⟩
    · rw [restart_commitIndex hrestart, lastIndex_eq hpos]
      dsimp only
      omega
    · exact happlied.le.trans (Nat.zero_le _)

/-! ## Steps -/

section Steps

variable {n n' : Node} {id : NodeId} {peers : List NodeId}

section

variable (h : n.InOrder)
include h

/-- A step that leaves the apply loop alone. -/
lemma Node.InOrder.advances (hnum : AtOwnIndex n'.st.log.entries)
    (hcommit : n.st.commitIndex ≤ n'.st.commitIndex)
    (hlast : n'.st.commitIndex < n'.st.log.entries.length)
    (happlied : n'.st.lastApplied = n.st.lastApplied) (hto : n'.applyTo = n.applyTo)
    (hat : n'.applyAt = n.applyAt) : n.Advances n' :=
  ⟨⟨hnum, hlast, happlied.le.trans (h.applied.trans hcommit),
    hto.le.trans (h.scanned.trans hcommit),
    hat.trans (h.cursor.trans happlied.symm)⟩, hcommit, happlied.ge⟩

lemma Node.InOrder.kept (hlog : n'.st.log.entries = n.st.log.entries)
    (hcommit : n'.st.commitIndex = n.st.commitIndex)
    (happlied : n'.st.lastApplied = n.st.lastApplied) (hto : n'.applyTo = n.applyTo)
    (hat : n'.applyAt = n.applyAt) : n.Advances n' :=
  h.advances (hlog ▸ h.numbered) hcommit.ge (by rw [hcommit, hlog]; exact h.commit) happlied hto hat

/-- The commit rules move the commit index up, and never beyond the log. -/
lemma Node.InOrder.updateCommit (hnum : AtOwnIndex st.log.entries)
    (hcommit : st.commitIndex = n.st.commitIndex) (hlast : n.st.commitIndex < st.log.entries.length)
    (happlied : st.lastApplied = n.st.lastApplied) :
    n.Advances { n with st := updateCommitIndex peers st } := by
  rcases updateCommitIndex_cases peers st with hst | ⟨idx, hst, hlt, hle, _⟩
  · rw [hst]
    exact h.advances hnum hcommit.ge (by rw [hcommit]; exact hlast) happlied rfl rfl
  · rw [lastIndex_eq (by omega)] at hle
    rw [hst]
    refine h.advances hnum (hcommit ▸ hlt.le) ?_ happlied rfl rfl
    simp only [setCommitIndex_commitIndex, setCommitIndex_log]
    omega

lemma Node.InOrder.appendReply (call : AppendCall) (reply : AppendEntriesReply) :
    n.Advances (n.processAppendReply peers call reply) := by
  unfold processAppendReply handleAppendReply
  split
  · exact h.kept rfl rfl rfl rfl rfl
  · split
    · exact h.updateCommit h.numbered rfl h.commit rfl
    · split
      · exact h.kept rfl rfl rfl rfl rfl
      · split <;> exact h.kept rfl rfl rfl rfl rfl

lemma Node.InOrder.append (he : e.index = n.st.log.lastIndex + 1) :
    AtOwnIndex (n.st.log.entries ++ [e]) ∧ n.st.commitIndex < (n.st.log.entries ++ [e]).length := by
  have hcommit := h.commit
  rw [lastIndex_eq (by omega)] at he
  refine ⟨h.numbered.append (by omega), ?_⟩
  rw [length_append]
  omega

lemma Node.InOrder.becomeLeader (election : Option Election) :
    n.Advances { n with st := Raft.becomeLeader id peers n.st, election := election } := by
  obtain ⟨hnum, hlast⟩ :=
    h.append (show LogEntry.index ⟨n.st.log.lastIndex + 1, n.st.currentTerm, logEntryNoop, []⟩ =
      n.st.log.lastIndex + 1 from rfl)
  exact h.advances hnum le_rfl hlast rfl rfl rfl

lemma Node.InOrder.propose (data : List UInt8) :
    n.Advances { n with st := appendCommand peers data n.st } := by
  obtain ⟨hnum, hlast⟩ :=
    h.append (show LogEntry.index
      ⟨n.st.log.lastIndex + 1, n.st.currentTerm, logEntryCommand, data⟩ =
        n.st.log.lastIndex + 1 from rfl)
  exact h.updateCommit hnum rfl hlast rfl

lemma Node.InOrder.voteReply (call : VoteCall) (reply : Option RequestVoteReply) :
    n.Advances (n.processVoteReply id peers call reply) := by
  have houtcome := Node.processVoteReply_cases id peers call reply n
  generalize n.processVoteReply id peers call reply = n' at houtcome
  cases houtcome with
  | ignored | steppedDown | abandoned | retried | counted => exact h.kept rfl rfl rfl rfl rfl
  | won => exact h.becomeLeader none

end

lemma updateTerm_lastApplied (term : Nat) (st : NodeState) :
    (updateTerm term st).lastApplied = st.lastApplied := by
  unfold updateTerm
  split <;> rfl

lemma acceptLeader_lastApplied (args : AppendEntriesArgs) (st : NodeState) :
    (acceptLeader args st).lastApplied = st.lastApplied := by
  unfold acceptLeader
  split
  · rfl
  · split <;> rfl

lemma handleRequestVote_lastApplied (args : RequestVoteArgs) (st : NodeState) :
    (handleRequestVote args st).1.lastApplied = st.lastApplied := by
  unfold handleRequestVote
  split
  · rfl
  · dsimp only
    split <;> exact updateTerm_lastApplied args.term st

section

variable (h : n.InOrder)
include h

lemma Node.InOrder.requestVote (args : RequestVoteArgs) :
    n.Advances { n with st := (handleRequestVote args n.st).1 } := by
  obtain ⟨hlog, _, _, hcommit⟩ := handleRequestVote_same args n.st
  exact h.kept (congrArg entries hlog) hcommit (handleRequestVote_lastApplied args n.st)
    rfl rfl

/-- Stored entries that continue the log leave it in order, and the follower's commit rule
stays within it. -/
lemma Node.InOrder.storeEntries {args : AppendEntriesArgs}
    (hnone : logConflict args (acceptLeader args n.st) = none) (hcontinues : args.Continues n.st) :
    n.Advances { n with st := Raft.storeEntries args (acceptLeader args n.st) } := by
  have hcommit := h.commit
  have hsame := acceptLeader_same args n.st
  have hpos : 0 < n.st.log.entries.length := by omega
  have hprev := (logConflict_eq_none (by rw [hsame.log]; exact hpos) hnone).1
  rw [hsame.log] at hprev
  have hchunk : ∀ (k : Nat) (e : LogEntry), args.entries[k]? = some e →
      e.index = args.prevLogIndex + 1 + k ∧ (args.prevLogIndex + 1 + k ≤ n.st.commitIndex →
        n.st.log.termAt (args.prevLogIndex + 1 + k) = e.term) := by
    intro k e hk
    exact hcontinues (e, args.prevLogIndex + 1 + k) (mk_add_mem_zipIdx_iff_getElem?.mpr hk)
  have hlog : (Raft.storeEntries args (acceptLeader args n.st)).log =
      appendEntriesFrom n.st.log (args.prevLogIndex + 1) args.entries := by
    rw [storeEntries_eq, hsame.log]
  have hentries := appendEntriesFrom_entries n.st.log (args.prevLogIndex + 1) args.entries hpos
  rw [← hlog] at hentries
  have hlength : n.st.commitIndex <
      (Raft.storeEntries args (acceptLeader args n.st)).log.entries.length := by
    rw [hentries]
    refine lt_length_reconcile args.entries hprev hcommit fun k e old hk hle hold => ?_
    rw [← termAt_eq hold]
    exact (hchunk k e hk).2 hle
  have hnum : AtOwnIndex (Raft.storeEntries args (acceptLeader args n.st)).log.entries := by
    rw [hentries]
    exact forall_reconcile args.entries hprev h.numbered fun k e hk => (hchunk k e hk).1
  have happlied : (Raft.storeEntries args (acceptLeader args n.st)).lastApplied =
      n.st.lastApplied := by
    rw [storeEntries_eq]
    exact acceptLeader_lastApplied args n.st
  have hmoved := storeEntries_commitIndex args (acceptLeader args n.st)
  rw [hsame.commitIndex, lastIndex_eq (by omega)] at hmoved
  exact h.advances hnum (by dsimp only; omega) (by dsimp only; omega) happlied rfl rfl

lemma Node.InOrder.appendEntries {args : AppendEntriesArgs}
    (hok : n.KeepsOrder (.appendEntries args)) :
    n.Advances { n with st := (handleAppendEntries args n.st).1 } := by
  have hsame := acceptLeader_same args n.st
  rcases handleAppendEntries_cases args n.st with ⟨hst, _⟩ | ⟨_, hst, _⟩ | ⟨haccepted, hst, _⟩
  · exact h.kept (by rw [hst]) (by rw [hst]) (by rw [hst]) rfl rfl
  · rw [hst]
    exact h.kept (congrArg entries hsame.log) hsame.commitIndex
      (acceptLeader_lastApplied args n.st) rfl rfl
  · rw [hst]
    exact h.storeEntries haccepted.noConflict (hok haccepted.term haccepted.noConflict)

lemma Node.InOrder.installSnapshot {args : InstallSnapshotArgs} {restored : Bool}
    (hok : n.KeepsOrder (.installSnapshot args restored)) :
    n.Advances { n with st := handleInstallSnapshot args restored n.st } := by
  unfold handleInstallSnapshot
  split
  · exact h.kept rfl rfl rfl rfl rfl
  next hterm =>
    obtain rfl : restored = false := hok (not_lt.mp hterm)
    have hsame := updateTerm_same args.term n.st
    exact h.kept (congrArg entries hsame.log) hsame.commitIndex
      (updateTerm_lastApplied args.term n.st) rfl rfl

/-- A round of the apply loop stays at or below the commit index the loop has read. -/
lemma Node.InOrder.applyNext (hmore : n.applyAt < n.applyTo) (result : ApplyResult) :
    n.Advances (n.applyNext result).1 := by
  have hstop : n.Advances { n with applyTo := n.applyAt } :=
    ⟨⟨h.numbered, h.commit, h.applied, hmore.le.trans h.scanned, h.cursor⟩, le_rfl, le_rfl⟩
  unfold Node.applyNext
  split
  · exact hstop
  · split
    · exact hstop
    · exact ⟨⟨h.numbered, h.commit, hmore.trans_le h.scanned, h.scanned, rfl⟩, le_rfl,
        h.cursor.ge.trans (Nat.le_succ _)⟩

lemma Node.InOrder.step {event : NodeEvent} (hok : n.KeepsOrder event)
    (hstep : n.step id peers event = some n') : n.Advances n' := by
  cases event with
  | requestVote args => exact some.inj hstep ▸ h.requestVote args
  | appendEntries args => exact some.inj hstep ▸ h.appendEntries hok
  | installSnapshot args restored => exact some.inj hstep ▸ h.installSnapshot hok
  | timeout =>
    obtain ⟨_, ⟨⟩⟩ := ite_none_right_eq_some.mp hstep
    exact h.kept rfl rfl rfl rfl rfl
  | campaign =>
    obtain ⟨_, hstep⟩ := ite_none_right_eq_some.mp hstep
    split at hstep
    · exact some.inj hstep ▸ h.becomeLeader n.election
    · exact some.inj hstep ▸ h.kept rfl rfl rfl rfl rfl
  | voteReply call reply => exact some.inj hstep ▸ h.voteReply call reply
  | appendReply call reply => exact some.inj hstep ▸ h.appendReply call reply
  | propose data =>
    obtain ⟨_, ⟨⟩⟩ := ite_none_right_eq_some.mp hstep
    exact h.propose data
  | applyScan =>
    obtain ⟨_, ⟨⟩⟩ := ite_none_right_eq_some.mp hstep
    exact ⟨⟨h.numbered, h.commit, h.applied, le_rfl, rfl⟩, le_rfl, le_rfl⟩
  | applyNext result =>
    obtain ⟨hmore, ⟨⟩⟩ := ite_none_right_eq_some.mp hstep
    exact h.applyNext hmore result

end

lemma Node.InOrder.run {trace : List NodeEvent} (h : n.InOrder)
    (hrun : Run (Node.step id peers) Node.KeepsOrder n trace n') : n.Advances n' :=
  hrun.invariant (n.Advances ·) ⟨h, le_rfl, le_rfl⟩ fun _ _ _ hsofar hok hstep =>
    let hnext := hsofar.inOrder.step hok hstep
    ⟨hnext.inOrder, hsofar.commit.trans hnext.commit, hsofar.applied.trans hnext.applied⟩

end Steps

/-- At every point of a run that installs no snapshot and stores only entries that continue the
log the indices are in order, and later ones are never smaller. -/
theorem indices_in_order (id : NodeId) (peers : List NodeId) (before after : List NodeEvent)
    {start middle final : Node} (hstarted : start.Started)
    (hbefore : Run (Node.step id peers) Node.KeepsOrder start before middle)
    (hafter : Run (Node.step id peers) Node.KeepsOrder middle after final) :
    IndicesInOrder final.st ∧ middle.st.commitIndex ≤ final.st.commitIndex ∧
      middle.st.lastApplied ≤ final.st.lastApplied := by
  have hmiddle := (hstarted.inOrder.run hbefore).inOrder
  have hfinal := hmiddle.run hafter
  exact ⟨hfinal.inOrder.indicesInOrder, hfinal.commit, hfinal.applied⟩

/-- Two entries of a leader of term 1. -/
def twoEntries (leaderCommit : Nat) : AppendEntriesArgs :=
  ⟨1, 1, 0, 0, [⟨1, 1, logEntryNoop, []⟩, ⟨2, 1, logEntryCommand, [7]⟩], leaderCommit⟩

/-- A follower stores two entries, and applies the first before the second is committed. -/
def storesTwo : List NodeEvent := [.appendEntries (twoEntries 1), .applyScan]

def appliesFirst : List NodeEvent := [.applyNext .applied, .appendEntries (twoEntries 2)]

theorem indices_in_order_twoEntries :
    ∃ middle final : Node,
      exec (Node.step 2 [1]) (Node.start true) storesTwo = some middle ∧
      exec (Node.step 2 [1]) middle appliesFirst = some final ∧
      (IndicesInOrder final.st ∧ middle.st.commitIndex ≤ final.st.commitIndex ∧
        middle.st.lastApplied ≤ final.st.lastApplied) :=
  ⟨_, _, rfl, rfl, indices_in_order 2 [1] storesTwo appliesFirst (.fresh true) (run_of_exec rfl)
    (run_of_exec rfl)⟩

/-- A snapshot that includes the first of two entries leaves the second one at index 0, and a
commit index that the log does not reach. -/
theorem installSnapshot_shifts_indices :
    ∃ final : Node, exec (Node.step 2 [1]) (Node.start true)
        [.appendEntries (twoEntries 1), .installSnapshot ⟨1, 1, 1⟩ true] = some final ∧
      ¬ IndicesInOrder final.st := by
  refine ⟨_, rfl, fun hordered => ?_⟩
  have hindex : (2 : Nat) = 0 := hordered.numbered 0 ⟨2, 1, logEntryCommand, [7]⟩ rfl
  cases hindex

end Oba.Raft
