import Oba.Library.Execution
import Oba.Raft.Node

/-! # The cluster

All nodes of one configuration, the goroutines that wait for a reply, and the requests
and replies on the wire. A request stays on the wire once it is sent, so it can be
delivered late, out of order, more than once or never. A reply reaches only the
goroutine that made the call, and that goroutine takes at most one reply or an error.

Handlers, timeouts, the sending and the reply half of `replicateTo`, and the processing
of one vote reply (the goroutine's part and the receiving loop's part) are atomic steps.
This is assumed of the code: an entry that a handler appends after the main loop has read
`LastIndex() + 1` would leave the main loop's own entry with a number that is not its place.
-/

namespace Oba.Raft

open Option

/-- The nodes of a cluster. `NodeConfig.Validate` refuses the identifier zero, and the
peers of a node are kept in a map, so identifiers are distinct. -/
structure Config where
  members : List NodeId
  nodup : members.Nodup
  nonzero : 0 ∉ members

def Config.peers (cfg : Config) (id : NodeId) : List NodeId :=
  cfg.members.filter (· ≠ id)

/-- The locals of one call of `runCandidate`. `ballot` stands for its `voteCh`. -/
structure Election where
  ballot : Nat
  term : Nat
  lastLogIndex : Nat
  lastLogTerm : Nat
  votes : Nat
  replies : Nat
  deriving DecidableEq, Repr

/-- A node with the locals of its two loops: the election `runCandidate` waits in, and the
commit index and cursor that `applyLoop` has read. -/
structure Node where
  st : NodeState
  election : Option Election
  ballots : Nat
  applyTo : Nat
  applyAt : Nat

/-- One goroutine of `runCandidate` and the request it sends. -/
structure VoteCall where
  candidate : NodeId
  ballot : Nat
  peer : NodeId
  args : RequestVoteArgs
  deriving DecidableEq, Repr

/-- One call of `replicateTo` and the request it sends. -/
structure AppendCall where
  leader : NodeId
  peer : NodeId
  nextIndex : Nat
  args : AppendEntriesArgs
  deriving DecidableEq, Repr

/-- The outcome of applying an entry to the state machine. -/
inductive ApplyResult
  | applied
  | idempotent
  | rejectConflict
  | fatal
  deriving DecidableEq, Repr

/-- The last three fields record what happened: every transition to leader with its term,
every advance of a leader's commit index with the log up to it, and every entry handed
to a state machine with its index. -/
structure Cluster where
  node : NodeId → Node
  voteCalls : List VoteCall
  voteWaiting : List VoteCall
  voteReplies : List (VoteCall × RequestVoteReply)
  appendCalls : List AppendCall
  appendWaiting : List AppendCall
  appendReplies : List (AppendCall × AppendEntriesReply)
  elected : List (Nat × NodeId)
  commits : List (NodeId × List LogEntry)
  applied : List (NodeId × Nat × LogEntry)

inductive Action
  | timeout (id : NodeId)
  | campaign (id : NodeId)
  | deliverVote (call : VoteCall)
  | voteReply (call : VoteCall) (reply : Option RequestVoteReply)
  | replicate (id peer : NodeId)
  | deliverAppend (call : AppendCall)
  | appendReply (call : AppendCall) (reply : AppendEntriesReply)
  | propose (id : NodeId) (data : List UInt8)
  | applyScan (id : NodeId)
  | applyNext (id : NodeId) (result : ApplyResult)
  | restart (id : NodeId)
  deriving DecidableEq, Repr

namespace Node

def start (hasDir : Bool) : Node :=
  { st := if hasDir then NodeState.newInDir else NodeState.new
    election := none, ballots := 0, applyTo := 0, applyAt := 0 }

/-- Starting an election in the next term with the node's own vote. -/
def startElection (id : NodeId) (n : Node) : Node :=
  { n with st := n.st.becomeCandidate.setVotedFor id, election := none }

section

variable (id : NodeId) (peers : List NodeId)

/-- The receiving loop of `runCandidate` takes one value from its channel. -/
def receiveVote (granted : Bool) (n : Node) : Node :=
  match n.election with
  | none => n
  | some e =>
    if n.st.state ≠ .candidate then { n with election := none }
    else if granted = true ∧ e.votes + 1 ≥ (peers.length + 1) / 2 + 1 then
      { n with st := becomeLeader id peers n.st, election := none }
    else if e.replies + 1 = peers.length then n.startElection id
    else
      let votes := if granted then e.votes + 1 else e.votes
      { n with election := some { e with votes := votes, replies := e.replies + 1 } }

/-- What a vote goroutine puts on its channel reaches the receiving loop only while the
election that opened the channel is the current one. -/
def pushVote (ballot : Nat) (granted : Bool) (n : Node) : Node :=
  if n.election.map (·.ballot) = some ballot then n.receiveVote id peers granted else n

/-- A vote goroutine gets its reply, or an error. The term it compares with is the one its
election started in. -/
def processVoteReply (call : VoteCall) (reply : Option RequestVoteReply) (n : Node) : Node :=
  match reply with
  | none => n.pushVote id peers call.ballot false
  | some reply =>
    if reply.term > call.args.term then
      { n with st := n.st.becomeFollower reply.term }.pushVote id peers call.ballot false
    else n.pushVote id peers call.ballot reply.voteGranted

end

/-- The second half of `replicateTo`. -/
def processAppendReply (peers : List NodeId) (call : AppendCall) (reply : AppendEntriesReply)
    (n : Node) : Node :=
  { n with
    st := handleAppendReply peers call.peer call.nextIndex call.args.entries.length reply n.st }

/-- The head of `applyLoop` reads the commit index and the last applied index. -/
def applyScan (n : Node) : Node :=
  { n with applyTo := n.st.commitIndex, applyAt := n.st.lastApplied }

/-- One round of the inner loop of `applyLoop`: the new node and the entry it applied. -/
def applyNext (result : ApplyResult) (n : Node) : Node × Option (Nat × LogEntry) :=
  match n.st.log.get (n.applyAt + 1) with
  | .error _ => ({ n with applyTo := n.applyAt }, none)
  | .ok entry =>
    if entry.type = logEntryCommand ∧ result = .fatal then
      ({ n with applyTo := n.applyAt }, some (n.applyAt + 1, entry))
    else
      ({ n with st := n.st.setLastApplied (n.applyAt + 1), applyAt := n.applyAt + 1 },
        some (n.applyAt + 1, entry))

end Node

namespace Cluster

def init (hasDir : NodeId → Bool) : Cluster :=
  { node := fun id => Node.start (hasDir id)
    voteCalls := [], voteWaiting := [], voteReplies := []
    appendCalls := [], appendWaiting := [], appendReplies := []
    elected := [], commits := [], applied := [] }

/-- Node `id` becomes `n`, with the transition to leader or the leader's commit recorded. -/
def put (s : Cluster) (id : NodeId) (n : Node) : Cluster :=
  { s with
    node := Function.update s.node id n
    elected :=
      if n.st.state = .leader ∧ (s.node id).st.state ≠ .leader then
        (n.st.currentTerm, id) :: s.elected
      else s.elected
    commits :=
      if n.st.state = .leader ∧ (s.node id).st.commitIndex < n.st.commitIndex then
        (id, n.st.log.entries.take (n.st.commitIndex + 1)) :: s.commits
      else s.commits }

/-- The requests of one call of `runCandidate`. -/
def voteRequests (cfg : Config) (id : NodeId) (n : Node) : List VoteCall :=
  (cfg.peers id).map fun peer =>
    ⟨id, n.ballots, peer, ⟨n.st.currentTerm, id, n.st.log.lastIndex, n.st.log.lastTerm⟩⟩

def openElection (n : Node) : Node :=
  { n with
    election := some ⟨n.ballots, n.st.currentTerm, n.st.log.lastIndex, n.st.log.lastTerm, 1, 0⟩
    ballots := n.ballots + 1 }

def step (cfg : Config) (s : Cluster) : Action → Option Cluster
  | .timeout id =>
    -- the timer of `runFollower`, or of the wait in `runCandidate`
    if id ∈ cfg.members ∧
        ((s.node id).election.isSome = true ∨ (s.node id).st.state = .follower) then
      some (s.put id ((s.node id).startElection id))
    else none
  | .campaign id =>
    if id ∈ cfg.members ∧ (s.node id).st.state = .candidate ∧ (s.node id).election = none then
      if (cfg.peers id).isEmpty then
        some (s.put id { s.node id with st := becomeLeader id (cfg.peers id) (s.node id).st })
      else
        let calls := voteRequests cfg id (s.node id)
        some { s.put id (openElection (s.node id)) with
          voteCalls := calls ++ s.voteCalls
          voteWaiting := calls ++ s.voteWaiting }
    else none
  | .deliverVote call =>
    if call ∈ s.voteCalls then
      let n := s.node call.peer
      let result := handleRequestVote call.args n.st
      some { s.put call.peer { n with st := result.1 } with
        voteReplies := (call, result.2) :: s.voteReplies }
    else none
  | .voteReply call reply =>
    if call ∈ s.voteWaiting ∧ ∀ r ∈ reply, (call, r) ∈ s.voteReplies then
      let n := s.node call.candidate
      some { s.put call.candidate
          (n.processVoteReply call.candidate (cfg.peers call.candidate) call reply) with
        voteWaiting := s.voteWaiting.erase call }
    else none
  | .replicate id peer =>
    if id ∈ cfg.members ∧ peer ∈ cfg.peers id ∧ (s.node id).st.state = .leader then
      let call : AppendCall :=
        ⟨id, peer, (s.node id).st.nextIndex peer, replicateArgs id peer (s.node id).st⟩
      some { s with
        appendCalls := call :: s.appendCalls
        appendWaiting := call :: s.appendWaiting }
    else none
  | .deliverAppend call =>
    if call ∈ s.appendCalls then
      let n := s.node call.peer
      let result := handleAppendEntries call.args n.st
      some { s.put call.peer { n with st := result.1 } with
        appendReplies := (call, result.2) :: s.appendReplies }
    else none
  | .appendReply call reply =>
    if call ∈ s.appendWaiting ∧ (call, reply) ∈ s.appendReplies then
      let n := s.node call.leader
      some { s.put call.leader (n.processAppendReply (cfg.peers call.leader) call reply) with
        appendWaiting := s.appendWaiting.erase call }
    else none
  | .propose id data =>
    if id ∈ cfg.members ∧ (s.node id).st.state = .leader then
      some (s.put id { s.node id with st := appendCommand (cfg.peers id) data (s.node id).st })
    else none
  | .applyScan id =>
    if id ∈ cfg.members ∧ (s.node id).applyTo ≤ (s.node id).applyAt then
      some (s.put id (s.node id).applyScan)
    else none
  | .applyNext id result =>
    if id ∈ cfg.members ∧ (s.node id).applyAt < (s.node id).applyTo then
      let outcome := (s.node id).applyNext result
      some { s.put id outcome.1 with
        applied := (outcome.2.map fun e => (id, e)).toList ++ s.applied }
    else none
  | .restart id =>
    if id ∈ cfg.members then
      (s.node id).st.restart.map fun st =>
        { s.put id ⟨st, none, (s.node id).ballots, 0, 0⟩ with
          voteWaiting := s.voteWaiting.filter (·.candidate ≠ id)
          appendWaiting := s.appendWaiting.filter (·.leader ≠ id) }
    else none

/-! ## What a step does

One constructor per outcome of an enabled action, with the guard it passed. -/

inductive Step (cfg : Config) (s : Cluster) : Action → Cluster → Prop
  | timeout {id : NodeId} (hid : id ∈ cfg.members)
      (hready : (s.node id).election.isSome = true ∨ (s.node id).st.state = .follower) :
      Step cfg s (.timeout id) (s.put id ((s.node id).startElection id))
  | campaignAlone {id : NodeId} (hid : id ∈ cfg.members)
      (hcandidate : (s.node id).st.state = .candidate) (hidle : (s.node id).election = none)
      (halone : cfg.peers id = []) :
      Step cfg s (.campaign id)
        (s.put id { s.node id with st := becomeLeader id (cfg.peers id) (s.node id).st })
  | campaign {id : NodeId} (hid : id ∈ cfg.members)
      (hcandidate : (s.node id).st.state = .candidate) (hidle : (s.node id).election = none) :
      Step cfg s (.campaign id) { s.put id (openElection (s.node id)) with
          voteCalls := voteRequests cfg id (s.node id) ++ s.voteCalls
          voteWaiting := voteRequests cfg id (s.node id) ++ s.voteWaiting }
  | deliverVote {call : VoteCall} (hcall : call ∈ s.voteCalls) : Step cfg s (.deliverVote call)
        { s.put call.peer { s.node call.peer with
              st := (handleRequestVote call.args (s.node call.peer).st).1 } with
          voteReplies :=
            (call, (handleRequestVote call.args (s.node call.peer).st).2) :: s.voteReplies }
  | voteReply {call : VoteCall} {reply : Option RequestVoteReply}
      (hwaiting : call ∈ s.voteWaiting) (hreply : ∀ r ∈ reply, (call, r) ∈ s.voteReplies) :
      Step cfg s (.voteReply call reply)
        { s.put call.candidate ((s.node call.candidate).processVoteReply call.candidate
            (cfg.peers call.candidate) call reply) with
          voteWaiting := s.voteWaiting.erase call }
  | replicate {id peer : NodeId} (hid : id ∈ cfg.members) (hpeer : peer ∈ cfg.peers id)
      (hleader : (s.node id).st.state = .leader) :
      Step cfg s (.replicate id peer) { s with
          appendCalls := ⟨id, peer, (s.node id).st.nextIndex peer,
            replicateArgs id peer (s.node id).st⟩ :: s.appendCalls
          appendWaiting := ⟨id, peer, (s.node id).st.nextIndex peer,
            replicateArgs id peer (s.node id).st⟩ :: s.appendWaiting }
  | deliverAppend {call : AppendCall} (hcall : call ∈ s.appendCalls) :
      Step cfg s (.deliverAppend call) { s.put call.peer { s.node call.peer with
              st := (handleAppendEntries call.args (s.node call.peer).st).1 } with
          appendReplies :=
            (call, (handleAppendEntries call.args (s.node call.peer).st).2) :: s.appendReplies }
  | appendReply {call : AppendCall} {reply : AppendEntriesReply}
      (hwaiting : call ∈ s.appendWaiting) (hreply : (call, reply) ∈ s.appendReplies) :
      Step cfg s (.appendReply call reply)
        { s.put call.leader ((s.node call.leader).processAppendReply (cfg.peers call.leader)
            call reply) with
          appendWaiting := s.appendWaiting.erase call }
  | propose {id : NodeId} {data : List UInt8} (hid : id ∈ cfg.members)
      (hleader : (s.node id).st.state = .leader) :
      Step cfg s (.propose id data)
        (s.put id { s.node id with st := appendCommand (cfg.peers id) data (s.node id).st })
  | applyScan {id : NodeId} (hid : id ∈ cfg.members) :
      Step cfg s (.applyScan id) (s.put id (s.node id).applyScan)
  | applyNext {id : NodeId} {result : ApplyResult} (hid : id ∈ cfg.members)
      (hmore : (s.node id).applyAt < (s.node id).applyTo) :
      Step cfg s (.applyNext id result) { s.put id ((s.node id).applyNext result).1 with
          applied := (((s.node id).applyNext result).2.map fun e => (id, e)).toList ++ s.applied }
  | restart {id : NodeId} {st : NodeState} (hid : id ∈ cfg.members)
      (hrestart : (s.node id).st.restart = some st) :
      Step cfg s (.restart id) { s.put id ⟨st, none, (s.node id).ballots, 0, 0⟩ with
          voteWaiting := s.voteWaiting.filter (·.candidate ≠ id)
          appendWaiting := s.appendWaiting.filter (·.leader ≠ id) }

lemma step_cases {cfg : Config} {s s' : Cluster} {action : Action}
    (hstep : step cfg s action = some s') : Step cfg s action s' := by
  cases action with
  | timeout id =>
    obtain ⟨⟨hid, hready⟩, ⟨⟩⟩ := ite_none_right_eq_some.mp hstep
    exact .timeout hid hready
  | campaign id =>
    simp only [step] at hstep
    split at hstep
    next hguard =>
      obtain ⟨hid, hcandidate, hidle⟩ := hguard
      split at hstep
      next halone =>
        cases hstep
        exact .campaignAlone hid hcandidate hidle (List.isEmpty_iff.mp halone)
      · cases hstep
        exact .campaign hid hcandidate hidle
    · cases hstep
  | deliverVote call =>
    obtain ⟨hcall, ⟨⟩⟩ := ite_none_right_eq_some.mp hstep
    exact .deliverVote hcall
  | voteReply call reply =>
    obtain ⟨⟨hwaiting, hreply⟩, ⟨⟩⟩ := ite_none_right_eq_some.mp hstep
    exact .voteReply hwaiting hreply
  | replicate id peer =>
    obtain ⟨⟨hid, hpeer, hleader⟩, ⟨⟩⟩ := ite_none_right_eq_some.mp hstep
    exact .replicate hid hpeer hleader
  | deliverAppend call =>
    obtain ⟨hcall, ⟨⟩⟩ := ite_none_right_eq_some.mp hstep
    exact .deliverAppend hcall
  | appendReply call reply =>
    obtain ⟨⟨hwaiting, hreply⟩, ⟨⟩⟩ := ite_none_right_eq_some.mp hstep
    exact .appendReply hwaiting hreply
  | propose id data =>
    obtain ⟨⟨hid, hleader⟩, ⟨⟩⟩ := ite_none_right_eq_some.mp hstep
    exact .propose hid hleader
  | applyScan id =>
    obtain ⟨⟨hid, _⟩, ⟨⟩⟩ := ite_none_right_eq_some.mp hstep
    exact .applyScan hid
  | applyNext id result =>
    obtain ⟨⟨hid, hmore⟩, ⟨⟩⟩ := ite_none_right_eq_some.mp hstep
    exact .applyNext hid hmore
  | restart id =>
    obtain ⟨hid, hmap⟩ := ite_none_right_eq_some.mp hstep
    obtain ⟨st, hrestart, rfl⟩ := map_eq_some_iff.mp hmap
    exact .restart hid hrestart

section Put

variable (s : Cluster) (id : NodeId) (n : Node)

@[simp]
lemma put_node_self : (s.put id n).node id = n := Function.update_self ..

end Put

end Cluster

end Oba.Raft
