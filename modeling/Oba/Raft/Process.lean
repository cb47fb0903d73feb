import Oba.Raft.Cluster

/-! # One node as its goroutines

The state methods take the lock one by one, so the goroutines that handle requests, replies,
timeouts, proposals and applying may interleave between any two calls, and the process may
crash between any two calls. A goroutine is modelled by the call it makes next. Reads that
stand next to each other with nothing written in between are one call.
-/

namespace Oba.Raft

structure InstallSnapshotArgs where
  term : Nat
  leaderID : NodeId
  lastIncludedIndex : Nat
  deriving DecidableEq, Repr

/-- What a call of `replicateTo` captured when it sent its request. -/
structure AppendSent where
  peer : NodeId
  nextIndex : Nat
  count : Nat
  deriving DecidableEq, Repr

/-- The goroutines of handlers and replies, each at the call it makes next. In the snapshot
handler, `restored` says whether the state machine will accept the snapshot. -/
inductive Thread
  | voteStale (args : RequestVoteArgs)
  | voteNewer (args : RequestVoteArgs)
  | voteFollow (args : RequestVoteArgs)
  | voteCheck (args : RequestVoteArgs)
  | voteCompare (args : RequestVoteArgs)
  | voteGrant (args : RequestVoteArgs)
  | appendStale (args : AppendEntriesArgs)
  | appendNewer (args : AppendEntriesArgs)
  | appendRole (args : AppendEntriesArgs)
  | appendFollow (args : AppendEntriesArgs)
  | appendPrev (args : AppendEntriesArgs)
  | appendLog (leaderCommit index : Nat) (rest : List LogEntry)
  | appendCut (leaderCommit index : Nat) (entry : LogEntry) (rest : List LogEntry)
  | appendWrite (leaderCommit index : Nat) (entry : LogEntry) (rest : List LogEntry)
  | appendCommit (leaderCommit : Nat)
  | snapshotStale (args : InstallSnapshotArgs) (restored : Bool)
  | snapshotNewer (args : InstallSnapshotArgs) (restored : Bool)
  | snapshotFollow (args : InstallSnapshotArgs) (restored : Bool)
  | snapshotStore (args : InstallSnapshotArgs) (restored : Bool)
  | replyNewer (sent : AppendSent) (reply : AppendEntriesReply)
  | replyStore (sent : AppendSent) (reply : AppendEntriesReply)
  | replyCommit
  | replyFollow (term : Nat)
  | commitSet (index : Nat)
  deriving Repr

/-- The outcome of one call: the new state, what is left to do, and a vote that was cast. -/
structure Effect where
  st : NodeState
  thread : Option Thread
  grant : Option (Nat × NodeId)

namespace Effect

def done (st : NodeState) : Effect := ⟨st, none, none⟩

def goto (st : NodeState) (thread : Thread) : Effect := ⟨st, some thread, none⟩

end Effect

/-- The rest of `handleInstallSnapshot` once the term is settled. -/
def installSnapshot (args : InstallSnapshotArgs) (restored : Bool) (st : NodeState) : NodeState :=
  let st := st.setLeaderID args.leaderID
  if restored then
    let st := (st.setCommitIndex args.lastIncludedIndex).setLastApplied args.lastIncludedIndex
    { st with log := st.log.truncateBefore ((args.lastIncludedIndex + 1) % 2 ^ 64) }
  else st

def Thread.call (peers : List NodeId) (st : NodeState) : Thread → Effect
  -- handleRequestVote
  | .voteStale args =>
    if args.term < st.currentTerm then .done st else .goto st (.voteNewer args)
  | .voteNewer args =>
    if args.term > st.currentTerm then .goto st (.voteFollow args) else .goto st (.voteCheck args)
  | .voteFollow args => .goto (st.becomeFollower args.term) (.voteCheck args)
  | .voteCheck args =>
    if st.votedFor = 0 ∨ st.votedFor = args.candidateID then .goto st (.voteCompare args)
    else .done st
  | .voteCompare args =>
    if args.lastLogTerm > st.log.lastTerm ∨
        (args.lastLogTerm = st.log.lastTerm ∧ args.lastLogIndex ≥ st.log.lastIndex) then
      .goto st (.voteGrant args)
    else .done st
  | .voteGrant args =>
    ⟨st.setVotedFor args.candidateID, none, some (args.term, args.candidateID)⟩
  -- handleAppendEntries
  | .appendStale args =>
    if maxEntries < args.entries.length ∨ args.term < st.currentTerm then .done st
    else .goto st (.appendNewer args)
  | .appendNewer args =>
    if args.term > st.currentTerm then .goto st (.appendFollow args)
    else .goto st (.appendRole args)
  | .appendRole args =>
    if st.state = .candidate then .goto st (.appendFollow args) else .goto st (.appendPrev args)
  | .appendFollow args => .goto (st.becomeFollower args.term) (.appendPrev args)
  | .appendPrev args =>
    let st := st.setLeaderID args.leaderID
    match logConflict args st with
    | some _ => .done st
    | none => .goto st (.appendLog args.leaderCommit (args.prevLogIndex + 1) args.entries)
  | .appendLog leaderCommit _ [] => .goto st (.appendCommit leaderCommit)
  | .appendLog leaderCommit index (entry :: rest) =>
    if index ≤ st.log.lastIndex then
      if st.log.termAt index ≠ entry.term then
        .goto st (.appendCut leaderCommit index entry rest)
      else .goto st (.appendLog leaderCommit (index + 1) rest)
    else .goto st (.appendWrite leaderCommit index entry rest)
  | .appendCut leaderCommit index entry rest =>
    .goto { st with log := st.log.truncateFrom index } (.appendWrite leaderCommit index entry rest)
  | .appendWrite leaderCommit index entry rest =>
    .goto (st.appendEntry entry) (.appendLog leaderCommit (index + 1) rest)
  | .appendCommit leaderCommit =>
    if leaderCommit > st.commitIndex then
      .goto st (.commitSet (if st.log.lastIndex < leaderCommit then st.log.lastIndex
        else leaderCommit))
    else .done st
  -- handleInstallSnapshot
  | .snapshotStale args restored =>
    if args.term < st.currentTerm then .done st else .goto st (.snapshotNewer args restored)
  | .snapshotNewer args restored =>
    if args.term > st.currentTerm then .goto st (.snapshotFollow args restored)
    else .goto st (.snapshotStore args restored)
  | .snapshotFollow args restored =>
    .goto (st.becomeFollower args.term) (.snapshotStore args restored)
  | .snapshotStore args restored => .done (installSnapshot args restored st)
  -- the second half of replicateTo
  | .replyNewer sent reply =>
    if reply.term > st.currentTerm then .goto st (.replyFollow reply.term)
    else .goto st (.replyStore sent reply)
  | .replyStore sent reply =>
    if reply.success then
      .goto ((st.setNextIndex sent.peer (sent.nextIndex + sent.count)).setMatchIndex sent.peer
        (sent.nextIndex + sent.count - 1)) .replyCommit
    else if reply.conflictTerm > 0 then .done (st.setNextIndex sent.peer reply.conflictIndex)
    else if st.nextIndex sent.peer > 1 then
      .done (st.setNextIndex sent.peer (st.nextIndex sent.peer - 1))
    else .done st
  | .replyCommit =>
    match findCommit peers st st.log.lastIndex with
    | some index => .goto st (.commitSet index)
    | none => .done st
  -- a vote goroutine has compared the term of its reply already
  | .replyFollow term => .done (st.becomeFollower term)
  | .commitSet index => .done (st.setCommitIndex index)

/-! ## The main loop and the apply loop -/

/-- A `proposeRequest`: which call of `Propose` it belongs to, and the serialized command. -/
structure Request where
  id : Nat
  data : List UInt8
  deriving DecidableEq, Repr

/-- The main loop at the call it makes next. `outside` and `leading` are the waits of
`runFollower` or `runCandidate` and of `runLeader`. The entry being built is a new leader's
no-op entry, or the entry of a proposal. -/
inductive MainPc
  | outside
  | standing
  | voting
  | elected
  | leading
  | taken (req : Request)
  | allowed (req : Request)
  | numbering (req : Option Request)
  | numbered (req : Option Request) (index : Nat)
  | built (req : Option Request) (entry : LogEntry)
  | appended (req : Request) (entry : LogEntry)
  | tracked
  | committing (index : Nat)
  deriving DecidableEq, Repr

/-- The apply loop at the call it makes next, with the commit index it has read. -/
inductive ApplyPc
  | idle
  | scanned (upTo last : Nat)
  | fetched (upTo index : Nat) (entry : LogEntry)
  | ran (upTo index : Nat) (result : ApplyResult)
  | marked (upTo index : Nat) (result : ApplyResult)
  deriving DecidableEq, Repr

/-- What a call of `Propose` can return; `success` is a nil error. -/
inductive ProposeResult
  | success
  | notLeader
  | failed
  deriving DecidableEq, Repr

/-- The error `applyLoop` hands to `notifyProposalApplied`. -/
def ApplyResult.toProposeResult : ApplyResult → ProposeResult
  | .applied | .idempotent => .success
  | .rejectConflict | .fatal => .failed

/-- One node. `elections` holds the terms that the running vote goroutines captured. The
records at the end are of what happened, newest first: the current term after every event,
every vote cast, where the entry of a proposal was appended, every entry handed to the state
machine with the commit index it was under, and what proposals returned. -/
structure Process where
  st : NodeState
  main : MainPc
  apply : ApplyPc
  threads : List Thread
  elections : List Nat
  appends : List AppendSent
  queue : List Request
  pending : List (Nat × Request)
  proposed : Nat
  terms : List Nat
  grants : List (Nat × NodeId)
  placed : Nat → Option (Nat × LogEntry)
  applied : List (Nat × LogEntry × Nat)
  results : List (Nat × ProposeResult)

inductive Event
  | receiveVote (args : RequestVoteArgs)
  | receiveAppend (args : AppendEntriesArgs)
  | receiveSnapshot (args : InstallSnapshotArgs) (restored : Bool)
  | voteReply (term : Nat) (reply : RequestVoteReply)
  | appendReply (sent : AppendSent) (reply : AppendEntriesReply)
  | run (index : Nat)
  | timeout
  | campaign
  | win
  | replicate (peer : NodeId)
  | propose (data : List UInt8)
  | take
  | leave
  | main
  | apply (result : ApplyResult)
  | crash
  deriving Repr

namespace Process

/-- A node that starts for the first time, in an empty data directory. -/
def init : Process :=
  { st := NodeState.newInDir, main := .outside, apply := .idle
    threads := [], elections := [], appends := [], queue := [], pending := [], proposed := 0
    terms := [0], grants := [], placed := fun _ => none, applied := [], results := [] }

def put (s : Process) (st : NodeState) : Process :=
  { s with st := st, terms := st.currentTerm :: s.terms }

def spawn (s : Process) (thread : Thread) : Process :=
  { s.put s.st with threads := s.threads ++ [thread] }

/-- The goroutine at position `index` makes its next call. -/
def advance (peers : List NodeId) (s : Process) (index : Nat) (thread : Thread) : Process :=
  let effect := thread.call peers s.st
  { s.put effect.st with
    threads := match effect.thread with
      | some rest => s.threads.set index rest
      | none => s.threads.eraseIdx index
    grants := effect.grant.toList ++ s.grants }

/-- `notifyProposalApplied` -/
def notify (s : Process) (index : Nat) (result : ProposeResult) : Process :=
  match s.pending.lookup index with
  | some req =>
    { s with
      results := (req.id, result) :: s.results
      pending := s.pending.filter (·.1 ≠ index) }
  | none => s

/-- `cancelPendingProposals` -/
def cancelPendingProposals (s : Process) : Process :=
  { s with
    results := s.pending.map (fun p => (p.2.id, .notLeader)) ++ s.results
    pending := [] }

/-- The main loop makes its next call. -/
def mainCall (id : NodeId) (peers : List NodeId) (s : Process) : Option Process :=
  match s.main with
  | .outside => if s.st.state = .leader then some { s.put s.st with main := .leading } else none
  | .standing =>
    -- a request may have brought the node to the last term of 64 bits
    let st := s.st.becomeCandidate
    some { s.put { st with currentTerm := st.currentTerm % 2 ^ 64 } with main := .voting }
  | .voting =>
    some { s.put (s.st.setVotedFor id) with
      main := .outside, grants := (s.st.currentTerm, id) :: s.grants }
  | .elected => some { s.put (s.st.initLeaderState peers) with main := .numbering none }
  | .leading => none
  | .taken req =>
    if s.st.state ≠ .leader then
      some { s.put s.st with main := .leading, results := (req.id, .notLeader) :: s.results }
    else some { s.put s.st with main := .allowed req }
  | .allowed req =>
    -- here the request is dropped without an answer
    if s.st.state ≠ .leader then some { s.put s.st with main := .leading }
    else some { s.put s.st with main := .numbering (some req) }
  | .numbering req =>
    some { s.put s.st with main := .numbered req (s.st.log.lastIndex + 1) }
  | .numbered req index =>
    let entry : LogEntry := match req with
      | some req => ⟨index, s.st.currentTerm, logEntryCommand, req.data⟩
      | none => ⟨index, s.st.currentTerm, logEntryNoop, []⟩
    some { s.put s.st with main := .built req entry }
  | .built (some req) entry =>
    some { s.put (s.st.appendEntry entry) with
      main := .appended req entry
      placed := Function.update s.placed req.id (some (s.st.log.entries.length, entry)) }
  | .built none entry => some { s.put (s.st.appendEntry entry) with main := .outside }
  | .appended req entry =>
    some { s.put s.st with
      main := .tracked
      pending := (entry.index, req) :: s.pending.filter (·.1 ≠ entry.index) }
  | .tracked =>
    match findCommit peers s.st s.st.log.lastIndex with
    | some index => some { s.put s.st with main := .committing index }
    | none => some { s.put s.st with main := .leading }
  | .committing index => some { s.put (s.st.setCommitIndex index) with main := .leading }

/-- The apply loop makes its next call. `result` is what applying a command will give. -/
def applyCall (result : ApplyResult) (s : Process) : Process :=
  match s.apply with
  | .idle => { s.put s.st with apply := .scanned s.st.commitIndex s.st.lastApplied }
  | .scanned upTo last =>
    if last < upTo then
      match s.st.log.get (last + 1) with
      | .ok entry => { s.put s.st with apply := .fetched upTo (last + 1) entry }
      | .error _ => { s.put s.st with apply := .idle }
    else { s.put s.st with apply := .idle }
  | .fetched upTo index entry =>
    { s.put s.st with
      apply := .ran upTo index (if entry.type = logEntryCommand then result else .applied)
      applied := (index, entry, upTo) :: s.applied }
  | .ran upTo index result =>
    if result = .fatal then { s.put s.st with apply := .marked upTo index result }
    else { s.put (s.st.setLastApplied index) with apply := .marked upTo index result }
  | .marked upTo index result =>
    { (s.put s.st).notify index result.toProposeResult with
      apply := if result = .fatal then .idle else .scanned upTo index }

def step (id : NodeId) (peers : List NodeId) (s : Process) : Event → Option Process
  | .receiveVote args =>
    -- a candidate is a node, and `NodeConfig.Validate` refuses the identifier zero
    if args.candidateID ≠ 0 then some (s.spawn (.voteStale args)) else none
  | .receiveAppend args => some (s.spawn (.appendStale args))
  | .receiveSnapshot args restored => some (s.spawn (.snapshotStale args restored))
  | .voteReply term reply =>
    if term ∈ s.elections then
      let s := { s.put s.st with elections := s.elections.erase term }
      some (if reply.term > term then
        { s with threads := s.threads ++ [.replyFollow reply.term] } else s)
    else none
  | .appendReply sent reply =>
    if sent ∈ s.appends then
      some { s.spawn (.replyNewer sent reply) with appends := s.appends.erase sent }
    else none
  | .run index => (s.threads[index]?).map (s.advance peers index)
  | .timeout =>
    if s.main = .outside ∧ s.st.state ≠ .leader then some { s.put s.st with main := .standing }
    else none
  | .campaign =>
    if s.main = .outside ∧ s.st.state = .candidate then
      some { s.put s.st with elections := s.st.currentTerm :: s.elections }
    else none
  | .win =>
    if s.main = .outside ∧ s.st.state = .candidate then
      some { s.put (s.st.becomeLeader id) with main := .elected }
    else none
  | .replicate peer =>
    if s.st.state = .leader then
      let next := s.st.nextIndex peer
      some { s.put s.st with appends := ⟨peer, next, (s.st.log.getFrom next).length⟩ :: s.appends }
    else none
  | .propose data =>
    let s := s.put s.st
    some (if s.st.state = .leader then
      { s with queue := s.queue ++ [⟨s.proposed, data⟩], proposed := s.proposed + 1 }
    else
      { s with results := (s.proposed, .notLeader) :: s.results, proposed := s.proposed + 1 })
  | .take =>
    match s.main, s.queue with
    | .leading, req :: rest => some { s.put s.st with main := .taken req, queue := rest }
    | _, _ => none
  | .leave =>
    if s.main = .leading ∧ s.st.state ≠ .leader then
      some { (s.put s.st).cancelPendingProposals with main := .outside }
    else none
  | .main => s.mainCall id peers
  | .apply result => some (s.applyCall result)
  | .crash => s.st.restart.map fun st =>
    { s.put st with
      main := .outside, apply := .idle, threads := [], elections := [], appends := []
      queue := [], pending := [] }

end Process

/-! ## Goroutines that run undisturbed

Run to its end with no other goroutine in between, a thread does what the handler of the
cluster model does in one step. -/

/-- Make at most `fuel` calls of one goroutine in a row. -/
def Thread.finish (peers : List NodeId) : Nat → Thread → NodeState → NodeState
  | 0, _, st => st
  | fuel + 1, thread, st =>
    let effect := thread.call peers st
    match effect.thread with
    | some rest => finish peers fuel rest effect.st
    | none => effect.st

namespace Thread

variable {peers : List NodeId}

/-- The goroutine leaves the node in the state `final`, given enough calls. -/
def Ends (peers : List NodeId) (thread : Thread) (st final : NodeState) : Prop :=
  ∃ fuel, ∀ more, thread.finish peers (fuel + more) st = final

section

variable {thread rest : Thread} {st st' final : NodeState}

lemma ends_goto (hcall : thread.call peers st = .goto st' rest) (h : rest.Ends peers st' final) :
    thread.Ends peers st final := by
  obtain ⟨fuel, h⟩ := h
  refine ⟨fuel + 1, fun more => ?_⟩
  rw [Nat.add_right_comm, Thread.finish, hcall]
  exact h more

lemma ends_done (hcall : thread.call peers st = .done final) : thread.Ends peers st final := by
  refine ⟨1, fun more => ?_⟩
  rw [add_comm, Thread.finish, hcall]
  rfl

end

lemma ends_voteCheck (args : RequestVoteArgs) (st : NodeState) :
    Ends peers (.voteCheck args) st
      (if canVote args st then st.setVotedFor args.candidateID else st) := by
  by_cases hfree : st.votedFor = 0 ∨ st.votedFor = args.candidateID
  · refine ends_goto (if_pos hfree) ?_
    by_cases hlog : args.lastLogTerm > st.log.lastTerm ∨
      (args.lastLogTerm = st.log.lastTerm ∧ args.lastLogIndex ≥ st.log.lastIndex)
    · rw [if_pos (by simp [canVote, hfree, hlog])]
      exact ends_goto (if_pos hlog) ⟨1, fun more => by rw [add_comm]; rfl⟩
    · rw [if_neg (by simp [canVote, hlog])]
      exact ends_done (if_neg hlog)
  · rw [if_neg (by simp [canVote, hfree])]
    exact ends_done (if_neg hfree)

/-- The goroutine of a vote request does what `handleRequestVote` does in one step. -/
lemma ends_voteStale (args : RequestVoteArgs) (st : NodeState) :
    Ends peers (.voteStale args) st (handleRequestVote args st).1 := by
  unfold handleRequestVote updateTerm
  by_cases hstale : args.term < st.currentTerm
  · rw [if_pos hstale]
    exact ends_done (if_pos hstale)
  rw [if_neg hstale, apply_ite Prod.fst]
  refine ends_goto (if_neg hstale) ?_
  by_cases hnewer : args.term > st.currentTerm
  · rw [if_pos hnewer]
    exact ends_goto (if_pos hnewer) (ends_goto rfl (ends_voteCheck _ _))
  · rw [if_neg hnewer]
    exact ends_goto (if_neg hnewer) (ends_voteCheck _ _)

lemma ends_appendCommit (leaderCommit : Nat) (st : NodeState) :
    Ends peers (.appendCommit leaderCommit) st (followCommit leaderCommit st) := by
  unfold followCommit
  split
  next hgt => exact ends_goto (if_pos hgt) (ends_done rfl)
  next hle => exact ends_done (if_neg hle)

/-- The loop over the received entries. -/
lemma ends_appendLog (leaderCommit index : Nat) (rest : List LogEntry) (st : NodeState) :
    Ends peers (.appendLog leaderCommit index rest) st
      (followCommit leaderCommit { st with log := appendEntriesFrom st.log index rest }) := by
  induction rest generalizing index st with
  | nil => exact ends_goto rfl (ends_appendCommit _ _)
  | cons entry rest ih =>
    unfold appendEntriesFrom
    split
    next hold =>
      split
      next hterm =>
        refine ends_goto ((if_pos hold).trans (if_pos hterm)) (ends_goto rfl (ends_goto rfl ?_))
        exact ih _ _
      next hterm => exact ends_goto ((if_pos hold).trans (if_neg hterm)) (ih _ _)
    next hnew => exact ends_goto (if_neg hnew) (ends_goto rfl (ih _ _))

/-- The goroutine of a request for entries does what `handleAppendEntries` does in one step. -/
theorem ends_appendStale (args : AppendEntriesArgs) (st : NodeState) :
    Ends peers (.appendStale args) st (handleAppendEntries args st).1 := by
  have hprev : ∀ st : NodeState, Ends peers (.appendPrev args) st
      (match logConflict args (st.setLeaderID args.leaderID) with
        | some reply => (st.setLeaderID args.leaderID, reply)
        | none => (storeEntries args (st.setLeaderID args.leaderID),
            ⟨(st.setLeaderID args.leaderID).currentTerm, true, 0, 0⟩)).1 := by
    intro st
    cases hconflict : logConflict args (st.setLeaderID args.leaderID) with
    | some reply => exact ends_done (by simp only [Thread.call, hconflict])
    | none =>
      exact ends_goto (by simp only [Thread.call, hconflict]) (ends_appendLog _ _ _ _)
  unfold handleAppendEntries acceptLeader
  by_cases hsize : maxEntries < args.entries.length
  · rw [if_pos hsize]
    exact ends_done (if_pos (.inl hsize))
  by_cases hstale : args.term < st.currentTerm
  · rw [if_neg hsize, if_pos hstale]
    exact ends_done (if_pos (.inr hstale))
  rw [if_neg hsize, if_neg hstale]
  refine ends_goto (if_neg (not_or.mpr ⟨hsize, hstale⟩)) ?_
  by_cases hnewer : args.term > st.currentTerm
  · rw [if_pos hnewer]
    exact ends_goto (if_pos hnewer) (ends_goto rfl (hprev _))
  rw [if_neg hnewer]
  refine ends_goto (if_neg hnewer) ?_
  split
  next hrole => exact ends_goto (if_pos hrole) (ends_goto rfl (hprev _))
  next hrole => exact ends_goto (if_neg hrole) (hprev _)

end Thread

end Oba.Raft
