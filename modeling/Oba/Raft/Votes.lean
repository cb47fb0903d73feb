import Oba.Raft.History

/-! # Terms and votes of one node

How a step may change the term and the vote of the node it runs on. All handlers keep to
one shape: the term does not fall, and a vote once cast in a term stays, unless a candidate
gives up its own vote on hearing from the leader of that term. The exceptions are a vote
reply that is older than the node's term and a restart from an older `term.dat`; they are
the hypotheses of the lemmas about those two steps.
-/

namespace Oba.Raft

open Option Node

/-- A candidate or leader has voted for itself. `term.dat` is never ahead of memory, and a vote
of the current term that memory has lost is the node's own. -/
structure VoteOk (id : NodeId) (st : NodeState) : Prop where
  own : st.state ≠ .follower → st.votedFor = id
  disk : ∀ dir t c, st.dataDir = some dir → dir.term = some (t, c) →
    t ≤ st.currentTerm ∧ (t = st.currentTerm → st.votedFor = c ∨ (st.votedFor = 0 ∧ c = id))

/-- The shape of a change of term, vote and role. -/
structure VoteStep (id : NodeId) (st st' : NodeState) : Prop where
  ok : VoteOk id st'
  mono : st.currentTerm ≤ st'.currentTerm
  keep : st'.currentTerm = st.currentTerm → st.votedFor ≠ 0 →
    st'.votedFor = st.votedFor ∨ (st.state = .candidate ∧ st'.state = .follower)
  candidate : st'.state = .candidate → st.currentTerm < st'.currentTerm ∨
    (st.state = .candidate ∧ st'.currentTerm = st.currentTerm)
  leader : st'.state = .leader →
    st'.currentTerm = st.currentTerm ∧ (st.state = .leader ∨ st.state = .candidate)

/-- A change that is neither a candidacy nor an election: the node ends as a follower, or
keeps its role and term. -/
structure QuietStep (id : NodeId) (st st' : NodeState) : Prop where
  ok : VoteOk id st'
  mono : st.currentTerm ≤ st'.currentTerm
  keep : st'.currentTerm = st.currentTerm → st.votedFor ≠ 0 →
    st'.votedFor = st.votedFor ∨ (st.state = .candidate ∧ st'.state = .follower)
  quiet : RoleKept st st'

lemma QuietStep.toVoteStep {id : NodeId} {st st' : NodeState} (h : QuietStep id st st') :
    VoteStep id st st' where
  ok := h.ok
  mono := h.mono
  keep := h.keep
  candidate hc := .inr (h.quiet.of_candidate hc)
  leader hl := ⟨(h.quiet.of_leader hl).2, .inl (h.quiet.of_leader hl).1⟩

/-- The data directory still gives the node its term: `term.dat` holds the current term, or
the node has neither left term zero nor voted. -/
def PersistedTerm (st : NodeState) : Prop :=
  (∃ dir c, st.dataDir = some dir ∧ dir.term = some (st.currentTerm, c)) ∨
    (st.currentTerm = 0 ∧ st.votedFor = 0)

instance (st : NodeState) : Decidable (PersistedTerm st) :=
  decidable_of_iff ((∃ dir ∈ st.dataDir, dir.term.map Prod.fst = some st.currentTerm) ∨
    (st.currentTerm = 0 ∧ st.votedFor = 0)) (by simp [PersistedTerm])

/-- Starting an election is not quiet: the node moves to the next term with its own vote. -/
lemma VoteStep.startElection (id : NodeId) (st : NodeState) :
    VoteStep id st (st.becomeCandidate.setVotedFor id) where
  ok := by
    refine ⟨fun _ => rfl, ?_⟩
    intro dir t c hdir hread
    obtain ⟨old, _, rfl⟩ := map_eq_some_iff.mp hdir
    cases hread
    exact ⟨le_rfl, fun _ => .inl rfl⟩
  mono := Nat.le_succ _
  keep heq _ := absurd heq (Nat.succ_ne_self _)
  candidate _ := .inl (lt_add_one _)
  leader h := by cases h

lemma VoteStep.becomeLeader {id : NodeId} {st : NodeState} (hok : VoteOk id st)
    (hcand : st.state = .candidate) (peers : List NodeId) :
    VoteStep id st (Raft.becomeLeader id peers st) where
  ok := by
    refine ⟨fun _ => hok.own (by simp [hcand]), ?_⟩
    intro dir t c hdir hread
    exact hok.disk dir t c hdir hread
  mono := le_rfl
  keep _ _ := .inl rfl
  candidate h := by cases h
  leader _ := ⟨rfl, .inr hcand⟩

lemma Node.applyNext_role (result : ApplyResult) (n : Node) :
    RoleKept n.st (n.applyNext result).1.st := by
  unfold applyNext
  split
  · exact RoleKept.refl _
  · split <;> exact .inr ⟨rfl, rfl⟩

namespace QuietStep

variable {id : NodeId} {st st' st'' : NodeState} {term : Nat}

/-- A change that touches neither the term, the vote, the role nor `term.dat`. -/
lemma of_same (hok : VoteOk id st) (hterm : st'.currentTerm = st.currentTerm)
    (hvote : st'.votedFor = st.votedFor) (hstate : st'.state = st.state)
    (hdir : st'.dataDir.map (·.term) = st.dataDir.map (·.term)) : QuietStep id st st' where
  ok := by
    refine ⟨fun hne => hvote.trans (hok.own (hstate ▸ hne)), ?_⟩
    intro dir t c hsome hread
    rw [hsome, map_some, hread] at hdir
    obtain ⟨old, hold, holdTerm⟩ := map_eq_some_iff.mp hdir.symm
    rw [hterm, hvote]
    exact hok.disk old t c hold holdTerm
  mono := hterm.ge
  keep _ _ := .inl hvote
  quiet := .inr ⟨hstate, hterm⟩

lemma refl (hok : VoteOk id st) : QuietStep id st st := of_same hok rfl rfl rfl rfl

/-- A second change that leaves the role and the term alone. -/
lemma trans (h : QuietStep id st st') (h' : QuietStep id st' st'')
    (hterm : st''.currentTerm = st'.currentTerm) (hstate : st''.state = st'.state) :
    QuietStep id st st'' where
  ok := h'.ok
  mono := h.mono.trans h'.mono
  keep heq hvote := by
    rcases h.keep (hterm.symm.trans heq) hvote with hsame | ⟨hcand, hfollow⟩
    · rcases h'.keep hterm (hsame ▸ hvote) with hsame' | ⟨hcand', hfollow'⟩
      · exact .inl (hsame'.trans hsame)
      · rw [hstate, hcand'] at hfollow'
        cases hfollow'
    · exact .inr ⟨hcand, hstate.trans hfollow⟩
  quiet := by
    unfold RoleKept
    rw [hstate, hterm]
    exact h.quiet

/-! ## The methods of `NodeState` -/

lemma becomeFollower (hok : VoteOk id st) (hlt : st.currentTerm < term) :
    QuietStep id st (st.becomeFollower term) where
  ok := by
    refine ⟨by simp, ?_⟩
    intro dir t c hdir hread
    obtain ⟨hle, _⟩ := hok.disk dir t c hdir hread
    exact ⟨hle.trans hlt.le, fun heq => absurd (heq.trans rfl) (hle.trans_lt hlt).ne⟩
  mono := hlt.le
  keep heq _ := absurd heq hlt.ne'
  quiet := .inl rfl

/-- The step down of a candidate within its own term gives up the vote. -/
lemma stepDown (hok : VoteOk id st) (hcand : st.state = .candidate) :
    QuietStep id st (st.becomeFollower st.currentTerm) where
  ok := by
    refine ⟨by simp, ?_⟩
    intro dir t c hdir hread
    obtain ⟨hle, hvote⟩ := hok.disk dir t c hdir hread
    refine ⟨hle, fun heq => .inr ⟨rfl, ?_⟩⟩
    have hown := hok.own (by simp [hcand])
    rcases hvote heq with hsame | ⟨_, hself⟩
    · exact hsame.symm.trans hown
    · exact hself
  mono := le_rfl
  keep _ _ := .inr ⟨hcand, rfl⟩
  quiet := .inl rfl

lemma setVotedFor (hid : id ≠ 0) (hok : VoteOk id st) {c : NodeId}
    (hfree : st.votedFor = 0 ∨ st.votedFor = c) : QuietStep id st (st.setVotedFor c) where
  ok := by
    refine ⟨?_, ?_⟩
    · intro hne
      have hown := hok.own hne
      rcases hfree with hzero | hsame
      · exact absurd (hown.symm.trans hzero) hid
      · exact hsame.symm.trans hown
    · intro dir t c hdir hread
      obtain ⟨old, _, rfl⟩ := map_eq_some_iff.mp hdir
      cases hread
      exact ⟨le_rfl, fun _ => .inl rfl⟩
  mono := le_rfl
  keep _ hvote := .inl (hfree.resolve_left hvote).symm
  quiet := .inr ⟨rfl, rfl⟩

lemma setLastApplied (hok : VoteOk id st) (index : Nat) :
    QuietStep id st (st.setLastApplied index) := by
  refine of_same hok rfl rfl rfl ?_
  simp only [NodeState.setLastApplied, NodeState.persistLastApplied_dataDir, map_map]
  rfl

/-! ## The handlers -/

lemma updateTerm (hok : VoteOk id st) : QuietStep id st (Raft.updateTerm term st) := by
  unfold Raft.updateTerm
  split
  next hlt => exact becomeFollower hok hlt
  · exact refl hok

lemma handleRequestVote (hid : id ≠ 0) (hok : VoteOk id st) (args : RequestVoteArgs) :
    QuietStep id st (Raft.handleRequestVote args st).1 := by
  unfold Raft.handleRequestVote
  split
  · exact refl hok
  · have hupdate : QuietStep id st (Raft.updateTerm args.term st) := updateTerm hok
    dsimp only
    split
    next hcan =>
      have hfree : (Raft.updateTerm args.term st).votedFor = 0 ∨
          (Raft.updateTerm args.term st).votedFor = args.candidateID := by
        simp only [canVote, Bool.and_eq_true, Bool.or_eq_true, decide_eq_true_eq] at hcan
        exact hcan.1
      exact hupdate.trans (setVotedFor hid hupdate.ok hfree) rfl rfl
    · exact hupdate

lemma acceptLeader (hok : VoteOk id st) {args : AppendEntriesArgs}
    (hge : st.currentTerm ≤ args.term) : QuietStep id st (Raft.acceptLeader args st) := by
  have hleaderID : ∀ {mid : NodeState}, QuietStep id st mid →
      QuietStep id st (mid.setLeaderID args.leaderID) :=
    fun h => h.trans (of_same h.ok rfl rfl rfl rfl) rfl rfl
  unfold Raft.acceptLeader
  split
  next hlt => exact hleaderID (becomeFollower hok hlt)
  next hle =>
    split
    next hcand =>
      obtain heq : args.term = st.currentTerm := by omega
      rw [heq]
      exact hleaderID (stepDown hok hcand)
    · exact hleaderID (refl hok)

lemma handleAppendEntries (hok : VoteOk id st) (args : AppendEntriesArgs) :
    QuietStep id st (Raft.handleAppendEntries args st).1 := by
  unfold Raft.handleAppendEntries
  split
  · exact refl hok
  · split
    · exact refl hok
    next hge =>
      have haccept := acceptLeader hok (not_lt.mp hge)
      dsimp only
      split
      · exact haccept
      · rw [storeEntries_eq]
        exact haccept.trans (of_same haccept.ok rfl rfl rfl rfl) rfl rfl

lemma handleAppendReply (hok : VoteOk id st) (peers : List NodeId) (peer : NodeId)
    (nextIndex count : Nat) (reply : AppendEntriesReply) :
    QuietStep id st (Raft.handleAppendReply peers peer nextIndex count reply st) := by
  unfold Raft.handleAppendReply
  split
  next hlt => exact becomeFollower hok hlt
  · split
    · rw [updateCommitIndex_eq]
      exact of_same hok rfl rfl rfl rfl
    · split
      · exact of_same hok rfl rfl rfl rfl
      · split
        · exact of_same hok rfl rfl rfl rfl
        · exact refl hok

lemma appendCommand (hok : VoteOk id st) (peers : List NodeId) (data : List UInt8) :
    QuietStep id st (Raft.appendCommand peers data st) := by
  rw [Raft.appendCommand, updateCommitIndex_eq]
  exact of_same hok rfl rfl rfl rfl

lemma applyNext {n : Node} (hok : VoteOk id n.st) (result : ApplyResult) :
    QuietStep id n.st (n.applyNext result).1.st := by
  unfold Node.applyNext
  split
  · exact refl hok
  · split
    · exact refl hok
    · exact setLastApplied hok _

/-- A restart that finds the current term in `term.dat` finds the vote there too. -/
lemma restart (hok : VoteOk id st) (hpersist : PersistedTerm st)
    (hrestart : st.restart = some st') : QuietStep id st st' := by
  obtain ⟨hstate, hread⟩ := NodeState.restart_vote hrestart
  rcases hread with ⟨dir, hdir, hpair, hkept⟩ | ⟨hnone, hterm, hvote, hdir⟩
  · have hdisk : ∀ t c, dir.term = some (t, c) → st'.currentTerm = t ∧ st'.votedFor = c := by
      intro t c hterm
      rw [hterm] at hpair
      exact Prod.mk.inj hpair
    have hterm : st'.currentTerm = st.currentTerm := by
      rcases hpersist with ⟨dir', c, hdir', hread⟩ | ⟨hzero, _⟩
      · obtain rfl : dir' = dir := some.inj (hdir'.symm.trans hdir)
        exact (hdisk _ c hread).1
      · cases hread : dir.term with
        | none =>
          rw [hread] at hpair
          rw [hzero]
          exact (Prod.mk.inj hpair).1
        | some pair =>
          obtain ⟨t, c⟩ := pair
          have := (hok.disk dir t c hdir hread).1
          have := (hdisk t c hread).1
          omega
    refine ⟨⟨fun hne => absurd hstate hne, ?_⟩, hterm.ge, ?_, .inl hstate⟩
    · intro dir' t c hdir' hread
      rw [hdir', map_some, Option.some.injEq] at hkept
      obtain ⟨ht, hc⟩ := hdisk t c (hkept ▸ hread)
      exact ⟨ht.ge, fun _ => .inl hc⟩
    · intro _ hvote
      rcases hpersist with ⟨dir', c, hdir', hread⟩ | ⟨_, hzero⟩
      · obtain rfl : dir' = dir := some.inj (hdir'.symm.trans hdir)
        have hmem := ((hok.disk dir' _ c hdir hread).2 rfl).resolve_right fun h => hvote h.1
        exact .inl ((hdisk _ c hread).2.trans hmem.symm)
      · exact absurd hzero hvote
  · rcases hpersist with ⟨dir', c, hdir', _⟩ | ⟨hzero, hfree⟩
    · rw [hnone] at hdir'
      cases hdir'
    · refine ⟨⟨fun hne => absurd hstate hne, ?_⟩, by omega, fun _ hne => absurd hfree hne,
        .inl hstate⟩
      intro dir' t c hdir' _
      rw [hdir] at hdir'
      cases hdir'

end QuietStep

/-- A granted vote is for the request's candidate in the request's term. -/
lemma handleRequestVote_granted {args : RequestVoteArgs} {st : NodeState}
    (hgranted : (handleRequestVote args st).2.voteGranted = true) :
    st.currentTerm ≤ args.term ∧ canVote args (updateTerm args.term st) = true ∧
      (handleRequestVote args st).1 = (updateTerm args.term st).setVotedFor args.candidateID ∧
      (updateTerm args.term st).currentTerm = args.term := by
  unfold handleRequestVote at hgranted ⊢
  split at hgranted
  · cases hgranted
  next hge =>
    dsimp only at hgranted
    split at hgranted
    next hcan =>
      refine ⟨not_lt.mp hge, hcan, by simp only [if_neg hge, hcan, if_true], ?_⟩
      unfold updateTerm
      split
      · rfl
      · omega
    · cases hgranted

/-! ## Processing a vote reply -/

/-- The outcomes of `Node.processVoteReply`. -/
inductive VoteOutcome (id : NodeId) (peers : List NodeId) (call : VoteCall)
    (reply : Option RequestVoteReply) (n : Node) : Node → Prop
  /-- Nobody reads the channel any more. -/
  | ignored : VoteOutcome id peers call reply n n
  | steppedDown (r : RequestVoteReply) (election : Option Election) (hreply : reply = some r)
      (hterm : call.args.term < r.term)
      (helection : election = n.election ∨ election = none) :
      VoteOutcome id peers call reply n
        { n with st := n.st.becomeFollower r.term, election := election }
  | abandoned (hstate : n.st.state ≠ .candidate) :
      VoteOutcome id peers call reply n { n with election := none }
  | won (r : RequestVoteReply) (e : Election) (helection : n.election = some e)
      (hballot : e.ballot = call.ballot) (hstate : n.st.state = .candidate)
      (hreply : reply = some r) (hgranted : r.voteGranted = true)
      (hvotes : (peers.length + 1) / 2 + 1 ≤ e.votes + 1) :
      VoteOutcome id peers call reply n
        { n with st := becomeLeader id peers n.st, election := none }
  | retried (e : Election) (helection : n.election = some e) :
      VoteOutcome id peers call reply n (n.startElection id)
  | counted (e : Election) (granted : Bool) (helection : n.election = some e)
      (hballot : e.ballot = call.ballot) (hstate : n.st.state = .candidate)
      (hreply : granted = true → ∃ r, reply = some r ∧ r.voteGranted = true) :
      VoteOutcome id peers call reply n { n with
          election := some { e with
            votes := if granted then e.votes + 1 else e.votes
            replies := e.replies + 1 } }

section

variable (id : NodeId) (peers : List NodeId) (call : VoteCall) (reply : Option RequestVoteReply)
  (n : Node)

lemma Node.pushVote_cases (granted : Bool)
    (hreply : granted = true → ∃ r, reply = some r ∧ r.voteGranted = true) :
    VoteOutcome id peers call reply n (n.pushVote id peers call.ballot granted) := by
  unfold pushVote
  split
  next hcurrent =>
    obtain ⟨e, helection, hballot⟩ := map_eq_some_iff.mp hcurrent
    simp only [receiveVote, helection]
    split
    next hstate => exact .abandoned hstate
    next hstate =>
      have hcand : n.st.state = .candidate := Classical.not_not.mp hstate
      split
      next hwin =>
        obtain ⟨r, rfl, hr⟩ := hreply hwin.1
        exact .won r e helection hballot hcand rfl hr hwin.2
      · split
        · exact .retried e helection
        · exact .counted e granted helection hballot hcand hreply
  · exact .ignored

lemma Node.processVoteReply_cases :
    VoteOutcome id peers call reply n (n.processVoteReply id peers call reply) := by
  unfold processVoteReply
  cases reply with
  | none => exact pushVote_cases id peers call none n false (by simp)
  | some r =>
    dsimp only
    split
    next hterm =>
      -- the goroutine has already made the node a follower when the loop sees `false`
      simp only [pushVote, receiveVote]
      split
      next hcurrent =>
        obtain ⟨e, helection, _⟩ := map_eq_some_iff.mp hcurrent
        simp only [helection, NodeState.becomeFollower_state, ne_eq, reduceCtorEq,
          not_false_eq_true, if_true]
        exact .steppedDown r none rfl hterm (.inr rfl)
      · exact .steppedDown r n.election rfl hterm (.inl rfl)
    · exact pushVote_cases id peers call (some r) n r.voteGranted (fun h => ⟨r, rfl, h⟩)

end

/-- The node of a candidate that has got a reply, or no reply, to a call. -/
lemma Cluster.processVoteReply_outcome (s : Cluster) (cfg : Config) (call : VoteCall)
    (reply : Option RequestVoteReply) :
    ∃ n, (s.node call.candidate).processVoteReply call.candidate (cfg.peers call.candidate) call
      reply = n ∧ VoteOutcome call.candidate (cfg.peers call.candidate) call reply
        (s.node call.candidate) n :=
  ⟨_, rfl, processVoteReply_cases ..⟩

/-- What a step does to the role of its node: nothing beyond `RoleKept`, unless it starts an
election in the next term or elects a candidate. -/
lemma Cluster.Step.role {cfg : Config} {s s' : Cluster} {action : Action}
    (hstep : Cluster.Step cfg s action s') :
    RoleKept (s.node action.actor).st (s'.node action.actor).st ∨
      (s'.node action.actor).st.currentTerm = (s.node action.actor).st.currentTerm + 1 ∨
      ((s.node action.actor).st.state = .candidate ∧
        (s'.node action.actor).st.currentTerm = (s.node action.actor).st.currentTerm) := by
  cases hstep <;> simp only [Action.actor, Cluster.put_node_self]
  case timeout => exact .inr (.inl rfl)
  case campaignAlone hcandidate _ _ => exact .inr (.inr ⟨hcandidate, rfl⟩)
  case campaign | replicate | applyScan => exact .inl (RoleKept.refl _)
  case deliverVote => exact .inl (handleRequestVote_role _ _)
  case voteReply call reply hwaiting hreply =>
    obtain ⟨n, hn, houtcome⟩ := s.processVoteReply_outcome cfg call reply
    rw [hn]
    cases houtcome with
    | ignored | abandoned | counted => exact .inl (RoleKept.refl _)
    | steppedDown => exact .inl (.inl rfl)
    | won r e hel hballot hstate => exact .inr (.inr ⟨hstate, rfl⟩)
    | retried => exact .inr (.inl rfl)
  case deliverAppend => exact .inl (handleAppendEntries_role _ _)
  case appendReply => exact .inl (handleAppendReply_role _ _ _ _ _ _)
  case propose => exact .inl (appendCommand_role _ _ _)
  case applyNext => exact .inl (applyNext_role _ _)
  case restart hid hrestart => exact .inl (.inl (NodeState.restart_vote hrestart).1)

end Oba.Raft
