import Oba.Library.Quorum
import Oba.Raft.Votes

/-! # Elections

The invariant behind election safety: every vote a candidate counts is a vote its voter
cast in that term and still stands by, so two leaders of one term would share a voter.
It survives every step except two: a vote reply that moves the node to a term it has
already reached, and a restart from an older `term.dat`.
-/

namespace Oba.Raft

open Quorum Option NodeState
open Cluster (init voteRequests put_node_self openElection)

/-- A vote reply of a higher term than its election makes the node a follower only in a
term the node has not reached yet. -/
def VoteFresh (s : Cluster) : Action → Prop
  | .voteReply call (some r) =>
    call.args.term < r.term → (s.node call.candidate).st.currentTerm < r.term
  | _ => True

def RestartKeepsTerm (s : Cluster) : Action → Prop
  | .restart id => PersistedTerm (s.node id).st
  | _ => True

/-- A request for votes names its sender and belongs to an election the sender has opened. -/
structure CallOk (cfg : Config) (s : Cluster) (call : VoteCall) : Prop where
  candidate : call.candidate ∈ cfg.members
  peer : call.peer ∈ cfg.peers call.candidate
  name : call.args.candidateID = call.candidate
  term : call.args.term ≤ (s.node call.candidate).st.currentTerm
  ballot : call.ballot < (s.node call.candidate).ballots

/-- The votes counted in an election that can still be won are distinct, were cast for the
candidate, and their goroutines are gone. -/
structure Counted (cfg : Config) (s : Cluster) (h : History) (id : NodeId) (e : Election)
    (voters : List NodeId) : Prop where
  nodup : voters.Nodup
  votes : e.votes = voters.length + 1
  peers : ∀ u ∈ voters, u ∈ cfg.peers id
  cast : ∀ u ∈ voters, h.vote u e.term = some id
  answered : ∀ u ∈ voters, ∀ c ∈ s.voteWaiting, c.candidate = id → c.ballot = e.ballot → c.peer ≠ u

structure RunningOk (cfg : Config) (s : Cluster) (h : History) (id : NodeId) (e : Election) :
    Prop where
  ballot : e.ballot < (s.node id).ballots
  calls : ∀ c ∈ s.voteCalls, c.candidate = id → c.ballot = e.ballot →
    c.args = ⟨e.term, id, e.lastLogIndex, e.lastLogTerm⟩
  term : (s.node id).st.state = .candidate → e.term = (s.node id).st.currentTerm
  counted : (s.node id).st.state = .candidate → ∃ voters, Counted cfg s h id e voters

structure ElectedOk (cfg : Config) (s : Cluster) (h : History) (t : Nat) (id : NodeId) : Prop where
  member : id ∈ cfg.members
  term : t ≤ (s.node id).st.currentTerm
  role : t = (s.node id).st.currentTerm → (s.node id).st.state ≠ .candidate
  quorum : ∃ quorum, Majority cfg.members quorum ∧ ∀ v ∈ quorum, h.vote v t = some id

structure ElectionInv (cfg : Config) (s : Cluster) (h : History) : Prop where
  ok : ∀ v, VoteOk v (s.node v).st
  voteNow : ∀ v, h.vote v (s.node v).st.currentTerm = History.voteOf (s.node v).st
  voteLater : ∀ v t, (s.node v).st.currentTerm < t → h.vote v t = none
  calls : ∀ c ∈ s.voteCalls, CallOk cfg s c
  waiting : ∀ c ∈ s.voteWaiting, c ∈ s.voteCalls
  waitingOnce : (s.voteWaiting.map fun c => (c.candidate, c.ballot, c.peer)).Nodup
  granted : ∀ c r, (c, r) ∈ s.voteReplies → r.voteGranted = true →
    c ∈ s.voteCalls ∧ c.args.term ≤ (s.node c.peer).st.currentTerm ∧
      h.vote c.peer c.args.term = some c.candidate
  running : ∀ id e, (s.node id).election = some e → RunningOk cfg s h id e
  elected : ∀ t id, (t, id) ∈ s.elected → ElectedOk cfg s h t id
  leading : ∀ id, (s.node id).st.state = .leader → ((s.node id).st.currentTerm, id) ∈ s.elected

lemma Config.mem_peers {cfg : Config} {id peer : NodeId} :
    peer ∈ cfg.peers id ↔ peer ∈ cfg.members ∧ peer ≠ id := by
  simp [Config.peers]

lemma Config.peers_nodup (cfg : Config) (id : NodeId) : (cfg.peers id).Nodup :=
  cfg.nodup.filter _

lemma Config.length_peers {cfg : Config} {id : NodeId} (hid : id ∈ cfg.members) :
    (cfg.peers id).length + 1 = cfg.members.length := by
  have herase : cfg.peers id = cfg.members.erase id := by
    rw [cfg.nodup.erase_eq_filter]
    exact List.filter_congr fun peer _ => by simp [bne, beq_eq_decide]
  rw [herase, List.length_erase_of_mem hid]
  have := List.length_pos_of_mem hid
  omega

lemma electionInv_init (cfg : Config) (hasDir : NodeId → Bool) :
    ElectionInv cfg (init hasDir) History.init := by
  have hst : ∀ v, ((init hasDir).node v).st.state = .follower ∧
      ((init hasDir).node v).st.votedFor = 0 ∧
      ∀ dir, ((init hasDir).node v).st.dataDir = some dir → dir.term = none := by
    intro v
    simp only [init, Node.start]
    cases hasDir v
    · simp [new]
    · simp [newInDir, new]
  refine ⟨?_, ?_, fun _ _ _ => rfl, by simp [init], by simp [init],
    by simp [init], by simp [init], ?_, by simp [init], ?_⟩
  · intro v
    refine ⟨fun hne => absurd (hst v).1 hne, ?_⟩
    intro dir t c hdir hread
    rw [(hst v).2.2 dir hdir] at hread
    cases hread
  · intro v
    simp [History.voteOf, (hst v).2.1, History.init]
  · intro id e helection
    cases helection
  · intro id hleader
    rw [(hst id).1] at hleader
    cases hleader

/-! ## One step -/

section Step

variable {cfg : Config} {s s' : Cluster} {h : History} {action : Action} {c : VoteCall}

/-- What a step does to the vote of the node that takes it. -/
abbrev Voted (s : Cluster) (action : Action) (s' : Cluster) : Prop :=
  VoteStep action.actor (s.node action.actor).st (s'.node action.actor).st

lemma ElectionInv.voteStep (hinv : ElectionInv cfg s h) (hstep : Cluster.Step cfg s action s')
    (hfresh : VoteFresh s action) (hkeep : RestartKeepsTerm s action) :
    Voted s action s' := by
  cases hstep <;> simp only [Voted, Action.actor, put_node_self]
  case timeout => exact VoteStep.startElection _ _
  case campaignAlone hcandidate _ _ => exact VoteStep.becomeLeader (hinv.ok _) hcandidate _
  case campaign | replicate | applyScan => exact (QuietStep.refl (hinv.ok _)).toVoteStep
  case deliverVote call hcall =>
    have hpeer := (Config.mem_peers.mp (hinv.calls call hcall).peer).1
    exact (QuietStep.handleRequestVote (fun hzero => cfg.nonzero (hzero ▸ hpeer))
      (hinv.ok _) _).toVoteStep
  case voteReply call reply hwaiting hreply =>
    obtain ⟨n, hn, houtcome⟩ := s.processVoteReply_outcome cfg call reply
    rw [hn]
    cases houtcome with
    | ignored | abandoned | counted => exact (QuietStep.refl (hinv.ok _)).toVoteStep
    | steppedDown r election hreply hterm =>
      subst hreply
      exact (QuietStep.becomeFollower (hinv.ok _) (hfresh hterm)).toVoteStep
    | won r e helection hballot hstate =>
      exact VoteStep.becomeLeader (hinv.ok _) hstate _
    | retried => exact VoteStep.startElection _ _
  case deliverAppend => exact (QuietStep.handleAppendEntries (hinv.ok _) _).toVoteStep
  case appendReply => exact (QuietStep.handleAppendReply (hinv.ok _) _ _ _ _ _).toVoteStep
  case propose => exact (QuietStep.appendCommand (hinv.ok _) _ _).toVoteStep
  case applyNext => exact (QuietStep.applyNext (hinv.ok _) _).toVoteStep
  case restart hrestart => exact (QuietStep.restart (hinv.ok _) hkeep hrestart).toVoteStep

lemma term_mono (hstep : Cluster.Step cfg s action s')
    (hvs : Voted s action s') (v : NodeId) :
    (s.node v).st.currentTerm ≤ (s'.node v).st.currentTerm := by
  by_cases hv : v = action.actor
  · exact hv ▸ hvs.mono
  · rw [hstep.node_of_ne hv]

/-- A recorded vote stays, unless it is a candidate's own and the candidate is the actor. -/
lemma ElectionInv.vote_stable (hinv : ElectionInv cfg s h)
    (hvs : Voted s action s')
    {v c : NodeId} {t : Nat} (hvote : h.vote v t = some c)
    (hside : v = action.actor → t = (s.node v).st.currentTerm →
      (s.node v).st.state = .candidate → c ≠ v) :
    (h.record s action s').vote v t = some c := by
  simp only [History.record]
  split
  next hnow =>
    obtain ⟨rfl, rfl⟩ := hnow
    have hterm : (s'.node action.actor).st.currentTerm = (s.node action.actor).st.currentTerm := by
      by_contra hne
      have hlater := hinv.voteLater action.actor _ (lt_of_le_of_ne hvs.mono (Ne.symm hne))
      rw [hlater] at hvote
      cases hvote
    rw [hterm, hinv.voteNow, History.voteOf] at hvote
    split at hvote
    · cases hvote
    next hne =>
      cases hvote
      rcases hvs.keep hterm hne with hsame | ⟨hcand, _⟩
      · rw [History.voteOf, hsame, if_neg hne]
      · have hown := (hinv.ok action.actor).own (by simp [hcand])
        exact absurd hown (hside rfl hterm hcand)
  · exact hvote

lemma ElectionInv.voteNow_step (hinv : ElectionInv cfg s h)
    (hstep : Cluster.Step cfg s action s') (v : NodeId) :
    (h.record s action s').vote v (s'.node v).st.currentTerm =
      History.voteOf (s'.node v).st := by
  simp only [History.record]
  by_cases hv : v = action.actor
  · subst hv
    rw [if_pos ⟨rfl, rfl⟩]
  · rw [if_neg (fun hnow => hv hnow.1), hstep.node_of_ne hv, hinv.voteNow]

lemma ElectionInv.voteLater_step (hinv : ElectionInv cfg s h)
    (hstep : Cluster.Step cfg s action s')
    (hvs : Voted s action s')
    (v : NodeId) (t : Nat) (hlt : (s'.node v).st.currentTerm < t) :
    (h.record s action s').vote v t = none := by
  have hold := hinv.voteLater v t ((term_mono hstep hvs v).trans_lt hlt)
  simp only [History.record]
  rw [if_neg, hold]
  rintro ⟨rfl, rfl⟩
  exact lt_irrefl _ hlt

lemma candidate_of_mem_voteRequests {cfg : Config} {id : NodeId} {n : Node}
    (hc : c ∈ voteRequests cfg id n) : c.candidate = id := by
  obtain ⟨_, _, rfl⟩ := List.mem_map.mp hc
  rfl

section

variable (hstep : Cluster.Step cfg s action s')
include hstep

lemma Cluster.Step.ballots_mono (v : NodeId) : (s.node v).ballots ≤ (s'.node v).ballots := by
  by_cases hv : v = action.actor
  · subst hv
    cases hstep <;> simp only [Action.actor, put_node_self]
    case campaign => simp [openElection]
    case voteReply call reply hwaiting hreply =>
      obtain ⟨n, hn, houtcome⟩ := s.processVoteReply_outcome cfg call reply
      rw [hn]
      cases houtcome <;> exact le_rfl
    case applyNext id result hid hmore =>
      unfold Node.applyNext
      split
      · exact le_rfl
      · split <;> exact le_rfl
    all_goals exact le_rfl
  · rw [hstep.node_of_ne hv]

/-- A request on the wire is an old one, or was sent by the election that just opened. -/
lemma Cluster.Step.mem_voteCalls (hc : c ∈ s'.voteCalls) :
    c ∈ s.voteCalls ∨ (action = .campaign c.candidate ∧ c.candidate ∈ cfg.members ∧
      c ∈ voteRequests cfg c.candidate (s.node c.candidate) ∧
      s'.node c.candidate = openElection (s.node c.candidate)) := by
  cases hstep
  case campaign id hid hcandidate hidle =>
    rcases List.mem_append.mp hc with hnew | hold
    · right
      obtain rfl := candidate_of_mem_voteRequests hnew
      exact ⟨rfl, hid, hnew, put_node_self ..⟩
    · exact .inl hold
  all_goals exact .inl hc

lemma Cluster.Step.voteCalls_subset (hc : c ∈ s.voteCalls) : c ∈ s'.voteCalls := by
  cases hstep
  case campaign => exact List.mem_append_right _ hc
  all_goals exact hc

lemma Cluster.Step.mem_voteWaiting (hc : c ∈ s'.voteWaiting) :
    c ∈ s.voteWaiting ∨ (action = .campaign c.candidate ∧
      c ∈ voteRequests cfg c.candidate (s.node c.candidate)) := by
  cases hstep
  case campaign id hid hcandidate hidle =>
    rcases List.mem_append.mp hc with hnew | hold
    · right
      obtain rfl := candidate_of_mem_voteRequests hnew
      exact ⟨rfl, hnew⟩
    · exact .inl hold
  case voteReply => exact .inl (List.mem_of_mem_erase hc)
  case restart => exact .inl (List.mem_filter.mp hc).1
  all_goals exact .inl hc

end

section

variable (hinv : ElectionInv cfg s h)
include hinv

section

variable (hstep : Cluster.Step cfg s action s')
include hstep

lemma ElectionInv.calls_step
    (hvs : Voted s action s') :
    ∀ c ∈ s'.voteCalls, CallOk cfg s' c := by
  intro c hc
  rcases hstep.mem_voteCalls hc with hold | ⟨_, hid, hnew, hopen⟩
  · obtain ⟨hcandidate, hpeer, hname, hterm, hballot⟩ := hinv.calls c hold
    exact ⟨hcandidate, hpeer, hname, hterm.trans (term_mono hstep hvs _),
      hballot.trans_le (hstep.ballots_mono _)⟩
  · simp only [voteRequests, List.mem_map] at hnew
    obtain ⟨peer, hpeer, hcall⟩ := hnew
    rw [← hcall] at hopen ⊢
    exact ⟨hid, hpeer, rfl, by rw [hopen]; exact le_rfl, by rw [hopen]; exact lt_add_one _⟩

lemma ElectionInv.waiting_step : ∀ c ∈ s'.voteWaiting, c ∈ s'.voteCalls := by
  intro c hc
  rcases hstep.mem_voteWaiting hc with hold | ⟨haction, hnew⟩
  · exact hstep.voteCalls_subset (hinv.waiting c hold)
  · subst haction
    cases hstep with
    | campaignAlone => exact hinv.waiting c hc
    | campaign => exact List.mem_append_left _ hnew

lemma ElectionInv.waitingOnce_step :
    (s'.voteWaiting.map fun c => (c.candidate, c.ballot, c.peer)).Nodup := by
  cases hstep
  case campaign id hid hcandidate hidle =>
    simp only [List.map_append]
    refine List.nodup_append.mpr ⟨?_, hinv.waitingOnce, ?_⟩
    · simp only [voteRequests, List.map_map]
      refine List.Nodup.map ?_ (cfg.peers_nodup id)
      intro p q heq
      simpa using heq
    · -- the channel of the new election is a fresh one
      rintro key hnew _ hold rfl
      simp only [voteRequests, List.map_map, List.mem_map] at hnew hold
      obtain ⟨peer, _, rfl⟩ := hnew
      obtain ⟨c, hc, heq⟩ := hold
      obtain ⟨hcand, hballot, _⟩ := by simpa using heq
      have := (hinv.calls c (hinv.waiting c hc)).ballot
      rw [hcand, hballot] at this
      exact lt_irrefl _ this
  case voteReply =>
    exact hinv.waitingOnce.sublist ((List.erase_sublist ..).map _)
  case restart =>
    exact hinv.waitingOnce.sublist ((List.filter_sublist ..).map _)
  all_goals exact hinv.waitingOnce

section

variable (hvs : Voted s action s')
include hvs

lemma ElectionInv.granted_step :
    ∀ c r, (c, r) ∈ s'.voteReplies → r.voteGranted = true →
      c ∈ s'.voteCalls ∧ c.args.term ≤ (s'.node c.peer).st.currentTerm ∧
        (h.record s action s').vote c.peer c.args.term = some c.candidate := by
  have hold : ∀ c r, (c, r) ∈ s.voteReplies → r.voteGranted = true →
      c ∈ s'.voteCalls ∧ c.args.term ≤ (s'.node c.peer).st.currentTerm ∧
        (h.record s action s').vote c.peer c.args.term = some c.candidate := by
    intro c r hmem hgranted
    obtain ⟨hcall, hterm, hvote⟩ := hinv.granted c r hmem hgranted
    have hne := (Config.mem_peers.mp (hinv.calls c hcall).peer).2
    exact ⟨hstep.voteCalls_subset hcall, hterm.trans (term_mono hstep hvs _),
      hinv.vote_stable hvs hvote fun _ _ _ => hne.symm⟩
  intro c r hmem hgranted
  cases hstep
  case deliverVote call hcall =>
    rcases List.mem_cons.mp hmem with hnew | hmem
    · cases hnew
      obtain ⟨_, _, hst, hterm⟩ := handleRequestVote_granted hgranted
      have hcok := hinv.calls c hcall
      have hcandidate : c.candidate ≠ 0 := fun hzero => cfg.nonzero (hzero ▸ hcok.candidate)
      simp only [History.record, Action.actor, put_node_self, hst, History.voteOf,
        setVotedFor, persistTermAndVote_currentTerm,
        persistTermAndVote_votedFor, hterm, hcok.name, hcandidate, and_self, if_true,
        if_false]
      exact ⟨hcall, le_rfl, trivial⟩
    · exact hold c r hmem hgranted
  all_goals exact hold c r hmem hgranted

/-- The election of a node other than the acting one is not disturbed, nor is that of the
acting node while it stays a candidate of the same term. -/
lemma RunningOk.stable {id : NodeId} {e : Election} (hrun : RunningOk cfg s h id e)
    (hnew : action ≠ .campaign id)
    (hrole : (s'.node id).st.state = .candidate → (s.node id).st.state = .candidate ∧
      (s'.node id).st.currentTerm = (s.node id).st.currentTerm) :
    RunningOk cfg s' (h.record s action s') id e where
  ballot := hrun.ballot.trans_le (hstep.ballots_mono id)
  calls := by
    intro c hc hcand hballot
    rcases hstep.mem_voteCalls hc with hold | ⟨haction, _⟩
    · exact hrun.calls c hold hcand hballot
    · exact absurd (hcand ▸ haction) hnew
  term := by
    intro hc
    obtain ⟨hcand, hterm⟩ := hrole hc
    rw [hterm, hrun.term hcand]
  counted := by
    intro hc
    obtain ⟨voters, hcounted⟩ := hrun.counted (hrole hc).1
    refine ⟨voters, hcounted.nodup, hcounted.votes, hcounted.peers, ?_, ?_⟩
    · intro u hu
      have hne := (Config.mem_peers.mp (hcounted.peers u hu)).2
      exact hinv.vote_stable hvs (hcounted.cast u hu) fun _ _ _ => hne.symm
    · intro u hu c hwait hcand hballot
      rcases hstep.mem_voteWaiting hwait with hold | ⟨haction, _⟩
      · exact hcounted.answered u hu c hold hcand hballot
      · exact absurd (hcand ▸ haction) hnew

end

end

/-- A vote counted: the goroutine's peer joins the voters. -/
lemma RunningOk.count {call : VoteCall} {e : Election} {reply : Option RequestVoteReply}
    {granted : Bool} (hwaiting : call ∈ s.voteWaiting)
    (hreplies : ∀ r ∈ reply, (call, r) ∈ s.voteReplies)
    (hrun : RunningOk cfg s h call.candidate e) (hballot : e.ballot = call.ballot)
    (hstate : (s.node call.candidate).st.state = .candidate)
    (hgranted : granted = true → ∃ r, reply = some r ∧ r.voteGranted = true) :
    ∃ voters : List NodeId, voters.Nodup ∧
      (if granted then e.votes + 1 else e.votes) = voters.length + 1 ∧
      (∀ u ∈ voters, u ∈ cfg.peers call.candidate) ∧
      (∀ u ∈ voters, h.vote u e.term = some call.candidate) ∧
      ∀ u ∈ voters, ∀ c ∈ s.voteWaiting.erase call, c.candidate = call.candidate →
        c.ballot = e.ballot → c.peer ≠ u := by
  obtain ⟨voters, hcounted⟩ := hrun.counted hstate
  have hcall := hinv.waiting call hwaiting
  cases granted with
  | false =>
    refine ⟨voters, hcounted.nodup, hcounted.votes, hcounted.peers, hcounted.cast, ?_⟩
    exact fun u hu c hc => hcounted.answered u hu c (List.mem_of_mem_erase hc)
  | true =>
    obtain ⟨r, rfl, hr⟩ := hgranted rfl
    obtain ⟨_, _, hvote⟩ := hinv.granted call r (hreplies r rfl) hr
    have hargs := hrun.calls call hcall rfl hballot.symm
    refine ⟨call.peer :: voters, ?_, ?_, ?_, ?_, ?_⟩
    · refine List.nodup_cons.mpr ⟨fun hmem => ?_, hcounted.nodup⟩
      exact hcounted.answered _ hmem call hwaiting rfl hballot.symm rfl
    · simp [hcounted.votes]
    · exact List.forall_mem_cons.mpr ⟨(hinv.calls call hcall).peer, hcounted.peers⟩
    · rw [hargs] at hvote
      exact List.forall_mem_cons.mpr ⟨hvote, hcounted.cast⟩
    · intro u hu c hc hcand hb
      rcases List.mem_cons.mp hu with rfl | hu
      · -- no second goroutine of this election waits for the same peer
        intro hpeer
        have honce : c = call := by
          have hinj := List.inj_on_of_nodup_map hinv.waitingOnce
          exact hinj (List.mem_of_mem_erase hc) hwaiting
            (by rw [hcand, hb, hballot, hpeer])
        have hnodup : s.voteWaiting.Nodup := hinv.waitingOnce.of_map _
        rw [honce] at hc
        exact (hnodup.not_mem_erase) hc
      · exact hcounted.answered u hu c (List.mem_of_mem_erase hc) hcand hb

lemma RunningOk.opened {id : NodeId} (hstep : Cluster.Step cfg s (.campaign id) s')
    (hnode : s'.node id = openElection (s.node id)) :
    RunningOk cfg s' (h.record s (.campaign id) s') id
      ⟨(s.node id).ballots, (s.node id).st.currentTerm, (s.node id).st.log.lastIndex,
        (s.node id).st.log.lastTerm, 1, 0⟩ where
  ballot := by
    rw [hnode]
    exact lt_add_one _
  calls := by
    intro c hc hcand hballot
    rcases hstep.mem_voteCalls hc with hold | ⟨_, _, hnew, _⟩
    · have := (hinv.calls c hold).ballot
      rw [hcand, hballot] at this
      exact absurd this (lt_irrefl _)
    · rw [hcand] at hnew
      simp only [voteRequests, List.mem_map] at hnew
      obtain ⟨_, _, rfl⟩ := hnew
      rfl
  term _ := by
    rw [hnode]
    rfl
  counted _ := ⟨[], List.nodup_nil, rfl, by simp, by simp, by simp⟩

section

variable (hstep : Cluster.Step cfg s action s')
include hstep

lemma ElectionInv.running_step
    (hvs : Voted s action s') :
    ∀ id e, (s'.node id).election = some e → RunningOk cfg s' (h.record s action s') id e := by
  intro id e helection
  by_cases hid : id = action.actor
  swap
  · rw [hstep.node_of_ne hid] at helection
    refine RunningOk.stable hinv hstep hvs (hinv.running id e helection) ?_ ?_
    · rintro rfl
      exact hid rfl
    · intro hc
      rw [hstep.node_of_ne hid] at hc ⊢
      exact ⟨hc, rfl⟩
  subst hid
  -- steps that leave the election of their node as it is
  have hsame : (s'.node action.actor).election = (s.node action.actor).election →
      action ≠ .campaign action.actor →
      ((s'.node action.actor).st.state = .candidate →
        (s.node action.actor).st.state = .candidate ∧
          (s'.node action.actor).st.currentTerm = (s.node action.actor).st.currentTerm) →
      RunningOk cfg s' (h.record s action s') action.actor e := fun heq hne hrole =>
    RunningOk.stable hinv hstep hvs (hinv.running _ e (heq ▸ helection)) hne hrole
  cases hstep <;> simp only [Action.actor, put_node_self] at helection hsame hvs ⊢
  case timeout => simp [Node.startElection] at helection
  case campaignAlone hidle _ => simp [hidle] at helection
  case campaign hid hcandidate hidle =>
    cases helection
    exact RunningOk.opened hinv (.campaign hid hcandidate hidle) (put_node_self ..)
  case deliverVote => exact hsame trivial (by simp) (handleRequestVote_role _ _).of_candidate
  case voteReply call reply hwaiting hreply =>
    obtain ⟨n, hn, houtcome⟩ := s.processVoteReply_outcome cfg call reply
    rw [hn] at helection hsame hvs ⊢
    cases houtcome with
    | ignored => exact hsame rfl (by simp) fun hc => ⟨hc, rfl⟩
    | steppedDown r election hr hterm hel =>
      rcases hel with rfl | rfl
      · exact hsame rfl (by simp) fun hc => by cases hc
      · cases helection
    | abandoned | won | retried => cases helection
    | counted e₀ granted hel hballot hstate hgranted =>
      cases helection
      have hrun := hinv.running _ e₀ hel
      obtain ⟨voters, hnodup, hvotes, hpeers, hcast, hanswered⟩ :=
        RunningOk.count hinv hwaiting hreply hrun hballot hstate hgranted
      refine ⟨?_, hrun.calls, ?_, fun _ => ⟨voters, hnodup, hvotes, hpeers, ?_, hanswered⟩⟩
      · simpa using hrun.ballot
      · simpa using hrun.term
      · intro u hu
        have hne := (Config.mem_peers.mp (hpeers u hu)).2
        exact hinv.vote_stable (by simpa [Action.actor] using hvs) (hcast u hu)
          fun _ _ _ => hne.symm
  case replicate => exact hsame trivial (by simp) fun hc => ⟨hc, trivial⟩
  case deliverAppend => exact hsame trivial (by simp) (handleAppendEntries_role _ _).of_candidate
  case appendReply =>
    exact hsame rfl (by simp) (handleAppendReply_role _ _ _ _ _ _).of_candidate
  case propose => exact hsame trivial (by simp) (appendCommand_role _ _ _).of_candidate
  case applyScan => exact hsame rfl (by simp) fun hc => ⟨hc, rfl⟩
  case applyNext result hid hmore =>
    refine hsame ?_ (by simp) (Node.applyNext_role result _).of_candidate
    unfold Node.applyNext
    split
    · rfl
    · split <;> rfl
  case restart => cases helection

/-- A node that becomes leader was a candidate with the recorded votes of a majority. -/
lemma ElectionInv.winner (hlead : (s'.node action.actor).st.state = .leader)
    (hnot : (s.node action.actor).st.state ≠ .leader) :
    ∃ voters, (∀ v ∈ voters, v ≠ action.actor ∧
        h.vote v (s.node action.actor).st.currentTerm = some action.actor) ∧
      Majority cfg.members (action.actor :: voters).toFinset := by
  have hquiet : ¬ RoleKept (s.node action.actor).st (s'.node action.actor).st :=
    fun hkept => hnot (hkept.of_leader hlead).1
  cases hstep <;> simp only [Action.actor, put_node_self] at hlead hnot hquiet ⊢
  case timeout => simp [Node.startElection, setVotedFor] at hlead
  case campaignAlone hid _ _ halone =>
    refine ⟨[], by simp, Majority.of_voters hid (by simp) (by simp) ?_⟩
    have := Config.length_peers hid
    rw [halone] at this
    omega
  case campaign hcandidate _ => simp [openElection, hcandidate] at hlead
  case deliverVote => exact absurd (handleRequestVote_role _ _) hquiet
  case voteReply call reply hwaiting hreply =>
    obtain ⟨n, hn, houtcome⟩ := s.processVoteReply_outcome cfg call reply
    rw [hn] at hlead
    cases houtcome with
    | ignored | abandoned | counted => exact absurd hlead hnot
    | steppedDown => cases hlead
    | won r e hel hballot hstate hr hgranted hvotes =>
      have hrun := hinv.running _ e hel
      obtain ⟨voters, hnodup, hcount, hpeers, hcast, _⟩ :=
        RunningOk.count hinv hwaiting hreply hrun hballot hstate
          (fun _ => ⟨r, hr, hgranted⟩ : true = true → _)
      have hid := (hinv.calls call (hinv.waiting call hwaiting)).candidate
      rw [if_pos rfl] at hcount
      refine ⟨voters, ?_, Majority.of_voters hid ?_ ?_ ?_⟩
      · intro v hv
        refine ⟨(Config.mem_peers.mp (hpeers v hv)).2, ?_⟩
        rw [← hrun.term hstate]
        exact hcast v hv
      · exact fun v hv => (Config.mem_peers.mp (hpeers v hv)).1
      · refine List.nodup_cons.mpr ⟨fun hmem => ?_, hnodup⟩
        exact (Config.mem_peers.mp (hpeers _ hmem)).2 rfl
      · have := Config.length_peers hid
        omega
    | retried => simp [Node.startElection, setVotedFor] at hlead
  case replicate | applyScan => exact absurd hlead hnot
  case deliverAppend => exact absurd (handleAppendEntries_role _ _) hquiet
  case appendReply => exact absurd (handleAppendReply_role _ _ _ _ _ _) hquiet
  case propose => exact absurd (appendCommand_role _ _ _) hquiet
  case applyNext => exact absurd (Node.applyNext_role _ _) hquiet
  case restart hrestart => exact absurd (.inl (restart_vote hrestart).1) hquiet

section

variable (hvs : Voted s action s')
include hvs

lemma ElectionInv.elected_step :
    ∀ t id, (t, id) ∈ s'.elected → ElectedOk cfg s' (h.record s action s') t id := by
  have hold : ∀ t id, (t, id) ∈ s.elected → ElectedOk cfg s' (h.record s action s') t id := by
    intro t id hmem
    obtain ⟨hmember, hterm, hrole, quorum, hmajority, hvotes⟩ := hinv.elected t id hmem
    refine ⟨hmember, hterm.trans (term_mono hstep hvs id), ?_, quorum, hmajority, ?_⟩
    · intro heq hcand
      by_cases hid : id = action.actor
      · subst hid
        rcases hvs.candidate hcand with hlt | ⟨hcand, hsame⟩
        · omega
        · exact hrole (heq.trans hsame) hcand
      · rw [hstep.node_of_ne hid] at heq hcand
        exact hrole heq hcand
    · intro v hv
      refine hinv.vote_stable hvs (hvotes v hv) ?_
      rintro _ htv hcand rfl
      exact hrole htv hcand
  intro t id hmem
  rw [hstep.elected_eq] at hmem
  split at hmem
  next hnew =>
    rcases List.mem_cons.mp hmem with heq | hmem
    · cases heq
      obtain ⟨hlead, hnot⟩ := hnew
      obtain ⟨voters, hvoters, hmajority⟩ := hinv.winner hstep hlead hnot
      have hterm := (hvs.leader hlead).1
      have hmember : action.actor ∈ cfg.members :=
        List.mem_toFinset.mp (hmajority.subset (List.mem_toFinset.mpr List.mem_cons_self))
      refine ⟨hmember, le_rfl, fun _ => by simp [hlead], _, hmajority, ?_⟩
      intro v hv
      rcases List.mem_cons.mp (List.mem_toFinset.mp hv) with rfl | hmem
      · have hown := hvs.ok.own (by simp [hlead])
        have hzero : action.actor ≠ 0 := fun hzero => cfg.nonzero (hzero ▸ hmember)
        simp [History.record, History.voteOf, hown, hzero]
      · obtain ⟨hne, hvote⟩ := hvoters v hmem
        rw [hterm]
        exact hinv.vote_stable hvs hvote fun hv => absurd hv hne
    · exact hold t id hmem
  · exact hold t id hmem

lemma ElectionInv.leading_step :
    ∀ id, (s'.node id).st.state = .leader → ((s'.node id).st.currentTerm, id) ∈ s'.elected := by
  intro id hlead
  by_cases hid : id = action.actor
  · subst hid
    by_cases hbefore : (s.node action.actor).st.state = .leader
    · rw [(hvs.leader hlead).1]
      exact hstep.elected_subset (hinv.leading _ hbefore)
    · rw [hstep.elected_eq, if_pos ⟨hlead, hbefore⟩]
      exact List.mem_cons_self
  · rw [hstep.node_of_ne hid] at hlead ⊢
    exact hstep.elected_subset (hinv.leading id hlead)

end

lemma ElectionInv.step (hfresh : VoteFresh s action) (hkeep : RestartKeepsTerm s action) :
    ElectionInv cfg s' (h.record s action s') := by
  have hvs := hinv.voteStep hstep hfresh hkeep
  refine ⟨?_, hinv.voteNow_step hstep, hinv.voteLater_step hstep hvs, hinv.calls_step hstep hvs,
    hinv.waiting_step hstep, hinv.waitingOnce_step hstep, hinv.granted_step hstep hvs,
    hinv.running_step hstep hvs, hinv.elected_step hstep hvs,
    hinv.leading_step hstep hvs⟩
  intro v
  by_cases hv : v = action.actor
  · exact hv ▸ hvs.ok
  · rw [hstep.node_of_ne hv]
    exact hinv.ok v

end

end

end Step

/-! ## Election safety -/

/-- The steps of a run without crashes. -/
def CrashFree : Action → Prop
  | .restart _ => False
  | _ => True

instance (action : Action) : Decidable (CrashFree action) := by
  cases action <;> unfold CrashFree <;> infer_instance

instance (s : Cluster) (action : Action) : Decidable (VoteFresh s action) := by
  unfold VoteFresh
  split <;> infer_instance

lemma CrashFree.keepsTerm {s : Cluster} {action : Action} (hfree : CrashFree action) :
    RestartKeepsTerm s action := by
  cases action <;> first | exact hfree.elim | trivial

/-- Two elections of one term share a voter, and a voter has one vote. -/
lemma ElectionInv.leader_unique {cfg : Config} {s : Cluster} {h : History}
    (hinv : ElectionInv cfg s h) {t : Nat} {a b : NodeId} (ha : (t, a) ∈ s.elected)
    (hb : (t, b) ∈ s.elected) : a = b := by
  obtain ⟨first, hfirst, hvotesA⟩ := (hinv.elected t a ha).quorum
  obtain ⟨second, hsecond, hvotesB⟩ := (hinv.elected t b hb).quorum
  obtain ⟨v, hva, hvb⟩ := hfirst.exists_common hsecond
  exact some.inj ((hvotesA v hva).symm.trans (hvotesB v hvb))

lemma electionInv_of_run {cfg : Config} {hasDir : NodeId → Bool} {trace : List Action}
    {s : Cluster} {h : History} {ok : Cluster × History → Action → Prop}
    (hrun : Execution.Run (Execution.withHistory (Cluster.step cfg) History.record) ok
      (init hasDir, History.init) trace (s, h))
    (hok : ∀ current action, ok current action →
      VoteFresh current.1 action ∧ RestartKeepsTerm current.1 action) :
    ElectionInv cfg s h := by
  refine hrun.invariant (fun current => ElectionInv cfg current.1 current.2)
    (electionInv_init cfg hasDir) ?_
  intro current action next hinv hside hnext
  obtain ⟨hstep, hrecord⟩ := Execution.withHistory_eq_some hnext
  obtain ⟨hfresh, hkeep⟩ := hok current action hside
  rw [hrecord]
  exact hinv.step (Cluster.step_cases hstep) hfresh hkeep

/-- In every run without crashes in which no vote reply takes its node back to a term it has
already reached, no two nodes are elected in one term. -/
theorem election_safety (cfg : Config) (hasDir : NodeId → Bool) (trace : List Action) (s : Cluster)
    (hrun : Execution.Run (Cluster.step cfg) (fun s a => CrashFree a ∧ VoteFresh s a)
      (Cluster.init hasDir) trace s) (t : Nat) (a b : NodeId) (ha : (t, a) ∈ s.elected)
    (hb : (t, b) ∈ s.elected) : a = b := by
  obtain ⟨h, hrun⟩ := hrun.exists_history History.record History.init
  have hinv := electionInv_of_run hrun fun _ _ hok => ⟨hok.2, hok.1.keepsTerm⟩
  exact hinv.leader_unique ha hb

/-- The cluster of nodes 1, 2 and 3. -/
def threeNodes : Config := ⟨[1, 2, 3], by decide, by decide⟩

/-- The request for votes of candidate `c` with an empty log in its election number `ballot`. -/
def emptyLogRequest (c ballot peer term : Nat) : VoteCall := ⟨c, ballot, peer, ⟨term, c, 0, 0⟩⟩

/-- Node 1 wins the election of term 1 with the vote of node 2. -/
def quietElection : List Action :=
  [.timeout 1, .campaign 1, .deliverVote (emptyLogRequest 1 0 2 1),
    .voteReply (emptyLogRequest 1 0 2 1) (some ⟨1, true⟩)]

theorem election_safety_quietElection :
    ∃ s, Execution.Run (Cluster.step threeNodes) (fun s a => CrashFree a ∧ VoteFresh s a)
        (Cluster.init fun _ => true) quietElection s ∧ (1, 1) ∈ s.elected ∧
      ∀ a, (1, a) ∈ s.elected → a = 1 :=
  (Execution.exists_run (P := fun s => (1, 1) ∈ s.elected) (by decide +kernel)).imp fun s h =>
    ⟨h.1, h.2, fun a ha => election_safety _ _ _ _ h.1 1 a 1 ha h.2⟩

/-- Node 1 votes for node 3 in term 2. A reply to its election of term 1 then arrives from
node 2, which has meanwhile reached term 2 as well; it clears the vote, and node 1 votes for
node 2 in the same term. -/
def lateReplyElections : List Action :=
  [.timeout 1, .campaign 1, .timeout 2, .campaign 2, .timeout 2, .campaign 2,
    .deliverVote (emptyLogRequest 1 0 2 1),
    .timeout 3, .campaign 3, .timeout 3, .campaign 3,
    .deliverVote (emptyLogRequest 3 1 1 2),
    .voteReply (emptyLogRequest 3 1 1 2) (some ⟨2, true⟩),
    .voteReply (emptyLogRequest 1 0 2 1) (some ⟨2, false⟩),
    .deliverVote (emptyLogRequest 2 1 1 2),
    .voteReply (emptyLogRequest 2 1 1 2) (some ⟨2, true⟩)]

theorem lateReplyElections_two_leaders :
    ∃ s, Execution.Run (Cluster.step threeNodes) (fun _ a => CrashFree a)
        (Cluster.init fun _ => true) lateReplyElections s ∧
      (2, 2) ∈ s.elected ∧ (2, 3) ∈ s.elected :=
  Execution.exists_run (by decide +kernel)

end Oba.Raft
