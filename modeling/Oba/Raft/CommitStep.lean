import Oba.Raft.Commit

/-! # Commitment is kept by every step

Each clause of `CommitInv` is carried over one step of the cluster, under the conditions that
keep the code to the protocol: replies are processed by the election or leadership that sent
the request, and a restart reads back the term, the log and the commit index.
-/

namespace Oba.Raft

open TermLog Quorum List RaftLog
open History (ackOf voteOf)

/-- A successful AppendEntries reply is processed while its node still leads the term the
request was sent in. -/
def AppendFresh (s : Cluster) : Action → Prop
  | .appendReply call r =>
    r.success = true → r.term ≤ (s.node call.leader).st.currentTerm →
      (s.node call.leader).st.state = .leader ∧ (s.node call.leader).st.currentTerm = call.args.term
  | _ => True

instance (s : Cluster) (action : Action) : Decidable (AppendFresh s action) := by
  apply @Action.casesOn (fun a => Decidable (AppendFresh s a)) action <;> intros <;>
    unfold AppendFresh <;> infer_instance

/-- The commit index a restarted node assumes is the one it had. -/
def RestartKeepsCommit (s : Cluster) : Action → Prop
  | .restart id => (s.node id).st.commitIndex = (s.node id).st.log.lastIndex
  | _ => True

/-- The conditions under which a step keeps to the protocol. -/
@[mk_iff]
structure SafeStep (s : Cluster) (action : Action) : Prop where
  vote : VoteFresh s action
  append : AppendFresh s action
  keepsTerm : RestartKeepsTerm s action
  keepsLog : RestartKeepsLog s action
  keepsCommit : RestartKeepsCommit s action

namespace Cluster.Step

variable {cfg : Config} {s s' : Cluster} {action : Action} {c : AppendCall}

/-- A reply on the wire is an old one, or the answer just given. -/
lemma mem_appendReplies (hstep : Step cfg s action s') {r : AppendEntriesReply}
    (hmem : (c, r) ∈ s'.appendReplies) :
    (c, r) ∈ s.appendReplies ∨ (action = .deliverAppend c ∧
      r = (handleAppendEntries c.args (s.node c.peer).st).2) := by
  cases hstep
  case deliverAppend call hcall =>
    rcases mem_cons.mp hmem with hnew | hold
    · cases hnew
      exact .inr ⟨rfl, rfl⟩
    · exact .inl hold
  all_goals exact .inl hmem

/-- A request on the wire is an old one, or was just sent by a leader. -/
lemma mem_appendCalls (hstep : Step cfg s action s') (hmem : c ∈ s'.appendCalls) :
    c ∈ s.appendCalls ∨ ((s.node c.leader).st.state = .leader ∧ c.peer ∈ cfg.peers c.leader ∧
      c.args = replicateArgs c.leader c.peer (s.node c.leader).st) := by
  cases hstep
  case replicate id peer hid hpeer hleader =>
    rcases mem_cons.mp hmem with rfl | hold
    · exact .inr ⟨hleader, hpeer, rfl⟩
    · exact .inl hold
  all_goals exact .inl hmem

end Cluster.Step

/-- A node that has stored entries is no candidate. -/
lemma storeEntries_ne_candidate (args : AppendEntriesArgs) (st : NodeState) :
    (storeEntries args (acceptLeader args st)).state ≠ .candidate := by
  intro hcand
  rw [storeEntries_eq] at hcand
  obtain ⟨hbefore, -⟩ := (acceptLeader_role args st).of_candidate hcand
  simp [acceptLeader, hbefore] at hcand

lemma RaftLog.lastTerm_eq_lastTerm (log : RaftLog) :
    log.lastTerm = TermLog.lastTerm LogEntry.term log.entries := by
  unfold RaftLog.lastTerm TermLog.lastTerm
  cases log.entries.getLast? <;> rfl

lemma canVote_upToDate {args : RequestVoteArgs} {st : NodeState} (hcan : canVote args st = true)
    (hlen : 0 < st.log.entries.length) : UpToDateArgs args st.log.entries := by
  simp only [canVote, Bool.and_eq_true, Bool.or_eq_true, decide_eq_true_eq,
    lastIndex_eq hlen, lastTerm_eq_lastTerm] at hcan
  rcases hcan.2 with hlt | ⟨heq, hge⟩
  · exact .inl hlt
  · exact .inr ⟨heq.symm, by omega⟩

/-- The vote is dropped, or kept within its term. -/
def VoteKept (st st' : NodeState) : Prop :=
  st'.votedFor = 0 ∨ (st'.votedFor = st.votedFor ∧ st'.currentTerm = st.currentTerm)

lemma VoteKept.refl (st : NodeState) : VoteKept st st := .inr ⟨rfl, rfl⟩

lemma acceptLeader_voteKept (args : AppendEntriesArgs) (st : NodeState) :
    VoteKept st (acceptLeader args st) := by
  unfold acceptLeader
  split
  · exact .inl rfl
  · split
    · exact .inl rfl
    · exact VoteKept.refl st

lemma handleAppendEntries_voteKept (args : AppendEntriesArgs) (st : NodeState) :
    VoteKept st (handleAppendEntries args st).1 := by
  rcases handleAppendEntries_cases args st with ⟨hst, _⟩ | ⟨_, hst, _⟩ | ⟨_, hst, _⟩
  · rw [hst]
    exact VoteKept.refl st
  · rw [hst]
    exact acceptLeader_voteKept args st
  · rw [hst, storeEntries_eq]
    exact acceptLeader_voteKept args st

lemma handleAppendReply_voteKept (peers : List NodeId) (peer : NodeId) (nextIndex count : Nat)
    (reply : AppendEntriesReply) (st : NodeState) :
    VoteKept st (handleAppendReply peers peer nextIndex count reply st) := by
  unfold handleAppendReply
  split
  · exact .inl rfl
  · split
    · rw [updateCommitIndex_eq]
      exact VoteKept.refl st
    · split
      · exact VoteKept.refl st
      · split <;> exact VoteKept.refl st

lemma handleRequestVote_voteKept {args : RequestVoteArgs} {st : NodeState}
    (hrefused : (handleRequestVote args st).2.voteGranted = false) :
    VoteKept st (handleRequestVote args st).1 := by
  unfold handleRequestVote at hrefused ⊢
  split
  · exact VoteKept.refl st
  · next hterm =>
    rw [if_neg hterm] at hrefused
    dsimp only at hrefused ⊢
    split at hrefused
    · cases hrefused
    · next hcan =>
      rw [if_neg hcan]
      unfold updateTerm
      split
      · exact .inl rfl
      · exact VoteKept.refl st

/-- Where a vote comes from: the node's own candidacy, the vote it had, or a request it has
just granted. -/
lemma ElectionInv.vote_source {cfg : Config} {s s' : Cluster} {h : History} {action : Action}
    (hinv : ElectionInv cfg s h) (hstep : Cluster.Step cfg s action s')
    (hkeep : RestartKeepsTerm s action) :
    (s'.node action.actor).st.votedFor = action.actor ∨
      VoteKept (s.node action.actor).st (s'.node action.actor).st ∨
      ∃ call, action = .deliverVote call ∧ call ∈ s.voteCalls ∧
        (handleRequestVote call.args (s.node call.peer).st).2.voteGranted = true := by
  have hkept : VoteKept (s.node action.actor).st (s.node action.actor).st := VoteKept.refl _
  cases hstep <;> simp only [Action.actor, Cluster.put_node_self] at hkept ⊢
  case timeout => exact .inl rfl
  case deliverVote call hcall =>
    cases hgranted : (handleRequestVote call.args (s.node call.peer).st).2.voteGranted with
    | true => exact .inr (.inr ⟨call, rfl, hcall, hgranted⟩)
    | false => exact .inr (.inl (handleRequestVote_voteKept hgranted))
  case voteReply call reply hwaiting hreply =>
    obtain ⟨n, hn, houtcome⟩ := s.processVoteReply_outcome cfg call reply
    rw [hn]
    cases houtcome with
    | steppedDown => exact .inr (.inl (.inl rfl))
    | retried => exact .inl rfl
    | _ => exact .inr (.inl hkept)
  case deliverAppend => exact .inr (.inl (handleAppendEntries_voteKept _ _))
  case appendReply => exact .inr (.inl (handleAppendReply_voteKept _ _ _ _ _ _))
  case propose =>
    rw [appendCommand, updateCommitIndex_eq]
    exact .inr (.inl hkept)
  case applyNext =>
    unfold Node.applyNext
    split
    · exact .inr (.inl hkept)
    · split <;> exact .inr (.inl hkept)
  case restart id st hid hrestart =>
    obtain ⟨_, hread⟩ := NodeState.restart_vote hrestart
    rcases hread with ⟨dir, hdir, hpair, _⟩ | ⟨_, _, hzero, _⟩
    swap
    · exact .inr (.inl (.inl hzero))
    rcases hkeep with ⟨dir', c, hdir', hterm⟩ | ⟨hterm, hvote⟩
    · cases hdir.symm.trans hdir'
      rw [hterm] at hpair
      obtain ⟨hsame, hread⟩ := Prod.mk.inj hpair
      rcases ((hinv.ok id).disk dir _ c hdir hterm).2 rfl with heq | ⟨_, rfl⟩
      · exact .inr (.inl (.inr ⟨hread.trans heq.symm, hsame⟩))
      · exact .inl hread
    · cases hread : dir.term with
      | none =>
        rw [hread] at hpair
        exact .inr (.inl (.inl (Prod.mk.inj hpair).2))
      | some saved =>
        obtain ⟨t, c⟩ := saved
        rw [hread] at hpair
        obtain ⟨hle, hkeep⟩ := (hinv.ok id).disk dir t c hdir hread
        rcases hkeep (by omega) with heq | ⟨_, rfl⟩
        · exact .inr (.inl (.inl ((Prod.mk.inj hpair).2.trans (heq ▸ hvote))))
        · exact .inl (Prod.mk.inj hpair).2
  all_goals exact .inr (.inl hkept)

/-- One step from a state in which all invariants hold, with the election and log invariants
of the state after it. -/
structure Transition (cfg : Config) (s : Cluster) (h : History) (action : Action)
    (s' : Cluster) (h' : History) : Prop where
  elect : ElectionInv cfg s h
  log : LogInv cfg s h
  inv : CommitInv cfg s h
  step : Cluster.Step cfg s action s'
  record : h' = h.record s action s'
  ok : SafeStep s action
  unique : UniqueEpochs s'
  elect' : ElectionInv cfg s' h'
  log' : LogInv cfg s' h'

namespace Transition

variable {cfg : Config} {s s' : Cluster} {h h' : History} {action : Action}

section

variable (T : Transition cfg s h action s' h')
include T

lemma voteStep : Voted s action s' :=
  T.elect.voteStep T.step T.ok.vote T.ok.keepsTerm

lemma termMono (v : NodeId) : (s.node v).st.currentTerm ≤ (s'.node v).st.currentTerm :=
  term_mono T.step T.voteStep v

lemma grow (t : Nat) : h.leaderLog t <+: h'.leaderLog t := by
  rw [T.record]
  exact T.log.grow T.step T.unique T.ok.keepsLog t

end

variable {t i : Nat} {v : NodeId} {log : List LogEntry} {call : AppendCall}

section

variable (T : Transition cfg s h action s' h')
include T

lemma led (hled : Led s t) : Led s' t := by
  obtain ⟨id, hid⟩ := hled
  exact ⟨id, T.step.elected_subset hid⟩

lemma acked_eq (v : NodeId) (t : Nat) :
    h'.acked v t = if v = action.actor ∧ t = (s'.node action.actor).st.currentTerm then
      max (h.acked v t) (ackOf s action (s'.node action.actor).st) else h.acked v t := by
  rw [T.record]
  rfl

lemma acked_le (v : NodeId) (t : Nat) : h.acked v t ≤ h'.acked v t := by
  rw [T.acked_eq]
  split
  · exact le_max_left _ _
  · exact le_rfl

/-- What was acknowledged in a term the node has left stays as it is. -/
lemma acked_old (hlt : t < (s.node v).st.currentTerm) : h'.acked v t = h.acked v t := by
  rw [T.acked_eq, if_neg]
  rintro ⟨rfl, rfl⟩
  exact absurd (T.termMono action.actor) (Nat.not_le_of_lt hlt)

/-- Acknowledged indices are within the leader's log, where it does not change. -/
lemma leaderLog_acked (hpos : 0 < i) (hi : i ≤ h.acked v t) :
    AgreeUpTo i (h.leaderLog t) (h'.leaderLog t) := by
  have hlen := (T.inv.ackBound v t (hpos.trans_le hi)).2
  exact agreeUpTo_of_isPrefix (T.grow t) (hi.trans_lt hlen)

lemma committed (hcom : Committed cfg h t i) : Committed cfg h' t i := by
  obtain ⟨⟨e, he, hterm⟩, quorum, hquorum, hacked⟩ := hcom
  exact ⟨⟨e, getElem?_of_isPrefix (T.grow t) he, hterm⟩, quorum, hquorum,
    fun v hv => (hacked v hv).trans (T.acked_le v t)⟩

lemma safeUpTo {k b b' : Nat} (hsafe : SafeUpTo cfg h log k b) (hb : b ≤ b') :
    SafeUpTo cfg h' log k b' := by
  rcases hsafe with rfl | ⟨t, i, ht, hk, hcom, hagree⟩
  · exact .inl rfl
  · refine .inr ⟨t, i, ht.trans hb, hk, T.committed hcom, hagree.trans ?_⟩
    exact agreeUpTo_of_isPrefix (T.grow t) (hk.trans_lt hcom.lt_length)

/-- A log keeps holding what was acknowledged before, if no new acknowledgement is added. -/
lemma holds {later later' : Nat → Prop} (hholds : Holds h s v log later t)
    (hack : h'.acked v t = h.acked v t) (hlater : ∀ r, later r → later' r) :
    Holds h' s' v log later' t := by
  intro i e hpos hi he hterm
  rw [hack] at hi
  have hsame := T.leaderLog_acked hpos hi
  rw [← hsame i le_rfl] at he
  rcases hholds i e hpos hi he hterm with hagree | ⟨r, htr, hr, hled, hdiverge⟩
  · exact .inl (hagree.trans hsame)
  · exact .inr ⟨r, htr, hlater r hr, T.led hled, hdiverge.mono_of_isPrefix (T.grow r) (T.grow t)⟩

lemma voterLog (hvoter : VoterLog s h v t log) (hle : t ≤ (s.node v).st.currentTerm) :
    VoterLog s' h' v t log := by
  refine ⟨hvoter.coherent.of_origin_grow T.grow, ?_⟩
  intro t' ht'
  exact T.holds (hvoter.holds t' ht') (T.acked_old (ht'.trans_le hle)) fun _ hr => hr

/-! ## Logs -/

section

variable (haction : action = .deliverAppend call)
  (haccepted : Accepted call.args (s.node action.actor).st)
  (hst : (s'.node action.actor).st =
    storeEntries call.args (acceptLeader call.args (s.node action.actor).st))
include haction haccepted hst

/-- A stored batch: what the receiver's log was reconciled with. -/
lemma merged :
    call ∈ s.appendCalls ∧ (s'.node action.actor).st.currentTerm = call.args.term ∧
      Reconciled (call.args.prevLogIndex + call.args.entries.length)
        (h.leaderLog call.args.term) (s.node action.actor).st.log.entries
        (s'.node action.actor).st.log.entries ∧
      call.args.prevLogIndex + call.args.entries.length < (h.leaderLog call.args.term).length := by
  have hcall : call ∈ s.appendCalls := (haction ▸ T.step).mem_of_deliverAppend
  obtain ⟨hmerge, hlen⟩ := T.log.reconciled hcall (T.log.nodeLog action.actor) haccepted
  refine ⟨hcall, ?_, ?_, hlen⟩
  · rw [hst, storeEntries_eq]
    exact acceptLeader_term haccepted.term
  · rw [hst]
    exact hmerge

/-- Nobody stores entries while it leads. -/
lemma merged_not_leader : (s'.node action.actor).st.state ≠ .leader := by
  obtain ⟨hcall, _⟩ := T.merged haction haccepted hst
  subst haction
  rw [hst]
  exact T.log.not_leader_of_accepted (T.unique.of_step T.step) hcall haccepted

end

lemma nodeBound (v : NodeId) (i : Nat) (e : LogEntry)
    (he : (s'.node v).st.log.entries[i]? = some e) : e.term ≤ (s'.node v).st.currentTerm := by
  by_cases hv : v = action.actor
  swap
  · rw [T.step.node_of_ne hv] at he ⊢
    exact T.inv.nodeBound v i e he
  subst hv
  have hold : (s.node action.actor).st.log.entries[i]? = some e →
      e.term ≤ (s'.node action.actor).st.currentTerm :=
    fun h => (T.inv.nodeBound _ i e h).trans (T.termMono _)
  cases T.step.logChange T.ok.keepsLog with
  | kept hlog _ => exact hold (hlog ▸ he)
  | written new happend =>
    rw [happend.entries] at he
    rcases getElem?_append_singleton he with hmem | ⟨_, rfl⟩
    · exact hold hmem
    · rw [happend.entryTerm]
      exact T.termMono _
  | merged call haction haccepted hst =>
    obtain ⟨hcall, hterm, hmerge, _⟩ := T.merged haction haccepted hst
    rcases hmerge.shape with hsame | htake
    · exact hold (hsame ▸ he)
    · rw [htake] at he
      rw [hterm]
      exact T.inv.leaderBound _ i e (getElem?_of_isPrefix ( take_prefix _ _) he)

lemma leaderLog_cases (t : Nat) :
    ((s'.node action.actor).st.state = .leader ∧ t = (s'.node action.actor).st.currentTerm ∧
        h'.leaderLog t = (s'.node action.actor).st.log.entries) ∨
      h'.leaderLog t = h.leaderLog t := by
  rw [T.record]
  simp only [History.record]
  split
  next hnow => exact .inl ⟨hnow.1, hnow.2, rfl⟩
  · exact .inr rfl

lemma leaderBound (t i : Nat) (e : LogEntry) (he : (h'.leaderLog t)[i]? = some e) :
    e.term ≤ t := by
  rcases T.leaderLog_cases t with ⟨_, rfl, heq⟩ | heq
  · rw [heq] at he
    exact T.nodeBound _ i e he
  · rw [heq] at he
    exact T.inv.leaderBound t i e he

end

/-! ## Acknowledgements -/

/-- The receiver's state after a delivered request is what the handler returns. -/
lemma deliverAppend_st {s' : Cluster} (hstep : Cluster.Step cfg s (.deliverAppend call) s') :
    (s'.node call.peer).st = (handleAppendEntries call.args (s.node call.peer).st).1 := by
  cases hstep with
  | deliverAppend hcall => simp only [Cluster.put_node_self]

/-- A delivered request that succeeds was accepted and stored. -/
lemma stored_of_success {s' : Cluster} (hstep : Cluster.Step cfg s (.deliverAppend call) s')
    (hsuccess : (handleAppendEntries call.args (s.node call.peer).st).2.success = true) :
    Accepted call.args (s.node call.peer).st ∧ (s'.node call.peer).st =
      storeEntries call.args (acceptLeader call.args (s.node call.peer).st) := by
  rw [deliverAppend_st hstep]
  rcases handleAppendEntries_cases call.args (s.node call.peer).st with
    ⟨_, hfail, _⟩ | ⟨_, _, hconflict⟩ | ⟨haccepted, hst, _⟩
  · rw [hfail] at hsuccess
    cases hsuccess
  · rw [(logConflict_spec hconflict).1] at hsuccess
    cases hsuccess
  · exact ⟨haccepted, hst⟩

section

variable (T : Transition cfg s h action s' h')
include T

/-- What the acting node acknowledges in this step, its log holds. -/
lemma ack_new (hpos : 0 < i) (hi : i ≤ ackOf s action (s'.node action.actor).st) :
    AgreeUpTo i (s'.node action.actor).st.log.entries
        (h'.leaderLog (s'.node action.actor).st.currentTerm) ∧
      i < (h'.leaderLog (s'.node action.actor).st.currentTerm).length := by
  rcases History.ackOf_cases s action (s'.node action.actor).st with
    ⟨hlead, heq⟩ | ⟨call, rfl, hsuccess, heq⟩ | heq <;> rw [heq] at hi
  · have hlen := (T.log'.nodeLog action.actor).length_pos
    rw [lastIndex_eq hlen] at hi
    rw [(T.log'.leading _ hlead).2]
    exact ⟨AgreeUpTo.refl _ _, by omega⟩
  · obtain ⟨haccepted, hst⟩ := stored_of_success T.step hsuccess
    obtain ⟨_, hterm, hmerge, hlen⟩ := T.merged rfl haccepted hst
    rw [hterm]
    have hgrow := agreeUpTo_of_isPrefix (T.grow call.args.term) hlen
    exact ⟨(hmerge.agree.trans hgrow).mono hi,
      hi.trans_lt (hlen.trans_le (T.grow call.args.term).length_le)⟩
  · omega

lemma ackBound (v : NodeId) (t : Nat) (hpos : 0 < h'.acked v t) :
    t ≤ (s'.node v).st.currentTerm ∧ h'.acked v t < (h'.leaderLog t).length := by
  have hold : 0 < h.acked v t →
      t ≤ (s'.node v).st.currentTerm ∧ h.acked v t < (h'.leaderLog t).length := by
    intro hpos
    obtain ⟨hterm, hlen⟩ := T.inv.ackBound v t hpos
    exact ⟨hterm.trans (T.termMono v), hlen.trans_le (T.grow t).length_le⟩
  rw [T.acked_eq] at hpos ⊢
  split at hpos
  next hnow =>
    obtain ⟨rfl, rfl⟩ := hnow
    rw [if_pos ⟨rfl, rfl⟩]
    refine ⟨le_rfl, max_lt_iff.mpr ⟨?_, ?_⟩⟩
    · rcases Nat.eq_zero_or_pos (h.acked action.actor
        (s'.node action.actor).st.currentTerm) with hzero | hpos
      · rw [hzero]
        exact (T.log'.leaderLog _).length_pos
      · exact (hold hpos).2
    · rcases Nat.eq_zero_or_pos (ackOf s action (s'.node action.actor).st) with
        hzero | hpos
      · rw [hzero]
        exact (T.log'.leaderLog _).length_pos
      · exact (T.ack_new hpos le_rfl).2
  next hnow =>
    rw [if_neg hnow]
    exact hold hpos

/-- The log of the acting node keeps what it shares with a leader's log, unless it was
reconciled with a later leader whose log diverges. -/
lemma log_keeps (hagree : AgreeUpTo i (s.node action.actor).st.log.entries (h.leaderLog t))
    (hlen : i < (h.leaderLog t).length) (ht : t ≤ (s.node action.actor).st.currentTerm) :
    AgreeUpTo i (s'.node action.actor).st.log.entries (h'.leaderLog t) ∨
      ∃ r, t < r ∧ r ≤ (s'.node action.actor).st.currentTerm ∧ Led s' r ∧
        DivergeBy i (h'.leaderLog r) (h'.leaderLog t) := by
  have hgrow := agreeUpTo_of_isPrefix (T.grow t) hlen
  have hlog : i < (s.node action.actor).st.log.entries.length := hagree.symm.lt_length hlen
  cases T.step.logChange T.ok.keepsLog with
  | kept hsame _ =>
    rw [hsame]
    exact .inl (hagree.trans hgrow)
  | written e happend =>
    rw [happend.entries]
    exact .inl ((agreeUpTo_of_isPrefix (prefix_append _ _) hlog).symm.trans
      (hagree.trans hgrow))
  | merged call haction haccepted hst =>
    obtain ⟨hcall, hterm, hmerge, hreach⟩ := T.merged haction haccepted hst
    rcases hmerge.agree_or_diverge hreach hagree hlog with ⟨hkept, _⟩ | hdiverge
    · exact .inl (hkept.trans hgrow)
    · have hle : t ≤ call.args.term := by
        rw [← hterm]
        exact ht.trans (T.termMono _)
      have hne : t ≠ call.args.term := by
        rintro rfl
        exact (AgreeUpTo.refl _ _).not_diverge hdiverge
      exact .inr ⟨call.args.term, lt_of_le_of_ne hle hne, hterm.ge,
        ⟨_, T.step.elected_subset (T.log.calls call hcall).sender⟩,
        hdiverge.mono_of_isPrefix (T.grow _) (T.grow _)⟩

lemma ackKept (v : NodeId) (t : Nat) :
    Holds h' s' v (s'.node v).st.log.entries (· ≤ (s'.node v).st.currentTerm) t := by
  by_cases hv : v = action.actor
  swap
  · have hnode := T.step.node_of_ne hv
    rw [hnode]
    refine T.holds (T.inv.ackKept v t) ?_ fun _ hr => hr
    rw [T.acked_eq, if_neg fun hnow => hv hnow.1]
  subst hv
  intro i e hpos hi he hterm
  -- either an older acknowledgement, or one made in this step
  have hcases : i ≤ h.acked action.actor t ∨ (t = (s'.node action.actor).st.currentTerm ∧
      i ≤ ackOf s action (s'.node action.actor).st) := by
    rw [T.acked_eq] at hi
    split at hi
    next hnow =>
      rcases le_max_iff.mp hi with hold | hnew
      · exact .inl hold
      · exact .inr ⟨hnow.2, hnew⟩
    · exact .inl hi
  rcases hcases with hold | ⟨rfl, hnew⟩
  · obtain ⟨hbound, hlen⟩ := T.inv.ackBound _ t (hpos.trans_le hold)
    have hsame := T.leaderLog_acked hpos hold
    rw [← hsame i le_rfl] at he
    rcases T.inv.ackKept _ t i e hpos hold he hterm with hagree | ⟨r, htr, hr, hled, hdiverge⟩
    · exact T.log_keeps hagree (hold.trans_lt hlen) hbound
    · exact .inr ⟨r, htr, le_trans hr (T.termMono _), T.led hled,
        hdiverge.mono_of_isPrefix (T.grow r) (T.grow t)⟩
  · exact .inl (T.ack_new hpos hnew).1

lemma ackLeader (v : NodeId) (hlead : (s'.node v).st.state = .leader) :
    (s'.node v).st.log.lastIndex ≤ h'.acked v (s'.node v).st.currentTerm := by
  by_cases hv : v = action.actor
  · subst hv
    have hack : ackOf s action (s'.node action.actor).st =
        (s'.node action.actor).st.log.lastIndex := by
      exact if_pos hlead
    rw [T.acked_eq, if_pos ⟨rfl, rfl⟩, ← hack]
    exact le_max_right _ _
  · rw [T.step.node_of_ne hv] at hlead ⊢
    exact (T.inv.ackLeader v hlead).trans (T.acked_le _ _)

lemma success (c : AppendCall) (r : AppendEntriesReply) (hmem : (c, r) ∈ s'.appendReplies)
    (hsuccess : r.success = true) :
    c.args.prevLogIndex + c.args.entries.length ≤ h'.acked c.peer c.args.term := by
  rcases T.step.mem_appendReplies hmem with hold | ⟨rfl, rfl⟩
  · exact (T.inv.success c r hold hsuccess).trans (T.acked_le _ _)
  · obtain ⟨haccepted, hst⟩ := stored_of_success T.step hsuccess
    obtain ⟨_, hterm, _⟩ := T.merged rfl haccepted hst
    have hfollow : (s'.node c.peer).st.state ≠ .leader := T.merged_not_leader rfl haccepted hst
    rw [T.acked_eq, if_pos ⟨rfl, hterm.symm⟩]
    refine le_trans ?_ (le_max_right _ _)
    simp only [ackOf, Action.actor, if_neg hfollow, if_pos hsuccess, le_refl]

/-! ## Votes -/

lemma logConst_of_candidate (hcand : (s'.node action.actor).st.state = .candidate) :
    (s'.node action.actor).st.log.entries = (s.node action.actor).st.log.entries := by
  cases T.step.logChange T.ok.keepsLog with
  | kept hlog _ => exact hlog
  | written e happend =>
    rw [happend.leads] at hcand
    cases hcand
  | merged call haction haccepted hst =>
    rw [hst] at hcand
    exact absurd hcand (storeEntries_ne_candidate _ _)

/-- The requests of a candidate for its current term describe its log. -/
lemma requests (v : NodeId) (hcand : (s'.node v).st.state = .candidate) (c : VoteCall)
    (hc : c ∈ s'.voteCalls) (hv : c.candidate = v)
    (hterm : c.args.term = (s'.node v).st.currentTerm) :
    c.args.lastLogIndex = (s'.node v).st.log.lastIndex ∧
      c.args.lastLogTerm = (s'.node v).st.log.lastTerm := by
  subst hv
  rcases T.step.mem_voteCalls hc with hold | ⟨haction, _, hnew, hopen⟩
  swap
  · rw [hopen]
    simp only [Cluster.voteRequests, mem_map] at hnew
    obtain ⟨peer, _, hcall⟩ := hnew
    rw [← hcall]
    exact ⟨rfl, rfl⟩
  by_cases hv : c.candidate = action.actor
  swap
  · rw [T.step.node_of_ne hv] at hcand hterm ⊢
    exact T.inv.requests _ hcand c hold rfl hterm
  have hle := (T.elect.calls c hold).term
  rw [hv] at hcand hterm hle ⊢
  rcases T.voteStep.candidate hcand with hlt | ⟨hbefore, hsame⟩
  · omega
  · have hlog := T.logConst_of_candidate hcand
    rw [hsame] at hterm
    obtain ⟨hindex, hlast⟩ := T.inv.requests _ hbefore c hold hv hterm
    simp only [RaftLog.lastIndex, RaftLog.lastTerm] at hindex hlast ⊢
    rw [hlog]
    exact ⟨hindex, hlast⟩

/-- A recorded vote is of a term its voter has reached. -/
lemma vote_term {c : NodeId} (hvote : h.vote v t = some c) : t ≤ (s.node v).st.currentTerm := by
  by_contra hgt
  rw [T.elect.voteLater v t (by omega)] at hvote
  cases hvote

end

/-- A vote just granted: the voter's log is what it is now. -/
lemma granted_basis {call : VoteCall} (T : Transition cfg s h (.deliverVote call) s' h')
    (hcall : call ∈ s.voteCalls)
    (hgranted : (handleRequestVote call.args (s.node call.peer).st).2.voteGranted = true)
    (hunled : ¬ Led s' (s'.node call.peer).st.currentTerm) :
    ∃ c ∈ s'.voteCalls, c.candidate = (s'.node call.peer).st.votedFor ∧
      c.args.term = (s'.node call.peer).st.currentTerm ∧
      ∃ voterLog, VoterLog s' h' call.peer (s'.node call.peer).st.currentTerm voterLog ∧
        UpToDateArgs c.args voterLog := by
  obtain ⟨_, hcan, hst, hterm⟩ := handleRequestVote_granted hgranted
  have hnode : (s'.node call.peer).st =
      (updateTerm call.args.term (s.node call.peer).st).setVotedFor call.args.candidateID := by
    cases T.step with
    | deliverVote hcall =>
      simp only [Cluster.put_node_self]
      exact hst
  refine ⟨call, T.step.voteCalls_subset hcall, ?_, ?_, (s'.node call.peer).st.log.entries,
    ⟨T.log'.nodeLog _, ?_⟩, ?_⟩
  · rw [hnode]
    exact (T.elect.calls call hcall).name.symm
  · rw [hnode]
    exact hterm.symm
  · intro t' ht' i e hpos hi he hown
    refine (T.ackKept call.peer t' i e hpos hi he hown).imp_right ?_
    rintro ⟨r, htr, hr, hled, hdiverge⟩
    exact ⟨r, htr, lt_of_le_of_ne hr fun heq => hunled (heq ▸ hled), hled, hdiverge⟩
  · have hlen := (T.log'.nodeLog call.peer).length_pos
    rw [hnode] at hlen ⊢
    have hup := canVote_upToDate hcan hlen
    exact hup

section

variable (T : Transition cfg s h action s' h')
include T

lemma votes (v : NodeId) (t : Nat) (c : NodeId) (hvote : h'.vote v t = some c) (hne : v ≠ c)
    (hunled : ¬ Led s' t) :
    ∃ call ∈ s'.voteCalls, call.candidate = c ∧ call.args.term = t ∧
      ∃ voterLog, VoterLog s' h' v t voterLog ∧ UpToDateArgs call.args voterLog := by
  have hold : h.vote v t = some c → ∃ call ∈ s'.voteCalls, call.candidate = c ∧
      call.args.term = t ∧ ∃ voterLog, VoterLog s' h' v t voterLog ∧
        UpToDateArgs call.args voterLog := by
    intro hvote
    obtain ⟨call, hcall, hcand, hterm, log, hlog, hup⟩ :=
      T.inv.votes v t c hvote hne fun hled => hunled (T.led hled)
    exact ⟨call, T.step.voteCalls_subset hcall, hcand, hterm, log,
      T.voterLog hlog (T.vote_term hvote), hup⟩
  have hrecord : h'.vote v t = if v = action.actor ∧ t = (s'.node action.actor).st.currentTerm
      then voteOf (s'.node action.actor).st else h.vote v t := by
    rw [T.record]
    rfl
  rw [hrecord] at hvote
  split at hvote
  next hnow =>
    obtain ⟨rfl, rfl⟩ := hnow
    unfold voteOf at hvote
    split at hvote
    · cases hvote
    next hnonzero =>
      cases hvote
      rcases T.elect.vote_source T.step T.ok.keepsTerm with
        hown | (hzero | ⟨hsame, hterm⟩) | ⟨call, rfl, hcall, hgranted⟩
      · exact absurd hown.symm hne
      · exact absurd hzero hnonzero
      · refine hold ?_
        rw [hterm, T.elect.voteNow, voteOf, ← hsame, if_neg hnonzero]
      · exact T.granted_basis hcall hgranted hunled
  · exact hold hvote

/-! ## Elections -/

lemma electionBasis_mono (hbasis : ElectionBasis cfg s h t) : ElectionBasis cfg s' h' t := by
  obtain ⟨log, quorum, hpre, hcoh, hbelow, hquorum, hvoted⟩ := hbasis.basis
  refine ⟨log, quorum, hpre.trans (T.grow t), hcoh.of_origin_grow T.grow, hbelow, hquorum, ?_⟩
  intro v hv
  obtain ⟨hterm, voterLog, hvoter, hup⟩ := hvoted v hv
  exact ⟨hterm.trans (T.termMono v), voterLog, T.voterLog hvoter hterm, hup⟩

/-- The log of a candidate whose term has no leader holds entries of earlier terms only. -/
lemma candidate_below (hcand : (s.node v).st.state = .candidate)
    (hunled : ¬ Led s (s.node v).st.currentTerm) (i : Nat) (e : LogEntry)
    (he : (s.node v).st.log.entries[i]? = some e) : e.term < (s.node v).st.currentTerm := by
  rcases Nat.eq_zero_or_pos i with rfl | hpos
  · rw [(T.log.nodeLog v).base_eq] at he
    cases he
    exact T.log.active v (by simp [hcand])
  · refine lt_of_le_of_ne (T.inv.nodeBound v i e he) fun heq => hunled ?_
    exact heq ▸ T.log.term_pos (T.log.nodeLog v) hpos he

/-- The candidate itself and the peers that voted for it held logs no more up to date. -/
lemma candidate_voters {id : NodeId} (hcand : (s.node id).st.state = .candidate)
    (hunled : ¬ Led s (s.node id).st.currentTerm)
    (hvote : v ≠ id → h.vote v (s.node id).st.currentTerm = some id) :
    ∃ voterLog, VoterLog s h v (s.node id).st.currentTerm voterLog ∧
      UpToDate LogEntry.term (s.node id).st.log.entries voterLog := by
  by_cases hv : v = id
  · subst hv
    refine ⟨_, ⟨T.log.nodeLog v, ?_⟩, .inr ⟨rfl, le_rfl⟩⟩
    intro t' _ i e hpos hi he hown
    refine (T.inv.ackKept v t' i e hpos hi he hown).imp_right ?_
    rintro ⟨r, htr, hr, hled, hdiverge⟩
    exact ⟨r, htr, lt_of_le_of_ne hr fun heq => hunled (heq ▸ hled), hled, hdiverge⟩
  · obtain ⟨call, hcall, hname, hterm, voterLog, hvoter, hup⟩ :=
      T.inv.votes v _ id (hvote hv) hv hunled
    obtain ⟨hindex, hlast⟩ := T.inv.requests id hcand call hcall hname hterm
    refine ⟨voterLog, hvoter, ?_⟩
    have hlen := (T.log.nodeLog id).length_pos
    rw [lastIndex_eq hlen] at hindex
    rw [lastTerm_eq_lastTerm] at hlast
    unfold UpToDateArgs at hup
    rw [hindex, hlast, Nat.sub_add_cancel hlen] at hup
    exact hup

lemma elections (t : Nat) (hled : Led s' t) : ElectionBasis cfg s' h' t := by
  by_cases hbefore : Led s t
  · exact T.electionBasis_mono (T.inv.elections t hbefore)
  obtain ⟨id, hid⟩ := hled
  have hnew := hid
  rw [T.step.elected_eq] at hnew
  split at hnew
  swap
  · exact absurd ⟨id, hnew⟩ hbefore
  next hwon =>
    rcases mem_cons.mp hnew with heq | hold
    swap
    · exact absurd ⟨id, hold⟩ hbefore
    cases heq
    obtain ⟨hterm, hrole⟩ := T.log.leads_or_new T.step T.unique T.ok.keepsLog hwon.1
    obtain ⟨hcand, _, _⟩ := hrole.resolve_left hwon.2
    have hlog := (T.log'.leading _ hwon.1).2
    have hwritten : (s.node action.actor).st.log.entries <+:
        (s'.node action.actor).st.log.entries := by
      rcases T.log.leader_log T.step T.unique T.ok.keepsLog hwon.1 with
        ⟨_, hlead, _⟩ | ⟨e, happend⟩
      · exact absurd hlead hwon.2
      · rw [happend.entries]
        exact prefix_append _ _
    obtain ⟨quorum, hquorum, hvoted⟩ := (T.elect'.elected _ _ hid).quorum
    rw [hterm] at hbefore hvoted hlog ⊢
    refine ⟨_, quorum, hlog ▸ hwritten, (T.log.nodeLog _).of_origin_grow T.grow,
      T.candidate_below hcand hbefore, hquorum, ?_⟩
    intro v hv
    have hvote : v ≠ action.actor →
        h.vote v (s.node action.actor).st.currentTerm = some action.actor := by
      intro hne
      have hcast := hvoted v hv
      rw [T.record] at hcast
      simpa only [History.record, hne, false_and, if_false] using hcast
    have hle : (s.node action.actor).st.currentTerm ≤ (s.node v).st.currentTerm := by
      by_cases hne : v = action.actor
      · rw [hne]
      · exact T.vote_term (hvote hne)
    obtain ⟨voterLog, hvoter, hup⟩ := T.candidate_voters hcand hbefore hvote
    exact ⟨hle.trans (T.termMono v), voterLog, T.voterLog hvoter hle, hup⟩

end

end Transition

end Oba.Raft
