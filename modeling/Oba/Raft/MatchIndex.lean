import Oba.Raft.Safety

/-! # Match indices

What a leader's match index for a peer says about the peer's log. The entry at an acknowledged
index is one of the leader's own term, so the whole stretch up to it is the leader's, until
the peer has followed a later leader.
-/

namespace Oba.Raft

open TermLog Execution

/-- The leader of term `t` wrote the entry at index `i` itself. -/
def OwnAt (h : History) (t i : Nat) : Prop := ∃ e, (h.leaderLog t)[i]? = some e ∧ e.term = t

/-- Leaders' logs, requests and acknowledgements end on entries of the leader's own term. -/
structure TailInv (s : Cluster) (h : History) : Prop where
  lead : ∀ v, (s.node v).st.state = .leader →
    OwnAt h (s.node v).st.currentTerm ((s.node v).st.log.entries.length - 1)
  call : ∀ c ∈ s.appendCalls, OwnAt h c.args.term (c.args.prevLogIndex + c.args.entries.length) ∨
    (0 < c.args.prevLogIndex ∧ c.args.prevLogTerm = 0)
  ack : ∀ v t, 0 < h.acked v t → OwnAt h t (h.acked v t)

namespace Transition

variable {cfg : Config} {s s' : Cluster} {h h' : History} {action : Action}

section

variable (T : Transition cfg s h action s' h')
include T

lemma ownAt {t i : Nat} (hown : OwnAt h t i) : OwnAt h' t i := by
  obtain ⟨e, he, hterm⟩ := hown
  exact ⟨e, getElem?_of_isPrefix (T.grow t) he, hterm⟩

lemma tail_lead (htail : TailInv s h) (v : NodeId) (hlead : (s'.node v).st.state = .leader) :
    OwnAt h' (s'.node v).st.currentTerm ((s'.node v).st.log.entries.length - 1) := by
  by_cases hv : v = action.actor
  swap
  · rw [T.step.node_of_ne hv] at hlead ⊢
    exact T.ownAt (htail.lead v hlead)
  subst hv
  rcases T.log.leader_log T.step T.unique T.ok.keepsLog hlead with
    ⟨hlog, hbefore, hterm⟩ | ⟨e, happend⟩
  · rw [hlog, hterm]
    exact T.ownAt (htail.lead _ hbefore)
  · refine ⟨e, ?_, happend.entryTerm.trans happend.term.symm⟩
    rw [(T.log'.leading _ hlead).2, happend.entries]
    simp

lemma tail_call (htail : TailInv s h) (c : AppendCall) (hc : c ∈ s'.appendCalls) :
    OwnAt h' c.args.term (c.args.prevLogIndex + c.args.entries.length) ∨
      (0 < c.args.prevLogIndex ∧ c.args.prevLogTerm = 0) := by
  rcases T.step.mem_appendCalls hc with hold | ⟨hlead, hpeer, hargs⟩
  · exact (htail.call c hold).imp_left T.ownAt
  have hnext := T.log.next _ hlead _ hpeer
  have hlen := (T.log.nodeLog c.leader).length_pos
  rw [hargs]
  simp only [replicateArgs, RaftLog.getFrom, List.length_drop]
  rcases lt_or_ge ((s.node c.leader).st.nextIndex c.peer - 1)
    (s.node c.leader).st.log.entries.length with hlt | hge
  · have hown := T.ownAt (htail.lead _ hlead)
    left
    convert hown using 1
    omega
  · exact Or.inr ⟨by omega, RaftLog.termAt_eq_zero hge⟩

lemma tail_ackOf (htail : TailInv s h)
    (hpos : 0 < History.ackOf s action (s'.node action.actor).st) :
    OwnAt h' (s'.node action.actor).st.currentTerm
      (History.ackOf s action (s'.node action.actor).st) := by
  rcases History.ackOf_cases s action (s'.node action.actor).st with
    ⟨hlead, heq⟩ | ⟨call, rfl, hsuccess, heq⟩ | heq
  · rw [heq, RaftLog.lastIndex_eq (T.log'.nodeLog _).length_pos]
    exact T.tail_lead htail _ hlead
  · obtain ⟨haccepted, hst⟩ := stored_of_success T.step hsuccess
    obtain ⟨hcall, hterm, _⟩ := T.merged rfl haccepted hst
    rw [heq, hterm]
    rcases htail.call call hcall with hown | ⟨hprev, hzero⟩
    · exact T.ownAt hown
    · exact absurd hzero (T.log.prevLogTerm_ne_zero (T.log.nodeLog _) haccepted hprev)
  · omega

lemma tail (htail : TailInv s h) : TailInv s' h' := by
  refine ⟨T.tail_lead htail, T.tail_call htail, ?_⟩
  intro v t hpos
  rw [T.acked_eq] at hpos ⊢
  split at hpos
  next hnow =>
    obtain ⟨rfl, rfl⟩ := hnow
    rw [if_pos ⟨rfl, rfl⟩]
    rcases max_choice (h.acked action.actor (s'.node action.actor).st.currentTerm)
      (History.ackOf s action (s'.node action.actor).st) with hmax | hmax <;>
      rw [hmax] at hpos ⊢
    · exact T.ownAt (htail.ack _ _ hpos)
    · exact T.tail_ackOf htail hpos
  next hnow =>
    rw [if_neg hnow]
    exact T.ownAt (htail.ack v t hpos)

end

end Transition

lemma tailInv_init (hasDir : NodeId → Bool) : TailInv (Cluster.init hasDir) History.init := by
  refine ⟨?_, by simp [Cluster.init], fun v t hpos => absurd hpos (lt_irrefl 0)⟩
  intro v hlead
  simp only [Cluster.init, Node.start] at hlead
  cases hdir : hasDir v <;> rw [hdir] at hlead <;> cases hlead

/-- In every run of safe steps, a leader's match index for a peer is the truth about the peer's
log, as long as the peer has not reached the term of a later leader. -/
theorem matchIndex_truth (cfg : Config) (hasDir : NodeId → Bool) (trace : List Action) (s : Cluster)
    (hrun : Run (Cluster.step cfg) SafeStep (Cluster.init hasDir) trace s)
    (n p : NodeId) (hlead : (s.node n).st.state = .leader) (hp : p ∈ cfg.peers n)
    (hlater : ∀ t id, (t, id) ∈ s.elected → (s.node n).st.currentTerm < t →
      (s.node p).st.currentTerm < t)
    (i : Nat) (hpos : 1 ≤ i) (hi : i ≤ (s.node n).st.matchIndex p) :
    (s.node p).st.log.entries[i]? = (s.node n).st.log.entries[i]? := by
  obtain ⟨h, hstate, htail⟩ := safeState_of_run hrun TailInv (tailInv_init hasDir)
    fun T htail => T.tail htail
  have hle := hi.trans (hstate.commit.matched n hlead p hp)
  have hacked : 0 < h.acked p (s.node n).st.currentTerm := hpos.trans hle
  obtain ⟨e, he, hown⟩ := htail.ack _ _ hacked
  rw [← (hstate.log.leading n hlead).2]
  rcases hstate.commit.ackKept p _ _ e hacked le_rfl he hown with
    hagree | ⟨r, htr, hr, ⟨id, hid⟩, _⟩
  · exact hagree i hle
  · exact absurd (hlater r id hid htr) (Nat.not_lt.mpr hr)

/-- Node 1 commits its no-op entry with node 2. -/
def acknowledgedNoop : List Action :=
  wins 1 0 1 0 0 [2] ++ acknowledged (appendCall 1 2 1 0 0 [noop 1 1] 0)

theorem matchIndex_truth_acknowledgedNoop :
    ∃ s, Run (Cluster.step threeNodes) SafeStep (Cluster.init fun _ => true) acknowledgedNoop s ∧
      (s.node 1).st.state = .leader ∧ (s.node 1).st.matchIndex 2 = 1 ∧
      (s.node 2).st.log.entries[1]? = (s.node 1).st.log.entries[1]? := by
  refine (exists_run (P := fun s => (s.node 1).st.state = .leader ∧
    (s.node 1).st.matchIndex 2 = 1 ∧ ∀ e ∈ s.elected, e.1 ≤ (s.node 1).st.currentTerm)
    (by decide +kernel)).imp fun s h => ⟨h.1, h.2.1, h.2.2.1, ?_⟩
  refine matchIndex_truth _ _ _ _ h.1 1 2 h.2.1 (by decide) ?_ 1 le_rfl h.2.2.1.ge
  exact fun t id hid hlt => absurd (h.2.2.2 _ hid) hlt.not_ge

/-- Node 2 acknowledges the no-op entry of node 1. Node 4 is elected in term 2 without the
votes of nodes 1 and 2, and overwrites the log of node 2 while node 1 still leads term 1. -/
def overwrittenPeer : List Action :=
  wins 1 0 1 0 0 [2, 3] ++ acknowledged (appendCall 1 2 1 0 0 [noop 1 1] 0) ++
    [.deliverVote ⟨1, 0, 4, ⟨1, 1, 0, 0⟩⟩] ++ wins 4 0 2 0 0 [3, 5] ++
    sent (appendCall 4 2 2 0 0 [noop 1 2] 0)

theorem overwrittenPeer_matchIndex_stale : ∃ s, Run (Cluster.step fiveNodes)
        (fun s a => CrashFree a ∧ VoteFresh s a ∧ AppendFresh s a)
        (Cluster.init fun _ => true) overwrittenPeer s ∧
      (s.node 1).st.state = .leader ∧ (s.node 1).st.matchIndex 2 = 1 ∧
      (s.node 1).st.log.entries[1]? = some (noop 1 1) ∧
      (s.node 2).st.log.entries[1]? = some (noop 1 2) :=
  exists_run (by decide +kernel)

end Oba.Raft
