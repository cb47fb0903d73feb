import Oba.Raft.Cluster

/-! # History of a cluster

What the proofs remember about a run beyond the state of the cluster: the vote each node
cast in each term, the log of the leader of each term as far as it has grown, and the
highest index each node has acknowledged to the leader of each term. The history only
observes; every run of the cluster is a run of the cluster with history.
-/

namespace Oba.Raft

/-- The node an action runs on. -/
def Action.actor : Action → NodeId
  | .timeout id | .campaign id | .replicate id _ | .propose id _ => id
  | .applyScan id | .applyNext id _ | .restart id => id
  | .deliverVote call => call.peer
  | .deliverAppend call => call.peer
  | .voteReply call _ => call.candidate
  | .appendReply call _ => call.leader

structure History where
  vote : NodeId → Nat → Option NodeId
  leaderLog : Nat → List LogEntry
  acked : NodeId → Nat → Nat

namespace History

def init : History :=
  { vote := fun _ _ => none, leaderLog := fun _ => [dummyEntry], acked := fun _ _ => 0 }

/-- The vote a node's state stands for; zero is no vote. -/
def voteOf (st : NodeState) : Option NodeId :=
  if st.votedFor = 0 then none else some st.votedFor

/-- The index an action makes its node acknowledge. A leader holds all of its own log. -/
def ackOf (s : Cluster) (action : Action) (st : NodeState) : Nat :=
  if st.state = .leader then st.log.lastIndex
  else match action with
    | .deliverAppend call =>
      if (handleAppendEntries call.args (s.node call.peer).st).2.success then
        call.args.prevLogIndex + call.args.entries.length
      else 0
    | _ => 0

lemma ackOf_cases (s : Cluster) (action : Action) (st : NodeState) :
    (st.state = .leader ∧ ackOf s action st = st.log.lastIndex) ∨
      (∃ call, action = .deliverAppend call ∧
        (handleAppendEntries call.args (s.node call.peer).st).2.success = true ∧
        ackOf s action st = call.args.prevLogIndex + call.args.entries.length) ∨
      ackOf s action st = 0 := by
  unfold ackOf
  split
  next hlead => exact .inl ⟨hlead, rfl⟩
  · split
    next _ call =>
      split
      next hsuccess => exact .inr (.inl ⟨call, rfl, hsuccess, rfl⟩)
      · exact .inr (.inr rfl)
    · exact .inr (.inr rfl)

/-- Record what the acting node did, judging by its state after the step. -/
def record (h : History) (s : Cluster) (action : Action) (s' : Cluster) : History :=
  let id := action.actor
  let st := (s'.node id).st
  { vote := fun v t => if v = id ∧ t = st.currentTerm then voteOf st else h.vote v t
    leaderLog := fun t =>
      if st.state = .leader ∧ t = st.currentTerm then st.log.entries else h.leaderLog t
    acked := fun v t =>
      if v = id ∧ t = st.currentTerm then max (h.acked v t) (ackOf s action st)
      else h.acked v t }

end History

namespace Cluster.Step

variable {cfg : Config} {s s' : Cluster} {action : Action}

/-- A step changes no node but the one it runs on. -/
lemma node_of_ne (hstep : Step cfg s action s') {v : NodeId} (hne : v ≠ action.actor) :
    s'.node v = s.node v := by
  cases hstep
  case replicate => rfl
  all_goals exact Function.update_of_ne hne ..

/-- A step is an election exactly when its node is a leader after it and was not before. -/
lemma elected_eq (hstep : Step cfg s action s') :
    s'.elected =
      if (s'.node action.actor).st.state = .leader ∧ (s.node action.actor).st.state ≠ .leader then
        ((s'.node action.actor).st.currentTerm, action.actor) :: s.elected
      else s.elected := by
  cases hstep
  case replicate => simp
  all_goals
    simp only [Action.actor, put_node_self]
    rfl

lemma elected_subset (hstep : Step cfg s action s') {epoch : Nat × NodeId}
    (hepoch : epoch ∈ s.elected) : epoch ∈ s'.elected := by
  rw [hstep.elected_eq]
  split
  · exact List.mem_cons_of_mem _ hepoch
  · exact hepoch

end Cluster.Step

end Oba.Raft
