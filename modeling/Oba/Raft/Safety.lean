import Oba.Raft.CommitIndex

/-! # State machine safety

Every clause of `CommitInv` is kept by a step that keeps to the protocol, so all nodes apply
the same entries in every run of such steps. Late replies are what the code does not keep to
the protocol about: `replicateTo` processes a reply without looking at the term and the role
its node had when it sent the request.
-/

namespace Oba.Raft

open TermLog Execution List
open Cluster (init)

lemma commitInv_init (cfg : Config) (hasDir : NodeId → Bool) :
    CommitInv cfg (init hasDir) History.init := by
  have hst : ∀ v, ((init hasDir).node v).st.state = .follower ∧
      ((init hasDir).node v).st.log.entries = [dummyEntry] ∧
      ((init hasDir).node v).st.commitIndex = 0 ∧
      ((init hasDir).node v).applyTo = 0 := by
    intro v
    simp only [init, Node.start]
    cases hasDir v <;> exact ⟨rfl, rfl, rfl, trivial⟩
  have hdummy : ∀ (bound i : Nat) (e : LogEntry), [dummyEntry][i]? = some e → e.term ≤ bound := by
    intro bound i e he
    obtain rfl : e = dummyEntry := by
      simpa using mem_of_getElem? he
    exact Nat.zero_le _
  constructor
  case nodeBound =>
    intro v i e he
    rw [(hst v).2.1] at he
    exact hdummy _ i e he
  case leaderBound => exact fun t i e he => hdummy t i e he
  case ackBound => exact fun v t hpos => absurd hpos (lt_irrefl 0)
  case ackKept => exact fun v t i e hpos hi => absurd (hpos.trans_le hi) (lt_irrefl 0)
  case ackLeader | matched =>
    intro v hlead
    rw [(hst v).1] at hlead
    cases hlead
  case commit => exact fun v => Or.inl (hst v).2.2.1
  case applyTo =>
    intro v
    exact Nat.zero_le _
  case votes => exact fun v t c hvote => by cases hvote
  case elections =>
    rintro t ⟨id, hid⟩
    cases hid
  all_goals simp [init]

section Step

variable {cfg : Config} {s s' : Cluster} {h : History} {action : Action}

/-- A node wins at most one election of a term, so terms of elections do not repeat. -/
lemma ElectionInv.uniqueEpochs_step (hinv : ElectionInv cfg s h)
    (hinv' : ElectionInv cfg s' (h.record s action s')) (hstep : Cluster.Step cfg s action s')
    (hvs : Voted s action s')
    (hunique : UniqueEpochs s) : UniqueEpochs s' := by
  have hkeep : ∀ {epoch : Nat × NodeId}, epoch ∈ s.elected → epoch ∈ s'.elected :=
    hstep.elected_subset
  have helected := hstep.elected_eq
  unfold UniqueEpochs at hunique ⊢
  split at helected
  swap
  · rw [helected]
    exact hunique
  next hwon =>
    rw [helected]
    refine nodup_cons.mpr ⟨fun hmem => ?_, hunique⟩
    obtain ⟨⟨t, other⟩, hold, rfl⟩ := mem_map.mp hmem
    obtain rfl : other = action.actor := by
      refine hinv'.leader_unique (hkeep hold) ?_
      rw [helected]
      exact mem_cons_self
    obtain ⟨hterm, hrole⟩ := hvs.leader hwon.1
    exact (hinv.elected _ _ hold).role hterm (hrole.resolve_left hwon.2)

/-- All invariants together. -/
structure SafeState (cfg : Config) (s : Cluster) (h : History) : Prop where
  elect : ElectionInv cfg s h
  unique : UniqueEpochs s
  log : LogInv cfg s h
  commit : CommitInv cfg s h

lemma SafeState.transition (hsafe : SafeState cfg s h) (hstep : Cluster.Step cfg s action s')
    (hok : SafeStep s action) : Transition cfg s h action s' (h.record s action s') := by
  have hvs := hsafe.elect.voteStep hstep hok.vote hok.keepsTerm
  have helect := hsafe.elect.step hstep hok.vote hok.keepsTerm
  have hunique := hsafe.elect.uniqueEpochs_step helect hstep hvs hsafe.unique
  exact
    { elect := hsafe.elect
      log := hsafe.log
      inv := hsafe.commit
      step := hstep
      record := rfl
      ok := hok
      unique := hunique
      elect' := helect
      log' := hsafe.log.step hstep hunique hok.keepsLog }

lemma Transition.safeState {h' : History} (T : Transition cfg s h action s' h') :
    SafeState cfg s' h' where
  elect := T.elect'
  unique := T.unique
  log := T.log'
  commit :=
    { nodeBound := T.nodeBound
      leaderBound := T.leaderBound
      ackBound := T.ackBound
      ackKept := T.ackKept
      ackLeader := T.ackLeader
      matched := T.matched
      success := T.success
      requests := T.requests
      votes := T.votes
      elections := T.elections
      commit := T.commit
      callCommit := T.callCommit
      applyTo := T.applyTo
      applied := T.applied }

end Step

/-- The induction over a run of safe steps: the invariants hold in the state reached, and so
does any further property that safe steps keep. -/
lemma safeState_of_run {cfg : Config} {hasDir : NodeId → Bool} {trace : List Action}
    {s : Cluster} (hrun : Run (Cluster.step cfg) SafeStep (init hasDir) trace s)
    (P : Cluster → History → Prop) (hstart : P (init hasDir) History.init)
    (hkeep : ∀ {s s' : Cluster} {h h' : History} {action : Action},
      Transition cfg s h action s' h' → P s h → P s' h') :
    ∃ h, SafeState cfg s h ∧ P s h := by
  obtain ⟨h, hrun⟩ := hrun.exists_history History.record History.init
  refine ⟨h, hrun.invariant (fun current => SafeState cfg current.1 current.2 ∧
    P current.1 current.2) ⟨⟨electionInv_init cfg hasDir, by simp [UniqueEpochs, init],
      logInv_init cfg hasDir, commitInv_init cfg hasDir⟩, hstart⟩ ?_⟩
  rintro ⟨s, h⟩ action ⟨s', h'⟩ ⟨hsafe, hP⟩ hok hnext
  obtain ⟨hstep, hrecord⟩ := withHistory_eq_some hnext
  have T := hsafe.transition (Cluster.step_cases hstep) hok
  rw [← hrecord] at T
  exact ⟨T.safeState, hkeep T hP⟩

instance (s : Cluster) (action : Action) : Decidable (SafeStep s action) :=
  have : Decidable (RestartKeepsLog s action) := by
    apply @Action.casesOn (fun a => Decidable (RestartKeepsLog s a)) action <;> intros
    case restart => exact inferInstanceAs (Decidable (∀ st ∈ (s.node _).st.restart, _ = _))
    all_goals exact isTrue trivial
  have : Decidable (RestartKeepsTerm s action) := by
    apply @Action.casesOn (fun a => Decidable (RestartKeepsTerm s a)) action <;> intros <;>
      unfold RestartKeepsTerm <;> infer_instance
  have : Decidable (RestartKeepsCommit s action) := by
    apply @Action.casesOn (fun a => Decidable (RestartKeepsCommit s a)) action <;> intros <;>
      unfold RestartKeepsCommit <;> infer_instance
  decidable_of_iff _ (safeStep_iff s action).symm

lemma CrashFree.safeStep {s : Cluster} {action : Action} (hfree : CrashFree action)
    (hvote : VoteFresh s action) (happend : AppendFresh s action) : SafeStep s action := by
  refine ⟨hvote, happend, hfree.keepsTerm, hfree.keepsLog, ?_⟩
  cases action <;> first | exact hfree.elim | trivial

/-- In every run without crashes in which replies are processed by the election or leadership
they answer, no two nodes apply different entries at one index. -/
theorem state_machine_safety (cfg : Config) (hasDir : NodeId → Bool) (trace : List Action)
    (s : Cluster)
    (hrun : Run (Cluster.step cfg) (fun s a => CrashFree a ∧ VoteFresh s a ∧ AppendFresh s a)
      (Cluster.init hasDir) trace s)
    (a b : NodeId) (idx : Nat) (ea eb : LogEntry) (ha : (a, idx, ea) ∈ s.applied)
    (hb : (b, idx, eb) ∈ s.applied) : ea = eb := by
  have hsafe := hrun.mono fun s a hok => hok.1.safeStep hok.2.1 hok.2.2
  obtain ⟨h, hstate, _⟩ := safeState_of_run hsafe (fun _ _ => True) trivial fun _ _ => trivial
  obtain ⟨hpos, t, i, hcom, hi, hea⟩ := hstate.commit.applied a idx ea ha
  obtain ⟨_, t', i', hcom', hi', heb⟩ := hstate.commit.applied b idx eb hb
  have hagree := hstate.commit.committed_agree hstate.log hcom hcom' hpos hi hi'
  rw [hea, heb] at hagree
  exact Option.some.inj hagree

/-- Node `c` times out and wins the election number `ballot` with the votes of `voters`. -/
def wins (c ballot term lastIndex lastTerm : Nat) (voters : List NodeId) : List Action :=
  [.timeout c, .campaign c] ++ voters.flatMap fun p =>
    [.deliverVote ⟨c, ballot, p, ⟨term, c, lastIndex, lastTerm⟩⟩,
      .voteReply ⟨c, ballot, p, ⟨term, c, lastIndex, lastTerm⟩⟩ (some ⟨term, true⟩)]

def noop (index term : Nat) : LogEntry := ⟨index, term, logEntryNoop, []⟩

/-- The request of `leader` to `peer` that continues its log after index `prev`. -/
def appendCall (leader peer term prev prevTerm : Nat) (entries : List LogEntry)
    (commit : Nat) : AppendCall :=
  ⟨leader, peer, prev + 1, ⟨term, leader, prev, prevTerm, entries, commit⟩⟩

/-- The call is sent and delivered. -/
def sent (call : AppendCall) : List Action :=
  [.replicate call.leader call.peer, .deliverAppend call]

/-- The call is sent, delivered, and its positive reply processed. -/
def acknowledged (call : AppendCall) : List Action :=
  sent call ++ [.appendReply call ⟨call.args.term, true, 0, 0⟩]

def applies (id count : Nat) : List Action :=
  .applyScan id :: List.replicate count (.applyNext id .applied)

/-- Node 1 commits its no-op entry with node 2, and both apply it. -/
def bothApply : List Action :=
  wins 1 0 1 0 0 [2] ++ acknowledged (appendCall 1 2 1 0 0 [noop 1 1] 0) ++ applies 1 1 ++
    sent (appendCall 1 2 1 1 1 [] 1) ++ applies 2 1

theorem state_machine_safety_bothApply :
    ∃ s, Run (Cluster.step threeNodes)
        (fun s a => CrashFree a ∧ VoteFresh s a ∧ AppendFresh s a)
        (Cluster.init fun _ => true) bothApply s ∧
      (1, 1, noop 1 1) ∈ s.applied ∧ (2, 1, noop 1 1) ∈ s.applied ∧
      ∀ e, (2, 1, e) ∈ s.applied → e = noop 1 1 :=
  (exists_run (P := fun s => (1, 1, noop 1 1) ∈ s.applied ∧ (2, 1, noop 1 1) ∈ s.applied)
    (by decide +kernel)).imp fun s h => ⟨h.1, h.2.1, h.2.2,
      fun e he => state_machine_safety _ _ _ _ h.1 2 1 1 e _ he h.2.1⟩

/-- The cluster of nodes 1 to 5. -/
def fiveNodes : Config := ⟨[1, 2, 3, 4, 5], by decide, by decide⟩

/-- Node 1 leads term 1 and node 2 stores its two entries, but the reply is late. Node 4 leads
term 2 and overwrites both logs. Node 1 leads term 3, and the late reply makes it count node 2
for index 2; it commits an entry only nodes 1 and 3 hold. Node 4 leads term 4 and commits
another one. -/
def lateAppendReply : List Action :=
  wins 1 0 1 0 0 [2, 3] ++ [.propose 1 [7]] ++ sent lateCall ++
    [.deliverVote ⟨1, 0, 4, ⟨1, 1, 0, 0⟩⟩] ++ wins 4 0 2 0 0 [3, 5] ++
    sent (appendCall 4 1 2 0 0 [noop 1 2] 0) ++ sent (appendCall 4 2 2 0 0 [noop 1 2] 0) ++
    sent (appendCall 4 3 2 0 0 [noop 1 2] 0) ++
    wins 1 1 3 1 2 [2, 3] ++ [.deliverVote ⟨1, 1, 4, ⟨3, 1, 1, 2⟩⟩] ++
    [.appendReply lateCall ⟨1, true, 0, 0⟩] ++
    acknowledged (appendCall 1 3 3 1 2 [noop 2 3] 0) ++ applies 1 2 ++
    wins 4 1 4 1 2 [2, 5] ++ acknowledged (appendCall 4 2 4 1 2 [noop 2 4] 0) ++
    acknowledged (appendCall 4 3 4 1 2 [noop 2 4] 0) ++ applies 4 2
where
  lateCall : AppendCall :=
    appendCall 1 2 1 0 0 [noop 1 1, ⟨2, 1, logEntryCommand, [7]⟩] 0

theorem lateAppendReply_applies_differ :
    ∃ s, Run (Cluster.step fiveNodes) (fun s a => CrashFree a ∧ VoteFresh s a)
        (Cluster.init fun _ => true) lateAppendReply s ∧
      s.elected = [(4, 4), (3, 1), (2, 4), (1, 1)] ∧
      (1, 2, noop 2 3) ∈ s.applied ∧ (4, 2, noop 2 4) ∈ s.applied :=
  exists_run (by decide +kernel)

end Oba.Raft
