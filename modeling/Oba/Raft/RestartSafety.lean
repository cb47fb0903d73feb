import Oba.Raft.Safety

/-! # Applying after a restart

A restarted node takes its whole log to be committed. It applies only what a leader has
committed if that was the case when it stopped.
-/

namespace Oba.Raft

open TermLog Execution

/-- Up to `k` the log is what leaders have committed. -/
def Recorded (s : Cluster) (log : List LogEntry) (k : Nat) : Prop :=
  ∀ idx, 0 < idx → idx ≤ k → ∃ n committed, (n, committed) ∈ s.commits ∧
    committed[idx]? = log[idx]?

structure RecordInv (s : Cluster) (h : History) : Prop where
  node : ∀ v, Recorded s (s.node v).st.log.entries (s.node v).st.commitIndex
  call : ∀ c ∈ s.appendCalls, Recorded s (h.leaderLog c.args.term) c.args.leaderCommit
  applied : ∀ (v : NodeId) (idx : Nat) (e : LogEntry), (v, idx, e) ∈ s.applied →
    ∃ n committed, (n, committed) ∈ s.commits ∧ committed[idx]? = some e

section

variable {cfg : Config} {s s' : Cluster} {action : Action} (hstep : Cluster.Step cfg s action s')
include hstep

/-- A step records a commitment exactly when its node leads after it with a higher commit
index. -/
lemma Cluster.Step.commits_eq :
    s'.commits =
      if (s'.node action.actor).st.state = .leader ∧
          (s.node action.actor).st.commitIndex < (s'.node action.actor).st.commitIndex then
        (action.actor, (s'.node action.actor).st.log.entries.take
          ((s'.node action.actor).st.commitIndex + 1)) :: s.commits
      else s.commits := by
  cases hstep
  case replicate => simp
  all_goals
    simp only [Action.actor, Cluster.put_node_self]
    rfl

lemma Cluster.Step.commits_subset {commit : NodeId × List LogEntry} (hmem : commit ∈ s.commits) :
    commit ∈ s'.commits := by
  rw [hstep.commits_eq]
  split
  · exact List.mem_cons_of_mem _ hmem
  · exact hmem

end

lemma Recorded.congr {s : Cluster} {log log' : List LogEntry} {k : Nat}
    (hrec : Recorded s log k) (hagree : AgreeUpTo k log log') : Recorded s log' k := by
  intro idx hpos hle
  rw [← hagree idx hle]
  exact hrec idx hpos hle

namespace Transition

variable {cfg : Config} {s s' : Cluster} {h h' : History} {action : Action}

lemma recorded (T : Transition cfg s h action s' h') {log : List LogEntry} {k : Nat}
    (hrec : Recorded s log k) : Recorded s' log k := by
  intro idx hpos hle
  obtain ⟨n, committed, hmem, hget⟩ := hrec idx hpos hle
  exact ⟨n, committed, T.step.commits_subset hmem, hget⟩

section

variable (T : Transition cfg s h action s' h') (hrec : RecordInv s h)
include T hrec

lemma record_actor :
    Recorded s' (s'.node action.actor).st.log.entries
      (s'.node action.actor).st.commitIndex := by
  have hsafe := T.inv.commit action.actor
  have hlen := hsafe.lt_length (T.log.nodeLog action.actor).length_pos
  have hold := T.recorded (hrec.node action.actor)
  cases T.indexChange with
  | kept hlog hcommit _ =>
    rw [hcommit]
    exact hold.congr (agreeUpTo_of_isPrefix hlog hlen)
  | advanced base hst _ _ hlead _ hcommit hlog _ =>
    rcases updateCommitIndex_cases (cfg.peers action.actor) base with
      hsame | ⟨idx, hset, hlt, _⟩
    · rw [hst, hsame, hcommit]
      exact hold.congr (agreeUpTo_of_isPrefix hlog hlen)
    · have hst' := hst.trans hset
      have hcommits := T.step.commits_eq
      rw [if_pos ⟨by rw [hst']; exact hlead, by rw [hst']; exact hcommit ▸ hlt⟩] at hcommits
      intro i _ hle
      refine ⟨_, _, by rw [hcommits]; exact List.mem_cons_self, ?_⟩
      rw [List.getElem?_take_of_lt (Nat.lt_succ_of_le hle)]
  | stored call haction haccepted hst =>
    obtain ⟨hcall, _⟩ := T.merged haction haccepted hst
    obtain ⟨hkept, hsame | ⟨_, hle, hagree⟩⟩ := T.stored_commit haction haccepted hst
    · rw [hsame]
      exact hold.congr hkept
    · intro i hpos hi
      rw [← hagree i hi]
      exact T.recorded (hrec.call call hcall) i hpos (hi.trans hle)

lemma record_call (c : AppendCall) (hc : c ∈ s'.appendCalls) :
    Recorded s' (h'.leaderLog c.args.term) c.args.leaderCommit := by
  have hlen := (T.log.leaderLog c.args.term).length_pos
  have hgrow := T.grow c.args.term
  rcases T.step.mem_appendCalls hc with hold | ⟨hlead, _, hargs⟩
  · have hsafe := (T.inv.callCommit c hold).1
    exact (T.recorded (hrec.call c hold)).congr
      (agreeUpTo_of_isPrefix hgrow (hsafe.lt_length hlen))
  · have hlog := (T.log.leading _ hlead).2
    have hsafe := T.inv.commit c.leader
    have hnode := T.recorded (hrec.node c.leader)
    rw [hargs] at hgrow hlen ⊢
    rw [← hlog] at hsafe hnode
    exact hnode.congr (agreeUpTo_of_isPrefix hgrow (hsafe.lt_length hlen))

lemma recordInv : RecordInv s' h' where
  node v := by
    by_cases hv : v = action.actor
    · rw [hv]
      exact T.record_actor hrec
    · rw [T.step.node_of_ne hv]
      exact T.recorded (hrec.node v)
  call := T.record_call hrec
  applied v idx e hmem := by
    rcases T.step.mem_applied hmem with hold | ⟨hget, hpos, hle⟩
    · obtain ⟨n, committed, hmem, hentry⟩ := hrec.applied v idx e hold
      exact ⟨n, committed, T.step.commits_subset hmem, hentry⟩
    · rw [← hget]
      exact T.recorded (hrec.node v) idx hpos (hle.trans (T.inv.applyTo v))

end

end Transition

lemma recordInv_init (hasDir : NodeId → Bool) :
    RecordInv (Cluster.init hasDir) History.init := by
  refine ⟨?_, by simp [Cluster.init], by simp [Cluster.init]⟩
  intro v idx hpos hle
  have hzero : ((Cluster.init hasDir).node v).st.commitIndex = 0 := by
    simp only [Cluster.init, Node.start]
    cases hasDir v <;> rfl
  omega

/-- In every run of safe steps, in particular with restarts of nodes whose whole log is
committed, every entry applied has been committed by a leader. -/
theorem restart_safety (cfg : Config) (hasDir : NodeId → Bool) (trace : List Action) (s : Cluster)
    (hrun : Run (Cluster.step cfg) SafeStep (Cluster.init hasDir) trace s)
    (v : NodeId) (idx : Nat) (e : LogEntry) (happlied : (v, idx, e) ∈ s.applied) :
    ∃ n committed, (n, committed) ∈ s.commits ∧ committed[idx]? = some e := by
  obtain ⟨h, _, hrec⟩ := safeState_of_run hrun RecordInv (recordInv_init hasDir)
    fun T hrec => T.recordInv hrec
  exact hrec.applied v idx e happlied

/-- Node 2 learns that its whole log is committed, restarts and applies it. -/
def restartCommitted : List Action :=
  wins 1 0 1 0 0 [2] ++ acknowledged (appendCall 1 2 1 0 0 [noop 1 1] 0) ++
    sent (appendCall 1 2 1 1 1 [] 1) ++ [.restart 2] ++ applies 2 1

theorem restart_safety_restartCommitted :
    ∃ s, Run (Cluster.step threeNodes) SafeStep (Cluster.init fun _ => true) restartCommitted s ∧
      (2, 1, noop 1 1) ∈ s.applied ∧
      ∃ n committed, (n, committed) ∈ s.commits ∧ committed[1]? = some (noop 1 1) :=
  (exists_run (P := fun s => (2, 1, noop 1 1) ∈ s.applied) (by decide +kernel)).imp fun s h =>
    ⟨h.1, h.2, restart_safety _ _ _ _ h.1 2 1 _ h.2⟩

/-- In every run of safe steps, what a node takes as committed is in the log of every leader of
its term or a later one. -/
theorem leader_completeness (cfg : Config) (hasDir : NodeId → Bool) (trace : List Action)
    (s : Cluster) (hrun : Run (Cluster.step cfg) SafeStep (Cluster.init hasDir) trace s)
    (v l : NodeId) (hlead : (s.node l).st.state = .leader)
    (hterm : (s.node v).st.currentTerm ≤ (s.node l).st.currentTerm) (i : Nat)
    (hi : i ≤ (s.node v).st.commitIndex) :
    ∃ e, (s.node l).st.log.entries[i]? = some e ∧ (s.node v).st.log.entries[i]? = some e := by
  obtain ⟨h, hsafe, -⟩ := safeState_of_run hrun (fun _ _ => True) trivial fun _ _ => trivial
  obtain ⟨hled, hlog⟩ := hsafe.log.leading l hlead
  have hcoh := hsafe.log.nodeLog v
  have hcommit := hsafe.commit.commit v
  have hagree := hcommit.agree_leader hsafe.log hsafe.commit hcoh.base_eq hterm ⟨l, hled⟩
  have he := List.getElem?_eq_getElem (hi.trans_lt (hcommit.lt_length hcoh.length_pos))
  rw [← hlog, ← hagree i hi]
  exact ⟨_, he, he⟩

theorem leader_completeness_restartCommitted :
    ∃ s, Run (Cluster.step threeNodes) SafeStep (Cluster.init fun _ => true) restartCommitted s ∧
      ∃ e, (s.node 1).st.log.entries[1]? = some e ∧ (s.node 2).st.log.entries[1]? = some e :=
  (exists_run (P := fun s => (s.node 1).st.state = .leader ∧
      (s.node 2).st.currentTerm ≤ (s.node 1).st.currentTerm ∧ 1 ≤ (s.node 2).st.commitIndex)
    (by decide +kernel)).imp fun s h =>
      ⟨h.1, leader_completeness _ _ _ _ h.1 2 1 h.2.1 h.2.2.1 1 h.2.2.2⟩

/-- Node 2 restarts with an entry in its log that no leader has committed, and applies it. -/
def restartUncommitted : List Action :=
  wins 1 0 1 0 0 [2] ++ sent (appendCall 1 2 1 0 0 [noop 1 1] 0) ++ [.restart 2] ++ applies 2 1

theorem restartUncommitted_applies :
    ∃ s, Run (Cluster.step threeNodes) (fun s a => VoteFresh s a ∧ AppendFresh s a)
        (Cluster.init fun _ => true) restartUncommitted s ∧
      (2, 1, noop 1 1) ∈ s.applied ∧ s.commits = [] :=
  exists_run (by decide +kernel)

end Oba.Raft
