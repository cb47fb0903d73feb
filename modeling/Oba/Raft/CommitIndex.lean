import Oba.Raft.CommitStep

/-! # Match and commit indices

What a step does to a node's match and commit indices, and from it the remaining clauses of
`CommitInv`: a leader's match indices are acknowledged, every commit index is safe, and what a
node applies has been committed.
-/

namespace Oba.Raft

open TermLog Quorum List NodeState RaftLog

variable {st : NodeState} {idx : Nat} {id : NodeId} {e : LogEntry}

/-! ## The commit rule -/

lemma findCommit_spec {peers : List NodeId} {bound : Nat}
    (hfind : findCommit peers st bound = some idx) :
    st.commitIndex < idx ∧ idx ≤ bound ∧ st.log.termAt idx = st.currentTerm ∧
      replicatedOnMajority peers st idx = true := by
  induction bound with
  | zero => cases hfind
  | succ bound ih =>
    unfold findCommit at hfind
    split at hfind
    next hgt =>
      split at hfind
      next hok =>
        cases hfind
        exact ⟨hgt, le_rfl, hok.1, hok.2⟩
      · obtain ⟨hlt, hle, hrest⟩ := ih hfind
        exact ⟨hlt, hle.trans (Nat.le_succ _), hrest⟩
    · cases hfind

lemma updateCommitIndex_cases (peers : List NodeId) (st : NodeState) :
    updateCommitIndex peers st = st ∨ ∃ idx, updateCommitIndex peers st = st.setCommitIndex idx ∧
      st.commitIndex < idx ∧ idx ≤ st.log.lastIndex ∧ st.log.termAt idx = st.currentTerm ∧
      replicatedOnMajority peers st idx = true := by
  unfold updateCommitIndex
  split
  next idx hfind => exact .inr ⟨idx, rfl, findCommit_spec hfind⟩
  · exact .inl rfl

lemma storeEntries_commitIndex (args : AppendEntriesArgs) (st : NodeState) :
    (args.leaderCommit ≤ st.commitIndex ∧
        (storeEntries args st).commitIndex = st.commitIndex) ∨
      (st.commitIndex < args.leaderCommit ∧ (storeEntries args st).commitIndex =
        min (storeEntries args st).log.lastIndex args.leaderCommit) := by
  have hlog : (storeEntries args st).log =
      appendEntriesFrom st.log (args.prevLogIndex + 1) args.entries := by
    rw [storeEntries_eq]
  rw [hlog]
  simp only [storeEntries, followCommit]
  split
  next hlt =>
    simp only [setCommitIndex_commitIndex]
    split <;> omega
  next hle => exact .inl ⟨not_lt.mp hle, rfl⟩

/-- A majority of the cluster holds an index the commit rule accepts, if the match indices
are right about the peers. -/
lemma majority_of_replicated {cfg : Config} (hid : id ∈ cfg.members)
    (hmajority : replicatedOnMajority (cfg.peers id) st idx = true) {holds : NodeId → Prop}
    (hself : holds id) (hpeers : ∀ p ∈ cfg.peers id, idx ≤ st.matchIndex p → holds p) :
    ∃ quorum, Majority cfg.members quorum ∧ ∀ v ∈ quorum, holds v := by
  have hlen := Config.length_peers hid
  set voters := (cfg.peers id).filter fun p => st.matchIndex p ≥ idx with hvoters
  have hmem : ∀ p ∈ voters, p ∈ cfg.peers id ∧ idx ≤ st.matchIndex p := by
    simp [hvoters]
  have hcount : cfg.members.length < 2 * (voters.length + 1) := by
    simp only [replicatedOnMajority, Bool.or_eq_true, List.isEmpty_iff,
      decide_eq_true_eq] at hmajority
    rcases hmajority with halone | hmost
    · rw [halone] at hlen
      simp only [List.length_nil] at hlen
      omega
    · rw [countP_eq_length_filter, ← hvoters] at hmost
      omega
  refine ⟨_, Majority.of_voters hid (fun p hp => ?_) ?_ hcount, ?_⟩
  · exact (Config.mem_peers.mp (hmem p hp).1).1
  · refine nodup_cons.mpr ⟨fun hown => ?_, (cfg.peers_nodup id).filter _⟩
    exact (Config.mem_peers.mp (hmem id hown).1).2 rfl
  · intro v hv
    rcases mem_cons.mp (mem_toFinset.mp hv) with rfl | hp
    · exact hself
    · exact hpeers v (hmem v hp).1 (hmem v hp).2

/-! ## What a step does to the indices -/

/-- The match index of a leader for a peer is what it was, or what a successful reply to this
leadership reports. -/
def MatchSource (s : Cluster) (st : NodeState) (p : NodeId) (m : Nat) : Prop :=
  m = st.matchIndex p ∨ ∃ c r, (c, r) ∈ s.appendReplies ∧ r.success = true ∧ c.peer = p ∧
    c.args.term = st.currentTerm ∧ m = c.args.prevLogIndex + c.args.entries.length

inductive IndexChange (cfg : Config) (s : Cluster) (action : Action) (st st' : NodeState) : Prop
  | kept (hlog : st.log.entries <+: st'.log.entries) (hcommit : st'.commitIndex = st.commitIndex)
      (hlead : st'.state = .leader → (∀ p ∈ cfg.peers action.actor, st'.matchIndex p = 0) ∨
        (st.state = .leader ∧ st'.currentTerm = st.currentTerm ∧ st'.matchIndex = st.matchIndex))
  | advanced (base : NodeState) (hst : st' = updateCommitIndex (cfg.peers action.actor) base)
      (hactor : action.actor ∈ cfg.members) (hbefore : st.state = .leader)
      (hlead : base.state = .leader) (hterm : base.currentTerm = st.currentTerm)
      (hcommit : base.commitIndex = st.commitIndex) (hlog : st.log.entries <+: base.log.entries)
      (hmatch : ∀ p ∈ cfg.peers action.actor, MatchSource s st p (base.matchIndex p))
  | stored (call : AppendCall) (haction : action = .deliverAppend call)
      (haccepted : Accepted call.args st)
      (hst : st' = storeEntries call.args (acceptLeader call.args st))

lemma IndexChange.of_becomeLeader {cfg : Config} {s : Cluster} {action : Action}
    (st : NodeState) :
    IndexChange cfg s action st (becomeLeader action.actor (cfg.peers action.actor) st) := by
  refine .kept (prefix_append _ _) rfl fun _ => .inl ?_
  intro p hp
  simp [becomeLeader, hp]

lemma IndexChange.of_same {cfg : Config} {s : Cluster} {action : Action} {st' : NodeState}
    (hrole : RoleKept st st') (hlog : st'.log = st.log) (hcommit : st'.commitIndex = st.commitIndex)
    (hmatch : st'.matchIndex = st.matchIndex) : IndexChange cfg s action st st' :=
  .kept (by rw [hlog]) hcommit fun hlead =>
    .inr ⟨(hrole.of_leader hlead).1, (hrole.of_leader hlead).2, hmatch⟩

lemma Node.applyNext_entry {result : ApplyResult} {n : Node}
    (happly : (n.applyNext result).2 = some (idx, e)) :
    idx = n.applyAt + 1 ∧ n.st.log.entries[idx]? = some e := by
  unfold Node.applyNext RaftLog.get at happly
  split at happly
  · cases happly
  next entry hget =>
    have hentry : n.st.log.entries[n.applyAt + 1]? = some entry := by
      split at hget
      next found hfound => rw [hfound, Except.ok.inj hget]
      · cases hget
    have hpair : (n.applyAt + 1, entry) = (idx, e) := by
      split at happly <;> exact Option.some.inj happly
    cases hpair
    exact ⟨rfl, hentry⟩

section Step

variable {cfg : Config} {s s' : Cluster} {h : History} {action : Action}

lemma IndexChange.of_appendReply (helect : ElectionInv cfg s h) (hlog : LogInv cfg s h)
    {call : AppendCall} {reply : AppendEntriesReply} (hreply : (call, reply) ∈ s.appendReplies)
    (hfresh : AppendFresh s (.appendReply call reply)) :
    IndexChange cfg s (.appendReply call reply) (s.node call.leader).st
      (handleAppendReply (cfg.peers call.leader) call.peer call.nextIndex
        call.args.entries.length reply (s.node call.leader).st) := by
  have hcall := hlog.calls call (hlog.replies call reply hreply).1
  unfold handleAppendReply
  split
  · exact .kept (prefix_refl _) rfl fun hlead => by cases hlead
  next hterm =>
    split
    next hsuccess =>
      obtain ⟨hlead, hsame⟩ := hfresh hsuccess (not_lt.mp hterm)
      refine .advanced _ rfl (helect.elected _ _ hcall.sender).member hlead hlead rfl rfl
        (prefix_refl _) fun p _ => ?_
      simp only [setMatchIndex_matchIndex, setNextIndex_matchIndex,
        Function.update_apply]
      split
      next hp =>
        have := hcall.next
        exact .inr ⟨call, reply, hreply, hsuccess, hp.symm, hsame.symm, by omega⟩
      · exact .inl rfl
    · have hkept : ∀ n, IndexChange cfg s (.appendReply call reply) (s.node call.leader).st
          ((s.node call.leader).st.setNextIndex call.peer n) :=
        fun n => .of_same (.inr ⟨rfl, rfl⟩) rfl rfl rfl
      split
      · exact hkept _
      · split
        · exact hkept _
        · exact .of_same (RoleKept.refl _) rfl rfl rfl

lemma IndexChange.of_restart (hrestart : (s.node id).st.restart = some st)
    (hlog : RestartKeepsLog s (.restart id)) (hcommit : RestartKeepsCommit s (.restart id)) :
    IndexChange cfg s (.restart id) (s.node id).st st := by
  have hentries := hlog st hrestart
  refine .kept (by rw [hentries]) ?_ fun hlead => ?_
  · rw [restart_commitIndex hrestart, hcommit]
    simp only [lastIndex, hentries]
  · rw [(restart_vote hrestart).1] at hlead
    cases hlead

section

variable (hstep : Cluster.Step cfg s action s')
include hstep

/-- What a step does to the indices of its node. -/
lemma Cluster.Step.indexChange (helect : ElectionInv cfg s h) (hlog : LogInv cfg s h)
    (hok : SafeStep s action) :
    IndexChange cfg s action (s.node action.actor).st (s'.node action.actor).st := by
  have hrefl : ∀ n : Node, IndexChange cfg s action n.st n.st :=
    fun n => .of_same (RoleKept.refl _) rfl rfl rfl
  cases hstep <;> simp only [Action.actor, Cluster.put_node_self]
  case timeout => exact .kept (prefix_refl _) rfl fun hlead => by cases hlead
  case campaignAlone => exact .of_becomeLeader _
  case deliverVote call hcall =>
    have hsame := handleRequestVote_same call.args (s.node call.peer).st
    exact .of_same (handleRequestVote_role _ _) hsame.log hsame.commitIndex hsame.matchIndex
  case voteReply call reply hwaiting hreply =>
    obtain ⟨n, hn, houtcome⟩ := s.processVoteReply_outcome cfg call reply
    rw [hn]
    cases houtcome with
    | steppedDown | retried => exact .kept (prefix_refl _) rfl fun hlead => by cases hlead
    | won => exact .of_becomeLeader _
    | _ => exact hrefl _
  case deliverAppend call hcall =>
    have hsame := acceptLeader_same call.args (s.node call.peer).st
    rcases handleAppendEntries_cases call.args (s.node call.peer).st with
      ⟨hst, _⟩ | ⟨_, hst, _⟩ | ⟨haccepted, hst, _⟩
    · rw [hst]
      exact hrefl _
    · rw [hst]
      exact .of_same (acceptLeader_role _ _) hsame.log hsame.commitIndex hsame.matchIndex
    · exact .stored call rfl haccepted hst
  case appendReply call reply hwaiting hreply => exact .of_appendReply helect hlog hreply hok.append
  case propose id data hid hleader =>
    exact .advanced _ rfl hid hleader hleader rfl rfl (prefix_append _ _) fun p _ => .inl rfl
  case applyNext id result hid hmore =>
    unfold Node.applyNext
    split
    · exact hrefl _
    · split
      · exact hrefl _
      · exact .of_same (.inr ⟨rfl, rfl⟩) rfl rfl rfl
  case restart id st hid hrestart => exact .of_restart hrestart hok.keepsLog hok.keepsCommit
  all_goals exact hrefl _

/-- What the apply loop has read: the commit index, or at most what it had read before. -/
lemma Cluster.Step.applyTo_cases :
    ((s'.node action.actor).applyTo = (s.node action.actor).st.commitIndex ∧
        (s'.node action.actor).st.commitIndex = (s.node action.actor).st.commitIndex) ∨
      (s'.node action.actor).applyTo ≤ (s.node action.actor).applyTo := by
  cases hstep <;> simp only [Action.actor, Cluster.put_node_self]
  case applyScan => exact .inl ⟨rfl, rfl⟩
  case voteReply call reply hwaiting hreply =>
    obtain ⟨n, hn, houtcome⟩ := s.processVoteReply_outcome cfg call reply
    rw [hn]
    cases houtcome <;> exact .inr le_rfl
  case applyNext id result hid hmore =>
    right
    unfold Node.applyNext
    split
    · exact hmore.le
    · split
      · exact hmore.le
      · exact le_rfl
  case restart => exact .inr (Nat.zero_le _)
  all_goals exact .inr le_rfl

/-- An applied entry was applied before, or is the next one the apply loop may take. -/
lemma Cluster.Step.mem_applied {v : NodeId} (hmem : (v, idx, e) ∈ s'.applied) :
    (v, idx, e) ∈ s.applied ∨
      ((s.node v).st.log.entries[idx]? = some e ∧ 0 < idx ∧ idx ≤ (s.node v).applyTo) := by
  cases hstep
  case applyNext id result hid hmore =>
    rcases mem_append.mp hmem with hnew | hold
    swap
    · exact .inl hold
    right
    simp only [Option.mem_toList, Option.map_eq_some_iff] at hnew
    obtain ⟨⟨i, entry⟩, happly, heq⟩ := hnew
    obtain ⟨rfl, rfl, rfl⟩ : id = v ∧ i = idx ∧ entry = e := by simpa using heq
    obtain ⟨rfl, hget⟩ := Node.applyNext_entry happly
    exact ⟨hget, Nat.succ_pos _, hmore⟩
  all_goals exact .inl hmem

end

end Step

namespace Transition

variable {cfg : Config} {s s' : Cluster} {h h' : History} {action : Action}

section

variable (T : Transition cfg s h action s' h')
include T

lemma indexChange : IndexChange cfg s action (s.node action.actor).st (s'.node action.actor).st :=
  T.step.indexChange T.elect T.log T.ok

lemma matched (v : NodeId) (hlead : (s'.node v).st.state = .leader) (p : NodeId)
    (hp : p ∈ cfg.peers v) :
    (s'.node v).st.matchIndex p ≤ h'.acked p (s'.node v).st.currentTerm := by
  by_cases hv : v = action.actor
  swap
  · rw [T.step.node_of_ne hv] at hlead ⊢
    exact (T.inv.matched v hlead p hp).trans (T.acked_le _ _)
  subst hv
  have hold : (s.node action.actor).st.state = .leader →
      (s.node action.actor).st.matchIndex p ≤
        h'.acked p (s.node action.actor).st.currentTerm :=
    fun hbefore => (T.inv.matched _ hbefore p hp).trans (T.acked_le _ _)
  cases T.indexChange with
  | kept _ _ hkept =>
    rcases hkept hlead with hzero | ⟨hbefore, hterm, hmatch⟩
    · rw [hzero p hp]
      exact Nat.zero_le _
    · rw [hterm, hmatch]
      exact hold hbefore
  | advanced base hst hactor hbefore _ hterm _ _ hmatch =>
    rw [hst, updateCommitIndex_eq]
    simp only [setCommitIndex_matchIndex, setCommitIndex_currentTerm, hterm]
    rcases hmatch p hp with hsame | ⟨c, r, hreply, hsuccess, rfl, hcall, hm⟩
    · rw [hsame]
      exact hold hbefore
    · rw [hm, ← hcall]
      exact (T.inv.success c r hreply hsuccess).trans (T.acked_le _ _)
  | stored call haction haccepted hst =>
    exact absurd hlead (T.merged_not_leader haction haccepted hst)

/-! ## Commit indices -/

lemma safeUpTo_grow {log log' : List LogEntry} {k b b' : Nat} (hsafe : SafeUpTo cfg h log k b)
    (hlen : 0 < log.length) (hgrow : log <+: log') (hb : b ≤ b') : SafeUpTo cfg h' log' k b' :=
  (T.safeUpTo hsafe hb).congr (agreeUpTo_of_isPrefix hgrow (hsafe.lt_length hlen))

/-- An index the commit rule accepts is committed. -/
lemma committed_of_replicated (hactor : action.actor ∈ cfg.members)
    (hlead : (s'.node action.actor).st.state = .leader)
    (hlen : idx ≤ (s'.node action.actor).st.log.lastIndex)
    (hterm : (s'.node action.actor).st.log.termAt idx = (s'.node action.actor).st.currentTerm)
    (hmajority :
      replicatedOnMajority (cfg.peers action.actor) (s'.node action.actor).st idx = true) :
    Committed cfg h' (s'.node action.actor).st.currentTerm idx := by
  have hpos := (T.log'.nodeLog action.actor).length_pos
  have hack := T.ackLeader action.actor hlead
  refine ⟨?_, ?_⟩
  · rw [lastIndex_eq hpos] at hlen
    have hget := getElem?_eq_getElem
      (show idx < (s'.node action.actor).st.log.entries.length by omega)
    refine ⟨_, by rw [(T.log'.leading _ hlead).2]; exact hget, ?_⟩
    rw [← hterm, termAt_eq hget]
  · exact majority_of_replicated hactor hmajority (hlen.trans hack)
      fun p hp hmatch => hmatch.trans (T.matched _ hlead p hp)

section

variable {call : AppendCall} (haction : action = .deliverAppend call)
  (haccepted : Accepted call.args (s.node action.actor).st)
  (hst : (s'.node action.actor).st =
    storeEntries call.args (acceptLeader call.args (s.node action.actor).st))
include haction haccepted hst

/-- Storing entries keeps what the node took to be committed, and takes over the leader's
commit index only as far as the log now is the leader's. -/
lemma stored_commit :
    AgreeUpTo (s.node action.actor).st.commitIndex (s.node action.actor).st.log.entries
        (s'.node action.actor).st.log.entries ∧
      ((s'.node action.actor).st.commitIndex = (s.node action.actor).st.commitIndex ∨
        ((s.node action.actor).st.commitIndex < (s'.node action.actor).st.commitIndex ∧
          (s'.node action.actor).st.commitIndex ≤ call.args.leaderCommit ∧
          AgreeUpTo (s'.node action.actor).st.commitIndex (h.leaderLog call.args.term)
            (s'.node action.actor).st.log.entries)) := by
  obtain ⟨hcall, _, hmerge, hreach⟩ := T.merged haction haccepted hst
  have hbase := T.log.nodeLog action.actor
  have hled : Led s call.args.term := ⟨_, (T.log.calls call hcall).sender⟩
  -- what was safe is also in the sender's log, so it survived
  have hsafe := T.inv.commit action.actor
  have hagree := hsafe.agree_leader T.log T.inv hbase.base_eq haccepted.term hled
  obtain ⟨hkept, hlong⟩ := hmerge.agree_keep hagree (hsafe.lt_length hbase.length_pos)
  refine ⟨hagree.trans hkept.symm, ?_⟩
  have hcommit := storeEntries_commitIndex call.args
    (acceptLeader call.args (s.node action.actor).st)
  rw [← hst, (acceptLeader_same _ _).commitIndex, lastIndex_eq (by omega)] at hcommit
  rcases hcommit with ⟨_, hsame⟩ | ⟨hlt, hmin⟩
  · exact .inl hsame
  · have hle : call.args.leaderCommit ≤ call.args.prevLogIndex + call.args.entries.length := by
      rcases (T.inv.callCommit call hcall).2 with hle | ⟨hpos, hzero⟩
      · exact hle
      · exact absurd hzero (T.log.prevLogTerm_ne_zero hbase haccepted hpos)
    rcases lt_or_ge (s.node action.actor).st.commitIndex
      (s'.node action.actor).st.commitIndex with hgrew | hge
    · exact .inr ⟨hgrew, by omega, hmerge.agree.symm.mono (by omega)⟩
    · exact .inl (by omega)

lemma commit_stored :
    (s.node action.actor).st.commitIndex ≤ (s'.node action.actor).st.commitIndex ∧
    SafeUpTo cfg h' (s'.node action.actor).st.log.entries (s'.node action.actor).st.commitIndex
      (s'.node action.actor).st.currentTerm := by
  obtain ⟨hcall, hterm, _⟩ := T.merged haction haccepted hst
  obtain ⟨hkept, hsame | ⟨hlt, hle, hagree⟩⟩ := T.stored_commit haction haccepted hst
  · rw [hsame]
    exact ⟨le_rfl, T.safeUpTo ((T.inv.commit action.actor).congr hkept) (T.termMono _)⟩
  · rw [hterm]
    have hsent := (T.inv.callCommit call hcall).1.mono hle
    exact ⟨hlt.le, T.safeUpTo (hsent.congr hagree) le_rfl⟩

end

lemma commit_actor :
    (s.node action.actor).st.commitIndex ≤ (s'.node action.actor).st.commitIndex ∧
    SafeUpTo cfg h' (s'.node action.actor).st.log.entries (s'.node action.actor).st.commitIndex
      (s'.node action.actor).st.currentTerm := by
  have hlen := (T.log.nodeLog action.actor).length_pos
  have hsafe := T.inv.commit action.actor
  have hmono := T.termMono action.actor
  cases hchange : T.indexChange with
  | kept hlog hcommit _ =>
    rw [hcommit]
    exact ⟨le_rfl, T.safeUpTo_grow hsafe hlen hlog hmono⟩
  | advanced base hst hactor hbefore hlead hterm hcommit hlog hmatch =>
    rcases updateCommitIndex_cases (cfg.peers action.actor) base with
      hsame | ⟨idx, hset, hlt, hle, hown, hmajority⟩
    · rw [hsame] at hst
      rw [hst] at hmono ⊢
      rw [hcommit]
      exact ⟨le_rfl, T.safeUpTo_grow hsafe hlen hlog hmono⟩
    · have hst' := hst.trans hset
      have hleads : (s'.node action.actor).st.state = .leader := by rw [hst']; exact hlead
      have hcom : Committed cfg h' (s'.node action.actor).st.currentTerm idx := by
        refine T.committed_of_replicated hactor hleads ?_ ?_ ?_ <;> rw [hst']
        · exact hle
        · exact hown
        · exact hmajority
      have hidx : (s'.node action.actor).st.commitIndex = idx := by rw [hst']; rfl
      rw [hidx]
      refine ⟨by omega, .inr ⟨_, idx, le_rfl, le_rfl, hcom, ?_⟩⟩
      rw [(T.log'.leading _ hleads).2]
      exact AgreeUpTo.refl _ _
  | stored call haction haccepted hst => exact T.commit_stored haction haccepted hst

lemma commit (v : NodeId) : SafeUpTo cfg h' (s'.node v).st.log.entries (s'.node v).st.commitIndex
      (s'.node v).st.currentTerm := by
  by_cases hv : v = action.actor
  · rw [hv]
    exact T.commit_actor.2
  · rw [T.step.node_of_ne hv]
    exact T.safeUpTo (T.inv.commit v) le_rfl

lemma callCommit (c : AppendCall) (hc : c ∈ s'.appendCalls) :
    SafeUpTo cfg h' (h'.leaderLog c.args.term) c.args.leaderCommit c.args.term ∧
      (c.args.leaderCommit ≤ c.args.prevLogIndex + c.args.entries.length ∨
        (0 < c.args.prevLogIndex ∧ c.args.prevLogTerm = 0)) := by
  have hgrow := T.grow c.args.term
  have hlen := (T.log.leaderLog c.args.term).length_pos
  rcases T.step.mem_appendCalls hc with hold | ⟨hlead, _, hargs⟩
  · obtain ⟨hsafe, hbound⟩ := T.inv.callCommit c hold
    exact ⟨T.safeUpTo_grow hsafe hlen hgrow le_rfl, hbound⟩
  · have hsafe := T.inv.commit c.leader
    have hlog := (T.log.leading _ hlead).2
    rw [hargs] at hgrow hlen ⊢
    simp only [replicateArgs] at hgrow hlen ⊢
    rw [← hlog] at hsafe
    refine ⟨T.safeUpTo_grow hsafe hlen hgrow le_rfl, ?_⟩
    have hcommit := hsafe.lt_length hlen
    rw [hlog] at hcommit
    simp only [getFrom, length_drop]
    rcases lt_or_ge ((s.node c.leader).st.nextIndex c.peer - 1)
      (s.node c.leader).st.log.entries.length with hlt | hge
    · omega
    · exact .inr ⟨by omega, termAt_eq_zero hge⟩

/-! ## Applying -/

lemma applyTo (v : NodeId) : (s'.node v).applyTo ≤ (s'.node v).st.commitIndex := by
  by_cases hv : v = action.actor
  swap
  · rw [T.step.node_of_ne hv]
    exact T.inv.applyTo v
  subst hv
  have hmono := T.commit_actor.1
  have hold := T.inv.applyTo action.actor
  rcases T.step.applyTo_cases with hscan | hle
  · rw [hscan.1, hscan.2]
  · omega

lemma applied (v : NodeId) (idx : Nat) (e : LogEntry) (hmem : (v, idx, e) ∈ s'.applied) :
    0 < idx ∧ ∃ t i, Committed cfg h' t i ∧ idx ≤ i ∧ (h'.leaderLog t)[idx]? = some e := by
  rcases T.step.mem_applied hmem with hold | ⟨hget, hpos, hle⟩
  · obtain ⟨hpos, t, i, hcom, hidx, he⟩ := T.inv.applied v idx e hold
    exact ⟨hpos, t, i, T.committed hcom, hidx, getElem?_of_isPrefix (T.grow t) he⟩
  · have hsafe := (T.inv.commit v).mono (hle.trans (T.inv.applyTo v))
    rcases hsafe with rfl | ⟨t, i, _, hk, hcom, hagree⟩
    · exact absurd hpos (lt_irrefl 0)
    · refine ⟨hpos, t, i, T.committed hcom, hk, getElem?_of_isPrefix (T.grow t) ?_⟩
      rw [← hagree idx le_rfl]
      exact hget

end

end Transition

end Oba.Raft
