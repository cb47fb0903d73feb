import Oba.Raft.Election
import Oba.Raft.LogChange

/-! # Log matching

The log of the leader of a term is the origin of all entries of that term. Node logs and
the batches on the wire are coherent with these origins, as long as each term has one
leadership. The argument does not use that terms grow, so it covers runs in which a late
vote reply takes a node back to an older term.
-/

namespace Oba.Raft

open TermLog List
open Cluster (init Step)

variable {t : Nat} {log : List LogEntry} {args : AppendEntriesArgs} {id : NodeId} {st : NodeState}

/-- No term has two leaderships, of one node or of two. -/
def UniqueEpochs (s : Cluster) : Prop := (s.elected.map Prod.fst).Nodup

lemma UniqueEpochs.leader_eq {s : Cluster} (hunique : UniqueEpochs s) {a b : NodeId}
    (ha : (t, a) ∈ s.elected) (hb : (t, b) ∈ s.elected) : a = b :=
  (Prod.mk.inj (inj_on_of_nodup_map hunique ha hb rfl)).2

lemma UniqueEpochs.of_step {cfg : Config} {s s' : Cluster} {action : Action}
    (hstep : Step cfg s action s') (hunique : UniqueEpochs s') : UniqueEpochs s := by
  unfold UniqueEpochs at hunique ⊢
  rw [hstep.elected_eq] at hunique
  split at hunique
  · exact (nodup_cons.mp hunique).2
  · exact hunique

/-- Coherent with the logs of the leaders. -/
abbrev Coh (h : History) (log : List LogEntry) : Prop :=
  Coherent dummyEntry LogEntry.term h.leaderLog log

/-- The batch of a request is a stretch of the sender's log, or empty and past its end. -/
inductive BatchOk (log : List LogEntry) (args : AppendEntriesArgs) : Prop
  | stretch (e : LogEntry) (hprev : log[args.prevLogIndex]? = some e)
      (hterm : e.term = args.prevLogTerm)
      (hlen : args.prevLogIndex + args.entries.length < log.length)
      (hentries : ∀ j < args.entries.length, log[args.prevLogIndex + 1 + j]? = args.entries[j]?)
  | beyond (hprev : 0 < args.prevLogIndex) (hterm : args.prevLogTerm = 0)

lemma BatchOk.mono {log' : List LogEntry} (hbatch : BatchOk log args) (hgrow : log <+: log') :
    BatchOk log' args := by
  cases hbatch with
  | beyond hprev hterm => exact .beyond hprev hterm
  | stretch e hprev hterm hlen hentries =>
    refine .stretch e (getElem?_of_isPrefix hgrow hprev) hterm (hlen.trans_le hgrow.length_le) ?_
    intro j hj
    rw [← hentries j hj]
    exact (agreeUpTo_of_isPrefix hgrow hlen _ (by omega)).symm

/-- What `replicateTo` sends is a stretch of the log that it reads. -/
lemma batchOk_replicateArgs {peer : NodeId} (hpos : 0 < st.log.entries.length)
    (hnext : 1 ≤ st.nextIndex peer) : BatchOk st.log.entries (replicateArgs id peer st) := by
  rcases lt_or_ge (st.nextIndex peer - 1) st.log.entries.length with hlt | hge
  · refine .stretch _ (getElem?_eq_getElem hlt) ?_ ?_ ?_
    · exact (RaftLog.termAt_eq (getElem?_eq_getElem hlt)).symm
    · simp only [replicateArgs, RaftLog.getFrom, length_drop]
      omega
    · intro j _
      simp only [replicateArgs, RaftLog.getFrom, getElem?_drop]
      rw [show st.nextIndex peer - 1 + 1 + j = st.nextIndex peer + j by omega]
  · exact .beyond (hpos.trans_le hge) (RaftLog.termAt_eq_zero hge)

structure AppendOk (cfg : Config) (s : Cluster) (h : History) (call : AppendCall) : Prop where
  sender : (call.args.term, call.leader) ∈ s.elected
  peer : call.peer ∈ cfg.peers call.leader
  next : call.nextIndex = call.args.prevLogIndex + 1
  batch : BatchOk (h.leaderLog call.args.term) call.args

structure LogInv (cfg : Config) (s : Cluster) (h : History) : Prop where
  active : ∀ v, (s.node v).st.state ≠ .follower → 1 ≤ (s.node v).st.currentTerm
  electedPos : ∀ t id, (t, id) ∈ s.elected → 1 ≤ t
  leading : ∀ v, (s.node v).st.state = .leader →
    ((s.node v).st.currentTerm, v) ∈ s.elected ∧
      h.leaderLog (s.node v).st.currentTerm = (s.node v).st.log.entries
  unled : ∀ t, (∀ id, (t, id) ∉ s.elected) → h.leaderLog t = [dummyEntry]
  leaderLog : ∀ t, Coh h (h.leaderLog t)
  indexed : ∀ (t i : Nat) (e : LogEntry), (h.leaderLog t)[i]? = some e → e.index = i
  nodeLog : ∀ v, Coh h (s.node v).st.log.entries
  next : ∀ v, (s.node v).st.state = .leader → ∀ p ∈ cfg.peers v, 1 ≤ (s.node v).st.nextIndex p
  calls : ∀ c ∈ s.appendCalls, AppendOk cfg s h c
  replies : ∀ c r, (c, r) ∈ s.appendReplies →
    c ∈ s.appendCalls ∧ (0 < r.conflictTerm → 1 ≤ r.conflictIndex)

lemma coh_singleton (h : History) : Coh h [dummyEntry] := by
  refine ⟨rfl, ?_⟩
  intro i e hpos he
  rw [getElem?_eq_none (Nat.succ_le_of_lt hpos)] at he
  cases he

lemma logInv_init (cfg : Config) (hasDir : NodeId → Bool) :
    LogInv cfg (init hasDir) History.init := by
  have hst : ∀ v, ((init hasDir).node v).st.state = .follower ∧
      ((init hasDir).node v).st.log.entries = [dummyEntry] := by
    intro v
    simp only [init, Node.start]
    cases hasDir v
    · exact ⟨rfl, rfl⟩
    · exact ⟨rfl, rfl⟩
  have hfollower : ∀ v, ((init hasDir).node v).st.state ≠ .leader := by
    intro v
    simp [(hst v).1]
  refine ⟨fun v hne => absurd (hst v).1 hne, by simp [init],
    fun v hlead => absurd hlead (hfollower v), fun _ _ => rfl, fun _ => coh_singleton _, ?_, ?_,
    fun v hlead => absurd hlead (hfollower v), by simp [init], by simp [init]⟩
  · intro t i e he
    have hlen := (List.getElem?_eq_some_iff.mp he).1
    obtain rfl : i = 0 := by simpa [History.init] using hlen
    obtain rfl : dummyEntry = e := by simpa [History.init] using he
    rfl
  · intro v
    rw [(hst v).2]
    exact coh_singleton _

namespace LogInv

variable {cfg : Config} {s s' : Cluster} {h : History} {action : Action}

section

variable (hinv : LogInv cfg s h)
include hinv

/-- Entries past the dummy come from a leader, so their terms are positive. -/
lemma term_pos (hlog : Coh h log) {i : Nat} {e : LogEntry} (hpos : 0 < i)
    (he : log[i]? = some e) :
    ∃ id, (e.term, id) ∈ s.elected := by
  by_contra hnone
  have horigin := hinv.unled e.term (fun id hmem => hnone ⟨id, hmem⟩)
  have hagree := hlog.agree i e hpos he i le_rfl
  rw [he, horigin, getElem?_eq_none (Nat.succ_le_of_lt hpos)] at hagree
  cases hagree

/-- An entry sits at the index it carries. -/
lemma index_eq (hlog : Coh h log) {i : Nat} {e : LogEntry} (he : log[i]? = some e) :
    e.index = i := by
  rcases Nat.eq_zero_or_pos i with rfl | hpos
  · obtain rfl : dummyEntry = e := by simpa [hlog.base_eq] using he
    rfl
  · refine hinv.indexed e.term i e ?_
    rw [← hlog.agree i e hpos he i le_rfl, he]

/-- An accepted request names a previous entry with a term. -/
lemma prevLogTerm_ne_zero (hlog : Coh h st.log.entries) (haccepted : Accepted args st)
    (hpos : 0 < args.prevLogIndex) : args.prevLogTerm ≠ 0 := by
  have haccept := (acceptLeader_same args st).log
  obtain ⟨_, hprev⟩ :=
    logConflict_eq_none (by rw [haccept]; exact hlog.length_pos) haccepted.noConflict
  rw [haccept] at hprev
  obtain ⟨e, he, hterm⟩ := hprev hpos
  obtain ⟨id, hid⟩ := hinv.term_pos hlog hpos he
  have := hinv.electedPos _ _ hid
  omega

/-- A request that its receiver accepts continues the receiver's log where it agrees with the
sender's. -/
lemma reconciled {call : AppendCall} (hcall : call ∈ s.appendCalls) (hlog : Coh h st.log.entries)
    (haccepted : Accepted call.args st) :
    Reconciled (call.args.prevLogIndex + call.args.entries.length)
        (h.leaderLog call.args.term) st.log.entries
        (storeEntries call.args (acceptLeader call.args st)).log.entries ∧
      call.args.prevLogIndex + call.args.entries.length < (h.leaderLog call.args.term).length := by
  have hnone := haccepted.noConflict
  have haccept := (acceptLeader_same call.args st).log
  obtain ⟨hlen, hprev⟩ := logConflict_eq_none (by rw [haccept]; exact hlog.length_pos) hnone
  rw [haccept] at hlen hprev
  rw [storeEntries_eq]
  rw [haccept, appendEntriesFrom_entries _ _ _ hlog.length_pos]
  cases (hinv.calls call hcall).batch with
  | beyond hpos hzero => exact absurd hzero (hinv.prevLogTerm_ne_zero hlog haccepted hpos)
  | stretch e he hterm hbatch hentries =>
    refine ⟨reconcile_spec (hinv.leaderLog _) _ _ hlog ?_ hlen hentries, hbatch⟩
    rcases Nat.eq_zero_or_pos call.args.prevLogIndex with hzero | hpos
    · rw [hzero] at he ⊢
      exact hlog.agreeUpTo (hinv.leaderLog _) hlog.base_eq (hinv.leaderLog _).base_eq rfl
    · obtain ⟨old, hold, holdTerm⟩ := hprev hpos
      exact hlog.agreeUpTo (hinv.leaderLog _) hold he (holdTerm.trans hterm.symm)

/-! ## One step -/

/-- A leader stores no entries: a request of its own term would come from itself. -/
lemma not_leader_of_accepted (hunique : UniqueEpochs s) {call : AppendCall}
    (hcall : call ∈ s.appendCalls) (haccepted : Accepted call.args (s.node call.peer).st) :
    (storeEntries call.args (acceptLeader call.args (s.node call.peer).st)).state ≠ .leader := by
  intro hlead
  rw [storeEntries_eq] at hlead
  obtain ⟨hbefore, hterm⟩ := (acceptLeader_role call.args (s.node call.peer).st).of_leader hlead
  rw [acceptLeader_term haccepted.term] at hterm
  have hown := (hinv.leading _ hbefore).1
  rw [← hterm] at hown
  have hok := hinv.calls call hcall
  exact (Config.mem_peers.mp hok.peer).2 (hunique.leader_eq hown hok.sender)

section

variable (hstep : Step cfg s action s') (hunique : UniqueEpochs s')
  (hkeep : RestartKeepsLog s action) (hlead : (s'.node action.actor).st.state = .leader)
include hstep hunique hkeep hlead

/-- The log of a node that leads after the step: what it was, with at most one new entry. -/
lemma leader_log :
    ((s'.node action.actor).st.log.entries = (s.node action.actor).st.log.entries ∧
        (s.node action.actor).st.state = .leader ∧
        (s'.node action.actor).st.currentTerm = (s.node action.actor).st.currentTerm) ∨
      ∃ e, LeaderAppend (s.node action.actor).st (s'.node action.actor).st e := by
  have hbefore := UniqueEpochs.of_step hstep hunique
  cases hstep.logChange hkeep with
  | kept hlog hl => exact .inl ⟨hlog, hl hlead⟩
  | written e happend => exact .inr ⟨e, happend⟩
  | merged call haction haccepted hst =>
    subst haction
    rw [hst] at hlead
    exact absurd hlead (hinv.not_leader_of_accepted hbefore hstep.mem_of_deliverAppend haccepted)

/-- A leader after the step: it led before in the same term, or the term is new. -/
lemma leads_or_new :
    (s'.node action.actor).st.currentTerm = (s.node action.actor).st.currentTerm ∧
      ((s.node action.actor).st.state = .leader ∨
        ((s.node action.actor).st.state = .candidate ∧
          s'.elected = ((s'.node action.actor).st.currentTerm, action.actor) :: s.elected ∧
          ∀ id, ((s'.node action.actor).st.currentTerm, id) ∉ s.elected)) := by
  rcases hinv.leader_log hstep hunique hkeep hlead with ⟨_, hbefore, hterm⟩ | ⟨e, happend⟩
  · exact ⟨hterm, .inl hbefore⟩
  · refine ⟨happend.term, ?_⟩
    rcases happend.before with hbefore | hbefore
    · exact .inl hbefore
    · refine .inr ⟨hbefore, ?_⟩
      have helected := hstep.elected_eq
      rw [if_pos ⟨hlead, by simp [hbefore]⟩] at helected
      refine ⟨helected, fun id hmem => ?_⟩
      unfold UniqueEpochs at hunique
      rw [helected] at hunique
      exact (nodup_cons.mp hunique).1 (mem_map.mpr ⟨_, hmem, rfl⟩)

end

end

lemma singleton_isPrefix (hlog : Coh h log) : [dummyEntry] <+: log := by
  cases log with
  | nil => cases hlog.base_eq
  | cons first rest =>
    obtain rfl : first = dummyEntry := by simpa using hlog.base_eq
    exact ⟨rest, rfl⟩

/-- The logs of the leaders only grow at their ends. -/
lemma grow (hinv : LogInv cfg s h) (hstep : Step cfg s action s')
    (hunique : UniqueEpochs s') (hkeep : RestartKeepsLog s action) (t : Nat) :
    h.leaderLog t <+: (h.record s action s').leaderLog t := by
  simp only [History.record]
  split
  next hnow =>
    obtain ⟨hlead, rfl⟩ := hnow
    have hprefix : (s.node action.actor).st.log.entries <+:
        (s'.node action.actor).st.log.entries := by
      rcases hinv.leader_log hstep hunique hkeep hlead with ⟨hlog, _⟩ | ⟨e, happend⟩
      · rw [hlog]
      · rw [happend.entries]
        exact prefix_append _ _
    obtain ⟨hterm, hbefore | ⟨_, _, hfresh⟩⟩ := hinv.leads_or_new hstep hunique hkeep hlead
    · rw [hterm, (hinv.leading _ hbefore).2]
      exact hprefix
    · rw [hinv.unled _ hfresh]
      exact (singleton_isPrefix (hinv.nodeLog _)).trans hprefix
  · exact prefix_refl _

lemma active_step (hinv : LogInv cfg s h) (hstep : Step cfg s action s') (v : NodeId)
    (hne : (s'.node v).st.state ≠ .follower) : 1 ≤ (s'.node v).st.currentTerm := by
  by_cases hv : v = action.actor
  · subst hv
    rcases hstep.role with hkept | hnext | ⟨hcand, hterm⟩
    · obtain ⟨hstate, hterm⟩ := hkept.of_ne_follower hne
      rw [hterm]
      exact hinv.active _ (hstate ▸ hne)
    · omega
    · rw [hterm]
      exact hinv.active _ (by simp [hcand])
  · rw [hstep.node_of_ne hv] at hne ⊢
    exact hinv.active v hne

/-- A new epoch is that of the acting node in its current term. -/
lemma mem_elected (hstep : Step cfg s action s') (hmem : (t, id) ∈ s'.elected) :
    (t, id) ∈ s.elected ∨ (t = (s'.node action.actor).st.currentTerm ∧ id = action.actor ∧
      (s'.node action.actor).st.state = .leader) := by
  rw [hstep.elected_eq] at hmem
  split at hmem
  next hnew =>
    rcases mem_cons.mp hmem with heq | hmem
    · cases heq
      exact .inr ⟨rfl, rfl, hnew.1⟩
    · exact .inl hmem
  · exact .inl hmem

section

variable (hinv : LogInv cfg s h)
include hinv

section

variable (hstep : Step cfg s action s') (hunique : UniqueEpochs s')
  (hkeep : RestartKeepsLog s action)
include hstep hunique hkeep

lemma leading_step (v : NodeId) (hlead : (s'.node v).st.state = .leader) :
    ((s'.node v).st.currentTerm, v) ∈ s'.elected ∧
      (h.record s action s').leaderLog (s'.node v).st.currentTerm = (s'.node v).st.log.entries := by
  have hactor : (s'.node action.actor).st.state = .leader →
      ((s'.node action.actor).st.currentTerm, action.actor) ∈ s'.elected := by
    intro hlead
    obtain ⟨hterm, hbefore | ⟨_, helected, _⟩⟩ := hinv.leads_or_new hstep hunique hkeep hlead
    · rw [hterm]
      exact hstep.elected_subset (hinv.leading _ hbefore).1
    · rw [helected]
      exact mem_cons_self
  by_cases hv : v = action.actor
  · subst hv
    exact ⟨hactor hlead, by simp [History.record, hlead]⟩
  · rw [hstep.node_of_ne hv] at hlead ⊢
    obtain ⟨hmem, hlog⟩ := hinv.leading v hlead
    have hmem' := hstep.elected_subset hmem
    refine ⟨hmem', ?_⟩
    simp only [History.record]
    rw [if_neg, hlog]
    rintro ⟨hactorLead, hterm⟩
    rw [hterm] at hmem'
    exact hv (hunique.leader_eq hmem' (hactor hactorLead))

lemma nodeLog_step (v : NodeId) : Coh (h.record s action s') (s'.node v).st.log.entries := by
  have hgrow := hinv.grow hstep hunique hkeep
  by_cases hv : v = action.actor
  · subst hv
    cases hstep.logChange hkeep with
    | kept hlog _ =>
      rw [hlog]
      exact (hinv.nodeLog _).of_origin_grow hgrow
    | written e happend =>
      rw [happend.entries]
      refine ((hinv.nodeLog _).of_origin_grow hgrow).append e ?_
      rw [← happend.entries, happend.entryTerm, ← happend.term]
      simp [History.record, happend.leads]
    | merged call haction haccepted hst =>
      subst haction
      rw [hst]
      have hmerge := (hinv.reconciled hstep.mem_of_deliverAppend (hinv.nodeLog _) haccepted).1
      exact (hmerge.coherent (hinv.leaderLog _) (hinv.nodeLog _)).of_origin_grow hgrow
  · rw [hstep.node_of_ne hv]
    exact (hinv.nodeLog v).of_origin_grow hgrow

lemma leaderLog_step (t : Nat) :
    Coh (h.record s action s') ((h.record s action s').leaderLog t) := by
  have hold := (hinv.leaderLog t).of_origin_grow (hinv.grow hstep hunique hkeep)
  have hnode := hinv.nodeLog_step hstep hunique hkeep action.actor
  generalize hrec : h.record s action s' = h' at hold hnode ⊢
  have hcases : h'.leaderLog t = (s'.node action.actor).st.log.entries ∨
      h'.leaderLog t = h.leaderLog t := by
    rw [← hrec]
    simp only [History.record]
    split
    · exact .inl rfl
    · exact .inr rfl
  rcases hcases with heq | heq
  · rw [heq]
    exact hnode
  · rw [heq]
    exact hold

lemma indexed_step (t i : Nat) (e : LogEntry)
    (he : ((h.record s action s').leaderLog t)[i]? = some e) : e.index = i := by
  simp only [History.record] at he
  split at he
  next hnow =>
    have hlog := hinv.nodeLog action.actor
    rcases hinv.leader_log hstep hunique hkeep hnow.1 with ⟨hsame, _⟩ | ⟨new, happend⟩
    · rw [hsame] at he
      exact hinv.index_eq hlog he
    · rw [happend.entries] at he
      rcases getElem?_append_singleton he with hold | ⟨rfl, rfl⟩
      · exact hinv.index_eq hlog hold
      · have hpos := hlog.length_pos
        rw [happend.index, RaftLog.lastIndex_eq hpos]
        omega
  · exact hinv.indexed t i e he

end

section

variable (hstep : Step cfg s action s')
include hstep

lemma next_step (v : NodeId) (hlead : (s'.node v).st.state = .leader) (p : NodeId)
    (hp : p ∈ cfg.peers v) : 1 ≤ (s'.node v).st.nextIndex p := by
  by_cases hv : v = action.actor
  swap
  · rw [hstep.node_of_ne hv] at hlead ⊢
    exact hinv.next v hlead p hp
  subst hv
  -- a step that neither elects nor answers a request leaves the indices alone
  have hsame : RoleKept (s.node action.actor).st (s'.node action.actor).st →
      (s'.node action.actor).st.nextIndex = (s.node action.actor).st.nextIndex →
      1 ≤ (s'.node action.actor).st.nextIndex p := by
    intro hkept hnext
    rw [hnext]
    exact hinv.next _ (hkept.of_leader hlead).1 p hp
  cases hstep <;> simp only [Action.actor, Cluster.put_node_self] at hlead hp hsame ⊢
  case timeout => cases hlead
  case campaignAlone => simp [becomeLeader, hp]
  case campaign | applyScan => exact hsame (RoleKept.refl _) rfl
  case deliverVote =>
    exact hsame (handleRequestVote_role _ _) (handleRequestVote_same _ _).nextIndex
  case voteReply call reply hwaiting hreply =>
    obtain ⟨n, hn, houtcome⟩ := s.processVoteReply_outcome cfg call reply
    rw [hn] at hlead hsame ⊢
    cases houtcome with
    | ignored | abandoned | counted => exact hsame (RoleKept.refl _) rfl
    | steppedDown | retried => cases hlead
    | won => simp [becomeLeader, hp]
  case replicate => exact hsame (RoleKept.refl _) trivial
  case deliverAppend call hcall =>
    refine hsame (handleAppendEntries_role _ _) ?_
    rcases handleAppendEntries_cases call.args (s.node call.peer).st with
      ⟨hst, _⟩ | ⟨_, hst, _⟩ | ⟨_, hst, _⟩
    · rw [hst]
    · rw [hst]
      exact (acceptLeader_same _ _).nextIndex
    · rw [hst, storeEntries_eq]
      exact (acceptLeader_same _ _).nextIndex
  case appendReply call reply hwaiting hreply =>
    obtain ⟨hcall, hconflict⟩ := hinv.replies call reply hreply
    have hnext := (hinv.calls call hcall).next
    have hrole := handleAppendReply_role (cfg.peers call.leader) call.peer call.nextIndex
      call.args.entries.length reply (s.node call.leader).st
    have hold := hinv.next _ (hrole.of_leader hlead).1
    have hset : ∀ next, 1 ≤ next →
        1 ≤ Function.update (s.node call.leader).st.nextIndex call.peer next p := by
      intro next hpos
      rw [Function.update_apply]
      split
      exacts [hpos, hold p hp]
    simp only [Node.processAppendReply] at hlead ⊢
    unfold handleAppendReply at hlead ⊢
    split
    · next hterm =>
      rw [if_pos hterm] at hlead
      cases hlead
    · split
      · rw [updateCommitIndex_eq]
        exact hset _ (by omega)
      · split
        · next hct => exact hset _ (hconflict hct)
        · split
          · exact hset _ (by omega)
          · exact hold p hp
  case propose =>
    refine hsame (appendCommand_role _ _ _) ?_
    rw [appendCommand, updateCommitIndex_eq]
    rfl
  case applyNext id result hid hmore =>
    refine hsame (Node.applyNext_role _ _) ?_
    unfold Node.applyNext
    split
    · rfl
    · split <;> rfl
  case restart hid hrestart =>
    rw [(NodeState.restart_vote hrestart).1] at hlead
    cases hlead

lemma calls_step (hunique : UniqueEpochs s') (hkeep : RestartKeepsLog s action) :
    ∀ c ∈ s'.appendCalls, AppendOk cfg s' (h.record s action s') c := by
  have hgrow := hinv.grow hstep hunique hkeep
  have hold : ∀ c, AppendOk cfg s h c → AppendOk cfg s' (h.record s action s') c :=
    fun c hok => ⟨hstep.elected_subset hok.sender, hok.peer, hok.next, hok.batch.mono (hgrow _)⟩
  intro c hc
  cases hstep
  case replicate id peer hid hpeer hlead =>
    rcases mem_cons.mp hc with rfl | hmem
    · refine hold _ ?_
      obtain ⟨helected, hlog⟩ := hinv.leading id hlead
      have hnext := hinv.next id hlead peer hpeer
      refine ⟨helected, hpeer, ?_, ?_⟩
      · simp only [replicateArgs]
        omega
      · rw [show h.leaderLog (replicateArgs id peer (s.node id).st).term = _ from hlog]
        exact batchOk_replicateArgs (hinv.nodeLog id).length_pos hnext
    · exact hold c (hinv.calls c hmem)
  all_goals exact hold c (hinv.calls c hc)

lemma replies_step :
    ∀ c r, (c, r) ∈ s'.appendReplies →
      c ∈ s'.appendCalls ∧ (0 < r.conflictTerm → 1 ≤ r.conflictIndex) := by
  intro c r hmem
  cases hstep
  case replicate =>
    obtain ⟨hcall, hconflict⟩ := hinv.replies c r hmem
    exact ⟨mem_cons_of_mem _ hcall, hconflict⟩
  case deliverAppend call hcall =>
    rcases mem_cons.mp hmem with hnew | hmem
    · cases hnew
      refine ⟨hcall, ?_⟩
      rcases handleAppendEntries_cases c.args (s.node c.peer).st with
        ⟨_, _, hzero⟩ | ⟨_, _, hconflict⟩ | ⟨_, _, _, hzero⟩
      · rw [hzero]
        exact fun hlt => absurd hlt (lt_irrefl _)
      · exact (logConflict_spec hconflict).2
      · rw [hzero]
        exact fun hlt => absurd hlt (lt_irrefl _)
    · exact hinv.replies c r hmem
  all_goals exact hinv.replies c r hmem

lemma step (hunique : UniqueEpochs s') (hkeep : RestartKeepsLog s action) :
    LogInv cfg s' (h.record s action s') where
  active := hinv.active_step hstep
  electedPos := by
    intro t id hmem
    rcases mem_elected hstep hmem with hold | ⟨rfl, rfl, hlead⟩
    · exact hinv.electedPos t id hold
    · exact hinv.active_step hstep _ (by simp [hlead])
  leading := hinv.leading_step hstep hunique hkeep
  unled := by
    intro t hnone
    simp only [History.record]
    rw [if_neg, hinv.unled t fun id hmem => hnone id (hstep.elected_subset hmem)]
    rintro ⟨hlead, rfl⟩
    exact hnone _ (hinv.leading_step hstep hunique hkeep _ hlead).1
  leaderLog := hinv.leaderLog_step hstep hunique hkeep
  indexed := hinv.indexed_step hstep hunique hkeep
  nodeLog := hinv.nodeLog_step hstep hunique hkeep
  next := hinv.next_step hstep
  calls := hinv.calls_step hstep hunique hkeep
  replies := hinv.replies_step hstep

end

end

end LogInv

/-! ## Log matching -/

lemma CrashFree.keepsLog {s : Cluster} {action : Action} (hfree : CrashFree action) :
    RestartKeepsLog s action := by
  cases action <;> first | exact hfree.elim | trivial

lemma logInv_of_run {cfg : Config} {hasDir : NodeId → Bool} {trace : List Action}
    {s : Cluster} {h : History} {ok : Cluster × History → Action → Prop}
    (hrun : Execution.Run (Execution.withHistory (Cluster.step cfg) History.record) ok
      (init hasDir, History.init) trace (s, h))
    (hok : ∀ current action, ok current action → RestartKeepsLog current.1 action)
    (hunique : UniqueEpochs s) : LogInv cfg s h := by
  refine hrun.invariant (fun current => UniqueEpochs current.1 → LogInv cfg current.1 current.2)
    (fun _ => logInv_init cfg hasDir) ?_ hunique
  intro current action next hinv hside hnext hunique'
  obtain ⟨hstep, hrecord⟩ := Execution.withHistory_eq_some hnext
  have hcases := Cluster.step_cases hstep
  rw [hrecord]
  exact (hinv (hunique'.of_step hcases)).step hcases hunique' (hok current action hside)

/-- In every run without crashes in which each term has at most one leadership, two logs that
hold entries with the same index and term are identical up to that index. -/
theorem log_matching (cfg : Config) (hasDir : NodeId → Bool) (trace : List Action) (s : Cluster)
    (hrun : Execution.Run (Cluster.step cfg) (fun _ a => CrashFree a) (Cluster.init hasDir) trace s)
    (hunique : UniqueEpochs s) (a b : NodeId) (ea eb : LogEntry)
    (ha : ea ∈ (s.node a).st.log.entries) (hb : eb ∈ (s.node b).st.log.entries)
    (hindex : ea.index = eb.index) (hterm : ea.term = eb.term) (i : Nat) (hi : i ≤ ea.index) :
    (s.node a).st.log.entries[i]? = (s.node b).st.log.entries[i]? := by
  obtain ⟨h, hrun⟩ := hrun.exists_history History.record History.init
  have hinv := logInv_of_run hrun (fun _ _ hfree => hfree.keepsLog) hunique
  obtain ⟨i, hia⟩ := mem_iff_getElem?.mp ha
  obtain ⟨j, hjb⟩ := mem_iff_getElem?.mp hb
  obtain rfl := hinv.index_eq (hinv.nodeLog a) hia
  obtain rfl := hinv.index_eq (hinv.nodeLog b) hjb
  rw [← hindex] at hjb
  exact (hinv.nodeLog a).agreeUpTo (hinv.nodeLog b) hia hjb hterm _ hi

/-- The no-op entry at index 1 of the leader of term 1. -/
def firstNoop : LogEntry := ⟨1, 1, logEntryNoop, []⟩

/-- Node 1 leads term 1 and sends its no-op entry to node 2. -/
def replicatedNoop : List Action :=
  quietElection ++ [.replicate 1 2, .deliverAppend ⟨1, 2, 1, ⟨1, 1, 0, 0, [firstNoop], 0⟩⟩]

theorem log_matching_replicatedNoop :
    ∃ s, Execution.Run (Cluster.step threeNodes) (fun _ a => CrashFree a)
        (Cluster.init fun _ => true) replicatedNoop s ∧ UniqueEpochs s ∧
      firstNoop ∈ (s.node 2).st.log.entries ∧
      (s.node 1).st.log.entries[0]? = (s.node 2).st.log.entries[0]? := by
  refine (Execution.exists_run (P := fun s => (s.elected.map Prod.fst).Nodup ∧
    firstNoop ∈ (s.node 2).st.log.entries ∧ firstNoop ∈ (s.node 1).st.log.entries)
    (by decide +kernel)).imp fun s h => ⟨h.1, h.2.1, h.2.2.1, ?_⟩
  exact log_matching _ _ _ _ h.1 h.2.1 1 2 firstNoop firstNoop h.2.2.2 h.2.2.1 rfl rfl 0
    (by decide)

end Oba.Raft
