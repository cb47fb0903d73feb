import Oba.Raft.LogMatching

/-! # Commitment and leader completeness

An entry of a leader's own term is committed once a majority has acknowledged it to that
leader. The invariant below ties what nodes acknowledged, what voters' logs held when they
voted, and what nodes take to be committed. Its main consequence is leader completeness: the
log of every later leader holds what an earlier leader committed.
-/

namespace Oba.Raft

open TermLog Quorum

/-- Some node has been elected in term `t`. -/
def Led (s : Cluster) (t : Nat) : Prop := ∃ id, (t, id) ∈ s.elected

/-- A majority has acknowledged index `i`, an entry of the leader's own term, to the leader of
term `t`. -/
structure Committed (cfg : Config) (h : History) (t i : Nat) : Prop where
  own : ∃ e, (h.leaderLog t)[i]? = some e ∧ e.term = t
  quorum : ∃ quorum, Majority cfg.members quorum ∧ ∀ v ∈ quorum, i ≤ h.acked v t

/-- The log is safe up to `k`: up to there it is what some leader of a term up to `bound` has
committed. -/
def SafeUpTo (cfg : Config) (h : History) (log : List LogEntry) (k bound : Nat) : Prop :=
  k = 0 ∨ ∃ t i, t ≤ bound ∧ k ≤ i ∧ Committed cfg h t i ∧ AgreeUpTo k log (h.leaderLog t)

/-- A log that once held what node `v` acknowledged in a term holds it, unless a leader of a
later term in `later` has a different history. -/
def Holds (h : History) (s : Cluster) (v : NodeId) (log : List LogEntry) (later : Nat → Prop)
    (t : Nat) : Prop :=
  ∀ i e, 0 < i → i ≤ h.acked v t → (h.leaderLog t)[i]? = some e → e.term = t →
    AgreeUpTo i log (h.leaderLog t) ∨
      ∃ r, t < r ∧ later r ∧ Led s r ∧ DivergeBy i (h.leaderLog r) (h.leaderLog t)

/-- The voting rule on the data of a request. -/
def UpToDateArgs (args : RequestVoteArgs) (log : List LogEntry) : Prop :=
  lastTerm LogEntry.term log < args.lastLogTerm ∨
    (lastTerm LogEntry.term log = args.lastLogTerm ∧ log.length ≤ args.lastLogIndex + 1)

/-- The log `log` of a voter of term `t` when it voted. -/
structure VoterLog (s : Cluster) (h : History) (v : NodeId) (t : Nat) (log : List LogEntry) :
    Prop where
  coherent : Coh h log
  holds : ∀ t' < t, Holds h s v log (· < t) t'

/-- How a leader of term `t` came to be: its log when it was elected, and a majority of voters
with logs that were no more up to date. -/
structure ElectionBasis (cfg : Config) (s : Cluster) (h : History) (t : Nat) : Prop where
  basis : ∃ log quorum, log <+: h.leaderLog t ∧ Coh h log ∧
    (∀ (i : Nat) (e : LogEntry), log[i]? = some e → e.term < t) ∧
    Majority cfg.members quorum ∧
    ∀ v ∈ quorum, t ≤ (s.node v).st.currentTerm ∧
      ∃ voterLog, VoterLog s h v t voterLog ∧ UpToDate LogEntry.term log voterLog

structure CommitInv (cfg : Config) (s : Cluster) (h : History) : Prop where
  nodeBound : ∀ v (i : Nat) (e : LogEntry), (s.node v).st.log.entries[i]? = some e →
    e.term ≤ (s.node v).st.currentTerm
  leaderBound : ∀ (t i : Nat) (e : LogEntry), (h.leaderLog t)[i]? = some e → e.term ≤ t
  ackBound : ∀ v t, 0 < h.acked v t →
    t ≤ (s.node v).st.currentTerm ∧ h.acked v t < (h.leaderLog t).length
  ackKept : ∀ v t, Holds h s v (s.node v).st.log.entries (· ≤ (s.node v).st.currentTerm) t
  ackLeader : ∀ v, (s.node v).st.state = .leader →
    (s.node v).st.log.lastIndex ≤ h.acked v (s.node v).st.currentTerm
  matched : ∀ v, (s.node v).st.state = .leader → ∀ p ∈ cfg.peers v,
    (s.node v).st.matchIndex p ≤ h.acked p (s.node v).st.currentTerm
  success : ∀ c r, (c, r) ∈ s.appendReplies → r.success = true →
    c.args.prevLogIndex + c.args.entries.length ≤ h.acked c.peer c.args.term
  requests : ∀ v, (s.node v).st.state = .candidate → ∀ c ∈ s.voteCalls, c.candidate = v →
    c.args.term = (s.node v).st.currentTerm →
      c.args.lastLogIndex = (s.node v).st.log.lastIndex ∧
        c.args.lastLogTerm = (s.node v).st.log.lastTerm
  votes : ∀ v t c, h.vote v t = some c → v ≠ c → ¬ Led s t →
    ∃ call ∈ s.voteCalls, call.candidate = c ∧ call.args.term = t ∧
      ∃ voterLog, VoterLog s h v t voterLog ∧ UpToDateArgs call.args voterLog
  elections : ∀ t, Led s t → ElectionBasis cfg s h t
  commit : ∀ v, SafeUpTo cfg h (s.node v).st.log.entries (s.node v).st.commitIndex
    (s.node v).st.currentTerm
  callCommit : ∀ c ∈ s.appendCalls,
    SafeUpTo cfg h (h.leaderLog c.args.term) c.args.leaderCommit c.args.term ∧
      (c.args.leaderCommit ≤ c.args.prevLogIndex + c.args.entries.length ∨
        (0 < c.args.prevLogIndex ∧ c.args.prevLogTerm = 0))
  applyTo : ∀ v, (s.node v).applyTo ≤ (s.node v).st.commitIndex
  applied : ∀ v (idx : Nat) (e : LogEntry), (v, idx, e) ∈ s.applied →
    0 < idx ∧ ∃ t i, Committed cfg h t i ∧ idx ≤ i ∧ (h.leaderLog t)[idx]? = some e

section Completeness

variable {cfg : Config} {s : Cluster} {h : History}

variable {t i k bound : Nat} {log : List LogEntry}

lemma Committed.lt_length (hcom : Committed cfg h t i) : i < (h.leaderLog t).length := by
  obtain ⟨e, he, _⟩ := hcom.own
  exact (List.getElem?_eq_some_iff.mp he).1

lemma Committed.led (hlog : LogInv cfg s h) (hcom : Committed cfg h t i) (hpos : 0 < i) :
    Led s t := by
  obtain ⟨e, he, rfl⟩ := hcom.own
  exact hlog.term_pos (hlog.leaderLog _) hpos he

section

variable (hlog : LogInv cfg s h) (hinv : CommitInv cfg s h)
include hlog hinv

/-- Leader completeness: a later leader's log holds what an earlier leader committed. -/
lemma CommitInv.completeness (hcom : Committed cfg h t i) (hpos : 0 < i) (r : Nat) (htr : t < r)
    (hled : Led s r) : AgreeUpTo i (h.leaderLog r) (h.leaderLog t) := by
  induction r using Nat.strong_induction_on with
  | _ r ih =>
    obtain ⟨e, he, hterm⟩ := hcom.own
    obtain ⟨acks, hacks, hacked⟩ := hcom.quorum
    obtain ⟨log, voters, hpre, hcoh, hbelow, hvoters, hvoted⟩ := (hinv.elections r hled).basis
    -- a node that acknowledged the entry and voted for the later leader
    obtain ⟨v, hva, hvv⟩ := hacks.exists_common hvoters
    obtain ⟨_, voterLog, hvoter, hup⟩ := hvoted v hvv
    have hheld : AgreeUpTo i voterLog (h.leaderLog t) := by
      rcases hvoter.holds t htr i e hpos (hacked v hva) he hterm with
        hagree | ⟨r', htr', hlt, hled', hdiverge⟩
      · exact hagree
      · exact absurd hdiverge (ih r' hlt htr' hled').not_diverge
    have hcand : AgreeUpTo i log (h.leaderLog t) := by
      refine agreeUpTo_of_upToDate rfl hinv.leaderBound hlog.leaderLog hcoh hvoter.coherent
        hpos he hterm hheld hup ?_
      intro hlt
      obtain ⟨last, hlast⟩ : ∃ a, log[log.length - 1]? = some a :=
        ⟨_, List.getElem?_eq_getElem (Nat.sub_lt hcoh.length_pos Nat.one_pos)⟩
      rw [lastTerm_eq LogEntry.term hlast] at hlt ⊢
      refine ih last.term (hbelow _ _ hlast) hlt (hlog.term_pos hcoh ?_ hlast)
      by_contra hzero
      obtain hz : log.length - 1 = 0 := by omega
      rw [hz, hcoh.base_eq] at hlast
      cases hlast
      exact Nat.not_lt_zero _ hlt
    have hlen : i < log.length := hcand.symm.lt_length (hcom.lt_length)
    exact (agreeUpTo_of_isPrefix hpre hlen).symm.trans hcand

/-- Two committed histories agree as far as both reach. -/
lemma CommitInv.committed_agree {t' i' idx : Nat} (hcom : Committed cfg h t i)
    (hcom' : Committed cfg h t' i') (hpos : 0 < idx) (hi : idx ≤ i) (hi' : idx ≤ i') :
    (h.leaderLog t)[idx]? = (h.leaderLog t')[idx]? := by
  rcases Nat.lt_trichotomy t t' with hlt | rfl | hgt
  · exact (hinv.completeness hlog hcom (hpos.trans_le hi) t' hlt
      (hcom'.led hlog (hpos.trans_le hi')) idx hi).symm
  · rfl
  · exact hinv.completeness hlog hcom' (hpos.trans_le hi') t hgt
      (hcom.led hlog (hpos.trans_le hi)) idx hi'

/-- A safe stretch of a log is held by the leader of every term from `bound` on. -/
lemma SafeUpTo.agree_leader {r : Nat} (hsafe : SafeUpTo cfg h log k bound)
    (hbase : log[0]? = some dummyEntry) (hr : bound ≤ r) (hled : Led s r) :
    AgreeUpTo k log (h.leaderLog r) := by
  rcases hsafe with rfl | ⟨t, i, ht, hk, hcom, hagree⟩
  · intro j hj
    obtain rfl : j = 0 := by omega
    rw [hbase, (hlog.leaderLog r).base_eq]
  · rcases Nat.eq_zero_or_pos i with rfl | hpos
    · intro j hj
      obtain rfl : j = 0 := by omega
      rw [hbase, (hlog.leaderLog r).base_eq]
    · rcases Nat.lt_or_eq_of_le (ht.trans hr) with hlt | rfl
      · exact hagree.trans ((hinv.completeness hlog hcom hpos r hlt hled).symm.mono hk)
      · exact hagree

end

lemma SafeUpTo.lt_length (hsafe : SafeUpTo cfg h log k bound) (hpos : 0 < log.length) :
    k < log.length := by
  rcases hsafe with rfl | ⟨t, i, _, hk, hcom, hagree⟩
  · exact hpos
  · exact hagree.symm.lt_length (hk.trans_lt hcom.lt_length)

lemma SafeUpTo.congr {log' : List LogEntry} (hsafe : SafeUpTo cfg h log k bound)
    (hagree : AgreeUpTo k log log') : SafeUpTo cfg h log' k bound := by
  rcases hsafe with rfl | ⟨t, i, ht, hk, hcom, hleader⟩
  · exact .inl rfl
  · exact .inr ⟨t, i, ht, hk, hcom, hagree.symm.trans hleader⟩

lemma SafeUpTo.mono {k' : Nat} (hsafe : SafeUpTo cfg h log k bound) (hk : k' ≤ k) :
    SafeUpTo cfg h log k' bound := by
  rcases hsafe with rfl | ⟨t, i, ht, hki, hcom, hleader⟩
  · exact .inl (Nat.le_zero.mp hk)
  · exact .inr ⟨t, i, ht, hk.trans hki, hcom, hleader.mono hk⟩

end Completeness

end Oba.Raft
