import Oba.Raft.Process
import Oba.Raft.Votes

/-! # Terms and votes of one node across crashes

The votes a node has cast, the vote in memory and the vote in `term.dat` change at different
moments. They stay together in every run in which handlers are not interleaved and the node
crashes only while `term.dat` holds its current term.
-/

namespace Oba.Raft

open Execution List Option NodeState
open Process (init put)

/-! ## Votes in memory and on disk -/

/-- What `term.dat` holds. -/
def NodeState.savedVote (st : NodeState) : Option (Nat × NodeId) :=
  (st.dataDir.map (·.term)).join

/-- What votes depend on: the term, the vote and what is saved of them. -/
def NodeState.voteState (st : NodeState) : Nat × NodeId × Option (Option (Nat × NodeId)) :=
  (st.currentTerm, st.votedFor, st.dataDir.map (·.term))

/-- The votes cast so far, the vote in memory and the vote on disk fit together. -/
structure VotesOk (st : NodeState) (grants : List (Nat × NodeId)) : Prop where
  dir : st.dataDir.isSome = true
  disk : ∀ t c, st.savedVote = some (t, c) → t ≤ st.currentTerm ∧
    (t = st.currentTerm → st.votedFor = c)
  bound : ∀ t c, (t, c) ∈ grants → t ≤ st.currentTerm
  now : ∀ c, (st.currentTerm, c) ∈ grants →
    c ≠ 0 ∧ st.votedFor = c ∧ st.savedVote = some (st.currentTerm, c)
  unique : ∀ t a b, (t, a) ∈ grants → (t, b) ∈ grants → a = b

namespace VotesOk

variable {st st' : NodeState} {grants : List (Nat × NodeId)}

section

variable (hok : VotesOk st grants)
include hok

lemma of_same (hsame : st'.voteState = st.voteState) : VotesOk st' grants := by
  obtain ⟨hterm, hrest⟩ := Prod.mk.inj hsame
  obtain ⟨hvote, hdir⟩ := Prod.mk.inj hrest
  have hsaved : st'.savedVote = st.savedVote := congrArg Option.join hdir
  have hsome : st'.dataDir.isSome = st.dataDir.isSome := by
    simpa using congrArg Option.isSome hdir
  exact ⟨hsome ▸ hok.dir, by rw [hsaved, hterm, hvote]; exact hok.disk,
    by rw [hterm]; exact hok.bound, by rw [hsaved, hterm, hvote]; exact hok.now, hok.unique⟩

/-- Moving to a higher term, with any vote in memory. -/
lemma raise (hlt : st.currentTerm < st'.currentTerm) (hdir : st'.dataDir = st.dataDir) :
    VotesOk st' grants where
  dir := hdir ▸ hok.dir
  disk t c hsaved := by
    unfold savedVote at hsaved
    rw [hdir] at hsaved
    have := (hok.disk t c hsaved).1
    omega
  bound t c hmem := (hok.bound t c hmem).trans hlt.le
  now c hmem := absurd (hok.bound _ c hmem) (Nat.not_le_of_lt hlt)
  unique := hok.unique

/-- Casting a vote that agrees with the votes cast in the current term. -/
lemma cast {c : NodeId} (hc : c ≠ 0)
    (hfree : ∀ other, (st.currentTerm, other) ∈ grants → other = c) :
    VotesOk (st.setVotedFor c) ((st.currentTerm, c) :: grants) := by
  obtain ⟨dir, hdir⟩ := isSome_iff_exists.mp hok.dir
  have hsaved : (st.setVotedFor c).savedVote = some (st.currentTerm, c) := by
    simp [savedVote, setVotedFor, hdir]
  have hnow : ∀ other, (st.currentTerm, other) ∈ (st.currentTerm, c) :: grants → other = c := by
    intro other hmem
    rcases mem_cons.mp hmem with heq | hold
    · exact (Prod.mk.inj heq).2
    · exact hfree other hold
  refine ⟨by simp [setVotedFor, hdir], ?_, ?_, ?_, ?_⟩
  · intro t other hread
    rw [hsaved] at hread
    cases hread
    exact ⟨le_rfl, fun _ => rfl⟩
  · intro t other hmem
    rcases mem_cons.mp hmem with heq | hold
    · exact (Prod.mk.inj heq).1.le
    · exact hok.bound t other hold
  · intro other hmem
    obtain rfl := hnow other hmem
    exact ⟨hc, rfl, hsaved⟩
  · intro t a b ha hb
    by_cases ht : t = st.currentTerm
    · subst ht
      exact (hnow a ha).trans (hnow b hb).symm
    · have hold : ∀ d, (t, d) ∈ (st.currentTerm, c) :: grants → (t, d) ∈ grants := by
        intro d hd
        exact (mem_cons.mp hd).resolve_left fun heq => ht (Prod.mk.inj heq).1
      exact hok.unique t a b (hold a ha) (hold b hb)

/-- A restart that finds the current term on disk finds the vote there too. -/
lemma restart (hpersist : PersistedTerm st) (hrestart : st.restart = some st') :
    VotesOk st' grants ∧ st'.currentTerm = st.currentTerm := by
  obtain ⟨dir, hdir⟩ := isSome_iff_exists.mp hok.dir
  have hsaved : st.savedVote = dir.term := by simp [savedVote, hdir]
  obtain ⟨_, ⟨dir', hdir', hpair, hkept⟩ | ⟨hnone, _⟩⟩ := restart_vote hrestart
  swap
  · rw [hdir] at hnone
    cases hnone
  cases hdir.symm.trans hdir'
  have hvote : st'.currentTerm = st.currentTerm ∧ st'.votedFor = st.votedFor := by
    rcases hpersist with ⟨dir', c, hdir', hterm⟩ | ⟨hterm, hzero⟩
    · cases hdir.symm.trans hdir'
      rw [hterm] at hpair hsaved
      exact ⟨(Prod.mk.inj hpair).1, (Prod.mk.inj hpair).2.trans
        ((hok.disk _ c hsaved).2 rfl).symm⟩
    · cases hread : dir.term with
      | none =>
        rw [hread] at hpair
        exact ⟨(Prod.mk.inj hpair).1.trans hterm.symm, (Prod.mk.inj hpair).2.trans hzero.symm⟩
      | some saved =>
        obtain ⟨t, c⟩ := saved
        rw [hread] at hpair hsaved
        obtain ⟨hle, hkeep⟩ := hok.disk t c hsaved
        obtain rfl : t = st.currentTerm := by omega
        exact ⟨(Prod.mk.inj hpair).1, (Prod.mk.inj hpair).2.trans (hkeep rfl).symm⟩
  refine ⟨hok.of_same ?_, hvote.1⟩
  rw [voteState, voteState, hvote.1, hvote.2, hkept, hdir]
  rfl

end

end VotesOk

/-! ## Runs -/

/-- No goroutine that handles a request or a reply is under way, and the main loop is not between
the decision to stand for election and its own vote. -/
def Process.Quiet (s : Process) : Prop :=
  s.threads = [] ∧ s.main ≠ .standing ∧ s.main ≠ .voting

instance (s : Process) : Decidable s.Quiet := inferInstanceAs (Decidable (_ ∧ _))

/-- Requests, replies and elections begin only when the node is quiet. -/
def Undisturbed (s : Process) : Event → Prop
  | .receiveVote _ | .receiveAppend _ | .receiveSnapshot _ _ => s.Quiet
  | .voteReply _ _ | .appendReply _ _ | .timeout | .campaign | .win => s.Quiet
  | .run _ | .replicate _ | .propose _ | .take | .leave | .main | .apply _ | .crash => True

/-- The events under which terms and votes last: handlers run undisturbed, a request of the
node's own term does not reach it as a candidate, a vote reply of a higher term than its
election is of a term the node has not reached, it does not stand for election in the last term
of 64 bits, and it crashes only while `term.dat` holds its current term. -/
def DurableEvent (s : Process) (event : Event) : Prop :=
  Undisturbed s event ∧ match event with
    | .receiveAppend args => args.term = s.st.currentTerm → s.st.state ≠ .candidate
    | .voteReply term reply => term < reply.term → s.st.currentTerm < reply.term
    | .main => s.main = .standing → s.st.currentTerm + 1 < 2 ^ 64
    | .crash => PersistedTerm s.st
    | _ => True

instance (s : Process) (event : Event) : Decidable (Undisturbed s event) := by
  apply @Event.casesOn (fun e => Decidable (Undisturbed s e)) event <;> intros <;>
    unfold Undisturbed <;> infer_instance

instance (s : Process) (event : Event) : Decidable (DurableEvent s event) := by
  apply @Event.casesOn (fun e => Decidable (DurableEvent s e)) event <;> intros <;>
    unfold DurableEvent <;> infer_instance

/-- What a goroutine that runs undisturbed knows about the state. -/
def ThreadOk (st : NodeState) : Thread → Prop
  | .voteStale args => args.candidateID ≠ 0
  | .voteNewer args => args.candidateID ≠ 0 ∧ st.currentTerm ≤ args.term
  | .voteFollow args => args.candidateID ≠ 0 ∧ st.currentTerm < args.term
  | .voteCheck args => args.candidateID ≠ 0 ∧ st.currentTerm = args.term
  | .voteCompare args | .voteGrant args =>
    args.candidateID ≠ 0 ∧ st.currentTerm = args.term ∧
      (st.votedFor = 0 ∨ st.votedFor = args.candidateID)
  | .appendStale args => args.term = st.currentTerm → st.state ≠ .candidate
  | .appendNewer args =>
    st.currentTerm ≤ args.term ∧ (args.term = st.currentTerm → st.state ≠ .candidate)
  | .appendRole _ => st.state ≠ .candidate
  | .appendFollow args => st.currentTerm < args.term
  | .snapshotFollow args _ => st.currentTerm < args.term
  | .replyFollow term => st.currentTerm < term
  | _ => True

lemma ThreadOk.of_same {st st' : NodeState} {thread : Thread} (hok : ThreadOk st thread)
    (hsame : st'.voteState = st.voteState) (hstate : st'.state = st.state) :
    ThreadOk st' thread := by
  obtain ⟨hterm, hrest⟩ := Prod.mk.inj hsame
  have hvote := (Prod.mk.inj hrest).1
  cases thread <;> simp only [ThreadOk, hterm, hvote, hstate] at hok ⊢ <;> exact hok

/-- The votes fit together, the recorded terms never decrease, and each goroutine under way
is the only one. -/
structure DurableInv (s : Process) : Prop where
  votes : VotesOk s.st s.grants
  ordered : s.terms.Pairwise (· ≥ ·)
  bound : ∀ t ∈ s.terms, t ≤ s.st.currentTerm
  threads : ∀ thread ∈ s.threads, ThreadOk s.st thread
  voting : s.main = .voting → ∀ c, (s.st.currentTerm, c) ∉ s.grants
  alone : s.threads.length ≤ 1 ∧ (s.main = .standing ∨ s.main = .voting → s.threads = [])

/-- One call of a goroutine keeps votes and disk together, never lowers the term, and leaves
the rest of the goroutine with what it needs to know. -/
structure EffectOk (st : NodeState) (grants : List (Nat × NodeId)) (effect : Effect) : Prop where
  votes : VotesOk effect.st (effect.grant.toList ++ grants)
  mono : st.currentTerm ≤ effect.st.currentTerm
  rest : ∀ thread, effect.thread = some thread → ThreadOk effect.st thread

namespace EffectOk

variable {st st' : NodeState} {grants : List (Nat × NodeId)}

lemma goto {rest : Thread} (hvotes : VotesOk st' grants)
    (hmono : st.currentTerm ≤ st'.currentTerm) (hrest : ThreadOk st' rest) :
    EffectOk st grants (.goto st' rest) := by
  refine ⟨hvotes, hmono, ?_⟩
  rintro thread ⟨⟩
  exact hrest

lemma done (hvotes : VotesOk st' grants) (hmono : st.currentTerm ≤ st'.currentTerm) :
    EffectOk st grants (.done st') := by
  refine ⟨hvotes, hmono, ?_⟩
  rintro thread ⟨⟩

end EffectOk

lemma installSnapshot_votes {st : NodeState} {grants : List (Nat × NodeId)}
    (hvotes : VotesOk st grants) (args : InstallSnapshotArgs) (restored : Bool) :
    VotesOk (installSnapshot args restored st) grants ∧
      (installSnapshot args restored st).currentTerm = st.currentTerm := by
  unfold installSnapshot
  split
  · refine ⟨hvotes.of_same ?_, rfl⟩
    simp only [voteState, setLastApplied, persistLastApplied_dataDir,
      Option.map_map]
    rfl
  · exact ⟨hvotes.of_same rfl, rfl⟩

/-- One call of every goroutine; the handlers follow the order of the source. -/
lemma Thread.call_ok (peers : List NodeId) {st : NodeState} {grants : List (Nat × NodeId)}
    (hvotes : VotesOk st grants) {thread : Thread} (hok : ThreadOk st thread) :
    EffectOk st grants (thread.call peers st) := by
  have hfollow : ∀ {term}, st.currentTerm < term → VotesOk (st.becomeFollower term) grants :=
    fun hlt => hvotes.raise hlt rfl
  cases thread <;> simp only [Thread.call]
  case voteStale args =>
    split
    · exact .done hvotes le_rfl
    next hge => exact .goto hvotes le_rfl ⟨hok, not_lt.mp hge⟩
  case voteNewer args =>
    split
    next hlt => exact .goto hvotes le_rfl ⟨hok.1, hlt⟩
    next hle => exact .goto hvotes le_rfl ⟨hok.1, le_antisymm hok.2 (not_lt.mp hle)⟩
  case voteFollow args => exact .goto (hfollow hok.2) hok.2.le ⟨hok.1, rfl⟩
  case voteCheck args =>
    split
    next hfree => exact .goto hvotes le_rfl ⟨hok.1, hok.2, hfree⟩
    · exact .done hvotes le_rfl
  case voteCompare args =>
    split
    · exact .goto hvotes le_rfl hok
    · exact .done hvotes le_rfl
  case voteGrant args =>
    obtain ⟨hc, hterm, hfree⟩ := hok
    refine ⟨?_, le_rfl, by rintro thread ⟨⟩⟩
    have hcast := hvotes.cast hc fun other hmem => by
      obtain ⟨hzero, hvoted, _⟩ := hvotes.now other hmem
      rcases hfree with hnone | hsame
      · exact absurd (hvoted.symm.trans hnone) hzero
      · exact hvoted.symm.trans hsame
    rw [hterm] at hcast
    exact hcast
  case appendStale args =>
    split
    · exact .done hvotes le_rfl
    next hgo => exact .goto hvotes le_rfl ⟨not_lt.mp (not_or.mp hgo).2, hok⟩
  case appendNewer args =>
    split
    next hlt => exact .goto hvotes le_rfl hlt
    next hle =>
      exact .goto hvotes le_rfl (hok.2 (le_antisymm (not_lt.mp hle) hok.1))
  case appendRole args =>
    rw [if_neg hok]
    exact .goto hvotes le_rfl trivial
  case appendFollow | snapshotFollow => exact .goto (hfollow hok) hok.le trivial
  case appendPrev args =>
    have hleader : VotesOk (st.setLeaderID args.leaderID) grants := hvotes.of_same rfl
    split
    · exact .done hleader le_rfl
    · exact .goto hleader le_rfl trivial
  case appendLog rest =>
    cases rest with
    | nil => exact .goto hvotes le_rfl trivial
    | cons entry rest =>
      simp only
      split
      · split <;> exact .goto hvotes le_rfl trivial
      · exact .goto hvotes le_rfl trivial
  case appendCut | appendWrite => exact .goto (hvotes.of_same rfl) le_rfl trivial
  case appendCommit | replyCommit =>
    split
    · exact .goto hvotes le_rfl trivial
    · exact .done hvotes le_rfl
  case snapshotStale =>
    split
    · exact .done hvotes le_rfl
    · exact .goto hvotes le_rfl trivial
  case snapshotNewer | replyNewer =>
    split
    next hlt => exact .goto hvotes le_rfl hlt
    · exact .goto hvotes le_rfl trivial
  case snapshotStore args restored =>
    obtain ⟨hkept, hterm⟩ := installSnapshot_votes hvotes args restored
    exact .done hkept hterm.ge
  case replyStore =>
    split
    · exact .goto (hvotes.of_same rfl) le_rfl trivial
    · split
      · exact .done (hvotes.of_same rfl) le_rfl
      · split <;> exact .done (hvotes.of_same rfl) le_rfl
  case replyFollow => exact .done (hfollow hok) hok.le
  case commitSet => exact .done (hvotes.of_same rfl) le_rfl

lemma durableInv_init : DurableInv init := by
  refine ⟨⟨rfl, ?_, by simp [init], by simp [init], by simp [init]⟩,
    by simp [init], by simp [init, newInDir, new],
    by simp [init], by simp [init], by simp [init]⟩
  rintro t c ⟨⟩

/-- The main loop is about to stand for election or to vote for itself. -/
def MainPc.campaigns : MainPc → Bool
  | .standing | .voting => true
  | _ => false

/-- What the votes of a process depend on, besides what its main loop is doing. -/
def Process.voteState (s : Process) :
    (Nat × NodeId × Option (Option (Nat × NodeId))) × Role × List (Nat × NodeId) × List Thread :=
  (s.st.voteState, s.st.state, s.grants, s.threads)

namespace DurableInv

variable {s s' : Process} {peers : List NodeId} {id : NodeId}

section

variable (hinv : DurableInv s)
include hinv

/-- The recorded terms stay ordered when a term is recorded that is not lower. -/
lemma terms (s' : Process) (hmono : s.st.currentTerm ≤ s'.st.currentTerm)
    (hterms : s'.terms = s'.st.currentTerm :: s.terms) :
    s'.terms.Pairwise (· ≥ ·) ∧ ∀ t ∈ s'.terms, t ≤ s'.st.currentTerm := by
  rw [hterms]
  have hbound : ∀ t ∈ s.terms, t ≤ s'.st.currentTerm := fun t ht => (hinv.bound t ht).trans hmono
  exact ⟨pairwise_cons.mpr ⟨hbound, hinv.ordered⟩, forall_mem_cons.mpr ⟨le_rfl, hbound⟩⟩

/-- The invariant depends on these fields and on what the main loop is doing. -/
lemma of_voteState (hsame : s'.voteState = s.voteState)
    (hterms : s'.terms.Pairwise (· ≥ ·) ∧ ∀ t ∈ s'.terms, t ≤ s'.st.currentTerm)
    (hmain : s'.main = s.main ∨ s'.main.campaigns = false) : DurableInv s' := by
  obtain ⟨hst, hrest⟩ := Prod.mk.inj hsame
  obtain ⟨hstate, hrest⟩ := Prod.mk.inj hrest
  obtain ⟨hgrants, hthreads⟩ := Prod.mk.inj hrest
  refine ⟨hgrants ▸ hinv.votes.of_same hst, hterms.1, hterms.2, ?_, ?_, ?_⟩
  · rw [hthreads]
    exact fun thread hmem => (hinv.threads thread hmem).of_same hst hstate
  · intro hvoting
    rw [show s'.st.currentTerm = s.st.currentTerm from (Prod.mk.inj hst).1, hgrants]
    refine hinv.voting (hmain.elim (fun heq => heq ▸ hvoting) fun hcalm => ?_)
    rw [hvoting] at hcalm
    cases hcalm
  · rw [hthreads]
    refine ⟨hinv.alone.1, fun hbusy => hinv.alone.2 ?_⟩
    rcases hmain with heq | hcalm
    · exact heq ▸ hbusy
    · rcases hbusy with hbusy | hbusy <;>
        · rw [hbusy] at hcalm
          cases hcalm

/-- An event that is no goroutine's and leaves term, vote and role alone. -/
lemma of_same (hsame : s'.voteState = s.voteState)
    (hterms : s'.terms = s'.st.currentTerm :: s.terms)
    (hmain : s'.main = s.main ∨ s'.main.campaigns = false) : DurableInv s' := by
  have hterm : s'.st.currentTerm = s.st.currentTerm := congrArg (·.1.1) hsame
  exact hinv.of_voteState hsame (hinv.terms s' hterm.ge hterms) hmain

/-- A goroutine that starts while none is under way. -/
lemma spawn (hquiet : s.Quiet) (thread : Thread)
    (hok : ThreadOk s.st thread) : DurableInv (s.spawn thread) := by
  obtain ⟨hidle, hstanding, hvoting⟩ := hquiet
  have hthreads : (s.spawn thread).threads = [thread] := congrArg (· ++ [thread]) hidle
  obtain ⟨hordered, hbound⟩ := hinv.terms (s.spawn thread) le_rfl rfl
  refine ⟨hinv.votes, hordered, hbound, ?_, hinv.voting, by simp [hthreads], ?_⟩
  · rw [hthreads]
    exact forall_mem_singleton.mpr hok
  · exact fun hbusy => absurd hbusy (not_or.mpr ⟨hstanding, hvoting⟩)

/-- The only goroutine under way makes its next call. -/
lemma advance {index : Nat} {thread : Thread}
    (hthread : s.threads[index]? = some thread) : DurableInv (s.advance peers index thread) := by
  obtain ⟨hvotes, hmono, hrest⟩ := Thread.call_ok peers hinv.votes
    (hinv.threads thread (mem_of_getElem? hthread))
  -- the goroutine is the only one, so what is left of it is all there is
  obtain ⟨rfl, hsingle⟩ : index = 0 ∧ s.threads = [thread] := by
    have hlen := (List.getElem?_eq_some_iff.mp hthread).1
    have halone := hinv.alone.1
    obtain ⟨only, honly⟩ := length_eq_one_iff.mp (by omega : s.threads.length = 1)
    rw [honly] at hthread hlen
    obtain rfl : index = 0 := by simpa using hlen
    exact ⟨rfl, by simpa [honly] using hthread⟩
  have hidle : s.main ≠ .standing ∧ s.main ≠ .voting := by
    refine not_or.mp fun hbusy => ?_
    rw [hinv.alone.2 hbusy] at hsingle
    cases hsingle
  obtain ⟨hordered, hbound⟩ := hinv.terms (s.advance peers 0 thread) hmono rfl
  refine ⟨hvotes, hordered, hbound, ?_, fun hvoting => absurd hvoting hidle.2, ?_,
    fun hbusy => absurd hbusy (not_or.mpr hidle)⟩
  · intro next hnext
    simp only [Process.advance, hsingle] at hnext
    cases hleft : (thread.call peers s.st).thread with
    | none => simp [hleft] at hnext
    | some rest =>
      obtain rfl : next = rest := by simpa [hleft] using hnext
      exact hrest next hleft
  · simp only [Process.advance, hsingle]
    cases (thread.call peers s.st).thread <;> simp

lemma applyCall (result : ApplyResult) : DurableInv (s.applyCall result) := by
  unfold Process.applyCall
  split
  · exact hinv.of_same rfl rfl (.inl rfl)
  · split
    · split <;> exact hinv.of_same rfl rfl (.inl rfl)
    · exact hinv.of_same rfl rfl (.inl rfl)
  · exact hinv.of_same rfl rfl (.inl rfl)
  · split
    · exact hinv.of_same rfl rfl (.inl rfl)
    · refine hinv.of_same ?_ rfl (.inl rfl)
      simp only [Process.voteState, voteState, put, setLastApplied,
        persistLastApplied_dataDir, Option.map_map]
      rfl
  · unfold Process.notify
    split <;> exact hinv.of_same rfl rfl (.inl rfl)

end

/-- The main loop makes its next call. -/
lemma mainCall (hid : id ≠ 0) (hinv : DurableInv s)
    (hterm : s.main = .standing → s.st.currentTerm + 1 < 2 ^ 64)
    (hcall : s.mainCall id peers = some s') : DurableInv s' := by
  unfold Process.mainCall at hcall
  split at hcall
  case h_2 hmain =>
    -- `BecomeCandidate` moves to a term in which no vote has been cast
    obtain ⟨⟩ := hcall
    have hidle := hinv.alone.2 (.inl hmain)
    rw [show s.st.becomeCandidate.currentTerm % 2 ^ 64 = s.st.currentTerm + 1 from
      Nat.mod_eq_of_lt (hterm hmain)]
    have hlt : s.st.currentTerm < s.st.becomeCandidate.currentTerm := lt_add_one _
    obtain ⟨hordered, hbound⟩ := hinv.terms
      { s.put s.st.becomeCandidate with main := .voting } hlt.le rfl
    refine ⟨hinv.votes.raise hlt rfl, hordered, hbound, by simp [put, hidle], ?_,
      by simp [put, hidle]⟩
    intro _ c hmem
    exact absurd (hinv.votes.bound _ c hmem) (Nat.not_le_of_lt hlt)
  case h_3 hmain =>
    obtain ⟨⟩ := hcall
    have hidle := hinv.alone.2 (.inr hmain)
    obtain ⟨hordered, hbound⟩ := hinv.terms { s.put (s.st.setVotedFor id) with
      main := .outside, grants := (s.st.currentTerm, id) :: s.grants } le_rfl rfl
    refine ⟨hinv.votes.cast hid fun c hmem => absurd hmem (hinv.voting hmain c), hordered, hbound,
      by simp [put, hidle], by simp, by simp [put, hidle]⟩
  -- everything else the main loop does leaves term, vote and role alone
  case h_1 | h_6 | h_7 | h_13 =>
    split at hcall <;> obtain ⟨⟩ := hcall <;>
      exact hinv.of_same rfl rfl (.inr rfl)
  all_goals
    obtain ⟨⟩ := hcall
    try exact hinv.of_same rfl rfl (.inr rfl)

/-- Every event that lets terms and votes last keeps the invariant. -/
lemma step (hid : id ≠ 0) (hinv : DurableInv s) {event : Event} (hok : DurableEvent s event)
    (hstep : Process.step id peers s event = some s') : DurableInv s' := by
  cases event with
  | receiveVote args =>
    obtain ⟨hc, ⟨⟩⟩ := ite_none_right_eq_some.mp hstep
    exact hinv.spawn hok.1 _ hc
  | receiveAppend args => obtain ⟨⟩ := hstep; exact hinv.spawn hok.1 _ hok.2
  | receiveSnapshot args restored => obtain ⟨⟩ := hstep; exact hinv.spawn hok.1 _ trivial
  | voteReply term reply =>
    obtain ⟨_, ⟨⟩⟩ := ite_none_right_eq_some.mp hstep
    split
    next hgt =>
      have hspawned := hinv.spawn hok.1 (.replyFollow reply.term) (hok.2 hgt)
      exact hspawned.of_voteState rfl ⟨hspawned.ordered, hspawned.bound⟩ (.inl rfl)
    · exact hinv.of_same rfl rfl (.inl rfl)
  | appendReply sent reply =>
    obtain ⟨_, ⟨⟩⟩ := ite_none_right_eq_some.mp hstep
    have hspawned := hinv.spawn hok.1 (.replyNewer sent reply) trivial
    exact hspawned.of_voteState rfl ⟨hspawned.ordered, hspawned.bound⟩ (.inl rfl)
  | run index =>
    obtain ⟨thread, hthread, rfl⟩ := map_eq_some_iff.mp hstep
    exact hinv.advance hthread
  | timeout =>
    obtain ⟨_, ⟨⟩⟩ := ite_none_right_eq_some.mp hstep
    have hidle := hok.1.1
    obtain ⟨hordered, hbound⟩ := hinv.terms { s.put s.st with main := .standing } le_rfl rfl
    exact ⟨hinv.votes, hordered, hbound, hinv.threads, by simp, by simp [put, hidle]⟩
  | win =>
    obtain ⟨_, ⟨⟩⟩ := ite_none_right_eq_some.mp hstep
    have hidle := hok.1.1
    obtain ⟨hordered, hbound⟩ := hinv.terms
      { s.put (s.st.becomeLeader id) with main := .elected } le_rfl rfl
    exact ⟨hinv.votes.of_same rfl, hordered, hbound, by simp [put, hidle],
      by simp, by simp [put, hidle]⟩
  | campaign | replicate =>
    obtain ⟨_, ⟨⟩⟩ := ite_none_right_eq_some.mp hstep
    exact hinv.of_same rfl rfl (.inl rfl)
  | propose data =>
    obtain ⟨⟩ := hstep
    split <;> exact hinv.of_same rfl rfl (.inl rfl)
  | take =>
    simp only [Process.step] at hstep
    split at hstep
    · obtain ⟨⟩ := hstep; exact hinv.of_same rfl rfl (.inr rfl)
    · cases hstep
  | leave =>
    obtain ⟨_, ⟨⟩⟩ := ite_none_right_eq_some.mp hstep
    exact hinv.of_same rfl rfl (.inr rfl)
  | main => exact hinv.mainCall hid hok.2 hstep
  | apply result => obtain ⟨⟩ := hstep; exact hinv.applyCall result
  | crash =>
    obtain ⟨st, hrestart, rfl⟩ := map_eq_some_iff.mp hstep
    obtain ⟨hvotes, hterm⟩ := hinv.votes.restart hok.2 hrestart
    obtain ⟨hordered, hbound⟩ := hinv.terms (s.put st) hterm.ge rfl
    exact ⟨hvotes, hordered, hbound, by simp, by simp, by simp⟩

end DurableInv

/-- In every run of such events the term of the node never decreases, and no two candidates get
its vote in one term. -/
theorem vote_durability (id : NodeId) (hid : id ≠ 0) (peers : List NodeId) (trace : List Event)
    (s : Process) (hrun : Run (Process.step id peers) DurableEvent Process.init trace s) :
    s.terms.Pairwise (· ≥ ·) ∧
      ∀ t a b, (t, a) ∈ s.grants → (t, b) ∈ s.grants → a = b := by
  have hinv := hrun.invariant DurableInv durableInv_init
    fun _ _ _ hinv hok hstep => hinv.step hid hok hstep
  exact ⟨hinv.ordered, hinv.votes.unique⟩

/-- Node 1 votes for itself in term 1, crashes, votes for node 2 in term 2 and crashes. -/
def savedVotes : List Event :=
  [.timeout, .main, .main, .crash, .receiveVote ⟨2, 2, 0, 0⟩] ++
    List.replicate 6 (.run 0) ++ [.crash]

theorem vote_durability_savedVotes :
    ∃ s, Run (Process.step 1 [2, 3]) DurableEvent Process.init savedVotes s ∧
      s.grants = [(2, 2), (1, 1)] ∧ s.terms.Pairwise (· ≥ ·) :=
  (exists_run (P := fun s => s.grants = [(2, 2), (1, 1)]) (by decide +kernel)).imp fun s h =>
    ⟨h.1, h.2, (vote_durability 1 (by decide) _ _ s h.1).1⟩

/-- Node 1 votes for itself in term 1, hears from the leader of term 1 and then votes for
node 3 in the same term. The leader of term 5 moves it to that term, which a crash loses. -/
def lostVotes : List Event :=
  [.timeout, .main, .main, .receiveAppend ⟨1, 2, 0, 0, [], 0⟩] ++ List.replicate 7 (.run 0) ++
    [.receiveVote ⟨1, 3, 0, 0⟩] ++ List.replicate 5 (.run 0) ++
    [.receiveAppend ⟨5, 2, 0, 0, [], 0⟩] ++ List.replicate 6 (.run 0) ++ [.crash]

theorem lostVotes_two_votes :
    ∃ s, Run (Process.step 1 [2, 3]) Undisturbed Process.init lostVotes s ∧
      s.grants = [(1, 3), (1, 1)] ∧ ¬ s.terms.Pairwise (· ≥ ·) :=
  exists_run (by decide +kernel)

end Oba.Raft
