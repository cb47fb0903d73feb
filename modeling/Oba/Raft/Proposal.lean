import Oba.Raft.Process

/-! # What a successful proposal says

`Propose` answers a waiting caller by the index its entry was given. The answer is about that
entry in every run in which no follower's write reaches an index that a proposal or the apply
loop still relies on.
-/

namespace Oba.Raft

open Execution List Option

variable {thread : Thread} {index : Nat} {req : Request}

/-- The proposal whose entry the main loop has not appended yet. -/
def MainPc.request : MainPc → Option Request
  | .taken req | .allowed req => some req
  | .numbering req | .numbered req _ | .built req _ => req
  | _ => none

/-- The index the main loop has chosen for a proposal it has not tracked yet. -/
def MainPc.chosen : MainPc → Option Nat
  | .numbered (some _) index => some index
  | .built (some _) entry | .appended _ entry => some entry.index
  | _ => none

/-- The index the apply loop is working on. -/
def ApplyPc.current : ApplyPc → Option Nat
  | .fetched _ index _ | .ran _ index _ | .marked _ index _ => some index
  | .idle | .scanned _ _ => none

namespace Process

/-- Proposals that have no entry yet. -/
def waiting (s : Process) : List Request := s.main.request.toList ++ s.queue

/-- Indices that a proposal or the apply loop relies on. -/
def watched (s : Process) : List Nat :=
  s.main.chosen.toList ++ s.apply.current.toList ++ s.pending.map Prod.fst

end Process

/-- A call that leaves waiting proposals alone: it cuts no index that is relied on, and it
appends no entry while the main loop has numbered a proposal and not appended it. -/
def Thread.SparesProposals (s : Process) : Thread → Prop
  | .appendCut _ cut _ _ => ∀ index ∈ s.watched, index < cut
  | .appendWrite _ _ _ _ => s.main.request = none ∨ s.main.chosen = none
  | _ => True

/-- The events under which proposals are answered truthfully: the calls of handlers spare
them, and no snapshot is installed. -/
def ProposalEvent (s : Process) : Event → Prop
  | .run index => ∀ thread ∈ s.threads[index]?, thread.SparesProposals s
  | .receiveSnapshot _ _ => False
  | _ => True

instance (s : Process) (thread : Thread) : Decidable (thread.SparesProposals s) := by
  cases thread <;> unfold Thread.SparesProposals <;> infer_instance

instance (s : Process) (event : Event) : Decidable (ProposalEvent s event) := by
  cases event <;> unfold ProposalEvent <;> infer_instance

/-! ## The invariant -/

/-- A goroutine of a handler that installs no snapshot and cuts no dummy entry. -/
def Thread.KeepsDummy : Thread → Prop
  | .appendLog _ index _ | .appendCut _ index _ _ | .appendWrite _ index _ _ => 0 < index
  | .snapshotStale _ _ | .snapshotNewer _ _ | .snapshotFollow _ _ | .snapshotStore _ _ => False
  | _ => True

/-- The entry of proposal `id` is the one in the log at `index`. -/
def Process.Placed (s : Process) (id index : Nat) : Prop :=
  ∃ entry, s.placed id = some (index, entry) ∧ s.st.log.entries[index]? = some entry

/-- The entry of proposal `id` has been applied at its index, under a commit index that
covers it. -/
def Process.Applied (s : Process) (id : Nat) : Prop :=
  ∃ index entry upTo, s.placed id = some (index, entry) ∧ (index, entry, upTo) ∈ s.applied ∧
    index ≤ upTo

/-- What the main loop knows about the proposal it works on. -/
def Process.MainOk (s : Process) : Prop :=
  match s.main with
  | .numbered (some _) index => index = s.st.log.entries.length
  | .built (some _) entry => entry.index = s.st.log.entries.length
  | .appended req entry => s.Placed req.id entry.index
  | _ => True

/-- What the apply loop knows about the entry it works on. -/
def Process.ApplyOk (s : Process) : Prop :=
  match s.apply with
  | .fetched upTo index entry => index ≤ upTo ∧ s.st.log.entries[index]? = some entry
  | .ran upTo index _ | .marked upTo index _ => index ≤ upTo ∧
      ∃ entry, s.st.log.entries[index]? = some entry ∧ (index, entry, upTo) ∈ s.applied
  | .idle | .scanned _ _ => True

structure ProposalInv (s : Process) : Prop where
  nonempty : s.st.log.entries ≠ []
  threads : ∀ thread ∈ s.threads, thread.KeepsDummy
  numbered : ∀ id, s.proposed ≤ id → s.placed id = none
  waiting : ∀ req ∈ s.waiting, req.id < s.proposed ∧ s.placed req.id = none
  distinct : (s.waiting.map Request.id).Nodup
  main : s.MainOk
  pending : ∀ index req, (index, req) ∈ s.pending → s.Placed req.id index
  apply : s.ApplyOk
  results : ∀ id, (id, .success) ∈ s.results → s.Applied id

lemma proposalInv_init : ProposalInv Process.init := by
  refine ⟨cons_ne_nil _ _, nofun, fun _ _ => rfl, nofun, nodup_nil, trivial, nofun, trivial, nofun⟩

/-! ## Steps -/

/-- What is left of a goroutine after one call installs no snapshot and cuts no dummy entry, and
the call may cut the log or append to it. -/
lemma Thread.call_spec (peers : List NodeId) (st : NodeState) (hok : thread.KeepsDummy) :
    (∀ rest ∈ (thread.call peers st).thread, rest.KeepsDummy) ∧
    ((thread.call peers st).st.log.entries = st.log.entries ∨
    (∃ leaderCommit cut entry rest, thread = .appendCut leaderCommit cut entry rest ∧ 0 < cut ∧
      (thread.call peers st).st.log.entries = st.log.entries.take cut) ∨
    (∃ leaderCommit index entry rest, thread = .appendWrite leaderCommit index entry rest ∧
      (thread.call peers st).st.log.entries = st.log.entries ++ [entry])) := by
  cases thread with
  | appendPrev args =>
    simp only [Thread.call]
    split <;> exact ⟨by rintro _ ⟨⟩ <;> exact Nat.succ_pos _, .inl rfl⟩
  | appendLog leaderCommit index entries =>
    cases entries with
    | nil => exact ⟨by rintro _ ⟨⟩; trivial, .inl rfl⟩
    | cons entry entries =>
      simp only [Thread.call]
      split
      · split
        · exact ⟨by rintro _ ⟨⟩; exact hok, .inl rfl⟩
        · exact ⟨by rintro _ ⟨⟩; exact Nat.succ_pos _, .inl rfl⟩
      · exact ⟨by rintro _ ⟨⟩; exact hok, .inl rfl⟩
  | appendCut leaderCommit index entry rest =>
    refine ⟨by rintro _ ⟨⟩; exact hok, .inr (.inl ⟨_, index, entry, rest, rfl, hok, ?_⟩)⟩
    exact RaftLog.truncateFrom_entries _ _
  | appendWrite leaderCommit index entry rest =>
    exact ⟨by rintro _ ⟨⟩; exact Nat.succ_pos _, .inr (.inr ⟨_, index, entry, rest, rfl, rfl⟩)⟩
  | snapshotStale | snapshotNewer | snapshotFollow | snapshotStore => exact hok.elim
  | voteFollow | appendFollow | voteGrant | replyFollow | commitSet =>
    exact ⟨by rintro _ ⟨⟩ <;> trivial, .inl rfl⟩
  | voteStale | voteNewer | voteCheck | voteCompare | appendStale | appendNewer | appendRole
  | appendCommit | replyNewer | replyCommit =>
    simp only [Thread.call]
    split <;> exact ⟨by rintro _ ⟨⟩ <;> trivial, .inl rfl⟩
  | replyStore sent reply =>
    simp only [Thread.call]
    split
    · exact ⟨by rintro _ ⟨⟩; trivial, .inl rfl⟩
    · split
      · exact ⟨by rintro _ ⟨⟩, .inl rfl⟩
      · split <;> exact ⟨by rintro _ ⟨⟩, .inl rfl⟩

namespace Process

variable {s s' : Process}

/-- Every entry that is relied on stays where it is. -/
def LogKept (s s' : Process) : Prop :=
  ∀ index ∈ s.watched, ∀ entry, s.st.log.entries[index]? = some entry →
    s'.st.log.entries[index]? = some entry

lemma LogKept.of_append (rest : List LogEntry)
    (hlog : s'.st.log.entries = s.st.log.entries ++ rest) : LogKept s s' := by
  intro index _ entry hentry
  rw [hlog, List.getElem?_append_left (List.getElem?_eq_some_iff.mp hentry).1]
  exact hentry

lemma LogKept.of_eq (hlog : s'.st.log.entries = s.st.log.entries) : LogKept s s' :=
  .of_append [] (by rw [hlog, append_nil])

lemma LogKept.of_take {cut : Nat} (hlog : s'.st.log.entries = s.st.log.entries.take cut)
    (hspared : ∀ index ∈ s.watched, index < cut) : LogKept s s' := by
  intro index hindex entry hentry
  rw [hlog, getElem?_take_of_lt (hspared index hindex)]
  exact hentry

lemma Placed.of_kept {id : Nat} (hplaced : s.Placed id index) (hkept : LogKept s s')
    (hindex : index ∈ s.watched) (hsame : s'.placed id = s.placed id) : s'.Placed id index := by
  obtain ⟨entry, hentry, hlog⟩ := hplaced
  exact ⟨entry, hsame.trans hentry, hkept index hindex entry hlog⟩

lemma MainOk.of_kept (hok : s.MainOk) (hmain : s'.main = s.main) (hplaced : s'.placed = s.placed)
    (hkept : LogKept s s') (hlen : s.main.request = none ∨ s.main.chosen = none ∨
      s'.st.log.entries.length = s.st.log.entries.length) : s'.MainOk := by
  unfold MainOk at hok ⊢
  rw [hmain]
  cases hpc : s.main with
  | numbered req index | built req entry =>
    cases req with
    | none => trivial
    | some req =>
      simp only [hpc, MainPc.request, MainPc.chosen, reduceCtorEq, false_or] at hok hlen
      exact hok.trans hlen.symm
  | appended req entry =>
    simp only [hpc] at hok
    refine hok.of_kept hkept ?_ (congrFun hplaced _)
    simp [watched, hpc, MainPc.chosen]
  | _ => trivial

/-- A proposal without an entry has the index after the end of the log. -/
lemma MainOk.chosen_eq (hok : s.MainOk) (hrequest : s.main.request = some req)
    (hchosen : s.main.chosen = some index) : index = s.st.log.entries.length := by
  unfold MainOk at hok
  cases hpc : s.main with
  | numbered found index' | built found entry =>
    rw [hpc] at hrequest hchosen hok
    cases found <;> cases hchosen
    exact hok
  | _ => simp [hpc, MainPc.request, MainPc.chosen] at hrequest hchosen

lemma ApplyOk.of_kept (hok : s.ApplyOk) (happly : s'.apply = s.apply)
    (happlied : s'.applied = s.applied) (hkept : LogKept s s') : s'.ApplyOk := by
  unfold ApplyOk at hok ⊢
  rw [happly]
  cases hpc : s.apply with
  | fetched upTo index entry =>
    simp only [hpc] at hok
    exact ⟨hok.1, hkept index (by simp [watched, hpc, ApplyPc.current]) entry hok.2⟩
  | ran upTo index result | marked upTo index result =>
    simp only [hpc] at hok
    obtain ⟨hle, entry, hlog, hmem⟩ := hok
    exact ⟨hle, entry, hkept index (by simp [watched, hpc, ApplyPc.current]) entry hlog,
      happlied ▸ hmem⟩
  | _ => trivial

end Process

namespace ProposalInv

variable {s s' : Process}

/-- An event that gives no proposal an entry and tracks no new one. -/
lemma of_kept (hinv : ProposalInv s) (hlog : s'.st.log.entries ≠ []) (hkept : s.LogKept s')
    (hthreads : ∀ thread ∈ s'.threads, thread.KeepsDummy) (hproposed : s'.proposed = s.proposed)
    (hplaced : s'.placed = s.placed) (hwaiting : s'.waiting.Sublist s.waiting)
    (hmain : s'.MainOk) (hpending : s'.pending ⊆ s.pending) (happly : s'.ApplyOk)
    (happlied : s.applied ⊆ s'.applied)
    (hresults : ∀ id, (id, .success) ∈ s'.results → (id, .success) ∈ s.results ∨ s'.Applied id) :
    ProposalInv s' where
  nonempty := hlog
  threads := hthreads
  numbered := by rw [hproposed, hplaced]; exact hinv.numbered
  waiting req hreq := by
    rw [hproposed, hplaced]
    exact hinv.waiting req (hwaiting.subset hreq)
  distinct := hinv.distinct.sublist (hwaiting.map _)
  main := hmain
  pending index req hmem := by
    have hold := hpending hmem
    refine (hinv.pending index req hold).of_kept hkept ?_ (congrFun hplaced _)
    exact mem_append_right _ (mem_map.mpr ⟨_, hold, rfl⟩)
  apply := happly
  results id hid := by
    rcases hresults id hid with hold | hnew
    · obtain ⟨index, entry, upTo, hentry, hmem, hle⟩ := hinv.results id hold
      exact ⟨index, entry, upTo, (congrFun hplaced id).trans hentry, happlied hmem, hle⟩
    · exact hnew

/-- What an event leaves alone when it answers no proposal, gives none an entry, and is no
work of the apply loop. -/
structure Calm (s s' : Process) : Prop where
  proposed : s'.proposed = s.proposed
  placed : s'.placed = s.placed
  queue : s'.queue = s.queue
  pending : s'.pending = s.pending
  apply : s'.apply = s.apply
  applied : s'.applied = s.applied
  results : s'.results = s.results

section

variable {peers : List NodeId} {entry : LogEntry} {id : NodeId}

variable (hinv : ProposalInv s)
include hinv

lemma of_calm (hcalm : Calm s s') (hlog : s'.st.log.entries ≠ []) (hkept : s.LogKept s')
    (hthreads : ∀ thread ∈ s'.threads, thread.KeepsDummy)
    (hrequest : s'.main.request = s.main.request) (hmain : s'.MainOk) : ProposalInv s' := by
  refine hinv.of_kept hlog hkept hthreads hcalm.proposed hcalm.placed ?_ hmain
    (hcalm.pending ▸ List.Subset.refl _)
    (hinv.apply.of_kept hcalm.apply hcalm.applied hkept) (hcalm.applied ▸ List.Subset.refl _)
    fun id hid => .inl (hcalm.results ▸ hid)
  unfold Process.waiting
  rw [hrequest, hcalm.queue]

/-- A calm event that leaves the log and the main loop as they are. -/
lemma of_same (hcalm : Calm s s') (hlog : s'.st.log.entries = s.st.log.entries)
    (hmain : s'.main = s.main) (hthreads : ∀ thread ∈ s'.threads, thread.KeepsDummy) :
    ProposalInv s' :=
  hinv.of_calm hcalm (hlog ▸ hinv.nonempty) (.of_eq hlog) hthreads (congrArg _ hmain)
    (hinv.main.of_kept hmain hcalm.placed (.of_eq hlog) (.inr (.inr (congrArg _ hlog))))

lemma spawn (hthread : thread.KeepsDummy) : ∀ next ∈ s.threads ++ [thread], next.KeepsDummy :=
  forall_mem_append.mpr ⟨hinv.threads, (forall_mem_singleton ..).mpr hthread⟩

lemma advance (hthread : s.threads[index]? = some thread) (hspares : thread.SparesProposals s) :
    ProposalInv (s.advance peers index thread) := by
  obtain ⟨hleft, hlog⟩ :=
    Thread.call_spec peers s.st (hinv.threads thread (mem_of_getElem? hthread))
  have hthreads : ∀ next ∈ (s.advance peers index thread).threads, next.KeepsDummy := by
    intro next hnext
    simp only [Process.advance] at hnext
    split at hnext
    next rest hrest =>
      rcases mem_or_eq_of_mem_set hnext with hold | rfl
      · exact hinv.threads next hold
      · exact hleft _ hrest
    · exact hinv.threads next (mem_of_mem_eraseIdx hnext)
  have hcalm : Calm s (s.advance peers index thread) := ⟨rfl, rfl, rfl, rfl, rfl, rfl, rfl⟩
  rcases hlog with hsame | ⟨_, cut, _, _, hcall, hpos, hcut⟩ |
    ⟨_, _, entry, _, hcall, hwrite⟩
  · exact hinv.of_same hcalm hsame rfl hthreads
  · have hbelow : ∀ index ∈ s.watched, index < cut := by
      rw [hcall] at hspares
      exact hspares
    have hkept : s.LogKept (s.advance peers index thread) := .of_take hcut hbelow
    refine hinv.of_calm hcalm ?_ hkept hthreads rfl (hinv.main.of_kept rfl rfl hkept ?_)
    · show (thread.call peers s.st).st.log.entries ≠ []
      rw [hcut]
      simpa using ⟨hpos.ne', hinv.nonempty⟩
    · -- the proposal being placed has an index below the cut, so the log is not cut at all
      cases hrequest : s.main.request with
      | none => exact .inl rfl
      | some req =>
        cases hchosen : s.main.chosen with
        | none => exact .inr (.inl rfl)
        | some chosen =>
          have hend := hinv.main.chosen_eq hrequest hchosen
          have hlt := hbelow chosen (by simp [Process.watched, hchosen])
          refine .inr (.inr ?_)
          show (thread.call peers s.st).st.log.entries.length = _
          rw [hcut, length_take]
          omega
  · have hkept : s.LogKept (s.advance peers index thread) := .of_append [entry] hwrite
    refine hinv.of_calm hcalm ?_ hkept hthreads rfl (hinv.main.of_kept rfl rfl hkept ?_)
    · show (thread.call peers s.st).st.log.entries ≠ []
      rw [hwrite]
      simp
    · rw [hcall] at hspares
      exact hspares.imp_right .inl

/-- The main loop appends the entry of a proposal, at the index the proposal was given. -/
lemma built (hmain : s.main = .built (some req) entry) (hmain' : s'.main = .appended req entry)
    (hlog : s'.st.log.entries = s.st.log.entries ++ [entry])
    (hplaced : s'.placed = Function.update s.placed req.id (some (s.st.log.entries.length, entry)))
    (hrest : s'.proposed = s.proposed ∧ s'.queue = s.queue ∧ s'.pending = s.pending ∧
      s'.apply = s.apply ∧ s'.applied = s.applied ∧ s'.results = s.results ∧
        s'.threads = s.threads) :
    ProposalInv s' := by
  obtain ⟨hproposed, hqueue, hpending, happly, happlied, hresults, hthreads⟩ := hrest
  have hend : entry.index = s.st.log.entries.length :=
    hinv.main.chosen_eq (by rw [hmain]; rfl) (by rw [hmain]; rfl)
  have hwaiting : s.waiting = req :: s'.waiting := by
    rw [Process.waiting, hmain, Process.waiting, hmain', hqueue]
    rfl
  obtain ⟨hreq, hold⟩ := forall_mem_cons.mp (hwaiting ▸ hinv.waiting)
  have hdistinct := hinv.distinct
  rw [hwaiting] at hdistinct
  obtain ⟨hfresh, hnodup⟩ := nodup_cons.mp hdistinct
  have hother : ∀ id, id ≠ req.id → s'.placed id = s.placed id := by
    intro id hid
    rw [hplaced, Function.update_of_ne hid]
  have hkept : s.LogKept s' := .of_append [entry] hlog
  have hplacedNe : ∀ id value, s.placed id = some value → id ≠ req.id := by
    rintro id value hid rfl
    exact absurd (hid.symm.trans hreq.2) nofun
  refine ⟨by simp [hlog], hthreads ▸ hinv.threads, ?_, ?_, hnodup, ?_, ?_,
    hinv.apply.of_kept happly happlied hkept, ?_⟩
  · intro id hid
    rw [hproposed] at hid
    rw [hother id (hreq.1.trans_le hid).ne']
    exact hinv.numbered id hid
  · intro other hmem
    rw [hproposed, hother _ fun heq => hfresh (mem_map.mpr ⟨other, hmem, heq⟩)]
    exact hold other hmem
  · unfold Process.MainOk
    rw [hmain']
    refine ⟨entry, ?_, ?_⟩
    · rw [hplaced, Function.update_self, hend]
    · rw [hlog, hend, getElem?_concat_length]
  · intro index other hmem
    rw [hpending] at hmem
    have hok := hinv.pending index other hmem
    have hne : other.id ≠ req.id := hok.elim fun found hfound => hplacedNe _ _ hfound.1
    refine hok.of_kept hkept ?_ (hother _ hne)
    exact mem_append_right _ (mem_map.mpr ⟨_, hmem, rfl⟩)
  · intro id hid
    rw [hresults] at hid
    obtain ⟨index, found, upTo, hfound, hmem, hle⟩ := hinv.results id hid
    exact ⟨index, found, upTo, (hother _ (hplacedNe _ _ hfound)).trans hfound, happlied ▸ hmem, hle⟩

/-- The main loop moves on with the proposal it works on. -/
lemma moves (hcalm : Calm s s') (hthreads : s'.threads = s.threads)
    (hlog : s'.st.log.entries = s.st.log.entries) (hrequest : s'.main.request = s.main.request)
    (hmain : s'.MainOk) : ProposalInv s' :=
  hinv.of_calm hcalm (hlog ▸ hinv.nonempty) (.of_eq hlog) (hthreads ▸ hinv.threads) hrequest hmain

/-- The main loop gives up the proposal it works on, or answers that it is not leader. -/
lemma drops (hcalm : Calm s { s' with results := s.results })
    (hthreads : s'.threads = s.threads) (hlog : s'.st.log.entries = s.st.log.entries)
    (hmain : s'.main = .leading)
    (hresults : ∀ id, (id, .success) ∈ s'.results → (id, .success) ∈ s.results) :
    ProposalInv s' := by
  refine hinv.of_kept (hlog ▸ hinv.nonempty) (.of_eq hlog) (hthreads ▸ hinv.threads)
    hcalm.proposed hcalm.placed ?_ (by unfold Process.MainOk; rw [hmain]; trivial)
    (hcalm.pending ▸ List.Subset.refl _)
    (hinv.apply.of_kept hcalm.apply hcalm.applied (.of_eq hlog))
    (hcalm.applied ▸ List.Subset.refl _) fun id hid => .inl (hresults id hid)
  unfold Process.waiting
  rw [hmain, hcalm.queue]
  exact sublist_append_right _ _

lemma mainCall (hcall : s.mainCall id peers = some s') : ProposalInv s' := by
  have hcalm : ∀ st main grants, Calm s { s.put st with main := main, grants := grants } :=
    fun _ _ _ => ⟨rfl, rfl, rfl, rfl, rfl, rfl, rfl⟩
  have hlength : s.st.log.lastIndex + 1 = s.st.log.entries.length := by
    have hpos := length_pos_iff.mpr hinv.nonempty
    unfold RaftLog.lastIndex
    rw [if_neg hpos.ne']
    omega
  unfold Process.mainCall at hcall
  split at hcall
  case h_1 hmain =>
    split at hcall <;> obtain ⟨⟩ := hcall
    exact hinv.moves (hcalm _ _ _) rfl rfl (by rw [hmain]; rfl) trivial
  case h_2 hmain | h_3 hmain | h_4 hmain | h_14 hmain =>
    obtain ⟨⟩ := hcall
    exact hinv.moves (hcalm _ _ _) rfl rfl (by rw [hmain]; rfl) trivial
  case h_5 => cases hcall
  case h_6 req hmain =>
    split at hcall <;> obtain ⟨⟩ := hcall
    · exact hinv.drops ⟨rfl, rfl, rfl, rfl, rfl, rfl, rfl⟩ rfl rfl rfl (by simp)
    · exact hinv.moves (hcalm _ _ _) rfl rfl (by rw [hmain]; rfl) trivial
  case h_7 req hmain =>
    split at hcall <;> obtain ⟨⟩ := hcall
    · exact hinv.drops ⟨rfl, rfl, rfl, rfl, rfl, rfl, rfl⟩ rfl rfl rfl fun _ hid => hid
    · exact hinv.moves (hcalm _ _ _) rfl rfl (by rw [hmain]; rfl) trivial
  case h_8 req hmain =>
    obtain ⟨⟩ := hcall
    refine hinv.moves (hcalm _ _ _) rfl rfl (by rw [hmain]; rfl) ?_
    cases req with
    | none => trivial
    | some req => exact hlength
  case h_9 req index hmain =>
    obtain ⟨⟩ := hcall
    refine hinv.moves (hcalm _ _ _) rfl rfl (by rw [hmain]; rfl) ?_
    cases req with
    | none => trivial
    | some req => exact hinv.main.chosen_eq (by rw [hmain]; rfl) (by rw [hmain]; rfl)
  case h_10 req entry hmain =>
    obtain ⟨⟩ := hcall
    exact hinv.built hmain rfl rfl rfl ⟨rfl, rfl, rfl, rfl, rfl, rfl, rfl⟩
  case h_11 entry hmain =>
    obtain ⟨⟩ := hcall
    refine hinv.of_calm (hcalm _ _ _) ?_ (.of_append [entry] rfl) hinv.threads
      (by rw [hmain]; rfl) trivial
    exact append_ne_nil_of_right_ne_nil _ (cons_ne_nil _ _)
  case h_12 req entry hmain =>
    obtain ⟨⟩ := hcall
    have hplaced : s.Placed req.id entry.index := by
      have hok := hinv.main
      unfold Process.MainOk at hok
      rwa [hmain] at hok
    have hmoved := hinv.moves (hcalm s.st .tracked s.grants) rfl rfl (by rw [hmain]; rfl) trivial
    refine { hmoved with pending := ?_ }
    intro index other hmem
    rcases mem_cons.mp hmem with heq | hold
    · cases heq
      exact hplaced
    · exact hinv.pending index other (mem_of_mem_filter hold)
  case h_13 hmain =>
    split at hcall <;> obtain ⟨⟩ := hcall <;>
      exact hinv.moves (hcalm _ _ _) rfl rfl (by rw [hmain]; rfl) trivial

/-- The apply loop moves on, and may add to what has been applied. -/
lemma applies (hst : s'.st.log.entries = s.st.log.entries)
    (hsame : s'.main = s.main ∧ s'.threads = s.threads ∧ s'.proposed = s.proposed ∧
      s'.placed = s.placed ∧ s'.queue = s.queue)
    (hpending : s'.pending ⊆ s.pending) (happly : s'.ApplyOk) (happlied : s.applied ⊆ s'.applied)
    (hresults : ∀ id, (id, .success) ∈ s'.results → (id, .success) ∈ s.results ∨ s'.Applied id) :
    ProposalInv s' := by
  obtain ⟨hmain, hthreads, hproposed, hplaced, hqueue⟩ := hsame
  refine hinv.of_kept (hst ▸ hinv.nonempty) (.of_eq hst) (hthreads ▸ hinv.threads) hproposed
    hplaced ?_ (hinv.main.of_kept hmain hplaced (.of_eq hst) (.inr (.inr (congrArg _ hst))))
    hpending happly happlied hresults
  unfold Process.waiting
  rw [hmain, hqueue]

/-- The apply loop moves on without handing an entry to the state machine. -/
lemma scans (pc : ApplyPc) (hok : Process.ApplyOk { s.put s.st with apply := pc }) :
    ProposalInv { s.put s.st with apply := pc } :=
  hinv.applies rfl ⟨rfl, rfl, rfl, rfl, rfl⟩ (List.Subset.refl _) hok (List.Subset.refl _)
    fun _ => .inl

/-- The apply loop answers the proposal that waits at the index it has applied. -/
lemma notify {upTo : Nat} (hentry : s.st.log.entries[index]? = some entry)
    (hmem : (index, entry, upTo) ∈ s.applied) (hle : index ≤ upTo) (result : ProposeResult)
    (pc : ApplyPc) (hpc : Process.ApplyOk { s.put s.st with apply := pc }) :
    ProposalInv { (s.put s.st).notify index result with apply := pc } := by
  unfold Process.notify
  split
  next req hlookup =>
    obtain ⟨before, after, hpending, _⟩ := lookup_eq_some_iff.mp hlookup
    have hwaits : (index, req) ∈ s.pending := hpending ▸ by simp
    refine hinv.applies rfl ⟨rfl, rfl, rfl, rfl, rfl⟩ (filter_subset_self _) hpc
      (List.Subset.refl _) fun id hid => ?_
    rcases mem_cons.mp hid with heq | hold
    · obtain ⟨rfl, _⟩ := Prod.mk.inj heq
      obtain ⟨found, hfound, hlog⟩ := hinv.pending index req hwaits
      obtain rfl := some.inj (hlog.symm.trans hentry)
      exact .inr ⟨index, found, upTo, hfound, hmem, hle⟩
    · exact .inl hold
  · exact hinv.scans pc hpc

lemma applyCall (result : ApplyResult) : ProposalInv (s.applyCall result) := by
  have hok := hinv.apply
  unfold Process.ApplyOk at hok
  unfold Process.applyCall
  split
  · exact hinv.scans _ trivial
  next upTo last hpc =>
    split
    next hlt =>
      split
      next entry hget =>
        refine hinv.scans _ ⟨hlt, ?_⟩
        unfold RaftLog.get at hget
        split at hget <;> cases hget
        assumption
      · exact hinv.scans _ trivial
    · exact hinv.scans _ trivial
  next upTo index entry hpc =>
    rw [hpc] at hok
    exact hinv.applies rfl ⟨rfl, rfl, rfl, rfl, rfl⟩ (List.Subset.refl _)
      ⟨hok.1, entry, hok.2, mem_cons_self⟩ (subset_cons_self _ _) fun _ => .inl
  next upTo index result hpc =>
    rw [hpc] at hok
    split
    · exact hinv.scans _ hok
    · exact hinv.applies rfl ⟨rfl, rfl, rfl, rfl, rfl⟩ (List.Subset.refl _) hok
        (List.Subset.refl _) fun _ => .inl
  next upTo index result hpc =>
    rw [hpc] at hok
    obtain ⟨hle, entry, hlog, hmem⟩ := hok
    refine hinv.notify hlog hmem hle _ _ ?_
    split <;> trivial

/-- `Propose` numbers its request and hands it to the main loop. -/
lemma enqueue (data : List UInt8) : ProposalInv { s.put s.st with
      queue := s.queue ++ [⟨s.proposed, data⟩], proposed := s.proposed + 1 } := by
  have hwaiting : Process.waiting { s.put s.st with
      queue := s.queue ++ [⟨s.proposed, data⟩], proposed := s.proposed + 1 } =
      s.waiting ++ [⟨s.proposed, data⟩] := (append_assoc _ _ _).symm
  refine { hinv with
    numbered := fun id hid => hinv.numbered id (Nat.le_of_succ_le hid)
    waiting := ?_
    distinct := ?_ }
  · rw [hwaiting]
    exact forall_mem_append.mpr
      ⟨fun req hreq => (hinv.waiting req hreq).imp_left Nat.lt_succ_of_lt,
        (forall_mem_singleton ..).mpr ⟨lt_add_one _, hinv.numbered _ le_rfl⟩⟩
  · rw [hwaiting, map_append]
    refine hinv.distinct.append (nodup_singleton _) ?_
    intro id hold hnew
    obtain ⟨req, hreq, rfl⟩ := mem_map.mp hold
    exact (hinv.waiting req hreq).1.ne (mem_singleton.mp hnew)

lemma step {event : Event} (hok : ProposalEvent s event)
    (hstep : Process.step id peers s event = some s') : ProposalInv s' := by
  cases event with
  | receiveAppend args =>
    obtain ⟨⟩ := hstep
    exact hinv.of_same ⟨rfl, rfl, rfl, rfl, rfl, rfl, rfl⟩ rfl rfl (hinv.spawn trivial)
  | receiveSnapshot args restored => exact hok.elim
  | voteReply term reply =>
    obtain ⟨_, ⟨⟩⟩ := ite_none_right_eq_some.mp hstep
    split
    · exact hinv.of_same ⟨rfl, rfl, rfl, rfl, rfl, rfl, rfl⟩ rfl rfl (hinv.spawn trivial)
    · exact hinv.of_same ⟨rfl, rfl, rfl, rfl, rfl, rfl, rfl⟩ rfl rfl hinv.threads
  | receiveVote | appendReply =>
    obtain ⟨_, ⟨⟩⟩ := ite_none_right_eq_some.mp hstep
    exact hinv.of_same ⟨rfl, rfl, rfl, rfl, rfl, rfl, rfl⟩ rfl rfl (hinv.spawn trivial)
  | run index =>
    obtain ⟨thread, hthread, rfl⟩ := map_eq_some_iff.mp hstep
    exact hinv.advance hthread (hok thread hthread)
  | timeout | win =>
    obtain ⟨hmain, ⟨⟩⟩ := ite_none_right_eq_some.mp hstep
    exact hinv.moves ⟨rfl, rfl, rfl, rfl, rfl, rfl, rfl⟩ rfl rfl (by rw [hmain.1]; rfl) trivial
  | campaign | replicate =>
    obtain ⟨_, ⟨⟩⟩ := ite_none_right_eq_some.mp hstep
    exact hinv.of_same ⟨rfl, rfl, rfl, rfl, rfl, rfl, rfl⟩ rfl rfl hinv.threads
  | propose data =>
    obtain ⟨⟩ := hstep
    split
    · exact hinv.enqueue data
    · -- the caller is told at once; only its number is used up
      refine { hinv with
        numbered := fun id hid => hinv.numbered id (Nat.le_of_succ_le hid)
        waiting := fun req hreq => (hinv.waiting req hreq).imp_left Nat.lt_succ_of_lt
        results := fun id hid => ?_ }
      exact hinv.results id (by simpa [Process.put] using hid)
  | take =>
    simp only [Process.step] at hstep
    split at hstep <;> obtain ⟨⟩ := hstep
    next req rest hmain hqueue =>
      refine hinv.of_kept hinv.nonempty (.of_eq rfl) hinv.threads rfl rfl ?_ trivial
        (List.Subset.refl _) (hinv.apply.of_kept rfl rfl (.of_eq rfl)) (List.Subset.refl _)
        fun _ => .inl
      rw [Process.waiting, Process.waiting, hmain, hqueue]
      exact List.Sublist.refl _
  | leave =>
    obtain ⟨hmain, ⟨⟩⟩ := ite_none_right_eq_some.mp hstep
    refine hinv.of_kept hinv.nonempty (.of_eq rfl) hinv.threads rfl rfl ?_ trivial
      (nil_subset _) (hinv.apply.of_kept rfl rfl (.of_eq rfl)) (List.Subset.refl _) ?_
    · rw [Process.waiting, Process.waiting, hmain.1]
      exact List.Sublist.refl _
    · intro id hid
      exact .inl (by simpa [Process.cancelPendingProposals, Process.put] using hid)
  | main => exact hinv.mainCall hstep
  | apply result => obtain ⟨⟩ := hstep; exact hinv.applyCall result
  | crash =>
    obtain ⟨st, hrestart, rfl⟩ := map_eq_some_iff.mp hstep
    exact ⟨NodeState.restart_log_ne_nil hrestart, forall_mem_nil _, hinv.numbered,
      forall_mem_nil _, nodup_nil, trivial, fun _ _ hmem => absurd hmem not_mem_nil,
      trivial, hinv.results⟩

end

end ProposalInv

/-! ## Proposal truth -/

/-- In every run whose events spare waiting proposals, a proposal that has returned success
has its own entry applied, at the index it was appended at and under a commit index that
covers it. -/
theorem proposal_truth (id : NodeId) (peers : List NodeId) (trace : List Event) (s : Process)
    (hrun : Run (Process.step id peers) ProposalEvent Process.init trace s) (proposal : Nat)
    (hsuccess : (proposal, .success) ∈ s.results) :
    ∃ index entry upTo, s.placed proposal = some (index, entry) ∧
      (index, entry, upTo) ∈ s.applied ∧ index ≤ upTo :=
  (hrun.invariant ProposalInv proposalInv_init
    fun _ _ _ hinv hok hstep => hinv.step hok hstep).results proposal hsuccess

/-- Node 1 is elected, appends its no-op entry and then the entry of a proposal, at index 2. -/
def tracksProposal : List Event :=
  [.timeout, .main, .main, .campaign, .win] ++ List.replicate 5 .main ++ [.propose [7], .take] ++
    List.replicate 7 .main

/-- Node 2 acknowledges both entries, and node 1 applies them. -/
def acknowledgedProposal : List Event :=
  tracksProposal ++ [.replicate 2, .appendReply ⟨2, 1, 2⟩ ⟨1, true, 0, 0⟩] ++
    List.replicate 4 (.run 0) ++ List.replicate 9 (.apply .applied)

theorem proposal_truth_acknowledgedProposal :
    ∃ s, Run (Process.step 1 [2, 3]) ProposalEvent Process.init acknowledgedProposal s ∧
      (0, .success) ∈ s.results ∧ ∃ index entry upTo, s.placed 0 = some (index, entry) ∧
        (index, entry, upTo) ∈ s.applied ∧ index ≤ upTo :=
  (exists_run (P := fun s => (0, .success) ∈ s.results) (by decide +kernel)).imp fun s h =>
    ⟨h.1, h.2, proposal_truth _ _ _ s h.1 0 h.2⟩

/-- The leader of term 2 overwrites the entry of the proposal before the main loop of node 1
has noticed that it no longer leads. -/
def overwrittenProposal : List Event :=
  tracksProposal ++ [.receiveAppend ⟨2, 2, 1, 1, [⟨2, 2, logEntryNoop, []⟩], 2⟩] ++
    List.replicate 10 (.run 0) ++ List.replicate 9 (.apply .applied)

theorem overwrittenProposal_success :
    ∃ s, Run (Process.step 1 [2, 3]) (fun _ _ => True) Process.init overwrittenProposal s ∧
      (0, .success) ∈ s.results ∧ s.placed 0 = some (2, ⟨2, 1, logEntryCommand, [7]⟩) ∧
      s.applied.map (fun a => (a.1, a.2.1)) =
        [(2, ⟨2, 2, logEntryNoop, []⟩), (1, ⟨1, 1, logEntryNoop, []⟩)] :=
  exists_run (by decide +kernel)

end Oba.Raft
