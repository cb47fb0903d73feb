import Oba.Storage.Uids

/-! # Uids in all interleavings

The uid check reads what its transaction sees. Two transactions that change users at the same
time do not see each other's changes, so both can give the same uid to a user of theirs.
-/

namespace Oba.Storage

open List Option
open Function (update_of_ne update_self)

lemma isUsersSubtreeDN_normalizeDN (dn : Bytes) :
    isUsersSubtreeDN (normalizeDN dn) = isUsersSubtreeDN dn := by
  unfold isUsersSubtreeDN
  rw [normalizeDN_normalizeDN]

namespace ObaDB

variable {τ : Type} {db db' : ObaDB τ} {tx : Nat} {dn : Bytes} {path : List Bytes}
  {held : Bytes → Option Attributes} {c : Call}

/-! ## The committed database -/

/-- What a call makes of the committed database: a commit brings in what its transaction has
written. A commit that fails does so as well. -/
def settle (db : ObaDB τ) (held : Bytes → Option Attributes) : Call → Bytes → Option Attributes
  | .commit tx => fun dn =>
    if (db.store.versions dn).any (Version.pendingOf tx) then db.directory dn else held dn
  | _ => held

/-- A call, with the committed database beside the engine. -/
def stepHeld (trees : IndexTrees τ) (state : ObaDB τ × (Bytes → Option Attributes)) (c : Call) :
    ObaDB τ × (Bytes → Option Attributes) :=
  (state.1.step trees c, state.1.settle state.2 c)

/-- The committed database after calls on a database in which nothing is uncommitted. -/
def committed (trees : IndexTrees τ) (start : ObaDB τ) (calls : List Call) :
    Bytes → Option Attributes :=
  (calls.foldl (stepHeld trees) (start, start.directory)).2

/-! ## One writer below ou=users -/

/-- The transaction sees all versions of all users. -/
def UsersVisible (db : ObaDB τ) (tx : Nat) : Prop :=
  ∀ dn, isUsersSubtreeDN dn → ∀ v ∈ db.store.versions dn, v.isVisibleTo tx tx

/-- A put or delete of a user is the work of a transaction that sees all users, a user has at
most one uid, and a transaction that has changed users is not rolled back. -/
def KeepsUids (db : ObaDB τ) : Call → Prop
  | .put tx _ entry => (∃ path, Canonical (normalizeDN entry.dn) path) ∧
      (isUsersSubtreeDN entry.dn → entry.Fits 4 ∧ OneUid entry.attributes ∧ db.UsersVisible tx)
  | .delete tx _ dn => (∃ path, Canonical (normalizeDN dn) path) ∧
      (isUsersSubtreeDN dn → db.UsersVisible tx)
  | .rollback tx => ∀ dn, isUsersSubtreeDN dn → ¬ db.Uncommitted tx dn
  | _ => True

/-- The users of the database and of the committed database. -/
structure UserState (db : ObaDB τ) (held : Bytes → Option Attributes) : Prop where
  synced : db.Synced
  unique : UidsUnique db.directory
  single : ∀ dn attributes, isUsersSubtreeDN dn → db.directory dn = some attributes →
    OneUid attributes
  listed : ∀ dn, isUsersSubtreeDN dn → (db.directory dn).isSome → dn ∈ db.radix.iterate
  writer : ∀ tx tx' dn dn', isUsersSubtreeDN dn → isUsersSubtreeDN dn' →
    db.Uncommitted tx dn → db.Uncommitted tx' dn' → tx = tx'
  committed : UidsUnique held
  settled : ∀ dn, isUsersSubtreeDN dn → (∀ tx, ¬ db.Uncommitted tx dn) → held dn = db.directory dn

/-- A transaction that sees all users reads the newest versions. -/
lemma UsersVisible.reads (h : db.UsersVisible tx) (hsynced : db.Synced)
    (htx : db.isActive tx) (hdn : Canonical dn path) (husers : isUsersSubtreeDN dn) :
    db.reads tx dn = db.newest dn :=
  hsynced.reads_of_visible (.inl htx) hdn (h dn husers)

/-- The transaction that has uncommitted changes to users is the one that sees them. -/
lemma UsersVisible.eq_of_uncommitted (h : db.UsersVisible tx) {other : Nat}
    (husers : isUsersSubtreeDN dn) (huncommitted : db.Uncommitted other dn) : other = tx := by
  obtain ⟨v, hv, hpending⟩ := huncommitted
  obtain ⟨htx, hzero⟩ := of_decide_eq_true hpending
  by_contra hne
  have hvisible := h dn husers v hv
  rw [Version.isVisibleTo_of_pending hzero (htx ▸ hne)] at hvisible
  cases hvisible

namespace UserState

section

variable (h : UserState db held)
include h

lemma reread (hread : Reread db db') : UserState db' held := by
  have hdirectory : db'.directory = db.directory :=
    directory_congr fun d _ _ => by rw [hread.newest]
  exact {
    synced := h.synced.reread hread
    unique := by rw [hdirectory]; exact h.unique
    single := by rw [hdirectory]; exact h.single
    listed := by rw [hdirectory, hread.radix]; exact h.listed
    writer := by rw [hread.uncommitted]; exact h.writer
    committed := h.committed
    settled := by rw [hdirectory, hread.uncommitted]; exact h.settled }

lemma begin : UserState db.begin.2 held := { h with synced := h.synced.begin }

/-- A new version at a DN. -/
lemma pushed {v : Version} {below : List Version} {value : Option Attributes}
    (hpushed : Pushed db db' dn v below)
    (hbelow : below = db.store.versions dn ∨ db.FoundBelow dn below) (hsynced : db'.Synced)
    (hdirectory : db'.directory = Function.update db.directory dn value)
    (hvisible : isUsersSubtreeDN dn → db.UsersVisible v.txID)
    (hvalue : isUsersSubtreeDN dn → ∀ attributes ∈ value, OneUid attributes ∧
      OwnUids db.directory dn attributes)
    (hindex : ∀ d, d ≠ dn → d ∈ db.radix.iterate → d ∈ db'.radix.iterate)
    (hself : isUsersSubtreeDN dn → value.isSome → dn ∈ db'.radix.iterate) : UserState db' held where
  synced := hsynced
  unique := by
    rw [hdirectory]
    exact h.unique.update fun husers attributes hmem => (hvalue husers attributes hmem).2
  single := fun d attributes husers hd => by
    rw [hdirectory] at hd
    by_cases heq : d = dn
    · subst heq
      rw [update_self] at hd
      exact (hvalue husers attributes hd).1
    · rw [update_of_ne heq] at hd
      exact h.single d attributes husers hd
  listed := fun d husers hd => by
    rw [hdirectory] at hd
    by_cases heq : d = dn
    · subst heq
      rw [update_self] at hd
      exact hself husers hd
    · rw [update_of_ne heq] at hd
      exact hindex d heq (h.listed d husers hd)
  writer := fun t t' d d' husers husers' ht ht' => by
    have hold : ∀ {t d}, isUsersSubtreeDN d → db'.Uncommitted t d →
        isUsersSubtreeDN dn → t = v.txID := fun husers hpending hdn => by
      rcases h.synced.sound.uncommitted_pushed hpushed hbelow hpending with ⟨rfl, -⟩ | hold
      · rfl
      · exact (hvisible hdn).eq_of_uncommitted husers hold
    by_cases hdn : isUsersSubtreeDN dn
    · exact (hold husers ht hdn).trans (hold husers' ht' hdn).symm
    · -- the new version is not one of a user
      rcases h.synced.sound.uncommitted_pushed hpushed hbelow ht with ⟨-, rfl⟩ | ht
      · exact absurd husers hdn
      · rcases h.synced.sound.uncommitted_pushed hpushed hbelow ht' with ⟨-, rfl⟩ | ht'
        · exact absurd husers' hdn
        · exact h.writer t t' d d' husers husers' ht ht'
  committed := h.committed
  settled := fun d husers hnone => by
    have hchain := congrFun hpushed.versions d
    by_cases heq : d = dn
    · subst heq
      rw [update_self] at hchain
      exact absurd ⟨v, hchain ▸ mem_cons_self, decide_eq_true ⟨rfl, hpushed.pending⟩⟩ (hnone v.txID)
    · rw [update_of_ne heq] at hchain
      rw [hdirectory, update_of_ne heq]
      refine h.settled d husers fun t ht => hnone t ?_
      unfold Uncommitted at ht ⊢
      rwa [hchain]

lemma put {orders : Orders} {entry : Entry} {read : ObaDB τ} {below : List Version}
    (hread : Reread db read)
    (hput : PutEffect db db' orders tx entry.normalized
      (read.reads tx (normalizeDN entry.dn)).isSome below)
    (hcheck : (db.checkUIDUnique orders tx (normalizeDN entry.dn) entry.attributes).1 = true)
    (hkeeps : db.KeepsUids (.put tx orders entry)) : UserState db' held := by
  obtain ⟨⟨path, hdn⟩, hkeeps⟩ := hkeeps
  rw [← isUsersSubtreeDN_normalizeDN] at hkeeps
  have hactive : db.isActive tx := hput.pushed.active
  have hlocated := h.synced.sound.located
  refine h.pushed hput.pushed (.inr hput.below) (h.synced.put hput hdn)
    (directory_update hdn fun d q hd => hput.newest hlocated hdn hd)
    (fun husers => (hkeeps husers).2.2) (fun husers attributes hmem => ?_) (fun d _ hd => ?_)
    fun husers _ => ?_
  · obtain ⟨hfits, hone, hvisible⟩ := hkeeps husers
    obtain rfl : stored orders entry.normalized = attributes :=
      some.inj hmem
    rw [stored_eq hfits]
    refine ⟨hone,
      h.synced.ownUids hactive hcheck husers hone h.listed (fun d hd hd' => ?_) h.single⟩
    obtain ⟨q, hcanonical⟩ := h.synced.iterate hd
    rw [hvisible.reads h.synced hactive hcanonical hd', db.directory_of_canonical hcanonical]
  · exact hput.iterate_subset hd
  · refine hput.mem_iterate hdn fun hseen => h.listed _ husers ?_
    rwa [db.directory_of_canonical hdn, ← (hkeeps husers).2.2.reads h.synced hactive hdn husers,
      ← h.synced.reads_reread hread hactive hdn]

lemma delete (hdelete : DeleteEffect db db' tx (normalizeDN dn)) {orders : Orders}
    (hkeeps : db.KeepsUids (.delete tx orders dn)) : UserState db' held := by
  obtain ⟨⟨path, hdn⟩, hkeeps⟩ := hkeeps
  rw [← isUsersSubtreeDN_normalizeDN] at hkeeps
  obtain ⟨page, hpushed⟩ := hdelete.pushed
  exact h.pushed hpushed (.inl rfl) (h.synced.delete hdelete hdn)
    (directory_update hdn fun d q hd => hdelete.newest h.synced.sound.located hdn hd) hkeeps
    (fun _ attributes hmem => by cases hmem) (fun d => hdelete.mem_iterate hdn)
    fun _ hsome => by cases hsome

/-- A commit brings all users that are uncommitted into the committed database, or none. -/
lemma commit (trees : IndexTrees τ) (tx : Nat) :
    UserState (db.step trees (.commit tx)) (db.settle held (.commit tx)) := by
  have hdirectory : (db.commit tx).2.directory = db.directory :=
    directory_congr fun d _ _ => by rw [newest_commit]
  have hradix : (db.commit tx).2.radix = db.radix := by
    obtain ⟨active, hcommit, -⟩ := db.commit_eq tx
    rw [hcommit]
  have hsettle : ∀ d, db.settle held (.commit tx) d =
      if (db.store.versions d).any (Version.pendingOf tx) then db.directory d else held d :=
    fun _ => rfl
  have hpending : ∀ d, (db.store.versions d).any (Version.pendingOf tx) ↔ db.Uncommitted tx d :=
    fun d => any_eq_true
  refine {
    synced := h.synced.step trees trivial
    unique := by rw [step, hdirectory]; exact h.unique
    single := by rw [step, hdirectory]; exact h.single
    listed := by rw [step, hdirectory, hradix]; exact h.listed
    writer := fun t t' d d' husers husers' ht ht' =>
      h.writer t t' d d' husers husers' (uncommitted_commit ht).2 (uncommitted_commit ht').2
    committed := ?_
    settled := fun d husers hnone => ?_ }
  · by_cases hwrote : ∃ d, isUsersSubtreeDN d ∧ db.Uncommitted tx d
    · obtain ⟨d, husers, hwrote⟩ := hwrote
      refine h.unique.congr fun d' husers' => ?_
      rw [hsettle]
      split
      · rfl
      next hnot =>
        -- what is not uncommitted for this transaction is not uncommitted at all
        refine h.settled d' husers' fun t ht => ?_
        rw [h.writer t tx d' d husers' husers ht hwrote] at ht
        exact hnot ((hpending d').mpr ht)
    · refine h.committed.congr fun d husers => ?_
      rw [hsettle, if_neg fun hany => hwrote ⟨d, husers, (hpending d).mp hany⟩]
  · rw [step, hdirectory, hsettle]
    split
    · rfl
    next hnot =>
      refine h.settled d husers fun t ht => hnone t ?_
      have hne : t ≠ tx := fun heq => hnot ((hpending d).mpr (heq ▸ ht))
      exact uncommitted_commit_of_ne hne ht

/-- A rollback of a transaction that has not changed users. -/
lemma rollback (hkeeps : ∀ dn, isUsersSubtreeDN dn → ¬ db.Uncommitted tx dn) :
    UserState (db.rollback tx) held := by
  have hnone : ∀ d, isUsersSubtreeDN d → ∀ v ∈ db.store.versions d, v.pendingOf tx = false :=
    fun d husers => not_pendingOf_of_not_uncommitted (hkeeps d husers)
  have hdirectory : ∀ d, isUsersSubtreeDN d → (db.rollback tx).directory d = db.directory d := by
    intro d husers
    unfold directory
    rw [h.synced.sound.newest_rollback (hnone d husers)]
  exact {
    synced := h.synced.rollback tx
    unique := h.unique.congr hdirectory
    single := fun d attributes husers hd =>
      h.single d attributes husers (hdirectory d husers ▸ hd)
    listed := fun d husers hd => h.listed d husers (hdirectory d husers ▸ hd)
    writer := fun t t' d d' husers husers' ht ht' =>
      h.writer t t' d d' husers husers' (h.synced.sound.uncommitted_rollback ht).2
        (h.synced.sound.uncommitted_rollback ht').2
    committed := h.committed
    settled := fun d husers hd => by
      rw [hdirectory d husers]
      refine h.settled d husers fun t ht => hd t ?_
      unfold Uncommitted at ht ⊢
      rwa [h.synced.sound.versions_rollback (hnone d husers)] }

lemma step (trees : IndexTrees τ) (hkeeps : db.KeepsUids c) :
    UserState (db.step trees c) (db.settle held c) := by
  have heffect := step_effect trees h.synced.sound.located c
  cases c with
  | begin => exact h.begin
  | get tx dn => exact h.reread (db.reread_get tx dn)
  | searchByDN tx baseDN scope => exact h.reread (db.reread_searchByDN tx baseDN scope)
  | searchByFilter tx baseDN accepts => exact h.reread (db.reread_searchByFilter tx baseDN accepts)
  | put tx orders entry =>
    rcases db.put_reread_or_putVersion trees orders tx entry with ⟨_, -, hread⟩ | ⟨_, -, hcheck, -⟩
    · exact h.reread hread
    · cases heffect with
      | reread _ hread => exact h.reread hread
      | put hread hput => exact h.put hread hput hcheck hkeeps
  | delete tx orders dn =>
    cases heffect with
    | reread _ hread => exact h.reread hread
    | delete _ hdelete => exact h.delete hdelete hkeeps
  | commit tx => exact h.commit trees tx
  | rollback tx => exact h.rollback hkeeps

end

end UserState

/-- An opened database whose users have one uid each, all different, and are in the index. -/
structure UsersInOrder (db : ObaDB τ) : Prop where
  opened : db.Opened
  paths : ∀ p ∈ db.radix.paths, Canonical (joinDNReverse p.1) p.1
  unique : UidsUnique db.directory
  single : ∀ dn attributes, isUsersSubtreeDN dn → db.directory dn = some attributes →
    OneUid attributes
  listed : ∀ dn, isUsersSubtreeDN dn → (db.directory dn).isSome → dn ∈ db.radix.iterate

lemma UsersInOrder.userState (h : db.UsersInOrder) : UserState db db.directory where
  synced := h.opened.synced h.paths
  unique := h.unique
  single := h.single
  listed := h.listed
  writer := fun tx _ dn _ _ _ huncommitted _ => absurd huncommitted (h.opened.not_uncommitted tx dn)
  committed := h.unique
  settled := fun _ _ _ => rfl

variable {trees : IndexTrees τ} {start : ObaDB τ} {calls : List Call}

lemma UsersInOrder.run {final : ObaDB τ} (hstart : start.UsersInOrder)
    (hrun : Runs trees KeepsUids start calls final) :
    calls.foldl (stepHeld trees) (start, start.directory) =
        (final, committed trees start calls) ∧
      UserState final (committed trees start calls) := by
  induction hrun with
  | nil => exact ⟨rfl, hstart.userState⟩
  | @snoc calls db next c _ hkeeps hnext ih =>
    obtain ⟨hfold, hstate⟩ := ih
    cases hnext
    have hlast : (calls ++ [c]).foldl (stepHeld trees) (start, start.directory) =
        (db.step trees c, db.settle (committed trees start calls) c) := by
      rw [foldl_append, hfold]
      rfl
    have hsettle : committed trees start (calls ++ [c]) =
        db.settle (committed trees start calls) c := congrArg Prod.snd hlast
    rw [hsettle]
    exact ⟨hlast, hstate.step trees hkeeps⟩

lemma usersInOrder_new (t : τ) : (new t).UsersInOrder := by
  refine ⟨opened_new t, fun _ hp => absurd hp not_mem_nil, ?_, ?_, ?_⟩
  · intro dn _ _ _ _ _ hdn
    rw [directory_new] at hdn
    cases hdn
  · intro dn _ _ hdn
    rw [directory_new] at hdn
    cases hdn
  · intro dn _ hdn
    rw [directory_new] at hdn
    cases hdn

/-- A transaction that runs alone, and whose number the clock has not passed, sees all users. -/
lemma usersVisible_of_alone {ok : ObaDB τ → Call → Prop} (hopened : start.Opened)
    (hrun : Runs trees ok start calls db) (halone : db.active.map Prod.fst = [tx])
    (hclock : max 1 db.currentTS ≤ tx) : db.UsersVisible tx := by
  have hstate : db.Sound ∧ db.Dated := by
    refine hrun.invariant (fun db => db.Sound ∧ db.Dated) ⟨hopened.sound, hopened.dated⟩ ?_
    intro db c next hstate _ hnext
    cases hnext
    exact ⟨hstate.1.step trees c, hstate.2.step hstate.1 trees c⟩
  intro dn _ v hv
  unfold Version.isVisibleTo
  split
  next hzero =>
    have hactive := AssocList.lookup_isSome_iff.mp (hstate.1.pending dn v hv hzero).1
    rw [halone] at hactive
    exact decide_eq_true (mem_singleton.mp hactive)
  · exact decide_eq_true ((hstate.2.chains dn v hv).trans hclock)

/-- A transaction of one call that runs alone. -/
lemma runs_alone (hopened : start.Opened) (hrun : Runs trees KeepsUids start calls db)
    (halone : db.begin.2.active.map Prod.fst = [tx]) (hclock : max 1 db.currentTS ≤ tx)
    (hcall : db.begin.2.UsersVisible tx → db.begin.2.KeepsUids c) :
    Runs trees KeepsUids start (calls ++ [.begin, c, .commit tx])
      (db.exec trees [.begin, c, .commit tx]) := by
  have hbegun : Runs trees KeepsUids start (calls ++ [.begin]) db.begin.2 :=
    .snoc hrun trivial rfl
  have hcalled : Runs trees KeepsUids start (calls ++ [.begin] ++ [c]) (db.begin.2.step trees c) :=
    .snoc hbegun (hcall (usersVisible_of_alone hopened hbegun halone hclock)) rfl
  have hcommitted : Runs trees KeepsUids start (calls ++ [.begin] ++ [c] ++ [.commit tx])
      ((db.begin.2.step trees c).commit tx).2 := .snoc hcalled trivial rfl
  rw [append_assoc, append_assoc] at hcommitted
  exact hcommitted

def aliceDN : Bytes := ascii "cn=a,ou=users,dc=x"

def bobDN : Bytes := ascii "cn=b,ou=users,dc=x"

/-- A put of an entry with uids. -/
def putUser (tx : Nat) (dn : Bytes) (uids : List String) : Call :=
  .put tx (fun _ => .ascending) ⟨dn, (∅ : Attributes).insert (ascii "uid") (uids.map ascii)⟩

/-- Two users are changed by two transactions at the same time, and both are given the uid `c`. -/
def changedTogether : List Call :=
  [.begin, putUser 1 aliceDN ["a"], putUser 1 bobDN ["b"], .commit 1, .begin, .begin,
    putUser 2 aliceDN ["c"], putUser 3 bobDN ["C"], .commit 2, .commit 3]

/-- The second uid of a user is given to another one. -/
def secondUid : List Call :=
  [.begin, putUser 1 aliceDN ["a", "b"], putUser 1 bobDN ["b"], .commit 1]

/-- Two users are put by two transactions, one after the other. -/
def usersInTurn : List Call :=
  [.begin, putUser 1 aliceDN ["a"], .commit 1] ++ [.begin, putUser 2 bobDN [" B "], .commit 2]

lemma runs_usersInTurn : ∃ final, Runs .empty KeepsUids (new ()) usersInTurn final := by
  have hfirst := runs_alone (c := putUser 1 aliceDN ["a"]) (opened_new ())
    (.nil : Runs .empty KeepsUids (new ()) [] (new ())) (by decide) (Nat.le_refl 1)
    fun hvisible => ⟨by decide +kernel, fun _ => ⟨by decide +kernel, by decide +kernel, hvisible⟩⟩
  exact ⟨_, runs_alone (opened_new ()) hfirst (by decide +kernel) (by decide +kernel)
    fun hvisible => ⟨by decide +kernel, fun _ => ⟨by decide +kernel, by decide +kernel, hvisible⟩⟩⟩

end ObaDB

end Oba.Storage
