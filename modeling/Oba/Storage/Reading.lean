import Oba.Storage.Calls

/-! # What a transaction reads

If DNs are written as the index lists them, the cache never decides what an active transaction
reads: it reads the newest version on the chain that is visible to it, or else the page that the
index names. What a call of another transaction does to that is said call by call.
-/

namespace Oba.Storage

open List Option
open Function (update_of_ne update_self)

variable {v : Version}

lemma Version.isVisibleTo_of_pending {u : Nat} (hzero : v.commitTS = 0) (hne : v.txID ≠ u) :
    v.isVisibleTo u u = false := by
  rw [isVisibleTo, if_pos hzero]
  exact decide_eq_false hne

lemma Version.not_pendingOf_of_visible {u tx : Nat} (hvisible : v.isVisibleTo u u = true)
    (hne : tx ≠ u) : v.pendingOf tx = false := by
  apply decide_eq_false
  rintro ⟨htx, hzero⟩
  rw [isVisibleTo_of_pending hzero (htx ▸ hne)] at hvisible
  cases hvisible

/-- The call writes DNs as the index lists them. -/
def Call.Named : Call → Prop
  | put _ _ entry => ∃ path, Canonical (normalizeDN entry.dn) path
  | delete _ _ dn => ∃ path, Canonical (normalizeDN dn) path
  | _ => True

instance (c : Call) : Decidable c.Named := by
  cases c <;> unfold Call.Named <;> infer_instance

namespace ObaDB

variable {τ : Type} {db db' : ObaDB τ} {tx u : Nat} {dn d : Bytes} {path q : List Bytes} {c : Call}
  {active : List (Nat × List Nat)}

/-! ## The disk loader -/

lemma diskLoader_eq_of_lookup (hlocated : db.Located)
    (hlookup : db'.radix.lookup dn = db.radix.lookup dn)
    (hpages : ∀ page < db.nextPage, db'.pages page = db.pages page) :
    db'.diskLoader dn = db.diskLoader dn := by
  unfold diskLoader
  rw [hlookup]
  split
  · rfl
  · rfl
  next page hpage =>
    have hlt : page + 1 < db.nextPage := by
      unfold RadixTree.lookup at hpage
      split at hpage
      · cases hpage
      · exact hlocated _ (AssocList.mem_of_lookup hpage)
    rw [hpages _ hlt]

section

variable {tree tree' : RadixTree}
  (h : tree'.paths.filter (·.1 ≠ path) = tree.paths.filter (·.1 ≠ path))
include h

/-- Trees that differ at one path only find the same at the others. -/
lemma lookupPath_eq_of_erase (hq : q ≠ path) : tree'.lookupPath q = tree.lookupPath q := by
  rw [RadixTree.lookupPath, RadixTree.lookupPath, ← AssocList.lookup_erase_of_ne tree.paths hq, ← h,
    AssocList.lookup_erase_of_ne _ hq]

lemma lookup_eq_of_erase (hdn : Canonical dn path) (hd : Canonical d q) (hne : d ≠ dn) :
    tree'.lookup d = tree.lookup d := by
  rw [RadixTree.lookup, RadixTree.lookup, hd.parsed]
  exact lookupPath_eq_of_erase h (hdn.path_ne hd hne)

end

section Put

variable {orders : Orders} {entry : Entry} {seen : Bool} {below : List Version}

section

variable (h : PutEffect db db' orders tx entry seen below)
include h

lemma PutEffect.pages_of_lt : ∀ page < db.nextPage, db'.pages page = db.pages page := by
  intro page hpage
  rw [h.pages]
  split
  · exact update_of_ne hpage.ne ..
  · rfl

/-- Other DNs keep their location. -/
lemma PutEffect.diskLoader_of_ne (hlocated : db.Located) (hdn : Canonical entry.dn path)
    (hd : Canonical d q) (hne : d ≠ entry.dn) : db'.diskLoader d = db.diskLoader d := by
  refine diskLoader_eq_of_lookup hlocated ?_ h.pages_of_lt
  rcases h.radix_cases with hsame | ⟨-, path', hpath', -, hnew⟩
  · rw [hsame]
  · cases hdn.parsed.symm.trans hpath'
    exact lookup_eq_of_erase (by simp [hnew]) hdn hd hne

/-- The DN of the put keeps its location, or it is new and has nothing but the page of the
entry. -/
lemma PutEffect.diskLoader_self (hsound : db.Sound) :
    db'.diskLoader entry.dn = db.diskLoader entry.dn ∨
      seen = false ∧ db.radix.lookup entry.dn = none ∧
        (written orders entry = none → db'.diskLoader entry.dn = none) := by
  rcases h.radix_cases with hsame | ⟨hseen, path, hpath, hnone, hnew⟩
  · exact .inl (diskLoader_eq_of_lookup hsound.located (by rw [hsame]) h.pages_of_lt)
  · refine .inr ⟨hseen, by rw [RadixTree.lookup, hpath]; exact hnone, fun hwritten => ?_⟩
    have hlocation : db'.radix.lookup entry.dn = some db.nextPage := by
      rw [RadixTree.lookup, hpath, hnew]
      dsimp only [RadixTree.lookupPath] at hnone ⊢
      rw [lookup_append, hnone, lookup_cons_self]
      rfl
    have hpage : db'.pages db.nextPage = none := by
      rw [h.pages, hwritten]
      exact hsound.blank _ (le_rfl)
    rw [diskLoader, hlocation]
    split
    · rfl
    · rfl
    next page heq =>
      have hnumber : db.nextPage = page + 1 := some.inj heq
      rw [← hnumber, hpage]
      rfl

end

end Put

lemma DeleteEffect.diskLoader_of_ne (h : DeleteEffect db db' tx dn) (hlocated : db.Located)
    (hdn : Canonical dn path) (hd : Canonical d q) (hne : d ≠ dn) :
    db'.diskLoader d = db.diskLoader d := by
  refine diskLoader_eq_of_lookup hlocated ?_ fun page _ => by rw [h.pages]
  rcases h.radix_cases with ⟨hsame, -⟩ | ⟨path', hpath', hfilter⟩
  · rw [hsame]
  · cases hdn.parsed.symm.trans hpath'
    exact lookup_eq_of_erase (by simp [hfilter]) hdn hd hne

/-- The disk has nothing for a DN that was deleted. -/
lemma DeleteEffect.diskLoader_self (h : DeleteEffect db db' tx dn) :
    db'.diskLoader dn = none := by
  have hlookup : db'.radix.lookup dn = none := by
    rcases h.radix_cases with ⟨hsame, hnone⟩ | ⟨path, hpath, hfilter⟩
    · rw [hsame, hnone]
    · rw [hfilter, RadixTree.lookup, hpath]
      exact AssocList.lookup_erase_self _ path
  rw [diskLoader, hlookup]

/-! ## Chains and pages decide -/

/-- What is read without the cache. -/
def sees (db : ObaDB τ) (u : Nat) (dn : Bytes) : Option Attributes :=
  match (db.store.versions dn).find? (·.isVisibleTo u u) with
  | some v => v.live
  | none => (db.diskLoader dn).map Version.data

/-- A transaction that has not ended, or that has not begun yet. -/
def Reader (db : ObaDB τ) (u : Nat) : Prop := db.isActive u ∨ db.nextTxID ≤ u

/-- The index lists its DNs as they are written. A cached version is on the chain or on the
disk, or it was rolled back. -/
structure Synced (db : ObaDB τ) : Prop where
  sound : db.Sound
  paths : ∀ p ∈ db.radix.paths, Canonical (joinDNReverse p.1) p.1
  cached : ∀ dn path, Canonical dn path → ∀ v, db.store.cache.lookup dn = some v →
    v ∈ db.store.versions dn ∨ db.diskLoader dn = some v ∨ v.commitTS = 0 ∧ ¬ db.isActive v.txID

lemma Reader.pos (hu : db.Reader u) (hsound : db.Sound) : 0 < u :=
  hu.elim (fun hactive => (hsound.active u hactive).1) hsound.begun.trans_le

/-- Only its own commit or rollback ends a transaction. -/
lemma Reader.step (hu : db.Reader u) (hlocated : db.Located) (trees : IndexTrees τ)
    (hc : c.writer ≠ some u) : (db.step trees c).Reader u := by
  have heffect := step_effect trees hlocated c
  generalize db.step trees c = db' at heffect
  have hne : ∀ {tx}, c.writer = some tx → u ≠ tx := fun hwriter heq => hc (heq ▸ hwriter)
  unfold Reader at hu ⊢
  cases heffect with
  | begin =>
    rw [isActive_begin]
    by_cases heq : u = db.nextTxID
    · exact .inl (.inl heq)
    · exact hu.imp .inr fun hle => Nat.lt_of_le_of_ne hle (Ne.symm heq)
  | reread _ hread =>
    rw [hread.isActive, hread.nextTxID]
    exact hu
  | put _ hput =>
    rw [hput.pushed.isActive, hput.pushed.nextTxID]
    exact hu
  | delete _ hdelete =>
    obtain ⟨page, hpushed⟩ := hdelete.pushed
    rw [hpushed.isActive, hpushed.nextTxID]
    exact hu
  | commit hactive =>
    refine hu.imp_left fun hold => ?_
    rcases hactive with rfl | rfl
    · exact hold
    · exact (isActive_filter db.active _ u).mpr ⟨hold, hne rfl⟩
  | rollback =>
    exact hu.imp_left fun hold => (isActive_filter db.active _ u).mpr ⟨hold, hne rfl⟩

/-- Every reader sees the disk. -/
lemma diskLoader_visible (h : db.diskLoader dn = some v) (hpos : 0 < u) :
    v.isVisibleTo u u = true ∧ v.live = some v.data := by
  obtain ⟨-, hts, hlive⟩ := diskLoader_version h
  rw [Version.isVisibleTo, hts, Version.live, hlive]
  exact ⟨decide_eq_true hpos, rfl⟩

lemma bind_live_diskLoader (hpos : 0 < u) :
    ((db.diskLoader dn).filter (·.isVisibleTo u u)).bind Version.live =
      (db.diskLoader dn).map Version.data := by
  cases hload : db.diskLoader dn with
  | none => rfl
  | some v =>
    obtain ⟨hvisible, hlive⟩ := diskLoader_visible hload hpos
    rw [Option.filter, if_pos hvisible]
    exact hlive

namespace Synced

section

variable (h : db.Synced)
include h

/-- The cache does not decide what is read. -/
lemma reads_eq_sees (hu : db.Reader u) (hdn : Canonical dn path) :
    db.reads u dn = db.sees u dn := by
  have hpos := hu.pos h.sound
  rw [reads_eq, sees]
  cases hfind : (db.store.versions dn).find? (·.isVisibleTo u u) with
  | some v => rfl
  | none =>
    rw [← bind_live_diskLoader hpos]
    cases hcached : db.store.cache.lookup dn with
    | none => rfl
    | some v =>
      cases hvisible : v.isVisibleTo u u with
      | false => simp [Option.filter, hvisible]
      | true =>
        rcases h.cached dn path hdn v hcached with hmem | hload | ⟨hzero, hended⟩
        · exact absurd hvisible (by simpa using find?_eq_none.mp hfind v hmem)
        · rw [hload]
          simp [Option.filter, hvisible]
        · -- a version that was rolled back is one of a transaction that has ended
          exfalso
          have htx : v.txID = u := by
            by_contra hne
            rw [Version.isVisibleTo_of_pending hzero hne] at hvisible
            cases hvisible
          have hold := (h.sound.cached dn v hcached).1
          rcases hu with hactive | hlater
          · exact hended (htx ▸ hactive)
          · omega

lemma reread (hread : Reread db db') : db'.Synced := by
  have hsound := h.sound.reread hread
  have hcache := hread.recached.cache
  rw [hread.eq] at hsound ⊢
  refine ⟨hsound, h.paths, fun dn path hdn v hv => ?_⟩
  exact (hcache dn v hv).elim (h.cached dn path hdn v) fun hload => .inr (.inl hload)

/-- A version on the chain of a DN leaves the other DNs alone. -/
lemma cached_pushed {below : List Version} (hpushed : Pushed db db' dn v below)
    (hload : ∀ other q, Canonical other q → other ≠ dn →
      db'.diskLoader other = db.diskLoader other) :
    ∀ other q, Canonical other q → ∀ w, db'.store.cache.lookup other = some w →
      w ∈ db'.store.versions other ∨ db'.diskLoader other = some w ∨
        w.commitTS = 0 ∧ ¬ db'.isActive w.txID := by
  intro other q hother w hw
  rw [hpushed.versions, hpushed.isActive]
  rcases hpushed.lookup_cache hw with ⟨rfl, rfl⟩ | ⟨hne, hcache⟩
  · exact .inl (by rw [update_self]; exact mem_cons_self)
  · rw [update_of_ne hne, hload other q hother hne]
    exact hcache.elim (h.cached other q hother w) fun hdisk => .inr (.inl hdisk)

lemma put {orders : Orders} {entry : Entry} {seen : Bool} {below : List Version}
    (hput : PutEffect db db' orders tx entry seen below) (hdn : Canonical entry.dn path) :
    db'.Synced where
  sound := h.sound.put hput
  paths := fun p hp => by
    rcases hput.radix_cases with hsame | ⟨-, path', hpath', -, hnew⟩
    · exact h.paths p (hsame ▸ hp)
    · rw [hnew] at hp
      rcases mem_append.mp hp with hold | hlast
      · exact h.paths p hold
      · cases hdn.parsed.symm.trans hpath'
        rw [mem_singleton.mp hlast, hdn.joined]
        exact hdn
  cached := h.cached_pushed hput.pushed fun _ _ hother hne =>
    hput.diskLoader_of_ne h.sound.located hdn hother hne

lemma delete (hdelete : DeleteEffect db db' tx dn) (hdn : Canonical dn path) : db'.Synced where
  sound := h.sound.delete hdelete
  paths := fun p hp => by
    rcases hdelete.radix_cases with ⟨hsame, -⟩ | ⟨_, -, hfilter⟩
    · exact h.paths p (hsame ▸ hp)
    · rw [hfilter] at hp
      exact h.paths p (mem_of_mem_filter hp)
  cached := by
    obtain ⟨page, hpushed⟩ := hdelete.pushed
    exact h.cached_pushed hpushed fun _ _ hother hne =>
      hdelete.diskLoader_of_ne h.sound.located hdn hother hne

lemma begin : db.begin.2.Synced where
  sound := h.sound.begin
  paths := h.paths
  cached := fun dn path hdn v hv => by
    rcases h.cached dn path hdn v hv with hmem | hload | ⟨hzero, hended⟩
    · exact .inl hmem
    · exact .inr (.inl hload)
    · refine .inr (.inr ⟨hzero, fun hactive => hended ?_⟩)
      have hne : v.txID ≠ db.nextTxID := Nat.ne_of_lt (h.sound.cached dn v hv).1
      unfold isActive ObaDB.begin at hactive
      rwa [lookup_cons, beq_false_of_ne hne] at hactive

lemma commit (hactive : active = db.active ∨ active = db.active.filter (·.1 ≠ tx)) :
    Synced (db.committing tx active) where
  sound := h.sound.commit hactive
  paths := h.paths
  cached := fun dn path hdn v hv => by
    rw [VersionStore.lookup_commitVersion] at hv
    obtain ⟨w, hw, hvw⟩ := map_eq_some_iff.mp hv
    have hsame : w.pendingOf tx = false → v = w := by
      intro hpending
      rw [← hvw, Version.commit_of_not_pending hpending, ite_self]
    rcases h.cached dn path hdn w hw with hmem | hload | ⟨hzero, hended⟩
    · refine .inl (mem_map.mpr ⟨w, hmem, ?_⟩)
      cases hpending : w.pendingOf tx with
      | false =>
        rw [hsame hpending, Version.commit_of_not_pending hpending]
      | true =>
        rw [← hvw, if_pos (any_eq_true.mpr ⟨w, hmem, hpending⟩)]
    · obtain ⟨-, hts, -⟩ := diskLoader_version hload
      have hpending : w.pendingOf tx = false := decide_eq_false fun hp => by omega
      exact .inr (.inl (hsame hpending ▸ hload))
    · -- nothing of an ended transaction is left on the chain
      have hstays : v = w := by
        by_cases htx : w.txID = tx
        · rw [← hvw, if_neg]
          intro hany
          obtain ⟨x, hx, hpending⟩ := any_eq_true.mp hany
          obtain ⟨hxtx, hxzero⟩ := of_decide_eq_true hpending
          have hxactive := (h.sound.pending dn x hx hxzero).1
          exact hended (by rwa [htx, ← hxtx])
        · exact hsame (decide_eq_false fun hp => htx hp.1)
      rw [hstays]
      refine .inr (.inr ⟨hzero, fun hstill => hended ?_⟩)
      rcases hactive with rfl | rfl
      · exact hstill
      · exact ((isActive_filter db.active tx w.txID).mp hstill).1

lemma rollback (tx : Nat) : (db.rollback tx).Synced where
  sound := h.sound.rollback tx
  paths := h.paths
  cached := fun dn path hdn v hv => by
    have hchain : (db.rollback tx).store.versions dn =
        (db.store.versions dn).filter fun v => !v.pendingOf tx := h.sound.rolledBack_eq tx dn
    have hactive := isActive_filter db.active tx v.txID
    rcases h.cached dn path hdn v (VersionStore.lookup_rollbackVersion.mp hv).2 with
      hmem | hload | ⟨hzero, hended⟩
    · cases hpending : v.pendingOf tx with
      | false =>
        rw [hchain]
        exact .inl (mem_filter.mpr ⟨hmem, by simp [hpending]⟩)
      | true =>
        obtain ⟨htx, hzero⟩ := of_decide_eq_true hpending
        exact .inr (.inr ⟨hzero, fun hstill => (hactive.mp hstill).2 htx⟩)
    · exact .inr (.inl hload)
    · exact .inr (.inr ⟨hzero, fun hstill => hended (hactive.mp hstill).1⟩)

lemma step (trees : IndexTrees τ) (hc : c.Named) : (db.step trees c).Synced := by
  have heffect := step_effect trees h.sound.located c
  generalize db.step trees c = db' at heffect
  cases heffect with
  | begin => exact h.begin
  | reread _ hread => exact h.reread hread
  | put _ hput => exact hc.elim fun _ hdn => h.put hput hdn
  | delete _ hdelete => exact hc.elim fun _ hdn => h.delete hdelete hdn
  | commit hactive => exact h.commit hactive
  | rollback => exact h.rollback _

end

end Synced

lemma Opened.synced (h : db.Opened)
    (hpaths : ∀ p ∈ db.radix.paths, Canonical (joinDNReverse p.1) p.1) : db.Synced where
  sound := h.sound
  paths := hpaths
  cached := fun dn _ _ v hv => by
    rw [h.cache] at hv
    cases hv

/-! ## What calls of others do to it -/

lemma sees_reread (hread : Reread db db') (u : Nat) (dn : Bytes) :
    db'.sees u dn = db.sees u dn := by
  unfold sees
  rw [hread.recached.versions, hread.diskLoader]

/-- A reader does not see an uncommitted version of another transaction. -/
lemma find?_pushed {below : List Version} (hpushed : Pushed db db' dn v below)
    (hne : v.txID ≠ u) :
    (db'.store.versions dn).find? (·.isVisibleTo u u) = below.find? (·.isVisibleTo u u) := by
  have hhidden : ¬ v.isVisibleTo u u = true := by
    rw [Version.isVisibleTo_of_pending hpushed.pending hne]
    exact Bool.false_ne_true
  rw [hpushed.versions, update_self,
    find?_cons_of_neg (p := fun w : Version => w.isVisibleTo u u) hhidden]

namespace Synced

section Put

variable {orders : Orders} {entry : Entry} {seen : Bool} {below : List Version}

section

variable (h : db.Synced) (hput : PutEffect db db' orders tx entry seen below)
include h hput

/-- Where there is no chain, a put finds what is on the disk. -/
lemma find?_put (hdn : Canonical entry.dn path) (hne : tx ≠ u) (hpos : 0 < u) :
    (db'.store.versions entry.dn).find? (·.isVisibleTo u u) =
      ((db.store.versions entry.dn).find? (·.isVisibleTo u u)).or
        (if db.store.versions entry.dn = [] then db.diskLoader entry.dn else none) := by
  rw [find?_pushed hput.pushed hne]
  -- a cached version of a DN without a chain is the one on the disk
  have hbelow : db.store.versions entry.dn ≠ [] ∧ below = db.store.versions entry.dn ∨
      db.store.versions entry.dn = [] ∧ below = (db.diskLoader entry.dn).toList := by
    rcases hput.below with hchain | ⟨hnil, ⟨w, hcached, rfl⟩ | hload⟩
    · exact .inl hchain
    · refine .inr ⟨hnil, ?_⟩
      rcases h.cached entry.dn path hdn w hcached with hmem | hload | ⟨hzero, -⟩
      · rw [hnil] at hmem
        exact absurd hmem not_mem_nil
      · rw [hload]
        rfl
      · exact absurd hnil ((h.sound.cached entry.dn w hcached).2 hzero)
    · exact .inr ⟨hnil, hload⟩
  rcases hbelow with ⟨hnil, hchain⟩ | ⟨hnil, hload⟩
  · rw [hchain, if_neg hnil, or_none]
  · rw [hload, hnil]
    cases hdisk : db.diskLoader entry.dn with
    | none => rfl
    | some v => exact find?_cons_of_pos (diskLoader_visible hdisk hpos).1

/-- The disk has the same for the DN of a put, or nothing as before. -/
lemma diskLoader_put
    (hsafe : seen = true ∨ (db.radix.lookup entry.dn).isSome ∨ written orders entry = none) :
    db'.diskLoader entry.dn = db.diskLoader entry.dn := by
  rcases hput.diskLoader_self h.sound with hsame | ⟨hseen, hlookup, hnone⟩
  · exact hsame
  · rw [hseen, hlookup] at hsafe
    have hwritten := (hsafe.resolve_left Bool.false_ne_true).resolve_left Bool.false_ne_true
    rw [hnone hwritten, diskLoader, hlookup]

/-- A put that creates nothing on the disk, or nothing that the reader would look for there. -/
lemma sees_put (hdn : Canonical entry.dn path) (hd : Canonical d q) (hne : tx ≠ u) (hpos : 0 < u)
    (hsafe : d = entry.dn → seen = true ∨ (db.radix.lookup d).isSome ∨
      ((db.store.versions d).find? (·.isVisibleTo u u)).isSome ∨ written orders entry = none) :
    db'.sees u d = db.sees u d := by
  by_cases heq : d = entry.dn
  · subst heq
    unfold sees
    rw [h.find?_put hput hdn hne hpos]
    cases hfind : (db.store.versions entry.dn).find? (·.isVisibleTo u u) with
    | some v => rfl
    | none =>
      have hload := h.diskLoader_put hput (by simpa [hfind] using hsafe rfl)
      rw [none_or, hload]
      split
      next v hv =>
        split at hv
        · rw [hv]
          exact (diskLoader_visible hv hpos).2
        · cases hv
      · rfl
  · unfold sees
    rw [hput.diskLoader_of_ne h.sound.located hdn hd heq, hput.pushed.versions,
      update_of_ne heq]

end

end Put

/-- A delete of a DN at which the reader reads nothing, or has a version to read. -/
lemma sees_delete (h : db.Synced) (hdelete : DeleteEffect db db' tx dn)
    (hdn : Canonical dn path) (hd : Canonical d q) (hne : tx ≠ u)
    (hsafe : d = dn → ((db.store.versions d).find? (·.isVisibleTo u u)).isSome ∨
      db.sees u d = none) : db'.sees u d = db.sees u d := by
  obtain ⟨page, hpushed⟩ := hdelete.pushed
  by_cases heq : d = dn
  · subst heq
    unfold sees at hsafe ⊢
    rw [find?_pushed hpushed hne, hdelete.diskLoader_self]
    cases hfind : (db.store.versions d).find? (·.isVisibleTo u u) with
    | some v => rfl
    | none =>
      simp only [hfind, isSome_none, Bool.false_eq_true, false_or] at hsafe
      exact (hsafe trivial).symm
  · unfold sees
    rw [hdelete.diskLoader_of_ne h.sound.located hdn hd heq, hpushed.versions,
      update_of_ne heq]

end Synced

lemma Sound.sees_rollback (h : db.Sound) (hne : tx ≠ u) (dn : Bytes) :
    (db.rollback tx).sees u dn = db.sees u dn := by
  have hchain : (db.rollback tx).store.versions dn =
      (db.store.versions dn).filter fun v => !v.pendingOf tx := h.rolledBack_eq tx dn
  have hfind : ((db.rollback tx).store.versions dn).find? (·.isVisibleTo u u) =
      (db.store.versions dn).find? (·.isVisibleTo u u) := by
    rw [hchain, find?_filter]
    congr 1
    funext v
    cases hvisible : v.isVisibleTo u u with
    | false => simp
    | true => simp [Version.not_pendingOf_of_visible hvisible hne]
  unfold sees
  rw [hfind]
  rfl

/-- A commit at a timestamp behind the snapshot of the reader, or of nothing at the DN. -/
lemma sees_commit (hne : tx ≠ u)
    (hsafe : (∀ v ∈ db.store.versions dn, v.pendingOf tx = false) ∨ u ≤ db.currentTS) :
    sees (db.committing tx active) u dn = db.sees u dn := by
  have hfind : ((db.store.commitVersion tx (db.currentTS + 1)).versions dn).find?
      (·.isVisibleTo u u) = (db.store.versions dn).find? (·.isVisibleTo u u) := by
    dsimp only [VersionStore.commitVersion]
    generalize db.store.versions dn = chain at hsafe ⊢
    induction chain with
    | nil => rfl
    | cons v rest ih =>
      have hrest := ih (hsafe.imp_left fun hnone w hw => hnone w (mem_cons_of_mem v hw))
      rw [map_cons]
      cases hpending : v.pendingOf tx with
      | false =>
        rw [Version.commit_of_not_pending hpending, find?_cons, find?_cons, hrest]
      | true =>
        -- the version is seen neither before nor after
        obtain ⟨htx, hzero⟩ := of_decide_eq_true hpending
        have hlater : u ≤ db.currentTS := hsafe.resolve_left fun hnone => by
          rw [hnone v mem_cons_self] at hpending
          cases hpending
        have hbefore := Version.isVisibleTo_of_pending hzero (htx ▸ hne)
        have hafter : (v.commit tx (db.currentTS + 1)).isVisibleTo u u = false := by
          rw [Version.commit, if_pos hpending]
          exact decide_eq_false (not_le.mpr (Nat.lt_succ_of_le hlater))
        rw [find?_cons, find?_cons, hbefore, hafter]
        exact hrest
  unfold sees
  rw [hfind]
  rfl

end ObaDB

end Oba.Storage
