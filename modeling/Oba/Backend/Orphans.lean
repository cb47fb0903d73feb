import Oba.Backend.Adds

/-! # The tree of entries

An add looks for the parent, if at all, and a delete looks for children, before the write and
outside its transaction. If the parent is there when an add writes, and nothing lies below when a
delete writes, no entry remains below a DN that was deleted.
-/

namespace Oba.Backend

open Storage ObaDB List
open Function (update update_of_ne update_self)

/-- The directory has an entry at the path. -/
def HasEntry (directory : Bytes → Option Attributes) (path : List Bytes) : Prop :=
  ∃ dn, Canonical dn path ∧ (directory dn).isSome

/-- An entry below the path, at any depth. -/
def Below (path below : List Bytes) : Prop := path <+: below ∧ below ≠ path

/-- The entry at a path may be there: it is the root of a suffix or has no components above it,
or its parent is there. -/
def Supported (roots : List (List Bytes)) (directory : Bytes → Option Attributes)
    (path : List Bytes) : Prop :=
  path ∈ roots ∨ path.dropLast = [] ∨ HasEntry directory path.dropLast

/-- Every entry has its parent. -/
def Tree (roots : List (List Bytes)) (directory : Bytes → Option Attributes) : Prop :=
  ∀ path, HasEntry directory path → Supported roots directory path

/-- An add finds the parent, and a delete finds nothing below. -/
structure KeepsTree {ι : Type} (inv : ι → Invocation) (roots : List (List Bytes))
    (directory : Bytes → Option Attributes) (m : Made ι) : Prop where
  add : ∀ path, Canonical m.call.dn path → (inv m.client).request.isAdd →
    Supported roots directory path
  delete : ∀ path, Canonical m.call.dn path → (inv m.client).request.isDelete →
    ∀ below, Below path below → ¬ HasEntry directory below ∧ below ∉ roots

section

variable {directory : Bytes → Option Attributes} {roots : List (List Bytes)} {dn : Bytes}
  {path q : List Bytes} {value : Option Attributes}

lemma path_ne_nil (h : Canonical dn path) : path ≠ [] := by
  rintro rfl
  exact h.ne_nil h.joined.symm

/-- A write concerns only the path of its DN. -/
lemma hasEntry_update_of_not (hother : ¬ Canonical dn q) :
    HasEntry (update directory dn value) q ↔ HasEntry directory q := by
  have hsame : ∀ d, Canonical d q → update directory dn value d = directory d := by
    intro d hd
    refine update_of_ne ?_ _ _
    rintro rfl
    exact hother hd
  constructor
  · rintro ⟨d, hd, hsome⟩
    exact ⟨d, hd, hsame d hd ▸ hsome⟩
  · rintro ⟨d, hd, hsome⟩
    exact ⟨d, hd, (hsame d hd).symm ▸ hsome⟩

lemma hasEntry_update_self (hdn : Canonical dn path) :
    HasEntry (update directory dn value) path ↔ value.isSome := by
  constructor
  · rintro ⟨d, hd, hsome⟩
    obtain rfl : d = dn := hd.joined.symm.trans hdn.joined
    rwa [update_self] at hsome
  · intro hsome
    exact ⟨dn, hdn, by rwa [update_self]⟩

lemma Supported.mono {directory' : Bytes → Option Attributes} (h : Supported roots directory path)
    (hmono : HasEntry directory path.dropLast → HasEntry directory' path.dropLast) :
    Supported roots directory' path := h.imp_right fun h => h.imp_right hmono

/-- An entry that finds its parent. -/
lemma Tree.put (h : Tree roots directory) (hvalue : value.isSome)
    (hsupported : ∀ path, Canonical dn path → Supported roots directory path) :
    Tree roots (update directory dn value) := by
  have hmono : ∀ q, HasEntry directory q → HasEntry (update directory dn value) q := by
    intro q hq
    by_cases hdn : Canonical dn q
    · exact (hasEntry_update_self hdn).mpr hvalue
    · exact (hasEntry_update_of_not hdn).mpr hq
  intro q hq
  by_cases hdn : Canonical dn q
  · exact (hsupported q hdn).mono (hmono _)
  · exact (h q ((hasEntry_update_of_not hdn).mp hq)).mono (hmono _)

lemma below_dropLast {key : List Bytes} (hne : key ≠ []) : Below key.dropLast key := by
  refine ⟨ dropLast_prefix key, fun heq => ?_⟩
  have hlength := congrArg length heq
  rw [length_dropLast] at hlength
  have hpos := length_pos_iff.mpr hne
  omega

/-- An entry that has nothing below it. -/
lemma Tree.delete (h : Tree roots directory)
    (hleaf : ∀ path, Canonical dn path → ∀ below, Below path below → ¬ HasEntry directory below) :
    Tree roots (update directory dn none) := by
  intro q hq
  have hdn : ¬ Canonical dn q := fun hdn => by
    have hsome := (hasEntry_update_self hdn).mp hq
    cases hsome
  have hold := (hasEntry_update_of_not hdn).mp hq
  have hne : q ≠ [] := by
    obtain ⟨d, hd, -⟩ := hold
    exact path_ne_nil hd
  refine (h q hold).mono fun hparent => (hasEntry_update_of_not fun hdn' => ?_).mpr hparent
  exact hleaf q.dropLast hdn' q (below_dropLast hne) hold

/-- In a tree nothing lies below a path that has no entry, if no root lies there. -/
lemma Tree.not_below (h : Tree roots directory) (hpath : path ≠ [])
    (habsent : ¬ HasEntry directory path) (hroots : ∀ below, Below path below → below ∉ roots)
    {below : List Bytes} (hbelow : Below path below) : ¬ HasEntry directory below := by
  intro hentry
  induction below using reverseRecOn with
  | nil => exact hpath (prefix_nil.mp hbelow.1)
  | append_singleton above last ih =>
    have habove : path <+: above := by
      rcases prefix_concat_iff.mp hbelow.1 with heq | habove
      · exact absurd heq.symm hbelow.2
      · exact habove
    have hcases := h _ hentry
    rw [Supported, dropLast_concat] at hcases
    rcases hcases with hroot | hnil | hparent
    · exact hroots _ hbelow hroot
    · exact hpath (prefix_nil.mp (hnil ▸ habove))
    · by_cases heq : above = path
      · exact habsent (heq ▸ hparent)
      · exact ih ⟨habove, heq⟩ hparent

end

/-- What a new transaction reads at a path. -/
def Present {τ : Type} (db : ObaDB τ) (path : List Bytes) : Prop :=
  ∃ dn entry, Canonical dn path ∧ current db dn = .ok entry

lemma Quiet.present_iff {τ : Type} {db : ObaDB τ} (h : Quiet db) (path : List Bytes) :
    Present db path ↔ HasEntry db.directory path := by
  constructor
  · rintro ⟨dn, entry, hdn, hcurrent⟩
    exact ⟨dn, hdn, Option.isSome_of_eq_some ((h.current_ok_iff hdn).mp hcurrent).1⟩
  · rintro ⟨dn, hdn, hsome⟩
    obtain ⟨attributes, hvalue⟩ := Option.isSome_iff_exists.mp hsome
    exact ⟨dn, ⟨dn, attributes⟩, hdn, (h.current_ok_iff hdn).mpr ⟨hvalue, rfl⟩⟩

/-- The writes of adds and deletes keep the tree. -/
lemma tree_replay {ι : Type} {inv : ι → Invocation} {s : Settings} {roots : List (List Bytes)}
    {start : Bytes → Option Attributes} {log : List (Made ι)}
    (hrequests : ∀ i, (inv i).request.isAdd ∨ (inv i).request.isDelete)
    (hmade : ∀ m ∈ log, Fetched (inv m.client) m.entry ∧
      (inv m.client).toWrite s m.entry = .ok m.call)
    (hkeeps : ∀ before m after, log = before ++ m :: after →
      KeepsTree inv roots (replay start before) m)
    (hstart : Tree roots start) : Tree roots (replay start log) := by
  induction log using reverseRecOn with
  | nil => exact hstart
  | append_singleton log m ih =>
    have hbefore := ih (fun m hm => hmade m (mem_append_left _ hm))
      fun before m' after hlog => hkeeps before m' (after ++ [m]) (by rw [hlog]; simp)
    have hkeep := hkeeps log m [] rfl
    have hwrite := (hmade m (mem_append_right _ (mem_singleton_self m))).2
    rw [replay_append]
    show Tree roots (update (replay start log) m.call.dn m.call.value)
    rcases hrequests m.client with hadd | hdelete
    · exact hbefore.put (isSome_value_of_isAdd hadd hwrite) fun path hdn =>
        hkeep.add path hdn hadd
    · rw [value_of_isDelete hdelete hwrite]
      exact hbefore.delete fun path hdn below hbelow =>
        (hkeep.delete path hdn hdelete below hbelow).1

/-- If every add finds its parent and every delete finds nothing below when they write, no entry
remains below a DN that was deleted. -/
theorem no_orphans {τ ι : Type} [DecidableEq ι] {trees : IndexTrees τ}
    (haccept : trees.Accepting) {s : Settings} {inv : ι → Invocation}
    (hrequests : ∀ i, (inv i).request.isAdd ∨ (inv i).request.isDelete)
    {roots : List (List Bytes)} {start : ObaDB τ} (hquiet : Quiet start)
    (hstart : ∀ path, Present start path →
      path ∈ roots ∨ path.dropLast = [] ∨ Present start path.dropLast)
    {schedule : List ι} {sys : System τ ι}
    (hrun : Runs trees s inv (KeepsTree inv roots) start schedule sys)
    (hended : ∀ i, (sys.phase i).returned = some (.ok ())) {i : ι} {path : List Bytes}
    (hdelete : (inv i).request.isDelete) (hpath : Canonical (inv i).request.dn path)
    (hdeleted : ¬ Present sys.db path) {below : List Bytes} (hbelow : Below path below) :
    ¬ Present sys.db below := by
  obtain ⟨log, hlog, -⟩ := hrun.linearized haccept hquiet
  have hquiet' : Quiet sys.db := hrun.quiet haccept hquiet fun i => by
    rw [hended i]
    rfl
  simp only [hquiet.present_iff] at hstart
  rw [hquiet'.present_iff, hlog.directory] at hdeleted ⊢
  have htree := tree_replay hrequests hlog.made hlog.condition hstart
  refine htree.not_below (path_ne_nil hpath) hdeleted ?_ hbelow
  -- the delete itself has found no root below
  obtain ⟨m, hm, rfl⟩ := mem_map.mp (hlog.mem_of_returned (.inr hdelete) (hended i))
  obtain ⟨hfetched, hwrite⟩ := hlog.made m hm
  rw [← Invocation.dn_of_toWrite hfetched.dn hwrite] at hpath
  obtain ⟨before, after, hsplit⟩ := append_of_mem hm
  exact fun below hbelow =>
    ((hlog.condition before m after hsplit).delete path hpath hdelete below hbelow).2

/-! ## A suffix that is deleted -/

def suffixDN : Bytes := ascii "dc=x"

lemma canonical_suffixDN : Canonical suffixDN [suffixDN] :=
  ⟨by decide +kernel, by decide +kernel, by decide +kernel⟩

/-- The suffix and the person below it are added, and then deleted in the other order. -/
def addDelete : Fin 4 → Invocation
  | 0 => .plain (.add ⟨suffixDN, ∅⟩ [])
  | 1 => .plain (.add (person "1") [])
  | 2 => .plain (.delete personDN)
  | 3 => .plain (.delete suffixDN)

/-- The suffix is there when the person is added, and the person has gone when it is deleted. -/
def InOrder (directory : Bytes → Option Attributes) (m : Made (Fin 4)) : Prop :=
  (m.client = 1 → (directory suffixDN).isSome) ∧ (m.client = 3 → (directory personDN).isNone)

instance (directory : Bytes → Option Attributes) (m : Made (Fin 4)) :
    Decidable (InOrder directory m) := inferInstanceAs (Decidable (_ ∧ _))

def fourInTurn : List (Fin 4) :=
  replicate 4 0 ++ replicate 4 1 ++ replicate 7 2 ++ replicate 7 3

def addedDeleted : Option (System Unit (Fin 4)) :=
  allowedExec .empty (server false) addDelete InOrder (new ()) fourInTurn

lemma isSome_addedDeleted : addedDeleted.isSome := by decide +kernel

lemma not_present_new (path : List Bytes) : ¬ Present (new ()) path := by
  rw [quiet_new.present_iff]
  rintro ⟨dn, -, hsome⟩
  rw [directory_new] at hsome
  cases hsome

lemma addedDeleted_keepsTree :
    Runs .empty (server false) addDelete (KeepsTree addDelete []) (new ()) fourInTurn
      (addedDeleted.get isSome_addedDeleted) := by
  have hrun := runs_allowedExec .empty (server false) addDelete isSome_addedDeleted
  refine hrun.strengthen accepting_empty quiet_new fun state log i entry w hlog hnext hok => ?_
  have hnames : ∀ i, (addDelete i).request.dn = suffixDN ∨ (addDelete i).request.dn = personDN := by
    decide +kernel
  -- there is nothing but the suffix and the person
  have hentries : ∀ d, (state.db.directory d).isSome → d = suffixDN ∨ d = personDN := by
    intro d hsome
    by_contra hother
    rw [hlog.directory, replay_of_ne fun m hm hm' => hother ?_, directory_new] at hsome
    · cases hsome
    · rw [← hm', Invocation.dn_of_toWrite (hlog.made m hm).1.dn (hlog.made m hm).2]
      exact hnames m.client
  obtain ⟨hfetched, hwrite⟩ := toWrite_of_nextWrite (hlog.holds i) hnext
  have hdn : w.dn = (addDelete i).request.dn := Invocation.dn_of_toWrite hfetched.dn hwrite
  have hpath : ∀ {d q q'}, Canonical d q → Canonical d q' → q' = q := fun h h' =>
    Except.ok.inj (h'.parsed.symm.trans h.parsed)
  have hleaf : ∀ q, Below [suffixDN, ascii "cn=a"] q → q ≠ [suffixDN] := by
    rintro _ ⟨hsteps, -⟩ rfl
    exact absurd hsteps (by decide)
  refine ⟨fun path hcanonical hadd => ?_, fun path hcanonical hdelete below hbelow =>
    ⟨fun ⟨d, hd, hsome⟩ => ?_, not_mem_nil⟩⟩
  · rw [hdn] at hcanonical
    match i with
    | 0 => exact .inr (.inl (hpath canonical_suffixDN hcanonical ▸ rfl))
    | 1 =>
      rw [hpath canonical_personDN hcanonical]
      exact .inr (.inr ⟨suffixDN, canonical_suffixDN, hok.1 rfl⟩)
    | 2 | 3 => cases hadd
  · rw [hdn] at hcanonical
    match i with
    | 0 | 1 => cases hdelete
    | 2 =>
      rw [hpath canonical_personDN hcanonical] at hbelow
      rcases hentries d hsome with rfl | rfl
      · exact hleaf below hbelow (hpath canonical_suffixDN hd)
      · exact hbelow.2 (hpath canonical_personDN hd)
    | 3 =>
      rw [hpath canonical_suffixDN hcanonical] at hbelow
      rcases hentries d hsome with rfl | rfl
      · exact hbelow.2 (hpath canonical_suffixDN hd)
      · rw [Option.isNone_iff_eq_none.mp (hok.2 rfl)] at hsome
        cases hsome

lemma present_iff_isOk {τ : Type} {db : ObaDB τ} {dn : Bytes} {path : List Bytes}
    (hdn : Canonical dn path) : Present db path ↔ (current db dn).isOk := by
  constructor
  · rintro ⟨d, entry, hd, hcurrent⟩
    obtain rfl : d = dn := hd.joined.symm.trans hdn.joined
    rw [hcurrent]
    rfl
  · intro hok
    cases hcurrent : current db dn with
    | error err =>
      rw [hcurrent] at hok
      cases hok
    | ok entry => exact ⟨dn, entry, hdn, hcurrent⟩

theorem no_orphans_addedDeleted :
    ¬ Present (addedDeleted.get isSome_addedDeleted).db [suffixDN, ascii "cn=a"] := by
  have hstart : ∀ path, Present (new ()) path →
      path ∈ [] ∨ path.dropLast = [] ∨ Present (new ()) path.dropLast := fun path hpresent =>
    absurd hpresent (not_present_new path)
  have habsent : ¬ Present (addedDeleted.get isSome_addedDeleted).db [suffixDN] :=
    mt (present_iff_isOk canonical_suffixDN).mp (by decide +kernel)
  have hbelow : Below [suffixDN] [suffixDN, ascii "cn=a"] := ⟨⟨[ascii "cn=a"], rfl⟩, by decide⟩
  exact no_orphans (i := 3) accepting_empty (by decide +kernel) quiet_new hstart
    addedDeleted_keepsTree (by decide +kernel) rfl canonical_suffixDN habsent hbelow

/-- The suffix is added and deleted, and then the person below it is added. -/
def addBelow : Fin 3 → Invocation
  | 0 => .plain (.add ⟨suffixDN, ∅⟩ [])
  | 1 => .plain (.delete suffixDN)
  | 2 => .plain (.add (person "1") [])

/-- The requests one after the other. -/
def inSequence (cluster : Bool) : List (Fin 3) :=
  if cluster then threeInTurn 5 6 5 else threeInTurn 4 7 4

/-- All requests return success, and the person lies below the suffix that was deleted. -/
def Orphaned (cluster : Bool) : Prop :=
  ∃ sys, (System.initial (new ())).exec .empty (server cluster) addBelow (inSequence cluster) =
      some sys ∧ (∀ path, ¬ Present (new ()) path) ∧
    (∀ i, (sys.phase i).returned = some (.ok ())) ∧
    (∃ i, (addBelow i).request.isDelete ∧ Canonical (addBelow i).request.dn [suffixDN]) ∧
    ¬ Present sys.db [suffixDN] ∧
    Below [suffixDN] [suffixDN, ascii "cn=a"] ∧ Present sys.db [suffixDN, ascii "cn=a"]

lemma orphaned_all (cluster : Bool) : Orphaned cluster := by
  have hdone : ∀ cluster, ∃ sys ∈ (System.initial (new ())).exec .empty (server cluster) addBelow
      (inSequence cluster), (∀ i, (sys.phase i).returned = some (.ok ())) ∧
        ¬ (current sys.db suffixDN).isOk ∧ (current sys.db personDN).isOk := by
    decide +kernel
  obtain ⟨sys, hsys, hreturned, habsent, hpresent⟩ := hdone cluster
  exact ⟨sys, hsys, not_present_new, hreturned, ⟨1, rfl, canonical_suffixDN⟩,
    mt (present_iff_isOk canonical_suffixDN).mp habsent, ⟨⟨[ascii "cn=a"], rfl⟩, by decide⟩,
    (present_iff_isOk canonical_personDN).mpr hpresent⟩

/-- Both modes leave an orphan, even without any concurrency. -/
theorem orphaned : Orphaned false ∧ Orphaned true := ⟨orphaned_all false, orphaned_all true⟩

end Oba.Backend
