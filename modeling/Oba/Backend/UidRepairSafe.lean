import Oba.Backend.UidViews

/-! # When a repair of uids is safe

Every action that succeeds changes the directory at one DN. The phases are followed by the
records of the entries that still have a uid, beside the map of the records.
-/

namespace Oba.Backend

open Storage ObaDB List
open UIDRecord (isUsersOU matched map_dn_matched mismatched)
open Execution (foldl_while_zero le_foldl foldl_self)
open UIDMap (Holds add holds_empty)

section Repairs

variable {τ : Type} {trees : IndexTrees τ} {s : Settings} {call : RepairCall}
  {state : Repair τ} {request : Request} {action : UIDRepairAction} {rec : UIDRecord}
  {live kept : List UIDRecord} {start : Bytes → Option Attributes} {touched : List Bytes}
  {path : List Bytes} {m : UIDMap}

/-! ## Actions -/

lemma failed_act_le (trees : IndexTrees τ) (s : Settings) (call : RepairCall)
    (request : Request) (action : UIDRepairAction) (state : Repair τ) :
    state.report.failed ≤ (act trees s call request action state).2.report.failed := by
  unfold act
  dsimp only
  split
  · exact le_rfl
  · split
    · split
      · exact le_rfl
      · exact Nat.le_succ _
    · exact le_rfl

/-! ## The directory while it is repaired -/

/-- The database is at rest and the records tell the uids of its directory. -/
structure Clean (live : List UIDRecord) (db : ObaDB τ) : Prop where
  atRest : AtRest db
  tidy : ∀ dn attributes, db.directory dn = some attributes → Tidy attributes
  shows : Shows db.directory live

variable {db db' : ObaDB τ} {dn uid : Bytes} {before after : List UIDRecord}
  {binding : Bytes × List UIDRecord} {value : Option Attributes} {live' : List UIDRecord}
  {reason : Bytes} {keep : UIDRecord}

lemma Clean.update (h : Clean live db) (hrest : AtRest db')
    (hdirectory : db'.directory = Function.update db.directory dn value)
    (hvalue : ∀ attributes, value = some attributes → Tidy attributes)
    (hshows : Shows (Function.update db.directory dn value) live') : Clean live' db' where
  atRest := hrest
  tidy := fun d attributes hattributes => by
    rw [hdirectory] at hattributes
    by_cases heq : d = dn
    · rw [heq, Function.update_self] at hattributes
      exact hvalue attributes hattributes
    · rw [Function.update_of_ne heq] at hattributes
      exact h.tidy d attributes hattributes
  shows := hdirectory ▸ hshows

/-- The entries that the modifications of a repair write fit the length fields. -/
def RepairCall.Fits (s : Settings) (call : RepairCall) (directory : Bytes → Option Attributes) :
    Prop :=
  ∀ n dn attributes change new, directory dn = some attributes →
    change = uidRemoval ∨ change = uidReplacement (parseDNFirstRDN dn).2 →
    (call.invocation n (.modify dn [change] call.bindDN)).modifyEntry s [change] call.bindDN
      ⟨dn, attributes⟩ = .ok new → new.Fits s.width

/-- Some entries have been changed, the others are as they were at the start. -/
structure Repairing (start : Bytes → Option Attributes) (touched : List Bytes)
    (live : List UIDRecord) (db : ObaDB τ) : Prop extends Clean live db where
  others : ∀ dn, dn ∉ touched → db.directory dn = start dn

lemma Repairing.touch (h : Repairing start touched live db) (hclean : Clean live' db')
    (hdirectory : db'.directory = Function.update db.directory dn value) :
    Repairing start (dn :: touched) live' db' := by
  refine ⟨hclean, fun d hd => ?_⟩
  obtain ⟨hne, hnot⟩ := ne_and_not_mem_of_not_mem_cons hd
  rw [hdirectory, Function.update_of_ne hne]
  exact h.others d hnot

lemma Repairing.mono {touched' : List Bytes} (h : Repairing start touched live db)
    (hsub : touched ⊆ touched') : Repairing start touched' live db :=
  ⟨h.toClean, fun dn hdn => h.others dn fun hmem => hdn (hsub hmem)⟩

lemma trimSpace_rdnValue (dn : Bytes) :
    trimSpace (parseDNFirstRDN dn).2 = (parseDNFirstRDN dn).2 := by
  unfold parseDNFirstRDN
  dsimp only
  split
  · rw [← toLower_trimSpace, trimSpace_trimSpace]
  · rfl

lemma failed_removeOutside_le (state : Repair τ) (rec : UIDRecord) :
    state.report.failed ≤ (removeOutside trees s call state rec).report.failed := by
  unfold removeOutside
  split
  · exact le_rfl
  · exact failed_act_le ..

section

variable (hdry : call.dryRun = false) {made : Bool} {state' : Repair τ}
include hdry

/-- An action that has not failed has made its call. -/
lemma act_success (hact : act trees s call request action state = (made, state'))
    (hfailed : state'.report.failed = 0) :
    made = true ∧
      ∃ n result, (result = .ok () ∨ request.isDelete ∧ result = .error .entryNotFound) ∧
        perform trees s (call.invocation n request) state.db = (result, state'.db) := by
  unfold act at hact
  rw [if_neg (by simp [hdry])] at hact
  cases hperform : perform trees s (call.invocation state.report.actions.length request) state.db
    with | mk result db =>
  rw [hperform] at hact
  cases result with
  | ok _ =>
    cases hact
    exact ⟨rfl, _, _, .inl rfl, hperform⟩
  | error err =>
    dsimp only at hact
    split at hact <;> obtain ⟨rfl, rfl⟩ := Prod.mk.inj hact
    next htolerated =>
      obtain ⟨hdelete, rfl⟩ := htolerated
      exact ⟨rfl, _, _, .inr ⟨hdelete, rfl⟩, hperform⟩
    · cases hfailed

variable (haccept : trees.Accepting) (hdn : Canonical rec.dn path)
include haccept hdn

/-- What a delete leaves. -/
lemma Clean.deleteRecord (h : Clean live state.db)
    (hfailed : (deleteRecord trees s call uid reason rec state).report.failed = 0) :
    Clean (live.filter (·.dn ≠ rec.dn)) (deleteRecord trees s call uid reason rec state).db ∧
      (deleteRecord trees s call uid reason rec state).db.directory =
        Function.update state.db.directory rec.dn none := by
  obtain ⟨-, n, result, hresult, hperform⟩ := act_success hdry rfl hfailed
  obtain ⟨hrest, hdirectory⟩ := perform_delete haccept h.atRest rfl hdn
    (hresult.imp_right And.right) hperform
  exact ⟨h.update hrest hdirectory (fun _ hnone => by cases hnone) (h.shows.erase rfl), hdirectory⟩

variable (hfits : call.Fits s start) (h : Repairing start touched live state.db)
  (huntouched : rec.dn ∉ touched)
include hfits h huntouched

/-- What a modification of a uid does. -/
lemma act_modify {change : Modification}
    (hchange : change = uidRemoval ∨ change = uidReplacement (parseDNFirstRDN rec.dn).2)
    (hact : act trees s call (.modify rec.dn [change] call.bindDN) action state = (made, state'))
    (hfailed : state'.report.failed = 0) : AtRest state'.db ∧
      ∃ attributes, Tidy attributes ∧ uidValues attributes = change.values ∧
        state'.db.directory = Function.update state.db.directory rec.dn (some attributes) := by
  obtain ⟨-, n, result, hresult, hperform⟩ := act_success hdry hact hfailed
  have hok : result = .ok () := hresult.resolve_right fun hdelete => by cases hdelete.1
  rw [hok] at hperform
  obtain ⟨hrest, attributes, new, hattributes, hnew, hdirectory⟩ :=
    perform_modify haccept h.atRest rfl hdn (cons_ne_nil change [])
      (fun attributes new hattributes hnew =>
        hfits n rec.dn attributes change new (h.others _ huntouched ▸ hattributes) hchange hnew)
      hperform
  obtain ⟨htidy, hvalues⟩ := modifyEntry_uid (h.tidy _ _ hattributes).lower
    (hchange.imp_right fun heq => ⟨_, heq⟩) hnew
  exact ⟨hrest, new.attributes, htidy, hvalues, hdirectory⟩

/-! ## The first phase -/

lemma Repairing.removeOutside (hout : rec.isUsersOU = false)
    (hfailed : (removeOutside trees s call state rec).report.failed = 0) :
    Repairing start (rec.dn :: touched) (live.filter (·.dn ≠ rec.dn))
      (removeOutside trees s call state rec).db := by
  unfold Backend.removeOutside at hfailed ⊢
  rw [if_neg (by simp [hout])] at hfailed ⊢
  obtain ⟨hrest, attributes, htidy, hvalues, hdirectory⟩ := act_modify hdry haccept hdn hfits
    h huntouched (.inl rfl) rfl hfailed
  have hnone : uidRecord ⟨rec.dn, attributes⟩ = none := by
    cases hrecord : uidRecord ⟨rec.dn, attributes⟩ with
    | none => rfl
    | some record =>
      have huid : HasUid attributes record.uid :=
        (hasUid_iff htidy).mpr (congrArg (Option.map UIDRecord.uid) hrecord)
      obtain ⟨-, value, hvalue, -⟩ := huid
      rw [hvalues] at hvalue
      cases hvalue
  refine h.touch (h.toClean.update hrest hdirectory (fun a ha => ?_)
    (h.shows.erase hnone)) hdirectory
  exact Option.some.inj ha ▸ htidy

end

/-- The records of the entries that have a uid after the second phase. -/
def matchedRecords (kept : List UIDRecord) (done : List UIDRecord) : List UIDRecord :=
  (done.filter (!UIDRecord.doomed kept ·)).map (UIDRecord.matched kept)

lemma matchedRecords_append (done : List UIDRecord) (rec : UIDRecord) :
    matchedRecords kept (done ++ [rec]) = matchedRecords kept done ++
      if rec.doomed kept then [] else [rec.matched kept] := by
  unfold matchedRecords
  cases hdoomed : rec.doomed kept <;> simp [hdoomed]

lemma nodup_matchedRecords (hnodup : ((before ++ after).map UIDRecord.dn).Nodup) :
    ((matchedRecords kept before ++ after).map UIDRecord.dn).Nodup := by
  refine hnodup.sublist ?_
  unfold matchedRecords
  rw [map_append, map_append, map_dn_matched]
  exact (filter_sublist.map _).append (.refl _)

lemma failed_matchRDN_le (state : UIDMap × Repair τ) (rec : UIDRecord) :
    state.2.report.failed ≤ (matchRDN trees s call state rec).2.report.failed := by
  unfold matchRDN
  dsimp only
  split
  · exact le_rfl
  · split
    · exact failed_act_le ..
    · have hle := failed_act_le trees s call
        (.modify rec.dn [uidReplacement rec.rdnValue] call.bindDN)
        { dn := rec.dn, uid := rec.uid, action := .replaceUid
          reason := ascii "uid attribute mismatched with RDN; replaced with uid RDN value" }
        state.2
      split <;> simp_all

section

variable (haccept : trees.Accepting) (hdry : call.dryRun = false) (hfits : call.Fits s start)
include haccept hdry hfits

/-- The first phase takes the uids of entries that are not users. -/
lemma removeOutside_loop {records : List UIDRecord} (h : Repairing start [] live state.db)
    (hcanonical : ∀ rec ∈ records, ∃ path, Canonical rec.dn path)
    (hnodup : (records.map UIDRecord.dn).Nodup)
    (hfailed : (records.foldl (removeOutside trees s call) state).report.failed = 0) :
    Repairing start ((records.filter (!·.isUsersOU)).map UIDRecord.dn)
      (live.filter fun rec => rec.dn ∉ (records.filter (!·.isUsersOU)).map UIDRecord.dn)
      (records.foldl (removeOutside trees s call) state).db := by
  refine foldl_while_zero (fun state : Repair τ => state.report.failed)
    failed_removeOutside_le (fun done _ state =>
      Repairing start ((done.filter (!·.isUsersOU)).map UIDRecord.dn)
        (live.filter fun rec => rec.dn ∉ (done.filter (!·.isUsersOU)).map UIDRecord.dn) state.db)
    hfailed (by simpa using h) ?_
  intro done rec todo state hrecords h hfailed
  obtain ⟨path, hdn⟩ := hcanonical rec (by simp [hrecords])
  cases hout : rec.isUsersOU with
  | true =>
    have hsame : removeOutside trees s call state rec = state := if_pos hout
    simpa [hout, hsame] using h
  | false =>
    rw [hrecords, map_append, nodup_append] at hnodup
    have hfresh : rec.dn ∉ (done.filter (!·.isUsersOU)).map UIDRecord.dn := fun hmem =>
      hnodup.2.2 _ ((filter_sublist.map _).mem hmem) _ mem_cons_self rfl
    have hstep : Repairing start (((done ++ [rec]).filter (!·.isUsersOU)).map UIDRecord.dn) _ _ :=
      (h.removeOutside hdry haccept hdn hfits hfresh hout hfailed).mono (by simp [hout])
    simpa [filter_filter, hout, Bool.and_comm] using hstep

/-! ## The second phase -/

variable {records : Set UIDRecord} (horderly : Orderly records {rec | rec ∈ kept})
  (hall : ∀ rec ∈ kept, rec ∈ records) (hnodup : (kept.map UIDRecord.dn).Nodup)
include horderly hall hnodup

/-- One record in the second phase. -/
lemma matchRDN_step (hkept : before ++ rec :: after = kept)
    (hm : m.Holds (before.map (matched kept) ++ rec :: after))
    (h : Repairing start touched (matchedRecords kept before ++ rec :: after) state.db)
    (hdn : Canonical rec.dn path) (hvalue : rec.rdnValue = (parseDNFirstRDN rec.dn).2)
    (huntouched : rec.dn ∉ touched)
    (hfailed : (matchRDN trees s call (m, state) rec).2.report.failed = 0) :
    Holds (matchRDN trees s call (m, state) rec).1
        ((before ++ [rec]).map (matched kept) ++ after) ∧
      Repairing start (rec.dn :: touched) (matchedRecords kept (before ++ [rec]) ++ after)
        (matchRDN trees s call (m, state) rec).2.db := by
  have hlive : ((matchedRecords kept before ++ rec :: after).map UIDRecord.dn).Nodup :=
    nodup_matchedRecords (hkept.symm ▸ hnodup)
  rw [matchedRecords_append, map_append, map_singleton, append_assoc, append_assoc]
  unfold matchRDN at hfailed ⊢
  dsimp only at hfailed ⊢
  cases hmismatched : rec.mismatched with
  | false =>
    have hdoomed : rec.doomed kept = false := by simp [UIDRecord.doomed, hmismatched]
    rw [UIDRecord.matched_of_not_mismatched hmismatched, hdoomed]
    exact ⟨hm, h.toClean, fun d hd => h.others d (not_mem_of_not_mem_cons hd)⟩
  | true =>
    rw [hmismatched] at hfailed
    have hconflict := any_group_iff horderly hall hnodup hkept hmismatched hm
    cases hdoomed : rec.doomed kept with
    | true =>
      rw [if_pos (hconflict.mpr hdoomed)] at hfailed ⊢
      obtain ⟨hclean, hdirectory⟩ := h.toClean.deleteRecord hdry haccept hdn hfailed
      rw [filter_middle hlive] at hclean
      rw [UIDRecord.matched_of_doomed hdoomed]
      exact ⟨hm, h.touch hclean hdirectory⟩
    | false =>
      have hnot : ¬ (m.group rec.rdnValue).any (·.dn ≠ rec.dn) = true := by
        rw [hconflict, hdoomed]
        exact Bool.false_ne_true
      rw [if_neg hnot] at hfailed ⊢
      generalize hact : act trees s call (.modify rec.dn [uidReplacement rec.rdnValue] call.bindDN)
        _ state = acted at hfailed ⊢
      obtain ⟨applied, repaired⟩ := acted
      have hrepaired : repaired.report.failed = 0 := by
        cases applied <;> exact hfailed
      obtain ⟨rfl, -⟩ := act_success hdry hact hrepaired
      obtain ⟨hrest, attributes, htidy, hvalues, hdirectory⟩ := act_modify hdry haccept hdn hfits h
        huntouched (.inr (congrArg uidReplacement hvalue)) hact hrepaired
      have huid : HasUid attributes rec.rdnValue := by
        refine ⟨(of_decide_eq_true hmismatched).2.1, rec.rdnValue, ?_, ?_⟩
        · rw [hvalues]
          exact mem_singleton_self _
        · rw [hvalue]
          exact trimSpace_rdnValue rec.dn
      rw [UIDRecord.matched_of_not_doomed hmismatched hdoomed]
      have hreplaced : ((before.map (matched kept) ++ rec :: after).map
          UIDRecord.dn).Nodup := by
        rw [map_append, map_dn_matched, ← map_append, hkept]
        exact hnodup
      refine ⟨hm.replace hreplaced rec.rdnValue, h.touch (h.toClean.update hrest hdirectory
        (fun a ha => Option.some.inj ha ▸ htidy) ?_) hdirectory⟩
      exact h.shows.replace hlive ((hasUid_iff htidy).mp huid)

/-- The second phase settles entries that disagree with their RDNs. -/
lemma matchRDN_loop (hm : m.Holds kept) (h : Repairing start touched kept state.db)
    (hcanonical : ∀ rec ∈ kept, ∃ path, Canonical rec.dn path)
    (hvalue : ∀ rec ∈ kept, rec.rdnValue = (parseDNFirstRDN rec.dn).2)
    (huntouched : ∀ rec ∈ kept, rec.dn ∉ touched)
    (hfailed : (kept.foldl (matchRDN trees s call) (m, state)).2.report.failed = 0) :
    Holds (kept.foldl (matchRDN trees s call) (m, state)).1
        (kept.map (matched kept)) ∧
      Clean (matchedRecords kept kept) (kept.foldl (matchRDN trees s call) (m, state)).2.db := by
  have hloop := foldl_while_zero (fun state : UIDMap × Repair τ => state.2.report.failed)
    failed_matchRDN_le (fun done todo state =>
      Holds state.1 (done.map (matched kept) ++ todo) ∧
        Repairing start (done.map UIDRecord.dn ++ touched) (matchedRecords kept done ++ todo)
          state.2.db) hfailed ⟨hm, h⟩ ?_
  · rw [append_nil, append_nil] at hloop
    exact hloop.imp_right Repairing.toClean
  · rintro done rec todo state hkept ⟨hm, h⟩ hfailed
    have hmem : rec ∈ kept := by simp [hkept]
    obtain ⟨path, hdn⟩ := hcanonical rec hmem
    have hfresh : rec.dn ∉ done.map UIDRecord.dn ++ touched := by
      rw [mem_append, not_or]
      refine ⟨fun hdone => ?_, huntouched rec hmem⟩
      rw [hkept, map_append, nodup_append] at hnodup
      exact hnodup.2.2 _ hdone _ mem_cons_self rfl
    obtain ⟨hm', h'⟩ := matchRDN_step haccept hdry hfits horderly hall hnodup hkept.symm hm h hdn
      (hvalue rec hmem) hfresh hfailed
    exact ⟨hm', h'.mono (by simp)⟩

end

/-! ## The third phase -/

/-- The DNs that the third phase deletes for one uid. -/
def deletedDNs (binding : Bytes × List UIDRecord) : List Bytes :=
  if binding.2.length ≤ 1 then []
  else
    match chooseCanonicalUIDRecord binding.2 with
    | none => []
    | some keep => (binding.2.filter (·.dn ≠ keep.dn)).map UIDRecord.dn

lemma failed_deleteOther_le (state : Repair τ) (rec : UIDRecord) :
    state.report.failed ≤ (if rec.dn = keep.dn then state
      else deleteRecord trees s call uid reason rec state).report.failed := by
  split
  · exact le_rfl
  · exact failed_act_le ..

lemma failed_resolveGroup_le (state : Repair τ) (binding : Bytes × List UIDRecord) :
    state.report.failed ≤ (resolveGroup trees s call state binding).report.failed := by
  unfold resolveGroup
  split
  · exact le_rfl
  · split
    · exact le_rfl
    · exact le_foldl _ failed_deleteOther_le binding.2 { state with
        report := { state.report with duplicateUIDs := state.report.duplicateUIDs + 1 } }

section

variable (haccept : trees.Accepting) (hdry : call.dryRun = false)
include haccept hdry

lemma deleteOthers_loop {group : List UIDRecord} (h : Clean live state.db)
    (hcanonical : ∀ rec ∈ group, ∃ path, Canonical rec.dn path)
    (hfailed : (group.foldl (fun state rec => if rec.dn = keep.dn then state
      else deleteRecord trees s call uid reason rec state) state).report.failed = 0) :
    Clean (live.filter fun rec => rec.dn ∉ (group.filter (·.dn ≠ keep.dn)).map UIDRecord.dn)
      (group.foldl (fun state rec => if rec.dn = keep.dn then state
        else deleteRecord trees s call uid reason rec state) state).db := by
  refine foldl_while_zero (fun state : Repair τ => state.report.failed)
    failed_deleteOther_le (fun done _ state => Clean (live.filter fun rec =>
      rec.dn ∉ (done.filter (·.dn ≠ keep.dn)).map UIDRecord.dn) state.db) hfailed
      (by simpa using h) ?_
  intro done rec todo state hgroup h hfailed
  obtain ⟨path, hdn⟩ := hcanonical rec (by simp [hgroup])
  by_cases hkeep : rec.dn = keep.dn
  · simpa [hkeep] using h
  · rw [if_neg hkeep] at hfailed ⊢
    simpa [filter_filter, hkeep, Bool.and_comm] using (h.deleteRecord hdry haccept hdn hfailed).1

lemma resolveGroup_clean (h : Clean live state.db)
    (hcanonical : ∀ rec ∈ binding.2, ∃ path, Canonical rec.dn path)
    (hfailed : (resolveGroup trees s call state binding).report.failed = 0) :
    Clean (live.filter fun rec => rec.dn ∉ deletedDNs binding)
      (resolveGroup trees s call state binding).db := by
  have hsame : live.filter (fun rec => rec.dn ∉ []) = live :=
    filter_eq_self.mpr fun rec _ => by simp
  unfold resolveGroup at hfailed ⊢
  unfold deletedDNs
  by_cases hone : binding.2.length ≤ 1
  · rw [if_pos hone, if_pos hone, hsame]
    exact h
  · rw [if_neg hone] at hfailed ⊢
    rw [if_neg hone]
    cases hchoose : chooseCanonicalUIDRecord binding.2 with
    | none =>
      rw [hsame]
      exact h
    | some keep =>
      rw [hchoose] at hfailed
      exact deleteOthers_loop haccept hdry h hcanonical hfailed

/-- The third phase leaves one entry of every group. -/
lemma resolveGroup_loop {bindings : List (Bytes × List UIDRecord)} (h : Clean live state.db)
    (hcanonical : ∀ binding ∈ bindings, ∀ rec ∈ binding.2, ∃ path, Canonical rec.dn path)
    (hfailed : (bindings.foldl (resolveGroup trees s call) state).report.failed = 0) :
    Clean (live.filter fun rec => rec.dn ∉ bindings.flatMap deletedDNs)
      (bindings.foldl (resolveGroup trees s call) state).db := by
  refine foldl_while_zero (fun state : Repair τ => state.report.failed)
    failed_resolveGroup_le (fun done _ state => Clean (live.filter fun rec =>
      rec.dn ∉ done.flatMap deletedDNs) state.db) hfailed (by simpa using h) ?_
  intro done binding todo state hbindings h hfailed
  have hstep := resolveGroup_clean haccept hdry h (hcanonical binding (by simp [hbindings])) hfailed
  rw [filter_filter] at hstep
  convert hstep using 3
  rw [Bool.eq_iff_iff]
  simp [flatMap_append, and_comm]

end

lemma group_of_range {order : UnorderedMap.Order Bytes (List UIDRecord)}
    (h : binding ∈ order.range m) : m.group binding.1 = binding.2 := by
  unfold UIDMap.group
  rw [(order.mem_range m).mp h]
  rfl

lemma getElem?_of_mem_group (h : rec ∈ m.group uid) : m[uid]? = some (m.group uid) := by
  unfold UIDMap.group at h ⊢
  cases hgroup : m[uid]? with
  | none =>
    rw [hgroup] at h
    cases h
  | some group => rfl

/-- The third phase leaves the records that were chosen and are still there. -/
lemma filter_deletedDNs (hm : m.Holds (kept.map (matched kept)))
    (hnodup : (kept.map UIDRecord.dn).Nodup) (order : UnorderedMap.Order Bytes (List UIDRecord)) :
    (matchedRecords kept kept).filter
      (fun rec => rec.dn ∉ (order.range m).flatMap deletedDNs) = survivors kept m := by
  have hdns : ((kept.map (matched kept)).map UIDRecord.dn).Nodup := by
    rwa [map_dn_matched]
  refine filter_congr fun rec hrec => ?_
  have hmem : rec ∈ kept.map (matched kept) :=
    (filter_sublist.map _).mem hrec
  have hgroup : rec ∈ m.group rec.uid := (hm _ rec).mpr ⟨hmem, rfl⟩
  obtain ⟨keep, hkeep⟩ := chooseCanonicalUIDRecord_isSome (ne_nil_of_mem hgroup)
  rw [hkeep, Option.any_some, decide_eq_decide, mem_flatMap]
  constructor
  · intro hnot
    by_contra hne
    refine hnot ⟨(rec.uid, m.group rec.uid),
      (order.mem_range m).mpr (getElem?_of_mem_group hgroup), ?_⟩
    have hmany : ¬ (m.group rec.uid).length ≤ 1 := by
      intro hone
      obtain ⟨hkeepMem, -⟩ := chooseCanonicalUIDRecord_spec hkeep
      match hcases : m.group rec.uid, hone with
      | [], _ =>
        rw [hcases] at hgroup
        cases hgroup
      | [only], _ =>
        rw [hcases] at hgroup hkeepMem
        rw [mem_singleton.mp hgroup, mem_singleton.mp hkeepMem] at hne
        exact hne rfl
    unfold deletedDNs
    rw [if_neg hmany, hkeep]
    exact mem_map.mpr ⟨rec, mem_filter.mpr ⟨hgroup, decide_eq_true (Ne.symm hne)⟩, rfl⟩
  · rintro hdn ⟨⟨uid, group⟩, hbinding, hdeleted⟩
    unfold deletedDNs at hdeleted
    split at hdeleted
    · cases hdeleted
    · cases hchoose : chooseCanonicalUIDRecord group with
      | none =>
        rw [hchoose] at hdeleted
        cases hdeleted
      | some chosen =>
        rw [hchoose] at hdeleted
        obtain ⟨other, hother, hotherDN⟩ := mem_map.mp hdeleted
        obtain ⟨hotherGroup, hne⟩ := mem_filter.mp hother
        have hsame : m.group uid = group := group_of_range hbinding
        obtain ⟨hotherMem, rfl⟩ := (hm uid other).mp (hsame ▸ hotherGroup)
        obtain rfl := inj_on_of_nodup_map hdns hotherMem hmem hotherDN
        rw [← hsame, hkeep] at hchoose
        rw [← Option.some.inj hchoose] at hne
        exact of_decide_eq_true hne hdn.symm

/-! ## A repair with nothing to do -/

lemma actions_resolveGroup (h : ∀ rec ∈ binding.2, ∀ other ∈ binding.2, rec.dn = other.dn)
    (state : Repair τ) :
    (resolveGroup trees s call state binding).report.actions = state.report.actions := by
  unfold resolveGroup
  split
  · rfl
  · split
    · rfl
    next keep hkeep =>
      have hmem := (chooseCanonicalUIDRecord_spec hkeep).1
      rw [foldl_self _ fun rec hrec => if_pos (h rec hrec keep hmem)]

/-- Nothing is left to repair. -/
lemma repair_idle (h : AtRest db)
    (htidy : ∀ dn attributes, db.directory dn = some attributes → Tidy attributes)
    (hsettled : ∀ rec ∈ uidRecords db.directory, rec.isUsersOU ∧ rec.mismatched = false)
    (hunique : ∀ rec ∈ uidRecords db.directory, ∀ other ∈ uidRecords db.directory,
      rec.uid = other.uid → rec.dn = other.dn) :
    ∃ report, (repairUIDUniqueness trees s call db).1 = .ok report ∧ report.actions = [] := by
  obtain ⟨entries, db', hsearch, -, -, hrecords, -⟩ :=
    search_records h htidy call.searchOrders
  refine ⟨_, by rw [repairUIDUniqueness, hsearch], ?_⟩
  have hkept : (entries.filterMap uidRecord).filter isUsersOU =
      entries.filterMap uidRecord :=
    filter_eq_self.mpr fun rec hrec => (hsettled rec ((hrecords rec).mp hrec)).1
  rw [hkept, foldl_self (removeOutside trees s call) fun rec hrec =>
      if_pos (hsettled rec ((hrecords rec).mp hrec)).1,
    foldl_self (matchRDN trees s call) fun rec hrec =>
      if_pos (by simp [(hsettled rec ((hrecords rec).mp hrec)).2])]
  have hm : Holds ((entries.filterMap uidRecord).foldl add ∅)
      (entries.filterMap uidRecord) := holds_empty.foldl_add _
  refine foldlRecOn _ (resolveGroup trees s call) (motive := fun state => state.report.actions = [])
    ?_ fun state hnone binding hbinding => ?_
  · rfl
  rw [actions_resolveGroup fun rec hrec other hother => ?_, hnone]
  have hsame := group_of_range hbinding
  obtain ⟨hrecMem, huid⟩ := (hm binding.1 rec).mp (hsame ▸ hrec)
  obtain ⟨hotherMem, huid'⟩ := (hm binding.1 other).mp (hsame ▸ hother)
  exact hunique rec ((hrecords rec).mp hrecMem) other ((hrecords other).mp hotherMem)
    (huid.trans huid'.symm)

/-! ## Repairs -/

/-- A database at rest in which the uids can be read off the entries. -/
structure Repairable (s : Settings) (call : RepairCall) (db : ObaDB τ) : Prop where
  atRest : AtRest db
  paths : (db.radix.paths.map Prod.fst).Nodup
  tidy : ∀ dn attributes, db.directory dn = some attributes → Tidy attributes
  fits : call.Fits s db.directory

/-- After the repair no two users share a uid, every uid that had an entry has one, and another
repair performs no action. -/
structure UidsSafe (trees : IndexTrees τ) (s : Settings) (start : Bytes → Option Attributes)
    (db : ObaDB τ) : Prop where
  unique : ∀ dn dn' attributes attributes' uid, db.directory dn = some attributes →
    db.directory dn' = some attributes' → isUnderOU dn (ascii "users") →
    isUnderOU dn' (ascii "users") → HasUid attributes uid → HasUid attributes' uid → dn = dn'
  left : ∀ dn attributes uid, start dn = some attributes → HasUid attributes uid →
    ∃ dn' attributes', db.directory dn' = some attributes' ∧ HasUid attributes' uid
  idle : ∀ again, ∃ report, (repairUIDUniqueness trees s again db).1 = .ok report ∧
    report.actions = []

lemma hasUid_recordAt {directory : Bytes → Option Attributes}
    (htidy : ∀ dn attributes, directory dn = some attributes → Tidy attributes) :
    (∃ attributes, directory dn = some attributes ∧ HasUid attributes uid) ↔
      (recordAt directory dn).map UIDRecord.uid = some uid := by
  unfold recordAt
  cases hdirectory : directory dn with
  | none => simp
  | some attributes =>
    have hiff : HasUid attributes uid ↔
        (uidRecord ⟨dn, attributes⟩).map UIDRecord.uid = some uid :=
      hasUid_iff (htidy dn attributes hdirectory)
    simpa using hiff

lemma Clean.hasUid_iff (h : Clean live db) :
    (∃ attributes, db.directory dn = some attributes ∧ HasUid attributes uid) ↔
      ∃ rec ∈ live, rec.dn = dn ∧ rec.uid = uid :=
  (hasUid_recordAt h.tidy).trans (h.shows dn uid)

lemma filter_outside {records : List UIDRecord} (hnodup : (records.map UIDRecord.dn).Nodup) :
    records.filter (fun rec => rec.dn ∉ (records.filter (!·.isUsersOU)).map UIDRecord.dn) =
      records.filter isUsersOU := by
  refine filter_congr fun rec hrec => ?_
  rw [Bool.eq_iff_iff, decide_eq_true_iff]
  constructor
  · intro hnot
    by_contra hout
    exact hnot (mem_map_of_mem (mem_filter.mpr ⟨hrec, by simpa using hout⟩))
  · intro husers hmem
    obtain ⟨other, hother, heq⟩ := mem_map.mp hmem
    obtain ⟨hotherMem, hout⟩ := mem_filter.mp hother
    rw [inj_on_of_nodup_map hnodup hotherMem hrec heq, husers] at hout
    cases hout

/-- The entries with a uid after a repair are those of the records that are left. -/
lemma repair_clean (haccept : trees.Accepting) (hdry : call.dryRun = false)
    (h : Repairable s call db)
    (horderly : Orderly (uidRecords db.directory) (uidUsers db.directory))
    {report : UIDRepairReport} (hok : repairUIDUniqueness trees s call db = (.ok report, db'))
    (hfailed : report.failed = 0) : ∃ kept m, (∀ rec, rec ∈ kept ↔ rec ∈ uidUsers db.directory) ∧
      (kept.map UIDRecord.dn).Nodup ∧ Holds m (kept.map (matched kept)) ∧
      Clean (survivors kept m) db' := by
  obtain ⟨entries, read, hsearch, hrest, hdirectory, hrecords, hnodup⟩ :=
    search_records h.atRest h.tidy call.searchOrders
  have hnodup := hnodup h.paths
  generalize hall : entries.filterMap uidRecord = records at hrecords hnodup
  have hkept : ∀ rec, rec ∈ records.filter isUsersOU ↔ rec ∈ uidUsers db.directory := by
    intro rec
    rw [mem_filter, hrecords]
    rfl
  have hsub : ∀ rec ∈ records.filter isUsersOU, rec ∈ uidRecords db.directory :=
    fun rec hrec => ((hkept rec).mp hrec).1
  have hcanonical : ∀ rec ∈ records, ∃ path, Canonical rec.dn path := fun rec hrec =>
    (recordAt_dn ((hrecords rec).mp hrec)).2
  have hkeptNodup : ((records.filter isUsersOU).map UIDRecord.dn).Nodup :=
    hnodup.sublist (filter_sublist.map _)
  have hset : {rec | rec ∈ records.filter isUsersOU} = uidUsers db.directory :=
    Set.ext hkept
  rw [repairUIDUniqueness, hsearch] at hok
  dsimp only at hok
  rw [hall] at hok
  obtain ⟨hreport, rfl⟩ := Prod.mk.inj hok
  rw [← Except.ok.inj hreport] at hfailed
  have hmatched := Nat.le_zero.mp
    ((le_foldl _ failed_resolveGroup_le _ _).trans_eq hfailed)
  have hremoved := Nat.le_zero.mp ((le_foldl _ failed_matchRDN_le _ _).trans_eq hmatched)
  -- the first phase leaves the users
  have hstart : Repairing db.directory [] records read :=
    ⟨⟨hrest, hdirectory ▸ h.tidy, hdirectory ▸ shows_of_mem hrecords⟩,
      fun dn _ => congrFun hdirectory dn⟩
  have hfirst := removeOutside_loop haccept hdry h.fits hstart hcanonical hnodup hremoved
  rw [filter_outside hnodup] at hfirst
  -- the second one follows the map
  have hm : Holds ((records.filter isUsersOU).foldl add ∅)
      (records.filter isUsersOU) := holds_empty.foldl_add _
  have huntouched : ∀ rec ∈ records.filter isUsersOU,
      rec.dn ∉ (records.filter (!·.isUsersOU)).map UIDRecord.dn := by
    intro rec hrec
    rw [← filter_outside hnodup] at hrec
    exact of_decide_eq_true (mem_filter.mp hrec).2
  obtain ⟨hm', hsecond⟩ := matchRDN_loop haccept hdry h.fits (hset ▸ horderly) hsub hkeptNodup
    hm hfirst (fun rec hrec => hcanonical rec (mem_of_mem_filter hrec))
    (fun rec hrec => (recordAt_fields (hsub rec hrec)).2.1) huntouched hmatched
  -- the third one chooses
  have hthird :=
    resolveGroup_loop haccept hdry hsecond (fun binding hbinding rec hrec => ?_) hfailed
  · rw [filter_deletedDNs hm' hkeptNodup] at hthird
    exact ⟨_, _, hkept, hkeptNodup, hm', hthird⟩
  · have hsame := group_of_range hbinding
    obtain ⟨hmem, -⟩ := (hm' binding.1 rec).mp (hsame ▸ hrec)
    obtain ⟨first, hfirstMem, rfl⟩ := mem_map.mp hmem
    rw [first.dn_matched]
    exact hcanonical first (mem_of_mem_filter hfirstMem)

/-- The uids are safe just if the right entries are preferred. -/
lemma uidsSafe_iff (htidy : ∀ dn attributes, db.directory dn = some attributes → Tidy attributes)
    (horderly : Orderly (uidRecords db.directory) (uidUsers db.directory))
    (hkept : ∀ rec, rec ∈ kept ↔ rec ∈ uidUsers db.directory)
    (hnodup : (kept.map UIDRecord.dn).Nodup) (hm : m.Holds (kept.map (matched kept)))
    (hclean : Clean (survivors kept m) db') :
    UidsSafe trees s db.directory db' ↔ Preferred (uidUsers db.directory) := by
  have hset : {rec | rec ∈ kept} = uidUsers db.directory := Set.ext hkept
  have hiff := uids_left_iff (hset ▸ horderly) (fun rec hrec => ((hkept rec).mp hrec).1) hnodup hm
  rw [hset] at hiff
  rw [← hiff]
  -- the records of the entries after the repair
  have hrecord : ∀ rec ∈ uidRecords db'.directory, ∃ left ∈ survivors kept m,
      left.dn = rec.dn ∧ left.uid = rec.uid := by
    intro rec hrec
    have hat : recordAt db'.directory rec.dn = some rec := hrec
    exact (hclean.shows rec.dn rec.uid).mp (by rw [hat]; rfl)
  constructor
  · intro hsafe rec hrec
    have hat : recordAt db.directory rec.dn = some rec := hrec
    obtain ⟨attributes, hattributes, huid⟩ := (hasUid_recordAt htidy).mpr
      (congrArg (Option.map UIDRecord.uid) hat)
    obtain ⟨dn', attributes', hattributes', huid'⟩ := hsafe.left _ _ _ hattributes huid
    obtain ⟨left, hleft, -, hleftUid⟩ := hclean.hasUid_iff.mp ⟨attributes', hattributes', huid'⟩
    exact ⟨left, hleft, hleftUid⟩
  · intro hleft
    refine ⟨?_, ?_, fun again => repair_idle hclean.atRest hclean.tidy ?_ ?_⟩
    · intro dn dn' attributes attributes' uid hdn hdn' _ _ huid huid'
      obtain ⟨rec, hrec, rfl, hrecUid⟩ := hclean.hasUid_iff.mp ⟨attributes, hdn, huid⟩
      obtain ⟨other, hother, rfl, hotherUid⟩ := hclean.hasUid_iff.mp ⟨attributes', hdn', huid'⟩
      exact survivors_unique hrec hother (hrecUid.trans hotherUid.symm)
    · intro dn attributes uid hdn huid
      obtain ⟨rec, hrec, hrecUid⟩ := Option.map_eq_some_iff.mp
        ((hasUid_recordAt htidy).mp ⟨attributes, hdn, huid⟩)
      obtain ⟨rfl, -⟩ := recordAt_dn hrec
      obtain ⟨left, hsurvives, hleftUid⟩ := hleft rec hrec
      exact ⟨left.dn, hclean.hasUid_iff.mpr ⟨left, hsurvives, rfl, hleftUid.trans hrecUid⟩⟩
    · intro rec hrec
      obtain ⟨left, hsurvives, hdn, huid⟩ := hrecord rec hrec
      obtain ⟨⟨first, hfirst, hlives, rfl⟩, -⟩ := mem_survivors_iff.mp hsurvives
      have hagrees := UIDRecord.mismatched_matched hlives
      obtain ⟨hfirstRecord, husers⟩ := (hkept first).mp hfirst
      obtain ⟨hattr, hvalue, hou⟩ := recordAt_fields hrec
      obtain ⟨hattr', hvalue', hou'⟩ := recordAt_fields hfirstRecord
      rw [first.dn_matched] at hdn
      rw [hdn] at hattr' hvalue' hou'
      rw [mismatched, UIDRecord.rdnAttr_matched, UIDRecord.rdnValue_matched, huid,
        hattr', hvalue', ← hattr, ← hvalue] at hagrees
      exact ⟨hou.trans (hou'.symm.trans husers), hagrees⟩
    · intro rec hrec other hother huid
      obtain ⟨left, hsurvives, hdn, hleftUid⟩ := hrecord rec hrec
      obtain ⟨left', hsurvives', hdn', hleftUid'⟩ := hrecord other hother
      rw [← hdn, ← hdn']
      exact survivors_unique hsurvives hsurvives' (hleftUid.trans (huid.trans hleftUid'.symm))

end Repairs

/-! ## Examples -/

/-- A repair without timestamps, with all maps in ascending order. -/
def RepairCall.plain : RepairCall :=
  ⟨false, [], fun _ => .ascending, fun _ => [], fun _ => [], fun _ _ => .ascending,
    fun _ _ => .ascending, .ascending⟩

/-- An entry with a uid and perhaps an object class. -/
def person (dn uid : String) (objectClass : Option String) : Entry :=
  ⟨ascii dn, UnorderedMap.insertAll ∅ ((ascii "uid", [ascii uid]) ::
    (objectClass.map fun name => (ascii "objectclass", [ascii name])).toList)⟩

section OnDisk

variable {entries : List Entry}

/-- Entries whose attributes the repair reads and writes without trouble. -/
def Regular (entries : List Entry) : Prop :=
  ∀ dn ∈ entries.map Entry.dn, ∀ attributes ∈ (onDisk entries).directory dn,
    (∀ name ∈ attributes.keys, toLower name = name) ∧ (uidValues attributes).length ≤ 1 ∧
      ∀ change ∈ [uidRemoval, uidReplacement (parseDNFirstRDN dn).2],
        ∀ new ∈ ((RepairCall.plain.invocation 0 (.modify dn [change] [])).modifyEntry (server false)
          [change] [] ⟨dn, attributes⟩).toOption, new.Fits 4

instance : Decidable (Regular entries) :=
  inferInstanceAs (Decidable (∀ dn ∈ entries.map Entry.dn, _))

lemma repairable_onDisk (hnames : ∀ entry ∈ entries, isCanonical entry.dn)
    (hpaths : ((onDisk entries).radix.paths.map Prod.fst).Nodup) (h : Regular entries) :
    Repairable (server false) .plain (onDisk entries) where
  atRest := ⟨.opened (opened_onDisk entries) ((opened_onDisk entries).synced (paths_onDisk hnames)),
    indexed_onDisk entries⟩
  paths := hpaths
  tidy := fun dn attributes hattributes => by
    obtain ⟨hlower, hsingle, -⟩ := h dn
      (mem_of_directory_onDisk hnames (hattributes ▸ rfl)) attributes hattributes
    exact ⟨fun name hname => hlower name (Std.ExtTreeMap.mem_keys.mpr hname), hsingle⟩
  fits := fun n dn attributes change new hattributes hchange hnew => by
    obtain ⟨-, -, hfits⟩ := h dn
      (mem_of_directory_onDisk hnames (hattributes ▸ rfl)) attributes hattributes
    refine hfits change (by simpa using hchange) new ?_
    exact Option.mem_def.mpr (congrArg Except.toOption hnew)

/-- The records of the entries, one by one. -/
def records (entries : List Entry) : List UIDRecord :=
  (entries.map Entry.dn).filterMap (recordAt (onDisk entries).directory)

section

variable (hnames : ∀ entry ∈ entries, isCanonical entry.dn)
include hnames

lemma mem_records {rec : UIDRecord} :
    rec ∈ uidRecords (onDisk entries).directory ↔ rec ∈ records entries := by
  rw [records, mem_filterMap]
  constructor
  · intro hrec
    have hat : recordAt (onDisk entries).directory rec.dn = some rec := hrec
    refine ⟨rec.dn, mem_of_directory_onDisk hnames ?_, hat⟩
    obtain ⟨attributes, hattributes, -⟩ := Option.bind_eq_some_iff.mp hat
    rw [hattributes]
    rfl
  · rintro ⟨dn, -, hrec⟩
    obtain ⟨rfl, -⟩ := recordAt_dn hrec
    exact hrec

lemma uidRecords_onDisk : uidRecords (onDisk entries).directory = {rec | rec ∈ records entries} :=
  Set.ext fun _ => mem_records hnames

lemma uidUsers_onDisk :
    uidUsers (onDisk entries).directory =
      {rec | rec ∈ (records entries).filter isUsersOU} := by
  refine Set.ext fun rec => ?_
  rw [Set.mem_ofPred_eq, mem_filter, ← mem_records hnames]
  rfl

lemma orderly_onDisk
    (hsettled : ∀ rec ∈ records entries, ∃ user ∈ (records entries).filter isUsersOU,
      user.mismatched = false ∧ user.uid = rec.uid)
    (htargets : ((((records entries).filter isUsersOU).filter mismatched).map
      UIDRecord.rdnValue).Nodup) :
    Orderly (uidRecords (onDisk entries).directory) (uidUsers (onDisk entries).directory) := by
  rw [uidRecords_onDisk hnames, uidUsers_onDisk hnames]
  refine ⟨hsettled, fun rec hrec other hother hmismatched hmismatched' heq => .inl ?_⟩
  exact congrArg UIDRecord.dn (inj_on_of_nodup_map htargets
    (mem_filter.mpr ⟨hrec, hmismatched⟩) (mem_filter.mpr ⟨hother, hmismatched'⟩) heq)

end

end OnDisk

/-- A group with the uid of users, two entries that disagree with their RDN, and users that share
a uid. -/
def crowd : List Entry :=
  [person "cn=g,ou=groups,dc=x" "a" none, person "uid=b,ou=users,dc=x" "a" none,
    person "cn=b,ou=users,dc=x" "b" none, person "cn=c,ou=users,dc=x" "a" (some "person"),
    person "cn=d,ou=users,dc=x" "a" none, person "uid=e,ou=users,dc=x" "a" none]

/-- The entry that is deleted for its RDN is preferred to the other one with its uid. -/
def rivals : List Entry :=
  [person "uid=b,ou=users,dc=x" "a" (some "person"), person "cn=b,ou=users,dc=x" "b" none,
    person "cn=c,ou=users,dc=x" "a" none]

end Oba.Backend
