import Mathlib.Data.List.Permutation
import Oba.Backend.Linearization

/-! # Modifications of one entry

A modification reads the entry, computes the new one and writes it back as a whole. It makes no
difference that others do so at the same time as long as the entry that was read is still the
newest one when it is written back.
-/

namespace Oba.Backend

open Storage ObaDB List

/-- What a modification makes of the attributes of the entry when it runs alone. -/
def Invocation.modified (s : Settings) (inv : Invocation) (attributes : Attributes) : Attributes :=
  match inv.request with
  | .modify _ changes bindDN =>
    if changes = [] then attributes
    else match inv.modifyEntry s changes bindDN ⟨inv.request.dn, attributes⟩ with
      | .ok new => new.attributes
      | .error _ => attributes
  | _ => attributes

/-- The newest version is the entry that the client has read. -/
def UpToDate {ι : Type} (directory : Bytes → Option Attributes) (m : Made ι) : Prop :=
  directory m.call.dn = m.entry.map Entry.attributes

instance {ι : Type} (directory : Bytes → Option Attributes) (m : Made ι) :
    Decidable (UpToDate directory m) := inferInstanceAs (Decidable (_ = _))

section

variable {τ ι : Type} {trees : IndexTrees τ} {s : Settings} {inv : ι → Invocation} {dn : Bytes}
  {attributes : Attributes}

/-- The request is a modification of the DN. -/
def Modifies (dn : Bytes) (request : Request) : Prop :=
  ∃ raw changes bindDN, request = .modify raw changes bindDN ∧ normalizeDN raw = dn

/-- A modification with no changes does nothing. -/
lemma modified_of_refusal {inv : Invocation} {result : Except BackendError Unit}
    (hmodifies : Modifies dn inv.request) (hdn : dn ≠ [])
    (hrefusal : inv.request.refusal = some result) (attributes : Attributes) :
    inv.modified s attributes = attributes := by
  obtain ⟨raw, changes, bindDN, hrequest, hraw⟩ := hmodifies
  have hne : raw ≠ [] := by
    rintro rfl
    exact hdn hraw.symm
  have hchanges : changes = [] := by
    by_contra hchanges
    rw [hrequest, Request.refusal, if_neg hne, if_neg hchanges] at hrefusal
    cases hrefusal
  rw [Invocation.modified, hrequest]
  exact if_pos hchanges

/-- A modification of an entry that is up to date. -/
lemma value_of_upToDate {m : Made ι} {directory : Bytes → Option Attributes}
    (hmodifies : Modifies dn (inv m.client).request)
    (hmade : Fetched (inv m.client) m.entry ∧ (inv m.client).toWrite s m.entry = .ok m.call)
    (hdate : UpToDate directory m) (hvalue : directory dn = some attributes) :
    m.call.dn = dn ∧ m.call.value = some ((inv m.client).modified s attributes) := by
  obtain ⟨⟨haccepted, hread⟩, hwrite⟩ := hmade
  have hcall := Invocation.dn_of_toWrite hread hwrite
  obtain ⟨raw, changes, bindDN, hrequest, hraw⟩ := hmodifies
  have hrequestDN : (inv m.client).request.dn = dn := by
    rw [hrequest]
    exact hraw
  obtain ⟨entry, new, hentry, hnew, hput⟩ := Invocation.toWrite_modify hrequest hwrite
  have hattributes : entry.attributes = attributes := by
    rw [UpToDate, hcall, hrequestDN, hvalue, hentry] at hdate
    exact (Option.some.inj hdate).symm
  obtain rfl : entry = ⟨(inv m.client).request.dn, attributes⟩ := by
    rw [← hattributes, ← hread entry hentry]
  refine ⟨hcall.trans hrequestDN, ?_⟩
  have hchanges : changes ≠ [] := by
    rintro rfl
    rw [hrequest, Request.refusal] at haccepted
    split at haccepted <;> cases haccepted
  rw [hput, Invocation.modified, hrequest]
  dsimp only
  rw [if_neg hchanges, ← hrequest, hnew]
  rfl

/-- Writes of modifications that are up to date, one after the other. -/
lemma replay_modified {start : Bytes → Option Attributes} {log : List (Made ι)}
    (hmodify : ∀ i, Modifies dn (inv i).request)
    (hmade : ∀ m ∈ log, Fetched (inv m.client) m.entry ∧
      (inv m.client).toWrite s m.entry = .ok m.call)
    (hdate : ∀ before m after, log = before ++ m :: after → UpToDate (replay start before) m)
    (hstart : start dn = some attributes) :
    replay start log dn = some ((log.map Made.client).foldl
      (fun attributes i => (inv i).modified s attributes) attributes) := by
  induction log using reverseRecOn with
  | nil => exact hstart
  | append_singleton log m ih =>
    have hbefore := ih (fun m hm => hmade m (mem_append_left _ hm))
      fun before m' after hlog => hdate before m' (after ++ [m]) (by rw [hlog]; simp)
    obtain ⟨hcall, hvalue⟩ := value_of_upToDate (hmodify m.client)
      (hmade m (mem_append_right _ (mem_singleton_self m)))
      (hdate log m [] rfl) hbefore
    rw [map_append, foldl_append, replay, foldl_append]
    show (m.call.apply (replay start log)) dn = _
    rw [WriteCall.apply, hcall, Function.update_self, hvalue]
    rfl

end

/-- Each of two clients adds a mail address to the person. -/
def addMail (first : Bool) : Invocation :=
  .plain (.modify personDN
    [⟨.add, ascii "mail", [ascii (if first then "x" else "y")]⟩] [])

/-- One client adds the person. -/
def seeding : Option (System Unit Unit) :=
  allowedExec .empty (server false) (fun _ => .plain (.add (person "1") [])) (fun _ _ => True)
    (new ()) [(), (), (), ()]

lemma isSome_seeding : seeding.isSome := by decide +kernel

/-- The database after the person was added. -/
def seeded : ObaDB Unit := (seeding.get isSome_seeding).db

lemma quiet_seeded : Quiet seeded := by
  have hdone : ((seeding.get isSome_seeding).phase ()).returned.isSome := by decide +kernel
  exact (runs_allowedExec .empty (server false) _ isSome_seeding).quiet accepting_empty quiet_new
    fun _ => hdone

/-- The two clients run one after the other. -/
def inTurn : Option (System Unit Bool) :=
  allowedExec .empty (server false) addMail UpToDate seeded
    (List.replicate 6 true ++ List.replicate 6 false)

lemma isSome_inTurn : inTurn.isSome := by decide +kernel

/-- The two clients read the person before one of them writes. -/
def crossing (cluster : Bool) : List Bool :=
  if cluster then [true, true, true, true, false, false, false, false, true, false]
  else [true, true, true, false, false, false, true, true, true, false, false, false]

/-- The system after both. -/
def crossed (cluster : Bool) : Option (System Unit Bool) :=
  (System.initial seeded).exec .empty (server cluster) addMail (crossing cluster)

lemma crossed_attributes : ∀ cluster : Bool, ∃ sys ∈ crossed cluster,
    (∀ i, (sys.phase i).returned = some (.ok ())) ∧ ∀ order ∈ [true, false].permutations',
      (current sys.db personDN).toOption.map Entry.attributes ≠
        (current seeded personDN).toOption.map fun entry => order.foldl
          (fun attributes i => (addMail i).modified (server cluster) attributes)
          entry.attributes := by
  decide +kernel

/-- Both clients return success and only one mail address is there, which no order explains. -/
def ModificationLost (cluster : Bool) : Prop :=
  ∃ sys, crossed cluster = some sys ∧ (∀ i, (sys.phase i).returned = some (.ok ())) ∧
    ∀ entry, current seeded personDN = .ok entry →
      ∀ order : List Bool, order.Nodup → (∀ i, i ∈ order) →
        current sys.db personDN ≠ .ok ⟨personDN, order.foldl
          (fun attributes i => (addMail i).modified (server cluster) attributes)
          entry.attributes⟩

lemma modificationLost_all (cluster : Bool) : ModificationLost cluster := by
  obtain ⟨sys, hsys, hdone, hattributes⟩ := crossed_attributes cluster
  refine ⟨sys, hsys, hdone, fun entry hentry order hnodup hall hcurrent => ?_⟩
  have hperm : order.Perm [true, false] :=
    (perm_ext_iff_of_nodup hnodup (by decide)).mpr fun i => by simp [hall i]
  refine hattributes order (mem_permutations'.mpr hperm) ?_
  rw [hentry, hcurrent]
  rfl

end Oba.Backend
