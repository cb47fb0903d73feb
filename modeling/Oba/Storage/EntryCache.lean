import Oba.Storage.CacheFile
import Oba.Storage.EntryCodec
import Oba.Storage.VersionStore

/-! # The entry cache

`cache_persist.go`: when the database is closed, the newest version of every DN is written to
a cache file, unless it is uncommitted or a deletion. A database that is opened puts the
versions of the file on the chains. The bytes of a version are those that `serializeEntry`
gives for its attributes.
-/

namespace Oba.Storage

open ByteCodec List Option

/-- `bytes.Reader.Read` into a buffer of the given size, which keeps its zeros when there are
too few bytes. -/
def bufRead (count : Nat) (s : Bytes) : Option (Bytes × Bytes) :=
  if s = [] then none else some (s.take count ++ List.replicate (count - s.length) 0, s.drop count)

lemma bufRead_append {bytes rest : Bytes} (hne : bytes ++ rest ≠ []) :
    bufRead bytes.length (bytes ++ rest) = some (bytes, rest) := by
  have hpad : bytes.length - (bytes ++ rest).length = 0 := by
    rw [length_append]
    omega
  rw [bufRead, if_neg hne, take_left, drop_left, hpad, replicate_zero, append_nil]

namespace VersionStore

variable {vs : VersionStore} {dn : Bytes} {orders : Bytes → MapOrder}

/-- The DNs of the version map, in the order in which a loop runs through it. -/
structure Range (vs : VersionStore) where
  dns : List Bytes
  nodup : dns.Nodup
  mem_iff : ∀ dn, dn ∈ dns ↔ vs.versions dn ≠ []

/-- The version of a DN that goes to the file. -/
def saved (vs : VersionStore) (dn : Bytes) : Option Version :=
  (vs.versions dn).head?.filter fun v => v.commitTS ≠ 0 ∧ ¬ v.deleted

def putSaved (order : MapOrder) (dn : Bytes) (v : Version) : Bytes :=
  putBlock 2 dn ++ putBlock 4 (serializeEntry order ⟨dn, v.data⟩) ++ putUint 8 v.pageID ++
    putUint 2 0

/-- The data of the file: the count is that of all DNs. -/
def savedData (range : vs.Range) (orders : Bytes → MapOrder) : Bytes :=
  putUint 4 range.dns.length ++ range.dns.flatMap fun dn =>
    match vs.saved dn with
    | some v => putSaved (orders dn) dn v
    | none => []

/-- `SaveCache`, which leaves the file alone when there is no version. -/
def saveCache (range : vs.Range) (orders : Bytes → MapOrder) (txID : Nat) : Option Bytes :=
  if range.dns = [] then none
  else some (Cache.writeFile Cache.typeEntry (savedData range orders) range.dns.length txID)

def readSaved (s : Bytes) : Option ((Bytes × Bytes × Nat) × Bytes) := do
  let (dnLen, s) ← readUint 2 s
  let (dn, s) ← bufRead dnLen s
  let (dataLen, s) ← readUint 4 s
  let (data, s) ← bufRead dataLen s
  let (pageID, s) ← readUint 8 s
  let (_, s) ← readUint 2 s
  some ((dn, data, pageID), s)

def loadCommittedVersion (vs : VersionStore) (dn data : Bytes) (pageID : Nat) : VersionStore :=
  let version : Version := ⟨0, 1, (deserializeEntry data).getD ∅, pageID, false⟩
  { vs with versions := Function.update vs.versions dn [version] }

/-- The loop of `LoadCache`, with a flag that there was no error. An error ends it like the end of
the data does; what was loaded stays. -/
def loadEntries : Nat → Bytes → VersionStore → VersionStore × Bool
  | 0, _, vs => (vs, true)
  | count + 1, s, vs =>
    match readSaved s with
    | none => (vs, s = [])
    | some ((dn, data, pageID), s) => loadEntries count s (vs.loadCommittedVersion dn data pageID)

def loadCache (vs : VersionStore) (file : Option Bytes) (expectedTxID : Nat) :
    VersionStore × Bool :=
  match file.bind (Cache.readFile · Cache.typeEntry expectedTxID) with
  | none => (vs, false)
  | some (data, _) =>
    match readUint 4 data with
    | none => (vs, false)
    | some (count, s) => loadEntries count s vs

/-! ## Reading what was saved -/

/-- What is saved fits the fields of the file. -/
structure SavedFits (range : vs.Range) (orders : Bytes → MapOrder) : Prop where
  count : range.dns.length < 256 ^ 4
  data : (savedData range orders).length < 256 ^ 8
  dn : ∀ dn v, vs.saved dn = some v → dn.length < 256 ^ 2
  size : ∀ dn v, vs.saved dn = some v → (serializeEntry (orders dn) ⟨dn, v.data⟩).length < 256 ^ 4
  entry : ∀ dn v, vs.saved dn = some v → Entry.Fits 4 ⟨dn, v.data⟩

lemma readSaved_putSaved {order : MapOrder} {v : Version} (hdn : dn.length < 256 ^ 2)
    (hsize : (serializeEntry order ⟨dn, v.data⟩).length < 256 ^ 4) (rest : Bytes) :
    readSaved (putSaved order dn v ++ rest) =
      some ((dn, serializeEntry order ⟨dn, v.data⟩, v.pageID % 256 ^ 8), rest) := by
  have hread : ∀ bytes (width n : Nat) (rest : Bytes), 0 < width →
      bufRead bytes.length (bytes ++ (putUint width n ++ rest)) =
        some (bytes, putUint width n ++ rest) := fun bytes width n rest hpos => by
    refine bufRead_append fun hnil => ?_
    have hlength := congrArg length hnil
    simp only [length_append, length_putUint, length_nil] at hlength
    omega
  simp only [readSaved, putSaved, putBlock, append_assoc, readUint_putUint,
    Nat.mod_eq_of_lt hdn, Nat.mod_eq_of_lt hsize, hread _ 4 _ _ (by decide),
    hread _ 8 _ _ (by decide), bind_eq_bind, bind_some]

/-- Loading the file of a list of DNs puts what was saved of them on the chains. -/
lemma loadEntries_saved {dns : List Bytes} (hnodup : dns.Nodup)
    (hdn : ∀ dn v, vs.saved dn = some v → dn.length < 256 ^ 2)
    (hsize : ∀ dn v, vs.saved dn = some v →
      (serializeEntry (orders dn) ⟨dn, v.data⟩).length < 256 ^ 4)
    (hentry : ∀ dn v, vs.saved dn = some v → Entry.Fits 4 ⟨dn, v.data⟩) {count : Nat}
    (hcount : dns.length ≤ count) (start : VersionStore) :
    ∃ loaded, loadEntries count (dns.flatMap fun dn =>
        match vs.saved dn with
        | some v => putSaved (orders dn) dn v
        | none => []) start = ({ start with versions := loaded }, true) ∧
      ∀ dn, loaded dn = match vs.saved dn with
        | some v => if dn ∈ dns then [⟨0, 1, v.data, v.pageID % 256 ^ 8, false⟩]
          else start.versions dn
        | none => start.versions dn := by
  induction dns generalizing count start with
  | nil =>
    refine ⟨start.versions, by cases count <;> rfl, fun dn => ?_⟩
    cases vs.saved dn <;> simp
  | cons dn dns ih =>
    obtain ⟨hfresh, hrest⟩ := nodup_cons.mp hnodup
    rw [length_cons] at hcount
    rw [flatMap_cons]
    cases hsaved : vs.saved dn with
    | none =>
      obtain ⟨loaded, hload, hloaded⟩ := ih hrest (Nat.le_of_succ_le hcount) start
      refine ⟨loaded, hload, fun other => ?_⟩
      rw [hloaded]
      cases hother : vs.saved other with
      | none => rfl
      | some v =>
        have hne : other ≠ dn := by
          rintro rfl
          cases hsaved.symm.trans hother
        simp [hne]
    | some v =>
      obtain ⟨count, rfl⟩ : ∃ less, count = less + 1 := ⟨count - 1, by omega⟩
      obtain ⟨loaded, hload, hloaded⟩ := ih hrest (Nat.le_of_succ_le_succ hcount)
        (start.loadCommittedVersion dn (serializeEntry (orders dn) ⟨dn, v.data⟩)
          (v.pageID % 256 ^ 8))
      refine ⟨loaded, ?_, fun other => ?_⟩
      · rw [loadEntries, readSaved_putSaved (hdn dn v hsaved) (hsize dn v hsaved)]
        exact hload
      · rw [hloaded, VersionStore.loadCommittedVersion,
          deserializeEntry_serializeEntry _ (hentry dn v hsaved), getD_some]
        by_cases hother : other = dn
        · subst hother
          simp [hsaved, hfresh]
        · simp [hother]

lemma Range.saved_of_not_mem (range : vs.Range) (h : dn ∉ range.dns) : vs.saved dn = none := by
  have hnil : vs.versions dn = [] := by
    by_contra hne
    exact h ((range.mem_iff dn).mpr hne)
  rw [saved, hnil]
  rfl

/-- A new store that loads the file has exactly the versions that were saved. There is no file
if there are no chains. -/
lemma loadCache_saveCache {range : vs.Range} (hfits : SavedFits range orders) {txID : Nat}
    (htx : txID < 256 ^ 8) :
    ∃ loaded, new.loadCache (saveCache range orders txID) txID =
        ({ new with versions := loaded }, decide (range.dns ≠ [])) ∧
      ∀ dn, match vs.saved dn with
        | some v => ∃ page, loaded dn = [⟨0, 1, v.data, page, false⟩]
        | none => loaded dn = [] := by
  by_cases hempty : range.dns = []
  · refine ⟨new.versions, ?_, fun dn => ?_⟩
    · rw [saveCache, if_pos hempty, decide_eq_false (not_not.mpr hempty)]
      rfl
    · rw [range.saved_of_not_mem (by rw [hempty]; exact not_mem_nil)]
      rfl
  · obtain ⟨loaded, hload, hloaded⟩ := loadEntries_saved range.nodup hfits.dn hfits.size
      hfits.entry (Nat.le_refl range.dns.length) new
    have hcount : range.dns.length < 256 ^ 8 := hfits.count.trans (by decide)
    refine ⟨loaded, ?_, fun dn => ?_⟩
    · rw [loadCache, saveCache, if_neg hempty, bind_some,
        Cache.readFile_writeFile hcount htx hfits.data]
      dsimp only
      rw [savedData, readUint_putUint, Nat.mod_eq_of_lt hfits.count, decide_eq_true hempty]
      exact hload
    · rw [hloaded]
      cases hsaved : vs.saved dn with
      | none => rfl
      | some v =>
        refine ⟨_, if_pos ?_⟩
        by_contra hmem
        cases (range.saved_of_not_mem hmem).symm.trans hsaved

end VersionStore

end Oba.Storage
