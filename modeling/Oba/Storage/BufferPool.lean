import Oba.Storage.Entry

/-! # The buffer pool

Pages are cached up to a capacity, and the least recently used page without a pin makes room for a
new one. The pages, their recency and the dirty ones are kept apart. A callback writes dirty pages;
it may fail at every call.
-/

namespace Oba.Storage

open List

structure BufferPage where
  data : Bytes
  dirty : Bool
  pinCount : Nat

/-- The recently used pages come first in `lru`. -/
structure BufferPool where
  capacity : Nat
  pageSize : Nat
  pages : Std.ExtTreeMap Nat BufferPage
  lru : List Nat
  dirtyPages : Std.ExtTreeMap Nat Bool

def newBufferPool (capacity pageSize : Int) : BufferPool where
  capacity := if capacity ≤ 0 then 16 else capacity.toNat
  pageSize := if pageSize ≤ 0 then 4096 else pageSize.toNat
  pages := ∅
  lru := []
  dirtyPages := ∅

inductive BufferPoolError
  | bufferPoolFull
  | pageNotFound
  | pagePinned
  | negativePinCount
  | flush

namespace BufferPool

/-- Pages that the callback has written. -/
abbrev Saved := List (Nat × Bytes)

abbrev Answer (α : Type) := Except BufferPoolError α × BufferPool × Saved

/-- `copy` -/
def copy (dst src : Bytes) : Bytes := src.take dst.length ++ dst.drop src.length

variable (callback : Nat → Bytes → Bool) (pool : BufferPool) (id : Nat)

def access : BufferPool := { pool with lru := id :: pool.lru.filter (· ≠ id) }

def set (page : BufferPage) : BufferPool := { pool with pages := pool.pages.insert id page }

def get : Option BufferPage × BufferPool :=
  match pool.pages[id]? with
  | none => (none, pool)
  | some page => (some page, pool.access id)

/-- Writes a dirty page before it goes. -/
def save (page : BufferPage) : Option Saved :=
  if !page.dirty then some []
  else if callback id page.data then some [(id, page.data)] else none

def delete : BufferPool :=
  { pool with
    pages := pool.pages.erase id
    lru := pool.lru.filter (· ≠ id)
    dirtyPages := pool.dirtyPages.erase id }

def isPinned : Bool := (pool.pages[id]?).any (0 < ·.pinCount)

/-- The page that goes, the pool without it and what has been written. -/
def evictLocked : Option ((Nat × Bytes) × BufferPool × Saved) := do
  let id ← pool.lru.reverse.find? fun id => !pool.isPinned id
  let page ← pool.pages[id]?
  let saved ← save callback id page
  return ((id, page.data), pool.delete id, saved)

def put (data : Bytes) : Answer BufferPage :=
  match pool.pages[id]? with
  | some page =>
    let page := { page with data := copy page.data data }
    (.ok page, (pool.set id page).access id, [])
  | none =>
    let room := if pool.capacity ≤ pool.pages.size then (pool.evictLocked callback).map Prod.snd
      else some (pool, [])
    match room with
    | none => (.error .bufferPoolFull, pool, [])
    | some (pool, saved) =>
      let page := ⟨copy (replicate pool.pageSize 0) data, false, 0⟩
      (.ok page, (pool.set id page).access id, saved)

/-- Calls for a page that has to be there. -/
def find (answer : BufferPage → Answer Unit) : Answer Unit :=
  match pool.pages[id]? with
  | none => (.error .pageNotFound, pool, [])
  | some page => answer page

def pin : Answer Unit :=
  pool.find id fun page => (.ok (), pool.set id { page with pinCount := page.pinCount + 1 }, [])

def unpin : Answer Unit :=
  pool.find id fun page =>
    if page.pinCount = 0 then (.error .negativePinCount, pool, [])
    else (.ok (), pool.set id { page with pinCount := page.pinCount - 1 }, [])

def markDirty : Answer Unit :=
  pool.find id fun page => (.ok (), { pool.set id { page with dirty := true } with
    dirtyPages := pool.dirtyPages.insert id true }, [])

def flushPage : Answer Unit :=
  pool.find id fun page =>
    if !page.dirty then (.ok (), pool, [])
    else if callback id page.data then
      (.ok (), { pool.set id { page with dirty := false } with
        dirtyPages := pool.dirtyPages.erase id }, [(id, page.data)])
    else (.error .flush, pool, [])

/-- The loop over the dirty pages; it ends at the first failure. -/
def flushLoop : List Nat → BufferPool → Answer Unit
  | [], pool => (.ok (), { pool with dirtyPages := ∅ }, [])
  | id :: ids, pool =>
    match pool.pages[id]? with
    | none => flushLoop ids pool
    | some page =>
      if callback id page.data then
        let (result, pool, saved) := flushLoop ids (pool.set id { page with dirty := false })
        (result, pool, (id, page.data) :: saved)
      else (.error .flush, pool, [])

def flushAll (order : UnorderedMap.Order Nat Bool) : Answer Unit :=
  flushLoop callback ((order.range pool.dirtyPages).map Prod.fst) pool

def evict : Option (Nat × Bytes) × BufferPool × Saved :=
  match pool.evictLocked callback with
  | none => (none, pool, [])
  | some (page, pool, saved) => (some page, pool, saved)

def remove : Answer Unit :=
  pool.find id fun page =>
    if 0 < page.pinCount then (.error .pagePinned, pool, [])
    else match save callback id page with
      | none => (.error .flush, pool, [])
      | some saved => (.ok (), pool.delete id, saved)

end BufferPool

inductive PoolCall
  | get (id : Nat)
  | put (id : Nat) (data : Bytes)
  | pin (id : Nat)
  | unpin (id : Nat)
  | markDirty (id : Nat)
  | flushPage (id : Nat)
  | flushAll (order : UnorderedMap.Order Nat Bool)
  | evict
  | remove (id : Nat)

/-- The pages that a call uses. -/
def PoolCall.use : PoolCall → List Nat
  | get id | put id _ => [id]
  | _ => []

namespace BufferPool

/-- The pool after a call and what the callback has written during it. -/
def call (callback : Nat → Bytes → Bool) (pool : BufferPool) : PoolCall → BufferPool × Saved
  | .get id => ((pool.get id).2, [])
  | .put id data => (pool.put callback id data).2
  | .pin id => (pool.pin id).2
  | .unpin id => (pool.unpin id).2
  | .markDirty id => (pool.markDirty id).2
  | .flushPage id => (pool.flushPage callback id).2
  | .flushAll order => (pool.flushAll callback order).2
  | .evict => (pool.evict callback).2
  | .remove id => (pool.remove callback id).2

/-- The recency list has the pages of the pool in the order of their last uses. -/
structure Valid (limit : Nat) (uses : List Nat) (pool : BufferPool) : Prop where
  capacity : pool.capacity = limit
  size : pool.pages.size ≤ limit
  recency : ∀ id, id ∈ pool.lru ↔ id ∈ pool.pages
  sorted : pool.lru.Pairwise fun a b => uses.idxOf a < uses.idxOf b

/-- All other pages without a pin have been used since the last use of a page. -/
def Oldest (uses : List Nat) (pool : BufferPool) (id : Nat) : Prop :=
  ∀ other ∈ pool.pages, pool.isPinned other = false → other ≠ id →
    uses.idxOf other < uses.idxOf id

section

variable (callback : Nat → Bytes → Bool) (call : PoolCall)

/-- The callback was called with the data, and succeeded. -/
def Written (saved : Saved) (id : Nat) (data : Bytes) : Prop :=
  (id, data) ∈ saved ∧ callback id data

/-- A page that stays becomes clean only when it is written, and only `Put` changes its data. -/
def Stays (saved : Saved) (id : Nat) (page page' : BufferPage) : Prop :=
  (page.dirty → page'.dirty ∨ Written callback saved id page.data) ∧
    (page'.data = page.data ∨ ∃ data, call = .put id data ∧ page'.data = copy page.data data)

/-- A page that goes is not pinned, and it is the oldest one of its kind if the call does not
remove it. If it is dirty, it has been written. -/
def Spares (uses : List Nat) (pool : BufferPool) (out : BufferPool × Saved) : Prop :=
  ∀ id page, pool.pages[id]? = some page → match out.1.pages[id]? with
    | none => page.pinCount = 0 ∧ (page.dirty → Written callback out.2 id page.data) ∧
        (call = .remove id ∨ Oldest uses pool id)
    | some page' => Stays callback call out.2 id page page'

/-- What holds after a call. -/
def Keeps (limit : Nat) (uses : List Nat) (pool : BufferPool) (out : BufferPool × Saved) : Prop :=
  Spares callback call uses pool out ∧ Valid limit (call.use ++ uses) out.1

end

variable {callback : Nat → Bytes → Bool} {limit : Nat} {uses : List Nat} {pool : BufferPool}
  {saved : Saved} {id other : Nat} {page page' : BufferPage} {call : PoolCall}

lemma mem_of_getElem? (hpage : pool.pages[id]? = some page) : id ∈ pool.pages :=
  Std.ExtTreeMap.mem_iff_isSome_getElem?.mpr (hpage ▸ rfl)

lemma getElem?_set_of_ne (h : other ≠ id) :
    (pool.set id page).pages[other]? = pool.pages[other]? := by
  rw [set, Std.ExtTreeMap.getElem?_insert, if_neg (by simpa using h.symm)]

lemma Stays.refl (id : Nat) (page : BufferPage) : Stays callback call saved id page page :=
  ⟨.inl, .inl rfl⟩

/-- All pages stay. -/
lemma spares_of_stays {out : BufferPool × Saved}
    (h : ∀ id page, pool.pages[id]? = some page → ∃ page', out.1.pages[id]? = some page' ∧
      Stays callback call out.2 id page page') : Spares callback call uses pool out := by
  intro id page hpage
  obtain ⟨page', hpage', hstays⟩ := h id page hpage
  rw [hpage']
  exact hstays

lemma spares_refl (pool : BufferPool) : Spares callback call uses pool (pool, saved) :=
  spares_of_stays fun id page hpage => ⟨page, hpage, .refl id page⟩

/-- One page is replaced. -/
lemma spares_set (hpage : pool.pages[id]? = some page)
    (h : Stays callback call saved id page page') :
    Spares callback call uses pool (pool.set id page', saved) := by
  refine spares_of_stays fun other old hold => ?_
  by_cases hother : other = id
  · subst hother
    cases hold.symm.trans hpage
    exact ⟨page', by simp [set], h⟩
  · exact ⟨old, (getElem?_set_of_ne hother).trans hold, .refl other old⟩

/-- One page goes. -/
lemma spares_delete (hpage : pool.pages[id]? = some page) (hpin : page.pinCount = 0)
    (hgone : call = .remove id ∨ Oldest uses pool id)
    (hsave : save callback id page = some saved) :
    Spares callback call uses pool (pool.delete id, saved) := by
  intro other old hold
  by_cases hother : other = id
  · subst hother
    cases hold.symm.trans hpage
    simp only [delete, Std.ExtTreeMap.getElem?_erase_self]
    exact ⟨hpin, by grind [save, Written], hgone⟩
  · simp only [delete, Std.ExtTreeMap.getElem?_erase, compare_eq_iff_eq, Ne.symm hother, if_false,
      hold]
    exact .refl other old

namespace Valid

variable (h : Valid limit uses pool)
include h

lemma skip (hid : id ∉ pool.pages) : Valid limit (id :: uses) pool :=
  { h with sorted := h.sorted.imp_of_mem fun ha hb hlt => by grind [h.recency] }

lemma set (hpage : pool.pages[id]? = some page) (page' : BufferPage) :
    Valid limit uses (pool.set id page') where
  capacity := h.capacity
  size := by
    simpa [BufferPool.set, Std.ExtTreeMap.size_insert, mem_of_getElem? hpage] using h.size
  recency other := by
    have hid := mem_of_getElem? hpage
    by_cases hother : other = id
    · simp [BufferPool.set, hother, h.recency, hid]
    · simp [BufferPool.set, h.recency, Ne.symm hother]
  sorted := h.sorted

lemma delete (id : Nat) : Valid limit uses (pool.delete id) where
  capacity := h.capacity
  size := Std.ExtTreeMap.size_erase_le.trans h.size
  recency other := by
    rw [BufferPool.delete, mem_filter, h.recency, Std.ExtTreeMap.mem_erase]
    grind
  sorted := h.sorted.filter _

lemma access {pages : Std.ExtTreeMap Nat BufferPage}
    (hmem : ∀ other, other ∈ pages ↔ other = id ∨ other ∈ pool.pages) (hsize : pages.size ≤ limit) :
    Valid limit (id :: uses) ({ pool with pages := pages }.access id) where
  capacity := h.capacity
  size := hsize
  recency other := by
    simp only [BufferPool.access, mem_cons, mem_filter, h.recency, hmem]
    grind
  sorted := by
    refine pairwise_cons.mpr ⟨fun b hb => ?_, (h.sorted.filter _).imp_of_mem fun ha hb hlt => ?_⟩
    · grind
    · grind

lemma get (id : Nat) : Keeps callback (.get id) limit uses pool ((pool.get id).2, []) := by
  unfold BufferPool.get
  split
  next hnone => exact ⟨spares_refl pool, h.skip (by simpa using hnone)⟩
  next page hpage =>
    have hid := mem_of_getElem? hpage
    exact ⟨spares_of_stays fun other old hold => ⟨old, hold, .refl other old⟩,
      h.access (fun other => by grind) h.size⟩

/-- A page is used that is in the pool, or for which there is room. -/
lemma use (page : BufferPage) (hroom : id ∈ pool.pages ∨ pool.pages.size < limit) :
    Valid limit (id :: uses) ((pool.set id page).access id) := by
  refine h.access (fun other => ?_) ?_
  · simp [eq_comm (a := other)]
  · have hsize := h.size
    rw [Std.ExtTreeMap.size_insert]
    grind

/-- An evicted page is the least recently used one without a pin. -/
lemma evictLocked {gone : Nat × Bytes} {out : BufferPool × Saved}
    (hevict : pool.evictLocked callback = some (gone, out)) :
    Spares callback call uses pool out ∧ Valid limit uses out.1 ∧ out.1.pages.size < limit := by
  simp only [BufferPool.evictLocked, Option.bind_eq_bind, Option.bind_eq_some_iff] at hevict
  obtain ⟨id, hfind, page, hpage, saved, hsave, hout⟩ := hevict
  obtain ⟨-, rfl⟩ : _ ∧ (pool.delete id, saved) = out := by simpa using hout
  obtain ⟨hpin, before, after, hlru, hbefore⟩ := find?_eq_some_iff_append.mp hfind
  refine ⟨spares_delete hpage ?_ (.inr fun other hother hunpinned hne => ?_) hsave, h.delete id, ?_⟩
  · simpa [isPinned, hpage] using hpin
  · have hmem := mem_reverse.mpr ((h.recency other).mpr hother)
    have hsorted := pairwise_reverse.mpr h.sorted
    rw [hlru] at hmem hsorted
    have hafter : other ∈ after := by
      rcases mem_append.mp hmem with hmem | hmem
      · simpa [hunpinned] using hbefore other hmem
      · exact (mem_cons.mp hmem).resolve_left hne
    exact rel_of_pairwise_cons (pairwise_append.mp hsorted).2.1 hafter
  · have hsize := h.size
    have hid := mem_of_getElem? hpage
    have hpos : pool.pages.size ≠ 0 := fun hzero => by
      rw [Std.ExtTreeMap.eq_empty_iff_size_eq_zero.mpr hzero] at hid
      cases Std.ExtTreeMap.not_mem_empty hid
    rw [BufferPool.delete, Std.ExtTreeMap.size_erase]
    grind

lemma evict : Keeps callback .evict limit uses pool (pool.evict callback).2 := by
  unfold BufferPool.evict
  cases hevict : pool.evictLocked callback with
  | none => exact ⟨spares_refl pool, h⟩
  | some out =>
    obtain ⟨hspares, hvalid, -⟩ := h.evictLocked hevict
    exact ⟨hspares, hvalid⟩

/-- A page without a pin can be evicted if the callback works. -/
lemma evict_isSome (hid : id ∈ pool.pages) (hpin : pool.isPinned id = false)
    (hcallback : ∀ id data, callback id data) : (pool.evict callback).1.isSome := by
  have hfound : (pool.lru.reverse.find? fun id => !pool.isPinned id).isSome :=
    find?_isSome.mpr ⟨id, by simpa [h.recency] using hid, by simpa using hpin⟩
  obtain ⟨lru, hfind⟩ := Option.isSome_iff_exists.mp hfound
  have hmem : lru ∈ pool.pages := by simpa [h.recency] using mem_of_find?_eq_some hfind
  obtain ⟨page, hpage⟩ := Option.isSome_iff_exists.mp
    (Std.ExtTreeMap.mem_iff_isSome_getElem?.mp hmem)
  have hsave : (save callback lru page).isSome := by grind [save]
  obtain ⟨saved, hsaved⟩ := Option.isSome_iff_exists.mp hsave
  simp [BufferPool.evict, BufferPool.evictLocked, hfind, hpage, hsaved]

lemma put (id : Nat) (data : Bytes) :
    Keeps callback (.put id data) limit uses pool (pool.put callback id data).2 := by
  unfold BufferPool.put
  split
  next page hpage =>
    exact ⟨spares_set hpage ⟨.inl, .inr ⟨data, rfl, rfl⟩⟩,
      h.use _ (.inl (mem_of_getElem? hpage))⟩
  next hnone =>
    dsimp only
    split
    · exact ⟨spares_refl pool, h.skip (by simpa using hnone)⟩
    next roomy saved hroom =>
      obtain ⟨hspares, hvalid, hsize⟩ : Spares callback (.put id data) uses pool (roomy, saved) ∧
          Valid limit uses roomy ∧ roomy.pages.size < limit := by
        split at hroom
        · obtain ⟨⟨gone, _⟩, hevict, rfl⟩ := Option.map_eq_some_iff.mp hroom
          exact h.evictLocked hevict
        next hfew =>
          cases hroom
          exact ⟨spares_refl pool, h, by rw [← h.capacity]; omega⟩
      refine ⟨fun other old hold => ?_, hvalid.use _ (.inr hsize)⟩
      have hother : other ≠ id := by
        rintro rfl
        cases hnone.symm.trans hold
      have hstays := hspares other old hold
      rwa [← getElem?_set_of_ne hother] at hstays

end Valid

/-- The loop cleans pages that it has written and gives none up. -/
lemma flushLoop_spec (ids : List Nat) (h : Valid limit uses pool) :
    (∀ id page, pool.pages[id]? = some page → ∃ page',
        (flushLoop callback ids pool).2.1.pages[id]? = some page' ∧
          Stays callback call (flushLoop callback ids pool).2.2 id page page') ∧
      Valid limit uses (flushLoop callback ids pool).2.1 := by
  induction ids generalizing pool with
  | nil => exact ⟨fun id page hpage => ⟨page, hpage, .refl id page⟩, { h with }⟩
  | cons id ids ih =>
    unfold flushLoop
    split
    · exact ih h
    next page hpage =>
      split
      next hcallback =>
        obtain ⟨hstays, hvalid⟩ := ih (h.set hpage { page with dirty := false })
        refine ⟨fun other old hold => ?_, hvalid⟩
        by_cases hother : other = id
        · subst hother
          cases hold.symm.trans hpage
          obtain ⟨page', hpage', -, hdata⟩ := hstays other _ Std.ExtTreeMap.getElem?_insert_self
          exact ⟨page', hpage', fun _ => .inr ⟨mem_cons_self, hcallback⟩, hdata⟩
        · obtain ⟨page', hpage', hdirty, hdata⟩ :=
            hstays other old ((getElem?_set_of_ne hother).trans hold)
          exact ⟨page', hpage',
            fun h => (hdirty h).imp_right fun hw => ⟨mem_cons_of_mem _ hw.1, hw.2⟩, hdata⟩
      · exact ⟨fun id page hpage => ⟨page, hpage, .refl id page⟩, h⟩

lemma keeps_find {answer : BufferPage → Answer Unit}
    (hsame : Keeps callback call limit uses pool (pool, []))
    (hanswer : ∀ page, pool.pages[id]? = some page →
      Keeps callback call limit uses pool (answer page).2) :
    Keeps callback call limit uses pool (pool.find id answer).2 := by
  unfold find
  split
  · exact hsame
  next page hpage => exact hanswer page hpage

lemma markDirty_dirty (hid : id ∈ pool.pages) :
    ((pool.markDirty id).2.1.pages[id]?).any BufferPage.dirty := by
  obtain ⟨page, hpage⟩ := Option.isSome_iff_exists.mp
    (Std.ExtTreeMap.mem_iff_isSome_getElem?.mp hid)
  simp [markDirty, find, hpage, set]

/-- Every call keeps the order of the pages and gives up only what it may. -/
lemma Valid.step (h : Valid limit uses pool) (callback : Nat → Bytes → Bool) (call : PoolCall) :
    Keeps callback call limit uses pool (pool.call callback call) := by
  have hsame : Spares callback call uses pool (pool, []) := spares_refl pool
  cases call with
  | get id => exact h.get id
  | put id data => exact h.put id data
  | pin id =>
    exact keeps_find ⟨hsame, h⟩ fun page hpage =>
      ⟨spares_set hpage (.refl id page), h.set hpage _⟩
  | unpin id =>
    refine keeps_find ⟨hsame, h⟩ fun page hpage => ?_
    split
    · exact ⟨hsame, h⟩
    · exact ⟨spares_set hpage (.refl id page), h.set hpage _⟩
  | markDirty id =>
    exact keeps_find ⟨hsame, h⟩ fun page hpage =>
      ⟨spares_set hpage ⟨fun _ => .inl rfl, .inl rfl⟩, { h.set hpage _ with }⟩
  | flushPage id =>
    refine keeps_find ⟨hsame, h⟩ fun page hpage => ?_
    split
    · exact ⟨hsame, h⟩
    · split
      next hcallback =>
        exact ⟨spares_set hpage ⟨fun _ => .inr ⟨mem_cons_self, hcallback⟩, .inl rfl⟩,
          { h.set hpage _ with }⟩
      · exact ⟨hsame, h⟩
  | flushAll order =>
    obtain ⟨hstays, hvalid⟩ := flushLoop_spec _ h
    exact ⟨spares_of_stays hstays, hvalid⟩
  | evict => exact h.evict
  | remove id =>
    refine keeps_find ⟨hsame, h⟩ fun page hpage => ?_
    split
    · exact ⟨hsame, h⟩
    next hpin =>
      split
      · exact ⟨hsame, h⟩
      next hsave => exact ⟨spares_delete hpage (by omega) (.inl rfl) hsave, h.delete id⟩

end BufferPool
end Oba.Storage
