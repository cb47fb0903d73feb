import Oba.Server.Search

/-! # Size limits of searches

The one-level and the subtree searcher share one loop. It looks at the size limit before it looks
at the next entry, so that an entry which the filter rejects can exceed the limit.
-/

namespace Oba.Server.Limits

open Storage

/-! ## The loop -/

inductive ResultCode
  | success
  | operationsError
  | timeLimitExceeded
  | sizeLimitExceeded
  deriving DecidableEq, Repr

structure SearchResult where
  resultCode : ResultCode
  diagnosticMessage : Bytes
  entries : List SearchEntry
  deriving DecidableEq

/-- A missing configuration has no limits. -/
structure SearchConfig where
  defaultSizeLimit : Int := 0
  maxSizeLimit : Int := 0
  defaultTimeLimit : Int := 0
  maxTimeLimit : Int := 0

/-- The limit of a request under a default and a maximum. -/
def effectiveLimit (requested default max : Int) : Int :=
  let limit := if requested = 0 then default else requested
  if 0 < max ∧ (limit = 0 ∨ max < limit) then max else limit

/-- What a search uses of its request: the limits, the filter and the selection of attributes. -/
structure Search where
  sizeLimit : Int
  timeLimit : Int
  matchesFilter : Entry → Bool
  buildSearchEntry : Entry → SearchEntry

def Search.effectiveSizeLimit (req : Search) (config : SearchConfig) : Int :=
  effectiveLimit req.sizeLimit config.defaultSizeLimit config.maxSizeLimit

def Search.effectiveTimeLimit (req : Search) (config : SearchConfig) : Int :=
  effectiveLimit req.timeLimit config.defaultTimeLimit config.maxTimeLimit

/-- What an iterator gives, with missing entries, and whether it ends with an error. The clock
says for every entry whether the deadline has passed. -/
structure Iterator where
  items : List (Option Entry)
  failed : Bool := false
  late : Nat → Bool := fun _ => false

def processLoop (req : Search) (sizeLimit timeLimit : Int) (late : Nat → Bool) (failed : Bool) :
    List (Option Entry) → List SearchEntry → Nat → Nat → SearchResult
  | [], entries, _, _ =>
    if failed then ⟨.operationsError, ascii "error during search iteration", entries⟩
    else ⟨.success, [], entries⟩
  | item :: rest, entries, count, position =>
    if 0 < sizeLimit ∧ sizeLimit ≤ count then ⟨.sizeLimitExceeded, [], entries⟩
    else if 0 < timeLimit ∧ late position then ⟨.timeLimitExceeded, [], entries⟩
    else
      match item.filter req.matchesFilter with
      | none => processLoop req sizeLimit timeLimit late failed rest entries count (position + 1)
      | some entry => processLoop req sizeLimit timeLimit late failed rest
          (entries ++ [req.buildSearchEntry entry]) (count + 1) (position + 1)

def processResults (req : Search) (config : SearchConfig) (iter : Iterator) : SearchResult :=
  processLoop req (req.effectiveSizeLimit config) (req.effectiveTimeLimit config) iter.late
    iter.failed iter.items [] 0 0

/-! ## What the loop returns -/

/-- The entries that the filter accepts. -/
def Search.accepted (req : Search) (items : List (Option Entry)) : List Entry :=
  items.filterMap (·.filter req.matchesFilter)

/-- The limit is exceeded when it is reached before the last item. -/
lemma processLoop_eq {req : Search} {timeLimit : Int} {late : Nat → Bool}
    (htime : timeLimit ≤ 0) {n : Nat} (hn : 0 < n) (items : List (Option Entry))
    (entries : List SearchEntry) {count : Nat} (hcount : count ≤ n) (position : Nat) :
    processLoop req n timeLimit late false items entries count position =
      ⟨if items ≠ [] ∧ n - count ≤ (req.accepted items.dropLast).length then .sizeLimitExceeded
        else .success, [],
        entries ++ ((req.accepted items).take (n - count)).map req.buildSearchEntry⟩ := by
  induction items generalizing entries count position with
  | nil => simp [processLoop, Search.accepted]
  | cons item rest ih =>
    rw [processLoop]
    by_cases hfull : count = n
    · rw [if_pos ⟨by omega, by omega⟩, hfull, Nat.sub_self]
      simp
    · obtain ⟨room, hroom⟩ : ∃ room, n - count = room + 1 := ⟨n - count - 1, by omega⟩
      have hnext : n - (count + 1) = room := by omega
      rw [if_neg (by omega), if_neg (fun hlate => absurd hlate.1 (Int.not_lt.mpr htime)), hroom]
      -- the last item is not counted, so a single one is looked at by itself
      cases hitem : item.filter req.matchesFilter with
      | none =>
        cases rest <;> simp [ih entries hcount, Search.accepted, hitem, hroom]
      | some entry =>
        cases rest <;> simp [ih _ (by omega : count + 1 ≤ n), Search.accepted, hitem, hnext]

/-! ## The law -/

/-- All accepted entries are returned if the limit allows it, and otherwise as many as it
allows. -/
def SizeLaw (req : Search) (n : Nat) (items : List (Option Entry)) (result : SearchResult) : Prop :=
  if (req.accepted items).length ≤ n then
    result.resultCode = .success ∧ result.entries = (req.accepted items).map req.buildSearchEntry
  else
    result.resultCode = .sizeLimitExceeded ∧ result.entries.length = n ∧
      result.entries.Sublist ((req.accepted items).map req.buildSearchEntry)

/-- The law holds just if the last item is accepted where the limit is met exactly. -/
theorem size_limit_iff (req : Search) (config : SearchConfig) (items : List (Option Entry))
    (late : Nat → Bool) (n : Nat) (hn : 0 < n) (hsize : req.effectiveSizeLimit config = n)
    (htime : req.effectiveTimeLimit config ≤ 0) :
    SizeLaw req n items (processResults req config ⟨items, false, late⟩) ↔
      ((req.accepted items).length = n → (req.accepted items.dropLast).length < n) := by
  have hlast : (req.accepted items.dropLast).length ≤ (req.accepted items).length ∧
      (req.accepted items).length ≤ (req.accepted items.dropLast).length + 1 := by
    rcases List.eq_nil_or_concat' items with rfl | ⟨before, item, rfl⟩
    · simp
    · cases hitem : item.filter req.matchesFilter <;> simp [Search.accepted, hitem]
  have hitems : n ≤ (req.accepted items.dropLast).length → items ≠ [] := by
    rintro hle rfl
    exact absurd hle (Nat.not_le.mpr hn)
  unfold processResults SizeLaw
  rw [hsize, processLoop_eq htime hn _ _ (Nat.zero_le n), Nat.sub_zero]
  split
  next hfew =>
    rw [List.take_of_length_le hfew]
    by_cases hreached : n ≤ (req.accepted items.dropLast).length
    · simp [hreached, hitems hreached]
      omega
    · simp [hreached]
      omega
  next hmany =>
    have hreached : n ≤ (req.accepted items.dropLast).length := by omega
    simp only [hitems hreached, hreached, ne_eq, not_false_eq_true, and_self, if_true]
    refine iff_of_true ⟨trivial, ?_, ?_⟩ (fun hexact => absurd hexact.le hmany)
    · simp
      omega
    · exact (List.take_sublist _ _).map _

/-- Two entries of which the filter accepts one. -/
def oneOfTwo : Search × List (Option Entry) :=
  (⟨1, 0, fun entry => entry.dn = ascii "cn=a", fun entry => ⟨entry.dn, []⟩⟩,
    [some ⟨ascii "cn=a", ∅⟩, some ⟨ascii "cn=b", ∅⟩])

theorem size_limit_iff_reversed : SizeLaw oneOfTwo.1 1 oneOfTwo.2.reverse
      (processResults oneOfTwo.1 {} ⟨oneOfTwo.2.reverse, false, fun _ => false⟩) :=
  (size_limit_iff oneOfTwo.1 {} oneOfTwo.2.reverse (fun _ => false) 1 (by decide) (by decide)
    (by decide)).mpr fun _ => by decide

/-- The only match is returned, but the limit of one entry counts as exceeded. -/
theorem limit_exceeded_by_rejected_entry :
    let result := processResults oneOfTwo.1 {} ⟨oneOfTwo.2, false, fun _ => false⟩
    (oneOfTwo.1.accepted oneOfTwo.2).length = 1 ∧ result.resultCode = .sizeLimitExceeded ∧
      ¬ SizeLaw oneOfTwo.1 1 oneOfTwo.2 result := by
  refine ⟨by decide, by decide, fun h => ?_⟩
  rw [SizeLaw, if_pos (by decide)] at h
  exact absurd h.1 (by decide)

end Oba.Server.Limits
