import Oba.Filters.Types
import Oba.Ldap.Requests
import Oba.Server.Limits

/-! # Filters that cannot be converted

The searchers convert the filter of a request before they evaluate it. `ldapFilterToFilter` has
no filter for an extensible match: it drops it from an `and` or an `or`, and a search whose whole
filter is gone accepts every entry. The parser gives every `not` its child and every substring
filter its components, so nothing else is dropped.
-/

namespace Oba.Server.FilterConversion

open Filters Ldap Limits List
open Storage (Entry)

/-! ## Conversion and evaluation -/

mutual

def ldapFilterToFilter : SearchFilter → Option Filter
  | .and children => some (.and (convertChildren children))
  | .or children => some (.or (convertChildren children))
  | .not child => (ldapFilterToFilter child).map .not
  | .comparison .equality attr value => some (.equality attr value)
  | .comparison .greaterOrEqual attr value => some (.greaterOrEqual attr value)
  | .comparison .lessOrEqual attr value => some (.lessOrEqual attr value)
  | .comparison .approxMatch attr value => some (.approxMatch attr value)
  | .substrings attr ⟨initial, any, final⟩ => some (.substring ⟨attr, initial, any, final⟩)
  | .present attr => some (.present attr)
  | .extensibleMatch _ => none

def convertChildren : List SearchFilter → List Filter
  | [] => []
  | child :: rest => (ldapFilterToFilter child).toList ++ convertChildren rest

end

section

variable (holds : Filter → Bool)

mutual

/-- `Evaluate` for an entry for which `holds` gives the values of the assertions. -/
def evaluate : Filter → Bool
  | .and children => evaluateUntil false children
  | .or children => evaluateUntil true children
  | .not child => !evaluate child
  | assertion => holds assertion

/-- `evaluateAnd` stops at a child that is false, and `evaluateOr` at one that is true. -/
def evaluateUntil (stop : Bool) : List Filter → Bool
  | [] => !stop
  | child :: rest => if evaluate child = stop then stop else evaluateUntil stop rest

end

def matchesFilter (filter : Option SearchFilter) : Bool :=
  (filter.bind ldapFilterToFilter).elim true (evaluate holds)

/-! ## Three values -/

/-- One value decides, and otherwise an undefined one leaves the result undefined. -/
def decideBy (stop : Bool) (values : List (Option Bool)) : Option Bool :=
  if some stop ∈ values then some stop else if none ∈ values then none else some !stop

mutual

/-- The value of a filter in which what cannot be converted is undefined. -/
def truth : SearchFilter → Option Bool
  | .and children => decideBy false (truths children)
  | .or children => decideBy true (truths children)
  | .not child => (truth child).map (!·)
  | assertion => (ldapFilterToFilter assertion).map holds

def truths : List SearchFilter → List (Option Bool)
  | [] => []
  | child :: rest => truth child :: truths rest

end

end

/-! ## Where dropping is harmless -/

def supported : SearchFilter → Bool
  | .not child => supported child
  | .extensibleMatch _ => false
  | _ => true

mutual

/-- Nothing is dropped from an `and` that has to be true or an `or` that has to be false for the
filter to have the value `b`. -/
def keeps (b : Bool) : SearchFilter → Bool
  | .and children => keepsEach b (b == false) children
  | .or children => keepsEach b (b == true) children
  | .not child => keeps (!b) child
  | _ => true

def keepsEach (b drops : Bool) : List SearchFilter → Bool
  | [] => true
  | child :: rest => keeps b child && (drops || supported child) && keepsEach b drops rest

end

lemma isSome_ldapFilterToFilter :
    ∀ filter : SearchFilter, (ldapFilterToFilter filter).isSome = supported filter
  | .not child => by simpa [ldapFilterToFilter, supported] using isSome_ldapFilterToFilter child
  | .comparison type _ _ => by cases type <;> rfl
  | .and _ | .or _ | .substrings .. | .present _ | .extensibleMatch _ => rfl

lemma decideBy_eq_stop {stop : Bool} {values : List (Option Bool)} :
    decideBy stop values = some stop ↔ some stop ∈ values := by
  unfold decideBy
  split
  next hmem => simp [hmem]
  next hmem => split <;> simp [hmem]

section

variable {holds : Filter → Bool}

mutual

lemma truth_of_evaluate : ∀ {b : Bool} {f : SearchFilter} {g : Filter}, keeps b f = true →
    ldapFilterToFilter f = some g → evaluate holds g = b → truth holds f = some b
  | _, .and _, _, hkeeps, rfl, hvalue => truths_of_evaluate hkeeps hvalue
  | _, .or _, _, hkeeps, rfl, hvalue => truths_of_evaluate hkeeps hvalue
  | _, .not child, _, hkeeps, hconverted, hvalue => by
    obtain ⟨inner, hinner, rfl⟩ := Option.map_eq_some_iff.mp hconverted
    have hchild := truth_of_evaluate (f := child) hkeeps hinner (Bool.not_eq_eq_eq_not.mp hvalue)
    simp [truth, hchild]
  | _, .comparison type _ _, _, _, hconverted, hvalue => by
    cases type <;> cases hconverted <;> exact congrArg some hvalue
  | _, .substrings .., _, _, rfl, hvalue => congrArg some hvalue
  | _, .present _, _, _, rfl, hvalue => congrArg some hvalue

lemma truths_of_evaluate : ∀ {b stop : Bool} {children : List SearchFilter},
    keepsEach b (b == stop) children = true →
    evaluateUntil holds stop (convertChildren children) = b →
    decideBy stop (truths holds children) = some b
  | _, _, [], _, hvalue => congrArg some hvalue
  | b, stop, child :: rest, hkeeps, hvalue => by
    simp only [keepsEach, Bool.and_eq_true] at hkeeps
    obtain ⟨⟨hchild, hdrop⟩, hrest⟩ := hkeeps
    have hlater (hsame : b = stop)
        (htail : evaluateUntil holds stop (convertChildren rest) = b) :
        decideBy stop (truths holds (child :: rest)) = some b := by
      have hmem := truths_of_evaluate hrest htail
      subst hsame
      exact decideBy_eq_stop.mpr (mem_cons_of_mem _ (decideBy_eq_stop.mp hmem))
    rw [convertChildren] at hvalue
    cases hconverted : ldapFilterToFilter child with
    | none =>
      rw [hconverted] at hvalue
      rw [← isSome_ldapFilterToFilter, hconverted, Option.isSome_none, Bool.or_false] at hdrop
      exact hlater (eq_of_beq hdrop) hvalue
    | some converted =>
      simp only [hconverted, Option.toList_some, singleton_append, evaluateUntil] at hvalue
      have htruth := truth_of_evaluate hchild hconverted
      split at hvalue
      next hstop =>
        subst hvalue
        exact decideBy_eq_stop.mpr (htruth hstop ▸ mem_cons_self)
      next hgo =>
        by_cases hsame : b = stop
        · exact hlater hsame hvalue
        · have hb : evaluate holds converted = b := by
            rw [Bool.eq_not_of_ne hgo, Bool.eq_not_of_ne hsame]
          have htail := truths_of_evaluate hrest hvalue
          simpa [decideBy, truths, htruth hb, Ne.symm hsame] using htail

end

end

/-! ## What a search returns -/

/-- Every entry that is returned has been accepted by the filter. -/
lemma accepted_of_mem_processLoop {req : Search} {sizeLimit timeLimit : Int} {late : Nat → Bool}
    {failed : Bool} {found : SearchEntry} (items : List (Option Entry)) (entries : List SearchEntry)
    (count position : Nat) (hfound : found ∈
      (processLoop req sizeLimit timeLimit late failed items entries count position).entries) :
    found ∈ entries ∨ ∃ entry ∈ req.accepted items, found = req.buildSearchEntry entry := by
  induction items generalizing entries count position with
  | nil =>
    unfold processLoop at hfound
    split at hfound <;> exact .inl hfound
  | cons item rest ih =>
    unfold processLoop at hfound
    split at hfound
    · exact .inl hfound
    split at hfound
    · exact .inl hfound
    cases hitem : item.filter req.matchesFilter with
    | none =>
      rw [hitem] at hfound
      simpa [Search.accepted, hitem] using ih _ _ _ hfound
    | some entry =>
      rw [hitem] at hfound
      have hsofar := ih _ _ _ hfound
      rw [mem_append, mem_singleton, or_assoc] at hsofar
      simpa [Search.accepted, hitem] using hsofar

/-- A search for a filter, with the values of the assertions for every entry. -/
def filtered (holds : Entry → Filter → Bool) (filter : SearchFilter) (req : Search) : Search :=
  { req with matchesFilter := fun entry => matchesFilter (holds entry) (some filter) }

/-- A search returns only entries that satisfy the filter if nothing is dropped from an `and`
that has to be true or an `or` that has to be false, and the filter itself is not dropped. -/
theorem returned_satisfies (holds : Entry → Filter → Bool) (filter : SearchFilter) (req : Search)
    (config : SearchConfig) (iter : Iterator) (hsupported : supported filter = true)
    (hkeeps : keeps true filter = true) :
    ∀ found ∈ (processResults (filtered holds filter req) config iter).entries,
      ∃ entry, some entry ∈ iter.items ∧ found = req.buildSearchEntry entry ∧
        truth (holds entry) filter = some true := by
  intro found hfound
  rcases accepted_of_mem_processLoop _ _ _ _ hfound with hnone | ⟨entry, hentry, rfl⟩
  · cases hnone
  · obtain ⟨item, hitem, haccepted⟩ := List.mem_filterMap.mp hentry
    obtain ⟨rfl, hmatches⟩ := Option.filter_eq_some_iff.mp haccepted
    obtain ⟨converted, hconverted⟩ :=
      Option.isSome_iff_exists.mp ((isSome_ldapFilterToFilter filter).trans hsupported)
    refine ⟨entry, hitem, rfl, truth_of_evaluate hkeeps hconverted ?_⟩
    simpa [filtered, matchesFilter, hconverted] using hmatches

def unlessExtensible : SearchFilter := .or [.extensibleMatch ⟨[], [], [], false⟩, .present [0x63]]

theorem returned_satisfies_or :
    let result := processResults (filtered (fun _ _ => true) unlessExtensible oneOfTwo.1) {}
      { items := oneOfTwo.2 }
    result.entries ≠ [] ∧ ∀ found ∈ result.entries, ∃ entry, some entry ∈ oneOfTwo.2 ∧
      found = ⟨entry.dn, []⟩ ∧ truth (fun _ => true) unlessExtensible = some true :=
  ⟨by decide, returned_satisfies _ _ oneOfTwo.1 {} { items := oneOfTwo.2 } rfl rfl⟩

/-- A search for an extensible match returns every entry. -/
theorem extensibleMatch_returns_all : ∃ filter, ∀ holds entry,
    (processResults (filtered holds filter oneOfTwo.1) {} { items := [some entry] }).entries =
      [⟨entry.dn, []⟩] ∧ truth (holds entry) filter = none :=
  ⟨.extensibleMatch ⟨[], [], [], false⟩, fun _ _ => ⟨rfl, rfl⟩⟩

end Oba.Server.FilterConversion
