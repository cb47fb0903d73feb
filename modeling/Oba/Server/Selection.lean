import Oba.Server.Search

/-! # Attributes that a search shows

A search with base scope and searches with other scopes select the attributes of an entry with two
functions. They know different operational attributes and read the requested names in different
ways. Where names of an entry differ in case only, a requested name selects the first that a loop
over the map meets.
-/

namespace Oba.Server

open Storage List UnorderedMap

/-- What is selected: all user attributes, all operational ones, and attributes by name. -/
structure AttributeSelector where
  isOperational : Bytes → Bool
  hasAllUser : Bool
  hasAllOp : Bool
  specificAttrs : List Bytes

namespace AttributeSelector

section

variable (s : AttributeSelector) (orders : Nat → MapOrder) (attributes : Attributes) (name : Bytes)

def covers : Bool :=
  s.hasAllUser && !s.isOperational name || s.hasAllOp && s.isOperational name

/-- For each requested name a loop over the map adds the first attribute that has it. -/
def added : List Bytes :=
  s.specificAttrs.zipIdx.filterMap fun (attrName, i) =>
    (((orders i).range attributes).find? fun a => equalFold a.1 attrName).map Prod.fst

def shows : Bool := s.covers name || (s.added orders attributes).contains name

def select : Attributes := attributes.filter fun name _ => s.shows orders attributes name

/-- The attributes of the result are listed by another loop. -/
def build (order : MapOrder) (entry : Entry) (typesOnly : Bool) : SearchEntry :=
  ⟨entry.dn, (order.range (s.select orders entry.attributes)).map fun a =>
    (a.1, if typesOnly then [] else a.2)⟩

end

variable {s t : AttributeSelector} {orders orders' : Nat → MapOrder} {order order' : MapOrder}
  {entry : Entry} {typesOnly : Bool} {readable : Bytes → Bool}

lemma build_perm : ((s.build orders order entry typesOnly).attributes.filter (readable ·.1)).Perm
    ((entry.attributes.toList.filter fun a =>
      readable a.1 && s.shows orders entry.attributes a.1).map fun a =>
        (a.1, if typesOnly then [] else a.2)) := by
  have hselected := order.perm (s.select orders entry.attributes)
  rw [select, Std.ExtTreeMap.toList_filter] at hselected
  rw [build, filter_map, ← filter_filter]
  exact (hselected.filter _).map _

/-- Two results have the same attributes if they show the same names. -/
lemma build_perm_iff :
    ((s.build orders order entry typesOnly).attributes.filter (readable ·.1)).Perm
        ((t.build orders' order' entry typesOnly).attributes.filter (readable ·.1)) ↔
      ∀ name ∈ entry.attributes, readable name →
        (s.shows orders entry.attributes name ↔ t.shows orders' entry.attributes name) := by
  have hmem : ∀ {name}, (∃ a ∈ entry.attributes.toList, a.1 = name) ↔
      name ∈ entry.attributes := by
    intro name
    rw [← mem_map, Std.ExtTreeMap.map_fst_toList_eq_keys, Std.ExtTreeMap.mem_keys]
  constructor
  · intro h name hname hreadable
    have hbinding := hmem.mpr hname
    have hnames := ((build_perm.symm.trans (h.trans build_perm)).map Prod.fst).mem_iff (a := name)
    simp only [map_map, Function.comp_def, mem_map, mem_filter, Bool.and_eq_true] at hnames
    grind
  · intro h
    refine build_perm.trans (.trans (.of_eq ?_) build_perm.symm)
    refine congrArg _ (filter_congr fun a ha => ?_)
    rw [Bool.eq_iff_iff, Bool.and_eq_true, Bool.and_eq_true]
    exact and_congr_right (h a.1 (hmem.mp ⟨a, ha, rfl⟩))

section Parse

variable (isOperational : Bytes → Bool) (word : Bytes → Bytes) (kept : Bytes → Bool)
  (requestedAttrs : List Bytes)

/-- One of the requested names is read as the sign. -/
def requests (sign : String) : Bool := requestedAttrs.any (word · = ascii sign)

/-- The requested names that are read as names. -/
def specific : List Bytes :=
  requestedAttrs.filter fun attr => word attr != ascii "*" && word attr != ascii "+" && kept attr

/-- Reads the requested names. -/
def parse : AttributeSelector where
  isOperational := isOperational
  hasAllUser := requests word requestedAttrs "*"
  hasAllOp := requests word requestedAttrs "+"
  specificAttrs := specific word kept requestedAttrs

/-- All attributes of the kind of the name are requested. -/
def covered (name : Bytes) : Bool :=
  requests word requestedAttrs (if isOperational name then "+" else "*")

/-- The name is requested by name. -/
def asked (name : Bytes) : Bool := (specific word kept requestedAttrs).any (equalFold name)

end Parse

/-- No other name of the entry differs from the name in case only. -/
def Alone (attributes : Attributes) (name : Bytes) : Prop :=
  ∀ other ∈ attributes, equalFold other name → other = name

section Shows

variable {isOperational : Bytes → Bool} {word : Bytes → Bytes} {kept : Bytes → Bool}
  {requestedAttrs : List Bytes} {attributes : Attributes} {name other attrName : Bytes}

lemma mem_range_iff (order : MapOrder) :
    (∃ values, (name, values) ∈ order.range attributes) ↔ name ∈ attributes := by
  simp only [(order.perm attributes).mem_iff, Std.ExtTreeMap.mem_toList_iff_getElem?_eq_some,
    ← Option.isSome_iff_exists, Std.ExtTreeMap.isSome_getElem?_iff_mem]

lemma mem_added_iff : name ∈ s.added orders attributes ↔
    ∃ i attrName values, s.specificAttrs[i]? = some attrName ∧
      ((orders i).range attributes).find? (fun a => equalFold a.1 attrName) =
        some (name, values) := by
  simp only [added, mem_filterMap, Prod.exists, mk_mem_zipIdx_iff_getElem?,
    Option.map_eq_some_iff]
  grind

/-- A loop that meets a name first finds it for all spellings of it. -/
lemma find?_front (hother : other ∈ attributes) (hfold : equalFold other attrName) :
    ∃ values, (Order.range (.front other) attributes).find? (fun a => equalFold a.1 attrName) =
      some (other, values) := by
  obtain ⟨values, hmem⟩ := (mem_range_iff .ascending).mpr hother
  cases hfront : attributes.toList.filter (·.1 = other) with
  | nil => exact absurd (mem_filter.mpr ⟨hmem, decide_eq_true rfl⟩) (hfront ▸ not_mem_nil)
  | cons a rest =>
    have ha : a.1 = other := by
      have hmem := hfront ▸ mem_cons_self (a := a) (l := rest)
      exact of_decide_eq_true (mem_filter.mp hmem).2
    refine ⟨a.2, ?_⟩
    dsimp only [Order.front]
    rw [hfront, cons_append, find?_cons, ha, hfold, ← ha]

lemma equalFold_trans {s t u : Bytes} (hst : equalFold s t) (hut : equalFold u t) :
    equalFold s u :=
  decide_eq_true ((of_decide_eq_true hst).trans (of_decide_eq_true hut).symm)

lemma shows_parse_iff :
    (parse isOperational word kept requestedAttrs).shows orders attributes name ↔
      covered isOperational word requestedAttrs name ∨
        name ∈ (parse isOperational word kept requestedAttrs).added orders attributes := by
  rw [shows, Bool.or_eq_true, contains_iff_mem]
  refine or_congr ?_ .rfl
  cases hname : isOperational name <;> simp [covers, covered, parse, hname]

lemma asked_of_mem_added
    (h : name ∈ (parse isOperational word kept requestedAttrs).added orders attributes) :
    asked word kept requestedAttrs name := by
  obtain ⟨i, attrName, values, hattr, hfind⟩ := mem_added_iff.mp h
  have hfold := find?_some hfind
  exact any_eq_true.mpr ⟨attrName, mem_of_getElem? hattr, hfold⟩

variable (hname : name ∈ attributes)
include hname

/-- A name is shown for all orders of the loops. -/
lemma always_shows_iff :
    (∀ orders, (parse isOperational word kept requestedAttrs).shows orders attributes name) ↔
      covered isOperational word requestedAttrs name ∨
        asked word kept requestedAttrs name ∧ Alone attributes name := by
  simp only [shows_parse_iff]
  constructor
  · intro hall
    refine (em _).imp_right fun hcovered => ⟨?_, fun other hother hfold => by_contra fun hne => ?_⟩
    · exact asked_of_mem_added ((hall fun _ => .ascending).resolve_left hcovered)
    · -- the loops may meet the other name first
      obtain ⟨i, attrName, values, hattr, hfind⟩ :=
        mem_added_iff.mp ((hall fun _ => .front other).resolve_left hcovered)
      have hspelled := find?_some hfind
      obtain ⟨values', hfind'⟩ := find?_front hother
        (equalFold_trans hfold (decide_eq_true (of_decide_eq_true hspelled).symm))
      rw [hfind'] at hfind
      cases hfind
      exact hne rfl
  · rintro (hcovered | ⟨hasked, halone⟩) orders
    · exact .inl hcovered
    · obtain ⟨attrName, hattr, hfold⟩ := any_eq_true.mp hasked
      obtain ⟨i, hi⟩ := getElem?_of_mem hattr
      obtain ⟨values, hmem⟩ := (mem_range_iff (orders i)).mpr hname
      obtain ⟨a, hfind⟩ := Option.isSome_iff_exists.mp
        (find?_isSome (p := fun a : Bytes × List Bytes => equalFold a.1 attrName) |>.mpr
          ⟨_, hmem, hfold⟩)
      have hspelled := find?_some hfind
      have hsame : a.1 = name := halone a.1 ((mem_range_iff (orders i)).mp
        ⟨a.2, mem_of_find?_eq_some hfind⟩) (equalFold_trans hspelled hfold)
      exact .inr (mem_added_iff.mpr ⟨i, attrName, a.2, hi, hsame ▸ hfind⟩)

/-- A name is shown for no order of the loops. -/
lemma never_shows_iff :
    (∀ orders, ¬ (parse isOperational word kept requestedAttrs).shows orders attributes name) ↔
      ¬ covered isOperational word requestedAttrs name ∧ ¬ asked word kept requestedAttrs name := by
  simp only [shows_parse_iff, not_or]
  constructor
  · refine fun hnone => ⟨(hnone fun _ => .ascending).1, fun hasked => ?_⟩
    obtain ⟨attrName, hattr, hfold⟩ := any_eq_true.mp hasked
    obtain ⟨i, hi⟩ := getElem?_of_mem hattr
    obtain ⟨values, hfind⟩ := find?_front hname hfold
    exact (hnone fun _ => .front name).2 (mem_added_iff.mpr ⟨i, attrName, values, hi, hfind⟩)
  · exact fun h orders => ⟨h.1, fun hmem => h.2 (asked_of_mem_added hmem)⟩

end Shows

end AttributeSelector

/-! ## The two selections -/

open AttributeSelector

def isOperationalAttribute (name : Bytes) : Bool :=
  ["createtimestamp", "modifytimestamp", "creatorsname", "modifiersname", "entrydn", "entryuuid",
    "subschemasubentry", "hassubordinates", "numsubordinates", "structuralobjectclass"].any
    (ascii · = toLower name)

/-- `IsOperationalAttribute`. One of its names has a capital letter and is never met. -/
def isOperationalAttributeRFC (name : Bytes) : Bool :=
  isOperationalAttribute name || ["namingcontexts", "supportedcontrol", "supportedextension",
    "supportedfeatures", "supportedldapversion", "supportedsaslmechanisms", "pwdchangedtime",
    "pwdaccountlockedtime", "pwdfailuretime", "pwdhistory", "pwdgraceuseTime", "pwdreset",
    "pwdmustchange", "pwdpolicysubentry"].any (ascii · = toLower name)

/-- Without requested names, `selectAttributes` selects all attributes. -/
def selectAttributes (requestedAttrs : List Bytes) : AttributeSelector :=
  if requestedAttrs = [] then ⟨fun _ => false, true, false, []⟩
  else .parse isOperationalAttribute toLower (fun _ => true) requestedAttrs

def trimmedWord (attr : Bytes) : Bytes := toLower (trimSpace attr)

def keepsAttr (attr : Bytes) : Bool := trimmedWord attr ≠ ascii "1.1" ∧ attr ≠ []

/-- Without requested names, `SelectAttributes` selects all user attributes. -/
def newAttributeSelector (requestedAttrs : List Bytes) : AttributeSelector :=
  if requestedAttrs = [] then ⟨isOperationalAttributeRFC, true, false, []⟩
  else .parse isOperationalAttributeRFC trimmedWord keepsAttr requestedAttrs

/-- The entry in the result of a search with base scope. -/
def buildSearchEntry (requestedAttrs : List Bytes) := (selectAttributes requestedAttrs).build

/-- The entry in the result of a search of one level or of a subtree. -/
def buildSearchEntryFromStorage (requestedAttrs : List Bytes) :=
  (newAttributeSelector requestedAttrs).build

lemma requests_trimmed (requestedAttrs : List Bytes) (sign : String)
    (hsign : trimSpace (ascii sign) = ascii sign) (h : requests toLower requestedAttrs sign) :
    requests trimmedWord requestedAttrs sign := by
  obtain ⟨attr, hattr, hword⟩ := any_eq_true.mp h
  refine any_eq_true.mpr ⟨attr, hattr, decide_eq_true ?_⟩
  rw [trimmedWord, toLower_trimSpace, of_decide_eq_true hword, hsign]

lemma asked_of_trimmed {requestedAttrs : List Bytes} {name : Bytes}
    (h : asked trimmedWord keepsAttr requestedAttrs name) :
    asked toLower (fun _ => true) requestedAttrs name := by
  obtain ⟨attr, hattr, hfold⟩ := any_eq_true.mp h
  refine any_eq_true.mpr ⟨attr, ?_, hfold⟩
  simp only [specific, mem_filter, Bool.and_eq_true, bne_iff_ne, and_true, trimmedWord,
    toLower_trimSpace] at hattr ⊢
  refine ⟨hattr.1, fun hstar => hattr.2.1.1 ?_, fun hplus => hattr.2.1.2 ?_⟩
  · rw [hstar]
    decide
  · rw [hplus]
    decide

/-- When both selections show a name, or both leave it out, whatever the orders of their loops
are. A name that is requested by name has to be the only one with its letters, and one that the
selection for the other scopes reads as a name, unless both selections show it with all others of
its kind. The ten names that are operational for both need a sign without blanks if there is one
with blanks, and so do the names that are operational for none; of the names that are operational
for the other scopes only, one sign has to bring all or the other sign has to bring none. -/
def Alike (requestedAttrs : List Bytes) (attributes : Attributes) (name : Bytes) : Prop :=
  if requestedAttrs = [] then ¬ isOperationalAttributeRFC name
  else if asked toLower (fun _ => true) requestedAttrs name then
    (covered isOperationalAttribute toLower requestedAttrs name ∨ Alone attributes name) ∧
      (covered isOperationalAttributeRFC trimmedWord requestedAttrs name ∨
        asked trimmedWord keepsAttr requestedAttrs name ∧ Alone attributes name)
  else if isOperationalAttribute name then
    requests trimmedWord requestedAttrs "+" → requests toLower requestedAttrs "+"
  else if isOperationalAttributeRFC name then
    (requests toLower requestedAttrs "*" ↔ requests trimmedWord requestedAttrs "+")
  else requests trimmedWord requestedAttrs "*" → requests toLower requestedAttrs "*"

/-- Two things that depend on orders of their own agree if both always hold or both never do. -/
lemma agree_iff {α : Type} [Nonempty α] {p q : α → Prop} :
    (∀ a b, p a ↔ q b) ↔ (∀ a, p a) ∧ (∀ b, q b) ∨ (∀ a, ¬ p a) ∧ ∀ b, ¬ q b := by
  obtain ⟨c⟩ := ‹Nonempty α›
  constructor
  · intro h
    by_cases hc : p c
    · exact .inl ⟨fun a => (h a c).mpr ((h c c).mp hc), fun b => (h c b).mp hc⟩
    · exact .inr ⟨fun a ha => hc ((h c c).mpr ((h a c).mp ha)), fun b hb => hc ((h c b).mpr hb)⟩
  · rintro (h | h) a b
    · exact iff_of_true (h.1 a) (h.2 b)
    · exact iff_of_false (h.1 a) (h.2 b)

/-- The two selections agree on a name, whatever the orders of their loops are. -/
lemma shows_alike_iff (requestedAttrs : List Bytes) {attributes : Attributes} {name : Bytes}
    (hname : name ∈ attributes) :
    (∀ orders orders', (selectAttributes requestedAttrs).shows orders attributes name ↔
        (newAttributeSelector requestedAttrs).shows orders' attributes name) ↔
      Alike requestedAttrs attributes name := by
  have horders : Nonempty (Nat → MapOrder) := ⟨fun _ => .ascending⟩
  unfold selectAttributes newAttributeSelector Alike
  by_cases hnone : requestedAttrs = []
  · simp [hnone, shows, covers, added]
  rw [if_neg hnone, if_neg hnone, if_neg hnone, agree_iff, always_shows_iff hname,
    always_shows_iff hname, never_shows_iff hname, never_shows_iff hname]
  split_ifs with hasked hop hrfc
  · simp [hasked]
  all_goals
    have hasked' : ¬ asked trimmedWord keepsAttr requestedAttrs name :=
      fun h => hasked (asked_of_trimmed h)
  · have hplus := requests_trimmed requestedAttrs "+" (by decide)
    have hrfc : isOperationalAttributeRFC name := by simp [isOperationalAttributeRFC, hop]
    simp only [covered, hop, hrfc]
    tauto
  · simp only [covered, hop, hrfc]
    tauto
  · have hstar := requests_trimmed requestedAttrs "*" (by decide)
    simp only [covered, hop, hrfc]
    tauto

end Oba.Server
