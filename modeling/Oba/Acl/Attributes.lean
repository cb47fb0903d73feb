import Oba.Acl.Evaluator

/-! # Rules for single attributes

A rule may be limited to some attributes, whose names are compared letter by letter. Another
spelling of a name can take a rule out of the evaluation, and a later one decides.
-/

namespace Oba.Acl

open List ACL Config

open Storage (Bytes ascii toLower Entry)

/-- The rule matches a request in everything but the attribute. -/
def ACL.concerns (rule : ACL) (ctx : AccessContext) : Bool :=
  matchesTarget rule ctx.targetDN && matchesSubject rule ctx.bindDN ctx.targetDN &&
    Right.has rule.rights ctx.operation

lemma firstMatch_cons (policy : Bytes) (rule : ACL) (rest : List ACL) (applies : ACL → Bool) :
    firstMatch ⟨policy, rule :: rest⟩ applies =
      if applies rule then !rule.deny else firstMatch ⟨policy, rest⟩ applies := by
  cases happlies : applies rule <;> simp [firstMatch, happlies, isDefaultAllow]

lemma checkAttributeAccess_eq (config : Config) (attr : Bytes) (ctx : AccessContext) :
    config.checkAttributeAccess attr (some ctx) =
      config.firstMatch fun rule => rule.concerns ctx && rule.appliesToAttribute attr := by
  refine congrArg config.firstMatch (funext fun rule => ?_)
  rw [concerns, Bool.and_right_comm]

/-! ## Spellings -/

/-- A rule with its attribute names in lower case. -/
def ACL.lowered (rule : ACL) : ACL := { rule with attributes := rule.attributes.map toLower }

/-- Two configurations that differ in the letter case of attribute names only. -/
def Config.Recased (config config' : Config) : Prop :=
  config'.defaultPolicy = config.defaultPolicy ∧
    config'.rules.map ACL.lowered = config.rules.map ACL.lowered

/-- A name without letters. -/
def OneSpelling (name : Bytes) : Prop := ∀ name', toLower name' = name → name' = name

/-- A rule in lower case that applies to a name in every spelling. -/
def ACL.Sure (rule : ACL) (name : Bytes) : Prop :=
  rule.attributes = [] ∨ ascii "*" ∈ rule.attributes ∨ OneSpelling name ∧ name ∈ rule.attributes

/-- Write every spelling of a name in one way. -/
def ACL.respell (rule : ACL) (attr spelling : Bytes) : ACL :=
  { rule with attributes := rule.attributes.map fun name =>
      if toLower name = toLower attr then spelling else name }

lemma oneSpelling_star : OneSpelling (ascii "*") := by
  intro name hname
  have hstar : ascii "*" = [42] := rfl
  obtain ⟨b, rfl⟩ := length_eq_one_iff.mp
    (show name.length = 1 by rw [← Storage.length_toLower, hname]; rfl)
  rw [hstar] at hname
  simp only [toLower, map_cons, map_nil, cons.injEq, and_true] at hname
  split at hname
  next hupper =>
    have hten := congrArg UInt8.toNat hname
    simp only [UInt8.toNat_add, UInt8.le_iff_toNat_le, UInt8.toNat_ofNat] at hten hupper
    omega
  · exact congrArg (fun b => [b]) hname

section Rules

variable {rule : ACL} {attr spelling : Bytes}

lemma appliesToAttribute_iff : rule.appliesToAttribute attr = true ↔
    rule.attributes = [] ∨ attr ∈ rule.attributes ∨ ascii "*" ∈ rule.attributes := by
  simp only [appliesToAttribute, any_eq_true, Bool.decide_or, Bool.or_eq_true,
    decide_eq_true_eq]
  grind

lemma star_mem_lowered : ascii "*" ∈ rule.lowered.attributes ↔ ascii "*" ∈ rule.attributes := by
  refine mem_map.trans ⟨fun ⟨name, hname, heq⟩ => ?_, fun hstar => ⟨_, hstar, rfl⟩⟩
  exact oneSpelling_star name heq ▸ hname

lemma lowered_respell (h : toLower spelling = toLower attr) (rule : ACL) :
    (rule.respell attr spelling).lowered = rule.lowered := by
  unfold lowered respell
  rw [map_map]
  congr 1
  exact map_congr_left fun name _ => by grind

lemma applies_of_sure (h : rule.lowered.Sure (toLower attr)) :
    rule.appliesToAttribute attr = true := by
  refine appliesToAttribute_iff.mpr ?_
  rcases h with hnil | hstar | ⟨hone, hmem⟩
  · exact .inl (map_eq_nil_iff.mp hnil)
  · exact .inr (.inr (star_mem_lowered.mp hstar))
  · obtain ⟨name, hname, heq⟩ := mem_map.mp hmem
    rw [hone attr rfl, ← hone name heq]
    exact .inr (.inl hname)

/-- A rule that is not sure to apply does so for the listed spelling only. -/
lemma mem_of_applies (h : ¬ rule.lowered.Sure (toLower attr))
    (happlies : rule.appliesToAttribute attr = true) : attr ∈ rule.attributes := by
  rcases appliesToAttribute_iff.mp happlies with hnil | hmem | hstar
  · exact absurd (.inl (map_eq_nil_iff.mpr hnil)) h
  · exact hmem
  · exact absurd (.inr (.inl (star_mem_lowered.mpr hstar))) h

lemma applies_respell (hlists : toLower attr ∈ rule.lowered.attributes) :
    (rule.respell attr attr).appliesToAttribute attr = true := by
  obtain ⟨name, hname, heq⟩ := mem_map.mp hlists
  exact appliesToAttribute_iff.mpr (.inr (.inl (mem_map.mpr ⟨name, hname, if_pos heq⟩)))

/-- A rule that is not sure to apply can be spelled so that it does not. -/
lemma exists_not_applies (h : ¬ rule.lowered.Sure (toLower attr)) :
    ∃ rule' : ACL, rule'.lowered = rule.lowered ∧ rule'.appliesToAttribute attr = false := by
  by_cases hmem : attr ∈ rule.attributes
  · obtain ⟨other, hother, hne⟩ : ∃ other, toLower other = toLower attr ∧ other ≠ attr := by
      by_contra! hall
      refine h (.inr (.inr ⟨fun name hname => ?_, mem_map_of_mem hmem⟩))
      exact (hall name hname).trans (hall _ (Storage.toLower_toLower attr)).symm
    have hlowered := lowered_respell hother rule
    refine ⟨_, hlowered, Bool.eq_false_iff.mpr fun happlies => ?_⟩
    obtain ⟨name, -, heq⟩ := mem_map.mp (mem_of_applies (hlowered ▸ h) happlies)
    split at heq
    · exact hne heq
    next hname => exact hname (heq ▸ rfl)
  · exact ⟨rule, rfl, Bool.eq_false_iff.mpr fun happlies => hmem (mem_of_applies h happlies)⟩

end Rules

/-! ## Decisions -/

open Classical in
/-- The decision of the rules that apply in every spelling. -/
noncomputable def sureDecision (policy : Bytes) (ctx : AccessContext) (name : Bytes) :
    List ACL → Bool
  | [] => decide (policy = ascii "allow")
  | rule :: rest =>
    if rule.concerns ctx ∧ rule.Sure name then !rule.deny else sureDecision policy ctx name rest

/-- A rule that applies in some spellings only, and comes before all that apply in every
spelling, decides as they do. -/
def Settled (policy : Bytes) (ctx : AccessContext) (name : Bytes) : List ACL → Prop
  | [] => True
  | rule :: rest => (rule.concerns ctx ∧ rule.Sure name) ∨
      ((rule.concerns ctx → name ∈ rule.attributes →
          (!rule.deny) = sureDecision policy ctx name rest) ∧
        Settled policy ctx name rest)

section Decisions

variable {policy : Bytes} {ctx : AccessContext} {attr : Bytes} {rules : List ACL}

lemma firstMatch_of_settled (h : Settled policy ctx (toLower attr) (rules.map lowered)) :
    firstMatch ⟨policy, rules⟩
      (fun rule => rule.concerns ctx && rule.appliesToAttribute attr) =
      sureDecision policy ctx (toLower attr) (rules.map lowered) := by
  induction rules with
  | nil => rfl
  | cons rule rest ih =>
    rw [firstMatch_cons, map_cons, sureDecision]
    by_cases hsure : rule.lowered.concerns ctx ∧ rule.lowered.Sure (toLower attr)
    · have happlies : rule.concerns ctx && rule.appliesToAttribute attr :=
        Bool.and_eq_true_iff.mpr ⟨hsure.1, applies_of_sure hsure.2⟩
      rw [if_pos hsure, if_pos happlies]
      rfl
    · obtain ⟨hlists, hrest⟩ := h.resolve_left hsure
      split
      next happlies =>
        obtain ⟨hctx, happlies⟩ := Bool.and_eq_true_iff.mp happlies
        have hmem := mem_of_applies (fun hin => hsure ⟨hctx, hin⟩) happlies
        exact hlists hctx (mem_map_of_mem hmem)
      · exact ih hrest

lemma settled_of_forall (answer : Bool)
    (h : ∀ rules', rules'.map lowered = rules.map lowered →
      firstMatch ⟨policy, rules'⟩
        (fun rule => rule.concerns ctx && rule.appliesToAttribute attr) = answer) :
    Settled policy ctx (toLower attr) (rules.map lowered) ∧
      sureDecision policy ctx (toLower attr) (rules.map lowered) = answer := by
  induction rules with
  | nil => exact ⟨trivial, h [] rfl⟩
  | cons rule rest ih =>
    -- the answer with another spelling of the first rule
    have hfirst : ∀ rule' : ACL, rule'.lowered = rule.lowered → ∀ rest',
        rest'.map lowered = rest.map lowered →
        (if rule.concerns ctx && rule'.appliesToAttribute attr then !rule.deny else
          firstMatch ⟨policy, rest'⟩
            (fun rule => rule.concerns ctx && rule.appliesToAttribute attr)) = answer := by
      intro rule' hrule rest' hrest
      have hconcerns : rule'.lowered.concerns ctx = rule.lowered.concerns ctx := by rw [hrule]
      have hdeny : rule'.lowered.deny = rule.lowered.deny := by rw [hrule]
      change rule'.concerns ctx = rule.concerns ctx at hconcerns
      change rule'.deny = rule.deny at hdeny
      rw [← h (rule' :: rest') (by rw [map_cons, hrule, hrest, map_cons]),
        firstMatch_cons, hconcerns, hdeny]
    rw [map_cons, sureDecision]
    by_cases hsure : rule.lowered.concerns ctx ∧ rule.lowered.Sure (toLower attr)
    · refine ⟨.inl hsure, ?_⟩
      rw [if_pos hsure, ← hfirst rule rfl rest rfl, if_pos]
      · rfl
      · exact Bool.and_eq_true_iff.mpr ⟨hsure.1, applies_of_sure hsure.2⟩
    · obtain ⟨rule', hrule', hout⟩ : ∃ rule' : ACL, rule'.lowered = rule.lowered ∧
          (rule.concerns ctx && rule'.appliesToAttribute attr) = false := by
        by_cases hctx : rule.concerns ctx = true
        · obtain ⟨rule', hrule', hout⟩ := exists_not_applies fun hin => hsure ⟨hctx, hin⟩
          exact ⟨rule', hrule', by simp [hout]⟩
        · exact ⟨rule, rfl, by simp [hctx]⟩
      obtain ⟨hrest, hdecision⟩ := ih fun rest' hrest' => by
        simpa [hout] using hfirst rule' hrule' rest' hrest'
      rw [if_neg hsure]
      refine ⟨.inr ⟨fun hctx hlists => ?_, hrest⟩, hdecision⟩
      have hctx : rule.concerns ctx = true := hctx
      have hspelled := hfirst (rule.respell attr attr) (lowered_respell rfl rule) rest rfl
      rw [hctx, applies_respell hlists] at hspelled
      rw [hdecision]
      exact hspelled

end Decisions

/-! ## Letter case -/

/-- The decision about an attribute is the same in every spelling of it and of the names in the
rules. -/
def IgnoresCase (config : Config) (ctx : Option AccessContext) (attr : Bytes) : Prop :=
  ∀ config' attr', config.Recased config' → toLower attr' = toLower attr →
    config'.checkAttributeAccess attr' ctx = config.checkAttributeAccess attr ctx

/-- Whether an attribute of an entry is kept is the same in every spelling. -/
def FilterIgnoresCase (config : Config) (ctx : Option AccessContext) (dn attr : Bytes) : Prop :=
  ∀ config' attr' (entry entry' : Entry), config.Recased config' → toLower attr' = toLower attr →
    entry.dn = dn → entry'.dn = dn → attr ∈ entry.attributes → attr' ∈ entry'.attributes →
    (attr' ∈ (config'.filterAttributes ctx entry').attributes ↔
      attr ∈ (config.filterAttributes ctx entry).attributes)

/-- The condition on a request; without one the default policy decides. -/
def Config.SettledFor (config : Config) (attr : Bytes) (ctx : Option AccessContext) : Prop :=
  ∀ ctx' ∈ ctx, Settled config.defaultPolicy ctx' (toLower attr) (config.rules.map ACL.lowered)

section

variable (config : Config) (ctx : Option AccessContext)

lemma ignoresCase_iff (attr : Bytes) :
    IgnoresCase config ctx attr ↔ config.SettledFor attr ctx := by
  cases ctx with
  | none =>
    refine iff_of_true (fun config' attr' hconfig _ => ?_) (fun _ h => nomatch h)
    exact congrArg (fun policy => decide (policy = ascii "allow")) hconfig.1
  | some ctx =>
    simp only [Config.SettledFor, Option.mem_some_iff, forall_eq']
    constructor
    · intro h
      refine (settled_of_forall (config.checkAttributeAccess attr (some ctx))
        fun rules' hrules => ?_).1
      rw [← h ⟨config.defaultPolicy, rules'⟩ attr ⟨rfl, hrules⟩ rfl, checkAttributeAccess_eq]
    · rintro hsettled ⟨policy, rules'⟩ attr' ⟨hpolicy, hrules⟩ hattr
      obtain rfl : policy = config.defaultPolicy := hpolicy
      have hsettled' : Settled config.defaultPolicy ctx (toLower attr')
          (rules'.map lowered) := by rwa [hattr, hrules]
      rw [checkAttributeAccess_eq, checkAttributeAccess_eq, firstMatch_of_settled hsettled', hattr,
        hrules]
      exact (firstMatch_of_settled hsettled).symm

lemma mem_filterAttributes (entry : Entry) (attr : Bytes) :
    attr ∈ (config.filterAttributes ctx entry).attributes ↔
      attr ∈ entry.attributes ∧ config.checkAttributeAccess attr
        (ctx.map fun ctx => ⟨ctx.bindDN, entry.dn, Right.read⟩) = true := by
  cases ctx with
  | none => cases hallow : config.isDefaultAllow <;>
      simp [filterAttributes, checkAttributeAccess, hallow]
  | some ctx => simp [filterAttributes, Std.ExtTreeMap.mem_filter]

lemma filterIgnoresCase_iff (dn attr : Bytes) :
    FilterIgnoresCase config ctx dn attr ↔
      IgnoresCase config (ctx.map fun ctx => ⟨ctx.bindDN, dn, Right.read⟩) attr := by
  constructor
  · intro h config' attr' hconfig hattr
    have hkept := h config' attr' ⟨dn, {(attr, [])}⟩ ⟨dn, {(attr', [])}⟩ hconfig hattr rfl rfl
      (by simp) (by simp)
    simpa [mem_filterAttributes, ← Bool.eq_iff_iff] using hkept
  · rintro h config' attr' entry entry' hconfig hattr rfl hdn hmem hmem'
    rw [mem_filterAttributes, mem_filterAttributes, hdn, h config' attr' hconfig hattr]
    simp [hmem, hmem']

end

/-- Letter case does not matter exactly for the settled names. -/
theorem attribute_case_ignored_iff (config : Config) (ctx : Option AccessContext) (attr : Bytes) :
    (IgnoresCase config ctx attr ↔ config.SettledFor attr ctx) ∧
      ∀ dn, FilterIgnoresCase config ctx dn attr ↔
        config.SettledFor attr (ctx.map fun ctx => ⟨ctx.bindDN, dn, Right.read⟩) :=
  ⟨ignoresCase_iff config ctx attr, fun dn =>
    (filterIgnoresCase_iff config ctx dn attr).trans (ignoresCase_iff config _ attr)⟩

/-- A secret attribute that a rule denies can be read under another spelling. -/
theorem denied_in_one_spelling :
    let rule : ACL := ⟨ascii "*", .subtree, ascii "*", Right.read, [ascii "userPassword"], true⟩
    let config : Config := ⟨ascii "allow", [rule]⟩
    let ctx : AccessContext := ⟨ascii "uid=a", ascii "uid=b", Right.read⟩
    config.checkAttributeAccess (ascii "userPassword") (some ctx) = false ∧
      config.checkAttributeAccess (ascii "userpassword") (some ctx) = true ∧
      ¬ IgnoresCase config (some ctx) (ascii "userPassword") := by
  refine ⟨by decide, by decide, fun h => ?_⟩
  have hsame := h _ (ascii "userpassword") ⟨rfl, rfl⟩ (by decide)
  exact absurd hsame (by decide)

end Oba.Acl
