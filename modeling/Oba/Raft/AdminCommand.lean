import Oba.Library.ByteCodec
import Oba.Storage.Entry

/-! # Config and ACL commands

`log.go`: the commands that change the configuration or the access rules of a cluster, and
their byte formats. Strings and lists are written behind 16-bit lengths, and a rule index as
32 bits, whatever they are in memory. A command is read back exactly if it fits.
-/

namespace Oba.Raft

open ByteCodec UnorderedMap Storage List Option

structure ConfigCommand where
  sectionName : Bytes
  data : Std.ExtTreeMap Bytes Bytes
  version : UInt64

structure ACLRuleData where
  target : Bytes
  subject : Bytes
  scope : Bytes
  rights : List Bytes
  attributes : List Bytes
  deny : Bool
  deriving DecidableEq, Repr

/-- `ruleIndex` is a Go `int`. -/
structure ACLCommand where
  defaultPolicy : Bytes
  rules : List ACLRuleData
  rule : Option ACLRuleData
  ruleIndex : Int
  version : UInt64
  deriving DecidableEq, Repr

/-! ## Config commands -/

def putBinding (binding : Bytes × Bytes) : Bytes :=
  putBlock 2 binding.1 ++ putBlock 2 binding.2

def readBinding (s : Bytes) : Option ((Bytes × Bytes) × Bytes) := do
  let (key, s) ← readBlock 2 s
  let (value, s) ← readBlock 2 s
  some ((key, value), s)

def serializeConfigCommand (order : Order Bytes Bytes) (cmd : ConfigCommand) : Bytes :=
  putBlock 2 cmd.sectionName ++ putUint 8 cmd.version.toNat ++ putUint 2 cmd.data.size ++
    (order.range cmd.data).flatMap putBinding

/-- `none` is `ErrLogCorrupted`. -/
def deserializeConfigCommand (data : Bytes) : Option ConfigCommand :=
  if data.length < 2 then none
  else do
    let (sectionName, s) ← readBlock 2 data
    let (version, s) ← readUint 8 s
    let (bindings, _) ← readList 2 readBinding s
    some ⟨sectionName, insertAll ∅ bindings, UInt64.ofNat version⟩

/-- The lengths of a config command have 16 bits. -/
structure ConfigCommand.Fits (cmd : ConfigCommand) : Prop where
  sectionName : cmd.sectionName.length < 256 ^ 2
  size : cmd.data.size < 256 ^ 2
  binding : ∀ key value : Bytes, cmd.data[key]? = some value →
    key.length < 256 ^ 2 ∧ value.length < 256 ^ 2

/-! ## ACL commands -/

def serializeACLRule (rule : ACLRuleData) : Bytes :=
  putBlock 2 rule.target ++ putBlock 2 rule.subject ++ putBlock 2 rule.scope ++
    putList 2 (putBlock 2) rule.rights ++ putList 2 (putBlock 2) rule.attributes ++
    putBool rule.deny

def deserializeACLRule (s : Bytes) : Option (ACLRuleData × Bytes) := do
  let (target, s) ← readBlock 2 s
  let (subject, s) ← readBlock 2 s
  let (scope, s) ← readBlock 2 s
  let (rights, s) ← readList 2 (readBlock 2) s
  let (attributes, s) ← readList 2 (readBlock 2) s
  let (deny, s) ← readBool s
  some (⟨target, subject, scope, rights, attributes, deny⟩, s)

/-- The single rule of a command, behind a flag that says whether there is one. -/
def putRule : Option ACLRuleData → Bytes
  | none => putBool false
  | some rule => putBool true ++ serializeACLRule rule

def readRule (s : Bytes) : Option (Option ACLRuleData × Bytes) := do
  let (hasRule, s) ← readBool s
  if hasRule then
    let (rule, s) ← deserializeACLRule s
    some (some rule, s)
  else some (none, s)

def serializeACLCommand (cmd : ACLCommand) : Bytes :=
  putBlock 2 cmd.defaultPolicy ++ putUint 8 cmd.version.toNat ++ putInt 4 cmd.ruleIndex ++
    putList 2 serializeACLRule cmd.rules ++ putRule cmd.rule

def deserializeACLCommand (data : Bytes) : Option ACLCommand :=
  if data.length < 2 then none
  else do
    let (defaultPolicy, s) ← readBlock 2 data
    let (version, s) ← readUint 8 s
    let (ruleIndex, s) ← readInt 4 s
    let (rules, s) ← readList 2 deserializeACLRule s
    let (rule, _) ← readRule s
    some ⟨defaultPolicy, rules, rule, ruleIndex, UInt64.ofNat version⟩

structure ACLRuleData.Fits (rule : ACLRuleData) : Prop where
  target : rule.target.length < 256 ^ 2
  subject : rule.subject.length < 256 ^ 2
  scope : rule.scope.length < 256 ^ 2
  rights : rule.rights.length < 256 ^ 2 ∧ ∀ right ∈ rule.rights, right.length < 256 ^ 2
  attributes : rule.attributes.length < 256 ^ 2 ∧ ∀ attr ∈ rule.attributes, attr.length < 256 ^ 2

/-- The lengths of an ACL command have 16 bits, and its rule index is a 32-bit number. -/
structure ACLCommand.Fits (cmd : ACLCommand) : Prop where
  defaultPolicy : cmd.defaultPolicy.length < 256 ^ 2
  rules : cmd.rules.length < 256 ^ 2 ∧ ∀ rule ∈ cmd.rules, rule.Fits
  rule : ∀ rule ∈ cmd.rule, rule.Fits
  ruleIndex : -256 ^ 4 ≤ 2 * cmd.ruleIndex ∧ 2 * cmd.ruleIndex < 256 ^ 4

/-! ## Reading what was written -/

lemma lossless_binding : Lossless putBinding readBinding fun binding =>
    binding.1.length < 256 ^ 2 ∧ binding.2.length < 256 ^ 2 where
  read_put := by
    rintro binding ⟨hkey, hvalue⟩ rest
    unfold readBinding putBinding
    simp only [append_assoc, readBlock_putBlock hkey, readBlock_putBlock hvalue,
      bind_eq_bind, bind_some]
  fits_of_read := by
    intro s rest binding hread
    obtain ⟨⟨key, s₁⟩, hkey, hread⟩ := bind_eq_some_iff.mp hread
    obtain ⟨⟨value, s₂⟩, hvalue, hread⟩ := bind_eq_some_iff.mp hread
    cases hread
    exact ⟨(readBlock_some hkey).1, (readBlock_some hvalue).1⟩

lemma lossless_strings : Lossless (putList 2 (putBlock 2)) (readList 2 (readBlock 2))
    fun strings : List Bytes => strings.length < 256 ^ 2 ∧ ∀ s ∈ strings, s.length < 256 ^ 2 :=
  (lossless_block 2).list 2

lemma lossless_rule : Lossless serializeACLRule deserializeACLRule ACLRuleData.Fits where
  read_put := by
    intro rule hfits rest
    unfold deserializeACLRule serializeACLRule
    simp only [append_assoc, readBlock_putBlock hfits.target,
      readBlock_putBlock hfits.subject, readBlock_putBlock hfits.scope,
      lossless_strings.read_put hfits.rights, lossless_strings.read_put hfits.attributes,
      readBool_putBool, bind_eq_bind, bind_some]
  fits_of_read := by
    intro s rest rule hread
    obtain ⟨⟨target, s₁⟩, htarget, hread⟩ := bind_eq_some_iff.mp hread
    obtain ⟨⟨subject, s₂⟩, hsubject, hread⟩ := bind_eq_some_iff.mp hread
    obtain ⟨⟨scope, s₃⟩, hscope, hread⟩ := bind_eq_some_iff.mp hread
    obtain ⟨⟨rights, s₄⟩, hrights, hread⟩ := bind_eq_some_iff.mp hread
    obtain ⟨⟨attributes, s₅⟩, hattributes, hread⟩ := bind_eq_some_iff.mp hread
    obtain ⟨⟨deny, s₆⟩, _, hread⟩ := bind_eq_some_iff.mp hread
    cases hread
    exact ⟨(readBlock_some htarget).1, (readBlock_some hsubject).1, (readBlock_some hscope).1,
      lossless_strings.fits_of_read hrights, lossless_strings.fits_of_read hattributes⟩

lemma lossless_singleRule :
    Lossless putRule readRule fun rule => ∀ r ∈ rule, ACLRuleData.Fits r where
  read_put := by
    intro rule hfits rest
    cases rule with
    | none => rfl
    | some rule =>
      have hrule := lossless_rule.read_put (hfits rule rfl) rest
      unfold readRule putRule
      simp only [append_assoc, readBool_putBool, bind_eq_bind, bind_some, if_true, hrule]
  fits_of_read := by
    intro s rest rule hread
    obtain ⟨⟨hasRule, s₁⟩, _, hread⟩ := bind_eq_some_iff.mp hread
    dsimp only at hread
    split at hread
    · obtain ⟨⟨found, s₂⟩, hfound, hread⟩ := bind_eq_some_iff.mp hread
      cases hread
      intro r hr
      cases hr
      exact lossless_rule.fits_of_read hfound
    · cases hread
      intro r hr
      cases hr

lemma deserializeConfigCommand_serialize (order : Order Bytes Bytes) {cmd : ConfigCommand}
    (hfits : cmd.Fits) :
    deserializeConfigCommand (serializeConfigCommand order cmd) = some cmd := by
  have hlist : putUint 2 cmd.data.size ++ (order.range cmd.data).flatMap putBinding =
      putList 2 putBinding (order.range cmd.data) := by rw [putList, order.length_range]
  have hbindings := (lossless_binding.list 2).read_put (a := order.range cmd.data)
    ⟨order.length_range cmd.data ▸ hfits.size, fun binding hmem =>
      hfits.binding binding.1 binding.2 ((order.mem_range cmd.data).mp hmem)⟩ []
  have hversion := Nat.mod_eq_of_lt (a := cmd.version.toNat) (b := 256 ^ 8) cmd.version.toNat_lt
  rw [append_nil] at hbindings
  unfold deserializeConfigCommand serializeConfigCommand
  rw [if_neg (by simp only [length_append, length_putBlock]; omega)]
  simp only [append_assoc, hlist, readBlock_putBlock hfits.sectionName, readUint_putUint,
    hversion, hbindings, bind_eq_bind, bind_some, insertAll_range,
    UInt64.ofNat_toNat]

lemma deserializeConfigCommand_fits {data : Bytes} {cmd : ConfigCommand}
    (hread : deserializeConfigCommand data = some cmd) : cmd.Fits := by
  unfold deserializeConfigCommand at hread
  split at hread
  · cases hread
  · obtain ⟨⟨sectionName, s₁⟩, hsection, hread⟩ := bind_eq_some_iff.mp hread
    obtain ⟨⟨version, s₂⟩, _, hread⟩ := bind_eq_some_iff.mp hread
    obtain ⟨⟨bindings, s₃⟩, hbindings, hread⟩ := bind_eq_some_iff.mp hread
    cases hread
    obtain ⟨hcount, hall⟩ := (lossless_binding.list 2).fits_of_read hbindings
    refine ⟨(readBlock_some hsection).1, ?_, fun key value hmem => ?_⟩
    · have hsize := size_insertAll_le ∅ bindings
      rw [Std.ExtTreeMap.size_empty, zero_add] at hsize
      exact hsize.trans_lt hcount
    · rcases mem_of_getElem?_insertAll hmem with hin | hempty
      · exact hall _ hin
      · simp at hempty

lemma deserializeACLCommand_serialize {cmd : ACLCommand} (hfits : cmd.Fits) :
    deserializeACLCommand (serializeACLCommand cmd) = some cmd := by
  have hrule := lossless_singleRule.read_put hfits.rule []
  have hversion := Nat.mod_eq_of_lt (a := cmd.version.toNat) (b := 256 ^ 8) cmd.version.toNat_lt
  rw [append_nil] at hrule
  unfold deserializeACLCommand serializeACLCommand
  rw [if_neg (by simp only [length_append, length_putBlock]; omega)]
  simp only [append_assoc, readBlock_putBlock hfits.defaultPolicy, readUint_putUint, hversion,
    (lossless_int 4).read_put hfits.ruleIndex, (lossless_rule.list 2).read_put hfits.rules, hrule,
    bind_eq_bind, bind_some, UInt64.ofNat_toNat]

lemma deserializeACLCommand_fits {data : Bytes} {cmd : ACLCommand}
    (hread : deserializeACLCommand data = some cmd) : cmd.Fits := by
  unfold deserializeACLCommand at hread
  split at hread
  · cases hread
  · obtain ⟨⟨defaultPolicy, s₁⟩, hpolicy, hread⟩ := bind_eq_some_iff.mp hread
    obtain ⟨⟨version, s₂⟩, _, hread⟩ := bind_eq_some_iff.mp hread
    obtain ⟨⟨ruleIndex, s₃⟩, hindex, hread⟩ := bind_eq_some_iff.mp hread
    obtain ⟨⟨rules, s₄⟩, hrules, hread⟩ := bind_eq_some_iff.mp hread
    obtain ⟨⟨rule, s₅⟩, hrule, hread⟩ := bind_eq_some_iff.mp hread
    cases hread
    exact ⟨(readBlock_some hpolicy).1, (lossless_rule.list 2).fits_of_read hrules,
      lossless_singleRule.fits_of_read hrule, (lossless_int 4).fits_of_read hindex⟩

/-- A command comes back from its bytes exactly if it fits, in whatever order the map of a
config command is written. -/
theorem commands_survive_iff (order : Order Bytes Bytes) (config : ConfigCommand)
    (acl : ACLCommand) :
    (deserializeConfigCommand (serializeConfigCommand order config) = some config ↔
        config.Fits) ∧
      (deserializeACLCommand (serializeACLCommand acl) = some acl ↔ acl.Fits) :=
  ⟨⟨deserializeConfigCommand_fits, deserializeConfigCommand_serialize order⟩,
    deserializeACLCommand_fits, deserializeACLCommand_serialize⟩

/-- A new level for the log. -/
def levelCommand (level : Bytes) : ConfigCommand :=
  ⟨ascii "logging", (∅ : Std.ExtTreeMap Bytes Bytes).insert (ascii "level") level, 1⟩

lemma deserialize_levelCommand (order : Order Bytes Bytes) {level : Bytes}
    (hlevel : level.length % 256 ^ 2 = 0) :
    deserializeConfigCommand (serializeConfigCommand order (levelCommand level)) =
      some (levelCommand []) := by
  have hkey : (ascii "level").length < 256 ^ 2 := by decide
  have hsection : (ascii "logging").length < 256 ^ 2 := by decide
  have hvalue : readBlock 2 (putBlock 2 level) = some ([], level) := by
    unfold readBlock putBlock
    simp only [readUint_putUint, hlevel, bind_eq_bind, bind_some]
    simp [readBytes]
  have hbinding : readBinding (putBinding (ascii "level", level)) =
      some ((ascii "level", []), level) := by
    unfold readBinding putBinding
    simp only [readBlock_putBlock hkey, hvalue, bind_eq_bind, bind_some]
  have hsize : (levelCommand level).data.size = 1 := by
    simp [levelCommand, Std.ExtTreeMap.size_insert]
  have hlist : readList 2 readBinding (putUint 2 1 ++ putBinding (ascii "level", level)) =
      some ([(ascii "level", [])], level) := by
    unfold readList
    simp only [readUint_putUint, bind_eq_bind, bind_some]
    simp only [show 1 % 256 ^ 2 = 0 + 1 from rfl, readMany, hbinding, bind_eq_bind, bind_some]
  unfold deserializeConfigCommand serializeConfigCommand
  rw [hsize]
  simp only [levelCommand, append_assoc, order.range_singleton, flatMap_singleton,
    readBlock_putBlock hsection, readUint_putUint, hlist, bind_eq_bind, bind_some]
  rfl

/-- A level of 65536 bytes is read as an empty one, and a rule that is to be updated at index
4294967296 is read with index 0. -/
theorem commands_change : deserializeConfigCommand (serializeConfigCommand .ascending
        (levelCommand (List.replicate 65536 97))) = some (levelCommand []) ∧
      levelCommand [] ≠ levelCommand (List.replicate 65536 97) ∧
      deserializeACLCommand (serializeACLCommand ⟨[], [], none, 4294967296, 1⟩) =
        some ⟨[], [], none, 0, 1⟩ := by
  refine ⟨deserialize_levelCommand .ascending (by rw [length_replicate]; rfl), fun hequal => ?_,
    by decide +kernel⟩
  have hlevel := congrArg (fun cmd => cmd.data[ascii "level"]?) hequal
  simp only [levelCommand, Std.ExtTreeMap.getElem?_insert_self, Option.some.injEq] at hlevel
  have hlength := congrArg List.length hlevel
  rw [length_replicate] at hlength
  cases hlength

end Oba.Raft
