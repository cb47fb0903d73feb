import Oba.Storage.Entry

/-! # The config manager

`manager.go` of the package `config`: the sections of the configuration that a replicated
command may change. A value that cannot be read leaves its field as it is; only the name of
the section is checked.
-/

namespace Oba.Admin

open Storage (Bytes ascii toLower)

/-- The readers of Go's standard library for numbers and for durations in nanoseconds. -/
structure Readers where
  atoi : Bytes → Option Int
  parseDuration : Bytes → Option Int

structure LoggingConfig where
  level : Bytes
  format : Bytes
  deriving DecidableEq, Repr, Inhabited

structure ServerConfig where
  maxConnections : Int
  readTimeout : Int
  writeTimeout : Int
  tlsCert : Bytes
  tlsKey : Bytes
  deriving DecidableEq, Repr, Inhabited

structure RateLimitConfig where
  enabled : Bool
  maxAttempts : Int
  lockoutDuration : Int
  deriving DecidableEq, Repr, Inhabited

structure PasswordPolicyConfig where
  enabled : Bool
  minLength : Int
  requireUppercase : Bool
  requireLowercase : Bool
  requireDigit : Bool
  requireSpecial : Bool
  maxAge : Int
  historyCount : Int
  deriving DecidableEq, Repr, Inhabited

structure RESTConfig where
  rateLimit : Int
  tokenTTL : Int
  corsOrigins : List Bytes
  deriving DecidableEq, Repr, Inhabited

/-- The sections that can be changed while the server runs. -/
structure Config where
  logging : LoggingConfig
  server : ServerConfig
  rateLimit : RateLimitConfig
  passwordPolicy : PasswordPolicyConfig
  rest : RESTConfig
  deriving DecidableEq, Repr, Inhabited

structure ConfigManager where
  config : Config
  version : UInt64
  deriving DecidableEq, Repr, Inhabited

/-! ## Fields -/

abbrev Settings := Std.ExtTreeMap Bytes Bytes

namespace Settings

variable (data : Settings) (key : String)

def text (old : Bytes) : Bytes := data[ascii key]?.getD old

def flag (old : Bool) : Bool := (data[ascii key]?.map fun v => decide (v = ascii "true")).getD old

def parsed (reader : Bytes → Option Int) (old : Int) : Int :=
  (data[ascii key]?.bind reader).getD old

/-- Values between commas. -/
def list (old : List Bytes) : List Bytes :=
  match data[ascii key]? with
  | some v => if v ≠ [] then v.splitOn 44 else old
  | none => old

end Settings

/-! ## Sections -/

section

variable (readers : Readers) (data : Settings)

def LoggingConfig.update (c : LoggingConfig) : LoggingConfig where
  level := data.text "level" c.level
  format := data.text "format" c.format

def ServerConfig.update (c : ServerConfig) : ServerConfig where
  maxConnections := data.parsed "maxConnections" readers.atoi c.maxConnections
  readTimeout := data.parsed "readTimeout" readers.parseDuration c.readTimeout
  writeTimeout := data.parsed "writeTimeout" readers.parseDuration c.writeTimeout
  tlsCert := data.text "tlsCert" c.tlsCert
  tlsKey := data.text "tlsKey" c.tlsKey

def RateLimitConfig.update (c : RateLimitConfig) : RateLimitConfig where
  enabled := data.flag "enabled" c.enabled
  maxAttempts := data.parsed "maxAttempts" readers.atoi c.maxAttempts
  lockoutDuration := data.parsed "lockoutDuration" readers.parseDuration c.lockoutDuration

def PasswordPolicyConfig.update (c : PasswordPolicyConfig) : PasswordPolicyConfig where
  enabled := data.flag "enabled" c.enabled
  minLength := data.parsed "minLength" readers.atoi c.minLength
  requireUppercase := data.flag "requireUppercase" c.requireUppercase
  requireLowercase := data.flag "requireLowercase" c.requireLowercase
  requireDigit := data.flag "requireDigit" c.requireDigit
  requireSpecial := data.flag "requireSpecial" c.requireSpecial
  maxAge := data.parsed "maxAge" readers.parseDuration c.maxAge
  historyCount := data.parsed "historyCount" readers.atoi c.historyCount

def RESTConfig.update (c : RESTConfig) : RESTConfig where
  rateLimit := data.parsed "rateLimit" readers.atoi c.rateLimit
  tokenTTL := data.parsed "tokenTTL" readers.parseDuration c.tokenTTL
  corsOrigins := data.list "corsOrigins" c.corsOrigins

/-- The configuration after a change of one section, whose name is in lower case. -/
def Config.update (sectionName : Bytes) (c : Config) : Option Config :=
  if sectionName = ascii "logging" then some { c with logging := c.logging.update data }
  else if sectionName = ascii "server" then some { c with server := c.server.update readers data }
  else if sectionName = ascii "security.ratelimit" then
    some { c with rateLimit := c.rateLimit.update readers data }
  else if sectionName = ascii "security.passwordpolicy" then
    some { c with passwordPolicy := c.passwordPolicy.update readers data }
  else if sectionName = ascii "rest" then some { c with rest := c.rest.update readers data }
  else none

end

/-- An unknown or read-only section. -/
structure UnknownSection where
  sectionName : Bytes
  deriving DecidableEq, Repr

def ConfigManager.applyFromRaft (readers : Readers) (sectionName : Bytes) (data : Settings)
    (m : ConfigManager) : Except UnknownSection ConfigManager :=
  match m.config.update readers data (toLower sectionName) with
  | some config => .ok ⟨config, m.version + 1⟩
  | none => .error ⟨sectionName⟩

/-- The sections that a command may change. -/
def hotSections : List Bytes :=
  [ascii "logging", ascii "server", ascii "security.ratelimit", ascii "security.passwordpolicy",
    ascii "rest"]

lemma Config.update_isSome (readers : Readers) (data : Settings) (sectionName : Bytes)
    (c : Config) : (c.update readers data sectionName).isSome ↔ sectionName ∈ hotSections := by
  unfold Config.update hotSections
  split_ifs <;> simp_all

lemma ConfigManager.applyFromRaft_ok_iff (readers : Readers) (sectionName : Bytes)
    (data : Settings) (m : ConfigManager) :
    (∃ next, m.applyFromRaft readers sectionName data = .ok next) ↔
      toLower sectionName ∈ hotSections := by
  rw [← m.config.update_isSome readers data, applyFromRaft]
  cases hupdate : m.config.update readers data (toLower sectionName) <;> simp

end Oba.Admin
