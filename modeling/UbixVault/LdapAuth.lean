/-
The LDAP login, as package `ldapauth` does it.

The directory is outside of the vault: what it answers to a name and a password is a
parameter, and so is the reading of certificates.  Names of groups come from there as
they are and need not be valid text; everything else comes from requests and is text.
-/
import Mathlib.Data.String.Basic
import UbixVault.Text
import UbixVault.Token

namespace UbixVault.LdapAuth

structure Config where
  url : String
  startTLS : Bool
  insecureTLS : Bool
  certificate : String
  bindDN : String
  bindPassword : String
  userDN : String
  userAttr : String
  groupDN : String
  groupAttr : String
  groupFilter : String
  tokenTTL : Time
  tokenMaxTTL : Time

structure Method where
  tokens : TokenStore
  aliaser : Option Aliaser
  pfx : Key
  validKey_pfx : validKey pfx = true
  configJson : Codec Byte Config fun _ => True
  groupJson : Codec Byte (List String) fun _ => True
  /-- A bundle of certificates that can be read. -/
  certPool : (certificate : String) → Bool
  /-- What the directory answers: the groups of the user, or why not. -/
  authenticate : Config → (username password : String) → Except Err (List Bytes)

def validName (name : Bytes) : Bool := name != [] && !name.contains slash

namespace Method

variable (m : Method)

def configKey : Key := m.pfx ++ str "/config"

def groupKey (name : Bytes) : Key := m.pfx ++ str "/groups/" ++ name

def configure (cfg : Config) : Act Unit :=
  if cfg.url = "" ∨ cfg.userDN = "" then throw (.ldap .invalidConfig)
  else if cfg.certificate ≠ "" ∧ cfg.insecureTLS then throw (.ldap .certificateWithInsecureTLS)
  else if cfg.certificate ≠ "" ∧ !m.certPool cfg.certificate then throw (.ldap .invalidCertificate)
  else (Act.put m.configKey (m.configJson.marshal cfg)).context "ldapauth: persist config"

def readConfig : Act Config := do
  match ← (Act.get m.configKey).context "ldapauth: read config" with
  | none => throw (.ldap .notConfigured)
  | some blob =>
    match m.configJson.unmarshal blob with
    | none => throw (.wrap "ldapauth: unmarshal config" .outside)
    | some cfg => return cfg

def writeGroup (name : Bytes) (policies : List String) : Act Unit :=
  if !validName name then throw (.ldap .invalidName)
  else (Act.put (m.groupKey name) (m.groupJson.marshal policies)).context "ldapauth: persist group"

/-- The policies of a group; none if it has no mapping. -/
def readGroup (name : Bytes) : Act (List String) := do
  match ← (Act.get (m.groupKey name)).context "ldapauth: read group" with
  | none => return []
  | some blob =>
    match m.groupJson.unmarshal blob with
    | none => throw (.wrap "ldapauth: unmarshal group" .outside)
    | some policies => return policies

def listGroups : Act (List Key) := (Act.list (m.pfx ++ str "/groups/")).context "ldapauth: list groups"

def deleteGroup (name : Bytes) : Act Unit :=
  if !validName name then throw (.ldap .invalidName)
  else (Act.delete (m.groupKey name)).context "ldapauth: delete group"

/-- The set of the policies of the groups, added to those found so far. -/
def collect : (groups : List Bytes) → (policySet : Finset String) → Act (Finset String)
  | [], policySet => return policySet
  | g :: groups, policySet => do
      let mapped ← m.readGroup g
      collect groups (policySet ∪ mapped.toFinset)

def login (username password : String) : Act Token := do
  let cfg ← m.readConfig
  if username = "" ∨ password = "" then throw (.ldap .denied)
  let groups ← Act.ofExcept (m.authenticate cfg username password)
  let policySet ← m.collect groups ∅
  m.tokens.createForLogin m.aliaser policySet.inOrder (if cfg.tokenTTL > 0 then cfg.tokenTTL else 0)
    cfg.tokenMaxTTL
    "ldap" username (groups.map text)

end Method

end UbixVault.LdapAuth
