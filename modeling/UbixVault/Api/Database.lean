/-
Tokens and what they leave behind, as package `api` puts them together.

The handler gives the token store a callback: before the record of a token is deleted,
its leases are revoked and its cubbyhole is destroyed.  A program of the token store
calls back through the operation `cleanup`, so the program the handler runs is that
program with the operation replaced by what the handler does.
-/
import UbixVault.Database
import UbixVault.Token

namespace UbixVault.Database

/-- The parts of the handler that keep what belongs to a token. -/
structure Handler (δ : Type) where
  tokens : TokenStore
  database : Engine
  cubbyhole : Cubbyhole.Engine δ
  format : Time → Bytes
  database_pfx : database.pfx = str "database"
  database_plugin : database.plugin = Mariadb.plugin format
  cubbyhole_pfx : cubbyhole.pfx = str "cubbyhole"

/-- How a call of the token store is answered; it calls back for `cleanup`. -/
def callback (cleanup : Bytes → DbAct Unit) : (call : Call) → DbProg (Reply call)
  | .cleanup id => (cleanup id).run
  | .get key => Program.perform (Op.vault (.get key))
  | .put key value => Program.perform (Op.vault (.put key value))
  | .delete key => Program.perform (Op.vault (.delete key))
  | .list pfx => Program.perform (Op.vault (.list pfx))
  | .randRead n => Program.perform (Op.vault (.randRead n))
  | .randInt bound => Program.perform (Op.vault (.randInt bound))
  | .now => Program.perform (Op.vault .now)
  | .wrap plaintext => Program.perform (Op.vault (.wrap plaintext))
  | .unwrap wrapped => Program.perform (Op.vault (.unwrap wrapped))
  | .acquireLock => Program.perform (Op.vault .acquireLock)
  | .releaseLock => Program.perform (Op.vault .releaseLock)

namespace Handler

variable {δ : Type} (h : Handler δ) (depth : Nat)

/-- Destroy what a token owned, before its record goes. -/
def cleanupToken (id : Bytes) : DbAct Unit :=
  ExceptT.mk do
    match ← h.database.revokeByToken id with
    | (.error err, _) => return .error err
    | (.ok (), _) => (DbAct.vault (h.cubbyhole.destroy depth id)).run

/-- `RevokeTree` with `cleanupToken`, as `tokenRevokeSelf` calls it. -/
def revokeTree (id : Bytes) : DbProg (Except Err Unit × Nat) :=
  (h.tokens.revokeAll id (some Act.cleanup)).translate (callback (h.cleanupToken depth))

/-- `SweepExpired` with `cleanupToken`. -/
def sweepExpired (limit : Int) : DbProg (Except Err Unit × Nat) :=
  (h.tokens.sweepExpired limit (some Act.cleanup)).translate (callback (h.cleanupToken depth))

def tokenSweepBatch : Int := 20000

def sweepExpiredTokens : DbProg (Except Err Unit × Nat) := h.sweepExpired depth tokenSweepBatch

end Handler

end UbixVault.Database
