import UbixVault.Proofs.Shamir.Secrecy
import UbixVault.Proofs.Core.InitAtomic
import UbixVault.Proofs.Core.Discard
import UbixVault.Proofs.Integrity
import UbixVault.Proofs.Hcl
import UbixVault.Proofs.Identity
import UbixVault.Proofs.Api.Auth
import UbixVault.Proofs.Api.Lockout
import UbixVault.Proofs.Api.Wrapping
import UbixVault.Proofs.Api.Cleanup
import UbixVault.Proofs.Token.Sweep
import UbixVault.Proofs.Kv.Failure
import UbixVault.Proofs.Database.Create
import UbixVault.Proofs.Database.Username
import UbixVault.Proofs.Database.Sweep
import UbixVault.Proofs.JwtAuth
import UbixVault.Proofs.Jwks
import UbixVault.Proofs.LdapAuth
import UbixVault.Proofs.Ratelimit
import UbixVault.Proofs.Quota.Choice
import UbixVault.Proofs.Raft.TokenText
import UbixVault.Proofs.Raft.Read
import UbixVault.Proofs.Raft.Promote
import UbixVault.Proofs.Raft.Migrate
import UbixVault.Proofs.Cluster.Forward
import UbixVault.Proofs.Release
import UbixVault.Proofs.Election
