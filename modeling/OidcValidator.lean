import OidcValidator.ByteString
import OidcValidator.StdSet
import OidcValidator.Number
import OidcValidator.Picojson
import OidcValidator.Json
import OidcValidator.Regex
import OidcValidator.Control
import OidcValidator.Interleaving
import OidcValidator.Progress
import OidcValidator.PgUtils
import OidcValidator.Bridge
import OidcValidator.Jwt
import OidcValidator.Jwk
import OidcValidator.Dshash
import OidcValidator.Ownership
import OidcValidator.EntryRefs
import OidcValidator.AttachShared
import OidcValidator.HttpCache
import OidcValidator.HttpClient
import OidcValidator.SharedCache
import OidcValidator.CacheSteps
import OidcValidator.CacheProgress
import OidcValidator.Refinement
import OidcValidator.AtomicCache
import OidcValidator.OneBackend
import OidcValidator.Validator
import OidcValidator.Acceptance
import OidcValidator.Logins
import OidcValidator.Withdrawal
import OidcValidator.Identity
import OidcValidator.ErrorState
import OidcValidator.Spelling
import OidcValidator.LoginProgress
import OidcValidator.InitLock
import OidcValidator.AttachProgress
import OidcValidator.KeyMaterial
import OidcValidator.HonestLogin
import OidcValidator.Tenant
import OidcValidator.Words
import OidcValidator.ScopeDecision
import OidcValidator.CacheControl
import OidcValidator.CacheFailure
import OidcValidator.OneLogin
