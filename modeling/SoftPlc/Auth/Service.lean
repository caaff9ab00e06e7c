import SoftPlc.Auth.Lockout

/-!
# Authentication

`AuthService::authenticate` (`plc-auth/src/service.rs`): a locked address is refused before its
credentials are looked at, and a failure that counts is recorded in the lockout tracker. The hash of
a secret is a parameter.
-/

namespace SoftPlc.Auth

/-- Source: `role.rs`, `Role`. -/
inductive Role where
  | viewer
  | operator
  | engineer
  | admin
  deriving DecidableEq, Repr

/-- How a principal was authenticated. Source: `principal.rs`, `AuthMethod`. -/
inductive AuthMethod where
  | bearer
  | mtls
  | anonymous
  deriving DecidableEq, Repr

/-- Source: `principal.rs`, `Principal`. -/
structure Principal where
  id : String
  role : Role
  method : AuthMethod
  deriving DecidableEq, Repr

/-- Source: `principal.rs`, `ANONYMOUS_ID`. -/
def anonymousId : String := "anonymous"

/-- Presented credentials. Source: `credential.rs`, `Credential`. -/
inductive Credential where
  | none
  | bearer (token : String)
  | clientCert (fingerprintSha256 : List UInt8) (subjectCn : Option String)
  deriving DecidableEq, Repr

/-- The errors of `authenticate`. Source: `error.rs`, `AuthError`. -/
inductive AuthError where
  | unauthenticated
  | locked (retryAfterSecs : ℕ)
  deriving DecidableEq, Repr

/-- Source: `service.rs`, `StoredPrincipal`. -/
structure StoredPrincipal where
  id : String
  role : Role
  tokenHash : Option (List UInt8)
  certHash : Option (List UInt8)
  deriving DecidableEq, Repr

/-- Source: `service.rs`, `AuthService`; the clock is read by the caller of the model. -/
structure AuthService (α : Type) where
  required : Bool
  principals : List StoredPrincipal
  lockout : LockoutTracker α

/-- Source: `credential.rs`, `ct_eq`. -/
def ctEq (a b : List UInt8) : Bool :=
  if a.length ≠ b.length then false
  else (a.zip b).foldl (fun d p => d ||| (p.1 ^^^ p.2)) 0 == 0

/-- The first principal whose stored hash is the presented one; all are compared. Source:
`service.rs`, the loop of `match_token` and `match_cert`. -/
def matchStored (stored : StoredPrincipal → Option (List UInt8)) (method : AuthMethod)
    (principals : List StoredPrincipal) (hash : List UInt8) : Option Principal :=
  principals.foldl
    (fun found p =>
      match stored p with
      | some h => if ctEq h hash && found.isNone then some ⟨p.id, p.role, method⟩ else found
      | none => found) none

/-- Source: `service.rs`, `should_count_failure`. -/
def shouldCountFailure (cred : Credential) (required : Bool) : Bool :=
  match cred with
  | .none => required
  | .bearer _ | .clientCert _ _ => true

/-- One call of `authenticate`: what the caller presents, from where and when, and the order in
which the map is walked. -/
structure Call (α : Type) where
  cred : Credential
  ip : α
  now : ℕ
  iter : Iteration α

namespace AuthService

variable {α : Type}

/-- Source: `service.rs`, `AuthService::match_token`. -/
def matchToken (s : AuthService α) (hash : List UInt8) : Option Principal :=
  matchStored StoredPrincipal.tokenHash .bearer s.principals hash

/-- Source: `service.rs`, `AuthService::match_cert`. -/
def matchCert (s : AuthService α) (fingerprint : List UInt8) : Option Principal :=
  matchStored StoredPrincipal.certHash .mtls s.principals fingerprint

variable (hashSecret : List UInt8 → List UInt8)

/-- Source: `service.rs`, `AuthService::verify`. -/
def verify (s : AuthService α) (cred : Credential) : Except AuthError Principal :=
  match cred with
  | .none =>
      if s.required then .error .unauthenticated else .ok ⟨anonymousId, .admin, .anonymous⟩
  | .bearer token =>
      match s.matchToken (hashSecret token.toUTF8.data.toList) with
      | some p => .ok p
      | none => .error .unauthenticated
  | .clientCert fingerprint _ =>
      match s.matchCert fingerprint with
      | some p => .ok p
      | none => .error .unauthenticated

variable [DecidableEq α]

/-- A failure that was verified. Source: `service.rs`, the branch `Err(err)` of
`AuthService::authenticate`. -/
def fail (s : AuthService α) (c : Call α) (err : AuthError) :
    Except AuthError Principal × AuthService α :=
  if shouldCountFailure c.cred s.required then
    match s.lockout.recordFailure c.iter c.ip c.now with
    | (some secs, t) => (.error (.locked secs), { s with lockout := t })
    | (none, t) => (.error err, { s with lockout := t })
  else (.error err, s)

/-- Source: `service.rs`, `AuthService::authenticate`. -/
def authenticate (s : AuthService α) (c : Call α) : Except AuthError Principal × AuthService α :=
  match s.lockout.lockedRemaining c.ip c.now with
  | (some secs, t) => (.error (.locked secs), { s with lockout := t })
  | (none, t) =>
      match s.verify hashSecret c.cred with
      | .ok principal => (.ok principal, { s with lockout := t })
      | .error err => { s with lockout := t }.fail c err

/-- The service after a sequence of calls. -/
def run (s : AuthService α) (calls : List (Call α)) : AuthService α :=
  calls.foldl (fun s c => (s.authenticate hashSecret c).2) s

/-- A call whose credentials fail in a way that counts. -/
def counts (s : AuthService α) (c : Call α) : Bool :=
  match s.verify hashSecret c.cred with
  | .ok _ => false
  | .error _ => shouldCountFailure c.cred s.required

/-- One call leaves no more addresses than the bound. -/
theorem authenticate_bounded {n : ℕ} {s : AuthService α} (h : s.lockout.Bounded n) (c : Call α) :
    (s.authenticate hashSecret c).2.lockout.Bounded n := by
  have hlook := LockoutTracker.lockedRemaining_bounded h c.ip c.now
  unfold authenticate
  rcases hr : s.lockout.lockedRemaining c.ip c.now with ⟨_ | secs, t⟩
  · rw [hr] at hlook
    rcases s.verify hashSecret c.cred with err | principal
    · simp only [fail]
      split_ifs
      · have hfail := LockoutTracker.recordFailure_bounded hlook c.iter c.ip c.now
        rcases hrec : t.recordFailure c.iter c.ip c.now with ⟨_ | secs, t'⟩
        · rw [hrec] at hfail
          exact hfail
        · rw [hrec] at hfail
          exact hfail
      · exact hlook
    · exact hlook
  · rw [hr] at hlook
    exact hlook

/-- A run leaves no more addresses than the bound. -/
theorem run_bounded {n : ℕ} {s : AuthService α} (h : s.lockout.Bounded n) (calls : List (Call α)) :
    (s.run hashSecret calls).lockout.Bounded n := by
  induction calls generalizing s with
  | nil => exact h
  | cons c calls ih => exact ih (s.authenticate_bounded hashSecret h c)

end AuthService

end SoftPlc.Auth
