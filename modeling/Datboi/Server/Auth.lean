import Datboi.Server.Hardening

/-!
# Identities

Users, invites and sessions live in state.db, where a token is only known by its digest. A
request is that of the loopback owner, of the user whose session its cookie or its bearer token
names, or anonymous. The digest of tokens is a parameter.
-/

namespace Datboi

open Catalog (Text)
open Http (HeaderMap Method stripStart)

namespace Auth

inductive Role where
  | owner
  | friend
  deriving DecidableEq, Repr

structure UserRow where
  userId : Nat
  username : Text
  argon2 : Text
  role : Role
  createdAt : Int
  deriving DecidableEq, Repr

structure InviteRow (H : Type) where
  tokenHash : H
  createdBy : Option Nat
  role : Role
  expiresAt : Int
  usedBy : Option Nat
  deriving DecidableEq, Repr

structure SessionRow (H : Type) where
  tokenHash : H
  userId : Nat
  expiresAt : Int
  deriving DecidableEq, Repr

/-- The tables of state.db that identities live in. -/
structure Tables (H : Type) where
  users : List UserRow := []
  invites : List (InviteRow H) := []
  sessions : List (SessionRow H) := []

inductive InviteOutcome where
  | accepted (userId : Nat) (role : Role)
  | inviteInvalid
  | usernameTaken
  deriving DecidableEq, Repr

namespace Tables

variable {H : Type} [DecidableEq H] (db : Tables H)

def userByName (username : Text) : Option UserRow := db.users.find? (·.username = username)

/-- The id that SQLite gives the next user row. -/
def nextUserId : Nat := (db.users.map UserRow.userId).foldl max 0 + 1

/-- A second row of one token hash is refused. -/
def mintInvite (tokenHash : H) (createdBy : Option Nat) (role : Role) (expiresAt : Int) :
    Option (Tables H) :=
  if db.invites.any (·.tokenHash = tokenHash) then none
  else some { db with invites := db.invites ++ [⟨tokenHash, createdBy, role, expiresAt, none⟩] }

/-- Revoke an unused invite. -/
def deleteInvite (tokenHash : H) : Tables H :=
  { db with
    invites := db.invites.filter fun row => ¬ (row.tokenHash = tokenHash ∧ row.usedBy = none) }

/-- Consume an invite and create its user, in one transaction. -/
def acceptInvite (tokenHash : H) (username argon2 : Text) (now : Int) :
    InviteOutcome × Tables H :=
  match db.invites.find? fun row =>
      row.tokenHash = tokenHash ∧ row.usedBy = none ∧ now < row.expiresAt with
  | none => (.inviteInvalid, db)
  | some invite =>
    if db.users.any (·.username = username) then (.usernameTaken, db)
    else
      (.accepted db.nextUserId invite.role,
        { db with
          users := db.users ++ [⟨db.nextUserId, username, argon2, invite.role, now⟩]
          invites := db.invites.map fun row =>
            if row.tokenHash = tokenHash then { row with usedBy := some db.nextUserId }
            else row })

def createSession (tokenHash : H) (userId : Nat) (expiresAt : Int) : Option (Tables H) :=
  if db.sessions.any (·.tokenHash = tokenHash) then none
  else some { db with sessions := db.sessions ++ [⟨tokenHash, userId, expiresAt⟩] }

/-- The user of a live session. -/
def sessionUser (tokenHash : H) (now : Int) : Option (Nat × Text × Role) :=
  (db.sessions.find? fun row => row.tokenHash = tokenHash ∧ now < row.expiresAt).bind fun row =>
    (db.users.find? (·.userId = row.userId)).map fun user =>
      (user.userId, user.username, user.role)

def deleteSession (tokenHash : H) : Tables H :=
  { db with sessions := db.sessions.filter (·.tokenHash ≠ tokenHash) }

def deleteSessionsForUser (userId : Nat) : Tables H :=
  { db with sessions := db.sessions.filter (·.userId ≠ userId) }

def deleteExpiredSessions (now : Int) : Tables H :=
  { db with sessions := db.sessions.filter fun row => now < row.expiresAt }

end Tables

/-! ## Who is asking -/

inductive Via where
  | session
  | bearer
  deriving DecidableEq, Repr

inductive Caller where
  | local
  | user (userId : Nat) (username : Text) (role : Role) (via : Via)
  | anonymous
  deriving DecidableEq, Repr

def sessionCookieName : Text := "datboi_session".toList

def sessionTtlSecs : Int := 30 * 24 * 60 * 60

/-- The value of the first session cookie. -/
def sessionCookie (headers : HeaderMap) : Option Text :=
  let pairs := (headers.getAll "cookie").flatMap fun value =>
    (Http.toStr value).elim [] (·.splitOn ';')
  pairs.findSome? fun pair => (stripStart sessionCookieName (Text.trim pair)).bind (stripStart ['='])

def bearerToken (headers : HeaderMap) : Option Text :=
  ((headers.text "authorization").bind (stripStart "Bearer ".toList)).map Text.trim

/-- The tokens that a request presents, in the order in which they are tried. -/
def candidates (headers : HeaderMap) : List (Text × Via) :=
  (sessionCookie headers).toList.map (·, .session) ++
    (bearerToken headers).toList.map (·, .bearer)

variable {H : Type} [DecidableEq H] (tokenHash : Text → H)

/-- Loopback is the owner; otherwise the first token that names a live session decides. A
read that fails names none. -/
def resolve (fails : H → Bool) (db : Tables H) (loopback : Bool) (headers : HeaderMap)
    (now : Int) : Caller :=
  if loopback then .local
  else
    ((candidates headers).findSome? fun (token, via) =>
      if fails (tokenHash token) then none
      else (db.sessionUser (tokenHash token) now).map fun (userId, username, role) =>
        Caller.user userId username role via).getD .anonymous

/-- What a logout deletes: the session of the cookie or, without a cookie, of the bearer
token. -/
def presented (headers : HeaderMap) : Option H :=
  ((sessionCookie headers).orElse fun _ => bearerToken headers).map tokenHash

/-! ## The gate -/

inductive Access where
  | open
  | authenticated
  | loopbackOnly
  deriving DecidableEq, Repr

/-- The path or something below it. -/
def under (path start : Text) : Bool :=
  (stripStart start path).any fun rest => rest = [] ∨ rest.head? = some '/'

def routeAccess (path : Text) : Access :=
  if path = "/healthz".toList ∨ under path "/v1/auth".toList then .open
  else if under path "/v1".toList ∨ under path "/view".toList ∨ under path "/snap".toList then
    .authenticated
  else if under path "/dav".toList then .loopbackOnly
  else .open

inductive GateError where
  | csrfRejected (message : String)
  | unauthorized (message : String)
  deriving DecidableEq, Repr

/-- The cross-origin check comes first, then the caller is resolved and the class of the route
is enforced. -/
def gate (fails : H → Bool) (db : Tables H) (loopback : Bool) (method : Method)
    (headers : HeaderMap) (path : Text) (now : Int) : Except GateError Caller :=
  match Hardening.csrfCheck method headers with
  | .error message => .error (.csrfRejected message)
  | .ok () =>
    let caller := resolve tokenHash fails db loopback headers now
    match routeAccess path with
    | .open => .ok caller
    | .authenticated =>
      if caller = .anonymous then .error (.unauthorized "authentication required")
      else .ok caller
    | .loopbackOnly =>
      if caller ≠ .local then .error (.unauthorized "this surface is loopback-only")
      else .ok caller

end Auth

end Datboi
