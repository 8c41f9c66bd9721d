import Mathlib.Tactic.SplitIfs
import Datboi.Lib.Runs
import Datboi.Lib.Since
import Datboi.Server.Auth

/-!
# What a credential stands for

Requests and command lines take their steps on the identity tables in any order, while the
clock runs. A log keeps what was handed out and what was taken back. An invite makes one user,
a token speaks for the user it was issued for until it expires or is taken back, and what a
logout was asked to end has ended, as long as each logout ends every live token it was
presented with.
-/

namespace Datboi

open Catalog (Text)
open Http (HeaderMap)
open History (Since Justified)

namespace Auth

variable {H : Type}

/-! ## The steps of requests -/

/-- Lower-case letters, digits, `-` and `_`, between 1 and 32 of them. -/
def validUsername (name : Text) : Bool :=
  !name.isEmpty && name.utf8Len ≤ 32 &&
    name.all fun c => ('a' ≤ c && c ≤ 'z') || ('0' ≤ c && c ≤ '9') || c = '-' || c = '_'

/-- What is recorded of a run. -/
inductive Event (H : Type) where
  | minted (invite : Text) (role : Role) (expiresAt : Int)
  | inviteRevoked (tokenHash : H)
  | created (invite : Text) (user : UserRow)
  | issued (token : Text) (userId : Nat) (expiresAt : Int)
  | sessionsRevoked (userId : Nat)
  | answered (headers : HeaderMap) (now : Int)
  deriving DecidableEq

/-- The tokens that an event names. -/
def Event.tokens : Event H → List Text
  | .minted invite _ _ => [invite]
  | .created invite _ => [invite]
  | .issued token _ _ => [token]
  | .answered headers _ => (candidates headers).map Prod.fst
  | .inviteRevoked _ => []
  | .sessionsRevoked _ => []

def Event.createdUser : Event H → Option UserRow
  | .created _ user => some user
  | _ => none

/-- A request between two of its steps: a login whose password was right, an acceptance whose
password is hashed, a login before its sweep, and a request that is about to open a session. -/
inductive Flight where
  | verified (userId : Nat)
  | accepting (invite username argon2 : Text) (now : Int)
  | sweeping (userId : Nat) (now : Int)
  | opening (userId : Nat) (now : Int)

/-- The tables, the clock and the requests in flight, with a log of what happened and the
tokens that were handed out or presented to a logout. -/
structure World (H : Type) where
  db : Tables H
  clock : Int
  flights : List Flight
  log : List (Event H)
  seen : List Text

inductive Move (H : Type) where
  | tick (seconds : Nat)
  | mintInvite (invite : Text) (createdBy : Option Nat) (role : Role) (expiresAt : Int)
  | revokeInvite (tokenHash : H)
  | beginAccept (invite username password argon2 : Text)
  | login (username password : Text)
  | advance (ix : Nat) (token : Text)
  | abandon (ix : Nat)
  | logout (headers : HeaderMap) (deletes : Bool)
  | revokeSessions (username : Text)
  | mintToken (token username : Text) (expiresAt : Int)

variable [DecidableEq H] (tokenHash : Text → H) (verifyPassword : Text → Text → Bool)

/-- Write the session of a new token. -/
def World.issue (w : World H) (token : Text) (userId : Nat) (expiresAt : Int) : World H :=
  (w.db.createSession (tokenHash token) userId expiresAt).elim w fun db =>
    { w with
      db := db
      log := w.log ++ [.issued token userId expiresAt]
      seen := token :: w.seen }

/-- One step of a request in flight, and where the request is then. -/
def World.proceed (w : World H) (token : Text) : Flight → World H × Option Flight
  | .verified userId => (w, some (.sweeping userId w.clock))
  | .accepting invite username argon2 now =>
    match w.db.acceptInvite (tokenHash invite) username argon2 now with
    | (.accepted userId role, db) =>
      ({ w with
          db := db
          log := w.log ++ [.created invite ⟨userId, username, argon2, role, now⟩] },
        some (.opening userId now))
    | (.inviteInvalid, _) => (w, none)
    | (.usernameTaken, _) => (w, none)
  | .sweeping userId now =>
    ({ w with db := w.db.deleteExpiredSessions now }, some (.opening userId now))
  | .opening userId now => (w.issue tokenHash token userId (now + sessionTtlSecs), none)

/-- A request that is refused, and one that fails between two steps, leave nothing else. A
logout is answered alike whether its deletion succeeds or not. -/
def World.next (w : World H) : Move H → World H
  | .tick seconds => { w with clock := w.clock + seconds }
  | .mintInvite invite createdBy role expiresAt =>
    (w.db.mintInvite (tokenHash invite) createdBy role expiresAt).elim w fun db =>
      { w with
        db := db
        log := w.log ++ [.minted invite role expiresAt]
        seen := invite :: w.seen }
  | .revokeInvite hash =>
    { w with db := w.db.deleteInvite hash, log := w.log ++ [.inviteRevoked hash] }
  | .beginAccept invite username password argon2 =>
    if validUsername username ∧ 8 ≤ password.utf8Len then
      { w with flights := w.flights ++ [.accepting invite username argon2 w.clock] }
    else w
  | .login username password =>
    (w.db.userByName username).elim w fun user =>
      if verifyPassword password user.argon2 then
        { w with flights := w.flights ++ [.verified user.userId] }
      else w
  | .advance ix token =>
    w.flights[ix]?.elim w fun flight =>
      let (after, flight) := w.proceed tokenHash token flight
      { after with
        flights := flight.elim (after.flights.eraseIdx ix) (after.flights.set ix) }
  | .abandon ix => { w with flights := w.flights.eraseIdx ix }
  | .logout headers deletes =>
    { w with
      db := if deletes then (presented tokenHash headers).elim w.db w.db.deleteSession else w.db
      log := w.log ++ [.answered headers w.clock]
      seen := (candidates headers).map Prod.fst ++ w.seen }
  | .revokeSessions username =>
    (w.db.userByName username).elim w fun user =>
      { w with
        db := w.db.deleteSessionsForUser user.userId
        log := w.log ++ [.sessionsRevoked user.userId] }
  | .mintToken token username expiresAt =>
    (w.db.userByName username).elim w fun user =>
      w.issue tokenHash token user.userId expiresAt

/-- A new token is none that was handed out or presented before. -/
def World.Allowed (w : World H) : Move H → Prop
  | .mintInvite invite _ _ _ => invite ∉ w.seen
  | .advance _ token => token ∉ w.seen
  | .mintToken token _ _ => token ∉ w.seen
  | _ => True

/-- After the logout, no token that it was presented with names a live session: the token is
the one that is deleted, or it had none. -/
def World.EndsAll (w : World H) : Move H → Prop
  | .logout headers deletes =>
    ∀ p ∈ candidates headers,
      (deletes = true ∧ presented tokenHash headers = some (tokenHash p.1)) ∨
        ∀ row ∈ w.db.sessions, row.tokenHash = tokenHash p.1 → row.expiresAt ≤ w.clock
  | _ => True

/-! ## What credentials stand for -/

/-- A user is created by an unused invite that was minted with its role, was not revoked since,
and had not expired. -/
def Accounted (earlier : List (Event H)) (event : Event H) : Prop :=
  ∀ invite user, event = .created invite user →
    (∃ expiresAt, Since earlier (.minted invite user.role expiresAt)
        (· ≠ .inviteRevoked (tokenHash invite)) ∧ user.createdAt < expiresAt) ∧
      ∀ other, .created invite other ∉ earlier

/-- The event takes the token of the user back, as seen by a request that reads the clock at
`now`. -/
def TakesBack (token : Text) (userId : Nat) (now : Int) (event : Event H) : Prop :=
  event = .sessionsRevoked userId ∨
    ∃ headers answeredAt via,
      event = .answered headers answeredAt ∧ answeredAt ≤ now ∧ (token, via) ∈ candidates headers

/-- The request carries the same cookies and the same authorization. -/
def SameCredentials (first later : HeaderMap) : Prop :=
  later.getAll "cookie" = first.getAll "cookie" ∧
    later.getAll "authorization" = first.getAll "authorization"

/-- What the log says that the credentials were issued for is what they do. -/
structure CredentialsHold (start : List UserRow) (w : World H) : Prop where
  invites : Justified (Accounted tokenHash) w.log
  users : w.db.users = start ++ w.log.filterMap Event.createdUser
  callers : ∀ (fails : H → Bool) headers now userId username role via,
    resolve tokenHash fails w.db false headers now = .user userId username role via →
      (∃ user ∈ w.db.users,
        user.userId = userId ∧ user.username = username ∧ user.role = role) ∧
      ∃ token expiresAt, (token, via) ∈ candidates headers ∧ now < expiresAt ∧
        Since w.log (.issued token userId expiresAt) (¬ TakesBack token userId now ·)
  ended : ∀ headers answeredAt, .answered headers answeredAt ∈ w.log →
    ∀ (fails : H → Bool) later now, SameCredentials headers later → answeredAt ≤ now →
      resolve tokenHash fails w.db false later now = .anonymous

/-! ## The invariant -/

/-- What a session row needs of an event after its token was issued. -/
def Undisturbed (token : Text) (row : SessionRow H) (event : Event H) : Prop :=
  event ≠ .sessionsRevoked row.userId ∧
    ∀ headers now via, event = .answered headers now → (token, via) ∈ candidates headers →
      row.expiresAt ≤ now

/-- An unused invite row is still what was minted. -/
def InviteBacked (log : List (Event H)) (row : InviteRow H) : Prop :=
  ∃ invite, row.tokenHash = tokenHash invite ∧
    (row.usedBy = none →
      Since log (.minted invite row.role row.expiresAt) (· ≠ .inviteRevoked (tokenHash invite)) ∧
        ∀ user, .created invite user ∉ log)

def SessionBacked (log : List (Event H)) (row : SessionRow H) : Prop :=
  ∃ token, row.tokenHash = tokenHash token ∧
    Since log (.issued token row.userId row.expiresAt) (Undisturbed token row)

structure Sound (start : List UserRow) (db : Tables H) (log : List (Event H))
    (seen : List Text) : Prop where
  named : ∀ event ∈ log, ∀ token ∈ event.tokens, token ∈ seen
  justified : Justified (Accounted tokenHash) log
  users : db.users = start ++ log.filterMap Event.createdUser
  invites : ∀ row ∈ db.invites, InviteBacked tokenHash log row
  sessions : ∀ row ∈ db.sessions, SessionBacked tokenHash log row
  ended : ∀ headers now, .answered headers now ∈ log → ∀ p ∈ candidates headers,
    ∀ row ∈ db.sessions, row.tokenHash = tokenHash p.1 → row.expiresAt ≤ now

variable {tokenHash} {start : List UserRow} {db after : Tables H} {log : List (Event H)}
  {seen : List Text} {event : Event H}

def Event.endsInvites : Event H → Bool
  | .inviteRevoked _ => true
  | .created _ _ => true
  | _ => false

def Event.endsSessions : Event H → Bool
  | .sessionsRevoked _ => true
  | .answered _ _ => true
  | _ => false

omit [DecidableEq H] in
theorem InviteBacked.append {row : InviteRow H} (hbacked : InviteBacked tokenHash log row)
    (hevent : ∀ invite, row.tokenHash = tokenHash invite → row.usedBy = none →
      event ≠ .inviteRevoked (tokenHash invite) ∧ ∀ user, event ≠ .created invite user) :
    InviteBacked tokenHash (log ++ [event]) row := by
  obtain ⟨invite, hhash, hunused⟩ := hbacked
  refine ⟨invite, hhash, fun hnone => ?_⟩
  obtain ⟨hsince, hcreated⟩ := hunused hnone
  obtain ⟨hrevoked, hother⟩ := hevent invite hhash hnone
  refine ⟨hsince.append fun e he => ?_, fun user hmem => ?_⟩
  · rw [List.mem_singleton.mp he]
    exact hrevoked
  · rcases List.mem_append.mp hmem with hmem | hmem
    · exact hcreated user hmem
    · exact hother user (List.mem_singleton.mp hmem).symm

omit [DecidableEq H] in
theorem SessionBacked.append {row : SessionRow H} (hbacked : SessionBacked tokenHash log row)
    (hevent : ∀ token, row.tokenHash = tokenHash token → Undisturbed token row event) :
    SessionBacked tokenHash (log ++ [event]) row := by
  obtain ⟨token, hhash, hsince⟩ := hbacked
  refine ⟨token, hhash, hsince.append fun e he => ?_⟩
  rw [List.mem_singleton.mp he]
  exact hevent token hhash

namespace Sound

/-! ### What an event leaves as it is -/

omit [DecidableEq H] in
theorem named_append (hsound : Sound tokenHash start db log seen) (more : List Text)
    (hevent : ∀ token ∈ event.tokens, token ∈ more ++ seen) :
    ∀ e ∈ log ++ [event], ∀ token ∈ e.tokens, token ∈ more ++ seen := by
  intro e he token htoken
  rcases List.mem_append.mp he with he | he
  · exact List.mem_append_right _ (hsound.named e he token htoken)
  · rw [List.mem_singleton.mp he] at htoken
    exact hevent token htoken

omit [DecidableEq H] in
theorem justified_append (hsound : Sound tokenHash start db log seen)
    (hevent : event.createdUser = none) : Justified (Accounted tokenHash) (log ++ [event]) := by
  refine hsound.justified.append_singleton fun invite user heq => ?_
  rw [heq] at hevent
  cases hevent

omit [DecidableEq H] in
theorem users_append (hsound : Sound tokenHash start db log seen)
    (hevent : event.createdUser = none) :
    db.users = start ++ (log ++ [event]).filterMap Event.createdUser := by
  rw [hsound.users, List.filterMap_append, List.filterMap_cons, hevent, List.filterMap_nil,
    List.append_nil]

omit [DecidableEq H] in
theorem invites_append (hsound : Sound tokenHash start db log seen)
    (hevent : event.endsInvites = false) :
    ∀ row ∈ db.invites, InviteBacked tokenHash (log ++ [event]) row := by
  intro row hrow
  refine (hsound.invites row hrow).append fun invite _ _ => ⟨?_, ?_⟩
  · intro heq
    rw [heq] at hevent
    cases hevent
  · intro user heq
    rw [heq] at hevent
    cases hevent

omit [DecidableEq H] in
theorem sessions_append (hsound : Sound tokenHash start db log seen)
    (hevent : event.endsSessions = false) :
    ∀ row ∈ db.sessions, SessionBacked tokenHash (log ++ [event]) row := by
  intro row hrow
  refine (hsound.sessions row hrow).append fun token _ => ⟨?_, ?_⟩
  · intro heq
    rw [heq] at hevent
    cases hevent
  · intro headers now via heq
    rw [heq] at hevent
    cases hevent

omit [DecidableEq H] in
theorem ended_append (hsound : Sound tokenHash start db log seen)
    (hevent : ∀ headers now, event ≠ .answered headers now) :
    ∀ headers now, .answered headers now ∈ log ++ [event] → ∀ p ∈ candidates headers,
      ∀ row ∈ db.sessions, row.tokenHash = tokenHash p.1 → row.expiresAt ≤ now := by
  intro headers now hmem
  rcases List.mem_append.mp hmem with hmem | hmem
  · exact hsound.ended headers now hmem
  · exact absurd (List.mem_singleton.mp hmem).symm (hevent headers now)

/-! ### Invites -/

section

variable (hsound : Sound tokenHash start db log seen)

include hsound

theorem mintInvite {invite : Text} {createdBy : Option Nat} {role : Role} {expiresAt : Int}
    (hfresh : invite ∉ seen)
    (hmint : db.mintInvite (tokenHash invite) createdBy role expiresAt = some after) :
    Sound tokenHash start after (log ++ [.minted invite role expiresAt]) (invite :: seen) := by
  rw [Tables.mintInvite] at hmint
  split at hmint
  · cases hmint
  · cases hmint
    refine ⟨?_, hsound.justified_append rfl, hsound.users_append rfl, ?_,
      hsound.sessions_append rfl, hsound.ended_append fun _ _ h => (by cases h)⟩
    · exact hsound.named_append [invite] fun token htoken => List.mem_append_left _ htoken
    · intro row hrow
      rcases List.mem_append.mp hrow with hrow | hrow
      · exact hsound.invites_append rfl row hrow
      · -- the new row: a fresh invite has created nobody
        cases List.mem_singleton.mp hrow
        refine ⟨invite, rfl, fun _ => ⟨History.since_append_singleton _ _ _, fun user hmem => ?_⟩⟩
        rcases List.mem_append.mp hmem with hmem | hmem
        · exact hfresh (hsound.named _ hmem invite List.mem_cons_self)
        · cases List.mem_singleton.mp hmem

theorem revokeInvite (hash : H) :
    Sound tokenHash start (db.deleteInvite hash) (log ++ [.inviteRevoked hash]) seen := by
  refine ⟨?_, hsound.justified_append rfl, hsound.users_append rfl, ?_,
    hsound.sessions_append rfl, hsound.ended_append fun _ _ h => (by cases h)⟩
  · exact hsound.named_append [] fun token htoken => absurd htoken List.not_mem_nil
  · intro row hrow
    obtain ⟨hrow, hkept⟩ := List.mem_filter.mp hrow
    refine (hsound.invites row hrow).append fun invite hhash hnone => ⟨fun heq => ?_, ?_⟩
    · -- an unused row of that hash was deleted
      cases heq
      simp [hhash, hnone] at hkept
    · intro user heq
      cases heq

/-- The one step that makes a user. -/
theorem acceptInvite (hinj : Function.Injective tokenHash) {invite username argon2 : Text}
    {now : Int} {userId : Nat} {role : Role}
    (haccept : db.acceptInvite (tokenHash invite) username argon2 now =
      (.accepted userId role, after)) :
    Sound tokenHash start after
      (log ++ [.created invite ⟨userId, username, argon2, role, now⟩]) seen := by
  rw [Tables.acceptInvite] at haccept
  split at haccept
  · cases haccept
  · rename_i row hfind
    have hrow := List.mem_of_find?_eq_some hfind
    have hmatch := List.find?_some hfind
    rw [decide_eq_true_eq] at hmatch
    obtain ⟨hhash, hunused, hlive⟩ := hmatch
    obtain ⟨minted, hminted, hbacked⟩ := hsound.invites row hrow
    obtain ⟨hsince, hcreated⟩ := hbacked hunused
    cases hinj (hhash.symm.trans hminted)
    split at haccept
    · cases haccept
    · cases haccept
      refine ⟨?_, ?_, ?_, ?_, hsound.sessions_append rfl,
        hsound.ended_append fun _ _ h => (by cases h)⟩
      · refine hsound.named_append [] fun token htoken => ?_
        rw [List.mem_singleton.mp htoken]
        exact hsound.named _ hsince.mem _ List.mem_cons_self
      · refine hsound.justified.append_singleton fun other user heq => ?_
        cases heq
        exact ⟨⟨row.expiresAt, hsince, hlive⟩, hcreated⟩
      · rw [List.filterMap_append, ← List.append_assoc, ← hsound.users]
        rfl
      · intro other hother
        obtain ⟨old, hold, rfl⟩ := List.mem_map.mp hother
        by_cases hsame : old.tokenHash = tokenHash invite
        · -- every row of that hash is used now
          rw [if_pos hsame]
          exact ⟨invite, hsame, fun hnone => by cases hnone⟩
        · rw [if_neg hsame]
          refine (hsound.invites old hold).append fun token htoken _ => ⟨fun h => (by cases h), ?_⟩
          intro user heq
          cases heq
          exact hsame htoken

end

/-! ### Sessions -/

omit [DecidableEq H] in
/-- Deleting sessions ends nothing else. -/
theorem drop (hsound : Sound tokenHash start db log seen) (keeps : SessionRow H → Bool) :
    Sound tokenHash start { db with sessions := db.sessions.filter keeps } log seen where
  named := hsound.named
  justified := hsound.justified
  users := hsound.users
  invites := hsound.invites
  sessions row hrow := hsound.sessions row (List.mem_filter.mp hrow).1
  ended headers now hmem p hp row hrow :=
    hsound.ended headers now hmem p hp row (List.mem_filter.mp hrow).1

theorem createSession (hsound : Sound tokenHash start db log seen)
    (hinj : Function.Injective tokenHash) {token : Text} {userId : Nat} {expiresAt : Int}
    (hfresh : token ∉ seen)
    (hcreate : db.createSession (tokenHash token) userId expiresAt = some after) :
    Sound tokenHash start after (log ++ [.issued token userId expiresAt]) (token :: seen) := by
  rw [Tables.createSession] at hcreate
  split at hcreate
  · cases hcreate
  · cases hcreate
    refine ⟨?_, hsound.justified_append rfl, hsound.users_append rfl,
      hsound.invites_append rfl, ?_, ?_⟩
    · exact hsound.named_append [token] fun other hother => List.mem_append_left _ hother
    · intro row hrow
      rcases List.mem_append.mp hrow with hrow | hrow
      · exact hsound.sessions_append rfl row hrow
      · cases List.mem_singleton.mp hrow
        exact ⟨token, rfl, History.since_append_singleton _ _ _⟩
    · intro headers now hmem p hp row hrow hhash
      rcases List.mem_append.mp hrow with hrow | hrow
      · exact hsound.ended_append (fun _ _ h => (by cases h)) headers now hmem p hp row hrow hhash
      · -- a fresh token is none that a logout was presented with
        cases List.mem_singleton.mp hrow
        rcases List.mem_append.mp hmem with hold | hnew
        · have hseen := hsound.named (.answered headers now) hold p.1 (List.mem_map_of_mem hp)
          rw [← hinj hhash] at hseen
          exact absurd hseen hfresh
        · cases List.mem_singleton.mp hnew

omit [DecidableEq H] in
theorem revokeSessions (hsound : Sound tokenHash start db log seen) (userId : Nat) :
    Sound tokenHash start (db.deleteSessionsForUser userId) (log ++ [.sessionsRevoked userId])
      seen := by
  refine ⟨?_, hsound.justified_append rfl, hsound.users_append rfl,
    hsound.invites_append rfl, ?_, ?_⟩
  · exact hsound.named_append [] fun token htoken => absurd htoken List.not_mem_nil
  · intro row hrow
    obtain ⟨hrow, hkept⟩ := List.mem_filter.mp hrow
    refine (hsound.sessions row hrow).append fun token _ => ⟨?_, fun _ _ _ h => (by cases h)⟩
    intro heq
    cases heq
    exact of_decide_eq_true hkept rfl
  · intro headers now hmem p hp row hrow
    exact hsound.ended_append (fun _ _ h => (by cases h)) headers now hmem p hp row
      (List.mem_filter.mp hrow).1

omit [DecidableEq H] in
/-- A logout after which no token that it was presented with is live. -/
theorem logout (hsound : Sound tokenHash start db log seen) (headers : HeaderMap) (now : Int)
    (hrows : ∀ row ∈ after.sessions, row ∈ db.sessions)
    (husers : after.users = db.users) (hinvites : after.invites = db.invites)
    (hends : ∀ p ∈ candidates headers, ∀ row ∈ after.sessions,
      row.tokenHash = tokenHash p.1 → row.expiresAt ≤ now) :
    Sound tokenHash start after (log ++ [.answered headers now])
      ((candidates headers).map Prod.fst ++ seen) := by
  refine ⟨?_, hsound.justified_append rfl, ?_, ?_, ?_, ?_⟩
  · exact hsound.named_append _ fun token htoken => List.mem_append_left _ htoken
  · rw [husers]
    exact hsound.users_append rfl
  · rw [hinvites]
    exact hsound.invites_append rfl
  · intro row hrow
    refine (hsound.sessions row (hrows row hrow)).append fun token hhash =>
      ⟨fun h => (by cases h), ?_⟩
    intro other reading via heq hmem
    cases heq
    exact hends (token, via) hmem row hrow hhash
  · intro other reading hmem p hp row hrow hhash
    rcases List.mem_append.mp hmem with hmem | hmem
    · exact hsound.ended other reading hmem p hp row (hrows row hrow) hhash
    · cases List.mem_singleton.mp hmem
      exact hends p hp row hrow hhash

end Sound

/-! ## Runs -/

namespace World

variable {w : World H} {verifyPassword : Text → Text → Bool}

variable (tokenHash) (start) in
/-- The invariant of the tables and the log of a world. -/
def Holds (w : World H) : Prop := Sound tokenHash start w.db w.log w.seen

section

variable {token : Text} (hinj : Function.Injective tokenHash) (hholds : w.Holds tokenHash start)
  (hfresh : token ∉ w.seen)

include hinj hholds hfresh

theorem holds_issue {userId : Nat} {expiresAt : Int} :
    (w.issue tokenHash token userId expiresAt).Holds tokenHash start := by
  unfold issue
  cases hcreate : w.db.createSession (tokenHash token) userId expiresAt with
  | none => exact hholds
  | some db => exact Sound.createSession hholds hinj hfresh hcreate

theorem holds_proceed (flight : Flight) :
    (w.proceed tokenHash token flight).1.Holds tokenHash start := by
  cases flight with
  | verified userId => exact hholds
  | accepting invite username argon2 now =>
    rw [proceed]
    split
    · rename_i userId role db haccept
      exact Sound.acceptInvite hholds hinj haccept
    · exact hholds
    · exact hholds
  | sweeping userId now => exact Sound.drop hholds _
  | opening userId now => exact holds_issue hinj hholds hfresh

end

theorem holds_logout (hholds : w.Holds tokenHash start) {headers : HeaderMap} {deletes : Bool}
    (hends : w.EndsAll tokenHash (.logout headers deletes)) :
    (w.next tokenHash verifyPassword (.logout headers deletes)).Holds tokenHash start := by
  have hrows : ∀ hash, ∀ row ∈ (w.db.deleteSession hash).sessions,
      row ∈ w.db.sessions ∧ row.tokenHash ≠ hash := by
    intro hash row hrow
    obtain ⟨hrow, hkept⟩ := List.mem_filter.mp hrow
    exact ⟨hrow, of_decide_eq_true hkept⟩
  cases deletes with
  | false =>
    refine Sound.logout hholds headers w.clock (fun _ hrow => hrow) rfl rfl ?_
    intro p hp
    exact (hends p hp).resolve_left fun h => Bool.false_ne_true h.1
  | true =>
    cases hhash : presented tokenHash headers with
    | none =>
      have hnext : (w.next tokenHash verifyPassword (.logout headers true)).db = w.db := by
        simp only [next, if_true, hhash, Option.elim_none]
      refine Sound.logout hholds headers w.clock (fun row hrow => ?_) ?_ ?_ ?_
      · rwa [hnext] at hrow
      · rw [hnext]
      · rw [hnext]
      · intro p hp row hrow
        rw [hnext] at hrow
        refine (hends p hp).resolve_left (fun h => ?_) row hrow
        rw [hhash] at h
        cases h.2
    | some hash =>
      have hnext : (w.next tokenHash verifyPassword (.logout headers true)).db =
          w.db.deleteSession hash := by
        simp only [next, if_true, hhash, Option.elim_some]
      refine Sound.logout hholds headers w.clock (fun row hrow => ?_) ?_ ?_ ?_
      · rw [hnext] at hrow
        exact (hrows hash row hrow).1
      · rw [hnext]
        rfl
      · rw [hnext]
        rfl
      · intro p hp row hrow htoken
        rw [hnext] at hrow
        obtain ⟨hold, hne⟩ := hrows hash row hrow
        rcases hends p hp with ⟨-, hdeleted⟩ | hexpired
        · rw [hhash, Option.some.injEq] at hdeleted
          exact absurd (htoken.trans hdeleted.symm) hne
        · exact hexpired row hold htoken

theorem holds_next (hinj : Function.Injective tokenHash) (hholds : w.Holds tokenHash start)
    {move : Move H} (hallowed : w.Allowed move) (hends : w.EndsAll tokenHash move) :
    (w.next tokenHash verifyPassword move).Holds tokenHash start := by
  cases move with
  | tick seconds => exact hholds
  | mintInvite invite createdBy role expiresAt =>
    rw [next]
    cases hmint : w.db.mintInvite (tokenHash invite) createdBy role expiresAt with
    | none => exact hholds
    | some db => exact Sound.mintInvite hholds hallowed hmint
  | revokeInvite hash => exact Sound.revokeInvite hholds hash
  | beginAccept invite username password argon2 =>
    rw [next]
    split_ifs
    · exact hholds
    · exact hholds
  | login username password =>
    rw [next]
    cases w.db.userByName username with
    | none => exact hholds
    | some user =>
      rw [Option.elim_some]
      split_ifs
      · exact hholds
      · exact hholds
  | advance ix token =>
    rw [next]
    cases w.flights[ix]? with
    | none => exact hholds
    | some flight => exact holds_proceed hinj hholds hallowed flight
  | abandon ix => exact hholds
  | logout headers deletes => exact holds_logout hholds hends
  | revokeSessions username =>
    rw [next]
    cases w.db.userByName username with
    | none => exact hholds
    | some user => exact Sound.revokeSessions hholds user.userId
  | mintToken token username expiresAt =>
    rw [next]
    cases w.db.userByName username with
    | none => exact hholds
    | some user => exact holds_issue hinj hholds hallowed

end World

/-! ## What a request is taken for -/

theorem sessionUser_eq_some {hash : H} {now : Int} {userId : Nat} {username : Text} {role : Role}
    (huser : db.sessionUser hash now = some (userId, username, role)) :
    (∃ user ∈ db.users, user.userId = userId ∧ user.username = username ∧ user.role = role) ∧
      ∃ row ∈ db.sessions, row.tokenHash = hash ∧ now < row.expiresAt ∧ row.userId = userId := by
  obtain ⟨row, hfind, huser⟩ := Option.bind_eq_some_iff.mp huser
  obtain ⟨user, hfound, heq⟩ := Option.map_eq_some_iff.mp huser
  rw [Prod.mk.injEq, Prod.mk.injEq] at heq
  have hlive := List.find?_some hfind
  rw [decide_eq_true_eq] at hlive
  have hid := List.find?_some hfound
  rw [decide_eq_true_eq] at hid
  exact ⟨⟨user, List.mem_of_find?_eq_some hfound, heq⟩,
    ⟨row, List.mem_of_find?_eq_some hfind, hlive.1, hlive.2, hid.symm.trans heq.1⟩⟩

theorem sessionUser_eq_none {hash : H} {now : Int}
    (hdead : ∀ row ∈ db.sessions, row.tokenHash = hash → row.expiresAt ≤ now) :
    db.sessionUser hash now = none := by
  have hfind :
      db.sessions.find? (fun row => row.tokenHash = hash ∧ now < row.expiresAt) = none := by
    refine List.find?_eq_none.mpr fun row hrow hlive => ?_
    rw [decide_eq_true_eq] at hlive
    exact absurd (hdead row hrow hlive.1) (Int.not_le.mpr hlive.2)
  rw [Tables.sessionUser, hfind, Option.bind_none]

theorem resolve_eq_user {fails : H → Bool} {headers : HeaderMap} {now : Int} {userId : Nat}
    {username : Text} {role : Role} {via : Via}
    (hresolve : resolve tokenHash fails db false headers now = .user userId username role via) :
    ∃ token, (token, via) ∈ candidates headers ∧
      db.sessionUser (tokenHash token) now = some (userId, username, role) := by
  rw [resolve, if_neg Bool.false_ne_true] at hresolve
  generalize hfirst : (candidates headers).findSome? _ = found at hresolve
  cases found with
  | none => cases hresolve
  | some caller =>
    cases hresolve
    obtain ⟨⟨token, presentedVia⟩, hmem, hvalue⟩ := List.exists_of_findSome?_eq_some hfirst
    simp only at hvalue
    split_ifs at hvalue
    obtain ⟨⟨_, _, _⟩, huser, heq⟩ := Option.map_eq_some_iff.mp hvalue
    cases heq
    exact ⟨token, hmem, huser⟩

theorem resolve_eq_anonymous {headers : HeaderMap} {now : Int} (fails : H → Bool)
    (hdead : ∀ p ∈ candidates headers, db.sessionUser (tokenHash p.1) now = none) :
    resolve tokenHash fails db false headers now = .anonymous := by
  rw [resolve, if_neg Bool.false_ne_true, List.findSome?_eq_none_iff.mpr]
  · rfl
  · intro p hp
    simp only [hdead p hp, Option.map_none, ite_self]

omit [DecidableEq H] in
theorem SameCredentials.candidates_eq {first later : HeaderMap}
    (hsame : SameCredentials first later) : candidates later = candidates first := by
  have hcookie : sessionCookie later = sessionCookie first := by
    rw [sessionCookie, sessionCookie, hsame.1]
  have hbearer : bearerToken later = bearerToken first := by
    rw [bearerToken, bearerToken, Http.HeaderMap.text, Http.HeaderMap.text, Http.HeaderMap.get,
      Http.HeaderMap.get, hsame.2]
  rw [candidates, candidates, hcookie, hbearer]

theorem World.Holds.credentials {w : World H} (hinj : Function.Injective tokenHash)
    (hholds : w.Holds tokenHash start) : CredentialsHold tokenHash start w where
  invites := hholds.justified
  users := hholds.users
  callers fails headers now userId username role via hresolve := by
    obtain ⟨token, hmem, huser⟩ := resolve_eq_user hresolve
    obtain ⟨hknown, row, hrow, hhash, hlive, rfl⟩ := sessionUser_eq_some huser
    obtain ⟨issued, hissued, hsince⟩ := hholds.sessions row hrow
    cases hinj (hhash.symm.trans hissued)
    refine ⟨hknown, token, row.expiresAt, hmem, hlive, hsince.mono fun event hkept htaken => ?_⟩
    rcases htaken with heq | ⟨other, answeredAt, otherVia, heq, hread, hother⟩
    · exact hkept.1 heq
    · have hexpired := hkept.2 other answeredAt otherVia heq hother
      omega
  ended headers answeredAt hmem fails later now hsame hlater := by
    refine resolve_eq_anonymous fails fun p hp => sessionUser_eq_none fun row hrow hhash => ?_
    rw [hsame.candidates_eq] at hp
    exact Int.le_trans (hholds.ended headers answeredAt hmem p hp row hrow hhash) hlater

/-- In every run in which the digests of tokens differ and each logout ends every live token it
is presented with, an invite creates one user at most, with its role and while it may; a caller
is only ever the user that one of the tokens it presents was issued for, and whom nothing has
taken it back from; and a logout that has been answered has ended what it was sent with. -/
theorem credentials_mean_what_they_were_issued_for (hinj : Function.Injective tokenHash)
    (verifyPassword : Text → Text → Bool) (users : List UserRow) (clock : Int)
    (moves : List (Move H))
    (halong : Runs.Along (World.next tokenHash verifyPassword)
      (fun w move => w.Allowed move ∧ w.EndsAll tokenHash move)
      ⟨{ users := users }, clock, [], [], []⟩ moves) :
    CredentialsHold tokenHash users (Runs.run (World.next tokenHash verifyPassword)
      ⟨{ users := users }, clock, [], [], []⟩ moves) := by
  have hinit : World.Holds tokenHash users ⟨{ users := users }, clock, [], [], []⟩ := by
    refine ⟨fun event hmem => ?_, History.justified_nil, ?_, fun row hrow => ?_,
      fun row hrow => ?_, fun headers now hmem => ?_⟩
    · exact absurd hmem List.not_mem_nil
    · exact (List.append_nil users).symm
    · exact absurd hrow List.not_mem_nil
    · exact absurd hrow List.not_mem_nil
    · exact absurd hmem List.not_mem_nil
  have hholds : World.Holds tokenHash users _ :=
    halong.invariant (fun w move hholds hmeets =>
      World.holds_next hinj hholds hmeets.1 hmeets.2) hinit
  exact hholds.credentials hinj

/-! ### Runs on fixed moves -/

instance World.decidableAllowed (w : World H) (move : Move H) : Decidable (w.Allowed move) :=
  match move with
  | .mintInvite invite _ _ _ => inferInstanceAs (Decidable (invite ∉ w.seen))
  | .advance _ token => inferInstanceAs (Decidable (token ∉ w.seen))
  | .mintToken token _ _ => inferInstanceAs (Decidable (token ∉ w.seen))
  | .tick _ => isTrue trivial
  | .revokeInvite _ => isTrue trivial
  | .beginAccept _ _ _ _ => isTrue trivial
  | .login _ _ => isTrue trivial
  | .abandon _ => isTrue trivial
  | .logout _ _ => isTrue trivial
  | .revokeSessions _ => isTrue trivial

instance World.decidableEndsAll (w : World H) (move : Move H) :
    Decidable (w.EndsAll tokenHash move) :=
  match move with
  | .logout headers deletes =>
    inferInstanceAs (Decidable (∀ p ∈ candidates headers,
      (deletes = true ∧ presented tokenHash headers = some (tokenHash p.1)) ∨
        ∀ row ∈ w.db.sessions, row.tokenHash = tokenHash p.1 → row.expiresAt ≤ w.clock))
  | .tick _ => isTrue trivial
  | .mintInvite _ _ _ _ => isTrue trivial
  | .revokeInvite _ => isTrue trivial
  | .beginAccept _ _ _ _ => isTrue trivial
  | .login _ _ => isTrue trivial
  | .advance _ _ => isTrue trivial
  | .abandon _ => isTrue trivial
  | .revokeSessions _ => isTrue trivial
  | .mintToken _ _ _ => isTrue trivial

def ascii (text : String) : Bytes := text.toList.map fun c => UInt8.ofNat c.toNat

/-- An invite is minted and accepted, a session is opened, used and logged out. -/
def invitedRun : List (Move Text) :=
  [.mintInvite "inv".toList none .friend 100, .tick 1,
    .beginAccept "inv".toList "mika".toList "password".toList "phc".toList,
    .advance 0 "a".toList, .advance 0 "s".toList,
    .logout [("cookie", ascii "datboi_session=s")] true, .tick 1,
    .login "mika".toList "password".toList, .advance 0 "b".toList, .advance 0 "c".toList,
    .advance 0 "d".toList, .revokeSessions "mika".toList]

theorem credentials_mean_what_they_were_issued_for_sample :
    CredentialsHold id [] (Runs.run (World.next id fun _ _ => true)
      ⟨{ users := [] }, 0, [], [], []⟩ invitedRun) :=
  credentials_mean_what_they_were_issued_for Function.injective_id _ [] 0 invitedRun
    (by decide +kernel)

/-- A cookie of a session that ended long ago, with a bearer token that is live. -/
def staleCookie : HeaderMap :=
  [("cookie", ascii "datboi_session=old"), ("authorization", ascii "Bearer live")]

def staleRun : List (Move Text) :=
  [.mintToken "live".toList "mika".toList 100, .logout staleCookie true]

/-- The logout deletes the session of the stale cookie, and the bearer token lives on. -/
theorem credentials_mean_what_they_were_issued_for_outlived :
    ¬ ∀ moves : List (Move Text),
      Runs.Along (World.next id fun _ _ => true) World.Allowed
        ⟨{ users := [⟨1, "mika".toList, [], .friend, 0⟩] }, 0, [], [], []⟩ moves →
      CredentialsHold id [⟨1, "mika".toList, [], .friend, 0⟩]
        (Runs.run (World.next id fun _ _ => true)
          ⟨{ users := [⟨1, "mika".toList, [], .friend, 0⟩] }, 0, [], [], []⟩ moves) := by
  intro hall
  have hholds := hall staleRun (by decide +kernel)
  have hresolve := hholds.ended staleCookie 0 (by decide +kernel) (fun _ => false) staleCookie 0
    ⟨rfl, rfl⟩ (Int.le_refl 0)
  revert hresolve
  decide +kernel

end Auth

end Datboi
