import Datboi.Catalog.Names
import Datboi.Core.Recipe

/-!
# The cross-origin gate

A request with a method that may change state passes if it carries a bearer token, if its
`Sec-Fetch-Site` says that it comes from the same origin or from the user, or if it has no
such header and its `Origin`, when it has one, names the authority of its `Host`.
-/

namespace Datboi

open Catalog (Text)

/-! ## Requests -/

namespace Http

inductive Method where
  | get
  | head
  | options
  | post
  | put
  | delete
  | patch
  | other (name : String)
  deriving DecidableEq, Repr

/-- A header map: names in lower case, with their values in order. -/
abbrev HeaderMap := List (String × Bytes)

def isVisibleAscii (b : UInt8) : Bool := (32 ≤ b && b < 127) || b = 9

/-- `HeaderValue::to_str`. -/
def toStr (value : Bytes) : Option Text :=
  if value.all isVisibleAscii then some (value.map fun b => Char.ofNat b.toNat) else none

namespace HeaderMap

def getAll (headers : HeaderMap) (name : String) : List Bytes :=
  (headers.filter fun header => header.1 = name).map Prod.snd

def get (headers : HeaderMap) (name : String) : Option Bytes := (headers.getAll name).head?

/-- The first value under a name, if it is text. -/
def text (headers : HeaderMap) (name : String) : Option Text := (headers.get name).bind toStr

end HeaderMap

/-- `str::strip_prefix`. -/
def stripStart (start text : Text) : Option Text :=
  if start.isPrefixOf text then some (text.drop start.length) else none

/-- `from_str` of an unsigned integer below a limit: decimal digits, maybe behind a plus sign. -/
def parseBelow (limit : Nat) (text : Text) : Option Nat :=
  let digits := (stripStart ['+'] text).getD text
  if digits ≠ [] ∧ digits.all Char.isDigit ∧ Nat.ofDigitChars 10 digits 0 < limit then
    some (Nat.ofDigitChars 10 digits 0)
  else none

theorem parseBelow_eq_some {limit n : Nat} {text : Text} :
    parseBelow limit text = some n ↔ ∃ digits, (text = digits ∨ text = '+' :: digits) ∧
      digits ≠ [] ∧ (∀ c ∈ digits, c.isDigit = true) ∧ Nat.ofDigitChars 10 digits 0 = n ∧
        n < limit := by
  have hread : ∀ digits : Text, (if digits ≠ [] ∧ digits.all Char.isDigit ∧
      Nat.ofDigitChars 10 digits 0 < limit then some (Nat.ofDigitChars 10 digits 0) else none) =
        some n ↔ digits ≠ [] ∧ (∀ c ∈ digits, c.isDigit = true) ∧
          Nat.ofDigitChars 10 digits 0 = n ∧ n < limit := by
    intro digits
    constructor
    · intro hsome
      split at hsome
      · rename_i hall
        cases hsome
        exact ⟨hall.1, List.all_eq_true.mp hall.2.1, rfl, hall.2.2⟩
      · cases hsome
    · rintro ⟨hne, hdigits, rfl, hlt⟩
      exact if_pos ⟨hne, List.all_eq_true.mpr hdigits, hlt⟩
  unfold parseBelow
  dsimp only
  rw [hread]
  by_cases hplus : ∃ rest, text = '+' :: rest
  · obtain ⟨rest, rfl⟩ := hplus
    have hstrip : (stripStart ['+'] ('+' :: rest)).getD ('+' :: rest) = rest := by
      simp [stripStart]
    rw [hstrip]
    constructor
    · exact fun hrest => ⟨rest, Or.inr rfl, hrest⟩
    · rintro ⟨digits, rfl | hsame, hne, hdigits, hvalue⟩
      · exact absurd (hdigits '+' List.mem_cons_self) (by decide)
      · cases hsame
        exact ⟨hne, hdigits, hvalue⟩
  · have hstrip : (stripStart ['+'] text).getD text = text := by
      cases text with
      | nil => rfl
      | cons c rest =>
        have hc : '+' ≠ c := by
          rintro rfl
          exact hplus ⟨rest, rfl⟩
        simp [stripStart, hc]
    rw [hstrip]
    constructor
    · exact fun htext => ⟨text, Or.inl rfl, htext⟩
    · rintro ⟨digits, rfl | hsame, hdigits⟩
      · exact hdigits
      · exact absurd ⟨digits, hsame⟩ hplus

end Http

namespace Hardening

open Http (HeaderMap Method)

/-! ## Authorities -/

/-- `origin.split_once("://")`. -/
def splitScheme : Text → Option (Text × Text)
  | ':' :: '/' :: '/' :: rest => some ([], rest)
  | c :: rest => (splitScheme rest).map fun parts => (c :: parts.1, parts.2)
  | [] => none

/-- What follows the closing bracket: nothing, or a port behind a colon. -/
def splitTail (host : Text) : Text → Option (Text × Option Text)
  | [] => some (host, none)
  | ':' :: port => some (host, some port)
  | _ => none

/-- Split an authority into host and port. A second colon outside of brackets makes all of it
the host. -/
def splitHostport (hostport : Text) : Option (Text × Option Text) :=
  if hostport.head? = some '[' then
    match hostport.dropWhile (· ≠ ']') with
    | [] => none
    | close :: tail => splitTail (hostport.takeWhile (· ≠ ']') ++ [close]) tail
  else
    match hostport.rsplitOnce ':' with
    | some (host, port) => if ':' ∈ host then some (hostport, none) else some (host, some port)
    | none => some (hostport, none)

/-- `u16::from_str`: decimal digits, maybe behind a plus sign. -/
def parseU16 (text : Text) : Option Nat :=
  let digits := (Http.stripStart ['+'] text).getD text
  if digits ≠ [] ∧ digits.all Char.isDigit ∧ Nat.ofDigitChars 10 digits 0 < 2 ^ 16 then
    some (Nat.ofDigitChars 10 digits 0)
  else none

def toAsciiLowercase (text : Text) : Text := text.map Char.toLower

/-- Canonicalize `host[:port]`: the host in lower case, and the port unless it is a default. -/
def normalizeHostport (hostport : Text) : Option Text :=
  match splitHostport hostport with
  | none => none
  | some (host, port) =>
    if host = [] then none
    else
      match port with
      | none => some (toAsciiLowercase host)
      | some port =>
        match parseU16 port with
        | none => none
        | some n =>
          if n = 80 ∨ n = 443 then some (toAsciiLowercase host)
          else some (toAsciiLowercase host ++ ':' :: Nat.toDigits 10 n)

/-- Does the origin name the same authority as the `Host` header? -/
def originMatchesHost (origin host : Text) : Bool :=
  match splitScheme origin with
  | none => false
  | some (scheme, hostport) =>
    if ¬ scheme.eqIgnoreAsciiCase "http".toList ∧ ¬ scheme.eqIgnoreAsciiCase "https".toList then
      false
    else if hostport.any fun c => c ∈ ['/', '?', '#', '@'] then false
    else
      match normalizeHostport hostport, normalizeHostport host with
      | some a, some b => a = b
      | _, _ => false

/-! ## The check -/

def csrfRejected : String := "cross-origin request rejected"

/-- The request carries an authorization of the bearer scheme. -/
def hasBearer (headers : HeaderMap) : Bool :=
  (headers.text "authorization").any fun value => "Bearer ".toList.isPrefixOf value

def csrfCheck (method : Method) (headers : HeaderMap) : Except String Unit :=
  if method = .get ∨ method = .head ∨ method = .options then .ok ()
  else if hasBearer headers then .ok ()
  else
    match headers.text "sec-fetch-site" with
    | some site =>
      if site = "same-origin".toList ∨ site = "none".toList then .ok () else .error csrfRejected
    | none =>
      match headers.text "origin" with
      | none => .ok ()
      | some origin =>
        if originMatchesHost origin ((headers.text "host").getD []) then .ok ()
        else .error csrfRejected

end Hardening

end Datboi
