import Datboi.Lib.Authority
import Datboi.Server.Auth

/-!
# What the cross-origin gate lets through

The gate compares the authority of the page's origin with the `Host` of the request. Both come
from the same browser, so a page under a name that has been rebound to the daemon's address
passes. The comparison reads authorities loosely: a port may have a plus sign, and what is
between brackets, or holds two colons, is a host as it stands.
-/

namespace Datboi

open Catalog (Text)

namespace Hardening

open Authority (IsAuthority IsHost IsPort)
open Http (stripStart)

/-! ## Authorities as the gate reads them -/

/-- A port with a plus sign in front of it, maybe. -/
def LoosePort (text : Text) (port : Nat) : Prop :=
  ∃ digits, (text = digits ∨ text = '+' :: digits) ∧ IsPort digits port

/-- The text is read as this host and port. -/
inductive Spells : Text → Text → Option Nat → Prop
  | literal {inside : Text} (hinside : ']' ∉ inside) :
      Spells ('[' :: inside ++ [']']) ('[' :: inside ++ [']']) none
  | literalPort {inside text : Text} {port : Nat} (hinside : ']' ∉ inside)
      (hport : LoosePort text port) :
      Spells ('[' :: inside ++ ']' :: ':' :: text) ('[' :: inside ++ [']']) (some port)
  | name {host : Text} (hne : host ≠ []) (hopen : host.head? ≠ some '[') (hcolon : ':' ∉ host) :
      Spells host host none
  | namePort {host text : Text} {port : Nat} (hne : host ≠ []) (hopen : host.head? ≠ some '[')
      (hcolon : ':' ∉ host) (hport : LoosePort text port) :
      Spells (host ++ ':' :: text) host (some port)
  | colons {before after : Text} (hopen : before.head? ≠ some '[') (hcolon : ':' ∈ before) :
      Spells (before ++ ':' :: after) (before ++ ':' :: after) none

/-- The port, unless it is the default of one of the two schemes. -/
def portClass (port : Option Nat) : Option Nat := port.filter fun n => n ≠ 80 ∧ n ≠ 443

/-- The spelling that the gate compares. -/
def spelled (host : Text) (port : Option Nat) : Text :=
  toAsciiLowercase host ++ (portClass port).elim [] fun n => ':' :: Nat.toDigits 10 n

theorem parseU16_eq_some {text : Text} {port : Nat} :
    parseU16 text = some port ↔ LoosePort text port := by
  change Http.parseBelow (2 ^ 16) text = some port ↔ _
  rw [Http.parseBelow_eq_some]
  constructor
  · rintro ⟨digits, htext, hne, hdigits, hvalue, hlt⟩
    exact ⟨digits, htext, hne, hdigits, hvalue, hlt⟩
  · rintro ⟨digits, htext, hport⟩
    exact ⟨digits, htext, hport.ne_nil, hport.digits, hport.value, hport.lt⟩

theorem splitHostport_literal {inside tail : Text} (hinside : ']' ∉ inside) :
    splitHostport ('[' :: inside ++ ']' :: tail) = splitTail ('[' :: inside ++ [']']) tail := by
  have hopen : ∀ c ∈ '[' :: inside, decide (c ≠ ']') = true := by
    intro c hc
    rw [decide_eq_true_eq]
    rintro rfl
    exact (List.mem_cons.mp hc).elim (by decide) hinside
  have hhead : ('[' :: inside ++ ']' :: tail).head? = some '[' := rfl
  rw [splitHostport, if_pos hhead, List.takeWhile_append_of_pos hopen,
    List.dropWhile_append_of_pos hopen, List.takeWhile_cons, List.dropWhile_cons]
  simp

theorem splitHostport_plain {text : Text} (hopen : text.head? ≠ some '[') :
    splitHostport text =
      (text.rsplitOnce ':').elim (some (text, none)) fun parts =>
        if ':' ∈ parts.1 then some (text, none) else some (parts.1, some parts.2) := by
  rw [splitHostport, if_neg hopen]
  cases text.rsplitOnce ':' <;> rfl

variable {host scheme : Text} {n : Nat}

theorem normalizeHostport_bare {text : Text} (hsplit : splitHostport text = some (host, none))
    (hne : host ≠ []) : normalizeHostport text = some (spelled host none) := by
  rw [normalizeHostport, hsplit]
  exact (if_neg hne).trans (by rw [spelled, portClass, Option.filter_none, Option.elim_none,
    List.append_nil])

theorem normalizeHostport_port {text portText : Text} {port : Nat}
    (hsplit : splitHostport text = some (host, some portText)) (hne : host ≠ [])
    (hport : LoosePort portText port) :
    normalizeHostport text = some (spelled host (some port)) := by
  rw [normalizeHostport, hsplit]
  dsimp only
  rw [if_neg hne, parseU16_eq_some.mpr hport]
  dsimp only
  rw [spelled, portClass, Option.filter_some]
  by_cases hdefault : port = 80 ∨ port = 443
  · rw [if_pos hdefault, if_neg (by simp; omega), Option.elim_none, List.append_nil]
  · rw [if_neg hdefault, if_pos (by simp; omega), Option.elim_some]

theorem LoosePort.colon_not_mem {text : Text} {port : Nat} (hport : LoosePort text port) :
    ':' ∉ text := by
  obtain ⟨digits, htext, hdigits⟩ := hport
  have hnot : ':' ∉ digits := fun hmem => absurd (hdigits.digits ':' hmem) (by decide)
  rcases htext with rfl | rfl
  · exact hnot
  · exact fun hmem => (List.mem_cons.mp hmem).elim (by decide) hnot

/-- What the gate makes of a text that it can read. -/
theorem normalizeHostport_of_spells {text : Text} {port : Option Nat}
    (hspells : Spells text host port) : normalizeHostport text = some (spelled host port) := by
  cases hspells with
  | literal hinside =>
    refine normalizeHostport_bare ?_ (by simp)
    exact splitHostport_literal hinside
  | literalPort hinside hport =>
    exact normalizeHostport_port (splitHostport_literal hinside) (by simp) hport
  | name hne hopen hcolon =>
    refine normalizeHostport_bare ?_ hne
    rw [splitHostport_plain hopen, Text.rsplitOnce_eq_none.mpr hcolon]
    rfl
  | @namePort host portText port hne hopen hcolon hport =>
    have hhead : (host ++ ':' :: portText).head? ≠ some '[' := by
      rwa [List.head?_append_of_ne_nil host hne]
    refine normalizeHostport_port ?_ hne hport
    rw [splitHostport_plain hhead,
      Text.rsplitOnce_eq_some.mpr ⟨rfl, hport.colon_not_mem⟩]
    exact if_neg hcolon
  | @colons before after hopen hcolon =>
    have hhead : (before ++ ':' :: after).head? ≠ some '[' := by
      rwa [List.head?_append_of_ne_nil before (List.ne_nil_of_mem hcolon)]
    refine normalizeHostport_bare ?_ (by simp)
    rw [splitHostport_plain hhead]
    by_cases hlast : ':' ∈ after
    · obtain ⟨middle, tail, rfl, htail⟩ := Text.exists_last hlast
      have hsplit : before ++ ':' :: (middle ++ ':' :: tail) =
          (before ++ ':' :: middle) ++ ':' :: tail := by simp
      rw [hsplit, Text.rsplitOnce_eq_some.mpr ⟨rfl, htail⟩]
      exact if_pos (List.mem_append_left _ hcolon)
    · rw [Text.rsplitOnce_eq_some.mpr ⟨rfl, hlast⟩]
      exact if_pos hcolon

theorem spells_of_literal {text out : Text} (hopen : text.head? = some '[')
    (hout : normalizeHostport text = some out) : ∃ host port, Spells text host port := by
  obtain ⟨rest, rfl⟩ : ∃ rest, text = '[' :: rest := by
    cases text with
    | nil => cases hopen
    | cons c rest =>
      cases hopen
      exact ⟨rest, rfl⟩
  by_cases hclose : ']' ∈ rest
  · obtain ⟨inside, tail, rfl, hinside⟩ := List.eq_append_cons_of_mem hclose
    have hsplit := @splitHostport_literal inside tail hinside
    rw [← List.cons_append] at hout ⊢
    rw [normalizeHostport, hsplit] at hout
    cases tail with
    | nil => exact ⟨_, _, .literal hinside⟩
    | cons c portText =>
      by_cases hcolon : c = ':'
      · subst hcolon
        cases hport : parseU16 portText with
        | none => simp [splitTail, hport] at hout
        | some port => exact ⟨_, _, .literalPort hinside (parseU16_eq_some.mp hport)⟩
      · simp [splitTail, hcolon] at hout
  · have hnone : ('[' :: rest).dropWhile (· ≠ ']') = [] := by
      rw [List.dropWhile_eq_nil_iff]
      intro c hc
      rw [decide_eq_true_eq]
      rintro rfl
      exact (List.mem_cons.mp hc).elim (by decide) hclose
    rw [normalizeHostport, splitHostport, if_pos hopen, hnone] at hout
    cases hout

theorem spells_of_normalizeHostport {text out : Text}
    (hout : normalizeHostport text = some out) : ∃ host port, Spells text host port := by
  by_cases hopen : text.head? = some '['
  · exact spells_of_literal hopen hout
  · rw [normalizeHostport, splitHostport_plain hopen] at hout
    cases hlast : text.rsplitOnce ':' with
    | none =>
      rw [hlast] at hout
      refine ⟨_, _, .name (fun hnil => ?_) hopen (Text.rsplitOnce_eq_none.mp hlast)⟩
      simp [hnil] at hout
    | some parts =>
      obtain ⟨before, portText⟩ := parts
      obtain ⟨rfl, hport⟩ := Text.rsplitOnce_eq_some.mp hlast
      have hbefore : before.head? ≠ some '[' := by
        intro hhead
        cases before with
        | nil => cases hhead
        | cons c rest => exact hopen hhead
      by_cases hcolon : ':' ∈ before
      · exact ⟨_, _, .colons hbefore hcolon⟩
      · rw [hlast] at hout
        simp only [Option.elim_some, if_neg hcolon] at hout
        by_cases hnil : before = []
        · simp [hnil] at hout
        · cases hparse : parseU16 portText with
          | none => simp [hparse] at hout
          | some port => exact ⟨_, _, .namePort hnil hbefore hcolon (parseU16_eq_some.mp hparse)⟩

/-! ## Spellings tell hosts and ports apart -/

theorem Spells.shape {text : Text} {port : Option Nat} (hspells : Spells text host port) :
    (∃ inside, host = '[' :: inside ++ [']']) ∨
      host.head? ≠ some '[' ∧ (':' ∉ host ∨ port = none ∧ 2 ≤ host.count ':') := by
  cases hspells with
  | literal hinside => exact Or.inl ⟨_, rfl⟩
  | literalPort hinside hport => exact Or.inl ⟨_, rfl⟩
  | name hne hopen hcolon => exact Or.inr ⟨hopen, Or.inl hcolon⟩
  | namePort hne hopen hcolon hport => exact Or.inr ⟨hopen, Or.inl hcolon⟩
  | @colons before after hopen hcolon =>
    refine Or.inr ⟨?_, Or.inr ⟨rfl, ?_⟩⟩
    · rwa [List.head?_append_of_ne_nil before (List.ne_nil_of_mem hcolon)]
    · have hpos := List.count_pos_iff.mpr hcolon
      rw [List.count_append, List.count_cons_self]
      omega

theorem colon_not_mem_toDigits (n : Nat) : ':' ∉ Nat.toDigits 10 n := fun hmem =>
  absurd (Nat.isDigit_of_mem_toDigits (by decide) (by decide) hmem) (by decide)

theorem rsplitOnce_port (host : Text) (n : Nat) :
    (host ++ ':' :: Nat.toDigits 10 n).rsplitOnce ':' = some (host, Nat.toDigits 10 n) :=
  Text.rsplitOnce_eq_some.mpr ⟨rfl, colon_not_mem_toDigits n⟩

theorem toDigits_injective {m : Nat} (heq : Nat.toDigits 10 m = Nat.toDigits 10 n) : m = n := by
  rw [← @Nat.ofDigitChars_ten_toDigits m, heq, Nat.ofDigitChars_ten_toDigits]

/-- A spelling that ends in a port is no other host. -/
theorem spelled_port_ne {text text' host' : Text} {port : Option Nat}
    (hspells : Spells text host port) (hspells' : Spells text' host' (some n)) :
    toAsciiLowercase host ≠ toAsciiLowercase host' ++ ':' :: Nat.toDigits 10 n := by
  intro heq
  have hcolon : 0 < (toAsciiLowercase host).count ':' := by
    rw [heq, List.count_append, List.count_cons_self]
    omega
  rw [toAsciiLowercase, Authority.count_map_toLower (by decide) (by decide)] at hcolon
  rcases hspells.shape with ⟨inside, rfl⟩ | ⟨hopen, hshape⟩
  · -- A literal ends in its bracket, not in a digit.
    have hlast := congrArg List.getLast? heq
    rw [toAsciiLowercase, List.map_append, List.map_singleton, List.getLast?_concat,
      List.getLast?_append_of_ne_nil _ (by simp), List.getLast?_cons,
      Option.some.injEq] at hlast
    have hne := @Nat.toDigits_ne_nil n 10
    rw [List.getLast?_eq_getLast_of_ne_nil hne, Option.getD_some] at hlast
    have hdigit := Nat.isDigit_of_mem_toDigits (by decide) (by decide)
      (List.getLast_mem hne)
    rw [← hlast] at hdigit
    exact absurd hdigit (by decide)
  · rcases hshape with hnone | ⟨-, htwo⟩
    · exact hnone (List.count_pos_iff.mp hcolon)
    · rcases hspells'.shape with ⟨inside, rfl⟩ | ⟨-, hnone | ⟨hport, -⟩⟩
      · have hhead := congrArg List.head? heq
        cases host with
        | nil => cases hhead
        | cons c rest =>
          have hc : c.toLower = '[' := Option.some.inj hhead
          rw [Authority.toLower_eq_iff (by decide) (by decide)] at hc
          exact hopen (congrArg some hc)
      · have hcount := congrArg (List.count ':') heq
        rw [List.count_append, List.count_cons_self, toAsciiLowercase, toAsciiLowercase,
          Authority.count_map_toLower (by decide) (by decide),
          Authority.count_map_toLower (by decide) (by decide), List.count_eq_zero.mpr hnone,
          List.count_eq_zero.mpr (colon_not_mem_toDigits n)] at hcount
        omega
      · cases hport

theorem portClass_eq_some {port : Option Nat} (hclass : portClass port = some n) :
    port = some n := (Option.filter_eq_some_iff.mp hclass).1

/-- Two spellings are one exactly when hosts and port classes are. -/
theorem spelled_eq_iff {text text' host' : Text} {port port' : Option Nat}
    (hspells : Spells text host port) (hspells' : Spells text' host' port') :
    spelled host port = spelled host' port' ↔
      toAsciiLowercase host = toAsciiLowercase host' ∧ portClass port = portClass port' := by
  constructor
  · intro heq
    rw [spelled, spelled] at heq
    cases hclass : portClass port with
    | none =>
      cases hclass' : portClass port' with
      | none => simpa [hclass, hclass'] using heq
      | some n =>
        rw [hclass, hclass', Option.elim_none, Option.elim_some, List.append_nil] at heq
        obtain rfl := portClass_eq_some hclass'
        exact absurd heq (spelled_port_ne hspells hspells')
    | some n =>
      obtain rfl := portClass_eq_some hclass
      cases hclass' : portClass port' with
      | none =>
        rw [hclass, hclass', Option.elim_none, Option.elim_some, List.append_nil] at heq
        exact absurd heq.symm (spelled_port_ne hspells' hspells)
      | some n' =>
        rw [hclass, hclass', Option.elim_some, Option.elim_some] at heq
        have hsplit := rsplitOnce_port (toAsciiLowercase host) n
        rw [heq, rsplitOnce_port, Option.some.injEq, Prod.mk.injEq] at hsplit
        exact ⟨hsplit.1.symm, by rw [toDigits_injective hsplit.2]⟩
  · rintro ⟨hhost, hport⟩
    rw [spelled, spelled, hhost, hport]

/-! ## Origins and hosts -/

/-- The text is one of the two schemes, in any case. -/
def IsHttp (scheme : Text) : Prop :=
  scheme.eqIgnoreAsciiCase "http".toList = true ∨ scheme.eqIgnoreAsciiCase "https".toList = true

/-- No path, query, fragment or user stands in an authority. -/
def Undelimited (authority : Text) : Prop := ∀ c ∈ authority, c ∉ ['/', '?', '#', '@']

theorem IsHttp.colon_not_mem (hhttp : IsHttp scheme) : ':' ∉ scheme := by
  rw [← Authority.mem_map_toLower (by decide) (by decide)]
  rcases hhttp with hscheme | hscheme
  · rw [of_decide_eq_true hscheme]
    decide
  · rw [of_decide_eq_true hscheme]
    decide

theorem splitScheme_append (hcolon : ':' ∉ scheme) (authority : Text) :
    splitScheme (scheme ++ ':' :: '/' :: '/' :: authority) = some (scheme, authority) := by
  induction scheme with
  | nil => rfl
  | cons c rest ih =>
    have hc : c ≠ ':' := fun heq => hcolon (heq ▸ List.mem_cons_self)
    rw [List.cons_append, splitScheme]
    · rw [ih fun hmem => hcolon (List.mem_cons_of_mem c hmem)]
      rfl
    · exact fun _ heq _ => hc heq

theorem splitScheme_eq_some {text authority : Text}
    (hsplit : splitScheme text = some (scheme, authority)) :
    text = scheme ++ ':' :: '/' :: '/' :: authority := by
  induction text using splitScheme.induct generalizing scheme with
  | case1 rest =>
    cases hsplit
    rfl
  | case2 c rest hscheme ih =>
    rw [splitScheme] at hsplit
    · obtain ⟨parts, hparts, heq⟩ := Option.map_eq_some_iff.mp hsplit
      cases heq
      rw [ih hparts]
      rfl
    · exact hscheme
  | case3 => cases hsplit

/-- What the comparison comes to when both sides can be read. -/
theorem originMatchesHost_iff_of_spells {authority hostA hostB : Text} {portA portB : Option Nat}
    (hhttp : IsHttp scheme) (hfree : Undelimited authority)
    (hspells : Spells authority hostA portA) (hspells' : Spells host hostB portB) :
    originMatchesHost (scheme ++ ':' :: '/' :: '/' :: authority) host = true ↔
      toAsciiLowercase hostA = toAsciiLowercase hostB ∧ portClass portA = portClass portB := by
  have hany : ¬ (authority.any fun c => c ∈ ['/', '?', '#', '@']) = true := by
    rw [List.any_eq_true]
    rintro ⟨c, hc, hdelimiter⟩
    exact hfree c hc (of_decide_eq_true hdelimiter)
  rw [originMatchesHost, splitScheme_append hhttp.colon_not_mem]
  dsimp only
  rw [if_neg (fun hnot => hhttp.elim hnot.1 hnot.2), if_neg hany,
    normalizeHostport_of_spells hspells, normalizeHostport_of_spells hspells']
  exact decide_eq_true_iff.trans (spelled_eq_iff hspells hspells')

/-- Both strings can be read, as the same host up to case and the same port up to the default
ports. -/
def SpelledAlike (origin host : Text) : Prop :=
  ∃ scheme authority hostA portA hostB portB,
    origin = scheme ++ ':' :: '/' :: '/' :: authority ∧ IsHttp scheme ∧ Undelimited authority ∧
      Spells authority hostA portA ∧ Spells host hostB portB ∧
      toAsciiLowercase hostA = toAsciiLowercase hostB ∧ portClass portA = portClass portB

theorem originMatchesHost_iff {origin : Text} :
    originMatchesHost origin host = true ↔ SpelledAlike origin host := by
  constructor
  · intro hmatches
    have hkept := hmatches
    rw [originMatchesHost] at hmatches
    cases hsplit : splitScheme origin with
    | none => simp [hsplit] at hmatches
    | some parts =>
      obtain ⟨scheme, authority⟩ := parts
      obtain rfl := splitScheme_eq_some hsplit
      rw [hsplit] at hmatches
      dsimp only at hmatches
      split at hmatches
      · cases hmatches
      · rename_i hscheme
        split at hmatches
        · cases hmatches
        · rename_i hany
          split at hmatches
          · rename_i a b hleft hright
            obtain ⟨hostA, portA, hspells⟩ := spells_of_normalizeHostport hleft
            obtain ⟨hostB, portB, hspells'⟩ := spells_of_normalizeHostport hright
            have hhttp : IsHttp scheme := by
              by_contra hnot
              exact hscheme ⟨fun h => hnot (Or.inl h), fun h => hnot (Or.inr h)⟩
            have hfree : Undelimited authority := fun c hc hdelimiter =>
              hany (List.any_eq_true.mpr ⟨c, hc, decide_eq_true hdelimiter⟩)
            exact ⟨scheme, authority, hostA, portA, hostB, portB, rfl, hhttp, hfree, hspells,
              hspells', (originMatchesHost_iff_of_spells hhttp hfree hspells hspells').mp hkept⟩
          · cases hmatches
  · rintro ⟨scheme, authority, hostA, portA, hostB, portB, rfl, hhttp, hfree, hspells, hspells',
      hsame⟩
    exact (originMatchesHost_iff_of_spells hhttp hfree hspells hspells').mpr hsame

/-! ## Well-formed authorities -/

theorem undelimited_of_plain {c : Char} (hc : Authority.Plain c) : c ∉ ['/', '?', '#', '@'] := by
  have hsub : ∀ d ∈ ['/', '?', '#', '@'], d ∈ Authority.delimiters :=
    Authority.forall_mem_of_all (by decide +kernel)
  exact fun hmem => hc.1 (hsub c hmem)

theorem ne_of_plain {c d : Char} (hc : Authority.Plain c) (hd : d ∈ Authority.delimiters) :
    c ≠ d := fun heq => hc.1 (heq ▸ hd)

theorem undelimited_of_isHost (hhost : IsHost host) : Undelimited host := by
  rcases hhost.shape with ⟨-, hplain⟩ | ⟨inside, rfl, hinside⟩
  · exact fun c hc => undelimited_of_plain (hplain c hc)
  · intro c hc
    simp only [List.cons_append, List.mem_cons, List.mem_append, List.not_mem_nil,
      or_false] at hc
    rcases hc with rfl | hc | rfl
    · decide
    · rcases hinside c hc with hplain | rfl
      · exact undelimited_of_plain hplain
      · decide
    · decide

theorem loosePort_of_isPort {text : Text} {port : Nat} (hport : IsPort text port) :
    LoosePort text port := ⟨text, Or.inl rfl, hport⟩

/-- An authority is read as what it says. -/
theorem spells_of_isAuthority {text : Text} {port : Option Nat}
    (hauthority : IsAuthority text host port) : Spells text host port ∧ Undelimited text := by
  cases hauthority with
  | bare hhost =>
    refine ⟨?_, undelimited_of_isHost hhost⟩
    rcases hhost.shape with ⟨hne, hplain⟩ | ⟨inside, rfl, hinside⟩
    · refine .name hne (fun hhead => ?_) fun hcolon =>
        ne_of_plain (hplain ':' hcolon) (by decide) rfl
      exact ne_of_plain (hplain '[' (List.mem_of_head? hhead)) (by decide) rfl
    · refine .literal fun hclose => ?_
      rcases hinside ']' hclose with hplain | heq
      · exact ne_of_plain hplain (by decide) rfl
      · exact absurd heq (by decide)
  | @withPort _ text port hhost hport =>
    refine ⟨?_, ?_⟩
    · rcases hhost.shape with ⟨hne, hplain⟩ | ⟨inside, rfl, hinside⟩
      · refine .namePort hne (fun hhead => ?_) (fun hcolon =>
          ne_of_plain (hplain ':' hcolon) (by decide) rfl) (loosePort_of_isPort hport)
        exact ne_of_plain (hplain '[' (List.mem_of_head? hhead)) (by decide) rfl
      · have hclose : ']' ∉ inside := by
          intro hclose
          rcases hinside ']' hclose with hplain | heq
          · exact ne_of_plain hplain (by decide) rfl
          · exact absurd heq (by decide)
        have hspells := Spells.literalPort hclose (loosePort_of_isPort hport)
        simpa using hspells
    · intro c hc
      rcases List.mem_append.mp hc with hc | hc
      · exact undelimited_of_isHost hhost c hc
      · rcases List.mem_cons.mp hc with rfl | hc
        · decide
        · exact undelimited_of_plain (Authority.plain_of_isDigit (hport.digits c hc))

/-- Origin and host are well formed. -/
def WellFormed (origin host : Text) : Prop :=
  ∃ scheme authority hostA portA hostB portB,
    origin = scheme ++ ':' :: '/' :: '/' :: authority ∧ IsHttp scheme ∧
      IsAuthority authority hostA portA ∧ IsAuthority host hostB portB

/-- Both are well-formed authorities of the same host, up to case, and the same port, up to the
default ports. -/
def NamesSame (origin host : Text) : Prop :=
  ∃ scheme authority hostA portA hostB portB,
    origin = scheme ++ ':' :: '/' :: '/' :: authority ∧ IsHttp scheme ∧
      IsAuthority authority hostA portA ∧ IsAuthority host hostB portB ∧
      toAsciiLowercase hostA = toAsciiLowercase hostB ∧ portClass portA = portClass portB

/-- A match means the same authority unless two malformed strings are spelled alike. -/
theorem namesSame_of_match_iff {origin : Text} :
    (originMatchesHost origin host = true → NamesSame origin host) ↔
      (SpelledAlike origin host → WellFormed origin host) := by
  constructor
  · intro hsound halike
    obtain ⟨scheme, authority, hostA, portA, hostB, portB, heq, hhttp, hA, hB, -⟩ :=
      hsound (originMatchesHost_iff.mpr halike)
    exact ⟨scheme, authority, hostA, portA, hostB, portB, heq, hhttp, hA, hB⟩
  · intro hformed hmatches
    obtain ⟨scheme, authority, hostA, portA, hostB, portB, rfl, hhttp, hA, hB⟩ :=
      hformed (originMatchesHost_iff.mp hmatches)
    obtain ⟨hspells, hfree⟩ := spells_of_isAuthority hA
    have hsame := (originMatchesHost_iff_of_spells hhttp hfree hspells
      (spells_of_isAuthority hB).1).mp hmatches
    exact ⟨scheme, authority, hostA, portA, hostB, portB, rfl, hhttp, hA, hB, hsame⟩

/-! ## Browsers -/

inductive Scheme where
  | http
  | https
  deriving DecidableEq, Repr

def Scheme.text : Scheme → Text
  | .http => "http".toList
  | .https => "https".toList

def Scheme.defaultPort : Scheme → Nat
  | .http => 80
  | .https => 443

/-- An origin as a browser keeps it: the host in lower case, the port always known. -/
structure WebOrigin where
  scheme : Scheme
  host : Text
  port : Nat
  isHost : IsHost host
  lower : toAsciiLowercase host = host
  port_lt : port < 2 ^ 16
  deriving DecidableEq

namespace WebOrigin

variable (origin : WebOrigin)

/-- The authority, with its port unless that is the scheme's default: a `Host` header. -/
def authority : Text :=
  if origin.port = origin.scheme.defaultPort then origin.host
  else origin.host ++ ':' :: Nat.toDigits 10 origin.port

/-- An `Origin` header. -/
def serialize : Text := origin.scheme.text ++ ':' :: '/' :: '/' :: origin.authority

end WebOrigin

/-- A request that a page makes a browser send. The origin of the page is `none` if it is opaque;
`fetchMetadata` is off for an old browser, `sameSite` is what the browser finds out about the
two sites, and `served` says whether the page came from the daemon. -/
structure BrowserRequest where
  method : Http.Method
  page : Option WebOrigin
  url : WebOrigin
  fetchMetadata : Bool
  sameSite : Bool
  served : Bool
  rest : Http.HeaderMap
  rest_names : ∀ header ∈ rest, header.1 ∉ ["host", "origin", "sec-fetch-site"]

namespace BrowserRequest

variable (r : BrowserRequest)

/-- A text as a header value. -/
def headerValue (text : Text) : Bytes := text.map fun c => c.toNat.toUInt8

def secFetchSite : Text :=
  if r.page = some r.url then "same-origin".toList
  else if r.sameSite then "same-site".toList
  else "cross-site".toList

/-- The browser sets the three headers itself. -/
def headers : Http.HeaderMap :=
  ("host", headerValue r.url.authority) ::
    ("origin", headerValue (r.page.elim "null".toList WebOrigin.serialize)) ::
    ((if r.fetchMetadata then [("sec-fetch-site", headerValue r.secFetchSite)] else []) ++ r.rest)

/-- The request may change state, and has no token in its authorization. -/
def Ambient : Prop :=
  r.method ≠ .get ∧ r.method ≠ .head ∧ r.method ≠ .options ∧ hasBearer r.rest = false

/-- The page lives where the request goes: at the same origin or, to an old browser, at the same
host and port up to the default ports. -/
def SharesAuthority : Prop :=
  ∃ page, r.page = some page ∧
    if r.fetchMetadata then page = r.url
    else page.host = r.url.host ∧ portClass (some page.port) = portClass (some r.url.port)

end BrowserRequest

/-! ## What a browser's request says -/

/-- A character that a header value holds as it is. -/
def Visible (c : Char) : Prop := 32 < c.toNat ∧ c.toNat < 127

instance : DecidablePred Visible := fun _ => inferInstanceAs (Decidable (_ ∧ _))

theorem toStr_headerValue {text : Text} (hvisible : ∀ c ∈ text, Visible c) :
    Http.toStr (BrowserRequest.headerValue text) = some text := by
  have hbyte : ∀ c ∈ text, (c.toNat.toUInt8).toNat = c.toNat := by
    intro c hc
    obtain ⟨-, hhigh⟩ := hvisible c hc
    change c.toNat % 256 = c.toNat
    omega
  rw [Http.toStr, BrowserRequest.headerValue, if_pos]
  · rw [List.map_map, Option.some.injEq]
    conv_rhs => rw [← List.map_id text]
    refine List.map_congr_left fun c hc => ?_
    rw [Function.comp_apply, hbyte c hc, Char.ofNat_toNat, id]
  · rw [List.all_map, List.all_eq_true]
    intro c hc
    obtain ⟨hlow, hhigh⟩ := hvisible c hc
    have hspec := hbyte c hc
    simp only [Function.comp_apply, Http.isVisibleAscii, Bool.or_eq_true, Bool.and_eq_true,
      decide_eq_true_eq, UInt8.le_iff_toNat_le, UInt8.lt_iff_toNat_lt, hspec]
    refine Or.inl ⟨?_, ?_⟩
    · change 32 ≤ c.toNat
      omega
    · change c.toNat < 127
      omega

theorem visible_of_isHost (hhost : IsHost host) : ∀ c ∈ host, Visible c := by
  rcases hhost.shape with ⟨-, hplain⟩ | ⟨inside, rfl, hinside⟩
  · exact fun c hc => (hplain c hc).2
  · intro c hc
    simp only [List.cons_append, List.mem_cons, List.mem_append, List.not_mem_nil,
      or_false] at hc
    rcases hc with rfl | hc | rfl
    · decide
    · rcases hinside c hc with hplain | rfl
      · exact hplain.2
      · decide
    · decide

namespace WebOrigin

variable (origin : WebOrigin)

theorem isAuthority :
    ∃ port, IsAuthority origin.authority origin.host port ∧
      portClass port = portClass (some origin.port) := by
  unfold authority
  split
  · rename_i hdefault
    refine ⟨none, .bare origin.isHost, ?_⟩
    rw [hdefault]
    cases origin.scheme <;> rfl
  · exact ⟨some origin.port,
      .withPort origin.isHost (Authority.isPort_toDigits origin.port_lt), rfl⟩

theorem visible_authority : ∀ c ∈ origin.authority, Visible c := by
  have hhost := visible_of_isHost origin.isHost
  unfold authority
  split
  · exact hhost
  · intro c hc
    rcases List.mem_append.mp hc with hc | hc
    · exact hhost c hc
    · rcases List.mem_cons.mp hc with rfl | hc
      · decide
      · have hdigit := Nat.isDigit_of_mem_toDigits (by decide) (by decide) hc
        exact (Authority.plain_of_isDigit hdigit).2

theorem visible_serialize : ∀ c ∈ origin.serialize, Visible c := by
  have hscheme : ∀ c ∈ origin.scheme.text, Visible c := by
    cases origin.scheme <;> exact Authority.forall_mem_of_all (by decide +kernel)
  intro c hc
  rw [serialize, List.mem_append] at hc
  rcases hc with hc | hc
  · exact hscheme c hc
  · simp only [List.mem_cons] at hc
    rcases hc with rfl | rfl | rfl | hc
    · decide
    · decide
    · decide
    · exact origin.visible_authority c hc

theorem isHttp_scheme (scheme : Scheme) : IsHttp scheme.text := by
  cases scheme
  · exact Or.inl (by decide)
  · exact Or.inr (by decide)

/-- The comparison of what a browser sends. -/
theorem originMatchesHost_serialize (page url : WebOrigin) :
    originMatchesHost page.serialize url.authority = true ↔
      page.host = url.host ∧ portClass (some page.port) = portClass (some url.port) := by
  obtain ⟨portA, hA, hclassA⟩ := page.isAuthority
  obtain ⟨portB, hB, hclassB⟩ := url.isAuthority
  obtain ⟨hspells, hfree⟩ := spells_of_isAuthority hA
  rw [serialize, originMatchesHost_iff_of_spells (isHttp_scheme _) hfree hspells
    (spells_of_isAuthority hB).1, page.lower, url.lower, hclassA, hclassB]

end WebOrigin

namespace BrowserRequest

variable (r : BrowserRequest)

theorem text_rest {name : String} (hname : name ∈ ["host", "origin", "sec-fetch-site"]) :
    Http.HeaderMap.text r.rest name = none := by
  have hnone : r.rest.filter (fun header => header.1 = name) = [] := by
    rw [List.filter_eq_nil_iff]
    intro header hheader heq
    exact r.rest_names header hheader (of_decide_eq_true heq ▸ hname)
  rw [Http.HeaderMap.text, Http.HeaderMap.get, Http.HeaderMap.getAll, hnone]
  rfl

theorem text_host : Http.HeaderMap.text r.headers "host" = some r.url.authority := by
  have hget : Http.HeaderMap.get r.headers "host" = some (headerValue r.url.authority) := rfl
  rw [Http.HeaderMap.text, hget]
  exact toStr_headerValue r.url.visible_authority

theorem text_origin : Http.HeaderMap.text r.headers "origin" =
    some (r.page.elim "null".toList WebOrigin.serialize) := by
  have hget : Http.HeaderMap.get r.headers "origin" =
      some (headerValue (r.page.elim "null".toList WebOrigin.serialize)) := rfl
  rw [Http.HeaderMap.text, hget]
  refine toStr_headerValue ?_
  cases r.page with
  | none => exact Authority.forall_mem_of_all (by decide +kernel)
  | some page => exact page.visible_serialize

theorem visible_secFetchSite : ∀ c ∈ r.secFetchSite, Visible c := by
  unfold secFetchSite
  split_ifs <;> exact Authority.forall_mem_of_all (by decide +kernel)

theorem text_secFetchSite : Http.HeaderMap.text r.headers "sec-fetch-site" =
    if r.fetchMetadata then some r.secFetchSite else none := by
  have hrest := r.text_rest (show "sec-fetch-site" ∈ ["host", "origin", "sec-fetch-site"] by simp)
  unfold headers
  cases r.fetchMetadata with
  | false => exact hrest
  | true => exact toStr_headerValue r.visible_secFetchSite

theorem hasBearer_headers : hasBearer r.headers = hasBearer r.rest := by
  unfold headers
  cases r.fetchMetadata <;> rfl

/-- The check passes what shares its authority, and nothing else. -/
theorem csrfCheck_ambient (hambient : r.Ambient) :
    (r.SharesAuthority → csrfCheck r.method r.headers = .ok ()) ∧
      (¬ r.SharesAuthority → csrfCheck r.method r.headers = .error csrfRejected) := by
  obtain ⟨hget, hhead, hoptions, hbearer⟩ := hambient
  have hmethod : ¬ (r.method = .get ∨ r.method = .head ∨ r.method = .options) := by
    rintro (h | h | h)
    · exact hget h
    · exact hhead h
    · exact hoptions h
  unfold csrfCheck
  rw [if_neg hmethod, hasBearer_headers, hbearer, if_neg Bool.false_ne_true, text_secFetchSite,
    text_origin, text_host]
  unfold SharesAuthority
  cases r.fetchMetadata with
  | true =>
    simp only [if_true]
    unfold secFetchSite
    by_cases hsame : r.page = some r.url
    · rw [if_pos hsame]
      refine ⟨fun _ => if_pos (Or.inl rfl), fun hnot => absurd ⟨r.url, hsame, rfl⟩ hnot⟩
    · have hforeign : ¬ ∃ page, r.page = some page ∧ page = r.url := by
        rintro ⟨page, hpage, rfl⟩
        exact hsame hpage
      rw [if_neg hsame]
      refine ⟨fun hshares => absurd hshares hforeign, fun _ => if_neg ?_⟩
      cases r.sameSite <;> decide
  | false =>
    simp only [Bool.false_eq_true, if_false, Option.getD_some]
    cases hpage : r.page with
    | none =>
      refine ⟨fun hshares => ?_, fun _ => rfl⟩
      obtain ⟨page, hnone, -⟩ := hshares
      cases hnone
    | some page =>
      rw [Option.elim_some]
      by_cases hmatch : originMatchesHost page.serialize r.url.authority = true
      · rw [if_pos hmatch]
        refine ⟨fun _ => rfl, fun hnot => absurd ⟨page, rfl, ?_⟩ hnot⟩
        exact (WebOrigin.originMatchesHost_serialize page r.url).mp hmatch
      · rw [if_neg hmatch]
        refine ⟨fun hshares => absurd ?_ hmatch, fun _ => rfl⟩
        obtain ⟨other, heq, hsame⟩ := hshares
        cases heq
        exact (WebOrigin.originMatchesHost_serialize page r.url).mpr hsame

/-- Whoever asks, the gate turns the request away before it resolves the caller. -/
def TurnedAway : Prop :=
  ∀ (H : Type) [DecidableEq H] (tokenHash : Text → H) (fails : H → Bool) (db : Auth.Tables H)
    (loopback : Bool) (path : Text) (now : Int),
    Auth.gate tokenHash fails db loopback r.method r.headers path now =
      .error (.csrfRejected csrfRejected)

theorem turnedAway_iff (hambient : r.Ambient) : r.TurnedAway ↔ ¬ r.SharesAuthority := by
  obtain ⟨hpass, hreject⟩ := r.csrfCheck_ambient hambient
  constructor
  · intro haway hshares
    have hgate := haway Unit (fun _ => ()) (fun _ => false) {} true "/healthz".toList 0
    rw [Auth.gate, hpass hshares] at hgate
    cases hgate
  · intro hforeign H _ tokenHash fails db loopback path now
    rw [Auth.gate, hreject hforeign]

end BrowserRequest

/-- A request that a page not served by the daemon sends without a token is turned away exactly
when the page does not live where the request goes; a page under a rebound name does. A match of
the two headers means well-formed authorities of one host and port exactly when no two
malformed strings are spelled alike. -/
theorem cross_origin_gate (r : BrowserRequest) (origin host : Text) :
    (r.Ambient → ((r.served = false → r.TurnedAway) ↔ (r.served = true ∨ ¬ r.SharesAuthority))) ∧
      ((originMatchesHost origin host = true → NamesSame origin host) ↔
        (SpelledAlike origin host → WellFormed origin host)) := by
  refine ⟨fun hambient => ?_, namesSame_of_match_iff⟩
  rw [r.turnedAway_iff hambient]
  cases r.served <;> simp

/-- A name of someone else that has been rebound to the daemon's address. -/
def reboundOrigin : WebOrigin where
  scheme := .http
  host := "rebound.example".toList
  port := 8080
  isHost := .name (by decide) (by decide)
  lower := by decide
  port_lt := by decide

/-- A page of that name posts to its own origin. -/
def reboundRequest : BrowserRequest where
  method := .post
  page := some reboundOrigin
  url := reboundOrigin
  fetchMetadata := true
  sameSite := true
  served := false
  rest := []
  rest_names := by decide

theorem not_isAuthority_colons (host : Text) (port : Option Nat) :
    ¬ IsAuthority "a:b:c".toList host port := by
  intro hauthority
  generalize htext : "a:b:c".toList = text at hauthority
  cases hauthority with
  | bare hhost =>
    rcases hhost.shape with ⟨-, hplain⟩ | ⟨inside, rfl, -⟩
    · exact ne_of_plain (hplain ':' (by rw [← htext]; decide)) (by decide) rfl
    · cases htext
  | @withPort _ text port hhost hport =>
    have hnot := (loosePort_of_isPort hport).colon_not_mem
    have hsplit := Text.rsplitOnce_eq_some.mpr ⟨htext, hnot⟩
    have hreads : Text.rsplitOnce ':' "a:b:c".toList = some ("a:b".toList, ['c']) := by
      decide
    rw [hreads, Option.some.injEq, Prod.mk.injEq] at hsplit
    rw [← hsplit.2] at hport
    exact absurd (hport.digits 'c' List.mem_cons_self) (by decide)

/-- The page becomes the loopback owner; and a host with two colons matches itself, though it is
no authority. -/
theorem cross_origin_gate_open :
    (reboundRequest.Ambient ∧ reboundRequest.served = false ∧
      Auth.gate id (fun _ => false) ({} : Auth.Tables Text) true reboundRequest.method
        reboundRequest.headers "/v1/views".toList 0 = .ok .local) ∧
    originMatchesHost "http://a:b:c".toList "a:b:c".toList = true ∧
      ¬ NamesSame "http://a:b:c".toList "a:b:c".toList := by
  have hambient : reboundRequest.Ambient := ⟨by decide, by decide, by decide, rfl⟩
  have hpass := (reboundRequest.csrfCheck_ambient hambient).1 ⟨reboundOrigin, rfl, rfl⟩
  refine ⟨⟨hambient, rfl, ?_⟩, by decide, ?_⟩
  · rw [Auth.gate, hpass]
    rfl
  · rintro ⟨scheme, authority, hostA, portA, hostB, portB, -, -, -, hB, -⟩
    exact not_isAuthority_colons hostB portB hB

end Hardening

end Datboi
