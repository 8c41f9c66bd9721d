import Datboi.Store.Store

/-!
# Executor errors

A failure either indicts the claim of the recipe that was executed, which is then
poisoned, or the environment, and then the execution may be retried.
`isClaimFailure` draws that line.
-/

namespace Datboi

/-- Failures of an executor call. `panicked` is not an error value of the program:
it stands for a call that unwound. -/
inductive ExecError where
  | noRoute (hash : Blake3)
  | poisoned (recipeId : Nat)
  | depth
  | cycle (hash : Blake3)
  | unsupportedOp (name : String)
  | malformed (what : String)
  | store (error : StoreError)
  | index (error : IndexError)
  | runtime (error : RuntimeError)
  | io (error : IoError)
  | missingOutboard (hash : Blake3)
  | insufficientHeadroom (hash : Blake3) (need have_ : Nat)
  | rangeVerifyFailed (hash : Blake3)
  | obao (error : ObaoError)
  | claimMismatch (expected actual : Blake3) (len : Nat)
  | panicked
  deriving DecidableEq, Repr

namespace ExecError

/-- Does the failure indict the claim rather than the environment? Running out of
fuel, wiring and a short sequential input do not; apart from the verdicts named
here, only a deterministic marker in the chain of causes does. -/
def isClaimFailure : ExecError → Bool
  | .store (.hashMismatch _ _) | .claimMismatch _ _ _ | .malformed _ => true
  | .runtime (.trap outOfFuel) => !outOfFuel
  | .runtime (.transform _) => true
  | .runtime .instantiate | .runtime (.inputLengthMismatch _ _ _) | .runtime .component => false
  | .io e | .store (.io e) | .store (.obao (.io e)) | .obao (.io e) => e.deterministic
  | _ => false

end ExecError

end Datboi
