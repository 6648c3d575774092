import Mathlib.Data.Nat.Notation

/-!
# Statuses

A status is OK or one of the error codes of `include/status.h` with its message.
-/

namespace MiniLevelDb

/-- `Status`, with the message an error carries. -/
inductive Status where
  | ok
  | notFound (message : String)
  | corruption (message : String)
  | notSupported (message : String)
  | invalidArgument (message : String)
  | ioError (message : String)
  deriving DecidableEq, Repr

/-- `Status::ok`. -/
def Status.isOk : Status → Bool
  | .ok => true
  | _ => false

@[simp] theorem Status.isOk_ok : Status.ok.isOk = true := rfl

theorem Status.eq_ok {status : Status} (passes : status.isOk = true) : status = .ok := by
  cases status with
  | ok => rfl
  | _ => cases passes

end MiniLevelDb
