/-!
# Failures

Why a request was not answered, with the code, the status and the wording that callers see.
-/

namespace ClusterCache

/-- The causes of failure. -/
inductive Failure where
  | invalidArgument (reason : String)
  | addressUnknown (node : String)
  | forwarding (reason : String)
  | timeout
  | overloaded
  | workerUnavailable
  | internal (reason : String)
deriving DecidableEq, Repr

namespace Failure

def message : Failure → String
  | .invalidArgument reason => "Invalid argument: " ++ reason
  | .addressUnknown node => "Address not found for owner node=" ++ node
  | .forwarding reason => "Forwarding failed: " ++ reason
  | .timeout => "Request timed out"
  | .overloaded => "Cache worker is overloaded"
  | .workerUnavailable => "Cache worker is unavailable"
  | .internal reason => "Internal error: " ++ reason

/-- The code of a failure in answers. -/
def code : Failure → String
  | .timeout => "TIMEOUT"
  | .invalidArgument _ => "INVALID_ARGUMENT"
  | _ => "ERROR.DEFAULT"

/-- The status of an answer that reports a failure. -/
def status : Failure → Nat
  | .invalidArgument _ => 400
  | .timeout => 504
  | .addressUnknown _ | .forwarding _ => 502
  | .overloaded | .workerUnavailable => 503
  | .internal _ => 500

/-- The failure of a request without a key. -/
def emptyKey : Failure := .invalidArgument "Key cannot be empty"

/-- The failure of a put without a value. -/
def missingValue : Failure := .invalidArgument "Value is required"

end Failure

end ClusterCache
