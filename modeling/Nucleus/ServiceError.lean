import Nucleus.Word

/-!
# Refused services

Why a nucleus service was refused. The caller of a refused service sees the same code whatever the
cause; the cause shows in the message log.
-/
namespace Nucleus

/-- Causes for which a service is refused. -/
inductive ServiceError
  | noFreeProcess
  | noFreeSemaphore
  | invalidArgument
  | notFound
deriving DecidableEq, Repr

namespace ServiceError

/-- The result register of a refused service. -/
def code (_ : ServiceError) : Int32 := -1

def message : ServiceError → String
  | noFreeProcess => "no free process descriptor"
  | noFreeSemaphore => "no free semaphore descriptor"
  | invalidArgument => "invalid argument"
  | notFound => "not found"

end ServiceError

end Nucleus
