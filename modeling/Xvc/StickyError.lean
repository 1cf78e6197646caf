import Xvc.Dpc.Latch
import Xvc.Versal.Deferred
import Xvc.Versal.Latch

/-!
# The error latch of both servers
-/

namespace Xvc

open ByteMem Stream

variable {σ τ : Type}

end Xvc
