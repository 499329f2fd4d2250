/-
# Lisplet.Host -- what an evaluation is given from outside

The host gives an evaluation the files it can read and the primitives it may call.  A call of a
primitive that the host withholds ends the run, and nothing in a program can prevent that: what is said
of the runs that finish under such a host is said of the runs that never call the primitive.
-/

import Lisplet.Files
import Lisplet.Value

namespace Lisplet

/-- The files and the primitives that a program may use. -/
structure Host where
  files : Files
  permits : Primitive → Bool := fun _ => true

/-- A host that withholds nothing. -/
def Host.ofFiles (files : Files) : Host := { files }

/-- The same host without one primitive. -/
def Host.withhold (host : Host) (p : Primitive) : Host :=
  { host with permits := fun q => q != p && host.permits q }

end Lisplet
