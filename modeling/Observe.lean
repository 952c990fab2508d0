import Observe.Protocol.Safety
import Observe.Space.Take
import Observe.Sequential.Refinement
import Observe.SmallMap.Refinement
import Observe.SmallMap.Hasher
import Observe.Space.Registration
import Observe.Protocol.Deadlines
import Observe.Protocol.Waiting
import Observe.Space.Reentrancy
import Observe.Space.Retention
import Observe.Space.Board
import Observe.Space.Unwinding
import Observe.Memory.Termination
import Observe.Memory.Ownership
import Observe.Reference.Conformance
