import Concur.GrowableArray.Basic
import Concur.GrowableArray.Machine
import Concur.GrowableArray.Shape
import Concur.GrowableArray.Slots
import Concur.GrowableArray.Drop
import Concur.GrowableArray.WaitFree
import Concur.GrowableArray.Words
import Concur.ListSet.Sequential
import Concur.ListSet.Concurrent
import Concur.ListSet.Chain
import Concur.ListSet.Coupling
import Concur.ListSet.Progress
import Concur.ListSet.Drop
import Concur.ListSet.Solo
import Concur.ListSet.Linearize
import Concur.ListSet.Bounded
import Concur.SplitOrdered.Bits
import Concur.SplitOrdered.Machine
import Concur.SplitOrdered.Traverse
import Concur.SplitOrdered.Shape
import Concur.SplitOrdered.Safety
import Concur.SplitOrdered.Count
import Concur.SplitOrdered.Resize
import Concur.SplitOrdered.Linearize
import Concur.SplitOrdered.Descent
import Concur.SplitOrdered.Solo
import Concur.SplitOrdered.Sequential
import Concur.SplitOrdered.Overflow
import Concur.SplitOrdered.Progress
import Concur.SplitOrdered.Sentinels
import Concur.SplitOrdered.Buckets
