/-! # Machine words

Ids, counters and depths are natural numbers below the limits given here; what is counted beyond a
limit starts again at zero. -/

namespace BranchBound

/-- Ids and counters are below this. -/
def wordRange : Nat := 0x10000000000000000

/-- Depths and indices of data subsets are below this. -/
def depthRange : Nat := 0x100000000

end BranchBound
