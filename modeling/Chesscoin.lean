import Chesscoin.Agreement
import Chesscoin.Envelope
import Chesscoin.SyncBatch
import Chesscoin.HonestTrace
import Chesscoin.Screening
import Chesscoin.HashBinding
import Chesscoin.Failures
import Chesscoin.Recovery
import Chesscoin.WorkScores
import Chesscoin.EntropyChoice
import Chesscoin.ScreenedFetch
import Chesscoin.Passes
import Chesscoin.Gossip
import Chesscoin.Reorgs
import Chesscoin.HeaderRules
import Chesscoin.LinearView
import Chesscoin.Sampling
import Chesscoin.LogCuts
import Chesscoin.LegacyCuts
import Chesscoin.WorkTarget
import Chesscoin.Preimages
import Chesscoin.Checksums
import Chesscoin.Simulation
import Chesscoin.Inbound
import Chesscoin.CommandLine
import Chesscoin.Spreading
import Chesscoin.Connections
import Chesscoin.StorageLock
import Chesscoin.LoopPace
import Chesscoin.Flooding
import Chesscoin.Confirmations
import Chesscoin.ChainBinding
import Chesscoin.HonestChain
import Chesscoin.Discovery
import Chesscoin.Hostile
import Chesscoin.NonceSearch
import Chesscoin.BoundedReading
