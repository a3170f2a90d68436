import Chesscoin.Serving

/-!
Catching up: a node asks its peers, one after the other, for what comes after its locator.

The locator is made once, before the first peer is asked. From each peer the node asks for
headers, screens them against its active chain as it then is, and asks for the blocks when at
least one of them is new to it.
-/

namespace Chesscoin.Sync

open Chesscoin.Lib.Text Chesscoin.Domain Chesscoin.Simulator Chesscoin.Validation
  Chesscoin.ForkChoice Chesscoin.Wire Chesscoin.Runtime Chesscoin.Locator Chesscoin.Serving

variable (hasher : HashPort) (sampler : SamplingPort) (addr : AddrText)

/-! ### One peer -/

/-- The first message of what comes back for a request. -/
def ask (peer : Str → Option Stream) (message : PeerMessage) (st : NodeState) :
    Except Unit PeerMessage :=
  match peer (encodeNetworkMessage addr st.network.wire message ++ ['\n']) with
  | none => .error ()
  | some stream =>
    match readLimitedLineFrom st.network.maxMessageBytes stream with
    | .ok (some line, _) =>
      match decodeNetworkMessage addr line st.network.wire with
      | .ok message => .ok message
      | .error _ => .error ()
    | _ => .error ()

def headersFromPeer (peer : Str → Option Stream) (locator : List Digest) (limit : ℕ)
    (st : NodeState) : Except Unit (List BlockHeader) :=
  match ask addr peer (.getHeaders locator (UInt64.ofNat limit)) st with
  | .ok (.headers headers) => if headers.length ≤ limit then .ok headers else .error ()
  | _ => .error ()

def syncFromPeer (peer : Str → Option Stream) (locator : List Digest) (limit : ℕ)
    (st : NodeState) : Except Unit Unit × NodeState :=
  match headersFromPeer addr peer locator limit st with
  | .error () => (.error (), st)
  | .ok headers =>
    let expectedHashes := headers.map (blockHeaderHash hasher)
    match validateHeadersAfterLocator hasher st.chain locator headers with
    | .error () => (.error (), st)
    | .ok () =>
      if expectedHashes.any fun hash => !st.forkChoice.containsBlock hash then
        blocksFromPeer hasher sampler addr peer locator expectedHashes st
      else (.ok (), st)

def peersFromPeer (peer : Str → Option Stream) (limit : ℕ) (st : NodeState) :
    Except Unit (List SocketAddr) :=
  match ask addr peer (.getPeers (UInt64.ofNat limit)) st with
  | .ok (.peers peers) => if peers.length ≤ limit then .ok peers else .error ()
  | _ => .error ()

def exchangePeersWith (peer : Str → Option Stream) (limit : ℕ) (st : NodeState) :
    Except Unit Unit × NodeState :=
  match peersFromPeer addr peer limit st with
  | .error () => (.error (), st)
  | .ok advertised => (.ok (), advertised.foldl (fun st candidate => (addPeer candidate st).2) st)

/-! ### All peers -/

/-- A failure is counted, once for each attempt. -/
def countSync (result : Except Unit Unit) (st : NodeState) : NodeState :=
  match result with
  | .ok () => st
  | .error () => { st with failedSyncs := st.failedSyncs + 1 }

/-- Peer exchange with one peer after the other. `net` is what comes back from an address for
the line of a request. -/
def exchangeAll (net : SocketAddr → Str → Option Stream) (limit : ℕ) :
    List SocketAddr → NodeState → NodeState
  | [], st => st
  | peer :: rest, st =>
    let (result, st) := exchangePeersWith addr (net peer) limit st
    exchangeAll net limit rest (countSync result st)

/-- Block sync with one peer after the other, all with one locator, and what each call
returned. -/
def syncAll (net : SocketAddr → Str → Option Stream) (locator : List Digest) (limit : ℕ) :
    List SocketAddr → NodeState → List (Except Unit Unit) × NodeState
  | [], st => ([], st)
  | peer :: rest, st =>
    let (result, st) := syncFromPeer hasher sampler addr (net peer) locator limit st
    let (results, st) := syncAll net locator limit rest (countSync result st)
    (result :: results, st)

def syncOnce (net : SocketAddr → Str → Option Stream) (st : NodeState) :
    List (Except Unit Unit) × NodeState :=
  let locator := blockLocator hasher st.chain st.sync.maxLocatorHashes
  let blockLimit := st.sync.maxBlocksPerResponse
  if st.peers = [] then ([], st)
  else
    let st := exchangeAll addr net st.network.maxPeers st.peers st
    syncAll hasher sampler addr net locator blockLimit st.peers st

/-- A node that asks one peer with a locator of its own. -/
def syncRound (peer : Str → Option Stream) (st : NodeState) : Except Unit Unit × NodeState :=
  syncFromPeer hasher sampler addr peer (blockLocator hasher st.chain st.sync.maxLocatorHashes)
    st.sync.maxBlocksPerResponse st

def syncRounds (peer : Str → Option Stream) : ℕ → NodeState → NodeState
  | 0, st => st
  | k + 1, st => syncRounds peer k (syncRound hasher sampler addr peer st).2

end Chesscoin.Sync
