import Chesscoin.ForkChoice

/-!
Locators: how a node says which blocks it has, what a peer serves after a locator, and how
the node screens the headers it is served.

A locator names the newest blocks of the active chain, newest first, and ends with the zero
digest when there was room for the whole chain. A peer starts after the first hash it knows,
and at its first block when it knows none.
-/

namespace Chesscoin.Locator

open Chesscoin.Domain Chesscoin.Simulator Chesscoin.Validation Chesscoin.ForkChoice

variable (hasher : HashPort)

def blockLocator (chain : ChainState) (maxHashes : ℕ) : List Digest :=
  if maxHashes = 0 then []
  else
    let hashes := (chain.blocks.reverse.take maxHashes).map (blockHash hasher)
    if hashes.length < maxHashes ∧ chain.blocks ≠ [] then hashes ++ [Digest.zero] else hashes

/-- Where the blocks after a locator start: at the first block for the zero digest, and after
the block of any other hash. -/
def startAfter (chainHashes : List Digest) (hash : Digest) : Option ℕ :=
  if hash = Digest.zero then some 0
  else (chainHashes.findIdx? (· == hash)).map (· + 1)

def blocksAfterLocator (chain : ChainState) (locator : List Digest) (limit : ℕ) : List Block :=
  let chainHashes := chain.blocks.map (blockHash hasher)
  let start := (locator.findSome? (startAfter chainHashes)).getD 0
  (chain.blocks.drop start).take limit

def inventoryAfterLocator (chain : ChainState) (locator : List Digest) (limit : ℕ) :
    List Digest :=
  (blocksAfterLocator hasher chain locator limit).map (blockHash hasher)

def headersAfterLocator (chain : ChainState) (locator : List Digest) (limit : ℕ) :
    List BlockHeader :=
  (blocksAfterLocator hasher chain locator limit).map (·.header)

/-- Each header follows the one before it, with the configured samples and work. -/
def checkHeaders (config : ChainConfig) :
    UInt64 → Digest → List BlockHeader → Except Unit Unit
  | _, _, [] => .ok ()
  | expectedHeight, expectedPrevious, header :: rest =>
    if header.previousBlock ≠ expectedPrevious then .error ()
    else if header.height ≠ expectedHeight then .error ()
    else if header.sampleCount ≠ config.samplesPerBlock then .error ()
    else
      let hash := blockHeaderHash hasher header
      if hash.leadingZeroBits < config.difficultyZeroBits.toNat then .error ()
      else checkHeaders config (expectedHeight + 1) hash rest

/-- The height of the first header: 0 for a first block, which has to be asked for unless the
chain is empty, and one more than its parent's place otherwise, which the locator has to
name. -/
def expectedStart (chain : ChainState) (locator : List Digest) (firstParent : Digest) :
    Except Unit UInt64 :=
  if firstParent = Digest.zero then
    if chain.blocks ≠ [] ∧ Digest.zero ∉ locator then .error () else .ok 0
  else if firstParent ∉ locator then .error ()
  else match (chain.blocks.map (blockHash hasher)).findIdx? (· == firstParent) with
    | none => .error ()
    | some parentIndex => .ok (UInt64.ofNat parentIndex + 1)

def validateHeadersAfterLocator (chain : ChainState) (locator : List Digest) :
    List BlockHeader → Except Unit Unit
  | [] => .ok ()
  | first :: rest =>
    match expectedStart hasher chain locator first.previousBlock with
    | .error () => .error ()
    | .ok expectedHeight =>
      checkHeaders hasher chain.config expectedHeight first.previousBlock (first :: rest)

end Chesscoin.Locator
