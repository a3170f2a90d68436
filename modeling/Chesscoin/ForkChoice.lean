import Mathlib.Data.Finmap
import Chesscoin.Lib.Linked
import Chesscoin.Mining

/-!
The two states a node keeps of its blocks: the active chain, a list, and the fork choice, a
map from hashes to nodes that name their parents, with the hash of the best tip.

A block enters the fork choice under a parent that is already there, or under none, once it
has passed validation in the context that parent gives. The best tip is updated with each
entry. Work scores are 128-bit and heights 64-bit numbers that wrap around.
-/

namespace Chesscoin.ForkChoice

open Chesscoin.Lib Chesscoin.Domain Chesscoin.Simulator Chesscoin.Validation Chesscoin.Mining

variable (hasher : HashPort) (sampler : SamplingPort)

/-! ### The active chain -/

structure ChainState where
  config : ChainConfig
  blocks : List Block
  deriving DecidableEq

namespace ChainState

def new (config : ChainConfig) : ChainState := ⟨config, []⟩

def height (c : ChainState) : UInt64 := UInt64.ofNat c.blocks.length

def currentModel (c : ChainState) : ModelState :=
  (c.blocks.getLast?.map (·.header.modelAfter)).getD ModelState.genesis

def headHash (c : ChainState) : Digest :=
  (c.blocks.getLast?.map (blockHash hasher)).getD Digest.zero

/-- What the next block is validated against. -/
def headContext (c : ChainState) : ParentContext := ⟨c.height, c.headHash hasher, c.currentModel⟩

def mineNextBlock (c : ChainState) (trainingSeed samplingEntropy : UInt64) : Option Block :=
  mineAfter hasher c.config (c.headContext hasher) trainingSeed samplingEntropy

def validateNextBlock (c : ChainState) (block : Block) : Except BlockValidationError Unit :=
  validateBlockAfter hasher sampler c.config (c.headContext hasher) block

def applyBlock (c : ChainState) (block : Block) :
    Except BlockValidationError Digest × ChainState :=
  match c.validateNextBlock hasher sampler block with
  | .error e => (.error e, c)
  | .ok () => (.ok (blockHash hasher block), { c with blocks := c.blocks ++ [block] })

end ChainState

/-! ### The fork choice -/

inductive ForkChoiceError
  | unknownParent (previousBlock : Digest)
  | invalidBlock (error : BlockValidationError)
  deriving DecidableEq

structure ForkNode where
  hash : Digest
  parent : Digest
  block : Block
  nextHeight : UInt64
  workScore : ℕ
  deriving DecidableEq

def configuredBlockWorkScore (difficultyZeroBits : UInt32) : ℕ :=
  2 ^ min difficultyZeroBits.toNat 120

def isBetterTip (candidate best : ForkNode) : Bool :=
  ((compare candidate.workScore best.workScore).then
    ((compare candidate.nextHeight.toNat best.nextHeight.toNat).then
      (ByteString.cmp candidate.hash.bytes best.hash.bytes))).isGT

structure ForkChoiceState where
  config : ChainConfig
  nodes : Finmap fun _ : Digest => ForkNode
  bestTip : Option Digest

namespace ForkChoiceState

def new (config : ChainConfig) : ForkChoiceState := ⟨config, ∅, none⟩

variable (fc : ForkChoiceState)

def look (hash : Digest) : Option ForkNode := fc.nodes.lookup hash

def bestHeight : UInt64 := ((fc.bestTip.bind fc.look).map (·.nextHeight)).getD 0

def bestHash : Digest := fc.bestTip.getD Digest.zero

def knownBlockCount : ℕ := fc.nodes.keys.card

def bestModel : ModelState :=
  ((fc.bestTip.bind fc.look).map (·.block.header.modelAfter)).getD ModelState.genesis

/-- The nodes from the first block to the best tip. A walk longer than the map is going in
circles, and `none` is a walk that never ends. -/
def walkBestChain : Option (List ForkNode) :=
  Linked.walk Digest.zero ForkNode.parent fc.look fc.knownBlockCount fc.bestTip []

def bestChain : List Block := (fc.walkBestChain.getD []).map (·.block)

def containsBlock (hash : Digest) : Bool := (fc.look hash).isSome

/-- The best tip as the parent of the next block. -/
def bestContext : ParentContext := ⟨fc.bestHeight, fc.bestHash, fc.bestModel⟩

def mineNextBlock (trainingSeed samplingEntropy : UInt64) : Option Block :=
  mineAfter hasher fc.config fc.bestContext trainingSeed samplingEntropy

/-- The context and the score of the block's parent. -/
def parentContext (block : Block) : Except ForkChoiceError (ParentContext × ℕ) :=
  if block.header.previousBlock = Digest.zero then .ok (ParentContext.genesis, 0)
  else match fc.look block.header.previousBlock with
    | none => .error (.unknownParent block.header.previousBlock)
    | some parent =>
      .ok (⟨parent.nextHeight, parent.hash, parent.block.header.modelAfter⟩, parent.workScore)

def shouldUpdate (candidate : ForkNode) : Bool :=
  match fc.bestTip.bind fc.look with
  | none => true
  | some best => isBetterTip candidate best

def maybeUpdateBest (candidateHash : Digest) : ForkChoiceState :=
  match fc.look candidateHash with
  | none => fc
  | some candidate =>
    if fc.shouldUpdate candidate then { fc with bestTip := some candidateHash } else fc

/-- The node of a block whose parent has the given score. -/
def forkNode (parentScore : ℕ) (block : Block) : ForkNode :=
  { hash := blockHash hasher block
    parent := block.header.previousBlock
    block
    nextHeight := block.header.height + 1
    workScore := (parentScore + configuredBlockWorkScore fc.config.difficultyZeroBits) % 2 ^ 128 }

def addNode (node : ForkNode) : ForkChoiceState :=
  { fc with nodes := fc.nodes.insert node.hash node }.maybeUpdateBest node.hash

def insertBlock (block : Block) : Except ForkChoiceError Digest × ForkChoiceState :=
  let hash := blockHash hasher block
  if fc.containsBlock hash then (.ok hash, fc)
  else match fc.parentContext block with
    | .error e => (.error e, fc)
    | .ok (parentContext, parentScore) =>
      match validateBlockAfter hasher sampler fc.config parentContext block with
      | .error e => (.error (.invalidBlock e), fc)
      | .ok () => (.ok hash, fc.addNode (fc.forkNode hasher parentScore block))

/-- The state after a sequence of insertions, whatever they return. -/
def insertAll (blocks : List Block) : ForkChoiceState :=
  blocks.foldl (fun fc block => (fc.insertBlock hasher sampler block).2) fc

end ForkChoiceState

/-! ### Replaying a chain -/

def applyAll (chain : ChainState) : List Block → Except BlockValidationError ChainState
  | [] => .ok chain
  | block :: rest =>
    match chain.applyBlock hasher sampler block with
    | (.error e, _) => .error e
    | (.ok _, chain) => applyAll chain rest

def chainFromBlocks (config : ChainConfig) (blocks : List Block) :
    Except BlockValidationError ChainState :=
  applyAll hasher sampler (ChainState.new config) blocks

end Chesscoin.ForkChoice
