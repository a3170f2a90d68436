import Chesscoin.Catchup
import Chesscoin.HonestTrace

/-!
A chain as a record of training.

What a miner is free to choose for a block are a training seed, an entropy and a nonce; the rest
follows from the chain below. Where as many samples are taken as there are steps, validation leaves
no other freedom: a chain that is accepted is the one honest training makes of its choices, block
by block, and its model is the first model, trained with the seeds in order.
-/

namespace Chesscoin.HonestChain

open Chesscoin.Domain Chesscoin.Simulator Chesscoin.Validation Chesscoin.Mining
  Chesscoin.HonestTrace Chesscoin.ForkChoice Chesscoin.ForkTree Chesscoin.ForkInvariant
  Chesscoin.Wire Chesscoin.Runtime Chesscoin.Runs Chesscoin.ActiveView Chesscoin.Screening
  Chesscoin.Catchup Chesscoin.Adapters

/-- What a miner chooses for a block. -/
structure Choice where
  trainingSeed : UInt64
  samplingEntropy : UInt64
  nonce : UInt64
  deriving DecidableEq

def choiceOf (block : Block) : Choice :=
  ⟨block.header.trainingSeed, block.header.samplingEntropy, block.header.nonce⟩

variable (hasher : HashPort)

/-- The chain with one more block, trained honestly. -/
def trainNext (chain : ChainState) (choice : Choice) : ChainState :=
  { chain with
    blocks := chain.blocks ++ [candidate hasher chain.config (chain.headContext hasher)
      choice.trainingSeed choice.samplingEntropy choice.nonce] }

/-- The chain that honest training makes of choices. -/
def trainChain (config : ChainConfig) (choices : List Choice) : ChainState :=
  choices.foldl (trainNext hasher) (ChainState.new config)

/-- The model after the steps of one block. -/
def trainModel (config : ChainConfig) (model : ModelState) (trainingSeed : UInt64) : ModelState :=
  (buildTraceFrom hasher model trainingSeed config.stepsPerBlock.toNat).candidateModel

/-- The header hash of every block has the zero bits asked for. -/
def Worked (config : ChainConfig) (blocks : List Block) : Prop :=
  ∀ b ∈ blocks, config.difficultyZeroBits.toNat ≤ (blockHash hasher b).leadingZeroBits

variable {hasher} {sampler : SamplingPort} {addr : AddrText} {B : Block → Prop}
  {config : ChainConfig} {parent : ParentContext} {block : Block} {blocks : List Block}
  {st : NodeState}

/-! ### One block -/

/-- A valid block that is sampled in full is what honest training makes of its choice. -/
lemma eq_candidate (hfull : sampler.Full) (hcount : config.samplesPerBlock = config.stepsPerBlock)
    (h : Valid hasher sampler config parent block) :
    block = candidate hasher config parent (choiceOf block).trainingSeed
      (choiceOf block).samplingEntropy (choiceOf block).nonce := by
  have htrace := trace_eq_of_full hasher sampler hfull hcount h
  have hheight : block.header.height = parent.height := h.height
  have hbefore : block.header.modelBefore = block.trace.initialModel := h.initialModel.symm
  rcases block with ⟨⟨height, previous, before, after, root, seed, entropy, count, nonce⟩, trace⟩
  have hprevious := h.previousBlock
  have hafter := h.modelAfter
  have hroot := h.traceRoot
  have hsamples := h.sampleCount
  simp only [honestTrace] at htrace hheight hbefore hprevious hafter hroot hsamples
  subst hheight hbefore hprevious hafter hroot hsamples htrace
  rfl

lemma valid_candidate (hrange : sampler.InRange) (choice : Choice)
    (hwork : config.difficultyZeroBits.toNat ≤ (blockHash hasher (candidate hasher config parent
      choice.trainingSeed choice.samplingEntropy choice.nonce)).leadingZeroBits) :
    Valid hasher sampler config parent (candidate hasher config parent choice.trainingSeed
      choice.samplingEntropy choice.nonce) :=
  valid_of_honest hasher sampler hrange rfl ⟨rfl, rfl, rfl, rfl, rfl, rfl, hwork⟩

/-! ### A chain -/

lemma trainChain_append (choices : List Choice) (choice : Choice) :
    trainChain hasher config (choices ++ [choice]) =
      trainNext hasher (trainChain hasher config choices) choice := by
  simp only [trainChain, List.foldl_append, List.foldl_cons, List.foldl_nil]

lemma trainChain_config (choices : List Choice) :
    (trainChain hasher config choices).config = config := by
  induction choices using List.reverseRecOn with
  | nil => rfl
  | append_singleton choices choice ih =>
    rw [trainChain_append]
    exact ih

/-- **The model of a trained chain** is the first model, trained with the seeds in order. -/
theorem trainChain_model (choices : List Choice) :
    (trainChain hasher config choices).currentModel =
      (choices.map (·.trainingSeed)).foldl (trainModel hasher config) ModelState.genesis := by
  induction choices using List.reverseRecOn with
  | nil => rfl
  | append_singleton choices choice ih =>
    rw [trainChain_append, List.map_append, List.foldl_append, ← ih]
    simp only [trainNext, ChainState.currentModel, List.getLast?_concat, Option.map_some,
      Option.getD_some, List.map_cons, List.map_nil, List.foldl_cons, List.foldl_nil]
    rw [trainChain_config]
    rfl

lemma replayed_concat {b : Block} : Replayed hasher sampler config (blocks ++ [b]) ↔
    Replayed hasher sampler config blocks ∧
      Valid hasher sampler config ((ChainState.mk config blocks).headContext hasher) b := by
  constructor
  · intro h
    refine ⟨fun i a ha => ?_, ?_⟩
    · obtain ⟨hlt, -⟩ := List.getElem?_eq_some_iff.mp ha
      have hv := h i a (by rw [List.getElem?_append_left hlt, ha])
      rwa [List.take_append_of_le_length hlt.le] at hv
    · have hv := h blocks.length b List.getElem?_concat_length
      rwa [List.take_left] at hv
  · rintro ⟨h, hlast⟩ i a ha
    rcases Nat.lt_or_ge i blocks.length with hlt | hge
    · rw [List.getElem?_append_left hlt] at ha
      rw [List.take_append_of_le_length hlt.le]
      exact h i a ha
    · rw [List.getElem?_append_right hge, List.getElem?_singleton] at ha
      split at ha
      · next hz =>
        cases ha
        have hi : i = blocks.length := by omega
        rw [hi, List.take_left]
        exact hlast
      · cases ha

lemma chainFromBlocks_of_replayed (h : Replayed hasher sampler config blocks) :
    chainFromBlocks hasher sampler config blocks = .ok ⟨config, blocks⟩ := by
  induction blocks using List.reverseRecOn with
  | nil => rfl
  | append_singleton blocks b ih =>
    obtain ⟨hrest, hlast⟩ := replayed_concat.mp h
    exact applyAll_append blocks (ih hrest) hlast

/-- **A chain is valid when it was trained**, and has the work. -/
theorem replayed_iff_trained (hrange : sampler.InRange) (hfull : sampler.Full)
    (hcount : config.samplesPerBlock = config.stepsPerBlock) :
    Replayed hasher sampler config blocks ↔
      trainChain hasher config (blocks.map choiceOf) = ⟨config, blocks⟩ ∧
        Worked hasher config blocks := by
  induction blocks using List.reverseRecOn with
  | nil =>
    refine ⟨fun _ => ⟨rfl, fun b hb => absurd hb List.not_mem_nil⟩, fun _ i b hb => ?_⟩
    cases hb
  | append_singleton blocks b ih =>
    rw [replayed_concat, ih, List.map_append, List.map_singleton, trainChain_append]
    constructor
    · rintro ⟨⟨htrained, hworked⟩, hv⟩
      refine ⟨?_, fun a ha => ?_⟩
      · rw [htrained, trainNext]
        simp only
        rw [← eq_candidate hfull hcount hv]
      · rcases List.mem_append.mp ha with ha | ha
        · exact hworked a ha
        · rw [List.mem_singleton.mp ha]
          exact hv.work
    · rintro ⟨hnext, hworked⟩
      have hblocks := congrArg ChainState.blocks hnext
      simp only [trainNext] at hblocks
      obtain ⟨hinit, hlast⟩ := List.append_inj' hblocks rfl
      have htrained : trainChain hasher config (blocks.map choiceOf) = ⟨config, blocks⟩ := by
        rcases hchain : trainChain hasher config (blocks.map choiceOf) with ⟨config', blocks'⟩
        have hsame : (trainChain hasher config (blocks.map choiceOf)).config = config :=
          trainChain_config _
        rw [hchain] at hinit hsame
        rw [← hinit, ← hsame]
      rw [htrained, List.singleton_inj] at hlast
      have hwork := hworked b (by simp)
      rw [← hlast] at hwork ⊢
      exact ⟨⟨htrained, fun a ha => hworked a (by simp [ha])⟩, valid_candidate hrange _ hwork⟩

/-! ### Nodes -/

/-- **Chains are records of training** where everything is sampled. A list of blocks is accepted as
a chain exactly when honest training makes it of the seeds, entropies and nonces in its headers, and
it has the work. So in every state a node can come to, whatever it has been sent, its active chain
is what training makes of its choices, and its model is what the seeds in order make of the
first. -/
theorem chains_are_training (hasher : HashPort) (sampler : SamplingPort) (addr : AddrText)
    (hrange : sampler.InRange) (hfull : sampler.Full) (config : ChainConfig)
    (hcount : config.samplesPerBlock = config.stepsPerBlock) :
    (∀ blocks, chainFromBlocks hasher sampler config blocks = .ok ⟨config, blocks⟩ ↔
      trainChain hasher config (blocks.map choiceOf) = ⟨config, blocks⟩ ∧
        Worked hasher config blocks) ∧
    ∀ (B : Block → Prop) (st : NodeState), (∀ b, B b → blockHash hasher b ≠ Digest.zero) →
      Reachable hasher sampler addr B st → st.chain.config = config →
      trainChain hasher config (st.chain.blocks.map choiceOf) = st.chain ∧
        st.forkChoice.bestModel = (st.chain.blocks.map (·.header.trainingSeed)).foldl
          (trainModel hasher config) ModelState.genesis := by
  refine ⟨fun blocks => ?_, fun B st hnonzero hst hconfig => ?_⟩
  · rw [← replayed_iff_trained hrange hfull hcount]
    exact ⟨replayed_of_chainFromBlocks, chainFromBlocks_of_replayed⟩
  · have hactive := Reachable.active hst hnonzero
    have hreplayed := Active.replayed hactive
    rw [hconfig] at hreplayed
    obtain ⟨htrained, -⟩ := (replayed_iff_trained hrange hfull hcount).mp hreplayed
    have hchain : trainChain hasher config (st.chain.blocks.map choiceOf) = st.chain := by
      rw [htrained, ← hconfig]
    refine ⟨hchain, ?_⟩
    have hmodel : (trainChain hasher config (st.chain.blocks.map choiceOf)).currentModel = _ :=
      trainChain_model _
    rw [hchain, List.map_map] at hmodel
    have hbest : st.chain.currentModel = st.forkChoice.bestModel := by
      have hcontext := congrArg ParentContext.model (view_headContext hactive.tree)
      rw [← hactive.chain] at hcontext
      exact hcontext
    rw [← hbest, hmodel]
    rfl

/-! Two blocks of two steps each. -/

def pairConfig : ChainConfig := ⟨2, 2, 0⟩

def pairChoices : List Choice := [⟨1, 0, 0⟩, ⟨2, 5, 7⟩]

def pair : ChainState := trainChain toyHash pairConfig pairChoices

/-- A node that takes in the blocks of the chain one after the other. -/
def pairRun : List Block → NodeState
  | [] => freshNode pairConfig none
  | block :: rest =>
    (applyIncomingBlock toyHash deterministicSampler block .gossip (pairRun rest)).2

lemma pairRun_reachable {blocks : List Block} (h : blocks ⊆ pair.blocks) :
    Reachable toyHash deterministicSampler ⟨fun _ => [], fun _ => none⟩ (· ∈ pair.blocks)
      (pairRun blocks) := by
  induction blocks with
  | nil => exact ⟨_, freshNode_start pairConfig, .refl⟩
  | cons block rest ih =>
    rw [List.cons_subset] at h
    exact (ih h.2).run (.single (.incoming block .gossip h.1))

lemma pairRun_chain : (pairRun pair.blocks.reverse).chain = pair := by
  decide +kernel

theorem chains_are_training_pair :
    chainFromBlocks toyHash deterministicSampler pairConfig pair.blocks = .ok pair ∧
      (pairRun pair.blocks.reverse).chain = trainChain toyHash pairConfig pairChoices ∧
      (pairRun pair.blocks.reverse).forkChoice.bestModel =
        [1, 2].foldl (trainModel toyHash pairConfig) ModelState.genesis := by
  obtain ⟨haccepts, hnodes⟩ := chains_are_training toyHash deterministicSampler
    ⟨fun _ => [], fun _ => none⟩ deterministicSampler_inRange deterministicSampler_full pairConfig
    rfl
  have hchoices : pair.blocks.map choiceOf = pairChoices := by decide +kernel
  have hnonzero : ∀ b ∈ pair.blocks, blockHash toyHash b ≠ Digest.zero := by decide +kernel
  obtain ⟨htrained, hmodel⟩ := hnodes (· ∈ pair.blocks) (pairRun pair.blocks.reverse) hnonzero
    (pairRun_reachable (List.reverse_subset.mpr (List.Subset.refl _))) (by rw [pairRun_chain]; rfl)
  rw [pairRun_chain] at htrained hmodel
  have hseeds : pair.blocks.map (·.header.trainingSeed) = [1, 2] :=
    congrArg (List.map Choice.trainingSeed) hchoices
  rw [hseeds] at hmodel
  refine ⟨(haccepts pair.blocks).mpr ⟨htrained, fun b _ => Nat.zero_le _⟩, ?_, hmodel⟩
  rw [pairRun_chain, ← hchoices]
  exact htrained.symm

end Chesscoin.HonestChain
