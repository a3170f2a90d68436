import Mathlib.Logic.Relation
import Chesscoin.ForkTree
import Chesscoin.Runtime

/-!
Runs of a node: the states it can come to from a start, by mining, by blocks it is sent and
by batches it is answered with, in any order.

What a step does to the blocks of a node is little: nothing, or it takes one block in, which
is inserted, persisted, and followed by an activation. A batch takes in one block after the
other. So a step is a sequence of moves, and what moves keep, runs keep.
-/

namespace Chesscoin.Runs

open Chesscoin.Lib.Linked Chesscoin.Domain Chesscoin.Simulator Chesscoin.Validation
  Chesscoin.ForkChoice Chesscoin.ForkTree Chesscoin.Wire Chesscoin.Storage Chesscoin.Runtime

variable (hasher : HashPort) (sampler : SamplingPort) (addr : AddrText)

/-! ### Steps -/

/-- The blocks an answer hands on. -/
def answered : Answer → List Block
  | .complete blocks => blocks
  | _ => []

/-- The steps of a node, with the blocks that come up in them drawn from `B`. -/
inductive Step (B : Block → Prop) : NodeState → NodeState → Prop
  | mine {st st' : NodeState} {block : Block} (trainingSeed samplingEntropy : UInt64) :
      mineOnce hasher sampler trainingSeed samplingEntropy st = some (.ok (st', block)) →
      B block → Step B st st'
  | incoming {st : NodeState} (block : Block) (source : BlockSource) :
      B block → Step B st (applyIncomingBlock hasher sampler block source st).2
  | batch {st : NodeState} (answer : Answer) :
      (∀ b ∈ answered answer, B b) → Step B st (settleAnswer hasher sampler answer st).2
  /-- Everything else a node does: counters, peers and traffic. -/
  | other {st st' : NodeState} : st'.chain = st.chain → st'.forkChoice = st.forkChoice →
      st'.storage = st.storage → Step B st st'

/-- A start: the chains are those of the log, or empty without one. -/
def Start (B : Block → Prop) (st : NodeState) : Prop :=
  ∃ config, initialChains hasher sampler addr config st.storage = .ok (st.chain, st.forkChoice) ∧
    ∀ k n, st.forkChoice.look k = some n → B n.block

/-- The states a node can come to. -/
def Reachable (B : Block → Prop) (st : NodeState) : Prop :=
  ∃ start, Start hasher sampler addr B start ∧
    Relation.ReflTransGen (Step hasher sampler B) start st

variable {hasher sampler addr} {B : Block → Prop} {st st' : NodeState}

lemma Reachable.run (h : Reachable hasher sampler addr B st)
    (hrun : Relation.ReflTransGen (Step hasher sampler B) st st') :
    Reachable hasher sampler addr B st' := by
  obtain ⟨start, hstart, hbefore⟩ := h
  exact ⟨start, hstart, hbefore.trans hrun⟩

/-- A node that starts has the chains of its log. -/
lemma startNode_ok {nodeConfig : Config.NodeConfig} {boundAddr : SocketAddr}
    {storage : Option Disk}
    (h : startNode hasher sampler addr nodeConfig boundAddr storage = .ok st) :
    st.storage = storage ∧
      initialChains hasher sampler addr nodeConfig.chain st.storage =
        .ok (st.chain, st.forkChoice) := by
  unfold startNode at h
  split at h
  · cases h
  · simp only at h
    split at h
    · cases h
    · split at h
      · cases h
      · next chains hchains =>
        cases h
        exact ⟨rfl, hchains⟩

/-- A node on the local host that has just been started on a disk, or without one, with
nothing on it. -/
def freshNode (chain : ChainConfig) (storage : Option Disk) : NodeState :=
  initialState { Config.NodeConfig.localhostEphemeral "node".toList with chain }
    (.v4 0x7f000001 9333) storage (ChainState.new chain, ForkChoiceState.new chain)

lemma freshNode_start (config : ChainConfig) :
    Start hasher sampler addr B (freshNode config none) :=
  ⟨config, rfl, known_new config⟩

/-- What a request to a peer leads to is the settling of some answer. -/
lemma blocksFromPeer_eq_settle (peer : Lib.Text.Str → Option Stream)
    (locator expected : List Digest) (st : NodeState) :
    ∃ answer, blocksFromPeer hasher sampler addr peer locator expected st =
      settleAnswer hasher sampler answer st := by
  unfold blocksFromPeer
  simp only
  split
  · exact ⟨.refused, rfl⟩
  · exact ⟨_, rfl⟩

/-! ### Moves -/

/-- The chain after an activation. -/
def activated (hasher : HashPort) (sampler : SamplingPort) (chain : ChainState)
    (fc : ForkChoiceState) : ChainState :=
  if chain.headHash hasher = fc.bestHash then chain
  else match chainFromBlocks hasher sampler fc.config fc.bestChain with
    | .error _ => chain
    | .ok chain => chain

/-- The disk after one more block. -/
def persisted (hasher : HashPort) (config : ChainConfig) (block : Block)
    (storage : Option Disk) : Option Disk :=
  storage.map fun disk => (disk.append hasher config block).2

/-- What happens to the blocks of a node: nothing, or one block is taken in. -/
inductive Move (hasher : HashPort) (sampler : SamplingPort) (B : Block → Prop) :
    NodeState → NodeState → Prop
  | idle {st st' : NodeState} : st'.chain = st.chain → st'.forkChoice = st.forkChoice →
      st'.storage = st.storage → Move hasher sampler B st st'
  | take {st st' : NodeState} {config : ChainConfig} (block : Block) :
      B block →
      (st.forkChoice.look (blockHash hasher block) = none ∨ ∃ trainingSeed samplingEntropy,
        st.forkChoice.mineNextBlock hasher trainingSeed samplingEntropy = some block) →
      st.forkChoice.insertBlock hasher sampler block =
        (.ok (blockHash hasher block), st'.forkChoice) →
      (config = st.chain.config ∨ config = st'.chain.config) →
      st'.storage = persisted hasher config block st.storage →
      st'.chain = activated hasher sampler st.chain st'.forkChoice →
      Move hasher sampler B st st'

lemma insertBlock_ok {fc fc' : ForkChoiceState} {block : Block} {hash : Digest}
    (h : fc.insertBlock hasher sampler block = (.ok hash, fc')) :
    fc.insertBlock hasher sampler block = (.ok (blockHash hasher block), fc') := by
  rcases insertBlock_cases hasher sampler fc block with
    ⟨-, hr⟩ | ⟨e, -, -, hr⟩ | ⟨ctx, score, -, -, -, hr⟩ <;> rw [hr] at h <;> cases h
  · exact hr
  · exact hr

/-! What each part of an operation does to the chain, the fork choice and the disk. -/

@[simp] lemma activateBestChain_chain (st : NodeState) :
    (activateBestChain hasher sampler st).2.chain =
      activated hasher sampler st.chain st.forkChoice := by
  unfold activateBestChain activated
  by_cases hhead : st.chain.headHash hasher = st.forkChoice.bestHash
  · simp [hhead]
  · simp only [hhead, if_false]
    cases chainFromBlocks hasher sampler st.forkChoice.config st.forkChoice.bestChain <;> rfl

lemma activateBestChain_frame (st : NodeState) :
    (activateBestChain hasher sampler st).2.forkChoice = st.forkChoice ∧
      (activateBestChain hasher sampler st).2.storage = st.storage := by
  unfold activateBestChain
  split
  · exact ⟨rfl, rfl⟩
  · split <;> exact ⟨rfl, rfl⟩

@[simp] lemma activateBestChain_forkChoice (st : NodeState) :
    (activateBestChain hasher sampler st).2.forkChoice = st.forkChoice :=
  (activateBestChain_frame st).1

@[simp] lemma activateBestChain_storage (st : NodeState) :
    (activateBestChain hasher sampler st).2.storage = st.storage :=
  (activateBestChain_frame st).2

@[simp] lemma persistBlock_chain (block : Block) (st : NodeState) :
    (persistBlock hasher block st).chain = st.chain := by
  unfold persistBlock
  split <;> rfl

@[simp] lemma persistBlock_forkChoice (block : Block) (st : NodeState) :
    (persistBlock hasher block st).forkChoice = st.forkChoice := by
  unfold persistBlock
  split <;> rfl

@[simp] lemma persistBlock_storage (block : Block) (st : NodeState) :
    (persistBlock hasher block st).storage =
      persisted hasher st.chain.config block st.storage := by
  unfold persistBlock persisted
  split
  · next h => rw [h]; rfl
  · next h => rw [h]; rfl

lemma countAccepted_frame (source : BlockSource) (st : NodeState) :
    (countAccepted source st).chain = st.chain ∧
      (countAccepted source st).forkChoice = st.forkChoice ∧
      (countAccepted source st).storage = st.storage := by
  cases source <;> exact ⟨rfl, rfl, rfl⟩

lemma countRejected_frame (source : BlockSource) (st : NodeState) :
    (countRejected source st).chain = st.chain ∧
      (countRejected source st).forkChoice = st.forkChoice ∧
      (countRejected source st).storage = st.storage := by
  cases source <;> exact ⟨rfl, rfl, rfl⟩

lemma countReorg_frame (hasher : HashPort) (activated : Bool) (oldHead hash : Digest)
    (block : Block) (st : NodeState) :
    (countReorg hasher activated oldHead hash block st).chain = st.chain ∧
      (countReorg hasher activated oldHead hash block st).forkChoice = st.forkChoice ∧
      (countReorg hasher activated oldHead hash block st).storage = st.storage := by
  unfold countReorg
  split <;> exact ⟨rfl, rfl, rfl⟩

/-- What mining once does: the block is inserted, the chain is activated and the block is
persisted, in this order. -/
lemma mineOnce_ok {trainingSeed samplingEntropy : UInt64} {block : Block}
    (h : mineOnce hasher sampler trainingSeed samplingEntropy st = some (.ok (st', block))) :
    st.forkChoice.mineNextBlock hasher trainingSeed samplingEntropy = some block ∧
      st.forkChoice.insertBlock hasher sampler block =
        (.ok (blockHash hasher block), st'.forkChoice) ∧
      st'.storage = persisted hasher st'.chain.config block st.storage ∧
      st'.chain = activated hasher sampler st.chain st'.forkChoice := by
  unfold mineOnce at h
  split at h
  · cases h
  · next b hmine =>
    split at h
    · cases h
    · next hash fc hins =>
      split at h
      · cases h
      · next changed st₁ hact =>
        obtain rfl : (activateBestChain hasher sampler { st with forkChoice := fc }).2 = st₁ := by
          rw [hact]
        simp only [Option.some.injEq, Except.ok.injEq, Prod.mk.injEq] at h
        obtain ⟨rfl, rfl⟩ := h
        refine ⟨hmine, ?_, ?_, ?_⟩
        · simpa using insertBlock_ok hins
        · simp
        · simp

lemma mineOnce_move {trainingSeed samplingEntropy : UInt64} {block : Block}
    (h : mineOnce hasher sampler trainingSeed samplingEntropy st = some (.ok (st', block)))
    (hB : B block) : Move hasher sampler B st st' := by
  obtain ⟨hmine, hins, hstorage, hchain⟩ := mineOnce_ok h
  exact .take block hB (.inr ⟨_, _, hmine⟩) hins (.inr rfl) hstorage hchain

/-- Taking in a new block: it is inserted, persisted and activated, and counted. -/
lemma applyIncomingBlock_new {st : NodeState} {block : Block} {hash : Digest}
    {fc : ForkChoiceState} (source : BlockSource)
    (hnew : st.forkChoice.look (blockHash hasher block) = none)
    (hins : st.forkChoice.insertBlock hasher sampler block = (.ok hash, fc)) :
    applyIncomingBlock hasher sampler block source st =
      (.accepted, countAccepted source
        (countReorg hasher
          (activateBestChain hasher sampler
            (persistBlock hasher block { st with forkChoice := fc })).1.isOk
          (st.chain.headHash hasher) (blockHash hasher block) block
          (activateBestChain hasher sampler
            (persistBlock hasher block { st with forkChoice := fc })).2)) := by
  have hc := (not_containsBlock_iff _).mpr hnew
  simp only [applyIncomingBlock, hc, hins]
  rfl

/-- **What an incoming block does**: it is known, it is refused, or it is taken in. -/
theorem applyIncomingBlock_cases (hasher : HashPort) (sampler : SamplingPort) (block : Block)
    (source : BlockSource) (st : NodeState) :
    (st.forkChoice.containsBlock (blockHash hasher block) = true ∧
        applyIncomingBlock hasher sampler block source st = (.alreadyKnown, st)) ∨
      (∃ e, st.forkChoice.insertBlock hasher sampler block = (.error e, st.forkChoice) ∧
        applyIncomingBlock hasher sampler block source st =
          (.rejected, countRejected source st)) ∨
      ∃ st', st.forkChoice.look (blockHash hasher block) = none ∧
        st.forkChoice.insertBlock hasher sampler block =
          (.ok (blockHash hasher block), st'.forkChoice) ∧
        st'.storage = persisted hasher st.chain.config block st.storage ∧
        st'.chain = activated hasher sampler st.chain st'.forkChoice ∧
        applyIncomingBlock hasher sampler block source st = (.accepted, st') := by
  rcases insertBlock_cases hasher sampler st.forkChoice block with
    ⟨hc, -⟩ | ⟨e, hnew, -, hr⟩ | ⟨ctx, score, hnew, -, -, hr⟩
  · exact .inl ⟨hc, by simp [applyIncomingBlock, hc]⟩
  · have hc := (not_containsBlock_iff _).mpr hnew
    exact .inr (.inl ⟨e, hr, by simp [applyIncomingBlock, hc, hr]⟩)
  · have hresult := applyIncomingBlock_new source hnew hr
    let st₁ := persistBlock hasher block
      { st with forkChoice := st.forkChoice.addNode (st.forkChoice.forkNode hasher score block) }
    let st₂ := (activateBestChain hasher sampler st₁).2
    let st₃ := countReorg hasher (activateBestChain hasher sampler st₁).1.isOk
      (st.chain.headHash hasher) (blockHash hasher block) block st₂
    obtain ⟨hchain₃, hfc₃, hstorage₃⟩ := countReorg_frame hasher
      (activateBestChain hasher sampler st₁).1.isOk (st.chain.headHash hasher)
      (blockHash hasher block) block st₂
    obtain ⟨hchain₄, hfc₄, hstorage₄⟩ := countAccepted_frame source st₃
    refine .inr (.inr ⟨countAccepted source st₃, hnew, ?_, ?_, ?_, hresult⟩)
    · rw [hr, hfc₄, hfc₃]
      simp [st₂, st₁]
    · rw [hstorage₄, hstorage₃]
      simp [st₂, st₁]
    · rw [hchain₄, hchain₃, hfc₄, hfc₃]
      simp [st₂, st₁]

/-! ### What blocks leave alone -/

/-- A state apart from its blocks and what is counted of them. -/
def besides (st : NodeState) : NodeState :=
  { st with
    chain := ChainState.new ChainConfig.default
    forkChoice := ForkChoiceState.new ChainConfig.default
    storage := none
    acceptedBlocks := 0
    rejectedBlocks := 0
    minedBlocks := 0
    reorgs := 0
    syncedBlocks := 0
    storageFailures := 0 }

lemma persistBlock_besides (block : Block) (st : NodeState) :
    besides (persistBlock hasher block st) = besides st := by
  unfold persistBlock
  split <;> rfl

lemma activateBestChain_besides (st : NodeState) :
    besides (activateBestChain hasher sampler st).2 = besides st := by
  unfold activateBestChain
  split
  · rfl
  · split <;> rfl

lemma countReorg_besides (activated : Bool) (oldHead hash : Digest) (block : Block)
    (st : NodeState) :
    besides (countReorg hasher activated oldHead hash block st) = besides st := by
  unfold countReorg
  split <;> rfl

lemma countAccepted_besides (source : BlockSource) (st : NodeState) :
    besides (countAccepted source st) = besides st := by
  cases source <;> rfl

lemma countRejected_besides (source : BlockSource) (st : NodeState) :
    besides (countRejected source st) = besides st := by
  cases source <;> rfl

lemma applyIncomingBlock_besides (block : Block) (source : BlockSource) (st : NodeState) :
    besides (applyIncomingBlock hasher sampler block source st).2 = besides st := by
  unfold applyIncomingBlock
  simp only
  split
  · rfl
  · split
    · exact countRejected_besides source st
    · rw [countAccepted_besides, countReorg_besides, activateBestChain_besides,
        persistBlock_besides]
      rfl

lemma applyBatch_besides (blocks : List Block) (st : NodeState) :
    besides (applyBatch hasher sampler blocks st).2 = besides st := by
  induction blocks generalizing st with
  | nil => rfl
  | cons b blocks ih =>
    have hone : besides (applyIncomingBlock hasher sampler b .sync st).2 = besides st :=
      applyIncomingBlock_besides b .sync st
    rw [applyBatch]
    split
    · next st' hr =>
      rw [hr] at hone
      exact hone
    · next r st' _ hr =>
      rw [hr] at hone
      exact (ih st').trans hone

lemma mineOnce_besides {trainingSeed samplingEntropy : UInt64} {block : Block}
    (h : mineOnce hasher sampler trainingSeed samplingEntropy st = some (.ok (st', block))) :
    besides st' = besides st := by
  unfold mineOnce at h
  split at h
  · cases h
  · next mined _ =>
    split at h
    · cases h
    · next hash fc _ =>
      have hactivate : besides (activateBestChain hasher sampler { st with forkChoice := fc }).2 =
          besides st := activateBestChain_besides _
      split at h
      · cases h
      · next activated st₁ hr =>
        rw [hr] at hactivate
        cases h
        exact (persistBlock_besides block st₁).trans hactivate

lemma applyIncomingBlock_move (hasher : HashPort) (sampler : SamplingPort) {block : Block}
    (hB : B block) (source : BlockSource) (st : NodeState) :
    Move hasher sampler B st (applyIncomingBlock hasher sampler block source st).2 := by
  rcases applyIncomingBlock_cases hasher sampler block source st with
    ⟨-, hr⟩ | ⟨e, -, hr⟩ | ⟨st', hnew, hins, hstorage, hchain, hr⟩ <;> rw [hr]
  · exact .idle rfl rfl rfl
  · obtain ⟨hchain, hfc, hstorage⟩ := countRejected_frame source st
    exact .idle hchain hfc hstorage
  · exact .take block hB (.inl hnew) hins (.inl rfl) hstorage hchain

lemma applyBatch_moves {blocks : List Block} (hB : ∀ b ∈ blocks, B b) (st : NodeState) :
    Relation.ReflTransGen (Move hasher sampler B) st
      (applyBatch hasher sampler blocks st).2 := by
  induction blocks generalizing st with
  | nil => exact .refl
  | cons block blocks ih =>
    have hmove := applyIncomingBlock_move hasher sampler (hB block (by simp)) .sync st
    rw [applyBatch]
    split
    · next st' hr =>
      rw [hr] at hmove
      exact .single hmove
    · next r st' _ hr =>
      rw [hr] at hmove
      exact .head hmove (ih (fun b hb => hB b (by simp [hb])) st')

/-- **A step is a sequence of moves.** -/
theorem Step.moves (h : Step hasher sampler B st st') :
    Relation.ReflTransGen (Move hasher sampler B) st st' := by
  cases h with
  | mine _ _ h hB => exact .single (mineOnce_move h hB)
  | incoming block source hB => exact .single (applyIncomingBlock_move hasher sampler hB source st)
  | batch answer hB =>
    cases answer with
    | oversized => exact .single (.idle rfl rfl rfl)
    | refused => exact .refl
    | complete blocks =>
      simp only [settleAnswer]
      split
      · exact .refl
      · exact applyBatch_moves hB st
  | other hchain hfc hstorage => exact .single (.idle hchain hfc hstorage)

/-- What every move keeps, every run keeps. -/
theorem run_keeps {P : NodeState → Prop}
    (hmove : ∀ st st', P st → Move hasher sampler B st st' → P st')
    (hrun : Relation.ReflTransGen (Step hasher sampler B) st st') (h : P st) : P st' := by
  have hmoves : ∀ {a b : NodeState}, Relation.ReflTransGen (Move hasher sampler B) a b →
      P a → P b := by
    intro a b hab ha
    induction hab with
    | refl => exact ha
    | tail _ hbc ih => exact hmove _ _ ih hbc
  induction hrun with
  | refl => exact h
  | tail _ hbc ih => exact hmoves hbc.moves ih

/-- A node forgets no block and keeps its configuration. -/
lemma run_grows (hrun : Relation.ReflTransGen (Step hasher sampler B) st st') :
    Extends st.forkChoice.look st'.forkChoice.look ∧
      st'.forkChoice.config = st.forkChoice.config := by
  refine run_keeps (P := fun s => Extends st.forkChoice.look s.forkChoice.look ∧
    s.forkChoice.config = st.forkChoice.config) ?_ hrun ⟨Extends.refl _, rfl⟩
  rintro a b ⟨hext, hconfig⟩ hmove
  cases hmove with
  | idle _ hfc _ =>
    rw [hfc]
    exact ⟨hext, hconfig⟩
  | take block _ _ hins _ _ _ =>
    exact ⟨hext.trans (extends_of_insertBlock hins), (config_of_insertBlock hins).trans hconfig⟩

end Chesscoin.Runs
