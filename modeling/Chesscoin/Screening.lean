import Chesscoin.ActiveView
import Chesscoin.Locator

/-!
What a peer serves after a locator, and what the node that asked accepts.

Served headers always form a chain: the peer starts in the middle of its active chain and
the rules the node checks are rules the peer's blocks have passed. The start is where they
can disagree. A peer that knows no hash of the locator starts at its first block, and a node
whose chain did not fit into the locator takes no first block; so the exchange fails when the
chains part below everything the locator names, and only then.
-/

namespace Chesscoin.Screening

open Chesscoin.Lib.Linked Chesscoin.Domain Chesscoin.Simulator Chesscoin.Validation
  Chesscoin.Mining Chesscoin.ForkChoice Chesscoin.ForkTree Chesscoin.Wire Chesscoin.Runtime
  Chesscoin.Runs Chesscoin.ActiveView Chesscoin.Locator Chesscoin.Adapters

variable {hasher : HashPort} {sampler : SamplingPort} {addr : AddrText} {config : ChainConfig}
  {blocks : List Block}

/-! ### Replayed chains -/

/-- Every block is valid after the blocks before it. -/
def Replayed (hasher : HashPort) (sampler : SamplingPort) (config : ChainConfig)
    (blocks : List Block) : Prop :=
  ∀ i b, blocks[i]? = some b →
    Valid hasher sampler config ((ChainState.mk config (blocks.take i)).headContext hasher) b

lemma applyAll_valid {c c' : ChainState} {blocks : List Block}
    (h : applyAll hasher sampler c blocks = .ok c') {i : ℕ} {b : Block}
    (hb : blocks[i]? = some b) :
    Valid hasher sampler c.config
      ((ChainState.mk c.config (c.blocks ++ blocks.take i)).headContext hasher) b := by
  induction blocks generalizing c i with
  | nil => cases hb
  | cons a blocks ih =>
    rw [applyAll] at h
    split at h
    · cases h
    · next hash c₁ happly =>
      unfold ChainState.applyBlock at happly
      split at happly
      · cases happly
      · next hok =>
        cases happly
        cases i with
        | zero =>
          cases hb
          rw [List.take_zero, List.append_nil]
          exact (validateBlockAfter_ok hasher sampler c.config (c.headContext hasher) b).mp hok
        | succ i =>
          have hv := ih h (by simpa using hb)
          simpa [List.append_assoc] using hv

lemma replayed_of_chainFromBlocks {chain : ChainState}
    (h : chainFromBlocks hasher sampler config blocks = .ok chain) :
    Replayed hasher sampler config blocks :=
  fun _ _ hb => applyAll_valid h hb

/-- The hash the block at `s` has to name. -/
def prevHash (hasher : HashPort) (blocks : List Block) (s : ℕ) : Digest :=
  ((blocks.take s).getLast?.map (blockHash hasher)).getD Digest.zero

lemma prevHash_succ {i : ℕ} {b : Block} (hb : blocks[i]? = some b) :
    prevHash hasher blocks (i + 1) = blockHash hasher b := by
  rw [prevHash, List.take_add_one, hb]
  simp

lemma Replayed.previousBlock (h : Replayed hasher sampler config blocks) {i : ℕ} {b : Block}
    (hb : blocks[i]? = some b) : b.header.previousBlock = prevHash hasher blocks i :=
  (h i b hb).previousBlock

lemma Replayed.height (h : Replayed hasher sampler config blocks) {i : ℕ} {b : Block}
    (hb : blocks[i]? = some b) : b.header.height = UInt64.ofNat i := by
  obtain ⟨hi, -⟩ := List.getElem?_eq_some_iff.mp hb
  have hheight : b.header.height = UInt64.ofNat (blocks.take i).length := (h i b hb).height
  rw [hheight, List.length_take, min_eq_left hi.le]

/-- **Served headers form a chain**, wherever the serving starts and ends. -/
theorem checkHeaders_served (h : Replayed hasher sampler config blocks) (s n : ℕ) :
    checkHeaders hasher config (UInt64.ofNat s) (prevHash hasher blocks s)
      (((blocks.drop s).take n).map (·.header)) = .ok () := by
  induction n generalizing s with
  | zero => rfl
  | succ n ih =>
    cases hb : blocks[s]? with
    | none =>
      rw [List.drop_eq_nil_of_le (List.getElem?_eq_none_iff.mp hb)]
      rfl
    | some b =>
      obtain ⟨hs, hget⟩ := List.getElem?_eq_some_iff.mp hb
      have hv := h s b hb
      have hprev := h.previousBlock hb
      have hheight := h.height hb
      have hrest := ih (s + 1)
      rw [prevHash_succ hb, UInt64.ofNat_add] at hrest
      rw [List.drop_eq_getElem_cons hs, hget, List.take_succ_cons, List.map_cons, checkHeaders]
      have hwork : ¬ (blockHeaderHash hasher b.header).leadingZeroBits <
          config.difficultyZeroBits.toNat := not_lt.mpr hv.work
      simp only [hprev, hheight, hv.sampleCount, ne_eq, not_true_eq_false, if_false, hwork]
      exact hrest

/-! ### Where serving starts -/

/-- No hash of the locator is a place to start from. -/
lemma startAfter_eq_none {hashes : List Digest} {d : Digest} :
    startAfter hashes d = none ↔ d ≠ Digest.zero ∧ d ∉ hashes := by
  unfold startAfter
  split
  · next hz => simp [hz]
  · next hz =>
    simp only [Option.map_eq_none_iff, List.findIdx?_eq_none_iff, beq_eq_false_iff_ne, ne_eq, hz,
      not_false_eq_true, true_and]
    exact ⟨fun h hmem => h d hmem rfl, fun h x hx he => h (he ▸ hx)⟩

/-- Serving starts at the first block for the zero digest, and else after a block with a hash
of the locator. -/
lemma startAfter_eq_some {d : Digest} {s : ℕ}
    (h : startAfter (blocks.map (blockHash hasher)) d = some s) :
    prevHash hasher blocks s = d ∧ (d = Digest.zero → s = 0) ∧
      (d ≠ Digest.zero → ∃ i b, s = i + 1 ∧ blocks[i]? = some b ∧ blockHash hasher b = d) := by
  unfold startAfter at h
  split at h
  · next hz =>
    cases h
    exact ⟨hz.symm, fun _ => rfl, fun hne => absurd hz hne⟩
  · next hz =>
    obtain ⟨i, hi, rfl⟩ := Option.map_eq_some_iff.mp h
    obtain ⟨hlt, hbeq, -⟩ := List.findIdx?_eq_some_iff_getElem.mp hi
    have hlen : i < blocks.length := by simpa using hlt
    have hget : blocks[i]? = some blocks[i] := List.getElem?_eq_getElem hlen
    have hd : blockHash hasher blocks[i] = d := by simpa using hbeq
    exact ⟨(prevHash_succ hget).trans hd, fun h => absurd h hz, fun _ => ⟨i, _, rfl, hget, hd⟩⟩

/-! ### What is accepted -/

/-- Screening what is served from `s` on is asking whether `s` is where it may start. -/
lemma validate_served (h : Replayed hasher sampler config blocks) {chain : ChainState}
    (hconfig : chain.config = config) {locator : List Digest} {s n : ℕ}
    (hne : (blocks.drop s).take n ≠ []) :
    validateHeadersAfterLocator hasher chain locator
        (((blocks.drop s).take n).map (·.header)) =
      match expectedStart hasher chain locator (prevHash hasher blocks s) with
      | .error () => .error ()
      | .ok height => checkHeaders hasher config height (prevHash hasher blocks s)
          (((blocks.drop s).take n).map (·.header)) := by
  obtain ⟨b, rest, hserved⟩ := List.exists_cons_of_ne_nil hne
  have hb : blocks[s]? = some b := by
    have hhead : ((blocks.drop s).take n)[0]? = some b := by rw [hserved]; rfl
    rw [List.getElem?_take] at hhead
    split at hhead
    · simpa using hhead
    · cases hhead
  rw [hserved, List.map_cons]
  cases hstart : expectedStart hasher chain locator (prevHash hasher blocks s) with
  | error e => simp only [validateHeadersAfterLocator, h.previousBlock hb, hstart]
  | ok height => simp only [validateHeadersAfterLocator, h.previousBlock hb, hstart, hconfig]

lemma mem_blockLocator {chain : ChainState} {maxHashes : ℕ} {d : Digest}
    (h : d ∈ blockLocator hasher chain maxHashes) :
    (d = Digest.zero ∧ chain.blocks.length < maxHashes) ∨
      ∃ b ∈ chain.blocks.reverse.take maxHashes, blockHash hasher b = d := by
  unfold blockLocator at h
  split at h
  · cases h
  · simp only at h
    split at h
    · next hlen =>
      rcases List.mem_append.mp h with h | h
      · exact .inr (List.mem_map.mp h)
      · refine .inl ⟨List.mem_singleton.mp h, ?_⟩
        have := hlen.1
        simp only [List.length_map, List.length_take, List.length_reverse] at this
        omega
    · exact .inr (List.mem_map.mp h)

lemma newest_mem_blockLocator {chain : ChainState} {maxHashes : ℕ} {b : Block}
    (h : b ∈ chain.blocks.reverse.take maxHashes) :
    blockHash hasher b ∈ blockLocator hasher chain maxHashes := by
  have hmem : blockHash hasher b ∈ (chain.blocks.reverse.take maxHashes).map (blockHash hasher) :=
    List.mem_map.mpr ⟨b, h, rfl⟩
  unfold blockLocator
  split
  · next hz =>
    rw [hz, List.take_zero] at h
    cases h
  · simp only
    split
    · exact List.mem_append_left _ hmem
    · exact hmem

lemma zero_mem_blockLocator {chain : ChainState} {maxHashes : ℕ}
    (hlen : chain.blocks.length < maxHashes) (hne : chain.blocks ≠ []) :
    Digest.zero ∈ blockLocator hasher chain maxHashes := by
  unfold blockLocator
  rw [if_neg (by omega)]
  simp only
  rw [if_pos]
  · simp
  · refine ⟨?_, hne⟩
    simp only [List.length_map, List.length_take, List.length_reverse]
    omega

/-- The height after a block both chains have is the same on both. -/
lemma expectedStart_common {chain : ChainState}
    (hchain : Replayed hasher sampler config chain.blocks)
    (hblocks : Replayed hasher sampler config blocks)
    (hsame : ∀ b ∈ chain.blocks, ∀ b' ∈ blocks, blockHash hasher b = blockHash hasher b' →
      b.header = b'.header)
    {locator : List Digest} {i : ℕ} {b : Block} (hb : blocks[i]? = some b)
    (hnonzero : blockHash hasher b ≠ Digest.zero) (hmem : blockHash hasher b ∈ locator)
    (hknown : ∃ a ∈ chain.blocks, blockHash hasher a = blockHash hasher b) :
    expectedStart hasher chain locator (blockHash hasher b) = .ok (UInt64.ofNat (i + 1)) := by
  rw [expectedStart, if_neg hnonzero, if_neg (not_not.mpr hmem)]
  cases hfind : (chain.blocks.map (blockHash hasher)).findIdx? (· == blockHash hasher b) with
  | none =>
    obtain ⟨a, ha, hhash⟩ := hknown
    have := List.findIdx?_eq_none_iff.mp hfind _ (List.mem_map.mpr ⟨a, ha, rfl⟩)
    simp [hhash] at this
  | some j =>
    obtain ⟨hlt, hbeq, -⟩ := List.findIdx?_eq_some_iff_getElem.mp hfind
    have hlen : j < chain.blocks.length := by simpa using hlt
    have hget : chain.blocks[j]? = some chain.blocks[j] := List.getElem?_eq_getElem hlen
    have hhash : blockHash hasher chain.blocks[j] = blockHash hasher b := by simpa using hbeq
    have hheader := hsame _ (List.getElem_mem hlen) b (List.mem_of_getElem? hb) hhash
    have hheight : UInt64.ofNat j = UInt64.ofNat i := by
      rw [← hchain.height hget, ← hblocks.height hb, hheader]
    simp only [hheight, UInt64.ofNat_add]
    rfl

/-- None of the newest `maxHashes` blocks of `chain` is on the peer's chain, and the locator
has no room for more. -/
def OutOfSight (hasher : HashPort) (chain peer : ChainState) (maxHashes : ℕ) : Prop :=
  maxHashes ≤ chain.blocks.length ∧
    ∀ b ∈ chain.blocks.reverse.take maxHashes,
      blockHash hasher b ∉ peer.blocks.map (blockHash hasher)

/-- Headers served from a place the locator names are accepted. -/
lemma accepted_of_start {chain peer : ChainState} {maxHashes s : ℕ} (limit : ℕ)
    (hchain : Replayed hasher sampler chain.config chain.blocks)
    (hpeer : Replayed hasher sampler chain.config peer.blocks)
    (hsame : ∀ b ∈ chain.blocks, ∀ b' ∈ peer.blocks, blockHash hasher b = blockHash hasher b' →
      b.header = b'.header) {d : Digest} (hd : d ∈ blockLocator hasher chain maxHashes)
    (hstart : startAfter (peer.blocks.map (blockHash hasher)) d = some s) :
    validateHeadersAfterLocator hasher chain (blockLocator hasher chain maxHashes)
      (((peer.blocks.drop s).take limit).map (·.header)) = .ok () := by
  by_cases hne : (peer.blocks.drop s).take limit = []
  · rw [hne]
    rfl
  · have hserved := checkHeaders_served hpeer s limit
    obtain ⟨hprev, hzero, hblock⟩ := startAfter_eq_some hstart
    rw [validate_served hpeer rfl hne]
    by_cases hz : d = Digest.zero
    · have hs := hzero hz
      subst hz hs
      rw [hprev] at hserved ⊢
      rw [expectedStart, if_pos rfl, if_neg (by simp [hd])]
      exact hserved
    · obtain ⟨i, b, rfl, hb, hhash⟩ := hblock hz
      have hknown : ∃ a ∈ chain.blocks, blockHash hasher a = blockHash hasher b := by
        rcases mem_blockLocator hd with ⟨hz', -⟩ | ⟨a, ha, hah⟩
        · exact absurd hz' hz
        · exact ⟨a, List.mem_reverse.mp (List.mem_of_mem_take ha), hah.trans hhash.symm⟩
      have hexpected := expectedStart_common hchain hpeer hsame hb (hhash ▸ hz) (hhash ▸ hd) hknown
      rw [hprev, ← hhash, hexpected]
      rw [hprev, ← hhash] at hserved
      exact hserved

/-- A place that a hash of the locator leads to is in sight. -/
lemma in_sight_of_start {chain peer : ChainState} {maxHashes s : ℕ} {d : Digest}
    (hnonzero : ∀ b ∈ chain.blocks, blockHash hasher b ≠ Digest.zero)
    (hd : d ∈ blockLocator hasher chain maxHashes)
    (hstart : startAfter (peer.blocks.map (blockHash hasher)) d = some s) :
    ¬ OutOfSight hasher chain peer maxHashes := by
  rintro ⟨hlen, hout⟩
  obtain ⟨-, -, hblock⟩ := startAfter_eq_some hstart
  rcases mem_blockLocator hd with ⟨-, hlt⟩ | ⟨a, ha, hah⟩
  · omega
  · have hz : d ≠ Digest.zero := by
      rw [← hah]
      exact hnonzero a (List.mem_reverse.mp (List.mem_of_mem_take ha))
    obtain ⟨i, b, -, hb, hhash⟩ := hblock hz
    refine hout a ha (List.mem_map.mpr ⟨b, List.mem_of_getElem? hb, ?_⟩)
    rw [hhash, hah]

/-- A peer that knows no hash of the locator serves its first blocks, and they are accepted by
an empty chain only. -/
lemma accepted_unknown_iff {chain peer : ChainState} {maxHashes limit : ℕ} (hmax : 1 ≤ maxHashes)
    (hpeer : Replayed hasher sampler chain.config peer.blocks)
    (hunknown : ∀ d ∈ blockLocator hasher chain maxHashes,
      d ≠ Digest.zero ∧ d ∉ peer.blocks.map (blockHash hasher)) :
    validateHeadersAfterLocator hasher chain (blockLocator hasher chain maxHashes)
        (((peer.blocks.drop 0).take limit).map (·.header)) = .ok () ↔
      ¬ (OutOfSight hasher chain peer maxHashes ∧ peer.blocks ≠ [] ∧ limit ≠ 0) := by
  by_cases hne : (peer.blocks.drop 0).take limit = []
  · rw [hne]
    refine iff_of_true rfl ?_
    rintro ⟨-, hblocks, hlimit⟩
    rcases List.take_eq_nil_iff.mp hne with h | h
    · exact hlimit h
    · exact hblocks h
  · rw [validate_served hpeer rfl hne]
    have hzero : prevHash hasher peer.blocks 0 = Digest.zero := rfl
    have hserved := checkHeaders_served hpeer 0 limit
    rw [hzero] at hserved ⊢
    have hz : Digest.zero ∉ blockLocator hasher chain maxHashes :=
      fun hmem => (hunknown _ hmem).1 rfl
    by_cases hempty : chain.blocks = []
    · rw [expectedStart, if_pos rfl, if_neg (by simp [hempty])]
      refine iff_of_true hserved ?_
      rintro ⟨⟨hlen, -⟩, -, -⟩
      rw [hempty, List.length_nil] at hlen
      omega
    · rw [expectedStart, if_pos rfl, if_pos ⟨hempty, hz⟩]
      refine iff_of_false (by simp) (not_not.mpr ⟨⟨?_, ?_⟩, ?_, ?_⟩)
      · by_contra hlt
        exact hz (zero_mem_blockLocator (by omega) hempty)
      · exact fun b hb => (hunknown _ (newest_mem_blockLocator hb)).2
      · rintro h
        exact hne (by rw [h]; simp)
      · rintro rfl
        exact hne (List.take_zero)

/-- **Screening accepts what is served exactly when the chains are in sight of each other**, or
nothing is served. -/
theorem accepted_iff {chain peer : ChainState} {maxHashes limit : ℕ} (hmax : 1 ≤ maxHashes)
    (hchain : Replayed hasher sampler chain.config chain.blocks)
    (hpeer : Replayed hasher sampler chain.config peer.blocks)
    (hnonzero : ∀ b ∈ chain.blocks, blockHash hasher b ≠ Digest.zero)
    (hsame : ∀ b ∈ chain.blocks, ∀ b' ∈ peer.blocks, blockHash hasher b = blockHash hasher b' →
      b.header = b'.header) :
    validateHeadersAfterLocator hasher chain (blockLocator hasher chain maxHashes)
        (headersAfterLocator hasher peer (blockLocator hasher chain maxHashes) limit) = .ok () ↔
      ¬ (OutOfSight hasher chain peer maxHashes ∧ peer.blocks ≠ [] ∧ limit ≠ 0) := by
  simp only [headersAfterLocator, blocksAfterLocator]
  cases hfind : (blockLocator hasher chain maxHashes).findSome?
      (startAfter (peer.blocks.map (blockHash hasher))) with
  | some s =>
    obtain ⟨d, hd, hstart⟩ := List.exists_of_findSome?_eq_some hfind
    have hok := accepted_of_start limit hchain hpeer hsame hd hstart
    rw [Option.getD_some]
    exact iff_of_true hok fun hout => in_sight_of_start hnonzero hd hstart hout.1
  | none =>
    rw [Option.getD_none]
    exact accepted_unknown_iff hmax hpeer fun d hd =>
      startAfter_eq_none.mp (List.findSome?_eq_none_iff.mp hfind d hd)

/-! ### Reachable nodes -/

variable {B : Block → Prop}

lemma bestChain_known {fc : ForkChoiceState} (h : Tree hasher sampler fc)
    (hknown : ∀ k n, fc.look k = some n → B n.block) : ∀ b ∈ fc.bestChain, B b := by
  intro b hb
  rcases h.walkBestChain with ⟨htip, -⟩ | ⟨tip, n, l, htip, -, hbranch, -⟩
  · rw [Tree.bestChain_nil htip] at hb
    cases hb
  · rw [h.bestChain_eq htip hbranch] at hb
    obtain ⟨m, hm, rfl⟩ := List.mem_map.mp hb
    obtain ⟨k, hk⟩ := hbranch.stored m hm
    exact hknown k m hk

lemma Active.replayed {st : NodeState} (h : Active hasher sampler B st) :
    Replayed hasher sampler st.chain.config st.chain.blocks := by
  rw [h.chain]
  exact replayed_of_chainFromBlocks (chainFromBlocks_bestChain h.tree)

lemma Active.chain_known {st : NodeState} (h : Active hasher sampler B st) :
    ∀ b ∈ st.chain.blocks, B b := by
  rw [h.chain]
  exact bestChain_known h.tree h.known

/-- **Server and screener**, for nodes in any states they can come to. The headers one serves
for the other's locator are accepted unless the asking node's chain has at least as many blocks
as the locator may name, none of these is on the serving node's chain, and a header is
served. -/
theorem screening_accepts_iff (hasher : HashPort) (sampler : SamplingPort) (addr : AddrText)
    (B : Block → Prop) (hnonzero : ∀ b, B b → blockHash hasher b ≠ Digest.zero)
    (hdistinct : ∀ b b', B b → B b' → blockHash hasher b = blockHash hasher b' →
      b.header = b'.header)
    (asker server : NodeState) (hasker : Reachable hasher sampler addr B asker)
    (hserver : Reachable hasher sampler addr B server)
    (hconfig : server.chain.config = asker.chain.config) (maxHashes limit : ℕ)
    (hmax : 1 ≤ maxHashes) :
    validateHeadersAfterLocator hasher asker.chain (blockLocator hasher asker.chain maxHashes)
        (headersAfterLocator hasher server.chain (blockLocator hasher asker.chain maxHashes)
          limit) = .ok () ↔
      ¬ (maxHashes ≤ asker.chain.blocks.length ∧
          (∀ b ∈ asker.chain.blocks.reverse.take maxHashes,
            blockHash hasher b ∉ server.chain.blocks.map (blockHash hasher)) ∧
          server.chain.blocks ≠ [] ∧ limit ≠ 0) := by
  have hl := Reachable.active hasker hnonzero
  have hs := Reachable.active hserver hnonzero
  have hserverChain := Active.replayed hs
  rw [hconfig] at hserverChain
  rw [accepted_iff hmax (Active.replayed hl) hserverChain
    (fun b hb => hnonzero b (Active.chain_known hl b hb))
    (fun b hb b' hb' => hdistinct b b' (Active.chain_known hl b hb) (Active.chain_known hs b' hb')),
    OutOfSight, and_assoc]

/-! Two nodes that have each taken in a first block of their own. -/

def rivalConfig : ChainConfig := ⟨1, 1, 0⟩

def rival (seed : UInt64) : Block := candidate toyHash rivalConfig ParentContext.genesis seed 0 0

def rivalStart : NodeState := freshNode rivalConfig none

def rivalRun (seed : UInt64) : BlockApplication × NodeState :=
  applyIncomingBlock toyHash deterministicSampler (rival seed) .gossip rivalStart

def IsRival (b : Block) : Prop := b = rival 1 ∨ b = rival 2

lemma isRival_nonzero : ∀ b, IsRival b → blockHash toyHash b ≠ Digest.zero := by
  rintro b (rfl | rfl)
  · decide +kernel
  · decide +kernel

lemma isRival_distinct : ∀ b b', IsRival b → IsRival b' →
    blockHash toyHash b = blockHash toyHash b' → b.header = b'.header := by
  have hne : blockHash toyHash (rival 1) ≠ blockHash toyHash (rival 2) := by decide +kernel
  rintro b b' (rfl | rfl) (rfl | rfl) hhash
  · rfl
  · exact absurd hhash hne
  · exact absurd hhash.symm hne
  · rfl

lemma rivalRun_reachable {B : Block → Prop} {seed : UInt64} (h : B (rival seed)) :
    Reachable toyHash deterministicSampler addr B (rivalRun seed).2 :=
  ⟨rivalStart, freshNode_start rivalConfig, .single (.incoming (rival seed) .gossip h)⟩

lemma rivalRun_chain :
    (rivalRun 1).2.chain = ⟨rivalConfig, [rival 1]⟩ ∧
      (rivalRun 2).2.chain = ⟨rivalConfig, [rival 2]⟩ := by
  decide +kernel

lemma rivalRun_config : (rivalRun 2).2.chain.config = (rivalRun 1).2.chain.config := by
  rw [rivalRun_chain.1, rivalRun_chain.2]

/-- With room for two hashes the rivals are in sight of each other. -/
theorem screening_accepts_rival :
    validateHeadersAfterLocator toyHash (rivalRun 1).2.chain
      (blockLocator toyHash (rivalRun 1).2.chain 2)
      (headersAfterLocator toyHash (rivalRun 2).2.chain
        (blockLocator toyHash (rivalRun 1).2.chain 2) 128) = .ok () := by
  refine (screening_accepts_iff toyHash deterministicSampler ⟨fun _ => [], fun _ => none⟩ IsRival
    isRival_nonzero isRival_distinct (rivalRun 1).2 (rivalRun 2).2
    (rivalRun_reachable (.inl rfl)) (rivalRun_reachable (.inr rfl)) rivalRun_config 2 128
    (by decide)).mpr fun h => ?_
  have hlen := h.1
  rw [rivalRun_chain.1] at hlen
  exact absurd hlen (by decide)

/-- With room for one hash they are not, and what an honest node serves is refused. -/
theorem screening_refuses_rival :
    Reachable toyHash deterministicSampler ⟨fun _ => [], fun _ => none⟩ IsRival (rivalRun 1).2 ∧
      Reachable toyHash deterministicSampler ⟨fun _ => [], fun _ => none⟩ IsRival
        (rivalRun 2).2 ∧
      (∀ b, IsRival b → blockHash toyHash b ≠ Digest.zero) ∧
      (∀ b b', IsRival b → IsRival b' → blockHash toyHash b = blockHash toyHash b' →
        b.header = b'.header) ∧
      (rivalRun 2).2.chain.config = (rivalRun 1).2.chain.config ∧
      validateHeadersAfterLocator toyHash (rivalRun 1).2.chain
        (blockLocator toyHash (rivalRun 1).2.chain 1)
        (headersAfterLocator toyHash (rivalRun 2).2.chain
          (blockLocator toyHash (rivalRun 1).2.chain 1) 128) = .error () := by
  refine ⟨rivalRun_reachable (.inl rfl), rivalRun_reachable (.inr rfl), isRival_nonzero,
    isRival_distinct, rivalRun_config, ?_⟩
  rw [rivalRun_chain.1, rivalRun_chain.2]
  decide +kernel

end Chesscoin.Screening
