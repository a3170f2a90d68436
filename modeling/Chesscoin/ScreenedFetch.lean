import Chesscoin.Catchup

/-!
Between the headers and the blocks.

A node lets go of its state after it has made its locator, after it has screened the headers,
and before it takes the blocks in; the peer goes on in the meantime. What was screened can
still be taken in. The peer's chain may have grown by blocks the locator names, but then its
old head was on the node's chain and no headers were served. And the node forgets nothing, so
the block below the screened ones is still known.
-/

namespace Chesscoin.ScreenedFetch

open Chesscoin.Lib.Linked Chesscoin.Lib.Parting Chesscoin.Domain Chesscoin.Simulator
  Chesscoin.Validation Chesscoin.Mining Chesscoin.ForkChoice Chesscoin.ForkTree
  Chesscoin.ForkInvariant Chesscoin.Wire Chesscoin.Runtime Chesscoin.Runs Chesscoin.ActiveView
  Chesscoin.Locator Chesscoin.Screening Chesscoin.SyncBatch Chesscoin.Serving Chesscoin.Exchange
  Chesscoin.Overlap Chesscoin.Catchup Chesscoin.Adapters

variable {hasher : HashPort} {sampler : SamplingPort} {addr : AddrText} {B : Block → Prop}
  {st st' : NodeState}

/-! ### What a run keeps -/

/-- A chain that has a block has one ever after. -/
lemma chain_ne_nil (h : Active hasher sampler B st) (h' : Active hasher sampler B st')
    (hext : Extends st.forkChoice.look st'.forkChoice.look) (hne : st.chain.blocks ≠ []) :
    st'.chain.blocks ≠ [] := by
  obtain ⟨b, rest, hb⟩ := List.exists_cons_of_ne_nil hne
  have hmem : b ∈ st.forkChoice.bestChain := by
    have hchain : st.forkChoice.bestChain = b :: rest := by
      rw [← hb, h.chain]
      rfl
    rw [hchain]
    exact List.mem_cons_self
  obtain ⟨n, hn⟩ := (containsBlock_iff _).mp (bestChain_contains h.tree b hmem)
  have hbest := h'.tree.best
  rcases h'.tree.walkBestChain with ⟨htip, -⟩ | ⟨tip, m, l, htip, -, hl, -⟩
  · rw [htip] at hbest
    have hlook := hext _ _ hn
    rw [hbest] at hlook
    cases hlook
  · have hchain : st'.chain.blocks = l.map (·.block) := by
      rw [h'.chain]
      exact h'.tree.bestChain_eq htip hl
    rw [hchain]
    simpa using hl.ne_nil

/-! ### The peer -/

section Peer

variable {chain screening : ChainState} {maxHashes : ℕ} {locator : List Digest}
  {bs cs : List Block}

/-- **The peer serves from the same place**, when it has served headers that were accepted and
its chain has grown since. -/
theorem leadsTo_grown (hloc : locator = blockLocator hasher chain maxHashes)
    (hparts : Parts (chain.blocks.map (blockHash hasher)) (bs.map (blockHash hasher)))
    (hparts' : Parts (chain.blocks.map (blockHash hasher)) (cs.map (blockHash hasher)))
    (hnonzero : ∀ b ∈ chain.blocks, blockHash hasher b ≠ Digest.zero) (hgrow : bs <+: cs)
    (hreplayed : Replayed hasher sampler screening.config bs)
    (hkept : chain.blocks ≠ [] → screening.blocks ≠ []) {n : ℕ}
    (hne : (bs.drop (leadsTo hasher bs locator)).take n ≠ [])
    (hscreen : validateHeadersAfterLocator hasher screening locator
      (((bs.drop (leadsTo hasher bs locator)).take n).map (·.header)) = .ok ()) :
    leadsTo hasher cs locator = leadsTo hasher bs locator := by
  subst hloc
  have hshared : sharedLength hasher chain.blocks bs =
      min (sharedLength hasher chain.blocks cs) bs.length := by
    have hprefix : bs.map (blockHash hasher) <+: cs.map (blockHash hasher) := hgrow.map _
    have hmin : shared (chain.blocks.map (blockHash hasher)) (bs.map (blockHash hasher)) = _ :=
      shared_prefix_right hprefix
    rwa [List.length_map] at hmin
  have hbs := leadsTo_blockLocator chain maxHashes hparts hnonzero
  rw [leadsTo_blockLocator chain maxHashes hparts' hnonzero, hbs]
  rcases Nat.lt_or_ge bs.length (sharedLength hasher chain.blocks cs) with hlt | hge
  · exfalso
    have hall : sharedLength hasher chain.blocks bs = bs.length := by omega
    have hle : sharedLength hasher chain.blocks bs ≤ chain.blocks.length :=
      sharedLength_le_left _ _
    rw [hbs] at hne hscreen
    by_cases hsight : chain.blocks.length - maxHashes < sharedLength hasher chain.blocks bs
    · -- the locator reaches the old head, after which nothing is served
      rw [if_pos hsight, hall, List.drop_length, List.take_nil] at hne
      exact hne rfl
    · -- it reaches nothing of the old chain, and the node refuses a first block
      rw [if_neg hsight] at hne hscreen
      have hlen : bs.length ≠ 0 := fun hz => hne (by rw [List.length_eq_zero_iff.mp hz]; simp)
      rw [hall] at hle
      have hchain : chain.blocks ≠ [] := List.ne_nil_of_length_pos (by omega)
      have hzero : Digest.zero ∉ blockLocator hasher chain maxHashes := by
        intro hmem
        rcases mem_blockLocator hmem with ⟨-, hshort⟩ | ⟨b, hb, hz⟩
        · omega
        · exact hnonzero b (List.mem_reverse.mp (List.mem_of_mem_take hb)) hz
      rw [validate_served hreplayed rfl hne, prevHash_zero, expectedStart, if_pos rfl,
        if_pos ⟨hkept hchain, hzero⟩] at hscreen
      cases hscreen
  · rw [hshared, min_eq_left hge]

/-- A grown chain has the blocks it had. -/
lemma part_grown (h : bs <+: cs) (s n m : ℕ) (hm : ((bs.drop s).take n).length ≤ m) :
    (cs.drop s).take (min ((bs.drop s).take n).length m) = (bs.drop s).take n := by
  obtain ⟨rest, rfl⟩ := h
  have hlen : ((bs.drop s).take n).length = min n (bs.length - s) := by
    rw [List.length_take, List.length_drop]
  rw [min_eq_left hm, hlen]
  rcases Nat.lt_or_ge bs.length s with hlt | hle
  · rw [Nat.sub_eq_zero_of_le hlt.le, Nat.min_zero, List.take_zero,
      List.drop_eq_nil_of_le hlt.le, List.take_nil]
  · have hinside : min n (bs.length - s) ≤ (bs.drop s).length := by
      rw [List.length_drop]
      exact min_le_right _ _
    rw [List.drop_append_of_le_length hle, List.take_append_of_le_length hinside,
      List.take_eq_take_iff, List.length_drop]
    omega

/-- **The peer serves the blocks of the headers.** -/
theorem blocks_served_again (hloc : locator = blockLocator hasher chain maxHashes)
    (hparts : Parts (chain.blocks.map (blockHash hasher)) (bs.map (blockHash hasher)))
    (hparts' : Parts (chain.blocks.map (blockHash hasher)) (cs.map (blockHash hasher)))
    (hnonzero : ∀ b ∈ chain.blocks, blockHash hasher b ≠ Digest.zero) (hgrow : bs <+: cs)
    (hreplayed : Replayed hasher sampler screening.config bs)
    (hkept : chain.blocks ≠ [] → screening.blocks ≠ []) {n m : ℕ} (hm : n ≤ m)
    (hscreen : validateHeadersAfterLocator hasher screening locator
      (((bs.drop (leadsTo hasher bs locator)).take n).map (·.header)) = .ok ()) :
    (cs.drop (leadsTo hasher cs locator)).take
        (min ((bs.drop (leadsTo hasher bs locator)).take n).length m) =
      (bs.drop (leadsTo hasher bs locator)).take n := by
  by_cases hnone : (bs.drop (leadsTo hasher bs locator)).take n = []
  · rw [hnone, List.length_nil, Nat.zero_min, List.take_zero]
  · rw [leadsTo_grown hloc hparts hparts' hnonzero hgrow hreplayed hkept hnone hscreen]
    refine part_grown hgrow _ n m ?_
    rw [List.length_take]
    exact (min_le_left _ _).trans hm

end Peer

/-! ### The node -/

/-- A peer that answers with headers has found the locator short enough. -/
lemma served_headers {serving : NodeState} {locator : List Digest} {limit : Usize}
    {headers : List BlockHeader}
    (h : (handleMessage hasher sampler (.getHeaders locator limit) true serving).responses =
      [.headers headers]) :
    ¬ serving.sync.maxLocatorHashes < locator.length ∧
      headersAfterLocator hasher serving.chain locator (responseLimit limit serving) =
        headers := by
  have hshort : ¬ serving.sync.maxLocatorHashes < locator.length := by
    intro hlong
    simp only [handleMessage, respondWithin, if_pos hlong] at h
    cases h
  refine ⟨hshort, ?_⟩
  simpa only [handleMessage, respondWithin, if_neg hshort, respond, serveHeaders,
    List.cons.injEq, PeerMessage.headers.injEq, and_true] using h

/-- Blocks whose headers were accepted go in: what they build on is still known. -/
lemma screened_part_inserts {screening applying : NodeState} {bs : List Block} {s n : ℕ}
    {locator : List Digest} (hown : OwnHashes hasher B) (hscr : Active hasher sampler B screening)
    (happ : Active hasher sampler B applying)
    (hext : Extends screening.forkChoice.look applying.forkChoice.look)
    (hscrChain : Replayed hasher sampler screening.chain.config bs)
    (happChain : Replayed hasher sampler applying.forkChoice.config bs) (hB : ∀ b ∈ bs, B b)
    (hscreen : validateHeadersAfterLocator hasher screening.chain locator
      (((bs.drop s).take n).map (·.header)) = .ok ()) :
    ∃ trial, insertBatch hasher sampler applying.forkChoice ((bs.drop s).take n) = .ok trial := by
  by_cases hne : (bs.drop s).take n = []
  · rw [hne]
    exact ⟨_, rfl⟩
  · have hparent := parent_known_of_screened hscr hscrChain hne hscreen
    refine insertBatch_part hown happ.tree happ.known happChain hB _ _
      (hparent.imp_right fun hknown => ?_)
    obtain ⟨m, hm⟩ := (containsBlock_iff _).mp hknown
    exact (containsBlock_iff _).mpr ⟨m, hext _ _ hm⟩

/-- **A screened sync goes through.** When the headers a peer served have been accepted, the
peer's chain may grow before it is asked for the blocks, and the node may mine and take in
blocks before it has them: the blocks served are those of the headers, all of them are taken in,
and the tip afterwards is not worse than the last of them. -/
theorem screened_fetch_succeeds (hasher : HashPort) (sampler : SamplingPort) (addr : AddrText)
    (B : Block → Prop) (hown : OwnHashes hasher B) (asking screening applying : NodeState)
    (serving grown : NodeState) (maxHashes : ℕ) (limit : Usize) (headers : List BlockHeader)
    (locator : List Digest) (hlocator : locator = blockLocator hasher asking.chain maxHashes)
    (hasking : Reachable hasher sampler addr B asking)
    (hscreening : Relation.ReflTransGen (Step hasher sampler B) asking screening)
    (happlying : Relation.ReflTransGen (Step hasher sampler B) screening applying)
    (hserving : Reachable hasher sampler addr B serving)
    (hgrown : Reachable hasher sampler addr B grown)
    (hgrow : serving.chain.blocks <+: grown.chain.blocks)
    (hsync : grown.sync = serving.sync)
    (hconfig : serving.chain.config = asking.chain.config)
    (hconfig' : grown.chain.config = asking.chain.config)
    (hserved : (handleMessage hasher sampler (.getHeaders locator limit) true
      serving).responses = [.headers headers])
    (hscreen : validateHeadersAfterLocator hasher screening.chain locator headers = .ok ()) :
    ∃ blocks applied,
      (handleMessage hasher sampler
        (.getBlocksByLocator locator (UInt64.ofNat headers.length)) true grown).responses =
          blockMessages blocks ∧
      blocks.map (blockHash hasher) = headers.map (blockHeaderHash hasher) ∧
      validateSyncBatch hasher sampler blocks applying = .ok () ∧
      applyBatch hasher sampler blocks applying = (.ok (), applied) ∧
      (∀ header ∈ headers,
        applied.forkChoice.containsBlock (blockHeaderHash hasher header) = true) ∧
      ∀ header, headers.getLast? = some header → ∃ last best,
        applied.forkChoice.look (blockHeaderHash hasher header) = some last ∧
        applied.forkChoice.bestTip.bind applied.forkChoice.look = some best ∧
        isBetterTip last best = false := by
  have hask := Reachable.active hasking hown.nonzero
  have hscr := Reachable.active (Reachable.run hasking hscreening) hown.nonzero
  have happ := Reachable.active
    (Reachable.run (Reachable.run hasking hscreening) happlying) hown.nonzero
  have hser := Reachable.active hserving hown.nonzero
  have hgro := Reachable.active hgrown hown.nonzero
  obtain ⟨hext, hkept⟩ := run_grows hscreening
  obtain ⟨hext', hkept'⟩ := run_grows happlying
  have hscrConfig : screening.chain.config = asking.chain.config := by
    rw [Active.config hscr, hkept, Active.config hask]
  have hparts : ∀ {bs : List Block}, Replayed hasher sampler asking.chain.config bs →
      (∀ b ∈ bs, B b) → Parts (asking.chain.blocks.map (blockHash hasher))
        (bs.map (blockHash hasher)) := fun hbs hB =>
    replayed_parts hown (Active.replayed hask) hbs (Active.chain_known hask) hB
  have hserChain : Replayed hasher sampler asking.chain.config serving.chain.blocks :=
    hconfig ▸ Active.replayed hser
  have hgroChain : Replayed hasher sampler asking.chain.config grown.chain.blocks :=
    hconfig' ▸ Active.replayed hgro
  -- what is served, before and after the chain has grown
  obtain ⟨hshort, rfl⟩ := served_headers hserved
  have hagain := blocks_served_again hlocator (hparts hserChain (Active.chain_known hser))
    (hparts hgroChain (Active.chain_known hgro))
    (fun b hb => hown.nonzero b (Active.chain_known hask b hb)) hgrow
    (hscrConfig ▸ hserChain) (chain_ne_nil hask hscr hext) (min_le_right _ _) hscreen
  rw [headersAfterLocator, blocksAfterLocator_eq] at hscreen ⊢
  have happConfig : applying.forkChoice.config = asking.chain.config := by
    rw [hkept', hkept, Active.config hask]
  obtain ⟨trial, hins⟩ := screened_part_inserts hown hscr happ hext' (hscrConfig ▸ hserChain)
    (happConfig ▸ hserChain) (Active.chain_known hser) hscreen
  have hB : ∀ b ∈ (serving.chain.blocks.drop (leadsTo hasher serving.chain.blocks locator)).take
      (responseLimit limit serving), B b := fun b hb =>
    Active.chain_known hser b (List.mem_of_mem_drop (List.mem_of_mem_take hb))
  obtain ⟨hvalidate, applied, happly, -, rfl, hactive, -⟩ := settle_complete hown happ hB hins
  have hcontains := (insertBatch_takenIn happ.tree happ.known hB hins).contains
  refine ⟨_, applied, ?_, (headers_hashes _).symm, hvalidate, happly, ?_, ?_⟩
  · have husize : ((serving.chain.blocks.drop (leadsTo hasher serving.chain.blocks
        locator)).take (responseLimit limit serving)).length < 2 ^ 64 := by
      rw [List.length_take]
      exact lt_of_le_of_lt ((min_le_left _ _).trans (min_le_left _ _)) (UInt64.toNat_lt limit)
    simp only [handleMessage, respondWithin, hsync, if_neg hshort, respond,
      serveBlocksByLocator, blocksAfterLocator_eq, List.length_map, responseLimit_ofNat husize]
    exact congrArg blockMessages hagain
  · intro header hheader
    obtain ⟨b, hb, rfl⟩ := List.mem_map.mp hheader
    exact hcontains b hb
  · intro header hlast
    obtain ⟨b, hb, rfl⟩ := List.mem_map.mp (List.mem_of_getLast? hlast)
    obtain ⟨last, hlook⟩ := (containsBlock_iff _).mp (hcontains b hb)
    obtain ⟨best, htip, hbetter⟩ := tip_not_worse hactive.tree hlook
    exact ⟨last, best, hlook, htip, hbetter⟩

/-! The peer mines on after it has served its headers, and the node has taken the block of the
headers in by gossip before the batch comes. -/

def rivalNext : Block :=
  candidate toyHash rivalConfig
    ⟨1, blockHash toyHash (rival 2), (rival 2).header.modelAfter⟩ 3 0 0

def grownRun : BlockApplication × NodeState :=
  applyIncomingBlock toyHash deterministicSampler rivalNext .gossip (rivalRun 2).2

def gossipedRun : BlockApplication × NodeState :=
  applyIncomingBlock toyHash deterministicSampler (rival 2) .gossip (rivalRun 1).2

lemma rivals_own : OwnHashes toyHash (· ∈ [rival 1, rival 2, rivalNext]) := by
  refine ⟨?_, ?_⟩
  · have h : ∀ b ∈ [rival 1, rival 2, rivalNext], blockHash toyHash b ≠ Digest.zero := by
      decide +kernel
    exact h
  · have h : ∀ b ∈ [rival 1, rival 2, rivalNext], ∀ b' ∈ [rival 1, rival 2, rivalNext],
        blockHash toyHash b = blockHash toyHash b' → b.header = b'.header := by decide +kernel
    exact fun b b' hb hb' => h b hb b' hb'

lemma grownRun_chain : grownRun.2.chain = ⟨rivalConfig, [rival 2, rivalNext]⟩ := by
  decide +kernel

theorem screened_fetch_grown : ∃ blocks applied,
    blocks.map (blockHash toyHash) = [rival 2].map (blockHash toyHash) ∧
    (handleMessage toyHash deterministicSampler (.getBlocksByLocator
      (blockLocator toyHash (rivalRun 1).2.chain 2) 1) true grownRun.2).responses =
        blockMessages blocks ∧
    validateSyncBatch toyHash deterministicSampler blocks gossipedRun.2 = .ok () ∧
    applyBatch toyHash deterministicSampler blocks gossipedRun.2 = (.ok (), applied) := by
  have hserved : (handleMessage toyHash deterministicSampler
      (.getHeaders (blockLocator toyHash (rivalRun 1).2.chain 2) 128) true
      (rivalRun 2).2).responses = [.headers [(rival 2).header]] := by
    decide +kernel
  have hscreen : validateHeadersAfterLocator toyHash (rivalRun 1).2.chain
      (blockLocator toyHash (rivalRun 1).2.chain 2) [(rival 2).header] = .ok () := by
    decide +kernel
  have hfirst : rival 1 ∈ [rival 1, rival 2, rivalNext] := by simp
  have hsecond : rival 2 ∈ [rival 1, rival 2, rivalNext] := by simp
  have hserving : Reachable toyHash deterministicSampler ⟨fun _ => [], fun _ => none⟩
      (· ∈ [rival 1, rival 2, rivalNext]) (rivalRun 2).2 := rivalRun_reachable hsecond
  have hgrown : Reachable toyHash deterministicSampler ⟨fun _ => [], fun _ => none⟩
      (· ∈ [rival 1, rival 2, rivalNext]) grownRun.2 :=
    Reachable.run hserving (.single (.incoming rivalNext .gossip (by simp)))
  have hgossiped : Step toyHash deterministicSampler (· ∈ [rival 1, rival 2, rivalNext])
      (rivalRun 1).2 gossipedRun.2 := .incoming (rival 2) .gossip hsecond
  have hgrow : (rivalRun 2).2.chain.blocks <+: grownRun.2.chain.blocks := by
    rw [grownRun_chain, rivalRun_chain.2]
    exact ⟨[rivalNext], rfl⟩
  have hconfig : grownRun.2.chain.config = (rivalRun 1).2.chain.config := by
    rw [grownRun_chain, rivalRun_chain.1]
  have hsync : grownRun.2.sync = (rivalRun 2).2.sync := by
    have hsettings : settings grownRun.2 = settings (rivalRun 2).2 := by
      rw [grownRun, applyIncomingBlock_settings]
    rw [settings, settings, Prod.mk.injEq] at hsettings
    exact hsettings.2
  obtain ⟨blocks, applied, hresponses, hhashes, hvalidate, happly, -⟩ :=
    screened_fetch_succeeds toyHash deterministicSampler ⟨fun _ => [], fun _ => none⟩
      (· ∈ [rival 1, rival 2, rivalNext]) rivals_own (rivalRun 1).2 (rivalRun 1).2 gossipedRun.2
      (rivalRun 2).2 grownRun.2 2 128 [(rival 2).header] _ rfl (rivalRun_reachable hfirst)
      .refl (.single hgossiped) hserving hgrown hgrow hsync rivalRun_config hconfig hserved
      hscreen
  exact ⟨blocks, applied, hhashes, hresponses, hvalidate, happly⟩

end Chesscoin.ScreenedFetch
