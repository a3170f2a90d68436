import Chesscoin.Heads

/-!
What it takes to undo a block.

A chain that replaces the active one is at least as long, and above the point where the two part it
has nothing in common with it. So a block leaves the active chain only when there are as many
blocks on another branch, each with its own work, as there were from it to the head.
-/

namespace Chesscoin.Confirmations

open Chesscoin.Lib.Parting Chesscoin.Domain Chesscoin.Simulator Chesscoin.Validation
  Chesscoin.ForkChoice Chesscoin.ForkTree Chesscoin.ForkInvariant Chesscoin.Wire Chesscoin.Runtime
  Chesscoin.Runs Chesscoin.ActiveView Chesscoin.WorkScores Chesscoin.Locator Chesscoin.Screening
  Chesscoin.Overlap Chesscoin.Catchup Chesscoin.Rounds Chesscoin.Heads Chesscoin.Adapters

variable {hasher : HashPort} {sampler : SamplingPort} {addr : AddrText} {B : Block → Prop}
  {config : ChainConfig} {as bs : List Block} {st st' : NodeState}

/-- The hashes a node knows of blocks that have the work and are not on a chain. -/
def rivals (hasher : HashPort) (blocks : List Block) (st : NodeState) : Finset Digest :=
  st.forkChoice.nodes.keys.filter fun k =>
    k ∉ blocks.map (blockHash hasher) ∧
      st.forkChoice.config.difficultyZeroBits.toNat ≤ k.leadingZeroBits

lemma mem_rivals {k : Digest} : k ∈ rivals hasher as st ↔
    st.forkChoice.containsBlock k = true ∧ k ∉ as.map (blockHash hasher) ∧
      st.forkChoice.config.difficultyZeroBits.toNat ≤ k.leadingZeroBits := by
  rw [rivals, Finset.mem_filter, Finmap.mem_keys, ← Finmap.lookup_isSome]
  rfl

/-- A chain does not come by the same hash twice. -/
lemma replayed_nodup (hown : OwnHashes hasher B) (ha : Replayed hasher sampler config as)
    (hasB : ∀ b ∈ as, B b) : (as.map (blockHash hasher)).Nodup := by
  refine List.nodup_iff_getElem?_ne_getElem?.mpr fun i j hij hj heq => ?_
  have hi := List.getElem?_eq_getElem (hij.trans hj)
  have hj' := List.getElem?_eq_getElem hj
  rw [hi, hj', Option.some.injEq] at heq
  obtain ⟨hsame, -⟩ := replayed_parts hown ha ha hasB hasB i j _ hi (by rw [hj', heq])
  omega

/-- **Above a block that is not on it**, a chain has nothing in common with the one that the block
is on. -/
lemma parts_above {as bs : List Digest} (hparts : Parts as bs) {i : ℕ} {b : Digest}
    (hb : as[i]? = some b) (hleft : b ∉ bs) {a : Digest} (ha : a ∈ bs.drop i) : a ∉ as := by
  intro hmem
  obtain ⟨m, hm⟩ := List.mem_iff_getElem?.mp hmem
  obtain ⟨n, hn⟩ := List.mem_iff_getElem?.mp ha
  rw [List.getElem?_drop] at hn
  obtain ⟨rfl, htake⟩ := hparts m (i + n) a hm hn
  refine hleft ?_
  cases n with
  | zero =>
    rw [Nat.add_zero] at hm hn
    rw [hm, Option.some.injEq] at hb
    rw [← hb]
    exact List.mem_of_getElem? hn
  | succ n =>
    -- both chains have the block below the common one
    have hbelow : (as.take (i + (n + 1)))[i]? = some b := by
      rw [List.getElem?_take, if_pos (by omega), hb]
    rw [htake] at hbelow
    exact List.mem_of_mem_take (List.mem_of_getElem? hbelow)

/-- **A block leaves for as many others.** Along a run, a block of the active chain stays on it, or
as many blocks that were not on that chain are known, each with the work, as the chain had from the
block to its head. -/
theorem confirmations_hold (hasher : HashPort) (sampler : SamplingPort) (addr : AddrText)
    (B : Block → Prop) (hown : OwnHashes hasher B) (st st' : NodeState)
    (hreach : Reachable hasher sampler addr B st)
    (hrun : Relation.ReflTransGen (Step hasher sampler B) st st')
    (hfits : ScoresFit st'.forkChoice) (i : ℕ) (b : Block) (hb : st.chain.blocks[i]? = some b) :
    blockHash hasher b ∈ st'.chain.blocks.map (blockHash hasher) ∨
      st.chain.blocks.length - i ≤ (rivals hasher st.chain.blocks st').card := by
  by_cases hstays : blockHash hasher b ∈ st'.chain.blocks.map (blockHash hasher)
  · exact .inl hstays
  · right
    have hst := Reachable.active hreach hown.nonzero
    have hlater := later_of_run hst hown.nonzero hrun
    have hst' := hlater.active
    have hlen := hlater.length_le hst hfits
    have hconfig : st'.chain.config = st.chain.config := by
      rw [Active.config hst', hlater.config, Active.config hst]
    have hreplayed' := Active.replayed hst'
    have hknown' := Active.chain_known hst'
    have hnodup := replayed_nodup hown hreplayed' hknown'
    rw [hconfig] at hreplayed'
    have hparts := replayed_parts hown (Active.replayed hst) hreplayed' (Active.chain_known hst)
      hknown'
    have hget : (st.chain.blocks.map (blockHash hasher))[i]? = some (blockHash hasher b) :=
      getElem?_hash.mpr ⟨b, hb, rfl⟩
    have hsub : ((st'.chain.blocks.map (blockHash hasher)).drop i).toFinset ⊆
        rivals hasher st.chain.blocks st' := by
      intro k hk
      have hdrop := List.mem_toFinset.mp hk
      obtain ⟨a, ha, rfl⟩ := List.mem_map.mp (List.mem_of_mem_drop hdrop)
      obtain ⟨j, hj⟩ := List.mem_iff_getElem?.mp ha
      refine mem_rivals.mpr ⟨?_, parts_above hparts hget hstays hdrop, ?_⟩
      · rw [hst'.chain] at ha
        exact bestChain_contains hst'.tree a ha
      · rw [← Active.config hst', hconfig]
        exact (hreplayed' j a hj).work
    calc st.chain.blocks.length - i
        ≤ ((st'.chain.blocks.map (blockHash hasher)).drop i).length := by
          rw [List.length_drop, List.length_map]
          exact Nat.sub_le_sub_right hlen i
      _ = ((st'.chain.blocks.map (blockHash hasher)).drop i).toFinset.card :=
          (List.toFinset_card_of_nodup (hnodup.sublist (List.drop_sublist _ _))).symm
      _ ≤ (rivals hasher st.chain.blocks st').card := Finset.card_le_card hsub

theorem confirmations_hold_swayed :
    1 ≤ (rivals toyHash (rivalRun 1).2.chain.blocks swayed).card := by
  have hreach : Reachable toyHash deterministicSampler noAddr IsRival (rivalRun 1).2 :=
    rivalRun_reachable (.inl rfl)
  have hrun : Relation.ReflTransGen (Step toyHash deterministicSampler IsRival) (rivalRun 1).2
      swayed := .single (.incoming (rival 2) .gossip (.inr rfl))
  have htree := ((Reachable.active hreach isRival_nonzero).run isRival_nonzero hrun).tree
  have hleft : blockHash toyHash (rival 1) ∉ swayed.chain.blocks.map (blockHash toyHash) := by
    rw [swayed_facts.1]
    decide +kernel
  have hhold := confirmations_hold toyHash deterministicSampler noAddr IsRival
    ⟨isRival_nonzero, isRival_distinct⟩ (rivalRun 1).2 swayed hreach hrun
    (scoresFit_of_count htree swayed_facts.2) 0 (rival 1) (by rw [rivalRun_chain.1]; rfl)
  have hmany := hhold.resolve_left hleft
  have hlen : (rivalRun 1).2.chain.blocks.length = 1 := by rw [rivalRun_chain.1]; rfl
  rwa [hlen] at hmany

end Chesscoin.Confirmations
