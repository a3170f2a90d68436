import Chesscoin.Rounds

/-!
Catching up in rounds.

While the active chain of a node is the beginning of its peer's, each round brings the next
blocks, as many as an answer may hold. A node on a branch of its own is first brought to the
peer's chain: when an answer may hold as many blocks as a locator names, what it brings is
longer than the branch, or ends the peer's chain, and outweighs it either way.
-/

namespace Chesscoin.Convergence

open Chesscoin.Lib.ByteString Chesscoin.Lib.Linked Chesscoin.Lib.Parting Chesscoin.Domain
  Chesscoin.Simulator Chesscoin.Validation Chesscoin.ForkChoice Chesscoin.ForkTree
  Chesscoin.ForkInvariant Chesscoin.Wire Chesscoin.Runtime Chesscoin.Runs Chesscoin.ActiveView
  Chesscoin.WorkScores Chesscoin.Locator Chesscoin.Screening Chesscoin.Serving Chesscoin.Sync
  Chesscoin.Exchange Chesscoin.Overlap Chesscoin.Catchup Chesscoin.Rounds Chesscoin.Adapters

variable {hasher : HashPort} {sampler : SamplingPort} {addr : AddrText} {B : Block → Prop}
  {fc fc' : ForkChoiceState} {blocks : List Block} {st p : NodeState}

/-! ### The top of a tree -/

/-- Nothing in the tree ranks above the first `length` blocks of a chain, which are in it. -/
structure Tops (hasher : HashPort) (fc : ForkChoiceState) (blocks : List Block) (length : ℕ) :
    Prop where
  within : length ≤ blocks.length
  empty : length = 0 → ∀ k, fc.look k = none
  contains : ∀ i b, length = i + 1 → blocks[i]? = some b →
    fc.containsBlock (blockHash hasher b) = true
  above : ∀ i b, length = i + 1 → blocks[i]? = some b → ∀ k n, fc.look k = some n →
    rank n ≤ rankAt fc.config length (blockHash hasher b)

/-- **The active chain is the beginning of another** when nothing ranks above it. -/
theorem bestChain_of_tops (hown : OwnHashes hasher B) (h : Tree hasher sampler fc)
    (hknown : ∀ k n, fc.look k = some n → B n.block)
    (hreplayed : Replayed hasher sampler fc.config blocks) (hB : ∀ b ∈ blocks, B b) {length : ℕ}
    (htops : Tops hasher fc blocks length) :
    fc.bestChain.map (blockHash hasher) = (blocks.map (blockHash hasher)).take length := by
  have hbest := h.best
  cases length with
  | zero =>
    rcases h.walkBestChain with ⟨htip, -⟩ | ⟨tip, n, -, htip, hlook, -⟩
    · rw [Tree.bestChain_nil htip]
      rfl
    · rw [htops.empty rfl tip] at hlook
      cases hlook
  | succ i =>
    obtain ⟨b, hb⟩ : ∃ b, blocks[i]? = some b := ⟨_, List.getElem?_eq_getElem htops.within⟩
    obtain ⟨n, hn⟩ := (containsBlock_iff _).mp (htops.contains i _ rfl hb)
    rcases h.walkBestChain with ⟨htip, -⟩ | ⟨tip, m, l, htip, hm, hl, -⟩
    · rw [htip] at hbest
      rw [hbest] at hn
      cases hn
    · rw [htip] at hbest
      obtain ⟨m', hm', hmax⟩ := hbest
      rw [hm, Option.some.injEq] at hm'
      subst hm'
      have hrank := rank_on_chain hown h hknown hreplayed hB hb hn
      have hsame : rank n = rank m :=
        le_antisymm (hmax _ n hn) (hrank ▸ htops.above i _ rfl hb tip m hm)
      have hhash := hash_eq_of_rank_eq hsame
      rw [(h.stored _ n hn).hash, (h.stored _ m hm).hash] at hhash
      subst hhash
      rw [h.bestChain_eq htip hl]
      exact (branch_hashes hown h hknown hreplayed hB hb hl).2

/-- Nothing ranks above the active chain. -/
theorem tops_of_bestChain (hown : OwnHashes hasher B) (h : Tree hasher sampler fc)
    (hknown : ∀ k n, fc.look k = some n → B n.block)
    (hreplayed : Replayed hasher sampler fc.config blocks) (hB : ∀ b ∈ blocks, B b) {length : ℕ}
    (hle : length ≤ blocks.length) (hchain : fc.bestChain.map (blockHash hasher) =
      (blocks.map (blockHash hasher)).take length) : Tops hasher fc blocks length := by
  have hbest := h.best
  have hlen := congrArg List.length hchain
  rw [List.length_take, List.length_map, List.length_map, min_eq_left hle] at hlen
  rcases h.walkBestChain with ⟨htip, -⟩ | ⟨tip, m, l, htip, hm, hl, -⟩
  · rw [Tree.bestChain_nil htip, List.length_nil] at hlen
    rw [htip] at hbest
    exact ⟨hle, fun _ => hbest, fun i b hi => by omega, fun i b hi => by omega⟩
  · have hpos : 0 < l.length := List.length_pos_of_ne_nil hl.ne_nil
    have hbranch := h.bestChain_eq htip hl
    rw [hbranch, List.length_map] at hlen
    have htipHash : ∀ i b, length = i + 1 → blocks[i]? = some b → tip = blockHash hasher b := by
      intro i b hi hb
      have hlast := branch_last h hl
      rw [← hbranch, ← List.getLast?_map, hchain, hi, List.take_add_one,
        getElem?_hash.mpr ⟨b, hb, rfl⟩, Option.toList_some, List.getLast?_concat,
        Option.some.injEq] at hlast
      exact hlast.symm
    refine ⟨hle, fun hz => by omega, fun i b hi hb => ?_, fun i b hi hb k n hk => ?_⟩
    · rw [← htipHash i b hi hb]
      exact (containsBlock_iff _).mpr ⟨m, hm⟩
    · rw [htip] at hbest
      obtain ⟨m', hm', hmax⟩ := hbest
      rw [hm, Option.some.injEq] at hm'
      subst hm'
      have hhash := htipHash i b hi hb
      subst hhash
      rw [hi, ← rank_on_chain hown h hknown hreplayed hB hb hm]
      exact hmax k n hk

/-- **What is taken in of a chain tops the tree** when nothing there ranks above its end. -/
theorem tops_of_takenIn (hown : OwnHashes hasher B) {s n length : ℕ}
    (htaken : TakenIn hasher sampler B fc fc' ((blocks.drop s).take n))
    (hreplayed : Replayed hasher sampler fc.config blocks) (hB : ∀ b ∈ blocks, B b)
    (hroom : blocks.length < room fc.config) (hlength : length = min blocks.length (s + n))
    (hempty : length = 0 → ∀ k, fc.look k = none)
    (hbelow : ∀ i b, length = i + 1 → blocks[i]? = some b →
      (s ≤ i ∨ fc.containsBlock (blockHash hasher b) = true) ∧
        ∀ k m, fc.look k = some m → rank m ≤ rankAt fc.config length (blockHash hasher b)) :
    Tops hasher fc' blocks length := by
  have hreplayed' : Replayed hasher sampler fc'.config blocks := by rwa [htaken.config]
  refine ⟨by omega, fun hz k => ?_, fun i b hi hb => ?_, fun i b hi hb k m hk => ?_⟩
  · cases hk : fc'.look k with
    | none => rfl
    | some m =>
      rcases htaken.only k m hk with hold | ⟨b, hb, -⟩
      · rw [hempty hz k] at hold
        cases hold
      · have hpos := List.length_pos_of_mem hb
        rw [List.length_take, List.length_drop] at hpos
        omega
  · rcases (hbelow i b hi hb).1 with hs | hknown
    · exact htaken.contains b (mem_part.mpr ⟨i, hs, by omega, hb⟩)
    · obtain ⟨m, hm⟩ := (containsBlock_iff _).mp hknown
      exact (containsBlock_iff _).mpr ⟨m, htaken.keeps _ m hm⟩
  · rw [htaken.config]
    rcases htaken.only k m hk with hold | ⟨a, ha, rfl⟩
    · exact (hbelow i b hi hb).2 k m hold
    · obtain ⟨j, -, hhigh, hj⟩ := mem_part.mp ha
      obtain ⟨hlt, -⟩ := List.getElem?_eq_some_iff.mp hj
      rw [rank_on_chain hown htaken.tree htaken.known hreplayed' hB hj hk, htaken.config]
      rcases Nat.lt_or_ge (j + 1) length with hless | hge
      · exact (rankAt_lt hless (by omega) _ _).le
      · obtain rfl : i = j := by omega
        rw [hb, Option.some.injEq] at hj
        rw [hi, hj]

/-! ### Rounds -/

/-- What rounds with one peer rest on: the peer stands still, its scores fit, the messages get
through and no limit of its own is smaller. -/
structure Session (hasher : HashPort) (sampler : SamplingPort) (addr : AddrText)
    (B : Block → Prop) (st p : NodeState) : Prop where
  node : Active hasher sampler B st
  peer : Active hasher sampler B p
  config : p.chain.config = st.chain.config
  pass : Undisturbed addr st p
  within : WithinLimits st p
  blocks : 1 ≤ st.sync.maxBlocksPerResponse
  hashes : 1 ≤ st.sync.maxLocatorHashes
  limit : st.sync.maxBlocksPerResponse ≤ p.sync.maxBlocksPerResponse
  short : p.chain.blocks.length < room st.chain.config

lemma Session.replayed (h : Session hasher sampler addr B st p) :
    Replayed hasher sampler st.forkChoice.config p.chain.blocks := by
  rw [← Active.config h.node, ← h.config]
  exact Active.replayed h.peer

/-- A round takes in what the peer serves from where the chains part, and the next can follow. -/
theorem Session.round (hown : OwnHashes hasher B) (h : Session hasher sampler addr B st p)
    (hsight : InSight hasher st p) :
    ∃ st', syncRound hasher sampler addr (honestPeer hasher sampler addr p) st = (.ok (), st') ∧
      Session hasher sampler addr B st' p ∧ settings st' = settings st ∧
      TakenIn hasher sampler B st.forkChoice st'.forkChoice
        ((p.chain.blocks.drop (sharedLength hasher st.chain.blocks p.chain.blocks)).take
          st.sync.maxBlocksPerResponse) := by
  obtain ⟨st', hround, hactive, hsettings, htaken⟩ :=
    syncRound_takes hown h.node h.peer h.config h.pass h.within h.hashes hsight
  rw [window, min_eq_left h.limit] at htaken
  have hsync : st'.sync = st.sync := congrArg Prod.snd hsettings
  have hconfig : st'.chain.config = st.chain.config := by
    rw [Active.config hactive, htaken.config, Active.config h.node]
  refine ⟨st', hround, ⟨hactive, h.peer, hconfig ▸ h.config, undisturbed_settings hsettings h.pass,
    within_settings hsettings h.within, hsync ▸ h.blocks, hsync ▸ h.hashes,
    hsync ▸ h.limit, hconfig ▸ h.short⟩, hsettings, htaken⟩

/-- The chains agree up to `length` blocks of the peer's, where the node's ends. -/
def Follows (hasher : HashPort) (st p : NodeState) (length : ℕ) : Prop :=
  length ≤ p.chain.blocks.length ∧ st.chain.blocks.map (blockHash hasher) =
    (p.chain.blocks.map (blockHash hasher)).take length

lemma follows_of_tops (hown : OwnHashes hasher B) (h : Session hasher sampler addr B st p)
    {length : ℕ} (htops : Tops hasher st.forkChoice p.chain.blocks length) :
    Follows hasher st p length := by
  refine ⟨htops.within, ?_⟩
  rw [h.node.chain]
  exact bestChain_of_tops hown h.node.tree h.node.known h.replayed (Active.chain_known h.peer) htops

lemma Follows.length {length : ℕ} (h : Follows hasher st p length) :
    st.chain.blocks.length = length := by
  have hlen := congrArg List.length h.2
  rwa [List.length_take, List.length_map, List.length_map, min_eq_left h.1] at hlen

lemma Follows.shared {length : ℕ} (h : Follows hasher st p length) :
    sharedLength hasher st.chain.blocks p.chain.blocks = length := by
  have hprefix : st.chain.blocks.map (blockHash hasher) <+:
      p.chain.blocks.map (blockHash hasher) := by
    rw [h.2]
    exact List.take_prefix _ _
  rw [sharedLength, shared_of_prefix hprefix, List.length_map, h.length]

/-- **A round brings the next blocks** to a node on its peer's chain. -/
theorem follows_round (hown : OwnHashes hasher B) (h : Session hasher sampler addr B st p)
    {length : ℕ} (hfollows : Follows hasher st p length) :
    ∃ st', syncRound hasher sampler addr (honestPeer hasher sampler addr p) st = (.ok (), st') ∧
      Session hasher sampler addr B st' p ∧ settings st' = settings st ∧
      Follows hasher st' p
        (min p.chain.blocks.length (length + st.sync.maxBlocksPerResponse)) := by
  have hhashes := h.hashes
  have hsight : InSight hasher st p := by
    rw [InSight, hfollows.shared, hfollows.length]
    omega
  obtain ⟨st', hround, hsession, hsettings, htaken⟩ := h.round hown hsight
  rw [hfollows.shared] at htaken
  have hchain : st.forkChoice.bestChain.map (blockHash hasher) =
      (p.chain.blocks.map (blockHash hasher)).take length := by
    rw [← hfollows.2, h.node.chain]
    rfl
  have htops := tops_of_bestChain hown h.node.tree h.node.known h.replayed
    (Active.chain_known h.peer) hfollows.1 hchain
  have hshort := h.short
  have hle := hfollows.1
  rw [Active.config h.node] at hshort
  refine ⟨st', hround, hsession, hsettings, follows_of_tops hown hsession
    (tops_of_takenIn hown htaken h.replayed (Active.chain_known h.peer) hshort rfl ?_ ?_)⟩
  · intro hz
    exact htops.empty (by have := h.blocks; omega)
  · intro i b hi hb
    obtain ⟨hlt, -⟩ := List.getElem?_eq_some_iff.mp hb
    rcases Nat.lt_or_ge i length with hold | hnew
    · -- the chain of the peer has ended
      have hend : length = i + 1 := by omega
      rw [hi, ← hend]
      exact ⟨.inr (htops.contains i b hend hb), htops.above i b hend hb⟩
    · refine ⟨.inl hnew, fun k m hk => ?_⟩
      cases length with
      | zero =>
        rw [htops.empty rfl k] at hk
        cases hk
      | succ j =>
        obtain ⟨a, ha⟩ : ∃ a, p.chain.blocks[j]? = some a :=
          ⟨_, List.getElem?_eq_getElem hfollows.1⟩
        have hbelow := htops.above j a rfl ha k m hk
        rw [hi]
        exact hbelow.trans (rankAt_lt (by omega) (by omega) _ _).le

/-- **Rounds bring the chain**, so many blocks each. -/
theorem follows_rounds (hown : OwnHashes hasher B) (h : Session hasher sampler addr B st p)
    {length : ℕ} (hfollows : Follows hasher st p length) (k : ℕ) :
    Follows hasher
      (syncRounds hasher sampler addr (honestPeer hasher sampler addr p) k st) p
      (min p.chain.blocks.length (length + k * st.sync.maxBlocksPerResponse)) := by
  induction k generalizing st length with
  | zero =>
    rw [Nat.zero_mul, Nat.add_zero, min_eq_right hfollows.1]
    exact hfollows
  | succ k ih =>
    obtain ⟨st', hround, hsession, hsettings, hnext⟩ := follows_round hown h hfollows
    have hrest := ih hsession hnext
    have hsync : st'.sync = st.sync := congrArg Prod.snd hsettings
    rw [hsync] at hrest
    have hlength : min p.chain.blocks.length
        (min p.chain.blocks.length (length + st.sync.maxBlocksPerResponse) +
          k * st.sync.maxBlocksPerResponse) =
        min p.chain.blocks.length (length + (k + 1) * st.sync.maxBlocksPerResponse) := by
      rw [Nat.succ_mul]
      omega
    rw [hlength] at hrest
    rw [syncRounds, hround]
    exact hrest

/-- **One round leaves a branch behind** when an answer may hold as many blocks as a locator
names. -/
theorem forked_round (hown : OwnHashes hasher B) (h : Session hasher sampler addr B st p)
    (hmax : st.sync.maxLocatorHashes ≤ st.sync.maxBlocksPerResponse)
    (hsight : InSight hasher st p) {tip : ForkNode}
    (htip : p.forkChoice.bestTip.bind p.forkChoice.look = some tip)
    (hbetter : st.forkChoice.shouldUpdate tip = true) :
    ∃ st', syncRound hasher sampler addr (honestPeer hasher sampler addr p) st = (.ok (), st') ∧
      Session hasher sampler addr B st' p ∧ settings st' = settings st ∧
      Follows hasher st' p (min p.chain.blocks.length
        (sharedLength hasher st.chain.blocks p.chain.blocks + st.sync.maxBlocksPerResponse)) := by
  obtain ⟨head, hhead, hpos, hunknown⟩ := tip_unknown hown h.node h.peer h.config htip hbetter
  have hparted : sharedLength hasher st.chain.blocks p.chain.blocks < p.chain.blocks.length := by
    by_contra hge
    rw [shared_known h.node (by omega) hhead] at hunknown
    cases hunknown
  have hone := h.blocks
  have hbranch : st.chain.blocks.length <
      sharedLength hasher st.chain.blocks p.chain.blocks + st.sync.maxBlocksPerResponse := by
    rcases hsight with hshort | hlt <;> omega
  obtain ⟨st', hround, hsession, hsettings, htaken⟩ := h.round hown hsight
  have hshort := h.short
  rw [Active.config h.node] at hshort
  refine ⟨st', hround, hsession, hsettings, follows_of_tops hown hsession
    (tops_of_takenIn hown htaken h.replayed (Active.chain_known h.peer) hshort rfl
      (fun hz => by omega) fun i b hi hb => ⟨.inl (by omega), fun k m hk => ?_⟩)⟩
  rcases Nat.lt_or_ge st.chain.blocks.length (min p.chain.blocks.length
    (sharedLength hasher st.chain.blocks p.chain.blocks + st.sync.maxBlocksPerResponse)) with
    hlonger | hend
  · -- what is brought is longer than the branch
    obtain ⟨best, hbest, hworse⟩ := tip_not_worse h.node.tree hk
    obtain ⟨a, -, -, hrank⟩ := tip_on_chain h.node hbest
    have hle := (isBetterTip_eq_false m best).mp hworse
    rw [hrank] at hle
    exact hle.trans (rankAt_lt hlonger (by omega) _ _).le
  · -- it ends with the better tip
    obtain ⟨b', hb', -, hrank⟩ := tip_on_chain h.peer htip
    obtain rfl : i = p.chain.blocks.length - 1 := by omega
    rw [hb, Option.some.injEq] at hb'
    subst hb'
    have hlt := lt_of_shouldUpdate h.node.tree hbetter hk
    rw [hrank, ← Active.config h.peer, h.config, Active.config h.node] at hlt
    rw [hi, Nat.sub_add_cancel hpos]
    exact hlt.le

/-! ### Reachable nodes -/

lemma short_of_fits (h : Active hasher sampler B p) (hfits : ScoresFit p.forkChoice) :
    p.chain.blocks.length < room p.chain.config := by
  rw [Active.config h]
  rcases h.tree.walkBestChain with ⟨htip, -⟩ | ⟨tip, n, l, htip, -, hl, -⟩
  · have hempty : p.chain.blocks = [] := by
      rw [h.chain]
      exact Tree.bestChain_nil htip
    rw [hempty]
    exact Nat.two_pow_pos _
  · have hchain : p.chain.blocks = l.map (·.block) := by
      rw [h.chain]
      exact h.tree.bestChain_eq htip hl
    rw [hchain, List.length_map]
    exact short_of_scoresFit h.tree hfits _ l hl

lemma inSight_of_locator (hown : OwnHashes hasher B) (hst : Active hasher sampler B st)
    (hp : Active hasher sampler B p) (hconfig : p.chain.config = st.chain.config)
    (h : Digest.zero ∈ blockLocator hasher st.chain st.sync.maxLocatorHashes ∨
      ∃ b ∈ p.chain.blocks,
        blockHash hasher b ∈ blockLocator hasher st.chain st.sync.maxLocatorHashes) :
    InSight hasher st p := by
  rcases h with hz | hcommon
  · rcases mem_blockLocator hz with ⟨-, hshort⟩ | ⟨b, hb, hhash⟩
    · exact .inl hshort
    · exact absurd hhash (hown.nonzero b
        (Active.chain_known hst b (List.mem_reverse.mp (List.mem_of_mem_take hb))))
  · exact .inr (sight_of_common hown hst hp hconfig hcommon).2

/-- **Catching up converges.** A node on its peer's chain has so many blocks more after each
round. A node on a branch of its own, whose locator reaches the peer's chain or the beginning,
is on the peer's chain after a round and at its end when rounds enough have followed, provided
an answer may hold as many blocks as a locator names. -/
theorem catch_up_converges (hasher : HashPort) (sampler : SamplingPort) (addr : AddrText)
    (B : Block → Prop) (hown : OwnHashes hasher B) (st p : NodeState)
    (hst : Reachable hasher sampler addr B st) (hp : Reachable hasher sampler addr B p)
    (hconfig : p.chain.config = st.chain.config) (hfits : ScoresFit p.forkChoice)
    (hpass : Undisturbed addr st p) (hwithin : WithinLimits st p)
    (hblocks : 1 ≤ st.sync.maxBlocksPerResponse) (hhashes : 1 ≤ st.sync.maxLocatorHashes)
    (hlimit : st.sync.maxBlocksPerResponse ≤ p.sync.maxBlocksPerResponse) :
    (st.chain.blocks.map (blockHash hasher) <+: p.chain.blocks.map (blockHash hasher) → ∀ k,
      (syncRounds hasher sampler addr (honestPeer hasher sampler addr p) k
          st).chain.blocks.map (blockHash hasher) =
        (p.chain.blocks.map (blockHash hasher)).take (min p.chain.blocks.length
          (st.chain.blocks.length + k * st.sync.maxBlocksPerResponse))) ∧
    (st.sync.maxLocatorHashes ≤ st.sync.maxBlocksPerResponse →
      (Digest.zero ∈ blockLocator hasher st.chain st.sync.maxLocatorHashes ∨
        ∃ b ∈ p.chain.blocks,
          blockHash hasher b ∈ blockLocator hasher st.chain st.sync.maxLocatorHashes) →
      (∃ tip, p.forkChoice.bestTip.bind p.forkChoice.look = some tip ∧
        st.forkChoice.shouldUpdate tip = true) → ∀ k,
      1 + (p.chain.blocks.length + st.sync.maxBlocksPerResponse - 1) /
        st.sync.maxBlocksPerResponse ≤ k →
      (syncRounds hasher sampler addr (honestPeer hasher sampler addr p) k
          st).chain.blocks.map (blockHash hasher) = p.chain.blocks.map (blockHash hasher)) := by
  have hst' := Reachable.active hst hown.nonzero
  have hp' := Reachable.active hp hown.nonzero
  have hsession : Session hasher sampler addr B st p :=
    ⟨hst', hp', hconfig, hpass, hwithin, hblocks, hhashes, hlimit,
      hconfig ▸ short_of_fits hp' hfits⟩
  refine ⟨fun hprefix k => ?_, fun hmax hlocator hbetter k hk => ?_⟩
  · have hle := hprefix.length_le
    rw [List.length_map, List.length_map] at hle
    have hfollows : Follows hasher st p st.chain.blocks.length := by
      refine ⟨hle, ?_⟩
      have htake := List.prefix_iff_eq_take.mp hprefix
      rwa [List.length_map] at htake
    exact (follows_rounds hown hsession hfollows k).2
  · obtain ⟨tip, htip, hbest⟩ := hbetter
    obtain ⟨st', hround, hsession', hsettings, hfollows⟩ := forked_round hown hsession hmax
      (inSight_of_locator hown hst' hp' hconfig hlocator) htip hbest
    have hsync : st'.sync = st.sync := congrArg Prod.snd hsettings
    obtain ⟨r, rfl⟩ : ∃ r, k = 1 + r := Nat.exists_eq_add_of_le ((Nat.le_add_right 1 _).trans hk)
    have henough : p.chain.blocks.length ≤ r * st.sync.maxBlocksPerResponse := by
      have hceil := Nat.lt_succ_of_le (Nat.le_of_add_le_add_left hk)
      have hlt := (Nat.div_lt_iff_lt_mul hblocks).mp hceil
      rw [Nat.succ_mul] at hlt
      omega
    have hrest := (follows_rounds hown hsession' hfollows r).2
    rw [hsync] at hrest
    rw [Nat.add_comm, syncRounds, hround, hrest]
    refine List.take_of_length_le ?_
    rw [List.length_map]
    omega

/-! One of the rival nodes as the peer of a node without blocks, and of the other rival. -/

lemma rivalRun_settings (seed : UInt64) :
    settings (rivalRun seed).2 = (kinNetwork, Config.SyncConfig.default) :=
  applyIncomingBlock_settings (rival seed) .gossip rivalStart

lemma limits_of_settings {sync : Config.SyncConfig}
    (h : settings st = (kinNetwork, sync)) : SameLimits st.network := by
  rw [network_of_settings h]
  exact ⟨rfl, rfl⟩

lemma rival_undisturbed (h : settings st = (kinNetwork, Config.SyncConfig.default)) :
    Undisturbed noAddr st (rivalRun 2).2 := by
  have hmax : Config.SyncConfig.default.maxLocatorHashes ≤ 32 := le_rfl
  refine few_undisturbed (limits_of_settings h) (limits_of_settings (rivalRun_settings 2))
    (sync_of_settings h ▸ hmax) ?_ ?_
  · rw [rivalRun_chain.2]
    decide +kernel
  · rw [rivalRun_chain.2]
    decide +kernel

lemma rival_within (h : settings st = (kinNetwork, Config.SyncConfig.default)) :
    WithinLimits st (rivalRun 2).2 := by
  have hsize : Config.SyncConfig.default.maxBlocksPerResponse < 2 ^ 64 := by decide
  refine ⟨sync_of_settings h ▸ hsize, ?_⟩
  rw [sync_of_settings h, sync_of_settings (rivalRun_settings 2)]

lemma rival_fits : ScoresFit (rivalRun 2).2.forkChoice := by
  have hactive : Active toyHash deterministicSampler IsRival (rivalRun 2).2 :=
    Reachable.active (rivalRun_reachable (.inr rfl) : Reachable _ _ noAddr _ _) isRival_nonzero
  intro k n p hk hp _
  have hfirst : n.block.header.previousBlock = Digest.zero := by
    rcases hactive.known k n hk with hn | hn <;> rw [hn] <;> rfl
  exact absurd ((hactive.tree.stored k n hk).parent.trans hfirst) hp

lemma better_of_any {st p : NodeState}
    (h : (p.forkChoice.bestTip.bind p.forkChoice.look).any st.forkChoice.shouldUpdate = true) :
    ∃ tip, p.forkChoice.bestTip.bind p.forkChoice.look = some tip ∧
      st.forkChoice.shouldUpdate tip = true := by
  cases htip : p.forkChoice.bestTip.bind p.forkChoice.look with
  | none =>
    rw [htip] at h
    cases h
  | some tip =>
    rw [htip, Option.any_some] at h
    exact ⟨tip, rfl, h⟩

theorem catch_up_rival :
    (syncRounds toyHash deterministicSampler noAddr
        (honestPeer toyHash deterministicSampler noAddr (rivalRun 2).2) 1
          rivalStart).chain.blocks.map (blockHash toyHash) = [blockHash toyHash (rival 2)] ∧
      ∀ k, 2 ≤ k → (syncRounds toyHash deterministicSampler noAddr
        (honestPeer toyHash deterministicSampler noAddr (rivalRun 2).2) k
          (rivalRun 1).2).chain.blocks.map (blockHash toyHash) =
            [blockHash toyHash (rival 2)] := by
  have hown : OwnHashes toyHash IsRival := ⟨isRival_nonzero, isRival_distinct⟩
  have hpeer := sync_of_settings (rivalRun_settings 2)
  have hrival := sync_of_settings (rivalRun_settings 1)
  have hbetter : ((rivalRun 2).2.forkChoice.bestTip.bind (rivalRun 2).2.forkChoice.look).any
      (rivalRun 1).2.forkChoice.shouldUpdate = true := by
    decide +kernel
  have hlimits : 1 ≤ Config.SyncConfig.default.maxBlocksPerResponse ∧
      1 ≤ Config.SyncConfig.default.maxLocatorHashes := by
    decide
  constructor
  · have hconverges := (catch_up_converges toyHash deterministicSampler noAddr IsRival hown
      rivalStart (rivalRun 2).2 ⟨_, freshNode_start rivalConfig, .refl⟩
      (rivalRun_reachable (.inr rfl)) (by rw [rivalRun_chain.2]; rfl) rival_fits
      (rival_undisturbed rfl) (rival_within rfl) hlimits.1 hlimits.2 (by rw [hpeer]; rfl)).1
      (List.nil_prefix) 1
    rw [rivalRun_chain.2] at hconverges
    exact hconverges
  · have hconverges := (catch_up_converges toyHash deterministicSampler noAddr IsRival hown
      (rivalRun 1).2 (rivalRun 2).2 (rivalRun_reachable (.inl rfl))
      (rivalRun_reachable (.inr rfl)) rivalRun_config rival_fits
      (rival_undisturbed (rivalRun_settings 1)) (rival_within (rivalRun_settings 1))
      (hrival ▸ hlimits.1) (hrival ▸ hlimits.2) (by rw [hpeer, hrival])).2
    rw [rivalRun_chain.2, rivalRun_chain.1, hrival] at hconverges
    have hmax : Config.SyncConfig.default.maxLocatorHashes ≤
        Config.SyncConfig.default.maxBlocksPerResponse := by decide
    have hzero : Digest.zero ∈ blockLocator toyHash ⟨rivalConfig, [rival 1]⟩
        Config.SyncConfig.default.maxLocatorHashes :=
      zero_mem_blockLocator (by decide) (List.cons_ne_nil _ _)
    have hrounds : 1 + ([rival 2].length + Config.SyncConfig.default.maxBlocksPerResponse - 1) /
        Config.SyncConfig.default.maxBlocksPerResponse = 2 := by decide
    have hall := hconverges hmax (.inl hzero) (better_of_any hbetter)
    rw [hrounds] at hall
    exact hall

end Chesscoin.Convergence
