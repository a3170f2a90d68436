import Chesscoin.Lib.Spread
import Chesscoin.Turns

/-!
A network that does nothing but sync.

The nodes take passes over their peers, one pass after the other, in any order. No call brings a
block that nobody knew, so blocks can only be missing for so long: when every node has had its turn
and nobody has learnt anything, no node has a better tip than one that asks it. Where everyone can
be reached from everyone, all active chains are then one, and it is the best of those there were.
-/

namespace Chesscoin.Spreading

open Chesscoin.Lib.Linked Chesscoin.Lib.Spread Chesscoin.Lib.Text Chesscoin.Domain
  Chesscoin.Simulator Chesscoin.Validation Chesscoin.ForkChoice Chesscoin.ForkTree
  Chesscoin.ForkInvariant Chesscoin.Wire Chesscoin.Runtime Chesscoin.Runs Chesscoin.ActiveView
  Chesscoin.WorkScores Chesscoin.Locator Chesscoin.Screening Chesscoin.Serving Chesscoin.Sync
  Chesscoin.Exchange Chesscoin.Overlap Chesscoin.Catchup Chesscoin.Rounds Chesscoin.Convergence
  Chesscoin.Passes Chesscoin.Heads Chesscoin.Turns Chesscoin.Adapters

variable {hasher : HashPort} {sampler : SamplingPort} {addr : AddrText} {B : Block → Prop}
  {st p : NodeState} {ι : Type*} {listens : SocketAddr → Option ι} {nodes : ι → NodeState}

/-! ### The network -/

variable [DecidableEq ι]

/-- The network after a pass of one of its nodes. -/
def pass (hasher : HashPort) (sampler : SamplingPort) (addr : AddrText)
    (listens : SocketAddr → Option ι) (nodes : ι → NodeState) (i : ι) : ι → NodeState :=
  Function.update nodes i
    (syncOnce hasher sampler addr (dial hasher sampler addr listens nodes) (nodes i)).2

/-- The network after passes, one after the other. -/
def passes (hasher : HashPort) (sampler : SamplingPort) (addr : AddrText)
    (listens : SocketAddr → Option ι) (nodes : ι → NodeState) (turns : List ι) : ι → NodeState :=
  turns.foldl (pass hasher sampler addr listens) nodes

/-- One node has another among its peers. -/
def Asks (listens : SocketAddr → Option ι) (nodes : ι → NodeState) (i j : ι) : Prop :=
  ∃ address ∈ (nodes i).peers, listens address = some j

/-- A chain of blocks that some node knows. -/
def KnownChain (nodes : ι → NodeState) (blocks : List Block) : Prop :=
  ∃ i k l, Branch Digest.zero ForkNode.parent (nodes i).forkChoice.look k l ∧
    blocks = l.map (·.block)

/-- What a network rests on: nodes of one configuration and with the same limits, which leave room
for a locator in an answer; messages about blocks of the run get through; a locator reaches below
the point where any two chains part; and everyone can be reached from everyone. -/
structure Joined (hasher : HashPort) (sampler : SamplingPort) (addr : AddrText) (B : Block → Prop)
    (listens : SocketAddr → Option ι) (nodes : ι → NodeState) : Prop where
  reachable : ∀ i, Reachable hasher sampler addr B (nodes i)
  config : ∀ i j, (nodes i).chain.config = (nodes j).chain.config
  fits : ∀ i, ScoresFit (nodes i).forkChoice
  sync : ∀ i j, (nodes i).sync = (nodes j).sync
  hashes : ∀ i, 1 ≤ (nodes i).sync.maxLocatorHashes
  answers : ∀ i, (nodes i).sync.maxLocatorHashes ≤ (nodes i).sync.maxBlocksPerResponse
  usize : ∀ i, (nodes i).sync.maxBlocksPerResponse < 2 ^ 64
  clear : ∀ i j blocks, Replayed hasher sampler (nodes i).chain.config blocks →
    (∀ b ∈ blocks, B b) → Undisturbed addr (nodes i)
      { nodes j with chain := ⟨(nodes j).chain.config, blocks⟩ }
  sight : ∀ i as bs, KnownChain nodes as → KnownChain nodes bs →
    as.length < (nodes i).sync.maxLocatorHashes ∨
      as.length - (nodes i).sync.maxLocatorHashes < sharedLength hasher as bs
  connected : ∀ i j, Relation.ReflTransGen (Asks listens nodes) i j

/-- What is known of a network that has been syncing since it was `nodes`. -/
structure Since (hasher : HashPort) (sampler : SamplingPort) (B : Block → Prop)
    (nodes later : ι → NodeState) : Prop where
  each : ∀ i, Passed hasher sampler B nodes (nodes i) (later i)
  peers : ∀ i, (nodes i).peers <+: (later i).peers

variable {later : ι → NodeState}

omit [DecidableEq ι] in
lemma Joined.active (h : Joined hasher sampler addr B listens nodes) (hown : OwnHashes hasher B)
    (i : ι) : Active hasher sampler B (nodes i) := Reachable.active (h.reachable i) hown.nonzero

omit [DecidableEq ι] in
lemma Joined.since (h : Joined hasher sampler addr B listens nodes) (hown : OwnHashes hasher B) :
    Since hasher sampler B nodes nodes :=
  ⟨fun i => .of_untouched (h.active hown i) ⟨rfl, rfl, rfl, rfl⟩, fun _ => List.prefix_rfl⟩

omit [DecidableEq ι] in
lemma Since.config (h : Joined hasher sampler addr B listens nodes) (hown : OwnHashes hasher B)
    (hsince : Since hasher sampler B nodes later) (i j : ι) :
    (later i).chain.config = (nodes j).chain.config := by
  rw [Active.config (hsince.each i).active, (hsince.each i).config,
    ← Active.config (h.active hown i), h.config i j]

omit [DecidableEq ι] in
lemma Since.sync (h : Joined hasher sampler addr B listens nodes)
    (hsince : Since hasher sampler B nodes later) (i j : ι) :
    (later i).sync = (nodes j).sync :=
  (congrArg Prod.snd (hsince.each i).settings).trans (h.sync i j)

omit [DecidableEq ι] in
/-- What someone knows, someone knew. -/
lemma Since.origin (hsince : Since hasher sampler B nodes later) {i : ι} {k : Digest}
    (hk : (later i).forkChoice.containsBlock k = true) :
    ∃ j, (nodes j).forkChoice.containsBlock k = true := by
  rcases (hsince.each i).only k hk with hold | hj
  · exact ⟨i, hold⟩
  · exact hj

/-! ### Chains and their hashes -/

/-- A key stands for one branch, in every tree that has it. -/
lemma branch_hashes_eq (hown : OwnHashes hasher B) {fc fc' : ForkChoiceState}
    (h : Tree hasher sampler fc) (hknown : ∀ k n, fc.look k = some n → B n.block)
    (h' : Tree hasher sampler fc') (hknown' : ∀ k n, fc'.look k = some n → B n.block)
    (hconfig : fc.config = fc'.config) {k : Digest} {l l' : List ForkNode}
    (hl : Branch Digest.zero ForkNode.parent fc.look k l)
    (hl' : Branch Digest.zero ForkNode.parent fc'.look k l') :
    (l.map (·.block)).map (blockHash hasher) = (l'.map (·.block)).map (blockHash hasher) := by
  obtain ⟨n, hn, hreplay, -⟩ := h'.replay_branch hl'
  rw [← hconfig] at hreplay
  have hB : ∀ b ∈ l'.map (·.block), B b := by
    intro b hb
    obtain ⟨m, hm, rfl⟩ := List.mem_map.mp hb
    obtain ⟨k', hk'⟩ := hl'.stored m hm
    exact hknown' k' m hk'
  obtain ⟨b, hb, hhash⟩ := Option.map_eq_some_iff.mp (branch_last h' hl')
  rw [List.getLast?_eq_getElem?] at hb
  obtain ⟨hlt, -⟩ := List.getElem?_eq_some_iff.mp hb
  subst hhash
  obtain ⟨-, hhashes⟩ :=
    branch_hashes hown h hknown (replayed_of_chainFromBlocks hreplay) hB hb hl
  rw [hhashes]
  exact List.take_of_length_le (by rw [List.length_map]; omega)

omit [DecidableEq ι] in
/-- **An active chain is one that somebody knew**, hash by hash, unless it is empty. -/
theorem chain_origin (hown : OwnHashes hasher B) (h : Joined hasher sampler addr B listens nodes)
    (hsince : Since hasher sampler B nodes later) (i : ι) :
    (later i).chain.blocks = [] ∨ ∃ blocks, KnownChain nodes blocks ∧
      blocks.map (blockHash hasher) = (later i).chain.blocks.map (blockHash hasher) := by
  have hactive := (hsince.each i).active
  rw [hactive.chain]
  rcases hactive.tree.walkBestChain with ⟨htip, -⟩ | ⟨tip, n, l, htip, hlook, hl, -⟩
  · exact .inl (Tree.bestChain_nil htip)
  · obtain ⟨j, hj⟩ := hsince.origin ((containsBlock_iff tip).mpr ⟨n, hlook⟩)
    obtain ⟨m, hm⟩ := (containsBlock_iff tip).mp hj
    obtain ⟨l', hl'⟩ := (h.active hown j).tree.rooted tip m hm
    have hconfig : (nodes j).forkChoice.config = (later i).forkChoice.config := by
      rw [(hsince.each i).config, ← Active.config (h.active hown j),
        ← Active.config (h.active hown i), h.config j i]
    refine .inr ⟨_, ⟨j, tip, l', hl', rfl⟩, ?_⟩
    rw [branch_hashes_eq hown (h.active hown j).tree (h.active hown j).known hactive.tree
      hactive.known hconfig hl' hl]
    exact congrArg _ (hactive.tree.bestChain_eq htip hl).symm

lemma sharedLength_congr {as as' bs bs' : List Block}
    (ha : as.map (blockHash hasher) = as'.map (blockHash hasher))
    (hb : bs.map (blockHash hasher) = bs'.map (blockHash hasher)) :
    sharedLength hasher as bs = sharedLength hasher as' bs' := by
  rw [sharedLength, sharedLength, ha, hb]

lemma length_of_hashes {as bs : List Block}
    (h : as.map (blockHash hasher) = bs.map (blockHash hasher)) : as.length = bs.length := by
  have hlen := congrArg List.length h
  rwa [List.length_map, List.length_map] at hlen

/-! ### Conditions on the way -/

lemma undisturbed_peer {q : NodeState} (h : Undisturbed addr st p)
    (hnetwork : q.network = p.network) (hblocks : q.chain.blocks = p.chain.blocks) :
    Undisturbed addr st q := by
  refine ⟨?_, ?_, ?_, ?_, ?_⟩
  · rw [hnetwork]
    exact h.headersRequest
  · rw [hnetwork]
    exact h.blocksRequest
  · rw [hnetwork, hblocks]
    exact h.headers
  · rw [hnetwork, hblocks]
    exact h.blocks
  · rw [hnetwork]
    exact h.endBlocks

omit [DecidableEq ι] in
/-- Every node goes on being one that can be called. -/
lemma Since.allHonest (hown : OwnHashes hasher B) (h : Joined hasher sampler addr B listens nodes)
    (hsince : Since hasher sampler B nodes later) (i : ι) :
    AllHonest hasher sampler addr B later (later i) := by
  intro j
  have hconfig : (later j).chain.config = (later i).chain.config := by
    rw [hsince.config h hown j i, hsince.config h hown i i]
  refine ⟨(hsince.each j).active, hconfig, ?_, ?_⟩
  · refine undisturbed_settings (hsince.each i).settings (undisturbed_peer (h.clear i j
      (later j).chain.blocks ?_ (Active.chain_known (hsince.each j).active))
      (congrArg Prod.fst (hsince.each j).settings) rfl)
    rw [← hsince.config h hown j i]
    exact Active.replayed (hsince.each j).active
  · refine ⟨?_, ?_⟩
    · rw [hsince.sync h i i]
      exact h.usize i
    · rw [hsince.sync h i i, hsince.sync h j i]

omit [DecidableEq ι] in
/-- Known chains are short. -/
lemma Joined.short (hown : OwnHashes hasher B) (h : Joined hasher sampler addr B listens nodes)
    {blocks : List Block} (hchain : KnownChain nodes blocks) (i : ι) :
    blocks.length < room (nodes i).chain.config := by
  obtain ⟨j, k, l, hl, rfl⟩ := hchain
  rw [List.length_map, h.config i j, Active.config (h.active hown j)]
  exact short_of_scoresFit (h.active hown j).tree (h.fits j) k l hl

omit [DecidableEq ι] in
/-- **Every better tip is in sight**, and what may be served at once reaches above the node's own
chain. -/
theorem Since.seesBetter (hown : OwnHashes hasher B)
    (h : Joined hasher sampler addr B listens nodes)
    (hsince : Since hasher sampler B nodes later) (i : ι) :
    SeesBetter hasher later (later i) := by
  intro j tip htip _
  have hsync := hsince.sync h i i
  have hhashes := h.hashes i
  have hanswers := h.answers i
  obtain ⟨b, hb, hpos, -⟩ := tip_on_chain (hsince.each j).active htip
  obtain ⟨bs, hbs, hpeer⟩ := (chain_origin hown h hsince j).resolve_left fun hnil => by
    rw [hnil] at hpos
    exact absurd hpos (Nat.lt_irrefl 0)
  have hsight : InSight hasher (later i) (later j) := by
    rw [InSight, hsync]
    rcases chain_origin hown h hsince i with hnil | ⟨as, has, hown⟩
    · rw [hnil, List.length_nil]
      omega
    · rw [← sharedLength_congr hown hpeer, ← length_of_hashes hown]
      exact h.sight i as bs has hbs
  refine ⟨hsight, ?_, ?_⟩
  · rw [hsince.config h hown i i, ← length_of_hashes hpeer]
    exact h.short hown hbs i
  · rw [InSight, hsync] at hsight
    rw [hsince.sync h j i, hsync, min_self]
    omega

/-! ### Turns -/

lemma pass_self (i : ι) : pass hasher sampler addr listens nodes i i =
    (syncOnce hasher sampler addr (dial hasher sampler addr listens nodes) (nodes i)).2 :=
  Function.update_self i _ _

lemma pass_other {i j : ι} (h : j ≠ i) :
    pass hasher sampler addr listens nodes i j = nodes j :=
  Function.update_of_ne h _ _

lemma passes_cons (i : ι) (turns : List ι) :
    passes hasher sampler addr listens nodes (i :: turns) =
      passes hasher sampler addr listens (pass hasher sampler addr listens nodes i) turns := rfl

/-- What a pass does to each node of the network. -/
lemma pass_passed (hown : OwnHashes hasher B) (h : Joined hasher sampler addr B listens nodes)
    (hsince : Since hasher sampler B nodes later) (i j : ι) :
    Passed hasher sampler B later (later j) (pass hasher sampler addr listens later i j) ∧
      (later j).peers <+: (pass hasher sampler addr listens later i j).peers := by
  by_cases hj : j = i
  · subst hj
    rw [pass_self]
    exact ⟨syncOnce_passed hown listens (hsince.each j).active (hsince.allHonest hown h j),
      syncOnce_peers _ _⟩
  · rw [pass_other hj]
    exact ⟨.of_untouched (hsince.each j).active ⟨rfl, rfl, rfl, rfl⟩, List.prefix_rfl⟩

/-- **A pass keeps what is known of the network.** -/
theorem Since.pass (hown : OwnHashes hasher B) (h : Joined hasher sampler addr B listens nodes)
    (hsince : Since hasher sampler B nodes later) (i : ι) :
    Since hasher sampler B nodes (Spreading.pass hasher sampler addr listens later i) := by
  refine ⟨fun j => ?_, fun j => (hsince.peers j).trans (pass_passed hown h hsince i j).2⟩
  obtain ⟨hpassed, -⟩ := pass_passed hown h hsince i j
  have hbefore := hsince.each j
  refine ⟨hpassed.active, hpassed.settings.trans hbefore.settings,
    hpassed.config.trans hbefore.config, hbefore.keeps.trans hpassed.keeps, fun k hk => .inr ?_⟩
  rcases hpassed.only k hk with hk | ⟨j', hk⟩
  · exact hsince.origin hk
  · exact hsince.origin hk

lemma Since.passes (hown : OwnHashes hasher B) (h : Joined hasher sampler addr B listens nodes)
    (hsince : Since hasher sampler B nodes later) (turns : List ι) :
    Since hasher sampler B nodes (Spreading.passes hasher sampler addr listens later turns) := by
  induction turns generalizing later with
  | nil => exact hsince
  | cons i turns ih => exact ih (hsince.pass hown h i)

/-- Nobody forgets in a round. -/
lemma passes_keep (hown : OwnHashes hasher B) (h : Joined hasher sampler addr B listens nodes)
    (hsince : Since hasher sampler B nodes later) (turns : List ι) (j : ι) :
    Extends (later j).forkChoice.look
      (passes hasher sampler addr listens later turns j).forkChoice.look := by
  induction turns generalizing later with
  | nil => exact Extends.refl _
  | cons i turns ih =>
    exact (pass_passed hown h hsince i j).1.keeps.trans (ih (hsince.pass hown h i))

/-- **A round that teaches nothing** leaves all chains as they are, and no node that had its turn
has a peer with a better tip. -/
theorem passes_quiet (hown : OwnHashes hasher B) (h : Joined hasher sampler addr B listens nodes)
    (hsince : Since hasher sampler B nodes later) (turns : List ι)
    (hquiet : ∀ i k, (passes hasher sampler addr listens later turns i).forkChoice.containsBlock k
      = true → (later i).forkChoice.containsBlock k = true) :
    (∀ j, Untouched (later j) (passes hasher sampler addr listens later turns j)) ∧
      ∀ i ∈ turns, ∀ j, Asks listens nodes i j → ∀ tip,
        (later j).forkChoice.bestTip.bind (later j).forkChoice.look = some tip →
          (later i).forkChoice.shouldUpdate tip = false := by
  induction turns generalizing later with
  | nil => exact ⟨fun j => ⟨rfl, rfl, rfl, rfl⟩, fun _ hi => absurd hi List.not_mem_nil⟩
  | cons i turns ih =>
    rw [passes_cons] at hquiet ⊢
    have hafter := hsince.pass hown h i
    have hself : ∀ k, (syncOnce hasher sampler addr (dial hasher sampler addr listens later)
        (later i)).2.forkChoice.containsBlock k = true →
          (later i).forkChoice.containsBlock k = true := by
      intro k hk
      refine hquiet i k (containsBlock_mono (passes_keep hown h hafter turns i) ?_)
      rwa [pass_self]
    obtain ⟨hsame, hnone⟩ := syncOnce_quiet hown listens (hsince.each i).active
      (hsince.allHonest hown h i) (by rw [hsince.sync h i i]; exact h.hashes i)
      (hsince.seesBetter hown h i) hself
    have huntouched : ∀ j, Untouched (later j) (pass hasher sampler addr listens later i j) := by
      intro j
      by_cases hj : j = i
      · subst hj
        rwa [pass_self]
      · rw [pass_other hj]
        exact ⟨rfl, rfl, rfl, rfl⟩
    obtain ⟨hrest, hothers⟩ := ih hafter fun j k hk => by
      rw [(huntouched j).forkChoice]
      exact hquiet j k hk
    refine ⟨fun j => (huntouched j).trans (hrest j), fun i' hi' j hasks tip htip => ?_⟩
    rcases List.mem_cons.mp hi' with rfl | hi'
    · obtain ⟨address, haddress, hlisten⟩ := hasks
      exact hnone address ((hsince.peers _).subset haddress) j hlisten tip htip
    · rw [← (huntouched i').forkChoice]
      refine hothers i' hi' j hasks tip ?_
      rwa [(huntouched j).forkChoice]

/-! ### Arriving -/

/-- No tip of the one is better than that of the other. -/
lemma tipRank_le_of_quiet (h : ∀ tip, p.forkChoice.bestTip.bind p.forkChoice.look = some tip →
    st.forkChoice.shouldUpdate tip = false) : tipRank p.forkChoice ≤ tipRank st.forkChoice := by
  cases hrank : tipRank p.forkChoice with
  | bot => exact bot_le
  | coe r =>
    obtain ⟨tip, n, htip, hlook, rfl⟩ := tipRank_some hrank
    have hnot := h n (by rw [htip, Option.bind_some, hlook])
    unfold ForkChoiceState.shouldUpdate at hnot
    split at hnot
    · cases hnot
    · next best hbest =>
      rw [tipRank, hbest]
      exact WithBot.coe_le_coe.mpr ((isBetterTip_eq_false n best).mp hnot)

/-- Every node's tip is worth no less than any block there was. -/
def AtTop (nodes later : ι → NodeState) : Prop :=
  ∀ i j k n, (nodes j).forkChoice.look k = some n →
    (rank n : WithBot (ℕ ×ₗ ℕ ×ₗ ℕ)) ≤ tipRank (later i).forkChoice

lemma AtTop.passes (hown : OwnHashes hasher B) (h : Joined hasher sampler addr B listens nodes)
    (hsince : Since hasher sampler B nodes later) (htop : AtTop nodes later) (turns : List ι) :
    AtTop nodes (Spreading.passes hasher sampler addr listens later turns) := by
  intro i j k n hk
  exact (htop i j k n hk).trans (tipRank_mono ((hsince.passes hown h turns).each i).active.tree
    (passes_keep hown h hsince turns i))

/-- **A round that teaches nothing has arrived.** -/
theorem atTop_of_quiet (hown : OwnHashes hasher B) (h : Joined hasher sampler addr B listens nodes)
    (hsince : Since hasher sampler B nodes later) {turns : List ι} (hfair : ∀ i, i ∈ turns)
    (hquiet : ∀ i k, (passes hasher sampler addr listens later turns i).forkChoice.containsBlock k
      = true → (later i).forkChoice.containsBlock k = true) :
    AtTop nodes (passes hasher sampler addr listens later turns) := by
  obtain ⟨hsame, hnone⟩ := passes_quiet hown h hsince turns hquiet
  intro i j k n hk
  rw [(hsame i).forkChoice]
  have hkept := (hsince.each j).keeps k n hk
  refine (rank_le_tipRank (hsince.each j).active.tree hkept).trans ?_
  exact worth_le_of_reach (fun i => tipRank (later i).forkChoice)
    (fun a b hasks => tipRank_le_of_quiet (hnone a (hfair a) b hasks)) (h.connected i j)

omit [DecidableEq ι] in
/-- A block of the network is worth the same to all that know it. -/
lemma rank_eq (hown : OwnHashes hasher B) (h : Joined hasher sampler addr B listens nodes)
    (hsince : Since hasher sampler B nodes later) {i j : ι} {k : Digest} {n m : ForkNode}
    (hn : (later i).forkChoice.look k = some n) (hm : (nodes j).forkChoice.look k = some m) :
    rank n = rank m := by
  have hactive := (hsince.each i).active
  have hstart := h.active hown j
  have hconfig : (later i).forkChoice.config = (nodes j).forkChoice.config := by
    rw [(hsince.each i).config, ← Active.config (h.active hown i), ← Active.config hstart,
      h.config i j]
  obtain ⟨l, hl⟩ := hactive.tree.rooted k n hn
  obtain ⟨l', hl'⟩ := hstart.tree.rooted k m hm
  have hlen := length_of_hashes (branch_hashes_eq hown hactive.tree hactive.known hstart.tree
    hstart.known hconfig hl hl')
  rw [List.length_map, List.length_map] at hlen
  rw [rank_branch hactive.tree hl hn, rank_branch hstart.tree hl' hm, hlen, hconfig]

omit [DecidableEq ι] in
/-- At the top, no tip is better than another. -/
lemma AtTop.le (hown : OwnHashes hasher B) (h : Joined hasher sampler addr B listens nodes)
    (hsince : Since hasher sampler B nodes later) (htop : AtTop nodes later) (i j : ι) :
    tipRank (later i).forkChoice ≤ tipRank (later j).forkChoice := by
  cases hrank : tipRank (later i).forkChoice with
  | bot => exact bot_le
  | coe r =>
    obtain ⟨tip, n, -, hlook, rfl⟩ := tipRank_some hrank
    obtain ⟨a, ha⟩ := hsince.origin ((containsBlock_iff tip).mpr ⟨n, hlook⟩)
    obtain ⟨m, hm⟩ := (containsBlock_iff tip).mp ha
    rw [rank_eq hown h hsince hlook hm]
    exact htop j a tip m hm

omit [DecidableEq ι] in
/-- **At the top there is one chain**, hash by hash. -/
theorem AtTop.agree (hown : OwnHashes hasher B) (h : Joined hasher sampler addr B listens nodes)
    (hsince : Since hasher sampler B nodes later) (htop : AtTop nodes later) (i j : ι) :
    (later i).chain.blocks.map (blockHash hasher) =
      (later j).chain.blocks.map (blockHash hasher) := by
  have hi := (hsince.each i).active
  have hj := (hsince.each j).active
  have htips := bestTip_eq_of_tipRank hi.tree hj.tree
    (le_antisymm (htop.le hown h hsince i j) (htop.le hown h hsince j i))
  have hconfig : (later i).forkChoice.config = (later j).forkChoice.config := by
    rw [← Active.config hi, ← Active.config hj, hsince.config h hown i i,
      hsince.config h hown j i]
  rw [hi.chain, hj.chain]
  show (later i).forkChoice.bestChain.map _ = (later j).forkChoice.bestChain.map _
  rcases hi.tree.walkBestChain with ⟨htip, -⟩ | ⟨tip, n, l, htip, -, hl, -⟩
  · rw [Tree.bestChain_nil htip, Tree.bestChain_nil (htips.symm.trans htip)]
  · rcases hj.tree.walkBestChain with ⟨htip', -⟩ | ⟨tip', n', l', htip', -, hl', -⟩
    · rw [htips, htip'] at htip
      cases htip
    · rw [htips, htip', Option.some.injEq] at htip
      subst htip
      rw [hi.tree.bestChain_eq (htips.trans htip') hl, hj.tree.bestChain_eq htip' hl']
      exact branch_hashes_eq hown hi.tree hi.known hj.tree hj.known hconfig hl hl'

/-! ### Rounds -/

variable [Fintype ι]

/-- The hashes a node knows. -/
def knownHashes (nodes : ι → NodeState) (i : ι) : Finset Digest :=
  (nodes i).forkChoice.nodes.keys

/-- The hashes known to someone. -/
def allHashes (nodes : ι → NodeState) : Finset Digest := Finset.univ.biUnion (knownHashes nodes)

omit [DecidableEq ι] [Fintype ι] in
lemma mem_knownHashes {i : ι} {k : Digest} :
    k ∈ knownHashes nodes i ↔ (nodes i).forkChoice.containsBlock k = true := by
  rw [knownHashes, Finmap.mem_keys, ← Finmap.lookup_isSome]
  rfl

/-- **Syncing alone brings agreement.** Nodes take passes over their peers in rounds, each node at
least once in a round and otherwise in any order. After more rounds than there are hashes missing,
counted for each node, all active chains are one, hash by hash; no tip there was is better than
theirs, and theirs was known to someone. -/
theorem network_agrees (hasher : HashPort) (sampler : SamplingPort) (addr : AddrText)
    (B : Block → Prop) (hown : OwnHashes hasher B) (listens : SocketAddr → Option ι)
    (nodes : ι → NodeState) (hjoined : Joined hasher sampler addr B listens nodes)
    (rounds : List (List ι)) (hfair : ∀ turns ∈ rounds, ∀ i, i ∈ turns)
    (hlong : missing (allHashes nodes) (knownHashes nodes) < rounds.length) (i : ι) :
    (∀ j, (rounds.foldl (passes hasher sampler addr listens) nodes i).chain.blocks.map
        (blockHash hasher) =
      (rounds.foldl (passes hasher sampler addr listens) nodes j).chain.blocks.map
        (blockHash hasher)) ∧
    (∀ j tip, (nodes j).forkChoice.bestTip.bind (nodes j).forkChoice.look = some tip →
      (rounds.foldl (passes hasher sampler addr listens) nodes i).forkChoice.shouldUpdate tip =
        false) ∧
    ∀ k, (rounds.foldl (passes hasher sampler addr listens) nodes i).forkChoice.containsBlock k =
      true → ∃ j, (nodes j).forkChoice.containsBlock k = true := by
  have hsince : Since hasher sampler B nodes
      (rounds.foldl (passes hasher sampler addr listens) nodes) :=
    rounds_keep _ _ (fun _ => True) (fun later turns hs _ => hs.passes hown hjoined turns)
      (hjoined.since hown) fun _ _ => trivial
  have htop : AtTop nodes (rounds.foldl (passes hasher sampler addr listens) nodes) := by
    refine rounds_arrive _ (Since hasher sampler B nodes) (AtTop nodes)
      (fun turns => ∀ i, i ∈ turns)
      (fun later => missing (allHashes nodes) (knownHashes later))
      (fun later turns hs _ => hs.passes hown hjoined turns) ?_
      (fun later turns hs _ htop => htop.passes hown hjoined hs turns) (hjoined.since hown) hfair
      hlong
    intro later turns hs hturns
    by_cases hquiet : ∀ i k, (passes hasher sampler addr listens later turns
        i).forkChoice.containsBlock k = true → (later i).forkChoice.containsBlock k = true
    · exact .inr (atTop_of_quiet hown hjoined hs hturns hquiet)
    · -- someone has learnt of a block that someone knew at the start
      push Not at hquiet
      obtain ⟨i, k, hlearnt, hnew⟩ := hquiet
      obtain ⟨j, hj⟩ := (hs.passes hown hjoined turns).origin hlearnt
      refine .inl (missing_lt (fun j k hk => ?_) (Finset.mem_biUnion.mpr
        ⟨j, Finset.mem_univ j, mem_knownHashes.mpr hj⟩) (i := i)
        (fun hk => hnew (mem_knownHashes.mp hk)) (mem_knownHashes.mpr hlearnt))
      exact mem_knownHashes.mpr (containsBlock_mono (passes_keep hown hjoined hs turns j)
        (mem_knownHashes.mp hk))
  refine ⟨fun j => htop.agree hown hjoined hsince i j, fun j tip htip => ?_,
    fun k hk => hsince.origin hk⟩
  obtain ⟨k, -, hlook⟩ := Option.bind_eq_some_iff.mp htip
  have hle := htop i j k tip hlook
  unfold ForkChoiceState.shouldUpdate
  split
  · next hnone =>
    rw [tipRank, hnone] at hle
    exact absurd hle (WithBot.not_coe_le_bot _)
  · next best hbest =>
    rw [tipRank, hbest] at hle
    exact (isBetterTip_eq_false tip best).mpr (WithBot.coe_le_coe.mp hle)

/-! Two nodes that know each other, each with a rival block. -/

def firstHome : SocketAddr := .v4 0x7f000002 9333
def secondHome : SocketAddr := .v4 0x7f000003 9333

def homes (address : SocketAddr) : Option Bool :=
  if address = firstHome then some false else if address = secondHome then some true else none

def rivals (second : Bool) : NodeState :=
  (addPeer (if second then firstHome else secondHome) (rivalRun (if second then 2 else 1)).2).2

lemma rivals_facts : ∀ i, (rivals i).chain = ⟨rivalConfig, [rival (if i then 2 else 1)]⟩ ∧
    (rivals i).forkChoice.knownBlockCount = 1 ∧
    (rivals i).forkChoice.config = rivalConfig ∧
    (rivals i).peers = [if i then firstHome else secondHome] := by
  decide +kernel

lemma rivals_missing : missing (allHashes rivals) (knownHashes rivals) < 3 := by
  decide +kernel

lemma rivals_untouched (i : Bool) : Untouched (rivalRun (if i then 2 else 1)).2 (rivals i) :=
  addPeer_untouched _ _

lemma isRival_of (i : Bool) : IsRival (rival (if i then 2 else 1)) := by
  cases i
  · exact .inl rfl
  · exact .inr rfl

lemma rivals_settings (i : Bool) :
    settings (rivals i) = (kinNetwork, Config.SyncConfig.default) :=
  (rivals_untouched i).settings.trans (rivalRun_settings _)

lemma rivals_reachable (i : Bool) :
    Reachable toyHash deterministicSampler noAddr IsRival (rivals i) :=
  Reachable.run (rivalRun_reachable (isRival_of i)) (.single (rivals_untouched i).step)

lemma rivals_active (i : Bool) : Active toyHash deterministicSampler IsRival (rivals i) :=
  Reachable.active (rivals_reachable i) isRival_nonzero

lemma rival_short {as : List Block} (h : KnownChain rivals as) : as.length ≤ 1 := by
  obtain ⟨i, k, l, hl, rfl⟩ := h
  have hlen := branch_length_le hl
  rw [(rivals_facts i).2.1] at hlen
  rwa [List.length_map]

/-- Rivals stand on nothing, so a chain has one of them at most. -/
lemma rival_chain {blocks : List Block}
    (h : Replayed toyHash deterministicSampler rivalConfig blocks) (hB : ∀ b ∈ blocks, IsRival b) :
    blocks = [] ∨ ∃ b, IsRival b ∧ blocks = [b] := by
  rcases blocks with _ | ⟨b, _ | ⟨c, rest⟩⟩
  · exact .inl rfl
  · exact .inr ⟨b, hB b (by simp), rfl⟩
  · have hsecond : (b :: c :: rest)[1]? = some c := rfl
    have hheight := h.height hsecond
    rcases hB c (by simp) with rfl | rfl <;> exact absurd hheight (by decide)

lemma rivals_joined : Joined toyHash deterministicSampler noAddr IsRival homes rivals := by
  have hsync : ∀ i, (rivals i).sync = Config.SyncConfig.default := fun i =>
    sync_of_settings (rivals_settings i)
  refine ⟨rivals_reachable, fun i j => ?_, fun i => ?_, fun i j => ?_, fun i => ?_, fun i => ?_,
    fun i => ?_, fun i j blocks hreplayed hB => ?_, fun i as bs has _ => ?_, fun i j => ?_⟩
  · rw [(rivals_facts i).1, (rivals_facts j).1]
  · refine scoresFit_of_count (rivals_active i).tree ?_
    rw [(rivals_facts i).2.1, (rivals_facts i).2.2.1]
    decide
  · rw [hsync, hsync]
  · rw [hsync]
    decide
  · rw [hsync]
    decide
  · rw [hsync]
    decide
  · have hlimits : ∀ i, SameLimits (rivals i).network := fun i =>
      limits_of_settings (rivals_settings i)
    rw [(rivals_facts i).1] at hreplayed
    refine few_undisturbed (hlimits i) (hlimits j) ?_ ?_ ?_
    · rw [hsync]
      decide
    · show (blocks.map fun b => (encodeHeader b.header).length + 1).sum ≤ 10000
      rcases rival_chain hreplayed hB with rfl | ⟨b, rfl | rfl, rfl⟩ <;> decide +kernel
    · intro b hb
      rcases hB b hb with rfl | rfl <;> decide +kernel
  · have hlen := rival_short has
    have hmax : 1 < Config.SyncConfig.default.maxLocatorHashes := by decide
    rw [hsync]
    exact .inl (by omega)
  · have hasks : ∀ i, Asks homes rivals i (!i) := by
      intro i
      refine ⟨if i then firstHome else secondHome, ?_, ?_⟩
      · rw [(rivals_facts i).2.2.2]
        exact List.mem_singleton_self _
      · cases i <;> decide
    by_cases hij : j = i
    · rw [hij]
    · obtain rfl : j = !i := by
        cases i <;> cases j <;> simp_all
      exact .single (hasks i)

/-- The two nodes after rounds of one turn each. -/
def settled (rounds : ℕ) : Bool → NodeState :=
  (List.replicate rounds [false, true]).foldl (passes toyHash deterministicSampler noAddr homes)
    rivals

theorem network_agrees_rivals :
    (settled 3 false).chain.blocks.map (blockHash toyHash) =
        (settled 3 true).chain.blocks.map (blockHash toyHash) ∧
      ∀ tip, (rivals true).forkChoice.bestTip.bind (rivals true).forkChoice.look = some tip →
        (settled 3 false).forkChoice.shouldUpdate tip = false := by
  have hfair : ∀ turns ∈ List.replicate 3 [false, true], ∀ i, i ∈ turns := by
    intro turns hturns i
    rw [List.eq_of_mem_replicate hturns]
    cases i <;> simp
  obtain ⟨hagree, hbest, -⟩ := network_agrees toyHash deterministicSampler noAddr IsRival
    ⟨isRival_nonzero, isRival_distinct⟩ homes rivals rivals_joined _ hfair
    (by rw [List.length_replicate]; exact rivals_missing) false
  unfold settled
  exact ⟨hagree true, hbest true⟩

end Chesscoin.Spreading
