import Chesscoin.Spreading

/-!
How nodes come to know each other.

In a pass a node asks each of its peers for addresses, and is told the peer's own and those of its
peers. Where every node has room for all addresses there are, an exchange leaves out none. So passes
in any order, each node having its turn in every round, make every node known to all from whom it
can be reached.
-/

namespace Chesscoin.Discovery

open Chesscoin.Lib.Admission Chesscoin.Lib.Spread Chesscoin.Lib.Text Chesscoin.Domain
  Chesscoin.Simulator Chesscoin.Validation Chesscoin.ForkChoice Chesscoin.Wire
  Chesscoin.MessageCodec Chesscoin.Framing Chesscoin.Config Chesscoin.Runtime Chesscoin.Runs
  Chesscoin.Locator Chesscoin.Serving Chesscoin.Sync Chesscoin.Operations Chesscoin.Exchange
  Chesscoin.PeerSet Chesscoin.Turns Chesscoin.Spreading Chesscoin.Adapters

variable {hasher : HashPort} {sampler : SamplingPort} {addr : AddrText} {st st' st'' p : NodeState}
  {all : Finset SocketAddr} {offers : List SocketAddr}

/-! ### What is advertised -/

/-- An advertisement with room for all addresses leaves out none. -/
lemma mem_advertise {limit : ℕ} (hroom : all.card ≤ limit) {peers : List SocketAddr}
    (hoffers : ∀ a ∈ offers, a ∈ all) (hpeers : ∀ a ∈ peers, a ∈ all) (hnodup : peers.Nodup)
    (a : SocketAddr) : a ∈ advertise limit offers peers ↔ a ∈ peers ∨ a ∈ offers := by
  induction offers generalizing peers with
  | nil => simp [advertise]
  | cons b offers ih =>
    have hb : b ∈ all := hoffers b List.mem_cons_self
    have hrest := fun c hc => hoffers c (List.mem_cons_of_mem b hc)
    rw [advertise]
    split
    · next hfull =>
      -- the list is full, so it has all addresses there are
      have hmem : ∀ c ∈ all, c ∈ peers := by
        intro c hc
        by_contra hnew
        have := length_lt_of_lacks hnodup hpeers hc hnew
        omega
      refine ⟨.inl, ?_⟩
      rintro (ha | ha)
      · exact ha
      · exact hmem a (hoffers a ha)
    · by_cases hknown : b ∈ peers
      · rw [if_pos hknown, ih hrest hpeers hnodup, List.mem_cons]
        constructor
        · exact fun h => h.imp_right .inr
        · rintro (ha | rfl | ha)
          · exact .inl ha
          · exact .inl hknown
          · exact .inr ha
      · have hall : ∀ c ∈ peers ++ [b], c ∈ all := by
          intro c hc
          rcases List.mem_append.mp hc with hc | hc
          · exact hpeers c hc
          · rwa [List.mem_singleton.mp hc]
        have hnodup' : (peers ++ [b]).Nodup := by
          rw [List.nodup_append]
          refine ⟨hnodup, List.nodup_singleton b, fun c hc d hd hcd => hknown ?_⟩
          rwa [← List.mem_singleton.mp hd, ← hcd]
        rw [if_neg hknown, ih hrest hall hnodup', List.mem_append, List.mem_singleton,
          List.mem_cons, or_assoc]

/-- What a node tells of: its own address and its peers. -/
def Tells (p : NodeState) (a : SocketAddr) : Prop := a = p.advertisedAddr ∨ a ∈ p.peers

lemma mem_peerAdvertisement {limit : ℕ} (hroom : all.card ≤ limit)
    (hall : ∀ a, Tells p a → a ∈ all) (a : SocketAddr) :
    a ∈ peerAdvertisement p limit ↔ Tells p a := by
  rw [peerAdvertisement, mem_advertise hroom (fun c hc => hall c (List.mem_cons.mp hc))
    (fun c hc => absurd hc List.not_mem_nil) List.nodup_nil, List.mem_cons]
  exact ⟨fun h => h.resolve_left List.not_mem_nil, .inr⟩

/-! ### One exchange -/

/-- The node has the address, as its own or as that of a peer. -/
def Has (st : NodeState) (a : SocketAddr) : Prop :=
  a = st.boundAddr ∨ a = st.advertisedAddr ∨ a ∈ st.peers

/-- A node that has met others since: it is the same node, and has lost no peer. -/
structure Met (all : Finset SocketAddr) (st st' : NodeState) : Prop where
  identity : identity st' = identity st
  nodup : st'.peers.Nodup
  within : ∀ a ∈ st'.peers, a ∈ all
  peers : st.peers <+: st'.peers

lemma Met.trans (h : Met all st st') (h' : Met all st' st'') : Met all st st'' :=
  ⟨h'.identity.trans h.identity, h'.nodup, h'.within, h.peers.trans h'.peers⟩

lemma Met.refl (hnodup : st.peers.Nodup) (hwithin : ∀ a ∈ st.peers, a ∈ all) : Met all st st :=
  ⟨rfl, hnodup, hwithin, List.prefix_rfl⟩

lemma Met.network (h : Met all st st') : st'.network = st.network :=
  congrArg (fun who => who.2.2) h.identity

lemma Met.bound (h : Met all st st') : st'.boundAddr = st.boundAddr :=
  congrArg (fun who => who.1) h.identity

lemma Met.advertised (h : Met all st st') : st'.advertisedAddr = st.advertisedAddr :=
  congrArg (fun who => who.2.1) h.identity

lemma Met.has (h : Met all st st') {a : SocketAddr} (ha : Has st a) : Has st' a := by
  rw [Has, h.bound, h.advertised]
  exact ha.imp_right fun hrest => hrest.imp_right fun hmem => h.peers.subset hmem

lemma admits_met (h : Admits st offers st') (hst : Met all st st)
    (hoffers : ∀ a ∈ offers, a ∈ all) : Met all st st' := by
  have hpeers : st'.peers = (admitted st offers).1 := congrArg Prod.fst h.ledger
  refine ⟨h.identity, ?_, fun a ha => ?_, ?_⟩
  · rw [hpeers]
    exact admitAll_nodup hst.nodup offers
  · rw [hpeers] at ha
    rcases mem_admitAll ha with hold | hoffered
    · exact hst.within a hold
    · exact hoffers a hoffered
  · rw [hpeers]
    exact admitAll_isPrefix (ledger st) offers

/-- **Where there is room**, a node has every address it is offered. -/
lemma admits_has (h : Admits st offers st') (hst : Met all st st)
    (hroom : all.card ≤ st.network.maxPeers) (hoffers : ∀ a ∈ offers, a ∈ all)
    (hdialable : ∀ a ∈ all, peerAddressIsDialable a = true) {a : SocketAddr} (ha : a ∈ offers) :
    Has st' a := by
  have hmet := admits_met h hst hoffers
  rw [Has, hmet.bound, hmet.advertised]
  by_cases hbound : a = st.boundAddr
  · exact .inl hbound
  · by_cases hadvertised : a = st.advertisedAddr
    · exact .inr (.inl hadvertised)
    · have hok : admissible st.boundAddr st.advertisedAddr a = true := by
        simp [admissible, hdialable a (hoffers a ha), hbound, hadvertised]
      have hpeers : st'.peers = (admitted st offers).1 := congrArg Prod.fst h.ledger
      rw [hpeers]
      exact .inr (.inr (admitAll_takes hroom hst.within hst.nodup hoffers ha hok))

variable (hasher sampler) in
/-- An exchange with an honest node in which nothing is lost. -/
lemma exchange_honest {limit : ℕ} (hlimit : limit < 2 ^ 64)
    (hrequest : Delivered addr st.network p.network (.getPeers (UInt64.ofNat limit)))
    (hanswer : Delivered addr p.network st.network
      (.peers (peerAdvertisement p (min limit p.network.maxPeers)))) :
    Admits st (peerAdvertisement p (min limit p.network.maxPeers))
      (exchangePeersWith addr (honestPeer hasher sampler addr p) limit st).2 := by
  have hserved : (handleMessage hasher sampler (.getPeers (UInt64.ofNat limit)) true
      p).responses = [.peers (peerAdvertisement p (min limit p.network.maxPeers))] := by
    simp only [handleMessage, respond, servePeers, UInt64.toNat_ofNat', Nat.mod_eq_of_lt hlimit]
  have hlen : (peerAdvertisement p (min limit p.network.maxPeers)).length ≤ limit :=
    (peerAdvertisement_spec p _).2.1.trans (min_le_left _ _)
  have htold : peersFromPeer addr (honestPeer hasher sampler addr p) limit st =
      .ok (peerAdvertisement p (min limit p.network.maxPeers)) := by
    rw [peersFromPeer, ask_honestPeer hrequest hanswer hserved]
    exact if_pos hlen
  rw [exchangePeersWith, htold]
  exact addPeers_admits _ st

lemma exchange_unreached {ι : Type*} {listens : SocketAddr → Option ι} {nodes : ι → NodeState}
    {address : SocketAddr} (h : listens address = none) (limit : ℕ) :
    exchangePeersWith addr (dial hasher sampler addr listens nodes address) limit st =
      (.error (), st) := by
  simp [exchangePeersWith, peersFromPeer, ask, dial, h]

/-! ### A pass -/

/-- What a node that asks another for addresses rests on: both have room for all there are, and
what they send each other gets through. -/
structure Acquaints (addr : AddrText) (all : Finset SocketAddr) (st p : NodeState) : Prop where
  room : all.card ≤ st.network.maxPeers
  peerRoom : all.card ≤ p.network.maxPeers
  usize : st.network.maxPeers < 2 ^ 64
  told : ∀ a, Tells p a → a ∈ all
  request : Delivered addr st.network p.network (.getPeers (UInt64.ofNat st.network.maxPeers))
  answer : ∀ peers : List SocketAddr, peers.Nodup → (∀ a ∈ peers, a ∈ all) →
    Delivered addr p.network st.network (.peers peers)

lemma Acquaints.of_met (h : Acquaints addr all st p) (hmet : Met all st st') :
    Acquaints addr all st' p := by
  obtain ⟨hroom, hpeerRoom, husize, htold, hrequest, hanswer⟩ := h
  refine ⟨?_, hpeerRoom, ?_, htold, ?_, ?_⟩ <;> rwa [hmet.network]

variable (hasher sampler) in
/-- **An exchange leaves out nothing.** -/
lemma exchange_met (h : Acquaints addr all st p) (hst : Met all st st)
    (hdialable : ∀ a ∈ all, peerAddressIsDialable a = true) :
    Met all st (exchangePeersWith addr (honestPeer hasher sampler addr p) st.network.maxPeers
        st).2 ∧
      ∀ a, Tells p a → Has (exchangePeersWith addr (honestPeer hasher sampler addr p)
        st.network.maxPeers st).2 a := by
  have hmem : ∀ a, a ∈ peerAdvertisement p (min st.network.maxPeers p.network.maxPeers) ↔
      Tells p a := mem_peerAdvertisement (le_min h.room h.peerRoom) h.told
  have hoffers : ∀ a ∈ peerAdvertisement p (min st.network.maxPeers p.network.maxPeers),
      a ∈ all := fun a ha => h.told a ((hmem a).mp ha)
  have hadmits := exchange_honest hasher sampler h.usize h.request
    (h.answer _ (peerAdvertisement_spec p _).1 hoffers)
  exact ⟨admits_met hadmits hst hoffers, fun a ha =>
    admits_has hadmits hst h.room hoffers hdialable ((hmem a).mpr ha)⟩

lemma countSync_met (result : Except Unit Unit) (h : Met all st st') :
    Met all st (countSync result st') := by
  cases result with
  | ok _ => exact h
  | error _ => exact ⟨h.identity, h.nodup, h.within, h.peers⟩

variable {ι : Type*} {listens : SocketAddr → Option ι} {nodes home later : ι → NodeState}

variable (hasher sampler) in
lemma exchangeAll_met (listens : SocketAddr → Option ι) (peers : List SocketAddr)
    (h : ∀ j, Acquaints addr all st (nodes j))
    (hst : Met all st st) (hdialable : ∀ a ∈ all, peerAddressIsDialable a = true) {limit : ℕ}
    (hlimit : limit = st.network.maxPeers) :
    Met all st (exchangeAll addr (dial hasher sampler addr listens nodes) limit peers st) ∧
      ∀ address ∈ peers, ∀ j, listens address = some j → ∀ a, Tells (nodes j) a →
        Has (exchangeAll addr (dial hasher sampler addr listens nodes) limit peers st) a := by
  induction peers generalizing st with
  | nil => exact ⟨hst, fun _ h => absurd h List.not_mem_nil⟩
  | cons address rest ih =>
    rw [exchangeAll]
    generalize hone : exchangePeersWith addr (dial hasher sampler addr listens nodes address)
      limit st = one
    obtain ⟨result, st'⟩ := one
    have hcall : Met all st st' ∧ ∀ j, listens address = some j → ∀ a, Tells (nodes j) a →
        Has st' a := by
      cases hlisten : listens address with
      | none =>
        rw [exchange_unreached hlisten] at hone
        cases hone
        exact ⟨hst, fun j hj => absurd hj (Option.some_ne_none j).symm⟩
      | some j =>
        obtain ⟨hmet, hhas⟩ := exchange_met hasher sampler (h j) hst
          hdialable
        rw [← hlimit, ← dial_some hlisten, hone] at hmet hhas
        refine ⟨hmet, fun j' hj' => ?_⟩
        rwa [← Option.some.inj hj']
    have hcount : Met all st (countSync result st') := countSync_met result hcall.1
    have hself : Met all (countSync result st') (countSync result st') :=
      Met.refl hcount.nodup hcount.within
    obtain ⟨hmet, hhas⟩ := ih (fun j => (h j).of_met hcount) hself
      (hlimit.trans (congrArg NetworkConfig.maxPeers hcount.network.symm))
    refine ⟨hcount.trans hmet, fun b hb j hlisten a ha => ?_⟩
    rcases List.mem_cons.mp hb with rfl | hb
    · have hnow : Has (countSync result st') a :=
        (countSync_met result (Met.refl hcall.1.nodup hcall.1.within)).has
          (hcall.2 j hlisten a ha)
      exact hmet.has hnow
    · exact hhas b hb j hlisten a ha

variable (hasher sampler addr) in
lemma syncAll_met (net : SocketAddr → Str → Option Stream) (locator : List Digest) (limit : ℕ)
    (peers : List SocketAddr) (hst : Met all st st) :
    Met all st (syncAll hasher sampler addr net locator limit peers st).2 := by
  induction peers generalizing st with
  | nil => exact hst
  | cons peer rest ih =>
    rw [syncAll]
    have hone : Admits st [] (syncFromPeer hasher sampler addr (net peer) locator limit st).2 :=
      syncFromPeer_admits (net peer) locator limit st
    have hmet := countSync_met (syncFromPeer hasher sampler addr (net peer) locator limit st).1
      (admits_met hone hst fun _ h => absurd h List.not_mem_nil)
    exact hmet.trans (ih (Met.refl hmet.nodup hmet.within))

variable (hasher sampler) in
/-- **After its turn** a node has all addresses that its peers told of. -/
theorem syncOnce_met (listens : SocketAddr → Option ι) (h : ∀ j, Acquaints addr all st (nodes j))
    (hst : Met all st st) (hdialable : ∀ a ∈ all, peerAddressIsDialable a = true) :
    Met all st (syncOnce hasher sampler addr (dial hasher sampler addr listens nodes) st).2 ∧
      ∀ address ∈ st.peers, ∀ j, listens address = some j → ∀ a, Tells (nodes j) a →
        Has (syncOnce hasher sampler addr (dial hasher sampler addr listens nodes) st).2 a := by
  unfold syncOnce
  simp only
  split
  · next hnone =>
    rw [hnone]
    exact ⟨hst, fun _ h => absurd h List.not_mem_nil⟩
  · obtain ⟨hmet, hhas⟩ := exchangeAll_met hasher sampler listens st.peers h hst hdialable rfl
    have hrest := syncAll_met hasher sampler addr
      (dial hasher sampler addr listens nodes)
      (blockLocator hasher st.chain st.sync.maxLocatorHashes) st.sync.maxBlocksPerResponse
      (exchangeAll addr (dial hasher sampler addr listens nodes) st.network.maxPeers st.peers
        st).peers (Met.refl hmet.nodup hmet.within)
    exact ⟨hmet.trans hrest, fun b hb j hlisten a ha => hrest.has (hhas b hb j hlisten a ha)⟩

/-! ### Rounds of turns -/

variable [DecidableEq ι] [Fintype ι]

/-- The addresses some node tells of. -/
def directory (nodes : ι → NodeState) : Finset SocketAddr :=
  Finset.univ.biUnion fun i => insert (nodes i).advertisedAddr (nodes i).peers.toFinset

omit [DecidableEq ι] in
lemma mem_directory {a : SocketAddr} : a ∈ directory nodes ↔ ∃ i, Tells (nodes i) a := by
  simp [directory, Tells]

/-- What discovery rests on: every node listens where it says, and none is bound where another
listens; all addresses there are can be dialed, and everyone has room for them; requests for
addresses get through, and so do lists of them. -/
structure Charted (addr : AddrText) (listens : SocketAddr → Option ι) (home : ι → NodeState) :
    Prop where
  nodup : ∀ i, (home i).peers.Nodup
  own : ∀ i, listens (home i).advertisedAddr = some i
  bound : ∀ i j, listens (home i).boundAddr = some j → i = j
  dialable : ∀ a ∈ directory home, peerAddressIsDialable a = true
  room : ∀ i, (directory home).card ≤ (home i).network.maxPeers
  usize : ∀ i, (home i).network.maxPeers < 2 ^ 64
  request : ∀ i j, Delivered addr (home i).network (home j).network
    (.getPeers (UInt64.ofNat (home i).network.maxPeers))
  answer : ∀ i j, ∀ peers : List SocketAddr, peers.Nodup → (∀ a ∈ peers, a ∈ directory home) →
    Delivered addr (home i).network (home j).network (.peers peers)

/-- Everyone may have met others since. -/
def AllMet (home later : ι → NodeState) : Prop := ∀ i, Met (directory home) (home i) (later i)

omit [DecidableEq ι] in
lemma Charted.allMet (h : Charted addr listens home) : AllMet home home := fun i =>
  Met.refl (h.nodup i) fun _ ha => mem_directory.mpr ⟨i, .inr ha⟩

omit [DecidableEq ι] in
lemma AllMet.self (h : AllMet home later) (i : ι) :
    Met (directory home) (later i) (later i) := Met.refl (h i).nodup (h i).within

omit [DecidableEq ι] in
lemma AllMet.told (h : AllMet home later) {i : ι} {a : SocketAddr} (ha : Tells (later i) a) :
    a ∈ directory home := by
  rcases ha with rfl | ha
  · exact mem_directory.mpr ⟨i, .inl (h i).advertised⟩
  · exact (h i).within a ha

omit [DecidableEq ι] in
lemma Charted.acquaints (h : Charted addr listens home) (hmet : AllMet home later) (i j : ι) :
    Acquaints addr (directory home) (later i) (later j) := by
  refine ⟨?_, ?_, ?_, fun a ha => hmet.told ha, ?_, ?_⟩
  · rw [(hmet i).network]
    exact h.room i
  · rw [(hmet j).network]
    exact h.room j
  · rw [(hmet i).network]
    exact h.usize i
  · rw [(hmet i).network, (hmet j).network]
    exact h.request i j
  · rw [(hmet i).network, (hmet j).network]
    exact h.answer j i

/-- A node has all that its peers tell of. -/
def Settled (listens : SocketAddr → Option ι) (nodes : ι → NodeState) (i : ι) : Prop :=
  ∀ j, Asks listens nodes i j → ∀ a, Tells (nodes j) a → Has (nodes i) a

variable (hasher sampler) in
/-- One turn: the node has all that its peers told of, and the others are as they were. -/
lemma pass_met (h : Charted addr listens home) (hmet : AllMet home later) (i : ι) :
    (∀ j, Met (directory home) (later j) (pass hasher sampler addr listens later i j)) ∧
      ∀ j, Asks listens later i j → ∀ a, Tells (later j) a →
        Has (pass hasher sampler addr listens later i i) a := by
  obtain ⟨hturn, hhas⟩ := syncOnce_met hasher sampler listens (fun j => h.acquaints hmet i j)
    (hmet.self i) h.dialable
  rw [pass_self]
  refine ⟨fun j => ?_, fun j hasks a ha => ?_⟩
  · by_cases hj : j = i
    · subst hj
      rwa [pass_self]
    · rw [pass_other hj]
      exact hmet.self j
  · obtain ⟨address, haddress, hlisten⟩ := hasks
    exact hhas address haddress j hlisten a ha

variable (hasher sampler) in
lemma passes_met (h : Charted addr listens home) (turns : List ι) (hmet : AllMet home later)
    (i : ι) :
    Met (directory home) (later i) (passes hasher sampler addr listens later turns i) := by
  induction turns generalizing later with
  | nil => exact hmet.self i
  | cons j turns ih =>
    have hone := (pass_met hasher sampler h hmet j).1
    exact (hone i).trans (ih fun k => (hmet k).trans (hone k))

lemma AllMet.passes (h : Charted addr listens home) (hmet : AllMet home later) (turns : List ι) :
    AllMet home (passes hasher sampler addr listens later turns) := fun i =>
  (hmet i).trans (passes_met hasher sampler h turns hmet i)

omit [DecidableEq ι] [Fintype ι] in
/-- Where no peers have been added, what nodes tell and have is the same. -/
lemma settled_congr (hmet : ∀ i, Met all (later i) (nodes i))
    (hpeers : ∀ i, (nodes i).peers = (later i).peers) (i : ι) :
    Settled listens nodes i ↔ Settled listens later i := by
  simp only [Settled, Asks, Tells, Has, (hmet _).bound, (hmet _).advertised, hpeers]

/-- **A round that adds no peer** leaves every node settled that has had its turn. -/
lemma passes_settled (h : Charted addr listens home) (turns : List ι) (hmet : AllMet home later)
    (hquiet : ∀ i, (passes hasher sampler addr listens later turns i).peers = (later i).peers) :
    ∀ i ∈ turns, Settled listens later i := by
  induction turns generalizing later with
  | nil => exact fun i hi => absurd hi List.not_mem_nil
  | cons i turns ih =>
    obtain ⟨hone, hhas⟩ := pass_met hasher sampler h hmet i
    have hmet' : AllMet home (pass hasher sampler addr listens later i) :=
      fun j => (hmet j).trans (hone j)
    -- the peers after the turn lie between equal lists
    have hsame : ∀ j, (pass hasher sampler addr listens later i j).peers = (later j).peers := by
      intro j
      have hrest := (passes_met hasher sampler h turns hmet' j).peers
      have hend := hquiet j
      rw [passes, List.foldl_cons] at hend
      rw [passes, hend] at hrest
      exact hrest.eq_of_length (le_antisymm hrest.length_le (hone j).peers.length_le)
    intro j hj
    rcases List.mem_cons.mp hj with rfl | hj
    · intro k hasks a ha
      have hnow := hhas k hasks a ha
      rwa [Has, (hone j).bound, (hone j).advertised, hsame] at hnow
    · refine (settled_congr hone hsame j).mp (ih hmet' (fun k => ?_) j hj)
      exact (hquiet k).trans (hsame k).symm

/-! ### Everyone who can be reached -/

/-- Every node knows the nodes that could be reached from it at the start. -/
def Acquainted (listens : SocketAddr → Option ι) (home later : ι → NodeState) : Prop :=
  ∀ i j, Relation.ReflTransGen (Asks listens home) i j → i ≠ j →
    (home j).advertisedAddr ∈ (later i).peers

omit [DecidableEq ι] in
/-- **A settled network is acquainted.** -/
theorem acquainted_of_settled (h : Charted addr listens home) (hmet : AllMet home later)
    (hsettled : ∀ i, Settled listens later i) : Acquainted listens home later := by
  intro i j hreach
  have hknows : ∀ k, Asks listens later i k → i ≠ k →
      (home k).advertisedAddr ∈ (later i).peers := by
    intro k hasks hik
    rcases hsettled i k hasks _ (.inl rfl) with hbound | hadvertised | hmem
    · rw [(hmet i).bound, (hmet k).advertised] at hbound
      exact absurd (h.bound i k (by rw [← hbound, h.own k])) hik
    · rw [(hmet i).advertised, (hmet k).advertised] at hadvertised
      have hboth := h.own k
      rw [hadvertised, h.own i] at hboth
      exact absurd (Option.some.inj hboth) hik
    · rwa [(hmet k).advertised] at hmem
  induction hreach with
  | refl => exact fun hne => absurd rfl hne
  | @tail j k _ hstep ih =>
    intro hik
    obtain ⟨address, haddress, hlisten⟩ := hstep
    have hkept : address ∈ (later j).peers := (hmet j).peers.subset haddress
    refine hknows k ?_ hik
    by_cases hij : i = j
    · subst hij
      exact ⟨address, hkept, hlisten⟩
    · -- the node asks the one before, which tells it of the next
      have hasks : Asks listens later i j := ⟨_, ih hij, h.own j⟩
      rcases hsettled i j hasks address (.inr hkept) with hbound | hadvertised | hmem
      · rw [hbound, (hmet i).bound] at hlisten
        exact absurd (h.bound i k hlisten) hik
      · rw [hadvertised, (hmet i).advertised, h.own i] at hlisten
        exact absurd (Option.some.inj hlisten) hik
      · exact ⟨address, hmem, hlisten⟩

/-- **Peer exchange discovers the network.** Nodes take passes over their peers in rounds, each
node at least once in a round and otherwise in any order. After more rounds than there are
addresses missing, counted for each node, every node has among its peers all that could be reached
from it, has lost none it had, and has no address that nobody told of at the start. -/
theorem discovery_completes (hasher : HashPort) (sampler : SamplingPort) (addr : AddrText)
    (listens : SocketAddr → Option ι) (home : ι → NodeState) (hcharted : Charted addr listens home)
    (rounds : List (List ι)) (hfair : ∀ turns ∈ rounds, ∀ i, i ∈ turns)
    (hlong : missing (directory home) (fun i => (home i).peers.toFinset) < rounds.length) (i : ι) :
    (∀ j, Relation.ReflTransGen (Asks listens home) i j → i ≠ j →
      (home j).advertisedAddr ∈
        (rounds.foldl (passes hasher sampler addr listens) home i).peers) ∧
    (home i).peers <+: (rounds.foldl (passes hasher sampler addr listens) home i).peers ∧
    ∀ a ∈ (rounds.foldl (passes hasher sampler addr listens) home i).peers,
      ∃ j, a = (home j).advertisedAddr ∨ a ∈ (home j).peers := by
  have hmet : AllMet home (rounds.foldl (passes hasher sampler addr listens) home) :=
    rounds_keep _ _ (fun _ => True) (fun later turns hs _ => hs.passes hcharted turns)
      hcharted.allMet fun _ _ => trivial
  have hgoal : Acquainted listens home
      (rounds.foldl (passes hasher sampler addr listens) home) := by
    refine rounds_arrive _ (AllMet home) (Acquainted listens home) (fun turns => ∀ i, i ∈ turns)
      (fun later => missing (directory home) (fun i => (later i).peers.toFinset))
      (fun later turns hs _ => hs.passes hcharted turns) ?_ ?_ hcharted.allMet hfair hlong
    · intro later turns hs hturns
      have hkept := passes_met hasher sampler hcharted turns hs
      by_cases hquiet : ∀ i,
          (passes hasher sampler addr listens later turns i).peers = (later i).peers
      · refine .inr (acquainted_of_settled hcharted (hs.passes hcharted turns) fun i => ?_)
        exact (settled_congr hkept hquiet i).mpr
          (passes_settled hcharted turns hs hquiet i (hturns i))
      · -- someone has a peer it did not have
        push Not at hquiet
        obtain ⟨i, hi⟩ := hquiet
        obtain ⟨a, hlearnt, hnew⟩ : ∃ a ∈ (passes hasher sampler addr listens later turns i).peers,
            a ∉ (later i).peers := by
          by_contra hnone
          push Not at hnone
          have hle := List.Subperm.length_le ((hkept i).nodup.subperm hnone)
          exact hi ((hkept i).peers.eq_of_length (le_antisymm (hkept i).peers.length_le hle)).symm
        refine .inl (missing_lt (fun j a ha => ?_) ((hkept i).within a hlearnt)
          (fun h => hnew (List.mem_toFinset.mp h)) (List.mem_toFinset.mpr hlearnt))
        exact List.mem_toFinset.mpr ((hkept j).peers.subset (List.mem_toFinset.mp ha))
    · exact fun later turns hs _ hgoal i j hreach hij =>
        (passes_met hasher sampler hcharted turns hs i).peers.subset (hgoal i j hreach hij)
  exact ⟨hgoal i, (hmet i).peers, fun a ha => mem_directory.mp ((hmet i).within a ha)⟩

/-! Three nodes in a line, each of which knows the next. -/

def thirdHome : SocketAddr := .v4 0x7f000004 9333

def homeOf (i : Fin 3) : SocketAddr :=
  if i = 0 then firstHome else if i = 1 then secondHome else thirdHome

def homeText : AddrText :=
  { display := fun a => if a = firstHome then "127.0.0.2:9333".toList
      else if a = secondHome then "127.0.0.3:9333".toList
      else if a = thirdHome then "127.0.0.4:9333".toList else []
    fromStr := fun s => if s = "127.0.0.2:9333".toList then some firstHome
      else if s = "127.0.0.3:9333".toList then some secondHome
      else if s = "127.0.0.4:9333".toList then some thirdHome else none }

def atHome (address : SocketAddr) : Option (Fin 3) :=
  if address = firstHome then some 0 else if address = secondHome then some 1
    else if address = thirdHome then some 2 else none

def inLine (i : Fin 3) : NodeState :=
  { freshNode ChainConfig.default none with
    boundAddr := homeOf i
    advertisedAddr := homeOf i
    peers := if i = 0 then [secondHome] else if i = 1 then [thirdHome] else []
    network := { NetworkConfig.default with
      wire := networkWire ChainConfig.default "local".toList protocolVersion } }

lemma inLine_directory : directory inLine = {firstHome, secondHome, thirdHome} := by decide +kernel

lemma home_reads : ∀ a ∈ [firstHome, secondHome, thirdHome], AddrReads homeText a := by
  have h : ∀ a ∈ [firstHome, secondHome, thirdHome],
      homeText.fromStr (homeText.display a) = some a ∧ homeText.display a ⊆ addrAlphabet ∧
        homeText.display a ≠ [] := by decide
  exact fun a ha => ⟨(h a ha).1, (h a ha).2.1, (h a ha).2.2⟩

/-- What is short and names no other address gets through. -/
lemma inLine_delivered (message : PeerMessage) (htext : nodeIdOf message = [])
    (haddrs : ∀ a ∈ addrsOf message, a ∈ [firstHome, secondHome, thirdHome])
    (hfits : (writePeerMessage homeText (inLine 0).network.wire message).length ≤ 1000)
    (i j : Fin 3) : Delivered homeText (inLine i).network (inLine j).network message := by
  have hid : (inLine 0).network.wire.networkId.all (fun c => c.toNat < 128) = true := by decide
  have hprint : (inLine i).network.wire.chainFingerprint =
      chainFingerprint ChainConfig.default := rfl
  refine delivered_of_plain rfl hprint ⟨fun c hc => ?_, ?_⟩ ?_
    (fun a ha => home_reads a (haddrs a ha)) ?_
  · simpa using List.all_eq_true.mp hid c hc
  · show '\n' ∉ "local".toList
    decide
  · rw [htext]
    exact ⟨fun c hc => absurd hc List.not_mem_nil, List.not_mem_nil⟩
  · have hlimit : (inLine j).network.maxMessageBytes = 1048576 := rfl
    have hlen : (writePeerMessage homeText (inLine i).network.wire message).length ≤ 1000 := hfits
    rw [hlimit]
    omega

lemma inLine_lists : ∀ a ∈ [firstHome, secondHome, thirdHome],
    ∀ b ∈ [firstHome, secondHome, thirdHome], ∀ c ∈ [firstHome, secondHome, thirdHome],
    ∀ peers ∈ [[], [a], [a, b], [a, b, c]],
      (writePeerMessage homeText (inLine 0).network.wire (.peers peers)).length ≤ 1000 := by
  decide +kernel

lemma inLine_charted : Charted homeText atHome inLine := by
  refine ⟨by decide +kernel, by decide +kernel, by decide +kernel, ?_, fun i => ?_, fun i => ?_,
    fun i j => ?_, fun i j peers hnodup hall => ?_⟩
  · rw [inLine_directory]
    decide +kernel
  · rw [inLine_directory]
    show _ ≤ 64
    decide +kernel
  · show 64 < 2 ^ 64
    decide
  · refine inLine_delivered _ rfl (fun a ha => absurd ha List.not_mem_nil) ?_ i j
    show (writePeerMessage homeText (inLine 0).network.wire (.getPeers 64)).length ≤ 1000
    decide +kernel
  · rw [inLine_directory] at hall
    have hlist : ∀ a ∈ peers, a ∈ [firstHome, secondHome, thirdHome] := by
      simpa using hall
    have hlen : peers.length ≤ 3 := List.Subperm.length_le (hnodup.subperm hlist)
    refine inLine_delivered (.peers peers) rfl hlist ?_ i j
    rcases peers with _ | ⟨a, _ | ⟨b, _ | ⟨c, _ | ⟨d, rest⟩⟩⟩⟩
    · decide +kernel
    · exact inLine_lists a (hlist a (by simp)) a (hlist a (by simp)) a (hlist a (by simp)) _
        (by simp)
    · exact inLine_lists a (hlist a (by simp)) b (hlist b (by simp)) b (hlist b (by simp)) _
        (by simp)
    · exact inLine_lists a (hlist a (by simp)) b (hlist b (by simp)) c (hlist c (by simp)) _
        (by simp)
    · simp only [List.length_cons] at hlen
      omega

/-- The first comes to know the third, of which only the second knew. -/
theorem discovery_completes_line : thirdHome ∈ ((List.replicate 8 [0, 1, 2]).foldl
    (passes toyHash deterministicSampler homeText atHome) inLine 0).peers := by
  have hfair : ∀ turns ∈ List.replicate 8 [0, 1, 2], ∀ i : Fin 3, i ∈ turns := by
    intro turns hturns
    rw [List.eq_of_mem_replicate hturns]
    decide
  have hfew : missing (directory inLine) (fun i => (inLine i).peers.toFinset) < 8 := by
    rw [inLine_directory]
    decide +kernel
  have hstep : Asks atHome inLine 0 1 ∧ Asks atHome inLine 1 2 :=
    ⟨⟨secondHome, by decide, by decide⟩, ⟨thirdHome, by decide, by decide⟩⟩
  exact (discovery_completes toyHash deterministicSampler homeText atHome inLine inLine_charted
    (List.replicate 8 [0, 1, 2]) hfair (by rw [List.length_replicate]; exact hfew) 0).1 2
    ((Relation.ReflTransGen.single hstep.1).tail hstep.2) (by decide)

end Chesscoin.Discovery
