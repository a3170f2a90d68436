import Chesscoin.NodeLog
import Chesscoin.WorkScores

/-!
The log replays to what the node has in memory.

While appends succeed, a block is appended whenever one is inserted, so the log always loads
as the fork choice, and a restart changes nothing. A block that is already known is never
appended again: an incoming one is looked up first, and a mined one stands on the best tip,
which has no child as long as work scores have not wrapped around.
-/

namespace Chesscoin.Replay

open Chesscoin.Lib.Text Chesscoin.Lib.Linked Chesscoin.Domain Chesscoin.Simulator
  Chesscoin.Validation Chesscoin.Mining Chesscoin.ForkChoice Chesscoin.ForkTree
  Chesscoin.ForkInvariant Chesscoin.Wire Chesscoin.Storage Chesscoin.Runtime Chesscoin.Runs
  Chesscoin.ActiveView Chesscoin.LocalMining Chesscoin.LogReplay Chesscoin.NodeLog
  Chesscoin.Adapters
open ForkChoiceState

variable {hasher : HashPort} {sampler : SamplingPort} {addr : AddrText} {B : Block → Prop}
  {config : ChainConfig} {text : Str} {st st' : NodeState}

/-! ### A log that loads as the fork choice -/

structure Replays (hasher : HashPort) (sampler : SamplingPort) (addr : AddrText)
    (config : ChainConfig) (text : Str) (st : NodeState) : Prop where
  configured : Configured config st
  succeed : AllAppends Succeeds st
  log : logText st = some text
  loads : ∃ s, Loads hasher sampler addr config text s ∧ s.forkChoice = st.forkChoice

lemma LogStart.replays (h : LogStart hasher sampler addr B config text st)
    (hsucceed : AllAppends Succeeds st) : Replays hasher sampler addr config text st := by
  obtain ⟨s, hload, hfc, -⟩ := (initialChains_ok_iff h.log).mp h.loaded
  exact ⟨h.configured, hsucceed, h.log, s, ⟨h.complete, hload⟩, hfc⟩

/-- **A move keeps the log loading as the fork choice.** -/
theorem Replays.move (h : Replays hasher sampler addr config text st)
    (hmove : Move hasher sampler B st st') :
    (st'.forkChoice = st.forkChoice ∧ Replays hasher sampler addr config text st') ∨
      ∃ block shouldWriteHeader, B block ∧ FreshOrMined hasher st.forkChoice block ∧
        st.forkChoice.insertBlock hasher sampler block =
          (.ok (blockHash hasher block), st'.forkChoice) ∧
        Replays hasher sampler addr config
          (text ++ entryText hasher config block shouldWriteHeader) st' := by
  have hconfig := Move.configured hmove h.configured
  obtain ⟨s, hloads, hs⟩ := h.loads
  obtain ⟨hio, ⟨-, hfc, hlog⟩ | ⟨block, io, hsucceeds, hB, hnew, hins, hlog⟩⟩ :=
    Move.log hmove ⟨rfl, rfl⟩ h.succeed h.configured h.log
  · exact .inl ⟨hfc, hconfig, hio, hlog, s, hloads, hs.trans hfc.symm⟩
  · rw [appendText_succeeds hsucceeds] at hlog
    rw [← hs] at hins
    obtain ⟨s', hloads', hs'⟩ := hloads.entry empty_of_header hins
    rw [hs] at hins
    exact .inr ⟨block, _, hB, hnew, hins, hconfig, hio, hlog, s', hloads', hs'⟩

/-- What the log says about what is known. -/
lemma Replays.accepted (h : Replays hasher sampler addr config text st) :
    Accepted hasher sampler (new config) (loggedBlocks hasher addr text) st.forkChoice := by
  obtain ⟨s, hloads, hs⟩ := h.loads
  rw [← hs]
  exact loadContent_accepted hloads.2

lemma Replays.logged_entry (h : Replays hasher sampler addr config text st) (block : Block)
    (shouldWriteHeader : Bool) :
    loggedBlocks hasher addr (text ++ entryText hasher config block shouldWriteHeader) =
      loggedBlocks hasher addr text ++ [block] := by
  obtain ⟨s, hloads, -⟩ := h.loads
  exact loggedBlocks_entry hloads.1

/-! ### Runs with restarts -/

/-- A step of a node, or a restart on the log it has. -/
inductive Serve (hasher : HashPort) (sampler : SamplingPort) (addr : AddrText)
    (B : Block → Prop) : NodeState → NodeState → Prop
  | step {st st' : NodeState} : Step hasher sampler B st st' → Serve hasher sampler addr B st st'
  | restart {st st' : NodeState} : st'.storage = st.storage →
      initialChains hasher sampler addr st.chain.config st.storage =
        .ok (st'.chain, st'.forkChoice) →
      Serve hasher sampler addr B st st'

/-- A node that is started with the configuration and on the log of another restarts it. -/
lemma startNode_restart {nodeConfig : Config.NodeConfig} {boundAddr : SocketAddr}
    (hconfig : nodeConfig.chain = st.chain.config)
    (h : startNode hasher sampler addr nodeConfig boundAddr st.storage = .ok st') :
    Serve hasher sampler addr B st st' := by
  obtain ⟨hstorage, hload⟩ := startNode_ok h
  rw [hconfig, hstorage] at hload
  exact .restart hstorage hload

/-- What holds of a node and its log in every run in which appends succeed. -/
structure Kept (hasher : HashPort) (sampler : SamplingPort) (addr : AddrText)
    (B : Block → Prop) (config : ChainConfig) (text : Str) (st : NodeState) : Prop where
  active : Active hasher sampler B st
  replays : Replays hasher sampler addr config text st
  logged : ∀ b ∈ loggedBlocks hasher addr text, B b
  nodup : ScoresFit st.forkChoice → (loggedBlocks hasher addr text).Nodup

theorem Kept.move (h : Kept hasher sampler addr B config text st)
    (hnonzero : ∀ b, B b → blockHash hasher b ≠ Digest.zero)
    (hdistinct : DistinctHeaders hasher B) (hmove : Move hasher sampler B st st') :
    ∃ text', Kept hasher sampler addr B config text' st' := by
  have hactive := h.active.move hnonzero hmove
  rcases h.replays.move hmove with
    ⟨hfc, hreplays⟩ | ⟨block, shouldWriteHeader, hB, hnew, hins, hreplays⟩
  · exact ⟨text, hactive, hreplays, h.logged, by rw [hfc]; exact h.nodup⟩
  · refine ⟨_, hactive, hreplays, ?_, fun hfit => ?_⟩
    · intro b hb
      rw [h.replays.logged_entry, List.mem_append, List.mem_singleton] at hb
      rcases hb with hb | rfl
      · exact h.logged b hb
      · exact hB
    · have hfit₀ := scoresFit_mono (extends_of_insertBlock hins) (config_of_insertBlock hins) hfit
      have hfresh : st.forkChoice.look (blockHash hasher block) = none := by
        rcases hnew with hnone | ⟨_, _, hmined⟩
        · exact hnone
        · exact mined_new h.active.tree hfit₀ h.active.known hnonzero hdistinct hB hmined
      have hnot : block ∉ loggedBlocks hasher addr text := fun hmem => by
        have hknown := h.replays.accepted.known hmem
        rw [(not_containsBlock_iff _).mpr hfresh] at hknown
        cases hknown
      rw [h.replays.logged_entry, List.nodup_append]
      refine ⟨h.nodup hfit₀, List.nodup_singleton block, ?_⟩
      intro a ha b hb hab
      rw [List.mem_singleton] at hb
      exact hnot (hb ▸ hab ▸ ha)

/-- A restart changes neither view of the blocks. -/
lemma Kept.restart (h : Kept hasher sampler addr B config text st)
    (hload : initialChains hasher sampler addr st.chain.config st.storage =
      .ok (st'.chain, st'.forkChoice)) :
    st'.chain = st.chain ∧ st'.forkChoice = st.forkChoice := by
  rw [h.replays.configured.chain] at hload
  obtain ⟨s', hload', hfc', hchain'⟩ := (initialChains_ok_iff h.replays.log).mp hload
  obtain ⟨s, hloads, hs⟩ := h.replays.loads
  rw [hloads.2, Except.ok.injEq] at hload'
  subst hload'
  have hfc : st'.forkChoice = st.forkChoice := hfc'.symm.trans hs
  exact ⟨by rw [hchain', hfc, h.active.chain], hfc⟩

theorem Kept.serve (h : Kept hasher sampler addr B config text st)
    (hnonzero : ∀ b, B b → blockHash hasher b ≠ Digest.zero)
    (hdistinct : DistinctHeaders hasher B) (hserve : Serve hasher sampler addr B st st') :
    ∃ text', Kept hasher sampler addr B config text' st' := by
  cases hserve with
  | step hstep =>
    exact run_keeps (P := fun st => ∃ text, Kept hasher sampler addr B config text st)
      (fun _ _ ⟨_, hkept⟩ hmove => hkept.move hnonzero hdistinct hmove)
      (.single hstep) ⟨text, h⟩
  | restart hstorage hload =>
    obtain ⟨hchain, hfc⟩ := h.restart hload
    exact h.move hnonzero hdistinct (.idle hchain hfc hstorage)

/-! ### The log and the memory -/

/-- A log of the older kind, with a plain line for each block. -/
def plainLog (bs : List Block) : Str := bs.flatMap fun b => encodeBlockMessage b ++ ['\n']

lemma loggedBlocks_plainLog (hasher : HashPort) (addr : AddrText) (bs : List Block) :
    HasCompleteTail (plainLog bs) ∧ loggedBlocks hasher addr (plainLog bs) = bs := by
  induction bs with
  | nil => exact ⟨.inl rfl, rfl⟩
  | cons b bs ih =>
    have hline : HasCompleteTail (encodeBlockMessage b ++ ['\n']) := .inr (by simp)
    have hlines : lines (encodeBlockMessage b ++ ['\n']) = [encodeBlockMessage b] :=
      lines_line (BlockCodec.encodeBlock_noNewline b) fun hlast =>
        BlockCodec.encodeBlock_noReturn b (List.mem_of_getLast? hlast)
    have hb : loggedBlocks hasher addr (encodeBlockMessage b ++ ['\n']) = [b] := by
      simp [loggedBlocks, hlines, lineBlock, LogLines.decodeStorageLine_plain]
    have hcons : plainLog (b :: bs) = (encodeBlockMessage b ++ ['\n']) ++ plainLog bs := rfl
    rw [hcons, loggedBlocks_append hline, hb, ih.2]
    refine ⟨?_, rfl⟩
    rcases ih.1 with hnil | hlast
    · rw [hnil, List.append_nil]
      exact hline
    · exact hasCompleteTail_append hlast

/-- A node can start on such a log when it loads. -/
lemma LogStart.plain {bs : List Block} {io : List AppendIo}
    (hstorage : st.storage = some ⟨some (utf8 (plainLog bs)), io⟩)
    (hload : initialChains hasher sampler addr config st.storage = .ok (st.chain, st.forkChoice))
    (hB : ∀ b ∈ bs, B b) : LogStart hasher sampler addr B config (plainLog bs) st := by
  obtain ⟨hcomplete, hlogged⟩ := loggedBlocks_plainLog hasher addr bs
  refine ⟨hload, ?_, hcomplete, by rwa [hlogged]⟩
  rw [logText, hstorage]
  exact fromUtf8_utf8 _

/-- **Replay equals memory**, in every run with restarts in which appends succeed. The log
holds what is known, parents before children, and nothing twice while no work score has
wrapped around. -/
theorem replay_eq_memory {st₀ st : NodeState} {text₀ : Str} (hasher : HashPort)
    (sampler : SamplingPort) (addr : AddrText) (B : Block → Prop) (config : ChainConfig)
    (hnonzero : ∀ b, B b → blockHash hasher b ≠ Digest.zero)
    (hdistinct : DistinctHeaders hasher B)
    (hstart : LogStart hasher sampler addr B config text₀ st₀)
    (hnodup : (loggedBlocks hasher addr text₀).Nodup)
    (hsucceed : AllAppends Succeeds st₀)
    (hrun : Relation.ReflTransGen (Serve hasher sampler addr B) st₀ st) :
    initialChains hasher sampler addr config st.storage = .ok (st.chain, st.forkChoice) ∧
      ∃ text, logText st = some text ∧
        (∀ k n, st.forkChoice.look k = some n → n.block ∈ loggedBlocks hasher addr text) ∧
        (∀ b ∈ loggedBlocks hasher addr text,
          st.forkChoice.containsBlock (blockHash hasher b) = true) ∧
        (ScoresFit st.forkChoice → (loggedBlocks hasher addr text).Nodup) ∧
        ParentsFirst hasher (loggedBlocks hasher addr text) := by
  have hkept : ∃ text, Kept hasher sampler addr B config text st := by
    induction hrun with
    | refl => exact ⟨text₀, hstart.active, LogStart.replays hstart hsucceed,
      hstart.logged, fun _ => hnodup⟩
    | tail _ hserve ih =>
      obtain ⟨text, hkept⟩ := ih
      exact hkept.serve hnonzero hdistinct hserve
  obtain ⟨text, hkept⟩ := hkept
  obtain ⟨s, hloads, hs⟩ := hkept.replays.loads
  have haccepted := hkept.replays.accepted
  refine ⟨?_, text, hkept.replays.log, fun k n hk => haccepted.block_mem hk,
    fun b hb => haccepted.known hb, hkept.nodup, haccepted.parentsFirst hdistinct hkept.logged⟩
  exact (initialChains_ok_iff hkept.replays.log).mpr ⟨s, hloads.2, hs, hs ▸ hkept.active.chain⟩

theorem replay_eq_memory_one_block :
    ∃ st, Relation.ReflTransGen (Serve toyHash deterministicSampler ⟨fun _ => [], fun _ => none⟩
          (· = candidate toyHash ⟨1, 1, 0⟩ ParentContext.genesis 1 0 0))
        (freshNode ⟨1, 1, 0⟩ (some ⟨none, []⟩)) st ∧
      initialChains toyHash deterministicSampler ⟨fun _ => [], fun _ => none⟩ ⟨1, 1, 0⟩
        st.storage = .ok (st.chain, st.forkChoice) := by
  have hrun : Relation.ReflTransGen (Serve toyHash deterministicSampler
      ⟨fun _ => [], fun _ => none⟩ (· = candidate toyHash ⟨1, 1, 0⟩ ParentContext.genesis 1 0 0))
      (freshNode ⟨1, 1, 0⟩ (some ⟨none, []⟩)) _ := .single (.step (.incoming _ .gossip rfl))
  refine ⟨_, hrun, ?_⟩
  refine (replay_eq_memory toyHash deterministicSampler ⟨fun _ => [], fun _ => none⟩ _ ⟨1, 1, 0⟩
    ?_ ?_ (freshNode_logStart _ _) List.nodup_nil ?_ hrun).1
  · intro b hb
    subst hb
    decide +kernel
  · rintro b b' rfl rfl -
    rfl
  · intro disk hdisk io hio
    cases hdisk
    cases hio

/-! ### A block that is logged twice

A mined block is appended without being looked up. Once the score of a block has wrapped
around, its parent stays the best tip, and the block is mined and appended again. -/

open WorkScores

def IsTall (b : Block) : Prop := ∃ n < 256, b = tallBlock n

lemma isTall_nonzero : ∀ b, IsTall b → blockHash tallHash b ≠ Digest.zero :=
  fun b _ => blockHash_tall_ne_zero b

lemma isTall_distinct : DistinctHeaders tallHash IsTall := by
  rintro b b' ⟨n, hn, rfl⟩ ⟨m, hm, rfl⟩ hhash
  rw [blockHash_tallBlock_inj (by omega) (by omega) hhash]

/-- What has been logged after so many blocks were mined. -/
def tallLog (n : ℕ) : List Block := (List.range n).map fun i => tallBlock (min i 255)

lemma tallLog_succ (n : ℕ) : tallLog (n + 1) = tallLog n ++ [tallBlock (min n 255)] := by
  simp [tallLog, List.range_succ]

/-- A node that has mined `n` blocks, and its log. -/
structure Mined (n : ℕ) (text : Str) (st : NodeState) : Prop where
  active : Active tallHash deterministicSampler IsTall st
  holds : Holds (min n 256) st.forkChoice
  config : Configured tall st
  succeed : AllAppends Succeeds st
  log : logText st = some text
  complete : HasCompleteTail text
  logged : loggedBlocks tallHash demoAddr text = tallLog n

/-- Mining one more block logs it, whether it was known or not. -/
lemma Mined.step {n : ℕ} (h : Mined n text st) (hn : n ≤ 256) :
    ∃ st' text', Step tallHash deterministicSampler IsTall st st' ∧ Mined (n + 1) text' st' := by
  have hmin : min (min n 256) 255 = min n 255 := by omega
  have hB : IsTall (tallBlock (min n 255)) := ⟨_, by omega, rfl⟩
  have hmined := h.holds.mineNextBlock (by omega)
  have hafter := h.holds.insertMined (by omega)
  rw [hmin] at hmined hafter
  obtain ⟨st', hmine, hfc, -⟩ :=
    mineOnce_succeeds h.active deterministicSampler_inRange isTall_nonzero hB hmined
  obtain ⟨-, -, hstorage, -⟩ := mineOnce_ok hmine
  have hmove := mineOnce_move hmine hB
  have hconfig := Move.configured hmove h.config
  obtain ⟨hio, io, hio', hlog⟩ := persisted_log ⟨rfl, rfl⟩ h.succeed h.log hstorage
  rw [appendText_succeeds hio'] at hlog
  refine ⟨st', _, .mine 0 0 hmine hB, h.active.move isTall_nonzero hmove, ?_, hconfig, hio,
    hlog, .inr ?_, ?_⟩
  · rw [hfc, show min (n + 1) 256 = min (min n 256 + 1) 256 by omega]
    exact hafter
  · rw [List.getLast?_append, entryText_getLast]
    rfl
  · rw [loggedBlocks_entry h.complete, h.logged, tallLog_succ]

lemma mined_run {n : ℕ} (hn : n ≤ 257) : ∃ st text,
    Relation.ReflTransGen (Serve tallHash deterministicSampler demoAddr IsTall)
      (freshNode tall (some ⟨none, []⟩)) st ∧ Mined n text st := by
  induction n with
  | zero =>
    have hstart : LogStart tallHash deterministicSampler demoAddr IsTall tall []
        (freshNode tall (some ⟨none, []⟩)) := freshNode_logStart _ _
    refine ⟨_, [], .refl, hstart.active, ?_, hstart.configured, ?_, hstart.log, hstart.complete,
      rfl⟩
    · exact tallState_holds (n := 0) (by norm_num)
    · intro disk hdisk io hio
      cases hdisk
      cases hio
  | succ n ih =>
    obtain ⟨st, text, hrun, hmined⟩ := ih (by omega)
    obtain ⟨st', text', hstep, hmined'⟩ := hmined.step (by omega)
    exact ⟨st', text', hrun.tail (.step hstep), hmined'⟩

/-- A node of difficulty 120 with an empty log that mines 257 blocks. All appends succeed and
all hashes are nonzero and different, and the log holds a block it knows twice. -/
theorem wrapped_score_logs_twice :
    tall.validate = .ok () ∧
      (∀ b, IsTall b → blockHash tallHash b ≠ Digest.zero) ∧ DistinctHeaders tallHash IsTall ∧
      LogStart tallHash deterministicSampler demoAddr IsTall tall []
        (freshNode tall (some ⟨none, []⟩)) ∧
      AllAppends Succeeds (freshNode tall (some ⟨none, []⟩)) ∧
      ∃ st text, Relation.ReflTransGen (Serve tallHash deterministicSampler demoAddr IsTall)
          (freshNode tall (some ⟨none, []⟩)) st ∧
        logText st = some text ∧
        st.forkChoice.containsBlock (blockHash tallHash (tallBlock 255)) = true ∧
        (∃ before, loggedBlocks tallHash demoAddr text =
          before ++ [tallBlock 255, tallBlock 255]) ∧
        ¬ (loggedBlocks tallHash demoAddr text).Nodup := by
  obtain ⟨st, text, hrun, hmined⟩ := mined_run (le_refl 257)
  have htwice : tallLog 257 = tallLog 255 ++ [tallBlock 255, tallBlock 255] := by
    rw [tallLog_succ, tallLog_succ, List.append_assoc]
    rfl
  have hknown := (containsBlock_iff _).mpr ⟨_, hmined.holds.known 255 (by omega)⟩
  have hsucceed : AllAppends Succeeds (freshNode tall (some ⟨none, []⟩)) := by
    intro disk hdisk io hio
    cases hdisk
    cases hio
  refine ⟨by decide, isTall_nonzero, isTall_distinct, freshNode_logStart _ _, hsucceed, st, text,
    hrun, hmined.log, hknown, ⟨_, hmined.logged.trans htwice⟩, ?_⟩
  rw [hmined.logged, htwice, List.nodup_append]
  rintro ⟨-, htail, -⟩
  exact (List.nodup_cons.mp htail).1 (List.mem_singleton_self _)

end Chesscoin.Replay
