import Mathlib.Algebra.BigOperators.Group.Finset.Piecewise
import Mathlib.Algebra.Order.BigOperators.Group.Finset
import Mathlib.Data.List.GetD
import Chesscoin.HonestTrace
import Chesscoin.Screening

/-!
How far training moves a model.

The gradient of a step is a hash modulo 41, less 20, so its product with the learning rate is
small and the step moves one weight by at most two. Over a trace the moves add up to twice
the number of steps, and where every step is sampled a chain of blocks moves the model by at
most twice its number of steps. Far from the ends of the 64-bit range nothing saturates.
-/

namespace Chesscoin.Drift

open Finset Chesscoin.Domain Chesscoin.Simulator Chesscoin.Validation Chesscoin.Adapters
  Chesscoin.Mining Chesscoin.HonestTrace Chesscoin.ForkChoice Chesscoin.ForkTree
  Chesscoin.Screening

/-! ### One step -/

/-- What a step takes off its weight. -/
def delta (gradient : Int64) : Int64 := gradient * learningRatePpm / 1000000

/-- A value in the range of a word is not changed by the reduction to one. -/
lemma bmod_word {z : ℤ} (hlow : -2 ^ 63 ≤ z) (hhigh : z < 2 ^ 63) : z.bmod (2 ^ 64) = z :=
  Int.bmod_eq_of_le (by omega) (by omega)

lemma deterministicGradient_bounds (seed index : UInt64) (m : ModelState) (mixed : UInt64) :
    -20 ≤ (deterministicGradient seed index m mixed).toInt ∧
      (deterministicGradient seed index m mixed).toInt ≤ 20 := by
  obtain ⟨a, ha⟩ : ∃ a, a = accumulate mixed (seed + rotateLeft index 17) 0 m.weights := ⟨_, rfl⟩
  have hlt : (a % 41).toNat < 41 := by
    rw [UInt64.toNat_mod]
    exact Nat.mod_lt _ (by decide)
  have hsmall : (a % 41).toInt64.toInt = (a % 41).toNat := by
    have hbits : 2 * (a % 41).toBitVec.toNat < 2 ^ 64 := by
      rw [UInt64.toNat_toBitVec]
      omega
    exact BitVec.toInt_eq_toNat_of_lt hbits
  have htwenty : (20 : Int64).toInt = 20 := rfl
  rw [deterministicGradient, ← ha, Int64.toInt_sub, hsmall, htwenty,
    bmod_word (by omega) (by omega)]
  omega

/-- The product of a gradient with the learning rate is exact. -/
lemma product_exact {g : Int64} (h : -20 ≤ g.toInt ∧ g.toInt ≤ 20) :
    (g * learningRatePpm).toInt = g.toInt * learningRatePpm.toInt := by
  have hrate : learningRatePpm.toInt = 125000 := rfl
  rw [Int64.toInt_mul, hrate, bmod_word (by omega) (by omega)]

lemma delta_near {g : Int64} (h : -20 ≤ g.toInt ∧ g.toInt ≤ 20) : (delta g).toInt.natAbs ≤ 2 := by
  have hrate : learningRatePpm.toInt = 125000 := rfl
  have hmillion : (1000000 : Int64).toInt = 1000000 := rfl
  rw [delta, Int64.toInt_div_of_ne_right _ _ (by decide), product_exact h, hrate, hmillion,
    Int.natAbs_tdiv]
  show (g.toInt * 125000).natAbs / 1000000 ≤ 2
  omega

/-- Saturating or not, the difference is no further away than what is taken off. -/
lemma saturatingSub_near (a b : Int64) :
    ((saturatingSub a b).toInt - a.toInt).natAbs ≤ b.toInt.natAbs := by
  have ha := a.toInt_lt
  have ha' := a.le_toInt
  have hmin : Int64.minValue.toInt = -2 ^ 63 := rfl
  have hmax : Int64.maxValue.toInt = 2 ^ 63 - 1 := rfl
  simp only [saturatingSub]
  split
  · rw [hmin]
    omega
  · split
    · rw [hmax]
      omega
    · rw [Int64.toInt_ofInt_of_le (by omega) (by omega)]
      omega

/-! ### Weights -/

/-- The weight at a place, as an integer. -/
def weight (m : ModelState) (i : ℕ) : ℤ := (m.weights.getD i 0).toInt

lemma weight_setWeight (m : ModelState) {k : ℕ} (hk : k < modelWidth) (w : Int64) (i : ℕ) :
    weight (m.setWeight k w) i = if i = k then w.toInt else weight m i := by
  have hlen : k < m.weights.length := by rw [m.width]; exact hk
  simp only [weight, ModelState.setWeight, List.getD_eq_getElem?_getD, List.getElem?_set]
  by_cases hi : k = i
  · subst hi
    simp [hlen]
  · simp [hi, Ne.symm hi]

/-- The sum of the absolute changes from one model to another. -/
def drift (m m' : ModelState) : ℕ :=
  ∑ i ∈ range modelWidth, (weight m' i - weight m i).natAbs

@[simp] lemma drift_self (m : ModelState) : drift m m = 0 := by
  simp [drift]

lemma drift_triangle (a b c : ModelState) : drift a c ≤ drift a b + drift b c := by
  rw [drift, drift, drift, ← sum_add_distrib]
  refine sum_le_sum fun i _ => ?_
  omega

lemma weight_near (m m' : ModelState) (i : ℕ) :
    (weight m' i - weight m i).natAbs ≤ drift m m' := by
  rcases Nat.lt_or_ge i modelWidth with hi | hi
  · exact single_le_sum (f := fun i => (weight m' i - weight m i).natAbs)
      (fun _ _ => Nat.zero_le _) (mem_range.mpr hi)
  · have hout : ∀ n : ModelState, weight n i = 0 := by
      intro n
      rw [weight, List.getD_eq_default _ _ (by rw [n.width]; exact hi)]
      rfl
    rw [hout, hout]
    exact Nat.zero_le _

/-! ### A step on its weight -/

lemma weightIndex_lt (seed index : UInt64) (m : ModelState) :
    (TrainingStep.deterministic seed index m).weightIndex.toNat < modelWidth := by
  simp only [TrainingStep.deterministic, UInt64.toNat_mod]
  exact Nat.mod_lt _ (by decide)

/-- What a step does to the model it starts from: its product is exact, and it changes one
weight only, by at most two. -/
structure Bounded (s : TrainingStep) : Prop where
  product : (s.gradient * s.learningRatePpm).toInt = s.gradient.toInt * s.learningRatePpm.toInt
  others : ∀ i, i ≠ s.weightIndex.toNat → weight s.stateAfter i = weight s.stateBefore i
  change : ∀ i, (weight s.stateAfter i - weight s.stateBefore i).natAbs ≤ 2

/-- The subtraction of a step leaves the 64-bit range. -/
def Saturates (s : TrainingStep) : Prop :=
  weight s.stateBefore s.weightIndex.toNat - (delta s.gradient).toInt < -2 ^ 63 ∨
    2 ^ 63 ≤ weight s.stateBefore s.weightIndex.toNat - (delta s.gradient).toInt

lemma gradient_bounds (seed index : UInt64) (m : ModelState) :
    -20 ≤ (TrainingStep.deterministic seed index m).gradient.toInt ∧
      (TrainingStep.deterministic seed index m).gradient.toInt ≤ 20 :=
  deterministicGradient_bounds seed index m _

lemma stateAfter_eq (seed index : UInt64) (m : ModelState) :
    (TrainingStep.deterministic seed index m).stateAfter =
      m.setWeight (TrainingStep.deterministic seed index m).weightIndex.toNat
        (saturatingSub
          (m.weights.getD (TrainingStep.deterministic seed index m).weightIndex.toNat 0)
          (delta (TrainingStep.deterministic seed index m).gradient)) := rfl

lemma deterministic_bounded (seed index : UInt64) (m : ModelState) :
    Bounded (TrainingStep.deterministic seed index m) := by
  have hafter := stateAfter_eq seed index m
  have hwi := weightIndex_lt seed index m
  have hg := gradient_bounds seed index m
  refine ⟨product_exact hg, fun i hi => ?_, fun i => ?_⟩
  · rw [hafter, weight_setWeight m hwi, if_neg hi]
    rfl
  · rw [hafter, weight_setWeight m hwi]
    split
    · next hi =>
      rw [hi]
      exact (saturatingSub_near _ _).trans (delta_near hg)
    · simp

lemma Bounded.drift_le {s : TrainingStep} (h : Bounded s) :
    drift s.stateBefore s.stateAfter ≤ 2 := by
  have hle : drift s.stateBefore s.stateAfter ≤
      ∑ i ∈ range modelWidth, if i = s.weightIndex.toNat then 2 else 0 := by
    refine sum_le_sum fun i _ => ?_
    split
    · exact h.change i
    · next hi => simp [h.others i hi]
  rw [sum_ite_eq'] at hle
  split at hle <;> omega

/-! ### Traces -/

section Traces

variable (hasher : HashPort)

lemma buildEntries_bounded (seed : UInt64) (n index : ℕ) (s : ModelState) (d : Digest) :
    ∀ e ∈ (buildEntries hasher seed n index s d).1, Bounded e.step := by
  induction n generalizing index s d with
  | zero => simp [buildEntries]
  | succ n ih =>
    rw [buildEntries, List.forall_mem_cons]
    exact ⟨deterministic_bounded seed _ s, ih _ _ _⟩

/-- After `i` steps the model has moved by at most `2 * i`. -/
lemma buildEntries_stateBefore (seed : UInt64) (n index : ℕ) (s : ModelState) (d : Digest) (i : ℕ)
    (e : TraceEntry) (he : (buildEntries hasher seed n index s d).1[i]? = some e) :
    drift s e.step.stateBefore ≤ 2 * i := by
  induction n generalizing index s d i with
  | zero => simp [buildEntries] at he
  | succ n ih =>
    rw [buildEntries] at he
    cases i with
    | zero =>
      cases he
      simp
    | succ i =>
      have hstep := (deterministic_bounded seed (UInt64.ofNat index) s).drift_le
      rw [deterministic_stateBefore] at hstep
      have hrest := ih _ _ _ i he
      have htri := drift_triangle s
        (TrainingStep.deterministic seed (UInt64.ofNat index) s).stateAfter e.step.stateBefore
      omega

lemma buildEntries_drift (seed : UInt64) (n index : ℕ) (s : ModelState) (d : Digest) :
    drift s (buildEntries hasher seed n index s d).2.1 ≤ 2 * n := by
  induction n generalizing index s d with
  | zero => simp [buildEntries]
  | succ n ih =>
    have hstep := (deterministic_bounded seed (UInt64.ofNat index) s).drift_le
    rw [deterministic_stateBefore] at hstep
    have hrest := ih (index + 1) (TrainingStep.deterministic seed (UInt64.ofNat index) s).stateAfter
      (commitStep hasher d (TrainingStep.deterministic seed (UInt64.ofNat index) s))
    have htri := drift_triangle s
      (TrainingStep.deterministic seed (UInt64.ofNat index) s).stateAfter
      (buildEntries hasher seed (n + 1) index s d).2.1
    simp only [buildEntries] at htri ⊢
    omega

/-- A step from a model that is far from the ends of the range does not saturate. -/
lemma not_saturates {s : TrainingStep} {m : ModelState}
    (hdelta : (delta s.gradient).toInt.natAbs ≤ 2) (hm : ∀ i, (weight m i).natAbs ≤ 210)
    (hfar : 212 + drift m s.stateBefore < 2 ^ 63) :
    ¬ Saturates s := by
  have hnear := weight_near m s.stateBefore s.weightIndex.toNat
  have hgen := hm s.weightIndex.toNat
  rw [Saturates]
  omega

end Traces

/-! ### Chains -/

section Chains

variable {hasher : HashPort} {config : ChainConfig} {blocks : List Block}

lemma genesis_near (i : ℕ) : (weight ModelState.genesis i).natAbs ≤ 210 := by
  rcases Nat.lt_or_ge i modelWidth with hi | hi
  · have h : ∀ k : Fin 8, (weight ModelState.genesis k).natAbs ≤ 210 := by decide
    exact h ⟨i, hi⟩
  · rw [weight, List.getD_eq_default _ _ (by rw [ModelState.genesis.width]; exact hi)]
    decide

lemma currentModel_append (b : Block) :
    (ChainState.mk config (blocks ++ [b])).currentModel = b.header.modelAfter := by
  simp [ChainState.currentModel]

/-- A block moves the model of its parent, and never saturates where that is far from the
ends of the range. -/
lemma block_drift {parent : ParentContext} {block : Block}
    (hcount : config.samplesPerBlock = config.stepsPerBlock)
    (h : Valid hasher deterministicSampler config parent block) :
    drift parent.model block.header.modelAfter ≤ 2 * config.stepsPerBlock.toNat ∧
      ∀ e ∈ block.trace.entries, (delta e.step.gradient).toInt.natAbs ≤ 2 ∧
        drift parent.model e.step.stateBefore + 2 ≤ 2 * config.stepsPerBlock.toNat := by
  have htrace := trace_eq_of_full hasher _ deterministicSampler_full hcount h
  constructor
  · rw [← h.modelAfter, htrace]
    exact buildEntries_drift hasher _ _ _ _ _
  · intro e he
    obtain ⟨i, hi, hget⟩ := List.getElem_of_mem he
    have hsome : block.trace.entries[i]? = some e := by rw [List.getElem?_eq_getElem hi, hget]
    have hlen := h.traceLength
    rw [htrace] at hsome
    have hbefore := buildEntries_stateBefore hasher _ _ _ _ _ i e hsome
    have hhonest := buildEntries_honest hasher _ _ _ _ _ i e hsome
    refine ⟨?_, by omega⟩
    rw [hhonest]
    exact delta_near (gradient_bounds _ _ _)

/-- After `i` blocks the model is at most `i` times twice the number of steps away. -/
lemma chain_drift (hcount : config.samplesPerBlock = config.stepsPerBlock)
    (h : Replayed hasher deterministicSampler config blocks) {i : ℕ} (hi : i ≤ blocks.length) :
    drift ModelState.genesis (ChainState.mk config (blocks.take i)).currentModel ≤
      2 * config.stepsPerBlock.toNat * i := by
  induction i with
  | zero =>
    show drift ModelState.genesis ModelState.genesis ≤ _
    simp
  | succ i ih =>
    have hget := List.getElem?_eq_getElem (show i < blocks.length by omega)
    have hblock := (block_drift hcount (h i _ hget)).1
    have hearlier := ih (by omega)
    have htri := drift_triangle ModelState.genesis
      (ChainState.mk config (blocks.take i)).currentModel (blocks[i]).header.modelAfter
    rw [List.take_add_one, hget, Option.toList_some, currentModel_append]
    have hmodel : ((ChainState.mk config (blocks.take i)).headContext hasher).model =
        (ChainState.mk config (blocks.take i)).currentModel := rfl
    rw [hmodel] at hblock
    calc drift ModelState.genesis (blocks[i]).header.modelAfter
        ≤ 2 * config.stepsPerBlock.toNat * i + 2 * config.stepsPerBlock.toNat := by omega
      _ = 2 * config.stepsPerBlock.toNat * (i + 1) := by ring

lemma chain_not_saturates (hcount : config.samplesPerBlock = config.stepsPerBlock)
    (h : Replayed hasher deterministicSampler config blocks)
    (hfar : 210 + 2 * config.stepsPerBlock.toNat * blocks.length < 2 ^ 63) :
    ∀ b ∈ blocks, ∀ e ∈ b.trace.entries, ¬ Saturates e.step := by
  intro b hb e he
  obtain ⟨i, hi, hget⟩ := List.getElem_of_mem hb
  have hsome : blocks[i]? = some b := by rw [List.getElem?_eq_getElem hi, hget]
  obtain ⟨hdelta, hbefore⟩ := (block_drift hcount (h i b hsome)).2 e he
  have hchain := chain_drift hcount h hi.le
  have htri := drift_triangle ModelState.genesis
    (ChainState.mk config (blocks.take i)).currentModel e.step.stateBefore
  have hmodel : ((ChainState.mk config (blocks.take i)).headContext hasher).model =
      (ChainState.mk config (blocks.take i)).currentModel := rfl
  rw [hmodel] at hbefore
  have hlast : 2 * config.stepsPerBlock.toNat * i + 2 * config.stepsPerBlock.toNat ≤
      2 * config.stepsPerBlock.toNat * blocks.length := by
    rw [← Nat.mul_succ]
    exact Nat.mul_le_mul_left _ hi
  exact not_saturates hdelta genesis_near (by omega)

end Chains

/-- **Training drift is bounded.** In a trace from any model no product of a gradient and the
learning rate overflows, each step changes one weight by at most two, and the changes add up
to at most twice the number of steps. Where every step is sampled, `h` blocks move each weight
by at most `2 * steps * h`, and no step saturates while `210 + 2 * steps * h` is in range. -/
theorem training_drift (hasher : HashPort) (config : ChainConfig) (blocks : List Block)
    (chain : ChainState) (hcount : config.samplesPerBlock = config.stepsPerBlock)
    (hchain : chainFromBlocks hasher deterministicSampler config blocks = .ok chain) :
    (∀ (seed : UInt64) (steps : ℕ) (m : ModelState),
      (∀ e ∈ (buildTraceFrom hasher m seed steps).entries, Bounded e.step) ∧
        drift m (buildTraceFrom hasher m seed steps).candidateModel ≤ 2 * steps) ∧
      (∀ i, (weight chain.currentModel i - weight ModelState.genesis i).natAbs ≤
        2 * config.stepsPerBlock.toNat * blocks.length) ∧
      (210 + 2 * config.stepsPerBlock.toNat * blocks.length < 2 ^ 63 →
        ∀ b ∈ chain.blocks, ∀ e ∈ b.trace.entries, ¬ Saturates e.step) := by
  have hreplayed := replayed_of_chainFromBlocks hchain
  have heq : chain = ⟨config, blocks⟩ := applyAll_eq hchain
  subst heq
  refine ⟨fun seed steps m => ⟨buildEntries_bounded hasher _ _ _ _ _,
    buildEntries_drift hasher _ _ _ _ _⟩, fun i => ?_, chain_not_saturates hcount hreplayed⟩
  have hdrift := chain_drift hcount hreplayed (Nat.le_refl _)
  rw [List.take_length] at hdrift
  exact (weight_near _ _ i).trans hdrift

theorem training_drift_one_block :
    (weight (candidate toyHash ⟨1, 1, 0⟩ ParentContext.genesis 1 0 0).header.modelAfter 3 -
        weight ModelState.genesis 3).natAbs ≤ 2 ∧
      ∀ e ∈ (candidate toyHash ⟨1, 1, 0⟩ ParentContext.genesis 1 0 0).trace.entries,
        ¬ Saturates e.step := by
  obtain ⟨block, hblock⟩ : ∃ b, b = candidate toyHash ⟨1, 1, 0⟩ ParentContext.genesis 1 0 0 :=
    ⟨_, rfl⟩
  have hvalid : validateBlockAfter toyHash deterministicSampler ⟨1, 1, 0⟩ ParentContext.genesis
      block = .ok () := by
    rw [hblock]
    decide +kernel
  have hchain : chainFromBlocks toyHash deterministicSampler ⟨1, 1, 0⟩ [block] =
      .ok ⟨⟨1, 1, 0⟩, [block]⟩ :=
    applyAll_append (c := ChainState.new ⟨1, 1, 0⟩) [] rfl
      ((validateBlockAfter_ok _ _ _ _ _).mp hvalid)
  obtain ⟨-, hweight, hfar⟩ := training_drift toyHash ⟨1, 1, 0⟩ [block] _ rfl hchain
  rw [← hblock]
  exact ⟨hweight 3, hfar (by simp) block (by simp)⟩

end Chesscoin.Drift
