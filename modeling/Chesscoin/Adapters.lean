import Mathlib.Data.List.Sort
import Chesscoin.Simulator

/-!
The node's hash function and sampler, the two ports every node is run with.

The hash absorbs one byte after another into four lanes. The sampler hashes the trace root,
the entropy and a counter, and collects the indices it meets until it has as many as were
asked for; the counter wraps around, so a search that has tried every value and is still
short never ends.
-/

namespace Chesscoin.Adapters

open Chesscoin.Lib.ByteString Chesscoin.Lib.Text Chesscoin.Domain Chesscoin.Simulator

/-! ### The hash -/

structure Lanes where
  l0 : UInt64
  l1 : UInt64
  l2 : UInt64
  l3 : UInt64

def Lanes.initial : Lanes :=
  ⟨0x243f6a8885a308d3, 0x13198a2e03707344, 0xa4093822299f31d0, 0x082efa98ec4e6c89⟩

/-- One lane takes in a byte at its position, and the lane after it. -/
def absorbLane (lane next : UInt64) (index : ℕ) (byte : UInt8) : UInt64 :=
  mix64 (rotateLeft (lane ^^^ (byte.toUInt64 + (UInt64.ofNat index <<< 8))) 13 + next)

def absorbByte (lanes : Lanes) (index : ℕ) (byte : UInt8) : Lanes :=
  match index % 4 with
  | 0 => { lanes with l0 := absorbLane lanes.l0 lanes.l1 index byte }
  | 1 => { lanes with l1 := absorbLane lanes.l1 lanes.l2 index byte }
  | 2 => { lanes with l2 := absorbLane lanes.l2 lanes.l3 index byte }
  | _ => { lanes with l3 := absorbLane lanes.l3 lanes.l0 index byte }

def absorb : Lanes → ℕ → Bytes → Lanes
  | lanes, _, [] => lanes
  | lanes, index, byte :: rest => absorb (absorbByte lanes index byte) (index + 1) rest

def toyDigest (bytes : Bytes) : Digest :=
  let lanes := absorb Lanes.initial 0 bytes
  let length := UInt64.ofNat bytes.length
  let l0 := lanes.l0 ^^^ length
  let l1 := lanes.l1 ^^^ rotateLeft length 17
  let l2 := lanes.l2 ^^^ (l0 + l1)
  let l3 := lanes.l3 ^^^ rotateLeft l2 57
  ⟨u64Le (mix64 l0) ++ u64Le (mix64 l1) ++ u64Le (mix64 l2) ++ u64Le (mix64 l3), by
    simp [u64Le]⟩

def toyHash : HashPort := ⟨toyDigest⟩

lemma absorb_append (lanes : Lanes) (i : ℕ) (a b : Bytes) :
    absorb lanes i (a ++ b) = absorb (absorb lanes i a) (i + a.length) b := by
  induction a generalizing lanes i with
  | nil => rfl
  | cons byte a ih =>
    rw [List.cons_append, absorb, absorb, ih, List.length_cons, Nat.add_right_comm, Nat.add_assoc]

/-- The first eight bytes of a digest are those of its first lane. -/
lemma toyDigest_head (bytes : Bytes) :
    (toyDigest bytes).bytes.take 8 =
      u64Le (mix64 ((absorb Lanes.initial 0 bytes).l0 ^^^ UInt64.ofNat bytes.length)) := by
  simp only [toyDigest, List.append_assoc]
  exact List.take_left' (by simp [u64Le])

/-! ### The sampler -/

def sampleTag : Bytes := utf8 "chesscoin.sample.v1".toList

/-- The number eight bytes write, least significant first. -/
def fromLe : Bytes → ℕ
  | [] => 0
  | b :: bs => b.toNat + 256 * fromLe bs

def sampleIndex (traceLen : ℕ) (traceRoot : Digest) (entropy nonce : UInt64) : ℕ :=
  fromLe ((toyDigest (sampleTag ++ traceRoot.bytes ++ u64Le entropy ++ u64Le nonce)).bytes.take 8)
    % traceLen

/-- The search for `sampleCount` indices; `none` when it runs out of fuel. -/
def searchIndices (traceLen sampleCount : ℕ) (traceRoot : Digest) (entropy : UInt64) :
    ℕ → UInt64 → List ℕ → Option (List ℕ)
  | 0, _, selected => if selected.length < sampleCount then none else some selected
  | fuel + 1, nonce, selected =>
    if selected.length < sampleCount then
      let index := sampleIndex traceLen traceRoot entropy nonce
      searchIndices traceLen sampleCount traceRoot entropy fuel (nonce + 1)
        (if index ∈ selected then selected else selected ++ [index])
    else some selected

/-- `none` is a call that does not return: the counter has come round to where it began. -/
def sampleIndices (traceLen sampleCount : ℕ) (traceRoot : Digest) (entropy : UInt64) :
    Option (List ℕ) :=
  if traceLen = 0 ∨ sampleCount = 0 then some []
  else if traceLen ≤ sampleCount then some (List.range traceLen)
  else (searchIndices traceLen sampleCount traceRoot entropy (2 ^ 64) 0 []).map
    (List.insertionSort (· ≤ ·))

/-- The port is total: a call that does not return counts as choosing nothing. -/
def deterministicSampler : SamplingPort :=
  ⟨fun traceLen sampleCount traceRoot entropy =>
    (sampleIndices traceLen sampleCount traceRoot entropy).getD []⟩

lemma searchIndices_lt {traceLen sampleCount : ℕ} {traceRoot : Digest} {entropy : UInt64}
    (hlen : 0 < traceLen) {fuel : ℕ} {nonce : UInt64} {selected found : List ℕ}
    (hsel : ∀ i ∈ selected, i < traceLen)
    (h : searchIndices traceLen sampleCount traceRoot entropy fuel nonce selected = some found) :
    ∀ i ∈ found, i < traceLen := by
  induction fuel generalizing nonce selected with
  | zero =>
    simp only [searchIndices] at h
    split at h
    · cases h
    · cases h
      exact hsel
  | succ fuel ih =>
    simp only [searchIndices] at h
    split at h
    · refine ih ?_ h
      intro i hi
      split at hi
      · exact hsel i hi
      · rcases List.mem_append.mp hi with hi | hi
        · exact hsel i hi
        · rw [List.mem_singleton.mp hi]
          exact Nat.mod_lt _ hlen
    · cases h
      exact hsel

/-- **The sampler stays in range.** -/
theorem deterministicSampler_inRange : deterministicSampler.InRange := by
  intro traceLen sampleCount root entropy i hi
  simp only [deterministicSampler, sampleIndices] at hi
  split at hi
  · cases hi
  · split at hi
    · exact List.mem_range.mp hi
    · next hne hlt =>
      cases hs : searchIndices traceLen sampleCount root entropy (2 ^ 64) 0 [] with
      | none => rw [hs] at hi; cases hi
      | some found =>
        rw [hs] at hi
        have hmem : i ∈ found := by simpa using hi
        exact searchIndices_lt (by omega) (by simp) hs i hmem

/-- **The sampler looks everywhere** when asked for as many samples as there are steps. -/
theorem deterministicSampler_full : deterministicSampler.Full := by
  intro traceLen root entropy i hi
  have hne : ¬(traceLen = 0 ∨ traceLen = 0) := by omega
  simp only [deterministicSampler, sampleIndices, if_neg hne, le_refl, if_true, Option.getD_some,
    List.mem_range]
  exact hi

end Chesscoin.Adapters
