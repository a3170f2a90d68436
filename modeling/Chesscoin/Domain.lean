import Chesscoin.Lib.Text

/-!
The protocol data: digests, model states, training steps, headers and blocks, with the
byte strings they are hashed as.

A model state is eight weights. A training step moves one weight by an amount that is a
function of the seed, the index and the state it starts from; a trace is a list of steps,
each committed to together with the commitment before it.
-/

namespace Chesscoin.Domain

open Chesscoin.Lib.ByteString Chesscoin.Lib.Text

/-- A `usize` of the 64-bit targets. -/
abbrev Usize := UInt64

def u64Le (x : UInt64) : Bytes := le 8 x.toNat
def i64Le (x : Int64) : Bytes := le 8 x.toUInt64.toNat

def modelWidth : ℕ := 8
def learningRatePpm : Int64 := 125000

/-! ### Digests -/

structure Digest where
  bytes : Bytes
  size : bytes.length = 32
  deriving DecidableEq

namespace Digest

def zero : Digest := ⟨List.replicate 32 0, by simp⟩

def hexDigit (nibble : UInt8) : Char :=
  if nibble ≤ 9 then Char.ofNat (48 + nibble.toNat) else Char.ofNat (97 + (nibble.toNat - 10))

def decodeHexDigit (byte : UInt8) : Except String UInt8 :=
  if 48 ≤ byte ∧ byte ≤ 57 then .ok (byte - 48)
  else if 97 ≤ byte ∧ byte ≤ 102 then .ok (byte - 97 + 10)
  else if 65 ≤ byte ∧ byte ≤ 70 then .ok (byte - 65 + 10)
  else .error "invalid hex digit"

def toHex (d : Digest) : Str :=
  d.bytes.flatMap fun (b : UInt8) => [hexDigit (b >>> 4), hexDigit (b &&& 0x0f)]

/-- The bytes of `n` pairs of hex digits. -/
def decodePairs : (n : ℕ) → Bytes → Except String { out : Bytes // out.length = n }
  | 0, _ => .ok ⟨[], rfl⟩
  | n + 1, high :: low :: rest =>
    match decodeHexDigit high with
    | .error e => .error e
    | .ok high =>
      match decodeHexDigit low with
      | .error e => .error e
      | .ok low =>
        match decodePairs n rest with
        | .error e => .error e
        | .ok ⟨out, h⟩ => .ok ⟨((high <<< 4) ||| low) :: out, by simp [h]⟩
  | _ + 1, _ => .error "invalid hex digit"

/-- The length that counts is the one in bytes. -/
def fromHex (input : Str) : Except String Digest :=
  let chars := utf8 input
  if chars.length ≠ 64 then .error "digest hex must be 64 characters"
  else match decodePairs 32 chars with
    | .error e => .error e
    | .ok ⟨out, h⟩ => .ok ⟨out, h⟩

def leadingZeros (byte : UInt8) : ℕ := if byte = 0 then 8 else 7 - Nat.log2 byte.toNat

/-- Whole zero bytes count eight each; the first other byte ends the count. -/
def leadingZeroBitsFrom : Bytes → ℕ
  | [] => 0
  | byte :: rest => if byte = 0 then 8 + leadingZeroBitsFrom rest else leadingZeros byte

def leadingZeroBits (d : Digest) : ℕ := leadingZeroBitsFrom d.bytes

end Digest

/-! ### Model states -/

structure ModelState where
  weights : List Int64
  width : weights.length = modelWidth
  deriving DecidableEq

namespace ModelState

def genesis : ModelState := ⟨[120, -80, 45, 210, -135, 65, 15, -30], rfl⟩

def encode (m : ModelState) : Bytes := m.weights.flatMap i64Le

/-- The state with one weight replaced. -/
def setWeight (m : ModelState) (index : ℕ) (weight : Int64) : ModelState :=
  ⟨m.weights.set index weight, by rw [List.length_set, m.width]⟩

end ModelState

/-! ### Training steps -/

structure TrainingStep where
  index : UInt64
  seed : UInt64
  batchId : UInt64
  weightIndex : Usize
  gradient : Int64
  learningRatePpm : Int64
  stateBefore : ModelState
  stateAfter : ModelState
  deriving DecidableEq

def mix64 (value : UInt64) : UInt64 :=
  let value := value ^^^ (value >>> 30)
  let value := value * 0xbf58476d1ce4e5b9
  let value := value ^^^ (value >>> 27)
  let value := value * 0x94d049bb133111eb
  value ^^^ (value >>> 31)

def rotateLeft (x : UInt64) (n : UInt64) : UInt64 := (x <<< n) ||| (x >>> (64 - n))

/-- One weight after another is mixed into the accumulator, under its position. -/
def accumulate (mixed : UInt64) : UInt64 → ℕ → List Int64 → UInt64
  | accumulator, _, [] => accumulator
  | accumulator, offset, weight :: rest =>
    let lane := weight.toUInt64 * (UInt64.ofNat offset + 3)
    accumulate mixed (mix64 (accumulator ^^^ lane ^^^ rotateLeft mixed (UInt64.ofNat offset)))
      (offset + 1) rest

def deterministicGradient (seed index : UInt64) (state : ModelState) (mixed : UInt64) : Int64 :=
  let accumulator := accumulate mixed (seed + rotateLeft index 17) 0 state.weights
  (accumulator % 41).toInt64 - 20

/-- Subtraction held at the ends of the 64-bit range. -/
def saturatingSub (a b : Int64) : Int64 :=
  let d := a.toInt - b.toInt
  if d < -2 ^ 63 then Int64.minValue
  else if 2 ^ 63 ≤ d then Int64.maxValue
  else Int64.ofInt d

namespace TrainingStep

def deterministic (seed index : UInt64) (stateBefore : ModelState) : TrainingStep :=
  let mixed := mix64 (seed ^^^ (index * 0x9e3779b97f4a7c15))
  let weightIndex := mixed % 8
  let batchId := mix64 (mixed ^^^ 0xa0761d6478bd642f)
  let gradient := deterministicGradient seed index stateBefore mixed
  let delta := (gradient * Domain.learningRatePpm) / 1000000
  let weight := stateBefore.weights.getD weightIndex.toNat 0
  { index, seed, batchId, weightIndex, gradient
    learningRatePpm := Domain.learningRatePpm
    stateBefore
    stateAfter := stateBefore.setWeight weightIndex.toNat (saturatingSub weight delta) }

def tag : Bytes := utf8 "chesscoin.trace-step.v1".toList

def encode (s : TrainingStep) : Bytes :=
  tag ++ (u64Le s.index ++ (u64Le s.seed ++ (u64Le s.batchId ++ (u64Le s.weightIndex ++
    (i64Le s.gradient ++ (i64Le s.learningRatePpm ++
      (s.stateBefore.encode ++ s.stateAfter.encode)))))))

end TrainingStep

/-! ### Blocks -/

structure BlockHeader where
  height : UInt64
  previousBlock : Digest
  modelBefore : ModelState
  modelAfter : ModelState
  traceRoot : Digest
  trainingSeed : UInt64
  samplingEntropy : UInt64
  sampleCount : Usize
  nonce : UInt64
  deriving DecidableEq

namespace BlockHeader

def tag : Bytes := utf8 "chesscoin.block-header.v1".toList

def encode (h : BlockHeader) : Bytes :=
  tag ++ (u64Le h.height ++ (h.previousBlock.bytes ++ (h.modelBefore.encode ++
    (h.modelAfter.encode ++ (h.traceRoot.bytes ++ (u64Le h.trainingSeed ++
      (u64Le h.samplingEntropy ++ (u64Le h.sampleCount ++ u64Le h.nonce))))))))

end BlockHeader

structure TraceEntry where
  previousCommitment : Digest
  step : TrainingStep
  commitment : Digest
  deriving DecidableEq

structure TrainingTrace where
  initialModel : ModelState
  candidateModel : ModelState
  entries : List TraceEntry
  root : Digest
  deriving DecidableEq

structure Block where
  header : BlockHeader
  trace : TrainingTrace
  deriving DecidableEq

structure VerificationSample where
  index : ℕ
  commitmentOk : Bool
  transitionOk : Bool
  deriving DecidableEq

def VerificationSample.accepted (s : VerificationSample) : Bool := s.commitmentOk && s.transitionOk

/-! ### Digests as text -/

namespace Digest

def hexAlphabet : Str := "0123456789abcdef".toList

lemma hexDigit_mem (b : UInt8) :
    hexDigit (b >>> 4) ∈ hexAlphabet ∧ hexDigit (b &&& 0x0f) ∈ hexAlphabet := by
  have h : ∀ i : Fin 256, hexDigit (UInt8.ofNat i >>> 4) ∈ hexAlphabet ∧
      hexDigit (UInt8.ofNat i &&& 0x0f) ∈ hexAlphabet := by decide +kernel
  simpa using h ⟨b.toNat, b.toNat_lt⟩

lemma toHex_subset (d : Digest) : d.toHex ⊆ hexAlphabet := by
  intro c hc
  obtain ⟨b, -, hb⟩ := List.mem_flatMap.mp hc
  rcases List.mem_pair.mp hb with rfl | rfl
  · exact (hexDigit_mem b).1
  · exact (hexDigit_mem b).2

lemma hexAlphabet_ascii : Ascii hexAlphabet := by
  have h : hexAlphabet.all (fun c => c.toNat < 128) = true := by decide
  intro c hc
  simpa using List.all_eq_true.mp h c hc

/-- The two digits of a byte give the byte back. -/
lemma decode_hexDigit (b : UInt8) :
    decodeHexDigit (UInt8.ofNat (hexDigit (b >>> 4)).toNat) = .ok (b >>> 4) ∧
      decodeHexDigit (UInt8.ofNat (hexDigit (b &&& 0x0f)).toNat) = .ok (b &&& 0x0f) ∧
      ((b >>> 4) <<< 4) ||| (b &&& 0x0f) = b := by
  have h : ∀ i : Fin 256, decodeHexDigit (UInt8.ofNat (hexDigit (UInt8.ofNat i >>> 4)).toNat) =
        .ok (UInt8.ofNat i >>> 4) ∧
      decodeHexDigit (UInt8.ofNat (hexDigit (UInt8.ofNat i &&& 0x0f)).toNat) =
        .ok (UInt8.ofNat i &&& 0x0f) ∧
      ((UInt8.ofNat i >>> 4) <<< 4) ||| (UInt8.ofNat i &&& 0x0f) = UInt8.ofNat i := by
    decide +kernel
  simpa using h ⟨b.toNat, b.toNat_lt⟩

lemma decodePairs_hex {n : ℕ} (bytes : Bytes) (hn : bytes.length = n) :
    decodePairs n ((bytes.flatMap fun (b : UInt8) =>
      [hexDigit (b >>> 4), hexDigit (b &&& 0x0f)]).map fun c => UInt8.ofNat c.toNat) =
      .ok ⟨bytes, hn⟩ := by
  subst hn
  induction bytes with
  | nil => rfl
  | cons b bytes ih =>
    obtain ⟨hhigh, hlow, hb⟩ := decode_hexDigit b
    simp only [List.flatMap_cons, List.map_cons, List.cons_append, List.nil_append,
      List.length_cons, decodePairs, hhigh, hlow, ih, hb]

lemma toHex_length (d : Digest) : d.toHex.length = 64 := by
  have h : ∀ bytes : Bytes, (bytes.flatMap fun (b : UInt8) =>
      [hexDigit (b >>> 4), hexDigit (b &&& 0x0f)]).length = 2 * bytes.length := by
    intro bytes
    induction bytes with
    | nil => rfl
    | cons b bytes ih =>
      rw [List.flatMap_cons, List.length_append, ih, List.length_cons]
      simp only [List.length_cons, List.length_nil]
      omega
  rw [toHex, h, d.size]

/-- **A digest is read back from its hex digits.** -/
theorem fromHex_toHex (d : Digest) : fromHex d.toHex = .ok d := by
  obtain ⟨bytes, hsize⟩ := d
  have hascii : Ascii (toHex ⟨bytes, hsize⟩) := hexAlphabet_ascii.mono (toHex_subset _)
  have hlen : (utf8 (toHex ⟨bytes, hsize⟩)).length = 64 := by
    rw [utf8_length_ascii hascii, toHex_length]
  unfold fromHex
  simp only [hlen, ne_eq, not_true_eq_false, if_false]
  rw [utf8_ascii hascii, toHex, decodePairs_hex bytes hsize]

end Digest

end Chesscoin.Domain
