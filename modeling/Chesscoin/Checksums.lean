import Chesscoin.Lib.Mixing
import Chesscoin.LogLines
import Chesscoin.HashBinding

/-!
The node's hash is not a cryptographic one, but it misses no short corruption.

Every operation of it on a 64-bit word can be undone, so the absorption of one byte is
injective in the four lanes, and in the byte. A byte goes into one lane that the next three
bytes leave alone. Strings of one length that differ within four consecutive places have
different digests: log records with a payload damaged that little are refused, and headers
that differ in a short nonce have different hashes.
-/

namespace Chesscoin.Checksums

open Chesscoin.Lib.ByteString Chesscoin.Lib.Text Chesscoin.Lib.Mixing Chesscoin.Domain
  Chesscoin.Simulator Chesscoin.Validation Chesscoin.Adapters Chesscoin.Wire Chesscoin.Storage
  Chesscoin.Mining Chesscoin.HashBinding Chesscoin.LogLines

/-! ### Words -/

lemma xorShift_word {k : UInt64} (hk : 0 < (k.toBitVec % 64).toNat) {x y : UInt64}
    (h : x ^^^ (x >>> k) = y ^^^ (y >>> k)) : x = y := by
  have hbits := congrArg UInt64.toBitVec h
  simp only [UInt64.toBitVec_xor, UInt64.toBitVec_shiftRight] at hbits
  exact UInt64.toBitVec_inj.mp (xorShift_injective hk hbits)

/-- A factor with an inverse can be cancelled. -/
lemma mul_word {c d x y : UInt64} (hc : c * d = 1) (h : x * c = y * c) : x = y := by
  calc x = x * c * d := by rw [UInt64.mul_assoc, hc, UInt64.mul_one]
    _ = y * c * d := by rw [h]
    _ = y := by rw [UInt64.mul_assoc, hc, UInt64.mul_one]

lemma mix64_injective : Function.Injective mix64 := by
  intro x y h
  have h := xorShift_word (k := 31) (by decide) h
  have h := mul_word (c := 0x94d049bb133111eb) (d := 0x319642b2d24d8ec3) (by decide) h
  have h := xorShift_word (k := 27) (by decide) h
  have h := mul_word (c := 0xbf58476d1ce4e5b9) (d := 0x96de1b173f119089) (by decide) h
  exact xorShift_word (k := 30) (by decide) h

lemma rotateLeft_injective : Function.Injective fun x : UInt64 => rotateLeft x 13 := by
  intro x y h
  have hbits := congrArg UInt64.toBitVec h
  simp only [rotateLeft, UInt64.toBitVec_or, UInt64.toBitVec_shiftLeft,
    UInt64.toBitVec_shiftRight] at hbits
  exact UInt64.toBitVec_inj.mp (rotate_injective (w := 64) (n := 13) (by decide) hbits)

/-! ### Lanes -/

/-- The lane a byte at a place goes into. -/
def lane (lanes : Lanes) (index : ℕ) : UInt64 :=
  match index % 4 with
  | 0 => lanes.l0
  | 1 => lanes.l1
  | 2 => lanes.l2
  | _ => lanes.l3

lemma absorbLane_injective (next : UInt64) (index : ℕ) (byte : UInt8) :
    Function.Injective fun lane => absorbLane lane next index byte := by
  intro x y h
  have h := rotateLeft_injective ((UInt64.add_left_inj next).mp (mix64_injective h))
  exact (UInt64.xor_left_inj _).mp h

lemma absorbLane_byte_injective (lane next : UInt64) (index : ℕ) :
    Function.Injective fun byte => absorbLane lane next index byte := by
  intro x y h
  have h := rotateLeft_injective ((UInt64.add_left_inj next).mp (mix64_injective h))
  have h := (UInt64.add_left_inj _).mp ((UInt64.xor_right_inj _).mp h)
  apply UInt8.toNat_inj.mp
  simpa using congrArg UInt64.toNat h

lemma mod_four (index : ℕ) : index % 4 = 0 ∨ index % 4 = 1 ∨ index % 4 = 2 ∨ index % 4 = 3 := by
  omega

/-- The lane of a byte takes it in together with the lane after it. -/
lemma lane_absorbByte (lanes : Lanes) (index : ℕ) (byte : UInt8) :
    lane (absorbByte lanes index byte) index =
      absorbLane (lane lanes index) (lane lanes (index + 1)) index byte := by
  have hnext : (index + 1) % 4 = (index % 4 + 1) % 4 := by omega
  rcases mod_four index with h | h | h | h <;> rw [h] at hnext <;>
    simp only [lane, absorbByte, h, hnext]

/-- The other lanes stay as they are. -/
lemma lane_absorbByte_other (lanes : Lanes) {i j : ℕ} (hij : i % 4 ≠ j % 4) (byte : UInt8) :
    lane (absorbByte lanes j byte) i = lane lanes i := by
  rcases mod_four i with hi | hi | hi | hi <;> rcases mod_four j with hj | hj | hj | hj <;>
    first | exact absurd (hi.trans hj.symm) hij | simp only [lane, absorbByte, hi, hj]

lemma lanes_ext {a b : Lanes} (h : ∀ i, lane a i = lane b i) : a = b := by
  obtain ⟨a0, a1, a2, a3⟩ := a
  obtain ⟨b0, b1, b2, b3⟩ := b
  have h0 : a0 = b0 := h 0
  have h1 : a1 = b1 := h 1
  have h2 : a2 = b2 := h 2
  have h3 : a3 = b3 := h 3
  rw [h0, h1, h2, h3]

lemma absorbByte_injective (index : ℕ) (byte : UInt8) :
    Function.Injective fun lanes => absorbByte lanes index byte := by
  intro a b h
  have hlane : ∀ i, lane (absorbByte a index byte) i = lane (absorbByte b index byte) i :=
    fun i => congrArg (lane · i) h
  have hother : ∀ i, i % 4 ≠ index % 4 → lane a i = lane b i := by
    intro i hi
    rw [← lane_absorbByte_other a hi byte, ← lane_absorbByte_other b hi byte, hlane]
  apply lanes_ext
  intro i
  by_cases hi : i % 4 = index % 4
  · have hsame : ∀ c, lane c i = lane c index := fun c => by simp only [lane, hi]
    have h := hlane index
    rw [lane_absorbByte, lane_absorbByte, hother (index + 1) (by omega)] at h
    rw [hsame, hsame]
    exact absorbLane_injective _ _ _ h
  · exact hother i hi

/-- The absorption loses nothing, and leaves every lane alone for three bytes. -/
lemma absorbByte_windowed : Windowed absorbByte 4 lane where
  step_injective := absorbByte_injective
  letter_injective := by
    intro lanes index a b h
    have h : lane (absorbByte lanes index a) index = lane (absorbByte lanes index b) index := h
    rw [lane_absorbByte, lane_absorbByte] at h
    exact absorbLane_byte_injective _ _ _ h
  part_kept := by
    intro lanes i j byte hij hj
    exact lane_absorbByte_other lanes (by omega) byte

lemma absorb_eq_run (lanes : Lanes) (index : ℕ) (bytes : Bytes) :
    absorb lanes index bytes = run absorbByte lanes index bytes := by
  induction bytes generalizing lanes index with
  | nil => rfl
  | cons byte rest ih => exact ih _ _

/-! ### Digests -/

/-- Strings of one length with one digest end in the same lanes. -/
lemma absorb_eq_of_toyDigest {s t : Bytes} (hlen : s.length = t.length)
    (h : toyDigest s = toyDigest t) :
    absorb Lanes.initial 0 s = absorb Lanes.initial 0 t := by
  have h := congrArg Digest.bytes h
  simp only [toyDigest, List.append_assoc] at h
  rw [hlen] at h
  obtain ⟨h0, h⟩ := List.append_inj h (by simp only [u64Le_length])
  obtain ⟨h1, h⟩ := List.append_inj h (by simp only [u64Le_length])
  obtain ⟨h2, h3⟩ := List.append_inj h (by simp only [u64Le_length])
  have h0 := (UInt64.xor_left_inj _).mp (mix64_injective (u64Le_inj h0))
  have h1 := (UInt64.xor_left_inj _).mp (mix64_injective (u64Le_inj h1))
  have h2 := mix64_injective (u64Le_inj h2)
  have h3 := mix64_injective (u64Le_inj h3)
  rw [h0, h1] at h2 h3
  have h2 := (UInt64.xor_left_inj _).mp h2
  rw [h2] at h3
  have h3 := (UInt64.xor_left_inj _).mp h3
  exact lanes_ext fun i => by rcases mod_four i with hi | hi | hi | hi <;>
    simp only [lane, hi, h0, h1, h2, h3]

lemma toyDigest_ne {s t : Bytes} (h : DifferWithin 4 s t) : toyDigest s ≠ toyDigest t := by
  intro heq
  have habsorb := absorb_eq_of_toyDigest h.1 heq
  rw [absorb_eq_run, absorb_eq_run] at habsorb
  exact absorbByte_windowed.run_differ h _ _ habsorb

/-! ### Damaged records and short nonces -/

/-- A record with a payload that does not match its checksum is refused. -/
lemma decodeStorageRecord_mismatch (addr : AddrText) {checksum : Digest} {payload : Str}
    (h : checksum ≠ storageRecordChecksum toyHash payload) :
    decodeStorageRecord toyHash addr
      (join '|' [storageRecordVersion, checksum.toHex, payload]) =
      .error "storage record checksum mismatch" := by
  rw [decodeStorageRecord, join_three, splitn_three (by decide) (bar_notMem_toHex _)]
  simp only [List.head?_cons, ne_eq, not_true_eq_false, if_false, Digest.fromHex_toHex]
  simp only [bind, Except.bind, h, not_false_eq_true, if_true]

/-- The upper half of a short number is zero. -/
lemma u64Le_short {n : UInt64} (hn : n.toNat < 2 ^ 32) : u64Le n = le 4 n.toNat ++ le 4 0 := by
  rw [u64Le, le_append 4 4, Nat.div_eq_of_lt (by omega)]

/-- Headers that differ in a short nonce differ within four bytes of what is hashed. -/
lemma headerPreimage_differ (header : BlockHeader) {m n : UInt64} (hm : m.toNat < 2 ^ 32)
    (hn : n.toNat < 2 ^ 32) (hmn : m ≠ n) :
    DifferWithin 4 (headerPreimage { header with nonce := m })
      (headerPreimage { header with nonce := n }) := by
  have hlow : le 4 m.toNat ≠ le 4 n.toNat := by
    intro h
    exact hmn (UInt64.toNat_inj.mp (le_inj (k := 4) hm hn h))
  have hparts := differWithin_parts (w := 4) (m := le 4 m.toNat) (by simp)
    (by simp) hlow (BlockHeader.tag ++ (u64Le header.height ++ (header.previousBlock.bytes ++
      (header.modelBefore.encode ++ (header.modelAfter.encode ++ (header.traceRoot.bytes ++
        (u64Le header.trainingSeed ++ (u64Le header.samplingEntropy ++
          u64Le header.sampleCount)))))))) (le 4 0 ++ header.traceRoot.bytes)
  simpa only [headerPreimage, BlockHeader.encode, u64Le_short hm, u64Le_short hn,
    List.append_assoc] using hparts

/-- **The checksum detects short corruptions.** Strings of one length that differ within four
consecutive bytes have different digests; so a log record with a payload changed in that way
is refused, and headers that differ only in nonces below 2^32 have different hashes. -/
theorem toyDigest_detects :
    (∀ s t : Bytes, DifferWithin 4 s t → toyDigest s ≠ toyDigest t) ∧
      (∀ (addr : AddrText) (block : Block) (payload : Str),
        DifferWithin 4 (utf8 (encodeBlockMessage block)) (utf8 payload) →
        decodeStorageRecord toyHash addr (join '|' [storageRecordVersion,
          (storageRecordChecksum toyHash (encodeBlockMessage block)).toHex, payload]) =
          .error "storage record checksum mismatch") ∧
      ∀ (header : BlockHeader) (m n : UInt64), m.toNat < 2 ^ 32 → n.toNat < 2 ^ 32 → m ≠ n →
        blockHeaderHash toyHash { header with nonce := m } ≠
          blockHeaderHash toyHash { header with nonce := n } := by
  refine ⟨fun s t => toyDigest_ne, fun addr block payload hpayload => ?_,
    fun header m n hm hn hmn => ?_⟩
  · exact decodeStorageRecord_mismatch addr (toyDigest_ne hpayload)
  · exact toyDigest_ne (headerPreimage_differ header hm hn hmn)

/-! A record of a first block in which the digit of the height has changed. -/

def intactBlock : Block := candidate toyHash ⟨1, 1, 0⟩ ParentContext.genesis 1 0 0

def damagedPayload : Str := "BLOCK|1".toList ++ (encodeBlockMessage intactBlock).drop 7

lemma damaged_differ :
    DifferWithin 4 (utf8 (encodeBlockMessage intactBlock)) (utf8 damagedPayload) := by
  have hintact : utf8 (encodeBlockMessage intactBlock) = utf8 "BLOCK|".toList ++
      ([48] ++ utf8 ((encodeBlockMessage intactBlock).drop 7)) := by decide +kernel
  have hdamaged : utf8 damagedPayload = utf8 "BLOCK|".toList ++
      ([49] ++ utf8 ((encodeBlockMessage intactBlock).drop 7)) := by decide +kernel
  rw [hintact, hdamaged]
  exact differWithin_parts (by simp) (by simp) (by decide) _ _

theorem toyDigest_detects_one_digit :
    toyDigest (utf8 (encodeBlockMessage intactBlock)) ≠ toyDigest (utf8 damagedPayload) ∧
      decodeStorageRecord toyHash ⟨fun _ => [], fun _ => none⟩ (join '|' [storageRecordVersion,
        (storageRecordChecksum toyHash (encodeBlockMessage intactBlock)).toHex, damagedPayload]) =
        .error "storage record checksum mismatch" ∧
      blockHeaderHash toyHash { intactBlock.header with nonce := 1 } ≠
        blockHeaderHash toyHash { intactBlock.header with nonce := 2 } := by
  obtain ⟨hdigest, hrecord, hheader⟩ := toyDigest_detects
  exact ⟨hdigest _ _ damaged_differ, hrecord _ intactBlock damagedPayload damaged_differ,
    hheader intactBlock.header 1 2 (by decide) (by decide) (by decide)⟩

end Chesscoin.Checksums
