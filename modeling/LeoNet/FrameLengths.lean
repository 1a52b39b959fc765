import LeoNet.FrameExtent

namespace LeoNet

open Memory

/-!
# The length of a frame on its way through the decoder

A length that `on_read` has read off the ring goes through the decoder as a `msg_len` of bytes
behind the two of the length itself, and through `check_crc32` as an unsigned number of bytes.

* `noUnderflow_iff` — no subtraction on the way goes below zero, and no access leaves the frame,
  exactly when the length is at least two, and at least six behind a CRC that fits.
-/

/-- What `msg_len` becomes behind a CRC that fits: without the length, then without the sequence
    number. -/
def headerSubtractions (msgLen : Int32) : List Int32 := [msgLen - 2, msgLen - 2 - 4]

/-- The promise of the inbound path for the first frame of the ring. -/
structure NoUnderflow (table : UInt8 → UInt32) (s : NetSession) : Prop where
  /-- `check_crc32` is given a length from which `4` can be taken. -/
  crc : 4 ≤ (2 + s.messageLen.toUInt32.toInt32.toUInt32).toNat
  /-- The CRC word, the sequence number and all other bytes touched are bytes of the frame: the
      two of the length, and as many as it says behind them. -/
  inside : ∀ i, Touches (s.frameAccesses table) i → 0 ≤ i ∧ i < 2 + s.messageLen.toNat
  /-- `msg_len` stays non-negative. -/
  header : s.CrcPasses table →
    ∀ msgLen ∈ headerSubtractions s.messageLen.toUInt32.toInt32, 0 ≤ msgLen.toInt

section Lengths

variable {table : UInt8 → UInt32} {s : NetSession}

/-- The decoder's `msg_len` is the length, as a number. -/
theorem NetSession.msgLen_toInt (s : NetSession) :
    s.messageLen.toUInt32.toInt32.toInt = s.messageLen.toNat := by
  have hlt := s.messageLen.toNat_lt
  have hint := toInt_toUInt32 s.messageLen.toUInt32.toInt32
  rw [s.msgLen_toNat] at hint
  omega

/-- Both subtractions stay non-negative from six on. -/
theorem headerSubtractions_nonneg_iff (s : NetSession) :
    (∀ msgLen ∈ headerSubtractions s.messageLen.toUInt32.toInt32, 0 ≤ msgLen.toInt) ↔
      6 ≤ s.messageLen.toNat := by
  have hlt := s.messageLen.toNat_lt
  have htwo : (s.messageLen.toUInt32.toInt32 - 2).toInt = s.messageLen.toNat - 2 := by
    rw [Int32.toInt_sub, s.msgLen_toInt]
    exact Int.bmod_eq_of_le (by show -(2 ^ 31) ≤ (s.messageLen.toNat : ℤ) - 2; omega)
      (by show (s.messageLen.toNat : ℤ) - 2 < 2 ^ 31; omega)
  have hfour : (s.messageLen.toUInt32.toInt32 - 2 - 4).toInt = s.messageLen.toNat - 6 := by
    rw [Int32.toInt_sub, htwo]
    have hsub : (s.messageLen.toNat : ℤ) - 2 - Int32.toInt 4 = s.messageLen.toNat - 6 := by
      show (s.messageLen.toNat : ℤ) - 2 - 4 = _
      omega
    rw [hsub]
    exact Int.bmod_eq_of_le (by show -(2 ^ 31) ≤ (s.messageLen.toNat : ℤ) - 6; omega)
      (by show (s.messageLen.toNat : ℤ) - 6 < 2 ^ 31; omega)
  rw [headerSubtractions, List.forall_mem_cons, List.forall_mem_singleton, htwo, hfour]
  omega

/-- **Which lengths do not underflow.**  For the first frame of every ring, the subtractions of the
    inbound path stay above zero and its accesses inside the frame exactly when the length is at
    least two, and at least six if the frame passes the CRC test. -/
theorem noUnderflow_iff (table : UInt8 → UInt32) (s : NetSession) :
    NoUnderflow table s ↔
      2 ≤ s.messageLen.toNat ∧ (s.CrcPasses table → 6 ≤ s.messageLen.toNat) := by
  have hlt := s.messageLen.toNat_lt
  have hadd : (2 + s.messageLen.toUInt32.toInt32.toUInt32).toNat = 2 + s.messageLen.toNat := by
    rw [UInt32.toNat_add, s.msgLen_toNat]
    show (2 + s.messageLen.toNat) % 2 ^ 32 = _
    omega
  constructor
  · rintro ⟨hcrc, -, hheader⟩
    rw [headerSubtractions_nonneg_iff] at hheader
    exact ⟨by omega, hheader⟩
  · -- the accesses stay inside: only the sequence number needs more than the CRC does
    rintro ⟨h2, hpass⟩
    refine ⟨by omega, ?_, fun hcrc => (headerSubtractions_nonneg_iff s).2 (hpass hcrc)⟩
    intro i hi
    rcases (touches_iff h2 i).1 hi with hi | ⟨hcrc, hlo, hhi⟩
    · exact hi
    · have := hpass hcrc
      omega

end Lengths

/-- A session with key `0` that has received `00 00`: a frame of length zero. -/
def zeroFrame : NetSession := (NetSession.keyed 0 fun _ => 1).received [0, 0]

/-- The loop passes on a length of zero. -/
theorem noUnderflow_fails :
    ¬ ∀ s : NetSession, s.HeadComplete → NoUnderflow initialCrc32Table s := by
  intro h
  have hcrc := (h zeroFrame (by decide +kernel)).crc
  exact absurd hcrc (by decide +kernel)

end LeoNet
