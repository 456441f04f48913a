import KernelDesign.Library.Transition
import KernelDesign.Machine

/-!
# The rate of the clock

A program asks for a frequency with the four bytes it passes to
`rtc_write`. The clock has thirteen rates, from 3 to 15, and generates
`32768 >> (rate - 1)` interrupts a second at each. What `rtc_write` does
with the bytes is another thing: it takes the first one for a rate, tells
by the frequency of that rate which of two rates to set, and puts that one
into the caller's buffer. The frequency it tests is a power of two, or
zero, for whatever byte it was computed from, so the test never fails and
no request is refused.

No call does what was asked, therefore: a frequency that the clock cannot
generate is not refused, and with one that it can the first byte of the
buffer does not survive (`along_sets_iff`).
-/

namespace KernelDesign

open Transition Words

/-- **A rate of the clock** that generates the frequency `f`. -/
def ClockRate (f rate : ℕ) : Prop := 3 ≤ rate ∧ rate ≤ 15 ∧ 32768 >>> (rate - 1) = f

/-- **What a call of `rtc_write` should do** with a request for the
frequency `f` in the buffer `b`. -/
structure SetsFrequency (f : ℕ) (b : Bytes) (k : Kernel) (r : SysResult) : Prop where
  accepts : r.ret = 0 ↔ ∃ rate, ClockRate f rate
  sets : ∀ rate, ClockRate f rate →
    r.kernel.rtcRegA % 16 = rate ∧ r.kernel.rtcRegA / 16 % 16 = k.rtcRegA / 16 % 16
  refuses : (¬ ∃ rate, ClockRate f rate) → r.ret = -1 ∧ r.kernel.rtcRegA = k.rtcRegA
  buffer : r.buf = some b

namespace Kernel

/-- **`rtc_open`**, without the register that makes the clock interrupt. -/
def rtcOpen (k : Kernel) : Kernel :=
  match rtcWrite k (some (fun _ => 15)) with
  | .ok r => r.kernel
  | .error _ => k

end Kernel

/-- The rate that `rtc_write` computes from a byte. -/
def writtenRate (c : UInt8) : UInt8 :=
  if 32768 >>> ((c.toNat + 31) % 32) < 2 then 11 else 15

/-- A power of two, or none, passes the test for one. -/
theorem shifted_passes : ∀ s < 32, (32768 >>> s) &&& u32 ((32768 >>> s : ℕ) - 1) = 0 := by
  decide

/-- **Every call of `rtc_write` succeeds**, sets one of two rates and
leaves it in the buffer. -/
theorem rtcWrite_eq (k : Kernel) (b : Bytes) :
    rtcWrite k (some b)
      = .ok ⟨0, some (fun j => if j = 0 then writtenRate (b 0) else b j),
          { k with rtcRegA := k.rtcRegA &&& 0xF0 ||| (writtenRate (b 0)).toNat }⟩ := by
  have hpass := shifted_passes (((b 0).toNat + 31) % 32) (Nat.mod_lt _ (by decide))
  rw [rtcWrite]
  exact if_neg (not_not.mpr hpass)

/-- The rate is 11 or 15. -/
theorem writtenRate_cases (c : UInt8) : writtenRate c = 11 ∨ writtenRate c = 15 := by
  unfold writtenRate
  split
  · exact Or.inl rfl
  · exact Or.inr rfl

/-- The first byte of a request is the frequency modulo 256. -/
theorem uint32At_mod (b : Bytes) : uint32At b 0 % 256 = (b 0).toNat := by
  have h0 := (b 0).toNat_lt
  have h1 := (b (0 + 1)).toNat_lt
  have h2 := (b (0 + 2)).toNat_lt
  have h3 := (b (0 + 3)).toNat_lt
  have hword : uint32At b 0 = (b 0).toNat + 256 * (b (0 + 1)).toNat
      + 65536 * (b (0 + 2)).toNat + 16777216 * (b (0 + 3)).toNat := by
    rw [uint32At, int32At, u32_i32, u32_eq]
    omega
  omega

/-- **No frequency of the clock has the byte of a rate** that `rtc_write`
sets for its first one. -/
theorem clockRate_byte {f rate : ℕ} (h : ClockRate f rate) :
    f % 256 ≠ 11 ∧ f % 256 ≠ 15 := by
  obtain ⟨hl, hu, rfl⟩ := h
  have hall : ∀ s < 15, 2 ≤ s →
      (32768 >>> s) % 256 ≠ 11 ∧ (32768 >>> s) % 256 ≠ 15 := by decide
  exact hall (rate - 1) (by omega) (by omega)

/-- **No call does what was asked.** -/
theorem not_sets {k : Kernel} {b : Bytes} {r : SysResult} (h : rtcWrite k (some b) = .ok r) :
    ¬ SetsFrequency (uint32At b 0) b k r := by
  rw [rtcWrite_eq] at h
  cases h
  rintro ⟨haccepts, -, -, hbuffer⟩
  obtain ⟨rate, hrate⟩ := haccepts.mp rfl
  -- A frequency of the clock: the buffer would have to hold 11 or 15 at its start.
  obtain ⟨h11, h15⟩ := clockRate_byte hrate
  have hfirst : writtenRate (b 0) = b 0 := congrFun (Option.some.inj hbuffer) 0
  rw [uint32At_mod, ← hfirst] at h11 h15
  obtain hw | hw := writtenRate_cases (b 0)
  · exact h11 (congrArg UInt8.toNat hw)
  · exact h15 (congrArg UInt8.toNat hw)

/-- A call of `rtc_write` as a step, with the buffer for the event. -/
def rtcStep (k : Kernel) (b : Bytes) : Option Kernel :=
  match rtcWrite k (some b) with
  | .ok r => some r.kernel
  | .error _ => none

/-- A call takes a step to the kernel it leaves. -/
theorem rtcStep_of_ok {k : Kernel} {b : Bytes} {r : SysResult}
    (h : rtcWrite k (some b) = .ok r) : rtcStep k b = some r.kernel := by
  rw [rtcStep, h]

/-- **No sequence of calls after `rtc_open` does what was asked**, except
for the empty one. -/
theorem along_sets_iff (k : Kernel) (bs : List Bytes) :
    Along rtcStep
        (fun k b _ => ∀ r, rtcWrite k (some b) = .ok r → SetsFrequency (uint32At b 0) b k r)
        k.rtcOpen bs
      ↔ bs = [] := by
  cases bs with
  | nil => exact ⟨fun _ => rfl, fun _ => trivial⟩
  | cons b bs =>
    refine ⟨fun h => ?_, fun h => nomatch h⟩
    have hcall := rtcWrite_eq k.rtcOpen b
    exact absurd ((h _ (rtcStep_of_ok hcall)).1 _ hcall) (not_sets hcall)

/-- A request for 16 interrupts a second, which is rate 12: rate 11 is set,
and the buffer holds 11. -/
theorem sixteen_hertz :
    ClockRate 16 12
      ∧ ∃ r, rtcWrite loadedKernel.rtcOpen (some (fun j => if j = 0 then 16 else 0)) = .ok r
        ∧ r.ret = 0 ∧ r.kernel.rtcRegA % 16 = 11 ∧ (r.buf.map (fun b => b 0)) = some 11
        ∧ ¬ SetsFrequency 16 (fun j => if j = 0 then 16 else 0) loadedKernel.rtcOpen r := by
  refine ⟨⟨by decide, by decide, by decide⟩, _, rtcWrite_eq _ _, rfl, rfl, rfl, fun h => ?_⟩
  exact absurd (congrFun (Option.some.inj h.buffer) 0) (by decide)

end KernelDesign
