import NekoOs.Polling

/-!
Sleeping by the main counter of the HPET, which has 32 or 64 bits. The end of a
sleep is computed modulo 2^64 and compared as it is with what the counter shows.
-/
namespace NekoOs.Hpet
open Polling

/-- The ticks in a second, as `hpet_init` computes them from the capabilities. -/
def hpet_freq (cap : UInt64) : UInt64 :=
  let hpet_period := cap >>> 32
  1000000000000000 / hpet_period

/-- What the readings of a counter of `w` bits show that starts from a value. -/
def counter (w c : Nat) (elapsed : Nat → Nat) (k : Nat) : UInt64 := UInt64.ofNat ((c + elapsed k) % 2 ^ w)

/-- The number of the reading that ends a sleep. Reading 0 is the one before the loop. -/
def hpet_sleep_us (freq : UInt64) (hpet_ticks : Nat → UInt64) (us : UInt64) (fuel : Nat) : Option Nat :=
  let ticks := us * freq / 1000000
  let target := hpet_ticks 0 + ticks
  await (fun k => !(hpet_ticks k < target)) fuel 1

def hpet_sleep_ms (freq : UInt64) (hpet_ticks : Nat → UInt64) (ms : UInt64) (fuel : Nat) : Option Nat :=
  hpet_sleep_us freq hpet_ticks (ms * 1000) fuel

/-- However the counter is read, a sleep returns, and not before a number of ticks. -/
def Sleeps (gap w c : Nat) (sleep : (Nat → UInt64) → Nat → Option Nat) (ticks : Nat) : Prop :=
  ∀ elapsed, Sampled gap elapsed → ∃ fuel k, sleep (counter w c elapsed) fuel = some k ∧ ticks ≤ elapsed k

section
variable {gap w c : Nat} {elapsed : Nat → Nat} {freq us ms : UInt64} {k : Nat}

theorem counter_toNat (width : w = 32 ∨ w = 64) : (counter w c elapsed k).toNat = (c + elapsed k) % 2 ^ w := by
  have small : (c + elapsed k) % 2 ^ w < 2 ^ w := Nat.mod_lt _ (Nat.two_pow_pos w)
  have fits : 2 ^ w ≤ 2 ^ 64 := Nat.pow_le_pow_right (by decide) (by omega)
  rw [counter,UInt64.toNat_ofNat',Nat.mod_eq_of_lt (by omega)]

/-- The sleep waits for a value that may have wrapped, twice. -/
theorem sleep_await (width : w = 32 ∨ w = 64) (start : c < 2 ^ w) (sampled : Sampled gap elapsed) (fuel : Nat) :
    hpet_sleep_us freq (counter w c elapsed) us fuel = await (fun k => decide
      ((c + us.toNat * freq.toNat % 2 ^ 64 / 1000000) % 2 ^ 64 ≤ (c + elapsed k) % 2 ^ w)) fuel 1 := by
  have target : (counter w c elapsed 0 + us * freq / 1000000).toNat =
      (c + us.toNat * freq.toNat % 2 ^ 64 / 1000000) % 2 ^ 64 := by
    rw [UInt64.toNat_add,UInt64.toNat_div,UInt64.toNat_mul,counter_toNat width,sampled.start,Nat.add_zero,
      Nat.mod_eq_of_lt start]
    rfl
  have same (k : Nat) : (!(decide (counter w c elapsed k < counter w c elapsed 0 + us * freq / 1000000))) =
      decide ((c + us.toNat * freq.toNat % 2 ^ 64 / 1000000) % 2 ^ 64 ≤ (c + elapsed k) % 2 ^ w) := by
    rw [← decide_not,decide_eq_decide,UInt64.lt_iff_toNat_lt,counter_toNat width,target,Nat.not_lt]
  simp only [hpet_sleep_us,same]

/-- A counter read once for each tick is not seen to pass a target that it shows. -/
theorem slow_ends {target t fuel : Nat} (shown : target ≤ (c + t) % 2 ^ w)
    (returned : await (fun k => decide (target ≤ (c + (k - 1)) % 2 ^ w)) fuel 1 = some k) : k - 1 ≤ t := by
  obtain ⟨_,_,waits⟩ := await_first returned
  by_contra later
  have missed := waits (t + 1) (by omega) (by omega)
  rw [Nat.add_sub_cancel] at missed
  exact absurd shown (of_decide_eq_false missed)

/-- A product of 64 bits that is in range and a target that the counter cannot miss are enough. -/
theorem sleeps_of (positive : 1 ≤ gap) {target : Nat} (window : target + gap ≤ 2 ^ w)
    (later : c ≤ target) (sampled : Sampled gap elapsed) : ∃ fuel k,
      await (fun k => decide (target ≤ (c + elapsed k) % 2 ^ w)) fuel 1 = some k ∧ target - c ≤ elapsed k := by
  obtain ⟨k,after,shown⟩ := sampled.sees window later (by omega)
  obtain ⟨fuel,j,returned,_⟩ := @await_returns (fun k => decide (target ≤ (c + elapsed k) % 2 ^ w)) 1 k after
    (decide_eq_true shown)
  have reached := of_decide_eq_true (await_first returned).2.1
  have whole := Nat.mod_le (c + elapsed j) (2 ^ w)
  exact ⟨fuel,j,returned,by omega⟩

/-- A target that the counter can miss is missed for ever by some counter. -/
theorem never_ends (positive : 1 ≤ gap) (round : gap ≤ 2 ^ w) {target : Nat} (later : c ≤ target)
    (short : 2 ^ w < target + gap) : ∃ elapsed, Sampled gap elapsed ∧
      ∀ fuel k, await (fun k => decide (target ≤ (c + elapsed k) % 2 ^ w)) fuel 1 ≠ some k := by
  have missed : ∃ elapsed, Sampled gap elapsed ∧ ∀ k, 1 ≤ k → (c + elapsed k) % 2 ^ w < target := by
    by_cases shown : target < 2 ^ w
    · exact skips later shown (by omega) short
    · refine ⟨id,sampled_id positive,fun k _ => ?_⟩
      have small : (c + id k) % 2 ^ w < 2 ^ w := Nat.mod_lt _ (Nat.two_pow_pos w)
      omega
  obtain ⟨elapsed,sampled,below⟩ := missed
  refine ⟨elapsed,sampled,fun fuel k returned => ?_⟩
  obtain ⟨after,reached,_⟩ := await_first returned
  exact absurd (of_decide_eq_true reached) (Nat.not_le_of_lt (below k after))

/-- A sleep by a product of frequency and time is right exactly if the product does not wrap and the counter cannot
    miss the end: it has a gap left before it wraps. -/
theorem sleeps_iff (width : w = 32 ∨ w = 64) (start : c < 2 ^ w) (positive : 1 ≤ gap) (round : gap ≤ 2 ^ w)
    {product : Nat} {sleep : (Nat → UInt64) → Nat → Option Nat} (code : ∀ elapsed, Sampled gap elapsed → ∀ fuel,
      sleep (counter w c elapsed) fuel = await (fun k => decide
        ((c + product % 2 ^ 64 / 1000000) % 2 ^ 64 ≤ (c + elapsed k) % 2 ^ w)) fuel 1) :
    Sleeps gap w c sleep (product / 1000000) ↔ product < 2 ^ 64 ∧ c + product / 1000000 + gap ≤ 2 ^ w := by
  have fits : 2 ^ w ≤ 2 ^ 64 := Nat.pow_le_pow_right (by decide) (by omega)
  constructor
  · intro sleeps
    by_cases wraps : 2 ^ 64 ≤ c + product % 2 ^ 64 / 1000000
    · -- The target is below the start, and the first reading ends the sleep.
      obtain ⟨fuel,k,returned,long⟩ := sleeps _ (sampled_slow positive)
      rw [code _ (sampled_slow positive)] at returned
      have first := @slow_ends w c k _ 0 fuel (by rw [Nat.add_zero,Nat.mod_eq_of_lt start]; omega) returned
      omega
    · have target : (c + product % 2 ^ 64 / 1000000) % 2 ^ 64 = c + product % 2 ^ 64 / 1000000 :=
        Nat.mod_eq_of_lt (by omega)
      rw [target] at code
      by_cases window : c + product % 2 ^ 64 / 1000000 + gap ≤ 2 ^ w
      · -- The sleep returns, but if the product has wrapped, by the first counter too early.
        obtain ⟨fuel,k,returned,long⟩ := sleeps _ (sampled_slow positive)
        rw [code _ (sampled_slow positive)] at returned
        have early := slow_ends (Nat.le_of_eq (Nat.mod_eq_of_lt (by omega)).symm) returned
        omega
      · obtain ⟨elapsed,sampled,endless⟩ := never_ends positive round (Nat.le_add_right _ _) (Nat.lt_of_not_le window)
        obtain ⟨fuel,k,returned,_⟩ := sleeps elapsed sampled
        rw [code elapsed sampled] at returned
        exact absurd returned (endless fuel k)
  · rintro ⟨small,window⟩ elapsed sampled
    rw [Nat.mod_eq_of_lt small] at code
    have target : (c + product / 1000000) % 2 ^ 64 = c + product / 1000000 := Nat.mod_eq_of_lt (by omega)
    rw [target] at code
    obtain ⟨fuel,k,returned,long⟩ := sleeps_of positive window (Nat.le_add_right _ _) sampled
    exact ⟨fuel,k,(code elapsed sampled fuel).trans returned,by omega⟩

end

/-- A sleep returns, and is not short, exactly if the product of time and frequency has 64 bits and the counter is at
    least a gap from wrapping when the sleep is over. -/
theorem hpet_sleep_iff {gap w c : Nat} (width : w = 32 ∨ w = 64) (start : c < 2 ^ w) (positive : 1 ≤ gap)
    (round : gap ≤ 2 ^ w) (freq us ms : UInt64) :
    (Sleeps gap w c (fun ticks => hpet_sleep_us freq ticks us) (us.toNat * freq.toNat / 1000000) ↔
      us.toNat * freq.toNat < 2 ^ 64 ∧ c + us.toNat * freq.toNat / 1000000 + gap ≤ 2 ^ w) ∧
    (Sleeps gap w c (fun ticks => hpet_sleep_ms freq ticks ms) (1000 * ms.toNat * freq.toNat / 1000000) ↔
      1000 * ms.toNat * freq.toNat < 2 ^ 64 ∧ c + 1000 * ms.toNat * freq.toNat / 1000000 + gap ≤ 2 ^ w) := by
  refine ⟨sleeps_iff width start positive round (fun _ sampled fuel => sleep_await width start sampled fuel),
    sleeps_iff width start positive round (fun _ sampled fuel => ?_)⟩
  have product : (ms * 1000).toNat * freq.toNat % 2 ^ 64 = 1000 * ms.toNat * freq.toNat % 2 ^ 64 := by
    rw [UInt64.toNat_mul,Nat.mod_mul_mod,Nat.mul_comm ms.toNat]
    rfl
  rw [← product]
  exact sleep_await width start sampled fuel

/-- A millisecond after boot, with 1000 ticks between two readings at most. -/
theorem hpet_sleep_iff_millisecond : Sleeps 1000 32 14318 (fun ticks => hpet_sleep_us 14318179 ticks 1000) 14318 ∧
    Sleeps 1000 32 14318 (fun ticks => hpet_sleep_ms 14318179 ticks 1) 14318 := by
  have both := @hpet_sleep_iff 1000 32 14318 (.inl rfl) (by decide) (by decide) (by decide) 14318179 1000 1
  exact ⟨both.1.mpr ⟨by decide,by decide⟩,both.2.mpr ⟨by decide,by decide⟩⟩

/-- Five minutes after boot a counter of 32 bits is about to wrap, and a microsecond never ends. A sleep of 2^63
    microseconds ends at once. -/
theorem endless_sleep : hpet_freq ((69841279 : UInt64) <<< 32) = 14318179 ∧
    (∀ elapsed, Sampled 1 elapsed → ∀ fuel,
      hpet_sleep_us 14318179 (counter 32 0xFFFFFFFF elapsed) 1 fuel = none) ∧
    ¬Sleeps 1 32 0xFFFFFFFF (fun ticks => hpet_sleep_us 14318179 ticks 1) (1 * 14318179 / 1000000) ∧
    hpet_sleep_us 2 (counter 64 0 (fun k => k - 1)) 0x8000000000000000 1 = some 1 ∧
    ¬Sleeps 1 64 0 (fun ticks => hpet_sleep_us 2 ticks 0x8000000000000000) (0x8000000000000000 * 2 / 1000000) := by
  have never (elapsed : Nat → Nat) (sampled : Sampled 1 elapsed) (fuel : Nat) :
      hpet_sleep_us 14318179 (counter 32 0xFFFFFFFF elapsed) 1 fuel = none := by
    rw [sleep_await (.inl rfl) (by decide) sampled,Option.eq_none_iff_forall_ne_some]
    intro k returned
    have reached := of_decide_eq_true (await_first returned).2.1
    have small : (0xFFFFFFFF + elapsed k) % 2 ^ 32 < 2 ^ 32 := Nat.mod_lt _ (by decide)
    have far : 2 ^ 32 ≤ (0xFFFFFFFF + UInt64.toNat 1 * UInt64.toNat 14318179 % 2 ^ 64 / 1000000) % 2 ^ 64 := by decide
    omega
  have early : hpet_sleep_us 2 (counter 64 0 (fun k => k - 1)) 0x8000000000000000 1 = some 1 := by decide
  refine ⟨by decide,never,fun sleeps => ?_,early,fun sleeps => ?_⟩
  · obtain ⟨fuel,k,returned,_⟩ := sleeps id (sampled_id (Nat.le_refl 1))
    have endless := never id (sampled_id (Nat.le_refl 1)) fuel
    cases endless.symm.trans returned
  · obtain ⟨fuel,k,returned,long⟩ := sleeps _ (sampled_slow (Nat.le_refl 1))
    rw [← await_unique early returned] at long
    exact absurd long (by decide)

end NekoOs.Hpet
