import Mathlib.Data.Nat.Bitwise

/-!
# Lib.OrMap — maps of words that act on every bit alone

Shifts, masks and their unions respect `|||`.  A map that does so is determined by what it does to single bits,
so two chains of such steps are the same as soon as they agree on the powers of two.
-/

namespace Propeller

/-- Every bit of the argument sets its bits of the result, whatever the other bits are. -/
structure OrMap (f : Nat → Nat) : Prop where
  zero : f 0 = 0
  or : ∀ x y, f (x ||| y) = f x ||| f y

namespace OrMap

variable {f g : Nat → Nat} {w x : Nat}

/-! ## Steps -/

theorem id : OrMap fun x => x :=
  ⟨rfl, fun _ _ => rfl⟩

theorem none : OrMap fun _ => 0 :=
  ⟨rfl, fun _ _ => rfl⟩

theorem comp (hf : OrMap f) (hg : OrMap g) : OrMap fun x => f (g x) := by
  refine ⟨?_, fun x y => ?_⟩
  · rw [hg.zero, hf.zero]
  · rw [hg.or, hf.or]

theorem union (hf : OrMap f) (hg : OrMap g) : OrMap fun x => f x ||| g x := by
  refine ⟨?_, fun x y => ?_⟩
  · rw [hf.zero, hg.zero, Nat.or_zero]
  · rw [hf.or, hg.or]
    ac_rfl

theorem masked (hf : OrMap f) (mask : Nat) : OrMap fun x => f x &&& mask := by
  refine ⟨?_, fun x y => ?_⟩
  · rw [hf.zero, Nat.zero_and]
  · rw [hf.or, Nat.and_or_distrib_right]

theorem shiftedRight (hf : OrMap f) (s : Nat) : OrMap fun x => f x >>> s := by
  refine ⟨?_, fun x y => ?_⟩
  · rw [hf.zero, Nat.zero_shiftRight]
  · rw [hf.or, Nat.shiftRight_or_distrib]

theorem shiftedLeft (hf : OrMap f) (s : Nat) : OrMap fun x => f x <<< s := by
  refine ⟨?_, fun x y => ?_⟩
  · rw [hf.zero, Nat.zero_shiftLeft]
  · rw [hf.or, Nat.shiftLeft_or_distrib]

theorem truncated (hf : OrMap f) (n : Nat) : OrMap fun x => f x % 2 ^ n := by
  refine ⟨?_, fun x y => ?_⟩
  · rw [hf.zero, Nat.zero_mod]
  · rw [hf.or, Nat.or_mod_two_pow]

/-! ## Single bits -/

/-- Two maps that agree on single bits agree on all words. -/
theorem eq_of_two_pow (hf : OrMap f) (hg : OrMap g) (h : ∀ i < w, f (2 ^ i) = g (2 ^ i)) (hx : x < 2 ^ w) :
    f x = g x := by
  -- The words below `2 ^ (w + 1)` are those below `2 ^ w`, with or without the bit `w`.
  induction w generalizing x with
  | zero =>
      obtain rfl : x = 0 := by omega
      rw [hf.zero, hg.zero]
  | succ w ih =>
      have hlow : ∀ i < w, f (2 ^ i) = g (2 ^ i) := fun i hi => h i (hi.trans (Nat.lt_succ_self w))
      rcases Nat.lt_or_ge x (2 ^ w) with hlt | hge
      · exact ih hlow hlt
      · have hrest : x - 2 ^ w < 2 ^ w := by
          rw [Nat.pow_succ] at hx
          omega
        have hsplit : x = 2 ^ w ||| (x - 2 ^ w) := by
          have hsum := Nat.two_pow_add_eq_or_of_lt hrest 1
          rw [Nat.mul_one] at hsum
          rw [← hsum]
          omega
        rw [hsplit, hf.or, hg.or, h w (Nat.lt_succ_self w), ih hlow hrest]

end OrMap
end Propeller
