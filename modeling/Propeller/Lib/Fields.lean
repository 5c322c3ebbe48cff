import Mathlib.Data.Nat.Bitwise
import Mathlib.Data.Nat.Digits.Defs

/-!
# Lib.Fields — sums of fields within a word

A word is cut into fields of the same width, `Nat.ofDigits (2 ^ w)` of a list.  A mask with every other field
set selects the fields with even numbers; after a shift by one field, it selects those with odd numbers.
Added up they are the sums of pairs, in fields of twice the width.  This is how the bits of a word are
counted without a loop.
-/

namespace Propeller
namespace Fields

variable {w n c k : Nat} {ds : List Nat}

/-- Every other one of `2 * n` fields. -/
def mask (w n : Nat) : Nat :=
  Nat.ofDigits (2 ^ (2 * w)) (List.replicate n (2 ^ w - 1))

/-- The fields with even numbers. -/
def evens : List Nat → List Nat
  | a :: _ :: ds => a :: evens ds
  | _ => []

/-- The fields with odd numbers. -/
def odds : List Nat → List Nat
  | _ :: b :: ds => b :: odds ds
  | _ => []

/-- The sums of two fields each. -/
def pairSums : List Nat → List Nat
  | a :: b :: ds => (a + b) :: pairSums ds
  | _ => []

theorem ofDigits_cons_two (w a b : Nat) (ds : List Nat) :
    Nat.ofDigits (2 ^ w) (a :: b :: ds) = a + 2 ^ w * b + 2 ^ (2 * w) * Nat.ofDigits (2 ^ w) ds := by
  rw [Nat.ofDigits_cons, Nat.ofDigits_cons, Nat.two_mul, Nat.pow_add, Nat.mul_add, Nat.mul_assoc, Nat.add_assoc]

theorem mask_succ (w n : Nat) : mask w (n + 1) = (2 ^ w - 1) + 2 ^ (2 * w) * mask w n := by
  rw [mask, List.replicate_succ, Nat.ofDigits_cons, mask]

/-! ## Words in two parts -/

/-- The bitwise and of words in two parts. -/
theorem and_split {t u v x y : Nat} (hu : u < 2 ^ t) (hv : v < 2 ^ t) :
    (u + 2 ^ t * x) &&& (v + 2 ^ t * y) = (u &&& v) + 2 ^ t * (x &&& y) := by
  have hmod : ((u + 2 ^ t * x) &&& (v + 2 ^ t * y)) % 2 ^ t = u &&& v := by
    rw [Nat.and_mod_two_pow, Nat.add_mul_mod_self_left, Nat.add_mul_mod_self_left, Nat.mod_eq_of_lt hu,
      Nat.mod_eq_of_lt hv]
  have hdiv : ((u + 2 ^ t * x) &&& (v + 2 ^ t * y)) / 2 ^ t = x &&& y := by
    rw [Nat.and_div_two_pow, Nat.add_mul_div_left _ _ (Nat.two_pow_pos t), Nat.add_mul_div_left _ _ (Nat.two_pow_pos t),
      Nat.div_eq_of_lt hu, Nat.div_eq_of_lt hv, Nat.zero_add, Nat.zero_add]
  rw [← Nat.mod_add_div ((u + 2 ^ t * x) &&& (v + 2 ^ t * y)) (2 ^ t), hmod, hdiv]

/-- The lower one of two fields. -/
theorem and_low {a b : Nat} (ha : a < 2 ^ w) : (a + 2 ^ w * b) &&& (2 ^ w - 1) = a := by
  rw [Nat.and_two_pow_sub_one_eq_mod, Nat.add_mul_mod_self_left, Nat.mod_eq_of_lt ha]

/-- Two fields are a field of twice the width. -/
theorem two_fields_lt {a b : Nat} (ha : a < 2 ^ w) (hb : b < 2 ^ w) : a + 2 ^ w * b < 2 ^ (2 * w) := by
  have hmul : 2 ^ w * (b + 1) ≤ 2 ^ w * 2 ^ w := Nat.mul_le_mul_left _ hb
  rw [Nat.two_mul, Nat.pow_add]
  rw [Nat.mul_add, Nat.mul_one] at hmul
  omega

/-- The mask keeps the lowest field of the first pair. -/
theorem and_mask_succ {a b x : Nat} (ha : a < 2 ^ w) (hb : b < 2 ^ w) :
    (a + 2 ^ w * b + 2 ^ (2 * w) * x) &&& mask w (n + 1) = a + 2 ^ (2 * w) * (x &&& mask w n) := by
  have hone : 2 ^ w - 1 < 2 ^ (2 * w) := by
    have hle : 2 ^ w ≤ 2 ^ (2 * w) := Nat.pow_le_pow_right (by decide) (by omega)
    have hpos := Nat.two_pow_pos w
    omega
  rw [mask_succ, and_split (two_fields_lt ha hb) hone, and_low ha]

/-- A shift by one field. -/
theorem shiftRight_field {a b x : Nat} (ha : a < 2 ^ w) :
    (a + 2 ^ w * b + 2 ^ (2 * w) * x) >>> w = b + 2 ^ w * (x % 2 ^ w) + 2 ^ (2 * w) * (x >>> w) := by
  have hx : 2 ^ w * x = 2 ^ w * (x % 2 ^ w) + 2 ^ (2 * w) * (x >>> w) := by
    rw [Nat.shiftRight_eq_div_pow, Nat.two_mul, Nat.pow_add, Nat.mul_assoc, ← Nat.mul_add, Nat.mod_add_div]
  rw [Nat.add_assoc b, ← hx, Nat.shiftRight_eq_div_pow, Nat.two_mul, Nat.pow_add, Nat.mul_assoc, Nat.add_assoc,
    ← Nat.mul_add, Nat.add_mul_div_left _ _ (Nat.two_pow_pos w), Nat.div_eq_of_lt ha, Nat.zero_add]

/-! ## The fields of a word -/

/-- Induction over the pairs of a list. -/
theorem pair_induction {motive : (ds : List Nat) → (n : Nat) → ds.length = 2 * n → Prop} (nil : motive [] 0 rfl)
    (cons : ∀ a b ds n (h : ds.length = 2 * n), motive ds n h → motive (a :: b :: ds) (n + 1) (by simp [h]; omega))
    {ds : List Nat} {n : Nat} (hlen : ds.length = 2 * n) : motive ds n hlen := by
  induction n generalizing ds with
  | zero =>
      obtain rfl := List.length_eq_zero_iff.1 hlen
      exact nil
  | succ n ih =>
      match ds with
      | a :: b :: ds =>
          have hrest : ds.length = 2 * n := by
            simp only [List.length_cons] at hlen
            omega
          exact cons a b ds n hrest (ih hrest)

theorem and_mask (hlen : ds.length = 2 * n) (hlt : ∀ d ∈ ds, d < 2 ^ w) :
    Nat.ofDigits (2 ^ w) ds &&& mask w n = Nat.ofDigits (2 ^ (2 * w)) (evens ds) := by
  induction hlen using pair_induction with
  | nil => exact Nat.zero_and _
  | cons a b ds n _ ih =>
      simp only [List.forall_mem_cons] at hlt
      rw [ofDigits_cons_two, and_mask_succ hlt.1 hlt.2.1, ih hlt.2.2, evens, Nat.ofDigits_cons]

theorem shiftRight_and_mask (hlen : ds.length = 2 * n) (hlt : ∀ d ∈ ds, d < 2 ^ w) :
    Nat.ofDigits (2 ^ w) ds >>> w &&& mask w n = Nat.ofDigits (2 ^ (2 * w)) (odds ds) := by
  induction hlen using pair_induction with
  | nil => exact Nat.and_zero _
  | cons a b ds n _ ih =>
      simp only [List.forall_mem_cons] at hlt
      rw [ofDigits_cons_two, shiftRight_field hlt.1, and_mask_succ hlt.2.1 (Nat.mod_lt _ (Nat.two_pow_pos w)),
        ih hlt.2.2, odds, Nat.ofDigits_cons]

/-- A word is made of its fields with even and odd numbers. -/
theorem ofDigits_eq_evens_add_odds (w : Nat) (hlen : ds.length = 2 * n) :
    Nat.ofDigits (2 ^ w) ds =
      Nat.ofDigits (2 ^ (2 * w)) (evens ds) + 2 ^ w * Nat.ofDigits (2 ^ (2 * w)) (odds ds) := by
  induction hlen using pair_induction with
  | nil => rfl
  | cons a b ds n _ ih =>
      rw [ofDigits_cons_two, ih, evens, odds, Nat.ofDigits_cons, Nat.ofDigits_cons, Nat.mul_add, Nat.mul_add,
        Nat.mul_left_comm (2 ^ w)]
      omega

theorem ofDigits_pairSums (w : Nat) (hlen : ds.length = 2 * n) :
    Nat.ofDigits (2 ^ (2 * w)) (pairSums ds) =
      Nat.ofDigits (2 ^ (2 * w)) (evens ds) + Nat.ofDigits (2 ^ (2 * w)) (odds ds) := by
  induction hlen using pair_induction with
  | nil => rfl
  | cons a b ds n _ ih =>
      rw [pairSums, evens, odds, Nat.ofDigits_cons, Nat.ofDigits_cons, Nat.ofDigits_cons, ih, Nat.mul_add]
      omega

/-! ## Sums of pairs -/

/-- Both halves are masked and added. -/
theorem masked_sum (hlen : ds.length = 2 * n) (hlt : ∀ d ∈ ds, d < 2 ^ w) :
    (Nat.ofDigits (2 ^ w) ds >>> w &&& mask w n) + (Nat.ofDigits (2 ^ w) ds &&& mask w n) =
      Nat.ofDigits (2 ^ (2 * w)) (pairSums ds) := by
  rw [shiftRight_and_mask hlen hlt, and_mask hlen hlt, ofDigits_pairSums w hlen, Nat.add_comm]

/-- Two bits are added by a subtraction. -/
theorem masked_sub (hlen : ds.length = 2 * n) (hlt : ∀ d ∈ ds, d < 2 ^ 1) :
    Nat.ofDigits (2 ^ 1) ds - (Nat.ofDigits (2 ^ 1) ds >>> 1 &&& mask 1 n) =
      Nat.ofDigits (2 ^ (2 * 1)) (pairSums ds) := by
  have hsplit := ofDigits_eq_evens_add_odds 1 hlen
  have hpairs := ofDigits_pairSums 1 hlen
  rw [shiftRight_and_mask hlen hlt]
  omega

/-- The halves are added and then masked, if no sum of neighbours is carried into the next field. -/
theorem sum_masked (hlen : ds.length = 2 * n) (hc : c + c < 2 ^ w) (hle : ∀ d ∈ ds, d ≤ c) :
    (Nat.ofDigits (2 ^ w) ds >>> w + Nat.ofDigits (2 ^ w) ds) &&& mask w n =
      Nat.ofDigits (2 ^ (2 * w)) (pairSums ds) := by
  induction hlen using pair_induction with
  | nil => exact Nat.and_zero _
  | cons a b ds n _ ih =>
      simp only [List.forall_mem_cons] at hle
      -- The lowest field of what is left.
      have hlow : Nat.ofDigits (2 ^ w) ds % 2 ^ w ≤ c := by
        match ds with
        | [] => exact (Nat.mod_le _ _).trans (Nat.zero_le c)
        | d :: ds =>
            rw [Nat.ofDigits_cons, Nat.add_mul_mod_self_left]
            exact (Nat.mod_le _ _).trans (hle.2.2 d List.mem_cons_self)
      have hadd : b + 2 ^ w * (Nat.ofDigits (2 ^ w) ds % 2 ^ w) + 2 ^ (2 * w) * (Nat.ofDigits (2 ^ w) ds >>> w) +
          (a + 2 ^ w * b + 2 ^ (2 * w) * Nat.ofDigits (2 ^ w) ds) =
          (a + b) + 2 ^ w * (Nat.ofDigits (2 ^ w) ds % 2 ^ w + b) +
            2 ^ (2 * w) * (Nat.ofDigits (2 ^ w) ds >>> w + Nat.ofDigits (2 ^ w) ds) := by
        rw [Nat.mul_add, Nat.mul_add]
        omega
      rw [ofDigits_cons_two, shiftRight_field (by omega), hadd, and_mask_succ (by omega) (by omega), ih hle.2.2,
        pairSums, Nat.ofDigits_cons]

theorem length_pairSums (hlen : ds.length = 2 * n) : (pairSums ds).length = n := by
  induction hlen using pair_induction with
  | nil => rfl
  | cons a b ds n _ ih => rw [pairSums, List.length_cons, ih]

theorem sum_pairSums (hlen : ds.length = 2 * n) : (pairSums ds).sum = ds.sum := by
  induction hlen using pair_induction with
  | nil => rfl
  | cons a b ds n _ ih =>
      rw [pairSums, List.sum_cons, List.sum_cons, List.sum_cons, ih, Nat.add_assoc]

theorem pairSums_le (hlen : ds.length = 2 * n) (hle : ∀ d ∈ ds, d ≤ c) : ∀ d ∈ pairSums ds, d ≤ c + c := by
  induction hlen using pair_induction with
  | nil => exact fun _ hd => absurd hd List.not_mem_nil
  | cons a b ds n _ ih =>
      simp only [List.forall_mem_cons] at hle
      rw [pairSums, List.forall_mem_cons]
      exact ⟨Nat.add_le_add hle.1 hle.2.1, ih hle.2.2⟩

/-! ## Sums of all fields -/

/-- Every field with the one `k` fields above it added. -/
def addShifted (k : Nat) (ds : List Nat) : List Nat :=
  List.zipWith (· + ·) ds (ds.drop k ++ List.replicate k 0)

theorem length_shifted (hk : k ≤ ds.length) : (ds.drop k ++ List.replicate k 0).length = ds.length := by
  rw [List.length_append, List.length_drop, List.length_replicate, Nat.sub_add_cancel hk]

theorem add_shiftRight (hk : k ≤ ds.length) (hlt : ∀ d ∈ ds, d < 2 ^ w) :
    Nat.ofDigits (2 ^ w) ds + Nat.ofDigits (2 ^ w) ds >>> (w * k) = Nat.ofDigits (2 ^ w) (addShifted k ds) := by
  rw [addShifted, ← Nat.ofDigits_add_ofDigits_eq_ofDigits_zipWith_of_length_eq (length_shifted hk).symm,
    Nat.ofDigits_append_replicate_zero, Nat.shiftRight_eq_div_pow, Nat.pow_mul,
    Nat.ofDigits_div_pow_eq_ofDigits_drop k (Nat.two_pow_pos w) ds hlt]

theorem addShifted_le (k : Nat) (hle : ∀ d ∈ ds, d ≤ c) : ∀ d ∈ addShifted k ds, d ≤ c + c := by
  intro d hd
  rcases List.mem_iff_getElem.1 hd with ⟨i, hi, rfl⟩
  simp only [addShifted, List.getElem_zipWith]
  refine Nat.add_le_add (hle _ (List.getElem_mem _)) ?_
  rcases List.mem_append.1 (List.getElem_mem (l := ds.drop k ++ List.replicate k 0) (n := i) _) with hmem | hmem
  · exact hle _ (List.mem_of_mem_drop hmem)
  · rw [(List.mem_replicate.1 hmem).2]
    exact Nat.zero_le c

/-! ## The bits of a word -/

/-- The lowest `k` bits. -/
def bits (k x : Nat) : List Nat :=
  (List.range k).map fun i => (x.testBit i).toNat

theorem length_bits (k x : Nat) : (bits k x).length = k := by
  rw [bits, List.length_map, List.length_range]

theorem bits_le (k x : Nat) : ∀ d ∈ bits k x, d ≤ 1 := by
  intro d hd
  rcases List.mem_map.1 hd with ⟨i, -, rfl⟩
  exact Bool.toNat_le _

theorem ofDigits_bits {k x : Nat} (hx : x < 2 ^ k) : Nat.ofDigits (2 ^ 1) (bits k x) = x := by
  induction k generalizing x with
  | zero =>
      rw [Nat.pow_zero, Nat.lt_one_iff] at hx
      exact hx.symm
  | succ k ih =>
      have hbits : bits (k + 1) x = x % 2 :: bits k (x / 2) := by
        rw [bits, List.range_succ_eq_map, List.map_cons, List.map_map, Nat.testBit_zero]
        refine congrArg₂ List.cons ?_ (List.map_congr_left fun i _ => ?_)
        · rcases Nat.mod_two_eq_zero_or_one x with h | h <;> simp [h]
        · rw [Function.comp, Nat.testBit_succ]
      rw [Nat.pow_succ] at hx
      rw [hbits, Nat.ofDigits_cons, ih (by omega)]
      exact Nat.mod_add_div x 2

/-- The sum of the bits is the number of bits that are set. -/
theorem sum_bits (k x : Nat) : (bits k x).sum = (List.range k).countP (x.testBit ·) := by
  rw [bits]
  induction List.range k with
  | nil => rfl
  | cons i is ih =>
      rw [List.map_cons, List.sum_cons, ih, List.countP_cons, Nat.add_comm]
      cases x.testBit i <;> rfl

end Fields
end Propeller
