import Propeller.Arch.Aarch64.Mm

/-!
# Arch.Aarch64.DirectMap — the compact direct map

The direct map passes a range to the compact loop with the Level 1 table.  Whenever the loop returns, the
range is mapped, except if the range crosses a multiple of the smallest span (2 MiB, 1 GiB, 512 GiB) that is
larger than the range: the part behind that multiple is then written to the table that ends there, at its
start, and is not mapped at all.
-/

namespace Propeller
namespace Aarch64

open Paging

/-- The base of the kernel segment. -/
def virtualBase : Nat := 0xffff000000000000

/-- The translation of an address of the kernel segment. -/
def translate (st : TableState Nat) (pagesStart v : Nat) : Option Nat :=
  mmu.walk st.mem 3 pagesStart v

/-- The direct map of a range is as asked for: the range is mapped, and the other addresses of the kernel
segment are translated as before. -/
structure DirectMapped (st st' : TableState Nat) (pagesStart base size : Nat) : Prop where
  inside : ∀ x < size, translate st' pagesStart (virtualBase + base + x) = some (base + x)
  outside : ∀ v, virtualBase ≤ v → v < 2 ^ 64 →
    ¬ (virtualBase + base ≤ v ∧ v < virtualBase + base + size) →
      translate st' pagesStart v = translate st pagesStart v

/-- The range crosses no multiple of the smallest span that is larger than the range, or the range has room
for the next smaller span and neither starts nor ends on a multiple of that. -/
def CompactExact (base size : Nat) : Prop :=
  if size < span 1 then base % span 1 + size ≤ span 1
  else if size < span 2 then
    base % span 2 + size ≤ span 2 ∨ ¬ span 1 ∣ base ∧ ¬ span 1 ∣ base + size
  else if size < span 3 then
    base % span 3 + size ≤ span 3 ∨ ¬ span 2 ∣ base ∧ ¬ span 2 ∣ base + size
  else True

instance (base size : Nat) : Decidable (CompactExact base size) :=
  inferInstanceAs (Decidable (ite _ _ (ite _ _ (ite _ _ _))))

theorem cover_eq (h : Nat) : Paging.cover mmu h = span (h + 1) :=
  (span_succ h).symm

/-- The kernel segment starts on a multiple of every span. -/
theorem virtualBase_add_mod {j : Nat} (hj : j ≤ 4) (x : Nat) : (virtualBase + x) % span j = x % span j := by
  have hdvd : span 4 ∣ virtualBase := ⟨65535, rfl⟩
  rcases (span_dvd_span hj).trans hdvd with ⟨k, hk⟩
  rw [hk, Nat.mul_add_mod]

theorem virtualBase_add_dvd {j : Nat} (hj : j ≤ 4) {x : Nat} : span j ∣ virtualBase + x ↔ span j ∣ x := by
  rw [Nat.dvd_iff_mod_eq_zero, Nat.dvd_iff_mod_eq_zero, virtualBase_add_mod hj]

variable {P : Profile} {device : Bool} {st st' : TableState Nat} {root base size fuel : Nat} {S : Set Nat}

theorem directMapMemory_eq_ok (hbase : base < 2 ^ 48)
    (hrun : directMapMemory P virtualBase root base size device .compact fuel st = .ok st') :
    compactLoop format P .aarch64 device fuel .level1 root (virtualBase + base) base size st = .ok st' := by
  have hlt : virtualBase + base < Arch.wordLimit .aarch64 := by
    show virtualBase + base < 2 ^ 64
    rw [virtualBase]
    omega
  rw [directMapMemory, addWord_of_lt hlt] at hrun
  exact checkAligned_eq_ok hrun

theorem fits (hbase : base < 2 ^ 48) (hlimit : base + size ≤ 2 ^ 48) :
    Fits .aarch64 (virtualBase + base) base size := by
  have hword : Arch.wordLimit .aarch64 = 2 ^ 64 := rfl
  refine ⟨?_, ?_, ?_⟩
  · rw [hword, virtualBase]
    omega
  · rw [hword]
    omega
  · rw [hword]
    omega

theorem directMapped_of_maps (hbase : base < 2 ^ 48)
    (hmaps : Maps mmu st st' 3 root (virtualBase + base) base size) :
    DirectMapped st st' root base size := by
  constructor
  · intro x hx
    have hwalk := hmaps.inside (virtualBase + base + x) (by omega) (by omega)
    have hsub : virtualBase + base + x - (virtualBase + base) = x := by omega
    rw [hsub] at hwalk
    exact hwalk
  · intro v hlo hhi hout
    have hspan : span 4 = 2 ^ 48 := rfl
    have hv : v / Paging.cover mmu 3 = (virtualBase + base) / Paging.cover mmu 3 := by
      rw [cover_eq, hspan]
      rw [virtualBase] at hlo ⊢
      omega
    rw [translate, translate, Mmu.walk, Mmu.walk, hmaps.outside v hv hout]

/-- The condition says that the range crosses no multiple of a larger span, for the runs that return. -/
theorem CompactExact.cross (hexact : CompactExact base size) (hbase : base < 2 ^ 48)
    (hlimit : base + size ≤ 2 ^ 48) (hs : Sound mmu physLimit st 3 root S)
    (hpage : pageSize ∣ size)
    (hrun : compactLoop format P .aarch64 device fuel .level1 root (virtualBase + base) base size st =
      .ok st') :
    size < span 3 ∧ ∀ j ≤ 3, size < span j → (virtualBase + base) % span j + size ≤ span j := by
  have hfits := fits hbase hlimit
  -- A range with room for a span that neither starts nor ends on a multiple of it: the loop is stuck.
  have hstuck : ∀ j ≤ 2, span j ≤ size → size < span (j + 1) →
      ¬ (¬ span j ∣ base ∧ ¬ span j ∣ base + size) := by
    rintro j hj hle hlt ⟨hvirt, hend⟩
    refine compactLoop_unaligned (j := j) lawful tests (fun _ => rfl) hs hfits (hj.trans (by decide)) hle hlt
      ?_ ?_ hrun
    · rwa [virtualBase_add_dvd (hj.trans (by decide))]
    · rwa [Nat.add_assoc, virtualBase_add_dvd (hj.trans (by decide))]
  have hwin : ∀ i, base % span i + size ≤ span i → ∀ j, i ≤ j → j ≤ 4 →
      (virtualBase + base) % span j + size ≤ span j := by
    intro i hi j hij hj
    rw [virtualBase_add_mod hj]
    exact window_mono (span_dvd_span hij) (span_pos j) hi
  have hmono : ∀ i j, size < span j → span i ≤ size → i < j := by
    intro i j hlt hle
    by_contra hge
    have := span_le_span (Nat.le_of_not_lt hge)
    omega
  rw [CompactExact] at hexact
  split at hexact
  · rename_i h1
    refine ⟨h1.trans_le (span_le_span (by decide)), ?_⟩
    intro j hj hlt
    cases j with
    | zero =>
        obtain rfl := Nat.eq_zero_of_dvd_of_lt hpage hlt
        exact (Nat.mod_lt _ (span_pos 0)).le
    | succ j => exact hwin 1 hexact (j + 1) (by omega) (by omega)
  · rename_i h1
    split at hexact
    · rename_i h2
      have hwin2 := hexact.resolve_right (hstuck 1 (by decide) (by omega) h2)
      refine ⟨h2.trans_le (span_le_span (by decide)), ?_⟩
      intro j hj hlt
      exact hwin 2 hwin2 j (hmono 1 j hlt (by omega)) (by omega)
    · rename_i h2
      split at hexact
      · rename_i h3
        have hwin3 := hexact.resolve_right (hstuck 2 (by decide) (by omega) h3)
        refine ⟨h3, ?_⟩
        intro j hj hlt
        exact hwin 3 hwin3 j (hmono 2 j hlt (by omega)) (by omega)
      · rename_i h3
        have hge : span (TableLevel.height .level1) ≤ size := Nat.le_of_not_lt h3
        exact absurd hrun (compactLoop_noBlock lawful tests (fun _ => rfl) hfits hge)

/-- If the condition fails, the range crosses a multiple of a span that is larger than the range, and the
loop returns. -/
theorem exists_cross_of_not_exact (hnot : ¬ CompactExact base size) :
    ∃ j, 1 ≤ j ∧ j ≤ 3 ∧ size < span j ∧ span j < base % span j + size ∧
      ∀ i < j, span i ≤ size → 1 ≤ i → span i ∣ base ∨ span i ∣ base + size := by
  -- A range that starts or ends on a multiple of a span does so for the smaller ones.
  have hsmall : ∀ i j, i ≤ j → (¬ (¬ span j ∣ base ∧ ¬ span j ∣ base + size)) →
      span i ∣ base ∨ span i ∣ base + size := by
    intro i j hij hor
    have hdvd := span_dvd_span hij
    by_cases hb : span j ∣ base
    · exact Or.inl (hdvd.trans hb)
    · exact Or.inr (hdvd.trans (by_contra fun he => hor ⟨hb, he⟩))
  rw [CompactExact] at hnot
  split at hnot
  · rename_i h1
    exact ⟨1, le_rfl, by decide, h1, Nat.lt_of_not_le hnot, fun i hi _ hi' => by omega⟩
  · split at hnot
    · rename_i h2
      rw [not_or] at hnot
      exact ⟨2, by decide, by decide, h2, Nat.lt_of_not_le hnot.1,
        fun i hi _ _ => hsmall i 1 (by omega) hnot.2⟩
    · split at hnot
      · rename_i h3
        rw [not_or] at hnot
        exact ⟨3, by decide, by decide, h3, Nat.lt_of_not_le hnot.1,
          fun i hi _ _ => hsmall i 2 (by omega) hnot.2⟩
      · exact absurd trivial hnot

/-- The pages of the empty state. -/
def manyPages : Nat := 2 ^ 30

/-- From an empty table the loop returns and leaves the part of the range behind the multiple unmapped. -/
theorem exists_unmapped {base size : Nat} (j : Nat) (P : Profile) (device : Bool) (hbase : base < 2 ^ 48)
    (hlimit : base + size ≤ 2 ^ 48) (hpagev : pageSize ∣ base) (hpages : pageSize ∣ size) (hj1 : 1 ≤ j)
    (hj : j ≤ 3) (hlt : size < span j) (hcross : span j < base % span j + size)
    (hret : ∀ i < j, span i ≤ size → 1 ≤ i → span i ∣ base ∨ span i ∣ base + size) :
    ∃ fuel st' x, x < size ∧
      directMapMemory P virtualBase 0 base size device .compact fuel (emptyState 0 manyPages) = .ok st' ∧
      translate st' 0 (virtualBase + base + x) = none := by
  have hfits := fits hbase hlimit
  have hword : Arch.wordLimit .aarch64 = 2 ^ 64 := rfl
  have hsound : Sound mmu physLimit (emptyState 0 manyPages) 3 0 {0} :=
    emptyState_sound lawful (by decide) 3
  have hsize39 : size < 2 ^ 39 := hlt.trans_le (span_le_span hj)
  -- A range that ends with the address space crosses no multiple.
  have hend : base + size < 2 ^ 48 := by
    refine lt_of_le_of_ne hlimit fun heq => ?_
    have hdvd : span j ∣ base + size := by
      rw [heq]
      exact span_dvd_span (hj.trans (by decide : (3 : Nat) ≤ 4))
    have := mod_add_le_of_dvd hdvd hlt
    omega
  have hadds : Adds P .aarch64 (virtualBase + base) base size := by
    refine Or.inr ⟨?_, ?_⟩
    · rw [hword, virtualBase]
      omega
    · rw [hword]
      omega
  have hcount : 3 * (size / pageSize) ≤ manyPages := by
    rw [pageSize, manyPages]
    omega
  have hhas : HasPages (emptyState (0 : Nat) manyPages) (TableLevel.height .level1 * (size / pageSize)) := by
    intro m hm
    have hm' : m < 3 * (size / pageSize) := hm
    refine ⟨pageSize * (0 + m + 1), if_pos ?_⟩
    show 0 + m < manyPages
    omega
  have hmake : ∀ l p, span (TableLevel.height l) ≤ size →
      ∃ d, format.makeDescriptor l p device = some d := by
    intro l p hle
    cases l with
    | level1 =>
        have hle' : 2 ^ 39 ≤ size := hle
        omega
    | level2 => exact ⟨_, rfl⟩
    | level3 => exact ⟨_, rfl⟩
    | level4 => exact ⟨_, rfl⟩
  have hret' : ∀ i ≤ TableLevel.height .level1, span i ≤ size →
      span i ∣ virtualBase + base ∨ span i ∣ virtualBase + base + size := by
    intro i hi hle
    have hi3 : i ≤ 3 := hi
    rw [Nat.add_assoc, virtualBase_add_dvd (by omega), virtualBase_add_dvd (by omega)]
    rcases Nat.eq_zero_or_pos i with rfl | hpos
    · exact Or.inl hpagev
    · refine hret i ?_ hle hpos
      by_contra hge
      have := span_le_span (Nat.le_of_not_lt hge)
      omega
  have hvirt : pageSize ∣ virtualBase + base := (virtualBase_add_dvd (j := 0) (by decide)).2 hpagev
  rcases compactLoop_returns (P := P) lawful tests (fun _ => rfl) hsound hfits hadds hvirt hpagev hpages
    hmake hret' hhas (Nat.lt_succ_self _) with ⟨st', hrun, -⟩
  have hmod := Nat.mod_lt base (span_pos j)
  have hsize : pageSize ≤ size := Nat.le_of_dvd (by omega) hpages
  refine ⟨size / pageSize + 3 + 1, st', span j - base % span j, by omega, ?_, ?_⟩
  · have hlt' : virtualBase + base < Arch.wordLimit .aarch64 := hfits.virt_lt hsize
    rw [directMapMemory, addWord_of_lt hlt']
    exact (checkAligned_of_dvd hfits hsize hvirt hpagev).trans hrun
  · -- The first address behind the multiple takes another entry.
    have hne : (virtualBase + base + (span j - base % span j)) / span j ≠ (virtualBase + base) / span j := by
      have hdm := Nat.div_add_mod (virtualBase + base) (span j)
      rw [virtualBase_add_mod (by omega)] at hdm
      have hsum : virtualBase + base + (span j - base % span j) =
          span j * ((virtualBase + base) / span j + 1) := by
        rw [Nat.mul_add, Nat.mul_one]
        omega
      rw [hsum, Nat.mul_div_cancel_left _ (span_pos j)]
      omega
    have hsame : (virtualBase + base + (span j - base % span j)) / Paging.cover mmu 3 =
        (virtualBase + base) / Paging.cover mmu 3 := by
      have hspan : span 4 = 2 ^ 48 := rfl
      rw [cover_eq, hspan, virtualBase]
      omega
    have hleaf := compactLoop_outside (l := TableLevel.level1) lawful tests hsound hfits hj hlt
      (emptyState_clearAt lawful manyPages 3 0 _) hsame hne hrun
    have hnone : mmu.leaf st'.mem 3 0 (virtualBase + base + (span j - base % span j)) = none :=
      hleaf.trans (emptyState_leaf lawful manyPages 3 0 _)
    rw [translate, Mmu.walk, hnone]
    rfl

/-- For every range of pages below the linear limit: whenever the compact direct map returns, from any tree
of tables without blocks on the walks of the range, it is as asked for, exactly if the condition holds. -/
theorem directMapMemory_exact_iff (P : Profile) (device : Bool) (base size : Nat) (hbase : base < 2 ^ 48)
    (hlimit : base + size ≤ 2 ^ 48) (hpageb : pageSize ∣ base) (hpages : pageSize ∣ size) :
    (∀ (st st' : TableState Nat) (pagesStart fuel : Nat) (S : Set Nat),
        Sound mmu physLimit st 3 pagesStart S →
        Clear mmu st 3 pagesStart (virtualBase + base) size →
        directMapMemory P virtualBase pagesStart base size device .compact fuel st = .ok st' →
        DirectMapped st st' pagesStart base size) ↔ CompactExact base size := by
  constructor
  · intro hall
    -- Otherwise an address in the range is left out, even in an empty table.
    by_contra hnot
    rcases exists_cross_of_not_exact hnot with ⟨j, hj1, hj, hlt, hcross, hret⟩
    rcases exists_unmapped j P device hbase hlimit hpageb hpages hj1 hj hlt hcross hret
      with ⟨fuel, st', x, hx, hrun, hnone⟩
    have hmapped := hall _ _ _ _ _ (emptyState_sound lawful (by decide) 3)
      (fun v _ _ => emptyState_clearAt lawful manyPages 3 0 v) hrun
    rw [hmapped.inside x hx] at hnone
    cases hnone
  · intro hexact st st' root fuel S hs hclear hrun
    have hloop := directMapMemory_eq_ok hbase hrun
    rcases hexact.cross hbase hlimit hs hpages hloop with ⟨hlt, hcross⟩
    -- The range is as far from the multiples of a span in both address spaces.
    have hplaced : Placed mmu physLimit 3 3 (virtualBase + base) base size := by
      refine ⟨hlimit, virtualBase_add_mod (by decide) base, ?_, hpages, ?_, hcross⟩
      · exact (virtualBase_add_dvd (j := 0) (by decide)).2 hpageb
      · rw [cover_eq, virtualBase_add_mod (by decide)]
        have hspan : span (3 + 1) = 2 ^ 48 := rfl
        rw [hspan, Nat.mod_eq_of_lt hbase]
        exact hlimit
    exact directMapped_of_maps hbase (compactLoop_maps (l := TableLevel.level1) lawful tests
      (fun _ _ => Or.inr rfl) le_rfl hs (fits hbase hlimit) hplaced hclear hloop)

/-- The last page below 2 MiB. -/
theorem directMapMemory_exact_page :
    CompactExact 0x1ff000 0x1000 ∧ ∀ (st st' : TableState Nat) (pagesStart fuel : Nat) (S : Set Nat),
      Sound mmu physLimit st 3 pagesStart S →
      Clear mmu st 3 pagesStart (virtualBase + 0x1ff000) 0x1000 →
      directMapMemory .dev virtualBase pagesStart 0x1ff000 0x1000 false .compact fuel st = .ok st' →
      DirectMapped st st' pagesStart 0x1ff000 0x1000 :=
  ⟨by decide, (directMapMemory_exact_iff .dev false 0x1ff000 0x1000 (by decide) (by decide) (by decide) (by decide)).2
    (by decide)⟩

/-- Two pages across 2 MiB: the second one is not mapped. -/
theorem directMapMemory_crosses_section :
    ∃ (st st' : TableState Nat) (pagesStart fuel : Nat) (S : Set Nat),
      Sound mmu physLimit st 3 pagesStart S ∧
      Clear mmu st 3 pagesStart (virtualBase + 0x1ff000) 0x2000 ∧
      directMapMemory .dev virtualBase pagesStart 0x1ff000 0x2000 false .compact fuel st = .ok st' ∧
      ¬ DirectMapped st st' pagesStart 0x1ff000 0x2000 := by
  rcases @exists_unmapped 0x1ff000 0x2000 1 .dev false (by decide) (by decide)
    (by decide) (by decide) (by decide) (by decide) (by decide) (by decide) (fun i hi _ _ => by omega)
    with ⟨fuel, st', x, hx, hrun, hnone⟩
  refine ⟨emptyState 0 manyPages, st', 0, fuel, {0}, emptyState_sound lawful (by decide) 3,
    fun v _ _ => emptyState_clearAt lawful manyPages 3 0 v, hrun, ?_⟩
  intro hmapped
  rw [hmapped.inside x hx] at hnone
  cases hnone

end Aarch64
end Propeller
