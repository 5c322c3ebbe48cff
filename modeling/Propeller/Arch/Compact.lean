import Propeller.Arch.Paging

/-!
# Arch.Compact — what the compact loop does

A round of the loop writes a block entry, or fills the table below an entry: with the rest of the range if
the virtual address is aligned (the *tail*), or with the remainder of the size by the entry size if it is
not (the *head*).  The remainder is what it takes to align the address only if the range ends on a multiple
of the entry size; otherwise the loop, having filled the remainder, finds the address not aligned, the
remainder zero, and makes no progress.

* `compactLoop_keeps` — every run that returns leaves a tree of tables;
* `compactLoop_maps` — a run that returns maps the range, if the range crosses no multiple of the smallest
  span that is larger than the range;
* `compactLoop_returns` — the runs that return;
* `compactLoop_stuck` — the runs that do not.
-/

namespace Propeller
namespace Paging

variable {L D : Type} {F : Format L D} {P : Profile} {A : Arch} {device : Bool} {M : Mmu D} {limit : Nat}
  {height align : L → Nat} {st st' st₁ : TableState D} {l : L} {t virt base size n fuel : Nat}
  {S : Set Nat} {d : D} {fill : Fill L D}

/-- The compact loop tests the virtual address against these spans. -/
structure Tests (A : Arch) (F : Format L D) (align : L → Nat) : Prop where
  eq : ∀ l, F.blockAlignment l = span (align l)
  le : ∀ l, 12 + 9 * align l ≤ A.wordBits

/-- The range and what it is mapped to lie within the address space. -/
structure Fits (A : Arch) (virt base size : Nat) : Prop where
  virt : virt + size ≤ A.wordLimit
  base : base + size ≤ A.wordLimit
  size : size < A.wordLimit

theorem Fits.take (h : Fits A virt base size) (hn : n ≤ size) : Fits A virt base n := by
  rcases h with ⟨hv, hb, hs⟩
  exact ⟨by omega, by omega, by omega⟩

theorem Fits.drop (h : Fits A virt base size) (hn : n ≤ size) :
    Fits A (virt + n) (base + n) (size - n) := by
  rcases h with ⟨hv, hb, hs⟩
  exact ⟨by omega, by omega, by omega⟩

theorem Fits.virt_lt (h : Fits A virt base size) (hsize : pageSize ≤ size) : virt < A.wordLimit := by
  have hv := h.virt
  have hpos := pageSize_pos
  omega

/-! ## Rounds -/

/-- What a round fills, the descriptor it makes, and the tables it leaves. -/
inductive Round (F : Format L D) (device : Bool) (height align : L → Nat) (fill : Fill L D) (l : L)
    (t virt base size : Nat) (st : TableState D) : Nat → D → TableState D → Prop
  | block (d : D) : span (align l) ∣ virt → span (height l) ≤ size →
      F.makeDescriptor l base device = some d →
      Round F device height align fill l t virt base size st (span (height l)) d st
  | tail (d : D) (st₁ : TableState D) : span (align l) ∣ virt → size < span (height l) →
      allocTableAndFill F fill l (st.mem t (F.getDescriptorIndex virt l)) virt base size st = .ok (d, st₁) →
      Round F device height align fill l t virt base size st size d st₁
  | head (d : D) (st₁ : TableState D) : ¬ span (align l) ∣ virt →
      allocTableAndFill F fill l (st.mem t (F.getDescriptorIndex virt l)) virt base
        (size % span (height l)) st = .ok (d, st₁) →
      Round F device height align fill l t virt base size st (size % span (height l)) d st₁

theorem isAligned_span (hT : Tests A F align) (hv : virt < A.wordLimit) :
    isAligned A virt (F.blockAlignment l) = true ↔ span (align l) ∣ virt := by
  rw [hT.eq, span]
  exact isAligned_iff hv (hT.le l)

theorem and_span (size h : Nat) : size &&& (span h - 1) = size % span h :=
  Nat.and_two_pow_sub_one_eq_mod _ _

theorem compactRound_eq_ok (hF : Lawful F M limit height) (hT : Tests A F align)
    (hv : virt < A.wordLimit)
    (hrun : compactRound F A device fill l t virt base size st = .ok (n, d, st₁)) :
    Round F device height align fill l t virt base size st n d st₁ := by
  have haligned := isAligned_span (l := l) hT hv
  simp only [compactRound, hF.entrySize] at hrun
  -- An unaligned start wins over the size: the source tests it first.
  by_cases hdvd : span (align l) ∣ virt
  · simp only [haligned.2 hdvd, not_true_eq_false, false_or, if_false] at hrun
    split at hrun
    · rename_i hlt
      rcases run_bind_eq_ok.1 hrun with ⟨⟨d', st₂⟩, halloc, hrun⟩
      obtain ⟨rfl, hrest⟩ := Prod.mk.inj (Except.ok.inj hrun)
      obtain ⟨rfl, rfl⟩ := Prod.mk.inj hrest
      exact .tail _ _ hdvd hlt halloc
    · rename_i hle
      rcases run_bind_eq_ok.1 hrun with ⟨d', hd', hrun⟩
      obtain ⟨rfl, hrest⟩ := Prod.mk.inj (Except.ok.inj hrun)
      obtain ⟨rfl, rfl⟩ := Prod.mk.inj hrest
      exact .block _ hdvd (by omega) (unwrap_eq_ok.1 hd')
  · have hfalse : isAligned A virt (F.blockAlignment l) = false := by
      rw [← Bool.not_eq_true, haligned]
      exact hdvd
    simp only [hfalse, Bool.false_eq_true, not_false_eq_true, true_or, if_true, and_span] at hrun
    rcases run_bind_eq_ok.1 hrun with ⟨⟨d', st₂⟩, halloc, hrun⟩
    obtain ⟨rfl, hrest⟩ := Prod.mk.inj (Except.ok.inj hrun)
    obtain ⟨rfl, rfl⟩ := Prod.mk.inj hrest
    exact .head _ _ hdvd halloc

theorem compactRound_of_round (hF : Lawful F M limit height) (hT : Tests A F align)
    (hv : virt < A.wordLimit) (hround : Round F device height align fill l t virt base size st n d st₁) :
    compactRound F A device fill l t virt base size st = .ok (n, d, st₁) := by
  have haligned := isAligned_span (l := l) hT hv
  simp only [compactRound, hF.entrySize]
  cases hround with
  | block _ hdvd hle hd =>
      simp only [haligned.2 hdvd, not_true_eq_false, false_or, if_neg (Nat.not_lt.2 hle), hd, unwrap]
      rfl
  | tail _ _ hdvd hlt halloc =>
      simp only [haligned.2 hdvd, not_true_eq_false, false_or, if_pos hlt, if_false, halloc]
      rfl
  | head _ _ hdvd halloc =>
      have hfalse : isAligned A virt (F.blockAlignment l) = false := by
        rw [← Bool.not_eq_true, haligned]
        exact hdvd
      simp only [hfalse, Bool.false_eq_true, not_false_eq_true, true_or, if_true, and_span, halloc]
      rfl

theorem Round.le (hround : Round F device height align fill l t virt base size st n d st₁) :
    n ≤ size := by
  cases hround with
  | block _ _ hle _ => exact hle
  | tail _ _ _ _ _ => exact le_rfl
  | head _ _ _ _ => exact Nat.mod_le _ _

theorem Round.dvd (hround : Round F device height align fill l t virt base size st n d st₁)
    (hsize : pageSize ∣ size) : pageSize ∣ n := by
  have hspan : pageSize ∣ span (height l) := span_dvd_span (Nat.zero_le _)
  cases hround with
  | block _ _ _ _ => exact hspan
  | tail _ _ _ _ _ => exact hsize
  | head _ _ _ _ => exact (Nat.dvd_mod_iff hspan).2 hsize

theorem checkAligned_eq_ok (hrun : checkAligned A fill l t virt base size st = .ok st') :
    fill l t virt base size st = .ok st' := by
  rcases run_bind_eq_ok.1 hrun with ⟨_, -, hrun⟩
  rcases run_bind_eq_ok.1 hrun with ⟨_, -, hrun⟩
  exact hrun

theorem compactLoop_of_lt (hsize : size < pageSize) :
    compactLoop F P A device (fuel + 1) l t virt base size st = .ok st := by
  rw [compactLoop, if_pos hsize]

/-- One round of the loop, and what is left to do. -/
theorem compactLoop_eq_ok (hF : Lawful F M limit height) (hT : Tests A F align) (hsize : pageSize ≤ size)
    (hfits : Fits A virt base size)
    (hrun : compactLoop F P A device (fuel + 1) l t virt base size st = .ok st') :
    ∃ n d st₁, Round F device height align (checkAligned A (compactLoop F P A device fuel)) l t virt base
        size st n d st₁ ∧
      (n = size → st' = st₁.set t (M.index (height l) virt) d) ∧
      (n < size → compactLoop F P A device fuel l t (virt + n) (base + n) (size - n)
        (st₁.set t (M.index (height l) virt) d) = .ok st') := by
  have hpage := pageSize_pos
  rw [compactLoop, if_neg (by omega)] at hrun
  rcases run_bind_eq_ok.1 hrun with ⟨⟨n, d, st₁⟩, hround, hrun⟩
  rcases run_bind_eq_ok.1 hrun with ⟨virt', hvirt', hrun⟩
  rcases run_bind_eq_ok.1 hrun with ⟨base', hbase', hrun⟩
  rcases run_bind_eq_ok.1 hrun with ⟨size', hsize', hrun⟩
  have hround' := compactRound_eq_ok hF hT (hfits.virt_lt hsize) hround
  have hle := hround'.le
  have hv := hfits.virt
  have hb := hfits.base
  rw [subWord_of_le hle hfits.size] at hsize'
  obtain rfl := Except.ok.inj hsize'
  rw [hF.index] at hrun
  refine ⟨n, d, st₁, hround', ?_, ?_⟩
  · -- The round took all of the range, and the next iteration returns at once.
    rintro rfl
    rw [Nat.sub_self] at hrun
    cases fuel with
    | zero => cases hrun
    | succ fuel =>
        rw [compactLoop_of_lt hpage] at hrun
        exact (Except.ok.inj hrun).symm
  · intro hlt
    rw [addWord_of_lt (by omega)] at hvirt' hbase'
    obtain rfl := Except.ok.inj hvirt'
    obtain rfl := Except.ok.inj hbase'
    exact hrun

/-! ## Every run that returns leaves a tree of tables -/

/-- Below the last level there is no table to fill. -/
theorem allocTableAndFill_zero {d' : D} (hF : Lawful F M limit height) (hl : height l = 0) :
    allocTableAndFill F fill l d' virt base size st ≠ .ok (d, st₁) := by
  intro hrun
  rcases run_bind_eq_ok.1 hrun with ⟨_, -, hrun⟩
  rcases run_bind_eq_ok.1 hrun with ⟨_, hnext, -⟩
  rw [unwrap_eq_ok, hF.next_zero l hl] at hnext
  cases hnext

/-- `alloc_table_and_fill` keeps the tables if the fill of the table below does. -/
theorem allocTableAndFill_keeps (hF : Lawful F M limit height) (hs : Sound M limit st (height l) t S)
    (hfill : ∀ l' next st₁ st₂ K, Sound M limit st₁ (height l') next K →
      fill l' next virt base n st₁ = .ok st₂ → Keeps M st₁ st₂ (height l') next K)
    (hrun : allocTableAndFill F fill l (st.mem t (F.getDescriptorIndex virt l)) virt base n st =
      .ok (d, st₁)) : Keeps M st (st₁.set t (M.index (height l) virt) d) (height l) t S := by
  rw [hF.index] at hrun
  cases hh : height l with
  | zero => exact absurd hrun (allocTableAndFill_zero hF hh)
  | succ h =>
      rw [hh] at hs hrun
      rcases allocTableAndFill_eq_ok hF hh hs hrun with ⟨l', next, st₂, K, hl', hrun', hopened⟩
      have hsound : Sound M limit st₂ (height l') next K := by
        rw [hl']
        exact hopened.sound
      have hkeeps := hfill l' next st₂ st₁ K hsound hrun'
      rw [hl'] at hkeeps
      exact (hopened.descends hs hkeeps).keeps

theorem Round.keeps (hF : Lawful F M limit height) (hs : Sound M limit st (height l) t S)
    (hfill : ∀ m ≤ size, ∀ l' next st₁ st₂ K, Sound M limit st₁ (height l') next K →
      fill l' next virt base m st₁ = .ok st₂ → Keeps M st₁ st₂ (height l') next K)
    (hround : Round F device height align fill l t virt base size st n d st₁) :
    Keeps M st (st₁.set t (M.index (height l) virt) d) (height l) t S := by
  cases hround with
  | block _ _ _ hd => exact Keeps.block hs (hF.block_ne l base device d hd)
  | tail _ _ _ _ halloc => exact allocTableAndFill_keeps hF hs (hfill _ le_rfl) halloc
  | head _ _ _ halloc => exact allocTableAndFill_keeps hF hs (hfill _ (Nat.mod_le _ _)) halloc

theorem compactLoop_keeps (hF : Lawful F M limit height) (hT : Tests A F align)
    (hs : Sound M limit st (height l) t S) (hfits : Fits A virt base size)
    (hrun : compactLoop F P A device fuel l t virt base size st = .ok st') :
    Keeps M st st' (height l) t S := by
  induction fuel generalizing l t virt base size st st' S with
  | zero => cases hrun
  | succ fuel ih =>
      by_cases hsize : size < pageSize
      · rw [compactLoop_of_lt hsize] at hrun
        obtain rfl := Except.ok.inj hrun
        exact Keeps.refl hs
      · rcases compactLoop_eq_ok hF hT (by omega) hfits hrun with ⟨n, d, st₁, hround, hdone, hrest⟩
        have hkeeps := hround.keeps hF hs fun m hm l' next st₂ st₃ K hsound hfill =>
          ih hsound (hfits.take hm) (checkAligned_eq_ok hfill)
        rcases Nat.lt_or_eq_of_le hround.le with hlt | heq
        · exact hkeeps.trans (ih (hs.keeps hkeeps) (hfits.drop hround.le) (hrest hlt))
        · rw [hdone heq]
          exact hkeeps

/-- The fills of the tables below keep the tables. -/
theorem compactFill_keeps (hF : Lawful F M limit height) (hT : Tests A F align)
    (hfits : Fits A virt base size) (P : Profile) (device : Bool) (fuel : Nat) :
    ∀ m ≤ size, ∀ l' next st₁ st₂ K, Sound M limit st₁ (height l') next K →
      checkAligned A (compactLoop F P A device fuel) l' next virt base m st₁ = .ok st₂ →
      Keeps M st₁ st₂ (height l') next K :=
  fun _ hm _ _ _ _ _ hsound hrun =>
    compactLoop_keeps hF hT hsound (hfits.take hm) (checkAligned_eq_ok hrun)

/-- A fill of a table below leaves the other entries alone. -/
theorem allocTableAndFill_other {v : Nat} (hF : Lawful F M limit height)
    (hs : Sound M limit st (height l) t S)
    (hfill : ∀ l' next st₁ st₂ K, Sound M limit st₁ (height l') next K →
      fill l' next virt base n st₁ = .ok st₂ → Keeps M st₁ st₂ (height l') next K)
    (hne : M.index (height l) v ≠ M.index (height l) virt)
    (hrun : allocTableAndFill F fill l (st.mem t (F.getDescriptorIndex virt l)) virt base n st =
      .ok (d, st₁)) :
    M.leaf (st₁.set t (M.index (height l) virt) d).mem (height l) t v = M.leaf st.mem (height l) t v := by
  rw [hF.index] at hrun
  cases hh : height l with
  | zero => exact absurd hrun (allocTableAndFill_zero hF hh)
  | succ h =>
      rw [hh] at hs hrun hne
      rcases allocTableAndFill_eq_ok hF hh hs hrun with ⟨l', next, st₂, K, hl', hrun', hopened⟩
      have hsound : Sound M limit st₂ (height l') next K := by
        rw [hl']
        exact hopened.sound
      have hkeeps := hfill l' next st₂ st₁ K hsound hrun'
      rw [hl'] at hkeeps
      exact (hopened.descends hs hkeeps).outside v hne

/-- A run leaves alone what does not take an entry of the range. -/
theorem compactLoop_other {v : Nat} (hF : Lawful F M limit height) (hT : Tests A F align)
    (hs : Sound M limit st (height l) t S) (hfits : Fits A virt base size)
    (hne : ∀ w, virt ≤ w → w < virt + size → M.index (height l) v ≠ M.index (height l) w)
    (hrun : compactLoop F P A device fuel l t virt base size st = .ok st') :
    M.leaf st'.mem (height l) t v = M.leaf st.mem (height l) t v := by
  -- A round writes the entry of its own address, and no address of the range has the entry of `v`.
  induction fuel generalizing virt base size st st' S with
  | zero => cases hrun
  | succ fuel ih =>
      by_cases hsize : size < pageSize
      · rw [compactLoop_of_lt hsize] at hrun
        obtain rfl := Except.ok.inj hrun
        rfl
      · have hpage := pageSize_pos
        rcases compactLoop_eq_ok hF hT (by omega) hfits hrun with ⟨n, d, st₁, hround, hdone, hrest⟩
        have hfill := compactFill_keeps hF hT hfits P device fuel
        have hkeeps := hround.keeps hF hs hfill
        have hfirst := hne virt le_rfl (by omega)
        have hstep : M.leaf (st₁.set t (M.index (height l) virt) d).mem (height l) t v =
            M.leaf st.mem (height l) t v := by
          cases hround with
          | block _ _ _ _ => exact Mmu.leaf_set_of_ne hs.separate hfirst
          | tail _ _ _ _ halloc => exact allocTableAndFill_other hF hs (hfill _ le_rfl) hfirst halloc
          | head _ _ _ halloc =>
              exact allocTableAndFill_other hF hs (hfill _ (Nat.mod_le _ _)) hfirst halloc
        rcases Nat.lt_or_eq_of_le hround.le with hlt | heq
        · rw [← hstep]
          exact ih (hs.keeps hkeeps) (hfits.drop hround.le) (fun w hlo hhi => hne w (by omega) (by omega))
            (hrest hlt)
        · rw [hdone heq]
          exact hstep

/-! ## Runs that do not return -/

/-- The address is not aligned and the size is a multiple of the entry size: the loop fills nothing and
starts again. -/
theorem compactLoop_stuck (hF : Lawful F M limit height) (hT : Tests A F align)
    (halign : align l = height l) (hfits : Fits A virt base size)
    (hvirt : ¬ span (height l) ∣ virt) (hsize : span (height l) ∣ size) (hpos : pageSize ≤ size) :
    compactLoop F P A device fuel l t virt base size st ≠ .ok st' := by
  induction fuel generalizing st with
  | zero =>
      intro hrun
      cases hrun
  | succ fuel ih =>
      intro hrun
      have hpage := pageSize_pos
      rcases compactLoop_eq_ok hF hT hpos hfits hrun with ⟨n, d, st₁, hround, -, hrest⟩
      rw [← halign] at hvirt
      cases hround with
      | block _ hdvd _ _ => exact hvirt hdvd
      | tail _ _ hdvd _ _ => exact hvirt hdvd
      | head _ _ _ _ =>
          rw [Nat.mod_eq_zero_of_dvd hsize] at hrest
          exact ih (hrest (by omega))

/-- In the last table, an address that the loop takes as not aligned calls for a table below. -/
theorem compactLoop_last_unaligned (hF : Lawful F M limit height) (hT : Tests A F align)
    (hl : height l = 0) (hfits : Fits A virt base size) (hvirt : ¬ span (align l) ∣ virt)
    (hpos : pageSize ≤ size) : compactLoop F P A device fuel l t virt base size st ≠ .ok st' := by
  intro hrun
  cases fuel with
  | zero => cases hrun
  | succ fuel =>
      rcases compactLoop_eq_ok hF hT hpos hfits hrun with ⟨n, d, st₁, hround, -, -⟩
      cases hround with
      | block _ hdvd _ _ => exact hvirt hdvd
      | tail _ _ hdvd _ _ => exact hvirt hdvd
      | head _ _ _ halloc => exact allocTableAndFill_zero hF hl halloc

/-- There is no block entry at this level, and the range has room for one. -/
theorem compactLoop_noBlock (hF : Lawful F M limit height) (hT : Tests A F align)
    (hnone : ∀ p, F.makeDescriptor l p device = none) (hfits : Fits A virt base size)
    (hsize : span (height l) ≤ size) :
    compactLoop F P A device fuel l t virt base size st ≠ .ok st' := by
  -- A head round leaves at least the size of an entry, so the loop does not get by without a block.
  induction fuel generalizing virt base size st with
  | zero =>
      intro hrun
      cases hrun
  | succ fuel ih =>
      intro hrun
      have hpage := Nat.le_trans (span_le_span (Nat.zero_le (height l))) hsize
      rcases compactLoop_eq_ok hF hT hpage hfits hrun with ⟨n, d, st₁, hround, -, hrest⟩
      cases hround with
      | block _ _ _ hd =>
          rw [hnone base] at hd
          cases hd
      | tail _ _ _ hlt _ => omega
      | head _ _ _ _ =>
          have hlt : size % span (height l) < span (height l) := Nat.mod_lt _ (span_pos _)
          have hdm := Nat.div_add_mod size (span (height l))
          have hpos := Nat.le_mul_of_pos_right (span (height l)) (Nat.div_pos hsize (span_pos _))
          exact ih (hfits.drop (Nat.mod_le _ _)) (by omega) (hrest (by omega))

/-- A range that is shorter than the span of an entry is filled by one table below. -/
theorem Round.of_lt (hround : Round F device height align fill l t virt base size st n d st₁)
    (hlt : size < span (height l)) :
    n = size ∧ allocTableAndFill F fill l (st.mem t (F.getDescriptorIndex virt l)) virt base size st =
      .ok (d, st₁) := by
  cases hround with
  | block _ _ hle _ => omega
  | tail _ _ _ _ halloc => exact ⟨rfl, halloc⟩
  | head _ _ _ halloc =>
      rw [Nat.mod_eq_of_lt hlt] at halloc ⊢
      exact ⟨rfl, halloc⟩

/-- The range has room for a span but for no larger one, and neither starts nor ends on a multiple of
the span. -/
theorem compactLoop_unaligned {j : Nat} (hF : Lawful F M limit height) (hT : Tests A F align)
    (halign : ∀ l, align l = height l) (hs : Sound M limit st (height l) t S)
    (hfits : Fits A virt base size) (hj : j ≤ height l) (hle : span j ≤ size) (hlt : size < span (j + 1))
    (hvirt : ¬ span j ∣ virt) (hend : ¬ span j ∣ virt + size) :
    compactLoop F P A device fuel l t virt base size st ≠ .ok st' := by
  induction fuel generalizing l t st st' S with
  | zero =>
      intro hrun
      cases hrun
  | succ fuel ih =>
      intro hrun
      have hpage := Nat.le_trans (span_le_span (Nat.zero_le j)) hle
      rcases compactLoop_eq_ok hF hT hpage hfits hrun with ⟨n, d, st₁, hround, -, hrest⟩
      rcases Nat.lt_or_eq_of_le hj with hjlt | rfl
      · -- Above the span, the whole range is passed on.
        have hsmall : size < span (height l) := hlt.trans_le (span_le_span hjlt)
        rcases hround.of_lt hsmall with ⟨rfl, halloc⟩
        obtain ⟨h, hh⟩ : ∃ h, height l = h + 1 := ⟨height l - 1, by omega⟩
        rw [hF.index] at halloc
        rw [hh] at hs halloc
        rcases allocTableAndFill_eq_ok hF hh hs halloc with ⟨l', next, st₂, K, hl', hfill, hopened⟩
        have hsound := hopened.sound
        rw [← hl'] at hsound
        exact ih hsound (by omega) (checkAligned_eq_ok hfill)
      · have hvirt' : ¬ span (align l) ∣ virt := by
          rw [halign]
          exact hvirt
        cases hround with
        | block _ hdvd _ _ => exact hvirt' hdvd
        | tail _ _ hdvd _ _ => exact hvirt' hdvd
        | head _ _ _ _ =>
            have hmod : size % span (height l) < span (height l) := Nat.mod_lt _ (span_pos _)
            have hdm := Nat.div_add_mod size (span (height l))
            have hpos := Nat.le_mul_of_pos_right (span (height l)) (Nat.div_pos hle (span_pos _))
            have hspan := span_le_span (Nat.zero_le (height l))
            have hsum : virt + size = virt + size % span (height l) +
                span (height l) * (size / span (height l)) := by omega
            refine compactLoop_stuck hF hT (halign l) (hfits.drop (Nat.mod_le _ _)) ?_ ?_ ?_
              (hrest (by omega))
            · intro hdvd
              rw [hsum] at hend
              exact hend (dvd_add hdvd (Nat.dvd_mul_right _ _))
            · have hmul : size - size % span (height l) = span (height l) * (size / span (height l)) := by
                omega
              rw [hmul]
              exact Nat.dvd_mul_right _ _
            · exact hspan.trans (by omega)

/-! ## What a run leaves alone -/

/-- A range that is shorter than a span is filled below the entry of its first address: what lies in another
multiple of the span is translated as before. -/
theorem compactLoop_outside {j v : Nat} (hF : Lawful F M limit height) (hT : Tests A F align)
    (hs : Sound M limit st (height l) t S) (hfits : Fits A virt base size) (hj : j ≤ height l)
    (hlt : size < span j) (hclear : ClearAt M st (height l) t virt)
    (hv : v / cover M (height l) = virt / cover M (height l)) (hne : v / span j ≠ virt / span j)
    (hrun : compactLoop F P A device fuel l t virt base size st = .ok st') :
    M.leaf st'.mem (height l) t v = M.leaf st.mem (height l) t v := by
  -- The range is smaller than an entry down to height `j`, so each level is one round that opens one table.
  induction fuel generalizing l t st st' S with
  | zero => cases hrun
  | succ fuel ih =>
      by_cases hsmall : size < pageSize
      · rw [compactLoop_of_lt hsmall] at hrun
        obtain rfl := Except.ok.inj hrun
        rfl
      · rcases compactLoop_eq_ok hF hT (by omega) hfits hrun with ⟨n, d, st₁, hround, hdone, -⟩
        rcases hround.of_lt (hlt.trans_le (span_le_span hj)) with ⟨rfl, halloc⟩
        rw [hdone rfl]
        cases hh : height l with
        | zero => exact absurd halloc (allocTableAndFill_zero hF hh)
        | succ h =>
            rw [hF.index] at halloc
            rw [hh] at hs halloc hclear hv hj
            rcases allocTableAndFill_eq_ok hF hh hs halloc with ⟨l', next, st₂, K, hl', hfill, hopened⟩
            have hrun' := checkAligned_eq_ok hfill
            have hsound := hopened.sound
            rw [← hl'] at hsound
            have hkeeps := compactLoop_keeps hF hT hsound hfits hrun'
            rw [hl'] at hkeeps
            have hdesc := hopened.descends hs hkeeps
            -- Below the opened entry `v` is still in another span, and the fill is the same loop one level down.
            refine hopened.leaf_outside hF hh hdesc hclear hj hv hne fun hjh hclear' hdiv => ?_
            rw [← hl'] at hdiv hclear' hjh
            have hleaf := ih hsound hjh hclear' hdiv hrun'
            rw [hl'] at hleaf
            exact hleaf

/-! ## Runs that map their range -/

/-- A range that ends on a multiple of `s` and is shorter crosses no multiple of `s`. -/
theorem mod_add_le_of_dvd {s : Nat} (hdvd : s ∣ virt + n) (hn : n < s) : virt % s + n ≤ s := by
  have hmod : (virt % s + n) % s = 0 := by
    rw [Nat.mod_add_mod]
    exact Nat.mod_eq_zero_of_dvd hdvd
  have hlt := Nat.mod_lt virt (show 0 < s by omega)
  by_contra hgt
  rw [Nat.mod_eq_sub_mod (by omega), Nat.mod_eq_of_lt (by omega)] at hmod
  omega

/-- What is left of a range that stays between two multiples of `s` does so, too. -/
theorem window_drop {s : Nat} (hwin : virt % s + size ≤ s) (hn : n < size) :
    (virt + n) % s + (size - n) ≤ s := by
  have hmod : (virt + n) % s = virt % s + n := by
    rw [← Nat.mod_add_mod, Nat.mod_eq_of_lt (by omega)]
  rw [hmod]
  omega

theorem dvd_of_mod_eq {i j : Nat} (hij : i ≤ j) (hmod : virt % span j = base % span j)
    (hvirt : span i ∣ virt) : span i ∣ base := by
  have hdvd := span_dvd_span hij
  refine Nat.dvd_of_mod_eq_zero ?_
  calc base % span i = base % span j % span i := (Nat.mod_mod_of_dvd _ hdvd).symm
    _ = virt % span j % span i := by rw [hmod]
    _ = virt % span i := Nat.mod_mod_of_dvd _ hdvd
    _ = 0 := Nat.mod_eq_zero_of_dvd hvirt

theorem pageSize_dvd_span (h : Nat) : pageSize ∣ span h :=
  span_dvd_span (Nat.zero_le h)

/-- A range of pages that a table of height `h` covers, and that crosses no multiple of a span which is
larger than the range. -/
structure Placed (M : Mmu D) (limit top h virt base size : Nat) : Prop where
  le_limit : base + size ≤ limit
  mod : virt % span top = base % span top
  virt_dvd : pageSize ∣ virt
  size_dvd : pageSize ∣ size
  window : virt % cover M h + size ≤ cover M h
  cross : ∀ j ≤ h, size < span j → virt % span j + size ≤ span j

theorem Placed.drop {top h : Nat} (hp : Placed M limit top h virt base size) (hn : n < size)
    (hpage : pageSize ∣ n) (hdvd : span h ∣ virt + n) :
    Placed M limit top h (virt + n) (base + n) (size - n) where
  le_limit := by
    have := hp.le_limit
    omega
  mod := by rw [Nat.add_mod, hp.mod, ← Nat.add_mod]
  virt_dvd := dvd_add hp.virt_dvd hpage
  size_dvd := Nat.dvd_sub hp.size_dvd hpage
  window := window_drop hp.window hn
  cross := by
    intro j hj hlt
    rw [Nat.mod_eq_zero_of_dvd ((span_dvd_span hj).trans hdvd)]
    omega

theorem Placed.below {top h : Nat} (hF : Lawful F M limit height) (hl : height l = h + 1)
    (hp : Placed M limit top (h + 1) virt base size) (hn : n ≤ size) (hpage : pageSize ∣ n)
    (hcross : ∀ j ≤ h + 1, n < span j → virt % span j + n ≤ span j) (hlt : n < span (h + 1)) :
    Placed M limit top h virt base n where
  le_limit := by
    have := hp.le_limit
    omega
  mod := hp.mod
  virt_dvd := hp.virt_dvd
  size_dvd := hpage
  window := by
    rw [hF.cover_eq hl]
    exact hcross (h + 1) le_rfl hlt
  cross := fun j hj => hcross j (by omega)

/-- What `alloc_table_and_fill` maps, if the fill of the table below maps its part of the range. -/
theorem allocTableAndFill_maps {top h : Nat} (hF : Lawful F M limit height) (hl : height l = h + 1)
    (hs : Sound M limit st (h + 1) t S) (hplaced : Placed M limit top (h + 1) virt base size)
    (hclear : Clear M st (h + 1) t virt size) (hpos : 0 < n) (hle : n ≤ size) (hdvd : pageSize ∣ n)
    (hlt : n < span (h + 1))
    (hcross : ∀ j ≤ h + 1, n < span j → virt % span j + n ≤ span j)
    (hfill : ∀ l' next st₂ K, height l' = h → Sound M limit st₂ (height l') next K →
      Placed M limit top (height l') virt base n → Clear M st₂ (height l') next virt n →
      fill l' next virt base n st₂ = .ok st₁ →
        Keeps M st₂ st₁ (height l') next K ∧ Maps M st₂ st₁ (height l') next virt base n)
    (hrun : allocTableAndFill F fill l (st.mem t (M.index (h + 1) virt)) virt base n st = .ok (d, st₁)) :
    Keeps M st (st₁.set t (M.index (h + 1) virt) d) (h + 1) t S ∧
      Maps M st (st₁.set t (M.index (h + 1) virt) d) (h + 1) t virt base n := by
  have hwin := hcross (h + 1) le_rfl hlt
  have hblock : ∀ addr, M.decode (h + 1) (st.mem t (M.index (h + 1) virt)) ≠ .block addr :=
    fun addr => (hclear.head (by omega)).not_block
  rcases allocTableAndFill_eq_ok hF hl hs hrun with ⟨l', next, st₂, K, hl', hfilled, hopened⟩
  have hsound := hopened.sound
  have hplaced' := hplaced.below hF hl hle hdvd hcross hlt
  have hclear' := hclear.below hopened hle hwin
  rw [← hl'] at hsound hplaced' hclear'
  rcases hfill l' next st₂ K hl' hsound hplaced' hclear' hfilled with ⟨hkeeps, hmaps⟩
  rw [hl'] at hkeeps hmaps
  have hdesc := hopened.descends hs hkeeps
  exact ⟨hdesc.keeps, hmaps.below hF hl hopened hdesc hwin hblock⟩

/-- Two parts of a range, one mapped after the other. -/
theorem Maps.of_rest {h : Nat} (hwin : virt % cover M h + size ≤ cover M h) (hle : n ≤ size) (hmaps : Maps M st st₁ h t virt base n)
    (hdone : n = size → st' = st₁) (hrest : n < size → Maps M st₁ st' h t (virt + n) (base + n) (size - n)) :
    Maps M st st' h t virt base size := by
  rcases Nat.lt_or_eq_of_le hle with hn | rfl
  · have hsum : n + (size - n) = size := by omega
    rw [← hsum] at hwin ⊢
    exact hmaps.trans (hrest hn) hwin (by omega)
  · rw [hdone rfl]
    exact hmaps

/-- If the loop returns from behind the remainder of a range that has room for an entry, then the remainder has
aligned the address. -/
theorem compactLoop_aligned (hF : Lawful F M limit height) (hT : Tests A F align) (heq : align l = height l)
    (hfits : Fits A virt base size) (hge : span (height l) ≤ size)
    (hrun : compactLoop F P A device fuel l t (virt + size % span (height l)) (base + size % span (height l))
      (size - size % span (height l)) st = .ok st') : span (height l) ∣ virt + size % span (height l) := by
  by_contra hnot
  have hdm := Nat.div_add_mod size (span (height l))
  have hmul : size - size % span (height l) = span (height l) * (size / span (height l)) := by omega
  have hpos := Nat.le_mul_of_pos_right (span (height l)) (Nat.div_pos hge (span_pos _))
  refine compactLoop_stuck hF hT heq (hfits.drop (Nat.mod_le _ _)) hnot ?_ ?_ hrun
  · rw [hmul]
    exact Nat.dvd_mul_right _ _
  · rw [hmul]
    exact (span_le_span (Nat.zero_le (height l))).trans hpos

/-- A range is mapped whenever the loop returns, if it crosses no multiple of a span that is larger than
the range. -/
theorem compactLoop_maps {top : Nat} (hF : Lawful F M limit height) (hT : Tests A F align)
    (halign : ∀ l, height l ≤ top → height l = 0 ∨ align l = height l) (htop : height l ≤ top)
    (hs : Sound M limit st (height l) t S) (hfits : Fits A virt base size)
    (hplaced : Placed M limit top (height l) virt base size)
    (hclear : Clear M st (height l) t virt size)
    (hrun : compactLoop F P A device fuel l t virt base size st = .ok st') :
    Maps M st st' (height l) t virt base size := by
  induction fuel generalizing l t virt base size st st' S with
  | zero => cases hrun
  | succ fuel ih =>
      have hpage := pageSize_pos
      by_cases hlt : size < pageSize
      · rw [compactLoop_of_lt hlt] at hrun
        obtain rfl := Except.ok.inj hrun
        obtain rfl := Nat.eq_zero_of_dvd_of_lt hplaced.size_dvd hlt
        exact Maps.empty
      · rcases compactLoop_eq_ok hF hT (by omega) hfits hrun with ⟨n, d, st₁, hround, hdone, hrest⟩
        -- The first part of the range is mapped by a table below.
        have hbelow : ∀ m, 0 < m → m ≤ size → pageSize ∣ m → m < span (height l) →
            (∀ j ≤ height l, m < span j → virt % span j + m ≤ span j) →
            allocTableAndFill F (checkAligned A (compactLoop F P A device fuel)) l
              (st.mem t (F.getDescriptorIndex virt l)) virt base m st = .ok (d, st₁) →
            Keeps M st (st₁.set t (M.index (height l) virt) d) (height l) t S ∧
              Maps M st (st₁.set t (M.index (height l) virt) d) (height l) t virt base m := by
          intro m hm hle hdvd hmlt hcross halloc
          cases hh : height l with
          | zero => exact absurd halloc (allocTableAndFill_zero hF hh)
          | succ h =>
              rw [hF.index] at halloc
              rw [hh] at hs halloc hplaced hclear hcross hmlt
              refine allocTableAndFill_maps hF hh hs hplaced hclear hm hle hdvd hmlt hcross ?_ halloc
              intro l' next st₂ K hl' hsound hplaced' hclear' hfill
              have hrun' := checkAligned_eq_ok hfill
              exact ⟨compactLoop_keeps hF hT hsound (hfits.take hle) hrun',
                ih (by omega) hsound (hfits.take hle) hplaced' hclear' hrun'⟩
        -- What is left starts on a multiple of the span.
        have hfinish : pageSize ∣ n → (n < size → span (height l) ∣ virt + n) → n ≤ size →
            Keeps M st (st₁.set t (M.index (height l) virt) d) (height l) t S →
            Maps M st (st₁.set t (M.index (height l) virt) d) (height l) t virt base n →
            Maps M st st' (height l) t virt base size := by
          intro hdvd hnext hle hkeeps hmaps
          have hsum : n + (size - n) = size := by omega
          refine hmaps.of_rest hplaced.window hle hdone fun hn => ?_
          have hclear' : Clear M _ (height l) t (virt + n) (size - n) :=
            Clear.rest (by rw [hsum]; exact hclear) hmaps (by rw [hsum]; exact hplaced.window)
          exact ih htop (hs.keeps hkeeps) (hfits.drop hle) (hplaced.drop hn hdvd (hnext hn)) hclear' (hrest hn)
        cases hround with
        | block _ hdvd hle hd =>
            have hvirt : span (height l) ∣ virt := by
              rcases halign l htop with hzero | heq
              · rw [hzero]
                exact hplaced.virt_dvd
              · rw [← heq]
                exact hdvd
            have hdec : M.decode (height l) d = .block base :=
              hF.block l base device d hd (dvd_of_mod_eq htop hplaced.mod hvirt)
                ((Nat.add_le_add_left hle base).trans hplaced.le_limit)
            exact hfinish (pageSize_dvd_span _) (fun _ => dvd_add hvirt dvd_rfl) hle
              (Keeps.block hs (hF.block_ne l base device d hd)) (Maps.block hF hs hvirt hdec)
        | tail _ _ hdvd hlt' halloc =>
            rcases hbelow size (by omega) le_rfl hplaced.size_dvd hlt' hplaced.cross halloc with ⟨hkeeps, hmaps⟩
            exact hfinish hplaced.size_dvd (fun h => absurd h (lt_irrefl _)) le_rfl hkeeps hmaps
        | head _ _ hdvd halloc =>
            rcases Nat.lt_or_ge size (span (height l)) with hlt' | hge
            · rw [Nat.mod_eq_of_lt hlt'] at halloc hfinish
              rcases hbelow size (by omega) le_rfl hplaced.size_dvd hlt' hplaced.cross halloc
                with ⟨hkeeps, hmaps⟩
              exact hfinish hplaced.size_dvd (fun h => absurd h (lt_irrefl _)) le_rfl hkeeps hmaps
            · have hmlt : size % span (height l) < span (height l) := Nat.mod_lt _ (span_pos _)
              have heq : align l = height l :=
                (halign l htop).resolve_left fun h => allocTableAndFill_zero hF h halloc
              -- The loop returns, so the remainder has aligned the address.
              have hnext := compactLoop_aligned hF hT heq hfits hge (hrest (by omega))
              have hpos : 0 < size % span (height l) := by
                refine Nat.pos_of_ne_zero fun hzero => hdvd ?_
                rw [hzero, Nat.add_zero] at hnext
                rwa [heq]
              have hpagen : pageSize ∣ size % span (height l) :=
                (Nat.dvd_mod_iff (pageSize_dvd_span _)).2 hplaced.size_dvd
              rcases hbelow _ hpos (Nat.mod_le _ _) hpagen hmlt
                (fun j hj hj' => mod_add_le_of_dvd ((span_dvd_span hj).trans hnext) hj') halloc
                with ⟨hkeeps, hmaps⟩
              exact hfinish hpagen (fun _ => hnext) (Nat.mod_le _ _) hkeeps hmaps

/-! ## Runs that return -/

theorem checkAligned_of_lt (hv : virt < A.wordLimit) (hb : base < A.wordLimit) (hvirt : pageSize ∣ virt)
    (hbase : pageSize ∣ base) : checkAligned A fill l t virt base size st = fill l t virt base size st := by
  have hle : 12 ≤ A.wordBits := by
    cases A <;> decide
  have hv : isAligned A virt pageSize = true := (isAligned_iff (k := 12) hv hle).2 hvirt
  have hb : isAligned A base pageSize = true := (isAligned_iff (k := 12) hb hle).2 hbase
  rw [checkAligned, require_pos hb, require_pos hv]
  rfl

theorem checkAligned_of_dvd (hfits : Fits A virt base size) (hsize : pageSize ≤ size)
    (hvirt : pageSize ∣ virt) (hbase : pageSize ∣ base) :
    checkAligned A fill l t virt base size st = fill l t virt base size st := by
  have hpos := pageSize_pos
  have hb := hfits.base
  exact checkAligned_of_lt (hfits.virt_lt hsize) (by omega) hvirt hbase

/-- The additions of a round return: they wrap, or stay within the address space. -/
def Adds (P : Profile) (A : Arch) (virt base size : Nat) : Prop :=
  P = .release ∨ virt + size < A.wordLimit ∧ base + size < A.wordLimit

theorem Adds.take (h : Adds P A virt base size) (hn : n ≤ size) : Adds P A virt base n := by
  rcases h with h | ⟨hv, hb⟩
  · exact Or.inl h
  · exact Or.inr ⟨by omega, by omega⟩

theorem Adds.drop (h : Adds P A virt base size) (hn : n ≤ size) :
    Adds P A (virt + n) (base + n) (size - n) := by
  rcases h with h | ⟨hv, hb⟩
  · exact Or.inl h
  · exact Or.inr ⟨by omega, by omega⟩

theorem Adds.returns (h : Adds P A virt base size) :
    (∃ v, addWord P A virt size = .ok v) ∧ ∃ b, addWord P A base size = .ok b := by
  rcases h with rfl | ⟨hv, hb⟩
  · exact ⟨⟨_, rfl⟩, _, rfl⟩
  · exact ⟨⟨_, addWord_of_lt hv⟩, _, addWord_of_lt hb⟩

/-- The loop returns if a round does, and the loop does on what is left. -/
theorem compactLoop_of_round {Q : TableState D → Prop} (hF : Lawful F M limit height)
    (hT : Tests A F align) (hsize : pageSize ≤ size) (hfits : Fits A virt base size)
    (hadds : Adds P A virt base size) (hfuel : 0 < fuel)
    (hround : Round F device height align (checkAligned A (compactLoop F P A device fuel)) l t virt base
      size st n d st₁)
    (hdone : n = size → Q (st₁.set t (M.index (height l) virt) d))
    (hrest : n < size → ∃ st', compactLoop F P A device fuel l t (virt + n) (base + n) (size - n)
      (st₁.set t (M.index (height l) virt) d) = .ok st' ∧ Q st') :
    ∃ st', compactLoop F P A device (fuel + 1) l t virt base size st = .ok st' ∧ Q st' := by
  have hpage := pageSize_pos
  have hle := hround.le
  have hv := hfits.virt
  have hb := hfits.base
  rcases (hadds.take hle).returns with ⟨⟨v, hv'⟩, b, hb'⟩
  rw [compactLoop, if_neg (by omega), compactRound_of_round hF hT (hfits.virt_lt hsize) hround]
  simp only [run_ok_bind, hv', hb', subWord_of_le hle hfits.size, hF.index]
  -- The sums may wrap in the last round only, and the loop does not use them after it.
  rcases Nat.lt_or_eq_of_le hle with hlt | rfl
  · rw [addWord_of_lt (by omega)] at hv' hb'
    obtain rfl := Except.ok.inj hv'
    obtain rfl := Except.ok.inj hb'
    exact hrest hlt
  · refine ⟨_, ?_, hdone rfl⟩
    rw [Nat.sub_self]
    cases fuel with
    | zero => omega
    | succ fuel => exact compactLoop_of_lt hpage

theorem adds_of_addWord {v b : Nat} (hv : addWord P A virt n = .ok v) (hb : addWord P A base n = .ok b) :
    Adds P A virt base n := by
  cases P with
  | dev => exact Or.inr ⟨(checkedAdd_eq_ok.1 hv).1, (checkedAdd_eq_ok.1 hb).1⟩
  | release => exact Or.inl rfl

/-- The loop also adds the size of the last round, so it can return only if all additions do. -/
theorem compactLoop_adds (hF : Lawful F M limit height) (hT : Tests A F align) (hfits : Fits A virt base size)
    (hsize : pageSize ∣ size) (hpos : 0 < size)
    (hrun : compactLoop F P A device fuel l t virt base size st = .ok st') : Adds P A virt base size := by
  induction fuel generalizing virt base size st with
  | zero => cases hrun
  | succ fuel ih =>
      have hpage : pageSize ≤ size := Nat.le_of_dvd hpos hsize
      rcases compactLoop_eq_ok hF hT hpage hfits hrun with ⟨n, d, st₁, hround, -, hrest⟩
      have hdvd := hround.dvd hsize
      rcases Nat.lt_or_eq_of_le hround.le with hlt | rfl
      · rcases ih (hfits.drop hlt.le) (Nat.dvd_sub hsize hdvd) (by omega) (hrest hlt) with h | ⟨hv, hb⟩
        · exact Or.inl h
        · exact Or.inr ⟨by omega, by omega⟩
      · rw [compactLoop, if_neg (by omega), compactRound_of_round hF hT (hfits.virt_lt hpage) hround,
          run_ok_bind] at hrun
        rcases run_bind_eq_ok.1 hrun with ⟨v, hv, hrun⟩
        rcases run_bind_eq_ok.1 hrun with ⟨b, hb, -⟩
        exact adds_of_addWord hv hb

theorem div_add_div_sub (hdvd : pageSize ∣ n) (hle : n ≤ size) :
    n / pageSize + (size - n) / pageSize = size / pageSize := by
  rcases hdvd with ⟨k, rfl⟩
  have hk : k ≤ size / pageSize := (Nat.le_div_iff_mul_le pageSize_pos).2 (by rw [Nat.mul_comm]; exact hle)
  rw [Nat.mul_div_cancel_left k pageSize_pos, Nat.sub_mul_div, Nat.add_sub_cancel' hk]

/-- The pages that the loop may need. -/
def HasPages (st : TableState D) (n : Nat) : Prop :=
  ∀ m < n, ∃ x, st.supply (st.used + m) = some x

theorem HasPages.of_le {k : Nat} (h : HasPages st n) (hsupply : st₁.supply = st.supply)
    (hused : st.used ≤ st₁.used) (hk : st₁.used + k ≤ st.used + n) : HasPages st₁ k := by
  intro m hm
  rcases h (st₁.used + m - st.used) (by omega) with ⟨x, hx⟩
  have hidx : st.used + (st₁.used + m - st.used) = st₁.used + m := by omega
  rw [hidx] at hx
  exact ⟨x, by rw [hsupply]; exact hx⟩

theorem emptyState_hasPages (zero : D) (n : Nat) : HasPages (emptyState zero n) n := by
  intro m hm
  refine ⟨pageSize * (0 + m + 1), if_pos ?_⟩
  show 0 + m < n
  omega

/-- The remainder by a span is the whole range, or what it takes to align the address. -/
theorem mod_span_aligns {h : Nat} (hpos : 0 < size) (hdvd : ¬ span h ∣ virt)
    (hret : ∀ j ≤ h, span j ≤ size → span j ∣ virt ∨ span j ∣ virt + size) :
    0 < size % span h ∧ (size % span h < size → span h ∣ virt + size % span h) ∧
      ∀ j < h, span j ≤ size % span h → span j ∣ virt ∨ span j ∣ virt + size % span h := by
  rcases Nat.lt_or_ge size (span h) with hsmall | hbig
  · rw [Nat.mod_eq_of_lt hsmall]
    exact ⟨hpos, fun hlt => absurd hlt (lt_irrefl _), fun j hj => hret j hj.le⟩
  · have hend := (hret _ le_rfl hbig).resolve_left hdvd
    have hnext : span h ∣ virt + size % span h := by
      rw [← Nat.div_add_mod size (span h), ← Nat.add_assoc, Nat.add_right_comm] at hend
      exact (Nat.dvd_add_left (Nat.dvd_mul_right _ _)).1 hend
    refine ⟨Nat.pos_of_ne_zero fun hz => hdvd ?_, fun _ => hnext, fun j hj _ => Or.inr ?_⟩
    · rwa [hz, Nat.add_zero] at hnext
    · exact (span_dvd_span hj.le).trans hnext

/-- The pages that a table takes: one for itself, and at most one for each page of its part of the range and each
level below it. -/
theorem allocTableAndFill_within {h m k : Nat} (hF : Lawful F M limit height) (hl : height l = h + 1)
    (hs : Sound M limit st (h + 1) t S) (hm : pageSize ≤ m) (hk : m / pageSize ≤ k) (hpages : HasPages st ((h + 1) * k))
    (hfill : ∀ l' next st₂ K, height l' = h → Sound M limit st₂ (height l') next K →
      HasPages st₂ (height l' * (m / pageSize)) →
        ∃ st₃, fill l' next virt base m st₂ = .ok st₃ ∧ st₃.used ≤ st₂.used + height l' * (m / pageSize)) :
    ∃ d st₁, allocTableAndFill F fill l (st.mem t (M.index (h + 1) virt)) virt base m st = .ok (d, st₁) ∧
      st₁.used ≤ st.used + (h + 1) * (m / pageSize) := by
  have hcount : 1 ≤ m / pageSize := (Nat.one_le_div_iff pageSize_pos).2 hm
  have hmul := Nat.mul_le_mul_left (h + 1) hk
  have hsum : (h + 1) * (m / pageSize) = h * (m / pageSize) + m / pageSize := Nat.succ_mul _ _
  rcases hpages 0 (by omega) with ⟨x, hx⟩
  refine allocTableAndFill_returns hF hl hs ⟨x, hx⟩ ?_
  intro l' next st₂ K hl' hsound hsupply hused hused'
  rw [← hl'] at hsound
  have hpages' : HasPages st₂ (height l' * (m / pageSize)) := hpages.of_le hsupply hused (by rw [hl']; omega)
  rcases hfill l' next st₂ K hl' hsound hpages' with ⟨st₃, hst₃, hused₃⟩
  rw [hl'] at hused₃
  exact ⟨st₃, hst₃, by omega⟩

/-- The loop takes the pages of its first round and those of what is left. -/
theorem compactLoop_within (hF : Lawful F M limit height) (hT : Tests A F align)
    (hs : Sound M limit st (height l) t S) (hsize : pageSize ≤ size) (hfits : Fits A virt base size)
    (hadds : Adds P A virt base size) (hfuel : 0 < fuel) (hdvd : pageSize ∣ n)
    (hround : Round F device height align (checkAligned A (compactLoop F P A device fuel)) l t virt base size st n d st₁)
    (hpages : HasPages st (height l * (size / pageSize))) (hused : st₁.used ≤ st.used + height l * (n / pageSize))
    (hrest : n < size → HasPages (st₁.set t (M.index (height l) virt) d) (height l * ((size - n) / pageSize)) →
      ∃ st', compactLoop F P A device fuel l t (virt + n) (base + n) (size - n)
        (st₁.set t (M.index (height l) virt) d) = .ok st' ∧
          st'.used ≤ st₁.used + height l * ((size - n) / pageSize)) :
    ∃ st', compactLoop F P A device (fuel + 1) l t virt base size st = .ok st' ∧
      st'.used ≤ st.used + height l * (size / pageSize) := by
  have hkeeps := hround.keeps hF hs (compactFill_keeps hF hT hfits P device fuel)
  have hset : (st₁.set t (M.index (height l) virt) d).used = st₁.used := rfl
  refine compactLoop_of_round hF hT hsize hfits hadds hfuel hround ?_ ?_
  · rintro rfl
    exact hused
  · intro hlt
    have hsum : n / pageSize + (size - n) / pageSize = size / pageSize := div_add_div_sub hdvd hround.le
    have hmul : height l * (n / pageSize) + height l * ((size - n) / pageSize) = height l * (size / pageSize) := by
      rw [← Nat.mul_add, hsum]
    rcases hrest hlt (hpages.of_le hkeeps.supply hkeeps.used (by rw [hset]; omega)) with ⟨st', hst', hused'⟩
    exact ⟨st', hst', by omega⟩

/-- The loop returns if, for each span the range has room for, the range starts or ends on a multiple of
the span.  It needs a page for each page of the range and each level at most. -/
theorem compactLoop_returns (hF : Lawful F M limit height) (hT : Tests A F align)
    (halign : ∀ l, align l = height l) (hs : Sound M limit st (height l) t S)
    (hfits : Fits A virt base size) (hadds : Adds P A virt base size) (hvirt : pageSize ∣ virt)
    (hbase : pageSize ∣ base) (hsize : pageSize ∣ size)
    (hmake : ∀ l p, span (height l) ≤ size → ∃ d, F.makeDescriptor l p device = some d)
    (hret : ∀ j ≤ height l, span j ≤ size → span j ∣ virt ∨ span j ∣ virt + size)
    (hpages : HasPages st (height l * (size / pageSize))) (hfuel : size / pageSize + height l < fuel) :
    ∃ st', compactLoop F P A device fuel l t virt base size st = .ok st' ∧
      st'.used ≤ st.used + height l * (size / pageSize) := by
  induction fuel generalizing l t virt base size st S with
  | zero => exact absurd hfuel (Nat.not_lt_zero _)
  | succ fuel ih =>
      have hpage := pageSize_pos
      by_cases hlt : size < pageSize
      · exact ⟨st, compactLoop_of_lt hlt, Nat.le_add_right _ _⟩
      · have hcount : 1 ≤ size / pageSize := (Nat.one_le_div_iff hpage).2 (by omega)
        -- The table below returns.
        have hbelow : ∀ m, 0 < m → m ≤ size → pageSize ∣ m → (height l = 0 → False) →
            (∀ j < height l, span j ≤ m → span j ∣ virt ∨ span j ∣ virt + m) →
            ∃ d st₁, allocTableAndFill F (checkAligned A (compactLoop F P A device fuel)) l
                (st.mem t (F.getDescriptorIndex virt l)) virt base m st = .ok (d, st₁) ∧
              st₁.used ≤ st.used + height l * (m / pageSize) := by
          intro m hm hle hdvd hzero hretm
          have hmpage : pageSize ≤ m := Nat.le_of_dvd hm hdvd
          have hmle : m / pageSize ≤ size / pageSize := Nat.div_le_div_right hle
          cases hh : height l with
          | zero => exact absurd hh hzero
          | succ h =>
              rw [hF.index]
              rw [hh] at hs hpages hretm hfuel
              rw [hh]
              refine allocTableAndFill_within hF hh hs hmpage hmle hpages ?_
              intro l' next st₂ K hl' hsound hpages'
              rw [checkAligned_of_dvd (hfits.take hle) hmpage hvirt hbase]
              exact ih hsound (hfits.take hle) (hadds.take hle) hvirt hbase hdvd
                (fun l p hp => hmake l p (hp.trans hle)) (fun j hj => hretm j (by omega)) hpages' (by omega)
        -- And so does the loop on what is left.
        have hfinish : ∀ n d st₁, 0 < n → pageSize ∣ n → (n < size → span (height l) ∣ virt + n) →
            Round F device height align (checkAligned A (compactLoop F P A device fuel)) l t virt base size
              st n d st₁ → st₁.used ≤ st.used + height l * (n / pageSize) →
            ∃ st', compactLoop F P A device (fuel + 1) l t virt base size st = .ok st' ∧
              st'.used ≤ st.used + height l * (size / pageSize) := by
          intro n d st₁ hn hdvd hnext hround hused
          have hncount : 1 ≤ n / pageSize := (Nat.one_le_div_iff hpage).2 (Nat.le_of_dvd hn hdvd)
          have hle := hround.le
          have hsum : n / pageSize + (size - n) / pageSize = size / pageSize := div_add_div_sub hdvd hle
          have hkeeps := hround.keeps hF hs (compactFill_keeps hF hT hfits P device fuel)
          refine compactLoop_within hF hT hs (by omega) hfits hadds (by omega) hdvd hround hpages hused ?_
          intro hlt' hpages'
          exact ih (hs.keeps hkeeps) (hfits.drop hle) (hadds.drop hle) (dvd_add hvirt hdvd) (dvd_add hbase hdvd)
            (Nat.dvd_sub hsize hdvd) (fun l p hp => hmake l p (hp.trans (Nat.sub_le _ _)))
            (fun j hj _ => Or.inl ((span_dvd_span hj).trans (hnext hlt'))) hpages' (by omega)
        have hspan0 : height l = 0 → span (height l) ∣ virt := by
          intro hzero
          rw [hzero]
          exact hvirt
        by_cases hdvd : span (height l) ∣ virt
        · have hdvd' : span (align l) ∣ virt := by
            rw [halign]
            exact hdvd
          rcases Nat.lt_or_ge size (span (height l)) with hsmall | hbig
          · have hzero : height l = 0 → False := by
              intro hzero
              rw [hzero] at hsmall
              exact hlt hsmall
            rcases hbelow size (by omega) le_rfl hsize hzero (fun j hj => hret j (by omega))
              with ⟨d, st₁, halloc, hused⟩
            exact hfinish size d st₁ (by omega) hsize (fun h => absurd h (lt_irrefl _))
              (.tail d st₁ hdvd' hsmall halloc) hused
          · rcases hmake l base hbig with ⟨d, hd⟩
            exact hfinish _ d st (span_pos _) (pageSize_dvd_span _) (fun _ => dvd_add hdvd dvd_rfl)
              (.block d hdvd' hbig hd) (Nat.le_add_right _ _)
        · have hdvd' : ¬ span (align l) ∣ virt := by
            rw [halign]
            exact hdvd
          have hpagen : pageSize ∣ size % span (height l) :=
            (Nat.dvd_mod_iff (pageSize_dvd_span _)).2 hsize
          have hzero : height l = 0 → False := fun hzero => hdvd (hspan0 hzero)
          have hhead := mod_span_aligns (by omega) hdvd hret
          rcases hbelow _ hhead.1 (Nat.mod_le _ _) hpagen hzero hhead.2.2 with ⟨d, st₁, halloc, hused⟩
          exact hfinish _ d st₁ hhead.1 hpagen hhead.2.1 (.head d st₁ hdvd' halloc) hused

end Paging
end Propeller
