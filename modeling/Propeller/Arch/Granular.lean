import Propeller.Arch.Compact

/-!
# Arch.Granular — what the granular loop does

The loop passes the whole rest of the range to the table below each entry.  A table below that is passed
more than it covers wraps around and overwrites its first entries; one that is passed a range which it
covers in part only wraps around as well.  So the loop is right exactly for ranges within one last table.

* `granularLoop_keeps` — every run that returns leaves a tree of tables;
* `granularLoop_maps` / `granularLoop_returns` — a range within one last table is mapped;
* `granularLoop_outside` — a range that is no longer than what a last table covers is written to one;
* `granularLoop_first` — of a longer range, the first page is overwritten.
-/

namespace Propeller
namespace Paging

variable {L D : Type} {F : Format L D} {P : Profile} {A : Arch} {device : Bool} {M : Mmu D} {limit : Nat}
  {height : L → Nat} {st st' st₁ : TableState D} {l : L} {t virt base size n fuel : Nat}
  {S : Set Nat} {d : D} {fill : Fill L D}

/-! ## Rounds -/

/-- What a round of the granular loop does: a page in a last table, or a fill of the table below. -/
inductive GranularRound (F : Format L D) (device : Bool) (height : L → Nat) (fill : Fill L D) (l : L)
    (t virt base size : Nat) (st : TableState D) : D → TableState D → Prop
  | page (d : D) : height l = 0 → F.makeDescriptor l base device = some d →
      GranularRound F device height fill l t virt base size st d st
  | below (d : D) (st₁ : TableState D) : height l ≠ 0 →
      allocTableAndFill F fill l (st.mem t (F.getDescriptorIndex virt l)) virt base size st = .ok (d, st₁) →
      GranularRound F device height fill l t virt base size st d st₁

theorem granularRound_iff (hF : Lawful F M limit height) :
    granularRound F device fill l t virt base size st = .ok (d, st₁) ↔
      GranularRound F device height fill l t virt base size st d st₁ := by
  by_cases hlast : F.isLastLevel l = true
  · have hh := (hF.last l).1 hlast
    rw [granularRound, if_pos hlast]
    constructor
    · intro hrun
      rcases run_bind_eq_ok.1 hrun with ⟨d', hd', hrun⟩
      obtain ⟨rfl, rfl⟩ := Prod.mk.inj (Except.ok.inj hrun)
      exact .page _ hh (unwrap_eq_ok.1 hd')
    · intro hround
      cases hround with
      | page _ hd =>
          rw [hd]
          rfl
      | below _ hne _ => exact absurd hh hne
  · have hh : height l ≠ 0 := fun h => hlast ((hF.last l).2 h)
    rw [granularRound, if_neg hlast]
    constructor
    · intro hrun
      exact .below _ _ hh hrun
    · intro hround
      cases hround with
      | page hzero _ => exact absurd hzero hh
      | below _ _ halloc => exact halloc

/-- One round of the loop, and what is left to do. -/
theorem granularLoop_eq_ok (hF : Lawful F M limit height) (hfits : Fits A virt base size)
    (hrun : granularLoop F P A device (fuel + 1) l t virt base size st = .ok st') :
    ∃ d st₁, GranularRound F device height (checkAligned A (granularLoop F P A device fuel)) l t virt base
        size st d st₁ ∧
      (size ≤ span (height l) → st' = st₁.set t (M.index (height l) virt) d) ∧
      (span (height l) < size → granularLoop F P A device fuel l t (virt + span (height l))
        (base + span (height l)) (size - span (height l)) (st₁.set t (M.index (height l) virt) d) =
          .ok st') := by
  rw [granularLoop] at hrun
  simp only [hF.entrySize, hF.index] at hrun
  rcases run_bind_eq_ok.1 hrun with ⟨⟨d, st₁⟩, hround, hrun⟩
  refine ⟨d, st₁, (granularRound_iff hF).1 hround, ?_, ?_⟩
  · intro hle
    rw [if_pos hle] at hrun
    exact (Except.ok.inj hrun).symm
  · intro hlt
    have hv := hfits.virt
    have hb := hfits.base
    rw [if_neg (by omega), addWord_of_lt (by omega), addWord_of_lt (by omega),
      subWord_of_le hlt.le hfits.size] at hrun
    exact hrun

theorem granularLoop_of_round (hF : Lawful F M limit height) (hfits : Fits A virt base size)
    (hround : GranularRound F device height (checkAligned A (granularLoop F P A device fuel)) l t virt base
      size st d st₁) :
    granularLoop F P A device (fuel + 1) l t virt base size st =
      if size ≤ span (height l) then .ok (st₁.set t (M.index (height l) virt) d)
      else granularLoop F P A device fuel l t (virt + span (height l)) (base + span (height l))
        (size - span (height l)) (st₁.set t (M.index (height l) virt) d) := by
  rw [granularLoop]
  simp only [hF.entrySize, hF.index, (granularRound_iff hF).2 hround, run_ok_bind]
  split
  · rfl
  · rename_i hlt
    have hv := hfits.virt
    have hb := hfits.base
    rw [addWord_of_lt (by omega), addWord_of_lt (by omega), subWord_of_le (by omega) hfits.size]
    rfl

/-! ## Every run that returns leaves a tree of tables -/

theorem GranularRound.keeps (hF : Lawful F M limit height) (hs : Sound M limit st (height l) t S)
    (hfill : ∀ l' next st₁ st₂ K, Sound M limit st₁ (height l') next K →
      fill l' next virt base size st₁ = .ok st₂ → Keeps M st₁ st₂ (height l') next K)
    (hround : GranularRound F device height fill l t virt base size st d st₁) :
    Keeps M st (st₁.set t (M.index (height l) virt) d) (height l) t S := by
  cases hround with
  | page _ hd => exact Keeps.block hs (hF.block_ne l base device d hd)
  | below _ _ halloc => exact allocTableAndFill_keeps hF hs hfill halloc

theorem granularLoop_keeps (hF : Lawful F M limit height) (hs : Sound M limit st (height l) t S)
    (hfits : Fits A virt base size)
    (hrun : granularLoop F P A device fuel l t virt base size st = .ok st') :
    Keeps M st st' (height l) t S := by
  induction fuel generalizing l t virt base size st st' S with
  | zero => cases hrun
  | succ fuel ih =>
      rcases granularLoop_eq_ok hF hfits hrun with ⟨d, st₁, hround, hdone, hrest⟩
      have hkeeps := hround.keeps hF hs fun l' next st₂ st₃ K hsound hfill =>
        ih hsound hfits (checkAligned_eq_ok hfill)
      rcases Nat.lt_or_ge (span (height l)) size with hlt | hge
      · exact hkeeps.trans (ih (hs.keeps hkeeps) (hfits.drop hlt.le) (hrest hlt))
      · rw [hdone hge]
        exact hkeeps

/-- The fills of the tables below keep the tables. -/
theorem granularFill_keeps (hF : Lawful F M limit height) (hfits : Fits A virt base size) (P : Profile)
    (device : Bool) (fuel : Nat) :
    ∀ l' next st₁ st₂ K, Sound M limit st₁ (height l') next K →
      checkAligned A (granularLoop F P A device fuel) l' next virt base size st₁ = .ok st₂ →
      Keeps M st₁ st₂ (height l') next K :=
  fun _ _ _ _ _ hsound hrun => granularLoop_keeps hF hsound hfits (checkAligned_eq_ok hrun)

/-- A run leaves alone what does not take an entry of the range. -/
theorem granularLoop_other {v : Nat} (hF : Lawful F M limit height)
    (hs : Sound M limit st (height l) t S) (hfits : Fits A virt base size) (hpos : 0 < size)
    (hne : ∀ w, virt ≤ w → w < virt + size → M.index (height l) v ≠ M.index (height l) w)
    (hrun : granularLoop F P A device fuel l t virt base size st = .ok st') :
    M.leaf st'.mem (height l) t v = M.leaf st.mem (height l) t v := by
  induction fuel generalizing virt base size st st' S with
  | zero => cases hrun
  | succ fuel ih =>
      rcases granularLoop_eq_ok hF hfits hrun with ⟨d, st₁, hround, hdone, hrest⟩
      have hfill := granularFill_keeps hF hfits P device fuel
      have hfirst := hne virt le_rfl (by omega)
      have hstep : M.leaf (st₁.set t (M.index (height l) virt) d).mem (height l) t v =
          M.leaf st.mem (height l) t v := by
        cases hround with
        | page _ _ => exact Mmu.leaf_set_of_ne hs.separate hfirst
        | below _ _ halloc => exact allocTableAndFill_other hF hs hfill hfirst halloc
      rcases Nat.lt_or_ge (span (height l)) size with hlt | hge
      · rw [← hstep]
        exact ih (hs.keeps (hround.keeps hF hs hfill)) (hfits.drop hlt.le) (by omega)
          (fun w hlo hhi => hne w (by omega) (by omega)) (hrest hlt)
      · rw [hdone hge]
        exact hstep

/-! ## Ranges within one last table -/

/-- A fill of the table below is a part of the table above. -/
theorem GranularRound.opened {h : Nat} (hF : Lawful F M limit height) (hh : height l = h + 1)
    (hs : Sound M limit st (h + 1) t S)
    (hround : GranularRound F device height fill l t virt base size st d st₁) :
    ∃ l' next st₂ K, height l' = h ∧ fill l' next virt base size st₂ = .ok st₁ ∧
      Opened M limit st st₂ h t (M.index (h + 1) virt) next d S K := by
  cases hround with
  | page hzero _ => omega
  | below _ _ halloc =>
      rw [hF.index, hh] at halloc
      exact allocTableAndFill_eq_ok hF hh hs halloc

theorem granularLoop_maps (hF : Lawful F M limit height) (hs : Sound M limit st (height l) t S)
    (hfits : Fits A virt base size) (hlimit : base + size ≤ limit) (hvirt : pageSize ∣ virt)
    (hbase : pageSize ∣ base) (hsize : pageSize ∣ size) (hpos : 0 < size)
    (hwin : virt % span 1 + size ≤ span 1) (hlast : height l = 0 → cover M 0 = span 1)
    (hclear : Clear M st (height l) t virt size)
    (hrun : granularLoop F P A device fuel l t virt base size st = .ok st') :
    Maps M st st' (height l) t virt base size := by
  induction fuel generalizing l t virt base size st st' S with
  | zero => cases hrun
  | succ fuel ih =>
      rcases granularLoop_eq_ok hF hfits hrun with ⟨d, st₁, hround, hdone, hrest⟩
      -- At the last level the loop writes page by page; above it the range is in one entry, and one table is opened.
      cases hh : height l with
      | zero =>
          rw [hh] at hs hdone hrest hclear
          have hpage : pageSize ≤ size := Nat.le_of_dvd hpos hsize
          have hwin' : virt % cover M 0 + size ≤ cover M 0 := by
            rw [hlast hh]
            exact hwin
          cases hround with
          | below _ hne _ => exact absurd hh hne
          | page _ hd =>
              have hdec := hF.block l base device d hd (by rw [hh]; exact hbase)
                (by rw [hh]; exact (Nat.add_le_add_left hpage base).trans hlimit)
              have hne := hF.block_ne l base device d hd
              rw [hh] at hdec hne
              have hmaps := Maps.block hF hs hvirt hdec
              rcases Nat.lt_or_ge (span 0) size with hlt | hge
              · have hsum : span 0 + (size - span 0) = size := by omega
                have hkeeps := Keeps.block (i := M.index 0 virt) hs hne
                -- The rest of the range was clear before, and this page is no part of it.
                have hclear' : Clear M _ 0 t (virt + span 0) (size - span 0) :=
                  Clear.rest (by rw [hsum]; exact hclear) hmaps (by rw [hsum]; exact hwin')
                have hmaps' := ih (l := l) (by rw [hh]; exact hs.keeps hkeeps) (hfits.drop hlt.le) (by omega)
                  (dvd_add hvirt dvd_rfl) (dvd_add hbase dvd_rfl) (Nat.dvd_sub hsize dvd_rfl) (by omega)
                  (window_drop hwin hlt) hlast (by rw [hh]; exact hclear') (by rw [hh] at *; exact hrest hlt)
                rw [hh] at hmaps'
                rw [← hsum]
                exact hmaps.trans hmaps' (by rw [hsum]; exact hwin') (by omega)
              · have heq : size = span 0 := Nat.le_antisymm hge hpage
                rw [hdone hge, heq]
                exact hmaps
      | succ h =>
          rw [hh] at hs hdone hclear
          have hle : size ≤ span (h + 1) :=
            (Nat.le_trans (Nat.le_add_left _ _) hwin).trans (span_le_span (by omega))
          rw [hdone hle]
          have hwin' := window_mono (span_dvd_span (Nat.succ_le_succ (Nat.zero_le h))) (span_pos _) hwin
          rcases hround.opened hF hh hs with ⟨l', next, st₂, K, hl', hfill, hopened⟩
          have hrun' := checkAligned_eq_ok hfill
          have hsound := hopened.sound
          have hclear' := hclear.below hopened le_rfl hwin'
          rw [← hl'] at hsound hclear'
          have hkeeps := granularLoop_keeps hF hsound hfits hrun'
          have hmaps := ih hsound hfits hlimit hvirt hbase hsize hpos hwin
            (fun hzero => by rw [cover, hF.entries l 0 (by omega), span_succ]) hclear' hrun'
          rw [hl'] at hkeeps hmaps
          exact hmaps.below hF hh hopened (hopened.descends hs hkeeps) hwin'
            fun addr => (hclear.head hpos).not_block

theorem granularLoop_returns (hF : Lawful F M limit height) (hs : Sound M limit st (height l) t S)
    (hfits : Fits A virt base size) (hvirt : pageSize ∣ virt) (hbase : pageSize ∣ base)
    (hsize : pageSize ∣ size) (hpos : 0 < size) (hwin : size ≤ span 1) (hpages : HasPages st (height l))
    (hfuel : size / pageSize + height l < fuel) :
    ∃ st', granularLoop F P A device fuel l t virt base size st = .ok st' := by
  induction fuel generalizing l t virt base size st S with
  | zero => exact absurd hfuel (Nat.not_lt_zero _)
  | succ fuel ih =>
      have hpage : pageSize ≤ size := Nat.le_of_dvd hpos hsize
      cases hh : height l with
      | zero =>
          rcases hF.page l base device hh with ⟨d, hd⟩
          rw [granularLoop_of_round hF hfits (.page d hh hd), hh]
          split
          · exact ⟨_, rfl⟩
          · rename_i hgt
            have hlt : span 0 < size := Nat.lt_of_not_le hgt
            have hne := hF.block_ne l base device d hd
            have hsound := hs.keeps (Keeps.block (i := M.index (height l) virt) hs hne)
            -- The fuel pays for the pages that are left and the levels below, and a page has been written.
            have hsum : span 0 / pageSize + (size - span 0) / pageSize = size / pageSize :=
              div_add_div_sub dvd_rfl hlt.le
            have hone : span 0 / pageSize = 1 := Nat.div_self pageSize_pos
            rw [hh] at hsound
            exact ih (l := l) (by rw [hh]; exact hsound) (hfits.drop hlt.le)
              (dvd_add hvirt dvd_rfl) (dvd_add hbase dvd_rfl) (Nat.dvd_sub hsize dvd_rfl) (by omega)
              (by omega) (by rw [hh]; intro m hm; omega) (by omega)
      | succ h =>
          rw [hh] at hs hpages hfuel
          rcases hpages 0 (by omega) with ⟨x, hx⟩
          have hle : size ≤ span (h + 1) := hwin.trans (span_le_span (by omega))
          -- Opening the entry takes at most one page, and the levels below it have theirs.
          have hbelow : ∃ d st₂, allocTableAndFill F (checkAligned A (granularLoop F P A device fuel)) l
              (st.mem t (M.index (h + 1) virt)) virt base size st = .ok (d, st₂) ∧ True := by
            refine allocTableAndFill_returns hF hh hs ⟨x, hx⟩ ?_
            intro l' next st₁ K hl' hsound hsupply hused hused'
            rw [← hl'] at hsound
            rcases ih hsound hfits hvirt hbase hsize hpos hwin
              (hpages.of_le hsupply hused (by omega)) (by omega) with ⟨st₂, hst₂⟩
            exact ⟨st₂, (checkAligned_of_dvd hfits hpage hvirt hbase).trans hst₂, trivial⟩
          rcases hbelow with ⟨d, st₂, halloc, -⟩
          have hround : GranularRound F device height (checkAligned A (granularLoop F P A device fuel)) l t
              virt base size st d st₂ := by
            refine .below d st₂ (by omega) ?_
            rw [hF.index, hh]
            exact halloc
          rw [granularLoop_of_round hF hfits hround, hh, if_pos hle]
          exact ⟨_, rfl⟩

/-! ## Ranges across two last tables -/

/-- A range that is no longer than a span is written below the entry of its first address. -/
theorem granularLoop_outside {j v : Nat} (hF : Lawful F M limit height)
    (hs : Sound M limit st (height l) t S) (hfits : Fits A virt base size) (hj : j ≤ height l)
    (hj1 : 1 ≤ j) (hle : size ≤ span j) (hclear : ClearAt M st (height l) t virt)
    (hv : v / cover M (height l) = virt / cover M (height l)) (hne : v / span j ≠ virt / span j)
    (hrun : granularLoop F P A device fuel l t virt base size st = .ok st') :
    M.leaf st'.mem (height l) t v = M.leaf st.mem (height l) t v := by
  -- The range fits an entry down to height `j`, so each level is one round that opens one table.
  induction fuel generalizing l t st st' S with
  | zero => cases hrun
  | succ fuel ih =>
      rcases granularLoop_eq_ok hF hfits hrun with ⟨d, st₁, hround, hdone, -⟩
      rw [hdone (hle.trans (span_le_span hj))]
      obtain ⟨h, hh⟩ : ∃ h, height l = h + 1 := ⟨height l - 1, by omega⟩
      rw [hh] at hs hclear hv hj ⊢
      rcases hround.opened hF hh hs with ⟨l', next, st₂, K, hl', hfill, hopened⟩
      have hrun' := checkAligned_eq_ok hfill
      have hsound := hopened.sound
      rw [← hl'] at hsound
      have hkeeps := granularLoop_keeps hF hsound hfits hrun'
      rw [hl'] at hkeeps
      have hdesc := hopened.descends hs hkeeps
      refine hopened.leaf_outside hF hh hdesc hclear hj hv hne fun hjh hclear' hdiv => ?_
      rw [← hl'] at hdiv hclear' hjh
      have hleaf := ih hsound hjh hclear' hdiv hrun'
      rw [hl'] at hleaf
      exact hleaf

/-! ## Ranges that are longer than what a last table covers -/

/-- The page that the address is in is mapped to `base` and a distance, which is not zero if the whole range
is longer than what a last table covers and, in a last table, the loop has passed that. -/
def Tracked (M : Mmu D) (st : TableState D) (h t v base done total : Nat) : Prop :=
  ∃ y, M.leaf st.mem h t v = some (0, base + y) ∧ (span 1 < total → 0 < y ∨ h = 0 ∧ done ≤ span 1)

/-- A round in a last table. -/
theorem Tracked.page {v done total : Nat} (hs : Sound M limit st 0 t S) (hlast : M.entries 0 = 512)
    (hdone : span 0 ∣ done) (hdec : M.decode 0 d = .block (base + done))
    (htracked : done = 0 ∨ Tracked M st 0 t v base done total) :
    Tracked M (st.set t (M.index 0 (v + done)) d) 0 t v base (done + span 0) total := by
  by_cases hindex : M.index 0 v = M.index 0 (v + done)
  · refine ⟨done, Mmu.leaf_set_block hdec hindex, fun _ => ?_⟩
    rcases Nat.eq_zero_or_pos done with rfl | hpos
    · exact Or.inr ⟨rfl, by decide⟩
    · exact Or.inl hpos
  · have hne : done ≠ 0 := by
      rintro rfl
      exact hindex rfl
    rcases htracked.resolve_left hne with ⟨y, hy, hcond⟩
    refine ⟨y, (Mmu.leaf_set_of_ne hs.separate hindex).trans hy, fun hlong => ?_⟩
    rcases hcond hlong with hy0 | ⟨-, hle⟩
    · exact Or.inl hy0
    · -- The first page is written again only when a whole last table has been passed.
      have hspan : done ≠ span 1 := by
        rintro rfl
        refine hindex ?_
        rw [Mmu.index, Mmu.index, hlast, span_succ, Nat.add_mul_div_left _ _ (span_pos 0), Nat.add_mod_right]
      rcases hdone with ⟨k, hk⟩
      have h0 : span 0 = 4096 := rfl
      have h1 : span 1 = 2097152 := rfl
      rw [h0] at hk
      exact Or.inr ⟨rfl, by omega⟩

/-- A round in a table above, which fills the table below from its first page on. -/
theorem Tracked.below {h v y done total next : Nat} (hentries : ∀ j ≤ h, M.entries j = 512)
    (hdesc : Descends M st st₁ h t (M.index (h + 1) (v + done)) next d S) (hdone : span (h + 1) ∣ done)
    (htotal : done + size = total) (htracked : done = 0 ∨ Tracked M st (h + 1) t v base done total)
    (hy : M.leaf st₁.mem h next (v + done) = some (0, base + done + y)) (hcond : span 1 < size → 0 < y) :
    Tracked M (st₁.set t (M.index (h + 1) (v + done)) d) (h + 1) t v base (done + span (h + 1)) total := by
  by_cases hindex : M.index (h + 1) v = M.index (h + 1) (v + done)
  · have hleaf : M.leaf st₁.mem h next (v + done) = M.leaf st₁.mem h next v := by
      rcases hdone with ⟨k, rfl⟩
      rw [Nat.mul_comm]
      exact Mmu.leaf_add_mul_span hentries k
    refine ⟨done + y, ?_, fun hlong => Or.inl ?_⟩
    · rw [hdesc.inside v hindex, ← hleaf, hy, Nat.add_assoc]
    · rcases Nat.eq_zero_or_pos done with hzero | hpos
      · have := hcond (by omega)
        omega
      · omega
  · have hne : done ≠ 0 := by
      rintro rfl
      exact hindex rfl
    rcases htracked.resolve_left hne with ⟨y', hy', hcond'⟩
    refine ⟨y', (hdesc.outside v hindex).trans hy', fun hlong => Or.inl ?_⟩
    rcases hcond' hlong with hpos | ⟨hzero, -⟩
    · exact hpos
    · omega

theorem granularLoop_first {v done total : Nat} (hF : Lawful F M limit height)
    (hs : Sound M limit st (height l) t S) (hfits : Fits A (v + done) (base + done) size)
    (hlimit : base + done + size ≤ limit) (hbase : pageSize ∣ base) (hsize : pageSize ∣ size)
    (hpos : 0 < size) (hdone : span (height l) ∣ done) (htotal : done + size = total)
    (hlast : height l = 0 → M.entries 0 = 512)
    (htracked : done = 0 ∨ Tracked M st (height l) t v base done total)
    (hrun : granularLoop F P A device fuel l t (v + done) (base + done) size st = .ok st') :
    ∃ y, M.leaf st'.mem (height l) t v = some (0, base + y) ∧ (span 1 < total → 0 < y) := by
  induction fuel generalizing l t v base done size total st st' S with
  | zero => cases hrun
  | succ fuel ih =>
      rcases granularLoop_eq_ok hF hfits hrun with ⟨d, st₁, hround, hend, hrest⟩
      have hkeeps := hround.keeps hF hs (granularFill_keeps hF hfits P device fuel)
      have hpage : pageSize ≤ size := Nat.le_of_dvd hpos hsize
      -- After the round, the page is tracked with what has been done.
      have hstep : Tracked M (st₁.set t (M.index (height l) (v + done)) d) (height l) t v base
          (done + span (height l)) total := by
        cases hh : height l with
        | zero =>
            rw [hh] at hs hdone htracked
            cases hround with
            | below _ hne _ => exact absurd hh hne
            | page _ hd =>
                have hdec := hF.block l (base + done) device d hd
                  (by rw [hh]; exact dvd_add hbase hdone)
                  (by rw [hh]; exact (Nat.add_le_add_left hpage _).trans hlimit)
                rw [hh] at hdec
                exact Tracked.page hs (hlast hh) hdone hdec htracked
        | succ h =>
            rw [hh] at hs hdone htracked
            rcases hround.opened hF hh hs with ⟨l', next, st₂, K, hl', hfill, hopened⟩
            have hrun' := checkAligned_eq_ok hfill
            have hsound := hopened.sound
            rw [← hl'] at hsound
            have hkeeps' := granularLoop_keeps hF hsound hfits hrun'
            have hbase' : pageSize ∣ base + done :=
              dvd_add hbase ((pageSize_dvd_span (h + 1)).trans hdone)
            have hfits' : Fits A (v + done + 0) (base + done + 0) size := hfits
            have hrun'' : granularLoop F P A device fuel l' next (v + done + 0) (base + done + 0) size st₂ = .ok st₁ :=
              hrun'
            rcases ih hsound hfits' hlimit hbase' hsize hpos (Nat.dvd_zero _) (Nat.zero_add size)
              (fun _ => hF.entries l 0 (by omega)) (Or.inl rfl) hrun'' with ⟨y, hy, hcond⟩
            rw [hl'] at hkeeps' hy
            exact Tracked.below (fun j hj => hF.entries l j (by omega)) (hopened.descends hs hkeeps') hdone htotal
              htracked hy hcond
      rcases Nat.lt_or_ge (span (height l)) size with hlt | hge
      · have hsum : done + span (height l) + (size - span (height l)) = total := by omega
        have hfits' := hfits.drop hlt.le
        have hrun' := hrest hlt
        rw [Nat.add_assoc, Nat.add_assoc base] at hfits' hrun'
        exact ih (hs.keeps hkeeps) hfits' (by omega) hbase (Nat.dvd_sub hsize (pageSize_dvd_span _)) (by omega)
          (dvd_add hdone dvd_rfl) hsum hlast (Or.inr hstep) hrun'
      · rcases hstep with ⟨y, hy, hcond⟩
        rw [hend hge]
        refine ⟨y, hy, fun hlong => ?_⟩
        rcases hcond hlong with hy0 | ⟨hzero, hle⟩
        · exact hy0
        · rw [hzero] at hge hle
          omega

end Paging
end Propeller
