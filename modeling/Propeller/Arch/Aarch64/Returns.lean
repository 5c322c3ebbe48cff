import Propeller.Arch.Aarch64.Mm

/-!
# Arch.Aarch64.Returns — when the compact loop ends

What `fill_table_compact` does next depends on the alignment of the virtual address and on the size, not on what is
in the tables.  So it is decided for every state of the tables which calls return: the range starts or ends on a
multiple of the largest span that it has room for, at Level 1 it is shorter than an entry, and a build with
overflow checks can compute its end.  Other calls fill nothing in a round and start again, or ask for a block entry
at Level 1.
-/

namespace Propeller
namespace Aarch64

open Paging

variable {P : Profile} {device : Bool} {l : TableLevel} {t virt base size n fuel : Nat}
  {st st' st₁ : TableState Nat} {d : Nat} {fill : Fill TableLevel Nat}

/-- A page allocator that never fails: it always has a page of memory. -/
def Supplies (st : TableState Nat) : Prop :=
  ∀ n, ∃ x, st.supply n = some x ∧ pageSize ∣ x ∧ x < Arch.aarch64.wordLimit

/-- `fill_table_compact` returns: no loop runs forever, and nothing panics. -/
def Returns (P : Profile) (device : Bool) (l : TableLevel) (t virt base size : Nat) (st : TableState Nat) : Prop :=
  ∃ fuel st', fillTableCompact format P .aarch64 device fuel l t virt base size st = .ok st'

/-- The ranges that the loop can fill, for the table of a level. -/
structure Fillable (P : Profile) (l : TableLevel) (virt base size : Nat) : Prop where
  adds : Adds P .aarch64 virt base size
  level1 : l = .level1 → size < span 3
  ends : ∀ j ≤ l.height, span j ≤ size → span j ∣ virt ∨ span j ∣ virt + size

/-! ## Words -/

theorem span_dvd_wordLimit {j : Nat} (hj : j ≤ 3) : span j ∣ Arch.aarch64.wordLimit :=
  Nat.pow_dvd_pow 2 (show 12 + 9 * j ≤ 64 by omega)

theorem height_le (l : TableLevel) : l.height ≤ 3 := by
  cases l <;> decide

/-- A sum of words and what the sum of the code is a multiple of. -/
theorem addWord_dvd {v : Nat} (h : addWord P .aarch64 virt n = .ok v) {j : Nat} (hj : j ≤ 3) (m : Nat) :
    span j ∣ v + m ↔ span j ∣ virt + n + m := by
  have hcases : v = virt + n ∨ v = (virt + n) % Arch.aarch64.wordLimit := by
    cases P with
    | dev => exact Or.inl (checkedAdd_eq_ok.1 h).2.symm
    | release => exact Or.inr (Except.ok.inj h).symm
  rcases hcases with rfl | rfl
  · rfl
  · rw [Nat.dvd_iff_mod_eq_zero, Nat.dvd_iff_mod_eq_zero, Nat.add_mod, Nat.mod_mod_of_dvd _ (span_dvd_wordLimit hj),
      ← Nat.add_mod]

theorem addWord_page {v : Nat} (hvirt : pageSize ∣ virt) (hn : pageSize ∣ n) (h : addWord P .aarch64 virt n = .ok v) :
    pageSize ∣ v :=
  (addWord_dvd h (j := 0) (by decide) 0).2 (show pageSize ∣ virt + n from Nat.dvd_add hvirt hn)

theorem addWord_lt {A : Arch} {v : Nat} (h : addWord P A virt n = .ok v) : v < A.wordLimit := by
  cases P with
  | dev =>
      have hok := checkedAdd_eq_ok.1 h
      omega
  | release =>
      rw [← Except.ok.inj h]
      exact Nat.mod_lt _ (Nat.two_pow_pos _)

/-! ## Tables -/

/-- The code finds a table in every pointer entry. -/
theorem getPhysAddr_of_pointer {l : TableLevel} (h : isPointerEntry l d = true) :
    ∃ next, getPhysAddrFromDescriptor l d = some next := by
  have htype : d &&& typeMask = mmPageTableFlag := by
    cases l with
    | level4 => cases h
    | level1 | level2 | level3 => exact beq_iff_eq.1 h
  exact ⟨_, if_pos htype⟩

theorem makePointerEntry_eq {x : Nat} (hl : l ≠ .level4) (hdvd : pageSize ∣ x) (hlt : x < Arch.aarch64.wordLimit) :
    ∃ d next, makePointerEntry l x = some d ∧ getPhysAddrFromDescriptor l d = some next := by
  have haligned : isAligned .aarch64 x pageSize = true := (isAligned_iff (k := 12) hlt (by decide)).2 hdvd
  have htype : (x ||| mmPageTableFlag) &&& typeMask = mmPageTableFlag := by
    have hfour : 2 ^ 2 ∣ x := (show 2 ^ 2 ∣ pageSize by decide).trans hdvd
    rw [and_typeMask]
    exact or_mod_two_pow hfour
  refine ⟨x ||| mmPageTableFlag, _, ?_, if_pos htype⟩
  cases l with
  | level4 => exact absurd rfl hl
  | level1 | level2 | level3 => exact if_pos haligned

theorem exists_next (h : 0 < l.height) : l ≠ .level4 ∧ ∃ l', getNextTable l = some l' ∧ l'.height + 1 = l.height ∧
    l' ≠ .level1 := by
  cases l with
  | level4 => exact absurd h (lt_irrefl _)
  | level1 => exact ⟨by decide, .level2, rfl, rfl, by decide⟩
  | level2 => exact ⟨by decide, .level3, rfl, rfl, by decide⟩
  | level3 => exact ⟨by decide, .level4, rfl, rfl, by decide⟩

theorem allocTable_returns (hl : l ≠ .level4) (hs : Supplies st) (d : Nat) :
    ∃ d' st₁ next, allocTable format l d st = .ok (d', st₁) ∧ getPhysAddrFromDescriptor l d' = some next ∧ Supplies st₁ := by
  rw [allocTable]
  split
  next hpointer =>
    rcases getPhysAddr_of_pointer hpointer with ⟨next, hnext⟩
    exact ⟨d, st, next, rfl, hnext, hs⟩
  next =>
    rcases hs st.used with ⟨x, hx, hdvd, hlt⟩
    rcases makePointerEntry_eq hl hdvd hlt with ⟨d', next, hd', hnext⟩
    refine ⟨d', { st with used := st.used + 1 }.writeBytes x format.zero, next, ?_, hnext, hs⟩
    simp only [TableState.alloc, hx, run_ok_bind, show format.makePointerEntry l x = some d' from hd', unwrap]
    rfl

/-- A table is opened, and the table below it is filled. -/
theorem allocTableAndFill_fills (h : 0 < l.height) (hs : Supplies st) (d : Nat)
    (hfill : ∀ l' next st₁, l'.height + 1 = l.height → l' ≠ .level1 → Supplies st₁ →
      ∃ st₂, fill l' next virt base n st₁ = .ok st₂ ∧ Supplies st₂) :
    ∃ d' st₁, allocTableAndFill format fill l d virt base n st = .ok (d', st₁) ∧ Supplies st₁ := by
  rcases exists_next h with ⟨hl, l', hl', hheight, hne⟩
  rcases allocTable_returns hl hs d with ⟨d', st₁, next, halloc, hnext, hs₁⟩
  rcases hfill l' next st₁ hheight hne hs₁ with ⟨st₂, hst₂, hs₂⟩
  refine ⟨d', st₂, ?_, hs₂⟩
  rw [allocTableAndFill, halloc]
  simp only [run_ok_bind, show format.getNextTable l = some l' from hl',
    show format.getPhysAddrFromDescriptor l d' = some next from hnext, unwrap, hst₂]
  rfl

theorem allocTableAndFill_inv {d' : Nat} (h : allocTableAndFill format fill l d virt base n st = .ok (d', st₁)) :
    ∃ l' next st₂, l'.height + 1 = l.height ∧ fill l' next virt base n st₂ = .ok st₁ := by
  rcases run_bind_eq_ok.1 h with ⟨⟨d₁, st₂⟩, -, h⟩
  rcases run_bind_eq_ok.1 h with ⟨l', hl', h⟩
  rcases run_bind_eq_ok.1 h with ⟨next, -, h⟩
  rcases run_bind_eq_ok.1 h with ⟨st₃, hfill, h⟩
  have hst : st₃ = st₁ := (Prod.mk.inj (Except.ok.inj h)).2
  subst hst
  have hnext : getNextTable l = some l' := unwrap_eq_ok.1 hl'
  refine ⟨l', next, st₂, ?_, hfill⟩
  cases l with
  | level4 => cases hnext
  | level1 | level2 | level3 =>
      obtain rfl := Option.some.inj hnext
      rfl

/-! ## The loop -/

/-- A round of the loop with the tables of the hardware. -/
abbrev CompactRound (P : Profile) (device : Bool) (fuel : Nat) : TableLevel → Nat → Nat → Nat → Nat → TableState Nat →
    Nat → Nat → TableState Nat → Prop :=
  Round format device TableLevel.height TableLevel.height
    (checkAligned .aarch64 (compactLoop format P .aarch64 device fuel))

theorem compactLoop_inv (hv : virt < Arch.aarch64.wordLimit) (hs : size < Arch.aarch64.wordLimit)
    (hsize : pageSize ≤ size)
    (hrun : compactLoop format P .aarch64 device (fuel + 1) l t virt base size st = .ok st') :
    ∃ n d st₁ virt' base', CompactRound P device fuel l t virt base size st n d st₁ ∧
      addWord P .aarch64 virt n = .ok virt' ∧ addWord P .aarch64 base n = .ok base' ∧
      compactLoop format P .aarch64 device fuel l t virt' base' (size - n)
        (st₁.set t (getDescriptorIndex virt l) d) = .ok st' := by
  rw [compactLoop, if_neg (Nat.not_lt.2 hsize)] at hrun
  rcases run_bind_eq_ok.1 hrun with ⟨⟨n, d, st₁⟩, hround, hrun⟩
  rcases run_bind_eq_ok.1 hrun with ⟨virt', hvirt', hrun⟩
  rcases run_bind_eq_ok.1 hrun with ⟨base', hbase', hrun⟩
  rcases run_bind_eq_ok.1 hrun with ⟨size', hsize', hrun⟩
  have hround' := compactRound_eq_ok lawful tests hv hround
  rw [subWord_of_le hround'.le hs] at hsize'
  obtain rfl := Except.ok.inj hsize'
  exact ⟨n, d, st₁, virt', base', hround', hvirt', hbase', hrun⟩

theorem compactLoop_step {virt' base' : Nat} (hv : virt < Arch.aarch64.wordLimit) (hs : size < Arch.aarch64.wordLimit)
    (hsize : pageSize ≤ size) (hround : CompactRound P device fuel l t virt base size st n d st₁)
    (hvirt' : addWord P .aarch64 virt n = .ok virt') (hbase' : addWord P .aarch64 base n = .ok base')
    (hrest : compactLoop format P .aarch64 device fuel l t virt' base' (size - n)
      (st₁.set t (getDescriptorIndex virt l) d) = .ok st') :
    compactLoop format P .aarch64 device (fuel + 1) l t virt base size st = .ok st' := by
  rw [compactLoop, if_neg (Nat.not_lt.2 hsize), compactRound_of_round lawful tests hv hround]
  simp only [run_ok_bind, hvirt', hbase', subWord_of_le hround.le hs]
  exact hrest

/-- The additions of a round and of the rest. -/
theorem adds_of_rest {virt' base' : Nat} (hle : n ≤ size) (hvirt' : addWord P .aarch64 virt n = .ok virt')
    (hbase' : addWord P .aarch64 base n = .ok base') (h : size - n = 0 ∨ Adds P .aarch64 virt' base' (size - n)) :
    Adds P .aarch64 virt base size := by
  cases P with
  | release => exact Or.inl rfl
  | dev =>
      have hv := checkedAdd_eq_ok.1 hvirt'
      have hb := checkedAdd_eq_ok.1 hbase'
      rcases h with h | h | h
      · exact Or.inr ⟨by omega, by omega⟩
      · cases h
      · exact Or.inr ⟨by omega, by omega⟩

/-- A multiple of the span behind the remainder of the size is one behind the range. -/
theorem span_dvd_end (h : Nat) : span h ∣ virt + size % span h ↔ span h ∣ virt + size := by
  conv_rhs => rw [← Nat.mod_add_div size (span h), ← Nat.add_assoc]
  exact (Nat.dvd_add_left (Nat.dvd_mul_right _ _)).symm

theorem fillable_of_compactLoop (hv : virt < Arch.aarch64.wordLimit) (hs : size < Arch.aarch64.wordLimit)
    (hvirt : pageSize ∣ virt) (hsize : pageSize ∣ size) (hpos : 0 < size)
    (hrun : compactLoop format P .aarch64 device fuel l t virt base size st = .ok st') : Fillable P l virt base size := by
  induction fuel generalizing l t virt base size st st' with
  | zero => cases hrun
  | succ fuel ih =>
      have hpage : pageSize ≤ size := Nat.le_of_dvd hpos hsize
      rcases compactLoop_inv hv hs hpage hrun with ⟨n, d, st₁, virt', base', hround, hvirt', hbase', hrest⟩
      have hle := hround.le
      have hdvd := hround.dvd hsize
      have hpage' := addWord_page hvirt hdvd hvirt'
      have hnext : size - n = 0 ∨ Fillable P l virt' base' (size - n) := by
        rcases Nat.eq_zero_or_pos (size - n) with h | h
        · exact Or.inl h
        · exact Or.inr (ih (addWord_lt hvirt') (by omega) hpage' (Nat.dvd_sub hsize hdvd) h hrest)
      have hadds := adds_of_rest hle hvirt' hbase' (hnext.imp_right Fillable.adds)
      cases hround with
      | block _ hvirt hroom hd =>
          refine ⟨hadds, ?_, fun j hj _ => Or.inl ((span_dvd_span hj).trans hvirt)⟩
          rintro rfl
          cases hd
      | tail _ _ hvirt hlt _ =>
          refine ⟨hadds, ?_, fun j hj _ => Or.inl ((span_dvd_span hj).trans hvirt)⟩
          rintro rfl
          exact hlt
      | head _ _ hnot halloc =>
          rcases allocTableAndFill_inv halloc with ⟨l', next, st₂, hheight, hfill⟩
          rcases Nat.lt_or_ge size (span l.height) with hlt | hge
          · -- The whole range is filled by the table below.
            rw [Nat.mod_eq_of_lt hlt] at hfill
            have hbelow := ih hv hs hvirt hsize hpos (checkAligned_eq_ok hfill)
            refine ⟨hadds, ?_, fun j hj hroom => ?_⟩
            · rintro rfl
              exact hlt
            · have hj' : j ≠ l.height := by
                rintro rfl
                omega
              exact hbelow.ends j (by omega) hroom
          · -- What is left is a multiple of the span, so the rounds go on only from one.
            have hmod : size % span l.height < span l.height := Nat.mod_lt _ (span_pos _)
            have hdm := Nat.div_add_mod size (span l.height)
            have hleft : size - size % span l.height = span l.height * (size / span l.height) := by omega
            have hspan : span l.height ≤ size - size % span l.height := by
              rw [hleft]
              exact Nat.le_mul_of_pos_right _ (Nat.div_pos hge (span_pos _))
            have hrest := hnext.resolve_left (by have := span_pos l.height; omega)
            have hend : span l.height ∣ virt + size := by
              rw [← span_dvd_end]
              have hiff := addWord_dvd hvirt' (height_le l) 0
              refine hiff.1 ?_
              rcases hrest.ends l.height le_rfl hspan with h | h
              · exact h
              · rw [hleft] at h
                exact (Nat.dvd_add_left (Nat.dvd_mul_right _ _)).1 h
            refine ⟨hadds, ?_, fun j hj _ => Or.inr ((span_dvd_span hj).trans hend)⟩
            rintro rfl
            exact absurd (hrest.level1 rfl) (Nat.not_lt.2 hspan)

/-- A round that fills something and leaves a range that starts on a multiple of the span. -/
theorem compactLoop_finish (hv : virt < Arch.aarch64.wordLimit) (hs : size < Arch.aarch64.wordLimit)
    (hvirt : pageSize ∣ virt) (hbase : pageSize ∣ base) (hsize : pageSize ∣ size) (hpage : pageSize ≤ size)
    (hadds : Adds P .aarch64 virt base size) (hlevel : l = .level1 → size < span 3) (hsupply : Supplies st₁)
    (hnext : n < size → span l.height ∣ virt + n)
    (hround : CompactRound P device fuel l t virt base size st n d st₁)
    (ih : ∀ virt' base', virt' < Arch.aarch64.wordLimit → base' < Arch.aarch64.wordLimit →
      pageSize ∣ virt' → pageSize ∣ base' → n < size → Fillable P l virt' base' (size - n) →
      ∃ st', compactLoop format P .aarch64 device fuel l t virt' base' (size - n)
        (st₁.set t (getDescriptorIndex virt l) d) = .ok st' ∧ Supplies st')
    (hfuel : 0 < fuel) :
    ∃ st', compactLoop format P .aarch64 device (fuel + 1) l t virt base size st = .ok st' ∧ Supplies st' := by
  have hle := hround.le
  have hdvd := hround.dvd hsize
  rcases (hadds.take hle).returns with ⟨⟨virt', hvirt'⟩, base', hbase'⟩
  -- The round takes a part of the range, or all of it.
  rcases Nat.lt_or_eq_of_le hle with hlt | rfl
  · have hfillable : Fillable P l virt' base' (size - n) := by
      refine ⟨?_, fun h => (Nat.sub_le _ _).trans_lt (hlevel h), fun j hj _ => Or.inl ?_⟩
      · cases P with
        | release => exact Or.inl rfl
        | dev =>
            have hv' := checkedAdd_eq_ok.1 hvirt'
            have hb' := checkedAdd_eq_ok.1 hbase'
            rcases hadds with h | h
            · cases h
            · exact Or.inr ⟨by omega, by omega⟩
      · have hiff := addWord_dvd hvirt' (hj.trans (height_le l)) 0
        exact hiff.2 ((span_dvd_span hj).trans (hnext hlt))
    rcases ih virt' base' (addWord_lt hvirt') (addWord_lt hbase') (addWord_page hvirt hdvd hvirt')
      (addWord_page hbase hdvd hbase') hlt hfillable with ⟨st', hst', hs'⟩
    exact ⟨st', compactLoop_step hv hs hpage hround hvirt' hbase' hst', hs'⟩
  · refine ⟨st₁.set t (getDescriptorIndex virt l) d, compactLoop_step hv hs hpage hround hvirt' hbase' ?_, hsupply⟩
    rw [Nat.sub_self]
    cases fuel with
    | zero => cases hfuel
    | succ fuel => exact compactLoop_of_lt pageSize_pos

theorem compactLoop_of_fillable (device : Bool) (t : Nat) (hv : virt < Arch.aarch64.wordLimit) (hb : base < Arch.aarch64.wordLimit)
    (hs : size < Arch.aarch64.wordLimit) (hvirt : pageSize ∣ virt) (hbase : pageSize ∣ base) (hsize : pageSize ∣ size)
    (hsupply : Supplies st) (h : Fillable P l virt base size) (hfuel : size / pageSize + l.height < fuel) :
    ∃ st', compactLoop format P .aarch64 device fuel l t virt base size st = .ok st' ∧ Supplies st' := by
  induction fuel generalizing l t virt base size st with
  | zero => exact absurd hfuel (Nat.not_lt_zero _)
  | succ fuel ih =>
      rcases Nat.eq_zero_or_pos size with rfl | hpos
      · exact ⟨st, compactLoop_of_lt pageSize_pos, hsupply⟩
      have hpage : pageSize ≤ size := Nat.le_of_dvd hpos hsize
      have hcount : 1 ≤ size / pageSize := (Nat.one_le_div_iff pageSize_pos).2 hpage
      -- The rounds behind the first one.
      have hfinish : ∀ n d st₁, 0 < n → Supplies st₁ → (n < size → span l.height ∣ virt + n) →
          CompactRound P device fuel l t virt base size st n d st₁ →
          ∃ st', compactLoop format P .aarch64 device (fuel + 1) l t virt base size st = .ok st' ∧ Supplies st' := by
        intro n d st₁ hn hs₁ hnext hround
        have hdvd := hround.dvd hsize
        have hsum := div_add_div_sub hdvd hround.le
        have hncount : 1 ≤ n / pageSize := (Nat.one_le_div_iff pageSize_pos).2 (Nat.le_of_dvd hn hdvd)
        exact compactLoop_finish hv hs hvirt hbase hsize hpage h.adds h.level1 hs₁ hnext hround
          (fun virt' base' hv' hb' hvirt' hbase' _ hfillable =>
            ih t hv' hb' (by omega) hvirt' hbase' (Nat.dvd_sub hsize hdvd) hs₁ hfillable (by omega)) (by omega)
      -- The table below the entry of the first address.
      have hbelow : ∀ m, m ≤ size → pageSize ∣ m → 0 < l.height →
          (∀ j < l.height, span j ≤ m → span j ∣ virt ∨ span j ∣ virt + m) →
          ∃ d st₁, allocTableAndFill format (checkAligned .aarch64 (compactLoop format P .aarch64 device fuel)) l
            (st.mem t (getDescriptorIndex virt l)) virt base m st = .ok (d, st₁) ∧ Supplies st₁ := by
        intro m hm hdvd hheight hends
        have hmle : m / pageSize ≤ size / pageSize := Nat.div_le_div_right hm
        refine allocTableAndFill_fills hheight hsupply _ fun l' next st₁ hl' hne hs₁ => ?_
        rw [checkAligned_of_lt hv hb hvirt hbase]
        exact ih next hv hb (by omega) hvirt hbase hdvd hs₁
          ⟨h.adds.take hm, fun heq => absurd heq hne, fun j hj => hends j (by omega)⟩ (by omega)
      by_cases hdvd : span l.height ∣ virt
      · rcases Nat.lt_or_ge size (span l.height) with hsmall | hbig
        · have hheight : 0 < l.height := by
            refine Nat.pos_of_ne_zero fun hzero => ?_
            rw [hzero] at hsmall
            exact absurd hpage (Nat.not_le.2 hsmall)
          rcases hbelow size le_rfl hsize hheight (fun j hj => h.ends j hj.le) with ⟨d, st₁, halloc, hs₁⟩
          exact hfinish size d st₁ hpos hs₁ (fun hlt => absurd hlt (lt_irrefl _)) (.tail d st₁ hdvd hsmall halloc)
        · have hblock : ∃ d, format.makeDescriptor l base device = some d := by
            cases l with
            | level1 => exact absurd (h.level1 rfl) (Nat.not_lt.2 hbig)
            | level2 | level3 | level4 => exact ⟨_, rfl⟩
          rcases hblock with ⟨d, hd⟩
          exact hfinish _ d st (span_pos _) hsupply (fun _ => Nat.dvd_add hdvd dvd_rfl) (.block d hdvd hbig hd)
      · have hheight : 0 < l.height := by
          refine Nat.pos_of_ne_zero fun hzero => hdvd ?_
          rw [hzero]
          exact hvirt
        have hpagen : pageSize ∣ size % span l.height := (Nat.dvd_mod_iff (pageSize_dvd_span _)).2 hsize
        -- The remainder is the whole range, or what it takes to align the address.
        have hhead : 0 < size % span l.height ∧
            (size % span l.height < size → span l.height ∣ virt + size % span l.height) ∧
            ∀ j < l.height, span j ≤ size % span l.height → span j ∣ virt ∨ span j ∣ virt + size % span l.height := by
          rcases Nat.lt_or_ge size (span l.height) with hsmall | hbig
          · rw [Nat.mod_eq_of_lt hsmall]
            exact ⟨hpos, fun hlt => absurd hlt (lt_irrefl _), fun j hj => h.ends j hj.le⟩
          · have hend := span_dvd_end l.height |>.2 ((h.ends _ le_rfl hbig).resolve_left hdvd)
            refine ⟨Nat.pos_of_ne_zero fun hz => hdvd ?_, fun _ => hend, fun j hj _ =>
              Or.inr ((span_dvd_span hj.le).trans hend)⟩
            rwa [hz, Nat.add_zero] at hend
        rcases hbelow _ (Nat.mod_le _ _) hpagen hheight hhead.2.2 with ⟨d, st₁, halloc, hs₁⟩
        exact hfinish _ d st₁ hhead.1 hs₁ hhead.2.1 (.head d st₁ hdvd halloc)

/-- `fill_table_compact` returns exactly for the ranges that the loop can fill, whatever is in the tables. -/
theorem fillTableCompact_returns_iff (P : Profile) (device : Bool) (l : TableLevel) (t : Nat)
    (hv : virt < Arch.aarch64.wordLimit) (hb : base < Arch.aarch64.wordLimit) (hs : size < Arch.aarch64.wordLimit)
    (hvirt : pageSize ∣ virt) (hbase : pageSize ∣ base) (hsize : pageSize ∣ size) (hsupply : Supplies st) :
    Returns P device l t virt base size st ↔ Fillable P l virt base size := by
  constructor
  · rintro ⟨fuel, st', hrun⟩
    rcases Nat.eq_zero_or_pos size with rfl | hpos
    · have hspan := span_pos
      exact ⟨Or.inr ⟨hv, hb⟩, fun _ => hspan 3, fun j _ hle => absurd (hspan j) (Nat.not_lt.2 hle)⟩
    · exact fillable_of_compactLoop hv hs hvirt hsize hpos (checkAligned_eq_ok hrun)
  · intro h
    rcases compactLoop_of_fillable device t hv hb hs hvirt hbase hsize hsupply h (Nat.lt_succ_self _) with ⟨st', hrun, -⟩
    refine ⟨size / pageSize + l.height + 1, st', ?_⟩
    rw [fillTableCompact, checkAligned_of_lt hv hb hvirt hbase]
    exact hrun

/-- Empty tables, and an allocator that gives the same 512 pages again and again. -/
def freshTables : TableState Nat :=
  ⟨fun _ _ => 0, fun n => some (n % 512 * pageSize), 0⟩

theorem freshTables_supplies : Supplies freshTables := by
  intro n
  have hlt : n % 512 < 512 := Nat.mod_lt _ (by decide)
  have hmul := Nat.mul_lt_mul_of_pos_right hlt pageSize_pos
  exact ⟨_, rfl, Nat.dvd_mul_left _ _, hmul.trans (by decide)⟩

/-- From the second page of a section up to its end. -/
theorem fillTableCompact_returns_section : Returns .dev false .level1 0 0x1000 0x40001000 0x1ff000 freshTables := by
  refine (fillTableCompact_returns_iff .dev false .level1 0 (by decide) (by decide) (by decide) (by decide) (by decide)
    (by decide) freshTables_supplies).2 ⟨Or.inr (by decide), fun _ => by decide, fun j _ hle => ?_⟩
  rcases Nat.eq_zero_or_pos j with rfl | hj
  · exact Or.inl (by decide)
  · have hspan : span 1 ≤ 0x1ff000 := (span_le_span hj).trans hle
    exact absurd hspan (by decide)

/-- A section that starts at the second page: the loop at Level 3 finds `size & (entry_size - 1)` zero. -/
theorem fillTableCompact_section_diverges :
    Supplies freshTables ∧ ∀ P device fuel st',
      fillTableCompact format P .aarch64 device fuel .level3 0 0x1000 0x1000 0x200000 freshTables ≠ .ok st' := by
  refine ⟨freshTables_supplies, fun P device fuel st' hrun => ?_⟩
  have h := fillable_of_compactLoop (by decide) (by decide) (by decide) (by decide) (by decide) (checkAligned_eq_ok hrun)
  exact absurd (h.ends 1 le_rfl (by decide)) (by decide)

end Aarch64
end Propeller
