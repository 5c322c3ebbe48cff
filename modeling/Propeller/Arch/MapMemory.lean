import Propeller.Arch.Aarch64.Mm
import Propeller.Arch.Arm.Mm
import Propeller.Arch.Recursive

/-!
# Arch.MapMemory — granular mapping on both architectures

`map_memory` with the granular strategy passes its range to the granular loop with the first table of the
segment.  It is right for the ranges within 2 MiB, on both architectures, except in the kernel segment of an
ARM kernel with a 2/2 split: there the code writes Level 1 entries that the hardware does not walk.
-/

namespace Propeller

open Paging

/-- The tables that there may be below a table. -/
def tablesBelow {D : Type} (M : Mmu D) : Nat → Nat
  | 0 => 0
  | h + 1 => M.entries (h + 1) * (1 + tablesBelow M h)

namespace Aarch64

/-- The addresses that the tables of an address translate: those with the same upper 16 bits. -/
def Segment (virt v : Nat) : Prop :=
  v / 2 ^ 48 = virt / 2 ^ 48

instance (virt : Nat) : DecidablePred (Segment virt) :=
  fun v => inferInstanceAs (Decidable (v / 2 ^ 48 = virt / 2 ^ 48))

variable {virt base size : Nat}

theorem mapMemory_fillsExactly_iff (P : Profile) (device : Bool) (entry : Option Nat) (hvirt : pageSize ∣ virt)
    (hbase : pageSize ∣ base) (hsize : pageSize ∣ size) (hpos : 0 < size) (hend : virt + size ≤ 2 ^ 64)
    (hlimit : base + size ≤ 2 ^ 48) :
    FillsExactly (fun fuel root => mapMemory P root virt base size device .granular fuel) mmu physLimit format.zero
      entry (Segment virt) (tablesBelow mmu 3) 3 virt base size ↔
        virt % span 1 + size ≤ span 1 ∧ Avoids mmu 3 entry virt size := by
  have hfits : Fits .aarch64 virt base size := by
    have hword : Arch.wordLimit .aarch64 = 2 ^ 64 := rfl
    exact ⟨by omega, by omega, by omega⟩
  have hcover : Paging.cover mmu 3 = 2 ^ 48 := rfl
  have hseg : ∀ v, Segment virt v → v / Paging.cover mmu 3 = virt / Paging.cover mmu 3 := by
    intro v hv
    rw [hcover]
    exact hv
  constructor
  · exact window_of_fillsExactly (l := TableLevel.level1) lawful rfl (by decide) hseg (by decide) hfits hlimit
      hvirt hbase hsize hpos
  · rintro ⟨hwin, hvis⟩
    refine fillsExactly_of_window (l := TableLevel.level1) lawful rfl (by decide) hseg ?_ (by decide) hfits
      hlimit hvirt hbase hsize hpos hwin hvis
    intro v hv
    have hspan : span 1 = 2097152 := rfl
    rw [hspan] at hv
    rw [Segment]
    omega

end Aarch64

namespace Arm

/-- The segment of an address: the user segment, or the kernel segment above it. -/
def Segment (split : VmSplit) (virt v : Nat) : Prop :=
  if split.virtualBase ≤ virt then split.virtualBase ≤ v ∧ v < 2 ^ 32 else v < split.virtualBase

instance (split : VmSplit) (virt : Nat) : DecidablePred (Segment split virt) :=
  fun v => inferInstanceAs
    (Decidable (if split.virtualBase ≤ virt then split.virtualBase ≤ v ∧ v < 2 ^ 32 else v < split.virtualBase))

/-- How the hardware walks the tables of the segment of an address. -/
def hardware (split : VmSplit) (virt : Nat) : Mmu Desc :=
  if split.virtualBase ≤ virt ∧ split = .two then mmuOf 2 else mmu

/-- The height of the table that the hardware starts with. -/
def firstHeight (split : VmSplit) (virt : Nat) : Nat :=
  if split.virtualBase ≤ virt ∧ split = .three then 1 else 2

variable {split : VmSplit} {virt base size : Nat}

theorem firstHeight_eq : (getFirstTableLevel split virt).height = firstHeight split virt := by
  rw [getFirstTableLevel, firstHeight]
  split <;> rfl

/-- Below Level 1 the hardware reads all tables alike. -/
theorem leaf_mmuOf {h : Nat} (n m : Nat) (hh : h < 2) (mem : Tables Desc) (t v : Nat) :
    (mmuOf n).leaf mem h t v = (mmuOf m).leaf mem h t v := by
  have hindex : ∀ j < 2, (mmuOf n).index j v = (mmuOf m).index j v := by
    intro j hj
    have hj2 : j ≠ 2 := by omega
    simp [Mmu.index, mmuOf, hj2]
  induction h generalizing t with
  | zero =>
      rw [Mmu.leaf, Mmu.leaf, hindex 0 hh]
      rfl
  | succ h ih =>
      have hsame : (mmuOf n).decode (h + 1) (mem t ((mmuOf n).index (h + 1) v)) =
          (mmuOf m).decode (h + 1) (mem t ((mmuOf m).index (h + 1) v)) := by
        rw [hindex (h + 1) hh]
        rfl
      cases hd : (mmuOf m).decode (h + 1) (mem t ((mmuOf m).index (h + 1) v)) with
      | invalid => rw [Mmu.leaf_of_invalid (hsame.trans hd), Mmu.leaf_of_invalid hd]
      | block addr => rw [Mmu.leaf_of_block (hsame.trans hd), Mmu.leaf_of_block hd]
      | table next =>
          rw [Mmu.leaf_of_table (hsame.trans hd), Mmu.leaf_of_table hd]
          exact ih (by omega) next

/-- With a 2/2 split, the hardware finds a kernel address where the code looks for the address 2 GiB below. -/
theorem leaf_two {v : Nat} (hv : 2 ^ 31 ≤ v) (hv' : v < 2 ^ 32) (mem : Tables Desc) (t : Nat) :
    (mmuOf 2).leaf mem 2 t v = mmu.leaf mem 2 t (v - 2 ^ 31) := by
  have hindex : (mmuOf 2).index 2 v = mmu.index 2 (v - 2 ^ 31) := by
    show v / 2 ^ 30 % 2 * 2 = (v - 2 ^ 31) / 2 ^ 30 % 4 * 2
    omega
  have hsame : (mmuOf 2).decode 2 (mem t ((mmuOf 2).index 2 v)) = mmu.decode 2 (mem t (mmu.index 2 (v - 2 ^ 31))) := by
    rw [hindex]
    rfl
  cases hd : mmu.decode 2 (mem t (mmu.index 2 (v - 2 ^ 31))) with
  | invalid => rw [Mmu.leaf_of_invalid (hsame.trans hd), Mmu.leaf_of_invalid hd]
  | block addr => rw [Mmu.leaf_of_block (hsame.trans hd), Mmu.leaf_of_block hd]
  | table next =>
      rw [Mmu.leaf_of_table (hsame.trans hd), Mmu.leaf_of_table hd]
      have hsum : v - 2 ^ 31 + 2 * span (1 + 1) = v := by
        have hspan : span (1 + 1) = 2 ^ 30 := rfl
        omega
      have hentries : ∀ j ≤ 1, mmu.entries j = 512 := by
        intro j hj
        exact if_neg (by omega)
      calc (mmuOf 2).leaf mem 1 next v = mmu.leaf mem 1 next v := leaf_mmuOf 2 4 (by decide) mem next v
        _ = mmu.leaf mem 1 next (v - 2 ^ 31 + 2 * span (1 + 1)) := by rw [hsum]
        _ = mmu.leaf mem 1 next (v - 2 ^ 31) := Mmu.leaf_add_mul_span hentries 2

/-- The tables are the same ones whatever the hardware starts with. -/
theorem sound_mmuOf {st : TableState Desc} {root : Nat} {S : Set Nat} {n : Nat} (m : Nat)
    (hs : Sound (mmuOf n) physLimit st 2 root S) : Sound (mmuOf m) physLimit st 2 root S :=
  ⟨hs.separate, hs.bounded, hs.fresh, hs.distinct⟩

/-- With a 2/2 split, no fill for kernel addresses changes what the hardware finds for one. -/
theorem fillTable_two_unchanged {P : Profile} {device : Bool} {strategy : MappingStrategy} {fuel root v : Nat}
    {st st' : TableState Desc} {S : Set Nat} (hs : Sound mmu physLimit st 2 root S)
    (hvirt : 2 ^ 31 ≤ virt) (hend : virt + size ≤ 2 ^ 32) (hlimit : base + size ≤ 2 ^ 32) (hpos : 0 < size)
    (hv : 2 ^ 31 ≤ v) (hv' : v < 2 ^ 32)
    (hrun : fillTable format P .arm device strategy fuel .level1 root virt base size st = .ok st') :
    (mmuOf 2).walk st'.mem 2 root v = (mmuOf 2).walk st.mem 2 root v := by
  have hword : Arch.wordLimit .arm = 2 ^ 32 := rfl
  have hfits : Fits .arm virt base size := ⟨by omega, by omega, by omega⟩
  -- The code uses the last two entries, and the hardware the first two.
  have hne : ∀ w, virt ≤ w → w < virt + size → mmu.index 2 (v - 2 ^ 31) ≠ mmu.index 2 w := by
    intro w hw hw'
    show (v - 2 ^ 31) / 2 ^ 30 % 4 * 2 ≠ w / 2 ^ 30 % 4 * 2
    omega
  have hleaf : mmu.leaf st'.mem 2 root (v - 2 ^ 31) = mmu.leaf st.mem 2 root (v - 2 ^ 31) := by
    cases strategy with
    | compact => exact compactLoop_other (l := TableLevel.level1) lawful tests hs hfits hne (checkAligned_eq_ok hrun)
    | granular =>
        exact granularLoop_other (l := TableLevel.level1) lawful hs hfits hpos hne (checkAligned_eq_ok hrun)
  rw [Mmu.walk, Mmu.walk, leaf_two hv hv', leaf_two hv hv', hleaf]

theorem not_fillsExactly_two (P : Profile) (device : Bool) (entry : Option Nat) (hvirt : 2 ^ 31 ≤ virt)
    (hpos : 0 < size) (hend : virt + size ≤ 2 ^ 32) (hlimit : base + size ≤ 2 ^ 32) (count : Nat)
    (hcount : pageSize * (count + 1) ≤ physLimit) :
    ¬ FillsExactly (fun fuel root => fillTable format P .arm device .granular fuel .level1 root virt base size)
      (mmuOf 2) physLimit format.zero entry (Segment .two virt) count 2 virt base size := by
  intro hexact
  have hs : Sound mmu physLimit (emptyState format.zero count) 2 0 {0} := emptyState_sound lawful hcount 2
  have hpages := emptyState_hasPages format.zero count
  have hempty : ∀ v, (mmuOf 2).leaf (emptyState format.zero count).mem 2 0 v = none :=
    fun v => Mmu.leaf_of_invalid (lawful.zero 2)
  have hclear : Clear (mmuOf 2) (emptyState format.zero count) 2 0 virt size := by
    intro v _ _ b hb
    rw [hempty] at hb
    cases hb
  have hbut : SoundBut (mmuOf 2) physLimit format.zero entry (emptyState format.zero count) 2 0 {0} := by
    rw [SoundBut, emptyState_replace]
    exact sound_mmuOf 2 hs
  rcases hexact _ _ _ hbut hclear hpages with ⟨fuel, st', hrun, hmapped⟩
  have hinside := hmapped.inside 0 hpos
  have hsame := fillTable_two_unchanged hs hvirt hend hlimit hpos hvirt (by omega) hrun
  have hnone : (mmuOf 2).walk (emptyState format.zero count).mem 2 0 virt = none := by
    rw [Mmu.walk, hempty]
    rfl
  rw [translateIn, Nat.add_zero, hsame, hnone] at hinside
  split at hinside <;> cases hinside

theorem segment_of_div_eq (hvirt : virt < 2 ^ 32) {v : Nat} (hv : v / span 1 = virt / span 1) :
    Segment split virt v := by
  have hspan : span 1 = 2097152 := rfl
  rw [hspan] at hv
  have hbase : split.virtualBase / 2097152 * 2097152 = split.virtualBase := by cases split <;> rfl
  rw [Segment]
  by_cases hkernel : split.virtualBase ≤ virt
  · rw [if_pos hkernel]
    omega
  · rw [if_neg hkernel]
    omega

theorem mapMemory_fillsExactly_iff (P : Profile) (split : VmSplit) (device : Bool) (entry : Option Nat)
    (hvirt : pageSize ∣ virt) (hbase : pageSize ∣ base) (hsize : pageSize ∣ size) (hpos : 0 < size)
    (hlt : size < 2 ^ 32) (hend : virt + size ≤ 2 ^ 32) (hlimit : base + size ≤ 2 ^ 32) :
    FillsExactly (fun fuel root => mapMemory P split root virt base size device .granular fuel)
      (hardware split virt) physLimit format.zero entry (Segment split virt) (tablesBelow mmu 2)
      (firstHeight split virt) virt base size ↔
        virt % span 1 + size ≤ span 1 ∧ Avoids (hardware split virt) (firstHeight split virt) entry virt size ∧
          ¬ (split = .two ∧ split.virtualBase ≤ virt) := by
  have hword : Arch.wordLimit .arm = 2 ^ 32 := rfl
  by_cases htwo : split = .two ∧ split.virtualBase ≤ virt
  · rcases htwo with ⟨rfl, hkernel⟩
    have hlevel : getFirstTableLevel .two virt = .level1 := if_neg (fun h => nomatch h.2)
    have hfirst : firstHeight .two virt = 2 := if_neg (fun h => nomatch h.2)
    have hhard : hardware .two virt = mmuOf 2 := if_pos ⟨hkernel, rfl⟩
    have hnot := not_fillsExactly_two P device entry hkernel hpos hend hlimit (tablesBelow mmu 2) (by decide)
    rw [← hlevel] at hnot
    rw [hfirst, hhard]
    exact ⟨fun h => absurd h hnot, fun h => absurd ⟨rfl, hkernel⟩ h.2.2⟩
  · have hhard : hardware split virt = mmu := if_neg fun h => htwo ⟨h.2, h.1⟩
    have hfits : Fits .arm virt base size := ⟨by omega, by omega, by omega⟩
    have hseg : ∀ v, Segment split virt v →
        v / Paging.cover mmu (firstHeight split virt) = virt / Paging.cover mmu (firstHeight split virt) := by
      intro v hv
      rw [firstHeight]
      rw [Segment] at hv
      split at hv
      · rename_i hkernel
        cases split with
        | two => exact absurd ⟨rfl, hkernel⟩ htwo
        | three =>
            have hcover : Paging.cover mmu 1 = 2 ^ 30 := rfl
            simp only [VmSplit.virtualBase] at hkernel hv
            rw [if_pos ⟨hkernel, rfl⟩, hcover]
            omega
      · rename_i huser
        have hcover : Paging.cover mmu 2 = 2 ^ 32 := rfl
        have hbound : split.virtualBase ≤ 2 ^ 32 := by cases split <;> decide
        rw [if_neg fun h => huser h.1, hcover]
        omega
    rw [hhard]
    constructor
    · intro hexact
      rcases window_of_fillsExactly lawful firstHeight_eq (by rw [firstHeight]; split <;> decide) hseg (by decide)
        hfits hlimit hvirt hbase hsize hpos hexact with ⟨hwin, hvis⟩
      exact ⟨hwin, hvis, htwo⟩
    · rintro ⟨hwin, hvis, -⟩
      exact fillsExactly_of_window lawful firstHeight_eq (by rw [firstHeight]; split <;> decide) hseg
        (fun v hv => segment_of_div_eq (by omega) hv) (by rw [firstHeight]; split <;> decide) hfits hlimit hvirt
        hbase hsize hpos hwin hvis

/-! ## The recursive window -/

/-- `RECURSIVE_L2_OFFSET`: the start code makes this word of the Level 2 table point to the table itself. -/
def recursiveL2Offset : Nat := 0xff0

/-- Entry 510, by its first word. -/
def recursiveEntry : Nat :=
  recursiveL2Offset / 4

/-- `MMU_NORMAL_RW_FLAGS | MM_TYPE_PAGE_TABLE`. -/
def recursiveFlags : Nat :=
  mmAccessFlagLong ||| mmPageTableFlagLong

/-- The recursive mapping of the start code. -/
def setupRecursiveMapping (root : Nat) (st : TableState Desc) : TableState Desc :=
  st.set root recursiveEntry (root ||| recursiveFlags, 0)

/-- The address that shows an entry of the table in the window of another one. -/
def windowAddress (w v : Nat) : Nat :=
  w / span 1 * span 1 + v / span 1 % 512 * span 0

variable {st st' : TableState Desc} {root v w : Nat}

theorem windowAddress_index : mmu.index 1 (windowAddress w v) = mmu.index 1 w ∧
    mmu.index 0 (windowAddress w v) = mmu.index 1 v ∧ span 0 ∣ windowAddress w v := by
  have h0 : span 0 = 4096 := rfl
  have h1 : span 1 = 2097152 := rfl
  have hentries : ∀ h ≤ 1, mmu.entries h = 512 := fun h hh => if_neg (by omega)
  simp only [Mmu.index, hentries 1 le_rfl, hentries 0 (by decide), windowAddress, h0, h1]
  refine ⟨?_, ?_, by omega⟩
  · congr 2
    omega
  · congr 1
    omega

theorem windowAddress_segment (hkernel : VmSplit.three.virtualBase ≤ virt) (hw : Segment .three virt w) :
    Segment .three virt (windowAddress w v) := by
  have h0 : span 0 = 4096 := rfl
  have h1 : span 1 = 2097152 := rfl
  rw [Segment, if_pos hkernel] at hw ⊢
  rw [VmSplit.virtualBase] at hw ⊢
  rw [windowAddress, h0, h1]
  omega

/-- In the last table a pointer is read as a page, and nothing else is. -/
theorem decode_zero_of_table {d : Desc} {next : Nat} (hd : decode 1 d = .table next) :
    decode 0 d = .block next := by
  rcases decode_eq_table hd with ⟨-, htype, rfl⟩
  rw [decode, if_pos htype, if_pos rfl]

theorem decode_zero_of_type {d : Desc} (hd : d.1 % 4 ≠ 3) : decode 0 d = .invalid := by
  rw [decode, if_neg hd, if_neg]
  rintro ⟨-, h | h⟩ <;> cases h

theorem decode_zero_of_not_table {d : Desc} (hd : ∀ next, decode 1 d ≠ .table next) : decode 0 d = .invalid := by
  refine decode_zero_of_type fun htype => ?_
  exact hd (addrField 12 d) (by rw [decode, if_pos htype, if_neg (by decide)])

theorem decode_zero_ne_table {d : Desc} {next : Nat} : decode 0 d ≠ .table next :=
  fun hd => (decode_eq_table hd).1 rfl

/-- The window shows what the last table makes of the entries. -/
theorem walk_window (hrec : decode 1 (st.mem root (mmu.index 1 w)) = .table root) :
    mmu.walk st.mem 1 root (windowAddress w v) =
      match decode 0 (st.mem root (mmu.index 1 v)) with
      | .block addr => some addr
      | _ => none := by
  rcases windowAddress_index (w := w) (v := v) with ⟨hfirst, hlast, hdvd⟩
  have htable : mmu.decode (0 + 1) (st.mem root (mmu.index (0 + 1) (windowAddress w v))) = .table root := by
    rw [Nat.zero_add, hfirst]
    exact hrec
  have hmod : windowAddress w v % span 0 = 0 := Nat.mod_eq_zero_of_dvd hdvd
  rw [Mmu.walk, Mmu.leaf_of_table htable, Mmu.leaf, hlast]
  show Option.map _ (match decode 0 (st.mem root (mmu.index 1 v)) with | .block addr => some (0, addr) | _ => none) = _
  cases hd : decode 0 (st.mem root (mmu.index 1 v)) with
  | invalid => rfl
  | table next => exact absurd hd decode_zero_ne_table
  | block addr =>
      simp only [Option.map_some, hmod, Nat.add_zero]

/-- Where nothing but the range has changed, the window shows all entries as before. -/
theorem shown_of_mapped (hkernel : VmSplit.three.virtualBase ≤ virt) (hw : Segment .three virt w)
    (hvis : Avoids mmu 1 (some (mmu.index 1 w)) virt size)
    (hrec : decode 1 (st.mem root (mmu.index 1 w)) = .table root)
    (hsame : st'.mem root (mmu.index 1 w) = st.mem root (mmu.index 1 w))
    (hall : Mapped (translateIn mmu 1 (Segment .three virt) st root) (translateIn mmu 1 (Segment .three virt) st' root)
      virt base size) :
    decode 0 (st'.mem root (mmu.index 1 v)) = decode 0 (st.mem root (mmu.index 1 v)) := by
  have hout : ¬ (virt ≤ windowAddress w v ∧ windowAddress w v < virt + size) := by
    rintro ⟨hlo, hhi⟩
    exact hvis _ hlo hhi (congrArg some windowAddress_index.1)
  have hwalk := hall.outside _ hout
  have hseg := windowAddress_segment (v := v) hkernel hw
  have hrec' : decode 1 (st'.mem root (mmu.index 1 w)) = .table root := by
    rw [hsame]
    exact hrec
  rw [translateIn, translateIn, if_pos hseg, if_pos hseg, walk_window hrec, walk_window hrec'] at hwalk
  -- What the last table makes of an entry is a page or nothing.
  cases hd : decode 0 (st.mem root (mmu.index 1 v)) with
  | table next => exact absurd hd decode_zero_ne_table
  | invalid =>
      cases hd' : decode 0 (st'.mem root (mmu.index 1 v)) with
      | table next => exact absurd hd' decode_zero_ne_table
      | invalid => rfl
      | block addr =>
          rw [hd, hd'] at hwalk
          cases hwalk
  | block addr =>
      cases hd' : decode 0 (st'.mem root (mmu.index 1 v)) with
      | table next => exact absurd hd' decode_zero_ne_table
      | invalid =>
          rw [hd, hd'] at hwalk
          cases hwalk
      | block addr' =>
          rw [hd, hd'] at hwalk
          rw [Option.some.inj hwalk]

/-- An address of the window is translated by the entry of the first table that it shows. -/
theorem leaf_window (hrec : decode 1 (st.mem root (mmu.index 1 w)) = .table root)
    (hsame : st'.mem root (mmu.index 1 w) = st.mem root (mmu.index 1 w)) (hv : mmu.index 1 v = mmu.index 1 w)
    (hshown : ∀ v, decode 0 (st'.mem root (mmu.index 1 v)) = decode 0 (st.mem root (mmu.index 1 v))) :
    mmu.leaf st'.mem 1 root v = mmu.leaf st.mem 1 root v := by
  have htable : mmu.decode (0 + 1) (st.mem root (mmu.index (0 + 1) v)) = .table root := by
    rw [Nat.zero_add, hv]
    exact hrec
  have htable' : mmu.decode (0 + 1) (st'.mem root (mmu.index (0 + 1) v)) = .table root := by
    rw [Nat.zero_add, hv, hsame]
    exact hrec
  have hentry : mmu.index 0 v = mmu.index 1 (v / span 0 % 512 * span 1) := by
    have h0 : span 0 = 4096 := rfl
    have h1 : span 1 = 2097152 := rfl
    have hentries : ∀ h ≤ 1, mmu.entries h = 512 := fun h hh => if_neg (by omega)
    rw [Mmu.index, Mmu.index, hentries 1 le_rfl, hentries 0 (by decide), h0, h1]
    congr 1
    omega
  have hlast := hshown (v / span 0 % 512 * span 1)
  rw [← hentry] at hlast
  rw [Mmu.leaf_of_table htable, Mmu.leaf_of_table htable', Mmu.leaf, Mmu.leaf]
  exact congrArg (fun slot => match slot with | Slot.block addr => some (0, addr) | _ => none) hlast

/-- A fill that is right outside of the window is right in it as well if the window shows all entries as before. -/
theorem mapped_of_shown (hrec : decode 1 (st.mem root (mmu.index 1 w)) = .table root)
    (hsame : st'.mem root (mmu.index 1 w) = st.mem root (mmu.index 1 w))
    (hmapped : Mapped
      (translateIn mmu 1 (fun v => Segment .three virt v ∧ Visible mmu 1 (some (mmu.index 1 w)) v) st root)
      (translateIn mmu 1 (fun v => Segment .three virt v ∧ Visible mmu 1 (some (mmu.index 1 w)) v) st' root)
      virt base size)
    (hshown : ∀ v, decode 0 (st'.mem root (mmu.index 1 v)) = decode 0 (st.mem root (mmu.index 1 v))) :
    Mapped (translateIn mmu 1 (Segment .three virt) st root) (translateIn mmu 1 (Segment .three virt) st' root) virt
      base size := by
  constructor
  · intro x hx
    have hin := hmapped.inside x hx
    rw [translateIn] at hin ⊢
    split at hin
    · rename_i hv
      rw [if_pos hv.1]
      exact hin
    · cases hin
  · intro v hout
    by_cases hv : Visible mmu 1 (some (mmu.index 1 w)) v
    · have hold := hmapped.outside v hout
      simpa only [translateIn, hv, and_true] using hold
    · have hleaf := leaf_window hrec hsame (Option.some.inj (not_not.1 hv)) hshown
      rw [translateIn, translateIn, Mmu.walk, Mmu.walk, hleaf]

/-- Tables of a 3/1 kernel that are a tree but for the recursive entry that the address `w` takes; the range does not
take it, and it is as a fill expects it otherwise. -/
structure RecursiveStart (st : TableState Desc) (root w count virt size : Nat) : Prop where
  segment : Segment .three virt w
  recursive : decode 1 (st.mem root (mmu.index 1 w)) = .table root
  sound : ∃ S, SoundBut mmu physLimit format.zero (some (mmu.index 1 w)) st 1 root S
  avoids : Avoids mmu 1 (some (mmu.index 1 w)) virt size
  clear : Clear mmu st 1 root virt size
  pages : HasPages st count

/-- The tables of the start code: a tree, and then the recursive entry. -/
theorem recursiveStart_setup {count : Nat} {S : Set Nat} (hs : Sound mmu physLimit st 1 root S)
    (hroot : pageSize ∣ root) (hzero : st.mem root recursiveEntry = format.zero) (hkernel : VmSplit.three.virtualBase ≤ virt)
    (hvis : Avoids mmu 1 (some recursiveEntry) virt size) (hclear : Clear mmu st 1 root virt size)
    (hpages : HasPages st count) : RecursiveStart (setupRecursiveMapping root st) root 0xffc00000 count virt size := by
  have hentry : mmu.index 1 0xffc00000 = recursiveEntry := by decide
  refine ⟨?_, ?_, ⟨S, ?_⟩, ?_, ?_, hpages⟩
  · rw [Segment, if_pos hkernel]
    decide
  · have hrow : (setupRecursiveMapping root st).mem root recursiveEntry = (root ||| recursiveFlags, 0) := Tables.set_self
    rw [hentry, hrow, decode_page hroot (hs.bounded root hs.separate.root_mem) (by decide) (by decide),
      if_neg (by decide)]
  · rw [hentry]
    exact soundBut_set hs hzero
  · rw [hentry]
    exact hvis
  · intro v hlo hhi b hb
    have hleaf : mmu.leaf (setupRecursiveMapping root st).mem 1 root v = mmu.leaf st.mem 1 root v :=
      leaf_replace hs (hvis v hlo hhi)
    exact hclear v hlo hhi b (hleaf.symm.trans hb)

/-- A range within one section writes the entry of the section and no other, and keeps a pointer in it. -/
theorem mapMemory_row {S : Set Nat} {P : Profile} {device : Bool} {fuel i : Nat}
    (hkernel : VmSplit.three.virtualBase ≤ virt) (hfits : Fits .arm virt base size) (hpos : 0 < size)
    (hle : size ≤ span 1) (hs : SoundBut mmu physLimit format.zero (some i) st 1 root S)
    (hvis : Avoids mmu 1 (some i) virt size)
    (hrun : mapMemory P .three root virt base size device .granular fuel st = .ok st') :
    ∃ d, st'.mem root = Function.update (st.mem root) (mmu.index 1 virt) d ∧ (∃ next, decode 1 d = .table next) ∧
      ∀ next, decode 1 (st.mem root (mmu.index 1 virt)) = .table next → d = st.mem root (mmu.index 1 virt) := by
  have hlevel : getFirstTableLevel .three virt = .level2 := if_pos ⟨hkernel, rfl⟩
  have hhead := hvis virt le_rfl (by omega)
  obtain ⟨e, he⟩ := replace_restore st (some i) root format.zero
  have hst : st.mem root = Function.update ((st.replace (some i) root format.zero).mem root) i e := by
    conv_lhs => rw [← he]
    exact Function.update_self _ _ _
  have hloop := checkAligned_eq_ok hrun
  rw [hlevel, ← he, granularLoop_replace (l := TableLevel.level2) lawful hs hfits hpos hvis] at hloop
  rcases run_eq_ok_of_map hloop with ⟨st₁, hloop', rfl⟩
  rcases granularLoop_row (l := TableLevel.level2) lawful rfl hs hfits hle hloop' with ⟨d, hmem, hd, hsame⟩
  have hold : (st.replace (some i) root format.zero).mem root (mmu.index 1 virt) = _ := mem_replace hhead
  refine ⟨d, ?_, hd, ?_⟩
  · show (st₁.mem.set root i e) root = _
    rw [Tables.set, Function.update_self, hmem, hst]
    exact Function.update_comm (fun h => hhead (congrArg some h)) _ _ _
  · rw [← hold]
    exact hsame

/-- With a recursive entry, a range within one section is mapped as asked for, exactly if the section has a table:
a new table shows up in the window. -/
theorem mapMemory_recursive_iff (P : Profile) (device : Bool) (hkernel : VmSplit.three.virtualBase ≤ virt)
    (hvirt : pageSize ∣ virt) (hbase : pageSize ∣ base) (hsize : pageSize ∣ size) (hpos : 0 < size)
    (hend : virt + size ≤ 2 ^ 32) (hlimit : base + size ≤ 2 ^ 32) (hwin : virt % span 1 + size ≤ span 1)
    (hstart : RecursiveStart st root w (tablesBelow mmu 2) virt size) :
    Exact (fun fuel root => mapMemory P .three root virt base size device .granular fuel) mmu (Segment .three virt) 1
      virt base size st root ↔ ∃ next, decode 1 (st.mem root (mmu.index 1 virt)) = .table next := by
  have hword : Arch.wordLimit .arm = 2 ^ 32 := rfl
  have hthree : VmSplit.three.virtualBase = 3221225472 := rfl
  have hfits : Fits .arm virt base size := ⟨by omega, by omega, by omega⟩
  have hle : size ≤ span 1 := (Nat.le_add_left _ _).trans hwin
  rcases hstart with ⟨hw, hrec, ⟨S, hs⟩, hvis, hclear, hpages⟩
  have hne : mmu.index 1 w ≠ mmu.index 1 virt := fun h => hvis virt le_rfl (by omega) (congrArg some h.symm)
  constructor
  · rintro ⟨fuel, st', hrun, hall⟩
    rcases mapMemory_row hkernel hfits hpos hle hs hvis hrun with ⟨d, hmem, ⟨next, hd⟩, -⟩
    have hshown := shown_of_mapped (v := virt) hkernel hw hvis hrec (by rw [hmem, Function.update_of_ne hne]) hall
    rw [hmem, Function.update_self, decode_zero_of_table hd] at hshown
    by_contra hnot
    rw [decode_zero_of_not_table fun next h => hnot ⟨next, h⟩] at hshown
    cases hshown
  · rintro ⟨next, hptr⟩
    have hhard : hardware .three virt = mmu := if_neg fun h => nomatch h.2
    have hfirst : firstHeight .three virt = 1 := if_pos ⟨hkernel, rfl⟩
    have hexact := mapMemory_fillsExactly_iff P .three device (some (mmu.index 1 w)) hvirt hbase hsize hpos (by omega)
      hend hlimit
    rw [hhard, hfirst] at hexact
    rcases hexact.2 ⟨hwin, hvis, fun h => nomatch h.1⟩ st root S hs hclear hpages with ⟨fuel, st', hrun, hmapped⟩
    rcases mapMemory_row hkernel hfits hpos hle hs hvis hrun with ⟨d, hmem, -, hkeep⟩
    rw [hkeep next hptr, Function.update_eq_self] at hmem
    exact ⟨fuel, st', hrun, mapped_of_shown hrec (by rw [hmem]) hmapped fun v => by rw [hmem]⟩

end Arm

/-! ## Both architectures -/

/-- For every range of pages within the address space: from any tree of tables without blocks on the walks of the
range, and with pages for new tables, the granular map returns and is as asked for, exactly if the range is within one
last table, and is not one of kernel addresses with a 2/2 split.  With a recursive `entry` in the first table this holds
of all addresses outside of its window, for the ranges outside of it; and in the window of a 3/1 kernel, exactly if no
table is new. -/
theorem mapMemory_granular_exact_iff (P : Profile) (split : Arm.VmSplit) (device : Bool) (entry : Option Nat)
    {virt base size : Nat} (hvirt : pageSize ∣ virt) (hbase : pageSize ∣ base) (hsize : pageSize ∣ size)
    (hpos : 0 < size) :
    (virt + size ≤ 2 ^ 64 → base + size ≤ 2 ^ 48 →
      (FillsExactly (fun fuel root => Aarch64.mapMemory P root virt base size device .granular fuel) Aarch64.mmu
        Aarch64.physLimit Aarch64.format.zero entry (Aarch64.Segment virt) (tablesBelow Aarch64.mmu 3) 3 virt base
        size ↔ virt % span 1 + size ≤ span 1 ∧ Avoids Aarch64.mmu 3 entry virt size)) ∧
    (size < 2 ^ 32 → virt + size ≤ 2 ^ 32 → base + size ≤ 2 ^ 32 →
      (FillsExactly (fun fuel root => Arm.mapMemory P split root virt base size device .granular fuel)
        (Arm.hardware split virt) Arm.physLimit Arm.format.zero entry (Arm.Segment split virt)
        (tablesBelow Arm.mmu 2) (Arm.firstHeight split virt) virt base size ↔
          virt % span 1 + size ≤ span 1 ∧
            Avoids (Arm.hardware split virt) (Arm.firstHeight split virt) entry virt size ∧
            ¬ (split = .two ∧ split.virtualBase ≤ virt)) ∧
      (Arm.VmSplit.three.virtualBase ≤ virt → virt % span 1 + size ≤ span 1 → ∀ st root w,
        Arm.RecursiveStart st root w (tablesBelow Arm.mmu 2) virt size →
        (Exact (fun fuel root => Arm.mapMemory P .three root virt base size device .granular fuel) Arm.mmu
          (Arm.Segment .three virt) 1 virt base size st root ↔
            ∃ next, Arm.decode 1 (st.mem root (Arm.mmu.index 1 virt)) = .table next))) :=
  ⟨Aarch64.mapMemory_fillsExactly_iff P device entry hvirt hbase hsize hpos, fun hlt hend hlimit =>
    ⟨Arm.mapMemory_fillsExactly_iff P split device entry hvirt hbase hsize hpos hlt hend hlimit,
      fun hkernel hwin _ _ _ hstart =>
        Arm.mapMemory_recursive_iff P device hkernel hvirt hbase hsize hpos hend hlimit hwin hstart⟩⟩

/-- A page: with the recursive entry of the start code, the new table of an empty section shows up in the window. -/
theorem mapMemory_granular_exact_page :
    FillsExactly (fun fuel root => Aarch64.mapMemory .dev root 0x1ff000 0x3000 0x1000 false .granular fuel)
        Aarch64.mmu Aarch64.physLimit Aarch64.format.zero none (Aarch64.Segment 0x1ff000) (tablesBelow Aarch64.mmu 3) 3
        0x1ff000 0x3000 0x1000 ∧
      FillsExactly (fun fuel root => Arm.mapMemory .dev .three root 0xc01ff000 0x3000 0x1000 false .granular fuel)
        (Arm.hardware .three 0xc01ff000) Arm.physLimit Arm.format.zero (some Arm.recursiveEntry)
        (Arm.Segment .three 0xc01ff000) (tablesBelow Arm.mmu 2) (Arm.firstHeight .three 0xc01ff000) 0xc01ff000 0x3000
        0x1000 ∧
      ¬ Exact (fun fuel root => Arm.mapMemory .dev .three root 0xc01ff000 0x3000 0x1000 false .granular fuel) Arm.mmu
        (Arm.Segment .three 0xc01ff000) 1 0xc01ff000 0x3000 0x1000
        (Arm.setupRecursiveMapping 0 (emptyState Arm.format.zero (tablesBelow Arm.mmu 2))) 0 := by
  have hvis : Avoids Arm.mmu 1 (some Arm.recursiveEntry) 0xc01ff000 0x1000 := by
    intro v hlo hhi hi
    have hindex : v / 2097152 % 512 * 2 = 1020 := Option.some.inj hi
    omega
  have hs : Sound Arm.mmu Arm.physLimit (emptyState Arm.format.zero (tablesBelow Arm.mmu 2)) 1 0 {0} :=
    emptyState_sound Arm.lawful (by decide) 1
  refine ⟨((mapMemory_granular_exact_iff .dev .three false none (by decide) (by decide) (by decide) (by decide)).1
      (by decide) (by decide)).2 ⟨by decide, avoids_none⟩,
    ((mapMemory_granular_exact_iff .dev .three false (some Arm.recursiveEntry) (by decide) (by decide) (by decide)
      (by decide)).2 (by decide) (by decide) (by decide)).1.2 ⟨by decide, hvis, by decide⟩, ?_⟩
  intro hexact
  have hptr := (((mapMemory_granular_exact_iff .dev .three false none (by decide) (by decide) (by decide)
    (by decide)).2 (by decide) (by decide) (by decide)).2 (by decide) (by decide) _ _ _
    (Arm.recursiveStart_setup hs (by decide) rfl (by decide) hvis
      (fun v _ _ => emptyState_clearAt Arm.lawful _ 1 0 v) (emptyState_hasPages _ _))).1 hexact
  rcases hptr with ⟨next, hd⟩
  have hinvalid : Arm.decode 1 ((Arm.setupRecursiveMapping 0 (emptyState Arm.format.zero (tablesBelow Arm.mmu 2))).mem 0
      (Arm.mmu.index 1 0xc01ff000)) = .invalid := by
    decide
  rw [hinvalid] at hd
  cases hd

/-- Two pages on both sides of a multiple of 2 MiB. -/
theorem mapMemory_granular_crosses_section :
    ¬ FillsExactly (fun fuel root => Aarch64.mapMemory .dev root 0x1ff000 0x3000 0x2000 false .granular fuel)
      Aarch64.mmu Aarch64.physLimit Aarch64.format.zero none (Aarch64.Segment 0x1ff000) (tablesBelow Aarch64.mmu 3) 3
      0x1ff000 0x3000 0x2000 := by
  intro hexact
  have hwin := (Aarch64.mapMemory_fillsExactly_iff .dev false none (by decide) (by decide) (by decide) (by decide)
    (by decide) (by decide)).1 hexact
  exact absurd hwin.1 (by decide)

end Propeller
