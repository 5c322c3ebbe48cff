import Mathlib.Algebra.Ring.Parity
import Propeller.Mm.Buddy.Contract
import Propeller.Mm.Buddy.Sizing

/-!
# Buddy.Tiles — the blocks of a new allocator

`init_metadata` cuts every available range into blocks and adds them to the lists one after the other.  The blocks do
not depend on the state of the allocator: `tiles` lists them, and the loop is a sequence of calls of `add_to_list`
(`initRange_eq`, `initRanges_eq`).  So the lists of a new allocator are the blocks of a level in the order of the
calls, and a flag counts the blocks at its position.
-/

namespace Propeller
namespace Buddy

open Block

variable {A : Arch} {s s' : State} {l pn n fuel addr remaining : Nat} {B C : Block} {Bs : List Block}
  {L : Nat → List Nat} {avail : List MemoryRange}

/-! ## The sequence of blocks -/

/-- The calls of `add_to_list` for some blocks, one after the other. -/
def insertAll (A : Arch) : List Block → State → Run State
  | [], s => .ok s
  | B :: Bs, s => do
      let s ← addToList A s B.level (addrOf B)
      insertAll A Bs s

/-- The blocks that are cut from `n` pages from the page `pn` on. -/
def tiles (A : Arch) : Nat → Nat → Nat → List Block
  | 0, _, _ => []
  | fuel + 1, pn, n =>
      if n = 0 then []
      else ⟨tileLevel A pn n, pn⟩ :: tiles A fuel (pn + 2 ^ tileLevel A pn n) (n - 2 ^ tileLevel A pn n)

def rangeTiles (A : Arch) (r : MemoryRange) : List Block :=
  tiles A (r.size / pageSize + 1) (r.base / pageSize) (r.size / pageSize)

/-- The blocks of all ranges, in the order in which they are added. -/
def allTiles (A : Arch) (avail : List MemoryRange) : List Block :=
  avail.flatMap (rangeTiles A)

/-- The addresses of the blocks of a level. -/
def addrsAt (l : Nat) (Bs : List Block) : List Nat :=
  (Bs.filter (·.level = l)).map addrOf

theorem insertAll_append (A : Arch) (Bs Cs : List Block) (s : State) :
    insertAll A (Bs ++ Cs) s = insertAll A Bs s >>= insertAll A Cs := by
  induction Bs generalizing s with
  | nil => rfl
  | cons B Bs ih =>
      rw [List.cons_append, insertAll, insertAll]
      cases addToList A s B.level (addrOf B) with
      | error e => rfl
      | ok s₁ => exact ih s₁

theorem two_pow_tileLevel_le (hn : 0 < n) (hn' : n < A.wordLimit) : 2 ^ tileLevel A pn n ≤ n := by
  have hlog : floorLog2 A n = n.log2 := floorLog2_eq hn'
  refine (Nat.pow_le_pow_right (by decide) (min_le_left _ _)).trans ?_
  rw [hlog]
  exact Nat.log2_self_le hn.ne'

/-- The loop of `init_metadata` for a range adds the tiles of the range. -/
theorem initRange_eq (hdvd : pageSize ∣ addr) (hlt : addr + remaining < A.wordLimit)
    (hfuel : remaining / pageSize < fuel) (s : State) :
    initRange A fuel addr remaining s = insertAll A (tiles A fuel (addr / pageSize) (remaining / pageSize)) s := by
  induction fuel generalizing addr remaining s with
  | zero => exact absurd hfuel (Nat.not_lt_zero _)
  | succ fuel ih =>
      rw [initRange, tiles]
      rcases Nat.lt_or_ge remaining pageSize with hless | hmore
      · rw [if_pos hless, if_pos (Nat.div_eq_of_lt hless)]
        rfl
      · have hpages := Nat.div_pos hmore pageSize_pos
        -- The source counts in bytes and shifts, the tiles are counted in pages.
        have hshift : ∀ x, x >>> pageShift = x / pageSize := fun x => Nat.shiftRight_eq_div_pow x pageShift
        have hsize : ∀ k, (1 <<< k) <<< pageShift = 2 ^ k * pageSize := by
          intro k
          rw [Nat.one_shiftLeft, Nat.shiftLeft_eq]
          rfl
        have hfit : 2 ^ tileLevel A (addr / pageSize) (remaining / pageSize) ≤ remaining / pageSize :=
          two_pow_tileLevel_le hpages ((Nat.div_le_self _ _).trans_lt (by omega))
        rw [if_neg (Nat.not_lt.mpr hmore), if_neg hpages.ne', insertAll]
        have htile : min (floorLog2 A (remaining / pageSize))
            (min (floorLog2 A (leastSignificantBit A (addr / pageSize))) (BLOCK_LEVELS - 1)) =
              tileLevel A (addr / pageSize) (remaining / pageSize) := rfl
        simp only [hshift, hsize, htile]
        clear htile
        generalize tileLevel A (addr / pageSize) (remaining / pageSize) = lev at *
        have haddr : addrOf ⟨lev, addr / pageSize⟩ = addr := Nat.div_mul_cancel hdvd
        have hblock : 2 ^ lev * pageSize ≤ remaining :=
          (Nat.mul_le_mul_right pageSize hfit).trans (Nat.div_mul_le_self _ _)
        rw [haddr]
        -- The same block is added on both sides, and the rest is the induction.
        refine congrArg _ (funext fun s₁ => ?_)
        have hpage : (addr + 2 ^ lev * pageSize) / pageSize = addr / pageSize + 2 ^ lev :=
          Nat.add_mul_div_right _ _ pageSize_pos
        have hleft : (remaining - 2 ^ lev * pageSize) / pageSize = remaining / pageSize - 2 ^ lev := by
          rw [Nat.mul_comm, Nat.sub_mul_div]
        have hpos : 0 < 2 ^ lev := Nat.two_pow_pos lev
        rw [checkedAdd_of_lt (by omega), run_ok_bind, checkedSub_of_le hblock, run_ok_bind,
          ih (Nat.dvd_add hdvd (Nat.dvd_mul_left _ _)) (by omega) (by omega), hpage, hleft]

theorem initRanges_eq (havail : ∀ r ∈ avail, pageSize ∣ r.base ∧ r.base + r.size < A.wordLimit) (s : State) :
    initRanges A avail s = insertAll A (allTiles A avail) s := by
  induction avail generalizing s with
  | nil => rfl
  | cons r rs ih =>
      have hr := havail r List.mem_cons_self
      have hshift : r.size >>> pageShift = r.size / pageSize := Nat.shiftRight_eq_div_pow _ _
      rw [initRanges, hshift, initRange_eq hr.1 hr.2 (Nat.lt_succ_self _), allTiles, List.flatMap_cons, insertAll_append]
      exact congrArg _ (funext fun s₁ => ih (fun q hq => havail q (List.mem_cons_of_mem r hq)) s₁)

/-! ## The blocks -/

/-- The tiles of `n` pages: aligned blocks, one behind the other, from the first page to the last. -/
theorem tiles_spec (hpn : 0 < pn) (hlt : pn + n < A.wordLimit) (hfuel : n < fuel) :
    (∀ B ∈ tiles A fuel pn n, B.level < BLOCK_LEVELS ∧ B.Aligned ∧ pn ≤ B.page ∧ B.page + 2 ^ B.level ≤ pn + n) ∧
      (tiles A fuel pn n).Pairwise (fun B C => B.page + 2 ^ B.level ≤ C.page) ∧
      ∀ p, pn ≤ p → p < pn + n → ∃ B ∈ tiles A fuel pn n, p ∈ B.pages := by
  induction fuel generalizing pn n with
  | zero => exact absurd hfuel (Nat.not_lt_zero n)
  | succ fuel ih =>
      rw [tiles]
      rcases Nat.eq_zero_or_pos n with rfl | hn
      · rw [if_pos rfl]
        refine ⟨by simp, List.Pairwise.nil, fun p hlo hhi => absurd hhi (by omega)⟩
      · -- The first block is as large as the alignment and the length allow.
        rcases tileLevel_spec (A := A) hpn (by omega) hn (by omega) with ⟨hlevel, haligned, hfit, -⟩
        rw [if_neg hn.ne']
        generalize tileLevel A pn n = lev at *
        have hpos : 0 < 2 ^ lev := Nat.two_pow_pos lev
        have hstop : pn + 2 ^ lev + (n - 2 ^ lev) = pn + n := by omega
        rcases @ih (pn + 2 ^ lev) (n - 2 ^ lev) (by omega) (by omega) (by omega) with ⟨hblocks, hsorted, hall⟩
        rw [hstop] at hblocks hall
        refine ⟨?_, List.pairwise_cons.mpr ⟨fun C hC => (hblocks C hC).2.2.1, hsorted⟩, ?_⟩
        · intro B hB
          rcases List.mem_cons.mp hB with rfl | hB
          · exact ⟨hlevel, haligned, le_rfl, Nat.add_le_add_left hfit pn⟩
          · rcases hblocks B hB with ⟨hl, hal, hlo, hhi⟩
            exact ⟨hl, hal, by omega, hhi⟩
        · intro p hlo hhi
          rcases Nat.lt_or_ge p (pn + 2 ^ lev) with hfirst | hrest
          · exact ⟨_, List.mem_cons_self, hlo, hfirst⟩
          · rcases hall p hrest hhi with ⟨B, hB, hp⟩
            exact ⟨B, List.mem_cons_of_mem _ hB, hp⟩

/-! ## The flags -/

/-- A bit of the flag words. -/
def bitAt (s : State) (i b : Nat) : Bool :=
  (s.flags.getD i 0).testBit b

/-- The word and the bit of a block's flag. -/
def flagPosition (A : Arch) (base size l a : Nat) : Nat × Nat :=
  ((levelStart A size l).2 + pairNumber base l a / A.wordBits, pairNumber base l a % A.wordBits)

theorem getFlagIndexAndBit_eq_position {a : Nat} (hg : Geometry A s) (ha : s.base ≤ a) :
    getFlagIndexAndBit A s a l = .ok (flagPosition A s.base s.size l a) := by
  rw [getFlagIndexAndBit_eq ha, hg.offset]
  rfl

/-- Adding a block toggles the bit at its position and no other. -/
theorem bitAt_addToList {a : Nat} (hg : Geometry A s) (h : addToList A s l a = .ok s') (i b : Nat) :
    bitAt s' i b = (bitAt s i b ^^ decide (flagPosition A s.base s.size l a = (i, b))) := by
  rcases addToList_eq_ok.mp h with ⟨-, -, hflag, s₁, hlink, rfl⟩
  have hframe := (linkBlock_frame hlink).1
  have hword : (s₁.levels l).offset + blockNum s a l / 2 / A.wordBits = (flagPosition A s.base s.size l a).1 := by
    rw [hframe.offset, hg.offset]
    rfl
  have hlt : (flagPosition A s.base s.size l a).1 < s.flags.length := by
    rw [← hword, hframe.offset]
    exact hflag
  simp only [bitAt, flagged, toggled, hword, hframe.flags, List.getD_eq_getElem?_getD, List.getElem?_set]
  by_cases hi : (flagPosition A s.base s.size l a).1 = i
  · subst hi
    rw [if_pos rfl, if_pos hlt, Option.getD_some, Nat.testBit_xor, Nat.one_shiftLeft, Nat.testBit_two_pow]
    congr 1
    rw [decide_eq_decide]
    exact ⟨fun hb => Prod.ext rfl hb, fun hpos => congrArg Prod.snd hpos⟩
  · rw [if_neg hi, decide_eq_false fun hpos => hi (congrArg Prod.fst hpos), Bool.xor_false]

theorem decide_odd_add_one (n : Nat) : decide (Odd (n + 1)) = !decide (Odd n) := by
  rw [← decide_not, decide_eq_decide, Nat.odd_add_one]

theorem addrsAt_cons (B : Block) (Bs : List Block) (l : Nat) :
    addrsAt l (B :: Bs) = if B.level = l then addrOf B :: addrsAt l Bs else addrsAt l Bs := by
  by_cases h : B.level = l <;> simp [addrsAt, h]

/-- A block that can be added: aligned, in the area, not page zero. -/
structure Addable (s : State) (B : Block) : Prop where
  level_lt : B.level < BLOCK_LEVELS
  aligned : B.Aligned
  inside : Inside s B
  page_ne : B.page ≠ 0

/-- Blocks that share no page with each other and with the lists can be added, and each goes to the end of its list. -/
theorem insertAll_spec (h : Consistent A s L) (hadd : ∀ B ∈ Bs, Addable s B)
    (hpair : Bs.Pairwise fun B C => ∀ p, p ∈ B.pages → p ∉ C.pages)
    (hapart : ∀ B ∈ Bs, ∀ C ∈ blocksOf L, ∀ p, p ∈ B.pages → p ∉ C.pages) :
    ∃ s', insertAll A Bs s = .ok s' ∧ SameTotals s s' ∧ Consistent A s' (fun l => L l ++ addrsAt l Bs) ∧
      ∀ i b, bitAt s' i b = (bitAt s i b ^^
        decide (Odd (Bs.countP fun B => flagPosition A s.base s.size B.level (addrOf B) = (i, b)))) := by
  -- Block by block; a flag is toggled once for each block of its pair.
  induction Bs generalizing s L with
  | nil => exact ⟨s, rfl, ⟨rfl, rfl, rfl, rfl⟩, by simpa [addrsAt] using h, by simp⟩
  | cons B Bs ih =>
      have hB := hadd B List.mem_cons_self
      rcases List.pairwise_cons.mp hpair with ⟨hfirst, hrest⟩
      rcases h.add ⟨hB.aligned, hB.inside.1, hapart B List.mem_cons_self⟩ hB.level_lt hB.inside hB.page_ne with
        ⟨s₁, hrun, hsame, hcons⟩
      have hadd₁ : ∀ C ∈ Bs, Addable s₁ C := by
        intro C hC
        have hC' := hadd C (List.mem_cons_of_mem B hC)
        exact ⟨hC'.level_lt, hC'.aligned, hsame.inside.mpr hC'.inside, hC'.page_ne⟩
      have hapart₁ : ∀ C ∈ Bs, ∀ D ∈ blocksOf (Function.update L B.level (L B.level ++ [addrOf B])), ∀ p,
          p ∈ C.pages → p ∉ D.pages := by
        intro C hC D hD p hp
        rw [blocksOf_append hB.level_lt] at hD
        rcases hD with rfl | hD
        · exact fun hpD => hfirst C hC p hpD hp
        · exact hapart C (List.mem_cons_of_mem B hC) D hD p hp
      rcases ih hcons hadd₁ hrest hapart₁ with ⟨s', hrun', hsame', hcons', hbits⟩
      refine ⟨s', ?_, hsame.trans hsame', ?_, fun i b => ?_⟩
      · rw [insertAll, hrun, run_ok_bind, hrun']
      · have hlists : (fun l => Function.update L B.level (L B.level ++ [addrOf B]) l ++ addrsAt l Bs) =
            fun l => L l ++ addrsAt l (B :: Bs) := by
          funext l
          rw [addrsAt_cons]
          split
          next heq =>
            subst heq
            rw [Function.update_self, List.append_assoc, List.singleton_append]
          next hne => rw [Function.update_of_ne (Ne.symm hne)]
        rwa [hlists] at hcons'
      · rw [hbits, bitAt_addToList h.books.geometry hrun, hsame.base, hsame.size, List.countP_cons, Bool.xor_assoc]
        congr 1
        by_cases hpos : flagPosition A s.base s.size B.level (addrOf B) = (i, b)
        · rw [decide_eq_true hpos, if_pos rfl, decide_odd_add_one, Bool.true_xor]
        · simp [hpos]

/-! ## All ranges -/

/-- The available ranges of an area: bases at pages other than zero, all whole pages in the area. -/
structure RangePlaced (A : Arch) (s : State) (r : MemoryRange) : Prop where
  page_pos : 0 < r.base / pageSize
  lower : s.basePage ≤ r.base / pageSize
  upper : r.base / pageSize + r.size / pageSize ≤ s.basePage + s.size / pageSize
  limit : r.base + r.size < A.wordLimit

theorem RangePlaced.tiles_spec {r : MemoryRange} (h : RangePlaced A s r) :
    (∀ B ∈ rangeTiles A r, Addable s B ∧ B.pages ⊆ rangePages r) ∧
      (rangeTiles A r).Pairwise (fun B C => ∀ p, p ∈ B.pages → p ∉ C.pages) ∧
      ∀ p ∈ rangePages r, ∃ B ∈ rangeTiles A r, p ∈ B.pages := by
  have hlt : r.base / pageSize + r.size / pageSize < A.wordLimit :=
    (Nat.add_le_add (Nat.div_le_self _ _) (Nat.div_le_self _ _)).trans_lt h.limit
  rcases Buddy.tiles_spec h.page_pos hlt (Nat.lt_succ_self _) with ⟨hblocks, hsorted, hall⟩
  have hlower := h.lower
  have hupper := h.upper
  refine ⟨fun B hB => ?_, hsorted.imp fun hle p hp hp' => ?_, fun p hp => hall p hp.1 hp.2⟩
  · rcases hblocks B hB with ⟨hl, hal, hlo, hhi⟩
    have hpos := h.page_pos
    exact ⟨⟨hl, hal, ⟨hlower.trans hlo, hhi.trans hupper⟩, by omega⟩, fun p hp => ⟨hlo.trans hp.1, hp.2.trans_le hhi⟩⟩
  · have hlt := hp.2
    have hge := hp'.1
    omega

theorem allTiles_spec (hplaced : ∀ r ∈ avail, RangePlaced A s r)
    (hdisj : avail.Pairwise fun r r' => Disjoint (rangePages r) (rangePages r')) :
    (∀ B ∈ allTiles A avail, Addable s B) ∧
      (allTiles A avail).Pairwise (fun B C => ∀ p, p ∈ B.pages → p ∉ C.pages) ∧
      ∀ p, (∃ B ∈ allTiles A avail, p ∈ B.pages) ↔ p ∈ availPages avail := by
  refine ⟨fun B hB => ?_, ?_, fun p => ⟨?_, ?_⟩⟩
  · rcases List.mem_flatMap.mp hB with ⟨r, hr, hB⟩
    exact ((hplaced r hr).tiles_spec.1 B hB).1
  · rw [allTiles, List.pairwise_flatMap]
    refine ⟨fun r hr => (hplaced r hr).tiles_spec.2.1, hdisj.imp_of_mem fun {r r'} hr hr' hsep B hB C hC p hp hp' => ?_⟩
    have hleft := ((hplaced r hr).tiles_spec.1 B hB).2 hp
    have hright := ((hplaced r' hr').tiles_spec.1 C hC).2 hp'
    exact Set.disjoint_left.mp hsep hleft hright
  · rintro ⟨B, hB, hp⟩
    rcases List.mem_flatMap.mp hB with ⟨r, hr, hB⟩
    exact ⟨r, hr, ((hplaced r hr).tiles_spec.1 B hB).2 hp⟩
  · rintro ⟨r, hr, hp⟩
    rcases (hplaced r hr).tiles_spec.2.2 p hp with ⟨B, hB, hpB⟩
    exact ⟨B, List.mem_flatMap.mpr ⟨r, hr, hB⟩, hpB⟩

/-! ## A new allocator -/

/-- A construction that is neither refused nor stopped by its arithmetic has passed the checks of the code. -/
theorem new_accepts {cfg : KernelConfig} {base size metadata : Nat} {mem : Nat → BlockNode}
    (hnone : new A cfg base size metadata avail mem ≠ .ok none)
    (harith : new A cfg base size metadata avail mem ≠ .error .overflow) :
    base + size < A.wordLimit ∧ alignedBase base < base + size ∧ (∀ r ∈ avail, 0 < r.size ∧ InArea base size r) ∧
      ∃ freeMem, new A cfg base size metadata avail mem =
        initRanges A avail (emptyArea A (alignedBase base) (alignedSize base size) 0 freeMem mem) >>= fun s =>
          pure (some s) := by
  have hover : ¬ AreaOverflows A cfg base size := fun h => harith (new_overflows h)
  have hvalid : ¬ (getMaximumPhysicalAddress A cfg < base ∨
      0 < size ∧ getMaximumPhysicalAddress A cfg < base + (size - 1)) :=
    fun h => hnone (new_eq_none_of_invalid h)
  have hbase : base ≤ getMaximumPhysicalAddress A cfg := by omega
  have hpos : 0 < size := Nat.pos_of_ne_zero fun h => hover ⟨hbase, Or.inl h⟩
  have hfits : base + size < A.wordLimit ∧ alignedBase base < base + size := by
    by_contra hcon
    refine hover ⟨hbase, Or.inr ⟨by omega, ?_⟩⟩
    omega
  have hnew := new_of_area metadata avail mem hpos (by omega) hover
  -- What is excluded: no metadata or no ranges, an overflow of the counter, a range outside of the area.
  split at hnew
  next => exact absurd hnew hnone
  next =>
    rcases hcheck : checkRanges A (alignedBase base) (base + size - 1) avail 0 with e | _ | freeMem
    · have he : e = .overflow := by
        by_contra hne
        exact checkRanges_ne_error hne hcheck
      rw [hcheck, he] at hnew
      exact absurd hnew harith
    · rw [hcheck] at hnew
      exact absurd hnew hnone
    · rw [hcheck, run_ok_bind] at hnew
      refine ⟨hfits.1, hfits.2, fun r hr => ?_, freeMem, hnew⟩
      rcases (checkRanges_spec hcheck).2.2 r hr with ⟨hsize, hlo, hhi⟩
      exact ⟨hsize, hlo, by omega⟩

/-- The blocks on the lists of a new allocator. -/
structure InitialTiling (A : Arch) (s : State) (avail : List MemoryRange) (L : Nat → List Nat) : Prop where
  circular : ∀ l < BLOCK_LEVELS, ListAt A s l (L l)
  aligned : ∀ l < BLOCK_LEVELS, ∀ a ∈ L l, 2 ^ l * pageSize ∣ a
  disjoint : ∀ B ∈ blocksOf L, ∀ C ∈ blocksOf L, B ≠ C → Disjoint B.pages C.pages
  cover : cover (blocksOf L) = availPages avail
  /-- A bit of the words of a level is the parity of the blocks of the level at its position. -/
  flags : ∀ l < BLOCK_LEVELS, ∀ i, (levelStart A s.size l).2 ≤ i → i < (levelStart A s.size (l + 1)).2 → ∀ b,
    bitAt s i b = true ↔ Odd ((L l).countP fun a => getFlagIndexAndBit A s a l = .ok (i, b))

theorem mem_blocksOf_addrsAt (hlevel : ∀ B ∈ Bs, B.level < BLOCK_LEVELS) :
    B ∈ blocksOf (fun l => addrsAt l Bs) ↔ B ∈ Bs := by
  constructor
  · rintro ⟨-, a, ha, hB⟩
    rcases List.mem_map.mp ha with ⟨C, hC, rfl⟩
    rcases List.mem_filter.mp hC with ⟨hC, hl⟩
    rw [← of_decide_eq_true hl, blockAt_addrOf] at hB
    exact hB ▸ hC
  · intro hB
    refine ⟨hlevel B hB, addrOf B, List.mem_map.mpr ⟨B, ?_, rfl⟩, (blockAt_addrOf B).symm⟩
    exact List.mem_filter.mpr ⟨hB, decide_eq_true rfl⟩

/-- The blocks of the level `l` are those whose position is in the words of the level. -/
theorem level_eq_of_position {base size l i b : Nat} (hB : pairNumber base B.level (addrOf B) < pairCount size B.level)
    (hlo : (levelStart A size l).2 ≤ i) (hhi : i < (levelStart A size (l + 1)).2)
    (hpos : flagPosition A base size B.level (addrOf B) = (i, b)) : B.level = l := by
  have hword : (levelStart A size B.level).2 + pairNumber base B.level (addrOf B) / A.wordBits = i :=
    congrArg Prod.fst hpos
  have hlt := pair_word_lt A hB
  have hle : (levelStart A size B.level).2 ≤ i := hword ▸ Nat.le_add_right _ _
  rcases Nat.lt_trichotomy B.level l with h | h | h
  · have hmono := levelStart_snd_mono A size (show B.level + 1 ≤ l from h)
    omega
  · exact h
  · have hmono := levelStart_snd_mono A size (show l + 1 ≤ B.level from h)
    omega

theorem countP_addrsAt (hbase : pageSize ∣ s.base) (hg : Geometry A s) (hin : ∀ B ∈ Bs, Inside s B) {i b : Nat}
    (hlo : (levelStart A s.size l).2 ≤ i) (hhi : i < (levelStart A s.size (l + 1)).2) :
    (addrsAt l Bs).countP (fun a => getFlagIndexAndBit A s a l = .ok (i, b)) =
      Bs.countP fun B => flagPosition A s.base s.size B.level (addrOf B) = (i, b) := by
  rw [addrsAt, List.countP_map, List.countP_filter]
  refine List.countP_congr fun B hB => ?_
  have hle : s.base ≤ addrOf B := base_le_addrOf hbase (hin B hB)
  have hpair : pairNumber s.base B.level (addrOf B) < pairCount s.size B.level := by
    rw [show pairNumber s.base B.level (addrOf B) = blockNum s (addrOf B) B.level / 2 from rfl, blockNum_addrOf hbase]
    exact (hin B hB).pair_lt
  simp only [Function.comp, getFlagIndexAndBit_eq_position hg hle, Bool.and_eq_true, decide_eq_true_eq]
  constructor
  · rintro ⟨hpos, rfl⟩
    exact Except.ok.inj hpos
  · intro hpos
    have hl := level_eq_of_position hpair hlo hhi hpos
    exact ⟨congrArg Except.ok (hl ▸ hpos), hl⟩

theorem bitAt_emptyArea (base size allocMem freeMem : Nat) (mem : Nat → BlockNode) (i b : Nat) :
    bitAt (emptyArea A base size allocMem freeMem mem) i b = false := by
  have hzero : (emptyArea A base size allocMem freeMem mem).flags.getD i 0 = 0 := by
    rw [List.getD_eq_getElem?_getD, emptyArea, List.getElem?_replicate]
    split <;> rfl
  rw [bitAt, hzero, Nat.zero_testBit]

/-- Adding the tiles to an empty area gives the initial tiling. -/
theorem insertAll_tiling {base size freeMem : Nat} {mem : Nat → BlockNode} (hbase : pageSize ∣ base)
    (hlim : base + size < A.wordLimit)
    (hplaced : ∀ r ∈ avail, RangePlaced A (emptyArea A base size 0 freeMem mem) r)
    (hdisj : avail.Pairwise fun r r' => Disjoint (rangePages r) (rangePages r')) :
    ∃ s, insertAll A (allTiles A avail) (emptyArea A base size 0 freeMem mem) = .ok s ∧
      InitialTiling A s avail (fun l => addrsAt l (allTiles A avail)) := by
  rcases allTiles_spec hplaced hdisj with ⟨hadd, hpair, hcover⟩
  have hempty := emptyArea_consistent (A := A) 0 freeMem mem hbase hlim
  have hapart : ∀ B ∈ allTiles A avail, ∀ C ∈ blocksOf (fun _ => []), ∀ p, p ∈ B.pages → p ∉ C.pages := by
    -- The lists are empty at first.
    rintro B - C ⟨-, a, ha, -⟩
    cases ha
  rcases insertAll_spec hempty hadd hpair hapart with ⟨s, hrun, hsame, hcons, hbits⟩
  simp only [List.nil_append] at hcons
  have hmem : ∀ B, B ∈ blocksOf (fun l => addrsAt l (allTiles A avail)) ↔ B ∈ allTiles A avail :=
    fun B => mem_blocksOf_addrsAt fun B hB => (hadd B hB).level_lt
  refine ⟨s, hrun, hcons.lists, fun l hl a ha => ?_, fun B hB C hC hne => ?_, ?_, fun l hl i hlo hhi b => ?_⟩
  · rcases (hcons.lists l hl).page_dvd ha with ⟨q, rfl⟩
    have hblock := hcons.tiling.aligned _ (blockAt_mem_blocksOf hl ha)
    rw [Aligned, blockAt, Nat.mul_div_cancel_left _ pageSize_pos] at hblock
    rw [Nat.mul_comm]
    exact Nat.mul_dvd_mul_left pageSize hblock
  · refine Set.disjoint_left.mpr fun p hp hp' => hne ?_
    exact hcons.tiling.disjoint B hB C hC p hp hp'
  · ext p
    rw [mem_cover, ← hcover p]
    simp only [hmem]
  · have hin : ∀ B ∈ allTiles A avail, Inside s B := fun B hB => hsame.inside.mpr (hadd B hB).inside
    rw [countP_addrsAt hcons.books.base_dvd hcons.books.geometry hin hlo hhi, hbits, bitAt_emptyArea, Bool.false_xor,
      decide_eq_true_eq, hsame.base, hsame.size]

/-- For every accepted construction with disjoint ranges at pages other than zero, `init_metadata` adds the tiles of
the ranges to empty lists one after the other, the list of a level has its tiles in that order, and the blocks tile
the whole pages of the ranges. -/
theorem new_initialTiling (A : Arch) (cfg : KernelConfig) (base size metadata : Nat) (avail : List MemoryRange)
    (mem : Nat → BlockNode) (hnone : new A cfg base size metadata avail mem ≠ .ok none)
    (harith : new A cfg base size metadata avail mem ≠ .error .overflow) (hdisj : DisjointRanges avail)
    (hpages : ∀ r ∈ avail, pageSize ∣ r.base ∧ r.base ≠ 0) :
    ∃ s start, new A cfg base size metadata avail mem = .ok (some s) ∧ (∀ l, start.head l = 0) ∧
      initRanges A avail start = .ok s ∧ insertAll A (allTiles A avail) start = .ok s ∧
      InitialTiling A s avail (fun l => addrsAt l (allTiles A avail)) := by
  rcases new_accepts hnone harith with ⟨hlim, hlt, hranges, freeMem, hnew⟩
  have hdvd : pageSize ∣ alignedBase base := Nat.dvd_mul_left _ _
  have hsize : alignedSize base size ≤ base + size - alignedBase base := Nat.div_mul_le_self _ _
  -- The base is rounded down to a page, so a range of whole pages in the area is one in the rounded area.
  have hplaced : ∀ r ∈ avail, RangePlaced A (emptyArea A (alignedBase base) (alignedSize base size) 0 freeMem mem) r := by
    intro r hr
    rcases hpages r hr with ⟨⟨m, hm⟩, hne⟩
    rcases (hranges r hr).2 with ⟨hlo, hhi⟩
    refine ⟨Nat.div_pos (Nat.le_of_dvd (Nat.pos_of_ne_zero hne) ⟨m, hm⟩) pageSize_pos, Nat.div_le_div_right hlo, ?_,
      hhi.trans_lt hlim⟩
    have hpage : pageSize = 4096 := rfl
    simp only [State.basePage, emptyArea, alignedSize]
    rcases hdvd with ⟨q, hq⟩
    rw [hpage] at hm hq ⊢
    omega
  rcases insertAll_tiling hdvd (by omega) hplaced hdisj.pages with ⟨s, hrun, htiling⟩
  have hinit := initRanges_eq (A := A) (fun r hr => ⟨(hpages r hr).1, (hplaced r hr).limit⟩)
    (emptyArea A (alignedBase base) (alignedSize base size) 0 freeMem mem)
  rw [hinit, hrun, run_ok_bind] at hnew
  exact ⟨s, _, hnew, fun l => rfl, hinit.trans hrun, hrun, htiling⟩

/-- Nine pages from an odd page on, and a range with a part of a page at its end. -/
theorem new_initialTiling_two_ranges :
    ∃ s start, new .aarch64 kernelAt80000 0x100000 0x10000 0x200000 [⟨0x101000, 0x9000⟩, ⟨0x10c000, 0x3800⟩]
        (fun _ => ⟨0, 0, 0⟩) = .ok (some s) ∧ (∀ l, start.head l = 0) ∧
      initRanges .aarch64 [⟨0x101000, 0x9000⟩, ⟨0x10c000, 0x3800⟩] start = .ok s ∧
      insertAll .aarch64 [⟨0, 0x101⟩, ⟨1, 0x102⟩, ⟨2, 0x104⟩, ⟨1, 0x108⟩, ⟨1, 0x10c⟩, ⟨0, 0x10e⟩] start = .ok s ∧
      InitialTiling .aarch64 s [⟨0x101000, 0x9000⟩, ⟨0x10c000, 0x3800⟩]
        (fun l => addrsAt l [⟨0, 0x101⟩, ⟨1, 0x102⟩, ⟨2, 0x104⟩, ⟨1, 0x108⟩, ⟨1, 0x10c⟩, ⟨0, 0x10e⟩]) := by
  rcases accepted_of_isSome (x := new .aarch64 kernelAt80000 0x100000 0x10000 0x200000
    [⟨0x101000, 0x9000⟩, ⟨0x10c000, 0x3800⟩] (fun _ => ⟨0, 0, 0⟩)) (by decide +kernel) with ⟨s, hs⟩
  have htiles : allTiles .aarch64 [⟨0x101000, 0x9000⟩, ⟨0x10c000, 0x3800⟩] =
      [⟨0, 0x101⟩, ⟨1, 0x102⟩, ⟨2, 0x104⟩, ⟨1, 0x108⟩, ⟨1, 0x10c⟩, ⟨0, 0x10e⟩] := by decide +kernel
  have htiling := new_initialTiling .aarch64 kernelAt80000 0x100000 0x10000 0x200000
    [⟨0x101000, 0x9000⟩, ⟨0x10c000, 0x3800⟩] (fun _ => ⟨0, 0, 0⟩) (by simp [hs]) (by simp [hs])
    (by rw [DisjointRanges]; decide) (by decide)
  rwa [htiles] at htiling

end Buddy
end Propeller
