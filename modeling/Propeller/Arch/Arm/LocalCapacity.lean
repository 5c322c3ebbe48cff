import Propeller.Arch.Arm.LocalMappings

/-!
# Arch.Arm.LocalCapacity — how many pages a task can map

The table of a core has 512 entries, and every mapping takes one, also that of a page in linear memory.
`map_page` stops the kernel at the limit for a page in high memory only; a page in linear memory is counted without
a look at the limit.  `unmap_page` then reads past the table.
-/

namespace Propeller
namespace Arm

open Cpu (MAX_CORES)

/-! ## The runs of a task -/

/-- A call and the core that the task runs on; a task without a page in high memory may change the core. -/
abbrev TaskCall : Type := Nat × LocalCall

def taskCall (P : Profile) (cfg : LocalConfig) (c : TaskCall) (s : LocalState) : Run LocalState :=
  match c.2 with
  | .mapPage pageAddr => do
      let (_, t) ← mapPage P cfg c.1 pageAddr s
      return t
  | .unmapPage => unmapPage P cfg c.1 s

def runTask (P : Profile) (cfg : LocalConfig) : List TaskCall → LocalState → Run LocalState
  | [], s => .ok s
  | c :: calls, s => do
      let t ← taskCall P cfg c s
      runTask P cfg calls t

def Panics {α : Type} (x : Run α) : Prop :=
  ∃ e, x = .error e

/-- What the documentation says of a call with `n` live mappings. -/
def CallWithinCapacity (P : Profile) (cfg : LocalConfig) (n : Nat) (c : TaskCall) (s : LocalState) : Prop :=
  match c.2 with
  | .mapPage pageAddr => Panics (mapPage P cfg c.1 pageAddr s) ↔ n = 512
  | .unmapPage => ¬ Panics (unmapPage P cfg c.1 s)

/-- Every call that the run reaches does what the documentation says, with `n` live mappings at the start. -/
def WithinCapacity (P : Profile) (cfg : LocalConfig) (n : Nat) (calls : List TaskCall) (s : LocalState) : Prop :=
  ∀ p c, p ++ [c] <+: calls → ∀ t, runTask P cfg p s = .ok t →
    CallWithinCapacity P cfg (depth n (p.map (·.2))) c t

/-- No page in linear memory is mapped with 512 live mappings.  A page in high memory ends the run there. -/
def LinearBelowLimit (cfg : LocalConfig) : Nat → List TaskCall → Prop
  | _, [] => True
  | n, (_, .mapPage pageAddr) :: calls =>
      if n < 512 then LinearBelowLimit cfg (n + 1) calls
      else getHighMemBase cfg.split.virtualBase ≤ pageAddr
  | n, (_, .unmapPage) :: calls => LinearBelowLimit cfg (n - 1) calls

/-! ## One call -/

variable {P : Profile} {cfg : LocalConfig} {coreIdx localBase table pageAddr n : Nat} {s t : LocalState}
  {c : TaskCall} {calls : List TaskCall}

/-- A page in linear memory is only counted. -/
theorem mapPage_linear (hlow : pageAddr < getHighMemBase cfg.split.virtualBase)
    (hcount : s.context.mapCount + 1 < Arch.arm.wordLimit) :
    mapPage P cfg coreIdx pageAddr s =
      .ok (cfg.split.virtualBase + pageAddr, ⟨{ s.context with mapCount := s.context.mapCount + 1 }, s.mem⟩) := by
  have hsum := getHighMemBase_le cfg.split
  rw [mapPage, if_pos hlow, addWord_of_lt hcount, run_ok_bind, addWord_of_lt (by omega), run_ok_bind]
  rfl

theorem mapPage_high (hsec : CoreSection P cfg coreIdx localBase table)
    (hhigh : getHighMemBase cfg.split.virtualBase ≤ pageAddr) (hcount : s.context.mapCount < 512) :
    ∃ vaddr t, mapPage P cfg coreIdx pageAddr s = .ok (vaddr, t) ∧ t.context.mapCount = s.context.mapCount + 1 := by
  have hword : Arch.arm.wordLimit = 2 ^ 32 := rfl
  rcases mapPageLocal_spec hsec hcount pageAddr s.mem with ⟨mem', hmap, -⟩
  rw [mapPage, if_neg (Nat.not_lt.mpr hhigh), hsec.localBase_eq, run_ok_bind, hsec.table_eq, run_ok_bind, unwrap,
    run_ok_bind, hmap, run_ok_bind, addWord_of_lt (by omega)]
  exact ⟨_, _, rfl, rfl⟩

/-- The assertion of `map_page_local`. -/
theorem mapPage_high_limit (hsec : CoreSection P cfg coreIdx localBase table)
    (hhigh : getHighMemBase cfg.split.virtualBase ≤ pageAddr) (hcount : 512 ≤ s.context.mapCount) :
    mapPage P cfg coreIdx pageAddr s = .error .localMapping := by
  have hmax : maxLocalMappings = 512 := by decide
  rw [mapPage, if_neg (Nat.not_lt.mpr hhigh), hsec.localBase_eq, run_ok_bind, hsec.table_eq, run_ok_bind, unwrap,
    run_ok_bind, mapPageLocal, require, if_neg (by omega)]
  rfl

theorem mapPage_below_limit (hsec : CoreSection P cfg coreIdx localBase table) (pageAddr : Nat)
    (hcount : s.context.mapCount < 512) :
    ∃ vaddr t, mapPage P cfg coreIdx pageAddr s = .ok (vaddr, t) ∧ t.context.mapCount = s.context.mapCount + 1 := by
  have hword : Arch.arm.wordLimit = 2 ^ 32 := rfl
  rcases Nat.lt_or_ge pageAddr (getHighMemBase cfg.split.virtualBase) with hlow | hhigh
  · exact ⟨_, _, mapPage_linear hlow (by omega), rfl⟩
  · exact mapPage_high hsec hhigh hcount

/-- Whatever the table holds, the last entry of at most 512 can be taken off. -/
theorem unmapPage_below_limit (hsec : CoreSection P cfg coreIdx localBase table) (hcount : s.context.mapCount ≤ 512) :
    ∃ t, unmapPage P cfg coreIdx s = .ok t ∧ t.context.mapCount = s.context.mapCount - 1 := by
  rw [unmapPage]
  split
  next hzero => exact ⟨s, rfl, by omega⟩
  next hpos =>
    have hpage : (s.context.mapCount - 1) * pageSize = (s.context.mapCount - 1) * 4096 := rfl
    have hsection := sectionSize_eq
    have hfits := hsec.fits
    have hword : Arch.arm.wordLimit = 2 ^ 32 := rfl
    have hshift : (s.context.mapCount - 1) <<< pageShift % Arch.arm.wordLimit = (s.context.mapCount - 1) * pageSize := by
      rw [Nat.shiftLeft_eq, ← pageSize_eq, Nat.mod_eq_of_lt (by omega)]
    have hunmap : ∃ mem', unmapPageLocal P table localBase s.context.mapCount s.mem = .ok mem' := by
      rw [unmapPageLocal, require, if_pos (by omega), run_ok_bind]
      simp only [wordOf_entry table (show s.context.mapCount - 1 < 512 by omega), run_ok_bind]
      split
      next => exact ⟨_, rfl⟩
      next =>
        rw [hshift, addWord_of_lt (by omega), run_ok_bind]
        exact ⟨_, rfl⟩
    rcases hunmap with ⟨mem', hunmap⟩
    rw [hsec.localBase_eq, run_ok_bind, hsec.table_eq, run_ok_bind, unwrap, run_ok_bind, hunmap, run_ok_bind]
    exact ⟨_, rfl, rfl⟩

/-- With one mapping too many the index is past the table. -/
theorem unmapPage_past_limit (hsec : CoreSection P cfg coreIdx localBase table) (hcount : s.context.mapCount = 513) :
    unmapPage P cfg coreIdx s = .error .index := by
  rw [unmapPage, if_neg (by omega), hsec.localBase_eq, run_ok_bind, hsec.table_eq, run_ok_bind, unwrap, run_ok_bind,
    hcount]
  rfl

/-! ## A run -/

/-- A run does what the documentation says if its first call does and the rest of the run does. -/
theorem withinCapacity_cons :
    WithinCapacity P cfg n (c :: calls) s ↔ CallWithinCapacity P cfg n c s ∧
      ∀ t, taskCall P cfg c s = .ok t → WithinCapacity P cfg (depthAfter n c.2) calls t := by
  constructor
  · intro h
    refine ⟨h [] c (by simp) s rfl, fun t ht p d hp u hu => ?_⟩
    refine h (c :: p) d ?_ u ?_
    · exact List.prefix_cons_inj c |>.mpr hp
    · rw [runTask, ht, run_ok_bind, hu]
  · rintro ⟨hhead, hrest⟩ p d hp u hu
    cases p with
    | nil =>
        obtain rfl : d = c := by simpa using hp
        obtain rfl : s = u := Except.ok.inj hu
        exact hhead
    | cons e p =>
        rcases List.cons_prefix_cons.mp hp with ⟨rfl, htail⟩
        rcases run_bind_eq_ok.mp hu with ⟨t, ht, hu⟩
        exact hrest t ht p d htail u hu

theorem withinCapacity_iff (hsec : ∀ c ∈ calls, ∃ localBase table, CoreSection P cfg c.1 localBase table)
    (hn : s.context.mapCount = n) (hle : n ≤ 512) :
    WithinCapacity P cfg n calls s ↔ LinearBelowLimit cfg n calls := by
  induction calls generalizing n s with
  | nil => simp [WithinCapacity, LinearBelowLimit]
  | cons c calls ih =>
      rcases hsec c List.mem_cons_self with ⟨localBase, table, hcore⟩
      have hsec' := fun d hd => hsec d (List.mem_cons_of_mem c hd)
      rw [withinCapacity_cons]
      rcases c with ⟨coreIdx, pageAddr | _⟩
      · simp only [CallWithinCapacity, taskCall, LinearBelowLimit]
        split
        next hlt =>
          rcases mapPage_below_limit hcore pageAddr (hn.trans_lt hlt) with ⟨vaddr, t, heq, hcount⟩
          rw [← ih hsec' (hcount.trans (by rw [hn])) hlt, heq, run_ok_bind]
          simp [Panics, hlt.ne, depthAfter, pure, Except.pure]
        next hge =>
          -- The run goes on only if the page is in linear memory, and then the call broke the limit.
          obtain rfl : n = 512 := by omega
          rcases Nat.lt_or_ge pageAddr (getHighMemBase cfg.split.virtualBase) with hlow | hhigh
          · rw [mapPage_linear hlow (by rw [hn]; decide)]
            simp [Panics, hlow]
          · rw [mapPage_high_limit hcore hhigh hn.ge]
            simp [Panics, hhigh]
      · simp only [CallWithinCapacity, taskCall, LinearBelowLimit]
        rcases unmapPage_below_limit hcore (hn.trans_le hle) with ⟨t, heq, hcount⟩
        rw [← ih hsec' (hcount.trans (by rw [hn])) (by omega), heq]
        simp [Panics, depthAfter]

/-- A run on the cores of the device tree keeps the documented limit, `map_page` at 512 live mappings and no panic
of `unmap_page`, exactly when it maps no page in linear memory with 512 live mappings. -/
theorem runTask_withinCapacity_iff (P : Profile) (split : VmSplit) {coreCount : Nat} (hpos : 0 < coreCount)
    (hmax : coreCount ≤ MAX_CORES .arm) :
    ∃ areaBase, placeThreadLocalArea P kernelStackPages coreCount = .ok areaBase ∧
      ∀ mem calls, (∀ c ∈ calls, c.1 < coreCount) →
        (WithinCapacity P ⟨split, coreCount, areaBase⟩ 0 calls ⟨.default, mem⟩ ↔
          LinearBelowLimit ⟨split, coreCount, areaBase⟩ 0 calls) := by
  rcases placeThreadLocalArea_eq P hpos hmax with ⟨areaBase, harea, hdvd, hupper, hend⟩
  refine ⟨areaBase, harea, fun mem calls hcores => ?_⟩
  have hsec : ∀ c ∈ calls, ∃ localBase table, CoreSection P ⟨split, coreCount, areaBase⟩ c.1 localBase table :=
    fun c hc => coreSection P split hmax (hcores c hc) hdvd hupper hend
  exact withinCapacity_iff hsec rfl (Nat.zero_le 512)

/-- Two pages in high memory and one in linear memory, then a call too many of `unmap_page`. -/
theorem runTask_withinCapacity_four :
    ∃ areaBase, placeThreadLocalArea .dev kernelStackPages 4 = .ok areaBase ∧
      WithinCapacity .dev ⟨.three, 4, areaBase⟩ 0
        [(1, .mapPage 0x39000000), (1, .mapPage 0x37000000), (1, .mapPage 0x39001000), (1, .unmapPage), (1, .unmapPage),
          (1, .unmapPage), (2, .unmapPage)] ⟨.default, fun _ => 0⟩ := by
  rcases runTask_withinCapacity_iff .dev .three (show 0 < 4 by decide) (by decide) with ⟨areaBase, harea, hruns⟩
  refine ⟨areaBase, harea, (hruns _ _ (by decide)).mpr ?_⟩
  simp [LinearBelowLimit]

theorem runTask_linear (P : Profile) (cfg : LocalConfig) (coreIdx : Nat) (s : LocalState) (k : Nat)
    (hlow : pageAddr < getHighMemBase cfg.split.virtualBase) (hcount : s.context.mapCount + k < Arch.arm.wordLimit) :
    runTask P cfg (List.replicate k (coreIdx, .mapPage pageAddr)) s =
      .ok ⟨{ s.context with mapCount := s.context.mapCount + k }, s.mem⟩ := by
  induction k generalizing s with
  | zero => rfl
  | succ k ih =>
      have hfirst : taskCall P cfg (coreIdx, .mapPage pageAddr) s =
          .ok ⟨{ s.context with mapCount := s.context.mapCount + 1 }, s.mem⟩ := by
        simp only [taskCall]
        rw [mapPage_linear hlow (by omega), run_ok_bind]
        rfl
      rw [List.replicate_succ, runTask, hfirst, run_ok_bind, ih _ (show s.context.mapCount + 1 + k < _ by omega)]
      simp only [Nat.add_assoc, Nat.add_comm 1 k]

theorem depth_replicate_mapPage (n k pageAddr : Nat) : depth n (List.replicate k (.mapPage pageAddr)) = n + k := by
  induction k generalizing n with
  | zero => rfl
  | succ k ih => exact (ih (n + 1)).trans (Nat.add_right_comm n 1 k)

theorem not_withinCapacity_of_linear (hlow : pageAddr < getHighMemBase cfg.split.virtualBase)
    (hrun : runTask P cfg calls s = .ok t) (hdepth : depth n (calls.map (·.2)) = 512)
    (hcount : t.context.mapCount + 1 < Arch.arm.wordLimit) :
    ¬ WithinCapacity P cfg n (calls ++ [(coreIdx, .mapPage pageAddr)]) s := by
  intro h
  have hcall : Panics (mapPage P cfg coreIdx pageAddr t) ↔ depth n (calls.map (·.2)) = 512 :=
    h calls (coreIdx, .mapPage pageAddr) List.prefix_rfl t hrun
  rcases hcall.mpr hdepth with ⟨e, he⟩
  rw [mapPage_linear hlow hcount] at he
  cases he

/-- A task that maps 513 pages in linear memory cannot unmap the last one. -/
theorem runTask_past_limit :
    ∃ areaBase s vaddr t, placeThreadLocalArea .dev kernelStackPages 4 = .ok areaBase ∧
      runTask .dev ⟨.three, 4, areaBase⟩ (List.replicate 512 (0, .mapPage 0x1000)) ⟨.default, fun _ => 0⟩ = .ok s ∧
      mapPage .dev ⟨.three, 4, areaBase⟩ 0 0x1000 s = .ok (vaddr, t) ∧
      unmapPage .dev ⟨.three, 4, areaBase⟩ 0 t = .error .index ∧
      ¬ WithinCapacity .dev ⟨.three, 4, areaBase⟩ 0 (List.replicate 513 (0, .mapPage 0x1000)) ⟨.default, fun _ => 0⟩ := by
  rcases placeThreadLocalArea_eq .dev (show 0 < 4 by decide) (by decide) with ⟨areaBase, harea, hdvd, hupper, hend⟩
  rcases coreSection .dev .three (show 4 ≤ MAX_CORES .arm by decide) (show 0 < 4 by decide) hdvd hupper hend with
    ⟨localBase, table, hsec⟩
  have hlow : 0x1000 < getHighMemBase VmSplit.three.virtualBase := by decide
  have hrun := runTask_linear .dev ⟨.three, 4, areaBase⟩ 0 ⟨.default, fun _ => 0⟩ 512 hlow (by decide)
  have hdepth : depth 0 ((List.replicate 512 ((0, .mapPage 0x1000) : TaskCall)).map (·.2)) = 512 := by
    rw [List.map_replicate, depth_replicate_mapPage]
  refine ⟨areaBase, _, _, _, harea, hrun, mapPage_linear hlow (by decide), unmapPage_past_limit hsec rfl, ?_⟩
  rw [List.replicate_succ']
  exact not_withinCapacity_of_linear hlow hrun hdepth (by decide)

end Arm
end Propeller
