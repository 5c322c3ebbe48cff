import Propeller.Lib.Steps
import Propeller.Arch.Arm.LocalMappings

/-!
# Arch.Arm.Affinity — a task between the cores

A page in high memory is mapped in the section of one core, so the task is pinned to this core until its last page
is unmapped; before that and after that it may run wherever its affinity mask lets it.  The mappings are a stack on
every core on which the task may run, and the tables of the other cores are empty.
-/

namespace Propeller
namespace Arm

open Cpu (MAX_CORES)

/-! ## The source -/

/-- `Task` with the fields that say where it may run. -/
structure Task where
  affinity : Option AffinityMask
  context : TaskContext

def Task.new (context : TaskContext) : Task :=
  ⟨none, context⟩

def TaskContext.getPinMask (context : TaskContext) : Option AffinityMask :=
  context.pinMask

def Task.getAffinity (task : Task) : Option AffinityMask :=
  match task.context.getPinMask with
  | some pinMask => some pinMask
  | none => task.affinity

def Task.setAffinity (task : Task) (affinity : Option AffinityMask) : Task :=
  match affinity with
  | some affinity => { task with affinity := some affinity }
  | none => { task with affinity := none }

/-! ## A task and the cores -/

/-- A task, the words at the virtual addresses of the kernel, and the live mappings. -/
structure Roaming where
  task : Task
  mem : Nat → Nat
  live : List Mapping

def Roaming.state (σ : Roaming) : LocalState :=
  ⟨σ.task.context, σ.mem⟩

inductive Roaming.Event
  | call (coreIdx : Nat) (localCall : LocalCall)
  | setAffinity (affinity : Option AffinityMask)

/-- The address at which the code sees the table of a core. -/
def localTable (P : Profile) (cfg : LocalConfig) (coreIdx : Nat) : Run Nat := do
  let localBase ← getThreadLocalVirtualBase P cfg coreIdx
  (← getPageVirtualAddressForVirtualAddress P localBase) |> unwrap

def Roaming.step (P : Profile) (cfg : LocalConfig) (σ : Roaming) : Roaming.Event → Run Roaming
  | .call coreIdx localCall => do
      let table ← localTable P cfg coreIdx
      let (s, live) ← callStep P cfg coreIdx table localCall (σ.state, σ.live)
      return ⟨{ σ.task with context := s.context }, s.mem, live⟩
  | .setAffinity affinity => .ok { σ with task := σ.task.setAffinity affinity }

def Task.MayRun (task : Task) (coreIdx : Nat) : Prop :=
  ∀ mask ∈ task.getAffinity, mask.isSet coreIdx = true

/-- There is room for the mapping in the table. -/
def LocalCall.Fits (n : Nat) : LocalCall → Prop
  | .mapPage pageAddr => pageAddr < Arch.arm.wordLimit ∧ n < 512
  | .unmapPage => True

/-- The task runs where its affinity lets it. -/
def Roaming.Event.Valid (cfg : LocalConfig) (σ : Roaming) : Roaming.Event → Prop
  | .call coreIdx localCall => coreIdx < cfg.coreCount ∧ σ.task.MayRun coreIdx ∧ localCall.Fits σ.live.length
  | .setAffinity _ => True

def Roaming.Reaches (P : Profile) (cfg : LocalConfig) : Roaming → Roaming → Prop :=
  Steps.Reaches (fun σ e => e.Valid cfg σ) (Roaming.step P cfg)

/-- A task that has mapped nothing. -/
def Roaming.start (mem : Nat → Nat) : Roaming :=
  ⟨.new .default, mem, []⟩

variable {P : Profile} {cfg : LocalConfig} {c c' i j base base' table table' pageAddr vaddr count : Nat}
  {mem mem' : Nat → Nat} {s t : LocalState} {live live' : List Mapping} {call : LocalCall} {σ σ' : Roaming}

/-! ## The tables of two cores -/

theorem CoreSection.lt_coreCount (h : CoreSection P cfg c base table) : c < cfg.coreCount := by
  rcases run_bind_eq_ok.1 h.localBase_eq with ⟨_, hreq, -⟩
  exact require_eq_ok.1 hreq

theorem CoreSection.unique (h : CoreSection P cfg c base table) (h' : CoreSection P cfg c base' table') :
    base' = base ∧ table' = table := by
  obtain rfl := Except.ok.inj (h'.localBase_eq.symm.trans h.localBase_eq)
  exact ⟨rfl, Option.some.inj (Except.ok.inj (h'.table_eq.symm.trans h.table_eq))⟩

theorem CoreSection.localTable_eq (h : CoreSection P cfg c base table) : localTable P cfg c = .ok table := by
  rw [localTable, h.localBase_eq, run_ok_bind, h.table_eq]
  rfl

/-- Where the section and the table of a core are. -/
theorem CoreSection.place (h : CoreSection P cfg c base table) :
    base = (cfg.threadLocalAreaVirtualBase + c * 2 ^ 21) % 2 ^ 32 ∧ 0xc0000000 ≤ base ∧
      table = 0xffc00000 + (base - 0xc0000000) / 2 ^ 21 * 4096 := by
  have hcore : c < 16 := h.core
  have hword : Arch.arm.wordLimit = 2 ^ 32 := rfl
  have hfits := h.fits
  rcases run_bind_eq_ok.1 h.localBase_eq with ⟨_, -, hbase⟩
  have hbase := addWord_eq_mod hbase
  have htable := h.table_eq
  rw [Nat.shiftLeft_eq, sectionShift, hword, Nat.mod_eq_of_lt (show c * 2 ^ 21 < 2 ^ 32 by omega)] at hbase
  rw [getPageVirtualAddressForVirtualAddress] at htable
  split at htable
  · cases htable
  · rename_i hle
    have hindex : (base - 0xc0000000) / 2 ^ 21 < 512 := by omega
    rcases run_bind_eq_ok.1 htable with ⟨_, hsum, hret⟩
    obtain rfl := Option.some.inj (Except.ok.inj hret)
    have hsum := addWord_eq_mod hsum
    simp only [Nat.shiftLeft_eq, Nat.shiftRight_eq_div_pow, sectionShift, pageShift, recursiveMapArea, hword] at hsum
    refine ⟨hbase, Nat.le_of_not_lt hle, ?_⟩
    omega

theorem CoreSection.apart (h : CoreSection P cfg c base table) (h' : CoreSection P cfg c' base' table') (hne : c' ≠ c) :
    table + 4096 ≤ table' ∨ table' + 4096 ≤ table := by
  have hcore : c < 16 := h.core
  have hcore' : c' < 16 := h'.core
  have hdvd : 2 ^ 21 ∣ base := h.aligned
  have hdvd' : 2 ^ 21 ∣ base' := h'.aligned
  rcases h.place with ⟨hbase, hle, htable⟩
  rcases h'.place with ⟨hbase', hle', htable'⟩
  have hbases : base ≠ base' := by omega
  omega

/-- What is stored in the table of one core is not in that of another. -/
theorem entry_update_other {d a b : Nat} (hword : wordOf table (i <<< 1) = .ok d)
    (hapart : table + 4096 ≤ table' ∨ table' + 4096 ≤ table) (hj : j < 512) :
    entry (mmuUpdateTableEntryLocal mem d a b) table' j = entry mem table' j := by
  rw [wordOf] at hword
  split at hword
  · rename_i hlt
    obtain rfl := Except.ok.inj hword
    rw [Nat.shiftLeft_eq, Nat.pow_one] at hlt ⊢
    rw [entry, mmuUpdateTableEntryLocal, Function.update_of_ne (by omega), Function.update_of_ne (by omega),
      Function.update_of_ne (by omega), Function.update_of_ne (by omega), entry]
  · cases hword

/-! ## What a call does to the pin and to memory -/

/-- The mask of one core. -/
def pinOf (coreIdx : Nat) : AffinityMask :=
  (Bitmap.new .arm cpuMaskWords (MAX_CORES .arm)).setBit coreIdx

theorem mapPage_ok (h : mapPage P cfg c pageAddr s = .ok (vaddr, t)) :
    t.context.pinMask = s.context.pinMask ∧ t.mem = s.mem ∨
      t.context.pinMask = some (s.context.pinMask.getD (pinOf c)) ∧
        ∃ base table, getThreadLocalVirtualBase P cfg c = .ok base ∧
          getPageVirtualAddressForVirtualAddress P base = .ok (some table) ∧
          mapPageLocal P table base pageAddr s.context.mapCount false s.mem = .ok (vaddr, t.mem) := by
  rw [mapPage] at h
  split at h
  · rcases run_bind_eq_ok.1 h with ⟨n, -, h⟩
    rcases run_bind_eq_ok.1 h with ⟨v, -, h⟩
    obtain ⟨-, rfl⟩ := Prod.mk.inj (Except.ok.inj h)
    exact Or.inl ⟨rfl, rfl⟩
  · rcases run_bind_eq_ok.1 h with ⟨base, hbase, h⟩
    rcases run_bind_eq_ok.1 h with ⟨o, htable, h⟩
    rcases run_bind_eq_ok.1 h with ⟨table, ho, h⟩
    rcases run_bind_eq_ok.1 h with ⟨⟨v, mem⟩, hmap, h⟩
    rcases run_bind_eq_ok.1 h with ⟨n, -, h⟩
    obtain ⟨rfl, rfl⟩ := Prod.mk.inj (Except.ok.inj h)
    rw [unwrap_eq_ok.1 ho] at htable
    exact Or.inr ⟨rfl, base, table, hbase, htable, hmap⟩

theorem unmapPage_ok (h : unmapPage P cfg c s = .ok t) :
    s.context.mapCount = 0 ∧ t = s ∨
      t.context.pinMask = (if s.context.mapCount - 1 = 0 then none else s.context.pinMask) ∧
        ∃ base table, getThreadLocalVirtualBase P cfg c = .ok base ∧
          getPageVirtualAddressForVirtualAddress P base = .ok (some table) ∧
          unmapPageLocal P table base s.context.mapCount s.mem = .ok t.mem := by
  rw [unmapPage] at h
  split at h
  · rename_i hzero
    exact Or.inl ⟨hzero, (Except.ok.inj h).symm⟩
  · rcases run_bind_eq_ok.1 h with ⟨base, hbase, h⟩
    rcases run_bind_eq_ok.1 h with ⟨o, htable, h⟩
    rcases run_bind_eq_ok.1 h with ⟨table, ho, h⟩
    rcases run_bind_eq_ok.1 h with ⟨mem, hunmap, h⟩
    obtain rfl := Except.ok.inj h
    rw [unwrap_eq_ok.1 ho] at htable
    exact Or.inr ⟨rfl, base, table, hbase, htable, hunmap⟩

theorem mapPageLocal_other (h : mapPageLocal P table base pageAddr count false mem = .ok (vaddr, mem'))
    (hapart : table + 4096 ≤ table' ∨ table' + 4096 ≤ table) (hj : j < 512) :
    entry mem' table' j = entry mem table' j := by
  rcases run_bind_eq_ok.1 h with ⟨_, -, h⟩
  rcases run_bind_eq_ok.1 h with ⟨v, -, h⟩
  rcases run_bind_eq_ok.1 h with ⟨d, hword, h⟩
  rcases run_bind_eq_ok.1 h with ⟨desc, -, h⟩
  obtain ⟨-, rfl⟩ := Prod.mk.inj (Except.ok.inj h)
  exact entry_update_other hword hapart hj

theorem unmapPageLocal_other (h : unmapPageLocal P table base count mem = .ok mem')
    (hapart : table + 4096 ≤ table' ∨ table' + 4096 ≤ table) (hj : j < 512) :
    entry mem' table' j = entry mem table' j := by
  rcases run_bind_eq_ok.1 h with ⟨_, -, h⟩
  rcases run_bind_eq_ok.1 h with ⟨d, hword, h⟩
  split at h
  · rw [Except.ok.inj h]
  · rcases run_bind_eq_ok.1 h with ⟨v, -, h⟩
    obtain rfl := Except.ok.inj h
    exact entry_update_other hword hapart hj

/-- A call on one core leaves the table of another alone. -/
theorem callStep_other (hsec : CoreSection P cfg c base table)
    (hstep : callStep P cfg c table call (s, live) = .ok (t, live'))
    (hapart : table + 4096 ≤ table' ∨ table' + 4096 ≤ table) (hj : j < 512) :
    entry t.mem table' j = entry s.mem table' j := by
  have hsame : ∀ {b d}, getThreadLocalVirtualBase P cfg c = .ok b →
      getPageVirtualAddressForVirtualAddress P b = .ok (some d) → d = table := by
    intro b d hb hd
    obtain rfl := Except.ok.inj (hb.symm.trans hsec.localBase_eq)
    exact Option.some.inj (Except.ok.inj (hd.symm.trans hsec.table_eq))
  cases call with
  | mapPage pageAddr =>
      rcases run_bind_eq_ok.1 hstep with ⟨⟨v, u⟩, hmap, hret⟩
      obtain ⟨rfl, -⟩ := Prod.mk.inj (Except.ok.inj hret)
      rcases mapPage_ok hmap with ⟨-, hmem⟩ | ⟨-, b, d, hb, hd, hlocal⟩
      · rw [hmem]
      · obtain rfl := hsame hb hd
        exact mapPageLocal_other hlocal hapart hj
  | unmapPage =>
      rcases run_bind_eq_ok.1 hstep with ⟨u, hunmap, hret⟩
      obtain ⟨rfl, -⟩ := Prod.mk.inj (Except.ok.inj hret)
      rcases unmapPage_ok hunmap with ⟨-, rfl⟩ | ⟨-, b, d, hb, hd, hlocal⟩
      · rfl
      · obtain rfl := hsame hb hd
        exact unmapPageLocal_other hlocal hapart hj

/-- The task is pinned to the core it was pinned to or to the one it is on. -/
theorem callStep_pin (hstep : callStep P cfg c table call (s, live) = .ok (t, live')) {mask : AffinityMask}
    (hmask : t.context.pinMask = some mask) : s.context.pinMask = some mask ∨ mask = pinOf c := by
  cases call with
  | mapPage pageAddr =>
      rcases run_bind_eq_ok.1 hstep with ⟨⟨v, u⟩, hmap, hret⟩
      obtain ⟨rfl, -⟩ := Prod.mk.inj (Except.ok.inj hret)
      rcases mapPage_ok hmap with ⟨hpin, -⟩ | ⟨hpin, -⟩
      · exact Or.inl (hpin.symm.trans hmask)
      · have hget := Option.some.inj (hpin.symm.trans hmask)
        cases hold : s.context.pinMask with
        | none =>
            rw [hold] at hget
            exact Or.inr hget.symm
        | some old =>
            rw [hold] at hget
            exact Or.inl (congrArg some hget)
  | unmapPage =>
      rcases run_bind_eq_ok.1 hstep with ⟨u, hunmap, hret⟩
      obtain ⟨rfl, -⟩ := Prod.mk.inj (Except.ok.inj hret)
      rcases unmapPage_ok hunmap with ⟨-, rfl⟩ | ⟨hpin, -⟩
      · exact Or.inl hmask
      · rw [hpin] at hmask
        split at hmask
        · cases hmask
        · exact Or.inl hmask

/-- With the last page the pin goes. -/
theorem callStep_unpin (hstep : callStep P cfg c table call (s, live) = .ok (t, live'))
    (hcount : s.context.mapCount = live.length) (hfree : live = [] → s.context.pinMask = none) (hnil : live' = []) :
    t.context.pinMask = none := by
  cases call with
  | mapPage pageAddr =>
      rcases run_bind_eq_ok.1 hstep with ⟨⟨v, u⟩, -, hret⟩
      have hlive := (Prod.mk.inj (Except.ok.inj hret)).2
      rw [hnil] at hlive
      exact absurd hlive (List.append_ne_nil_of_right_ne_nil _ (List.cons_ne_nil _ _))
  | unmapPage =>
      rcases run_bind_eq_ok.1 hstep with ⟨u, hunmap, hret⟩
      obtain ⟨rfl, hlive⟩ := Prod.mk.inj (Except.ok.inj hret)
      have hlen : live.length - 1 = 0 := by
        rw [← List.length_dropLast, hlive, hnil, List.length_nil]
      rcases unmapPage_ok hunmap with ⟨hzero, rfl⟩ | ⟨hpin, -⟩
      · exact hfree (List.length_eq_zero_iff.1 (hcount.symm.trans hzero))
      · rw [hpin, hcount, if_pos hlen]

/-! ## One task on every core -/

/-- The core is the one that the task is pinned to, if it is pinned. -/
def TaskContext.Allows (context : TaskContext) (coreIdx : Nat) : Prop :=
  ∀ mask, context.pinMask = some mask → mask.isSet coreIdx = true

/-- Without a page in high memory a table is empty. -/
theorem LocalInv.zero_of_unpinned (h : LocalInv cfg c base table s live) (hpin : s.context.pinMask = none)
    (hj : j < 512) : entry s.mem table j = (0, 0) := by
  rcases Nat.lt_or_ge j live.length with hlt | hge
  · have hget : live[j]? = some live[j] := List.getElem?_eq_getElem hlt
    have hmem : live[j] ∈ live := List.getElem_mem hlt
    rw [h.kept j _ hget]
    exact h.linear _ hmem fun hhigh => h.pinned ⟨_, hmem, hhigh⟩ hpin
  · exact h.above j hj hge

/-- A stack without a page in high memory is one on every core with an empty table. -/
theorem LocalInv.move (h : LocalInv cfg c base table s live) (hpin : s.context.pinMask = none)
    (hlen : live.length ≤ 512) (hzero : ∀ j < 512, entry s.mem table' j = (0, 0)) :
    LocalInv cfg c' base' table' s live := by
  have hlow : ∀ m ∈ live, ¬ m.High cfg := fun m hm hhigh => h.pinned ⟨m, hm, hhigh⟩ hpin
  refine ⟨h.count, fun j hj _ => hzero j hj, ?_, h.addresses, ?_, h.linear, h.pinned, ?_⟩
  · intro j m hj
    have hlt : j < live.length := (List.getElem?_eq_some_iff.1 hj).1
    have hmem := List.mem_of_getElem? hj
    rw [hzero j (by omega), h.linear m hmem (hlow m hmem)]
  · intro j m hj hhigh
    exact absurd hhigh (hlow m (List.mem_of_getElem? hj))
  · intro mask hmask
    rw [hpin] at hmask
    cases hmask

/-- The mappings are a stack on every core that the pin allows, and the tables of the other cores are empty. -/
structure RoamingInv (P : Profile) (cfg : LocalConfig) (s : LocalState) (live : List Mapping) : Prop where
  home : ∀ c base table, CoreSection P cfg c base table → s.context.Allows c → LocalInv cfg c base table s live
  away : ∀ c base table, CoreSection P cfg c base table → ¬ s.context.Allows c →
    ∀ j < 512, entry s.mem table j = (0, 0)
  single : ∀ mask, s.context.pinMask = some mask → ∃ c < cfg.coreCount, ∀ i, mask.isSet i = decide (i = c)
  free : live = [] → s.context.pinMask = none
  room : live.length ≤ 512

namespace RoamingInv

theorem start (hzero : ∀ c base table, CoreSection P cfg c base table → ∀ idx < 1024, mem (table + 4 * idx) = 0) :
    RoamingInv P cfg ⟨.default, mem⟩ [] where
  home := fun c base table hsec _ => LocalInv.start (hzero c base table hsec)
  away := by
    intro c base table _ hnot
    exact absurd (fun mask hmask => nomatch hmask) hnot
  single := fun mask hmask => nomatch hmask
  free := fun _ => rfl
  room := Nat.zero_le 512

/-- A task that is pinned runs on one core. -/
theorem eq_of_allows (h : RoamingInv P cfg s live) {mask : AffinityMask} (hmask : s.context.pinMask = some mask)
    (hc : s.context.Allows c) (hc' : s.context.Allows c') : c' = c := by
  rcases h.single mask hmask with ⟨c₀, -, hset⟩
  have hat := hc mask hmask
  have hat' := hc' mask hmask
  rw [hset, decide_eq_true_iff] at hat hat'
  exact hat'.trans hat.symm

/-- The tables of the cores on which the task is not are empty. -/
theorem others (h : RoamingInv P cfg s live) (hallow : s.context.Allows c) (hsec : CoreSection P cfg c' base' table')
    (hne : c' ≠ c) (hj : j < 512) : entry s.mem table' j = (0, 0) := by
  by_cases hallow' : s.context.Allows c'
  · cases hpin : s.context.pinMask with
    | none => exact (h.home c' base' table' hsec hallow').zero_of_unpinned hpin hj
    | some mask => exact absurd (h.eq_of_allows hpin hallow hallow') hne
  · exact h.away c' base' table' hsec hallow' j hj

/-- A call on a core that the pin allows returns and keeps the invariant. -/
theorem step (h : RoamingInv P cfg s live) (hsec : CoreSection P cfg c base table) (hallow : s.context.Allows c)
    (hfits : call.Fits live.length) :
    ∃ t live', callStep P cfg c table call (s, live) = .ok (t, live') ∧ RoamingInv P cfg t live' := by
  have hinv := h.home c base table hsec hallow
  obtain ⟨t, live', hstep, hinv', hroom⟩ : ∃ t live', callStep P cfg c table call (s, live) = .ok (t, live') ∧
      LocalInv cfg c base table t live' ∧ live'.length ≤ 512 := by
    cases call with
    | mapPage pageAddr =>
        rcases callStep_mapPage hsec hinv hfits.2 hfits.1 with ⟨t, m, hstep, hinv'⟩
        refine ⟨t, _, hstep, hinv', ?_⟩
        rw [List.length_append, List.length_singleton]
        exact hfits.2
    | unmapPage =>
        rcases callStep_unmapPage hsec hinv h.room with ⟨t, hstep, hinv'⟩
        exact ⟨t, _, hstep, hinv', (List.length_dropLast.trans_le (Nat.sub_le _ _)).trans h.room⟩
  -- The tables of the other cores stay empty.
  have hothers : ∀ {c' base' table'}, CoreSection P cfg c' base' table' → c' ≠ c →
      ∀ j < 512, entry t.mem table' j = (0, 0) := by
    intro c' base' table' hsec' hne j hj
    rw [callStep_other hsec hstep (hsec.apart hsec' hne) hj]
    exact h.others hallow hsec' hne hj
  have hsingle : ∀ mask, t.context.pinMask = some mask → ∀ i, mask.isSet i = decide (i = c) := by
    intro mask hmask
    rcases callStep_pin hstep hmask with hold | rfl
    · rcases h.single mask hold with ⟨c₀, -, hset⟩
      have hat := hallow mask hold
      rw [hset, decide_eq_true_iff] at hat
      exact hat ▸ hset
    · exact fun i => isSet_pinMask hsec.core
  refine ⟨t, live', hstep, ?_, ?_, ?_, ?_, hroom⟩
  · intro c' base' table' hsec' hallow'
    by_cases heq : c' = c
    · subst heq
      obtain ⟨rfl, rfl⟩ := hsec.unique hsec'
      exact hinv'
    · cases hpin : t.context.pinMask with
      | none => exact hinv'.move hpin hroom (hothers hsec' heq)
      | some mask =>
          have hat := hallow' mask hpin
          rw [hsingle mask hpin, decide_eq_true_iff] at hat
          exact absurd hat heq
  · intro c' base' table' hsec' hnot
    refine hothers hsec' ?_
    rintro rfl
    exact hnot hinv'.mask
  · exact fun mask hmask => ⟨c, hsec.lt_coreCount, hsingle mask hmask⟩
  · exact callStep_unpin hstep hinv.count h.free

end RoamingInv

/-! ## Runs -/

/-- The code finds the section and the table of every core. -/
def AllSections (P : Profile) (cfg : LocalConfig) : Prop :=
  ∀ c < cfg.coreCount, ∃ base table, CoreSection P cfg c base table

theorem Task.allows_of_mayRun {task : Task} (h : task.MayRun c) : task.context.Allows c := by
  intro mask hmask
  refine h mask ?_
  rw [Task.getAffinity, TaskContext.getPinMask, hmask]
  exact rfl

theorem Task.mayRun_iff_of_pinned {task : Task} {mask : AffinityMask} (hmask : task.context.pinMask = some mask) :
    task.MayRun c ↔ mask.isSet c = true := by
  have haffinity : task.getAffinity = some mask := by
    rw [Task.getAffinity, TaskContext.getPinMask, hmask]
  rw [Task.MayRun, haffinity]
  exact ⟨fun h => h mask rfl, fun h mask' heq => Option.some.inj heq ▸ h⟩

@[simp] theorem Task.setAffinity_context (task : Task) (affinity : Option AffinityMask) :
    (task.setAffinity affinity).context = task.context := by
  cases affinity with
  | none => rfl
  | some affinity => rfl

/-- Every valid step returns and keeps the invariant. -/
theorem Roaming.keeps (hall : AllSections P cfg) :
    Steps.Keeps (fun σ e => e.Valid cfg σ) (Roaming.step P cfg) fun σ => RoamingInv P cfg σ.state σ.live := by
  intro σ e h hvalid
  cases e with
  | call c localCall =>
      rcases hvalid with ⟨hc, hrun, hfits⟩
      rcases hall c hc with ⟨base, table, hsec⟩
      rcases h.step hsec (Task.allows_of_mayRun hrun) hfits with ⟨t, live', hstep, hinv⟩
      refine ⟨⟨{ σ.task with context := t.context }, t.mem, live'⟩, ?_, hinv⟩
      rw [Roaming.step, hsec.localTable_eq, run_ok_bind, hstep]
      rfl
  | setAffinity affinity =>
      refine ⟨_, rfl, ?_⟩
      simp only [Roaming.state, Task.setAffinity_context]
      exact h

/-- A task whose calls are made on cores that its affinity allows: in every state that it reaches its mappings are a
stack on each core on which it may run, so that it can be taken from one of them to another; while a page in high
memory is mapped there is one such core; once nothing is mapped its affinity is the one that was set; and every
further such call returns. -/
theorem task_mappings_follow (P : Profile) (split : VmSplit) {coreCount : Nat} (hpos : 0 < coreCount)
    (hmax : coreCount ≤ MAX_CORES .arm) :
    ∃ areaBase, placeThreadLocalArea P kernelStackPages coreCount = .ok areaBase ∧
      ∀ mem σ, (∀ c < coreCount, ∀ table, localTable P ⟨split, coreCount, areaBase⟩ c = .ok table →
          ∀ idx < 1024, mem (table + 4 * idx) = 0) →
        Roaming.Reaches P ⟨split, coreCount, areaBase⟩ (Roaming.start mem) σ →
        (∀ c < coreCount, σ.task.MayRun c → ∃ localBase table,
          getThreadLocalVirtualBase P ⟨split, coreCount, areaBase⟩ c = .ok localBase ∧
          getPageVirtualAddressForVirtualAddress P localBase = .ok (some table) ∧
          MappedAsStack ⟨split, coreCount, areaBase⟩ c localBase table σ.state σ.live) ∧
        ((∃ m ∈ σ.live, m.High ⟨split, coreCount, areaBase⟩) → ∃ c < coreCount, ∀ i, σ.task.MayRun i ↔ i = c) ∧
        (σ.live = [] → σ.task.getAffinity = σ.task.affinity) ∧
        ∀ e : Roaming.Event, e.Valid ⟨split, coreCount, areaBase⟩ σ →
          ∃ σ', σ.step P ⟨split, coreCount, areaBase⟩ e = .ok σ' := by
  rcases placeThreadLocalArea_eq P hpos hmax with ⟨areaBase, harea, hdvd, hupper, hend⟩
  have hall : AllSections P ⟨split, coreCount, areaBase⟩ :=
    fun c hc => coreSection P split hmax hc hdvd hupper hend
  refine ⟨areaBase, harea, ?_⟩
  intro mem σ hzero hrun
  have hstart : RoamingInv P ⟨split, coreCount, areaBase⟩ (Roaming.start mem).state (Roaming.start mem).live :=
    RoamingInv.start fun c base table hsec => hzero c hsec.lt_coreCount table hsec.localTable_eq
  have h := (Roaming.keeps hall).run hrun hstart
  refine ⟨?_, ?_, ?_, ?_⟩
  · intro c hc hmay
    rcases hall c hc with ⟨base, table, hsec⟩
    exact ⟨base, table, hsec.localBase_eq, hsec.table_eq,
      (h.home c base table hsec (Task.allows_of_mayRun hmay)).mappedAsStack hsec h.room⟩
  · intro hhigh
    -- Some core is allowed, and its stack has the page.
    cases hpin : σ.task.context.pinMask with
    | none =>
        rcases hall 0 hpos with ⟨base, table, hsec⟩
        have hallow : σ.state.context.Allows 0 := fun mask hmask => nomatch hpin.symm.trans hmask
        exact absurd hpin ((h.home 0 base table hsec hallow).pinned hhigh)
    | some mask =>
        rcases h.single mask hpin with ⟨c, hc, hset⟩
        refine ⟨c, hc, fun i => ?_⟩
        rw [Task.mayRun_iff_of_pinned hpin, hset, decide_eq_true_iff]
  · intro hnil
    have hpin : σ.task.context.pinMask = none := h.free hnil
    rw [Task.getAffinity, TaskContext.getPinMask, hpin]
  · exact fun e hvalid => (Roaming.keeps hall).progress h hvalid

instance (task : Task) (coreIdx : Nat) : Decidable (task.MayRun coreIdx) :=
  inferInstanceAs (Decidable (∀ mask ∈ task.getAffinity, mask.isSet coreIdx = true))

instance (n : Nat) (call : LocalCall) : Decidable (call.Fits n) :=
  match call with
  | .mapPage pageAddr => inferInstanceAs (Decidable (pageAddr < Arch.arm.wordLimit ∧ n < 512))
  | .unmapPage => isTrue trivial

instance (cfg : LocalConfig) (σ : Roaming) (e : Roaming.Event) : Decidable (e.Valid cfg σ) :=
  match e with
  | .call coreIdx localCall => inferInstanceAs
      (Decidable (coreIdx < cfg.coreCount ∧ σ.task.MayRun coreIdx ∧ localCall.Fits σ.live.length))
  | .setAffinity _ => isTrue trivial

/-- A page in linear memory is mapped on core 0 and one in high memory on core 2; then all cores are allowed. -/
def movingTask : List Roaming.Event :=
  [.call 0 (.mapPage 0x1000), .call 2 (.mapPage 0x39000000), .setAffinity none]

theorem task_mappings_follow_four :
    ∃ areaBase σ localBase table, placeThreadLocalArea .dev kernelStackPages 4 = .ok areaBase ∧
      Roaming.Reaches .dev ⟨.three, 4, areaBase⟩ (Roaming.start fun _ => 0) σ ∧
      σ.live.map (·.pageAddr) = [0x1000, 0x39000000] ∧ (∀ i, σ.task.MayRun i ↔ i = 2) ∧
      getThreadLocalVirtualBase .dev ⟨.three, 4, areaBase⟩ 2 = .ok localBase ∧
      MappedAsStack ⟨.three, 4, areaBase⟩ 2 localBase table σ.state σ.live := by
  rcases task_mappings_follow .dev .three (show 0 < 4 by decide) (by decide) with ⟨areaBase, harea, hruns⟩
  have hmap : (do
      let areaBase ← placeThreadLocalArea .dev kernelStackPages 4
      let σ ← Steps.trace .unwrap (fun σ e => e.Valid ⟨.three, 4, areaBase⟩ σ)
        (Roaming.step .dev ⟨.three, 4, areaBase⟩) (Roaming.start fun _ => 0) movingTask
      return decide (σ.live.map (·.pageAddr) = [0x1000, 0x39000000] ∧ σ.task.MayRun 2 ∧
        ∃ m ∈ σ.live, m.High ⟨.three, 4, areaBase⟩) : Run Bool) = .ok true := by
    decide +kernel
  rw [harea, run_ok_bind] at hmap
  rcases run_bind_eq_ok.1 hmap with ⟨σ, htrace, hmap⟩
  rcases of_decide_eq_true (Except.ok.inj hmap) with ⟨hlive, hmay, hhigh⟩
  have hrun : Roaming.Reaches _ _ _ _ := Steps.reaches_of_trace htrace
  rcases hruns (fun _ => 0) σ (fun _ _ _ _ _ _ => rfl) hrun with ⟨hstack, hone, -, -⟩
  rcases hstack 2 (by decide) hmay with ⟨localBase, table, hbase, -, hmapped⟩
  rcases hone hhigh with ⟨c, -, hc⟩
  obtain rfl := (hc 2).1 hmay
  exact ⟨areaBase, σ, localBase, table, harea, hrun, hlive, hc, hbase, hmapped⟩

end Arm
end Propeller
