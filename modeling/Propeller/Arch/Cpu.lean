import Mathlib.Data.List.Induction
import Mathlib.Data.List.Nodup
import Mathlib.Logic.Equiv.Basic
import Propeller.Support.HashMap

/-!
# Arch.Cpu — the core configuration

`CoreConfig` collects the cores that the device tree scanner finds, the primary core at index 0.  The
scanner keeps a place for the primary core, but tests the number of cores one too late: if the primary
core is behind `MAX_CORES` other cores, then there is no place left for it.
-/

namespace Propeller
namespace Cpu

def MAX_CORES : Arch → Nat
  | .aarch64 => 256
  | .arm => 16

def CORE_TYPE_LEN : Nat := 64

def CORE_MAP_SIZE : Arch → Nat
  | .aarch64 => 389
  | .arm => 29

inductive CoreEnableMethod
  | invalid
  | spinTable
  | bcm2836
  deriving DecidableEq, Repr

/-- `core_type` has `CORE_TYPE_LEN` bytes. -/
structure Core where
  id : Nat
  coreType : List Nat
  enableMethod : CoreEnableMethod
  releaseAddr : Nat
  deriving DecidableEq, Repr

def Core.new : Core :=
  ⟨0, List.replicate CORE_TYPE_LEN 0, .invalid, 0⟩

structure CoreConfig (A : Arch) where
  cores : Nat → Core
  coreCount : Nat
  idMap : HashMap Nat Nat (CORE_MAP_SIZE A)

variable {A : Arch}

def CoreConfig.new : CoreConfig A :=
  ⟨fun _ => Core.new, 0, HashMap.new⟩

def CoreConfig.getCores (config : CoreConfig A) : List Core :=
  (List.range config.coreCount).map config.cores

/-- `self.cores.swap(0, k)`. -/
def swapFirst (k : Nat) (cores : Nat → Core) : Nat → Core :=
  fun i => cores (Equiv.swap 0 k i)

/-- `add_core`; the configuration is returned with the answer. -/
def CoreConfig.addCore (config : CoreConfig A) (core : Core) (isPrimary : Bool) :
    Bool × CoreConfig A :=
  if MAX_CORES A ≤ config.coreCount then (false, config)
  else
    let idMap := (config.idMap.insert (hashWord A) core.id config.coreCount).2
    let cores := Function.update config.cores config.coreCount core
    if isPrimary then
      let idMap := (idMap.insert (hashWord A) (cores 0).id config.coreCount).2
      let idMap := (idMap.insert (hashWord A) (cores config.coreCount).id 0).2
      (true, ⟨swapFirst config.coreCount cores, config.coreCount + 1, idMap⟩)
    else (true, ⟨cores, config.coreCount + 1, idMap⟩)

/-- The default enable method is used for a core that does not specify one. -/
def Core.withDefault (defEnableMethod : CoreEnableMethod) (core : Core) : Core :=
  match core.enableMethod with
  | .invalid => { core with enableMethod := defEnableMethod }
  | _ => core

/-- The end of `scan_cpu_node`: the capacity test, and the addition of the core. -/
def registerCore (primaryId : Nat) (defEnableMethod : CoreEnableMethod) (config : CoreConfig A)
    (core : Core) : CoreConfig A :=
  let isPrimary := decide (core.id = primaryId)
  if ¬ isPrimary ∧ MAX_CORES A - 1 < config.coreCount then config
  else (config.addCore (core.withDefault defEnableMethod) isPrimary).2

/-- The cores of a device tree are added in order. -/
def registerCores (primaryId : Nat) (defEnableMethod : CoreEnableMethod) (cores : List Core) :
    CoreConfig A :=
  cores.foldl (registerCore primaryId defEnableMethod) CoreConfig.new

/-! ## What is registered -/

/-- All cores that fit are registered, the primary core is the first one, and but for the exchange with
the first one they are the primary core and the first other cores of the list, in order. -/
structure Registered (primaryId : Nat) (defEnableMethod : CoreEnableMethod) (l : List Core)
    (config : CoreConfig A) : Prop where
  count : config.coreCount = min l.length (MAX_CORES A)
  primary : ∃ core ∈ l, core.id = primaryId ∧
    config.getCores[0]? = some (core.withDefault defEnableMethod)
  others : ∃ k < config.coreCount,
    ((List.range config.coreCount).map (swapFirst k config.cores)).filter (·.id ≠ primaryId) =
      ((l.map (Core.withDefault defEnableMethod)).filter (·.id ≠ primaryId)).take
        (min l.length (MAX_CORES A) - 1)

variable {primaryId : Nat} {defEnableMethod : CoreEnableMethod} {l : List Core}
  {config : CoreConfig A} {core : Core}

theorem MAX_CORES_pos (A : Arch) : 0 < MAX_CORES A := by
  cases A <;> decide

theorem Core.withDefault_id (defEnableMethod : CoreEnableMethod) (core : Core) :
    (core.withDefault defEnableMethod).id = core.id := by
  rw [Core.withDefault]
  split <;> rfl

/-- The configuration holds the first cores of the list, the first one exchanged with the one at `k`,
which is the primary core if that is among them. -/
structure Filled (primaryId : Nat) (defEnableMethod : CoreEnableMethod) (l : List Core)
    (config : CoreConfig A) (k : Nat) : Prop where
  count : config.coreCount = min l.length (MAX_CORES A)
  entry : ∀ i < config.coreCount,
    (l.map (Core.withDefault defEnableMethod))[i]? = some (swapFirst k config.cores i)
  swapped : k < config.coreCount ∨ k = 0
  primary : ∀ i < config.coreCount, ∀ core, l[i]? = some core → core.id = primaryId → k = i
  none : (∀ i < config.coreCount, ∀ core, l[i]? = some core → core.id ≠ primaryId) → k = 0

/-- A full configuration does not change. -/
theorem registerCore_full (hfull : config.coreCount = MAX_CORES A) (core : Core) :
    registerCore primaryId defEnableMethod config core = config := by
  have hpos := MAX_CORES_pos A
  simp only [registerCore]
  split
  · rfl
  · rw [CoreConfig.addCore, if_pos hfull.ge]

/-- What happens while there is room. -/
theorem registerCore_room (primaryId : Nat) (defEnableMethod : CoreEnableMethod) (core : Core)
    (hroom : config.coreCount < MAX_CORES A) :
    (registerCore primaryId defEnableMethod config core).coreCount = config.coreCount + 1 ∧
      (registerCore primaryId defEnableMethod config core).cores =
        if core.id = primaryId then
          swapFirst config.coreCount (Function.update config.cores config.coreCount
            (core.withDefault defEnableMethod))
        else Function.update config.cores config.coreCount (core.withDefault defEnableMethod) := by
  have htest : ¬ MAX_CORES A - 1 < config.coreCount := by omega
  simp only [registerCore, CoreConfig.addCore, htest, and_false, if_false, if_neg (Nat.not_le.2 hroom)]
  by_cases hp : core.id = primaryId
  · simp [hp]
  · simp [hp]

theorem swapFirst_swapFirst (k : Nat) (cores : Nat → Core) :
    swapFirst k (swapFirst k cores) = cores := by
  funext i
  simp only [swapFirst, Equiv.swap_apply_self]

theorem swapFirst_zero (cores : Nat → Core) : swapFirst 0 cores = cores := by
  funext i
  simp only [swapFirst, Equiv.swap_self, Equiv.refl_apply]

/-- An exchange below `n` does not move the entry at `n`. -/
theorem swapFirst_update {k n : Nat} (hk : k < n ∨ k = 0) (cores : Nat → Core) (core : Core) :
    swapFirst k (Function.update cores n core) = Function.update (swapFirst k cores) n core := by
  rcases hk with hk | rfl
  · funext i
    by_cases hi : i = n
    · subst hi
      have hswap : Equiv.swap 0 k i = i := Equiv.swap_apply_of_ne_of_ne (by omega) (by omega)
      simp only [swapFirst, hswap, Function.update_self]
    · have hswap : Equiv.swap 0 k i ≠ n := by
        rw [Equiv.swap_apply_def]
        split
        · omega
        · split
          · omega
          · exact hi
      simp only [swapFirst, Function.update_of_ne hi, Function.update_of_ne hswap]
  · rw [swapFirst_zero, swapFirst_zero]

/-- One more core. -/
theorem Filled.register {k : Nat} (h : Filled primaryId defEnableMethod l config k)
    (honce : core.id = primaryId → ∀ x ∈ l, x.id ≠ primaryId) :
    ∃ k', Filled primaryId defEnableMethod (l ++ [core])
      (registerCore primaryId defEnableMethod config core) k' := by
  have hcount := h.count
  by_cases hfull : config.coreCount = MAX_CORES A
  · rw [registerCore_full hfull]
    have hget : ∀ i < config.coreCount, (l ++ [core])[i]? = l[i]? := fun i hi =>
      List.getElem?_append_left (by omega)
    refine ⟨k, ?_, ?_, h.swapped, ?_, ?_⟩
    · rw [List.length_append]
      omega
    · intro i hi
      rw [List.getElem?_map, hget i hi, ← List.getElem?_map]
      exact h.entry i hi
    · intro i hi x hx
      rw [hget i hi] at hx
      exact h.primary i hi x hx
    · intro hnone
      exact h.none fun i hi x hx => hnone i hi x ((hget i hi).trans hx)
  · have hlen : config.coreCount = l.length := by omega
    have hlt : ¬ MAX_CORES A ≤ config.coreCount := by omega
    have hget : ∀ i < config.coreCount, (l ++ [core])[i]? = l[i]? := fun i hi =>
      List.getElem?_append_left (by omega)
    have hlast : (l ++ [core])[config.coreCount]? = some core := by
      rw [hlen]
      exact List.getElem?_concat_length
    rcases registerCore_room primaryId defEnableMethod core (Nat.lt_of_not_le hlt) with
      ⟨hcount', hcores⟩
    -- The primary core goes to the front.
    have hswap : swapFirst (if core.id = primaryId then config.coreCount else k)
        (registerCore primaryId defEnableMethod config core).cores =
          Function.update (swapFirst k config.cores) config.coreCount
            (core.withDefault defEnableMethod) := by
      rw [hcores]
      split
      · rename_i hp
        have hk := h.none fun i _ x hx => honce hp x (List.mem_of_getElem? hx)
        rw [swapFirst_swapFirst, hk, swapFirst_zero]
      · exact swapFirst_update h.swapped _ _
    refine ⟨if core.id = primaryId then config.coreCount else k, ?_, ?_, ?_, ?_, ?_⟩
    · rw [hcount', List.length_append, List.length_singleton]
      omega
    · intro i hi
      rw [hcount'] at hi
      rw [hswap, List.getElem?_map]
      by_cases hin : i = config.coreCount
      · subst hin
        rw [hlast, Function.update_self, Option.map_some]
      · rw [hget i (by omega), ← List.getElem?_map, Function.update_of_ne hin]
        exact h.entry i (by omega)
    · rw [hcount']
      have hk := h.swapped
      split
      · left
        omega
      · omega
    · intro i hi x hx hxp
      rw [hcount'] at hi
      by_cases hin : i = config.coreCount
      · subst hin
        obtain rfl := Option.some.inj (hlast.symm.trans hx)
        rw [if_pos hxp]
      · rw [hget i (by omega)] at hx
        have hp : core.id ≠ primaryId := fun hp => honce hp x (List.mem_of_getElem? hx) hxp
        rw [if_neg hp]
        exact h.primary i (by omega) x hx hxp
    · intro hnone
      rw [hcount'] at hnone
      rw [if_neg (hnone config.coreCount (Nat.lt_succ_self _) core hlast)]
      exact h.none fun i hi x hx => hnone i (by omega) x ((hget i hi).trans hx)

theorem filled_registerCores (A : Arch) (primaryId : Nat) (defEnableMethod : CoreEnableMethod)
    (hids : (l.map Core.id).Nodup) :
    ∃ k, Filled primaryId defEnableMethod l
      (registerCores primaryId defEnableMethod l : CoreConfig A) k := by
  induction l using List.reverseRecOn with
  | nil =>
      refine ⟨0, rfl, ?_, Or.inr rfl, ?_, fun _ => rfl⟩
      · intro i hi
        exact absurd hi (Nat.not_lt_zero i)
      · intro i hi
        exact absurd hi (Nat.not_lt_zero i)
  | append_singleton l core ih =>
      rw [List.map_append, List.nodup_append] at hids
      rcases hids with ⟨hl, -, hne⟩
      rcases ih hl with ⟨k, hk⟩
      rw [registerCores, List.foldl_append]
      refine hk.register ?_
      intro hp x hx hxp
      exact hne x.id (List.mem_map_of_mem hx) core.id (by simp) (hxp.trans hp.symm)

/-- If one of the first `n` entries is dropped by `p`, the others are the first `n - 1` kept ones. -/
theorem filter_take {α : Type} {p : α → Bool} {xs : List α} {n : Nat}
    (hone : ((xs.take n).filter p).length = n - 1) :
    (xs.take n).filter p = (xs.filter p).take (n - 1) := by
  conv_rhs => rw [← List.take_append_drop n xs, List.filter_append]
  rw [← hone, List.take_left]

/-- Among the first cores there is one primary core. -/
theorem count_primary {p n : Nat} (defEnableMethod : CoreEnableMethod) (hids : (l.map Core.id).Nodup) (hp : l[p]? = some core)
    (hcore : core.id = primaryId) (hlt : p < n) :
    ((l.map (Core.withDefault defEnableMethod)).take n).countP (·.id = primaryId) = 1 := by
  have hmap : ((l.map (Core.withDefault defEnableMethod)).take n).map Core.id =
      (l.map Core.id).take n := by
    rw [List.map_take, List.map_map]
    refine congrArg _ (List.map_congr_left fun c _ => ?_)
    exact c.withDefault_id defEnableMethod
  have hcount : ((l.map Core.id).take n).count primaryId = 1 := by
    refine List.count_eq_one_of_mem (hids.sublist (List.take_sublist _ _)) ?_
    refine List.mem_of_getElem? (i := p) ?_
    rw [List.getElem?_take_of_lt hlt, List.getElem?_map, hp, Option.map_some, hcore]
  rw [← hmap, List.count, List.countP_map] at hcount
  rw [← hcount]
  refine List.countP_congr fun c _ => ?_
  simp

theorem Filled.registered {k p : Nat} (h : Filled primaryId defEnableMethod l config k)
    (hids : (l.map Core.id).Nodup) (hp : l[p]? = some core) (hcore : core.id = primaryId)
    (hlt : p < MAX_CORES A) : Registered primaryId defEnableMethod l config := by
  have hpl : p < l.length := (List.getElem?_eq_some_iff.1 hp).1
  have hcount := h.count
  have hpc : p < config.coreCount := by omega
  have hk := h.primary p hpc core hp hcore
  subst hk
  -- Undoing the exchange gives the cores in the order of the calls, up to the count.
  have hlist : (List.range config.coreCount).map (swapFirst k config.cores) =
      (l.map (Core.withDefault defEnableMethod)).take config.coreCount := by
    refine List.ext_getElem? fun i => ?_
    by_cases hi : i < config.coreCount
    · rw [List.getElem?_take_of_lt hi, h.entry i hi, List.getElem?_map, List.getElem?_range hi]
      rfl
    · rw [List.getElem?_eq_none (by simp; omega), List.getElem?_eq_none (by simp; omega)]
  refine ⟨hcount, ⟨core, List.mem_of_getElem? hp, hcore, ?_⟩, k, hpc, ?_⟩
  · have hentry := h.entry k hpc
    rw [List.getElem?_map, hp, Option.map_some, swapFirst, Equiv.swap_apply_right] at hentry
    rw [CoreConfig.getCores, List.getElem?_map, List.getElem?_range (by omega), Option.map_some,
      Option.some.inj hentry]
  · rw [hlist, ← hcount]
    refine filter_take ?_
    -- The identifiers are distinct, so the primary core is counted once and the others fill the rest.
    have hone := count_primary (n := config.coreCount) defEnableMethod hids hp hcore hpc
    have hlen : ((l.map (Core.withDefault defEnableMethod)).take config.coreCount).length =
        config.coreCount := by
      simp
      omega
    have hsum := List.length_eq_countP_add_countP (fun c : Core => decide (c.id = primaryId))
      (l := (l.map (Core.withDefault defEnableMethod)).take config.coreCount)
    have hneg : ((l.map (Core.withDefault defEnableMethod)).take config.coreCount).countP
        (fun c => ¬ decide (c.id = primaryId) = true) =
        ((l.map (Core.withDefault defEnableMethod)).take config.coreCount).countP
          (·.id ≠ primaryId) := List.countP_congr fun c _ => by simp
    rw [← List.countP_eq_length_filter]
    omega

/-- All cores are registered, the primary core first, exactly if fewer than `MAX_CORES` cores stand
before the primary core. -/
theorem registerCores_registered_iff (A : Arch) (defEnableMethod : CoreEnableMethod)
    (hids : (l.map Core.id).Nodup) (hmem : primaryId ∈ l.map Core.id) :
    Registered primaryId defEnableMethod l
        (registerCores primaryId defEnableMethod l : CoreConfig A) ↔
      l.findIdx (·.id = primaryId) < MAX_CORES A := by
  rcases filled_registerCores A primaryId defEnableMethod hids with ⟨k, hk⟩
  rcases List.mem_map.1 hmem with ⟨core, hcore, hid⟩
  have hlt : l.findIdx (·.id = primaryId) < l.length :=
    List.findIdx_lt_length_of_exists ⟨core, hcore, by simpa using hid⟩
  constructor
  · intro h
    by_contra hge
    -- The primary core is not among those that fit.
    have hcount := hk.count
    have hnone : ∀ i < (registerCores primaryId defEnableMethod l : CoreConfig A).coreCount,
        ∀ c, l[i]? = some c → c.id ≠ primaryId := by
      intro i hi c hc hcp
      have hlt' : i < l.findIdx (·.id = primaryId) := by omega
      have hnot := List.not_of_lt_findIdx hlt'
      rcases List.getElem?_eq_some_iff.1 hc with ⟨hil, rfl⟩
      simp [hcp] at hnot
    have hzero := hk.none hnone
    subst hzero
    rcases h.primary with ⟨c, -, hcp, hfirst⟩
    have hpos : 0 < (registerCores primaryId defEnableMethod l : CoreConfig A).coreCount := by
      have := MAX_CORES_pos A
      omega
    have hentry := hk.entry 0 hpos
    rw [swapFirst_zero, List.getElem?_map] at hentry
    rw [CoreConfig.getCores, List.getElem?_map, List.getElem?_range hpos, Option.map_some] at hfirst
    rw [Option.some.inj hfirst] at hentry
    rcases Option.map_eq_some_iff.1 hentry with ⟨x, hx, hxc⟩
    have hxid := congrArg Core.id hxc
    rw [Core.withDefault_id, Core.withDefault_id] at hxid
    exact hnone 0 hpos x hx (hxid.trans hcp)
  · intro hmax
    refine hk.registered hids (List.getElem?_eq_getElem hlt) ?_ hmax
    have hfound := List.findIdx_getElem (w := hlt)
    simpa using hfound

/-- The core `id`, with a spin table. -/
def exampleCore (id : Nat) : Core :=
  { Core.new with id, enableMethod := .spinTable }

/-- Three cores, the last one of them primary. -/
theorem registerCores_registered_three :
    ((([7, 8, 9].map exampleCore).map Core.id).Nodup ∧ 9 ∈ ([7, 8, 9].map exampleCore).map Core.id) ∧
      Registered 9 .invalid ([7, 8, 9].map exampleCore)
        (registerCores 9 .invalid ([7, 8, 9].map exampleCore) : CoreConfig .arm) :=
  ⟨by decide, (registerCores_registered_iff .arm .invalid (by decide) (by decide)).2 (by decide)⟩

/-- On ARM, the primary core behind 16 other cores is dropped. -/
theorem registerCores_drops_primary :
    (((List.range 17).map exampleCore).map Core.id).Nodup ∧
      ¬ Registered 16 .invalid ((List.range 17).map exampleCore)
        (registerCores 16 .invalid ((List.range 17).map exampleCore) : CoreConfig .arm) := by
  refine ⟨by decide, ?_⟩
  rintro ⟨-, ⟨core, hcore, hid, hfirst⟩, -⟩
  have hzero : (registerCores 16 .invalid ((List.range 17).map exampleCore) :
      CoreConfig .arm).getCores[0]? = some (exampleCore 0) := by
    decide +kernel
  rw [hzero] at hfirst
  have heq := congrArg Core.id (Option.some.inj hfirst)
  rw [Core.withDefault_id, hid] at heq
  exact absurd heq (by decide)

end Cpu
end Propeller
