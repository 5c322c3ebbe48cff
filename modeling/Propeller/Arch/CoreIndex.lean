import Mathlib.Data.Finset.Card
import Mathlib.Data.Nat.ModEq
import Mathlib.Data.Nat.Prime.Basic
import Mathlib.Tactic.NormNum.Prime
import Propeller.Arch.Cpu

/-!
# Arch.CoreIndex — the index of a core

`get_core_index` searches the cores if there are at most 32 of them, and asks the hash map otherwise.
`add_core` does not look at what the insertion into the map returns, and the insertion fails if all slots
that are probed for the identifier are taken.  Of the 389 slots of the map 195 are probed for an
identifier, so that this cannot happen to the first 195 cores, but to the next one.
-/

namespace Propeller
namespace Cpu

variable {A : Arch}

def CoreConfig.getCoreIndex (config : CoreConfig A) (id : Nat) : Option Nat :=
  if config.coreCount ≤ 32 then (List.range config.coreCount).find? fun i => (config.cores i).id = id
  else config.idMap.find (hashWord A) id

/-- The calls of `add_core`, with their two arguments. -/
def addCores (calls : List (Core × Bool)) : CoreConfig A :=
  calls.foldl (fun config call => (config.addCore call.1 call.2).2) CoreConfig.new

/-- Exactly the cores of the configuration are found. -/
def Exact (config : CoreConfig A) : Prop :=
  ∀ id i, config.getCoreIndex id = some i ↔ i < config.coreCount ∧ (config.cores i).id = id

/-! ## Slots -/

/-- The slots that are probed for an identifier. -/
def slotsOf (A : Arch) (id : Nat) : List Nat :=
  HashMap.probes (CORE_MAP_SIZE A) (hashWord A id)

/-- An identifier takes the first of its slots that is free, if there is one. -/
def takeSlot (A : Arch) (used : List Nat) (id : Nat) : List Nat :=
  ((slotsOf A id).find? (· ∉ used)).toList ++ used

/-- The slots that are in use after some identifiers, one after the other. -/
def usedSlots (A : Arch) (ids : List Nat) : List Nat :=
  ids.foldl (takeSlot A) []

/-- Every identifier finds a free slot when its turn comes. -/
def Fits (A : Arch) (ids : List Nat) : Prop :=
  ∀ before id, before ++ [id] <+: ids → ∃ idx ∈ slotsOf A id, idx ∉ usedSlots A before

variable {ids : List Nat} {id : Nat}

theorem usedSlots_concat (A : Arch) (ids : List Nat) (id : Nat) :
    usedSlots A (ids ++ [id]) = takeSlot A (usedSlots A ids) id := by
  rw [usedSlots, List.foldl_append]
  rfl

theorem fits_concat : Fits A (ids ++ [id]) ↔ Fits A ids ∧ ∃ idx ∈ slotsOf A id, idx ∉ usedSlots A ids := by
  constructor
  · intro h
    refine ⟨fun before id' hbefore => h before id' (hbefore.trans (List.prefix_append _ _)), ?_⟩
    exact h ids id List.prefix_rfl
  · rintro ⟨hids, hid⟩ before id' hbefore
    rcases List.prefix_concat_iff.1 hbefore with heq | hbefore
    · rcases List.append_inj' heq rfl with ⟨rfl, hlast⟩
      rwa [List.singleton_inj.1 hlast]
    · exact hids before id' hbefore

/-- The next slot in use, if any. -/
theorem takeSlot_cases (A : Arch) (used : List Nat) (id : Nat) :
    takeSlot A used id = used ∧ (∀ idx ∈ slotsOf A id, idx ∈ used) ∨
      ∃ idx ∈ slotsOf A id, idx ∉ used ∧ takeSlot A used id = idx :: used := by
  rw [takeSlot]
  match hfind : (slotsOf A id).find? (· ∉ used) with
  | none =>
      refine Or.inl ⟨rfl, fun idx hidx => ?_⟩
      simpa using List.find?_eq_none.1 hfind idx hidx
  | some idx =>
      refine Or.inr ⟨idx, List.mem_of_find?_eq_some hfind, ?_, rfl⟩
      simpa using List.find?_some hfind

theorem usedSlots_nodup (A : Arch) (ids : List Nat) : (usedSlots A ids).Nodup := by
  induction ids using List.reverseRecOn with
  | nil => exact List.nodup_nil
  | append_singleton ids id ih =>
      rw [usedSlots_concat]
      rcases takeSlot_cases A (usedSlots A ids) id with ⟨heq, -⟩ | ⟨idx, -, hidx, heq⟩
      · rwa [heq]
      · rw [heq]
        exact List.nodup_cons.2 ⟨hidx, ih⟩

theorem usedSlots_length_le (A : Arch) (ids : List Nat) : (usedSlots A ids).length ≤ ids.length := by
  induction ids using List.reverseRecOn with
  | nil => exact Nat.le_refl 0
  | append_singleton ids id ih =>
      rw [usedSlots_concat, List.length_append, List.length_singleton]
      rcases takeSlot_cases A (usedSlots A ids) id with ⟨heq, -⟩ | ⟨idx, -, -, heq⟩
      · rw [heq]
        exact ih.trans (Nat.le_succ _)
      · rw [heq, List.length_cons]
        exact Nat.succ_le_succ ih

/-- If all identifiers fit, each of them has a slot. -/
theorem usedSlots_length (h : Fits A ids) : (usedSlots A ids).length = ids.length := by
  induction ids using List.reverseRecOn with
  | nil => rfl
  | append_singleton ids id ih =>
      rcases fits_concat.1 h with ⟨hids, idx, hidx, hfree⟩
      rw [usedSlots_concat, List.length_append, List.length_singleton]
      rcases takeSlot_cases A (usedSlots A ids) id with ⟨-, hall⟩ | ⟨idx', -, -, heq⟩
      · exact absurd (hall idx hidx) hfree
      · rw [heq, List.length_cons, ih hids]

theorem mem_slotsOf_of_usedSlots {idx : Nat} (h : idx ∈ usedSlots A ids) : ∃ id ∈ ids, idx ∈ slotsOf A id := by
  induction ids using List.reverseRecOn with
  | nil => exact absurd h List.not_mem_nil
  | append_singleton ids id ih =>
      have hids : idx ∈ usedSlots A ids → ∃ id' ∈ ids ++ [id], idx ∈ slotsOf A id' := by
        intro hused
        rcases ih hused with ⟨id', hid', hidx⟩
        exact ⟨id', List.mem_append_left _ hid', hidx⟩
      rw [usedSlots_concat] at h
      rcases takeSlot_cases A (usedSlots A ids) id with ⟨heq, -⟩ | ⟨idx', hidx', -, heq⟩
      · exact hids (heq ▸ h)
      · rw [heq] at h
        rcases List.mem_cons.1 h with rfl | hused
        · exact ⟨id, by simp, hidx'⟩
        · exact hids hused

/-- Identifiers with the same slots fit only if there are enough of them. -/
theorem Fits.length_le {slots : List Nat} (h : Fits A ids) (hslots : ∀ id ∈ ids, slotsOf A id = slots) :
    ids.length ≤ slots.toFinset.card := by
  calc ids.length = (usedSlots A ids).toFinset.card := by
        rw [List.toFinset_card_of_nodup (usedSlots_nodup A ids), usedSlots_length h]
    _ ≤ slots.toFinset.card := by
        refine Finset.card_le_card fun idx hidx => ?_
        rcases mem_slotsOf_of_usedSlots (List.mem_toFinset.1 hidx) with ⟨id, hid, hmem⟩
        exact List.mem_toFinset.2 (hslots id hid ▸ hmem)

/-- The slots depend on the hash modulo the size of the map. -/
theorem slotsOf_eq (A : Arch) (id : Nat) :
    slotsOf A id = (List.range (CORE_MAP_SIZE A)).map fun i =>
      (hashWord A id % CORE_MAP_SIZE A + i * i % CORE_MAP_SIZE A) % CORE_MAP_SIZE A := by
  refine List.map_congr_left fun i _ => ?_
  rw [HashMap.makeProbeIndex, Nat.add_mod]

/-- Two squares are the same modulo 389 only if their roots are the same or add up to 389. -/
theorem square_inj {i j : Nat} (hi : i < 195) (hj : j < 195) (heq : i * i % 389 = j * j % 389) : i = j := by
  wlog hle : j ≤ i generalizing i j
  · exact (this hj hi heq.symm (by omega)).symm
  have hdvd : 389 ∣ (i + j) * (i - j) := by
    rw [← Nat.mul_self_sub_mul_self_eq]
    exact (Nat.modEq_iff_dvd' (Nat.mul_self_le_mul_self hle)).1 heq.symm
  have hprime : Nat.Prime 389 := by norm_num
  rcases hprime.dvd_mul.1 hdvd with hsum | hdiff
  · have hzero := Nat.eq_zero_of_dvd_of_lt hsum (by omega)
    omega
  · have hzero := Nat.eq_zero_of_dvd_of_lt hdiff (by omega)
    omega

/-- Of the 389 slots 195 are probed. -/
theorem card_slotsOf (id : Nat) : (slotsOf .aarch64 id).toFinset.card = 195 := by
  have himage : (slotsOf .aarch64 id).toFinset =
      (Finset.range 195).image fun i => (hashWord .aarch64 id % 389 + i * i % 389) % 389 := by
    ext idx
    simp only [slotsOf_eq, CORE_MAP_SIZE, List.mem_toFinset, List.mem_map, List.mem_range, Finset.mem_image,
      Finset.mem_range]
    constructor
    · rintro ⟨i, hi, rfl⟩
      by_cases hlow : i < 195
      · exact ⟨i, hlow, rfl⟩
      · refine ⟨389 - i, by omega, ?_⟩
        -- The square of `389 - i` is that of `i`.
        have hsq : i * i = (389 - i) * (389 - i) + 389 * (i - (389 - i)) := by
          have hdiff := Nat.mul_self_sub_mul_self_eq i (389 - i)
          have hle := Nat.mul_self_le_mul_self (show 389 - i ≤ i by omega)
          rw [Nat.add_sub_cancel' (by omega : i ≤ 389)] at hdiff
          omega
        rw [hsq, Nat.add_mul_mod_self_left]
    · rintro ⟨i, hi, rfl⟩
      exact ⟨i, by omega, rfl⟩
  rw [himage, Finset.card_image_of_injOn, Finset.card_range]
  intro i hi j hj heq
  rw [Finset.coe_range, Set.mem_Iio] at hi hj
  refine square_inj hi hj ?_
  simp only at heq
  omega

/-- The first 195 cores find a slot. -/
theorem fits_of_length (h : ids.length ≤ 195) : Fits .aarch64 ids := by
  intro before id hbefore
  by_contra hall
  push Not at hall
  have hle : (slotsOf .aarch64 id).toFinset.card ≤ (usedSlots .aarch64 before).toFinset.card :=
    Finset.card_le_card fun idx hidx => List.mem_toFinset.2 (hall idx (List.mem_toFinset.1 hidx))
  have hlen := hbefore.length_le
  have hused := usedSlots_length_le .aarch64 before
  rw [card_slotsOf, List.toFinset_card_of_nodup (usedSlots_nodup _ _)] at hle
  rw [List.length_append, List.length_singleton] at hlen
  omega

/-! ## The map of the identifiers -/

/-- What the map knows after it was asked to take some identifiers, one after the other. -/
structure Mapped (A : Arch) (ids : List Nat) (m : HashMap Nat Nat (CORE_MAP_SIZE A)) : Prop where
  settled : ∀ id ∈ ids, m.Settled (hashWord A) id
  others : ∀ id ∉ ids, m.find (hashWord A) id = none
  used : ∀ idx, m.map idx = none ↔ idx ∉ usedSlots A ids
  stored : (∀ id ∈ ids, m.find (hashWord A) id ≠ none) ↔ Fits A ids

namespace Mapped

variable {m : HashMap Nat Nat (CORE_MAP_SIZE A)}

theorem new (A : Arch) : Mapped A [] HashMap.new := by
  refine ⟨fun _ hid => absurd hid List.not_mem_nil, ?_, ?_, ?_⟩
  · intro id _
    exact HashMap.findAt_eq_none_iff.2 fun _ _ ⟨_, hv⟩ => nomatch hv
  · intro idx
    exact iff_of_true rfl List.not_mem_nil
  · refine iff_of_true (fun _ hid => absurd hid List.not_mem_nil) ?_
    intro before id hbefore
    exact absurd (List.prefix_nil.1 hbefore) (by simp)

/-- The slots that are taken from a new identifier are those in use. -/
theorem taken_iff (h : Mapped A ids m) (hid : id ∉ ids) {idx : Nat} (hidx : idx ∈ slotsOf A id) :
    m.Taken id idx ↔ idx ∈ usedSlots A ids := by
  have hnot : ¬ m.Holds id idx := HashMap.findAt_eq_none_iff.1 (h.others id hid) idx hidx
  constructor
  · rintro ⟨p, hp, -⟩
    by_contra hfree
    exact absurd (((h.used idx).2 hfree).symm.trans hp) (by simp)
  · intro hused
    match hp : m.map idx with
    | none => exact absurd hused ((h.used idx).1 hp)
    | some p =>
        refine ⟨p, hp, ?_⟩
        rintro rfl
        exact hnot ⟨p.2, hp⟩

/-- A new identifier takes the first free slot. -/
theorem used_insert (h : Mapped A ids m) (hid : id ∉ ids) (v idx : Nat) :
    (m.insert (hashWord A) id v).2.map idx = none ↔ idx ∉ usedSlots A (ids ++ [id]) := by
  rw [usedSlots_concat, takeSlot, HashMap.insert]
  rcases HashMap.insertAt_cases id v m (slotsOf A id) with ⟨hrun, hall⟩ | ⟨pre, i, post, heq, hpre, hi, hrun⟩
  · have hnone : (slotsOf A id).find? (· ∉ usedSlots A ids) = none := by
      refine List.find?_eq_none.2 fun j hj => ?_
      simpa using (h.taken_iff hid hj).1 (hall j hj)
    rw [hnone, ← slotsOf, hrun]
    exact h.used idx
  · have hmem : ∀ j ∈ pre, j ∈ slotsOf A id := fun j hj => heq ▸ List.mem_append_left _ hj
    have hsome : (slotsOf A id).find? (· ∉ usedSlots A ids) = some i := by
      refine List.find?_eq_some_iff_append.2 ⟨?_, pre, post, heq, ?_⟩
      · have hfree := mt (h.taken_iff hid (heq ▸ List.mem_append_right _ List.mem_cons_self)).2 hi
        simpa using hfree
      · intro j hj
        simpa using (h.taken_iff hid (hmem j hj)).1 (hpre j hj)
    rw [hsome, ← slotsOf, hrun, Option.toList_some, List.singleton_append, List.mem_cons, not_or]
    by_cases hidx : idx = i
    · subst hidx
      simp
    · simp only [Function.update_of_ne hidx, h.used idx, hidx, not_false_eq_true, true_and]

/-- A new identifier. -/
theorem insert (h : Mapped A ids m) (hid : id ∉ ids) (v : Nat) :
    Mapped A (ids ++ [id]) (m.insert (hashWord A) id v).2 := by
  have hne : ∀ id' ∈ ids, id' ≠ id := fun id' hid' heq => hid (heq ▸ hid')
  refine ⟨?_, ?_, h.used_insert hid v, ?_⟩
  · intro id' hid'
    rcases List.mem_append.1 hid' with hid' | hid'
    · exact (h.settled id' hid').insert_of_ne (hne id' hid') v
    · rw [List.mem_singleton.1 hid']
      exact HashMap.settled_insert _ _ _ _
  · intro id' hid'
    rw [List.mem_append, List.mem_singleton, not_or] at hid'
    rw [HashMap.find_insert_of_ne hid'.2]
    exact h.others id' hid'.1
  · -- The new identifier gets an entry exactly if one of its slots is not in use.
    have hlast : (m.insert (hashWord A) id v).2.find (hashWord A) id ≠ none ↔
        ∃ idx ∈ slotsOf A id, idx ∉ usedSlots A ids := by
      have hiff : (m.insert (hashWord A) id v).1 = true ↔ ∃ idx ∈ slotsOf A id, idx ∉ usedSlots A ids := by
        rw [HashMap.insert_eq_true_iff]
        refine exists_congr fun idx => and_congr_right fun hidx => ?_
        exact not_congr (h.taken_iff hid hidx)
      rw [← hiff]
      match hins : (m.insert (hashWord A) id v).1 with
      | true => exact iff_of_true (by simp [HashMap.find_insert hins]) rfl
      | false => exact iff_of_false (not_not_intro (HashMap.find_insert_eq_none hins)) (by simp)
    rw [fits_concat, ← h.stored, ← hlast]
    simp only [List.mem_append, List.mem_singleton, or_imp, forall_and, forall_eq]
    refine and_congr_left fun _ => forall₂_congr fun id' hid' => ?_
    rw [HashMap.find_insert_of_ne (hne id' hid')]

/-- An identifier that has had its turn. -/
theorem reinsert (h : Mapped A ids m) (hid : id ∈ ids) (v : Nat) :
    Mapped A ids (m.insert (hashWord A) id v).2 := by
  -- A settled identifier either has no free slot, and nothing changes, or is written over its own entry.
  rcases HashMap.insert_settled (h.settled id hid) v with hrun | ⟨i, hi, hold, hrun⟩
  · rwa [hrun]
  · have hins : (m.insert (hashWord A) id v).1 = true := congrArg Prod.fst hrun
    refine ⟨?_, ?_, ?_, ?_⟩
    · intro id' hid'
      by_cases heq : id' = id
      · subst heq
        exact HashMap.settled_insert _ _ _ _
      · exact (h.settled id' hid').insert_of_ne heq v
    · intro id' hid'
      have hne : id' ≠ id := fun heq => hid' (heq ▸ hid)
      rw [HashMap.find_insert_of_ne hne]
      exact h.others id' hid'
    · intro idx
      rw [← h.used idx, hrun]
      by_cases hidx : idx = i
      · subst hidx
        rcases hold with ⟨w, hw⟩
        simp [hw]
      · simp only [Function.update_of_ne hidx]
    · rw [← h.stored]
      refine forall₂_congr fun id' hid' => ?_
      by_cases heq : id' = id
      · subst heq
        have hfound : m.find (hashWord A) id' ≠ none := fun hnone =>
          HashMap.findAt_eq_none_iff.1 hnone i hi hold
        exact iff_of_true (by simp [HashMap.find_insert hins]) hfound
      · rw [HashMap.find_insert_of_ne heq]

end Mapped

/-! ## The configuration -/

/-- The cores have the identifiers `ids`, and the map has the index of every identifier that it has. -/
structure Indexed (ids : List Nat) (config : CoreConfig A) : Prop where
  count : config.coreCount = ids.length
  mem : ∀ id, id ∈ ids ↔ ∃ i < config.coreCount, (config.cores i).id = id
  inj : ∀ i < config.coreCount, ∀ j < config.coreCount, (config.cores i).id = (config.cores j).id → i = j
  mapped : Mapped A ids config.idMap
  value : ∀ id i, config.idMap.find (hashWord A) id = some i → i < config.coreCount ∧ (config.cores i).id = id

namespace Indexed

variable {config : CoreConfig A}

theorem new : Indexed [] (CoreConfig.new : CoreConfig A) := by
  refine ⟨rfl, ?_, ?_, Mapped.new A, ?_⟩
  · intro id
    exact iff_of_false List.not_mem_nil fun ⟨i, hi, _⟩ => absurd hi (Nat.not_lt_zero i)
  · intro i hi
    exact absurd hi (Nat.not_lt_zero i)
  · intro id i hfind
    exact absurd (((Mapped.new A).others id List.not_mem_nil).symm.trans hfind) (by simp)

/-- The core becomes the last one. -/
theorem append (h : Indexed ids config) {core : Core} (hid : core.id ∉ ids) :
    Indexed (ids ++ [core.id]) (⟨Function.update config.cores config.coreCount core, config.coreCount + 1,
      (config.idMap.insert (hashWord A) core.id config.coreCount).2⟩ : CoreConfig A) := by
  have hold : ∀ i < config.coreCount, Function.update config.cores config.coreCount core i = config.cores i :=
    fun i hi => Function.update_of_ne hi.ne _ _
  have hlast : Function.update config.cores config.coreCount core config.coreCount = core :=
    Function.update_self _ _ _
  -- The identifier is new, so no earlier core has it.
  have hne : ∀ i < config.coreCount, (config.cores i).id ≠ core.id := fun i hi heq =>
    hid ((h.mem _).2 ⟨i, hi, heq⟩)
  refine ⟨?_, ?_, ?_, h.mapped.insert hid _, ?_⟩
  · rw [List.length_append, List.length_singleton, h.count]
  · intro id
    rw [List.mem_append, List.mem_singleton, h.mem id]
    constructor
    · rintro (⟨i, hi, hidi⟩ | rfl)
      · exact ⟨i, hi.trans (Nat.lt_succ_self _), (congrArg Core.id (hold i hi)).trans hidi⟩
      · exact ⟨config.coreCount, Nat.lt_succ_self _, congrArg Core.id hlast⟩
    · rintro ⟨i, hi, hidi⟩
      rcases Nat.lt_succ_iff_lt_or_eq.1 hi with hi | rfl
      · exact Or.inl ⟨i, hi, (congrArg Core.id (hold i hi)).symm.trans hidi⟩
      · exact Or.inr (hidi.symm.trans (congrArg Core.id hlast))
  · intro i hi j hj heq
    simp only at hi hj heq
    rcases Nat.lt_succ_iff_lt_or_eq.1 hi with hi | rfl
    · rcases Nat.lt_succ_iff_lt_or_eq.1 hj with hj | rfl
      · rw [hold i hi, hold j hj] at heq
        exact h.inj i hi j hj heq
      · rw [hold i hi, hlast] at heq
        exact absurd heq (hne i hi)
    · rcases Nat.lt_succ_iff_lt_or_eq.1 hj with hj | rfl
      · rw [hold j hj, hlast] at heq
        exact absurd heq.symm (hne j hj)
      · rfl
  · intro id i hfind
    by_cases heq : id = core.id
    · subst heq
      obtain rfl := HashMap.eq_of_find_insert hfind
      exact ⟨Nat.lt_succ_self _, congrArg Core.id hlast⟩
    · rw [HashMap.find_insert_of_ne heq] at hfind
      rcases h.value id i hfind with ⟨hi, hidi⟩
      exact ⟨hi.trans (Nat.lt_succ_self _), (congrArg Core.id (hold i hi)).trans hidi⟩

/-- The core at `n` is exchanged with the first one. -/
theorem promote {n : Nat} (h : Indexed ids config) (hn : n < config.coreCount) :
    Indexed ids (⟨swapFirst n config.cores, config.coreCount,
      ((config.idMap.insert (hashWord A) (config.cores 0).id n).2.insert (hashWord A) (config.cores n).id 0).2⟩ :
        CoreConfig A) := by
  have hzero : 0 < config.coreCount := Nat.zero_lt_of_lt hn
  -- The exchange permutes the indices below the count.
  have hswap : ∀ i < config.coreCount, Equiv.swap 0 n i < config.coreCount := by
    intro i hi
    rw [Equiv.swap_apply_def]
    split
    next => exact hn
    next =>
      split
      next => exact hzero
      next => exact hi
  refine ⟨h.count, ?_, ?_, ?_, ?_⟩
  · intro id
    rw [h.mem id]
    constructor
    · rintro ⟨i, hi, hidi⟩
      refine ⟨Equiv.swap 0 n i, hswap i hi, ?_⟩
      simpa only [swapFirst, Equiv.swap_apply_self] using hidi
    · rintro ⟨i, hi, hidi⟩
      exact ⟨Equiv.swap 0 n i, hswap i hi, hidi⟩
  · intro i hi j hj heq
    exact (Equiv.swap 0 n).injective (h.inj _ (hswap i hi) _ (hswap j hj) heq)
  · exact (h.mapped.reinsert ((h.mem _).2 ⟨0, hzero, rfl⟩) n).reinsert ((h.mem _).2 ⟨n, hn, rfl⟩) 0
  · intro id i hfind
    -- The last insertion that has this identifier gave its index: the second, the first, or an earlier one.
    by_cases hlast : id = (config.cores n).id
    · subst hlast
      obtain rfl := HashMap.eq_of_find_insert hfind
      refine ⟨hzero, ?_⟩
      simp only [swapFirst, Equiv.swap_apply_left]
    · rw [HashMap.find_insert_of_ne hlast] at hfind
      by_cases hfirst : id = (config.cores 0).id
      · subst hfirst
        obtain rfl := HashMap.eq_of_find_insert hfind
        refine ⟨hn, ?_⟩
        simp only [swapFirst, Equiv.swap_apply_right]
      · rw [HashMap.find_insert_of_ne hfirst] at hfind
        rcases h.value id i hfind with ⟨hi, rfl⟩
        refine ⟨hi, ?_⟩
        have hi0 : i ≠ 0 := by
          rintro rfl
          exact hfirst rfl
        have hin : i ≠ n := by
          rintro rfl
          exact hlast rfl
        simp only [swapFirst, Equiv.swap_apply_of_ne_of_ne hi0 hin]

theorem addCore (h : Indexed ids config) {core : Core} (hid : core.id ∉ ids) (hroom : ids.length < MAX_CORES A)
    (isPrimary : Bool) : Indexed (ids ++ [core.id]) (config.addCore core isPrimary).2 := by
  have hlast := h.append hid
  rw [CoreConfig.addCore, if_neg (by rw [h.count]; omega)]
  cases isPrimary with
  | false => exact hlast
  | true => exact hlast.promote (n := config.coreCount) (Nat.lt_succ_self _)

/-- The linear search is exact, and the hash map is exact if it has all identifiers. -/
theorem exact_iff (h : Indexed ids config) : Exact config ↔ config.coreCount ≤ 32 ∨ Fits A ids := by
  -- Up to 32 cores the source searches the list, and the map is not used.
  by_cases hlin : config.coreCount ≤ 32
  · refine iff_of_true ?_ (Or.inl hlin)
    intro id i
    rw [CoreConfig.getCoreIndex, if_pos hlin]
    constructor
    · intro hfind
      refine ⟨List.mem_range.1 (List.mem_of_find?_eq_some hfind), ?_⟩
      simpa using List.find?_some hfind
    · rintro ⟨hi, rfl⟩
      match hfind : (List.range config.coreCount).find? fun j => (config.cores j).id = (config.cores i).id with
      | none => exact absurd (List.find?_eq_none.1 hfind i (List.mem_range.2 hi)) (by simp)
      | some j =>
          have hj := List.mem_range.1 (List.mem_of_find?_eq_some hfind)
          have hid : (config.cores j).id = (config.cores i).id := by simpa using List.find?_some hfind
          rw [h.inj j hj i hi hid]
  · rw [or_iff_right hlin, ← h.mapped.stored]
    have hget : ∀ id, config.getCoreIndex id = config.idMap.find (hashWord A) id := fun id => if_neg hlin
    constructor
    · intro hexact id hid hnone
      rcases (h.mem id).1 hid with ⟨i, hi, hidi⟩
      have hsome := (hexact id i).2 ⟨hi, hidi⟩
      rw [hget, hnone] at hsome
      cases hsome
    · intro hall id i
      rw [hget]
      constructor
      · exact h.value id i
      · rintro ⟨hi, rfl⟩
        match hfind : config.idMap.find (hashWord A) (config.cores i).id with
        | none => exact absurd hfind (hall _ ((h.mem _).2 ⟨i, hi, rfl⟩))
        | some j =>
            rcases h.value _ j hfind with ⟨hj, hid⟩
            rw [h.inj j hj i hi hid]

end Indexed

/-- The identifiers of the cores, in the order of the calls. -/
def callIds (calls : List (Core × Bool)) : List Nat :=
  calls.map fun call => call.1.id

theorem indexed_addCores {calls : List (Core × Bool)} (hlen : calls.length ≤ MAX_CORES A)
    (hids : (callIds calls).Nodup) : Indexed (callIds calls) (addCores calls : CoreConfig A) := by
  induction calls using List.reverseRecOn with
  | nil => exact Indexed.new
  | append_singleton calls call ih =>
      rw [List.length_append, List.length_singleton] at hlen
      rw [callIds, List.map_append, ← callIds, List.map_singleton] at hids ⊢
      rw [List.nodup_append] at hids
      rw [addCores, List.foldl_append]
      have hnew : call.1.id ∉ callIds calls := fun hmem =>
        hids.2.2 _ hmem _ (List.mem_singleton.2 rfl) rfl
      refine (ih (by omega) hids.1).addCore hnew ?_ call.2
      rw [callIds, List.length_map]
      omega

/-- The lookup of cores is exact if and only if there are at most 32 of them or every identifier found a
free slot. -/
theorem addCores_exact_iff {calls : List (Core × Bool)} (hlen : calls.length ≤ MAX_CORES A)
    (hids : (callIds calls).Nodup) :
    Exact (addCores calls : CoreConfig A) ↔ calls.length ≤ 32 ∨ Fits A (callIds calls) := by
  have h := indexed_addCores hlen hids
  rw [h.exact_iff, h.count, callIds, List.length_map]

/-- Cores with the identifiers, none of them primary. -/
def exampleCalls (ids : List Nat) : List (Core × Bool) :=
  ids.map fun id => (exampleCore id, false)

theorem addCores_exact_forty :
    ((exampleCalls (List.range 40)).length ≤ MAX_CORES .aarch64 ∧ (callIds (exampleCalls (List.range 40))).Nodup) ∧
      Exact (addCores (exampleCalls (List.range 40)) : CoreConfig .aarch64) :=
  ⟨⟨by decide, by decide +kernel⟩,
    (addCores_exact_iff (by decide) (by decide +kernel)).2 (Or.inr (fits_of_length (by decide)))⟩

/-- Identifiers of 196 cores that all have the same slots. -/
def collidingIds : List Nat :=
  [321, 451, 626, 701, 774, 1587, 1680, 1788, 2339, 2582, 2641, 2914, 3488, 4115, 4253, 4489, 4650, 4725,
    5414, 6115, 6334, 7622, 7927, 8172, 8346, 8492, 9071, 9237, 9430, 9450, 10139, 10217, 10367, 11343,
    11435, 11608, 11973, 12085, 12282, 12508, 12790, 12920, 13134, 13153, 13626, 14004, 14215, 15015,
    15179, 15673, 16083, 16256, 17027, 17815, 17907, 17921, 18094, 18114, 18230, 18908, 20109, 20129,
    20201, 20382, 20402, 21303, 21516, 21601, 21855, 22073, 22246, 22534, 22794, 23084, 23472, 23753,
    24667, 24677, 25369, 25684, 25704, 25769, 25950, 25970, 26581, 26819, 26888, 27397, 28100, 28754,
    29044, 29168, 29596, 29773, 30139, 30245, 30458, 30841, 31149, 31507, 32218, 32276, 32411, 32584,
    33217, 33534, 33670, 34999, 35537, 35549, 35810, 35822, 37011, 37259, 37869, 38336, 38600, 39096,
    39158, 39362, 39570, 39642, 40488, 40827, 40884, 41191, 41388, 41967, 42589, 43259, 43263, 43328,
    43412, 44075, 44922, 45430, 45816, 46026, 46128, 46866, 47005, 47169, 47535, 47589, 47655, 48073,
    48075, 48238, 48553, 48927, 49592, 49667, 49728, 50004, 50299, 50547, 50734, 50754, 51018, 51065,
    51126, 51548, 52260, 52599, 52749, 52841, 53022, 53423, 53947, 54199, 54375, 54548, 54886, 54969,
    55150, 55217, 55424, 55634, 55690, 55908, 55964, 56112, 56184, 56322, 56597, 56669, 57139, 57508,
    57573, 57774, 58141, 58258, 58409, 58415, 58663, 59221]

/-- The last one of 196 cores is not found. -/
theorem addCores_loses_core :
    ((exampleCalls collidingIds).length ≤ MAX_CORES .aarch64 ∧ (callIds (exampleCalls collidingIds)).Nodup) ∧
      ¬ Exact (addCores (exampleCalls collidingIds) : CoreConfig .aarch64) := by
  have hlen : (exampleCalls collidingIds).length = 196 := by decide +kernel
  have hids : callIds (exampleCalls collidingIds) = collidingIds := by decide +kernel
  have hsorted : collidingIds.IsChain (· < ·) := by decide +kernel
  have hnodup : collidingIds.Nodup := hsorted.pairwise.imp Nat.ne_of_lt
  have hhash : ∀ id ∈ collidingIds, hashWord .aarch64 id % 389 = 142 := by decide +kernel
  have hslots : ∀ id ∈ collidingIds, slotsOf .aarch64 id = slotsOf .aarch64 321 := by
    intro id hid
    rw [slotsOf_eq, slotsOf_eq]
    simp only [CORE_MAP_SIZE, hhash id hid, hhash 321 (by decide)]
  have hmax : (exampleCalls collidingIds).length ≤ MAX_CORES .aarch64 := by
    rw [hlen]
    decide
  rw [hids]
  refine ⟨⟨hmax, hnodup⟩, ?_⟩
  have h := indexed_addCores (A := .aarch64) hmax (hids ▸ hnodup)
  rw [h.exact_iff, h.count, hids]
  rintro (hle | hfits)
  · exact absurd hle (by decide +kernel)
  · have hcard := hfits.length_le hslots
    rw [card_slotsOf] at hcard
    exact absurd hcard (by decide +kernel)

end Cpu
end Propeller
