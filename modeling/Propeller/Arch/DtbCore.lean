import Mathlib.Data.List.ReduceOption
import Mathlib.Data.Nat.ModEq
import Mathlib.Tactic.Ring
import Propeller.Arch.DtbCpu
import Propeller.Support.DtbTree

/-!
# Arch.DtbCore — the core that a `cpu@N` node describes

The properties of a node describe a core, whatever their order.  The scanner finds it if it comes to all of them:
if every reader leaves the cursor at the end of its value.  The reader of `reg` leaves it in front of the value, and
the reader of `compatible` behind the first string; then the words that are left of the value are taken for tokens.
-/

namespace Propeller
namespace DtbCpu

open Cpu DtbReader

/-! ## The core of some properties -/

/-- The bytes up to the first null byte. -/
def firstString (value : List UInt8) : List UInt8 :=
  value.takeWhile (· ≠ 0)

/-- The enable method with the name. -/
def methodOf (name : List UInt8) : CoreEnableMethod :=
  if name = asBytes "spin-table" then .spinTable
  else if name = asBytes "brcm,bcm2836-smp" then .bcm2836
  else .invalid

/-- The core that the properties describe, on top of a given one. -/
def coreFrom (A : Arch) (core : Core) (props : List (List UInt8 × List UInt8)) : Core where
  id := (props.lookup (asBytes "reg")).elim core.id fun v => fromBeBytes v % 2 ^ 64 % A.wordLimit
  coreType := (props.lookup (asBytes "compatible")).elim core.coreType fun v => copyType core.coreType (firstString v)
  enableMethod := (props.lookup (asBytes "enable-method")).elim core.enableMethod fun v => methodOf (firstString v)
  releaseAddr := (props.lookup (asBytes "cpu-release-addr")).elim core.releaseAddr fromBeBytes

/-- The core that the properties describe. -/
def coreOf (A : Arch) (props : List (List UInt8 × List UInt8)) : Core :=
  coreFrom A Core.new props

/-- What is required of the value of a property; the scanner reads `addrCells` cells of a `reg` property. -/
structure WellFormed (A : Arch) (addrCells : Nat) (p : DtbProperty) : Prop where
  compatible : p.name = asBytes "compatible" → 0 ∈ p.value
  enableMethod : p.name = asBytes "enable-method" →
    p.value = asBytes "spin-table" ++ [0] ∨ p.value = asBytes "brcm,bcm2836-smp" ++ [0]
  releaseAddr : p.name = asBytes "cpu-release-addr" →
    (p.value.length = 4 ∨ p.value.length = 8) ∧ fromBeBytes p.value < A.wordLimit
  reg : p.name = asBytes "reg" → 0 < addrCells ∧ p.value.length = 4 * addrCells

instance (A : Arch) (addrCells : Nat) (p : DtbProperty) : Decidable (WellFormed A addrCells p) :=
  decidable_of_iff
    ((p.name = asBytes "compatible" → 0 ∈ p.value) ∧
      (p.name = asBytes "enable-method" →
        p.value = asBytes "spin-table" ++ [0] ∨ p.value = asBytes "brcm,bcm2836-smp" ++ [0]) ∧
      (p.name = asBytes "cpu-release-addr" →
        (p.value.length = 4 ∨ p.value.length = 8) ∧ fromBeBytes p.value < A.wordLimit) ∧
      (p.name = asBytes "reg" → 0 < addrCells ∧ p.value.length = 4 * addrCells))
    ⟨fun h => ⟨h.1, h.2.1, h.2.2.1, h.2.2.2⟩, fun h => ⟨h.compatible, h.enableMethod, h.releaseAddr, h.reg⟩⟩

/-! ## Where the readers leave the cursor -/

/-- The words of some bytes. -/
def wordsOf : List UInt8 → List Nat
  | a :: b :: c :: d :: bytes => fromBeBytes [a, b, c, d] :: wordsOf bytes
  | _ => []

/-- How far the reader of a property moves the cursor into the value. -/
def landing (p : DtbProperty) : Nat :=
  if p.name = asBytes "compatible" then (padded (firstString p.value ++ [0])).length
  else if p.name = asBytes "reg" then 0
  else (padded p.value).length

/-- The first word behind the cursor that is not taken for `FDT_NOOP`, if the value has one. -/
def leftover (p : DtbProperty) : Option Nat :=
  (wordsOf ((padded p.value).drop (landing p))).find? (· ≠ fdtNoop)

/-- The items up to the first property that the cursor does not come to the end of. -/
def seen : List (Option DtbProperty) → List (Option DtbProperty)
  | [] => []
  | none :: items => none :: seen items
  | some p :: items => some p :: if leftover p = none then seen items else []

/-- The items behind that property. -/
def unseen : List (Option DtbProperty) → List (Option DtbProperty)
  | [] => []
  | none :: items => unseen items
  | some p :: items => if leftover p = none then unseen items else items

/-- The property describes what a new core already is. -/
def Idle (A : Arch) (p : DtbProperty) : Prop :=
  coreOf A [(p.name, p.value)] = Core.new

/-- No word that is left of a value is taken for `FDT_PROP`. -/
def Steady (items : List (Option DtbProperty)) : Prop :=
  ∀ p, some p ∈ seen items → leftover p ≠ some fdtProp

theorem steady_of_forall {items : List (Option DtbProperty)}
    (h : ∀ p ∈ (seen items).reduceOption, leftover p ≠ some fdtProp) : Steady items :=
  fun p hp => h p (List.reduceOption_mem_iff.mpr hp)

variable {P : Profile} {A : Arch} {R : DtbReader} {loc addrCells : Nat} {core : Core} {p : DtbProperty}
  {props props' : List (List UInt8 × List UInt8)} {items items' : List (Option DtbProperty)} {bytes : List UInt8}

/-! ## Properties in any order -/

theorem lookup_perm (hprops : (props.map Prod.fst).Nodup) (hperm : props.Perm props') (k : List UInt8) :
    props.lookup k = props'.lookup k := by
  have hprops' : (props'.map Prod.fst).Nodup := (hperm.map Prod.fst).nodup_iff.1 hprops
  refine Option.ext fun v => ?_
  rw [lookup_eq_some_iff_mem hprops, lookup_eq_some_iff_mem hprops', hperm.mem_iff]

/-- The core does not depend on the order of the properties. -/
theorem coreOf_perm (A : Arch) (hprops : (props.map Prod.fst).Nodup) (hperm : props.Perm props') :
    coreOf A props = coreOf A props' := by
  simp only [coreOf, coreFrom, lookup_perm hprops hperm]

theorem lookup_singleton_of_ne {k name value : List UInt8} (h : name ≠ k) : [(name, value)].lookup k = none := by
  rw [List.lookup_cons, beq_false_of_ne (Ne.symm h)]
  rfl

/-- A field after a property and then others, of which none has the same name. -/
theorem elim_lookup_cons {β : Type} {q : List UInt8 × List UInt8} (hq : q.1 ∉ props.map Prod.fst) (k : List UInt8)
    (d : β) (f : β → List UInt8 → β) :
    (props.lookup k).elim (([q].lookup k).elim d (f d)) (f (([q].lookup k).elim d (f d))) =
      ((q :: props).lookup k).elim d (f d) := by
  by_cases hk : k = q.1
  · subst hk
    have hnone : props.lookup q.1 = none := by
      rw [List.lookup_eq_none_iff]
      intro x hx
      exact bne_iff_ne.mpr fun heq => hq (heq ▸ List.mem_map_of_mem hx)
    rw [hnone, List.lookup_cons, List.lookup_cons, beq_self_eq_true]
    rfl
  · rw [lookup_singleton_of_ne (Ne.symm hk), List.lookup_cons, beq_false_of_ne hk]
    rfl

/-- One property after the other. -/
theorem coreFrom_cons {q : List UInt8 × List UInt8} (A : Arch) (core : Core) (hq : q.1 ∉ props.map Prod.fst) :
    coreFrom A (coreFrom A core [q]) props = coreFrom A core (q :: props) := by
  simp only [coreFrom]
  congr 1
  · exact elim_lookup_cons hq _ _ fun _ v => fromBeBytes v % 2 ^ 64 % A.wordLimit
  · exact elim_lookup_cons hq _ _ fun coreType v => copyType coreType (firstString v)
  · exact elim_lookup_cons hq _ _ fun _ v => methodOf (firstString v)
  · exact elim_lookup_cons hq _ _ fun _ v => fromBeBytes v

/-! ## Numbers and words in a blob -/

theorem fromBeBytes_append (xs ys : List UInt8) :
    fromBeBytes (xs ++ ys) = fromBeBytes xs * 256 ^ ys.length + fromBeBytes ys := by
  have hgen : ∀ (ys : List UInt8) (n : Nat), ys.foldl (fun n b => n * 256 + b.toNat) n =
      n * 256 ^ ys.length + ys.foldl (fun n b => n * 256 + b.toNat) 0 := by
    intro ys
    induction ys with
    | nil => simp
    | cons b ys ih =>
        intro n
        rw [List.foldl_cons, ih, List.foldl_cons, ih (0 * 256 + b.toNat), List.length_cons, Nat.pow_succ]
        ring
  rw [fromBeBytes, List.foldl_append, hgen]
  rfl

/-- The first word of some bytes in the blob. -/
theorem wordAt_eq (h : R.Holds loc bytes) (hlen : 4 ≤ bytes.length) :
    R.wordAt loc = fromBeBytes (bytes.take 4) ∧ loc + 4 ≤ R.dtb.length ∧ R.Holds (loc + 4) (bytes.drop 4) := by
  have hsplit : bytes = bytes.take 4 ++ bytes.drop 4 := (List.take_append_drop 4 bytes).symm
  have htake : (bytes.take 4).length = 4 := List.length_take_of_le hlen
  have hle := h.le (List.ne_nil_of_length_pos (by omega))
  rw [hsplit] at h
  rcases h.append with ⟨hfirst, hrest⟩
  have hslice := hfirst.slice
  rw [htake] at hslice hrest
  exact ⟨by rw [wordAt, hslice], by omega, hrest⟩

/-- Cells are read as one number, as far as it fits. -/
theorem readCells_bytes {cells value : Nat} (hR : R.Sound) (h : R.Holds loc bytes) (hlen : bytes.length = 4 * cells)
    (hvalue : value < 2 ^ 64) :
    R.readCells P A cells value loc = .ok ((value * 2 ^ (32 * cells) + fromBeBytes bytes) % 2 ^ 64, loc + 4 * cells) := by
  -- The accumulator is shifted by a cell in each round, and what leaves 64 bits is lost.
  induction cells generalizing loc bytes value with
  | zero =>
      obtain rfl := List.length_eq_zero_iff.mp hlen
      rw [readCells, Nat.mul_zero, Nat.pow_zero, Nat.mul_one, show fromBeBytes [] = 0 from rfl, Nat.add_zero,
        Nat.mod_eq_of_lt hvalue]
      rfl
  | succ cells ih =>
      rcases wordAt_eq h (by omega) with ⟨hword, hle, hrest⟩
      have hlt := R.wordAt_lt loc
      have hdrop : (bytes.drop 4).length = 4 * cells := by
        rw [List.length_drop]
        omega
      have hnumber : fromBeBytes bytes = R.wordAt loc * 2 ^ (32 * cells) + fromBeBytes (bytes.drop 4) := by
        have hpow : 256 ^ (4 * cells) = 2 ^ (32 * cells) := by
          rw [show 256 = 2 ^ 8 from rfl, ← Nat.pow_mul]
          congr 1
          omega
        have happ := fromBeBytes_append (bytes.take 4) (bytes.drop 4)
        rwa [List.take_append_drop, hdrop, hpow, ← hword] at happ
      -- The cut of this round is a cut of the sum, so one cut at the end does the same.
      have hmod : ((value * 2 ^ 32 + R.wordAt loc) % 2 ^ 64 * 2 ^ (32 * cells) + fromBeBytes (bytes.drop 4)) % 2 ^ 64 =
          (value * 2 ^ (32 * (cells + 1)) + fromBeBytes bytes) % 2 ^ 64 := by
        have hcong := ((Nat.mod_modEq (value * 2 ^ 32 + R.wordAt loc) (2 ^ 64)).mul_right (2 ^ (32 * cells))).add_right
          (fromBeBytes (bytes.drop 4))
        have hpow : 2 ^ (32 * (cells + 1)) = 2 ^ 32 * 2 ^ (32 * cells) := by
          rw [Nat.mul_succ, Nat.pow_add, Nat.mul_comm]
        rw [hnumber, hpow]
        refine hcong.trans (congrArg (· % 2 ^ 64) ?_)
        ring
      rw [readCells, getU32Unchecked_eq hR hle, scan_ok_bind]
      simp only
      rw [shift_or_cell hlt, ih hrest hdrop (Nat.mod_lt _ (Nat.two_pow_pos 64)), hmod]
      congr 2
      omega

/-- Bytes of which every word is `FDT_NOOP` are passed; otherwise the reader comes to the first word that is not. -/
theorem words_cases (h : R.Holds loc bytes) (hlen : 4 ∣ bytes.length) :
    ((wordsOf bytes).find? (· ≠ fdtNoop) = none → R.NoopsTo loc (loc + bytes.length)) ∧
      ∀ w, (wordsOf bytes).find? (· ≠ fdtNoop) = some w →
        ∃ t, R.NoopsTo loc t ∧ t + 4 ≤ R.dtb.length ∧ R.wordAt t = w ∧ w ≠ fdtNoop := by
  -- Word by word: a no-op moves the location on, and any other word is the token that the scan finds.
  induction bytes using wordsOf.induct generalizing loc with
  | case1 a b c d bytes ih =>
      rcases wordAt_eq h (by simp) with ⟨hword, hle, hrest⟩
      have hdvd : 4 ∣ bytes.length := by
        simp only [List.length_cons] at hlen
        omega
      rcases ih hrest hdvd with ⟨hnone, hsome⟩
      have hword' : R.wordAt loc = fromBeBytes [a, b, c, d] := hword
      rw [wordsOf, List.find?_cons, ← hword']
      by_cases hnoop : R.wordAt loc = fdtNoop
      · simp only [hnoop, ne_eq, not_true_eq_false, decide_false]
        refine ⟨fun hfind => ?_, fun w hfind => ?_⟩
        · have hend := (hnone hfind).head hle hnoop
          rw [List.length_cons, List.length_cons, List.length_cons, List.length_cons]
          convert hend using 1
          omega
        · rcases hsome w hfind with ⟨t, hto, hrest⟩
          exact ⟨t, hto.head hle hnoop, hrest⟩
      · simp only [hnoop, ne_eq, not_false_eq_true, decide_true, reduceCtorEq, Option.some.injEq, false_implies, true_and]
        rintro w rfl
        exact ⟨loc, NoopsTo.refl loc, hle, rfl, hnoop⟩
  | case2 bytes hshort =>
      have hnil : bytes = [] := by
        match bytes, hshort, hlen with
        | [], _, _ => rfl
        | [_], _, hlen | [_, _], _, hlen | [_, _, _], _, hlen =>
            simp only [List.length_cons, List.length_nil] at hlen
            omega
        | a :: b :: c :: d :: bytes, hshort, _ => exact absurd rfl (hshort a b c d bytes)
      subst hnil
      exact ⟨fun _ => NoopsTo.refl loc, fun w hfind => nomatch hfind⟩

/-! ## The readers -/

/-- The string that is read of a value, and where the cursor is left. -/
theorem readString_eq {name rest : List UInt8} (hR : R.Sound) (hloc : 4 ∣ loc) (h : R.Holds loc (name ++ 0 :: rest))
    (hname : 0 ∉ name) (hroom : loc + (padded (name ++ [0])).length + 4 ≤ R.dtb.length) :
    readString P A R loc = .ok (name, loc + (padded (name ++ [0])).length) := by
  rw [padded_length, List.length_append, List.length_singleton] at *
  have hstring : R.Holds loc (name ++ [0]) := by
    rw [← List.singleton_append, ← List.append_assoc] at h
    exact h.append.1
  have hskip : skipTo R.dtb.length 1 (loc + name.length) = loc + (name.length + 1 + 3) / 4 * 4 := by
    rw [skipTo, if_neg (by omega)]
    omega
  rw [readString, (hstring.string hname).1, scan_ok_bind, okOr_some, scan_ok_bind]
  simp only [skipAndAlign_eq hR (show loc + name.length ≤ R.dtb.length by omega), scan_ok_bind, hskip]
  rfl

theorem value_split {value : List UInt8} (h : 0 ∈ value) : ∃ rest, value = firstString value ++ 0 :: rest := by
  induction value with
  | nil => cases h
  | cons b value ih =>
      by_cases hb : b = 0
      · subst hb
        exact ⟨value, by simp [firstString]⟩
      · rcases List.mem_cons.mp h with heq | h
        · exact absurd heq.symm hb
        · rcases ih h with ⟨rest, hrest⟩
          refine ⟨rest, ?_⟩
          rw [firstString, List.takeWhile_cons_of_pos (by simpa using hb), List.cons_append]
          exact congrArg (b :: ·) hrest

theorem zero_not_mem_firstString (value : List UInt8) : 0 ∉ firstString value := by
  intro h
  have hall := List.all_takeWhile (p := fun b => decide (b ≠ 0)) (l := value)
  have hzero := List.all_eq_true.mp hall 0 h
  simp at hzero

/-- A property that does not describe the core leaves it as it is. -/
theorem coreFrom_other {name value : List UInt8} (A : Arch) (core : Core) (hreg : name ≠ asBytes "reg")
    (hcompatible : name ≠ asBytes "compatible") (hmethod : name ≠ asBytes "enable-method")
    (haddr : name ≠ asBytes "cpu-release-addr") : coreFrom A core [(name, value)] = core := by
  simp only [coreFrom, lookup_singleton_of_ne hreg, lookup_singleton_of_ne hcompatible, lookup_singleton_of_ne hmethod,
    lookup_singleton_of_ne haddr, Option.elim_none]

/-- The value of a property, with what follows its padding. -/
structure ValueAt (R : DtbReader) (loc : Nat) (value : List UInt8) : Prop where
  aligned : 4 ∣ loc
  holds : R.Holds loc (padded value)
  room : loc + (padded value).length + 4 ≤ R.dtb.length

theorem ValueAt.value {value : List UInt8} (h : ValueAt R loc value) :
    R.Holds loc value ∧ loc + value.length + 4 ≤ R.dtb.length := by
  have hroom := h.room
  rw [padded_length] at hroom
  exact ⟨h.holds.append.1, by omega⟩

theorem readCpuProperty_compatible (hR : R.Sound) (size : Nat) (h : ValueAt R loc p.value) (hzero : 0 ∈ p.value) :
    readCpuProperty P A R addrCells size loc core (some .dtbPropCompatible) =
      .ok (loc + (padded (firstString p.value ++ [0])).length,
        { core with coreType := copyType core.coreType (firstString p.value) }) := by
  rcases value_split hzero with ⟨rest, hsplit⟩
  have hlen := congrArg List.length hsplit
  have hroom := h.room
  rw [List.length_append, List.length_cons] at hlen
  have hholds := h.value.1
  rw [hsplit] at hholds
  have hread := readString_eq (P := P) (A := A) hR h.aligned hholds (zero_not_mem_firstString p.value) (by
    rw [padded_length] at hroom ⊢
    rw [List.length_append, List.length_singleton]
    omega)
  simp only [readCpuProperty, readCompatible, hread, scan_ok_bind]
  rfl

theorem readCpuProperty_enableMethod {name : List UInt8} {tag : DtbStringTag} {method : CoreEnableMethod} (hR : R.Sound)
    (size : Nat) (h : ValueAt R loc (name ++ [0])) (hname : 0 ∉ name) (htag : findTag A name = some tag)
    (hmethod : enableMethodOf (some tag) = .ok method) :
    readCpuProperty P A R addrCells size loc core (some .dtbPropEnableMethod) =
      .ok (loc + (padded (name ++ [0])).length, { core with enableMethod := method }) := by
  have hread := readString_eq (P := P) (A := A) hR h.aligned h.value.1 hname h.room
  simp only [readCpuProperty, readEnableMethod, hread, scan_ok_bind, htag, hmethod]
  rfl

theorem readCpuProperty_releaseAddr (hR : R.Sound) (h : ValueAt R loc p.value)
    (hlen : p.value.length = 4 ∨ p.value.length = 8) (hlt : fromBeBytes p.value < A.wordLimit) :
    readCpuProperty P A R addrCells p.value.length loc core (some .dtbPropCpuReleaseAddr) =
      .ok (loc + (padded p.value).length, { core with releaseAddr := fromBeBytes p.value }) := by
  rcases h.value with ⟨hholds, hroom⟩
  -- The source reads one cell or two by the length of the property.
  rcases hlen with hlen | hlen
  · rcases wordAt_eq hholds (by omega) with ⟨hword, hle, -⟩
    rw [List.take_of_length_le (by omega)] at hword
    rw [padded_length, hlen]
    simp only [readCpuProperty, readCpuReleaseAddr, getU32_eq hR, scan_ok_bind, if_pos hle, okOr_some, if_pos, hword]
    rfl
  · rcases wordAt_eq hholds (by omega) with ⟨hword, -, hrest⟩
    rcases wordAt_eq hrest (by rw [List.length_drop]; omega) with ⟨hword', hle, -⟩
    rw [List.take_of_length_le (by rw [List.length_drop]; omega)] at hword'
    have hvalue : R.wordAt loc <<< fdtWordBits ||| R.wordAt (loc + 4) = fromBeBytes p.value := by
      have hlow := R.wordAt_lt (loc + 4)
      have happ := fromBeBytes_append (p.value.take 4) (p.value.drop 4)
      rw [List.take_append_drop, List.length_drop, hlen, ← hword, ← hword'] at happ
      rw [fdtWordBits, ← Nat.shiftLeft_add_eq_or_of_lt hlow, Nat.shiftLeft_eq, happ,
        show 256 ^ (8 - 4) = 2 ^ 32 from rfl]
    rw [padded_length, hlen]
    simp only [readCpuProperty, readCpuReleaseAddr, getU64_eq hR, scan_ok_bind, if_pos (show loc + 8 ≤ R.dtb.length by omega),
      okOr_some, hvalue, if_pos hlt]
    rfl

theorem readCpuProperty_reg (hR : R.Sound) (size : Nat) (h : ValueAt R loc p.value) (hcells : 0 < addrCells)
    (hlen : p.value.length = 4 * addrCells) :
    readCpuProperty P A R addrCells size loc core (some .dtbPropReg) =
      .ok (loc, { core with id := fromBeBytes p.value % 2 ^ 64 % A.wordLimit }) := by
  have hlimit := hR.lengths A
  rcases h.value with ⟨hholds, hroom⟩
  have hread := readCells_bytes (P := P) (A := A) hR hholds hlen (Nat.two_pow_pos 64)
  rw [Nat.zero_mul, Nat.zero_add] at hread
  have hpair : R.getRegPair P A addrCells 0 loc =
      .ok (some ((fromBeBytes p.value % 2 ^ 64, 0), loc + 4 * addrCells)) := by
    rw [getRegPair, if_neg (by omega), getRegPairSize_eq (by omega), scan_ok_bind, subWord_of_le (by omega) (by omega),
      checked_ok, scan_ok_bind, if_neg (by omega), hread, scan_ok_bind]
    rfl
  have hid : readThreadId P A R addrCells loc = .ok (fromBeBytes p.value % 2 ^ 64) := by
    rw [readThreadId, getRegPairSize_eq (by omega), scan_ok_bind, if_neg (by omega), hpair, scan_ok_bind, okOr_some]
    rfl
  simp only [readCpuProperty, hid, scan_ok_bind]
  rfl

/-- Properties without a reader are skipped. -/
theorem readCpuProperty_other (hR : R.Sound) {tag : Option DtbStringTag} (h : ValueAt R loc p.value)
    (htag : tag ≠ some .dtbPropCompatible ∧ tag ≠ some .dtbPropEnableMethod ∧ tag ≠ some .dtbPropCpuReleaseAddr ∧
      tag ≠ some .dtbPropReg) :
    readCpuProperty P A R addrCells p.value.length loc core tag = .ok (loc + (padded p.value).length, core) := by
  have hroom := h.room
  rw [padded_length] at *
  have hskip : (do return (← R.skipAndAlign P A p.value.length loc, core) : Scan (Nat × Core)) =
      .ok (loc + (p.value.length + 3) / 4 * 4, core) := by
    rw [skipAndAlign_eq hR (by omega), scan_ok_bind, skipTo_aligned h.aligned hroom]
    rfl
  match tag, htag with
  | none, _ | some .dtbPropAddressCells, _ | some .dtbPropSizeCells, _ | some .dtbValueSpinTable, _
  | some .dtbValueBcm2836, _ => exact hskip
  | some .dtbPropCompatible, htag => exact absurd rfl htag.1
  | some .dtbPropEnableMethod, htag => exact absurd rfl htag.2.1
  | some .dtbPropCpuReleaseAddr, htag => exact absurd rfl htag.2.2.1
  | some .dtbPropReg, htag => exact absurd rfl htag.2.2.2

theorem findTag_of_mem {name : List UInt8} (tag : DtbStringTag) (h : (name, tag) ∈ strings) : findTag A name = some tag :=
  (findTag_eq_some_iff A).mpr h

/-- The reader of a well-formed property stores what the property describes, and leaves the cursor where it lands. -/
theorem cpuProperty_eq (hR : R.Sound) (hp : WellFormed A addrCells p) (h : ValueAt R loc p.value) :
    cpuProperty P A R addrCells ⟨p.value.length, p.nameOffset, p.name⟩ loc core =
      .ok (loc + landing p, coreFrom A core [(p.name, p.value)]) := by
  rw [cpuProperty, landing]
  simp only
  by_cases hcompatible : p.name = asBytes "compatible"
  · rw [if_pos hcompatible, hcompatible, findTag_of_mem .dtbPropCompatible (by decide),
      readCpuProperty_compatible hR _ h (hp.compatible hcompatible)]
    rfl
  by_cases hreg : p.name = asBytes "reg"
  · rcases hp.reg hreg with ⟨hcells, hlen⟩
    rw [if_neg hcompatible, if_pos hreg, hreg, findTag_of_mem .dtbPropReg (by decide),
      readCpuProperty_reg hR _ h hcells hlen]
    rfl
  rw [if_neg hcompatible, if_neg hreg]
  by_cases hmethod : p.name = asBytes "enable-method"
  · rw [hmethod, findTag_of_mem .dtbPropEnableMethod (by decide)]
    rcases hp.enableMethod hmethod with hvalue | hvalue
    · rw [hvalue] at h ⊢
      rw [readCpuProperty_enableMethod hR _ h (by decide) (findTag_of_mem .dtbValueSpinTable (by decide)) rfl]
      rfl
    · rw [hvalue] at h ⊢
      rw [readCpuProperty_enableMethod hR _ h (by decide) (findTag_of_mem .dtbValueBcm2836 (by decide)) rfl]
      rfl
  by_cases haddr : p.name = asBytes "cpu-release-addr"
  · rcases hp.releaseAddr haddr with ⟨hlen, hlt⟩
    rw [haddr, findTag_of_mem .dtbPropCpuReleaseAddr (by decide), readCpuProperty_releaseAddr hR h hlen hlt]
    rfl
  -- No other name has a reader.
  have hname : ∀ tag name, findTag A p.name = some tag → (∀ q ∈ strings, q.2 = tag → q.1 = name) → p.name = name := by
    intro tag name hfind huniq
    exact huniq _ ((findTag_eq_some_iff A).mp hfind) rfl
  rw [coreFrom_other A core hreg hcompatible hmethod haddr]
  refine readCpuProperty_other hR h ⟨fun hfind => ?_, fun hfind => ?_, fun hfind => ?_, fun hfind => ?_⟩
  · exact hcompatible (hname _ (asBytes "compatible") hfind (by decide))
  · exact hmethod (hname _ (asBytes "enable-method") hfind (by decide))
  · exact haddr (hname _ (asBytes "cpu-release-addr") hfind (by decide))
  · exact hreg (hname _ (asBytes "reg") hfind (by decide))

/-! ## The loop over the properties -/

theorem landing_le (hp : WellFormed A addrCells p) : landing p ≤ (padded p.value).length ∧ 4 ∣ landing p := by
  have hdvd : ∀ bytes : List UInt8, 4 ∣ (padded bytes).length := fun bytes => by
    rw [padded_length]
    exact Nat.dvd_mul_left 4 _
  rw [landing]
  split
  next hname =>
    refine ⟨?_, hdvd _⟩
    rcases value_split (hp.compatible hname) with ⟨rest, hsplit⟩
    have hlen := congrArg List.length hsplit
    rw [List.length_append, List.length_cons] at hlen
    rw [padded_length, padded_length, List.length_append, List.length_singleton]
    omega
  next =>
    split
    next => exact ⟨Nat.zero_le _, Nat.dvd_zero 4⟩
    next => exact ⟨le_rfl, hdvd _⟩

/-- A `cpu@N` node in a blob: its properties are well formed and have different names. -/
structure CpuNodeAt (A : Arch) (R : DtbReader) (addrCells loc : Nat) (items : List (Option DtbProperty)) : Prop where
  aligned : 4 ∣ loc
  holds : R.Holds loc (flattenItems items)
  named : ∀ p, some p ∈ items → R.NamedAt p
  wellFormed : ∀ p, some p ∈ items → WellFormed A addrCells p
  nodup : ((properties items).map Prod.fst).Nodup
  ends : ∃ t, R.EndsAt (loc + (flattenItems items).length) t

theorem properties_cons_some (p : DtbProperty) (items : List (Option DtbProperty)) :
    properties (some p :: items) = (p.name, p.value) :: properties items := rfl

theorem properties_seen_subset (items : List (Option DtbProperty)) :
    (properties (seen items)).Sublist (properties items) := by
  induction items with
  | nil => exact List.Sublist.refl _
  | cons item items ih =>
      cases item with
      | none => exact ih
      | some p =>
          rw [seen, properties_cons_some, properties_cons_some]
          split
          · exact ih.cons_cons _
          · exact (List.nil_sublist _).cons_cons _

/-- The rest of a node is a node. -/
theorem CpuNodeAt.tail {item : Option DtbProperty} (h : CpuNodeAt A R addrCells loc (item :: items)) :
    CpuNodeAt A R addrCells (loc + (flattenItem item).length) items := by
  have hdvd : 4 ∣ (flattenItem item).length := by
    cases item with
    | none => exact Nat.dvd_refl 4
    | some p =>
        rw [flattenItem_length]
        omega
  have hends := h.ends
  rw [flattenItems, List.flatMap_cons, List.length_append, ← Nat.add_assoc] at hends
  refine ⟨Nat.dvd_add h.aligned hdvd, h.holds.append.2, fun p hp => h.named p (List.mem_cons_of_mem item hp),
    fun p hp => h.wellFormed p (List.mem_cons_of_mem item hp), ?_, hends⟩
  have hnodup := h.nodup
  cases item with
  | none => exact hnodup
  | some p =>
      rw [properties_cons_some, List.map_cons, List.nodup_cons] at hnodup
      exact hnodup.2

/-- The value of the first property. -/
theorem CpuNodeAt.valueAt (hR : R.Sound) (h : CpuNodeAt A R addrCells loc (some p :: items)) :
    ValueAt R (loc + 12) p.value := by
  rcases h.holds.append with ⟨hitem, -⟩
  have hlen := flattenItem_length p
  rcases h.tail.ends with ⟨t, hends⟩
  have hle := hends.1.le
  have hle' := hends.2.1
  refine ⟨Nat.dvd_add h.aligned (by decide), (hitem.item hR (h.named p List.mem_cons_self)).2.2.2, ?_⟩
  rw [padded_length]
  omega

/-- The loop ends with what the properties describe that the cursor comes to. -/
theorem CpuNodeAt.leavesWith (hR : R.Sound) (h : CpuNodeAt A R addrCells loc items) (hsteady : Steady items)
    (core : Core) :
    R.LeavesWith P A (cpuProperty P A R addrCells) loc core (coreFrom A core (properties (seen items))) := by
  induction items generalizing loc core with
  | nil =>
      rcases h.ends with ⟨t, hends⟩
      exact LeavesWith.of_none (EndsAt.none hR hends) core
  | cons item items ih =>
      cases item with
      | none =>
          have hword := h.holds.append.1.word (by decide)
          have hsteady' : Steady items := fun q hq => hsteady q (by
            rw [seen]
            exact List.mem_cons_of_mem _ hq)
          exact (ih h.tail hsteady' core).of_next_eq (getNextProperty_noop hR hword.1 hword.2)
      | some p =>
          have hp := h.wellFormed p List.mem_cons_self
          have hvalue := h.valueAt hR
          have hheader := h.holds.append.1.header (P := P) (A := A) hR (h.named p List.mem_cons_self)
          refine LeavesWith.of_some hheader (cpuProperty_eq hR hp hvalue) ?_
          -- What is left of the value behind the cursor.
          rcases landing_le hp with ⟨hle, hdvd⟩
          have hlen := flattenItem_length p
          have hdrop : ((padded p.value).drop (landing p)).length = (padded p.value).length - landing p :=
            List.length_drop
          have hrest : R.Holds (loc + 12 + landing p) ((padded p.value).drop (landing p)) := by
            have hholds := hvalue.holds
            rw [← List.take_append_drop (landing p) (padded p.value)] at hholds
            have hrest := hholds.append.2
            rwa [List.length_take_of_le hle] at hrest
          have hdvd' : 4 ∣ ((padded p.value).drop (landing p)).length := by
            rw [padded_length] at hle hdrop
            omega
          rcases words_cases hrest hdvd' with ⟨hnone, hsome⟩
          rw [seen, properties_cons_some]
          split
          next hleft =>
            have hnoops := hnone hleft
            have hnext : loc + 12 + landing p + ((padded p.value).drop (landing p)).length =
                loc + (flattenItem (some p)).length := by
              rw [padded_length] at hle hdrop
              omega
            rw [hnext] at hnoops
            have hnotin : p.name ∉ (properties (seen items)).map Prod.fst := by
              intro hmem
              have hnodup := h.nodup
              rw [properties_cons_some, List.map_cons, List.nodup_cons] at hnodup
              exact hnodup.1 (((properties_seen_subset items).map Prod.fst).subset hmem)
            have hsteady' : Steady items := by
              intro q hq
              refine hsteady q ?_
              rw [seen, if_pos hleft]
              exact List.mem_cons_of_mem _ hq
            have htail := ih h.tail hsteady' (coreFrom A core [(p.name, p.value)])
            rw [coreFrom_cons A core hnotin] at htail
            exact htail.of_next_eq (getNextProperty_noops hR hnoops)
          next hleft =>
            rcases Option.ne_none_iff_exists'.mp hleft with ⟨w, hw⟩
            rcases hsome w hw with ⟨t, hnoops, hroom, hword, hnoop⟩
            have hprop : R.wordAt t ≠ fdtProp := by
              rw [hword]
              intro heq
              refine hsteady p ?_ (heq ▸ hw)
              rw [seen]
              exact List.mem_cons_self
            exact LeavesWith.of_none (getNextProperty_token hR hnoops hroom hprop (hword ▸ hnoop)) _

/-- What the loop of `scan_cpu_node` reads. -/
theorem CpuNodeAt.read (hR : R.Sound) (h : CpuNodeAt A R addrCells loc items) (hsteady : Steady items) :
    R.forProperties P A (cpuProperty P A R addrCells) loc Core.new = .ok (coreOf A (properties (seen items))) :=
  (h.leavesWith hR hsteady Core.new).forProperties hR (cpuProperty_advances hR)

/-! ## Properties that are not read -/

theorem properties_seen_append (items : List (Option DtbProperty)) :
    properties items = properties (seen items) ++ properties (unseen items) := by
  induction items with
  | nil => rfl
  | cons item items ih =>
      cases item with
      | none => exact ih
      | some p =>
          rw [seen, unseen, properties_cons_some, properties_cons_some, List.cons_append]
          split
          · rw [← ih]
          · rfl

/-- A field does not depend on more properties, if none of them changes it. -/
theorem elim_lookup_append_iff {β : Type} (hprops : ((props ++ props').map Prod.fst).Nodup) (k : List UInt8) (d : β)
    (f : List UInt8 → β) :
    (props.lookup k).elim d f = ((props ++ props').lookup k).elim d f ↔ ∀ q ∈ props', ([q].lookup k).elim d f = d := by
  rw [List.map_append, List.nodup_append] at hprops
  rcases hprops with ⟨-, hnodup, hdisjoint⟩
  rw [List.lookup_append]
  -- With distinct names at most one of the two halves has `k`, and only the second half matters.
  cases hlookup : props'.lookup k with
  | none =>
      rw [Option.or_none]
      refine iff_of_true rfl fun q hq => ?_
      have hne := bne_iff_ne.mp (List.lookup_eq_none_iff.mp hlookup q hq)
      rw [lookup_singleton_of_ne (Ne.symm hne)]
      rfl
  | some v =>
      have hmem := (lookup_eq_some_iff_mem hnodup).mp hlookup
      have hnone : props.lookup k = none := by
        rw [List.lookup_eq_none_iff]
        intro x hx
        refine bne_iff_ne.mpr fun heq => ?_
        exact hdisjoint x.1 (List.mem_map_of_mem hx) k (List.mem_map_of_mem hmem) heq.symm
      rw [hnone, Option.none_or]
      constructor
      · intro heq q hq
        by_cases hk : q.1 = k
        · have hq' : (k, q.2) ∈ props' := hk ▸ hq
          rw [← lookup_eq_some_iff_mem hnodup, hlookup] at hq'
          rw [List.lookup_cons, hk, beq_self_eq_true, ← Option.some.inj hq']
          exact heq.symm
        · rw [lookup_singleton_of_ne hk]
          rfl
      · intro hall
        have hv := hall _ hmem
        rw [List.lookup_cons, beq_self_eq_true] at hv
        exact hv.symm

/-- More properties describe the same core if each of them describes what a new core already is. -/
theorem coreOf_append_iff (A : Arch) (hprops : ((props ++ props').map Prod.fst).Nodup) :
    coreOf A props = coreOf A (props ++ props') ↔ ∀ q ∈ props', coreOf A [q] = Core.new := by
  have hnew : ∀ q, coreOf A [q] = Core.new ↔ _ := fun q => Iff.of_eq (Core.mk.injEq ..)
  have happend : coreOf A props = coreOf A (props ++ props') ↔ _ := Iff.of_eq (Core.mk.injEq ..)
  simp only [hnew, happend, elim_lookup_append_iff hprops, forall_and]
  exact Iff.rfl

theorem coreOf_seen_iff (hitems : ((properties items).map Prod.fst).Nodup) :
    coreOf A (properties (seen items)) = coreOf A (properties items) ↔ ∀ p, some p ∈ unseen items → Idle A p := by
  have hsplit := properties_seen_append items
  rw [hsplit] at hitems
  rw [hsplit, coreOf_append_iff A hitems]
  constructor
  · intro h p hp
    exact h _ (List.mem_filterMap.mpr ⟨some p, hp, rfl⟩)
  · intro h q hq
    rcases List.mem_filterMap.mp hq with ⟨_ | p, hp, hval⟩
    · cases hval
    · cases hval
      exact h p hp

/-! ## The core that is added -/

/-- The node adds the core, whatever the scanner has found before. -/
def AddsCore (P : Profile) (A : Arch) (R : DtbReader) (addrCells loc : Nat) (core : Core) : Prop :=
  ∀ (primaryId : Nat) (s : Scanner A), s.addrCells = addrCells → scanCpuNode P A R primaryId loc s =
    .ok { s with config := registerCore primaryId s.defEnableMethod s.config core }

/-- In an empty configuration the core that is added can be seen. -/
theorem registerCore_new (A : Arch) (primaryId : Nat) (core : Core) :
    (registerCore primaryId .invalid (CoreConfig.new : CoreConfig A) core).cores 0 = core := by
  have hroom : (CoreConfig.new : CoreConfig A).coreCount < MAX_CORES A := MAX_CORES_pos A
  have hdefault : core.withDefault .invalid = core := by
    rcases core with ⟨id, coreType, enableMethod, releaseAddr⟩
    cases enableMethod <;> rfl
  rw [(registerCore_room primaryId .invalid core hroom).2, hdefault]
  split
  · exact congrFun (swapFirst_zero _) 0
  · rfl

/-- The node adds the core that is read, and no other. -/
theorem addsCore_iff {core' : Core}
    (hread : R.forProperties P A (cpuProperty P A R addrCells) loc Core.new = .ok core') :
    AddsCore P A R addrCells loc core ↔ core' = core := by
  have hscan : ∀ (primaryId : Nat) (s : Scanner A), s.addrCells = addrCells → scanCpuNode P A R primaryId loc s =
      .ok { s with config := registerCore primaryId s.defEnableMethod s.config core' } := by
    rintro primaryId s rfl
    rw [scanCpuNode, hread]
    rfl
  constructor
  · intro h
    -- A scanner that has found nothing yet.
    have heq := (hscan 0 ⟨CoreConfig.new, addrCells, .invalid⟩ rfl).symm.trans (h 0 _ rfl)
    have hconfig := congrArg Scanner.config (Except.ok.inj heq)
    calc core' = (registerCore 0 .invalid (CoreConfig.new : CoreConfig A) core').cores 0 := (registerCore_new A 0 core').symm
      _ = (registerCore 0 .invalid (CoreConfig.new : CoreConfig A) core).cores 0 := congrFun (congrArg CoreConfig.cores hconfig) 0
      _ = core := registerCore_new A 0 core
  · rintro rfl
    exact hscan

theorem CpuNodeAt.addsCore_iff (hR : R.Sound) (h : CpuNodeAt A R addrCells loc items) (hsteady : Steady items) :
    AddsCore P A R addrCells loc (coreOf A (properties items)) ↔ ∀ p, some p ∈ unseen items → Idle A p := by
  rw [DtbCpu.addsCore_iff (h.read hR hsteady), coreOf_seen_iff h.nodup]

/-- Two orderings of the same properties add the core that the properties describe, exactly if the properties behind
the first value that is not read to its end describe nothing. -/
theorem scanCpuNode_perm_iff {R' : DtbReader} {loc' : Nat} (P : Profile) (hR : R.Sound) (hR' : R'.Sound)
    (h : CpuNodeAt A R addrCells loc items) (h' : CpuNodeAt A R' addrCells loc' items')
    (hperm : (properties items).Perm (properties items')) (hsteady : Steady items) (hsteady' : Steady items') :
    (AddsCore P A R addrCells loc (coreOf A (properties items)) ∧
        AddsCore P A R' addrCells loc' (coreOf A (properties items))) ↔
      (∀ p, some p ∈ unseen items → Idle A p) ∧ ∀ p, some p ∈ unseen items' → Idle A p := by
  have hcore := coreOf_perm A h.nodup hperm
  rw [h.addsCore_iff hR hsteady, hcore, h'.addsCore_iff hR' hsteady']

/-- A blob with the items at `cpu@1`. -/
def cpuBlob (items : List (Option DtbProperty)) : List UInt8 :=
  DeviceTree.blob
    ⟨[], [], .node (asBytes "cpus")
      [some ⟨asBytes "#address-cells", ofWords [1], 0⟩, some ⟨asBytes "#size-cells", ofWords [0], 15⟩]
      (.node (asBytes "cpu@1") items .nil .nil) .nil, 0⟩
    (["#address-cells", "#size-cells", "compatible", "enable-method", "reg"].map asBytes)

/-- The reader of the blob. -/
def cpuReader (items : List (Option DtbProperty)) : DtbReader :=
  let blob := cpuBlob items
  ⟨blob, 40, blob.length - 56, 0, 17, 16, 0, 56, blob.length - 96⟩

/-- What can be evaluated of a node. -/
theorem cpuReader_node
    (hitems : ∀ p ∈ items.reduceOption, 0 ∉ p.name ∧ p.nameOffset < 2 ^ 32 ∧
      p.name ++ [0] <+: (cpuReader items).dtb.drop ((cpuReader items).dtStringsOffset + p.nameOffset))
    (hwell : ∀ p ∈ items.reduceOption, WellFormed .aarch64 1 p)
    (hholds : flattenItems items <+: (cpuReader items).dtb.drop 104)
    (hnodup : ((properties items).map Prod.fst).Nodup)
    (hends : 104 + (flattenItems items).length + 4 ≤ (cpuReader items).dtb.length ∧
      (cpuReader items).wordAt (104 + (flattenItems items).length) = fdtEndNode) :
    CpuNodeAt .aarch64 (cpuReader items) 1 104 items := by
  refine ⟨by decide, hholds, fun p hp => ?_, fun p hp => hwell p (List.reduceOption_mem_iff.mpr hp), hnodup,
    _, NoopsTo.refl _, hends.1, Or.inr hends.2⟩
  rcases hitems p (List.reduceOption_mem_iff.mpr hp) with ⟨hname, hoffset, htable⟩
  exact ⟨hname, hoffset, htable⟩

def compatibleProperty : Option DtbProperty :=
  some ⟨asBytes "compatible", asBytes "arm,cortex-a53" ++ [0], 27⟩

def methodProperty : Option DtbProperty :=
  some ⟨asBytes "enable-method", asBytes "spin-table" ++ [0], 38⟩

def regProperty (id : Nat) : Option DtbProperty :=
  some ⟨asBytes "reg", ofWords [id], 52⟩

/-- The identifier is the last property in both orderings. -/
theorem scanCpuNode_perm_reg_last :
    AddsCore .dev .aarch64 (cpuReader [compatibleProperty, methodProperty, regProperty 1]) 1 104
        (coreOf .aarch64 (properties [compatibleProperty, methodProperty, regProperty 1])) ∧
      AddsCore .dev .aarch64 (cpuReader [methodProperty, none, compatibleProperty, regProperty 1]) 1 104
        (coreOf .aarch64 (properties [compatibleProperty, methodProperty, regProperty 1])) := by
  have hunseen : ∀ items : List (Option DtbProperty), unseen items = [] → ∀ p, some p ∈ unseen items → Idle .aarch64 p := by
    intro items hnil p hp
    rw [hnil] at hp
    cases hp
  refine (scanCpuNode_perm_iff .dev (by constructor <;> decide +kernel) (by constructor <;> decide +kernel)
    (cpuReader_node ?_ ?_ ?_ ?_ ?_) (cpuReader_node ?_ ?_ ?_ ?_ ?_) ?_ (steady_of_forall ?_) (steady_of_forall ?_)).mpr
    ⟨hunseen _ ?_, hunseen _ ?_⟩
  all_goals decide +kernel

/-- An identifier in front of the other properties: its value is taken for the token of a new node. -/
theorem scanCpuNode_reg_first_differs :
    new .dev .aarch64 (cpuBlob [regProperty 1, compatibleProperty, methodProperty]) =
        .ok (cpuReader [regProperty 1, compatibleProperty, methodProperty]) ∧
      new .dev .aarch64 (cpuBlob [compatibleProperty, methodProperty, regProperty 1]) =
        .ok (cpuReader [compatibleProperty, methodProperty, regProperty 1]) ∧
      CpuNodeAt .aarch64 (cpuReader [regProperty 1, compatibleProperty, methodProperty]) 1 104
        [regProperty 1, compatibleProperty, methodProperty] ∧
      CpuNodeAt .aarch64 (cpuReader [compatibleProperty, methodProperty, regProperty 1]) 1 104
        [compatibleProperty, methodProperty, regProperty 1] ∧
      (properties [regProperty 1, compatibleProperty, methodProperty]).Perm
        (properties [compatibleProperty, methodProperty, regProperty 1]) ∧
      AddsCore .dev .aarch64 (cpuReader [regProperty 1, compatibleProperty, methodProperty]) 1 104
        ⟨1, List.replicate CORE_TYPE_LEN 0, .invalid, 0⟩ ∧
      AddsCore .dev .aarch64 (cpuReader [compatibleProperty, methodProperty, regProperty 1]) 1 104
        ⟨1, copyType (List.replicate CORE_TYPE_LEN 0) (asBytes "arm,cortex-a53"), .spinTable, 0⟩ ∧
      ¬ AddsCore .dev .aarch64 (cpuReader [regProperty 1, compatibleProperty, methodProperty]) 1 104
        (coreOf .aarch64 (properties [regProperty 1, compatibleProperty, methodProperty])) := by
  have hread : (cpuReader [regProperty 1, compatibleProperty, methodProperty]).forProperties .dev .aarch64
      (cpuProperty .dev .aarch64 (cpuReader [regProperty 1, compatibleProperty, methodProperty]) 1) 104 Core.new =
        .ok ⟨1, List.replicate CORE_TYPE_LEN 0, .invalid, 0⟩ := by decide +kernel
  have hread' : (cpuReader [compatibleProperty, methodProperty, regProperty 1]).forProperties .dev .aarch64
      (cpuProperty .dev .aarch64 (cpuReader [compatibleProperty, methodProperty, regProperty 1]) 1) 104 Core.new =
        .ok ⟨1, copyType (List.replicate CORE_TYPE_LEN 0) (asBytes "arm,cortex-a53"), .spinTable, 0⟩ := by decide +kernel
  refine ⟨by decide +kernel, by decide +kernel, cpuReader_node ?_ ?_ ?_ ?_ ?_, cpuReader_node ?_ ?_ ?_ ?_ ?_,
    by decide +kernel, (addsCore_iff hread).mpr rfl, (addsCore_iff hread').mpr rfl, mt (addsCore_iff hread).mp ?_⟩
  all_goals decide +kernel

end DtbCpu
end Propeller
