import Propeller.Support.DtbWalk

/-!
# Support.DtbTree — the scan of a flattened tree

The flattened form of a device tree, and that `scan` inverts it: the scanner is called once for a node, in
pre-order, with the name of the node and a cursor from which its properties can be read.  The walk has no depth
counter: it passes the `FDT_END_NODE` tokens on its way to the next `FDT_BEGIN_NODE`.
-/

namespace Propeller

/-! ## Device trees -/

/-- A property; the place of its name in the string table is up to the writer of the blob. -/
structure DtbProperty where
  name : List UInt8
  value : List UInt8
  nameOffset : Nat
  deriving DecidableEq, Repr

/-- Nodes in order, with `FDT_NOOP` tokens between them.  The items of a node are its properties and more such
tokens. -/
inductive Forest
  | nil
  | noop (rest : Forest)
  | node (name : List UInt8) (items : List (Option DtbProperty)) (children rest : Forest)

/-- A device tree: its root, and the number of `FDT_NOOP` tokens behind it. -/
structure DeviceTree where
  name : List UInt8
  items : List (Option DtbProperty)
  children : Forest
  trailing : Nat

/-! ## The flattened form -/

/-- The bytes with padding up to the next word. -/
def padded (bytes : List UInt8) : List UInt8 :=
  bytes ++ List.replicate ((4 - bytes.length % 4) % 4) 0

def flattenName (name : List UInt8) : List UInt8 :=
  padded (name ++ [0])

def flattenItem : Option DtbProperty → List UInt8
  | none => toBeBytes fdtNoop
  | some p =>
      toBeBytes fdtProp ++ (toBeBytes p.value.length ++ (toBeBytes p.nameOffset ++ padded p.value))

def flattenItems (items : List (Option DtbProperty)) : List UInt8 :=
  items.flatMap flattenItem

def Forest.flatten : Forest → List UInt8
  | .nil => []
  | .noop rest => toBeBytes fdtNoop ++ rest.flatten
  | .node name items children rest =>
      toBeBytes fdtBeginNode ++ (flattenName name ++ (flattenItems items ++ (children.flatten ++
        (toBeBytes fdtEndNode ++ rest.flatten))))

/-- The `FDT_NOOP` tokens behind the root. -/
def Forest.noops : Nat → Forest
  | 0 => .nil
  | n + 1 => .noop (Forest.noops n)

/-- The nodes of the whole tree. -/
def DeviceTree.forest (t : DeviceTree) : Forest :=
  .node t.name t.items t.children (Forest.noops t.trailing)

/-- The structure block. -/
def DeviceTree.flatten (t : DeviceTree) : List UInt8 :=
  t.forest.flatten ++ toBeBytes fdtEnd

/-- The blob of the tree: the header, the structure block, and the strings block. -/
def DeviceTree.blob (t : DeviceTree) (strings : List (List UInt8)) : List UInt8 :=
  let size := t.flatten.length
  let block := strings.flatMap fun s => s ++ [0]
  ofWords [fdtMagic, 40 + size + block.length, 40, 40 + size, 0, 17, 16, 0, block.length, size] ++ (t.flatten ++ block)

/-- The properties among the items. -/
def properties (items : List (Option DtbProperty)) : List (List UInt8 × List UInt8) :=
  items.filterMap fun item => item.map fun p => (p.name, p.value)

/-- The nodes with their properties, depth first. -/
def Forest.preorder : Forest → List (List UInt8 × List (List UInt8 × List UInt8))
  | .nil => []
  | .noop rest => rest.preorder
  | .node name items children rest => (name, properties items) :: (children.preorder ++ rest.preorder)

/-- The calls of the scanner, for nodes that stand at `loc`: the names and the cursors. -/
def Forest.calls : Forest → Nat → List (List UInt8 × Nat)
  | .nil, _ => []
  | .noop rest, loc => rest.calls (loc + 4)
  | .node name items children rest, loc =>
      let body := loc + 4 + (flattenName name).length
      let inner := body + (flattenItems items).length
      (name, body) :: (children.calls inner ++ rest.calls (inner + children.flatten.length + 4))

/-! ## Bytes in a blob -/

theorem toBeBytes_length (n : Nat) : (toBeBytes n).length = 4 := rfl

theorem fromBeBytes_toBeBytes {n : Nat} (h : n < 2 ^ 32) : fromBeBytes (toBeBytes n) = n := by
  simp only [fromBeBytes, toBeBytes, List.foldl_cons, List.foldl_nil, UInt8.toNat_ofNat']
  omega

theorem padded_length (bytes : List UInt8) : (padded bytes).length = (bytes.length + 3) / 4 * 4 := by
  rw [padded, List.length_append, List.length_replicate]
  omega

namespace DtbReader

variable {P : Profile} {A : Arch} {R : DtbReader} {loc t : Nat} {bytes bytes' name : List UInt8}

/-- The bytes stand at the offset. -/
def Holds (R : DtbReader) (loc : Nat) (bytes : List UInt8) : Prop :=
  bytes <+: R.dtb.drop loc

theorem Holds.append (h : R.Holds loc (bytes ++ bytes')) : R.Holds loc bytes ∧ R.Holds (loc + bytes.length) bytes' := by
  refine ⟨(List.prefix_append bytes bytes').trans h, ?_⟩
  rcases h with ⟨rest, hrest⟩
  refine ⟨rest, ?_⟩
  rw [← List.drop_drop, ← hrest, List.append_assoc, List.drop_left]

theorem Holds.le (h : R.Holds loc bytes) (hne : bytes ≠ []) : loc + bytes.length ≤ R.dtb.length := by
  have hlen := h.length_le
  have hpos := List.length_pos_iff.2 hne
  rw [List.length_drop] at hlen
  omega

theorem Holds.slice (h : R.Holds loc bytes) : (R.dtb.take (loc + bytes.length)).drop loc = bytes := by
  rw [List.drop_take, Nat.add_sub_cancel_left]
  exact (List.prefix_iff_eq_take.1 h).symm

theorem Holds.word {n : Nat} (h : R.Holds loc (toBeBytes n)) (hn : n < 2 ^ 32) :
    loc + 4 ≤ R.dtb.length ∧ R.wordAt loc = n := by
  refine ⟨h.le (by simp [toBeBytes]), ?_⟩
  have hslice := h.slice
  rw [toBeBytes_length] at hslice
  rw [wordAt, hslice, fromBeBytes_toBeBytes hn]

theorem findNull_append (hname : 0 ∉ name) (rest : List UInt8) (loc : Nat) :
    findNull (name ++ 0 :: rest) loc = loc + name.length := by
  induction name generalizing loc with
  | nil => simp [findNull]
  | cons b name ih =>
      rw [List.mem_cons, not_or] at hname
      rw [List.cons_append, findNull, if_neg (Ne.symm hname.1), ih hname.2, List.length_cons]
      omega

/-- A string that stands in the blob is read. -/
theorem Holds.null (h : R.Holds loc (name ++ [0])) (hname : 0 ∉ name) :
    findNull (R.dtb.drop loc) loc = loc + name.length ∧ loc + name.length < R.dtb.length := by
  have hle := h.le (by simp)
  rw [List.length_append, List.length_singleton] at hle
  rcases h with ⟨rest, hrest⟩
  rw [List.append_assoc, List.singleton_append] at hrest
  rw [← hrest, findNull_append hname]
  exact ⟨rfl, by omega⟩

theorem Holds.string (h : R.Holds loc (name ++ [0])) (hname : 0 ∉ name) :
    R.getNullTerminatedU8Slice loc = .ok (some (name, loc + name.length)) ∧ R.stringAt loc = some name := by
  have hnull := h.null hname
  have hslice := h.append.1.slice
  rw [getNullTerminatedU8Slice_eq (by omega), stringAt, hnull.1, if_neg (by omega), if_neg (by omega), hslice]
  exact ⟨rfl, rfl⟩

/-- A cursor skips to the next word, if there is one. -/
theorem skipTo_aligned {len n : Nat} (hloc : 4 ∣ loc) (hle : loc + (n + 3) / 4 * 4 + 4 ≤ len) :
    skipTo len n loc = loc + (n + 3) / 4 * 4 := by
  rw [skipTo, if_neg (by omega)]
  omega

/-! ## The properties of a node -/

/-- The name of a property ends, and stands in the string table. -/
structure NamedAt (R : DtbReader) (p : DtbProperty) : Prop where
  name : 0 ∉ p.name
  offset : p.nameOffset < 2 ^ 32
  table : R.Holds (R.dtStringsOffset + p.nameOffset) (p.name ++ [0])

/-- Repeated `get_next_property` and `skip_and_align(header.size)`: the names and the values. -/
def collect (P : Profile) (A : Arch) (R : DtbReader) (header : DtbPropertyHeader) (loc : Nat)
    (acc : List (List UInt8 × List UInt8)) : Scan (Nat × List (List UInt8 × List UInt8)) := do
  let value ← R.slice loc (loc + header.size)
  return (← R.skipAndAlign P A header.size loc, acc ++ [(header.name, value)])

def readProperties (P : Profile) (A : Arch) (R : DtbReader) (loc : Nat) : Scan (List (List UInt8 × List UInt8)) :=
  R.forProperties P A (R.collect P A) loc []

/-- The parts of a property in the blob. -/
theorem Holds.item {p : DtbProperty} (hR : R.Sound) (h : R.Holds loc (flattenItem (some p))) (hp : R.NamedAt p) :
    R.PropAt loc loc ∧ R.wordAt (loc + 4) = p.value.length ∧ R.wordAt (loc + 8) = p.nameOffset ∧
      R.Holds (loc + 12) (padded p.value) := by
  have hlen := hR.lengths .arm
  have hmax : Arch.wordLimit .arm = 2 ^ 32 := rfl
  have hle := h.le (by simp [flattenItem, toBeBytes])
  simp only [flattenItem, List.length_append, toBeBytes_length, padded_length] at hle
  rcases h.append with ⟨htoken, h⟩
  rcases h.append with ⟨hsize, h⟩
  rcases h.append with ⟨hoffset, hvalue⟩
  simp only [toBeBytes_length, Nat.add_assoc, Nat.reduceAdd] at hsize hoffset hvalue
  refine ⟨⟨NoopsTo.refl loc, (htoken.word (by decide)).2, by omega⟩, ?_, ?_, hvalue⟩
  · exact (hsize.word (by omega)).2
  · exact (hoffset.word hp.offset).2

theorem flattenItem_length (p : DtbProperty) :
    (flattenItem (some p)).length = 12 + (p.value.length + 3) / 4 * 4 := by
  simp only [flattenItem, List.length_append, toBeBytes_length, padded_length]
  omega

/-- The header of a property in the blob. -/
theorem Holds.header {p : DtbProperty} (hR : R.Sound) (h : R.Holds loc (flattenItem (some p))) (hp : R.NamedAt p) :
    R.getNextProperty P A loc = .ok (some ⟨p.value.length, p.nameOffset, p.name⟩, loc + 12) := by
  rcases h.item hR hp with ⟨hat, hsize, hoffset, -⟩
  have hin := hp.table.le (by simp)
  rw [List.length_append] at hin
  rw [getNextProperty_eq hR hat (by rw [hoffset]; omega), hoffset, hsize, (hp.table.string hp.name).2]
  rfl

/-- `get_next_property` passes `FDT_NOOP` tokens. -/
theorem getNextProperty_noop (hR : R.Sound) (hle : loc + 4 ≤ R.dtb.length) (hw : R.wordAt loc = fdtNoop) :
    R.getNextProperty P A loc = R.getNextProperty P A (loc + 4) := by
  refine (getNextProperty_eq_iff hR).2 ?_
  have hrun : R.getNextProperty P A (loc + 4) = R.getNextProperty P A (loc + 4) := rfl
  rcases (getNextProperty_eq_iff hR).1 hrun with ⟨t, ht, hr⟩
  exact ⟨t, ht.head hle hw, hr⟩

/-- The items of a node end at a token that is neither a property nor `FDT_NOOP`. -/
def EndsAt (R : DtbReader) (loc t : Nat) : Prop :=
  R.NoopsTo loc t ∧ t + 4 ≤ R.dtb.length ∧ (R.wordAt t = fdtBeginNode ∨ R.wordAt t = fdtEndNode)

theorem collect_advances (hR : R.Sound) : R.Advances (R.collect P A) := by
  intro header loc acc loc' acc' hloc hstep
  rw [collect] at hstep
  rcases scan_bind_eq_ok.1 hstep with ⟨value, -, hstep⟩
  rw [skipAndAlign_eq hR hloc] at hstep
  cases hstep
  have hlen := hR.lengths .arm
  exact (skipTo_bounds hloc (by omega) header.size).1

theorem getNextProperty_noops (hR : R.Sound) (h : R.NoopsTo loc t) :
    R.getNextProperty P A loc = R.getNextProperty P A t := by
  rcases h with ⟨k, rfl, hk⟩
  induction k with
  | zero => rfl
  | succ k ih =>
      have hlast := hk k (Nat.lt_succ_self k)
      rw [ih fun i hi => hk i (Nat.lt_succ_of_lt hi), getNextProperty_noop hR hlast.1 hlast.2]
      rfl

theorem EndsAt.none (hR : R.Sound) (h : R.EndsAt loc t) : R.getNextProperty P A loc = .ok (none, t) := by
  rcases h with ⟨hnoops, hle, htoken⟩
  have hprop : R.wordAt t ≠ fdtProp := by rcases htoken with h | h <;> rw [h] <;> decide
  have hnoop : R.wordAt t ≠ fdtNoop := by rcases htoken with h | h <;> rw [h] <;> decide
  exact getNextProperty_token hR hnoops hle hprop hnoop

/-- The loop over the properties of a node comes to its end with all of them. -/
theorem collect_items (hR : R.Sound) {items : List (Option DtbProperty)} (hloc : 4 ∣ loc)
    (h : R.Holds loc (flattenItems items)) (hitems : ∀ p, some p ∈ items → R.NamedAt p)
    (hend : R.EndsAt (loc + (flattenItems items).length) t) (acc : List (List UInt8 × List UInt8)) :
    R.LeavesWith P A (R.collect P A) loc acc (acc ++ properties items) := by
  -- Over the items, with what has been collected so far.
  induction items generalizing loc acc with
  | nil =>
      have hnone : R.getNextProperty P A loc = .ok (none, t) := EndsAt.none hR hend
      rw [properties, List.filterMap_nil, List.append_nil]
      exact LeavesWith.of_none hnone acc
  | cons item items ih =>
      rcases h.append with ⟨hitem, hrest⟩
      rw [flattenItems, List.flatMap_cons, List.length_append, ← Nat.add_assoc] at hend
      have hitems' := fun p hp => hitems p (List.mem_cons_of_mem item hp)
      cases item with
      | none =>
          have hword := hitem.word (by decide)
          exact (ih (Nat.dvd_add hloc (Nat.dvd_refl 4)) hrest hitems' hend acc).of_next_eq
            (getNextProperty_noop hR hword.1 hword.2)
      | some p =>
          have hp := hitems p List.mem_cons_self
          have hvalue := (hitem.item hR hp).2.2.2
          have hlen := flattenItem_length p
          have hle := hend.1.le
          have hle' := hend.2.1
          -- Behind the value the cursor is aligned again.
          have hskip : skipTo R.dtb.length p.value.length (loc + 12) = loc + (flattenItem (some p)).length := by
            rw [skipTo_aligned (Nat.dvd_add hloc (by decide)) (by omega), hlen]
            omega
          have hslice : R.slice (loc + 12) (loc + 12 + p.value.length) = .ok p.value := by
            rw [slice_of_le (Nat.le_add_right _ _) (by omega), hvalue.append.1.slice]
          have hbody : R.collect P A ⟨p.value.length, p.nameOffset, p.name⟩ (loc + 12) acc =
              .ok (loc + (flattenItem (some p)).length, acc ++ [(p.name, p.value)]) := by
            simp only [collect, hslice, scan_ok_bind, skipAndAlign_eq hR (show loc + 12 ≤ R.dtb.length by omega), hskip]
            rfl
          have hdvd : 4 ∣ loc + (flattenItem (some p)).length := by
            rw [hlen]
            omega
          have htail := ih hdvd hrest hitems' hend (acc ++ [(p.name, p.value)])
          rw [List.append_assoc] at htail
          exact LeavesWith.of_some (hitem.header hR hp) hbody htail

theorem readProperties_items (hR : R.Sound) {items : List (Option DtbProperty)} (hloc : 4 ∣ loc)
    (h : R.Holds loc (flattenItems items)) (hitems : ∀ p, some p ∈ items → R.NamedAt p)
    (hend : R.EndsAt (loc + (flattenItems items).length) t) :
    R.readProperties P A loc = .ok (properties items) :=
  (collect_items hR hloc h hitems hend []).forProperties hR (collect_advances hR)

/-! ## The walk -/

section Walk

theorem skipPropertiesStep_noop (hR : R.Sound) (hle : loc + 4 ≤ R.dtb.length) (hw : R.wordAt loc = fdtNoop) :
    R.skipPropertiesStep P A loc = .ok (.inl (loc + 4)) := by
  rw [skipPropertiesStep_eq hR, if_pos hle, hw]
  rfl

/-- The properties of a node are skipped, and `FDT_NOOP` tokens behind them. -/
theorem skipNodeProperties_items (hR : R.Sound) {items : List (Option DtbProperty)} (hloc : 4 ∣ loc) (h : R.Holds loc (flattenItems items))
    (hitems : ∀ p, some p ∈ items → R.NamedAt p) (hend : R.EndsAt (loc + (flattenItems items).length) t) :
    R.skipNodeProperties P A loc = .ok t := by
  have hlast : R.skipPropertiesStep P A t = .ok (.inr t) := by
    rcases hend with ⟨-, hle, htoken⟩
    rw [skipPropertiesStep_eq hR, if_pos hle]
    rcases htoken with h | h <;> rw [h] <;> rfl
  -- The loop comes to the first token that ends it.
  have hreach : Loop.Reaches (R.skipPropertiesStep P A) loc t := by
    induction items generalizing loc with
    | nil =>
        exact hend.1.reaches fun x hle hw => skipPropertiesStep_noop hR hle hw
    | cons item items ih =>
        rcases h.append with ⟨hitem, hrest⟩
        rw [flattenItems, List.flatMap_cons, List.length_append, ← Nat.add_assoc] at hend
        have hitems' := fun p hp => hitems p (List.mem_cons_of_mem item hp)
        cases item with
        | none =>
            have hword := hitem.word (by decide)
            exact Loop.Reaches.head (skipPropertiesStep_noop hR hword.1 hword.2)
              (ih (Nat.dvd_add hloc (Nat.dvd_refl 4)) hrest hitems' hend)
        | some p =>
            rcases hitem.item hR (hitems p List.mem_cons_self) with ⟨hat, hsize, -, -⟩
            have hlen := flattenItem_length p
            have hmax := hR.lengths A
            have hle := hend.1.le
            have hle' := hend.2.1
            -- The size and the offset of the name are skipped with the value.
            have hskip : skipTo R.dtb.length (p.value.length + 4) (loc + 8) = loc + (flattenItem (some p)).length := by
              rw [skipTo_aligned (Nat.dvd_add hloc (by decide)) (by omega), hlen]
              omega
            have hstep : R.skipPropertiesStep P A loc = .ok (.inl (loc + (flattenItem (some p)).length)) := by
              rw [skipPropertiesStep_eq hR, if_pos (by omega), if_pos hat.token, if_pos (by omega), hsize,
                addWord_of_lt (by omega)]
              exact congrArg (fun x => Except.ok (Sum.inl x)) hskip
            have hdvd : 4 ∣ loc + (flattenItem (some p)).length := by
              rw [hlen]
              omega
            exact Loop.Reaches.head hstep (ih hdvd hrest hitems' hend)
  refine Loop.iterate_of_reaches (skipPropertiesStep_decreases hR) ?_ hreach hlast
  exact Nat.lt_succ_of_le (Nat.sub_le _ _)

/-- The inner loop of `scan` passes `FDT_NOOP` and `FDT_END_NODE` tokens. -/
theorem nextNode_pass (hR : R.Sound) (hle : loc + 4 ≤ R.dtb.length)
    (hw : R.wordAt loc = fdtEndNode ∨ R.wordAt loc = fdtNoop) :
    R.nextNode P A loc = R.nextNode P A (loc + 4) := by
  have hstep : R.nextNodeStep P A loc = .ok (.inl (loc + 4)) := by
    rw [nextNodeStep_eq hR, if_pos hle, if_neg (by rcases hw with h | h <;> rw [h] <;> decide), if_pos hw]
  exact Loop.iterate_of_next (nextNodeStep_decreases hR) (Nat.lt_succ_of_le (Nat.sub_le _ _)) hstep

theorem nextNode_noops (hR : R.Sound) (h : R.NoopsTo loc t) : R.nextNode P A loc = R.nextNode P A t := by
  rcases h with ⟨k, rfl, hk⟩
  induction k with
  | zero => rfl
  | succ k ih =>
      have hlast := hk k (Nat.lt_succ_self k)
      rw [ih fun i hi => hk i (Nat.lt_succ_of_lt hi), nextNode_pass hR hlast.1 (Or.inr hlast.2)]
      rfl

theorem nextNode_last (hR : R.Sound) {r : Option Nat} (h : R.nextNodeStep P A loc = .ok (.inr r)) :
    R.nextNode P A loc = .ok r :=
  Loop.iterate_of_reaches (nextNodeStep_decreases hR) (Nat.lt_succ_of_le (Nat.sub_le _ _)) (Loop.Reaches.refl loc) h

variable {σ : Type} {scanNode : Scanner σ} {s s' : σ}

/-- A scan that looks for the next node at `loc` ends with the state `s'`. -/
def Finishes (P : Profile) (A : Arch) (R : DtbReader) (scanNode : Scanner σ) (loc : Nat) (s s' : σ) : Prop :=
  (R.nextNode P A loc = .ok none ∧ s' = s) ∨
    ∃ next x, R.nextNode P A loc = .ok (some next) ∧ Loop.Reaches (R.scanStep P A scanNode) (next, s) x ∧
      R.scanStep P A scanNode x = .ok (.inr s')

theorem Finishes.of_nextNode_eq {loc' : Nat} (h : R.Finishes P A scanNode loc' s s')
    (heq : R.nextNode P A loc = R.nextNode P A loc') : R.Finishes P A scanNode loc s s' := by
  rcases h with ⟨hnone, hs⟩ | ⟨next, x, hnext, hrest⟩
  · exact Or.inl ⟨heq.trans hnone, hs⟩
  · exact Or.inr ⟨next, x, heq.trans hnext, hrest⟩

/-- A node is a round of the scan. -/
theorem Finishes.node {stop loc₁ loc₂ : Nat} {s₁ : σ} (hR : R.Sound) (hbegin : R.nextNode P A loc = .ok (some t))
    (hnull : R.getNullTerminatedU8Slice t = .ok (some (name, stop))) (hskip : skipTo R.dtb.length 1 stop = loc₁)
    (hscan : scanNode R name loc₁ s = .ok (true, s₁)) (hprops : R.skipNodeProperties P A loc₁ = .ok loc₂)
    (h : R.Finishes P A scanNode loc₂ s₁ s') : R.Finishes P A scanNode loc s s' := by
  have hstep : R.scanStep P A scanNode (t, s) = R.afterNode P A loc₁ (true, s₁) := by
    rw [scanStep_eq hR hnull, hskip, hscan, scan_ok_bind]
  rw [afterNode, if_neg Bool.true_eq_false.mp, hprops, scan_ok_bind] at hstep
  rcases h with ⟨hnone, rfl⟩ | ⟨next, x, hnext, hreach, hlast⟩
  · rw [hnone] at hstep
    exact Or.inr ⟨t, (t, s), hbegin, Loop.Reaches.refl _, hstep⟩
  · rw [hnext] at hstep
    exact Or.inr ⟨t, x, hbegin, Loop.Reaches.head hstep hreach, hlast⟩

end Walk

/-! ## The nodes -/

/-- The names of the nodes end, and those of the properties are in the string table. -/
def Named (R : DtbReader) : Forest → Prop
  | .nil => True
  | .noop rest => R.Named rest
  | .node name items children rest =>
      0 ∉ name ∧ (∀ p, some p ∈ items → R.NamedAt p) ∧ R.Named children ∧ R.Named rest

theorem flattenName_length (name : List UInt8) : (flattenName name).length = (name.length + 1 + 3) / 4 * 4 := by
  rw [flattenName, padded_length, List.length_append, List.length_singleton]

theorem dvd_flattenItems (items : List (Option DtbProperty)) : 4 ∣ (flattenItems items).length := by
  induction items with
  | nil => exact Nat.dvd_zero 4
  | cons item items ih =>
      rw [flattenItems, List.flatMap_cons, List.length_append]
      refine Nat.dvd_add ?_ ih
      cases item with
      | none => exact Nat.dvd_refl 4
      | some p =>
          rw [flattenItem_length]
          omega

theorem dvd_flatten (f : Forest) : 4 ∣ f.flatten.length := by
  induction f with
  | nil => exact Nat.dvd_zero 4
  | noop rest ih => exact List.length_append ▸ Nat.dvd_add (Nat.dvd_refl 4) ih
  | node name items children rest ihc ihr =>
      have hname := flattenName_length name
      have hitems := dvd_flattenItems items
      simp only [Forest.flatten, List.length_append, toBeBytes_length]
      omega

theorem flatten_node_length (name : List UInt8) (items : List (Option DtbProperty)) (children rest : Forest) (loc : Nat) :
    loc + (Forest.node name items children rest).flatten.length =
      loc + 4 + (flattenName name).length + (flattenItems items).length + children.flatten.length + 4 +
        rest.flatten.length := by
  simp only [Forest.flatten, List.length_append, toBeBytes_length]
  omega

/-- The children of a node start or end behind its items. -/
theorem exists_endsAt {f : Forest} (h : R.Holds loc (f.flatten ++ toBeBytes fdtEndNode)) : ∃ t, R.EndsAt loc t := by
  induction f generalizing loc with
  | nil =>
      have hword := Holds.word (n := fdtEndNode) h (by decide)
      exact ⟨loc, NoopsTo.refl loc, hword.1, Or.inr hword.2⟩
  | noop rest ih =>
      rw [Forest.flatten, List.append_assoc] at h
      rcases h.append with ⟨hnoop, hrest⟩
      have hword := hnoop.word (by decide)
      rcases ih hrest with ⟨t, hnoops, hend⟩
      exact ⟨t, hnoops.head hword.1 hword.2, hend⟩
  | node name items children rest =>
      rw [Forest.flatten, List.append_assoc] at h
      have hword := h.append.1.word (by decide)
      exact ⟨loc, NoopsTo.refl loc, hword.1, Or.inl hword.2⟩

/-- What stands where, for a node that stands at `loc`. -/
structure NodeAt (R : DtbReader) (loc : Nat) (name : List UInt8) (items : List (Option DtbProperty))
    (children rest : Forest) (body inner t : Nat) : Prop where
  begin : loc + 4 ≤ R.dtb.length ∧ R.wordAt loc = fdtBeginNode
  nameAt : R.Holds (loc + 4) (name ++ [0])
  itemsAt : R.Holds body (flattenItems items)
  childrenAt : R.Holds inner children.flatten
  endNode : inner + children.flatten.length + 4 ≤ R.dtb.length ∧ R.wordAt (inner + children.flatten.length) = fdtEndNode
  restAt : R.Holds (inner + children.flatten.length + 4) rest.flatten
  ends : R.EndsAt inner t
  body_dvd : 4 ∣ body
  inner_dvd : 4 ∣ inner
  skip : skipTo R.dtb.length 1 (loc + 4 + name.length) = body

theorem Holds.node {name : List UInt8} {items : List (Option DtbProperty)} {children rest : Forest} (hloc : 4 ∣ loc)
    (h : R.Holds loc (Forest.node name items children rest).flatten) :
    ∃ t, R.NodeAt loc name items children rest (loc + 4 + (flattenName name).length)
      (loc + 4 + (flattenName name).length + (flattenItems items).length) t := by
  have hname := flattenName_length name
  have hdvd := dvd_flattenItems items
  rcases h.append with ⟨hbegin, h⟩
  rcases h.append with ⟨hnull, h⟩
  rcases h.append with ⟨hitems, h⟩
  have hinner := h
  rcases h.append with ⟨hchildren, h⟩
  rcases h.append with ⟨hend, hrest⟩
  rw [← List.append_assoc] at hinner
  rcases exists_endsAt hinner.append.1 with ⟨t, ht⟩
  have hle := ht.1.le
  have hle' := ht.2.1
  simp only [toBeBytes_length] at hnull hitems hchildren hend hrest hle ht
  refine ⟨t, ⟨hbegin.word (by decide), hnull.append.1, hitems, hchildren, hend.word (by decide), hrest, ht, ?_, ?_, ?_⟩⟩
  · omega
  · omega
  · rw [skipTo, if_neg (by omega)]
    omega

section Scan

variable {σ : Type} {scanNode : Scanner σ} {record : List UInt8 → Nat → σ → σ} {s s' : σ}

/-- The scan passes a forest, with a call for every node of it. -/
theorem Finishes.forest (hR : R.Sound)
    (hscan : ∀ name loc s, scanNode R name loc s = .ok (true, record name loc s)) {f : Forest} (hloc : 4 ∣ loc)
    (h : R.Holds loc f.flatten) (hf : R.Named f)
    (hrest : R.Finishes P A scanNode (loc + f.flatten.length)
      ((f.calls loc).foldl (fun s c => record c.1 c.2 s) s) s') :
    R.Finishes P A scanNode loc s s' := by
  -- The states of the scanner are threaded through the forest in pre-order.
  induction f generalizing loc s with
  | nil => exact hrest
  | noop rest ih =>
      rcases h.append with ⟨hnoop, h⟩
      have hword := hnoop.word (by decide)
      rw [Forest.flatten, List.length_append, ← Nat.add_assoc] at hrest
      exact (ih (Nat.dvd_add hloc (Nat.dvd_refl 4)) h hf hrest).of_nextNode_eq
        (nextNode_pass hR hword.1 (Or.inr hword.2))
  | node name items children rest ihc ihr =>
      rcases hf with ⟨hname, hitems, hchildren, hrest'⟩
      rcases h.node hloc with ⟨t, hat⟩
      have hbegin : R.nextNode P A loc = .ok (some (loc + 4)) := by
        refine nextNode_last hR ?_
        rw [nextNodeStep_eq hR, if_pos hat.begin.1, if_pos hat.begin.2]
      have hcdvd := dvd_flatten children
      have hidvd := hat.inner_dvd
      refine Finishes.node hR hbegin (hat.nameAt.string hname).1 hat.skip (hscan _ _ _)
        (skipNodeProperties_items hR hat.body_dvd hat.itemsAt hitems hat.ends) ?_
      refine Finishes.of_nextNode_eq ?_ (nextNode_noops hR hat.ends.1).symm
      -- The children come before the siblings, with an end token between them.
      refine ihc hat.inner_dvd hat.childrenAt hchildren ?_
      refine Finishes.of_nextNode_eq ?_ (nextNode_pass hR hat.endNode.1 (Or.inl hat.endNode.2))
      refine ihr (by omega) hat.restAt hrest' ?_
      rw [flatten_node_length] at hrest
      simpa only [Forest.calls, List.foldl_cons, List.foldl_append] using hrest

end Scan

/-- From the cursor of every call the properties of its node can be read. -/
theorem calls_properties (hR : R.Sound) (P : Profile) (A : Arch) {f : Forest} (hloc : 4 ∣ loc)
    (h : R.Holds loc f.flatten) (hf : R.Named f) :
    List.Forall₂ (fun c n => c.1 = n.1 ∧ R.readProperties P A c.2 = .ok n.2) (f.calls loc) f.preorder := by
  induction f generalizing loc with
  | nil => exact List.Forall₂.nil
  | noop rest ih =>
      rcases h.append with ⟨-, h⟩
      exact ih (Nat.dvd_add hloc (Nat.dvd_refl 4)) h hf
  | node name items children rest ihc ihr =>
      rcases hf with ⟨-, hitems, hchildren, hrest⟩
      rcases h.node hloc with ⟨t, hat⟩
      have hcdvd := dvd_flatten children
      have hidvd := hat.inner_dvd
      refine List.Forall₂.cons ⟨rfl, readProperties_items hR hat.body_dvd hat.itemsAt hitems hat.ends⟩ ?_
      exact List.rel_append (ihc hat.inner_dvd hat.childrenAt hchildren) (ihr (by omega) hat.restAt hrest)

/-- The blob holds the flattened tree: its structure block is aligned, and its names are in the string table. -/
structure Flattened (R : DtbReader) (tree : DeviceTree) : Prop where
  aligned : 4 ∣ R.dtStructOffset
  structBlock : R.Holds R.dtStructOffset tree.flatten
  names : R.Named tree.forest

/-- `scan` inverts the flattened form: a scanner that always goes on is called once for every node, in pre-order, with
its name and with a cursor from which exactly its properties are read. -/
theorem scan_flatten {blob : List UInt8} {tree : DeviceTree} (P : Profile) (A : Arch)
    (hblob : checkDtb blob = .ok blob.length) (hnew : DtbReader.new P A blob = .ok R) (htree : R.Flattened tree) :
    ∃ calls : List (List UInt8 × Nat),
      List.Forall₂ (fun c n => c.1 = n.1 ∧ R.readProperties P A c.2 = .ok n.2) calls tree.forest.preorder ∧
      ∀ {σ : Type} (scanNode : Scanner σ) (record : List UInt8 → Nat → σ → σ),
        (∀ name loc s, scanNode R name loc s = .ok (true, record name loc s)) →
          ∀ s, R.scan P A scanNode s = .ok (calls.foldl (fun s c => record c.1 c.2 s) s) := by
  have hR := new_sound hblob hnew
  rcases htree.structBlock.append with ⟨hforest, hlast⟩
  have hend := hlast.word (by decide)
  refine ⟨tree.forest.calls R.dtStructOffset, calls_properties hR P A htree.aligned hforest htree.names, ?_⟩
  intro σ scanNode record hscan s
  -- At `FDT_END` the scan is over.
  have hstop : R.nextNode P A (R.dtStructOffset + tree.forest.flatten.length) = .ok none := by
    refine nextNode_last hR ?_
    rw [nextNodeStep_eq hR, if_pos hend.1, hend.2]
    rfl
  have hfinish := Finishes.forest (P := P) (A := A) (s := s) hR hscan htree.aligned hforest htree.names
    (Or.inl ⟨hstop, rfl⟩)
  -- The root stands at the start of the structure block.
  have hroot := (hforest.append.1).word (by decide)
  have hbegin : R.nextNode P A R.dtStructOffset = .ok (some (R.dtStructOffset + 4)) := by
    refine nextNode_last hR ?_
    rw [nextNodeStep_eq hR, if_pos hroot.1, if_pos hroot.2]
  rcases hfinish with ⟨hnone, -⟩ | ⟨next, x, hnext, hreach, hx⟩
  · rw [hbegin] at hnone
    cases hnone
  · rw [hbegin] at hnext
    cases hnext
    rw [scan, getU32_eq hR, scan_ok_bind, if_pos hroot.1, okOr_some, scan_ok_bind]
    simp only [hroot.2, ne_eq, not_true_eq_false, if_false]
    exact Loop.iterate_of_reaches (scanStep_decreases hR) (Nat.lt_succ_of_le (Nat.sub_le _ _)) hreach hx

/-- A root with an unnamed token, a property and a child. -/
def exampleTree : DeviceTree where
  name := []
  items := [none, some ⟨[0x70], [1, 2, 3, 4, 5], 0⟩]
  children := .noop (.node [0x63, 0x70, 0x75, 0x73] [] .nil .nil)
  trailing := 1

def exampleBlob : List UInt8 :=
  ofWords [fdtMagic, 108, 40, 104, 0, 17, 16, 0, 4, 64] ++ (exampleTree.flatten ++ [0x70, 0, 0, 0])

theorem scan_flatten_example :
    ∃ calls : List (List UInt8 × Nat),
      List.Forall₂ (fun c n => c.1 = n.1 ∧
        readProperties .dev .arm ⟨exampleBlob, 40, 104, 0, 17, 16, 0, 4, 64⟩ c.2 = .ok n.2) calls
        [([], [([0x70], [1, 2, 3, 4, 5])]), ([0x63, 0x70, 0x75, 0x73], [])] ∧
      ∀ {σ : Type} (scanNode : Scanner σ) (record : List UInt8 → Nat → σ → σ),
        (∀ name loc s, scanNode ⟨exampleBlob, 40, 104, 0, 17, 16, 0, 4, 64⟩ name loc s =
          .ok (true, record name loc s)) →
          ∀ s, scan .dev .arm ⟨exampleBlob, 40, 104, 0, 17, 16, 0, 4, 64⟩ scanNode s =
            .ok (calls.foldl (fun s c => record c.1 c.2 s) s) := by
  have htree : Flattened ⟨exampleBlob, 40, 104, 0, 17, 16, 0, 4, 64⟩ exampleTree := by
    refine ⟨by decide, (by decide +kernel : _ <+: _), by decide, ?_, ⟨by decide, by simp, trivial, trivial⟩, trivial⟩
    intro p hp
    obtain rfl : p = ⟨[0x70], [1, 2, 3, 4, 5], 0⟩ := by simpa [exampleTree] using hp
    exact ⟨by decide, by decide, (by decide +kernel : _ <+: _)⟩
  have hblob : checkDtb exampleBlob = .ok exampleBlob.length := by decide +kernel
  exact scan_flatten .dev .arm hblob (by decide +kernel) htree

end DtbReader
end Propeller
