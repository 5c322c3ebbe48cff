import Propeller.Support.DtbTree

/-!
# Support.DtbChild — the children of a node

`find_child_node` walks over the whole subtree of a node with a counter for the depth.  In the flattened form of a
tree, a forest leaves the counter as it was: every node in it adds one at its begin token and takes one away at its
end token.  So the names that are compared are those of the immediate children, and the walk ends at the end token
of the node itself.
-/

namespace Propeller

/-- `.ok()`: an error of the reader is no result, a panic stays one. -/
def okOrNone {α : Type} : Scan α → Scan (Option α)
  | .ok a => .ok (some a)
  | .error (.dtb _) => .ok none
  | .error (.panic p) => .error (.panic p)

/-! ## The nodes of a tree and their children -/

/-- The nodes of a forest that stands at `loc`, at any depth: the cursor behind the name, the items and the children. -/
def Forest.nodes : Forest → Nat → List (Nat × List (Option DtbProperty) × Forest)
  | .nil, _ => []
  | .noop rest, loc => rest.nodes (loc + 4)
  | .node name items children rest, loc =>
      let body := loc + 4 + (flattenName name).length
      let inner := body + (flattenItems items).length
      (body, items, children) :: (children.nodes inner ++ rest.nodes (inner + children.flatten.length + 4))

/-- The nodes at the top of the forest only: the names and the cursors. -/
def Forest.siblings : Forest → Nat → List (List UInt8 × Nat)
  | .nil, _ => []
  | .noop rest, loc => rest.siblings (loc + 4)
  | .node name items children rest, loc =>
      let body := loc + 4 + (flattenName name).length
      let inner := body + (flattenItems items).length
      (name, body) :: rest.siblings (inner + children.flatten.length + 4)

namespace DtbReader

/-! ## The source function -/

section Source

variable (P : Profile) (A : Arch) (R : DtbReader)

/-- A round of the inner loop, with the cursor and the depth.  The blob is too short for the depth to overflow. -/
def nextChildStep (x : Nat × Nat) : Scan ((Nat × Nat) ⊕ Option (Nat × Nat)) := do
  let (loc, depth) := x
  match ← R.getU32 P A loc with
  | none => return .inr none
  | some (marker, loc) =>
      if marker = fdtBeginNode then return .inr (some (loc, depth + 1))
      else if marker = fdtEndNode then
        if depth = 0 then return .inr none
        else return .inl (loc, depth - 1)
      else if marker = fdtNoop then return .inl (loc, depth)
      else return .inr none

/-- The inner loop: the cursor behind the next `FDT_BEGIN_NODE` with its depth, or none. -/
def nextChild (x : Nat × Nat) : Scan (Option (Nat × Nat)) :=
  dtbLoop R.dtb.length (R.nextChildStep P A) x

/-- A round of the outer loop behind the properties of a node. -/
def findChildRest (childName : List UInt8) (x : Nat × Nat) : Scan ((Nat × Nat) ⊕ Option Nat) := do
  match ← R.nextChild P A x with
  | none => return .inr none
  | some (loc, depth) =>
      match ← R.getNullTerminatedU8Slice loc with
      | none => return .inr none
      | some (name, loc) => do
          let loc ← R.skipAndAlign P A 1 loc
          if depth = 1 ∧ childName = name then return .inr (some loc)
          else return .inl (loc, depth)

def findChildStep (childName : List UInt8) (x : Nat × Nat) : Scan ((Nat × Nat) ⊕ Option Nat) := do
  let (loc, depth) := x
  match ← okOrNone (R.skipNodeProperties P A loc) with
  | none => return .inr none
  | some loc => R.findChildRest P A childName (loc, depth)

/-- The cursor behind the name of the root. -/
def getRootNode : Scan (Option Nat) := do
  match ← R.getU32 P A R.dtStructOffset with
  | none => return none
  | some (marker, loc) =>
      if marker ≠ fdtBeginNode then return none
      match ← R.getNullTerminatedU8Slice loc with
      | none => return none
      | some (_, loc) => return some (← R.skipAndAlign P A 1 loc)

def findChildNode (childName : List UInt8) (loc : Nat) : Scan (Option Nat) :=
  dtbLoop R.dtb.length (R.findChildStep P A childName) (loc, 0)

end Source

/-! ## The inner loop -/

variable {P : Profile} {A : Arch} {R : DtbReader} {loc loc' depth depth' t : Nat} {childName name : List UInt8}
  {r : Option Nat}

theorem nextChildStep_eq (hR : R.Sound) (P : Profile) (A : Arch) (loc depth : Nat) :
    R.nextChildStep P A (loc, depth) =
      if loc + 4 ≤ R.dtb.length then
        if R.wordAt loc = fdtBeginNode then .ok (.inr (some (loc + 4, depth + 1)))
        else if R.wordAt loc = fdtEndNode then
          if depth = 0 then .ok (.inr none) else .ok (.inl (loc + 4, depth - 1))
        else if R.wordAt loc = fdtNoop then .ok (.inl (loc + 4, depth))
        else .ok (.inr none)
      else .ok (.inr none) := by
  simp only [nextChildStep, getU32_eq hR, scan_ok_bind]
  by_cases h4 : loc + 4 ≤ R.dtb.length
  · simp only [if_pos h4]
    rfl
  · simp only [if_neg h4]
    rfl

theorem nextChildStep_next (hR : R.Sound) (h : R.nextChildStep P A (loc, depth) = .ok (.inl (loc', depth'))) :
    loc' = loc + 4 ∧ loc' ≤ R.dtb.length := by
  rw [nextChildStep_eq hR] at h
  split at h
  next h4 =>
    split at h
    next => cases h
    next =>
      split at h
      next =>
        split at h
        next => cases h
        next =>
          cases h
          exact ⟨rfl, h4⟩
      next =>
        split at h
        next =>
          cases h
          exact ⟨rfl, h4⟩
        next => cases h
  next => cases h

theorem nextChildStep_decreases (hR : R.Sound) :
    Loop.Decreases (R.nextChildStep P A) fun x => R.dtb.length - x.1 := by
  rintro ⟨loc, depth⟩ ⟨loc', depth'⟩ h
  have hnext := nextChildStep_next hR h
  exact Nat.sub_lt_sub_left (by omega) (by omega)

theorem nextChild_next (hR : R.Sound) (h : R.nextChildStep P A (loc, depth) = .ok (.inl (loc', depth'))) :
    R.nextChild P A (loc, depth) = R.nextChild P A (loc', depth') :=
  Loop.iterate_of_next (nextChildStep_decreases hR) (Nat.lt_succ_of_le (Nat.sub_le _ _)) h

theorem nextChild_last (hR : R.Sound) {o : Option (Nat × Nat)} (h : R.nextChildStep P A (loc, depth) = .ok (.inr o)) :
    R.nextChild P A (loc, depth) = .ok o :=
  Loop.iterate_of_reaches (nextChildStep_decreases hR) (Nat.lt_succ_of_le (Nat.sub_le _ _)) (Loop.Reaches.refl _) h

/-- A node begins: it is one level down. -/
theorem nextChild_begin (hR : R.Sound) (h : loc + 4 ≤ R.dtb.length ∧ R.wordAt loc = fdtBeginNode) (depth : Nat) :
    R.nextChild P A (loc, depth) = .ok (some (loc + 4, depth + 1)) := by
  refine nextChild_last hR ?_
  rw [nextChildStep_eq hR, if_pos h.1, if_pos h.2]

/-- A node ends: the walk goes on one level up. -/
theorem nextChild_end (hR : R.Sound) (h : loc + 4 ≤ R.dtb.length ∧ R.wordAt loc = fdtEndNode) (depth : Nat) :
    R.nextChild P A (loc, depth + 1) = R.nextChild P A (loc + 4, depth) := by
  refine nextChild_next hR ?_
  rw [nextChildStep_eq hR, if_pos h.1, h.2]
  rfl

/-- The node itself ends. -/
theorem nextChild_stop (hR : R.Sound) (h : loc + 4 ≤ R.dtb.length ∧ R.wordAt loc = fdtEndNode) :
    R.nextChild P A (loc, 0) = .ok none := by
  refine nextChild_last hR ?_
  rw [nextChildStep_eq hR, if_pos h.1, h.2]
  rfl

theorem nextChild_noop (hR : R.Sound) (h : loc + 4 ≤ R.dtb.length ∧ R.wordAt loc = fdtNoop) (depth : Nat) :
    R.nextChild P A (loc, depth) = R.nextChild P A (loc + 4, depth) := by
  refine nextChild_next hR ?_
  rw [nextChildStep_eq hR, if_pos h.1, h.2]
  rfl

theorem nextChild_noops (hR : R.Sound) (h : R.NoopsTo loc t) (depth : Nat) :
    R.nextChild P A (loc, depth) = R.nextChild P A (t, depth) := by
  rcases h with ⟨k, rfl, hk⟩
  induction k with
  | zero => rfl
  | succ k ih =>
      rw [ih fun i hi => hk i (Nat.lt_succ_of_lt hi), nextChild_noop hR (hk k (Nat.lt_succ_self k))]
      rfl

theorem nextChild_some (hR : R.Sound) (h : R.nextChild P A (loc, depth) = .ok (some (loc', depth'))) : loc < loc' := by
  rcases dtbLoop_last (s := (loc, depth)) (nextChildStep_decreases (P := P) (A := A) hR) (Nat.sub_le _ loc) with
    ⟨⟨t, d⟩, ht, hr⟩
  have hle : loc ≤ t := ht.invariant (I := fun x => loc ≤ x.1) (Nat.le_refl _) fun s s' hs hnext => by
    have := (nextChildStep_next hR hnext).1
    omega
  -- Only the branch of `FDT_BEGIN_NODE` leaves the loop with a cursor.
  rw [← nextChild, h, nextChildStep_eq hR] at hr
  split at hr
  next =>
    split at hr
    next =>
      cases hr
      omega
    next =>
      split at hr
      next =>
        split at hr
        next => cases hr
        next => cases hr
      next =>
        split at hr
        next => cases hr
        next => cases hr
  next => cases hr

/-! ## The outer loop -/

theorem findChildRest_next (hR : R.Sound)
    (h : R.findChildRest P A childName (loc, depth) = .ok (.inl (loc', depth'))) :
    loc < loc' ∧ loc' ≤ R.dtb.length := by
  rw [findChildRest] at h
  rcases scan_bind_eq_ok.1 h with ⟨o, hchild, h⟩
  cases o with
  | none => cases h
  | some x =>
      have hlt := nextChild_some hR hchild
      rcases scan_bind_eq_ok.1 h with ⟨o, hnull, h⟩
      cases o with
      | none => cases h
      | some y =>
          have hbounds := getNullTerminatedU8Slice_bounds hnull
          have hskip := skipTo_node hR hnull
          simp only [skipAndAlign_eq hR (Nat.le_of_lt hbounds.2), scan_ok_bind] at h
          split at h
          · cases h
          · cases h
            omega

theorem findChildStep_next (hR : R.Sound)
    (h : R.findChildStep P A childName (loc, depth) = .ok (.inl (loc', depth'))) :
    loc < loc' ∧ loc' ≤ R.dtb.length := by
  rw [findChildStep] at h
  rcases skipNodeProperties_cases hR P A loc with ⟨t, hskip, hle, -⟩ | ⟨e, hskip, -⟩
  · simp only [hskip, okOrNone, scan_ok_bind] at h
    have hnext := findChildRest_next hR h
    omega
  · rw [hskip] at h
    cases e with
    | dtb e => cases h
    | panic p => cases h

theorem findChildStep_decreases (hR : R.Sound) :
    Loop.Decreases (R.findChildStep P A childName) fun x => R.dtb.length - x.1 := by
  rintro ⟨loc, depth⟩ ⟨loc', depth'⟩ h
  have hnext := findChildStep_next hR h
  exact Nat.sub_lt_sub_left (by omega) hnext.1

/-- A search that has skipped the properties of a node, up to `loc`, returns `r`. -/
def Seeks (P : Profile) (A : Arch) (R : DtbReader) (childName : List UInt8) (loc depth : Nat) (r : Option Nat) : Prop :=
  R.findChildRest P A childName (loc, depth) = .ok (.inr r) ∨
    ∃ y z, R.findChildRest P A childName (loc, depth) = .ok (.inl y) ∧
      Loop.Reaches (R.findChildStep P A childName) y z ∧ R.findChildStep P A childName z = .ok (.inr r)

theorem Seeks.of_nextChild_eq (h : R.Seeks P A childName loc' depth' r)
    (heq : R.nextChild P A (loc, depth) = R.nextChild P A (loc', depth')) : R.Seeks P A childName loc depth r := by
  rw [Seeks, findChildRest, heq]
  exact h

/-- The search ends where the node itself does. -/
theorem Seeks.stop (h : R.nextChild P A (loc, depth) = .ok none) : R.Seeks P A childName loc depth none := by
  refine Or.inl ?_
  rw [findChildRest, h]
  rfl

/-! ## The walk over a subtree -/

variable {items : List (Option DtbProperty)} {children rest : Forest} {body inner : Nat}

theorem findChildRest_node (hR : R.Sound) (hat : R.NodeAt loc name items children rest body inner t)
    (hname : 0 ∉ name) (depth : Nat) :
    R.findChildRest P A childName (loc, depth) =
      if depth + 1 = 1 ∧ childName = name then .ok (.inr (some body)) else .ok (.inl (body, depth + 1)) := by
  have hstring := (hat.nameAt.string hname).1
  have hbounds := getNullTerminatedU8Slice_bounds hstring
  simp only [findChildRest, nextChild_begin hR hat.begin, hstring, scan_ok_bind,
    skipAndAlign_eq hR (Nat.le_of_lt hbounds.2), hat.skip]
  rfl

/-- The child that is looked for. -/
theorem Seeks.found (hR : R.Sound) (hat : R.NodeAt loc name items children rest body inner t) (hname : 0 ∉ name) :
    R.Seeks P A name loc 0 (some body) := by
  refine Or.inl ?_
  rw [findChildRest_node hR hat hname, if_pos ⟨rfl, rfl⟩]

/-- The search from the cursor of a node comes to its children and ends as the search from there does. -/
theorem Seeks.ends (hR : R.Sound) (hat : R.NodeAt loc name items children rest body inner t)
    (hitems : ∀ p, some p ∈ items → R.NamedAt p) (hinner : inner = body + (flattenItems items).length)
    (h : R.Seeks P A childName inner depth r) :
    ∃ z, Loop.Reaches (R.findChildStep P A childName) (body, depth) z ∧ R.findChildStep P A childName z = .ok (.inr r) := by
  have hprops : R.skipNodeProperties P A body = .ok t :=
    skipNodeProperties_items hR hat.body_dvd hat.itemsAt hitems (hinner ▸ hat.ends)
  have hstep : R.findChildStep P A childName (body, depth) = R.findChildRest P A childName (t, depth) := by
    simp only [findChildStep, hprops, okOrNone, scan_ok_bind]
  -- `skip_node_properties` passes the `FDT_NOOP` tokens in front of the children too.
  have ht := h.of_nextChild_eq (nextChild_noops hR hat.ends.1 depth).symm
  rcases ht with hlast | ⟨y, z, hy, hz, hlast⟩
  · exact ⟨_, Loop.Reaches.refl _, hstep.trans hlast⟩
  · exact ⟨z, Loop.Reaches.head (hstep.trans hy) hz, hlast⟩

/-- Any other node: the search goes on inside it, one level down. -/
theorem Seeks.node (hR : R.Sound) (hat : R.NodeAt loc name items children rest body inner t) (hname : 0 ∉ name)
    (hitems : ∀ p, some p ∈ items → R.NamedAt p) (hinner : inner = body + (flattenItems items).length)
    (hother : depth ≠ 0 ∨ childName ≠ name) (h : R.Seeks P A childName inner (depth + 1) r) :
    R.Seeks P A childName loc depth r := by
  have hrest : R.findChildRest P A childName (loc, depth) = .ok (.inl (body, depth + 1)) := by
    rw [findChildRest_node hR hat hname, if_neg]
    rintro ⟨hdepth, heq⟩
    exact hother.elim (fun hne => hne (Nat.succ.inj hdepth)) fun hne => hne heq
  rcases h.ends hR hat hitems hinner with ⟨z, hz, hlast⟩
  exact Or.inr ⟨_, z, hrest, hz, hlast⟩

/-- The counter is the same behind a forest; below the children no name is compared. -/
theorem Seeks.forest (hR : R.Sound) {f : Forest} (hloc : 4 ∣ loc) (h : R.Holds loc f.flatten) (hf : R.Named f)
    (hrest : R.Seeks P A childName (loc + f.flatten.length) (depth + 1) r) :
    R.Seeks P A childName loc (depth + 1) r := by
  -- The depth is general, since the children are one level down.
  induction f generalizing loc depth with
  | nil => exact hrest
  | noop rest ih =>
      rcases h.append with ⟨hnoop, h⟩
      rw [Forest.flatten, List.length_append, ← Nat.add_assoc] at hrest
      exact (ih (Nat.dvd_add hloc (Nat.dvd_refl 4)) h hf hrest).of_nextChild_eq
        (nextChild_noop hR (hnoop.word (by decide)) (depth + 1))
  | node name items children rest ihc ihr =>
      rcases hf with ⟨hname, hitems, hchildren, hrest'⟩
      rcases h.node hloc with ⟨t, hat⟩
      have hcdvd := dvd_flatten children
      have hidvd := hat.inner_dvd
      refine Seeks.node hR hat hname hitems rfl (Or.inl (Nat.succ_ne_zero depth)) ?_
      -- Through the children, then past the end token of the node, then through its siblings.
      refine ihc hat.inner_dvd hat.childrenAt hchildren ?_
      refine Seeks.of_nextChild_eq ?_ (nextChild_end hR hat.endNode (depth + 1))
      refine ihr (by omega) hat.restAt hrest' ?_
      rw [flatten_node_length] at hrest
      exact hrest

/-- At the level of the children the names are compared, up to the end of the node. -/
theorem Seeks.siblings (hR : R.Sound) {f : Forest} (hloc : 4 ∣ loc) (h : R.Holds loc f.flatten) (hf : R.Named f)
    (hend : loc + f.flatten.length + 4 ≤ R.dtb.length ∧ R.wordAt (loc + f.flatten.length) = fdtEndNode) :
    R.Seeks P A childName loc 0 ((f.siblings loc).lookup childName) := by
  -- Along the siblings; what is below them is passed by `Seeks.forest`.
  induction f generalizing loc with
  | nil => exact Seeks.stop (nextChild_stop hR hend)
  | noop rest ih =>
      rcases h.append with ⟨hnoop, h⟩
      rw [Forest.flatten, List.length_append, ← Nat.add_assoc] at hend
      exact (ih (Nat.dvd_add hloc (Nat.dvd_refl 4)) h hf hend).of_nextChild_eq
        (nextChild_noop hR (hnoop.word (by decide)) 0)
  | node name items children rest ihc ihr =>
      rcases hf with ⟨hname, hitems, hchildren, hrest⟩
      rcases h.node hloc with ⟨t, hat⟩
      have hcdvd := dvd_flatten children
      have hidvd := hat.inner_dvd
      rw [Forest.siblings, List.lookup_cons]
      by_cases heq : childName = name
      · subst heq
        rw [beq_self_eq_true]
        exact Seeks.found hR hat hname
      · rw [beq_false_of_ne heq]
        refine Seeks.node hR hat hname hitems rfl (Or.inr heq) ?_
        refine Seeks.forest hR hat.inner_dvd hat.childrenAt hchildren ?_
        refine Seeks.of_nextChild_eq ?_ (nextChild_end hR hat.endNode 0)
        rw [flatten_node_length] at hend
        exact ihr (by omega) hat.restAt hrest hend

/-! ## The search -/

/-- What stands at the cursor of a node. -/
theorem nodeAt_of_mem {f : Forest} (hloc : 4 ∣ loc) (h : R.Holds loc f.flatten) (hf : R.Named f)
    (hmem : (body, items, children) ∈ f.nodes loc) :
    ∃ loc' name rest t, R.NodeAt loc' name items children rest body (body + (flattenItems items).length) t ∧
      (∀ p, some p ∈ items → R.NamedAt p) ∧ R.Named children := by
  induction f generalizing loc with
  | nil => cases hmem
  | noop rest ih =>
      rcases h.append with ⟨-, h⟩
      exact ih (Nat.dvd_add hloc (Nat.dvd_refl 4)) h hf hmem
  | node name items' children' rest ihc ihr =>
      rcases hf with ⟨-, hitems, hchildren, hrest⟩
      rcases h.node hloc with ⟨t, hat⟩
      have hcdvd := dvd_flatten children'
      have hidvd := hat.inner_dvd
      rw [Forest.nodes, List.mem_cons, List.mem_append] at hmem
      rcases hmem with heq | hmem | hmem
      · cases heq
        exact ⟨loc, name, rest, t, hat, hitems, hchildren⟩
      · exact ihc hat.inner_dvd hat.childrenAt hchildren hmem
      · exact ihr (by omega) hat.restAt hrest hmem

/-- `get_root_node` gives the cursor of the root, from which a search can start. -/
theorem getRootNode_flatten {tree : DeviceTree} (hR : R.Sound) (P : Profile) (A : Arch) (htree : R.Flattened tree) :
    ∃ root, R.getRootNode P A = .ok (some root) ∧
      (root, tree.items, tree.children) ∈ tree.forest.nodes R.dtStructOffset := by
  rcases htree.structBlock.append.1.node htree.aligned with ⟨t, hat⟩
  have hstring := (hat.nameAt.string htree.names.1).1
  have hbounds := getNullTerminatedU8Slice_bounds hstring
  refine ⟨_, ?_, List.mem_cons_self⟩
  simp only [getRootNode, getU32_eq hR, scan_ok_bind, if_pos hat.begin.1, hat.begin.2, ne_eq, not_true_eq_false, if_false,
    hstring, skipAndAlign_eq hR (Nat.le_of_lt hbounds.2), hat.skip]
  rfl

/-- `find_child_node` looks among the immediate children: from the cursor of any node of the tree it comes to the first
of them with the name, and to nothing when there is none, whatever the names of the other nodes are. -/
theorem findChildNode_flatten {blob : List UInt8} {tree : DeviceTree} (P : Profile) (A : Arch)
    (hblob : checkDtb blob = .ok blob.length) (hnew : DtbReader.new P A blob = .ok R) (htree : R.Flattened tree) :
    ∀ body items children, (body, items, children) ∈ tree.forest.nodes R.dtStructOffset → ∀ childName,
      R.findChildNode P A childName body =
        .ok ((children.siblings (body + (flattenItems items).length)).lookup childName) := by
  have hR := new_sound hblob hnew
  intro body items children hmem childName
  rcases nodeAt_of_mem htree.aligned htree.structBlock.append.1 htree.names hmem with
    ⟨loc, name, rest, t, hat, hitems, hchildren⟩
  have hseek : R.Seeks P A childName _ 0 _ :=
    Seeks.siblings hR hat.inner_dvd hat.childrenAt hchildren hat.endNode
  rcases hseek.ends hR hat hitems rfl with ⟨z, hz, hlast⟩
  exact Loop.iterate_of_reaches (findChildStep_decreases hR) (Nat.lt_succ_of_le (Nat.sub_le _ _)) hz hlast

/-- A child `b` of the root behind a child `a` that has a child of this name too. -/
def nestedTree : DeviceTree where
  name := []
  items := [none]
  children := .node [0x61] [] (.noop (.node [0x62] [] .nil .nil)) (.node [0x62] [] .nil .nil)
  trailing := 0

def nestedBlob : List UInt8 :=
  ofWords [fdtMagic, 100, 40, 100, 0, 17, 16, 0, 0, 60] ++ nestedTree.flatten

/-- From the root, from `a`, and from the `b` below it. -/
theorem findChildNode_flatten_nested :
    findChildNode .dev .arm ⟨nestedBlob, 40, 100, 0, 17, 16, 0, 0, 60⟩ [0x62] 48 = .ok (some 88) ∧
      findChildNode .dev .arm ⟨nestedBlob, 40, 100, 0, 17, 16, 0, 0, 60⟩ [0x62] 60 = .ok (some 72) ∧
      findChildNode .dev .arm ⟨nestedBlob, 40, 100, 0, 17, 16, 0, 0, 60⟩ [0x62] 72 = .ok none := by
  have htree : Flattened ⟨nestedBlob, 40, 100, 0, 17, 16, 0, 0, 60⟩ nestedTree := by
    refine ⟨by decide, (by decide +kernel : _ <+: _), by decide, ?_, ?_, trivial⟩
    · intro p hp
      simp [nestedTree] at hp
    · exact ⟨by decide, by simp, ⟨by decide, by simp, trivial, trivial⟩, by decide, by simp, trivial, trivial⟩
  have hblob : checkDtb nestedBlob = .ok nestedBlob.length := by decide +kernel
  have hfind := findChildNode_flatten .dev .arm hblob (by decide +kernel) htree
  refine ⟨hfind 48 _ _ (List.mem_cons_self ..) [0x62], ?_, ?_⟩
  · exact hfind 60 _ _ (List.mem_cons_of_mem _ (List.mem_cons_self ..)) [0x62]
  · exact hfind 72 _ _ (List.mem_cons_of_mem _ (List.mem_cons_of_mem _ (List.mem_cons_self ..))) [0x62]

end DtbReader
end Propeller
