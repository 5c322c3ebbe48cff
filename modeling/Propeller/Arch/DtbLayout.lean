import Propeller.Arch.DtbReg
import Propeller.Arch.DtbScan

/-!
# Arch.DtbLayout — what `get_memory_layout` reports

`add_memory_blocks` returns an error for a malformed `reg` property, and `scan_device_node` drops it.  The scan goes on,
and `get_memory_layout` returns true as long as some pair of some memory node has been stored.  It returns false only if
the tree is broken elsewhere, or if there is no memory at all.
-/

namespace Propeller

/-- `get_memory_layout`, for the blob: the configuration, or none if the function returns false. -/
def getMemoryLayout (P : Profile) (A : Arch) (virtualBase : Nat) (blob : List UInt8) (fuel : Nat) :
    Run (Option MemoryConfig) :=
  match scanMemory P A virtualBase blob with
  | .error (.panic p) => .error p
  | .error (.dtb _) => .ok none
  | .ok s => do
      let config ← s.config.trimRanges P A fuel
      if config.isEmpty then return none else return some config

/-! ## How a scan ends -/

namespace DtbReader

variable {P : Profile} {A : Arch} {R : DtbReader} {loc x : Nat} {name : List UInt8} {σ : Type} {scanNode : Scanner σ}
  {s s' s₁ : σ}

/-- Where the scan goes on behind a node with its properties at `loc`. -/
def goOn (P : Profile) (A : Arch) (R : DtbReader) (loc : Nat) : Scan (Option Nat) := do
  let loc ← R.skipNodeProperties P A loc
  R.nextNode P A loc

/-- Behind the node there is neither the end of the tree nor a node with a name. -/
def StructureBroken (P : Profile) (A : Arch) (R : DtbReader) (loc : Nat) : Prop :=
  (∃ e, R.goOn P A loc = .error (.dtb e)) ∨
    ∃ next, R.goOn P A loc = .ok (some next) ∧ R.getNullTerminatedU8Slice next = .ok none

/-- The scanner never asks the scan to stop. -/
def Persistent (R : DtbReader) (scanNode : Scanner σ) : Prop :=
  ∀ name loc s go s', scanNode R name loc s = .ok (go, s') → go = true

theorem afterNode_true (loc : Nat) (s : σ) :
    R.afterNode P A loc (true, s) = (R.goOn P A loc).map fun
      | some next => .inl (next, s)
      | none => .inr s := by
  rw [afterNode, if_neg Bool.true_eq_false.mp, goOn]
  cases R.skipNodeProperties P A loc with
  | error e => rfl
  | ok loc' =>
      rw [scan_ok_bind, scan_ok_bind]
      cases R.nextNode P A loc' with
      | error e => rfl
      | ok next => cases next <;> rfl

/-- A node that is visited is a round of the loop. -/
theorem Visits.round (hR : R.Sound) (h : R.Visits P A scanNode s name loc s₁) :
    ∃ x, Loop.Reaches (R.scanStep P A scanNode) (R.dtStructOffset + 4, s) (x, s₁) ∧
      R.scanStep P A scanNode (x, s₁) = scanNode R name loc s₁ >>= R.afterNode P A loc := by
  rcases h with ⟨-, -, x, stop, hreach, hnull, rfl⟩
  exact ⟨x, hreach, scanStep_eq hR hnull⟩

/-- With a node visited, the scan is its loop. -/
theorem Visits.scan_eq (hR : R.Sound) (h : R.Visits P A scanNode s name loc s₁) :
    R.scan P A scanNode s = dtbLoop R.dtb.length (R.scanStep P A scanNode) (R.dtStructOffset + 4, s) := by
  rw [scan, getU32_eq hR, scan_ok_bind, if_pos h.1, okOr_some, scan_ok_bind]
  simp only [h.2.1, ne_eq, not_true_eq_false, if_false]

/-- A round of the loop is a node that is visited, or it fails because the name of the node does not end. -/
theorem Visits.cases_of_reaches (hR : R.Sound) (h : R.Visits P A scanNode s name loc s₁)
    (hreach : Loop.Reaches (R.scanStep P A scanNode) (R.dtStructOffset + 4, s) (x, s')) :
    (R.getNullTerminatedU8Slice x = .ok none ∧ R.scanStep P A scanNode (x, s') = .error (.dtb .invalidDtb)) ∨
      ∃ name loc, R.Visits P A scanNode s name loc s' ∧
        R.scanStep P A scanNode (x, s') = scanNode R name loc s' >>= R.afterNode P A loc := by
  have hx : x ≤ R.dtb.length :=
    hreach.invariant (I := fun y => y.1 ≤ R.dtb.length) h.1 fun y y' _ hnext => (scanStep_next hR hnext).2
  have hnull := getNullTerminatedU8Slice_eq hx
  split at hnull
  next =>
    refine Or.inl ⟨hnull, ?_⟩
    simp only [scanStep, hnull, scan_ok_bind, okOr_none, scan_error_bind]
  next => exact Or.inr ⟨_, _, ⟨h.1, h.2.1, x, _, hreach, hnull, rfl⟩, scanStep_eq hR hnull⟩

/-- What the round of a node returns, if it returns. -/
theorem round_eq_ok (hgo : R.Persistent scanNode) {y : (Nat × σ) ⊕ σ}
    (h : scanNode R name loc s >>= R.afterNode P A loc = .ok y) :
    ∃ s' o, scanNode R name loc s = .ok (true, s') ∧ R.goOn P A loc = .ok o ∧
      y = o.elim (.inr s') fun next => .inl (next, s') := by
  rcases scan_bind_eq_ok.mp h with ⟨⟨go, s₁⟩, hnode, h⟩
  obtain rfl := hgo name loc s go s₁ hnode
  rw [afterNode_true] at h
  cases hres : R.goOn P A loc with
  | error e =>
      rw [hres] at h
      cases h
  | ok o =>
      rw [hres] at h
      cases h
      refine ⟨s₁, o, hnode, rfl, ?_⟩
      cases o <;> rfl

/-- The round of a node goes on exactly if the node is read and there is another one. -/
theorem round_eq_inl_iff (hgo : R.Persistent scanNode) :
    scanNode R name loc s >>= R.afterNode P A loc = .ok (.inl (x, s')) ↔
      scanNode R name loc s = .ok (true, s') ∧ R.goOn P A loc = .ok (some x) := by
  constructor
  · intro h
    rcases round_eq_ok hgo h with ⟨s₁, o, hnode, hnext, heq⟩
    cases o with
    | none => cases heq
    | some next =>
        cases heq
        exact ⟨hnode, hnext⟩
  · rintro ⟨hnode, hnext⟩
    rw [hnode, scan_ok_bind, afterNode_true, hnext]
    rfl

/-- It is the last one exactly if the tree ends behind the node. -/
theorem round_eq_inr_iff (hgo : R.Persistent scanNode) :
    scanNode R name loc s >>= R.afterNode P A loc = .ok (.inr s') ↔
      scanNode R name loc s = .ok (true, s') ∧ R.goOn P A loc = .ok none := by
  constructor
  · intro h
    rcases round_eq_ok hgo h with ⟨s₁, o, hnode, hend, heq⟩
    cases o with
    | none =>
        cases heq
        exact ⟨hnode, hend⟩
    | some next => cases heq
  · rintro ⟨hnode, hend⟩
    rw [hnode, scan_ok_bind, afterNode_true, hend]
    rfl

theorem round_eq_error_iff (hgo : R.Persistent scanNode) {e : Stop} :
    scanNode R name loc s >>= R.afterNode P A loc = .error e ↔
      scanNode R name loc s = .error e ∨ (∃ s', scanNode R name loc s = .ok (true, s')) ∧ R.goOn P A loc = .error e := by
  cases hnode : scanNode R name loc s with
  | error e' => simp
  | ok y =>
      rcases y with ⟨go, s'⟩
      obtain rfl := hgo name loc s go s' hnode
      rw [scan_ok_bind, afterNode_true]
      rcases R.goOn P A loc with e' | _ | next
      · simp [Except.map]
      · simp [Except.map]
      · simp [Except.map]

section Ends

variable (hR : R.Sound) (h : R.Visits P A scanNode s name loc s₁) (hgo : R.Persistent scanNode)
include hR h hgo

theorem Visits.scan_eq_ok_iff :
    R.scan P A scanNode s = .ok s' ↔ ∃ name loc s₁, R.Visits P A scanNode s name loc s₁ ∧
      scanNode R name loc s₁ = .ok (true, s') ∧ R.goOn P A loc = .ok none := by
  -- Every round moves the location on, so the fuel of the loop is never the reason for an exit.
  have hmeasure : Loop.Decreases (R.scanStep P A scanNode) fun x => R.dtb.length - x.1 := scanStep_decreases hR
  have hfuel : ∀ y : Nat × σ, R.dtb.length - y.1 < R.dtb.length + 1 := fun y => Nat.lt_succ_of_le (Nat.sub_le _ _)
  rw [h.scan_eq hR, dtbLoop, Loop.iterate_eq_iff hmeasure (hfuel _)]
  constructor
  · rintro ⟨⟨x, s₁⟩, hreach, hleave⟩
    rcases h.cases_of_reaches hR hreach with ⟨-, hfail⟩ | ⟨name, loc, hvisit, hround⟩
    · rw [hfail] at hleave
      cases hleave
    · have hlast : R.scanStep P A scanNode (x, s₁) = .ok (.inr s') := by
        rcases hres : R.scanStep P A scanNode (x, s₁) with e | y | y
        · rw [hres] at hleave
          cases hleave
        · rw [hres] at hleave
          cases hleave
        · rw [hres] at hleave
          cases hleave
          rfl
      exact ⟨name, loc, s₁, hvisit, (round_eq_inr_iff hgo).mp (hround ▸ hlast)⟩
  · rintro ⟨name, loc, s₁, hvisit, hnode⟩
    rcases hvisit.round hR with ⟨x, hreach, hround⟩
    rw [(round_eq_inr_iff hgo).mpr hnode] at hround
    exact ⟨(x, s₁), hreach, by rw [hround]; rfl⟩

/-- A round that goes on comes from a node that is read. -/
theorem Visits.node_of_next {y : Nat} {s₂ : σ}
    (hreach : Loop.Reaches (R.scanStep P A scanNode) (R.dtStructOffset + 4, s) (x, s'))
    (hnext : R.scanStep P A scanNode (x, s') = .ok (.inl (y, s₂))) :
    ∃ name loc, R.Visits P A scanNode s name loc s' ∧ scanNode R name loc s' = .ok (true, s₂) ∧
      R.goOn P A loc = .ok (some y) := by
  rcases h.cases_of_reaches hR hreach with ⟨-, hfail⟩ | ⟨name, loc, hvisit, hround⟩
  · rw [hfail] at hnext
    cases hnext
  · rw [hround] at hnext
    exact ⟨name, loc, hvisit, (round_eq_inl_iff hgo).mp hnext⟩

omit hR h hgo in
/-- The tree is broken at the node: the scanner says so, or there is no way on behind it. -/
def BrokenAt (P : Profile) (A : Arch) (R : DtbReader) (scanNode : Scanner σ) (name : List UInt8) (loc : Nat) (s : σ) :
    Prop :=
  (∃ e, scanNode R name loc s = .error (.dtb e)) ∨
    (∃ s', scanNode R name loc s = .ok (true, s')) ∧ R.StructureBroken P A loc

theorem Visits.scan_eq_dtb_iff :
    (∃ e, R.scan P A scanNode s = .error (.dtb e)) ↔
      ∃ name loc s₁, R.Visits P A scanNode s name loc s₁ ∧ R.BrokenAt P A scanNode name loc s₁ := by
  have hmeasure : Loop.Decreases (R.scanStep P A scanNode) fun x => R.dtb.length - x.1 := scanStep_decreases hR
  have hfuel : ∀ y : Nat × σ, R.dtb.length - y.1 < R.dtb.length + 1 := fun y => Nat.lt_succ_of_le (Nat.sub_le _ _)
  simp only [h.scan_eq hR, dtbLoop, Loop.iterate_eq_error_iff hmeasure (hfuel _)]
  constructor
  · rintro ⟨e, ⟨x, s'⟩, hreach, hfail⟩
    rcases h.cases_of_reaches hR hreach with ⟨hnull, -⟩ | ⟨name', loc', hvisit, hround⟩
    · -- The name does not end: the node before it has no way on.
      rcases Relation.ReflTransGen.cases_tail hreach with hstart | ⟨⟨y, s''⟩, hreach', hnext⟩
      · rcases h with ⟨-, -, x', stop, hreach₁, hname, -⟩
        rw [← hstart] at hreach₁
        rcases Prod.mk.inj (hreach₁.eq_of_leaves (by rw [hfail]; rfl)) with ⟨rfl, -⟩
        rw [hnull] at hname
        cases hname
      · rcases h.node_of_next hR hgo hreach' hnext with ⟨name', loc', hvisit, hnode, hx⟩
        exact ⟨name', loc', s'', hvisit, Or.inr ⟨⟨s', hnode⟩, Or.inr ⟨x, hx, hnull⟩⟩⟩
    · rw [hround] at hfail
      rcases (round_eq_error_iff hgo).mp hfail with hnode | ⟨hnode, hend⟩
      · exact ⟨name', loc', s', hvisit, Or.inl ⟨e, hnode⟩⟩
      · exact ⟨name', loc', s', hvisit, Or.inr ⟨hnode, Or.inl ⟨e, hend⟩⟩⟩
  · rintro ⟨name, loc, s₁, hvisit, hbroken⟩
    rcases hvisit.round hR with ⟨x, hreach, hround⟩
    rcases hbroken with ⟨e, hnode⟩ | ⟨⟨s₂, hnode⟩, ⟨e, hend⟩ | ⟨next, hend, hnull⟩⟩
    · exact ⟨e, (x, s₁), hreach, hround.trans ((round_eq_error_iff hgo).mpr (Or.inl hnode))⟩
    · exact ⟨e, (x, s₁), hreach, hround.trans ((round_eq_error_iff hgo).mpr (Or.inr ⟨⟨s₂, hnode⟩, hend⟩))⟩
    · rw [(round_eq_inl_iff hgo).mpr ⟨hnode, hend⟩] at hround
      refine ⟨.invalidDtb, (next, s₂), hreach.trans (Loop.Reaches.single hround), ?_⟩
      simp only [scanStep, hnull, scan_ok_bind, okOr_none, scan_error_bind]

/-- What the scanner has found in some node, at the end of the scan. -/
theorem Visits.scan_collects {I : σ → Prop} {Q : List UInt8 → Nat → σ → Prop}
    (hnode : ∀ name loc s s', scanNode R name loc s = .ok (true, s') → (I s' ↔ I s ∨ Q name loc s)) (hs : ¬ I s)
    (hscan : R.scan P A scanNode s = .ok s') :
    I s' ↔ ∃ name loc s₁, R.Visits P A scanNode s name loc s₁ ∧ Q name loc s₁ := by
  rcases (h.scan_eq_ok_iff hR hgo).mp hscan with ⟨name', loc', s₂, hlast, hnode', hend⟩
  constructor
  · intro hI
    by_contra hnone
    push Not at hnone
    rcases hlast.round hR with ⟨x, hreach, -⟩
    -- Nothing is found on the way to the last node.
    have hway : Loop.Reaches (R.scanStep P A scanNode) (R.dtStructOffset + 4, s) (x, s₂) ∧ ¬ I s₂ := by
      refine hreach.invariant (I := fun y => Loop.Reaches (R.scanStep P A scanNode) (R.dtStructOffset + 4, s) y ∧ ¬ I y.2)
        ⟨Loop.Reaches.refl _, hs⟩ ?_
      rintro ⟨y, s₃⟩ ⟨y', s₄⟩ ⟨hy, hI₃⟩ hnext
      rcases h.node_of_next hR hgo hy hnext with ⟨name₃, loc₃, hvisit, hread, -⟩
      refine ⟨hy.trans (Loop.Reaches.single hnext), fun hI₄ => ?_⟩
      exact ((hnode _ _ _ _ hread).mp hI₄).elim hI₃ (hnone name₃ loc₃ s₃ hvisit)
    exact ((hnode _ _ _ _ hnode').mp hI).elim hway.2 (hnone name' loc' s₂ hlast)
  · rintro ⟨name₁, loc₁, s₃, hvisit, hQ⟩
    rcases hvisit.round hR with ⟨x, hreach, hround⟩
    rcases hlast.round hR with ⟨z, hreach', hround'⟩
    have hinr := hround'.trans ((round_eq_inr_iff hgo).mpr ⟨hnode', hend⟩)
    -- What has been found is not lost on the way to the last node.
    rcases Relation.ReflTransGen.cases_head (hreach'.to_last (by rw [hinr]; rfl) hreach) with hsame | ⟨⟨y, s₄⟩, hnext, hrest⟩
    · rcases Prod.mk.inj hsame with ⟨rfl, rfl⟩
      have hread := (round_eq_inr_iff hgo).mp (hround.symm.trans hinr)
      exact (hnode _ _ _ _ hread.1).mpr (Or.inr hQ)
    · have hread := (round_eq_inl_iff hgo).mp (hround.symm.trans hnext)
      have hway : Loop.Reaches (R.scanStep P A scanNode) (R.dtStructOffset + 4, s) (z, s₂) ∧ I s₂ := by
        refine Loop.Reaches.invariant
          (I := fun y => Loop.Reaches (R.scanStep P A scanNode) (R.dtStructOffset + 4, s) y ∧ I y.2) hrest
          ⟨hreach.trans (Loop.Reaches.single hnext), (hnode _ _ _ _ hread.1).mpr (Or.inr hQ)⟩ ?_
        rintro ⟨u, s₅⟩ ⟨u', s₆⟩ ⟨hu, hI₅⟩ hnext'
        rcases h.node_of_next hR hgo hu hnext' with ⟨name₅, loc₅, -, hread', -⟩
        exact ⟨hu.trans (Loop.Reaches.single hnext'), (hnode _ _ _ _ hread').mpr (Or.inl hI₅)⟩
      exact (hnode _ _ _ _ hnode').mpr (Or.inl hway.2)

end Ends

/-! ## Pairs in a blob -/

/-- The computation may panic, but it does not return an error. -/
def OnlyPanics {α : Type} (x : Scan α) : Prop :=
  ∀ e, x ≠ .error (.dtb e)

theorem onlyPanics_ok {α : Type} (a : α) : OnlyPanics (.ok a) :=
  fun _ h => nomatch h

theorem onlyPanics_checked {α : Type} (x : Run α) : OnlyPanics (checked x) := by
  cases x with
  | error p => exact fun _ h => nomatch h
  | ok a => exact onlyPanics_ok a

theorem OnlyPanics.bind {α β : Type} {x : Scan α} {f : α → Scan β} (h : OnlyPanics x) (hf : ∀ a, OnlyPanics (f a)) :
    OnlyPanics (x >>= f) := by
  cases x with
  | error e =>
      intro e' he
      rw [scan_error_bind] at he
      exact h e' (congrArg Except.error (Except.error.inj he))
  | ok a => exact hf a

theorem onlyPanics_slice (start stop : Nat) : OnlyPanics (R.slice start stop) := by
  rw [slice]
  split
  · exact onlyPanics_ok _
  · intro e h
    cases h

theorem onlyPanics_readCells (cells value loc : Nat) : OnlyPanics (R.readCells P A cells value loc) := by
  induction cells generalizing value loc with
  | zero => exact onlyPanics_ok _
  | succ cells ih =>
      refine OnlyPanics.bind ?_ fun a => ih _ _
      exact (onlyPanics_checked _).bind fun _ => (onlyPanics_slice _ _).bind fun _ => onlyPanics_ok _

theorem onlyPanics_getRegPairSize (addrCells sizeCells : Nat) : OnlyPanics (getRegPairSize P A addrCells sizeCells) :=
  (onlyPanics_checked _).bind fun _ => onlyPanics_checked _

theorem onlyPanics_getRegPair (addrCells sizeCells loc : Nat) : OnlyPanics (R.getRegPair P A addrCells sizeCells loc) := by
  rw [getRegPair]
  split
  · exact onlyPanics_ok _
  · refine (onlyPanics_getRegPairSize _ _).bind fun _ => (onlyPanics_checked _).bind fun _ => ?_
    split
    · exact onlyPanics_ok _
    · exact (onlyPanics_readCells _ _ _).bind fun _ => (onlyPanics_readCells _ _ _).bind fun _ => onlyPanics_ok _

theorem getU32Unchecked_next {w loc' : Nat} (h : R.getU32Unchecked P A loc = .ok (w, loc')) : loc' = loc + 4 := by
  rcases scan_bind_eq_ok.mp h with ⟨endLoc, hadd, h⟩
  rcases scan_bind_eq_ok.mp h with ⟨bytes, hslice, h⟩
  cases h
  have hlimit := two_pow_le_wordLimit A
  rw [slice] at hslice
  split at hslice
  next hle =>
    -- An end that has wrapped around lies before the start.
    cases P with
    | dev =>
        rw [addWord] at hadd
        cases hsum : checkedAdd A loc fdtWordBytes with
        | error p =>
            rw [hsum] at hadd
            cases hadd
        | ok sum =>
            rw [hsum] at hadd
            cases hadd
            exact (checkedAdd_eq_ok.mp hsum).2.symm
    | release =>
        rw [addWord, fdtWordBytes] at hadd
        cases hadd
        rcases Nat.lt_or_ge (loc + 4) A.wordLimit with hlt | hge
        · exact Nat.mod_eq_of_lt hlt
        · have hsub := Nat.mod_eq_sub_mod hge
          have hle' := Nat.mod_le (loc + 4 - A.wordLimit) A.wordLimit
          omega
  next => cases hslice

theorem readCells_next {cells value v loc' : Nat} (h : R.readCells P A cells value loc = .ok (v, loc')) :
    loc' = loc + 4 * cells := by
  induction cells generalizing value loc with
  | zero =>
      cases h
      rfl
  | succ cells ih =>
      rcases scan_bind_eq_ok.mp h with ⟨⟨w, next⟩, hword, h⟩
      rw [ih h, getU32Unchecked_next hword]
      omega

/-- The next pair stands behind this one. -/
theorem getRegPair_next {addrCells sizeCells loc' : Nat} {p : Nat × Nat}
    (h : R.getRegPair P A addrCells sizeCells loc = .ok (some (p, loc'))) : loc' = loc + 4 * (addrCells + sizeCells) := by
  rw [getRegPair] at h
  split at h
  · cases h
  · rcases scan_bind_eq_ok.mp h with ⟨pairSize, -, h⟩
    rcases scan_bind_eq_ok.mp h with ⟨last, -, h⟩
    split at h
    · cases h
    · rcases scan_bind_eq_ok.mp h with ⟨⟨addr, next⟩, haddr, h⟩
      rcases scan_bind_eq_ok.mp h with ⟨⟨size, next'⟩, hsize, h⟩
      cases h
      rw [readCells_next hsize, readCells_next haddr]
      omega

/-- Behind the last pair no pair is read. -/
theorem getRegPair_none_of_le {addrCells sizeCells loc' : Nat} {y : (Nat × Nat) × Nat} (hle : loc ≤ loc')
    (h : R.getRegPair P A addrCells sizeCells loc = .ok none) :
    R.getRegPair P A addrCells sizeCells loc' ≠ .ok (some y) := by
  intro h'
  rw [getRegPair] at h h'
  split at h
  next h0 =>
    rw [if_pos h0] at h'
    cases h'
  next h0 =>
    rw [if_neg h0] at h'
    rcases scan_bind_eq_ok.mp h with ⟨pairSize, hsize, h⟩
    rcases scan_bind_eq_ok.mp h with ⟨last, hlast, h⟩
    rw [hsize, scan_ok_bind, hlast, scan_ok_bind] at h'
    split at h
    -- Too near to the end at `loc` is too near at `loc'`.
    next hlt =>
      rw [if_pos (by omega)] at h'
      cases h'
    next =>
      rcases scan_bind_eq_ok.mp h with ⟨x, -, h⟩
      rcases scan_bind_eq_ok.mp h with ⟨z, -, h⟩
      cases h

end DtbReader

/-! ## What a memory node adds -/

namespace DtbMemory

open DtbReader

variable {P : Profile} {A : Arch} {virtualBase : Nat} {R : DtbReader} {loc addrCells sizeCells count size : Nat}
  {name : List UInt8} {s s' : Scanner} {d : Device} {config config' : MemoryConfig} {e : Option DtbError}

/-- The node is a memory device with a `reg` property of the given place and size. -/
structure MemoryReg (P : Profile) (A : Arch) (R : DtbReader) (loc : Nat) (s : Scanner) (d : Device) (pos size : Nat) :
    Prop where
  device : R.forProperties P A (deviceProperty P A R) loc ⟨none, none, s.addrCells, s.sizeCells⟩ = .ok d
  memory : ∃ p n, d.devType = some (p, n) ∧ checkDeviceType R p = .ok true
  reg : d.reg = some (pos, size)

/-- Some pair of the property is read, starts in the address space, and is not empty. -/
def SuppliesReg (P : Profile) (A : Arch) (R : DtbReader) (addrCells sizeCells pos size : Nat) : Prop :=
  ∃ pairSize, getRegPairSize P A addrCells sizeCells = .ok pairSize ∧ size % pairSize = 0 ∧
    ∃ i < size / pairSize, ∃ p loc', R.getRegPair P A addrCells sizeCells (pos + 4 * (addrCells + sizeCells) * i) =
      .ok (some (p, loc')) ∧ p.1 < A.wordLimit ∧ p.2 ≠ 0

/-- The node is not the root, and a memory device that supplies memory. -/
def SuppliesAt (P : Profile) (A : Arch) (R : DtbReader) (name : List UInt8) (loc : Nat) (s : Scanner) : Prop :=
  name.length ≠ 0 ∧ ∃ d pos size, MemoryReg P A R loc s d pos size ∧ SuppliesReg P A R d.addrCells d.sizeCells pos size

theorem insertAll_ranges_ne_nil {rs : List MemoryRange} (hrs : ∀ r ∈ rs, r.Fits A ∧ 0 < r.size ∧ r.size < A.wordLimit)
    (hne : rs ≠ []) (config : MemoryConfig) : (RangeSet.insertAll A rs config).ranges ≠ [] := by
  intro hnil
  have hlen := (RangeSet.insertAll_perm hrs config).length_eq
  have hmax : maxMemRanges = 64 := rfl
  have hpos := List.length_pos_iff.mpr hne
  rw [hnil, List.length_nil, List.length_append, List.length_take, RangeSet.count] at hlen
  omega

theorem zoneRanges_ne_nil (A : Arch) (virtualBase : Nat) (b : Nat × Nat) : zoneRanges A virtualBase b ≠ [] := by
  cases A with
  | aarch64 => exact List.cons_ne_nil _ _
  | arm =>
      rw [zoneRanges]
      split
      · exact List.cons_ne_nil _ _
      · split
        · exact List.cons_ne_nil _ _
        · exact List.cons_ne_nil _ _

/-- The loop leaves something in the configuration if there was something, or if some pair is stored. -/
theorem addBlocks_ranges (h : addBlocks P A virtualBase R addrCells sizeCells count loc config = .ok (e, config')) :
    config'.ranges ≠ [] ↔ config.ranges ≠ [] ∨ ∃ i < count, ∃ p loc',
      R.getRegPair P A addrCells sizeCells (loc + 4 * (addrCells + sizeCells) * i) = .ok (some (p, loc')) ∧
        p.1 < A.wordLimit ∧ p.2 ≠ 0 := by
  have hlimit := two_pow_le_wordLimit A
  induction count generalizing loc config with
  | zero =>
      cases h
      simp
  | succ count ih =>
      rw [addBlocks] at h
      rcases scan_bind_eq_ok.mp h with ⟨pair, hpair, h⟩
      cases pair with
      | none =>
          cases h
          refine ⟨Or.inl, fun hor => hor.elim id ?_⟩
          rintro ⟨i, -, p, loc', hread, -⟩
          exact absurd hread (getRegPair_none_of_le (Nat.le_add_right _ _) hpair)
      | some x =>
          rcases x with ⟨⟨base, size⟩, next⟩
          have hnext := getRegPair_next hpair
          -- The pairs of the rest are the pairs behind the first.
          have hrest : ∀ i, R.getRegPair P A addrCells sizeCells (next + 4 * (addrCells + sizeCells) * i) =
              R.getRegPair P A addrCells sizeCells (loc + 4 * (addrCells + sizeCells) * (i + 1)) := by
            intro i
            rw [hnext, Nat.mul_succ, Nat.add_assoc, Nat.add_comm (4 * (addrCells + sizeCells))]
          have hsplit : (∃ i < count + 1, ∃ p loc',
              R.getRegPair P A addrCells sizeCells (loc + 4 * (addrCells + sizeCells) * i) = .ok (some (p, loc')) ∧
                p.1 < A.wordLimit ∧ p.2 ≠ 0) ↔
              (base < A.wordLimit ∧ size ≠ 0) ∨ ∃ i < count, ∃ p loc',
                R.getRegPair P A addrCells sizeCells (next + 4 * (addrCells + sizeCells) * i) = .ok (some (p, loc')) ∧
                  p.1 < A.wordLimit ∧ p.2 ≠ 0 := by
            constructor
            · rintro ⟨i, hi, p, loc', hread, hkeep⟩
              cases i with
              | zero =>
                  rw [Nat.mul_zero, Nat.add_zero, hpair] at hread
                  cases hread
                  exact Or.inl hkeep
              | succ i => exact Or.inr ⟨i, by omega, p, loc', (hrest i).trans hread, hkeep⟩
            · rintro (hkeep | ⟨i, hi, p, loc', hread, hkeep⟩)
              · exact ⟨0, Nat.succ_pos _, (base, size), next, hpair, hkeep⟩
              · exact ⟨i + 1, by omega, p, loc', (hrest i).symm.trans hread, hkeep⟩
          rw [hsplit]
          simp only at h
          split at h
          next hbase =>
            have hskip : ¬ (base < A.wordLimit ∧ size ≠ 0) := by omega
            simp only [hskip, false_or]
            exact ih h
          next hbase =>
            split at h
            next hzero =>
              have hskip : ¬ (base < A.wordLimit ∧ size ≠ 0) := by omega
              simp only [hskip, false_or]
              exact ih h
            next hzero =>
              have hvalid := validBlock_clip hbase hzero
              rw [handleRange_eq hvalid, checked_ok, scan_ok_bind] at h
              have hstored := insertAll_ranges_ne_nil (fun r hr => zoneRanges_valid hvalid hr)
                (zoneRanges_ne_nil A virtualBase _) config
              exact iff_of_true ((ih h).mpr (Or.inl hstored)) (Or.inr (Or.inl ⟨by omega, hzero⟩))

theorem addMemoryBlocks_ranges
    (h : addMemoryBlocks P A virtualBase R size addrCells sizeCells loc config = .ok (e, config')) :
    config'.ranges ≠ [] ↔ config.ranges ≠ [] ∨ SuppliesReg P A R addrCells sizeCells loc size := by
  rw [addMemoryBlocks] at h
  rcases scan_bind_eq_ok.mp h with ⟨pairSize, hsize, h⟩
  split at h
  next hbad =>
    cases h
    refine ⟨Or.inl, fun hor => hor.elim id ?_⟩
    rintro ⟨pairSize', hsize', hmod, i, hi, -⟩
    obtain rfl := Except.ok.inj (hsize.symm.trans hsize')
    have hpos : 0 < pairSize := Nat.pos_of_ne_zero fun h0 => by simp [h0] at hi
    have hle := (Nat.div_pos_iff.mp (Nat.zero_lt_of_lt hi)).2
    omega
  next hgood =>
    rw [addBlocks_ranges h]
    refine or_congr_right ⟨fun hpair => ⟨pairSize, hsize, by omega, hpair⟩, ?_⟩
    rintro ⟨pairSize', hsize', -, hpair⟩
    obtain rfl := Except.ok.inj (hsize.symm.trans hsize')
    exact hpair

theorem onlyPanics_addBlocks (count loc : Nat) (config : MemoryConfig) :
    OnlyPanics (addBlocks P A virtualBase R addrCells sizeCells count loc config) := by
  induction count generalizing loc config with
  | zero => exact onlyPanics_ok _
  | succ count ih =>
      refine (onlyPanics_getRegPair _ _ _).bind fun pair => ?_
      rcases pair with _ | ⟨⟨base, size⟩, next⟩
      · exact onlyPanics_ok _
      · simp only
        split
        · exact ih _ _
        · split
          · exact ih _ _
          · exact (onlyPanics_checked _).bind fun _ => ih _ _

theorem onlyPanics_addDevice (d : Device) (s : Scanner) : OnlyPanics (addDevice P A virtualBase R d s) := by
  rw [addDevice]
  split
  · exact onlyPanics_ok _
  · refine OnlyPanics.bind ?_ fun isMemory => ?_
    · refine OnlyPanics.bind ?_ fun o => by cases o <;> exact onlyPanics_ok _
      rw [getNullTerminatedU8Slice]
      split
      · exact onlyPanics_ok _
      · exact (onlyPanics_slice _ _).bind fun _ => onlyPanics_ok _
    · split
      · split
        · exact onlyPanics_ok _
        · refine OnlyPanics.bind ?_ fun _ => onlyPanics_ok _
          refine (onlyPanics_getRegPairSize _ _).bind fun pairSize => ?_
          split
          · exact onlyPanics_ok _
          · exact onlyPanics_addBlocks _ _ _
      · exact onlyPanics_ok _

/-- The properties of the node are cut off by the end of the blob. -/
def PropertiesCut (P : Profile) (A : Arch) (R : DtbReader) (name : List UInt8) (loc : Nat) (s : Scanner) : Prop :=
  if name.length = 0 then ∃ e, R.forProperties P A (rootProperty P A R) loc s = .error (.dtb e)
  else ∃ e, R.forProperties P A (deviceProperty P A R) loc ⟨none, none, s.addrCells, s.sizeCells⟩ = .error (.dtb e)

/-- The properties of the node can be read, and the blocks of a memory device without a panic. -/
def NodeReads (P : Profile) (A : Arch) (virtualBase : Nat) (R : DtbReader) (name : List UInt8) (loc : Nat)
    (s : Scanner) : Prop :=
  if name.length = 0 then ∃ s', R.forProperties P A (rootProperty P A R) loc s = .ok s'
  else ∃ d, R.forProperties P A (deviceProperty P A R) loc ⟨none, none, s.addrCells, s.sizeCells⟩ = .ok d ∧
    Returns (addDevice P A virtualBase R d s)

theorem scanNode_persistent : R.Persistent (scanNode P A virtualBase) := by
  intro name loc s go s' h
  rw [scanNode] at h
  split at h
  · rcases scan_bind_eq_ok.mp h with ⟨x, -, h⟩
    cases h
    rfl
  · rcases scan_bind_eq_ok.mp h with ⟨x, -, h⟩
    cases h
    rfl

/-- A node that always lets the scan go on ends as its reader ends. -/
theorem goOn_iff (x : Scan Scanner) :
    ((∃ e, (x >>= fun s => (return (true, s) : Scan (Bool × Scanner))) = .error (.dtb e)) ↔ ∃ e, x = .error (.dtb e)) ∧
      ((∃ s', (x >>= fun s => (return (true, s) : Scan (Bool × Scanner))) = .ok (true, s')) ↔ ∃ s', x = .ok s') := by
  cases x with
  | error e => exact ⟨by simp, iff_of_false (fun ⟨_, h⟩ => nomatch h) fun ⟨_, h⟩ => nomatch h⟩
  | ok s => exact ⟨iff_of_false (fun ⟨_, h⟩ => nomatch h) fun ⟨_, h⟩ => (nomatch h), iff_of_true ⟨s, rfl⟩ ⟨s, rfl⟩⟩

theorem scanNode_dtb_iff :
    (∃ e, scanNode P A virtualBase R name loc s = .error (.dtb e)) ↔ PropertiesCut P A R name loc s := by
  rw [scanNode, PropertiesCut]
  split
  next => exact (goOn_iff _).1
  next =>
    rw [(goOn_iff _).1, scanDeviceNode]
    cases R.forProperties P A (deviceProperty P A R) loc ⟨none, none, s.addrCells, s.sizeCells⟩ with
    | error e => simp
    | ok d =>
        refine iff_of_false ?_ ?_
        · rintro ⟨e, h⟩
          exact onlyPanics_addDevice d s e h
        · rintro ⟨e, h⟩
          cases h

theorem scanNode_ok_iff :
    (∃ s', scanNode P A virtualBase R name loc s = .ok (true, s')) ↔ NodeReads P A virtualBase R name loc s := by
  rw [scanNode, NodeReads]
  split
  next => exact (goOn_iff _).2
  next =>
    rw [(goOn_iff _).2, scanDeviceNode]
    constructor
    · rintro ⟨s', h⟩
      rcases scan_bind_eq_ok.mp h with ⟨d, hd, h⟩
      exact ⟨d, hd, h ▸ returns_ok s'⟩
    · rintro ⟨d, hd, hret⟩
      rw [hd, scan_ok_bind]
      rcases hadd : addDevice P A virtualBase R d s with (p | e) | s'
      · exact absurd hadd (hret p)
      · exact absurd hadd (onlyPanics_addDevice d s e)
      · exact ⟨s', rfl⟩

/-- The blocks of a device are added if it is a memory device with a `reg` property. -/
theorem addDevice_cases (h : addDevice P A virtualBase R d s = .ok s') :
    (∃ p n pos size e config, d.devType = some (p, n) ∧ checkDeviceType R p = .ok true ∧ d.reg = some (pos, size) ∧
        addMemoryBlocks P A virtualBase R size d.addrCells d.sizeCells pos s.config = .ok (e, config) ∧
        s' = { s with config }) ∨
      s' = s ∧ ¬ ∃ p n pos size, d.devType = some (p, n) ∧ checkDeviceType R p = .ok true ∧ d.reg = some (pos, size) := by
  rw [addDevice] at h
  split at h
  next htype =>
    cases h
    refine Or.inr ⟨rfl, ?_⟩
    rintro ⟨p, n, pos, size, hp, -⟩
    rw [htype] at hp
    cases hp
  next p n htype =>
    rcases scan_bind_eq_ok.mp h with ⟨isMemory, hcheck, h⟩
    split at h
    -- A memory device without a `reg` property adds nothing.
    next hmem =>
      subst hmem
      split at h
      next hreg =>
        cases h
        refine Or.inr ⟨rfl, ?_⟩
        rintro ⟨-, -, pos, size, -, -, hreg'⟩
        rw [hreg] at hreg'
        cases hreg'
      next pos size hreg =>
        rcases scan_bind_eq_ok.mp h with ⟨⟨e, config⟩, hadd, h⟩
        cases h
        exact Or.inl ⟨p, n, pos, size, e, config, htype, hcheck, hreg, hadd, rfl⟩
    next hmem =>
      cases h
      refine Or.inr ⟨rfl, ?_⟩
      rintro ⟨p', n', -, -, htype', hcheck', -⟩
      rw [htype] at htype'
      cases htype'
      rw [hcheck] at hcheck'
      exact hmem (Except.ok.inj hcheck')

/-- The root node has no memory. -/
theorem scanRootNode_config (hR : R.Sound) (h : scanRootNode P A R loc s = .ok s') : s'.config = s.config := by
  refine forProperties_invariant (I := fun s' => s'.config = s.config) hR (rootProperty_tame hR).advances ?_ rfl h
  intro header loc s₁ loc' s₂ _ hconfig hstep
  rw [rootProperty] at hstep
  match htag : findTag A header.name with
  | some .dtbPropAddressCells | some .dtbPropSizeCells =>
      rw [htag, readRootProperty] at hstep
      rcases scan_bind_eq_ok.mp hstep with ⟨o, -, hstep⟩
      rcases scan_bind_eq_ok.mp hstep with ⟨x, -, hstep⟩
      cases hstep
      exact hconfig
  | some .dtbPropDeviceType | some .dtbPropReg | none =>
      rw [htag] at hstep
      rcases scan_bind_eq_ok.mp hstep with ⟨x, -, hstep⟩
      cases hstep
      exact hconfig

theorem scanNode_supplies (hR : R.Sound) (h : scanNode P A virtualBase R name loc s = .ok (true, s')) :
    s'.config.ranges ≠ [] ↔ s.config.ranges ≠ [] ∨ SuppliesAt P A R name loc s := by
  rw [scanNode] at h
  split at h
  next hroot =>
    rcases scan_bind_eq_ok.mp h with ⟨x, hx, h⟩
    cases h
    -- The root node changes the cells only.
    rw [scanRootNode_config hR hx]
    exact ⟨Or.inl, fun hor => hor.elim id fun hsup => absurd hroot hsup.1⟩
  next hroot =>
    rcases scan_bind_eq_ok.mp h with ⟨x, hx, h⟩
    cases h
    rcases scan_bind_eq_ok.mp hx with ⟨d, hd, hadd⟩
    rcases addDevice_cases hadd with ⟨p, n, pos, size, e, config, htype, hcheck, hreg, hblocks, rfl⟩ | ⟨rfl, hnone⟩
    · have hsup : SuppliesAt P A R name loc s ↔ SuppliesReg P A R d.addrCells d.sizeCells pos size := by
        constructor
        · rintro ⟨-, d', pos', size', hmem, hsup⟩
          obtain rfl := Except.ok.inj (hd.symm.trans hmem.device)
          cases hreg.symm.trans hmem.reg
          exact hsup
        · exact fun hsup => ⟨hroot, d, pos, size, ⟨hd, ⟨p, n, htype, hcheck⟩, hreg⟩, hsup⟩
      -- A memory device supplies memory if its `reg` value does, even if the value is cut short by an error.
      rw [hsup]
      exact addMemoryBlocks_ranges hblocks
    · refine ⟨Or.inl, fun hor => hor.elim id ?_⟩
      rintro ⟨-, d', pos, size, hmem, -⟩
      obtain rfl := Except.ok.inj (hd.symm.trans hmem.device)
      rcases hmem.memory with ⟨p, n, htype, hcheck⟩
      exact absurd ⟨p, n, pos, size, htype, hcheck, hmem.reg⟩ hnone

theorem addBlocks_ordered (h : addBlocks P A virtualBase R addrCells sizeCells count loc config = .ok (e, config'))
    (hconfig : RangeSet.Ordered A config) : RangeSet.Ordered A config' := by
  induction count generalizing loc config with
  | zero =>
      cases h
      exact hconfig
  | succ count ih =>
      rw [addBlocks] at h
      rcases scan_bind_eq_ok.mp h with ⟨pair, -, h⟩
      rcases pair with _ | ⟨⟨base, size⟩, next⟩
      · cases h
        exact hconfig
      · simp only at h
        split at h
        next => exact ih h hconfig
        next hbase =>
          split at h
          next => exact ih h hconfig
          next hzero =>
            have hvalid := validBlock_clip hbase hzero
            rw [handleRange_eq hvalid, checked_ok, scan_ok_bind] at h
            exact ih h (hconfig.insertAll fun r hr => (zoneRanges_valid hvalid hr).2.2)

/-- The configuration stays in order. -/
theorem scanNode_ordered (hR : R.Sound) {go : Bool} (h : scanNode P A virtualBase R name loc s = .ok (go, s'))
    (hs : RangeSet.Ordered A s.config) : RangeSet.Ordered A s'.config := by
  rw [scanNode] at h
  split at h
  next =>
    rcases scan_bind_eq_ok.mp h with ⟨x, hx, h⟩
    cases h
    rw [scanRootNode_config hR hx]
    exact hs
  next =>
    rcases scan_bind_eq_ok.mp h with ⟨x, hx, h⟩
    cases h
    rcases scan_bind_eq_ok.mp hx with ⟨d, -, hadd⟩
    rcases addDevice_cases hadd with ⟨p, n, pos, size, e, config, -, -, -, hblocks, rfl⟩ | ⟨rfl, -⟩
    · rw [addMemoryBlocks] at hblocks
      rcases scan_bind_eq_ok.mp hblocks with ⟨pairSize, -, hblocks⟩
      split at hblocks
      · cases hblocks
        exact hs
      · exact addBlocks_ordered hblocks hs
    · exact hs

end DtbMemory

/-! ## The whole tree -/

section Layout

variable (P : Profile) (A : Arch) (virtualBase : Nat) (blob : List UInt8)

/-- The scan of `get_memory_layout` comes to the node. -/
def VisitsNode (R : DtbReader) (name : List UInt8) (loc : Nat) (s : DtbMemory.Scanner) : Prop :=
  DtbReader.new P A blob = .ok R ∧ R.Visits P A (DtbMemory.scanNode P A virtualBase) (.new RangeSet.new) name loc s

/-- Some memory node has a `reg` property that `add_memory_blocks` rejects. -/
def HasRejectedReg : Prop :=
  ∃ R name loc s d pos size, VisitsNode P A virtualBase blob R name loc s ∧ name.length ≠ 0 ∧
    DtbMemory.MemoryReg P A R loc s d pos size ∧ ∃ e config,
      DtbMemory.addMemoryBlocks P A virtualBase R size d.addrCells d.sizeCells pos s.config = .ok (some e, config)

/-- At some node the tree is broken: its properties are cut off, or there is no way on behind it. -/
def TreeBroken : Prop :=
  ∃ R name loc s, VisitsNode P A virtualBase blob R name loc s ∧
    (DtbMemory.PropertiesCut P A R name loc s ∨
      DtbMemory.NodeReads P A virtualBase R name loc s ∧ R.StructureBroken P A loc)

/-- The scan comes to the end of the tree. -/
def TreeEnds : Prop :=
  ∃ R name loc s, VisitsNode P A virtualBase blob R name loc s ∧
    DtbMemory.NodeReads P A virtualBase R name loc s ∧ R.goOn P A loc = .ok none

/-- Some memory node supplies memory. -/
def SuppliesMemory : Prop :=
  ∃ R name loc s, VisitsNode P A virtualBase blob R name loc s ∧ DtbMemory.SuppliesAt P A R name loc s

end Layout

section Reports

open DtbReader

variable {P : Profile} {A : Arch} {virtualBase fuel : Nat} {blob : List UInt8} {R : DtbReader} {name : List UInt8}
  {loc : Nat} {s s' : DtbMemory.Scanner}

theorem VisitsNode.exists_iff (h : VisitsNode P A virtualBase blob R name loc s)
    (Q : DtbReader → List UInt8 → Nat → DtbMemory.Scanner → Prop) :
    (∃ R name loc s, VisitsNode P A virtualBase blob R name loc s ∧ Q R name loc s) ↔
      ∃ name loc s, R.Visits P A (DtbMemory.scanNode P A virtualBase) (.new RangeSet.new) name loc s ∧
        Q R name loc s := by
  constructor
  · rintro ⟨R', name', loc', s', ⟨hnew, hvisit⟩, hQ⟩
    obtain rfl := Except.ok.inj (h.1.symm.trans hnew)
    exact ⟨name', loc', s', hvisit, hQ⟩
  · rintro ⟨name', loc', s', hvisit, hQ⟩
    exact ⟨R, name', loc', s', ⟨h.1, hvisit⟩, hQ⟩

section Visited

variable (hblob : checkDtb blob = .ok blob.length) (h : VisitsNode P A virtualBase blob R name loc s)
include hblob h

theorem treeBroken_iff : TreeBroken P A virtualBase blob ↔ ∃ e, scanMemory P A virtualBase blob = .error (.dtb e) := by
  have hR := new_sound hblob h.1
  rw [TreeBroken, h.exists_iff, scanMemory, h.1, scan_ok_bind, h.2.scan_eq_dtb_iff hR DtbMemory.scanNode_persistent]
  simp only [BrokenAt, DtbMemory.scanNode_dtb_iff, DtbMemory.scanNode_ok_iff]

theorem treeEnds_iff : TreeEnds P A virtualBase blob ↔ ∃ s, scanMemory P A virtualBase blob = .ok s := by
  have hR := new_sound hblob h.1
  simp only [TreeEnds, h.exists_iff, scanMemory, h.1, scan_ok_bind,
    h.2.scan_eq_ok_iff hR DtbMemory.scanNode_persistent, ← DtbMemory.scanNode_ok_iff]
  constructor
  · rintro ⟨name, loc, s, hvisit, ⟨s', hnode⟩, hend⟩
    exact ⟨s', name, loc, s, hvisit, hnode, hend⟩
  · rintro ⟨s', name, loc, s, hvisit, hnode, hend⟩
    exact ⟨name, loc, s, hvisit, ⟨s', hnode⟩, hend⟩

theorem suppliesMemory_iff (hscan : scanMemory P A virtualBase blob = .ok s') :
    s'.config.ranges ≠ [] ↔ SuppliesMemory P A virtualBase blob := by
  have hR := new_sound hblob h.1
  rw [scanMemory, h.1, scan_ok_bind] at hscan
  rw [SuppliesMemory, h.exists_iff]
  exact h.2.scan_collects hR DtbMemory.scanNode_persistent (I := fun s => s.config.ranges ≠ [])
    (fun _ _ _ _ hnode => DtbMemory.scanNode_supplies hR hnode) (fun hne => hne rfl) hscan

theorem scanMemory_ordered (hscan : scanMemory P A virtualBase blob = .ok s') : RangeSet.Ordered A s'.config := by
  have hR := new_sound hblob h.1
  rw [scanMemory, h.1, scan_ok_bind] at hscan
  rcases (h.2.scan_eq_ok_iff hR DtbMemory.scanNode_persistent).mp hscan with ⟨name', loc', s₁, hvisit, hnode, -⟩
  have hs₁ := (Visits.invariant hR (I := fun s => RangeSet.Ordered A s.config)
    (fun _ _ _ _ _ _ hs hnode => DtbMemory.scanNode_ordered hR hnode hs) RangeSet.new_ordered hvisit).1
  exact DtbMemory.scanNode_ordered hR hnode hs₁

/-- With a node in the tree, the function returns false exactly if the tree is broken or has no memory. -/
theorem getMemoryLayout_none_iff (fuel : Nat) :
    getMemoryLayout P A virtualBase blob fuel = .ok none ↔
      TreeBroken P A virtualBase blob ∨ TreeEnds P A virtualBase blob ∧ ¬ SuppliesMemory P A virtualBase blob := by
  rw [treeBroken_iff hblob h, treeEnds_iff hblob h, getMemoryLayout]
  match hscan : scanMemory P A virtualBase blob with
  | .error (.panic p) => simp
  | .error (.dtb e) => simp
  | .ok s' =>
      -- Trimming keeps the ranges of an ordered set, so no range is there after it only if none was before.
      have hordered := scanMemory_ordered hblob h hscan
      rw [← suppliesMemory_iff hblob h hscan, not_not]
      simp only [reduceCtorEq, exists_false, Except.ok.injEq, exists_eq', true_and, false_or]
      constructor
      · intro hnone
        rcases run_bind_eq_ok.mp hnone with ⟨config, htrim, hret⟩
        obtain rfl := (RangeSet.trimRanges_eq_ok hordered htrim).1
        split at hret
        next hempty =>
          rw [RangeSet.isEmpty, beq_iff_eq, RangeSet.count] at hempty
          exact List.length_eq_zero_iff.mp hempty
        next => cases hret
      · intro hnil
        rcases hconfig : s'.config with ⟨ranges⟩
        rw [hconfig] at hnil
        obtain rfl : ranges = [] := hnil
        rfl

end Visited

/-- If some memory node has a `reg` property that is rejected, then false is returned exactly if the tree is broken in
another place, or if the scan comes to its end and no memory node supplies memory. -/
theorem getMemoryLayout_reports_iff (P : Profile) (A : Arch) (virtualBase : Nat) (blob : List UInt8) (fuel : Nat)
    (hblob : checkDtb blob = .ok blob.length) :
    (HasRejectedReg P A virtualBase blob → getMemoryLayout P A virtualBase blob fuel = .ok none) ↔
      (HasRejectedReg P A virtualBase blob →
        TreeBroken P A virtualBase blob ∨ TreeEnds P A virtualBase blob ∧ ¬ SuppliesMemory P A virtualBase blob) := by
  refine imp_congr_right fun hrejected => ?_
  rcases hrejected with ⟨R, name, loc, s, d, pos, size, hvisit, -⟩
  exact getMemoryLayout_none_iff hblob hvisit fuel

/-- The node behind the root is a memory node with a `reg` property that is rejected. -/
def rejectsSecond (P : Profile) (A : Arch) (virtualBase : Nat) (blob : List UInt8) : Scan Bool := do
  let R ← DtbReader.new P A blob
  match ← R.scanStep P A (DtbMemory.scanNode P A virtualBase) (R.dtStructOffset + 4, .new RangeSet.new) with
  | .inr _ => return false
  | .inl (x, s) =>
      match ← R.getNullTerminatedU8Slice x with
      | none => return false
      | some (name, stop) => do
          let d ← R.forProperties P A (DtbMemory.deviceProperty P A R) (skipTo R.dtb.length 1 stop)
            ⟨none, none, s.addrCells, s.sizeCells⟩
          match d.devType, d.reg with
          | some (p, _), some (pos, size) => do
              let isMemory ← DtbMemory.checkDeviceType R p
              let (e, _) ← DtbMemory.addMemoryBlocks P A virtualBase R size d.addrCells d.sizeCells pos s.config
              return decide (R.dtStructOffset + 4 ≤ R.dtb.length ∧ R.wordAt R.dtStructOffset = fdtBeginNode ∧
                name.length ≠ 0 ∧ isMemory = true ∧ e.isSome = true)
          | _, _ => return false

theorem hasRejectedReg_of_second (h : rejectsSecond P A virtualBase blob = .ok true) :
    HasRejectedReg P A virtualBase blob := by
  rcases scan_bind_eq_ok.mp h with ⟨R, hnew, h⟩
  rcases scan_bind_eq_ok.mp h with ⟨⟨x, s⟩ | s, hfirst, h⟩
  · rcases scan_bind_eq_ok.mp h with ⟨_ | ⟨name, stop⟩, hname, h⟩
    · cases h
    · rcases scan_bind_eq_ok.mp h with ⟨d, hdevice, h⟩
      rcases htype : d.devType with _ | ⟨p, n⟩
      · simp only [htype] at h
        cases h
      · rcases hreg : d.reg with _ | ⟨pos, size⟩
        · simp only [htype, hreg] at h
          cases h
        · simp only [htype, hreg] at h
          rcases scan_bind_eq_ok.mp h with ⟨isMemory, hcheck, h⟩
          rcases scan_bind_eq_ok.mp h with ⟨⟨e, config⟩, hadd, h⟩
          rcases of_decide_eq_true (Except.ok.inj h) with ⟨hle, hbegin, hne, rfl, he⟩
          rcases Option.isSome_iff_exists.mp he with ⟨e, rfl⟩
          exact ⟨R, name, _, s, d, pos, size, ⟨hnew, hle, hbegin, x, stop, Loop.Reaches.single hfirst, hname, rfl⟩, hne,
            ⟨hdevice, ⟨p, n, htype, hcheck⟩, hreg⟩, e, config, hadd⟩
  · cases h

/-- One memory node, of which the `reg` property is half a pair. -/
theorem getMemoryLayout_reports_half :
    HasRejectedReg .dev .aarch64 0 (memoryBlob (memoryNode [0x80000000] .nil)) ∧
      getMemoryLayout .dev .aarch64 0 (memoryBlob (memoryNode [0x80000000] .nil)) 1 = .ok none ∧
      (TreeBroken .dev .aarch64 0 (memoryBlob (memoryNode [0x80000000] .nil)) ∨
        TreeEnds .dev .aarch64 0 (memoryBlob (memoryNode [0x80000000] .nil)) ∧
          ¬ SuppliesMemory .dev .aarch64 0 (memoryBlob (memoryNode [0x80000000] .nil))) := by
  have hrejected : HasRejectedReg .dev .aarch64 0 (memoryBlob (memoryNode [0x80000000] .nil)) :=
    hasRejectedReg_of_second (by decide +kernel)
  have hnone : getMemoryLayout .dev .aarch64 0 (memoryBlob (memoryNode [0x80000000] .nil)) 1 = .ok none := by
    decide +kernel
  exact ⟨hrejected, hnone, (getMemoryLayout_reports_iff .dev .aarch64 0 _ 1 (by decide +kernel)).mp (fun _ => hnone)
    hrejected⟩

/-- With another memory node behind it, the function returns true. -/
theorem getMemoryLayout_hides_half :
    checkDtb (memoryBlob (memoryNode [0x80000000] (memoryNode [0x40000000, 0x1000000] .nil))) =
        .ok (memoryBlob (memoryNode [0x80000000] (memoryNode [0x40000000, 0x1000000] .nil))).length ∧
      HasRejectedReg .dev .aarch64 0 (memoryBlob (memoryNode [0x80000000] (memoryNode [0x40000000, 0x1000000] .nil))) ∧
      getMemoryLayout .dev .aarch64 0 (memoryBlob (memoryNode [0x80000000] (memoryNode [0x40000000, 0x1000000] .nil)))
        1 = .ok (some ⟨[⟨.linearMemoryZone, 0x40000000, 0x1000000⟩]⟩) := by
  refine ⟨by decide +kernel, hasRejectedReg_of_second (by decide +kernel), by decide +kernel⟩

end Reports

end Propeller
