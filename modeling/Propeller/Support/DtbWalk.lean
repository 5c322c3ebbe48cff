import Propeller.Support.Dtb

/-!
# Support.DtbWalk — the walk over the nodes of a device tree

The walk itself does not look at names of properties, and it never panics: whether a scan does is up to what the
scanner does at the nodes that are visited.
-/

namespace Propeller
namespace DtbReader

variable {P : Profile} {A : Arch} {R : DtbReader} {loc loc' t : Nat}

/-! ## Skipping properties -/

/-- The rounds of `skip_node_properties`. -/
theorem skipPropertiesStep_eq (hR : R.Sound) (P : Profile) (A : Arch) (loc : Nat) :
    R.skipPropertiesStep P A loc =
      if loc + 4 ≤ R.dtb.length then
        if R.wordAt loc = fdtProp then
          if loc + 8 ≤ R.dtb.length then
            (checked (addWord P A (R.wordAt (loc + 4)) 4)).map fun n => .inl (skipTo R.dtb.length n (loc + 8))
          else .error (.dtb .invalidDtb)
        else if R.wordAt loc = fdtBeginNode ∨ R.wordAt loc = fdtEndNode then .ok (.inr loc)
        else if R.wordAt loc = fdtNoop then .ok (.inl (loc + 4))
        else .error (.dtb .invalidDtb)
      else .error (.dtb .invalidDtb) := by
  have hlen := hR.lengths A
  simp only [skipPropertiesStep, getU32_eq hR, scan_ok_bind]
  by_cases h4 : loc + 4 ≤ R.dtb.length
  · have hsub : subWord P A (loc + 4) fdtWordBytes = .ok loc := by
      have hsub' := subWord_of_le (P := P) (A := A) (show fdtWordBytes ≤ loc + 4 by rw [fdtWordBytes]; omega) (by omega)
      rw [hsub', fdtWordBytes, Nat.add_sub_cancel]
    simp only [if_pos h4, okOr_some, scan_ok_bind]
    split
    · by_cases h8 : loc + 8 ≤ R.dtb.length
      · rw [if_pos (show loc + 4 + 4 ≤ R.dtb.length by omega), if_pos h8]
        simp only [okOr_some, scan_ok_bind, skipAndAlign_eq hR (show loc + 4 + 4 ≤ R.dtb.length by omega), fdtWordBytes]
        cases checked (addWord P A (R.wordAt (loc + 4)) 4) <;> rfl
      · rw [if_neg (show ¬ loc + 4 + 4 ≤ R.dtb.length by omega), if_neg h8]
        rfl
    · split
      · rw [hsub]
        rfl
      · split <;> rfl
  · simp only [if_neg h4]
    rfl

/-- The sum of a size and a word is not a word. -/
def SizeOverflows (A : Arch) (R : DtbReader) : Prop :=
  ∃ x, A.wordLimit ≤ R.wordAt x + 4

/-- What one round can do. -/
theorem skipPropertiesStep_cases (hR : R.Sound) (P : Profile) (A : Arch) (loc : Nat) :
    (∃ loc', R.skipPropertiesStep P A loc = .ok (.inl loc') ∧ loc + 4 ≤ loc' ∧ loc' ≤ R.dtb.length) ∨
      (R.skipPropertiesStep P A loc = .ok (.inr loc) ∧ loc + 4 ≤ R.dtb.length) ∨
      ∃ e, R.skipPropertiesStep P A loc = .error e ∧ (e = .dtb .invalidDtb ∨ SizeOverflows A R) := by
  have hlen := hR.lengths A
  rw [skipPropertiesStep_eq hR]
  split
  next h4 =>
    split
    next =>
      split
      next h8 =>
        cases hadd : addWord P A (R.wordAt (loc + 4)) 4 with
        | ok n =>
            have hbounds := skipTo_bounds h8 (by omega) n
            exact Or.inl ⟨_, rfl, by omega, hbounds.2⟩
        | error e =>
            -- The sizes of the value and of the name offset are added, and the sum may leave the word.
            refine Or.inr (Or.inr ⟨_, rfl, Or.inr ⟨loc + 4, ?_⟩⟩)
            by_contra hlt
            rw [addWord_of_lt (Nat.not_le.1 hlt)] at hadd
            cases hadd
      next => exact Or.inr (Or.inr ⟨_, rfl, Or.inl rfl⟩)
    next =>
      split
      next => exact Or.inr (Or.inl ⟨rfl, h4⟩)
      next =>
        split
        next => exact Or.inl ⟨_, rfl, Nat.le_refl _, h4⟩
        next => exact Or.inr (Or.inr ⟨_, rfl, Or.inl rfl⟩)
  next => exact Or.inr (Or.inr ⟨_, rfl, Or.inl rfl⟩)

theorem skipPropertiesStep_next (hR : R.Sound) (h : R.skipPropertiesStep P A loc = .ok (.inl loc')) :
    loc + 4 ≤ loc' ∧ loc' ≤ R.dtb.length := by
  rcases skipPropertiesStep_cases hR P A loc with ⟨x, hx, hbounds⟩ | ⟨hx, -⟩ | ⟨e, hx, -⟩
  · rw [hx] at h
    exact Sum.inl.inj (Except.ok.inj h) ▸ hbounds
  · rw [hx] at h
    cases h
  · rw [hx] at h
    cases h

theorem skipPropertiesStep_decreases (hR : R.Sound) :
    Loop.Decreases (R.skipPropertiesStep P A) fun loc => R.dtb.length - loc := by
  intro s s' h
  have hnext := skipPropertiesStep_next hR h
  exact Nat.sub_lt_sub_left (by omega) (by omega)

/-- The properties of a node are skipped, or the blob is invalid. -/
theorem skipNodeProperties_cases (hR : R.Sound) (P : Profile) (A : Arch) (loc : Nat) :
    (∃ loc', R.skipNodeProperties P A loc = .ok loc' ∧ loc ≤ loc' ∧ loc' + 4 ≤ R.dtb.length) ∨
      ∃ e, R.skipNodeProperties P A loc = .error e ∧ (e = .dtb .invalidDtb ∨ SizeOverflows A R) := by
  rcases dtbLoop_last (skipPropertiesStep_decreases (P := P) (A := A) hR) (Nat.sub_le _ loc) with ⟨t, ht, hr⟩
  have hle : loc ≤ t := ht.invariant (I := fun t => loc ≤ t) (Nat.le_refl _) fun s s' hs hnext =>
    hs.trans ((Nat.le_add_right _ _).trans (skipPropertiesStep_next hR hnext).1)
  rcases skipPropertiesStep_cases hR P A t with ⟨x, hx, -⟩ | ⟨hx, h4⟩ | ⟨e, hx, he⟩
  · rw [hx] at hr
    cases hr
  · rw [hx] at hr
    exact Or.inl ⟨t, (Option.some.inj hr).symm, hle, h4⟩
  · rw [hx] at hr
    exact Or.inr ⟨e, (Option.some.inj hr).symm, he⟩

/-! ## The next node -/

/-- The rounds of the inner loop of `scan`. -/
theorem nextNodeStep_eq (hR : R.Sound) (P : Profile) (A : Arch) (loc : Nat) :
    R.nextNodeStep P A loc =
      if loc + 4 ≤ R.dtb.length then
        if R.wordAt loc = fdtBeginNode then .ok (.inr (some (loc + 4)))
        else if R.wordAt loc = fdtEndNode ∨ R.wordAt loc = fdtNoop then .ok (.inl (loc + 4))
        else if R.wordAt loc = fdtEnd then .ok (.inr none)
        else .error (.dtb .invalidDtb)
      else .error (.dtb .invalidDtb) := by
  simp only [nextNodeStep, getU32_eq hR, scan_ok_bind]
  by_cases h4 : loc + 4 ≤ R.dtb.length
  · simp only [if_pos h4]
    rfl
  · simp only [if_neg h4]
    rfl

theorem nextNodeStep_next (hR : R.Sound) (h : R.nextNodeStep P A loc = .ok (.inl loc')) :
    loc' = loc + 4 ∧ loc' ≤ R.dtb.length := by
  rw [nextNodeStep_eq hR] at h
  split at h
  next h4 =>
    split at h
    next => cases h
    next =>
      split at h
      next =>
        cases h
        exact ⟨rfl, h4⟩
      next =>
        split at h
        next => cases h
        next => cases h
  next => cases h

theorem nextNodeStep_decreases (hR : R.Sound) :
    Loop.Decreases (R.nextNodeStep P A) fun loc => R.dtb.length - loc := by
  intro s s' h
  have hnext := nextNodeStep_next hR h
  exact Nat.sub_lt_sub_left (by omega) (by omega)

/-- The walk comes to the next node or to the end, or the blob is invalid. -/
theorem nextNode_cases (hR : R.Sound) (P : Profile) (A : Arch) (loc : Nat) :
    (∃ loc', R.nextNode P A loc = .ok (some loc') ∧ loc < loc' ∧ loc' ≤ R.dtb.length) ∨
      R.nextNode P A loc = .ok none ∨ R.nextNode P A loc = .error (.dtb .invalidDtb) := by
  rcases dtbLoop_last (nextNodeStep_decreases (P := P) (A := A) hR) (Nat.sub_le _ loc) with ⟨t, ht, hr⟩
  have hle : loc ≤ t := ht.invariant (I := fun t => loc ≤ t) (Nat.le_refl _) fun s s' hs hnext => by
    have := (nextNodeStep_next hR hnext).1
    omega
  rw [nextNodeStep_eq hR] at hr
  split at hr
  next h4 =>
    split at hr
    next => exact Or.inl ⟨t + 4, (Option.some.inj hr).symm, by omega, h4⟩
    next =>
      split at hr
      next => cases hr
      next =>
        split at hr
        next => exact Or.inr (Or.inl (Option.some.inj hr).symm)
        next => exact Or.inr (Or.inr (Option.some.inj hr).symm)
  next => exact Or.inr (Or.inr (Option.some.inj hr).symm)

/-! ## The nodes -/

section Scan

variable {σ : Type} {scanNode : Scanner σ} {s s' : σ} {name : List UInt8} {x stop : Nat}

theorem getNullTerminatedU8Slice_bounds (h : R.getNullTerminatedU8Slice loc = .ok (some (name, stop))) :
    loc ≤ stop ∧ stop < R.dtb.length := by
  rcases Nat.lt_or_ge R.dtb.length loc with hlt | hle
  · rw [getNullTerminatedU8Slice_behind hlt] at h
    cases h
  · have hbounds := findNull_bounds (R.dtb.drop loc) loc
    rw [List.length_drop] at hbounds
    rw [getNullTerminatedU8Slice_eq hle] at h
    split at h
    next => cases h
    next hne =>
      cases h
      omega

/-- What follows the call of the scanner in a round of `scan`. -/
def afterNode (P : Profile) (A : Arch) (R : DtbReader) (loc : Nat) (x : Bool × σ) : Scan ((Nat × σ) ⊕ σ) :=
  if x.1 = false then .ok (.inr x.2)
  else do
    match ← R.nextNode P A (← R.skipNodeProperties P A loc) with
    | some loc => return .inl (loc, x.2)
    | none => return .inr x.2

/-- The state is the one that the scanner returned. -/
theorem afterNode_state {y : Bool × σ} (h : R.afterNode P A loc y = .ok (.inl (loc', s'))) : y.2 = s' := by
  rw [afterNode] at h
  split at h
  · cases h
  · rw [scan_bind_eq_ok] at h
    rcases h with ⟨w, -, h⟩
    rw [scan_bind_eq_ok] at h
    rcases h with ⟨o, -, h⟩
    cases o with
    | none => cases h
    | some w =>
        cases h
        rfl

theorem scanStep_eq (hR : R.Sound) (h : R.getNullTerminatedU8Slice x = .ok (some (name, stop))) :
    R.scanStep P A scanNode (x, s) =
      scanNode R name (skipTo R.dtb.length 1 stop) s >>=
        R.afterNode P A (skipTo R.dtb.length 1 stop) := by
  have hbounds := getNullTerminatedU8Slice_bounds h
  simp only [scanStep, h, scan_ok_bind, okOr_some, skipAndAlign_eq hR (Nat.le_of_lt hbounds.2)]
  rfl

/-- The scanner is called for the node `name`, with the cursor at `loc` and in the state `s'`. -/
def Visits (P : Profile) (A : Arch) (R : DtbReader) (scanNode : Scanner σ) (s : σ) (name : List UInt8) (loc : Nat)
    (s' : σ) : Prop :=
  R.dtStructOffset + 4 ≤ R.dtb.length ∧ R.wordAt R.dtStructOffset = fdtBeginNode ∧
    ∃ x stop, Loop.Reaches (R.scanStep P A scanNode) (R.dtStructOffset + 4, s) (x, s') ∧
      R.getNullTerminatedU8Slice x = .ok (some (name, stop)) ∧ loc = skipTo R.dtb.length 1 stop

/-- A round that goes on comes from a node. -/
theorem scanStep_node (hR : R.Sound) (h : R.scanStep P A scanNode (x, s) = .ok (.inl (loc', s'))) :
    ∃ name stop go, R.getNullTerminatedU8Slice x = .ok (some (name, stop)) ∧
      scanNode R name (skipTo R.dtb.length 1 stop) s = .ok (go, s') ∧
      R.afterNode P A (skipTo R.dtb.length 1 stop) (go, s') = .ok (.inl (loc', s')) := by
  cases hnull : R.getNullTerminatedU8Slice x with
  | error e =>
      simp only [scanStep, hnull, scan_error_bind] at h
      cases h
  | ok o =>
      cases o with
      | none =>
          simp only [scanStep, hnull, scan_ok_bind, okOr_none, scan_error_bind] at h
          cases h
      | some p =>
          rw [scanStep_eq hR hnull, scan_bind_eq_ok] at h
          rcases h with ⟨⟨go, z⟩, hnode, hafter⟩
          have hz := afterNode_state hafter
          subst hz
          exact ⟨p.1, p.2, go, rfl, hnode, hafter⟩

theorem skipTo_node (hR : R.Sound) (h : R.getNullTerminatedU8Slice x = .ok (some (name, stop))) :
    x ≤ skipTo R.dtb.length 1 stop ∧ skipTo R.dtb.length 1 stop ≤ R.dtb.length := by
  have hlen := hR.lengths .arm
  have hbounds := getNullTerminatedU8Slice_bounds h
  have hskip := skipTo_bounds (Nat.le_of_lt hbounds.2) (show 4 ≤ R.dtb.length by omega) 1
  omega

/-- What the scanner preserves holds at every node that is visited. -/
theorem Visits.invariant (hR : R.Sound) {I : σ → Prop}
    (hstep : ∀ name loc s go s', loc ≤ R.dtb.length → I s → scanNode R name loc s = .ok (go, s') → I s') (hs : I s)
    (h : R.Visits P A scanNode s name loc s') : I s' ∧ loc ≤ R.dtb.length := by
  rcases h with ⟨-, -, x, stop, hreach, hnull, rfl⟩
  refine ⟨hreach.invariant (I := fun y => I y.2) hs ?_, (skipTo_node hR hnull).2⟩
  rintro ⟨y, s⟩ ⟨y', s'⟩ hy hnext
  rcases scanStep_node hR hnext with ⟨name, stop, go, hnull', hnode, -⟩
  exact hstep name _ s go s' (skipTo_node hR hnull').2 hy hnode

theorem returns_afterNode (hlimit : ¬ SizeOverflows A R) (hR : R.Sound) (loc : Nat) (x : Bool × σ) :
    Returns (R.afterNode P A loc x) := by
  rw [afterNode]
  split
  · exact returns_ok _
  · rcases skipNodeProperties_cases hR P A loc with ⟨loc', hskip, -⟩ | ⟨e, hskip, he⟩
    · rw [hskip, scan_ok_bind]
      rcases nextNode_cases hR P A loc' with ⟨next, hnext, -⟩ | hnext | hnext
      · rw [hnext]
        exact returns_ok _
      · rw [hnext]
        exact returns_ok _
      · rw [hnext]
        exact returns_dtb _
    · obtain rfl := he.resolve_right hlimit
      rw [hskip]
      exact returns_dtb _

theorem afterNode_next (hR : R.Sound) {y : Bool × σ} (h : R.afterNode P A loc y = .ok (.inl (loc', s'))) :
    loc < loc' ∧ loc' ≤ R.dtb.length := by
  rw [afterNode] at h
  split at h
  · cases h
  · rcases skipNodeProperties_cases hR P A loc with ⟨loc₁, hskip, hle, -⟩ | ⟨e, hskip, -⟩
    · rw [hskip, scan_ok_bind] at h
      rcases nextNode_cases hR P A loc₁ with ⟨next, hnext, hbounds⟩ | hnext | hnext
      · rw [hnext] at h
        cases h
        omega
      · rw [hnext] at h
        cases h
      · rw [hnext] at h
        cases h
    · rw [hskip] at h
      cases h

theorem scanStep_next (hR : R.Sound) (h : R.scanStep P A scanNode (x, s) = .ok (.inl (loc', s'))) :
    x < loc' ∧ loc' ≤ R.dtb.length := by
  rcases scanStep_node hR h with ⟨name, stop, go, hnull, -, hafter⟩
  have hskip := skipTo_node hR hnull
  have hnext := afterNode_next hR hafter
  omega

theorem scanStep_decreases (hR : R.Sound) :
    Loop.Decreases (R.scanStep P A scanNode) fun x => R.dtb.length - x.1 := by
  rintro ⟨x, s⟩ ⟨x', s'⟩ h
  have hnext := scanStep_next hR h
  exact Nat.sub_lt_sub_left (by omega) hnext.1

theorem returns_scanStep (hlimit : ¬ SizeOverflows A R) (hR : R.Sound) (hx : x ≤ R.dtb.length) :
    Returns (R.scanStep P A scanNode (x, s)) ↔ ∀ name stop,
      R.getNullTerminatedU8Slice x = .ok (some (name, stop)) →
        Returns (scanNode R name (skipTo R.dtb.length 1 stop) s) := by
  constructor
  · intro h name stop hnull
    rw [scanStep_eq hR hnull, returns_bind] at h
    exact h.1
  · intro h
    have hnull := getNullTerminatedU8Slice_eq hx
    split at hnull
    · simp only [scanStep, hnull, scan_ok_bind, okOr_none, scan_error_bind]
      exact returns_dtb _
    · rw [scanStep_eq hR hnull, returns_bind]
      exact ⟨h _ _ hnull, fun a _ => returns_afterNode hlimit hR _ a⟩

/-- A scan returns exactly when the scanner does at every node that is visited. -/
theorem returns_scan (hlimit : ¬ SizeOverflows A R) (hR : R.Sound) :
    Returns (R.scan P A scanNode s) ↔
      ∀ name loc s', R.Visits P A scanNode s name loc s' → Returns (scanNode R name loc s') := by
  have hmeasure : Loop.Decreases (R.scanStep P A scanNode) fun x => R.dtb.length - x.1 :=
    scanStep_decreases hR
  simp only [scan, getU32_eq hR, scan_ok_bind]
  by_cases h4 : R.dtStructOffset + 4 ≤ R.dtb.length
  · simp only [if_pos h4, okOr_some, scan_ok_bind]
    by_cases hbegin : R.wordAt R.dtStructOffset = fdtBeginNode
    · rw [if_neg (not_not.2 hbegin), returns_dtbLoop hmeasure (Nat.sub_le _ _)]
      constructor
      · rintro h name loc s' ⟨-, -, x, stop, hreach, hnull, rfl⟩
        have hx := (getNullTerminatedU8Slice_bounds hnull)
        exact (returns_scanStep hlimit hR (by omega)).1 (h _ hreach) name stop hnull
      · rintro h ⟨x, s'⟩ hreach
        -- The location stays inside the blob along the loop.
        have hx : x ≤ R.dtb.length :=
          hreach.invariant (I := fun y => y.1 ≤ R.dtb.length) h4 fun y y' _ hnext =>
            (scanStep_next hR hnext).2
        refine (returns_scanStep hlimit hR hx).2 fun name stop hnull => ?_
        exact h name _ s' ⟨h4, hbegin, x, stop, hreach, hnull, rfl⟩
    · rw [if_pos hbegin]
      exact iff_of_true (returns_dtb _) fun name loc s' hv => absurd hv.2.1 hbegin
  · simp only [if_neg h4, okOr_none, scan_error_bind]
    exact iff_of_true (returns_dtb _) fun name loc s' hv => absurd hv.1 h4

end Scan

/-! ## The properties of a node -/

section Properties

variable {σ : Type} {body : DtbPropertyHeader → Nat → σ → Scan (Nat × σ)} {s s' : σ}

/-- One round of `while let Some(header) = reader.get_next_property(..)`. -/
def propertyStep (P : Profile) (A : Arch) (R : DtbReader) (body : DtbPropertyHeader → Nat → σ → Scan (Nat × σ))
    (x : Nat × σ) : Scan ((Nat × σ) ⊕ σ) := do
  match ← R.getNextProperty P A x.1 with
  | (none, _) => return .inr x.2
  | (some header, loc) => return .inl (← body header loc x.2)

/-- The loop over the properties of a node: what the body is left in. -/
def forProperties (P : Profile) (A : Arch) (R : DtbReader) (body : DtbPropertyHeader → Nat → σ → Scan (Nat × σ))
    (loc : Nat) (s : σ) : Scan σ :=
  dtbLoop R.dtb.length (R.propertyStep P A body) (loc, s)

/-- The body does not move the cursor back. -/
def Advances (R : DtbReader) (body : DtbPropertyHeader → Nat → σ → Scan (Nat × σ)) : Prop :=
  ∀ header loc s loc' s', loc ≤ R.dtb.length → body header loc s = .ok (loc', s') → loc ≤ loc'

theorem propertyStep_some {header : DtbPropertyHeader} (h : R.getNextProperty P A loc = .ok (some header, loc')) :
    R.propertyStep P A body (loc, s) = (body header loc' s).map .inl := by
  simp only [propertyStep, h, scan_ok_bind]
  cases body header loc' s <;> rfl

theorem propertyStep_none (h : R.getNextProperty P A loc = .ok (none, loc')) :
    R.propertyStep P A body (loc, s) = .ok (.inr s) := by
  simp only [propertyStep, h, scan_ok_bind]
  rfl

theorem propertyStep_next (h : R.propertyStep P A body (loc, s) = .ok (.inl (loc', s'))) :
    ∃ header x, R.getNextProperty P A loc = .ok (some header, x) ∧ body header x s = .ok (loc', s') := by
  cases hnext : R.getNextProperty P A loc with
  | error e =>
      simp only [propertyStep, hnext, scan_error_bind] at h
      cases h
  | ok o =>
      rcases o with ⟨header, x⟩
      cases header with
      | none =>
          rw [propertyStep_none hnext] at h
          cases h
      | some header =>
          rw [propertyStep_some hnext] at h
          cases hbody : body header x s with
          | error e =>
              rw [hbody] at h
              cases h
          | ok y =>
              rw [hbody] at h
              cases h
              exact ⟨header, x, rfl, hbody⟩

theorem propertyStep_decreases (hR : R.Sound) (hbody : R.Advances body) :
    Loop.Decreases (R.propertyStep P A body) fun x => R.dtb.length - x.1 := by
  rintro ⟨loc, s⟩ ⟨loc', s'⟩ h
  rcases propertyStep_next h with ⟨header, x, hnext, hstep⟩
  rcases getNextProperty_some hR hnext with ⟨t, ht, rfl, -⟩
  have hle := ht.noops.le
  have hle' := ht.le
  have hadv := hbody header _ s loc' s' ht.le hstep
  exact Nat.sub_lt_sub_left (by omega) (by omega)

/-- The loop is left in the state that it has. -/
theorem propertyStep_leaves (h : Loop.leaves (R.propertyStep P A body (loc, s)) = some (.ok s')) : s' = s := by
  cases hnext : R.getNextProperty P A loc with
  | error e =>
      simp only [propertyStep, hnext, scan_error_bind] at h
      cases h
  | ok o =>
      rcases o with ⟨header, x⟩
      cases header with
      | none =>
          rw [propertyStep_none hnext] at h
          exact (Except.ok.inj (Option.some.inj h)).symm
      | some header =>
          rw [propertyStep_some hnext] at h
          cases hbody : body header x s with
          | error e =>
              rw [hbody] at h
              cases h
          | ok y =>
              rw [hbody] at h
              cases h

/-- What the body preserves holds behind the loop. -/
theorem forProperties_invariant (hR : R.Sound) (hbody : R.Advances body) {I : σ → Prop}
    (hstep : ∀ header loc s loc' s', loc ≤ R.dtb.length → I s → body header loc s = .ok (loc', s') → I s') (hs : I s)
    (h : R.forProperties P A body loc s = .ok s') : I s' := by
  have hloop := dtbLoop_last (s := (loc, s)) (propertyStep_decreases (P := P) (A := A) hR hbody) (Nat.sub_le _ loc)
  rcases hloop with ⟨⟨x, t⟩, ht, hr⟩
  have hinv : I t := by
    refine ht.invariant (I := fun y => I y.2) hs ?_
    rintro ⟨y, u⟩ ⟨y', u'⟩ hy hnext
    rcases propertyStep_next hnext with ⟨header, z, hprop, hb⟩
    rcases getNextProperty_some hR hprop with ⟨v, hv, rfl, -⟩
    exact hstep header _ u y' u' hv.le hy hb
  rw [forProperties] at h
  rw [h] at hr
  rw [propertyStep_leaves hr]
  exact hinv

/-- From the cursor `loc` and the state `s` the loop is left with the state `s'`. -/
def LeavesWith (P : Profile) (A : Arch) (R : DtbReader) (body : DtbPropertyHeader → Nat → σ → Scan (Nat × σ)) (loc : Nat)
    (s s' : σ) : Prop :=
  ∃ x, Loop.Reaches (R.propertyStep P A body) (loc, s) x ∧ R.propertyStep P A body x = .ok (.inr s')

/-- Only the next property counts. -/
theorem LeavesWith.of_next_eq (h : R.LeavesWith P A body loc' s s')
    (heq : R.getNextProperty P A loc = R.getNextProperty P A loc') : R.LeavesWith P A body loc s s' := by
  have hround : R.propertyStep P A body (loc, s) = R.propertyStep P A body (loc', s) := by
    simp only [propertyStep, heq]
  rcases h with ⟨x, hx, hlast⟩
  rcases Relation.ReflTransGen.cases_head hx with hrefl | ⟨y, hy, hyx⟩
  · exact ⟨(loc, s), Loop.Reaches.refl _, hround.trans (hrefl ▸ hlast)⟩
  · exact ⟨x, Loop.Reaches.head (hround.trans hy) hyx, hlast⟩

theorem LeavesWith.of_none (h : R.getNextProperty P A loc = .ok (none, loc')) (s : σ) : R.LeavesWith P A body loc s s :=
  ⟨(loc, s), Loop.Reaches.refl _, propertyStep_none h⟩

theorem LeavesWith.of_some {header : DtbPropertyHeader} {x y : Nat} {t : σ}
    (hnext : R.getNextProperty P A loc = .ok (some header, x)) (hbody : body header x s = .ok (y, t))
    (h : R.LeavesWith P A body y t s') : R.LeavesWith P A body loc s s' := by
  rcases h with ⟨z, hz, hlast⟩
  refine ⟨z, Loop.Reaches.head ?_ hz, hlast⟩
  rw [propertyStep_some hnext, hbody]
  rfl

theorem LeavesWith.forProperties (h : R.LeavesWith P A body loc s s') (hR : R.Sound) (hbody : R.Advances body) :
    R.forProperties P A body loc s = .ok s' := by
  rcases h with ⟨x, hx, hlast⟩
  refine Loop.iterate_of_reaches (propertyStep_decreases hR hbody) ?_ hx hlast
  exact Nat.lt_succ_of_le (Nat.sub_le _ _)

/-- The loop comes to a property with its token at `t`, in the state `s'`. -/
def ReadsAt (P : Profile) (A : Arch) (R : DtbReader) (body : DtbPropertyHeader → Nat → σ → Scan (Nat × σ)) (loc : Nat)
    (s : σ) (t : Nat) (s' : σ) : Prop :=
  ∃ x, Loop.Reaches (R.propertyStep P A body) (loc, s) (x, s') ∧ R.PropAt x t

/-- The name of the property at `t` is looked up in the blob. -/
def NameInside (R : DtbReader) (t : Nat) : Prop :=
  R.dtStringsOffset + R.wordAt (t + 8) ≤ R.dtb.length

/-- The header of the property at `t`, if its name ends. -/
def headerAt (R : DtbReader) (t : Nat) : Option DtbPropertyHeader :=
  (R.stringAt (R.dtStringsOffset + R.wordAt (t + 8))).map fun name => ⟨R.wordAt (t + 4), R.wordAt (t + 8), name⟩

/-- The loop over the properties returns exactly when the names are looked up in the blob and the body returns. -/
theorem returns_forProperties (hR : R.Sound) (hbody : R.Advances body)
    (hlimit : ∀ t, R.dtStringsOffset + R.wordAt t < A.wordLimit) (loc : Nat) (s : σ) :
    Returns (R.forProperties P A body loc s) ↔ ∀ t s', R.ReadsAt P A body loc s t s' →
      R.NameInside t ∧ ∀ header, R.headerAt t = some header → Returns (body header (t + 12) s') := by
  rw [forProperties, returns_dtbLoop (propertyStep_decreases hR hbody) (Nat.sub_le _ _)]
  constructor
  · rintro h t s' ⟨x, hreach, hat⟩
    -- A round first reads a header and then runs the body on it, and both parts have to return.
    have hround := h _ hreach
    rw [propertyStep, returns_bind, returns_getNextProperty hR hlimit] at hround
    refine ⟨hround.1 t hat, fun header hheader => ?_⟩
    have hnext := getNextProperty_eq (P := P) (A := A) hR hat (hround.1 t hat)
    rw [show (R.stringAt _).map _ = some header from hheader] at hnext
    have hrest := hround.2 _ hnext
    exact (returns_bind.1 hrest).1
  · rintro h ⟨x, s'⟩ hreach
    rw [propertyStep, returns_bind, returns_getNextProperty hR hlimit]
    refine ⟨fun t hat => (h t s' ⟨x, hreach, hat⟩).1, ?_⟩
    rintro ⟨o, loc'⟩ hnext
    cases o with
    | none => exact returns_ok _
    | some header =>
        rcases getNextProperty_some hR hnext with ⟨t, hat, rfl, -⟩
        have hread := h t s' ⟨x, hreach, hat⟩
        rw [getNextProperty_eq hR hat hread.1] at hnext
        have hheader : R.headerAt t = some header := congrArg Prod.fst (Except.ok.inj hnext)
        exact returns_bind.2 ⟨hread.2 header hheader, fun a _ => returns_ok _⟩

/-- All names that the loop looks up are looked up in the blob. -/
def NamesInside (P : Profile) (A : Arch) (R : DtbReader) (body : DtbPropertyHeader → Nat → σ → Scan (Nat × σ)) (loc : Nat)
    (s : σ) : Prop :=
  ∀ t s', R.ReadsAt P A body loc s t s' → R.NameInside t

/-- The body does not panic, goes on and keeps the invariant. -/
def Tame (R : DtbReader) (body : DtbPropertyHeader → Nat → σ → Scan (Nat × σ)) (I : σ → Prop) : Prop :=
  ∀ header loc s, loc ≤ R.dtb.length → (∃ e, body header loc s = .error (.dtb e)) ∨
    ∃ loc' s', body header loc s = .ok (loc', s') ∧ loc ≤ loc' ∧ (I s → I s')

variable {I : σ → Prop}

theorem Tame.returns (h : R.Tame body I) (header : DtbPropertyHeader) (hloc : loc ≤ R.dtb.length) (s : σ) :
    Returns (body header loc s) := by
  rcases h header loc s hloc with ⟨e, he⟩ | ⟨loc', s', hok, -⟩
  · rw [he]
    exact returns_dtb e
  · rw [hok]
    exact returns_ok _

theorem Tame.of_ok (h : R.Tame body I) {header : DtbPropertyHeader} (hloc : loc ≤ R.dtb.length)
    (hstep : body header loc s = .ok (loc', s')) : loc ≤ loc' ∧ (I s → I s') := by
  rcases h header loc s hloc with ⟨e, he⟩ | ⟨x, y, hok, hkeep⟩
  · rw [he] at hstep
    cases hstep
  · rw [hok] at hstep
    cases hstep
    exact hkeep

theorem Tame.advances (h : R.Tame body I) : R.Advances body :=
  fun _ _ _ _ _ hloc hstep => (h.of_ok hloc hstep).1

theorem Tame.returns_forProperties (h : R.Tame body I) (hR : R.Sound)
    (hlimit : ∀ t, R.dtStringsOffset + R.wordAt t < A.wordLimit) (loc : Nat) (s : σ) :
    Returns (R.forProperties P A body loc s) ↔ R.NamesInside P A body loc s := by
  rw [DtbReader.returns_forProperties hR h.advances hlimit]
  constructor
  · intro hall t s' hat
    exact (hall t s' hat).1
  · intro hall t s' hat
    rcases hat with ⟨x, hreach, hprop⟩
    exact ⟨hall t s' ⟨x, hreach, hprop⟩, fun header _ => h.returns header hprop.le s'⟩

theorem Tame.keeps (h : R.Tame body I) (hR : R.Sound) (hs : I s) (hrun : R.forProperties P A body loc s = .ok s') :
    I s' :=
  forProperties_invariant hR h.advances (fun _ _ _ _ _ hloc hI hstep => (h.of_ok hloc hstep).2 hI) hs hrun

end Properties

/-! ## Address and size pairs -/

section Pairs

variable {cells value addrCells sizeCells : Nat}

/-- Shifting in a cell keeps the low 64 bits. -/
theorem shift_or_cell {value word : Nat} (hword : word < 2 ^ 32) :
    value <<< fdtWordBits % 2 ^ 64 ||| word = (value * 2 ^ 32 + word) % 2 ^ 64 := by
  have hlow : value * 2 ^ 32 % 2 ^ 64 = (value % 2 ^ 32) * 2 ^ 32 := by omega
  rw [Nat.shiftLeft_eq, fdtWordBits, hlow, ← Nat.shiftLeft_eq, ← Nat.shiftLeft_add_eq_or_of_lt hword, Nat.shiftLeft_eq]
  omega

/-- Cells are read exactly if they are in the blob. -/
theorem readCells_cases (hR : R.Sound) (P : Profile) (A : Arch) (cells value : Nat) (h : loc ≤ R.dtb.length) :
    (loc + 4 * cells ≤ R.dtb.length ∧ ∃ v, R.readCells P A cells value loc = .ok (v, loc + 4 * cells)) ∨
      (R.dtb.length < loc + 4 * cells ∧ R.readCells P A cells value loc = .error (.panic .index)) := by
  have hlen := hR.lengths A
  induction cells generalizing value loc with
  | zero => exact Or.inl ⟨h, value, rfl⟩
  | succ cells ih =>
      by_cases h4 : loc + 4 ≤ R.dtb.length
      · simp only [readCells, getU32Unchecked_eq hR h4, scan_ok_bind]
        rcases ih (value <<< fdtWordBits % 2 ^ 64 ||| R.wordAt loc) h4 with ⟨hle, v, hv⟩ | ⟨hlt, hv⟩
        · exact Or.inl ⟨by omega, v, by rw [hv]; congr 2; omega⟩
        · exact Or.inr ⟨by omega, hv⟩
      · have hadd : addWord P A loc fdtWordBytes = .ok (loc + 4) := addWord_of_lt (by rw [fdtWordBytes]; omega)
        refine Or.inr ⟨by omega, ?_⟩
        simp only [readCells, getU32Unchecked, hadd, checked_ok, scan_ok_bind, slice, if_neg (show ¬ (loc ≤ loc + 4 ∧
          loc + 4 ≤ R.dtb.length) by omega), scan_error_bind]

theorem getRegPairSize_eq (h : 4 * (addrCells + sizeCells) < A.wordLimit) :
    getRegPairSize P A addrCells sizeCells = .ok (4 * (addrCells + sizeCells)) := by
  rw [getRegPairSize, addWord_of_lt (by omega), checked_ok, scan_ok_bind, fdtWordBytes, mulWord_of_lt h]
  rfl

/-- A pair that is longer than the blob makes the reader panic, in both profiles. -/
theorem returns_getRegPair (hR : R.Sound) (hcells : 4 * (addrCells + sizeCells) + R.dtb.length < A.wordLimit)
    (h : loc ≤ R.dtb.length) :
    Returns (R.getRegPair P A addrCells sizeCells loc) ↔
      addrCells = 0 ∨ 4 * (addrCells + sizeCells) ≤ R.dtb.length := by
  have hlen := hR.lengths A
  rw [getRegPair]
  split
  next h0 => exact iff_of_true (returns_pure _) (Or.inl h0)
  next h0 =>
    rw [getRegPairSize_eq (by omega), scan_ok_bind]
    rcases Nat.lt_or_ge R.dtb.length (4 * (addrCells + sizeCells)) with hlong | hshort
    · refine iff_of_false ?_ (by omega)
      -- The wrapped difference of a release build is larger than any cursor, and the cells run out of the blob.
      cases P with
      | dev =>
          have hsub : subWord .dev A R.dtb.length (4 * (addrCells + sizeCells)) = .error .overflow :=
            if_neg (Nat.not_le.2 hlong)
          rw [hsub]
          exact not_returns_panic _
      | release =>
          have hsub : subWord .release A R.dtb.length (4 * (addrCells + sizeCells)) =
              .ok (R.dtb.length + A.wordLimit - 4 * (addrCells + sizeCells)) := by
            rw [subWord, Nat.mod_eq_of_lt (by omega)]
          rw [hsub, checked_ok, scan_ok_bind, if_neg (by omega)]
          rcases readCells_cases hR .release A addrCells 0 h with ⟨hle, v, hv⟩ | ⟨-, hv⟩
          · rw [hv, scan_ok_bind]
            rcases readCells_cases hR .release A sizeCells 0 hle with ⟨hle', -⟩ | ⟨-, hv'⟩
            · omega
            · simp only [hv', scan_error_bind]
              exact not_returns_panic _
          · rw [hv]
            exact not_returns_panic _
    · refine iff_of_true ?_ (Or.inr hshort)
      rw [subWord_of_le hshort (by omega), checked_ok, scan_ok_bind]
      split
      · exact returns_pure _
      · rcases readCells_cases hR P A addrCells 0 h with ⟨hle, v, hv⟩ | ⟨hlt, -⟩
        · rw [hv, scan_ok_bind]
          rcases readCells_cases hR P A sizeCells 0 hle with ⟨-, v', hv'⟩ | ⟨hlt, -⟩
          · simp only [hv', scan_ok_bind]
            exact returns_pure _
          · omega
        · omega

/-- A pair that is read lies in the blob. -/
theorem getRegPair_some (hR : R.Sound) (hloc : loc ≤ R.dtb.length) {v : Nat × Nat}
    (h : R.getRegPair P A addrCells sizeCells loc = .ok (some (v, loc'))) :
    loc' = loc + 4 * (addrCells + sizeCells) ∧ loc' ≤ R.dtb.length := by
  rw [getRegPair] at h
  split at h
  · cases h
  · rcases scan_bind_eq_ok.1 h with ⟨pairSize, -, h⟩
    rcases scan_bind_eq_ok.1 h with ⟨last, -, h⟩
    split at h
    · cases h
    · rcases scan_bind_eq_ok.1 h with ⟨⟨addr, x⟩, haddr, h⟩
      rcases scan_bind_eq_ok.1 h with ⟨⟨size, y⟩, hsize, h⟩
      cases h
      -- The pair was read, so neither half left the blob.
      rcases readCells_cases hR P A addrCells 0 hloc with ⟨hle, w, hw⟩ | ⟨-, hw⟩
      · rw [hw] at haddr
        cases haddr
        rcases readCells_cases hR P A sizeCells 0 hle with ⟨hle', w', hw'⟩ | ⟨-, hw'⟩
        · rw [hw'] at hsize
          cases hsize
          omega
        · rw [hw'] at hsize
          cases hsize
      · rw [hw] at haddr
        cases haddr

end Pairs

end DtbReader
end Propeller
