import Propeller.Mm.Buddy.Flags

/-!
# Buddy.Edits — one list edit with its flag

`add_to_list` and `remove_from_list` change a list and toggle the flag of the block's pair.  Three
views of each are used later:

* `addToList_eq_ok` / `removeFromList_eq_ok` — a run succeeds exactly when the list edit does and the
  flag exists;
* `linkBlock_frame` / `unlinkBlock_frame` — what a successful run does to the level heads, whatever
  the memory holds;
* `addToList_lists` / `removeFromList_lists` — the effect on well-formed lists.
-/

namespace Propeller
namespace Buddy

variable {A : Arch} {s s' : State} {l m a : Nat} {xs ys : List Nat}

/-! ## Heads, whatever the memory holds -/

theorem linkBlock_frame (h : linkBlock A s l a = .ok s') :
    Frame s s' l (fun _ => True) ∧ s'.head l = if s.head l = 0 then a else s.head l := by
  unfold linkBlock at h
  by_cases h0 : (s.levels l).head = 0
  · rw [if_pos h0] at h
    cases h
    refine ⟨⟨rfl, rfl, rfl, rfl, rfl, ?_, ?_, by simp⟩, ?_⟩
    · intro m
      by_cases hm : m = l <;> simp [State.setLinks, hm]
    · intro m hm
      simp [State.head, State.setLinks, hm]
    · simp [State.head, State.setLinks, h0]
  · rw [if_neg h0] at h
    obtain ⟨hd, -, h⟩ := run_bind_eq_ok.1 h
    obtain ⟨pv, -, h⟩ := run_bind_eq_ok.1 h
    cases h
    refine ⟨⟨rfl, rfl, rfl, rfl, rfl, fun _ => rfl, fun _ _ => rfl, by simp⟩, ?_⟩
    exact (if_neg h0).symm

theorem unlinkBlock_frame (h : unlinkBlock A s l a = .ok s') :
    Frame s s' l (fun _ => True) ∧ s'.head l = if s.head l = a then 0 else s.head l := by
  unfold unlinkBlock at h
  obtain ⟨b, -, h⟩ := run_bind_eq_ok.1 h
  -- Both branches may write the head of the level.
  have hset : ∀ (s₁ : State) (h : Nat), Frame s s₁ l (fun _ => True) →
      Frame s (s₁.setHead l h) l (fun _ => True) := by
    intro s₁ h hf
    refine ⟨hf.base, hf.size, hf.flags, hf.allocMem, hf.freeMem, ?_, ?_, by simp⟩
    · intro m
      by_cases hm : m = l
      · subst hm
        simpa using hf.offset m
      · simpa [hm] using hf.offset m
    · intro m hm
      simpa [State.head, hm] using hf.head m hm
  have hself : Frame s s l (fun _ => True) :=
    ⟨rfl, rfl, rfl, rfl, rfl, fun _ => rfl, fun _ _ => rfl, by simp⟩
  split at h
  · obtain ⟨-, -, h⟩ := run_bind_eq_ok.1 h
    obtain ⟨u, hhead, h⟩ := run_bind_eq_ok.1 h
    have hhead : s.head l = a := require_eq_ok.1 hhead
    cases h
    refine ⟨hset _ _ hself, ?_⟩
    rw [if_pos hhead]
    simp [State.head]
  · obtain ⟨-, -, h⟩ := run_bind_eq_ok.1 h
    obtain ⟨-, -, h⟩ := run_bind_eq_ok.1 h
    split at h
    · rename_i hhead
      cases h
      refine ⟨hset _ _ ⟨rfl, rfl, rfl, rfl, rfl, fun _ => rfl, fun _ _ => rfl, by simp⟩, ?_⟩
      have hhead : s.head l = a := hhead.symm
      rw [if_pos hhead]
      simp [State.head]
    · rename_i hhead
      cases h
      refine ⟨⟨rfl, rfl, rfl, rfl, rfl, fun _ => rfl, fun _ _ => rfl, by simp⟩, ?_⟩
      have hhead : ¬ s.head l = a := fun he => hhead he.symm
      rw [if_neg hhead]
      rfl

/-! ## The edit and the flag -/

theorem toggleFlag_eq_ok {k : Nat} :
    toggleFlag s ((s.levels l).offset + k / A.wordBits) (k % A.wordBits) = .ok s' ↔
      (s.levels l).offset + k / A.wordBits < s.flags.length ∧ s' = toggled A s l k := by
  constructor
  · intro h
    have hi : (s.levels l).offset + k / A.wordBits < s.flags.length := by
      by_contra hlt
      simp [toggleFlag, getFlagWord, List.getElem?_eq_none (Nat.le_of_not_lt hlt)] at h
    rw [toggleFlag_eq hi] at h
    exact ⟨hi, (Except.ok.inj h).symm⟩
  · rintro ⟨hi, rfl⟩
    exact toggleFlag_eq hi

/-- The flag word of a block of the area exists. -/
def HasFlag (A : Arch) (s : State) (l a : Nat) : Prop :=
  (s.levels l).offset + blockNum s a l / 2 / A.wordBits < s.flags.length

/-- The state `s₁` after an edit at block `a`, with the flag of the block's pair toggled. -/
def flagged (A : Arch) (s s₁ : State) (l a : Nat) : State :=
  toggled A s₁ l (blockNum s a l / 2)

/-- Both list functions have the shape *find the flag, edit the list, toggle the flag*. -/
theorem edit_eq_ok {edit : Run State}
    (hframe : ∀ s₁, edit = .ok s₁ → Frame s s₁ l (fun _ => True)) :
    (getFlagIndexAndBit A s a l >>= fun f => edit >>= fun s₁ => toggleFlag s₁ f.1 f.2) = .ok s' ↔
      s.base ≤ a ∧ HasFlag A s l a ∧ ∃ s₁, edit = .ok s₁ ∧ s' = flagged A s s₁ l a := by
  by_cases hbase : s.base ≤ a
  · rw [getFlagIndexAndBit_eq hbase, run_ok_bind, run_bind_eq_ok]
    constructor
    · rintro ⟨s₁, hedit, htoggle⟩
      -- The edit keeps the flags, so the position computed before it is still the right one.
      have hf := hframe s₁ hedit
      rw [← hf.offset l] at htoggle
      obtain ⟨hi, rfl⟩ := toggleFlag_eq_ok.1 htoggle
      rw [hf.offset, hf.flags] at hi
      exact ⟨hbase, hi, s₁, hedit, rfl⟩
    · rintro ⟨-, hi, s₁, hedit, rfl⟩
      have hf := hframe s₁ hedit
      refine ⟨s₁, hedit, ?_⟩
      rw [HasFlag, ← hf.offset, ← hf.flags] at hi
      rw [← hf.offset l]
      exact toggleFlag_eq_ok.2 ⟨hi, rfl⟩
  · constructor
    · intro h
      obtain ⟨f, hf, -⟩ := run_bind_eq_ok.1 h
      obtain ⟨o, ho, -⟩ := run_bind_eq_ok.1 hf
      exact absurd (checkedSub_eq_ok.1 ho).1 hbase
    · intro h
      exact absurd h.1 hbase

theorem removeFromList_eq_ok :
    removeFromList A s l a = .ok s' ↔
      s.base ≤ a ∧ HasFlag A s l a ∧
        ∃ s₁, unlinkBlock A s l a = .ok s₁ ∧ s' = flagged A s s₁ l a :=
  edit_eq_ok fun _ h => (unlinkBlock_frame h).1

theorem addToList_eq_ok :
    addToList A s l a = .ok s' ↔
      s.base ≤ a ∧ alignDown A a pageSize = a ∧ HasFlag A s l a ∧
        ∃ s₁, linkBlock A s l a = .ok s₁ ∧ s' = flagged A s s₁ l a := by
  by_cases hal : alignDown A a pageSize = a
  · have hrun : addToList A s l a = (getFlagIndexAndBit A s a l >>= fun f =>
        linkBlock A s l a >>= fun s₁ => toggleFlag s₁ f.1 f.2) := by
      simp only [addToList, getBlockNodeUncheckedMut, require_pos hal, run_ok_bind]
    rw [hrun, edit_eq_ok fun _ h => (linkBlock_frame h).1]
    simp [hal]
  · constructor
    · intro h
      obtain ⟨f, -, h⟩ := run_bind_eq_ok.1 h
      obtain ⟨u, hu, -⟩ := run_bind_eq_ok.1 h
      exact absurd (require_eq_ok.1 hu) hal
    · intro h
      exact absurd h.2.1 hal

/-! ## Well-formed lists -/

/-- `s'` differs from `s` in the flags, in the head of level `l` and in the nodes that satisfy
`touched`. -/
structure EditFrame (s s' : State) (l : Nat) (touched : Nat → Prop) : Prop where
  base : s'.base = s.base
  size : s'.size = s.size
  allocMem : s'.allocMem = s.allocMem
  freeMem : s'.freeMem = s.freeMem
  offset : ∀ m, (s'.levels m).offset = (s.levels m).offset
  length : s'.flags.length = s.flags.length
  head : ∀ m, m ≠ l → s'.head m = s.head m
  mem : ∀ x, ¬ touched x → s'.mem x = s.mem x

theorem Frame.flagged {touched : Nat → Prop} {s₁ : State} (hf : Frame s s₁ l touched) :
    EditFrame s (flagged A s s₁ l a) l touched := by
  refine ⟨hf.base, hf.size, hf.allocMem, hf.freeMem, hf.offset, ?_, hf.head, hf.mem⟩
  rw [Buddy.flagged, Buddy.toggled, List.length_set, hf.flags]

theorem ListAt.edit {touched : Nat → Prop} (h : ListAt A s m xs) (hf : EditFrame s s' l touched)
    (hml : m ≠ l) (hxs : ∀ x ∈ xs, ¬ touched x) : ListAt A s' m xs :=
  h.congr (hf.head m hml) (fun x hx => hf.mem x (hxs x hx))

theorem addToList_lists (hl : ListAt A s l xs) (ha : a ∉ xs) (ha0 : a ≠ 0)
    (h : addToList A s l a = .ok s') :
    ListAt A s' l (xs ++ [a]) ∧ EditFrame s s' l (· ∈ a :: xs) := by
  obtain ⟨-, hal, -, s₁, hrun, rfl⟩ := addToList_eq_ok.1 h
  obtain ⟨s₂, hrun₂, hlist, hframe⟩ := linkBlock_spec hl ha ha0 hal
  obtain rfl : s₁ = s₂ := Except.ok.inj (hrun.symm.trans hrun₂)
  exact ⟨hlist.congr rfl fun _ _ => rfl, hframe.flagged⟩

theorem removeFromList_lists (hl : ListAt A s l xs) (ha : a ∈ xs)
    (h : removeFromList A s l a = .ok s') :
    ListAt A s' l (removed xs a) ∧ EditFrame s s' l (· ∈ xs) := by
  obtain ⟨-, -, s₁, hrun, rfl⟩ := removeFromList_eq_ok.1 h
  obtain ⟨s₂, hrun₂, hlist, hframe⟩ := unlinkBlock_spec hl ha
  obtain rfl : s₁ = s₂ := Except.ok.inj (hrun.symm.trans hrun₂)
  exact ⟨hlist.congr rfl fun _ _ => rfl, hframe.flagged⟩

end Buddy
end Propeller
