import Propeller.Mm.Buddy.Runs

/-!
# Buddy.Clients — the blocks of one allocator

A call of the page allocator takes a block from it or gives one back; a client that gives back its pages has
written to them.  `Sound` says of an allocator which blocks it has out: they share no page, and whatever the
next call hands out is apart from them (`Sound.call`).  A call that stops the kernel leaves no allocator, and
the blocks that are out stay apart.
-/

namespace Propeller
namespace Buddy

variable {A : Arch} {U : Set Nat} {t : Run State} {out : List (Nat × Nat)}

/-! ## Calls -/

/-- A call of a page allocator.  Together with its pages a client gives back the nodes it has left in them. -/
inductive PageCall
  | allocate (pages : Nat)
  | free (addr pages : Nat) (left : List (Nat × BlockNode))

/-- The nodes that a client has written. -/
def writeNodes (s : State) (left : List (Nat × BlockNode)) : State :=
  left.foldl (fun s p => s.setNode p.1 p.2) s

/-- What a call does to the allocator and the block it returns.  After a panic there is no allocator. -/
def PageCall.run (A : Arch) (t : Run State) : PageCall → Run State × Option (Nat × Nat)
  | .allocate pages =>
      match t >>= fun s => Buddy.allocate A s pages with
      | .ok (block, s) => (.ok s, block)
      | .error e => (.error e, none)
  | .free addr pages left =>
      (t >>= fun s => Buddy.free A (writeNodes s left) addr pages, none)

/-- The block that a call gives back. -/
def PageCall.freed : PageCall → Option (Nat × Nat)
  | .allocate _ => none
  | .free addr pages _ => some (addr, pages)

/-- The argument is a word, and the nodes lie in the pages. -/
def PageCall.Fits (A : Arch) : PageCall → Prop
  | .allocate pages => pages < A.wordLimit
  | .free addr pages left =>
      ∀ p ∈ left, addr / pageSize ≤ p.1 / pageSize ∧ p.1 / pageSize < addr / pageSize + pages

/-! ## Blocks -/

/-- The allocator has handed out the blocks of `out`, which share no page. -/
structure Sound (A : Arch) (U : Set Nat) (t : Run State) (out : List (Nat × Nat)) : Prop where
  apart : out.Pairwise fun b b' => Disjoint (pagesAt b.1 b.2) (pagesAt b'.1 b'.2)
  inside : ∀ b ∈ out, pagesAt b.1 b.2 ⊆ U
  safe : ∀ s, t = .ok s → 2 ^ (BLOCK_LEVELS - 1) ∣ s.basePage ∧ ∃ F O, Safe A U ⟨s, out⟩ F O

theorem Sound.of_safe {s : State} {F : Set Block} {O : List Block} (hbase : 2 ^ (BLOCK_LEVELS - 1) ∣ s.basePage)
    (h : Safe A U ⟨s, out⟩ F O) : Sound A U (.ok s) out := by
  obtain rfl : out = O.map asPair := h.out
  refine ⟨?_, ?_, ?_⟩
  · rw [List.pairwise_map]
    refine h.apart.imp ?_
    intro B B' hapart
    rwa [pagesAt_asPair, pagesAt_asPair]
  · intro b hb
    rcases List.mem_map.1 hb with ⟨B, hB, rfl⟩
    rw [pagesAt_asPair]
    exact (h.held B hB).2
  · rintro s' hs'
    obtain rfl := Except.ok.inj hs'
    exact ⟨hbase, F, O, h⟩

/-- A call that stops the kernel hands out nothing. -/
theorem Sound.of_error {e : Panic} (h : Sound A U t out) {out' : List (Nat × Nat)} (hsub : out'.Sublist out) :
    Sound A U (.error e) out' := by
  refine ⟨h.apart.sublist hsub, fun b hb => h.inside b (hsub.subset hb), ?_⟩
  intro s hs
  cases hs

/-- Nodes in the pages of a block that is out are of no account. -/
theorem safe_writeNodes {s : State} {addr pages : Nat} (hmem : (addr, pages) ∈ out) (left : List (Nat × BlockNode))
    (hleft : (PageCall.free addr pages left).Fits A) {F : Set Block} {O : List Block}
    (h : Safe A U ⟨s, out⟩ F O) :
    (writeNodes s left).basePage = s.basePage ∧ ∃ F O, Safe A U ⟨writeNodes s left, out⟩ F O := by
  induction left generalizing s F O with
  | nil => exact ⟨rfl, F, O, h⟩
  | cons p left ih =>
      have hvalid : (Op.write p.1 p.2).Valid A ⟨s, out⟩ := ⟨(addr, pages), hmem, hleft p List.mem_cons_self⟩
      have hstep : step A ⟨s, out⟩ (.write p.1 p.2) = .ok ⟨s.setNode p.1 p.2, out⟩ := rfl
      rcases h.step hvalid trivial hstep with ⟨F', O', h'⟩
      rcases ih (fun q hq => hleft q (List.mem_cons_of_mem _ hq)) h' with ⟨hbase, hsafe⟩
      exact ⟨hbase, hsafe⟩

theorem Sound.allocate {s : State} {pages : Nat} (h : Sound A U (.ok s) out) (hpages : pages < A.wordLimit) :
    Sound A U ((PageCall.allocate pages).run A (.ok s)).1
      (((PageCall.allocate pages).run A (.ok s)).2.toList ++ out) := by
  rcases h.safe s rfl with ⟨hbase, F, O, hsafe⟩
  cases halloc : Buddy.allocate A s pages with
  | error e =>
      simp only [PageCall.run, run_ok_bind, halloc]
      exact h.of_error (List.Sublist.refl _)
  | ok r =>
      rcases r with ⟨block, s'⟩
      have hvalid : (Op.allocate pages).Valid A ⟨s, out⟩ := hpages
      have hstep : step A ⟨s, out⟩ (.allocate pages) = .ok ⟨s', block.toList ++ out⟩ := by
        rw [step, halloc]
        rfl
      have hbase' : s'.base = s.base := step_base hstep
      rcases hsafe.step hvalid trivial hstep with ⟨F', O', hsafe'⟩
      simp only [PageCall.run, run_ok_bind, halloc]
      exact Sound.of_safe (by rwa [State.basePage, hbase']) hsafe'

theorem Sound.free {s : State} {addr pages : Nat} {left : List (Nat × BlockNode)} (h : Sound A U (.ok s) out)
    (hmem : (addr, pages) ∈ out) (hleft : (PageCall.free addr pages left).Fits A) :
    Sound A U (Buddy.free A (writeNodes s left) addr pages) (out.erase (addr, pages)) := by
  rcases h.safe s rfl with ⟨hbase, F, O, hsafe⟩
  rcases safe_writeNodes hmem left hleft hsafe with ⟨hbase₁, F₁, O₁, hsafe₁⟩
  generalize writeNodes s left = s₁ at hbase₁ hsafe₁ ⊢
  rw [← hbase₁] at hbase
  cases hfree : Buddy.free A s₁ addr pages with
  | error e => exact h.of_error List.erase_sublist
  | ok s' =>
      have hvalid : (Op.free addr pages).Valid A ⟨s₁, out⟩ := hmem
      have hstep : step A ⟨s₁, out⟩ (.free addr pages) = .ok ⟨s', out.erase (addr, pages)⟩ := by
        rw [step, hfree]
        rfl
      have hbase' : s'.base = s₁.base := step_base hstep
      rcases hsafe₁.step hvalid (mergesAligned_of_dvd hbase _) hstep with ⟨F', O', hsafe'⟩
      exact Sound.of_safe (by rwa [State.basePage, hbase']) hsafe'

/-- What a call hands out is apart from all that is out, and what it takes back is out no more. -/
theorem Sound.call {call : PageCall} {held : List (Nat × Nat)} (h : Sound A U t out) (hfits : call.Fits A)
    (hperm : out.Perm (call.freed.toList ++ held)) :
    ∃ out', Sound A U (call.run A t).1 out' ∧ out'.Perm ((call.run A t).2.toList ++ held) := by
  cases call with
  | allocate pages =>
      have hheld : out.Perm held := hperm
      cases t with
      | error e => exact ⟨out, h, hheld⟩
      | ok s => exact ⟨_, h.allocate hfits, List.Perm.append_left _ hheld⟩
  | free addr pages left =>
      have hmem : (addr, pages) ∈ out := hperm.symm.subset (List.mem_append_left _ (by simp [PageCall.freed]))
      have hout : (out.erase (addr, pages)).Perm held := ((List.perm_cons_erase hmem).symm.trans hperm).cons_inv
      cases t with
      | error e => exact ⟨out.erase (addr, pages), h.of_error List.erase_sublist, hout⟩
      | ok s => exact ⟨out.erase (addr, pages), h.free hmem hfits, hout⟩

/-- What is handed out keeps the guarantee of `allocate`. -/
theorem Sound.guarantee {avail : List MemoryRange} {s s' : State} {pages addr n : Nat}
    (h : Sound A (availPages avail) (.ok s) out) (hpages : pages < A.wordLimit)
    (halloc : Buddy.allocate A s pages = .ok (some (addr, n), s')) : Guarantee avail ⟨s, out⟩ pages addr n := by
  rcases h.safe s rfl with ⟨-, F, O, hsafe⟩
  exact hsafe.guarantee hpages halloc

end Buddy
end Propeller
