import Propeller.Arch.Granular

/-!
# Arch.Recursive — tables with a recursive entry

The start code of ARM makes one entry of the first kernel table point to the table itself.  Such tables are no
tree: below that entry, the *recursive window*, the hardware takes the tables for pages.  A fill does not look at
an entry that no address of its range takes, so what holds of the tables without that entry carries over to all
addresses outside of the window.

* `compactLoop_set` / `granularLoop_set` — a fill commutes with a write to an entry that it does not take;
* `FillsExactly` — what a fill has to do, with or without such an entry;
* `Exact.of_maps` — a fill that maps the range in the tree does so in the tables with the entry.
-/

namespace Propeller
namespace Paging

variable {L D : Type} {F : Format L D} {P : Profile} {A : Arch} {device : Bool} {M : Mmu D} {limit : Nat}
  {height align : L → Nat} {st st' st₁ : TableState D} {l : L} {t virt base size n fuel x j : Nat}
  {S : Set Nat} {d e : D} {fill : Fill L D}

/-! ## Entries that a fill does not take -/

theorem set_set_comm {i : Nat} (h : t ≠ x ∨ i ≠ j) :
    (st.set x j e).set t i d = (st.set t i d).set x j e := by
  have hmem : (st.mem.set x j e).set t i d = (st.mem.set t i d).set x j e := by
    rcases ne_or_eq t x with htx | rfl
    · rw [Tables.set, Tables.set, Tables.set, Tables.set, Function.update_of_ne htx, Function.update_of_ne htx.symm,
        Function.update_comm htx]
    · simp only [Tables.set, Function.update_self, Function.update_idem]
      rw [Function.update_comm (h.resolve_left fun hne => hne rfl)]
  exact congrArg (fun mem => { st with mem := mem }) hmem

theorem mem_set {i : Nat} (h : t ≠ x ∨ i ≠ j) : (st.set x j e).mem t i = st.mem t i := by
  rcases ne_or_eq t x with htx | rfl
  · exact congrFun (Tables.set_of_ne_table htx) i
  · exact Tables.set_of_ne_entry (h.resolve_left fun hne => hne rfl)

theorem writeBytes_set {page : Nat} {zero : D} (h : page ≠ x) :
    (st.set x j e).writeBytes page zero = (st.writeBytes page zero).set x j e := by
  have hmem : Function.update (st.mem.set x j e) page (fun _ => zero) =
      Tables.set (Function.update st.mem page fun _ => zero) x j e := by
    rw [Tables.set, Tables.set, Function.update_of_ne h.symm, Function.update_comm h.symm]
  exact congrArg (fun mem => { st with mem := mem }) hmem

/-- The entry is in none of the tables, nor in a page that the allocator has left; or it is in the first table
and no address of the range takes it. -/
structure Apart (M : Mmu D) (st : TableState D) (h t : Nat) (S : Set Nat) (virt size x j : Nat) : Prop where
  tables : x ∉ S ∨ x = t ∧ ∀ v, virt ≤ v → v < virt + size → M.index h v ≠ j
  fresh : ∀ n, st.used ≤ n → st.supply n ≠ some x

theorem Apart.entry {h : Nat} (ha : Apart M st h t S virt size x j) (ht : t ∈ S) (hsize : 0 < size) :
    t ≠ x ∨ M.index h virt ≠ j := by
  rcases ha.tables with hx | ⟨-, hne⟩
  · left
    rintro rfl
    exact hx ht
  · exact Or.inr (hne virt le_rfl (by omega))

/-- What is left of the range, and the tables after the first part. -/
theorem Apart.drop {h : Nat} (ha : Apart M st h t S virt size x j) (hk : Keeps M st st₁ h t S) (hn : n ≤ size) :
    Apart M st₁ h t (S ∪ pages st st₁) (virt + n) (size - n) x j := by
  have hused := hk.used
  refine ⟨?_, ?_⟩
  · rcases ha.tables with hx | ⟨rfl, hne⟩
    · left
      rintro (hx' | ⟨m, hle, -, hm⟩)
      · exact hx hx'
      · exact ha.fresh m hle hm
    · exact Or.inr ⟨rfl, fun v hlo hhi => hne v (by omega) (by omega)⟩
  · intro m hm
    rw [hk.supply]
    exact ha.fresh m (by omega)

/-- The tables below an entry of the table. -/
theorem Apart.below {h i next : Nat} {K : Set Nat} (ha : Apart M st (h + 1) t S virt size x j)
    (ho : Opened M limit st st₁ h t i next d S K) (n : Nat) : Apart M st₁ h next K virt n x j := by
  have hused := ho.used
  refine ⟨Or.inl ?_, ?_⟩
  · intro hxK
    rcases ha.tables with hx | ⟨rfl, -⟩
    · rcases ho.below.subset hxK with hx' | ⟨m, hle, -, hm⟩
      · exact hx hx'
      · exact ha.fresh m hle hm
    · exact ho.below.notMem hxK
  · intro m hm
    rw [ho.supply]
    exact ha.fresh m (by omega)

theorem allocTable_set (hfresh : ∀ n, st.used ≤ n → st.supply n ≠ some x) :
    allocTable F l d (st.set x j e) = (allocTable F l d st).map fun r => (r.1, r.2.set x j e) := by
  rw [allocTable, allocTable]
  by_cases hptr : F.isPointerEntry l d = true
  · rw [if_pos hptr, if_pos hptr]
    rfl
  · rw [if_neg hptr, if_neg hptr]
    have hsupply : (st.set x j e).supply (st.set x j e).used = st.supply st.used := rfl
    rw [TableState.alloc, TableState.alloc, hsupply]
    cases hpage : st.supply st.used with
    | none => rfl
    | some page =>
        have hne : page ≠ x := by
          rintro rfl
          exact hfresh _ le_rfl hpage
        simp only [run_ok_bind]
        cases F.makePointerEntry l page with
        | none => rfl
        | some desc =>
            have hwrite : ({ st with used := st.used + 1 }.set x j e).writeBytes page F.zero = _ := writeBytes_set hne
            exact congrArg (fun s => Except.ok (desc, s)) hwrite

/-- A fill of a table below commutes with the write if the fills of the tables below do. -/
theorem allocTableAndFill_set {i : Nat} (hF : Lawful F M limit height) (hs : Sound M limit st (height l) t S)
    (ha : Apart M st (height l) t S virt size x j) (hi : t ≠ x ∨ i ≠ j)
    (hfill : ∀ l' next st₁ K, Sound M limit st₁ (height l') next K → Apart M st₁ (height l') next K virt n x j →
      fill l' next virt base n (st₁.set x j e) = (fill l' next virt base n st₁).map fun s => s.set x j e) :
    allocTableAndFill F fill l ((st.set x j e).mem t i) virt base n (st.set x j e) =
      (allocTableAndFill F fill l (st.mem t i) virt base n st).map fun r => (r.1, r.2.set x j e) := by
  rw [mem_set hi, allocTableAndFill, allocTableAndFill, allocTable_set ha.fresh]
  cases halloc : allocTable F l (st.mem t i) st with
  | error err => rfl
  | ok r =>
      rcases r with ⟨d', st₁⟩
      simp only [Except.map, run_ok_bind]
      cases hh : height l with
      | zero =>
          rw [hF.next_zero l hh]
          rfl
      | succ h =>
          rw [hh] at hs ha
          rcases allocTable_eq_ok hF hh hs halloc with ⟨next, K, hphys, hopened⟩
          rcases hF.next_succ l h hh with ⟨l', hl', hheight⟩
          have hsound := hopened.sound
          have hapart := ha.below hopened n
          rw [← hheight] at hsound hapart
          simp only [hl', hphys, unwrap, run_ok_bind, hfill l' next st₁ K hsound hapart]
          cases fill l' next virt base n st₁ with
          | error err => rfl
          | ok st₂ => rfl

theorem checkAligned_set (hfill : fill l t virt base n (st.set x j e) =
    (fill l t virt base n st).map fun s => s.set x j e) :
    checkAligned A fill l t virt base n (st.set x j e) =
      (checkAligned A fill l t virt base n st).map fun s => s.set x j e := by
  rw [checkAligned, checkAligned, hfill]
  cases require (isAligned A base pageSize = true) .alignment with
  | error err => rfl
  | ok _ =>
      cases require (isAligned A virt pageSize = true) .alignment with
      | error err => rfl
      | ok _ => rfl

/-! ## The compact loop -/

theorem compactRound_set (hF : Lawful F M limit height) (hs : Sound M limit st (height l) t S)
    (ha : Apart M st (height l) t S virt size x j) (hsize : 0 < size)
    (hfill : ∀ m ≤ size, ∀ l' next st₁ K, Sound M limit st₁ (height l') next K →
      Apart M st₁ (height l') next K virt m x j →
      fill l' next virt base m (st₁.set x j e) = (fill l' next virt base m st₁).map fun s => s.set x j e) :
    compactRound F A device fill l t virt base size (st.set x j e) =
      (compactRound F A device fill l t virt base size st).map fun r => (r.1, r.2.1, r.2.2.set x j e) := by
  have hentry := ha.entry hs.separate.root_mem hsize
  rw [← hF.index] at hentry
  have hle : (if ¬ isAligned A virt (F.blockAlignment l) = true then size &&& (F.getTableEntrySize l - 1) else size) ≤
      size := by
    split
    · exact Nat.and_le_left
    · exact le_rfl
  simp only [compactRound]
  split
  · rw [allocTableAndFill_set hF hs ha hentry (hfill _ hle)]
    cases allocTableAndFill F fill l (st.mem t (F.getDescriptorIndex virt l)) virt base _ st with
    | error err => rfl
    | ok r => rfl
  · cases F.makeDescriptor l base device with
    | none => rfl
    | some desc => rfl

/-- The compact loop commutes with a write to an entry that it does not take. -/
theorem compactLoop_set (hF : Lawful F M limit height) (hT : Tests A F align)
    (hs : Sound M limit st (height l) t S) (hfits : Fits A virt base size)
    (ha : Apart M st (height l) t S virt size x j) :
    compactLoop F P A device fuel l t virt base size (st.set x j e) =
      (compactLoop F P A device fuel l t virt base size st).map fun s => s.set x j e := by
  induction fuel generalizing l t virt base size st S with
  | zero => rfl
  | succ fuel ih =>
      rw [compactLoop, compactLoop]
      split
      · rfl
      · rename_i hge
        have hpage := pageSize_pos
        have hpos : 0 < size := by omega
        have hfill : ∀ m ≤ size, ∀ l' next st₁ K, Sound M limit st₁ (height l') next K →
            Apart M st₁ (height l') next K virt m x j →
            checkAligned A (compactLoop F P A device fuel) l' next virt base m (st₁.set x j e) =
              (checkAligned A (compactLoop F P A device fuel) l' next virt base m st₁).map fun s => s.set x j e :=
          fun m hm l' next st₁ K hsound hapart => checkAligned_set (ih hsound (hfits.take hm) hapart)
        rw [compactRound_set hF hs ha hpos hfill]
        cases hround : compactRound F A device (checkAligned A (compactLoop F P A device fuel)) l t virt base size st with
        | error err => rfl
        | ok r =>
            rcases r with ⟨n, d, st₁⟩
            have hround' := compactRound_eq_ok hF hT (hfits.virt_lt (by omega)) hround
            have hkeeps := hround'.keeps hF hs (compactFill_keeps hF hT hfits P device fuel)
            have hentry := ha.entry hs.separate.root_mem hpos
            have hle := hround'.le
            simp only [Except.map, run_ok_bind, hF.index, set_set_comm hentry, subWord_of_le hle hfits.size]
            rcases Nat.lt_or_eq_of_le hle with hlt | rfl
            · have hv := hfits.virt
              have hb := hfits.base
              simp only [addWord_of_lt (show virt + n < A.wordLimit by omega),
                addWord_of_lt (show base + n < A.wordLimit by omega), run_ok_bind]
              exact ih (hs.keeps hkeeps) (hfits.drop hle) (ha.drop hkeeps hle)
            · -- The sums may wrap, but nothing is left to do.
              rw [Nat.sub_self]
              cases addWord P A virt n with
              | error err => rfl
              | ok v =>
                  cases addWord P A base n with
                  | error err => rfl
                  | ok b =>
                      cases fuel with
                      | zero => rfl
                      | succ fuel =>
                          simp only [run_ok_bind, compactLoop_of_lt hpage]

/-! ## The granular loop -/

theorem granularRound_set (hF : Lawful F M limit height) (hs : Sound M limit st (height l) t S)
    (ha : Apart M st (height l) t S virt size x j) (hsize : 0 < size)
    (hfill : ∀ l' next st₁ K, Sound M limit st₁ (height l') next K → Apart M st₁ (height l') next K virt size x j →
      fill l' next virt base size (st₁.set x j e) = (fill l' next virt base size st₁).map fun s => s.set x j e) :
    granularRound F device fill l t virt base size (st.set x j e) =
      (granularRound F device fill l t virt base size st).map fun r => (r.1, r.2.set x j e) := by
  have hentry := ha.entry hs.separate.root_mem hsize
  rw [← hF.index] at hentry
  rw [granularRound, granularRound]
  split
  · cases F.makeDescriptor l base device with
    | none => rfl
    | some desc => rfl
  · exact allocTableAndFill_set hF hs ha hentry hfill

/-- The granular loop commutes with a write to an entry that it does not take. -/
theorem granularLoop_set (hF : Lawful F M limit height) (hs : Sound M limit st (height l) t S)
    (hfits : Fits A virt base size) (hpos : 0 < size) (ha : Apart M st (height l) t S virt size x j) :
    granularLoop F P A device fuel l t virt base size (st.set x j e) =
      (granularLoop F P A device fuel l t virt base size st).map fun s => s.set x j e := by
  induction fuel generalizing l t virt base size st S with
  | zero => rfl
  | succ fuel ih =>
      rw [granularLoop, granularLoop]
      have hfill : ∀ l' next st₁ K, Sound M limit st₁ (height l') next K →
          Apart M st₁ (height l') next K virt size x j →
          checkAligned A (granularLoop F P A device fuel) l' next virt base size (st₁.set x j e) =
            (checkAligned A (granularLoop F P A device fuel) l' next virt base size st₁).map fun s => s.set x j e :=
        fun l' next st₁ K hsound hapart => checkAligned_set (ih hsound hfits hpos hapart)
      rw [granularRound_set hF hs ha hpos hfill]
      cases hround : granularRound F device (checkAligned A (granularLoop F P A device fuel)) l t virt base size st with
      | error err => rfl
      | ok r =>
          rcases r with ⟨d, st₁⟩
          have hround' := (granularRound_iff hF).1 hround
          have hkeeps := hround'.keeps hF hs (granularFill_keeps hF hfits P device fuel)
          have hentry := ha.entry hs.separate.root_mem hpos
          simp only [Except.map, run_ok_bind, hF.index, hF.entrySize, set_set_comm hentry]
          split
          · rfl
          · have hlt : span (height l) < size := by omega
            have hv := hfits.virt
            have hb := hfits.base
            simp only [addWord_of_lt (show virt + span (height l) < A.wordLimit by omega),
              addWord_of_lt (show base + span (height l) < A.wordLimit by omega), subWord_of_le hlt.le hfits.size,
              run_ok_bind]
            exact ih (hs.keeps hkeeps) (hfits.drop hlt.le) (by omega) (ha.drop hkeeps hlt.le)

/-! ## Tables with a recursive entry -/

/-- Writes to one entry of a table, if there is one. -/
def TableState.replace (st : TableState D) (entry : Option Nat) (table : Nat) (desc : D) : TableState D :=
  match entry with
  | none => st
  | some i => st.set table i desc

/-- The tables are a tree without the entry of the first table. -/
def SoundBut (M : Mmu D) (limit : Nat) (zero : D) (entry : Option Nat) (st : TableState D) (h t : Nat) (S : Set Nat) :
    Prop :=
  Sound M limit (st.replace entry t zero) h t S

/-- The address does not take the entry. -/
def Visible (M : Mmu D) (h : Nat) (entry : Option Nat) (v : Nat) : Prop :=
  some (M.index h v) ≠ entry

instance (M : Mmu D) (h : Nat) (entry : Option Nat) : DecidablePred (Visible M h entry) :=
  fun v => inferInstanceAs (Decidable (some (M.index h v) ≠ entry))

/-- No address of the range takes the entry. -/
def Avoids (M : Mmu D) (h : Nat) (entry : Option Nat) (virt size : Nat) : Prop :=
  ∀ v, virt ≤ v → v < virt + size → Visible M h entry v

theorem avoids_none {h : Nat} : Avoids M h none virt size :=
  fun _ _ _ => Option.some_ne_none _

section Replace

variable {entry : Option Nat} {h v : Nat} {zero : D}

theorem replace_restore (st : TableState D) (entry : Option Nat) (t : Nat) (zero : D) :
    ∃ d, (st.replace entry t zero).replace entry t d = st := by
  cases entry with
  | none => exact ⟨zero, rfl⟩
  | some i =>
      refine ⟨st.mem t i, ?_⟩
      have hmem : (st.mem.set t i zero).set t i (st.mem t i) = st.mem := by
        simp only [Tables.set, Function.update_self, Function.update_idem, Function.update_eq_self]
      exact congrArg (fun mem => { st with mem := mem }) hmem

theorem replace_supply : (st.replace entry t d).supply = st.supply := by
  cases entry <;> rfl

theorem replace_used : (st.replace entry t d).used = st.used := by
  cases entry <;> rfl

theorem HasPages.replace (hp : HasPages st n) : HasPages (st.replace entry t d) n := by
  intro m hm
  rw [replace_supply, replace_used]
  exact hp m hm

/-- A recursive entry in place of an empty one. -/
theorem soundBut_set {i : Nat} (hs : Sound M limit st h t S) (hzero : st.mem t i = zero) :
    SoundBut M limit zero (some i) (st.set t i d) h t S := by
  have hmem : (st.mem.set t i d).set t i zero = st.mem := by
    simp only [Tables.set, Function.update_self, Function.update_idem, ← hzero, Function.update_eq_self]
  have hst : (st.set t i d).replace (some i) t zero = st := congrArg (fun mem => { st with mem := mem }) hmem
  rw [SoundBut, hst]
  exact hs

/-- A tree of tables is one without the entry. -/
theorem Sound.soundBut (hs : Sound M limit st h t S) (hzero : M.decode h zero = .invalid) :
    SoundBut M limit zero entry st h t S := by
  cases entry with
  | none => exact hs
  | some i =>
      have hne : ∀ next, M.decode h zero ≠ .table next := by
        intro next hd
        rw [hzero] at hd
        cases hd
      exact ⟨hs.separate.set hne, hs.bounded, hs.fresh, hs.distinct⟩

/-- The entry may be anything. -/
theorem SoundBut.replace (hs : SoundBut M limit zero entry st h t S) :
    SoundBut M limit zero entry (st.replace entry t d) h t S := by
  cases entry with
  | none => exact hs
  | some i =>
      have hmem : (st.mem.set t i d).set t i zero = st.mem.set t i zero := by
        simp only [Tables.set, Function.update_self, Function.update_idem]
      have hst : (st.set t i d).replace (some i) t zero = st.set t i zero :=
        congrArg (fun mem => { st with mem := mem }) hmem
      rw [SoundBut]
      show Sound M limit ((st.set t i d).replace (some i) t zero) h t S
      rw [hst]
      exact hs

/-- What does not take the entry is translated alike whatever the entry is. -/
theorem leaf_replace (hs : Sound M limit st h t S) (hv : Visible M h entry v) :
    M.leaf (st.replace entry t d).mem h t v = M.leaf st.mem h t v := by
  cases entry with
  | none => rfl
  | some i => exact Mmu.leaf_set_of_ne hs.separate fun hi => hv (congrArg some hi)

theorem mem_replace (hv : Visible M h entry v) :
    (st.replace entry t d).mem t (M.index h v) = st.mem t (M.index h v) := by
  cases entry with
  | none => rfl
  | some i => exact Tables.set_of_ne_entry fun hi => hv (congrArg some hi)

theorem apart_of_avoids {i : Nat} (hs : Sound M limit st h t S)
    (hvis : Avoids M h (some i) virt size) : Apart M st h t S virt size t i where
  tables := Or.inr ⟨rfl, fun v hlo hhi hi => hvis v hlo hhi (congrArg some hi)⟩
  fresh := by
    intro m hm hsupply
    exact (hs.fresh m t hm hsupply).1 hs.separate.root_mem

/-- The compact loop works on the tables with the entry as it does on the tree. -/
theorem compactLoop_replace (hF : Lawful F M limit height) (hT : Tests A F align)
    (hs : Sound M limit st (height l) t S) (hfits : Fits A virt base size)
    (hvis : Avoids M (height l) entry virt size) :
    compactLoop F P A device fuel l t virt base size (st.replace entry t e) =
      (compactLoop F P A device fuel l t virt base size st).map fun s => s.replace entry t e := by
  cases entry with
  | none =>
      show _ = Except.map id _
      rw [Except.map_id, id]
      rfl
  | some i => exact compactLoop_set hF hT hs hfits (apart_of_avoids hs hvis)

/-- The granular loop works on the tables with the entry as it does on the tree. -/
theorem granularLoop_replace (hF : Lawful F M limit height) (hs : Sound M limit st (height l) t S)
    (hfits : Fits A virt base size) (hpos : 0 < size)
    (hvis : Avoids M (height l) entry virt size) :
    granularLoop F P A device fuel l t virt base size (st.replace entry t e) =
      (granularLoop F P A device fuel l t virt base size st).map fun s => s.replace entry t e := by
  cases entry with
  | none =>
      show _ = Except.map id _
      rw [Except.map_id, id]
      rfl
  | some i => exact granularLoop_set hF hs hfits hpos (apart_of_avoids hs hvis)

end Replace

/-! ## When a fill is right -/

/-- A range is mapped, and other addresses are translated as before. -/
structure Mapped (translate translate' : Nat → Option Nat) (virt base size : Nat) : Prop where
  inside : ∀ x < size, translate' (virt + x) = some (base + x)
  outside : ∀ v, ¬ (virt ≤ v ∧ v < virt + size) → translate' v = translate v

/-- The translation by the tables at `root`, which are those of a segment. -/
def translateIn (M : Mmu D) (h : Nat) (seg : Nat → Prop) [DecidablePred seg] (st : TableState D)
    (root v : Nat) : Option Nat :=
  if seg v then M.walk st.mem h root v else none

/-- A function that fills the tables at a root returns from these tables, and maps the range as asked for. -/
def Exact (fill : Nat → Nat → TableState D → Run (TableState D)) (M : Mmu D) (seg : Nat → Prop) [DecidablePred seg]
    (h virt base size : Nat) (st : TableState D) (root : Nat) : Prop :=
  ∃ fuel st', fill fuel root st = .ok st' ∧
    Mapped (translateIn M h seg st root) (translateIn M h seg st' root) virt base size

/-- The fill is right from every tree of tables without blocks on the walks of the range, and with pages for new
tables.  If the first table may have a recursive `entry`, then the tables without it have to be a tree, and the
addresses of its window are left out. -/
def FillsExactly (fill : Nat → Nat → TableState D → Run (TableState D)) (M : Mmu D) (limit : Nat) (zero : D)
    (entry : Option Nat) (seg : Nat → Prop) [DecidablePred seg] (count h virt base size : Nat) : Prop :=
  ∀ (st : TableState D) (root : Nat) (S : Set Nat), SoundBut M limit zero entry st h root S →
    Clear M st h root virt size → HasPages st count →
    Exact fill M (fun v => seg v ∧ Visible M h entry v) h virt base size st root

section Exact

variable {seg : Nat → Prop} [DecidablePred seg] {count h root : Nat} {zero : D} {entry : Option Nat}
  {run : Nat → Nat → TableState D → Run (TableState D)}

/-- The tables that a fill of the tree maps the range in, with the entry. -/
theorem Maps.mapped (hs : Sound M limit st h root S) (hk : Keeps M st st' h root S)
    (hmaps : Maps M st st' h root virt base size) (hseg : ∀ v, seg v → v / cover M h = virt / cover M h)
    (hin : ∀ x < size, seg (virt + x)) (hvis : Avoids M h entry virt size) :
    Mapped (translateIn M h (fun v => seg v ∧ Visible M h entry v) (st.replace entry root d) root)
      (translateIn M h (fun v => seg v ∧ Visible M h entry v) (st'.replace entry root d) root) virt base size := by
  have hs' := hs.keeps hk
  constructor
  · intro x hx
    have hv := hvis (virt + x) (by omega) (by omega)
    have hwalk := hmaps.inside (virt + x) (by omega) (by omega)
    rw [Nat.add_sub_cancel_left, Mmu.walk] at hwalk
    rw [translateIn, if_pos ⟨hin x hx, hv⟩, Mmu.walk, leaf_replace hs' hv, hwalk]
  · intro v hout
    by_cases hv : seg v ∧ Visible M h entry v
    · rw [translateIn, translateIn, if_pos hv, if_pos hv, Mmu.walk, Mmu.walk, leaf_replace hs' hv.2,
        leaf_replace hs hv.2, hmaps.outside v (hseg v hv.1) hout]
    · rw [translateIn, translateIn, if_neg hv, if_neg hv]

/-- If a fill maps the range in every tree, and works alike with the entry, then it is right with the entry. -/
theorem exact_of_maps (fuel : Nat) (hs : SoundBut M limit zero entry st h root S) (hclear : Clear M st h root virt size)
    (hpages : HasPages st count) (hseg : ∀ v, seg v → v / cover M h = virt / cover M h)
    (hin : ∀ x < size, seg (virt + x)) (hvis : Avoids M h entry virt size)
    (hreplace : ∀ st S d, Sound M limit st h root S →
      run fuel root (st.replace entry root d) = (run fuel root st).map fun s => s.replace entry root d)
    (hmaps : ∀ st S, Sound M limit st h root S → Clear M st h root virt size → HasPages st count →
      ∃ st', run fuel root st = .ok st' ∧ Keeps M st st' h root S ∧ Maps M st st' h root virt base size) :
    Exact run M (fun v => seg v ∧ Visible M h entry v) h virt base size st root := by
  obtain ⟨d, hd⟩ := replace_restore st entry root zero
  have hclear' : Clear M (st.replace entry root zero) h root virt size := by
    intro v hlo hhi b hb
    have hleaf := leaf_replace (d := d) hs (hvis v hlo hhi)
    rw [hd] at hleaf
    exact hclear v hlo hhi b (hleaf.trans hb)
  rcases hmaps _ S hs hclear' hpages.replace with ⟨st', hrun, hkeeps, hmaps'⟩
  have hrun' := hreplace _ S d hs
  have hmapped := hmaps'.mapped (d := d) hs hkeeps hseg hin hvis
  rw [hd] at hrun' hmapped
  refine ⟨fuel, st'.replace entry root d, ?_, hmapped⟩
  rw [hrun', hrun]
  rfl

theorem emptyState_replace : (emptyState zero n).replace entry 0 zero = emptyState zero n := by
  cases entry with
  | none => rfl
  | some i =>
      have hmem : Tables.set (fun _ _ => zero) 0 i zero = fun _ _ => zero := by
        rw [Tables.set, Function.update_eq_self, Function.update_eq_self]
      exact congrArg (fun mem => { emptyState zero n with mem := mem }) hmem

/-- What a fill that is right does with an empty table. -/
theorem FillsExactly.emptyState (hF : Lawful F M limit height) (hcount : pageSize * (count + 1) ≤ limit)
    (hexact : FillsExactly run M limit F.zero entry seg count h virt base size) :
    ∃ fuel st', run fuel 0 (emptyState F.zero count) = .ok st' ∧ ∀ x < size,
      M.walk st'.mem h 0 (virt + x) = some (base + x) ∧ seg (virt + x) ∧ Visible M h entry (virt + x) := by
  have hs : SoundBut M limit F.zero entry (Paging.emptyState F.zero count) h 0 {0} := by
    rw [SoundBut, emptyState_replace]
    exact emptyState_sound hF hcount h
  rcases hexact _ _ _ hs (fun v _ _ => emptyState_clearAt hF count h 0 v) (emptyState_hasPages F.zero count)
    with ⟨fuel, st', hrun, hmapped⟩
  refine ⟨fuel, st', hrun, fun x hx => ?_⟩
  have hx' := hmapped.inside x hx
  rw [translateIn] at hx'
  split at hx'
  · rename_i hin
    exact ⟨hx', hin⟩
  · cases hx'

end Exact

/-! ## When the granular fill is right -/

section Granular

variable {seg : Nat → Prop} [DecidablePred seg] {count h : Nat} {entry : Option Nat}

theorem fillsExactly_of_window (hF : Lawful F M limit height) (hl : height l = h) (hh : 0 < h)
    (hseg : ∀ v, seg v → v / cover M h = virt / cover M h) (hvirtseg : ∀ v, v / span 1 = virt / span 1 → seg v)
    (hcount : h ≤ count) (hfits : Fits A virt base size) (hlimit : base + size ≤ limit)
    (hvirt : pageSize ∣ virt) (hbase : pageSize ∣ base) (hsize : pageSize ∣ size) (hpos : 0 < size)
    (hwin : virt % span 1 + size ≤ span 1) (hvis : Avoids M h entry virt size) :
    FillsExactly (fun fuel root => fillTable F P A device .granular fuel l root virt base size) M limit F.zero entry
      seg count h virt base size := by
  intro st root S hs hclear hpages
  subst hl
  have hle : size ≤ span 1 := (Nat.le_add_left _ _).trans hwin
  have hpage := Nat.le_of_dvd hpos hsize
  have haligned : ∀ st : TableState D, fillTable F P A device .granular (size / pageSize + height l + 1) l root virt
      base size st = granularLoop F P A device (size / pageSize + height l + 1) l root virt base size st :=
    fun st => checkAligned_of_dvd hfits hpage hvirt hbase
  refine exact_of_maps (size / pageSize + height l + 1) hs hclear hpages hseg ?_ hvis ?_ ?_
  · exact fun x hx => hvirtseg _ (div_eq_of_window hwin (by omega) (by omega))
  · intro st S d hs
    rw [haligned, haligned]
    exact granularLoop_replace hF hs hfits hpos hvis
  · intro st S hs hclear hpages
    rw [haligned]
    rcases granularLoop_returns hF hs hfits hvirt hbase hsize hpos hle (fun m hm => hpages m (by omega))
      (Nat.lt_succ_self _) with ⟨st', hrun⟩
    exact ⟨st', hrun, granularLoop_keeps hF hs hfits hrun,
      granularLoop_maps hF hs hfits hlimit hvirt hbase hsize hpos hwin (fun h => by omega) hclear hrun⟩

theorem window_of_fillsExactly (hF : Lawful F M limit height) (hl : height l = h) (hh : 0 < h)
    (hseg : ∀ v, seg v → v / cover M h = virt / cover M h) (hcount : pageSize * (count + 1) ≤ limit)
    (hfits : Fits A virt base size) (hlimit : base + size ≤ limit)
    (hvirt : pageSize ∣ virt) (hbase : pageSize ∣ base) (hsize : pageSize ∣ size) (hpos : 0 < size)
    (hexact : FillsExactly (fun fuel root => fillTable F P A device .granular fuel l root virt base size) M limit
      F.zero entry seg count h virt base size) :
    virt % span 1 + size ≤ span 1 ∧ Avoids M h entry virt size := by
  have hs : Sound M limit (emptyState F.zero count) h 0 {0} := emptyState_sound hF hcount h
  rcases hexact.emptyState hF hcount with ⟨fuel, st', hrun, hinside⟩
  have hrun' := checkAligned_eq_ok hrun
  rw [← hl] at hs
  refine ⟨?_, ?_⟩
  · by_contra hcross
    rcases Nat.lt_or_ge (span 1) size with hlong | hshort
    · -- The first page is overwritten.
      have hfits0 : Fits A (virt + 0) (base + 0) size := hfits
      have hrun0 : granularLoop F P A device fuel l 0 (virt + 0) (base + 0) size (emptyState F.zero count) =
          .ok st' := hrun'
      rcases granularLoop_first hF hs hfits0 hlimit hbase hsize hpos (Nat.dvd_zero _) (Nat.zero_add size)
        (fun hzero => by omega) (Or.inl rfl) hrun0 with ⟨y, hy, hy0⟩
      have hwalk := (hinside 0 hpos).1
      rw [hl] at hy
      have hmod : virt % span 0 = 0 := Nat.mod_eq_zero_of_dvd hvirt
      rw [Nat.add_zero, Mmu.walk, hy, Option.map_some, hmod] at hwalk
      have := Option.some.inj hwalk
      have := hy0 hlong
      omega
    · -- The part behind the multiple of 2 MiB is not mapped.
      have hmod := Nat.mod_lt virt (span_pos 1)
      have hx : span 1 - virt % span 1 < size := by omega
      rcases hinside _ hx with ⟨hwalk, hin, -⟩
      have hne : (virt + (span 1 - virt % span 1)) / span 1 ≠ virt / span 1 := by
        have hdm := Nat.div_add_mod virt (span 1)
        have hsum : virt + (span 1 - virt % span 1) = span 1 * (virt / span 1 + 1) := by
          rw [Nat.mul_add, Nat.mul_one]
          omega
        rw [hsum, Nat.mul_div_cancel_left _ (span_pos 1)]
        omega
      have hleaf := granularLoop_outside hF hs hfits (by omega) le_rfl hshort
        (emptyState_clearAt hF count (height l) 0 virt) (by rw [hl]; exact hseg _ hin) hne hrun'
      rw [emptyState_leaf hF, hl] at hleaf
      rw [Mmu.walk, hleaf] at hwalk
      cases hwalk
  · intro v hlo hhi
    obtain ⟨x, rfl⟩ := Nat.exists_eq_add_of_le hlo
    exact (hinside x (by omega)).2.2

/-- A range within one entry of the first table writes that entry only, and a pointer in it is kept. -/
theorem granularLoop_row (hF : Lawful F M limit height) (hl : height l = h + 1) (hs : Sound M limit st (h + 1) t S)
    (hfits : Fits A virt base size) (hle : size ≤ span (h + 1))
    (hrun : granularLoop F P A device fuel l t virt base size st = .ok st') :
    ∃ d, st'.mem t = Function.update (st.mem t) (M.index (h + 1) virt) d ∧ (∃ next, M.decode (h + 1) d = .table next) ∧
      ∀ next, M.decode (h + 1) (st.mem t (M.index (h + 1) virt)) = .table next →
        d = st.mem t (M.index (h + 1) virt) := by
  cases fuel with
  | zero => cases hrun
  | succ fuel =>
      rcases granularLoop_eq_ok hF hfits hrun with ⟨d, st₁, hround, hdone, -⟩
      rw [hl] at hdone
      rcases hround.opened hF hl hs with ⟨l', next, st₂, K, hl', hfill, hopened⟩
      have hsound := hopened.sound
      rw [← hl'] at hsound
      have hkeeps := granularLoop_keeps hF hsound hfits (checkAligned_eq_ok hfill)
      rw [hl'] at hkeeps
      have hdesc := hopened.descends hs hkeeps
      refine ⟨d, ?_, ⟨next, hopened.decode⟩, hopened.same⟩
      rw [hdone hle, ← hdesc.row]
      exact Function.update_self _ _ _

end Granular

end Paging
end Propeller
