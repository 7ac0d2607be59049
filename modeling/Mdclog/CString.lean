import Mathlib.Data.List.TakeWhile
import Mathlib.Data.Nat.Digits.Lemmas
import Mdclog.Foundation.ByteBuffer

/-! The C data the library is written over: bytes, NUL-terminated strings,
`size_t` arithmetic and the two formatted-output functions of the C library. -/
namespace Mdclog.CString
open Foundation.ByteBuffer

def ascii (text : String) : List UInt8 :=
  text.toList.map fun c => UInt8.ofNat c.toNat

abbrev quote : UInt8 := 0x22
abbrev backslash : UInt8 := 0x5c
abbrev comma : UInt8 := 0x2c
abbrev space : UInt8 := 0x20

/-- `isprint` in the C locale. -/
def isprint (c : UInt8) : Bool :=
  0x20 ≤ c && c ≤ 0x7e

/-- A NUL-terminated string, without its terminator. -/
@[ext] structure CStr where
  bytes : List UInt8
  nulFree : 0 ∉ bytes
  deriving DecidableEq

/-- The string that starts at the first byte of some memory: everything up to
the first NUL. -/
def CStr.ofMemory (memory : List UInt8) : CStr :=
  ⟨memory.takeWhile (· ≠ 0), by
    intro h
    simpa using List.mem_takeWhile_imp h⟩

theorem CStr.bytes_ofMemory_of_notMem {memory : List UInt8} (h : 0 ∉ memory) :
    (CStr.ofMemory memory).bytes = memory := by
  apply List.takeWhile_eq_self_iff.mpr
  intro c hc
  simp only [decide_eq_true_eq]
  rintro rfl
  exact h hc

/-- Nothing behind the first NUL matters. -/
theorem CStr.ofMemory_append_nul (front back : List UInt8) :
    CStr.ofMemory (front ++ 0 :: back) = CStr.ofMemory front := by
  apply CStr.ext
  change (front ++ 0 :: back).takeWhile _ = front.takeWhile _
  induction front with
  | nil => simp
  | cons c front ih =>
    simp only [List.cons_append, List.takeWhile_cons, ih]

theorem CStr.ofMemory_bytes (text : CStr) (back : List UInt8) :
    CStr.ofMemory (text.bytes ++ 0 :: back) = text := by
  rw [CStr.ofMemory_append_nul]
  exact CStr.ext (CStr.bytes_ofMemory_of_notMem text.nulFree)

/-- A string constant of the source. -/
def CStr.ofString (text : String) : CStr :=
  CStr.ofMemory (ascii text)

def intMax : Nat := 2 ^ 31 - 1

/-- The number of `size_t` values; sums and differences wrap around at it. -/
def sizeModulus : Nat := 2 ^ 64

def sizeAdd (a b : Nat) : Nat := (a + b) % sizeModulus

def sizeSub (a b : Nat) : Nat := if b ≤ a then a - b else a + sizeModulus - b

/-- Conversion of a signed integer to a 64-bit unsigned one. -/
def sizeOfInt (value : Int) : Nat := (value % (sizeModulus : Int)).toNat

theorem lt_sizeModulus {n : Nat} (h : n ≤ intMax) : n < sizeModulus :=
  Nat.lt_of_le_of_lt h (by decide)

theorem sizeSub_eq {a b : Nat} (hle : b ≤ a) : sizeSub a b = a - b := if_pos hle

theorem sizeAdd_eq {a b : Nat} (h : a + b < sizeModulus) : sizeAdd a b = a + b := by
  unfold sizeAdd
  exact Nat.mod_eq_of_lt h

theorem sizeOfInt_natCast {n : Nat} (h : n < sizeModulus) : sizeOfInt (n : Int) = n := by
  unfold sizeOfInt
  rw [← Int.natCast_emod, Nat.mod_eq_of_lt h, Int.toNat_natCast]

/-- Decimal digits, as `%llu` prints them. -/
def decimal (n : Nat) : List UInt8 :=
  if n = 0 then [0x30] else ((Nat.digits 10 n).map fun d => UInt8.ofNat (0x30 + d)).reverse

/-- `snprintf(&buffer[base], size, ...)` where `out` is the complete output.
At most `size` bytes are stored, the last one a NUL; the value returned is the
length of the complete output, or negative when an `int` cannot hold it. -/
def snprintf (buffer : Buffer) (base size : Nat) (out : List UInt8) :
    Option (Buffer × Int) := do
  let result : Int := if out.length ≤ intMax then out.length else -1
  if size = 0 then
    return (buffer, result)
  else
    let buffer ← storeAll buffer base (out.take (size - 1) ++ [0])
    return (buffer, result)

/-- `sprintf(&buffer[base], ...)`: no bound but the array itself. -/
def sprintf (buffer : Buffer) (base : Nat) (out : List UInt8) : Option (Buffer × Nat) := do
  let buffer ← storeAll buffer base (out ++ [0])
  return (buffer, out.length)

theorem snprintf_of_lt (front back out : List UInt8) {size : Nat}
    (hfit : out.length < size) (hback : size ≤ back.length) (hint : out.length ≤ intMax) :
    snprintf (front ++ back) front.length size out =
      some (front ++ out ++ 0 :: back.drop (out.length + 1), (out.length : Int)) := by
  have htake : out.take (size - 1) = out := List.take_of_length_le (by omega)
  have hsize : size ≠ 0 := by omega
  unfold snprintf
  rw [if_neg hsize, if_pos hint, htake,
    storeAll_eq_some _ _ _ (by simp only [List.length_append, List.length_singleton]; omega)]
  simp

/-- When the output does not fit, the cut text is left in the buffer and the
value returned tells the caller. -/
theorem snprintf_of_le (front back out : List UInt8) {size : Nat}
    (hcut : size ≤ out.length) (hback : size ≤ back.length) :
    ∃ rest value, snprintf (front ++ back) front.length size out = some (front ++ rest, value) ∧
      rest.length = back.length ∧ (value < 0 ∨ size ≤ sizeOfInt value) := by
  have hvalue : (if out.length ≤ intMax then (out.length : Int) else -1) < 0 ∨
      size ≤ sizeOfInt (if out.length ≤ intMax then (out.length : Int) else -1) := by
    split
    · rename_i hint
      right
      rw [sizeOfInt_natCast (lt_sizeModulus hint)]
      exact hcut
    · left
      decide
  by_cases hpos : size = 0
  · refine ⟨back, _, ?_, rfl, hvalue⟩
    unfold snprintf
    rw [if_pos hpos]
    rfl
  · have hlength : (out.take (size - 1) ++ [0]).length = size := by
      simp only [List.length_append, List.length_take, List.length_singleton]
      omega
    refine ⟨out.take (size - 1) ++ [0] ++ back.drop size, _, ?_, ?_, hvalue⟩
    · unfold snprintf
      rw [if_neg hpos, storeAll_eq_some _ _ _ (by omega), hlength]
      simp
    · rw [List.length_append, hlength, List.length_drop]
      omega

/-- In either case the text, cut to the room it has, is a string in the buffer. -/
theorem snprintf_stores (buffer : Buffer) (out : List UInt8) {size : Nat} (hpos : 0 < size)
    (hsize : size ≤ buffer.length) (hmax : out.length ≤ intMax) :
    ∃ rest, snprintf buffer 0 size out =
      some (out.take (size - 1) ++ 0 :: rest, (out.length : Int)) := by
  have hlength : (out.take (size - 1) ++ [0]).length ≤ buffer.length := by
    simp only [List.length_append, List.length_take, List.length_singleton]
    omega
  have hstore := storeAll_eq_some [] buffer _ hlength
  simp only [List.nil_append, List.length_nil] at hstore
  refine ⟨buffer.drop (out.take (size - 1) ++ [0]).length, ?_⟩
  unfold snprintf
  rw [if_neg (by omega), if_pos hmax, hstore]
  simp

theorem snprintf_value {buffer result : Buffer} {base size : Nat} {out : List UInt8} {value : Int}
    (h : snprintf buffer base size out = some (result, value)) (hmax : out.length ≤ intMax) :
    value = out.length := by
  unfold snprintf at h
  rw [if_pos hmax] at h
  split at h
  · cases h
    rfl
  · obtain ⟨_, _, h⟩ := Option.bind_eq_some_iff.mp h
    cases h
    rfl

theorem sprintf_eq_some (front back out : List UInt8) (h : out.length < back.length) :
    sprintf (front ++ back) front.length out =
      some (front ++ out ++ 0 :: back.drop (out.length + 1), out.length) := by
  unfold sprintf
  rw [storeAll_eq_some _ _ _ (by simp only [List.length_append, List.length_singleton]; omega)]
  simp

end Mdclog.CString
