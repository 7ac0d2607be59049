import Mathlib.Data.List.Basic
import Mathlib.Data.List.TakeDrop

/-! Fixed-size byte arrays with bounds-checked writes. An access outside the
array has no meaning in C, so it is the value `none` here: a computation that
returns `some` has touched only bytes of the array. -/
namespace Foundation.ByteBuffer

abbrev Buffer := List UInt8

/-- `buffer[index] = byte`. -/
def store (buffer : Buffer) (index : Nat) (byte : UInt8) : Option Buffer :=
  if index < buffer.length then some (buffer.set index byte) else none

/-- Store consecutive bytes from `index` on. -/
def storeAll : Buffer → Nat → List UInt8 → Option Buffer
  | buffer, _, [] => some buffer
  | buffer, index, byte :: bytes => do
      let buffer ← store buffer index byte
      storeAll buffer (index + 1) bytes

/-- An array fresh from the allocator holds whatever was there. -/
def fresh (contents : Nat → UInt8) (size : Nat) : Buffer :=
  (List.range size).map contents

@[simp] theorem length_fresh (contents : Nat → UInt8) (size : Nat) :
    (fresh contents size).length = size := by
  simp [fresh]

theorem store_append (front : List UInt8) (old byte : UInt8) (back : List UInt8) :
    store (front ++ old :: back) front.length byte = some (front ++ byte :: back) := by
  simp [store]

/-- The form used on a buffer of which only the part in front is known. -/
theorem store_eq_some (front : List UInt8) {back : List UInt8} (byte : UInt8) (h : back ≠ []) :
    store (front ++ back) front.length byte = some (front ++ byte :: back.drop 1) := by
  cases back with
  | nil => contradiction
  | cons old back => exact store_append front old byte back

theorem storeAll_eq_some (front back bytes : List UInt8) (h : bytes.length ≤ back.length) :
    storeAll (front ++ back) front.length bytes =
      some (front ++ bytes ++ back.drop bytes.length) := by
  induction bytes generalizing front back with
  | nil => simp [storeAll]
  | cons byte bytes ih =>
    cases back with
    | nil => simp at h
    | cons old back =>
      rw [storeAll, store_append]
      have hrest := ih (front ++ [byte]) back (by simpa using h)
      simpa using hrest

/-- What lies behind an array is neither read nor written by a store into it. -/
theorem store_behind {buffer result : Buffer} {index : Nat} {byte : UInt8}
    (h : store buffer index byte = some result) (behind : List UInt8) :
    store (buffer ++ behind) index byte = some (result ++ behind) := by
  unfold store at h ⊢
  rw [Option.ite_none_right_eq_some] at h
  obtain ⟨hindex, ⟨⟩⟩ := h
  rw [if_pos (by rw [List.length_append]; omega), List.set_append_left _ _ hindex]

/-- `result` is `buffer` except that `text` and a terminating NUL stand at
`front.length`: what a section writer leaves behind when it starts there. -/
def Wrote (front text : List UInt8) (size : Nat) (result : Option (Buffer × Nat)) : Prop :=
  ∃ back, result = some (front ++ text ++ 0 :: back, text.length) ∧
    front.length + text.length + 1 + back.length = size

end Foundation.ByteBuffer
