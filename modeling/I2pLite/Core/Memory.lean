import Mathlib.Data.Vector.Defs
import Mathlib.Data.Vector.Basic
import I2pLite.Core.CRun
import I2pLite.Core.CBytes

/-!
# Buffers

A `memcpy` out of a buffer, or into one, stays inside of it or is a fault.
Big-endian numbers of 16 bits take two bytes.
-/

namespace I2pLite.Memory

open I2pLite.CRun
open I2pLite.CBytes

variable {buffer bytes : List Byte} {offset count : ℕ}

/-- `count` bytes of a buffer, from an offset. -/
def load (buffer : List Byte) (offset count : ℕ) : Run (List.Vector Byte count) :=
  if hinside : offset + count ≤ buffer.length then
    .ok ⟨(buffer.drop offset).take count, by rw [List.length_take, List.length_drop]; omega⟩
  else .error .outOfBounds

theorem load_eq_ok_iff {loaded : List.Vector Byte count} :
    load buffer offset count = .ok loaded ↔
      offset + count ≤ buffer.length ∧ loaded.toList = (buffer.drop offset).take count := by
  rw [load]
  split_ifs with hinside
  · constructor
    · intro hload
      obtain rfl := Except.ok.inj hload
      exact ⟨hinside, rfl⟩
    · rintro ⟨_, hbytes⟩
      exact congrArg Except.ok (List.Vector.eq _ _ hbytes.symm)
  · exact iff_of_false (by simp) fun hload => hinside hload.1

theorem exists_load (buffer : List Byte) (hinside : offset + count ≤ buffer.length) :
    ∃ loaded, load buffer offset count = .ok loaded ∧
      loaded.toList = (buffer.drop offset).take count := by
  refine ⟨⟨(buffer.drop offset).take count, ?_⟩, load_eq_ok_iff.mpr ⟨hinside, rfl⟩, rfl⟩
  rw [List.length_take, List.length_drop]
  omega

theorem load_one (hinside : offset < buffer.length) :
    load buffer offset 1 = .ok (List.Vector.cons buffer[offset] .nil) :=
  load_eq_ok_iff.mpr ⟨hinside, (List.take_one_drop_eq_of_lt_length hinside).symm⟩

theorem load_between (before : List Byte) (loaded : List.Vector Byte count) (after : List Byte)
    (hoffset : before.length = offset) :
    load (before ++ (loaded.toList ++ after)) offset count = .ok loaded := by
  refine load_eq_ok_iff.mpr ⟨?_, ?_⟩
  · simp only [List.length_append, List.Vector.toList_length]
    omega
  · rw [List.drop_left' hoffset, List.take_left' loaded.toList_length]

theorem load_of_lt (houtside : buffer.length < offset + count) :
    load buffer offset count = .error .outOfBounds :=
  dif_neg (by omega)

/-- The buffer with `bytes` written over it from an offset on. -/
def store (buffer : List Byte) (offset : ℕ) (bytes : List Byte) : Run (List Byte) :=
  if offset + bytes.length ≤ buffer.length then
    .ok (buffer.take offset ++ bytes ++ buffer.drop (offset + bytes.length))
  else .error .outOfBounds

theorem store_of_le (hinside : offset + bytes.length ≤ buffer.length) :
    store buffer offset bytes =
      .ok (buffer.take offset ++ bytes ++ buffer.drop (offset + bytes.length)) :=
  if_pos hinside

theorem store_eq_ok {buffer' : List Byte} (hstore : store buffer offset bytes = .ok buffer') :
    buffer' = buffer.take offset ++ bytes ++ buffer.drop (offset + bytes.length) ∧
      buffer'.length = buffer.length := by
  rw [store] at hstore
  split_ifs at hstore with hinside
  obtain rfl := Except.ok.inj hstore
  refine ⟨rfl, ?_⟩
  simp only [List.length_append, List.length_take, List.length_drop]
  omega

theorem store_between (before : List Byte) {old : List Byte} (after : List Byte)
    (hoffset : before.length = offset) (hlength : old.length = bytes.length) :
    store (before ++ (old ++ after)) offset bytes = .ok (before ++ (bytes ++ after)) := by
  have hinside : offset + bytes.length ≤ (before ++ (old ++ after)).length := by
    simp only [List.length_append]
    omega
  rw [store_of_le hinside, List.take_left' hoffset, ← List.drop_drop, List.drop_left' hoffset,
    List.drop_left' hlength, List.append_assoc]

theorem store_nil (hinside : offset ≤ buffer.length) : store buffer offset [] = .ok buffer := by
  rw [store_of_le hinside, List.append_nil]
  exact congrArg Except.ok (List.take_append_drop offset buffer)

/-- Bytes are stored at once as they are one behind the other. -/
theorem store_append (buffer : List Byte) (offset : ℕ) (bytes more : List Byte) :
    store buffer offset (bytes ++ more) =
      store buffer offset bytes >>= fun buffer => store buffer (offset + bytes.length) more := by
  by_cases hfirst : offset + bytes.length ≤ buffer.length
  · have htaken : (buffer.take offset ++ bytes).length = offset + bytes.length := by
      rw [List.length_append, List.length_take]
      omega
    have hlength : (buffer.take offset ++ bytes ++ buffer.drop (offset + bytes.length)).length =
        buffer.length := by
      rw [List.length_append, htaken, List.length_drop]
      omega
    have hdrop : (buffer.take offset ++ bytes ++ buffer.drop (offset + bytes.length)).drop
        (offset + bytes.length + more.length) =
          buffer.drop (offset + bytes.length + more.length) := by
      rw [← List.drop_drop, List.drop_left' htaken, List.drop_drop]
    rw [store_of_le hfirst, ok_bind, store, store, hlength, hdrop, List.take_left' htaken,
      List.length_append, Nat.add_assoc, List.append_assoc _ bytes more]
  · have hall : ¬ offset + (bytes ++ more).length ≤ buffer.length := by
      rw [List.length_append]
      omega
    rw [store, if_neg hall, store, if_neg hfirst, error_bind]

/-- `snprintf` of the formatted bytes at an offset: what fits into `size` bytes
with a NUL behind it is written.  The length of the whole text is returned, or
-1 where it is not an `int`. -/
def snprintf (buffer : List Byte) (offset size : ℕ) (text : List Byte) : Run (ℤ × List Byte) := do
  let buffer ← if size = 0 then .ok buffer else store buffer offset (text.take (size - 1) ++ [0])
  .ok (if text.length < 2 ^ 31 then text.length else -1, buffer)

section Snprintf

variable {size : ℕ} {text : List Byte}

/-- With room for one byte, the NUL is written. -/
theorem snprintf_eq (hinside : offset + size ≤ buffer.length) (hsize : size ≠ 0) :
    ∃ rest, snprintf buffer offset size text =
        .ok (if text.length < 2 ^ 31 then text.length else -1,
          buffer.take offset ++ text.take (size - 1) ++ 0 :: rest) ∧
      offset + (text.take (size - 1)).length + 1 + rest.length = buffer.length := by
  have hwritten : offset + (text.take (size - 1) ++ [0]).length ≤ buffer.length := by
    rw [List.length_append, List.length_take, List.length_singleton]
    omega
  refine ⟨buffer.drop (offset + (text.take (size - 1) ++ [0]).length), ?_, ?_⟩
  · rw [snprintf, if_neg hsize, store_of_le hwritten, ok_bind]
    simp
  · rw [List.length_drop]
    rw [List.length_append, List.length_singleton] at hwritten ⊢
    omega

theorem snprintf_zero :
    snprintf buffer offset 0 text =
      .ok (if text.length < 2 ^ 31 then text.length else -1, buffer) := rfl

theorem snprintf_outside (houtside : buffer.length < offset + 1) (hsize : size ≠ 0) :
    snprintf buffer offset size text = .error .outOfBounds := by
  have hlength : buffer.length < offset + (text.take (size - 1) ++ [0]).length := by
    rw [List.length_append, List.length_singleton]
    omega
  rw [snprintf, if_neg hsize, store, if_neg (by omega)]
  rfl

end Snprintf

/-! ## Big-endian numbers -/

/-- The bytes of a `uint16_t`, most significant first. -/
def htobe16 (value : UInt16) : List Byte :=
  [UInt8.ofNat (value.toNat / 256), UInt8.ofNat (value.toNat % 256)]

def be16toh (high low : Byte) : UInt16 := UInt16.ofNat (256 * high.toNat + low.toNat)

theorem be16toh_toNat (high low : Byte) :
    (be16toh high low).toNat = 256 * high.toNat + low.toNat := by
  have := high.toNat_lt
  have := low.toNat_lt
  rw [be16toh, UInt16.toNat_ofNat', Nat.mod_eq_of_lt (by omega)]

theorem be16toh_htobe16 (value : UInt16) :
    be16toh (UInt8.ofNat (value.toNat / 256)) (UInt8.ofNat (value.toNat % 256)) = value := by
  have hvalue := value.toNat_lt
  rw [← UInt16.toNat_inj, be16toh_toNat, UInt8.toNat_ofNat', UInt8.toNat_ofNat']
  omega

theorem htobe16_injective : Function.Injective htobe16 := by
  intro left right heq
  rw [← be16toh_htobe16 left, ← be16toh_htobe16 right]
  obtain ⟨hhigh, hrest⟩ := List.cons.inj heq
  obtain ⟨hlow, _⟩ := List.cons.inj hrest
  rw [hhigh, hlow]

def bufbe16toh (buffer : List Byte) (offset : ℕ) : Run UInt16 := do
  let bytes ← load buffer offset 2
  .ok (be16toh (bytes.get 0) (bytes.get 1))

end I2pLite.Memory
