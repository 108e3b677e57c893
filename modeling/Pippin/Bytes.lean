import Pippin.Basic
import Mathlib.Algebra.Order.Group.Nat

/-! # Little-endian integers, as `byteorder` writes and reads them

    `write_u32::<LittleEndian>` and `write_u64::<LittleEndian>` emit a value's bytes least
    significant first; `read_u32` and `read_u64` on a `&mut &[u8]` take as many bytes off
    the front of the slice and fail with `UnexpectedEof` when fewer remain.  The
    round-trip laws `readU32_u32Bytes` and `readU64_u64Bytes` are what `write_buf` and
    `read_buf` agree on, field by field. -/

namespace Pippin

/-- The `w` little-endian bytes of `n`; bits above `8 * w` are dropped. -/
def leBytes : Nat → Nat → List UInt8
  | 0, _ => []
  | w + 1, n => (n % 256).toUInt8 :: leBytes w (n / 256)

/-- The number with the little-endian bytes `bs`. -/
def leValue : List UInt8 → Nat
  | [] => 0
  | b :: bs => b.toNat + 256 * leValue bs

@[simp] theorem length_leBytes (w n : Nat) : (leBytes w n).length = w := by
  induction w generalizing n with
  | zero => rfl
  | succ w ih => simp [leBytes, ih]

theorem toNat_toUInt8_mod (n : Nat) : ((n % 256).toUInt8).toNat = n % 256 :=
  UInt8.toNat_ofNat_of_lt (Nat.mod_lt _ (by decide))

theorem leValue_leBytes (w n : Nat) : leValue (leBytes w n) = n % 256 ^ w := by
  induction w generalizing n with
  | zero => simp [leBytes, leValue, Nat.mod_one]
  | succ w ih =>
      rw [leBytes, leValue, ih, toNat_toUInt8_mod, pow_succ', Nat.mod_mul]

theorem leValue_lt (bs : List UInt8) : leValue bs < 256 ^ bs.length := by
  induction bs with
  | nil => simp [leValue]
  | cons b bs ih =>
      have := b.toNat_lt
      rw [leValue, List.length_cons, pow_succ']
      omega

/-- The reverse round trip: bytes to their number and back. -/
theorem leBytes_leValue (bs : List UInt8) : leBytes bs.length (leValue bs) = bs := by
  induction bs with
  | nil => rfl
  | cons b bs ih =>
      have hb := b.toNat_lt
      rw [List.length_cons, leBytes, leValue, Nat.add_mul_div_left _ _ (by decide),
        Nat.div_eq_of_lt hb, Nat.zero_add, ih, Nat.add_mul_mod_self_left, Nat.mod_eq_of_lt hb]
      congr
      exact UInt8.ext (UInt8.toNat_ofNat_of_lt hb)

/-- `write_u32::<LittleEndian>`. -/
def u32Bytes (x : UInt32) : List UInt8 := leBytes 4 x.toNat

/-- `write_u64::<LittleEndian>`. -/
def u64Bytes (x : UInt64) : List UInt8 := leBytes 8 x.toNat

@[simp] theorem length_u32Bytes (x : UInt32) : (u32Bytes x).length = 4 := length_leBytes _ _

@[simp] theorem length_u64Bytes (x : UInt64) : (u64Bytes x).length = 8 := length_leBytes _ _

/-- `read_u32::<LittleEndian>` on a slice cursor: the value and the rest of the slice. -/
def readU32 (r : List UInt8) : Except Error (UInt32 × List UInt8) :=
  if r.length < 4 then .error .unexpectedEof
  else .ok ((leValue (r.take 4)).toUInt32, r.drop 4)

/-- `read_u64::<LittleEndian>` on a slice cursor. -/
def readU64 (r : List UInt8) : Except Error (UInt64 × List UInt8) :=
  if r.length < 8 then .error .unexpectedEof
  else .ok ((leValue (r.take 8)).toUInt64, r.drop 8)

/-- **ROUND TRIP (u32)**: reading back what `write_u32` wrote. -/
theorem readU32_u32Bytes (x : UInt32) (rest : List UInt8) :
    readU32 (u32Bytes x ++ rest) = .ok (x, rest) := by
  have hx : x.toNat < 256 ^ 4 := x.toNat_lt
  have hv : (leValue (leBytes 4 x.toNat)).toUInt32 = x := by
    apply UInt32.ext
    rw [leValue_leBytes, Nat.mod_eq_of_lt hx]
    exact UInt32.toNat_ofNat_of_lt x.toNat_lt
  simp [readU32, u32Bytes, List.take_left', List.drop_left', hv]

/-- **ROUND TRIP (u64)**: reading back what `write_u64` wrote. -/
theorem readU64_u64Bytes (x : UInt64) (rest : List UInt8) :
    readU64 (u64Bytes x ++ rest) = .ok (x, rest) := by
  have hx : x.toNat < 256 ^ 8 := x.toNat_lt
  have hv : (leValue (leBytes 8 x.toNat)).toUInt64 = x := by
    apply UInt64.ext
    rw [leValue_leBytes, Nat.mod_eq_of_lt hx]
    exact UInt64.toNat_ofNat_of_lt x.toNat_lt
  simp [readU64, u64Bytes, List.take_left', List.drop_left', hv]

/-- Eight bytes are what `write_u64` writes for the value `read_u64` reads from them. -/
theorem u64Bytes_leValue {bs : List UInt8} (h : bs.length = 8) :
    u64Bytes (leValue bs).toUInt64 = bs := by
  have hlt : leValue bs < 256 ^ 8 := h ▸ leValue_lt bs
  rw [u64Bytes, show (leValue bs).toUInt64.toNat = leValue bs from
    UInt64.toNat_ofNat_of_lt hlt, ← h, leBytes_leValue]

/-- Four bytes are what `write_u32` writes for the value `read_u32` reads from them. -/
theorem u32Bytes_leValue {bs : List UInt8} (h : bs.length = 4) :
    u32Bytes (leValue bs).toUInt32 = bs := by
  have hlt : leValue bs < 256 ^ 4 := h ▸ leValue_lt bs
  rw [u32Bytes, show (leValue bs).toUInt32.toNat = leValue bs from
    UInt32.toNat_ofNat_of_lt hlt, ← h, leBytes_leValue]

/-- What a successful `read_u32` consumed: the bytes of its value. -/
theorem eq_of_readU32 {r r' : List UInt8} {x : UInt32} (h : readU32 r = .ok (x, r')) :
    r = u32Bytes x ++ r' := by
  unfold readU32 at h
  split_ifs at h with hl
  cases h
  rw [u32Bytes_leValue (by simp only [List.length_take]; omega), List.take_append_drop]

/-- What a successful `read_u64` consumed: the bytes of its value. -/
theorem eq_of_readU64 {r r' : List UInt8} {x : UInt64} (h : readU64 r = .ok (x, r')) :
    r = u64Bytes x ++ r' := by
  unfold readU64 at h
  split_ifs at h with hl
  cases h
  rw [u64Bytes_leValue (by simp only [List.length_take]; omega), List.take_append_drop]

/-- Comparisons of `u32`s are comparisons of their values. -/
theorem u32_lt_iff {a b : UInt32} : a < b ↔ a.toNat < b.toNat := .rfl

theorem u32_le_iff {a b : UInt32} : a ≤ b ↔ a.toNat ≤ b.toNat := .rfl

end Pippin
