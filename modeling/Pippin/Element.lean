import Pippin.ClassifierData

/-! # The element codec: `impl ElementT for Sequence`

    `write_buf` stores a `Sequence` as its values alone, each by
    `write_f64::<LittleEndian>`: eight bytes a value, with no count and no tag.  `read_buf`
    refuses a buffer whose length is not a multiple of `R_SIZE = 8`, and otherwise reads
    `len / 8` values back by `read_f64::<LittleEndian>`.  `byteorder` moves an `f64`
    through its bits (`to_bits`, `from_bits`), so the model keeps each value as its bit
    pattern.

    * `writeF64s_logged`: whatever the writer, a `write_buf` that succeeds has handed it
      the bytes of every value, in order.
    * `exists_u64s_of_length`: every buffer whose length is a multiple of 8 encodes some
      values, so `read_buf` fails on the length check alone. -/

namespace Pippin

variable {ω : Type}

/-- `R_SIZE`: the bytes of one value. -/
def rSize : Nat := 8

/-- The loop of `Sequence::write_buf`: `write_f64::<LittleEndian>` of each value, which
    `byteorder` writes by `write_all`. -/
def writeF64s (wr : Writer ω) : List UInt64 → ω → Except Error ω
  | [], w => .ok w
  | x :: xs, w => do
    let w ← wr.writeAll w (u64Bytes x)
    writeF64s wr xs w

/-- `Sequence::write_buf`. -/
def Sequence.writeBuf (wr : Writer ω) (seq : Sequence) (w : ω) : Except Error ω :=
  writeF64s wr seq.v w

/-- The loop of `Sequence::read_buf`: `n` times `read_f64::<LittleEndian>` from the cursor
    `r`, each value pushed onto `v`. -/
def readF64s : Nat → List UInt8 → List UInt64 → Except Error (List UInt64)
  | 0, _, v => .ok v
  | n + 1, r, v => do
    let (x, r) ← readU64 r
    readF64s n r (v ++ [x])

/-- `Sequence::read_buf`. -/
def Sequence.readBuf (buf : List UInt8) : Except Error Sequence :=
  if buf.length % rSize ≠ 0 then .error (.other "invalid data length for a Sequence") else
  (readF64s (buf.length / rSize) buf []).map fun v => ⟨v⟩

/-! ## Writing -/

@[simp] theorem length_flatten_u64Bytes (xs : List UInt64) :
    (xs.map u64Bytes).flatten.length = 8 * xs.length := by
  induction xs with
  | nil => rfl
  | cons x xs ih =>
      simp only [List.map_cons, List.flatten_cons, List.length_append, length_u64Bytes, ih,
        List.length_cons]
      omega

theorem writeF64s_vecWriter (xs : List UInt64) (v : List UInt8) :
    writeF64s vecWriter xs v = .ok (v ++ (xs.map u64Bytes).flatten) := by
  induction xs generalizing v with
  | nil => simp [writeF64s]
  | cons x xs ih =>
      simp only [writeF64s, vecWriter_writeAll, bind, Except.bind, ih, List.map_cons,
        List.flatten_cons, List.append_assoc]

/-- What any writer has received when the loop of `write_buf` succeeds: the bytes of every
    value, in order. -/
theorem writeF64s_logged (wr : Writer ω) (xs : List UInt64) {w w' : ω} {log log' : List UInt8}
    (h : writeF64s wr.logged xs (w, log) = .ok (w', log')) :
    log' = log ++ (xs.map u64Bytes).flatten := by
  induction xs generalizing w log with
  | nil => cases h; simp
  | cons x xs ih =>
      obtain ⟨⟨w₁, log₁⟩, h₁, h₂⟩ := bind_eq_ok h
      rw [ih h₂, writeAll_logged wr h₁, List.map_cons, List.flatten_cons, List.append_assoc]

/-! ## Reading -/

theorem readF64s_u64Bytes (xs : List UInt64) (rest : List UInt8) (v : List UInt64) :
    readF64s xs.length ((xs.map u64Bytes).flatten ++ rest) v = .ok (v ++ xs) := by
  induction xs generalizing v with
  | nil => simp [readF64s]
  | cons x xs ih =>
      simp only [List.length_cons, readF64s, List.map_cons, List.flatten_cons, List.append_assoc,
        readU64_u64Bytes, bind, Except.bind, ih, List.singleton_append]

theorem readBuf_u64Bytes (xs : List UInt64) :
    Sequence.readBuf (xs.map u64Bytes).flatten = .ok ⟨xs⟩ := by
  have h := readF64s_u64Bytes xs [] []
  rw [List.append_nil, List.nil_append] at h
  simp only [Sequence.readBuf, length_flatten_u64Bytes, rSize, Nat.mul_mod_right, ne_eq,
    not_true_eq_false, if_false, Nat.mul_div_cancel_left _ (show 0 < 8 by decide), h]
  rfl

/-- Every buffer of `8 * n` bytes is the encoding of `n` values. -/
theorem exists_u64s_of_length {n : Nat} {r : List UInt8} (h : r.length = 8 * n) :
    ∃ xs : List UInt64, xs.length = n ∧ (xs.map u64Bytes).flatten = r := by
  induction n generalizing r with
  | zero => exact ⟨[], rfl, (List.eq_nil_of_length_eq_zero h).symm⟩
  | succ n ih =>
      obtain ⟨xs, hxs, hr⟩ := ih (r := r.drop 8) (by simp only [List.length_drop, h]; omega)
      refine ⟨(leValue (r.take 8)).toUInt64 :: xs, by simp [hxs], ?_⟩
      rw [List.map_cons, List.flatten_cons, u64Bytes_leValue (by simp only [List.length_take, h]; omega),
        hr, List.take_append_drop]

/-- **ELEMENT CODEC**: `read_buf` reads back, bit for bit, the `8 * |v|` bytes that
    `write_buf` writes for a sequence, and those bytes are all that any writer receives
    when `write_buf` succeeds.  `read_buf` fails exactly on a buffer whose length is not a
    multiple of 8; on any other buffer, `write_buf` of what it reads writes the buffer
    again. -/
theorem sequence_codec_round_trip :
    (∀ s : Sequence, ∃ bytes, s.writeBuf vecWriter [] = .ok bytes ∧
      bytes.length = 8 * s.v.length ∧ Sequence.readBuf bytes = .ok s ∧
      ∀ {ω : Type} (wr : Writer ω) (w w' : ω) (log' : List UInt8),
        s.writeBuf wr.logged (w, []) = .ok (w', log') → log' = bytes) ∧
    ∀ b : List UInt8, ((∃ e, Sequence.readBuf b = .error e) ↔ b.length % 8 ≠ 0) ∧
      (b.length % 8 = 0 → ∃ s, Sequence.readBuf b = .ok s ∧ s.writeBuf vecWriter [] = .ok b) := by
  refine ⟨fun s => ⟨_, writeF64s_vecWriter s.v [], length_flatten_u64Bytes s.v,
    readBuf_u64Bytes s.v, fun wr _ _ _ h => writeF64s_logged wr s.v h⟩, fun b => ?_⟩
  by_cases hb : b.length % 8 = 0
  · obtain ⟨xs, -, rfl⟩ := exists_u64s_of_length (n := b.length / 8) (r := b) (by omega)
    refine ⟨⟨fun ⟨e, he⟩ => ?_, fun h => absurd hb h⟩,
      fun _ => ⟨⟨xs⟩, readBuf_u64Bytes xs, writeF64s_vecWriter xs []⟩⟩
    rw [readBuf_u64Bytes] at he
    cases he
  · refine ⟨⟨fun _ => hb, fun _ => ⟨.other "invalid data length for a Sequence", ?_⟩⟩,
      fun h => absurd h hb⟩
    simp only [Sequence.readBuf, rSize, ne_eq, hb, not_false_eq_true, if_true]

end Pippin
