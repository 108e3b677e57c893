import Pippin.Basic

/-! # The file header: `read_head`

    Every Pippin file starts with the magic `PIPPINSS20150924`, a 16-byte repository
    name, header sections of 16-byte blocks, and the block `HSUM SHA-2 256  ` naming the
    checksum.  `read_head` reads them through `fill`, which repeats `Read::read` until a
    buffer is full; the stream may hand over its bytes in chunks of any size.

    An `H` block is skipped.  A `Q` block carries a length code `x` and is meant to be
    followed by `16 * (x - 1)` further bytes; but `qbuf.reserve_exact(16 * x)` sets only
    the capacity of `qbuf`, so after `qbuf.extend(&buf)` the slice `qbuf[16..]` is empty
    and `fill` reads nothing: the bytes after a `Q` block are read as the next section.

    `fillAt`, `readSectionsAt` and `readHeadAt` take a reader standing before a stream and
    return the outcome with where the reader then stands, on error as well, since the
    caller's `&mut Read` keeps its position; `readSections` and `readHead` are what the
    code after them sees on success.

    * `fillAt_eq`: whatever the chunking, `fill` takes exactly the bytes asked for, or
      fails at the end of the stream.
    * `read_head_any_chunking`: `read_head` returns the same and stops at the same place
      under every chunking.
    * `readSections_append` and `exists_sectionsUpTo_of_readSections`: the section loop
      accepts exactly the byte strings of `SectionsUpTo`, the grammar the code parses. -/

namespace Pippin

/-- A finite byte stream read through `Read::read`.  `chunk s n` is how many bytes a read
    into a buffer of `n` bytes hands over while `s` remains: at least one while bytes
    remain, and never more than the buffer holds.  The checksum reader `SumReader`
    forwards reads unchanged. -/
structure Stream where
  chunk : List UInt8 → Nat → Nat
  chunk_pos : ∀ s n, s ≠ [] → 0 < n → 0 < chunk s n
  chunk_le : ∀ s n, chunk s n ≤ n

/-- A byte literal such as `b'H'`. -/
def byte (c : Char) : UInt8 := c.toNat.toUInt8

/-- `fill`, on a reader that stands before the stream `s`: read until the `n` bytes of the
    buffer are in; a read of no bytes is the end of the stream.  Returns the outcome and
    where the reader stands afterwards, on success and on error alike. -/
def Stream.fillAt (st : Stream) (s : List UInt8) (n : Nat) : Except Error (List UInt8) × List UInt8 :=
  if hn : n = 0 then (.ok [], s) else
  let k := (s.take (st.chunk s n)).length
  if hk : k = 0 then (.error (.invalidInput "corrupt (file terminates unexpectedly)"), s) else
  match st.fillAt (s.drop k) (n - k) with
  | (.error e, s') => (.error e, s')
  | (.ok rest, s') => (.ok (s.take k ++ rest), s')
termination_by n
decreasing_by omega

/-- **FILL**: `fill` takes the first `n` bytes of the stream, however the stream chunks
    them, or fails when fewer remain, having read the stream to its end. -/
theorem fillAt_eq (st : Stream) (s : List UInt8) (n : Nat) :
    st.fillAt s n = if n ≤ s.length then (.ok (s.take n), s.drop n)
      else (.error (.invalidInput "corrupt (file terminates unexpectedly)"), []) := by
  induction n using Nat.strong_induction_on generalizing s with
  | _ n ih =>
    rw [Stream.fillAt]
    by_cases hn : n = 0
    · subst hn; simp
    rw [dif_neg hn]
    have hle := st.chunk_le s n
    by_cases hk : (s.take (st.chunk s n)).length = 0
    · have hs : s = [] := by
        by_contra hs
        have := st.chunk_pos s n hs (Nat.pos_of_ne_zero hn)
        simp only [List.length_take] at hk
        have := List.length_pos.mpr hs
        omega
      subst hs
      simp [hn]
    · rw [dif_neg hk]
      set k := (s.take (st.chunk s n)).length with hk_def
      have hkn : k ≤ n := by simp only [hk_def, List.length_take]; omega
      have hks : k ≤ s.length := by simp only [hk_def, List.length_take]; omega
      rw [ih (n - k) (by omega)]
      by_cases hns : n ≤ s.length
      · have hrest : n - k ≤ (s.drop k).length := by simp only [List.length_drop]; omega
        simp only [if_pos hrest, if_pos hns, List.drop_drop, ← List.take_add]
        rw [Nat.add_sub_cancel' hkn]
      · have hrest : ¬ n - k ≤ (s.drop k).length := by simp only [List.length_drop]; omega
        simp only [if_neg hrest, if_neg hns]

theorem length_fillAt_ok {st : Stream} {s b s' : List UInt8} {n : Nat}
    (h : st.fillAt s n = (.ok b, s')) : s'.length + n = s.length := by
  rw [fillAt_eq] at h
  split_ifs at h
  · cases h; simp only [List.length_drop]; omega
  · cases h

/-- What the code after a read sees on success: the value read and the rest of the
    stream. -/
def withRest {α : Type} : Except Error α × List UInt8 → Except Error (α × List UInt8)
  | (r, s) => r.map fun a => (a, s)

@[simp] theorem withRest_ok {α : Type} (a : α) (s : List UInt8) :
    withRest (.ok a, s) = .ok (a, s) := rfl

@[simp] theorem withRest_error {α : Type} (e : Error) (s : List UInt8) :
    withRest ((.error e : Except Error α), s) = .error e := rfl

/-! ## `read_head` -/

/-- The length code `buf[1]` of a `Q` block: `b'0'..=b'9'` are 0 to 9, `b'A'..=b'Z'` are 10
    to 35. -/
def qLength (c : UInt8) : Option Nat :=
  if byte '0' ≤ c ∧ c ≤ byte '9' then some (c - byte '0').toNat
  else if byte 'A' ≤ c ∧ c ≤ byte 'Z' then some (c + 10 - byte 'A').toNat
  else none

/-- The magic `b"PIPPINSS20150924"`. -/
def pippinMagic : List UInt8 := ascii "PIPPINSS20150924"

/-- The block that ends the header: `HSUM` and the one checksum format read. -/
def hsumBlock : List UInt8 := ascii "HSUM SHA-2 256  "

/-- The `loop` of `read_head` over header sections, up to the `HSUM` block, and where the
    reader stands when it ends. -/
def Stream.readSectionsAt (st : Stream) (s : List UInt8) : Except Error Unit × List UInt8 :=
  match h : st.fillAt s 16 with
  | (.error e, s₁) => (.error e, s₁)
  | (.ok buf, s₁) =>
    if buf.getD 0 0 = byte 'H' then
      if buf.take 4 = ascii "HSUM" then
        if buf.drop 4 = ascii " SHA-2 256  " then (.ok (), s₁)
        else (.error (.invalidInput "unknown checksum format"), s₁)
      else st.readSectionsAt s₁
    else if buf.getD 0 0 = byte 'Q' then
      match qLength (buf.getD 1 0) with
      | none =>
        (.error (.invalidInput "header section Qx... has invalid length specification 'x'"), s₁)
      | some _ =>
        -- `qbuf.reserve_exact(16 * x)` sets only the capacity, and `qbuf.extend(&buf)` leaves
        -- the 16 bytes of `buf` in `qbuf`: `fill` gets the empty slice `qbuf[16..]`
        let qbuf : List UInt8 := [] ++ buf
        match h' : st.fillAt s₁ (qbuf.drop 16).length with
        | (.error e, s₂) => (.error e, s₂)
        | (.ok _, s₂) => st.readSectionsAt s₂
    else (.error (.invalidInput "unexpected header contents"), s₁)
termination_by s.length
decreasing_by
  all_goals simp_wf
  · have := length_fillAt_ok h; omega
  · have := length_fillAt_ok h; have := length_fillAt_ok h'; omega

/-- `read::read_head`: the repository name, and where the reader stands afterwards, on
    success and on error alike. -/
def Stream.readHeadAt (st : Stream) (s : List UInt8) : Except Error (List UInt8) × List UInt8 :=
  match st.fillAt s 16 with
  | (.error e, s) => (.error e, s)
  | (.ok buf, s) =>
    if buf ≠ pippinMagic then (.error (.invalidInput "not a known Pippin file format"), s) else
    match st.fillAt s 16 with
    | (.error e, s) => (.error e, s)
    | (.ok repoName, s) =>
      match st.readSectionsAt s with
      | (.error e, s) => (.error e, s)
      | (.ok (), s) => (.ok repoName, s)

/-- The section loop as the rest of `read_head` sees it: the rest of the stream on
    success. -/
def Stream.readSections (st : Stream) (s : List UInt8) : Except Error (List UInt8) :=
  (withRest (st.readSectionsAt s)).map Prod.snd

/-- `read_head` as its caller sees it on success: the repository name and the rest of the
    stream. -/
def Stream.readHead (st : Stream) (s : List UInt8) : Except Error (List UInt8 × List UInt8) :=
  withRest (st.readHeadAt s)

theorem fillAt_append {st : Stream} {b : List UInt8} (s : List UInt8) :
    st.fillAt (b ++ s) b.length = (.ok b, s) := by
  simp [fillAt_eq]

/-- One pass of the section loop, on a stream that starts with a 16-byte block. -/
theorem readSectionsAt_block (st : Stream) {b : List UInt8} (s : List UInt8) (hb : b.length = 16) :
    st.readSectionsAt (b ++ s) =
      if b.getD 0 0 = byte 'H' then
        if b.take 4 = ascii "HSUM" then
          if b.drop 4 = ascii " SHA-2 256  " then (.ok (), s)
          else (.error (.invalidInput "unknown checksum format"), s)
        else st.readSectionsAt s
      else if b.getD 0 0 = byte 'Q' then
        match qLength (b.getD 1 0) with
        | none =>
          (.error (.invalidInput "header section Qx... has invalid length specification 'x'"), s)
        | some _ => st.readSectionsAt s
      else (.error (.invalidInput "unexpected header contents"), s) := by
  rw [Stream.readSectionsAt]
  split
  · rename_i he
    rw [← hb, fillAt_append] at he
    cases he
  · rename_i he
    rw [← hb, fillAt_append] at he
    cases he
    split_ifs
    all_goals try rfl
    split
    · rfl
    · dsimp only
      split
      · rename_i he'
        simp [fillAt_eq, hb] at he'
      · rename_i he'
        simp only [fillAt_eq, List.nil_append, List.length_drop, hb, Nat.sub_self, Nat.zero_le,
          if_true, List.take_zero, List.drop_zero, Prod.mk.injEq] at he'
        rw [he'.2]

theorem readSections_block (st : Stream) {b : List UInt8} (s : List UInt8) (hb : b.length = 16) :
    st.readSections (b ++ s) =
      if b.getD 0 0 = byte 'H' then
        if b.take 4 = ascii "HSUM" then
          if b.drop 4 = ascii " SHA-2 256  " then .ok s
          else .error (.invalidInput "unknown checksum format")
        else st.readSections s
      else if b.getD 0 0 = byte 'Q' then
        match qLength (b.getD 1 0) with
        | none => .error (.invalidInput "header section Qx... has invalid length specification 'x'")
        | some _ => st.readSections s
      else .error (.invalidInput "unexpected header contents") := by
  rw [Stream.readSections, readSectionsAt_block st s hb]
  split_ifs <;> try rfl
  split <;> rfl

theorem readSectionsAt_short (st : Stream) {s : List UInt8} (hs : s.length < 16) :
    st.readSectionsAt s = (.error (.invalidInput "corrupt (file terminates unexpectedly)"), []) := by
  rw [Stream.readSectionsAt]
  split
  · rename_i he
    rw [fillAt_eq, if_neg (by omega)] at he
    cases he
    rfl
  · rename_i he
    rw [fillAt_eq, if_neg (by omega)] at he
    cases he

theorem readSections_short (st : Stream) {s : List UInt8} (hs : s.length < 16) :
    st.readSections s = .error (.invalidInput "corrupt (file terminates unexpectedly)") := by
  rw [Stream.readSections, readSectionsAt_short st hs]
  rfl

/-! ## What the section loop accepts -/

/-- The byte strings the section loop reads to its end: `H` blocks other than `HSUM`, and
    `Q` blocks with a valid length code, each of 16 bytes, then the `HSUM` block. -/
inductive SectionsUpTo : List UInt8 → Prop
  | hsum : SectionsUpTo hsumBlock
  | h {b rest : List UInt8} : b.length = 16 → b.getD 0 0 = byte 'H' → b.take 4 ≠ ascii "HSUM" →
      SectionsUpTo rest → SectionsUpTo (b ++ rest)
  | q {b rest : List UInt8} {x : Nat} : b.length = 16 → b.getD 0 0 = byte 'Q' →
      qLength (b.getD 1 0) = some x → SectionsUpTo rest → SectionsUpTo (b ++ rest)

/-- **SECTIONS (COMPLETE)**: the loop reads a string of `SectionsUpTo` and stops right
    after it. -/
theorem readSections_append (st : Stream) {hs : List UInt8} (h : SectionsUpTo hs)
    (rest : List UInt8) : st.readSections (hs ++ rest) = .ok rest := by
  induction h with
  | hsum =>
      rw [readSections_block st rest (by decide), if_pos (by decide), if_pos (by decide),
        if_pos (by decide)]
  | h hb hH hne _ ih =>
      rw [List.append_assoc, readSections_block st _ hb, if_pos hH, if_neg hne, ih]
  | q hb hQ hx _ ih =>
      have hH : ¬ _ = byte 'H' := fun h => absurd (hQ.symm.trans h) (by decide)
      rw [List.append_assoc, readSections_block st _ hb, if_neg hH, if_pos hQ, hx, ih]

theorem hsumBlock_of_take_drop {b : List UInt8} (h4 : b.take 4 = ascii "HSUM")
    (hd : b.drop 4 = ascii " SHA-2 256  ") : b = hsumBlock := by
  rw [← List.take_append_drop 4 b, h4, hd]
  rfl

/-- A stream of 16 bytes or more starts with a 16-byte block. -/
theorem exists_block {s : List UInt8} (hs : ¬ s.length < 16) :
    ∃ b s', b.length = 16 ∧ s = b ++ s' ∧ s'.length < s.length :=
  ⟨s.take 16, s.drop 16, by simp only [List.length_take]; omega,
    (List.take_append_drop 16 s).symm, by simp only [List.length_drop]; omega⟩

/-- **SECTIONS (SOUND)**: when the loop succeeds, it has read a string of `SectionsUpTo`. -/
theorem exists_sectionsUpTo_of_readSections {st : Stream} {s rest : List UInt8}
    (h : st.readSections s = .ok rest) : ∃ hs, s = hs ++ rest ∧ SectionsUpTo hs := by
  by_cases hshort : s.length < 16
  · rw [readSections_short st hshort] at h
    cases h
  obtain ⟨b, s', hb, rfl, hlt⟩ := exists_block hshort
  rw [readSections_block st s' hb] at h
  -- the two failing branches are closed by `split_ifs` itself
  split_ifs at h with hH h4 hd hQ
  · cases h
    exact ⟨b, rfl, by rw [hsumBlock_of_take_drop h4 hd]; exact .hsum⟩
  · obtain ⟨tail, rfl, htail⟩ := exists_sectionsUpTo_of_readSections h
    exact ⟨b ++ tail, (List.append_assoc ..).symm, .h hb hH h4 htail⟩
  · split at h
    · cases h
    · rename_i x hx
      obtain ⟨tail, rfl, htail⟩ := exists_sectionsUpTo_of_readSections h
      exact ⟨b ++ tail, (List.append_assoc ..).symm, .q hb hQ hx htail⟩
termination_by s.length

/-! ## What `read_head` accepts -/

@[simp] theorem length_pippinMagic : pippinMagic.length = 16 := rfl

@[simp] theorem length_hsumBlock : hsumBlock.length = 16 := rfl

theorem readHeadAt_magic (st : Stream) {name : List UInt8} (s : List UInt8)
    (hn : name.length = 16) :
    st.readHeadAt (pippinMagic ++ name ++ s) =
      match st.readSectionsAt s with
      | (.error e, s) => (.error e, s)
      | (.ok (), s) => (.ok name, s) := by
  have h1 : st.fillAt (pippinMagic ++ (name ++ s)) 16 = (.ok pippinMagic, name ++ s) :=
    fillAt_append _
  have h2 : st.fillAt (name ++ s) 16 = (.ok name, s) := hn ▸ fillAt_append s
  rw [Stream.readHeadAt, List.append_assoc, h1]
  simp only [ne_eq, not_true_eq_false, if_false, h2]

theorem readHead_magic (st : Stream) {name : List UInt8} (s : List UInt8) (hn : name.length = 16) :
    st.readHead (pippinMagic ++ name ++ s) = (st.readSections s).map fun r => (name, r) := by
  rw [Stream.readHead, readHeadAt_magic st s hn, Stream.readSections]
  rcases st.readSectionsAt s with ⟨_ | _, _⟩ <;> rfl

theorem readHead_ok_cases {st : Stream} {s name rest : List UInt8}
    (h : st.readHead s = .ok (name, rest)) :
    ∃ s', s = pippinMagic ++ name ++ s' ∧ name.length = 16 ∧ st.readSections s' = .ok rest := by
  rw [Stream.readHead, Stream.readHeadAt, fillAt_eq] at h
  by_cases h1 : 16 ≤ s.length
  swap
  · simp [h1] at h
  by_cases hm : s.take 16 = pippinMagic
  swap
  · simp [h1, hm] at h
  by_cases h2 : 16 ≤ s.length - 16
  swap
  · simp [h1, hm, fillAt_eq, h2] at h
  rcases hr : st.readSectionsAt (s.drop 32) with ⟨_ | _, s₃⟩ <;>
    simp [h1, hm, fillAt_eq, h2, hr] at h
  obtain ⟨rfl, rfl⟩ := h
  refine ⟨s.drop 32, ?_, by simp; omega, by rw [Stream.readSections, hr]; rfl⟩
  have h32 : s.drop 32 = (s.drop 16).drop 16 := by simp
  rw [← hm, h32, List.append_assoc, List.take_append_drop, List.take_append_drop]

/-- **HEAD**: `read_head` succeeds exactly on a stream that starts with the magic, a 16-byte
    name and a string of `SectionsUpTo`; it returns the name and the bytes after them. -/
theorem readHead_eq_ok_iff (st : Stream) (s name rest : List UInt8) :
    st.readHead s = .ok (name, rest) ↔
      ∃ hs, s = pippinMagic ++ name ++ hs ++ rest ∧ name.length = 16 ∧ SectionsUpTo hs := by
  constructor
  · intro h
    obtain ⟨s', rfl, hn, hr⟩ := readHead_ok_cases h
    obtain ⟨hs, rfl, hsec⟩ := exists_sectionsUpTo_of_readSections hr
    exact ⟨hs, by simp only [List.append_assoc], hn, hsec⟩
  · rintro ⟨hs, rfl, hn, hsec⟩
    rw [List.append_assoc _ hs, readHead_magic st _ hn, readSections_append st hsec]
    rfl

/-! ## Any chunking -/

/-- The section loop reads the same blocks and stops at the same place under any two
    chunkings of the stream. -/
theorem readSectionsAt_congr (st st' : Stream) (s : List UInt8) :
    st.readSectionsAt s = st'.readSectionsAt s := by
  by_cases hs : s.length < 16
  · rw [readSectionsAt_short st hs, readSectionsAt_short st' hs]
  obtain ⟨b, s', hb, rfl, hlt⟩ := exists_block hs
  rw [readSectionsAt_block st s' hb, readSectionsAt_block st' s' hb, readSectionsAt_congr st st' s']
termination_by s.length

theorem readHeadAt_congr (st st' : Stream) (s : List UInt8) :
    st.readHeadAt s = st'.readHeadAt s := by
  simp only [Stream.readHeadAt, fillAt_eq, readSectionsAt_congr st st']

/-- The reader that serves every request in full, as far as the stream goes. -/
def Stream.full : Stream where
  chunk _ n := n
  chunk_pos _ _ _ hn := hn
  chunk_le _ n := le_refl n

/-- **ANY CHUNKING**: whatever chunks a reader hands the stream over in, at least one byte
    per read while bytes remain and none at the end, `read_head` returns what it returns
    with the reader that serves every request in full, and leaves the reader at the same
    place, on success and on error.  Each `fill` on the way takes the next bytes asked
    for, or fails having read the stream to its end when fewer remain.  (A reader whose
    reads depend on its history is such a chunking too: `read_head` never reads twice at
    one place, since a read of no bytes ends it.) -/
theorem read_head_any_chunking (st : Stream) (s : List UInt8) :
    st.readHeadAt s = Stream.full.readHeadAt s ∧
      ∀ s' n, st.fillAt s' n = if n ≤ s'.length then (.ok (s'.take n), s'.drop n)
        else (.error (.invalidInput "corrupt (file terminates unexpectedly)"), []) :=
  ⟨readHeadAt_congr st Stream.full s, fillAt_eq st⟩

/-! ## Truncated streams -/

/-- A prefix of `b ++ rest` at least as long as `b` is `b` followed by a prefix of
    `rest`. -/
theorem eq_append_of_prefix {b p q rest : List UInt8} (hp : b.length ≤ p.length)
    (h : p ++ q = b ++ rest) : ∃ p', p = b ++ p' ∧ p' ++ q = rest := by
  have ht := congrArg (List.take b.length) h
  have hd := congrArg (List.drop b.length) h
  rw [List.take_append_of_le_length hp, List.take_left] at ht
  rw [List.drop_append_of_le_length hp, List.drop_left] at hd
  have hsplit := List.take_append_drop b.length p
  rw [ht] at hsplit
  exact ⟨_, hsplit.symm, hd⟩

/-- The section loop, on a stream cut before the end of a string of `SectionsUpTo`, runs
    off the end of the stream. -/
theorem readSectionsAt_truncated (st : Stream) {hs : List UInt8} (h : SectionsUpTo hs)
    {p q rest : List UInt8} (hpq : p ++ q = hs ++ rest) (hcut : rest.length < q.length) :
    st.readSectionsAt p =
      (.error (.invalidInput "corrupt (file terminates unexpectedly)"), []) := by
  by_cases hp : p.length < 16
  · exact readSectionsAt_short st hp
  induction h generalizing p with
  | hsum =>
      have hlen := congrArg List.length hpq
      simp only [List.length_append, length_hsumBlock] at hlen
      omega
  | @h b tail hb hH hne _ ih =>
      rw [List.append_assoc] at hpq
      obtain ⟨p', rfl, hpq'⟩ := eq_append_of_prefix (hb ▸ Nat.not_lt.mp hp) hpq
      rw [readSectionsAt_block st _ hb, if_pos hH, if_neg hne]
      by_cases hp' : p'.length < 16
      · exact readSectionsAt_short st hp'
      · exact ih hpq' hp'
  | @q b tail x hb hQ hx _ ih =>
      rw [List.append_assoc] at hpq
      obtain ⟨p', rfl, hpq'⟩ := eq_append_of_prefix (hb ▸ Nat.not_lt.mp hp) hpq
      have hH : ¬ b.getD 0 0 = byte 'H' := fun h => absurd (hQ.symm.trans h) (by decide)
      rw [readSectionsAt_block st _ hb, if_neg hH, if_pos hQ, hx]
      by_cases hp' : p'.length < 16
      · exact readSectionsAt_short st hp'
      · exact ih hpq' hp'

/-- **TRUNCATION**: cut a stream that `read_head` accepts anywhere before the end of its
    header, and `read_head` fails with `corrupt (file terminates unexpectedly)`, whatever
    the chunking, having read what is left of the stream to its end. -/
theorem read_head_detects_truncation (st : Stream) {s name rest p q : List UInt8}
    (h : st.readHead s = .ok (name, rest)) (hpq : p ++ q = s) (hcut : rest.length < q.length) :
    st.readHeadAt p = (.error (.invalidInput "corrupt (file terminates unexpectedly)"), []) := by
  obtain ⟨s', rfl, hn, hs'⟩ := readHead_ok_cases h
  obtain ⟨hs, rfl, hsec⟩ := exists_sectionsUpTo_of_readSections hs'
  rw [List.append_assoc] at hpq
  by_cases h1 : p.length < 16
  · simp [Stream.readHeadAt, fillAt_eq, Nat.not_le.mpr h1]
  obtain ⟨p₁, rfl, hpq₁⟩ := eq_append_of_prefix (Nat.not_lt.mp h1) hpq
  by_cases h2 : p₁.length < 16
  · simp [Stream.readHeadAt, fillAt_eq, Nat.not_le.mpr h2]
  obtain ⟨p₂, rfl, hpq₂⟩ := eq_append_of_prefix (hn ▸ Nat.not_lt.mp h2) hpq₁
  rw [← List.append_assoc, readHeadAt_magic st _ hn, readSectionsAt_truncated st hsec hpq₂ hcut]

/-- A header with no section but the `HSUM` block. -/
def bareHeader : List UInt8 := pippinMagic ++ List.replicate 16 0 ++ hsumBlock

/-- `bareHeader` cut 8 bytes before its end, inside the `HSUM` block. -/
theorem read_head_detects_truncation_bare :
    Stream.full.readHead bareHeader = .ok (List.replicate 16 0, []) ∧
      bareHeader.take 40 ++ bareHeader.drop 40 = bareHeader ∧
      ([] : List UInt8).length < (bareHeader.drop 40).length ∧
      Stream.full.readHeadAt (bareHeader.take 40) =
        (.error (.invalidInput "corrupt (file terminates unexpectedly)"), []) :=
  have h : Stream.full.readHead bareHeader = .ok (List.replicate 16 0, []) := by
    rw [bareHeader, readHead_magic _ _ (List.length_replicate _ _), ← List.append_nil hsumBlock,
      readSections_append _ .hsum]
    rfl
  ⟨h, List.take_append_drop _ _, by decide,
    read_head_detects_truncation _ h (List.take_append_drop _ _) (by decide)⟩

/-! ## The header the format describes -/

/-- A header section as the file format describes it: an `H` block other than `HSUM`, or a
    `Q` block whose length code has value `x`, followed by `16 * (x - 1)` more bytes. -/
inductive HeaderSection : List UInt8 → Prop
  | h {b : List UInt8} : b.length = 16 → b.getD 0 0 = byte 'H' → b.take 4 ≠ ascii "HSUM" →
      HeaderSection b
  | q {b body : List UInt8} {x : Nat} : b.length = 16 → b.getD 0 0 = byte 'Q' →
      qLength (b.getD 1 0) = some x → body.length = 16 * (x - 1) → HeaderSection (b ++ body)

/-- A well-formed header: the magic, a 16-byte name, sections, and the `HSUM` block. -/
def WellFormedHeader (hd : List UInt8) : Prop :=
  ∃ (name : List UInt8) (secs : List (List UInt8)), name.length = 16 ∧
    (∀ sec ∈ secs, HeaderSection sec) ∧
    hd = pippinMagic ++ name ++ secs.flatten ++ hsumBlock

/-- A header with one `Q2` section, whose body is a block of zeros. -/
def q2Header : List UInt8 :=
  pippinMagic ++ List.replicate 16 0 ++ (byte 'Q' :: byte '2' :: List.replicate 14 0) ++
    List.replicate 16 0 ++ hsumBlock

/-- The body of a `Q2` section is read as a section of its own: `read_head` rejects this
    well-formed header, however the stream chunks it. -/
theorem read_head_rejects_q2_header (st : Stream) :
    WellFormedHeader q2Header ∧
      st.readHead q2Header = .error (.invalidInput "unexpected header contents") := by
  refine ⟨⟨List.replicate 16 0,
    [(byte 'Q' :: byte '2' :: List.replicate 14 0) ++ List.replicate 16 0], rfl, ?_, ?_⟩, ?_⟩
  · intro sec hsec
    rw [List.mem_singleton.mp hsec]
    exact @HeaderSection.q _ _ 2 rfl (by decide) (by decide) rfl
  · simp only [q2Header, List.flatten_cons, List.flatten_nil, List.append_nil, List.append_assoc]
  · have hq : qLength (byte '2') = some 2 := by decide
    rw [q2Header, List.append_assoc (pippinMagic ++ _ ++ _), List.append_assoc (pippinMagic ++ _),
      readHead_magic st _ (List.length_replicate _ _), readSections_block st _ (by simp),
      if_neg (by decide)]
    simp only [List.getD_cons_succ, List.getD_cons_zero, if_true, hq]
    rw [readSections_block st _ (List.length_replicate _ _), if_neg (by decide), if_neg (by decide)]
    rfl

end Pippin
