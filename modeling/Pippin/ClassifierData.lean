import Pippin.Bytes
import Pippin.Repo

/-! # The classifier data block: `write_buf` and `read_buf`

    Every partition file carries the whole routing table: the tag `SeqCSF01`, the number
    of entries as a `u32`, then per entry two `PartId`s as `u64` (the key and
    `max_part_id`) and `ver`, `min_len`, `max_len` as `u32`, all little-endian.
    `write_buf` emits it through any `Write`; `read_buf` checks length, tag and count,
    then decodes record after record and merges each into `parts`, an incoming record
    replacing a stored one only when its version is strictly greater.

    * `writeBuf_vecWriter`: into a `Vec<u8>`, `write_buf` writes `classifierBytes`.
    * `readRecords_eq`: the record loop merges exactly the records decoded before the
      first failing one (`decodeRecords`), failing or not.
    * `lookup_foldl_mergeEntry` and `isFirstMaxVer_foldl_keepNewer`: after merging,
      each identifier holds the first record of greatest version among its stored entry
      and its incoming records. -/

namespace Pippin

variable {σ ω : Type}

/-! ## Writers and `write_buf` -/

/-- A byte sink behind `std::io::Write`, with state `ω`: `write w bs` takes a prefix of
    `bs` and reports its length. -/
structure Writer (ω : Type) where
  write : ω → List UInt8 → Except Error (Nat × ω)
  write_le : ∀ {w bs n w'}, write w bs = .ok (n, w') → n ≤ bs.length

/-- `Write::write_all`: write until the whole buffer is taken; a write that takes
    nothing is a `WriteZero` error.  (The writers here never report `Interrupted`,
    which `write_all` would retry.) -/
def Writer.writeAll (wr : Writer ω) (w : ω) (buf : List UInt8) : Except Error ω :=
  if hb : buf = [] then .ok w else
  match wr.write w buf with
  | .error e => .error e
  | .ok (n, w') => if hn : n = 0 then .error .writeZero else wr.writeAll w' (buf.drop n)
termination_by buf.length
decreasing_by
  simp only [List.length_drop]
  have := List.length_pos.mpr hb
  omega

/-- `Vec<u8>` as a writer: every write appends the whole buffer. -/
def vecWriter : Writer (List UInt8) where
  write v bs := .ok (bs.length, v ++ bs)
  write_le h := by cases h; exact le_refl _

theorem vecWriter_writeAll (v buf : List UInt8) : vecWriter.writeAll v buf = .ok (v ++ buf) := by
  rw [Writer.writeAll]
  split
  · subst_vars; simp
  · rename_i hb
    simp only [vecWriter, dif_neg (fun h => hb (List.length_eq_zero.mp h))]
    rw [Writer.writeAll, dif_pos (by simp)]

/-- Peeling one step off a computation that succeeded. -/
theorem bind_eq_ok {α β : Type} {x : Except Error α} {f : α → Except Error β} {b : β}
    (h : x >>= f = .ok b) : ∃ a, x = .ok a ∧ f a = .ok b := by
  cases x with
  | error e => cases h
  | ok a => exact ⟨a, rfl, h⟩

/-- A writer that also keeps every byte it has taken, in order: what it has received. -/
def Writer.logged (wr : Writer ω) : Writer (ω × List UInt8) where
  write wl bs := (wr.write wl.1 bs).map fun r => (r.1, (r.2, wl.2 ++ bs.take r.1))
  write_le {wl bs _ _} h := by
    dsimp only at h
    cases hw : wr.write wl.1 bs with
    | error e => rw [hw] at h; cases h
    | ok r => rw [hw] at h; cases h; exact wr.write_le hw

@[simp] theorem logged_write (wr : Writer ω) (w : ω) (log bs : List UInt8) :
    wr.logged.write (w, log) bs = (wr.write w bs).map fun r => (r.1, (r.2, log ++ bs.take r.1)) :=
  rfl

/-- **WRITE ALL**: when `write_all` succeeds, the writer has received the whole buffer. -/
theorem writeAll_logged (wr : Writer ω) {w w' : ω} {log log' buf : List UInt8}
    (h : wr.logged.writeAll (w, log) buf = .ok (w', log')) : log' = log ++ buf := by
  obtain ⟨m, hm⟩ : ∃ m, buf.length = m := ⟨_, rfl⟩
  induction m using Nat.strong_induction_on generalizing w log buf with
  | _ m ih =>
    rw [Writer.writeAll] at h
    by_cases hb : buf = []
    · rw [dif_pos hb] at h
      cases h
      simp [hb]
    rw [dif_neg hb] at h
    rw [logged_write] at h
    cases hw : wr.write w buf with
    | error e => rw [hw] at h; cases h
    | ok r =>
      obtain ⟨n, w₁⟩ := r
      simp only [hw, Except.map] at h
      split_ifs at h with hn
      have hlt : (buf.drop n).length < m := by
        have := List.length_pos.mpr hb
        simp only [List.length_drop]; omega
      rw [ih _ hlt h rfl, List.append_assoc, List.take_append_drop]

/-- The logged writer does what the writer does, and logs the whole buffer. -/
theorem writeAll_logged_of_writeAll (wr : Writer ω) {w w' : ω} {buf : List UInt8}
    (h : wr.writeAll w buf = .ok w') (log : List UInt8) :
    wr.logged.writeAll (w, log) buf = .ok (w', log ++ buf) := by
  rw [Writer.writeAll] at h ⊢
  by_cases hb : buf = []
  · rw [dif_pos hb] at h ⊢
    cases h
    simp [hb]
  rw [dif_neg hb] at h ⊢
  rw [logged_write]
  cases hw : wr.write w buf with
  | error e => rw [hw] at h; cases h
  | ok r =>
    obtain ⟨n, w₁⟩ := r
    rw [hw] at h
    simp only [Except.map]
    dsimp only at h ⊢
    by_cases hn : n = 0
    · rw [dif_pos hn] at h; cases h
    rw [dif_neg hn] at h ⊢
    have : (buf.drop n).length < buf.length := by
      have := List.length_pos.mpr hb
      simp only [List.length_drop]; omega
    rw [writeAll_logged_of_writeAll wr h, List.append_assoc, List.take_append_drop]
termination_by buf.length

/-- The `u64` form of a `PartId`, as `write_u64` gets it from `(*part_id).into()`. -/
def recordBytes (S : PartIdSpace) (k : PartId) (r : PartInfo) : List UInt8 :=
  u64Bytes (S.toU64 k) ++ u64Bytes (S.toU64 r.maxPartId) ++ u32Bytes r.ver ++
    u32Bytes r.minLen ++ u32Bytes r.maxLen

/-- The format tag `b"SeqCSF01"`. -/
def seqCsfTag : List UInt8 := ascii "SeqCSF01"

/-- The classifier data block of a map, records in the map's iteration order. -/
def classifierBytes (S : PartIdSpace) (parts : PartMap) : List UInt8 :=
  seqCsfTag ++ u32Bytes parts.entries.length.toUInt32 ++
    (parts.entries.map fun e => recordBytes S e.1 e.2).flatten

/-- The record loop of `write_buf`, one entry after another. -/
def writeEntries (S : PartIdSpace) (wr : Writer ω) :
    List (Σ _ : PartId, PartInfo) → ω → Except Error ω
  | [], w => .ok w
  | e :: es, w => do
    let w ← wr.writeAll w (u64Bytes (S.toU64 e.1))
    let w ← wr.writeAll w (u64Bytes (S.toU64 e.2.maxPartId))
    let w ← wr.writeAll w (u32Bytes e.2.ver)
    let w ← wr.writeAll w (u32Bytes e.2.minLen)
    let w ← wr.writeAll w (u32Bytes e.2.maxLen)
    writeEntries S wr es w

/-- `SeqRepo::write_buf`: the tag by one plain `write` (whose count is dropped), then the
    number of entries and the records by `write_all`; `none` where
    `assert!(self.parts.len() <= u32::MAX as usize)` fails. -/
def SeqRepo.writeBuf (S : PartIdSpace) (wr : Writer ω) (repo : SeqRepo σ) (w : ω) :
    Option (Except Error ω) :=
  match wr.write w seqCsfTag with
  | .error e => some (.error e)
  | .ok (_, w) =>
    if repo.parts.entries.length ≤ u32Max then
      some (do
        let w ← wr.writeAll w (u32Bytes repo.parts.entries.length.toUInt32)
        writeEntries S wr repo.parts.entries w)
    else none

/-- The record loop into a writer whose `write_all` appends the whole buffer. -/
theorem writeEntries_of_writeAll {wr : Writer (List UInt8)}
    (hwa : ∀ v buf, wr.writeAll v buf = .ok (v ++ buf)) (S : PartIdSpace)
    (es : List (Σ _ : PartId, PartInfo)) (v : List UInt8) :
    writeEntries S wr es v = .ok (v ++ (es.map fun e => recordBytes S e.1 e.2).flatten) := by
  induction es generalizing v with
  | nil => simp [writeEntries]
  | cons e es ih =>
      simp only [writeEntries, hwa, bind, Except.bind, ih, recordBytes, List.map_cons,
        List.flatten_cons, List.append_assoc]

theorem writeEntries_vecWriter (S : PartIdSpace) (es : List (Σ _ : PartId, PartInfo))
    (v : List UInt8) :
    writeEntries S vecWriter es v = .ok (v ++ (es.map fun e => recordBytes S e.1 e.2).flatten) :=
  writeEntries_of_writeAll vecWriter_writeAll S es v

/-- **WRITE INTO A `Vec<u8>`**: `write_buf` appends the classifier data block. -/
theorem writeBuf_vecWriter (S : PartIdSpace) (repo : SeqRepo σ) (v : List UInt8)
    (hlen : repo.parts.entries.length ≤ u32Max) :
    repo.writeBuf S vecWriter v = some (.ok (v ++ classifierBytes S repo.parts)) := by
  simp only [SeqRepo.writeBuf, vecWriter, if_pos hlen, classifierBytes]
  simp only [← vecWriter.eq_1, vecWriter_writeAll, bind, Except.bind, writeEntries_vecWriter,
    List.append_assoc]

@[simp] theorem length_recordBytes (S : PartIdSpace) (k : PartId) (r : PartInfo) :
    (recordBytes S k r).length = 28 := by
  simp [recordBytes]

/-! ## `read_buf` -/

/-- `PartId::try_from(x).ok_or(OtherError::new("Invalid PartId for classifier's read_buf()"))`. -/
def partIdOf (S : PartIdSpace) (u : UInt64) : Except Error PartId :=
  match S.tryFrom u with
  | some p => .ok p
  | none => .error (.other "Invalid PartId for classifier's read_buf()")

/-- One pass of the record loop of `read_buf`: the five reads, in the order `write_buf`
    writes them. -/
def readRecord (S : PartIdSpace) (r : List UInt8) :
    Except Error ((PartId × PartInfo) × List UInt8) := do
  let (u, r) ← readU64 r
  let partId ← partIdOf S u
  let (u, r) ← readU64 r
  let maxPartId ← partIdOf S u
  let (ver, r) ← readU32 r
  let (minLen, r) ← readU32 r
  let (maxLen, r) ← readU32 r
  return ((partId, { maxPartId, ver, minLen, maxLen }), r)

/-- The `match self.parts.entry(part_id)` of `read_buf`: a vacant entry takes the record, an
    occupied one only a record of strictly greater version. -/
def mergeRecord (parts : PartMap) (k : PartId) (info : PartInfo) : PartMap :=
  match parts.lookup k with
  | some e => if info.ver > e.ver then parts.insert k info else parts
  | none => parts.insert k info

/-- `mergeRecord` on a decoded record. -/
def mergeEntry (parts : PartMap) (x : PartId × PartInfo) : PartMap := mergeRecord parts x.1 x.2

/-- The loop `for _ in 0..n_parts`: decode and merge one record after another; the first
    failing read ends the loop with the records before it merged. -/
def readRecords (S : PartIdSpace) : Nat → List UInt8 → PartMap → Except Error Unit × PartMap
  | 0, _, parts => (.ok (), parts)
  | n + 1, r, parts =>
    match readRecord S r with
    | .error e => (.error e, parts)
    | .ok ((k, info), r) => readRecords S n r (mergeRecord parts k info)

/-- `SeqRepo::read_buf` (its partition argument is unused): the three checks on the block,
    then the record loop; `set_classifier` runs only when every record was read. -/
def SeqRepo.readBuf (S : PartIdSpace) (repo : SeqRepo σ) (buf : List UInt8) :
    Except Error Unit × SeqRepo σ :=
  if buf.length < 12 then
    (.error (.other "Insufficient data for classifier's read_buf()"), repo)
  else if buf.take 8 ≠ seqCsfTag then
    (.error (.other "Invalid format identifier for classifier's read_buf()"), repo)
  else
    match readU32 ((buf.drop 8).take 4) with
    | .error e => (.error e, repo)
    | .ok (n, _) =>
      if buf.length ≠ 12 + (8 * 2 + 4 * 3) * n.toNat then
        (.error (.other "Wrong data length for classifier's read_buf()"), repo)
      else
        match readRecords S n.toNat (buf.drop 12) repo.parts with
        | (.ok (), parts) => (.ok (), SeqRepo.setClassifier { repo with parts })
        | (.error e, parts) => (.error e, { repo with parts })

/-! ## The record loop, as decoding then merging -/

/-- The records the loop of `read_buf` decodes, in buffer order, and the error it stops
    at, if any. -/
def decodeRecords (S : PartIdSpace) : Nat → List UInt8 → List (PartId × PartInfo) × Option Error
  | 0, _ => ([], none)
  | n + 1, r =>
    match readRecord S r with
    | .error e => ([], some e)
    | .ok (x, r) => ((x :: (decodeRecords S n r).1), (decodeRecords S n r).2)

/-- **LOOP**: the record loop merges, in order, exactly the records decoded before the first
    failing read, and fails with that read's error. -/
theorem readRecords_eq (S : PartIdSpace) (n : Nat) (r : List UInt8) (parts : PartMap) :
    readRecords S n r parts =
      ((decodeRecords S n r).2.elim (.ok ()) .error, (decodeRecords S n r).1.foldl mergeEntry parts) := by
  induction n generalizing r parts with
  | zero => rfl
  | succ n ih =>
      simp only [readRecords, decodeRecords]
      cases readRecord S r with
      | error e => rfl
      | ok x => simp [ih, mergeEntry]

theorem partIdOf_of_tryFrom {S : PartIdSpace} {u : UInt64} {p : PartId} (h : S.tryFrom u = some p) :
    partIdOf S u = .ok p := by
  simp [partIdOf, h]

theorem readRecord_recordBytes {S : PartIdSpace} {k : PartId} {r : PartInfo}
    (hk : S.tryFrom (S.toU64 k) = some k) (hm : S.tryFrom (S.toU64 r.maxPartId) = some r.maxPartId)
    (rest : List UInt8) :
    readRecord S (recordBytes S k r ++ rest) = .ok ((k, r), rest) := by
  simp only [readRecord, recordBytes, List.append_assoc, readU64_u64Bytes, readU32_u32Bytes,
    partIdOf_of_tryFrom hk, partIdOf_of_tryFrom hm, bind, Except.bind, pure, Except.pure]

theorem tryFrom_of_partIdOf {S : PartIdSpace} {u : UInt64} {p : PartId}
    (h : partIdOf S u = .ok p) : S.tryFrom u = some p := by
  unfold partIdOf at h
  split at h
  · cases h; assumption
  · cases h

section Canonical

-- `PartId`'s `u64` form is canonical: `try_from` accepts only the `u64` forms of identifiers
variable {S : PartIdSpace} (hcanon : ∀ u p, S.tryFrom u = some p → S.toU64 p = u)
include hcanon

/-- What one pass of the record loop consumed: the bytes `write_buf` writes for the record
    it returns, whose identifiers `try_from` gives back. -/
theorem eq_of_readRecord {r r' : List UInt8} {x : PartId × PartInfo}
    (h : readRecord S r = .ok (x, r')) :
    r = recordBytes S x.1 x.2 ++ r' ∧ S.tryFrom (S.toU64 x.1) = some x.1 ∧
      S.tryFrom (S.toU64 x.2.maxPartId) = some x.2.maxPartId := by
  obtain ⟨⟨u₁, r₁⟩, h₁, h⟩ := bind_eq_ok h
  obtain ⟨k, hk, h⟩ := bind_eq_ok h
  obtain ⟨⟨u₂, r₂⟩, h₂, h⟩ := bind_eq_ok h
  obtain ⟨m, hm, h⟩ := bind_eq_ok h
  obtain ⟨⟨ver, r₃⟩, h₃, h⟩ := bind_eq_ok h
  obtain ⟨⟨lo, r₄⟩, h₄, h⟩ := bind_eq_ok h
  obtain ⟨⟨hi, r₅⟩, h₅, h⟩ := bind_eq_ok h
  cases h
  have hk' := tryFrom_of_partIdOf hk
  have hm' := tryFrom_of_partIdOf hm
  have hku := hcanon _ _ hk'
  have hmu := hcanon _ _ hm'
  refine ⟨?_, hku ▸ hk', hmu ▸ hm'⟩
  rw [eq_of_readU64 h₁, eq_of_readU64 h₂, eq_of_readU32 h₃, eq_of_readU32 h₄, eq_of_readU32 h₅]
  simp only [recordBytes, List.append_assoc, hku, hmu]

/-- Where no read failed and there are 28 bytes per record, the loop decoded `n` records
    with valid identifiers, and the bytes are theirs, in order. -/
theorem decodeRecords_complete {n : Nat} {r : List UInt8} (he : (decodeRecords S n r).2 = none)
    (hl : r.length = 28 * n) :
    (decodeRecords S n r).1.length = n ∧
      (∀ x ∈ (decodeRecords S n r).1, S.tryFrom (S.toU64 x.1) = some x.1 ∧
        S.tryFrom (S.toU64 x.2.maxPartId) = some x.2.maxPartId) ∧
      r = ((decodeRecords S n r).1.map fun x => recordBytes S x.1 x.2).flatten := by
  induction n generalizing r with
  | zero => exact ⟨rfl, fun _ h => (by cases h), List.eq_nil_of_length_eq_zero hl⟩
  | succ n ih =>
      simp only [decodeRecords] at he ⊢
      cases hr : readRecord S r with
      | error e => rw [hr] at he; cases he
      | ok y =>
          obtain ⟨x, r'⟩ := y
          rw [hr] at he
          dsimp only at he ⊢
          obtain ⟨hx, hvalid⟩ := eq_of_readRecord hcanon hr
          have hl' : r'.length = 28 * n := by
            rw [hx, List.length_append, length_recordBytes] at hl; omega
          obtain ⟨ihl, ihv, ihr⟩ := ih he hl'
          refine ⟨by rw [List.length_cons, ihl], ?_, by rw [hx, List.map_cons, List.flatten_cons, ← ihr]⟩
          rintro y (_ | ⟨_, hy⟩)
          · exact hvalid
          · exact ihv y hy

end Canonical

/-- Decoding the records `write_buf` writes for a list of entries gives them back. -/
theorem decodeRecords_recordBytes {S : PartIdSpace} (es : List (Σ _ : PartId, PartInfo))
    (hids : ∀ e ∈ es, S.tryFrom (S.toU64 e.1) = some e.1 ∧
      S.tryFrom (S.toU64 e.2.maxPartId) = some e.2.maxPartId)
    (rest : List UInt8) :
    decodeRecords S es.length ((es.map fun e => recordBytes S e.1 e.2).flatten ++ rest) =
      (es.map fun e => (e.1, e.2), none) := by
  induction es with
  | nil => rfl
  | cons e es ih =>
      obtain ⟨hk, hm⟩ := hids e (List.mem_cons_self _ _)
      simp only [List.length_cons, List.map_cons, List.flatten_cons, List.append_assoc,
        decodeRecords, readRecord_recordBytes hk hm,
        ih fun e' he' => hids e' (List.mem_cons_of_mem _ he')]

/-! ## The cases of `read_buf` -/

/-- The count field of a block, bytes `8..12`. -/
def countOf (buf : List UInt8) : Nat := leValue ((buf.drop 8).take 4)

/-- The three checks `read_buf` makes before its loop, all passed. -/
def HeaderOk (buf : List UInt8) : Prop :=
  ¬ buf.length < 12 ∧ buf.take 8 = seqCsfTag ∧ buf.length = 12 + (8 * 2 + 4 * 3) * countOf buf

instance : DecidablePred HeaderOk := fun _ => inferInstanceAs (Decidable (_ ∧ _ ∧ _))

/-- The records the loop of `read_buf` decodes from a block, in buffer order. -/
def blockRecords (S : PartIdSpace) (buf : List UInt8) : List (PartId × PartInfo) :=
  (decodeRecords S (countOf buf) (buf.drop 12)).1

/-- The error the loop of `read_buf` stops at, if any. -/
def blockError (S : PartIdSpace) (buf : List UInt8) : Option Error :=
  (decodeRecords S (countOf buf) (buf.drop 12)).2

theorem readU32_count {buf : List UInt8} (hl : ¬ buf.length < 12) :
    readU32 ((buf.drop 8).take 4) = .ok ((countOf buf).toUInt32, []) := by
  have h4 : ((buf.drop 8).take 4).length = 4 := by simp; omega
  simp [readU32, h4, countOf, List.take_of_length_le (le_of_eq h4)]

theorem toNat_count (buf : List UInt8) : (countOf buf).toUInt32.toNat = countOf buf := by
  have := leValue_lt ((buf.drop 8).take 4)
  have h4 : ((buf.drop 8).take 4).length ≤ 4 := by simp
  exact UInt32.toNat_ofNat_of_lt (lt_of_lt_of_le this (Nat.pow_le_pow_right (by decide) h4))

/-- A block that fails a check before the loop leaves the state as it was. -/
theorem readBuf_of_not_headerOk (S : PartIdSpace) (repo : SeqRepo σ) {buf : List UInt8}
    (h : ¬ HeaderOk buf) : ∃ e, repo.readBuf S buf = (.error e, repo) := by
  unfold SeqRepo.readBuf
  by_cases hl : buf.length < 12
  · exact ⟨_, if_pos hl⟩
  by_cases ht : buf.take 8 = seqCsfTag
  · have hn : buf.length ≠ 12 + (8 * 2 + 4 * 3) * countOf buf := fun hn => h ⟨hl, ht, hn⟩
    simp only [if_neg hl, ht, ne_eq, not_true_eq_false, if_false, readU32_count hl, toNat_count]
    exact ⟨_, if_pos hn⟩
  · exact ⟨_, by rw [if_neg hl, if_pos ht]⟩

/-- A block that passes the checks is decoded and merged; `set_classifier` runs only if
    the loop did not fail. -/
theorem readBuf_of_headerOk (S : PartIdSpace) (repo : SeqRepo σ) {buf : List UInt8}
    (h : HeaderOk buf) :
    repo.readBuf S buf =
      match blockError S buf with
      | none => (.ok (), SeqRepo.setClassifier
          { repo with parts := (blockRecords S buf).foldl mergeEntry repo.parts })
      | some e => (.error e, { repo with parts := (blockRecords S buf).foldl mergeEntry repo.parts }) := by
  obtain ⟨hl, ht, hn⟩ := h
  rw [SeqRepo.readBuf, if_neg hl, if_neg (not_not.mpr ht), readU32_count hl]
  simp only [toNat_count, hn, ne_eq, not_true_eq_false, if_false, readRecords_eq, blockError,
    blockRecords]
  cases (decodeRecords S (countOf buf) (buf.drop 12)).2 <;> rfl

/-- A successful `read_buf` passed the checks, read every record, and merged them all. -/
theorem readBuf_ok_cases {S : PartIdSpace} {repo repo' : SeqRepo σ} {buf : List UInt8}
    (h : repo.readBuf S buf = (.ok (), repo')) :
    HeaderOk buf ∧ blockError S buf = none ∧ repo' = SeqRepo.setClassifier
      { repo with parts := (blockRecords S buf).foldl mergeEntry repo.parts } := by
  by_cases hh : HeaderOk buf
  · rw [readBuf_of_headerOk S repo hh] at h
    cases he : blockError S buf with
    | none => rw [he] at h; exact ⟨hh, rfl, (Prod.mk.inj h).2.symm⟩
    | some e => rw [he] at h; cases h
  · obtain ⟨e, he⟩ := readBuf_of_not_headerOk S repo hh
    rw [he] at h
    cases h

/-! ## What merging keeps -/

/-- The comparison of `read_buf`: an incoming record replaces the stored one only with a
    strictly greater version. -/
def keepNewer (old new : PartInfo) : PartInfo := if new.ver > old.ver then new else old

/-- The records for `k` among decoded records, in buffer order. -/
def recordsFor (k : PartId) (l : List (PartId × PartInfo)) : List PartInfo :=
  l.filterMap fun x => if x.1 = k then some x.2 else none

/-- The first record of greatest version in a list, as a left fold of `keepNewer`. -/
def firstMaxVer : List PartInfo → Option PartInfo
  | [] => none
  | x :: l => some (l.foldl keepNewer x)

/-- `r` is the first record of greatest version in `l`: every record before it has a
    smaller version, and none after it a greater one. -/
def IsFirstMaxVer (l : List PartInfo) (r : PartInfo) : Prop :=
  ∃ pre post, l = pre ++ r :: post ∧ (∀ x ∈ pre, x.ver < r.ver) ∧ ∀ x ∈ post, x.ver ≤ r.ver

theorem lookup_mergeRecord (parts : PartMap) (k k' : PartId) (info : PartInfo) :
    (mergeRecord parts k info).lookup k' =
      if k' = k then some ((parts.lookup k).elim info (keepNewer · info)) else parts.lookup k' := by
  by_cases hk : k' = k
  · subst hk
    cases h : parts.lookup k' with
    | none => simp [mergeRecord, h]
    | some e => by_cases hv : info.ver > e.ver <;> simp [mergeRecord, keepNewer, h, hv]
  · cases h : parts.lookup k with
    | none => simp [mergeRecord, h, hk]
    | some e => by_cases hv : info.ver > e.ver <;> simp [mergeRecord, h, hv, hk]

/-- **MERGE**: after merging decoded records, an identifier holds the first record of greatest
    version among its stored entry and its records, in buffer order. -/
theorem lookup_foldl_mergeEntry (k : PartId) (l : List (PartId × PartInfo)) (parts : PartMap) :
    (l.foldl mergeEntry parts).lookup k = firstMaxVer ((parts.lookup k).toList ++ recordsFor k l) := by
  induction l generalizing parts with
  | nil =>
      rw [List.foldl_nil]
      cases parts.lookup k <;> rfl
  | cons x l ih =>
      rw [List.foldl_cons, ih, mergeEntry, lookup_mergeRecord]
      by_cases hk : x.1 = k
      · subst hk
        cases parts.lookup x.1 <;> simp [recordsFor, firstMaxVer]
      · simp [hk, Ne.symm hk, recordsFor]

theorem isFirstMaxVer_append_keepNewer {l : List PartInfo} {r : PartInfo} (h : IsFirstMaxVer l r)
    (x : PartInfo) : IsFirstMaxVer (l ++ [x]) (keepNewer r x) := by
  obtain ⟨pre, post, rfl, hpre, hpost⟩ := h
  unfold keepNewer
  split_ifs with hx
  · refine ⟨pre ++ r :: post, [], by simp, fun y hy => ?_, by simp⟩
    simp only [List.mem_append, List.mem_cons] at hy
    rcases hy with hy | rfl | hy
    · exact UInt32.lt_trans (hpre y hy) hx
    · exact hx
    · have := hpost y hy
      simp only [u32_lt_iff, u32_le_iff, gt_iff_lt] at this hx ⊢
      omega
  · refine ⟨pre, post ++ [x], by simp, hpre, fun y hy => ?_⟩
    rcases List.mem_append.mp hy with hy | hy
    · exact hpost y hy
    · rw [List.mem_singleton.mp hy]
      exact UInt32.not_lt.mp hx

theorem isFirstMaxVer_foldl_keepNewer (x : PartInfo) (l : List PartInfo) :
    IsFirstMaxVer (x :: l) (l.foldl keepNewer x) := by
  suffices ∀ pre r, IsFirstMaxVer pre r → IsFirstMaxVer (pre ++ l) (l.foldl keepNewer r) from
    this [x] x ⟨[], [], rfl, by simp, by simp⟩
  induction l with
  | nil => simp
  | cons y l ih =>
      intro pre r h
      simpa using ih _ _ (isFirstMaxVer_append_keepNewer h y)

theorem isFirstMaxVer_of_firstMaxVer {l : List PartInfo} {r : PartInfo}
    (h : firstMaxVer l = some r) : IsFirstMaxVer l r := by
  cases l with
  | nil => cases h
  | cons x l =>
      cases h
      exact isFirstMaxVer_foldl_keepNewer x l

@[simp] theorem firstMaxVer_eq_none {l : List PartInfo} : firstMaxVer l = none ↔ l = [] := by
  cases l <;> simp [firstMaxVer]

theorem ver_le_of_isFirstMaxVer {l : List PartInfo} {r x : PartInfo} (h : IsFirstMaxVer l r)
    (hx : x ∈ l) : x.ver ≤ r.ver := by
  obtain ⟨pre, post, rfl, hpre, hpost⟩ := h
  simp only [List.mem_append, List.mem_cons] at hx
  rcases hx with hx | rfl | hx
  · exact UInt32.not_lt.mp (UInt32.lt_asymm (hpre x hx))
  · exact UInt32.le_refl _
  · exact hpost x hx

theorem exists_firstMaxVer_of_mem {l : List PartInfo} {x : PartInfo} (hx : x ∈ l) :
    ∃ r, firstMaxVer l = some r ∧ x.ver ≤ r.ver := by
  cases l with
  | nil => cases hx
  | cons y l => exact ⟨_, rfl, ver_le_of_isFirstMaxVer (isFirstMaxVer_foldl_keepNewer y l) hx⟩

theorem mem_recordsFor {l : List (PartId × PartInfo)} {x : PartId × PartInfo} (hx : x ∈ l) :
    x.2 ∈ recordsFor x.1 l :=
  List.mem_filterMap.mpr ⟨x, hx, if_pos rfl⟩

/-- Records that are no newer than what the map holds leave it as it is. -/
theorem foldl_mergeEntry_of_le (parts : PartMap) (l : List (PartId × PartInfo))
    (h : ∀ x ∈ l, ∃ e, parts.lookup x.1 = some e ∧ x.2.ver ≤ e.ver) :
    l.foldl mergeEntry parts = parts := by
  induction l with
  | nil => rfl
  | cons x l ih =>
      obtain ⟨e, he, hle⟩ := h x (List.mem_cons_self _ _)
      have hm : mergeEntry parts x = parts := by
        simp [mergeEntry, mergeRecord, he, UInt32.not_lt.mpr hle]
      rw [List.foldl_cons, hm, ih fun y hy => h y (List.mem_cons_of_mem _ hy)]

/-! ## The block of a map -/

@[simp] theorem length_seqCsfTag : seqCsfTag.length = 8 := rfl

theorem length_flatten_recordBytes (S : PartIdSpace) (es : List (Σ _ : PartId, PartInfo)) :
    ((es.map fun e => recordBytes S e.1 e.2).flatten).length = 28 * es.length := by
  induction es with
  | nil => rfl
  | cons e es ih =>
      simp only [List.map_cons, List.flatten_cons, List.length_append, length_recordBytes, ih,
        List.length_cons]
      omega

@[simp] theorem length_classifierBytes (S : PartIdSpace) (parts : PartMap) :
    (classifierBytes S parts).length = 12 + 28 * parts.entries.length := by
  simp only [classifierBytes, List.length_append, length_seqCsfTag, length_u32Bytes,
    length_flatten_recordBytes]

theorem take_classifierBytes (S : PartIdSpace) (parts : PartMap) :
    (classifierBytes S parts).take 8 = seqCsfTag := by
  rw [classifierBytes, List.append_assoc, List.take_left' length_seqCsfTag]

theorem count_classifierBytes (S : PartIdSpace) (parts : PartMap) :
    ((classifierBytes S parts).drop 8).take 4 = u32Bytes parts.entries.length.toUInt32 := by
  rw [classifierBytes, List.append_assoc, List.drop_left' length_seqCsfTag,
    List.take_left' (length_u32Bytes _)]

theorem countOf_classifierBytes (S : PartIdSpace) {parts : PartMap}
    (hlen : parts.entries.length ≤ u32Max) :
    countOf (classifierBytes S parts) = parts.entries.length := by
  have hn : parts.entries.length < 256 ^ 4 := by unfold u32Max at hlen; omega
  rw [countOf, count_classifierBytes, u32Bytes, leValue_leBytes, UInt32.toNat_ofNat_of_lt hn,
    Nat.mod_eq_of_lt hn]

theorem headerOk_classifierBytes (S : PartIdSpace) {parts : PartMap}
    (hlen : parts.entries.length ≤ u32Max) : HeaderOk (classifierBytes S parts) := by
  refine ⟨by simp, take_classifierBytes S parts, ?_⟩
  rw [countOf_classifierBytes S hlen, length_classifierBytes]

/-- The records of a map's block are the map's entries, in its iteration order. -/
theorem blockRecords_classifierBytes {S : PartIdSpace} {parts : PartMap}
    (hids : ∀ k r, parts.lookup k = some r →
      S.tryFrom (S.toU64 k) = some k ∧ S.tryFrom (S.toU64 r.maxPartId) = some r.maxPartId)
    (hlen : parts.entries.length ≤ u32Max) :
    decodeRecords S (countOf (classifierBytes S parts)) ((classifierBytes S parts).drop 12) =
      (parts.entries.map fun e => (e.1, e.2), none) := by
  have hd : (classifierBytes S parts).drop 12 =
      (parts.entries.map fun e => recordBytes S e.1 e.2).flatten ++ [] := by
    simp [classifierBytes, List.drop_append_eq_append_drop]
  rw [countOf_classifierBytes S hlen, hd]
  exact decodeRecords_recordBytes _ (fun e he => hids e.1 e.2 (AList.mem_lookup_iff.mpr he)) []

theorem recordsFor_cons (k : PartId) (x : PartId × PartInfo) (l : List (PartId × PartInfo)) :
    recordsFor k (x :: l) = if x.1 = k then x.2 :: recordsFor k l else recordsFor k l := by
  by_cases h : x.1 = k <;> simp [recordsFor, h]

theorem recordsFor_entries (parts : PartMap) (k : PartId) :
    recordsFor k (parts.entries.map fun e => (e.1, e.2)) = (parts.lookup k).toList := by
  obtain ⟨es, hnd⟩ := parts
  show recordsFor k (es.map fun e => (e.1, e.2)) = (es.dlookup k).toList
  induction es with
  | nil => rfl
  | cons e es ih =>
      obtain ⟨k', v⟩ := e
      obtain ⟨hk, hnd⟩ := List.nodupKeys_cons.mp hnd
      rw [List.map_cons, recordsFor_cons, ih hnd]
      by_cases he : k' = k
      · subst he
        simp [List.dlookup_eq_none.mpr hk]
      · simp [he, List.dlookup_cons_ne es ⟨k', v⟩ (Ne.symm he)]

/-! ## What any writer receives -/

/-- What follows the tag in the block: the count, then the records. -/
theorem drop_classifierBytes (S : PartIdSpace) (parts : PartMap) :
    (classifierBytes S parts).drop 8 =
      u32Bytes parts.entries.length.toUInt32 ++
        (parts.entries.map fun e => recordBytes S e.1 e.2).flatten := by
  rw [classifierBytes, List.append_assoc, List.drop_left' length_seqCsfTag]

theorem writeEntries_logged (S : PartIdSpace) (wr : Writer ω) (es : List (Σ _ : PartId, PartInfo))
    {w w' : ω} {log log' : List UInt8} (h : writeEntries S wr.logged es (w, log) = .ok (w', log')) :
    log' = log ++ (es.map fun e => recordBytes S e.1 e.2).flatten := by
  induction es generalizing w log with
  | nil => cases h; simp
  | cons e es ih =>
      obtain ⟨⟨w₁, l₁⟩, h₁, h⟩ := bind_eq_ok h
      obtain ⟨⟨w₂, l₂⟩, h₂, h⟩ := bind_eq_ok h
      obtain ⟨⟨w₃, l₃⟩, h₃, h⟩ := bind_eq_ok h
      obtain ⟨⟨w₄, l₄⟩, h₄, h⟩ := bind_eq_ok h
      obtain ⟨⟨w₅, l₅⟩, h₅, h⟩ := bind_eq_ok h
      rw [ih h, writeAll_logged wr h₅, writeAll_logged wr h₄, writeAll_logged wr h₃,
        writeAll_logged wr h₂, writeAll_logged wr h₁]
      simp [recordBytes]

end Pippin
