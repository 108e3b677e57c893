import Pippin.ClassifierData
import Pippin.Partitioning

/-! # Exchanging the classifier block

    A block that `write_buf` writes into a `Vec<u8>` is read back by `read_buf` as the
    same map.  A successful `read_buf` keeps, for each identifier, the first record of
    greatest version among the stored entry and the block's records, so it never lowers
    a version and a second read of the same block changes nothing.  A second read of
    any buffer, even one `read_buf` stops in, returns and leaves what the first did
    (`readBuf_twice`).

    No call rolls back on failure.  After its three checks, `read_buf` merges record
    after record and returns at the first one it cannot decode, with the records before
    it merged and the classifier view left as it was; `init_first` records partition 1
    and rebuilds the classifier before its I/O calls.  An `Err` of `divide` or of a
    failed check of `read_buf` does leave the state as it was. -/

namespace Pippin

variable {σ P : Type}

/-! ## Round trip -/

/-- Reading a map's block merges the map's entries, in its iteration order. -/
theorem readBuf_classifierBytes (S : PartIdSpace) (repo : SeqRepo σ) {parts : PartMap}
    (hids : ∀ k r, parts.lookup k = some r →
      S.tryFrom (S.toU64 k) = some k ∧ S.tryFrom (S.toU64 r.maxPartId) = some r.maxPartId)
    (hlen : parts.entries.length ≤ u32Max) :
    repo.readBuf S (classifierBytes S parts) = (.ok (), SeqRepo.setClassifier
      { repo with parts := (parts.entries.map fun e => (e.1, e.2)).foldl mergeEntry repo.parts }) := by
  rw [readBuf_of_headerOk S repo (headerOk_classifierBytes S hlen)]
  simp only [blockError, blockRecords, blockRecords_classifierBytes hids hlen]

/-- Merging a map's entries into an empty map gives the map back. -/
theorem lookup_foldl_entries_empty (parts : PartMap) (k : PartId) :
    ((parts.entries.map fun e => (e.1, e.2)).foldl mergeEntry ∅).lookup k = parts.lookup k := by
  rw [lookup_foldl_mergeEntry, recordsFor_entries]
  cases parts.lookup k <;> rfl

/-- **ROUND TRIP**: for a map of valid identifiers with at most `u32::MAX` entries,
    `write_buf` writes the tag, the count and 28 bytes per entry, and `read_buf` of
    those bytes into an empty map returns the map, with the classifier built from it. -/
theorem write_buf_read_buf_round_trip (S : PartIdSpace) (src dst : SeqRepo σ)
    (hids : ∀ k r, src.parts.lookup k = some r →
      S.tryFrom (S.toU64 k) = some k ∧ S.tryFrom (S.toU64 r.maxPartId) = some r.maxPartId)
    (hlen : src.parts.entries.length ≤ u32Max) (hdst : dst.parts = ∅) :
    ∃ bytes, src.writeBuf S vecWriter [] = some (.ok bytes) ∧
      bytes.length = 12 + 28 * src.parts.entries.length ∧
      bytes.take 8 = seqCsfTag ∧
      (bytes.drop 8).take 4 = u32Bytes src.parts.entries.length.toUInt32 ∧
      (dst.readBuf S bytes).1 = .ok () ∧
      (∀ k, (dst.readBuf S bytes).2.parts.lookup k = src.parts.lookup k) ∧
      (dst.readBuf S bytes).2.csf.classes.Perm (liveClasses src.parts) ∧
      BoundsSorted (dst.readBuf S bytes).2.csf.classes := by
  have hlook := lookup_foldl_entries_empty src.parts
  refine ⟨classifierBytes S src.parts, by simpa using writeBuf_vecWriter S src [] hlen,
    length_classifierBytes S _, take_classifierBytes S _, count_classifierBytes S _, ?_⟩
  rw [readBuf_classifierBytes S dst hids hlen, hdst]
  exact ⟨rfl, hlook, (perm_classesOf _).trans (perm_liveClasses hlook), sorted_classesOf _⟩

/-- The map `init_first` builds holds valid identifiers only. -/
theorem first_ids_valid (S : PartIdSpace) (k : PartId) (r : PartInfo)
    (h : (SeqRepo.first S ()).parts.lookup k = some r) :
    S.tryFrom (S.toU64 k) = some k ∧ S.tryFrom (S.toU64 r.maxPartId) = some r.maxPartId := by
  simp only [SeqRepo.first, setClassifier_parts, lookup_insert_empty] at h
  split_ifs at h with hk
  cases h
  subst hk
  exact ⟨S.tryFrom_toU64 _ le_rfl S.one_le_maxNum, S.tryFrom_toU64 _ S.one_le_maxNum le_rfl⟩

theorem length_first_entries (S : PartIdSpace) : (SeqRepo.first S ()).parts.entries.length ≤ u32Max :=
  show 1 ≤ u32Max by decide

/-- The block of the map `init_first` builds, read into a fresh repository. -/
theorem write_buf_read_buf_round_trip_first :
    (∀ k r, (SeqRepo.first plainIds ()).parts.lookup k = some r →
      plainIds.tryFrom (plainIds.toU64 k) = some k ∧
        plainIds.tryFrom (plainIds.toU64 r.maxPartId) = some r.maxPartId) ∧
    (SeqRepo.first plainIds ()).parts.entries.length ≤ u32Max ∧
    (SeqRepo.new ()).parts = ∅ ∧
    ∃ bytes, (SeqRepo.first plainIds ()).writeBuf plainIds vecWriter [] = some (.ok bytes) ∧
      bytes.length = 12 + 28 * (SeqRepo.first plainIds ()).parts.entries.length ∧
      bytes.take 8 = seqCsfTag ∧
      (bytes.drop 8).take 4 = u32Bytes (SeqRepo.first plainIds ()).parts.entries.length.toUInt32 ∧
      ((SeqRepo.new ()).readBuf plainIds bytes).1 = .ok () ∧
      (∀ k, ((SeqRepo.new ()).readBuf plainIds bytes).2.parts.lookup k =
        (SeqRepo.first plainIds ()).parts.lookup k) ∧
      ((SeqRepo.new ()).readBuf plainIds bytes).2.csf.classes.Perm
        (liveClasses (SeqRepo.first plainIds ()).parts) ∧
      BoundsSorted ((SeqRepo.new ()).readBuf plainIds bytes).2.csf.classes :=
  ⟨first_ids_valid plainIds, length_first_entries plainIds, rfl,
    write_buf_read_buf_round_trip plainIds (SeqRepo.first plainIds ()) (SeqRepo.new ())
      (first_ids_valid plainIds) (length_first_entries plainIds) rfl⟩

/-! ## What `read_buf` accepts -/

/-- A block in `write_buf`'s format for any list of records, repeated identifiers
    included: the tag, the count, then 28 bytes per record. -/
def blockOf (S : PartIdSpace) (es : List (Σ _ : PartId, PartInfo)) : List UInt8 :=
  seqCsfTag ++ u32Bytes es.length.toUInt32 ++ (es.map fun e => recordBytes S e.1 e.2).flatten

/-- The block of at most `u32::MAX` records with valid identifiers passes the three checks
    of `read_buf`, and its loop decodes the records, in order, without an error. -/
theorem blockOf_read (S : PartIdSpace) {es : List (Σ _ : PartId, PartInfo)}
    (hlen : es.length ≤ u32Max)
    (hids : ∀ e ∈ es, S.tryFrom (S.toU64 e.1) = some e.1 ∧
      S.tryFrom (S.toU64 e.2.maxPartId) = some e.2.maxPartId) :
    HeaderOk (blockOf S es) ∧ blockError S (blockOf S es) = none := by
  have hn : es.length < 256 ^ 4 := by unfold u32Max at hlen; omega
  have hc : countOf (blockOf S es) = es.length := by
    rw [countOf, blockOf, List.append_assoc, List.drop_left' length_seqCsfTag,
      List.take_left' (length_u32Bytes _), u32Bytes, leValue_leBytes,
      UInt32.toNat_ofNat_of_lt hn, Nat.mod_eq_of_lt hn]
  have hd : (blockOf S es).drop 12 = (es.map fun e => recordBytes S e.1 e.2).flatten ++ [] := by
    simp [blockOf, List.drop_append_eq_append_drop]
  have hl : (blockOf S es).length = 12 + 28 * es.length := by
    simp only [blockOf, List.length_append, length_seqCsfTag, length_u32Bytes,
      length_flatten_recordBytes]
  refine ⟨⟨by omega, by rw [blockOf, List.append_assoc, List.take_left' length_seqCsfTag],
    by rw [hc, hl]⟩, ?_⟩
  rw [blockError, hc, hd, decodeRecords_recordBytes es hids]

/-- **WHAT `read_buf` ACCEPTS**: where `try_from` accepts only the `u64` forms of
    identifiers, `read_buf` succeeds on a buffer exactly when the buffer is the block of
    a list of at most `u32::MAX` records whose identifiers `try_from` gives back: the
    tag, the count and 28 bytes per record, and not one byte more. -/
theorem readBuf_ok_iff_block (S : PartIdSpace)
    (hcanon : ∀ u p, S.tryFrom u = some p → S.toU64 p = u) (repo : SeqRepo σ)
    (buf : List UInt8) :
    (repo.readBuf S buf).1 = .ok () ↔ ∃ es : List (Σ _ : PartId, PartInfo),
      es.length ≤ u32Max ∧ (∀ e ∈ es, S.tryFrom (S.toU64 e.1) = some e.1 ∧
        S.tryFrom (S.toU64 e.2.maxPartId) = some e.2.maxPartId) ∧ buf = blockOf S es := by
  constructor
  · intro h
    obtain ⟨⟨hl, ht, hn⟩, he, -⟩ :=
      readBuf_ok_cases (Prod.ext h rfl : repo.readBuf S buf = (.ok (), _))
    obtain ⟨hcount, hvalid, hrecs⟩ :=
      decodeRecords_complete hcanon he (by simp only [List.length_drop]; omega)
    have hc4 : ((buf.drop 8).take 4).length = 4 := by simp only [List.length_take, List.length_drop]; omega
    have hcmax : countOf buf ≤ u32Max := by
      have := leValue_lt ((buf.drop 8).take 4)
      rw [hc4] at this
      unfold countOf u32Max; omega
    have hes : ((blockRecords S buf).map fun x => (⟨x.1, x.2⟩ : Σ _ : PartId, PartInfo)).length
        ≤ u32Max := by
      rw [List.length_map, blockRecords, hcount]; exact hcmax
    refine ⟨_, hes, fun e he => ?_, ?_⟩
    · obtain ⟨x, hx, rfl⟩ := List.mem_map.mp he
      exact hvalid x hx
    · have hsplit : buf = buf.take 8 ++ ((buf.drop 8).take 4 ++ buf.drop 12) := by
        rw [show buf.drop 12 = (buf.drop 8).drop 4 by rw [List.drop_drop], List.take_append_drop,
          List.take_append_drop]
      rw [blockOf, List.map_map, List.length_map, blockRecords, hcount, List.append_assoc]
      conv_lhs => rw [hsplit, ht, hrecs]
      rw [countOf, u32Bytes_leValue hc4]
      rfl
  · rintro ⟨es, hlen, hids, rfl⟩
    obtain ⟨hh, he⟩ := blockOf_read S hlen hids
    rw [readBuf_of_headerOk S repo hh, he]

theorem plainIds_canonical (u : UInt64) (p : PartId) (h : plainIds.tryFrom u = some p) :
    plainIds.toU64 p = u := by
  simp only [plainIds] at h
  split_ifs at h
  cases h
  exact UInt64.toNat.inj (UInt64.toNat_ofNat_of_lt u.toNat_lt_size)

/-- `read_buf` accepts the block of the map `init_first` builds. -/
theorem readBuf_ok_iff_block_first :
    (∀ u p, plainIds.tryFrom u = some p → plainIds.toU64 p = u) ∧
      (((SeqRepo.new ()).readBuf plainIds
        (classifierBytes plainIds (SeqRepo.first plainIds ()).parts)).1 = .ok () ↔
      ∃ es : List (Σ _ : PartId, PartInfo), es.length ≤ u32Max ∧
        (∀ e ∈ es, plainIds.tryFrom (plainIds.toU64 e.1) = some e.1 ∧
          plainIds.tryFrom (plainIds.toU64 e.2.maxPartId) = some e.2.maxPartId) ∧
        classifierBytes plainIds (SeqRepo.first plainIds ()).parts = blockOf plainIds es) :=
  ⟨plainIds_canonical, readBuf_ok_iff_block plainIds plainIds_canonical _ _⟩

/-! ## The merge law -/

/-- **MERGE LAW**: when `read_buf` succeeds, each identifier holds the first record of
    greatest version among its stored entry and the block's records for it, in buffer
    order, and is absent exactly when it has neither; the classifier is rebuilt from the
    result; no stored version goes down; and reading the same block again changes
    nothing. -/
theorem readBuf_ok_merges (S : PartIdSpace) {repo repo' : SeqRepo σ} {buf : List UInt8}
    (h : repo.readBuf S buf = (.ok (), repo')) :
    (∀ k r, repo'.parts.lookup k = some r →
      IsFirstMaxVer ((repo.parts.lookup k).toList ++ recordsFor k (blockRecords S buf)) r) ∧
    (∀ k, repo'.parts.lookup k = none ↔
      repo.parts.lookup k = none ∧ recordsFor k (blockRecords S buf) = []) ∧
    repo'.InStep ∧
    (∀ k e, repo.parts.lookup k = some e → ∃ r, repo'.parts.lookup k = some r ∧ e.ver ≤ r.ver) ∧
    repo'.readBuf S buf = (.ok (), repo') := by
  obtain ⟨hh, he, rfl⟩ := readBuf_ok_cases h
  have hlook := fun k => lookup_foldl_mergeEntry k (blockRecords S buf) repo.parts
  refine ⟨fun k r hr => isFirstMaxVer_of_firstMaxVer ((hlook k).symm.trans hr), fun k => ?_,
    setClassifier_inStep _, fun k e hk => ?_, ?_⟩
  · rw [setClassifier_parts, hlook, firstMaxVer_eq_none, List.append_eq_nil]
    cases repo.parts.lookup k <;> simp
  · simpa [hlook, hk] using exists_firstMaxVer_of_mem (List.mem_cons_self e _)
  · -- every record of the block is now no newer than what the map holds for it
    have hle : ∀ x ∈ blockRecords S buf, ∃ e,
        ((blockRecords S buf).foldl mergeEntry repo.parts).lookup x.1 = some e ∧ x.2.ver ≤ e.ver :=
      fun x hx => by
        rw [hlook]
        exact exists_firstMaxVer_of_mem (List.mem_append_right _ (mem_recordsFor hx))
    rw [readBuf_of_headerOk S _ hh, he, setClassifier_parts, foldl_mergeEntry_of_le _ _ hle]
    rfl

/-- Reading the block of the map `init_first` builds into a fresh repository. -/
theorem readBuf_ok_merges_first :
    (SeqRepo.new ()).readBuf plainIds (classifierBytes plainIds (SeqRepo.first plainIds ()).parts) =
      (.ok (), SeqRepo.first plainIds ()) ∧
    ((∀ k r, (SeqRepo.first plainIds ()).parts.lookup k = some r → IsFirstMaxVer
      (((SeqRepo.new ()).parts.lookup k).toList ++ recordsFor k
        (blockRecords plainIds (classifierBytes plainIds (SeqRepo.first plainIds ()).parts))) r) ∧
    (∀ k, (SeqRepo.first plainIds ()).parts.lookup k = none ↔ (SeqRepo.new ()).parts.lookup k = none ∧
      recordsFor k (blockRecords plainIds (classifierBytes plainIds (SeqRepo.first plainIds ()).parts)) = []) ∧
    (SeqRepo.first plainIds ()).InStep ∧
    (∀ k e, (SeqRepo.new ()).parts.lookup k = some e →
      ∃ r, (SeqRepo.first plainIds ()).parts.lookup k = some r ∧ e.ver ≤ r.ver) ∧
    (SeqRepo.first plainIds ()).readBuf plainIds (classifierBytes plainIds (SeqRepo.first plainIds ()).parts) =
      (.ok (), SeqRepo.first plainIds ())) :=
  have h : (SeqRepo.new ()).readBuf plainIds
      (classifierBytes plainIds (SeqRepo.first plainIds ()).parts) = (.ok (), SeqRepo.first plainIds ()) := by
    rw [readBuf_classifierBytes plainIds _ (first_ids_valid plainIds) (length_first_entries plainIds)]
    rfl
  ⟨h, readBuf_ok_merges plainIds h⟩

/-! ## Error paths -/

/-- Merging the records of a block into a map that already holds them changes nothing. -/
theorem foldl_mergeEntry_idem (l : List (PartId × PartInfo)) (parts : PartMap) :
    l.foldl mergeEntry (l.foldl mergeEntry parts) = l.foldl mergeEntry parts :=
  foldl_mergeEntry_of_le _ _ fun x hx => by
    rw [lookup_foldl_mergeEntry]
    exact exists_firstMaxVer_of_mem (List.mem_append_right _ (mem_recordsFor hx))

/-- **DUPLICATE READS**: reading any buffer a second time, valid or not, returns what the
    first read returned and leaves the state the first read left, even where the first
    read stopped at a record it could not decode, after merging those before it. -/
theorem readBuf_twice (S : PartIdSpace) (repo : SeqRepo σ) (buf : List UInt8) :
    (repo.readBuf S buf).2.readBuf S buf = repo.readBuf S buf := by
  by_cases hh : HeaderOk buf
  · rw [readBuf_of_headerOk S repo hh]
    rcases hb : blockError S buf with _ | e
    · rw [readBuf_of_headerOk S _ hh, hb, setClassifier_parts, foldl_mergeEntry_idem]
      rfl
    · rw [readBuf_of_headerOk S _ hh, hb]
      exact congrArg (Prod.mk _) (congrArg (fun p => { repo with parts := p })
        (foldl_mergeEntry_idem _ _))
  · obtain ⟨e, he⟩ := readBuf_of_not_headerOk S repo hh
    rw [he]
    exact he

/-- A `Vec<u8>` that takes one byte per `write`, as the `io::Write` contract allows. -/
def byteWriter : Writer (List UInt8) where
  write v bs := .ok (min 1 bs.length, v ++ bs.take 1)
  write_le h := by cases h; exact Nat.min_le_right _ _

theorem byteWriter_write (v bs : List UInt8) :
    byteWriter.write v bs = .ok (min 1 bs.length, v ++ bs.take 1) := rfl

theorem byteWriter_writeAll (v buf : List UInt8) : byteWriter.writeAll v buf = .ok (v ++ buf) := by
  induction buf generalizing v with
  | nil => rw [Writer.writeAll, dif_pos rfl, List.append_nil]
  | cons b bs ih =>
      rw [Writer.writeAll, dif_neg (List.cons_ne_nil b bs), byteWriter_write]
      simp [ih]

/-- Into a `Vec<u8>` that takes one byte per `write`, `write_buf` keeps one byte of the tag
    and all the rest of the block. -/
theorem writeBuf_byteWriter (S : PartIdSpace) (repo : SeqRepo σ) (v : List UInt8)
    (hlen : repo.parts.entries.length ≤ u32Max) :
    repo.writeBuf S byteWriter v =
      some (.ok (v ++ seqCsfTag.take 1 ++ (classifierBytes S repo.parts).drop 8)) := by
  rw [SeqRepo.writeBuf, byteWriter_write, drop_classifierBytes]
  simp only [length_seqCsfTag, if_pos hlen, bind, Except.bind, byteWriter_writeAll,
    writeEntries_of_writeAll byteWriter_writeAll, List.append_assoc]

/-- Into a `Vec<u8>` that takes one byte per `write`, `write_buf` of the map `init_first`
    builds returns `Ok`, but its plain `write` delivered one byte of the tag: the block is
    seven bytes short, and `read_buf` rejects it. -/
theorem write_buf_short_tag_write :
    ∃ bytes, (SeqRepo.first plainIds ()).writeBuf plainIds byteWriter [] = some (.ok bytes) ∧
      bytes.length + 7 = 12 + 28 * (SeqRepo.first plainIds ()).parts.entries.length ∧
      ((SeqRepo.new ()).readBuf plainIds bytes).1 =
        .error (.other "Invalid format identifier for classifier's read_buf()") := by
  have hlen : (SeqRepo.first plainIds ()).parts.entries.length ≤ u32Max := by decide
  refine ⟨_, writeBuf_byteWriter plainIds _ [] hlen, by simp; omega, ?_⟩
  rw [SeqRepo.readBuf, if_neg (by decide), if_pos (by decide)]

/-- **WRITE_BUF, ANY WRITER**: when `write_buf` succeeds, the writer has received the part of
    the tag that its one plain `write` took, then the rest of the block: the whole block
    exactly when that `write` took all eight bytes. -/
theorem writeBuf_logged {ω : Type} (S : PartIdSpace) (wr : Writer ω) (repo : SeqRepo σ) {w w' : ω}
    {log log' : List UInt8} (h : repo.writeBuf S wr.logged (w, log) = some (.ok (w', log'))) :
    ∃ n w₁, wr.write w seqCsfTag = .ok (n, w₁) ∧
      log' = log ++ seqCsfTag.take n ++ (classifierBytes S repo.parts).drop 8 ∧
      (log' = log ++ classifierBytes S repo.parts ↔ n = 8) := by
  unfold SeqRepo.writeBuf at h
  rw [logged_write] at h
  cases hw : wr.write w seqCsfTag with
  | error e => rw [hw] at h; cases h
  | ok r =>
    obtain ⟨n, w₁⟩ := r
    simp only [hw, Except.map] at h
    split_ifs at h
    obtain ⟨⟨w₂, l₂⟩, h₁, h₂⟩ := bind_eq_ok (Option.some.inj h)
    -- the block is the tag, then what follows it
    have hblock : classifierBytes S repo.parts = seqCsfTag ++ (classifierBytes S repo.parts).drop 8 := by
      rw [drop_classifierBytes, classifierBytes, List.append_assoc]
    have hlog : log' = log ++ seqCsfTag.take n ++ (classifierBytes S repo.parts).drop 8 := by
      rw [writeEntries_logged S wr _ h₂, writeAll_logged wr h₁, drop_classifierBytes]
      simp only [List.append_assoc]
    refine ⟨n, w₁, rfl, hlog, ?_⟩
    have hn : n ≤ 8 := wr.write_le hw
    rw [hlog, hblock, List.drop_left' length_seqCsfTag, List.append_assoc,
      List.append_cancel_left_eq, List.append_cancel_right_eq, List.take_eq_self_iff,
      length_seqCsfTag]
    omega

/-- The block of an empty map, into a `Vec<u8>` that takes one byte per `write`. -/
theorem writeBuf_logged_byteWriter :
    (SeqRepo.new ()).writeBuf plainIds byteWriter.logged ([], []) =
      some (.ok (seqCsfTag.take 1 ++ u32Bytes 0, seqCsfTag.take 1 ++ u32Bytes 0)) ∧
    ∃ n w₁, byteWriter.write [] seqCsfTag = .ok (n, w₁) ∧
      seqCsfTag.take 1 ++ u32Bytes 0 =
        [] ++ seqCsfTag.take n ++ (classifierBytes plainIds (SeqRepo.new ()).parts).drop 8 ∧
      (seqCsfTag.take 1 ++ u32Bytes 0 = [] ++ classifierBytes plainIds (SeqRepo.new ()).parts ↔
        n = 8) :=
  have h : (SeqRepo.new ()).writeBuf plainIds byteWriter.logged ([], []) =
      some (.ok (seqCsfTag.take 1 ++ u32Bytes 0, seqCsfTag.take 1 ++ u32Bytes 0)) := by
    rw [SeqRepo.writeBuf, logged_write, byteWriter_write]
    simp only [Except.map, length_seqCsfTag, List.nil_append]
    rw [if_pos (by decide)]
    simp only [bind, Except.bind, writeAll_logged_of_writeAll byteWriter (byteWriter_writeAll _ _)]
    rfl
  ⟨h, writeBuf_logged plainIds byteWriter (SeqRepo.new ()) h⟩

end Pippin
