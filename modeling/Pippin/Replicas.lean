import Pippin.Reconcile

/-! # Replicas exchanging the classifier block

    Each partition file carries the whole routing table, so replicas of a repository can
    each subdivide partitions on their own and learn of the others' subdivisions by
    reading their blocks.  `read_buf` keeps, per identifier, the record of strictly
    greatest version, and `divide` raises the version of every entry it touches.

    When two replicas subdivide the same partition at different medians they write
    records with the same identifiers and versions but different contents; neither
    replaces the other, and the replicas never agree (`concurrent_divides_diverge`).

    The invariant of a run (`Good`) orders the records of an identifier by version
    (`MapLe`): `divide` and `read_buf` only go up in it, and every record anywhere is
    below what some replica held right after its last `divide`.  It is proved here as
    long as no version a `divide` leaves is at `u32::MAX`; `ReplicaIds` shows that this
    always holds, and `Convergence` draws the consequences for whole maps. -/

namespace Pippin

/-! ## Versions, per identifier -/

/-- Record `a` is no newer than record `b`: an absent record is below every record. -/
def VerLe : Option PartInfo → Option PartInfo → Prop
  | none, _ => True
  | some _, none => False
  | some a, some b => a.ver.toNat ≤ b.ver.toNat

/-- Every record of `A` is no newer than the record `B` holds for the same identifier. -/
def MapLe (A B : PartMap) : Prop := ∀ k, VerLe (A.lookup k) (B.lookup k)

theorem verLe_refl (a : Option PartInfo) : VerLe a a := by
  cases a <;> simp [VerLe]

theorem VerLe.trans {a b c : Option PartInfo} (hab : VerLe a b) (hbc : VerLe b c) : VerLe a c := by
  cases a <;> cases b <;> cases c <;> simp_all [VerLe]
  omega

/-- A record below another is below one that is there. -/
theorem VerLe.exists_of_some {a : PartInfo} {b : Option PartInfo} (h : VerLe (some a) b) :
    ∃ b', b = some b' ∧ a.ver.toNat ≤ b'.ver.toNat := by
  cases b with
  | none => exact h.elim
  | some b' => exact ⟨b', rfl, h⟩

theorem mapLe_refl (A : PartMap) : MapLe A A := fun _ => verLe_refl _

theorem MapLe.trans {A B C : PartMap} (hab : MapLe A B) (hbc : MapLe B C) : MapLe A C :=
  fun k => (hab k).trans (hbc k)

theorem verLe_keepNewer_left (a m : PartInfo) : VerLe (some a) (some (keepNewer a m)) := by
  unfold keepNewer
  split_ifs with h
  · exact Nat.le_of_lt h
  · exact verLe_refl _

theorem verLe_keepNewer_right (a m : PartInfo) : VerLe (some m) (some (keepNewer a m)) := by
  unfold keepNewer
  split_ifs with h
  · exact verLe_refl _
  · exact Nat.le_of_not_lt h

/-! ## Reading a block, on maps -/

/-- What `read_buf` makes of a map `A` and the block of a map `M`: the entries of `M`
    merged into `A`, in `M`'s iteration order. -/
def mergeMap (A M : PartMap) : PartMap := (M.entries.map fun e => (e.1, e.2)).foldl mergeEntry A

theorem lookup_mergeMap (A M : PartMap) (k : PartId) :
    (mergeMap A M).lookup k =
      match A.lookup k, M.lookup k with
      | some a, some m => some (keepNewer a m)
      | a, none => a
      | none, m => m := by
  rw [mergeMap, lookup_foldl_mergeEntry, recordsFor_entries]
  cases A.lookup k <;> cases M.lookup k <;> rfl

theorem mapLe_mergeMap_left (A M : PartMap) : MapLe A (mergeMap A M) := by
  intro k
  rw [lookup_mergeMap]
  cases A.lookup k <;> cases M.lookup k
  all_goals first | trivial | exact verLe_refl _ | exact verLe_keepNewer_left _ _

theorem mapLe_mergeMap_right (A M : PartMap) : MapLe M (mergeMap A M) := by
  intro k
  rw [lookup_mergeMap]
  cases A.lookup k <;> cases M.lookup k
  all_goals first | trivial | exact verLe_refl _ | exact verLe_keepNewer_right _ _

/-- A merged record is the stored one or the incoming one. -/
theorem lookup_mergeMap_mem {A M : PartMap} {k : PartId} {r : PartInfo}
    (h : (mergeMap A M).lookup k = some r) : A.lookup k = some r ∨ M.lookup k = some r := by
  rw [lookup_mergeMap] at h
  revert h
  cases A.lookup k <;> cases M.lookup k <;> simp only [keepNewer] <;> intro h
  all_goals first | exact .inl h | exact .inr h | skip
  rename_i a m
  split_ifs at h
  · exact .inr h
  · exact .inl h

/-! ## Identifiers in range -/

/-- Every identifier of the map, as a key or as a `max_part_id`, lies in `1 ..= max_num`. -/
def InRange (S : PartIdSpace) (parts : PartMap) : Prop :=
  ∀ k r, parts.lookup k = some r →
    (1 ≤ k.num ∧ k.num ≤ S.maxNum) ∧ 1 ≤ r.maxPartId.num ∧ r.maxPartId.num ≤ S.maxNum

theorem tryFrom_of_inRange {S : PartIdSpace} {parts : PartMap} (h : InRange S parts) (k : PartId)
    (r : PartInfo) (hk : parts.lookup k = some r) :
    S.tryFrom (S.toU64 k) = some k ∧ S.tryFrom (S.toU64 r.maxPartId) = some r.maxPartId :=
  have ⟨⟨h1, h2⟩, h3, h4⟩ := h k r hk
  ⟨S.tryFrom_toU64 k h1 h2, S.tryFrom_toU64 _ h3 h4⟩

theorem inRange_mergeMap {S : PartIdSpace} {A M : PartMap} (hA : InRange S A) (hM : InRange S M) :
    InRange S (mergeMap A M) := fun k r hk =>
  (lookup_mergeMap_mem hk).elim (hA k r) (hM k r)

theorem inRange_of_reachable {S : PartIdSpace} {σ P : Type} {rio : RepoIo σ P} {repo : SeqRepo σ}
    (h : Reachable S rio repo) : InRange S repo.parts := by
  have hp := reachable_idsPartition h
  intro k r hk
  have hle := hp.le_max k r hk
  obtain ⟨h1, h2⟩ := (hp.cover k.num).mp ⟨k, r, hk, le_refl _, hle⟩
  obtain ⟨h3, h4⟩ := (hp.cover r.maxPartId.num).mp ⟨k, r, hk, hle, le_refl _⟩
  exact ⟨⟨h1, h2⟩, h3, h4⟩

/-! ## What `divide` does to versions and identifiers -/

section Split

variable {parts : PartMap} {oldId : PartId} {info : PartInfo} {median : UInt32}

theorem toNat_add_one_of_lt {a : UInt32} (h : a.toNat < u32Max) : (a + 1).toNat = a.toNat + 1 := by
  rw [UInt32.toNat_add]
  exact Nat.mod_eq_of_lt (by unfold u32Max at h; show _ < 4294967296; simp; omega)

/-- Where no version is at `u32::MAX`, a split raises or keeps the version of every
    identifier. -/
theorem mapLe_splitParts (hinfo : parts.lookup oldId = some info)
    (hroom : oldId.num + 2 ≤ info.maxPartId.num)
    (hwrap : ∀ k r, parts.lookup k = some r → r.ver.toNat < u32Max) :
    MapLe parts (splitParts parts oldId info median) := by
  -- the version a split gives an identifier: one more than its entry's, or 0
  have hbump : ∀ k (m : PartId) (lo hi : UInt32),
      VerLe (parts.lookup k) (some ⟨m, (parts.lookup k).elim 0 fun pi => pi.ver + 1, lo, hi⟩) := by
    intro k m lo hi
    cases hk : parts.lookup k with
    | none => trivial
    | some r =>
        show r.ver.toNat ≤ (r.ver + 1).toNat
        rw [toNat_add_one_of_lt (hwrap k r hk)]
        omega
  intro k
  rw [lookup_splitParts hinfo hroom]
  split_ifs with h0 h2 h1
  · subst h0
    rw [hinfo]
    show info.ver.toNat ≤ (info.ver + 1).toNat
    rw [toNat_add_one_of_lt (hwrap _ _ hinfo)]
    omega
  · subst h2; exact hbump _ _ _ _
  · subst h1; exact hbump _ _ _ _
  · exact verLe_refl _

theorem inRange_splitParts {S : PartIdSpace} (hp : InRange S parts)
    (hinfo : parts.lookup oldId = some info) (hroom : oldId.num + 2 ≤ info.maxPartId.num) :
    InRange S (splitParts parts oldId info median) := by
  obtain ⟨⟨ho1, -⟩, -, hm2⟩ := hp oldId info hinfo
  intro k r hk
  rw [lookup_splitParts hinfo hroom] at hk
  split_ifs at hk with h0 h2 h1
  · cases hk; subst h0; simp only [newNums]; omega
  · cases hk; subst h2; simp only [newNums]; omega
  · cases hk; subst h1; simp only [newNums]; omega
  · exact hp k r hk

end Split

/-! ## Replicas and the buffers between them -/

/-- A buffer that `write_buf` wrote into a `Vec<u8>`, with history: who wrote it, how many
    times the writer had called `divide` by then, and the writer's map at the time. -/
structure Message (ι : Type) where
  sender : ι
  divides : Nat
  snapshot : PartMap
  bytes : List UInt8

/-- Replicas of one repository, indexed by `ι`, and the buffers written so far.  The
    other fields are history: how many times each replica has called `divide`, its map
    right after the last of those calls, the buffers it has read, and every record a
    `divide` has left in a map. -/
structure World (ι : Type) where
  repos : ι → SeqRepo Unit
  sent : List (Message ι)
  divides : ι → Nat
  lastDivide : ι → PartMap
  read : ι → List Nat
  written : List (PartId × PartInfo)

/-- What a replica does next: `divide`, `write_buf` of its state into a new buffer, or
    `read_buf` of the `n`-th buffer written so far. -/
inductive Event (ι : Type)
  | divide (i : ι) (part : PartState)
  | send (i : ι)
  | recv (i : ι) (n : Nat)

/-- The records of a map, in its iteration order. -/
def recordsOf (parts : PartMap) : List (PartId × PartInfo) := parts.entries.map fun e => (e.1, e.2)

variable {ι : Type}

/-- The world after replica `i` wrote `bytes` into a new buffer. -/
def World.wrote (w : World ι) (i : ι) (bytes : List UInt8) : World ι :=
  { w with sent := w.sent ++ [⟨i, w.divides i, (w.repos i).parts, bytes⟩] }

section WroteFields

variable (w : World ι) (i : ι)

@[simp] theorem wrote_repos (bytes : List UInt8) : (w.wrote i bytes).repos = w.repos := rfl

@[simp] theorem wrote_lastDivide (bytes : List UInt8) : (w.wrote i bytes).lastDivide = w.lastDivide := rfl

@[simp] theorem wrote_divides (bytes : List UInt8) : (w.wrote i bytes).divides = w.divides := rfl

@[simp] theorem wrote_read (bytes : List UInt8) : (w.wrote i bytes).read = w.read := rfl

@[simp] theorem wrote_written (bytes : List UInt8) : (w.wrote i bytes).written = w.written := rfl

@[simp] theorem wrote_sent (bytes : List UInt8) :
    (w.wrote i bytes).sent = w.sent ++ [⟨i, w.divides i, (w.repos i).parts, bytes⟩] := rfl

end WroteFields

variable [DecidableEq ι]

/-- The world after replica `i` called `divide` and was left in state `r`. -/
def World.divided (w : World ι) (i : ι) (r : SeqRepo Unit) : World ι :=
  { w with repos := Function.update w.repos i r,
           divides := Function.update w.divides i (w.divides i + 1),
           lastDivide := Function.update w.lastDivide i r.parts,
           written := w.written ++ recordsOf r.parts }

/-- The world after replica `i` read the `n`-th buffer and was left in state `r`. -/
def World.readBy (w : World ι) (i : ι) (n : Nat) (r : SeqRepo Unit) : World ι :=
  { w with repos := Function.update w.repos i r, read := Function.update w.read i (n :: w.read i) }

/-- One event; `none` is a panic, or a buffer that was never written. -/
def World.exec (S : PartIdSpace) (w : World ι) : Event ι → Option (World ι)
  | .divide i part => ((w.repos i).divide part).map fun res => w.divided i res.2
  | .send i =>
    match (w.repos i).writeBuf S vecWriter [] with
    | some (.ok bytes) => some (w.wrote i bytes)
    | some (.error _) => some w
    | none => none
  | .recv i n =>
    match w.sent[n]? with
    | none => none
    | some m => some (w.readBy i n ((w.repos i).readBuf S m.bytes).2)

/-- A run: events one after another. -/
def World.run (S : PartIdSpace) : World ι → List (Event ι) → Option (World ι)
  | w, [] => some w
  | w, e :: es => (w.exec S e).bind fun w' => w'.run S es

/-- Every replica in the same state, and no buffer written yet. -/
def World.start (r : SeqRepo Unit) : World ι :=
  { repos := fun _ => r, sent := [], divides := fun _ => 0, lastDivide := fun _ => r.parts,
    read := fun _ => [], written := recordsOf r.parts }

/-- Records of one identifier and one version agree. -/
def Coherent (l : List (PartId × PartInfo)) : Prop :=
  ∀ x ∈ l, ∀ y ∈ l, x.1 = y.1 → x.2.ver = y.2.ver → x = y

instance : DecidablePred Coherent := fun l => inferInstanceAs (Decidable (∀ x ∈ l, ∀ y ∈ l, _))

theorem mem_recordsOf {parts : PartMap} {k : PartId} {r : PartInfo} (h : parts.lookup k = some r) :
    (k, r) ∈ recordsOf parts :=
  List.mem_map.mpr ⟨⟨k, r⟩, AList.mem_lookup_iff.mp h, rfl⟩

theorem writeBuf_vecWriter_eq {σ : Type} (S : PartIdSpace) (repo : SeqRepo σ) :
    repo.writeBuf S vecWriter [] = if repo.parts.entries.length ≤ u32Max
      then some (.ok (classifierBytes S repo.parts)) else none := by
  split_ifs with hlen
  · simpa using writeBuf_vecWriter S repo [] hlen
  · simp [SeqRepo.writeBuf, vecWriter, hlen]

theorem readBuf_classifierBytes_eq (S : PartIdSpace) (repo : SeqRepo Unit) {M : PartMap}
    (hM : InRange S M) (hlen : M.entries.length ≤ u32Max) :
    repo.readBuf S (classifierBytes S M) =
      (.ok (), SeqRepo.setClassifier { repo with parts := mergeMap repo.parts M }) :=
  readBuf_classifierBytes S repo (tryFrom_of_inRange hM) hlen

section Fields

variable (w : World ι) (i j : ι)

@[simp] theorem divided_repos (r : SeqRepo Unit) :
    (w.divided i r).repos j = if j = i then r else w.repos j := by
  simp [World.divided, Function.update_apply]

@[simp] theorem divided_lastDivide (r : SeqRepo Unit) :
    (w.divided i r).lastDivide j = if j = i then r.parts else w.lastDivide j := by
  simp [World.divided, Function.update_apply]

@[simp] theorem divided_divides (r : SeqRepo Unit) :
    (w.divided i r).divides j = if j = i then w.divides i + 1 else w.divides j := by
  simp [World.divided, Function.update_apply]

@[simp] theorem divided_sent (r : SeqRepo Unit) : (w.divided i r).sent = w.sent := rfl

@[simp] theorem divided_read (r : SeqRepo Unit) : (w.divided i r).read = w.read := rfl

@[simp] theorem divided_written (r : SeqRepo Unit) :
    (w.divided i r).written = w.written ++ recordsOf r.parts := rfl

@[simp] theorem readBy_repos (n : Nat) (r : SeqRepo Unit) :
    (w.readBy i n r).repos j = if j = i then r else w.repos j := by
  simp [World.readBy, Function.update_apply]

@[simp] theorem readBy_read (n : Nat) (r : SeqRepo Unit) :
    (w.readBy i n r).read j = if j = i then n :: w.read i else w.read j := by
  simp [World.readBy, Function.update_apply]

@[simp] theorem readBy_sent (n : Nat) (r : SeqRepo Unit) : (w.readBy i n r).sent = w.sent := rfl

@[simp] theorem readBy_lastDivide (n : Nat) (r : SeqRepo Unit) :
    (w.readBy i n r).lastDivide = w.lastDivide := rfl

@[simp] theorem readBy_divides (n : Nat) (r : SeqRepo Unit) : (w.readBy i n r).divides = w.divides := rfl

@[simp] theorem readBy_written (n : Nat) (r : SeqRepo Unit) : (w.readBy i n r).written = w.written := rfl

end Fields

/-! ## The run invariant -/

/-- What a map of a world keeps: identifiers in range, and every record one that a
    `divide` left, no newer than some replica's map right after its last `divide`. -/
def Held (S : PartIdSpace) (w : World ι) (M : PartMap) : Prop :=
  InRange S M ∧ ∀ k r, M.lookup k = some r →
    (k, r) ∈ w.written ∧ ∃ j, VerLe (some r) ((w.lastDivide j).lookup k)

/-- What holds in every world a run from a reachable state reaches. -/
structure Good (S : PartIdSpace) (w : World ι) : Prop where
  held : ∀ i, Held S w (w.repos i).parts
  inStep : ∀ i, (w.repos i).InStep
  lastDivide_le : ∀ i, MapLe (w.lastDivide i) (w.repos i).parts
  sent : ∀ m ∈ w.sent, Held S w m.snapshot ∧ m.bytes = classifierBytes S m.snapshot ∧
    m.snapshot.entries.length ≤ u32Max ∧ m.divides ≤ w.divides m.sender ∧
    (m.divides = w.divides m.sender → MapLe (w.lastDivide m.sender) m.snapshot)
  read_le : ∀ i, ∀ n ∈ w.read i, ∃ m, w.sent[n]? = some m ∧ MapLe m.snapshot (w.repos i).parts

omit [DecidableEq ι] in
theorem Held.mono {S : PartIdSpace} {w w' : World ι} {M : PartMap} (h : Held S w M)
    (hw : w.written ⊆ w'.written) (hl : ∀ j, MapLe (w.lastDivide j) (w'.lastDivide j)) :
    Held S w' M :=
  ⟨h.1, fun k r hk =>
    have ⟨hmem, j, hj⟩ := h.2 k r hk
    ⟨hw hmem, j, hj.trans (hl j k)⟩⟩

omit [DecidableEq ι] in
theorem held_mergeMap {S : PartIdSpace} {w : World ι} {A M : PartMap} (hA : Held S w A)
    (hM : Held S w M) : Held S w (mergeMap A M) :=
  ⟨inRange_mergeMap hA.1 hM.1, fun k r hk => (lookup_mergeMap_mem hk).elim (hA.2 k r) (hM.2 k r)⟩

/-- **STEP (divide)**: a `divide` call keeps the invariant, given that no version it
    raises is at `u32::MAX`. -/
theorem good_divided {S : PartIdSpace} {w : World ι} {i : ι} {part : PartState}
    {res : Except DivideError (List PartId × List PartId)} {r : SeqRepo Unit}
    (hw : Good S w) (hwrap : ∀ x ∈ w.written, x.2.ver.toNat < u32Max)
    (h : (w.repos i).divide part = some (res, r)) : Good S (w.divided i r) := by
  -- what the call does to the replica's own map
  have hstep : MapLe (w.repos i).parts r.parts ∧ InRange S r.parts ∧ r.InStep := by
    rcases divide_cases h with ⟨_, -, rfl⟩ | ⟨_, _, info, -, -, hinfo, hroom, -, rfl⟩
    · exact ⟨mapLe_refl _, (hw.held i).1, hw.inStep i⟩
    · exact ⟨mapLe_splitParts hinfo hroom fun k r hk => hwrap _ ((hw.held i).2 k r hk).1,
        inRange_splitParts (hw.held i).1 hinfo hroom, setClassifier_inStep _⟩
  have hheld : ∀ M, Held S w M → Held S (w.divided i r) M := fun M hM =>
    hM.mono (by simp) fun j => by
      by_cases hj : j = i
      · subst hj; simpa using (hw.lastDivide_le j).trans hstep.1
      · simpa [hj] using mapLe_refl _
  -- replica `i` holds what it divided to; every other replica is as it was
  have hrep : ∀ j, Held S (w.divided i r) ((w.divided i r).repos j).parts ∧
      ((w.divided i r).repos j).InStep ∧
      MapLe ((w.divided i r).lastDivide j) ((w.divided i r).repos j).parts ∧
      ∀ n ∈ w.read j, ∃ m, w.sent[n]? = some m ∧ MapLe m.snapshot ((w.divided i r).repos j).parts := by
    intro j
    by_cases hj : j = i
    · subst hj
      simp only [divided_repos, divided_lastDivide, if_true]
      refine ⟨⟨hstep.2.1, fun k r' hk => ⟨by simpa using Or.inr (mem_recordsOf hk), j,
        by simpa [hk] using verLe_refl (some r')⟩⟩, hstep.2.2, mapLe_refl _, fun n hn => ?_⟩
      obtain ⟨m, hm, hle⟩ := hw.read_le j n hn
      exact ⟨m, hm, hle.trans hstep.1⟩
    · simp only [divided_repos, divided_lastDivide, if_neg hj]
      exact ⟨hheld _ (hw.held j), hw.inStep j, hw.lastDivide_le j, hw.read_le j⟩
  refine ⟨fun j => (hrep j).1, fun j => (hrep j).2.1, fun j => (hrep j).2.2.1, fun m hm => ?_,
    fun j => (hrep j).2.2.2⟩
  obtain ⟨hheld', hb, hlen, hle, hlast⟩ := hw.sent m hm
  refine ⟨hheld _ hheld', hb, hlen, ?_⟩
  by_cases hj : m.sender = i
  · rw [hj] at hle ⊢
    simp only [divided_divides, if_true]
    exact ⟨by omega, fun h => by omega⟩
  · simpa [hj] using ⟨hle, hlast⟩

theorem getElem?_append_of_eq_some {α : Type} {l l' : List α} {n : Nat} {a : α} (h : l[n]? = some a) :
    (l ++ l')[n]? = some a := by
  rw [List.getElem?_append_left (List.getElem?_eq_some_iff.mp h).1, h]

omit [DecidableEq ι] in
/-- **STEP (send)**: writing a buffer keeps the invariant; the buffer is the block of the
    writer's map. -/
theorem good_wrote {S : PartIdSpace} {w : World ι} {i : ι} {bytes : List UInt8} (hw : Good S w)
    (h : (w.repos i).writeBuf S vecWriter [] = some (.ok bytes)) : Good S (w.wrote i bytes) := by
  rw [writeBuf_vecWriter_eq] at h
  split_ifs at h with hlen
  cases h
  refine ⟨hw.held, hw.inStep, hw.lastDivide_le, fun m hm => ?_, fun j n hn => ?_⟩
  · rcases List.mem_append.mp hm with hm | hm
    · exact hw.sent m hm
    · rw [List.mem_singleton.mp hm]
      exact ⟨hw.held i, rfl, hlen, le_refl _, fun _ => hw.lastDivide_le i⟩
  · obtain ⟨m, hm, hle⟩ := hw.read_le j n hn
    exact ⟨m, getElem?_append_of_eq_some hm, hle⟩

/-- **STEP (recv)**: reading a buffer keeps the invariant; the reader merges the writer's
    map into its own. -/
theorem good_readBy {S : PartIdSpace} {w : World ι} {i : ι} {n : Nat} {m : Message ι}
    (hw : Good S w) (hm : w.sent[n]? = some m) :
    Good S (w.readBy i n ((w.repos i).readBuf S m.bytes).2) := by
  obtain ⟨hheld, hb, hlen, -, -⟩ := hw.sent m (List.getElem?_mem hm)
  rw [hb, readBuf_classifierBytes_eq S _ hheld.1 hlen]
  -- the reader is left in step, with the merge of both maps, above its own
  generalize hr : SeqRepo.setClassifier { w.repos i with
    parts := mergeMap (w.repos i).parts m.snapshot } = r
  have hparts : r.parts = mergeMap (w.repos i).parts m.snapshot := by rw [← hr, setClassifier_parts]
  have hup : MapLe (w.repos i).parts r.parts := hparts ▸ mapLe_mergeMap_left _ _
  have hrep : ∀ j, Held S w ((w.readBy i n r).repos j).parts ∧ ((w.readBy i n r).repos j).InStep ∧
      MapLe (w.lastDivide j) ((w.readBy i n r).repos j).parts ∧ ∀ k ∈ (w.readBy i n r).read j,
        ∃ m', w.sent[k]? = some m' ∧ MapLe m'.snapshot ((w.readBy i n r).repos j).parts := by
    intro j
    by_cases hj : j = i
    · subst hj
      simp only [readBy_repos, readBy_read, if_true, List.forall_mem_cons]
      refine ⟨hparts ▸ held_mergeMap (hw.held j) hheld, hr ▸ setClassifier_inStep _,
        (hw.lastDivide_le j).trans hup, ⟨m, hm, hparts ▸ mapLe_mergeMap_right _ _⟩, fun k hk => ?_⟩
      obtain ⟨m', hm', hle⟩ := hw.read_le j k hk
      exact ⟨m', hm', hle.trans hup⟩
    · simp only [readBy_repos, readBy_read, if_neg hj]
      exact ⟨hw.held j, hw.inStep j, hw.lastDivide_le j, hw.read_le j⟩
  exact ⟨fun j => (hrep j).1, fun j => (hrep j).2.1, fun j => (hrep j).2.2.1, hw.sent,
    fun j => (hrep j).2.2.2⟩

theorem exec_divide {S : PartIdSpace} {w : World ι} {i : ι} {part : PartState}
    {res : Except DivideError (List PartId × List PartId)} {r : SeqRepo Unit}
    (h : (w.repos i).divide part = some (res, r)) : w.exec S (.divide i part) = some (w.divided i r) := by
  simp [World.exec, h]

theorem exec_send {S : PartIdSpace} {w : World ι} {i : ι}
    (hlen : (w.repos i).parts.entries.length ≤ u32Max) :
    w.exec S (.send i) = some (w.wrote i (classifierBytes S (w.repos i).parts)) := by
  simp only [World.exec, writeBuf_vecWriter_eq, if_pos hlen]

theorem exec_recv {S : PartIdSpace} {w : World ι} {i : ι} {n : Nat} {m : Message ι}
    (hm : w.sent[n]? = some m) :
    w.exec S (.recv i n) = some (w.readBy i n ((w.repos i).readBuf S m.bytes).2) := by
  simp only [World.exec, hm]

/-- A run takes its first event, then goes on from the world that event leaves. -/
theorem run_cons {S : PartIdSpace} {w w' : World ι} {e : Event ι} (h : w.exec S e = some w')
    (es : List (Event ι)) : w.run S (e :: es) = w'.run S es := by
  rw [World.run, h, Option.some_bind]

/-- A run to `w₁` followed by a run from `w₁` is one run. -/
theorem run_append {S : PartIdSpace} {w w₁ w₂ : World ι} {es₁ es₂ : List (Event ι)}
    (h₁ : w.run S es₁ = some w₁) (h₂ : w₁.run S es₂ = some w₂) :
    w.run S (es₁ ++ es₂) = some w₂ := by
  induction es₁ generalizing w with
  | nil => cases h₁; exact h₂
  | cons e es ih =>
      obtain ⟨w', he, hr⟩ := Option.bind_eq_some.mp h₁
      rw [List.cons_append, run_cons he]
      exact ih hr

theorem written_exec {S : PartIdSpace} {w w' : World ι} {e : Event ι} (h : w.exec S e = some w') :
    w.written ⊆ w'.written := by
  cases e with
  | divide i part =>
      obtain ⟨_, -, rfl⟩ := Option.map_eq_some'.mp h
      simp
  | send i =>
      simp only [World.exec] at h
      split at h <;> cases h <;> simp
  | recv i n =>
      simp only [World.exec] at h
      split at h <;> cases h
      simp

theorem good_exec {S : PartIdSpace} {w w' : World ι} {e : Event ι} (hw : Good S w)
    (hwrap : ∀ x ∈ w.written, x.2.ver.toNat < u32Max) (h : w.exec S e = some w') : Good S w' := by
  cases e with
  | divide i part =>
      obtain ⟨⟨_, r⟩, hd, rfl⟩ := Option.map_eq_some'.mp h
      exact good_divided hw hwrap hd
  | send i =>
      simp only [World.exec] at h
      split at h
      · cases h; exact good_wrote hw ‹_›
      · cases h; exact hw
      · cases h
  | recv i n =>
      simp only [World.exec] at h
      split at h
      · cases h
      · cases h; exact good_readBy hw ‹_›

theorem written_run {S : PartIdSpace} {w w' : World ι} {es : List (Event ι)}
    (h : w.run S es = some w') : w.written ⊆ w'.written := by
  induction es generalizing w with
  | nil => cases h; exact List.Subset.refl _
  | cons e es ih =>
      obtain ⟨w₁, h₁, h₂⟩ := Option.bind_eq_some.mp h
      exact (written_exec h₁).trans (ih h₂)

/-- **RUN**: the invariant holds at the end of every run from a world where it holds, as
    long as no record a `divide` left has its version at `u32::MAX`. -/
theorem good_run {S : PartIdSpace} {w w' : World ι} {es : List (Event ι)} (hw : Good S w)
    (h : w.run S es = some w') (hwrap : ∀ x ∈ w'.written, x.2.ver.toNat < u32Max) :
    Good S w' := by
  induction es generalizing w with
  | nil => cases h; exact hw
  | cons e es ih =>
      obtain ⟨w₁, h₁, h₂⟩ := Option.bind_eq_some.mp h
      exact ih (good_exec hw (fun x hx => hwrap x (written_run h₂ (written_exec h₁ hx))) h₁) h₂

omit [DecidableEq ι] in
theorem good_start {S : PartIdSpace} {P : Type} {rio : RepoIo Unit P} {r : SeqRepo Unit}
    (h : Reachable S rio r) : Good S (World.start r : World ι) :=
  ⟨fun i => ⟨inRange_of_reachable h, fun k r' hk =>
      ⟨mem_recordsOf hk, i, show VerLe _ (r.parts.lookup k) by rw [show r.parts.lookup k = _ from hk]; exact verLe_refl _⟩⟩,
    fun _ => reachable_inStep h, fun _ => mapLe_refl _,
    fun m hm => by simp [World.start] at hm, fun i n hn => by simp [World.start] at hn⟩

/-! ## Runs from a fresh repository -/

/-- A subdivision of partition 1 on a sample of one sequence, of length `n`. -/
def sampleOf (n : Nat) : PartState := ⟨⟨1⟩, [⟨List.replicate n 0⟩]⟩

/-- The first state splits partition 1 at the length of the one sequence it samples. -/
theorem divide_first_sampleOf {n : Nat} (hn : n ≤ u32Max) :
    ∃ res r, (SeqRepo.first plainIds ()).divide (sampleOf n) = some (res, r) ∧
      r.parts = splitParts (SeqRepo.first plainIds ()).parts ⟨1⟩ (firstInfo plainIds) n.toUInt32 :=
  ⟨_, _, divide_one_elt (AList.lookup_insert _) (by decide) (by simpa using hn), by simp⟩

/-- One replica splits partition 1 at length 5; then both write their blocks and read each
    other's. -/
def exchangeRun : List (Event Bool) :=
  [.divide true (sampleOf 5), .send true, .send false, .recv false 0, .recv true 1]

/-! ## Two replicas subdividing one partition -/

/-- Two replicas split partition 1, at lengths 5 and 7; then each writes its block and
    reads the other's. -/
def divergingRun : List (Event Bool) :=
  [.divide true (sampleOf 5), .divide false (sampleOf 7), .send true, .send false,
    .recv true 1, .recv false 0]

/-- What every world of a run keeps, however far versions wrap: identifiers in range in
    each replica's map, and each buffer written the block of an in-range map of at most
    `u32::MAX` entries. -/
structure Sane (S : PartIdSpace) (w : World ι) : Prop where
  repos : ∀ i, InRange S (w.repos i).parts
  sent : ∀ m ∈ w.sent, InRange S m.snapshot ∧ m.bytes = classifierBytes S m.snapshot ∧
    m.snapshot.entries.length ≤ u32Max

section Sane

variable {S : PartIdSpace} {w : World ι}

omit [DecidableEq ι] in
theorem sane_start {P : Type} {rio : RepoIo Unit P} {r₀ : SeqRepo Unit} (h₀ : Reachable S rio r₀) :
    Sane S (World.start r₀ : World ι) :=
  ⟨fun _ => inRange_of_reachable h₀, fun m hm => by simp [World.start] at hm⟩

omit [DecidableEq ι] in
theorem sane_wrote {i : ι} {bytes : List UInt8} (hw : Sane S w)
    (h : (w.repos i).writeBuf S vecWriter [] = some (.ok bytes)) : Sane S (w.wrote i bytes) := by
  rw [writeBuf_vecWriter_eq] at h
  split_ifs at h with hlen
  cases h
  refine ⟨hw.repos, fun m hm => ?_⟩
  rcases List.mem_append.mp hm with hm | hm
  · exact hw.sent m hm
  · rw [List.mem_singleton.mp hm]
    exact ⟨hw.repos i, rfl, hlen⟩

theorem sane_readBy {i : ι} {n : Nat} {m : Message ι} (hw : Sane S w) (hm : w.sent[n]? = some m) :
    Sane S (w.readBy i n ((w.repos i).readBuf S m.bytes).2) := by
  obtain ⟨hin, hb, hlen⟩ := hw.sent m (List.getElem?_mem hm)
  rw [hb, readBuf_classifierBytes_eq S _ hin hlen]
  refine ⟨fun j => ?_, hw.sent⟩
  by_cases hj : j = i
  · subst hj; simpa using inRange_mergeMap (hw.repos j) hin
  · simpa [hj] using hw.repos j

theorem sane_exec {w' : World ι} {e : Event ι} (hw : Sane S w) (h : w.exec S e = some w') :
    Sane S w' := by
  cases e with
  | divide i part =>
      obtain ⟨⟨_, r⟩, hd, rfl⟩ := Option.map_eq_some'.mp h
      have hr : InRange S r.parts := by
        rcases divide_cases hd with ⟨_, -, rfl⟩ | ⟨_, _, _, -, -, hinfo, hroom, -, rfl⟩
        · exact hw.repos i
        · exact inRange_splitParts (hw.repos i) hinfo hroom
      refine ⟨fun j => ?_, hw.sent⟩
      by_cases hj : j = i
      · subst hj; simpa using hr
      · simpa [hj] using hw.repos j
  | send i =>
      simp only [World.exec] at h
      split at h
      · cases h; exact sane_wrote hw ‹_›
      · cases h; exact hw
      · cases h
  | recv i n =>
      simp only [World.exec] at h
      split at h
      · cases h
      · cases h; exact sane_readBy hw ‹_›

theorem sane_run {w' : World ι} {es : List (Event ι)} (hw : Sane S w) (h : w.run S es = some w') :
    Sane S w' := by
  induction es generalizing w with
  | nil => cases h; exact hw
  | cons e es ih =>
      obtain ⟨w₁, h₁, h₂⟩ := Option.bind_eq_some.mp h
      exact ih (sane_exec hw h₁) h₂

end Sane

/-- **EVERY WRITTEN BLOCK IS ACCEPTED**: in every run from a reachable state, under any
    interleaving and however far versions wrap, each buffer written so far is the block
    of the map its writer held when it wrote it, and `read_buf` of it by any replica, at
    any later point, succeeds and merges that map into the replica's own. -/
theorem written_blocks_accepted (S : PartIdSpace) {P : Type} {rio : RepoIo Unit P}
    {r₀ : SeqRepo Unit} (h₀ : Reachable S rio r₀) {es : List (Event ι)} {w : World ι}
    (hrun : (World.start r₀ : World ι).run S es = some w) (i : ι) {n : Nat} {m : Message ι}
    (hm : w.sent[n]? = some m) :
    m.bytes = classifierBytes S m.snapshot ∧
      (w.repos i).readBuf S m.bytes = (.ok (), SeqRepo.setClassifier
        { w.repos i with parts := mergeMap (w.repos i).parts m.snapshot }) := by
  have hw := sane_run (sane_start h₀) hrun
  obtain ⟨hin, hb, hlen⟩ := hw.sent m (List.getElem?_mem hm)
  exact ⟨hb, hb ▸ readBuf_classifierBytes_eq S _ hin hlen⟩

/-- The world `exchangeRun` reaches has written a first buffer. -/
theorem run_exchangeRun :
    ∃ w, (World.start (SeqRepo.first plainIds ()) : World Bool).run plainIds exchangeRun = some w ∧
      ∃ m, w.sent[0]? = some m := by
  obtain ⟨res5, r5, h5, hp5⟩ := divide_first_sampleOf (n := 5) (by decide)
  have hlen5 : r5.parts.entries.length ≤ u32Max := by rw [hp5]; decide
  have hlen1 : (SeqRepo.first plainIds ()).parts.entries.length ≤ u32Max := by decide
  rcases hrun : (World.start (SeqRepo.first plainIds ()) : World Bool).run plainIds exchangeRun
    with _ | w
  all_goals
    have hcomp := hrun
    rw [exchangeRun, run_cons (exec_divide h5), run_cons (exec_send hlen5),
      run_cons (exec_send hlen1),
      run_cons (exec_recv (m := ⟨true, 1, r5.parts, classifierBytes plainIds r5.parts⟩) rfl),
      run_cons (exec_recv (m := ⟨false, 0, (SeqRepo.first plainIds ()).parts,
        classifierBytes plainIds (SeqRepo.first plainIds ()).parts⟩) rfl), World.run] at hcomp
    cases hcomp
  exact ⟨_, rfl, _, rfl⟩

theorem written_blocks_accepted_exchange :
    Reachable plainIds okIo (SeqRepo.first plainIds ()) ∧
    ∃ w, (World.start (SeqRepo.first plainIds ()) : World Bool).run plainIds exchangeRun = some w ∧
      ∃ m, w.sent[0]? = some m ∧ m.bytes = classifierBytes plainIds m.snapshot ∧
        (w.repos false).readBuf plainIds m.bytes = (.ok (), SeqRepo.setClassifier
          { w.repos false with parts := mergeMap (w.repos false).parts m.snapshot }) :=
  have ⟨w, hrun, m, hm⟩ := run_exchangeRun
  ⟨reachable_first plainIds, w, hrun, m, hm,
    written_blocks_accepted plainIds (reachable_first plainIds) hrun false hm⟩

/-! ## Versions never go back -/

/-- One event raises or keeps every version each replica holds, and removes no
    identifier, where no record a `divide` left has its version at `u32::MAX`. -/
theorem mapLe_exec {S : PartIdSpace} {w w' : World ι} {e : Event ι} (hw : Good S w)
    (hwrap : ∀ x ∈ w.written, x.2.ver.toNat < u32Max) (h : w.exec S e = some w') (j : ι) :
    MapLe (w.repos j).parts (w'.repos j).parts := by
  cases e with
  | divide i part =>
      obtain ⟨⟨_, r⟩, hd, rfl⟩ := Option.map_eq_some'.mp h
      rw [divided_repos]
      split_ifs with hj
      · subst hj
        rcases divide_cases hd with ⟨_, -, rfl⟩ | ⟨_, _, _, -, -, hinfo, hroom, -, rfl⟩
        · exact mapLe_refl _
        · exact mapLe_splitParts hinfo hroom fun k r hk => hwrap _ ((hw.held j).2 k r hk).1
      · exact mapLe_refl _
  | send i =>
      simp only [World.exec] at h
      split at h <;> cases h <;> exact mapLe_refl _
  | recv i n =>
      simp only [World.exec] at h
      split at h
      · cases h
      · rename_i m hm
        cases h
        obtain ⟨hheld, hb, hlen, -, -⟩ := hw.sent m (List.getElem?_mem hm)
        rw [readBy_repos]
        split_ifs with hj
        · subst hj
          rw [hb, readBuf_classifierBytes_eq S _ hheld.1 hlen, setClassifier_parts]
          exact mapLe_mergeMap_left _ _
        · exact mapLe_refl _

theorem mapLe_run {S : PartIdSpace} {w w' : World ι} {es : List (Event ι)} (hw : Good S w)
    (h : w.run S es = some w') (hwrap : ∀ x ∈ w'.written, x.2.ver.toNat < u32Max) (j : ι) :
    MapLe (w.repos j).parts (w'.repos j).parts := by
  induction es generalizing w with
  | nil => cases h; exact mapLe_refl _
  | cons e es ih =>
      obtain ⟨w₁, h₁, h₂⟩ := Option.bind_eq_some.mp h
      have hwrap₁ : ∀ x ∈ w.written, x.2.ver.toNat < u32Max :=
        fun x hx => hwrap x (written_run h₂ (written_exec h₁ hx))
      exact (mapLe_exec hw hwrap₁ h₁ j).trans (ih (good_exec hw hwrap₁ h₁) h₂)

/-! ## Read order -/

/-- What `read_buf` leaves for one identifier, from the stored record and the block's. -/
def mergeOpt : Option PartInfo → Option PartInfo → Option PartInfo
  | some a, some m => some (keepNewer a m)
  | a, none => a
  | none, m => m

theorem lookup_mergeMap_eq (A M : PartMap) (k : PartId) :
    (mergeMap A M).lookup k = mergeOpt (A.lookup k) (M.lookup k) := by
  rw [lookup_mergeMap]
  cases A.lookup k <;> cases M.lookup k <;> rfl

/-- Two records, where both are present, are equal when their versions are. -/
def Agree (a b : Option PartInfo) : Prop :=
  ∀ x y, a = some x → b = some y → x.ver = y.ver → x = y

theorem keepNewer_comm {a b : PartInfo} (h : a.ver = b.ver → a = b) :
    keepNewer a b = keepNewer b a := by
  unfold keepNewer
  simp only [gt_iff_lt, u32_lt_iff]
  split_ifs with h1 h2 <;> first | rfl | omega | exact h (UInt32.toNat.inj (by omega))

/-- **SWAP**: where two incoming records of equal version are equal, keeping the newer
    record does not depend on the order they arrive in.  A tie with the stored record
    keeps the stored record either way. -/
theorem keepNewer_right_comm {a b c : PartInfo} (hbc : b.ver = c.ver → b = c) :
    keepNewer (keepNewer a b) c = keepNewer (keepNewer a c) b := by
  unfold keepNewer
  simp only [gt_iff_lt, u32_lt_iff]
  split_ifs <;> first | rfl | omega | exact hbc (UInt32.toNat.inj (by omega))

theorem mergeOpt_right_comm {a b c : Option PartInfo} (hbc : Agree b c) :
    mergeOpt (mergeOpt a b) c = mergeOpt (mergeOpt a c) b := by
  cases a <;> cases b <;> cases c <;> simp only [mergeOpt]
  · exact congrArg some (keepNewer_comm (hbc _ _ rfl rfl))
  · exact congrArg some (keepNewer_right_comm (hbc _ _ rfl rfl))

/-- Records of coherent maps agree. -/
theorem agree_of_coherent {A B : PartMap} {l : List (PartId × PartInfo)} (hcoh : Coherent l)
    (hA : recordsOf A ⊆ l) (hB : recordsOf B ⊆ l) (k : PartId) :
    Agree (A.lookup k) (B.lookup k) := fun x y hx hy hv =>
  congrArg Prod.snd (hcoh (k, x) (hA (mem_recordsOf hx)) (k, y) (hB (mem_recordsOf hy)) rfl hv)

/-- **READ ORDER**: where the records of two maps agree on each identifier and version, a
    replica that reads the blocks of both accepts them and ends with the same records
    whichever it reads first, whatever it held before. -/
theorem readBuf_order_independent (S : PartIdSpace) {σ : Type} (repo : SeqRepo σ)
    {M₁ M₂ : PartMap} (h₁ : InRange S M₁) (h₂ : InRange S M₂) (hl₁ : M₁.entries.length ≤ u32Max)
    (hl₂ : M₂.entries.length ≤ u32Max)
    (hcoh : Coherent (recordsOf M₁ ++ recordsOf M₂)) :
    ((repo.readBuf S (classifierBytes S M₁)).2.readBuf S (classifierBytes S M₂)).1 = .ok () ∧
      ((repo.readBuf S (classifierBytes S M₂)).2.readBuf S (classifierBytes S M₁)).1 = .ok () ∧
      ∀ k, ((repo.readBuf S (classifierBytes S M₁)).2.readBuf S (classifierBytes S M₂)).2.parts.lookup k =
        ((repo.readBuf S (classifierBytes S M₂)).2.readBuf S (classifierBytes S M₁)).2.parts.lookup k := by
  have hread : ∀ {M : PartMap} (r : SeqRepo σ), InRange S M → M.entries.length ≤ u32Max →
      r.readBuf S (classifierBytes S M) =
        (.ok (), SeqRepo.setClassifier { r with parts := mergeMap r.parts M }) :=
    fun r hM hl => readBuf_classifierBytes S r (tryFrom_of_inRange hM) hl
  simp only [hread _ h₁ hl₁, hread _ h₂ hl₂, setClassifier_parts, lookup_mergeMap_eq, true_and]
  exact fun k => mergeOpt_right_comm (agree_of_coherent hcoh (List.subset_append_left _ _)
    (List.subset_append_right _ _) k)

/-- The map of `init_first`, and the same map after splitting partition 1 at length 5. -/
theorem readBuf_order_independent_split :
    InRange plainIds (splitParts (SeqRepo.first plainIds ()).parts ⟨1⟩ (firstInfo plainIds) 5) ∧
    InRange plainIds (SeqRepo.first plainIds ()).parts ∧
    (splitParts (SeqRepo.first plainIds ()).parts ⟨1⟩ (firstInfo plainIds) 5).entries.length ≤
      u32Max ∧
    (SeqRepo.first plainIds ()).parts.entries.length ≤ u32Max ∧
    Coherent (recordsOf (splitParts (SeqRepo.first plainIds ()).parts ⟨1⟩ (firstInfo plainIds) 5) ++
      recordsOf (SeqRepo.first plainIds ()).parts) ∧
    (((SeqRepo.new ()).readBuf plainIds (classifierBytes plainIds
        (splitParts (SeqRepo.first plainIds ()).parts ⟨1⟩ (firstInfo plainIds) 5))).2.readBuf
        plainIds (classifierBytes plainIds (SeqRepo.first plainIds ()).parts)).1 = .ok () ∧
      (((SeqRepo.new ()).readBuf plainIds (classifierBytes plainIds
        (SeqRepo.first plainIds ()).parts)).2.readBuf plainIds (classifierBytes plainIds
        (splitParts (SeqRepo.first plainIds ()).parts ⟨1⟩ (firstInfo plainIds) 5))).1 = .ok () ∧
      ∀ k, (((SeqRepo.new ()).readBuf plainIds (classifierBytes plainIds
        (splitParts (SeqRepo.first plainIds ()).parts ⟨1⟩ (firstInfo plainIds) 5))).2.readBuf
        plainIds (classifierBytes plainIds (SeqRepo.first plainIds ()).parts)).2.parts.lookup k =
      (((SeqRepo.new ()).readBuf plainIds (classifierBytes plainIds
        (SeqRepo.first plainIds ()).parts)).2.readBuf plainIds (classifierBytes plainIds
        (splitParts (SeqRepo.first plainIds ()).parts ⟨1⟩ (firstInfo plainIds) 5))).2.parts.lookup k :=
  have h₁ : InRange plainIds
      (splitParts (SeqRepo.first plainIds ()).parts ⟨1⟩ (firstInfo plainIds) 5) :=
    inRange_splitParts (inRange_of_reachable (reachable_first plainIds)) (AList.lookup_insert _)
      (by decide)
  have h₂ := inRange_of_reachable (reachable_first plainIds)
  have hl₁ : (splitParts (SeqRepo.first plainIds ()).parts ⟨1⟩ (firstInfo plainIds) 5).entries.length
      ≤ u32Max := by decide
  have hl₂ : (SeqRepo.first plainIds ()).parts.entries.length ≤ u32Max := by decide
  have hcoh : Coherent (recordsOf (splitParts (SeqRepo.first plainIds ()).parts ⟨1⟩
      (firstInfo plainIds) 5) ++ recordsOf (SeqRepo.first plainIds ()).parts) := by decide
  ⟨h₁, h₂, hl₁, hl₂, hcoh, readBuf_order_independent plainIds (SeqRepo.new ()) h₁ h₂ hl₁ hl₂ hcoh⟩

end Pippin
