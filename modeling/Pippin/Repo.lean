import Pippin.Classifier

/-! # `SeqRepo`: the first partition, subdivision, and the classifier view

    `init_first` records partition 1 over every identifier and every length.  `divide`
    samples the lengths of up to 999 elements of a partition, takes their median, and
    splits the partition's identifiers and lengths in two; the old entry stays in the
    map, retired (`max_len = min_len`).  After each change `set_classifier` rebuilds the
    sorted list of lower bounds from the entries still in use.

    Each method of `&mut self` returns what the Rust method returns together with the
    receiver's new state; `none` is a panic (a failed `assert!` or an index out of
    bounds).  The spec lemmas `initFirst_eq`, `divide_cases` and `lookup_splitParts` say
    once what a call can do; the invariants over whole runs are derived from them. -/

namespace Pippin

variable {σ P : Type}

/-! ## `set_classifier` -/

/-- The classes `set_classifier` collects: `(min_len, id)` of every entry in use
    (`max_len > min_len`), in the map's iteration order. -/
def liveClasses (parts : PartMap) : List (Nat × PartId) :=
  parts.entries.filterMap fun e =>
    if e.2.minLen < e.2.maxLen then some (e.2.minLen.toNat, e.1) else none

/-- The class list `set_classifier` builds: `liveClasses`, stably sorted by min length. -/
def classesOf (parts : PartMap) : List (Nat × PartId) :=
  (liveClasses parts).mergeSort fun a b => decide (a.1 ≤ b.1)

/-- `SeqRepo::set_classifier`. -/
def SeqRepo.setClassifier (repo : SeqRepo σ) : SeqRepo σ :=
  { repo with csf := ⟨classesOf repo.parts⟩ }

/-- The classifier view is in step with the map: `csf.classes` is exactly what
    `set_classifier` builds from `parts`. -/
def SeqRepo.InStep (repo : SeqRepo σ) : Prop := repo.csf.classes = classesOf repo.parts

@[simp] theorem setClassifier_parts (repo : SeqRepo σ) :
    repo.setClassifier.parts = repo.parts := rfl

@[simp] theorem setClassifier_io (repo : SeqRepo σ) : repo.setClassifier.io = repo.io := rfl

@[simp] theorem setClassifier_csf (repo : SeqRepo σ) :
    repo.setClassifier.csf = ⟨classesOf repo.parts⟩ := rfl

theorem setClassifier_inStep (repo : SeqRepo σ) : repo.setClassifier.InStep := rfl

theorem mem_liveClasses {parts : PartMap} {b : Nat} {id : PartId} :
    (b, id) ∈ liveClasses parts ↔
      ∃ r, parts.lookup id = some r ∧ r.minLen < r.maxLen ∧ b = r.minLen.toNat := by
  simp only [liveClasses, List.mem_filterMap, Option.ite_none_right_eq_some,
    Option.some.injEq, Prod.mk.injEq]
  constructor
  · rintro ⟨⟨k, r⟩, he, hlt, rfl, rfl⟩
    exact ⟨r, AList.mem_lookup_iff.mpr he, hlt, rfl⟩
  · rintro ⟨r, hr, hlt, rfl⟩
    exact ⟨⟨id, r⟩, AList.mem_lookup_iff.mp hr, hlt, rfl, rfl⟩

theorem perm_classesOf (parts : PartMap) : (classesOf parts).Perm (liveClasses parts) :=
  List.mergeSort_perm _ _

theorem mem_classesOf {parts : PartMap} {e : Nat × PartId} :
    e ∈ classesOf parts ↔ e ∈ liveClasses parts :=
  (perm_classesOf parts).mem_iff

/-- `set_classifier` sorts by lower bound. -/
theorem sorted_classesOf (parts : PartMap) : BoundsSorted (classesOf parts) := by
  have h := @List.sorted_mergeSort _ (fun (a b : Nat × PartId) => decide (a.1 ≤ b.1))
    (fun a b c hab hbc => by simp only [decide_eq_true_eq] at *; omega)
    (fun a b => by simpa using Nat.le_total a.1 b.1) (liveClasses parts)
  exact h.imp (fun h => by simpa using h)

/-- `set_classifier` reads only what the map holds: maps with the same lookups give the
    same classes, up to order. -/
theorem perm_liveClasses {A B : PartMap} (h : ∀ k, A.lookup k = B.lookup k) :
    (liveClasses A).Perm (liveClasses B) :=
  (List.lookup_ext A.nodupKeys B.nodupKeys fun k r => by
    show r ∈ A.lookup k ↔ r ∈ B.lookup k
    rw [h]).filterMap _

/-! ## `init_first` -/

/-- The record `init_first` gives partition 1: every identifier up to `max_num`,
    version 0, lengths `0 ..= u32::MAX`. -/
def firstInfo (S : PartIdSpace) : PartInfo :=
  { maxPartId := ⟨S.maxNum⟩, ver := 0, minLen := 0, maxLen := 4294967295 }

/-- `SeqRepo::init_first`: `none` where `assert!(self.parts.is_empty())` fails. -/
def SeqRepo.initFirst (S : PartIdSpace) (rio : RepoIo σ P) (repo : SeqRepo σ) :
    Option (Except Error P × SeqRepo σ) :=
  if repo.parts.entries.isEmpty then
    let pId : PartId := ⟨1⟩
    let repo := SeqRepo.setClassifier { repo with parts := repo.parts.insert pId (firstInfo S) }
    match rio.addPartition repo.io pId "" with
    | (.error e, io) => some (.error e, { repo with io })
    | (.ok (), io) =>
      let (res, io) := rio.makePartitionIo io pId
      some (res, { repo with io })
  else none

/-- **INIT_FIRST**: on an empty map `init_first` always records partition 1 and brings
    the classifier in step, whichever of its I/O calls fails; on any other map it
    panics. -/
theorem initFirst_eq (S : PartIdSpace) (rio : RepoIo σ P) (repo : SeqRepo σ) :
    (repo.parts = ∅ → ∃ res io, repo.initFirst S rio = some (res, { repo with
      csf := ⟨classesOf ((∅ : PartMap).insert ⟨1⟩ (firstInfo S))⟩, io,
      parts := (∅ : PartMap).insert ⟨1⟩ (firstInfo S) })) ∧
    (repo.parts ≠ ∅ → repo.initFirst S rio = none) := by
  constructor
  · intro h
    simp only [SeqRepo.initFirst, h, AList.empty_entries, List.isEmpty_nil, if_true]
    split
    · exact ⟨_, _, rfl⟩
    · exact ⟨_, _, rfl⟩
  · intro h
    have : repo.parts.entries ≠ [] := fun he => h (AList.ext (by rw [he]; rfl))
    simp only [SeqRepo.initFirst]
    rw [if_neg (by simpa [List.isEmpty_iff] using this)]

/-! ## `divide` -/

/-- The lengths of the sampled elements as `u32`s; `none` where
    `assert!(seq.v.len() <= u32::MAX as usize)` fails. -/
def lensOf : List Sequence → Option (List UInt32)
  | [] => some []
  | seq :: rest =>
    if seq.v.length ≤ u32Max then (lensOf rest).map (seq.v.length.toUInt32 :: ·) else none

/-- Step 1 of `divide`: `lens.sort(); lens[lens.len() / 2]`, `none` out of bounds. -/
def medianOf (lens : List UInt32) : Option UInt32 :=
  let lens := lens.mergeSort fun a b => decide (a ≤ b)
  lens[lens.length / 2]?

/-- Step 2 of `divide`: the new partition numbers `num1 = old + 1` and
    `num2 = num1 + (max - old) / 2`. -/
def newNums (oldNum maxNum : Nat) : Nat × Nat :=
  (oldNum + 1, oldNum + 1 + (maxNum - oldNum) / 2)

/-- Step 3 of `divide`: the map after splitting `oldId`, whose record is `info`, at
    `median`.  Versions of existing entries for the new identifiers go up by one. -/
def splitParts (parts : PartMap) (oldId : PartId) (info : PartInfo) (median : UInt32) :
    PartMap :=
  let (num1, num2) := newNums oldId.num info.maxPartId.num
  let id1 : PartId := ⟨num1⟩
  let id2 : PartId := ⟨num2⟩
  let ver := (parts.lookup id1).elim 0 fun pi => pi.ver + 1
  let parts := parts.insert id1
    { maxPartId := ⟨num2 - 1⟩, ver, minLen := info.minLen, maxLen := median - 1 }
  let ver := (parts.lookup id2).elim 0 fun pi => pi.ver + 1
  let parts := parts.insert id2
    { maxPartId := info.maxPartId, ver, minLen := median, maxLen := info.maxLen }
  match parts.lookup oldId with
  | some pi =>
    parts.insert oldId { pi with maxPartId := oldId, ver := pi.ver + 1, maxLen := pi.minLen }
  | none => parts

section Split

variable {parts : PartMap} {oldId : PartId} {info : PartInfo} {median : UInt32}

/-- The new identifiers differ from the divided one and from each other when there is
    room for two of them. -/
theorem newNums_ne (hroom : oldId.num + 2 ≤ info.maxPartId.num) :
    (⟨(newNums oldId.num info.maxPartId.num).1⟩ : PartId) ≠ oldId ∧
    (⟨(newNums oldId.num info.maxPartId.num).2⟩ : PartId) ≠ oldId ∧
    (⟨(newNums oldId.num info.maxPartId.num).2⟩ : PartId) ≠
      ⟨(newNums oldId.num info.maxPartId.num).1⟩ := by
  obtain ⟨o⟩ := oldId
  simp only [newNums, ne_eq, PartId.mk.injEq] at hroom ⊢
  refine ⟨?_, ?_, ?_⟩ <;> omega

/-- **SPLIT**: what `divide` leaves at each identifier: the divided entry retired, the
    upper half at `num2`, the lower half at `num1`, every other entry unchanged. -/
theorem lookup_splitParts (hinfo : parts.lookup oldId = some info)
    (hroom : oldId.num + 2 ≤ info.maxPartId.num) (k : PartId) :
    (splitParts parts oldId info median).lookup k =
      if k = oldId then
        some { info with maxPartId := oldId, ver := info.ver + 1, maxLen := info.minLen }
      else if k = ⟨(newNums oldId.num info.maxPartId.num).2⟩ then
        some { maxPartId := info.maxPartId,
               ver := (parts.lookup ⟨(newNums oldId.num info.maxPartId.num).2⟩).elim 0
                 fun pi => pi.ver + 1,
               minLen := median, maxLen := info.maxLen }
      else if k = ⟨(newNums oldId.num info.maxPartId.num).1⟩ then
        some { maxPartId := ⟨(newNums oldId.num info.maxPartId.num).2 - 1⟩,
               ver := (parts.lookup ⟨(newNums oldId.num info.maxPartId.num).1⟩).elim 0
                 fun pi => pi.ver + 1,
               minLen := info.minLen, maxLen := median - 1 }
      else parts.lookup k := by
  obtain ⟨h1, h2, h21⟩ := newNums_ne hroom
  simp only [splitParts, AList.lookup_insert_ne h2.symm, AList.lookup_insert_ne h1.symm,
    hinfo, AList.lookup_insert_ne h21]
  by_cases hk : k = oldId
  · subst hk; simp
  rw [AList.lookup_insert_ne hk, if_neg hk]
  by_cases hk2 : k = ⟨(newNums oldId.num info.maxPartId.num).2⟩
  · subst hk2; simp
  rw [AList.lookup_insert_ne hk2, if_neg hk2]
  by_cases hk1 : k = ⟨(newNums oldId.num info.maxPartId.num).1⟩
  · subst hk1; simp
  rw [AList.lookup_insert_ne hk1, if_neg hk1]

end Split

/-- `SeqRepo::divide`: split a partition at the median length of a sample of its
    elements.  The `Ok` value lists the new identifiers and the (always empty) list of
    obsoleted ones. -/
def SeqRepo.divide (repo : SeqRepo σ) (part : PartState) :
    Option (Except DivideError (List PartId × List PartId) × SeqRepo σ) :=
  if part.numAvail < 1 then some (.error .notSubdivisible, repo) else
  match lensOf (part.elts.take 999) with
  | none => none
  | some lens =>
    match medianOf lens with
    | none => none
    | some median =>
      match repo.parts.lookup part.partId with
      | none => some (.error (.msg "missing info"), repo)
      | some info =>
        if info.maxPartId.num < part.partId.num + 2 then
          some (.error .notSubdivisible, repo)
        else
          let (num1, num2) := newNums part.partId.num info.maxPartId.num
          some (.ok ([⟨num1⟩, ⟨num2⟩], []), SeqRepo.setClassifier
            { repo with parts := splitParts repo.parts part.partId info median })

theorem medianOf_singleton (x : UInt32) : medianOf [x] = some x := by
  simp [medianOf, List.mergeSort]

/-- The median `divide` takes is one of the sampled lengths. -/
theorem mem_of_medianOf {lens : List UInt32} {m : UInt32} (h : medianOf lens = some m) :
    m ∈ lens :=
  (List.mergeSort_perm _ _).subset (List.mem_iff_getElem?.mpr ⟨_, h⟩)

/-- The sampled lengths are those of the sampled elements, each of which fits in a
    `u32`. -/
theorem lensOf_eq_some {l : List Sequence} {lens : List UInt32} (h : lensOf l = some lens) :
    lens = l.map (fun s => s.v.length.toUInt32) ∧ ∀ s ∈ l, s.v.length ≤ u32Max := by
  induction l generalizing lens with
  | nil => cases h; exact ⟨rfl, fun _ h => nomatch h⟩
  | cons s l ih =>
      simp only [lensOf] at h
      split_ifs at h with hs
      obtain ⟨lens', h', rfl⟩ := Option.map_eq_some'.mp h
      obtain ⟨rfl, hl⟩ := ih h'
      exact ⟨rfl, List.forall_mem_cons.mpr ⟨hs, hl⟩⟩

/-- **MEDIAN**: at most half of the sampled lengths lie below the median. -/
theorem countP_lt_medianOf {lens : List UInt32} {m : UInt32} (h : medianOf lens = some m) :
    lens.countP (fun x => decide (x < m)) ≤ lens.length / 2 := by
  unfold medianOf at h
  have hperm := List.mergeSort_perm lens fun a b => decide (a ≤ b)
  have hsorted : (lens.mergeSort fun a b => decide (a ≤ b)).Pairwise
      (fun a b => decide (a ≤ b)) := List.sorted_mergeSort
    (fun a b c hab hbc => by simp only [decide_eq_true_eq] at *; exact UInt32.le_trans hab hbc)
    (fun a b => by simpa using UInt32.le_total a b) lens
  rw [← hperm.countP_eq, ← hperm.length_eq]
  generalize lens.mergeSort (fun a b => decide (a ≤ b)) = s at h hsorted
  obtain ⟨hlt, hm⟩ := List.getElem?_eq_some_iff.mp h
  -- from the median on, no length lies below it
  have hdrop : (s.drop (s.length / 2)).countP (fun x => decide (x < m)) = 0 := by
    have hpw := hsorted.sublist (List.drop_sublist (s.length / 2) s)
    rw [List.drop_eq_getElem_cons hlt, hm] at hpw ⊢
    refine List.countP_eq_zero.mpr fun x hx => ?_
    rcases List.mem_cons.mp hx with rfl | hx
    · simp
    · simpa using List.rel_of_pairwise_cons hpw hx
  calc s.countP (fun x => decide (x < m))
      = (s.take (s.length / 2)).countP (fun x => decide (x < m)) := by
        conv_lhs => rw [← List.take_append_drop (s.length / 2) s]
        rw [List.countP_append, hdrop, Nat.add_zero]
    _ ≤ (s.take (s.length / 2)).length := List.countP_le_length _
    _ ≤ s.length / 2 := by simp

/-- The lookup in a map of one entry. -/
theorem lookup_insert_empty (k₀ k : PartId) (v : PartInfo) :
    ((∅ : PartMap).insert k₀ v).lookup k = if k = k₀ then some v else none := by
  by_cases h : k = k₀
  · subst h; rw [if_pos rfl]; exact AList.lookup_insert _
  · rw [AList.lookup_insert_ne h, if_neg h]; rfl

/-- **DIVIDE**: a call either fails and leaves the state as it was, or succeeds on a
    sampled median, the divided partition's record and enough identifiers, and leaves
    the split map with the classifier in step. -/
theorem divide_cases {repo repo' : SeqRepo σ} {part : PartState}
    {res : Except DivideError (List PartId × List PartId)}
    (h : repo.divide part = some (res, repo')) :
    (∃ e, res = .error e ∧ repo' = repo) ∨
    ∃ lens median info, lensOf (part.elts.take 999) = some lens ∧
      medianOf lens = some median ∧ repo.parts.lookup part.partId = some info ∧
      part.partId.num + 2 ≤ info.maxPartId.num ∧
      res = .ok ([⟨(newNums part.partId.num info.maxPartId.num).1⟩,
        ⟨(newNums part.partId.num info.maxPartId.num).2⟩], []) ∧
      repo' = SeqRepo.setClassifier
        { repo with parts := splitParts repo.parts part.partId info median } := by
  simp only [SeqRepo.divide] at h
  split at h
  · cases h; exact .inl ⟨_, rfl, rfl⟩
  split at h
  · cases h
  rename_i lens hlens
  split at h
  · cases h
  rename_i median hmed
  split at h
  · cases h; exact .inl ⟨_, rfl, rfl⟩
  rename_i info hinfo
  split at h
  · cases h; exact .inl ⟨_, rfl, rfl⟩
  cases h
  exact .inr ⟨lens, median, info, hlens, hmed, hinfo, by omega, rfl, rfl⟩

/-- `divide` on a sample of one element: a split at that element's length. -/
theorem divide_one_elt {repo : SeqRepo σ} {oldId : PartId} {info : PartInfo} {seq : Sequence}
    (hinfo : repo.parts.lookup oldId = some info)
    (hroom : oldId.num + 2 ≤ info.maxPartId.num) (hlen : seq.v.length ≤ u32Max) :
    repo.divide ⟨oldId, [seq]⟩ = some (.ok ([⟨(newNums oldId.num info.maxPartId.num).1⟩,
        ⟨(newNums oldId.num info.maxPartId.num).2⟩], []), SeqRepo.setClassifier
      { repo with parts := splitParts repo.parts oldId info seq.v.length.toUInt32 }) := by
  have hsample : lensOf (List.take 999 [seq]) = some [seq.v.length.toUInt32] := by
    simp [lensOf, hlen]
  simp only [SeqRepo.divide, PartState.numAvail, List.length_singleton, hsample,
    medianOf_singleton, hinfo]
  rw [if_neg (by decide), if_neg (by omega)]

end Pippin
