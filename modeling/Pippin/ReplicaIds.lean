import Pippin.Replicas

/-! # Identifier intervals across replicas

    Replicas of a repository that subdivide partitions on their own and read each
    other's classifier blocks in any order keep, in every replica, identifier intervals
    that partition `[1, max_num]`, and every record ever left by a `divide` at version 0
    or 1.  No assumption is needed: not the agreement of records that
    `replicas_converge` asks for, nor a safe median.

        replica_ids_partition
        replica_ids_agree
        replica_retired_never_returns
        replicas_converge_on_ids

    So no version ever wraps (`good_of_run`): the proviso of the run invariant of
    `Replicas` always holds, and `Convergence` builds on that.  The reason is that the
    identifiers a split gives its halves, `num1 = old + 1` and
    `num2 = num1 + (max - old) / 2` with maximal identifiers `num2 - 1` and `max`, depend
    on the divided interval alone, not on the median: all replicas grow one tree of
    identifier intervals, and two replicas that hold one identifier in use, at any two
    points of a run, give it one interval.
    Since versions only go up while they do not wrap, a partition a replica has retired
    stays retired there, whatever stale block it reads later; and replicas that have
    exchanged their blocks hold the same identifiers at the same versions, whether or not
    their records agree.

    The argument looks at all records ever left by a `divide` at once (`IdsTree`).  Each
    is in use at version 0 or retired at version 1 (`Shaped`); records in use of one key
    claim one interval; two intervals in use are apart or nested; and an interval with
    another inside it has been split, the intervals of its halves among the records.
    Every map a replica holds, and every block it writes, is a cut of that tree
    (`IdsCut`).  A split adds the halves below a leaf, or repeats intervals another
    replica already added; and `read_buf`, which keeps the retired record over the one
    in use, joins two cuts into a cut (`idsCut_mergeMap`). -/

namespace Pippin

/-! ## Records as `divide` leaves them -/

/-- A record as `divide` leaves it: in use at version 0 with a nonempty identifier
    interval, or retired at version 1, its interval and length range cut down to its key
    and its lower bound. -/
def Shaped (x : PartId × PartInfo) : Prop :=
  (x.2.ver = 0 ∧ x.1.num ≤ x.2.maxPartId.num) ∨
    (x.2.ver = 1 ∧ x.2.maxPartId = x.1 ∧ x.2.maxLen = x.2.minLen)

/-- The identifier interval of `x` lies inside that of `y`. -/
def IdsWithin (x y : PartId × PartInfo) : Prop :=
  y.1.num ≤ x.1.num ∧ x.2.maxPartId.num ≤ y.2.maxPartId.num

/-- The identifier intervals of `x` and `y` are disjoint. -/
def IdsApart (x y : PartId × PartInfo) : Prop :=
  x.2.maxPartId.num < y.1.num ∨ y.2.maxPartId.num < x.1.num

/-- The record `divide` leaves for the lower half of `x` split at `median`, where the new
    identifier had no entry. -/
def lowerHalf (x : PartId × PartInfo) (median : UInt32) : PartId × PartInfo :=
  (⟨(newNums x.1.num x.2.maxPartId.num).1⟩,
    ⟨⟨(newNums x.1.num x.2.maxPartId.num).2 - 1⟩, 0, x.2.minLen, median - 1⟩)

/-- The record `divide` leaves for the upper half of `x` split at `median`, where the new
    identifier had no entry. -/
def upperHalf (x : PartId × PartInfo) (median : UInt32) : PartId × PartInfo :=
  (⟨(newNums x.1.num x.2.maxPartId.num).2⟩, ⟨x.2.maxPartId, 0, median, x.2.maxLen⟩)

/-- `G` holds records in use for the intervals a split of `x` gives its two halves. -/
def SplitIn (G : List (PartId × PartInfo)) (x : PartId × PartInfo) : Prop :=
  (∃ r, (⟨(newNums x.1.num x.2.maxPartId.num).1⟩, r) ∈ G ∧ r.ver = 0 ∧
      r.maxPartId = ⟨(newNums x.1.num x.2.maxPartId.num).2 - 1⟩) ∧
    ∃ r, (⟨(newNums x.1.num x.2.maxPartId.num).2⟩, r) ∈ G ∧ r.ver = 0 ∧
      r.maxPartId = x.2.maxPartId

/-- The records left by every `divide` so far form one tree of identifier intervals: each
    is shaped and in `[1, N]`; records in use of one key claim one interval; two
    intervals in use are apart or nested; and an interval in use with another inside it
    has been split. -/
structure IdsTree (N : Nat) (G : List (PartId × PartInfo)) : Prop where
  shaped : ∀ x ∈ G, Shaped x
  range : ∀ x ∈ G, 1 ≤ x.1.num ∧ x.2.maxPartId.num ≤ N
  agree : ∀ x ∈ G, ∀ y ∈ G, x.2.ver = 0 → y.2.ver = 0 → x.1 = y.1 →
    x.2.maxPartId = y.2.maxPartId
  idsNested : ∀ x ∈ G, ∀ y ∈ G, x.2.ver = 0 → y.2.ver = 0 →
    IdsApart x y ∨ IdsWithin x y ∨ IdsWithin y x
  split : ∀ x ∈ G, ∀ y ∈ G, x.2.ver = 0 → y.2.ver = 0 → x.1.num < y.1.num →
    y.1.num ≤ x.2.maxPartId.num → SplitIn G x

/-- A map that is a cut of the tree `G`: its identifier intervals partition `[1, N]`, and
    each of its records is one of `G`. -/
structure IdsCut (N : Nat) (G : List (PartId × PartInfo)) (parts : PartMap) : Prop where
  ids : IdsPartition N parts
  held : ∀ k r, parts.lookup k = some r → (k, r) ∈ G

theorem partId_eq_of_num {a b : PartId} (h : a.num = b.num) : a = b := by
  cases a; cases b; cases h; rfl

theorem lookup_of_mem_recordsOf {parts : PartMap} {x : PartId × PartInfo}
    (h : x ∈ recordsOf parts) : parts.lookup x.1 = some x.2 := by
  obtain ⟨e, he, rfl⟩ := List.mem_map.mp h
  exact AList.mem_lookup_iff.mpr he

/-- A map holds one record per key. -/
theorem eq_of_mem_recordsOf {parts : PartMap} {u v : PartId × PartInfo}
    (hu : u ∈ recordsOf parts) (hv : v ∈ recordsOf parts) (h : u.1 = v.1) : u = v :=
  Prod.ext h (Option.some_inj.mp
    ((lookup_of_mem_recordsOf hu).symm.trans (h ▸ lookup_of_mem_recordsOf hv)))

/-- A record in use has a nonempty interval. -/
theorem Shaped.num_le {x : PartId × PartInfo} (hs : Shaped x) (h0 : x.2.ver = 0) :
    x.1.num ≤ x.2.maxPartId.num :=
  hs.elim And.right fun h => absurd (h0.symm.trans h.1) (by decide)

/-- A record with room for two more identifiers is in use. -/
theorem Shaped.ver_of_room {x : PartId × PartInfo} (hs : Shaped x)
    (hroom : x.1.num + 2 ≤ x.2.maxPartId.num) : x.2.ver = 0 :=
  hs.elim And.left fun h => by rw [h.2.1] at hroom; omega

section Cuts

variable {N : Nat} {G : List (PartId × PartInfo)} {A : PartMap}

theorem IdsCut.mono {G' : List (PartId × PartInfo)} (h : IdsCut N G A) (hsub : G ⊆ G') :
    IdsCut N G' A :=
  ⟨h.ids, fun k r hk => hsub (h.held k r hk)⟩

theorem IdsCut.shaped (hT : IdsTree N G) (hA : IdsCut N G A) {k : PartId} {r : PartInfo}
    (h : A.lookup k = some r) :
    (r.ver = 0 ∧ k.num ≤ r.maxPartId.num) ∨ (r.ver = 1 ∧ r.maxPartId = k ∧ r.maxLen = r.minLen) :=
  hT.shaped _ (hA.held k r h)

/-- A record's interval holds no other key of the map. -/
theorem eq_of_lookup_of_le (hp : IdsPartition N A) {a b : PartId} {ra rb : PartInfo}
    (ha : A.lookup a = some ra) (hb : A.lookup b = some rb) (h1 : a.num ≤ b.num)
    (h2 : b.num ≤ ra.maxPartId.num) : a = b :=
  hp.disjoint a b b.num ⟨ra, ha, h1, h2⟩ ⟨rb, hb, le_refl _, hp.le_max b rb hb⟩

/-- A cut that lacks the key of a record in use lacks every key in that record's
    interval: whatever covers the key covers the whole interval. -/
theorem IdsCut.lookup_eq_none (hT : IdsTree N G) (hA : IdsCut N G A)
    {y : PartId × PartInfo} (hy : y ∈ G) (hy0 : y.2.ver = 0) (hnone : A.lookup y.1 = none)
    {k : PartId} (hk1 : y.1.num ≤ k.num) (hk2 : k.num ≤ y.2.maxPartId.num) :
    A.lookup k = none := by
  cases hk : A.lookup k with
  | none => rfl
  | some rk =>
  have hkN := ((hA.ids.cover k.num).mp ⟨k, rk, hk, le_refl _, hA.ids.le_max k rk hk⟩).2
  obtain ⟨c, rc, hc, hc1, hc2⟩ :=
    (hA.ids.cover y.1.num).mpr ⟨(hT.range y hy).1, by omega⟩
  have hcy : c ≠ y.1 := fun h => by rw [← h, hc] at hnone; cases hnone
  rcases hA.shaped hT hc with ⟨hc0, -⟩ | ⟨-, hcmax, -⟩
  · have hy1 := (hT.shaped y hy).elim And.right fun h => by rw [h.2.1]
    rcases hT.idsNested _ (hA.held c rc hc) y hy hc0 hy0 with hap | hw | hw <;>
      dsimp only [IdsApart, IdsWithin] at *
    · omega
    · exact absurd (partId_eq_of_num (by omega)) hcy
    · have hck := congrArg PartId.num (eq_of_lookup_of_le hA.ids hc hk (by omega) (by omega))
      exact absurd (partId_eq_of_num (by omega)) hcy
  · rw [hcmax] at hc2
    exact absurd (partId_eq_of_num (by omega)) hcy

/-- Where a cut has the key of a record in use with the same interval, or lacks it, no
    other key of the cut lies in that interval. -/
theorem IdsCut.eq_of_mem_interval (hT : IdsTree N G) (hA : IdsCut N G A)
    {y : PartId × PartInfo} (hy : y ∈ G) (hy0 : y.2.ver = 0)
    (hAy : A.lookup y.1 = none ∨ ∃ r, A.lookup y.1 = some r ∧ r.maxPartId = y.2.maxPartId)
    {p : PartId} {rp : PartInfo} (hp : A.lookup p = some rp) (h1 : y.1.num ≤ p.num)
    (h2 : p.num ≤ y.2.maxPartId.num) : y.1 = p := by
  rcases hAy with hAy | ⟨r, hAy, hmax⟩
  · rw [hA.lookup_eq_none hT hy hy0 hAy h1 h2] at hp; cases hp
  · exact eq_of_lookup_of_le hA.ids hAy hp h1 (by rw [hmax]; exact h2)

end Cuts

/-! ## Reading a cut into a cut -/

section Merge

variable {N : Nat} {G : List (PartId × PartInfo)} {A M : PartMap}
  (hT : IdsTree N G) (hA : IdsCut N G A) (hM : IdsCut N G M)
include hT hA hM

/-- **MERGE, FIRST SIDE**: where the first cut has a record, the merge keeps it, unless it
    is in use and the second cut has it retired; then the merge keeps the retired
    record. -/
theorem lookup_mergeMap_left {k : PartId} {a : PartInfo} (ha : A.lookup k = some a) :
    (mergeMap A M).lookup k = some a ∨
      (a.ver = 0 ∧ ∃ m, M.lookup k = some m ∧ m.ver = 1 ∧ (mergeMap A M).lookup k = some m) := by
  rw [lookup_mergeMap_eq, ha]
  cases hm : M.lookup k with
  | none => exact .inl rfl
  | some m =>
    rcases hA.shaped hT ha with ⟨ha0, -⟩ | ⟨ha1, -⟩ <;>
      rcases hM.shaped hT hm with ⟨hm0, -⟩ | ⟨hm1, -⟩
    · exact .inl (congrArg some (by rw [keepNewer, ha0, hm0]; exact if_neg (by decide)))
    · exact .inr ⟨ha0, m, rfl, hm1,
        congrArg some (by rw [keepNewer, ha0, hm1]; exact if_pos (by decide))⟩
    · exact .inl (congrArg some (by rw [keepNewer, ha1, hm0]; exact if_neg (by decide)))
    · exact .inl (congrArg some (by rw [keepNewer, ha1, hm1]; exact if_neg (by decide)))

/-- **MERGE, SECOND SIDE**: where the second cut has a record, the merge has one of the
    same version and interval, unless it is in use and the first cut has it retired;
    then the merge keeps the retired record. -/
theorem lookup_mergeMap_right {k : PartId} {m : PartInfo} (hm : M.lookup k = some m) :
    (∃ c, (mergeMap A M).lookup k = some c ∧ c.ver = m.ver ∧ c.maxPartId = m.maxPartId) ∨
      (m.ver = 0 ∧ ∃ a, A.lookup k = some a ∧ a.ver = 1 ∧ (mergeMap A M).lookup k = some a) := by
  rw [lookup_mergeMap_eq, hm]
  cases ha : A.lookup k with
  | none => exact .inl ⟨m, rfl, rfl, rfl⟩
  | some a =>
    rcases hA.shaped hT ha with ⟨ha0, -⟩ | ⟨ha1, hak, -⟩ <;>
      rcases hM.shaped hT hm with ⟨hm0, -⟩ | ⟨hm1, hmk, -⟩
    · exact .inl ⟨a, congrArg some (by rw [keepNewer, ha0, hm0]; exact if_neg (by decide)),
        ha0.trans hm0.symm, hT.agree _ (hA.held k a ha) _ (hM.held k m hm) ha0 hm0 rfl⟩
    · exact .inl ⟨m, congrArg some (by rw [keepNewer, ha0, hm1]; exact if_pos (by decide)),
        rfl, rfl⟩
    · exact .inr ⟨hm0, a, rfl, ha1,
        congrArg some (by rw [keepNewer, ha1, hm0]; exact if_neg (by decide))⟩
    · exact .inl ⟨a, congrArg some (by rw [keepNewer, ha1, hm1]; exact if_neg (by decide)),
        ha1.trans hm1.symm, hak.trans hmk.symm⟩

/-- A record in use in the merge is, in the first cut, that record or absent. -/
theorem lookup_left_of_mergeMap {k : PartId} {r : PartInfo}
    (hc : (mergeMap A M).lookup k = some r) (hr : r.ver = 0) :
    A.lookup k = none ∨ ∃ a, A.lookup k = some a ∧ a.maxPartId = r.maxPartId := by
  cases ha : A.lookup k with
  | none => exact .inl rfl
  | some a =>
    rcases lookup_mergeMap_left hT hA hM ha with h | ⟨-, m, -, hm1, h⟩ <;>
      rw [hc, Option.some_inj] at h
    · exact .inr ⟨a, rfl, by rw [h]⟩
    · rw [← h, hr] at hm1; cases hm1

/-- A record in use in the merge has, in the second cut, the same interval or none. -/
theorem lookup_right_of_mergeMap {k : PartId} {r : PartInfo}
    (hc : (mergeMap A M).lookup k = some r) (hr : r.ver = 0) :
    M.lookup k = none ∨ ∃ m, M.lookup k = some m ∧ m.maxPartId = r.maxPartId := by
  cases hm : M.lookup k with
  | none => exact .inl rfl
  | some m =>
    rcases lookup_mergeMap_right hT hA hM hm with ⟨c, h, -, hmax⟩ | ⟨-, a, -, ha1, h⟩ <;>
      rw [hc, Option.some_inj] at h
    · exact .inr ⟨m, rfl, by rw [h, hmax]⟩
    · rw [← h, hr] at ha1; cases ha1

/-- Two keys of the merge whose intervals share a point are equal, where the first record
    comes from the first cut and the second from the second. -/
theorem eq_of_covers_mergeMap {k₁ k₂ : PartId} {r₁ r₂ : PartInfo} {n : Nat}
    (h₁ : A.lookup k₁ = some r₁) (hc₁ : (mergeMap A M).lookup k₁ = some r₁)
    (h₂ : M.lookup k₂ = some r₂) (hc₂ : (mergeMap A M).lookup k₂ = some r₂)
    (hn₁ : k₁.num ≤ n ∧ n ≤ r₁.maxPartId.num) (hn₂ : k₂.num ≤ n ∧ n ≤ r₂.maxPartId.num) :
    k₁ = k₂ := by
  -- a record in use in the merge, against a key of the other cut inside its interval
  have hA₂ : r₂.ver = 0 → ∀ {p rp}, A.lookup p = some rp → k₂.num ≤ p.num →
      p.num ≤ r₂.maxPartId.num → k₂ = p := fun hr =>
    hA.eq_of_mem_interval hT (hM.held k₂ r₂ h₂) hr (lookup_left_of_mergeMap hT hA hM hc₂ hr)
  have hM₁ : r₁.ver = 0 → ∀ {p rp}, M.lookup p = some rp → k₁.num ≤ p.num →
      p.num ≤ r₁.maxPartId.num → k₁ = p := fun hr =>
    hM.eq_of_mem_interval hT (hA.held k₁ r₁ h₁) hr (lookup_right_of_mergeMap hT hA hM hc₁ hr)
  rcases hA.shaped hT h₁ with ⟨h0₁, -⟩ | ⟨-, hmax₁, -⟩ <;>
    rcases hM.shaped hT h₂ with ⟨h0₂, -⟩ | ⟨-, hmax₂, -⟩
  · rcases hT.idsNested _ (hA.held k₁ r₁ h₁) _ (hM.held k₂ r₂ h₂) h0₁ h0₂ with hap | hw | hw <;>
      dsimp only [IdsApart, IdsWithin] at *
    · omega
    · exact (hA₂ h0₂ h₁ hw.1 (by omega)).symm
    · exact hM₁ h0₁ h₂ hw.1 (by omega)
  · rw [hmax₂] at hn₂
    exact hM₁ h0₁ h₂ (by omega) (by omega)
  · rw [hmax₁] at hn₁
    exact (hA₂ h0₂ h₁ (by omega) (by omega)).symm
  · rw [hmax₁] at hn₁
    rw [hmax₂] at hn₂
    exact partId_eq_of_num (by omega)

/-- Two records in use, each retired in the other cut, are apart. -/
theorem idsApart_of_retired_across {a b : PartId} {ra rb z z' : PartInfo}
    (ha : A.lookup a = some ra) (ha0 : ra.ver = 0) (hz : M.lookup a = some z) (hz1 : z.ver = 1)
    (hb : M.lookup b = some rb) (hb0 : rb.ver = 0) (hz' : A.lookup b = some z')
    (hz1' : z'.ver = 1) : IdsApart (a, ra) (b, rb) := by
  have hva : a.num ≤ ra.maxPartId.num := (hT.shaped _ (hA.held a ra ha)).num_le ha0
  have hvb : b.num ≤ rb.maxPartId.num := (hT.shaped _ (hM.held b rb hb)).num_le hb0
  rcases hT.idsNested _ (hA.held a ra ha) _ (hM.held b rb hb) ha0 hb0 with hap | ⟨h1, h2⟩ |
    ⟨h1, h2⟩
  · exact hap
  · -- `a` lies in the interval of `b`, which the second cut has in use
    dsimp only at h1 h2
    obtain rfl := eq_of_lookup_of_le hM.ids hb hz h1 (by omega)
    rw [hb, Option.some_inj] at hz
    rw [← hz, hb0] at hz1
    cases hz1
  · dsimp only at h1 h2
    obtain rfl := eq_of_lookup_of_le hA.ids ha hz' h1 (by omega)
    rw [ha, Option.some_inj] at hz'
    rw [← hz', ha0] at hz1'
    cases hz1'

theorem idsPartition_mergeMap : IdsPartition N (mergeMap A M) := by
  have hsrc := fun {k r} (h : (mergeMap A M).lookup k = some r) => lookup_mergeMap_mem h
  refine ⟨fun k r h => (hsrc h).elim (hA.ids.le_max k r) (hM.ids.le_max k r), ?_, fun n => ?_⟩
  · rintro k₁ k₂ n ⟨r₁, hc₁, hn₁⟩ ⟨r₂, hc₂, hn₂⟩
    rcases hsrc hc₁ with h₁ | h₁ <;> rcases hsrc hc₂ with h₂ | h₂
    · exact hA.ids.disjoint k₁ k₂ n ⟨r₁, h₁, hn₁⟩ ⟨r₂, h₂, hn₂⟩
    · exact eq_of_covers_mergeMap hT hA hM h₁ hc₁ h₂ hc₂ hn₁ hn₂
    · exact (eq_of_covers_mergeMap hT hA hM h₂ hc₂ h₁ hc₁ hn₂ hn₁).symm
    · exact hM.ids.disjoint k₁ k₂ n ⟨r₁, h₁, hn₁⟩ ⟨r₂, h₂, hn₂⟩
  refine ⟨fun ⟨k, r, hc, hn⟩ => (hsrc hc).elim (fun h => (hA.ids.cover n).mp ⟨k, r, h, hn⟩)
    (fun h => (hM.ids.cover n).mp ⟨k, r, h, hn⟩), fun hn => ?_⟩
  -- the record covering `n` in the first cut, unless the second has it retired
  obtain ⟨a, ra, ha, hna⟩ := (hA.ids.cover n).mpr hn
  rcases lookup_mergeMap_left hT hA hM ha with hca | ⟨ha0, z, hz, hz1, -⟩
  · exact ⟨a, ra, hca, hna⟩
  -- then the record covering `n` in the second cut, unless the first has it retired
  obtain ⟨b, rb, hb, hnb⟩ := (hM.ids.cover n).mpr hn
  rcases lookup_mergeMap_right hT hA hM hb with ⟨c, hcb, -, hmax⟩ | ⟨hb0, z', hz', hz1', -⟩
  · exact ⟨b, c, hcb, by rw [hmax]; exact hnb⟩
  -- and these two cannot both be retired on the other side
  have := idsApart_of_retired_across hT hA hM ha ha0 hz hz1 hb hb0 hz' hz1'
  dsimp only [IdsApart] at this
  omega

/-- **JOIN**: `read_buf` of a cut's block into a replica holding a cut leaves a cut. -/
theorem idsCut_mergeMap : IdsCut N G (mergeMap A M) :=
  ⟨idsPartition_mergeMap hT hA hM, fun k r h => (lookup_mergeMap_mem h).elim (hA.held k r) (hM.held k r)⟩

end Merge

/-! ## Splitting a leaf -/

section Halves

variable {x : PartId × PartInfo} {median : UInt32}

theorem shaped_lowerHalf (hroom : x.1.num + 2 ≤ x.2.maxPartId.num) :
    Shaped (lowerHalf x median) :=
  .inl ⟨rfl, by simp only [lowerHalf, newNums]; omega⟩

theorem shaped_upperHalf (hroom : x.1.num + 2 ≤ x.2.maxPartId.num) :
    Shaped (upperHalf x median) :=
  .inl ⟨rfl, by simp only [upperHalf, newNums]; omega⟩

theorem idsWithin_lowerHalf (hroom : x.1.num + 2 ≤ x.2.maxPartId.num) :
    IdsWithin (lowerHalf x median) x :=
  ⟨by simp only [lowerHalf, newNums]; omega, by simp only [lowerHalf, newNums]; omega⟩

theorem idsWithin_upperHalf : IdsWithin (upperHalf x median) x :=
  ⟨by simp only [upperHalf, newNums]; omega, le_refl _⟩

theorem idsApart_halves : IdsApart (lowerHalf x median) (upperHalf x median) :=
  .inl (by simp only [lowerHalf, upperHalf, newNums]; omega)

end Halves

section Split

variable {N : Nat} {G H : List (PartId × PartInfo)}

/-- Whether an interval was split depends on the interval alone. -/
theorem SplitIn.of_eq {x y : PartId × PartInfo} (h1 : x.1 = y.1)
    (h2 : x.2.maxPartId = y.2.maxPartId) (h : SplitIn G x) : SplitIn G y := by
  unfold SplitIn at h ⊢
  rwa [← h1, ← h2]

theorem SplitIn.append_right {x : PartId × PartInfo} (h : SplitIn G x) : SplitIn (G ++ H) x :=
  ⟨h.1.imp fun _ hr => ⟨List.mem_append_left _ hr.1, hr.2⟩,
    h.2.imp fun _ hr => ⟨List.mem_append_left _ hr.1, hr.2⟩⟩

/-- Records in use that repeat the key and interval of records of the tree keep it a
    tree. -/
theorem IdsTree.append_of_twins (hT : IdsTree N G)
    (hH : ∀ y ∈ H, Shaped y ∧ 1 ≤ y.1.num ∧ y.2.maxPartId.num ≤ N)
    (htwin : ∀ y ∈ H, y.2.ver = 0 →
      ∃ y' ∈ G, y'.1 = y.1 ∧ y'.2.ver = 0 ∧ y'.2.maxPartId = y.2.maxPartId) :
    IdsTree N (G ++ H) := by
  have hG : ∀ y ∈ G ++ H, y.2.ver = 0 →
      ∃ y' ∈ G, y'.1 = y.1 ∧ y'.2.ver = 0 ∧ y'.2.maxPartId = y.2.maxPartId := fun y hy h0 =>
    (List.mem_append.mp hy).elim (fun h => ⟨y, h, rfl, h0, rfl⟩) fun h => htwin y h h0
  refine ⟨fun y hy => ?_, fun y hy => ?_, fun u hu v hv hu0 hv0 huv => ?_,
    fun u hu v hv hu0 hv0 => ?_, fun u hu v hv hu0 hv0 h1 h2 => ?_⟩
  · exact (List.mem_append.mp hy).elim (hT.shaped y) fun h => (hH y h).1
  · exact (List.mem_append.mp hy).elim (hT.range y) fun h => (hH y h).2
  all_goals
    obtain ⟨u', hu', hu1, hu0', hum⟩ := hG u hu hu0
    obtain ⟨v', hv', hv1, hv0', hvm⟩ := hG v hv hv0
  · rw [← hum, ← hvm]
    exact hT.agree u' hu' v' hv' hu0' hv0' (hu1.trans (huv.trans hv1.symm))
  · have := hT.idsNested u' hu' v' hv' hu0' hv0'
    unfold IdsApart IdsWithin at this ⊢
    rwa [hu1, hv1, hum, hvm] at this
  · exact ((hT.split u' hu' v' hv' hu0' hv0' (by rwa [hu1, hv1]) (by rwa [hv1, hum])).of_eq
      hu1 hum).append_right

variable {x : PartId × PartInfo} {median : UInt32}

/-- Each half lies strictly inside the divided interval, with a nonempty interval. -/
theorem half_inside (hroom : x.1.num + 2 ≤ x.2.maxPartId.num) {h : PartId × PartInfo}
    (hh : h = lowerHalf x median ∨ h = upperHalf x median) :
    IdsWithin h x ∧ x.1.num < h.1.num ∧ h.1.num ≤ h.2.maxPartId.num := by
  rcases hh with rfl | rfl
  · exact ⟨idsWithin_lowerHalf hroom, by simp only [lowerHalf, newNums]; omega,
      by simp only [lowerHalf, newNums]; omega⟩
  · exact ⟨idsWithin_upperHalf, by simp only [upperHalf, newNums]; omega,
      by simp only [upperHalf, newNums]; omega⟩

/-! The fields of the tree, once the halves of a leaf `x` are added: `hleaf` says no key in
    use lies strictly inside the leaf. -/

/-- A record of the tree against a half of the leaf: apart, or around it. -/
theorem IdsTree.around_half (hT : IdsTree N G) (hx : x ∈ G) (hx0 : x.2.ver = 0)
    (hroom : x.1.num + 2 ≤ x.2.maxPartId.num)
    (hleaf : ∀ y ∈ G, y.2.ver = 0 → ¬ (x.1.num < y.1.num ∧ y.1.num ≤ x.2.maxPartId.num))
    {y h : PartId × PartInfo} (hy : y ∈ G) (hy0 : y.2.ver = 0)
    (hh : h = lowerHalf x median ∨ h = upperHalf x median) : IdsApart y h ∨ IdsWithin h y := by
  obtain ⟨⟨hh1, hh2⟩, hxh, hh3⟩ := half_inside hroom hh
  have hy1 := (hT.shaped y hy).num_le hy0
  have hl := hleaf y hy hy0
  rcases hT.idsNested y hy x hx hy0 hx0 with hap | ⟨h1, h2⟩ | ⟨h1, h2⟩ <;>
    unfold IdsApart IdsWithin at *
  · omega
  · -- `y` claims the leaf's own interval
    have hm := congrArg PartId.num (hT.agree y hy x hx hy0 hx0 (partId_eq_of_num (by omega)))
    right; omega
  · right; omega

/-- A half's key lies strictly inside the leaf, where the tree has no key in use: records
    in use still claim one interval per key. -/
theorem IdsTree.agree_halves (hT : IdsTree N G) (hroom : x.1.num + 2 ≤ x.2.maxPartId.num)
    (hleaf : ∀ y ∈ G, y.2.ver = 0 → ¬ (x.1.num < y.1.num ∧ y.1.num ≤ x.2.maxPartId.num))
    {u v : PartId × PartInfo} (hu : u ∈ G ∨ u = lowerHalf x median ∨ u = upperHalf x median)
    (hv : v ∈ G ∨ v = lowerHalf x median ∨ v = upperHalf x median) (hu0 : u.2.ver = 0)
    (hv0 : v.2.ver = 0) (huv : u.1 = v.1) : u.2.maxPartId = v.2.maxPartId := by
  rcases hu with hu' | hu' <;> rcases hv with hv' | hv'
  · exact hT.agree u hu' v hv' hu0 hv0 huv
  · obtain ⟨⟨-, hvx⟩, hxv, hv3⟩ := half_inside hroom hv'
    exact absurd ⟨by rw [huv]; exact hxv, by rw [huv]; omega⟩ (hleaf u hu' hu0)
  · obtain ⟨⟨-, hux⟩, hxu, hu3⟩ := half_inside hroom hu'
    exact absurd ⟨by rw [← huv]; exact hxu, by rw [← huv]; omega⟩ (hleaf v hv' hv0)
  · rcases hu' with rfl | rfl <;> rcases hv' with rfl | rfl
    all_goals first | rfl | (simp only [lowerHalf, upperHalf, newNums, PartId.mk.injEq] at huv; omega)

/-- Records in use of the tree and the halves are apart or nested. -/
theorem IdsTree.nested_halves (hT : IdsTree N G) (hx : x ∈ G) (hx0 : x.2.ver = 0)
    (hroom : x.1.num + 2 ≤ x.2.maxPartId.num)
    (hleaf : ∀ y ∈ G, y.2.ver = 0 → ¬ (x.1.num < y.1.num ∧ y.1.num ≤ x.2.maxPartId.num))
    {u v : PartId × PartInfo} (hu : u ∈ G ∨ u = lowerHalf x median ∨ u = upperHalf x median)
    (hv : v ∈ G ∨ v = lowerHalf x median ∨ v = upperHalf x median) (hu0 : u.2.ver = 0)
    (hv0 : v.2.ver = 0) : IdsApart u v ∨ IdsWithin u v ∨ IdsWithin v u := by
  rcases hu with hu' | hu' <;> rcases hv with hv' | hv'
  · exact hT.idsNested u hu' v hv' hu0 hv0
  · exact (hT.around_half hx hx0 hroom hleaf hu' hu0 hv').imp_right .inr
  · exact (hT.around_half hx hx0 hroom hleaf hv' hv0 hu').elim (fun h => .inl h.symm)
      fun h => .inr (.inl h)
  · rcases hu' with rfl | rfl <;> rcases hv' with rfl | rfl
    · exact .inr (.inl ⟨le_refl _, le_refl _⟩)
    · exact .inl idsApart_halves
    · exact .inl idsApart_halves.symm
    · exact .inr (.inl ⟨le_refl _, le_refl _⟩)

/-- A record in use with another inside it was split already, or claims the leaf's own
    interval; a half has nothing inside it. -/
theorem IdsTree.split_halves (hT : IdsTree N G) (hx : x ∈ G) (hx0 : x.2.ver = 0)
    (hroom : x.1.num + 2 ≤ x.2.maxPartId.num)
    (hleaf : ∀ y ∈ G, y.2.ver = 0 → ¬ (x.1.num < y.1.num ∧ y.1.num ≤ x.2.maxPartId.num))
    {u v : PartId × PartInfo} (hu : u ∈ G ∨ u = lowerHalf x median ∨ u = upperHalf x median)
    (hv : v ∈ G ∨ v = lowerHalf x median ∨ v = upperHalf x median) (hu0 : u.2.ver = 0)
    (hv0 : v.2.ver = 0) (h1 : u.1.num < v.1.num) (h2 : v.1.num ≤ u.2.maxPartId.num) :
    SplitIn G u ∨ (u.1 = x.1 ∧ u.2.maxPartId = x.2.maxPartId) := by
  rcases hu with hu' | hu'
  · by_cases hux : u.1 = x.1
    · exact .inr ⟨hux, hT.agree u hu' x hx hu0 hx0 hux⟩
    refine .inl ?_
    rcases hv with hv' | hv'
    · exact hT.split u hu' v hv' hu0 hv0 h1 h2
    -- a half inside `u`: then the leaf lies strictly inside `u` too
    have hne : u.1.num ≠ x.1.num := fun h => hux (partId_eq_of_num h)
    obtain ⟨⟨hv1, hv2⟩, hxv, hv3⟩ := half_inside hroom hv'
    rcases hT.idsNested u hu' x hx hu0 hx0 with hap | ⟨h3, h4⟩ | ⟨h3, h4⟩
    · unfold IdsApart at hap; omega
    · exact absurd ⟨by omega, by omega⟩ (hleaf u hu' hu0)
    · exact hT.split u hu' x hx hu0 hx0 (by omega) (by omega)
  · obtain ⟨⟨hu1, hu2⟩, -, -⟩ := half_inside hroom hu'
    exfalso
    rcases hv with hv' | hv'
    · exact hleaf v hv' hv0 ⟨by omega, by omega⟩
    · rcases hu' with rfl | rfl <;> rcases hv' with rfl | rfl <;>
        simp only [lowerHalf, upperHalf, newNums] at h1 h2 <;> omega

/-- **SPLIT A LEAF**: the two halves of a record in use with nothing inside its interval,
    added with records of the tree or retired ones, keep the tree. -/
theorem IdsTree.append_halves (hT : IdsTree N G) (hx : x ∈ G) (hx0 : x.2.ver = 0)
    (hroom : x.1.num + 2 ≤ x.2.maxPartId.num)
    (hleaf : ∀ y ∈ G, y.2.ver = 0 → ¬ (x.1.num < y.1.num ∧ y.1.num ≤ x.2.maxPartId.num))
    (hH : ∀ y ∈ H, Shaped y ∧ 1 ≤ y.1.num ∧ y.2.maxPartId.num ≤ N)
    (hnode : ∀ y ∈ H, y.2.ver = 0 → y ∈ G ∨ y = lowerHalf x median ∨ y = upperHalf x median)
    (hlow : lowerHalf x median ∈ H) (hup : upperHalf x median ∈ H) : IdsTree N (G ++ H) := by
  -- every record in use is one of the tree or a half
  have hsrc : ∀ y ∈ G ++ H, y.2.ver = 0 →
      y ∈ G ∨ y = lowerHalf x median ∨ y = upperHalf x median := fun y hy h0 =>
    (List.mem_append.mp hy).elim .inl fun h => hnode y h h0
  refine ⟨fun y hy => ?_, fun y hy => ?_, fun u hu v hv hu0 hv0 =>
    hT.agree_halves hroom hleaf (hsrc u hu hu0) (hsrc v hv hv0) hu0 hv0, fun u hu v hv hu0 hv0 =>
    hT.nested_halves hx hx0 hroom hleaf (hsrc u hu hu0) (hsrc v hv hv0) hu0 hv0,
    fun u hu v hv hu0 hv0 h1 h2 => ?_⟩
  · exact (List.mem_append.mp hy).elim (hT.shaped y) fun h => (hH y h).1
  · exact (List.mem_append.mp hy).elim (hT.range y) fun h => (hH y h).2
  rcases hT.split_halves hx hx0 hroom hleaf (hsrc u hu hu0) (hsrc v hv hv0) hu0 hv0 h1 h2 with
    h | ⟨hux, hm⟩
  · exact h.append_right
  · -- the halves of the leaf's own interval are among the new records
    exact SplitIn.of_eq hux.symm hm.symm ⟨⟨_, List.mem_append_right _ hlow, rfl, rfl⟩,
      ⟨_, List.mem_append_right _ hup, rfl, rfl⟩⟩

end Split

theorem IdsApart.symm {x y : PartId × PartInfo} (h : IdsApart x y) : IdsApart y x := Or.symm h

/-! ## A split of a cut -/

section Divide

variable {N : Nat} {G : List (PartId × PartInfo)} {X : PartMap} {k₀ : PartId} {info : PartInfo}
  {median : UInt32}

/-- What a split leaves at each key of a cut: a record of the cut, the retired record, or
    one of the two halves. -/
theorem lookup_splitParts_cases (hp : IdsPartition N X) (hinfo : X.lookup k₀ = some info)
    (hroom : k₀.num + 2 ≤ info.maxPartId.num) {k : PartId} {r : PartInfo}
    (h : (splitParts X k₀ info median).lookup k = some r) :
    X.lookup k = some r ∨
      (k = k₀ ∧ r = { info with maxPartId := k₀, ver := info.ver + 1, maxLen := info.minLen }) ∨
      (k, r) = lowerHalf (k₀, info) median ∨ (k, r) = upperHalf (k₀, info) median := by
  have hf1 : X.lookup ⟨(newNums k₀.num info.maxPartId.num).1⟩ = none :=
    lookup_eq_none_of_covers hp hinfo (by simp only [newNums]; omega)
      (by simp only [newNums]; omega)
  have hf2 : X.lookup ⟨(newNums k₀.num info.maxPartId.num).2⟩ = none :=
    lookup_eq_none_of_covers hp hinfo (by simp only [newNums]; omega)
      (by simp only [newNums]; omega)
  rw [lookup_splitParts hinfo hroom] at h
  split_ifs at h with h0 h2 h1
  · exact .inr (.inl ⟨h0, (Option.some_inj.mp h).symm⟩)
  · subst h2; rw [hf2] at h; cases h; exact .inr (.inr (.inr rfl))
  · subst h1; rw [hf1] at h; cases h; exact .inr (.inr (.inl rfl))
  · exact .inl h

/-- The two halves are where a split puts them. -/
theorem mem_recordsOf_halves (median : UInt32) (hp : IdsPartition N X)
    (hinfo : X.lookup k₀ = some info) (hroom : k₀.num + 2 ≤ info.maxPartId.num) :
    lowerHalf (k₀, info) median ∈ recordsOf (splitParts X k₀ info median) ∧
      upperHalf (k₀, info) median ∈ recordsOf (splitParts X k₀ info median) := by
  obtain ⟨h1, h2, h21⟩ := newNums_ne hroom
  have hf1 : X.lookup ⟨(newNums k₀.num info.maxPartId.num).1⟩ = none :=
    lookup_eq_none_of_covers hp hinfo (by simp only [newNums]; omega)
      (by simp only [newNums]; omega)
  have hf2 : X.lookup ⟨(newNums k₀.num info.maxPartId.num).2⟩ = none :=
    lookup_eq_none_of_covers hp hinfo (by simp only [newNums]; omega)
      (by simp only [newNums]; omega)
  constructor <;> apply mem_recordsOf <;>
    simp [lowerHalf, upperHalf, lookup_splitParts hinfo hroom, h1, h2, h21.symm, hf1, hf2]

/-- The records a split cut holds: shaped and in range, and those in use are the cut's
    own or the two halves. -/
theorem records_splitParts (hT : IdsTree N G) (hX : IdsCut N G X)
    (hinfo : X.lookup k₀ = some info) (hroom : k₀.num + 2 ≤ info.maxPartId.num)
    (y : PartId × PartInfo) (hy : y ∈ recordsOf (splitParts X k₀ info median)) :
    (Shaped y ∧ 1 ≤ y.1.num ∧ y.2.maxPartId.num ≤ N) ∧
      (y.2.ver = 0 → y ∈ G ∨ y = lowerHalf (k₀, info) median ∨ y = upperHalf (k₀, info) median) := by
  have hx0 : info.ver = 0 := (hT.shaped _ (hX.held k₀ info hinfo)).ver_of_room hroom
  have hxr := hT.range _ (hX.held k₀ info hinfo)
  have hxmax := hX.ids.le_max k₀ info hinfo
  dsimp only at hxr
  rcases lookup_splitParts_cases hX.ids hinfo hroom (lookup_of_mem_recordsOf hy) with
    h | ⟨h0, hr⟩ | h | h
  · exact ⟨⟨hT.shaped _ (hX.held _ _ h), hT.range _ (hX.held _ _ h)⟩, fun _ => .inl (hX.held _ _ h)⟩
  · have hv : y.2.ver = 1 := by rw [hr, hx0]; rfl
    refine ⟨⟨.inr ⟨hv, by rw [hr, h0], by rw [hr]⟩, ?_⟩, fun h => by rw [hv] at h; cases h⟩
    rw [hr, h0]
    dsimp only
    omega
  · obtain rfl : y = lowerHalf (k₀, info) median := h
    exact ⟨⟨shaped_lowerHalf hroom, by simp only [lowerHalf, newNums]; omega⟩,
      fun _ => .inr (.inl rfl)⟩
  · obtain rfl : y = upperHalf (k₀, info) median := h
    exact ⟨⟨shaped_upperHalf hroom, by simp only [upperHalf, newNums]; omega⟩,
      fun _ => .inr (.inr rfl)⟩

/-- **SPLIT**: any split of a leaf of a cut keeps the records a tree, whether the leaf was
    a leaf of the whole tree or another replica had split it already, at any median. -/
theorem idsTree_splitParts (hT : IdsTree N G) (hX : IdsCut N G X)
    (hinfo : X.lookup k₀ = some info) (hroom : k₀.num + 2 ≤ info.maxPartId.num) :
    IdsTree N (G ++ recordsOf (splitParts X k₀ info median)) := by
  have hrec := fun y (hy : y ∈ recordsOf (splitParts X k₀ info median)) =>
    records_splitParts hT hX hinfo hroom y hy
  have hxG := hX.held k₀ info hinfo
  have hx0 : info.ver = 0 := (hT.shaped _ (hX.held k₀ info hinfo)).ver_of_room hroom
  obtain ⟨hlow, hup⟩ := mem_recordsOf_halves median hX.ids hinfo hroom
  by_cases hleaf : ∀ y ∈ G, y.2.ver = 0 → ¬ (k₀.num < y.1.num ∧ y.1.num ≤ info.maxPartId.num)
  · exact hT.append_halves hxG hx0 hroom hleaf (fun y hy => (hrec y hy).1)
      (fun y hy => (hrec y hy).2) hlow hup
  -- another replica split the same leaf: the intervals of its halves are these
  push_neg at hleaf
  obtain ⟨y, hy, hy0, h1, h2⟩ := hleaf
  obtain ⟨⟨r, hr, hr0, hrm⟩, ⟨r', hr', hr0', hrm'⟩⟩ := hT.split _ hxG y hy hx0 hy0 h1 h2
  refine hT.append_of_twins (fun y hy => (hrec y hy).1) fun y hy h0 => ?_
  rcases (hrec y hy).2 h0 with h | rfl | rfl
  · exact ⟨y, h, rfl, h0, rfl⟩
  · exact ⟨_, hr, rfl, hr0, hrm⟩
  · exact ⟨_, hr', rfl, hr0', hrm'⟩

theorem idsCut_splitParts (hX : IdsCut N G X) (hinfo : X.lookup k₀ = some info)
    (hroom : k₀.num + 2 ≤ info.maxPartId.num) :
    IdsCut N (G ++ recordsOf (splitParts X k₀ info median)) (splitParts X k₀ info median) :=
  ⟨splitParts_idsPartition hX.ids hinfo hroom, fun _ _ h => List.mem_append_right _ (mem_recordsOf h)⟩

end Divide

/-! ## One map -/

/-- The records of one map whose intervals partition `[1, N]` form a tree, of which the
    map is a cut. -/
theorem idsTree_recordsOf {N : Nat} {X : PartMap} (hp : IdsPartition N X)
    (hs : ∀ k r, X.lookup k = some r → Shaped (k, r)) : IdsTree N (recordsOf X) := by
  have hlk := fun {y} (hy : y ∈ recordsOf X) => lookup_of_mem_recordsOf hy
  refine ⟨fun y hy => hs _ _ (hlk hy), fun y hy => ?_, fun u hu v hv _ _ huv => ?_,
    fun u hu v hv _ _ => ?_, fun u hu v hv _ _ h1 h2 => ?_⟩
  · have hmax := hp.le_max _ _ (hlk hy)
    exact ⟨((hp.cover y.1.num).mp ⟨y.1, y.2, hlk hy, le_refl _, hmax⟩).1,
      ((hp.cover y.2.maxPartId.num).mp ⟨y.1, y.2, hlk hy, hmax, le_refl _⟩).2⟩
  · rw [eq_of_mem_recordsOf hu hv huv]
  · by_cases huv : u.1 = v.1
    · rw [eq_of_mem_recordsOf hu hv huv]
      exact .inr (.inl ⟨le_refl _, le_refl _⟩)
    -- two keys of the map: their intervals are disjoint
    have hu' := hp.le_max _ _ (hlk hu)
    have hv' := hp.le_max _ _ (hlk hv)
    refine .inl ?_
    unfold IdsApart
    by_contra hno
    exact huv (hp.disjoint _ _ (max u.1.num v.1.num) ⟨_, hlk hu, by omega, by omega⟩
      ⟨_, hlk hv, by omega, by omega⟩)
  · exact absurd (congrArg PartId.num (eq_of_lookup_of_le hp (hlk hu) (hlk hv) h1.le h2)) h1.ne

section Start

variable {S : PartIdSpace} {σ P : Type} {rio : RepoIo σ P}

/-- Every record of a map a run from `init_first` reaches is shaped: in use at version 0,
    or retired at version 1. -/
theorem shaped_of_reachable {repo : SeqRepo σ} (h : Reachable S rio repo) :
    ∀ k r, repo.parts.lookup k = some r → Shaped (k, r) := by
  induction h with
  | init hinit =>
      obtain ⟨_, _, he⟩ := (initFirst_eq S rio (SeqRepo.new _)).1 rfl
      rw [hinit] at he
      cases he
      intro k r hk
      rw [lookup_insert_empty] at hk
      split_ifs at hk with h1
      cases hk
      subst h1
      exact .inl ⟨rfl, S.one_le_maxNum⟩
  | divide hrun hdiv ih =>
      rcases divide_cases hdiv with ⟨_, -, rfl⟩ | ⟨_, _, _, -, -, hinfo, hroom, -, rfl⟩
      · exact ih
      -- the records of the split map are those of a split cut of the old map's records
      have hX : IdsCut S.maxNum (recordsOf _) _ :=
        ⟨reachable_idsPartition hrun, fun _ _ => mem_recordsOf⟩
      exact fun k r hk => (records_splitParts (idsTree_recordsOf hX.ids ih) hX hinfo hroom (k, r)
        (mem_recordsOf hk)).1.1

end Start

/-! ## Over every run of the replicas -/

variable {ι : Type}

/-- What every world of a run keeps: the records left so far form one tree of identifier
    intervals, and each replica's map and each block written is a cut of it. -/
structure IdsTiled (S : PartIdSpace) (w : World ι) : Prop where
  tree : IdsTree S.maxNum w.written
  repos : ∀ i, IdsCut S.maxNum w.written (w.repos i).parts
  sent : ∀ m ∈ w.sent, IdsCut S.maxNum w.written m.snapshot

section IdsTiled

variable {S : PartIdSpace} {w : World ι}

theorem idsTiled_wrote {i : ι} {bytes : List UInt8} (hw : IdsTiled S w) :
    IdsTiled S (w.wrote i bytes) :=
  ⟨hw.tree, hw.repos, fun m hm => (List.mem_append.mp hm).elim (hw.sent m)
    fun h => by rw [List.mem_singleton.mp h]; exact hw.repos i⟩

theorem idsTiled_start {P : Type} {rio : RepoIo Unit P} {r₀ : SeqRepo Unit}
    (h₀ : Reachable S rio r₀) : IdsTiled S (World.start r₀ : World ι) :=
  have hp := reachable_idsPartition h₀
  ⟨idsTree_recordsOf hp (shaped_of_reachable h₀), fun _ => ⟨hp, fun _ _ => mem_recordsOf⟩,
    fun m hm => by simp [World.start] at hm⟩

variable [DecidableEq ι]

/-- Reading a block joins two cuts. -/
theorem idsTiled_readBy {i : ι} {n : Nat} {m : Message ι} (hw : IdsTiled S w) (hs : Sane S w)
    (hm : w.sent[n]? = some m) : IdsTiled S (w.readBy i n ((w.repos i).readBuf S m.bytes).2) := by
  obtain ⟨hin, hb, hlen⟩ := hs.sent m (List.getElem?_mem hm)
  rw [hb, readBuf_classifierBytes_eq S _ hin hlen]
  have hcut := idsCut_mergeMap hw.tree (hw.repos i) (hw.sent m (List.getElem?_mem hm))
  refine ⟨hw.tree, fun j => ?_, hw.sent⟩
  by_cases hj : j = i
  · subst hj; simpa using hcut
  · simpa [hj] using hw.repos j

/-- Any `divide` leaves a cut of the records with its own added, and keeps them a tree. -/
theorem idsTiled_divided {i : ι} {part : PartState}
    {res : Except DivideError (List PartId × List PartId)} {r : SeqRepo Unit} (hw : IdsTiled S w)
    (hd : (w.repos i).divide part = some (res, r)) : IdsTiled S (w.divided i r) := by
  have key : IdsTree S.maxNum (w.written ++ recordsOf r.parts) ∧
      IdsCut S.maxNum (w.written ++ recordsOf r.parts) r.parts := by
    rcases divide_cases hd with ⟨_, -, rfl⟩ | ⟨_, _, _, -, -, hinfo, hroom, -, rfl⟩
    · have hG := fun y (hy : y ∈ recordsOf (w.repos i).parts) =>
        (hw.repos i).held _ _ (lookup_of_mem_recordsOf hy)
      exact ⟨hw.tree.append_of_twins (fun y hy => ⟨hw.tree.shaped _ (hG y hy),
        hw.tree.range _ (hG y hy)⟩) fun y hy h0 => ⟨y, hG y hy, rfl, h0, rfl⟩,
        (hw.repos i).mono (List.subset_append_left _ _)⟩
    · exact ⟨idsTree_splitParts hw.tree (hw.repos i) hinfo hroom,
        idsCut_splitParts (hw.repos i) hinfo hroom⟩
  have hsub : w.written ⊆ w.written ++ recordsOf r.parts := List.subset_append_left _ _
  refine ⟨key.1, fun j => ?_, fun m hm => (hw.sent m hm).mono hsub⟩
  by_cases hj : j = i
  · subst hj; simpa using key.2
  · simpa [hj] using (hw.repos j).mono hsub

/-- **STEP**: every event keeps the tree and the cuts. -/
theorem idsTiled_exec {w' : World ι} {e : Event ι} (hw : IdsTiled S w) (hs : Sane S w)
    (h : w.exec S e = some w') : IdsTiled S w' := by
  cases e with
  | divide i part =>
      obtain ⟨⟨_, r⟩, hd, rfl⟩ := Option.map_eq_some'.mp h
      exact idsTiled_divided hw hd
  | send i =>
      simp only [World.exec] at h
      split at h
      · cases h; exact idsTiled_wrote hw
      · cases h; exact hw
      · cases h
  | recv i n =>
      simp only [World.exec] at h
      split at h
      · cases h
      · cases h; exact idsTiled_readBy hw hs ‹_›

/-- **RUN**: every run keeps the tree and the cuts. -/
theorem idsTiled_run {w' : World ι} {es : List (Event ι)} (hw : IdsTiled S w) (hs : Sane S w)
    (h : w.run S es = some w') : IdsTiled S w' := by
  induction es generalizing w with
  | nil => cases h; exact hw
  | cons e es ih =>
      obtain ⟨w₁, h₁, h₂⟩ := Option.bind_eq_some.mp h
      exact ih (idsTiled_exec hw hs h₁) (sane_exec hs h₁) h₂

theorem idsTiled_of_run {P : Type} {rio : RepoIo Unit P} {r₀ : SeqRepo Unit}
    (h₀ : Reachable S rio r₀) {es : List (Event ι)} (hrun : (World.start r₀ : World ι).run S es = some w) :
    IdsTiled S w :=
  idsTiled_run (idsTiled_start h₀) (sane_start h₀) hrun

end IdsTiled

/-- Every record of the tree is at version 0 or 1. -/
theorem IdsTree.ver_le_one {N : Nat} {G : List (PartId × PartInfo)} (hT : IdsTree N G) :
    ∀ x ∈ G, x.2.ver.toNat ≤ 1 := fun x hx => by
  rcases hT.shaped x hx with ⟨h0, -⟩ | ⟨h1, -⟩
  · rw [h0]; decide
  · rw [h1]; decide

/-- So no version of the tree is near wrapping. -/
theorem IdsTree.ver_lt_u32Max {N : Nat} {G : List (PartId × PartInfo)} (hT : IdsTree N G) :
    ∀ x ∈ G, x.2.ver.toNat < u32Max := fun x hx =>
  lt_of_le_of_lt (hT.ver_le_one x hx) (by decide)

/-- **NO WRAP**: the version invariant `Good` holds in every world of a run from a
    reachable state, with no proviso. -/
theorem good_of_run [DecidableEq ι] {S : PartIdSpace} {P : Type} {rio : RepoIo Unit P}
    {r₀ : SeqRepo Unit} (h₀ : Reachable S rio r₀) {es : List (Event ι)} {w : World ι}
    (hrun : (World.start r₀ : World ι).run S es = some w) : Good S w :=
  good_run (good_start h₀) hrun (idsTiled_of_run h₀ hrun).tree.ver_lt_u32Max

/-- **IDENTIFIERS ACROSS REPLICAS**: replicas of a repository, started from any state a run
    from `init_first` reaches, that call `divide` on their own and read each other's
    blocks in any order, keep in every replica identifier intervals that partition
    `[1, max_num]`; and every record a `divide` has left is at version 0 or 1, so no
    version wraps. -/
theorem replica_ids_partition [DecidableEq ι] (S : PartIdSpace) {P : Type} {rio : RepoIo Unit P}
    {r₀ : SeqRepo Unit} (h₀ : Reachable S rio r₀) {es : List (Event ι)} {w : World ι}
    (hrun : (World.start r₀ : World ι).run S es = some w) :
    (∀ i, IdsPartition S.maxNum (w.repos i).parts) ∧ ∀ x ∈ w.written, x.2.ver.toNat ≤ 1 := by
  have hw := idsTiled_of_run h₀ hrun
  exact ⟨fun i => (hw.repos i).ids, hw.tree.ver_le_one⟩

/-- The world `divergingRun` reaches: each replica has read the block the other wrote
    after its `divide`, and keeps its own lower half of partition 1, cut at its own
    median. -/
theorem run_divergingRun :
    ∃ w, (World.start (SeqRepo.first plainIds ()) : World Bool).run plainIds divergingRun = some w ∧
      (∀ i j, i ≠ j →
        ∃ n ∈ w.read i, ∃ m, w.sent[n]? = some m ∧ m.sender = j ∧ m.divides = w.divides j) ∧
      (w.repos true).parts.lookup ⟨2⟩ = some ⟨⟨549755813888⟩, 0, 0, 4⟩ ∧
      (w.repos false).parts.lookup ⟨2⟩ = some ⟨⟨549755813888⟩, 0, 0, 6⟩ := by
  obtain ⟨res5, r5, h5, hp5⟩ := divide_first_sampleOf (n := 5) (by decide)
  obtain ⟨res7, r7, h7, hp7⟩ := divide_first_sampleOf (n := 7) (by decide)
  have hin : ∀ median : UInt32, InRange plainIds
      (splitParts (SeqRepo.first plainIds ()).parts ⟨1⟩ (firstInfo plainIds) median) := fun _ =>
    inRange_splitParts (inRange_of_reachable (reachable_first plainIds)) (AList.lookup_insert _)
      (by decide)
  have hlen5 : r5.parts.entries.length ≤ u32Max := by rw [hp5]; decide
  have hlen7 : r7.parts.entries.length ≤ u32Max := by rw [hp7]; decide
  rcases hrun : (World.start (SeqRepo.first plainIds ()) : World Bool).run plainIds divergingRun
    with _ | w
  all_goals
    have hcomp := hrun
    rw [divergingRun, run_cons (exec_divide h5), run_cons (exec_divide h7),
      run_cons (exec_send hlen5), run_cons (exec_send hlen7),
      run_cons (exec_recv (m := ⟨false, 1, r7.parts, classifierBytes plainIds r7.parts⟩) rfl),
      run_cons (exec_recv (m := ⟨true, 1, r5.parts, classifierBytes plainIds r5.parts⟩) rfl),
      World.run] at hcomp
    cases hcomp
  refine ⟨_, rfl, fun i j hij => ?_, ?_⟩
  · cases i <;> cases j
    · exact absurd rfl hij
    · exact ⟨0, by simp, _, rfl, rfl, rfl⟩
    · exact ⟨1, by simp, _, rfl, rfl, rfl⟩
    · exact absurd rfl hij
  simp only [readBy_repos, wrote_repos, divided_repos, Bool.false_eq_true, Bool.true_eq_false,
    if_true, if_false]
  rw [readBuf_classifierBytes_eq _ _ (hp7 ▸ hin _) hlen7,
    readBuf_classifierBytes_eq _ _ (hp5 ▸ hin _) hlen5]
  simp only [setClassifier_parts, hp5, hp7]
  decide

/-- Even the two replicas of `divergingRun`, which split partition 1 at different medians
    and never agree, keep their identifier intervals a partition. -/
theorem replica_ids_partition_diverging :
    Reachable plainIds okIo (SeqRepo.first plainIds ()) ∧
    ∃ w, (World.start (SeqRepo.first plainIds ()) : World Bool).run plainIds divergingRun = some w ∧
      (∀ i, IdsPartition plainIds.maxNum (w.repos i).parts) ∧ ∀ x ∈ w.written, x.2.ver.toNat ≤ 1 :=
  have ⟨w, hrun, _⟩ := run_divergingRun
  ⟨reachable_first plainIds, w, hrun, replica_ids_partition plainIds (reachable_first plainIds) hrun⟩

/-- **ONE INTERVAL PER IDENTIFIER**: in every run from a reachable state, under any
    interleaving and with no assumption at all, two replicas that hold one identifier in
    use, at any two points of the run, give it the same maximal identifier; replicas that
    split at different medians still agree on which identifiers each partition owns. -/
theorem replica_ids_agree [DecidableEq ι] (S : PartIdSpace) {P : Type} {rio : RepoIo Unit P}
    {r₀ : SeqRepo Unit} (h₀ : Reachable S rio r₀) {es₁ es₂ : List (Event ι)} {w₁ w₂ : World ι}
    (h₁ : (World.start r₀ : World ι).run S es₁ = some w₁) (h₂ : w₁.run S es₂ = some w₂)
    (i j : ι) {k : PartId} {r r' : PartInfo} (hr : (w₁.repos i).parts.lookup k = some r)
    (hr' : (w₂.repos j).parts.lookup k = some r') (h0 : r.ver = 0) (h0' : r'.ver = 0) :
    r'.maxPartId = r.maxPartId := by
  have hw₁ := idsTiled_of_run h₀ h₁
  have hw₂ := idsTiled_of_run h₀ (run_append h₁ h₂)
  exact hw₂.tree.agree (k, r') ((hw₂.repos j).held k r' hr') (k, r)
    (written_run h₂ ((hw₁.repos i).held k r hr)) h0' h0 rfl

/-- The replicas of `divergingRun` hold different records for partition 2, cut at lengths
    4 and 6, over one interval of identifiers. -/
theorem replica_ids_agree_diverging :
    Reachable plainIds okIo (SeqRepo.first plainIds ()) ∧
    ∃ w, (World.start (SeqRepo.first plainIds ()) : World Bool).run plainIds divergingRun = some w ∧
      ∃ r r' : PartInfo, (w.repos true).parts.lookup ⟨2⟩ = some r ∧
        (w.repos false).parts.lookup ⟨2⟩ = some r' ∧ r.ver = 0 ∧ r'.ver = 0 ∧ r ≠ r' ∧
        r'.maxPartId = r.maxPartId :=
  have ⟨w, hrun, _, h5, h7⟩ := run_divergingRun
  ⟨reachable_first plainIds, w, hrun, _, _, h5, h7, rfl, rfl, by decide,
    replica_ids_agree plainIds (reachable_first plainIds) hrun (show w.run plainIds [] = some w from rfl)
      true false h5 h7 rfl rfl⟩

/-- **NO RESURRECTION**: in every run from a reachable state, under any interleaving and
    with no assumption at all, a partition that a replica holds retired stays retired in
    that replica for the rest of the run: at version 1, its interval and its live range
    cut down to its key and its lower bound; so `classify` there never picks it again,
    however stale the blocks the replica reads. -/
theorem replica_retired_never_returns [DecidableEq ι] (S : PartIdSpace) {P : Type}
    {rio : RepoIo Unit P} {r₀ : SeqRepo Unit} (h₀ : Reachable S rio r₀)
    {es₁ es₂ : List (Event ι)} {w₁ w₂ : World ι}
    (h₁ : (World.start r₀ : World ι).run S es₁ = some w₁) (h₂ : w₁.run S es₂ = some w₂)
    (i : ι) {k : PartId} {r : PartInfo} (hr : (w₁.repos i).parts.lookup k = some r)
    (hret : r.ver ≠ 0) :
    ∃ r', (w₂.repos i).parts.lookup k = some r' ∧ r'.ver = 1 ∧ r'.maxPartId = k ∧
      r'.maxLen = r'.minLen ∧ ∀ elt, (w₂.repos i).csf.classify elt ≠ some k := by
  have h₁₂ := run_append h₁ h₂
  have hw₂ := idsTiled_of_run h₀ h₁₂
  -- the replica keeps `k`, at a version no lower
  have hle := mapLe_run (good_of_run h₀ h₁) h₂ hw₂.tree.ver_lt_u32Max i k
  rw [hr] at hle
  obtain ⟨r', hr', hver⟩ := hle.exists_of_some
  rcases hw₂.tree.shaped _ ((hw₂.repos i).held k r' hr') with ⟨h0, -⟩ | ⟨h1, hmax, hlen⟩
  · -- no version above 0 comes back to 0
    rw [h0] at hver
    exact absurd (UInt32.toNat.inj (show r.ver.toNat = (0 : UInt32).toNat from Nat.le_zero.mp hver))
      hret
  refine ⟨r', hr', h1, hmax, hlen, fun elt hc => ?_⟩
  -- `classify` only picks entries whose live range is nonempty
  have hstep := (good_of_run h₀ h₁₂).inStep i
  obtain ⟨b, hb, -⟩ := classify_eq_some (by rw [hstep]; exact sorted_classesOf _) hc
  rw [hstep, mem_classesOf, mem_liveClasses, hr'] at hb
  obtain ⟨_, hl, hlt, -⟩ := hb
  cases hl
  rw [hlen] at hlt
  exact UInt32.lt_irrefl _ hlt

/-- Replica `true` retires partition 1, then reads the block replica `false` wrote from
    its first state, which still has partition 1 in use. -/
theorem replica_retired_never_returns_stale :
    Reachable plainIds okIo (SeqRepo.first plainIds ()) ∧
    ∃ w₁ w₂, (World.start (SeqRepo.first plainIds ()) : World Bool).run plainIds
        [.divide true (sampleOf 5)] = some w₁ ∧
      w₁.run plainIds [.send false, .recv true 0] = some w₂ ∧
      (w₁.repos true).parts.lookup ⟨1⟩ = some ⟨⟨1⟩, 1, 0, 0⟩ ∧ (1 : UInt32) ≠ 0 ∧
      ∃ r', (w₂.repos true).parts.lookup ⟨1⟩ = some r' ∧ r'.ver = 1 ∧ r'.maxPartId = ⟨1⟩ ∧
        r'.maxLen = r'.minLen ∧ ∀ elt, (w₂.repos true).csf.classify elt ≠ some ⟨1⟩ := by
  obtain ⟨res5, r5, h5, hp5⟩ := divide_first_sampleOf (n := 5) (by decide)
  have hlen1 : (SeqRepo.first plainIds ()).parts.entries.length ≤ u32Max := by decide
  have h₁ : (World.start (SeqRepo.first plainIds ()) : World Bool).run plainIds
      [.divide true (sampleOf 5)] =
        some ((World.start (SeqRepo.first plainIds ()) : World Bool).divided true r5) := by
    rw [run_cons (exec_divide h5), World.run]
  have hr : (((World.start (SeqRepo.first plainIds ()) : World Bool).divided true r5).repos
      true).parts.lookup ⟨1⟩ = some ⟨⟨1⟩, 1, 0, 0⟩ := by
    simp only [divided_repos, if_true]
    rw [hp5]
    decide
  rcases h₂ : ((World.start (SeqRepo.first plainIds ()) : World Bool).divided true r5).run
    plainIds [.send false, .recv true 0] with _ | w₂
  all_goals
    have hcomp := h₂
    rw [run_cons (exec_send hlen1), run_cons (exec_recv (m := ⟨false, 0,
      (SeqRepo.first plainIds ()).parts, classifierBytes plainIds (SeqRepo.first plainIds ()).parts⟩)
      rfl), World.run] at hcomp
    cases hcomp
  exact ⟨reachable_first plainIds, _, _, h₁, h₂, hr, by decide,
    replica_retired_never_returns plainIds (reachable_first plainIds) h₁ h₂ true hr (by decide)⟩

/-! ## Convergence on identifiers -/

/-- Once every replica has read a block every other one wrote after its last `divide`,
    every record anywhere is no newer than what each replica holds. -/
theorem verLe_of_exchanged [DecidableEq ι] {S : PartIdSpace} {w : World ι} (hw : Good S w)
    (hread : ∀ i j, i ≠ j →
      ∃ n ∈ w.read i, ∃ m, w.sent[n]? = some m ∧ m.sender = j ∧ m.divides = w.divides j)
    (i j : ι) (k : PartId) :
    VerLe ((w.repos j).parts.lookup k) ((w.repos i).parts.lookup k) := by
  -- every map is above every replica's map right after its last divide
  have hall : ∀ l, MapLe (w.lastDivide l) (w.repos i).parts := by
    intro l
    by_cases hil : i = l
    · subst hil; exact hw.lastDivide_le i
    · obtain ⟨n, hn, m, hm, rfl, hdiv⟩ := hread i l hil
      obtain ⟨m', hm', hle⟩ := hw.read_le i n hn
      rw [hm] at hm'
      cases hm'
      exact ((hw.sent m (List.getElem?_mem hm)).2.2.2.2 hdiv).trans hle
  cases hk : (w.repos j).parts.lookup k with
  | none => trivial
  | some r =>
      obtain ⟨-, l, hl⟩ := (hw.held j).2 k r hk
      exact hl.trans (hall l k)

/-- **CONVERGENCE ON IDENTIFIERS**: replicas that start from one reachable state and run
    any interleaving of `divide`, `write_buf` and `read_buf` hold, once each has read a
    block every other one wrote after its last `divide`, the same identifiers, each at
    the same version and with the same maximal identifier.  Unlike the convergence of
    whole maps, this needs neither agreeing records nor a bound on versions: replicas
    that split at different medians disagree only on length ranges. -/
theorem replicas_converge_on_ids [DecidableEq ι] (S : PartIdSpace) {P : Type}
    {rio : RepoIo Unit P} {r₀ : SeqRepo Unit} (h₀ : Reachable S rio r₀) {es : List (Event ι)}
    {w : World ι} (hrun : (World.start r₀ : World ι).run S es = some w)
    (hread : ∀ i j, i ≠ j →
      ∃ n ∈ w.read i, ∃ m, w.sent[n]? = some m ∧ m.sender = j ∧ m.divides = w.divides j)
    (i j : ι) (k : PartId) :
    ((w.repos i).parts.lookup k).map (fun r => (r.ver, r.maxPartId)) =
      ((w.repos j).parts.lookup k).map (fun r => (r.ver, r.maxPartId)) := by
  have hT := idsTiled_of_run h₀ hrun
  have hw := good_of_run h₀ hrun
  have h1 := verLe_of_exchanged hw hread i j k
  have h2 := verLe_of_exchanged hw hread j i k
  cases hi : (w.repos i).parts.lookup k <;> cases hj : (w.repos j).parts.lookup k <;>
    simp only [hi, hj, VerLe] at h1 h2
  · rfl
  rename_i a b
  have hv : a.ver = b.ver := UInt32.toNat.inj (by omega)
  have ha := (hT.repos i).held k a hi
  have hb := (hT.repos j).held k b hj
  -- both in use, with one interval for the key, or both retired at the key itself
  rcases hT.tree.shaped _ ha with ⟨ha0, -⟩ | ⟨ha1, hak, -⟩
  · rw [Option.map_some', Option.map_some', hv,
      hT.tree.agree _ ha _ hb ha0 (hv ▸ ha0) rfl]
  · rcases hT.tree.shaped _ hb with ⟨hb0, -⟩ | ⟨-, hbk, -⟩
    · exact absurd (ha1.symm.trans (hv.trans hb0)) (by decide)
    · rw [Option.map_some', Option.map_some', hv]
      exact congrArg (fun m => some (b.ver, m)) (hak.trans hbk.symm)

/-- The replicas of `divergingRun` have exchanged their blocks and hold different records
    for partition 2, with one version and one interval of identifiers. -/
theorem replicas_converge_on_ids_diverging :
    Reachable plainIds okIo (SeqRepo.first plainIds ()) ∧
    ∃ w, (World.start (SeqRepo.first plainIds ()) : World Bool).run plainIds divergingRun = some w ∧
      (∀ i j, i ≠ j →
        ∃ n ∈ w.read i, ∃ m, w.sent[n]? = some m ∧ m.sender = j ∧ m.divides = w.divides j) ∧
      (w.repos true).parts.lookup ⟨2⟩ ≠ (w.repos false).parts.lookup ⟨2⟩ ∧
      ∀ k, ((w.repos true).parts.lookup k).map (fun r => (r.ver, r.maxPartId)) =
        ((w.repos false).parts.lookup k).map (fun r => (r.ver, r.maxPartId)) :=
  have ⟨w, hrun, hread, h5, h7⟩ := run_divergingRun
  ⟨reachable_first plainIds, w, hrun, hread, by rw [h5, h7]; decide,
    replicas_converge_on_ids plainIds (reachable_first plainIds) hrun hread true false⟩

end Pippin
