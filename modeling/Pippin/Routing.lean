import Pippin.Partitioning
import Pippin.Bytes

/-! # Runs that keep the length ranges a partition

    `set_classifier` lists the entries whose range is live (`max_len > min_len`), and
    `classify` picks the class with the largest lower bound at most the length.  When
    the live ranges tile `[0, u32::MAX]` (`LensTiling`), that is exactly the entry
    whose range holds the length (`classify_eq_some_iff_routes`).

    A split of `[lo, hi]` at the median `m` leaves `[lo, m - 1]` and `[m, hi]`, in
    wrapping `u32`.  It keeps the tiling exactly when both halves are live, or when
    `m = lo > 0` empties the lower half (`SafeSplit`).  Every other median that a
    sample of the partition's own elements can have breaks it: `m = lo + 1` and
    `m = hi` each drop a length, and `m = lo = 0` wraps `m - 1` to `u32::MAX`, so that
    two live ranges hold `0`.

    * `safe_run_routes_exactly`: over a run whose splits are all safe, the tiling and
      the exact routing hold in every state.
    * `divide_keeps_tiling_iff`: from a reachable state with the tiling, a `divide` on
      elements that `classify` sends to the divided partition keeps the tiling if and
      only if its median is safe, and an unsafe median breaks it in one of the three
      ways (`splitParts_loses_minLen`, `splitParts_loses_maxLen`,
      `splitParts_routes_zero_twice`).
    * `divide_splits_sample_at_median`: such a split sends the sampled elements shorter
      than the median of their lengths to the first new partition and the others to the
      second, and the shorter ones are at most half of the sample. -/

namespace Pippin

variable {σ P : Type}

/-! ## Live ranges -/

/-- `len` lies in `[lo, hi]`, a range that `set_classifier` keeps (`hi > lo`). -/
def LiveRange (lo hi : UInt32) (len : Nat) : Prop :=
  lo < hi ∧ lo.toNat ≤ len ∧ len ≤ hi.toNat

instance (lo hi : UInt32) (len : Nat) : Decidable (LiveRange lo hi len) :=
  inferInstanceAs (Decidable (_ ∧ _))

/-- The entry of `k` exists and its live range holds `len`. -/
def Routes (parts : PartMap) (k : PartId) (len : Nat) : Prop :=
  ∃ r, parts.lookup k = some r ∧ LiveRange r.minLen r.maxLen len

/-- The live length ranges partition `[0, u32::MAX]`: each length up to `u32::MAX` lies
    in the live range of exactly one entry. -/
structure LensTiling (parts : PartMap) : Prop where
  unique : ∀ k₁ k₂ len, Routes parts k₁ len → Routes parts k₂ len → k₁ = k₂
  cover : ∀ len, len ≤ u32Max → ∃ k, Routes parts k len

theorem toNat_le_u32Max (x : UInt32) : x.toNat ≤ u32Max :=
  Nat.le_of_lt_succ x.toNat_lt_size

/-- The lower bound of a live entry routes to it. -/
theorem routes_minLen {parts : PartMap} {k : PartId} {r : PartInfo}
    (hr : parts.lookup k = some r) (hlive : r.minLen < r.maxLen) :
    Routes parts k r.minLen.toNat :=
  ⟨r, hr, hlive, le_refl _, Nat.le_of_lt (u32_lt_iff.mp hlive)⟩

/-! ## What `classify` answers on a tiling -/

/-- **EXACT ROUTING**: when the live ranges tile `[0, u32::MAX]` and the classifier is
    in step, `classify` sends every sequence to the entry whose live range holds its
    length, a longer sequence counting as `u32::MAX`; so it never answers `None`. -/
theorem classify_eq_some_iff_routes {repo : SeqRepo σ} (ht : LensTiling repo.parts)
    (hs : repo.InStep) (elt : Sequence) (k : PartId) :
    repo.csf.classify elt = some k ↔ Routes repo.parts k (min elt.v.length u32Max) := by
  have hsorted : BoundsSorted repo.csf.classes := hs ▸ sorted_classesOf _
  have hmem : ∀ {b id}, (b, id) ∈ repo.csf.classes ↔
      ∃ r, repo.parts.lookup id = some r ∧ r.minLen < r.maxLen ∧ b = r.minLen.toNat := by
    intro b id; rw [hs, mem_classesOf, mem_liveClasses]
  obtain ⟨k₀, r₀, hr₀, hlive₀, hlo₀, hhi₀⟩ :=
    ht.cover (min elt.v.length u32Max) (Nat.min_le_right _ _)
  have hk₀ : repo.csf.classify elt = some k₀ := by
    cases hc : repo.csf.classify elt with
    | none =>
        have := (classify_eq_none_iff hsorted).mp hc _ (hmem.mpr ⟨r₀, hr₀, hlive₀, rfl⟩)
        omega
    | some id =>
        obtain ⟨b, hb, hble, hmax⟩ := classify_eq_some hsorted hc
        obtain ⟨r, hr, hlive, rfl⟩ := hmem.mp hb
        have hlo : r₀.minLen.toNat ≤ r.minLen.toNat :=
          hmax _ (hmem.mpr ⟨r₀, hr₀, hlive₀, rfl⟩) (by omega)
        have hb₀ : Routes repo.parts k₀ r.minLen.toNat :=
          ⟨r₀, hr₀, hlive₀, hlo, by have := toNat_le_u32Max r.minLen; omega⟩
        rw [ht.unique _ _ _ (routes_minLen hr hlive) hb₀]
  rw [hk₀, Option.some_inj]
  exact ⟨fun h => h ▸ ⟨r₀, hr₀, hlive₀, hlo₀, hhi₀⟩,
    fun h => ht.unique _ _ _ ⟨r₀, hr₀, hlive₀, hlo₀, hhi₀⟩ h⟩

/-- An element that `classify` sends to an entry, and that fits in a `u32`, has its length
    in that entry's live range. -/
theorem liveRange_of_classify {repo : SeqRepo σ} (ht : LensTiling repo.parts) (hs : repo.InStep)
    {e : Sequence} {k : PartId} {info : PartInfo} (hc : repo.csf.classify e = some k)
    (hinfo : repo.parts.lookup k = some info) (hle : e.v.length ≤ u32Max) :
    LiveRange info.minLen info.maxLen e.v.length := by
  obtain ⟨r, hr, hlive⟩ := (classify_eq_some_iff_routes ht hs e k).mp hc
  rw [hinfo, Option.some_inj] at hr
  subst hr
  rwa [Nat.min_eq_left hle] at hlive

/-! ## What a split does to the live ranges -/

/-- A median that keeps the tiling: it cuts the divided range into two live halves, or
    it is the range's lower bound and above 0, which leaves the lower half empty and
    the upper half the whole range. -/
def SafeSplit (info : PartInfo) (median : UInt32) : Prop :=
  (0 < info.minLen ∧ median = info.minLen) ∨
    (info.minLen.toNat + 2 ≤ median.toNat ∧ median < info.maxLen)

instance (info : PartInfo) (median : UInt32) : Decidable (SafeSplit info median) :=
  inferInstanceAs (Decidable (_ ∨ _))

theorem toNat_sub_one {m : UInt32} (h : 1 ≤ m.toNat) : (m - 1).toNat = m.toNat - 1 :=
  UInt32.toNat_sub_of_le _ _ (u32_le_iff.mpr h)

/-- A median inside a range `[lo, hi]` that is not safe is `lo = 0`, `lo + 1` or `hi`. -/
theorem unsafeSplit_cases {info : PartInfo} {median : UInt32} (hlo : info.minLen ≤ median) (hhi : median ≤ info.maxLen) (h : ¬ SafeSplit info median) :
    (median = 0 ∧ info.minLen = 0) ∨ median.toNat = info.minLen.toNat + 1 ∨
      median = info.maxLen := by
  simp only [SafeSplit, UInt32.ext_iff, u32_lt_iff, u32_le_iff, UInt32.toNat_zero] at *
  omega

/-- The halves of a safe split tile the divided range: a length lies in one of them
    exactly when it lies in the divided range, and never in both. -/
theorem safeSplit_halves {info : PartInfo} {median : UInt32} (h : SafeSplit info median)
    (len : Nat) :
    (LiveRange median info.maxLen len ∨ LiveRange info.minLen (median - 1) len ↔
      LiveRange info.minLen info.maxLen len) ∧
    ¬ (LiveRange median info.maxLen len ∧ LiveRange info.minLen (median - 1) len) := by
  have h1 : 1 ≤ median.toNat := by
    rcases h with ⟨h0, rfl⟩ | ⟨h2, -⟩
    · exact u32_lt_iff.mp h0
    · omega
  have hsub := toNat_sub_one h1
  rcases h with ⟨-, rfl⟩ | ⟨h2, h3⟩
  · simp only [LiveRange, u32_lt_iff, hsub]; omega
  · simp only [LiveRange, u32_lt_iff, hsub] at h3 ⊢; omega

/-- Under a safe split, a length of the divided range lies in the lower half exactly when
    it is below the median, and in the upper half exactly when it is not. -/
theorem safeSplit_sides {info : PartInfo} {median : UInt32} (h : SafeSplit info median)
    {len : Nat} (hold : LiveRange info.minLen info.maxLen len) :
    (LiveRange info.minLen (median - 1) len ↔ len < median.toNat) ∧
      (LiveRange median info.maxLen len ↔ median.toNat ≤ len) := by
  have h1 : 1 ≤ median.toNat := by
    rcases h with ⟨h0, rfl⟩ | ⟨h2, -⟩
    · exact u32_lt_iff.mp h0
    · omega
  have hsub := toNat_sub_one h1
  simp only [LiveRange, u32_lt_iff] at hold
  rcases h with ⟨-, rfl⟩ | ⟨h2, h3⟩
  · simp only [LiveRange, u32_lt_iff, hsub]; omega
  · simp only [LiveRange, u32_lt_iff, hsub] at h3 ⊢; omega

section Split

variable {N : Nat} {parts : PartMap} {oldId : PartId} {info : PartInfo} {median : UInt32}

/-- **SPLIT, ROUTING**: after a split, the entries that route a length are the old ones
    other than the divided entry, and the two halves. -/
theorem routes_splitParts (hinfo : parts.lookup oldId = some info)
    (hroom : oldId.num + 2 ≤ info.maxPartId.num) {k : PartId} {len : Nat} :
    Routes (splitParts parts oldId info median) k len ↔
      (k ≠ oldId ∧ k ≠ ⟨(newNums oldId.num info.maxPartId.num).2⟩ ∧
        k ≠ ⟨(newNums oldId.num info.maxPartId.num).1⟩ ∧ Routes parts k len) ∨
      (k = ⟨(newNums oldId.num info.maxPartId.num).2⟩ ∧
        LiveRange median info.maxLen len) ∨
      (k = ⟨(newNums oldId.num info.maxPartId.num).1⟩ ∧
        LiveRange info.minLen (median - 1) len) := by
  obtain ⟨h1, h2, h21⟩ := newNums_ne hroom
  simp only [Routes, lookup_splitParts hinfo hroom]
  split_ifs with h0 hk2 hk1
  · subst h0; simp [LiveRange, h1.symm, h2.symm]
  · subst hk2; simp [h2, h21]
  · subst hk1; simp [h1, h21.symm]
  · simp [h0, hk2, hk1]

/-- Where the divided entry routed a length that neither half holds, no entry routes it
    after the split. -/
theorem not_routes_splitParts (ht : LensTiling parts) (hinfo : parts.lookup oldId = some info)
    (hroom : oldId.num + 2 ≤ info.maxPartId.num) {len : Nat}
    (hold : LiveRange info.minLen info.maxLen len) (h2 : ¬ LiveRange median info.maxLen len)
    (h1 : ¬ LiveRange info.minLen (median - 1) len) (k : PartId) :
    ¬ Routes (splitParts parts oldId info median) k len := by
  rw [routes_splitParts hinfo hroom]
  rintro (⟨h0, -, -, hk⟩ | ⟨-, h⟩ | ⟨-, h⟩)
  · exact h0 (ht.unique _ _ _ hk ⟨info, hinfo, hold⟩)
  · exact h2 h
  · exact h1 h

/-- **SAFE SPLIT**: a split at a safe median keeps the live ranges a partition. -/
theorem splitParts_lensTiling (hp : IdsPartition N parts) (ht : LensTiling parts)
    (hinfo : parts.lookup oldId = some info) (hroom : oldId.num + 2 ≤ info.maxPartId.num)
    (hsafe : SafeSplit info median) : LensTiling (splitParts parts oldId info median) := by
  have hf1 : parts.lookup ⟨(newNums oldId.num info.maxPartId.num).1⟩ = none :=
    lookup_eq_none_of_covers hp hinfo (by simp only [newNums]; omega)
      (by simp only [newNums]; omega)
  have hf2 : parts.lookup ⟨(newNums oldId.num info.maxPartId.num).2⟩ = none :=
    lookup_eq_none_of_covers hp hinfo (by simp only [newNums]; omega)
      (by simp only [newNums]; omega)
  -- an entry other than the divided one routes no length of the divided range
  have hother : ∀ k len, k ≠ oldId → Routes parts k len →
      ¬ LiveRange info.minLen info.maxLen len :=
    fun k len h0 hk hold => h0 (ht.unique _ _ _ hk ⟨info, hinfo, hold⟩)
  refine ⟨fun k₁ k₂ len h₁ h₂ => ?_, fun len hlen => ?_⟩
  · have hhalf := safeSplit_halves hsafe len
    rw [routes_splitParts hinfo hroom] at h₁ h₂
    rcases h₁ with ⟨h0, -, -, h₁⟩ | ⟨rfl, h₁⟩ | ⟨rfl, h₁⟩ <;>
      rcases h₂ with ⟨h0', -, -, h₂⟩ | ⟨rfl, h₂⟩ | ⟨rfl, h₂⟩
    · exact ht.unique _ _ _ h₁ h₂
    · exact absurd (hhalf.1.mp (.inl h₂)) (hother _ _ h0 h₁)
    · exact absurd (hhalf.1.mp (.inr h₂)) (hother _ _ h0 h₁)
    · exact absurd (hhalf.1.mp (.inl h₁)) (hother _ _ h0' h₂)
    · rfl
    · exact absurd ⟨h₁, h₂⟩ hhalf.2
    · exact absurd (hhalf.1.mp (.inr h₁)) (hother _ _ h0' h₂)
    · exact absurd ⟨h₂, h₁⟩ hhalf.2
    · rfl
  · obtain ⟨k, r, hr, hk⟩ := ht.cover len hlen
    by_cases h0 : k = oldId
    · subst h0
      rw [hinfo, Option.some_inj] at hr
      subst hr
      rcases (safeSplit_halves hsafe len).1.mpr hk with h | h
      · exact ⟨_, (routes_splitParts hinfo hroom).mpr (.inr (.inl ⟨rfl, h⟩))⟩
      · exact ⟨_, (routes_splitParts hinfo hroom).mpr (.inr (.inr ⟨rfl, h⟩))⟩
    · refine ⟨k, (routes_splitParts hinfo hroom).mpr (.inl ⟨h0, ?_, ?_, r, hr, hk⟩)⟩ <;>
        rintro rfl <;> simp_all

/-- **LOWER BOUND LOST**: a split of a live range `[lo, hi]` at `lo + 1` leaves `lo` in
    neither half, and no entry routes it. -/
theorem splitParts_loses_minLen (ht : LensTiling parts) (hinfo : parts.lookup oldId = some info)
    (hroom : oldId.num + 2 ≤ info.maxPartId.num) (hlive : info.minLen < info.maxLen)
    (hm : median.toNat = info.minLen.toNat + 1) (k : PartId) :
    ¬ Routes (splitParts parts oldId info median) k info.minLen.toNat := by
  have hsub := toNat_sub_one (m := median) (by omega)
  have hlt := u32_lt_iff.mp hlive
  exact not_routes_splitParts ht hinfo hroom ⟨hlive, le_refl _, Nat.le_of_lt hlt⟩
    (fun h => by unfold LiveRange at h; omega)
    (fun h => by simp only [LiveRange, u32_lt_iff, hsub] at h; omega) k

/-- **UPPER BOUND LOST**: a split of a live range `[lo, hi]` at `hi` leaves `hi` in neither
    half, and no entry routes it. -/
theorem splitParts_loses_maxLen (ht : LensTiling parts) (hinfo : parts.lookup oldId = some info)
    (hroom : oldId.num + 2 ≤ info.maxPartId.num) (hlive : info.minLen < info.maxLen)
    (hm : median = info.maxLen) (k : PartId) :
    ¬ Routes (splitParts parts oldId info median) k info.maxLen.toNat := by
  subst hm
  have hlt := u32_lt_iff.mp hlive
  have hsub := toNat_sub_one (m := info.maxLen) (by omega)
  exact not_routes_splitParts ht hinfo hroom ⟨hlive, Nat.le_of_lt hlt, le_refl _⟩
    (fun h => UInt32.lt_irrefl _ h.1)
    (fun h => by simp only [LiveRange, u32_lt_iff, hsub] at h; omega) k

/-- **ZERO ROUTED TWICE**: a split of a live range `[0, hi]` at `0` wraps `median - 1` to
    `u32::MAX`: both new halves are live and route the length `0`. -/
theorem splitParts_routes_zero_twice (hinfo : parts.lookup oldId = some info)
    (hroom : oldId.num + 2 ≤ info.maxPartId.num) (hlive : info.minLen < info.maxLen)
    (hm : median = 0) (hl : info.minLen = 0) :
    Routes (splitParts parts oldId info median) ⟨(newNums oldId.num info.maxPartId.num).2⟩ 0 ∧
      Routes (splitParts parts oldId info median) ⟨(newNums oldId.num info.maxPartId.num).1⟩ 0 := by
  rw [hl] at hlive
  refine ⟨(routes_splitParts hinfo hroom).mpr (.inr (.inl ⟨rfl, ?_⟩)),
    (routes_splitParts hinfo hroom).mpr (.inr (.inr ⟨rfl, ?_⟩))⟩
  · rw [hm]; exact ⟨hlive, le_refl _, Nat.zero_le _⟩
  · rw [hm, hl]; decide

/-- **UNSAFE SPLIT**: a split of a live range at a median inside it keeps the tiling only
    if the median is safe: each unsafe median breaks it in one of the three ways above. -/
theorem safeSplit_of_lensTiling (ht : LensTiling parts) (hinfo : parts.lookup oldId = some info)
    (hroom : oldId.num + 2 ≤ info.maxPartId.num) (hlive : info.minLen < info.maxLen)
    (hlo : info.minLen ≤ median) (hhi : median ≤ info.maxLen)
    (h : LensTiling (splitParts parts oldId info median)) : SafeSplit info median := by
  by_contra hns
  rcases unsafeSplit_cases hlo hhi hns with ⟨hm, hl⟩ | hm | hm
  · obtain ⟨h₂, h₁⟩ := splitParts_routes_zero_twice hinfo hroom hlive hm hl
    exact (newNums_ne hroom).2.2 (h.unique _ _ 0 h₂ h₁)
  · obtain ⟨k, hk⟩ := h.cover _ (toNat_le_u32Max info.minLen)
    exact splitParts_loses_minLen ht hinfo hroom hlive hm k hk
  · obtain ⟨k, hk⟩ := h.cover _ (toNat_le_u32Max info.maxLen)
    exact splitParts_loses_maxLen ht hinfo hroom hlive hm k hk

end Split

/-! ## Runs -/

/-- After `init_first`, partition 1 routes every length. -/
theorem lensTiling_first (S : PartIdSpace) :
    LensTiling ((∅ : PartMap).insert ⟨1⟩ (firstInfo S)) := by
  have hr : ∀ k len, Routes ((∅ : PartMap).insert ⟨1⟩ (firstInfo S)) k len ↔
      k = ⟨1⟩ ∧ len ≤ u32Max := by
    intro k len
    simp only [Routes, lookup_insert_empty]
    split_ifs with h <;> simp [h, LiveRange, firstInfo, u32_lt_iff, u32Max]
  exact ⟨fun _ _ _ h₁ h₂ => ((hr _ _).mp h₁).1.trans ((hr _ _).mp h₂).1.symm,
    fun _ h => ⟨_, (hr _ _).mpr ⟨rfl, h⟩⟩⟩

/-- A `divide` call whose median, should the call get that far, is safe for the divided
    entry. -/
def SafeDivide (repo : SeqRepo σ) (part : PartState) : Prop :=
  ∀ lens median info, lensOf (part.elts.take 999) = some lens → medianOf lens = some median →
    repo.parts.lookup part.partId = some info → SafeSplit info median

/-- The states of a run, as in `Reachable`, whose `divide` calls are all safe. -/
inductive SafeReachable (S : PartIdSpace) (rio : RepoIo σ P) : SeqRepo σ → Prop
  | init {r : σ} {res : Except Error P} {repo : SeqRepo σ} :
      (SeqRepo.new r).initFirst S rio = some (res, repo) → SafeReachable S rio repo
  | divide {repo repo' : SeqRepo σ} {part : PartState}
      {res : Except DivideError (List PartId × List PartId)} :
      SafeReachable S rio repo → SafeDivide repo part → repo.divide part = some (res, repo') →
      SafeReachable S rio repo'

section Runs

variable {S : PartIdSpace} {rio : RepoIo σ P} {repo : SeqRepo σ}

theorem SafeReachable.reachable (h : SafeReachable S rio repo) : Reachable S rio repo := by
  induction h with
  | init hinit => exact .init hinit
  | divide _ _ hdiv ih => exact .divide ih hdiv

/-- **RUN INVARIANT (lengths)**: over a run of safe splits the live ranges stay a
    partition of `[0, u32::MAX]`. -/
theorem safeReachable_lensTiling (h : SafeReachable S rio repo) : LensTiling repo.parts := by
  induction h with
  | init hinit =>
      obtain ⟨_, _, he⟩ := (initFirst_eq S rio (SeqRepo.new _)).1 rfl
      rw [hinit] at he
      cases he
      exact lensTiling_first S
  | divide hrun hsafe hdiv ih =>
      rcases divide_cases hdiv with ⟨_, -, rfl⟩ |
        ⟨_, _, _, hlens, hmed, hinfo, hroom, -, rfl⟩
      · exact ih
      · exact splitParts_lensTiling (reachable_idsPartition hrun.reachable) ih hinfo hroom
          (hsafe _ _ _ hlens hmed hinfo)

theorem safeReachable_first (S : PartIdSpace) : SafeReachable S okIo (SeqRepo.first S ()) :=
  @SafeReachable.init Unit Unit S okIo () (.ok ()) _ rfl

/-- The median of a sample of elements that `classify` sends to the divided partition lies
    in that partition's live range. -/
theorem sample_median_mem {part : PartState} {info : PartInfo} {lens : List UInt32}
    {median : UInt32} (hr : Reachable S rio repo) (ht : LensTiling repo.parts)
    (hsample : ∀ e ∈ part.elts, repo.csf.classify e = some part.partId)
    (hinfo : repo.parts.lookup part.partId = some info)
    (hlens : lensOf (part.elts.take 999) = some lens) (hmed : medianOf lens = some median) :
    info.minLen < info.maxLen ∧ info.minLen ≤ median ∧ median ≤ info.maxLen := by
  obtain ⟨rfl, hall⟩ := lensOf_eq_some hlens
  obtain ⟨s, hs, rfl⟩ := List.mem_map.mp (mem_of_medianOf hmed)
  have hle := hall s hs
  obtain ⟨hlive, hlo, hhi⟩ := liveRange_of_classify ht (reachable_inStep hr)
    (hsample s (List.mem_of_mem_take hs)) hinfo hle
  have hm : s.v.length.toUInt32.toNat = s.v.length :=
    UInt32.toNat_ofNat_of_lt (Nat.lt_succ_of_le hle)
  exact ⟨hlive, u32_le_iff.mpr (by omega), u32_le_iff.mpr (by omega)⟩

end Runs

/-! ## A split at length 5 -/

/-- A sample of one element of length 5, for partition 1. -/
def fiveSample : PartState := ⟨⟨1⟩, [⟨[0, 0, 0, 0, 0]⟩]⟩

/-- The state after splitting partition 1 of a fresh repository at 5. -/
def fiveSplit : SeqRepo Unit := SeqRepo.setClassifier { SeqRepo.first plainIds () with
  parts := splitParts (SeqRepo.first plainIds ()).parts ⟨1⟩ (firstInfo plainIds) 5 }

theorem lookup_first_one (S : PartIdSpace) :
    (SeqRepo.first S ()).parts.lookup ⟨1⟩ = some (firstInfo S) :=
  AList.lookup_insert _

theorem divide_fiveSample : (SeqRepo.first plainIds ()).divide fiveSample =
    some (.ok ([⟨2⟩, ⟨2 + (plainIds.maxNum - 1) / 2⟩], []), fiveSplit) :=
  divide_one_elt (lookup_first_one plainIds) (by decide) (by decide)

/-- The split at 5 cuts `[0, u32::MAX]` into the live halves `[0, 4]` and `[5, u32::MAX]`. -/
theorem safeDivide_fiveSample : SafeDivide (SeqRepo.first plainIds ()) fiveSample := by
  intro lens median info hl hm hi
  rw [show lensOf (fiveSample.elts.take 999) = some [5] from rfl, Option.some_inj] at hl
  subst hl
  rw [medianOf_singleton, Option.some_inj] at hm
  rw [show fiveSample.partId = ⟨1⟩ from rfl, lookup_first_one, Option.some_inj] at hi
  subst hm hi
  decide

/-- The sample of `fiveSample` is sent to partition 1 by a fresh repository. -/
theorem classify_fiveSample :
    ∀ e ∈ fiveSample.elts, (SeqRepo.first plainIds ()).csf.classify e = some fiveSample.partId := by
  intro e he
  rw [List.mem_singleton.mp he]
  exact (classify_eq_some_iff_routes (lensTiling_first plainIds) (setClassifier_inStep _) _ _).mpr
    ⟨_, lookup_first_one plainIds, by decide⟩

/-! ## Routing over runs -/

section Runs

variable {S : PartIdSpace} {rio : RepoIo σ P} {repo : SeqRepo σ}

/-- **ROUTING OVER SAFE RUNS**: in every state of a run whose splits are all safe, the
    live length ranges partition `[0, u32::MAX]`, and `classify` sends every sequence to
    the entry whose live range holds its length (`u32::MAX` for a longer one); so it
    never answers `None`. -/
theorem safe_run_routes_exactly (h : SafeReachable S rio repo) :
    LensTiling repo.parts ∧ ∀ elt k,
      repo.csf.classify elt = some k ↔ Routes repo.parts k (min elt.v.length u32Max) :=
  ⟨safeReachable_lensTiling h,
    classify_eq_some_iff_routes (safeReachable_lensTiling h) (reachable_inStep h.reachable)⟩

theorem safe_run_routes_exactly_five :
    SafeReachable plainIds okIo fiveSplit ∧ LensTiling fiveSplit.parts ∧
      ∀ elt k, fiveSplit.csf.classify elt = some k ↔
        Routes fiveSplit.parts k (min elt.v.length u32Max) :=
  have h := SafeReachable.divide (safeReachable_first plainIds) safeDivide_fiveSample
    divide_fiveSample
  ⟨h, safe_run_routes_exactly h⟩

/-- **WHICH SPLITS KEEP ROUTING EXACT**: from a reachable state whose live ranges tile
    `[0, u32::MAX]`, a successful `divide` on a sample of elements that `classify`
    sends to the divided partition keeps the tiling exactly when the median it takes is
    safe for the divided range `[lo, hi]`.  Otherwise the median is `lo = 0`, `lo + 1` or
    `hi`: at `lo + 1` no entry routes `lo`, at `hi` none routes `hi`, and at `lo = 0`
    two entries route `0`. -/
theorem divide_keeps_tiling_iff {repo' : SeqRepo σ} {part : PartState}
    {ids : List PartId × List PartId} (hr : Reachable S rio repo) (ht : LensTiling repo.parts)
    (hsample : ∀ e ∈ part.elts, repo.csf.classify e = some part.partId)
    (hdiv : repo.divide part = some (.ok ids, repo')) :
    ∃ lens median info, lensOf (part.elts.take 999) = some lens ∧
      medianOf lens = some median ∧ repo.parts.lookup part.partId = some info ∧
      (LensTiling repo'.parts ↔ SafeSplit info median) ∧
      (¬ SafeSplit info median → (median = 0 ∧ info.minLen = 0) ∨
        median.toNat = info.minLen.toNat + 1 ∨ median = info.maxLen) ∧
      (median.toNat = info.minLen.toNat + 1 → ∀ k, ¬ Routes repo'.parts k info.minLen.toNat) ∧
      (median = info.maxLen → ∀ k, ¬ Routes repo'.parts k info.maxLen.toNat) ∧
      (median = 0 → info.minLen = 0 →
        ∃ k₁ k₂, k₁ ≠ k₂ ∧ Routes repo'.parts k₁ 0 ∧ Routes repo'.parts k₂ 0) := by
  rcases divide_cases hdiv with ⟨_, he, -⟩ |
    ⟨lens, median, info, hlens, hmed, hinfo, hroom, -, rfl⟩
  · cases he
  obtain ⟨hlive, hlo, hhi⟩ := sample_median_mem hr ht hsample hinfo hlens hmed
  exact ⟨lens, median, info, hlens, hmed, hinfo,
    ⟨safeSplit_of_lensTiling ht hinfo hroom hlive hlo hhi,
      splitParts_lensTiling (reachable_idsPartition hr) ht hinfo hroom⟩,
    unsafeSplit_cases hlo hhi, splitParts_loses_minLen ht hinfo hroom hlive,
    splitParts_loses_maxLen ht hinfo hroom hlive, fun hm hl => ⟨_, _, (newNums_ne hroom).2.2,
      splitParts_routes_zero_twice hinfo hroom hlive hm hl⟩⟩

theorem divide_keeps_tiling_iff_five :
    Reachable plainIds okIo (SeqRepo.first plainIds ()) ∧
      LensTiling (SeqRepo.first plainIds ()).parts ∧
      (∀ e ∈ fiveSample.elts,
        (SeqRepo.first plainIds ()).csf.classify e = some fiveSample.partId) ∧
      ∃ lens median info, lensOf (fiveSample.elts.take 999) = some lens ∧
        medianOf lens = some median ∧
        (SeqRepo.first plainIds ()).parts.lookup fiveSample.partId = some info ∧
        (LensTiling fiveSplit.parts ↔ SafeSplit info median) ∧
        (¬ SafeSplit info median → (median = 0 ∧ info.minLen = 0) ∨
          median.toNat = info.minLen.toNat + 1 ∨ median = info.maxLen) ∧
        (median.toNat = info.minLen.toNat + 1 →
          ∀ k, ¬ Routes fiveSplit.parts k info.minLen.toNat) ∧
        (median = info.maxLen → ∀ k, ¬ Routes fiveSplit.parts k info.maxLen.toNat) ∧
        (median = 0 → info.minLen = 0 →
          ∃ k₁ k₂, k₁ ≠ k₂ ∧ Routes fiveSplit.parts k₁ 0 ∧ Routes fiveSplit.parts k₂ 0) :=
  ⟨reachable_first plainIds, lensTiling_first plainIds, classify_fiveSample,
    divide_keeps_tiling_iff (reachable_first plainIds) (lensTiling_first plainIds)
      classify_fiveSample divide_fiveSample⟩

/-- **THE MEDIAN SPLIT**: from a reachable state whose live ranges tile `[0, u32::MAX]`, a
    `divide` on elements that `classify` sends to the divided partition, whose split keeps
    the tiling, leaves `classify` sending each sampled element to one of the two new
    partitions: the lower one takes exactly the elements shorter than the median of the
    sampled lengths, and they are at most half of the sample. -/
theorem divide_splits_sample_at_median {repo' : SeqRepo σ} {part : PartState}
    {id1 id2 : PartId} (hr : Reachable S rio repo) (ht : LensTiling repo.parts)
    (hsample : ∀ e ∈ part.elts, repo.csf.classify e = some part.partId)
    (hdiv : repo.divide part = some (.ok ([id1, id2], []), repo'))
    (ht' : LensTiling repo'.parts) :
    ∃ lens median, lensOf (part.elts.take 999) = some lens ∧ medianOf lens = some median ∧
      (∀ e ∈ part.elts.take 999,
        (repo'.csf.classify e = some id1 ↔ e.v.length < median.toNat) ∧
        (repo'.csf.classify e = some id2 ↔ median.toNat ≤ e.v.length)) ∧
      ((part.elts.take 999).filter fun e => e.v.length < median.toNat).length ≤
        (part.elts.take 999).length / 2 := by
  rcases divide_cases hdiv with ⟨_, he, -⟩ |
    ⟨lens, median, info, hlens, hmed, hinfo, hroom, hres, rfl⟩
  · cases he
  simp only [Except.ok.injEq, Prod.mk.injEq, List.cons.injEq, and_true] at hres
  obtain ⟨rfl, rfl⟩ := hres
  obtain ⟨hlive, hlo, hhi⟩ := sample_median_mem hr ht hsample hinfo hlens hmed
  have hsafe := safeSplit_of_lensTiling ht hinfo hroom hlive hlo hhi ht'
  obtain ⟨hmap, hall⟩ := lensOf_eq_some hlens
  obtain ⟨h1, h2, h21⟩ := newNums_ne hroom
  refine ⟨lens, median, hlens, hmed, fun e he => ?_, ?_⟩
  · -- each sampled element lies in the divided range, and then in the half its length picks
    have hle := hall e he
    have hsides := safeSplit_sides hsafe (liveRange_of_classify ht (reachable_inStep hr)
      (hsample e (List.mem_of_mem_take he)) hinfo hle)
    simp only [classify_eq_some_iff_routes ht' (setClassifier_inStep _), Nat.min_eq_left hle,
      setClassifier_parts, routes_splitParts hinfo hroom]
    simp [h1, h2, h21, h21.symm, hsides]
  · -- the sample's lengths, below the median
    have hcount := countP_lt_medianOf hmed
    rw [hmap, List.countP_map, List.length_map] at hcount
    rw [← List.countP_eq_length_filter]
    refine le_of_eq_of_le (List.countP_congr fun e he => ?_) hcount
    have hm : e.v.length.toUInt32.toNat = e.v.length :=
      UInt32.toNat_ofNat_of_lt (Nat.lt_succ_of_le (hall e he))
    simp only [Function.comp, decide_eq_true_eq, u32_lt_iff, hm]

theorem divide_splits_sample_at_median_five :
    Reachable plainIds okIo (SeqRepo.first plainIds ()) ∧
      LensTiling (SeqRepo.first plainIds ()).parts ∧ LensTiling fiveSplit.parts ∧
      ∃ lens median, lensOf (fiveSample.elts.take 999) = some lens ∧
        medianOf lens = some median ∧ (∀ e ∈ fiveSample.elts.take 999,
          (fiveSplit.csf.classify e = some ⟨2⟩ ↔ e.v.length < median.toNat) ∧
          (fiveSplit.csf.classify e = some ⟨2 + (plainIds.maxNum - 1) / 2⟩ ↔
            median.toNat ≤ e.v.length)) ∧
        ((fiveSample.elts.take 999).filter fun e => e.v.length < median.toNat).length ≤
          (fiveSample.elts.take 999).length / 2 :=
  have ht' : LensTiling fiveSplit.parts :=
    splitParts_lensTiling (reachable_idsPartition (reachable_first plainIds))
      (lensTiling_first plainIds) (lookup_first_one plainIds) (by decide) (by decide)
  ⟨reachable_first plainIds, lensTiling_first plainIds, ht',
    divide_splits_sample_at_median (reachable_first plainIds) (lensTiling_first plainIds)
      classify_fiveSample divide_fiveSample ht'⟩

end Runs

end Pippin
