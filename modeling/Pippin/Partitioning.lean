import Pippin.Repo

/-! # Runs of one `SeqRepo`: identifier space and length ranges

    A run starts from `SeqRepo::new`, calls `init_first`, and then `divide` any number
    of times, successfully or not (`Reachable`).  Over every run:

    * **`IdsPartition`** — the identifier intervals `[id, max_part_id]` of all entries,
      retired ones included, are non-empty, pairwise disjoint, and cover exactly
      `[1, max_num]` (`reachable_idsPartition`).  Consequently `divide` only mints
      identifiers that were never in the map, and records them (`reachable_ids_sound`).
    * the length ranges do *not* stay a partition of `[0, u32::MAX]`: a range of one
      length `[a, a]` looks retired to `set_classifier`, and the median can land on the
      lower bound (`one_length_split_loses_zero`).

    `splitParts_idsPartition` is the step lemma; it rests on `covers_splitParts`, which
    says which entry covers which identifier after a split. -/

namespace Pippin

variable {σ P : Type}

/-! ## Identifier intervals -/

/-- The entry of `k` exists and its identifier interval `[k, max_part_id]` holds `n`. -/
def Covers (parts : PartMap) (k : PartId) (n : Nat) : Prop :=
  ∃ r, parts.lookup k = some r ∧ k.num ≤ n ∧ n ≤ r.maxPartId.num

/-- The identifier intervals of all entries partition `[1, N]`. -/
structure IdsPartition (N : Nat) (parts : PartMap) : Prop where
  le_max : ∀ k r, parts.lookup k = some r → k.num ≤ r.maxPartId.num
  disjoint : ∀ k₁ k₂ n, Covers parts k₁ n → Covers parts k₂ n → k₁ = k₂
  cover : ∀ n, (∃ k, Covers parts k n) ↔ 1 ≤ n ∧ n ≤ N

section Split

variable {N : Nat} {parts : PartMap} {oldId : PartId} {info : PartInfo} {median : UInt32}

/-- Inside the interval of an entry, no other identifier has an entry. -/
theorem lookup_eq_none_of_covers (hp : IdsPartition N parts)
    (hinfo : parts.lookup oldId = some info) {n : Nat} (hlo : oldId.num < n)
    (hhi : n ≤ info.maxPartId.num) : parts.lookup ⟨n⟩ = none := by
  cases hk : parts.lookup ⟨n⟩ with
  | none => rfl
  | some r =>
      have := hp.disjoint ⟨n⟩ oldId n ⟨r, hk, le_refl _, hp.le_max _ _ hk⟩
        ⟨info, hinfo, Nat.le_of_lt hlo, hhi⟩
      rw [← this] at hlo; exact absurd hlo (Nat.lt_irrefl _)

/-- The three intervals a split of `[o, M]` leaves: `[o, o]` for the retired entry,
    `[num1, num2 - 1]` and `[num2, M]` for the new ones. -/
def SplitCovers (o M : Nat) (k : PartId) (n : Nat) : Prop :=
  (k = ⟨o⟩ ∧ n = o) ∨ (k = ⟨(newNums o M).2⟩ ∧ (newNums o M).2 ≤ n ∧ n ≤ M) ∨
    (k = ⟨(newNums o M).1⟩ ∧ (newNums o M).1 ≤ n ∧ n ≤ (newNums o M).2 - 1)

/-- The intervals of a split lie inside the divided one and are pairwise disjoint. -/
theorem splitCovers_range {o M : Nat} (hroom : o + 2 ≤ M) {k : PartId} {n : Nat}
    (h : SplitCovers o M k n) : o ≤ n ∧ n ≤ M := by
  rcases h with ⟨-, rfl⟩ | ⟨-, h⟩ | ⟨-, h⟩
  · omega
  all_goals simp only [newNums] at h; omega

theorem splitCovers_unique {o M : Nat} (hroom : o + 2 ≤ M) {k₁ k₂ : PartId} {n : Nat}
    (h₁ : SplitCovers o M k₁ n) (h₂ : SplitCovers o M k₂ n) : k₁ = k₂ := by
  rcases h₁ with ⟨rfl, h₁⟩ | ⟨rfl, h₁⟩ | ⟨rfl, h₁⟩ <;>
  rcases h₂ with ⟨rfl, h₂⟩ | ⟨rfl, h₂⟩ | ⟨rfl, h₂⟩ <;>
  first | rfl | (exfalso; simp only [newNums] at h₁ h₂; omega)

/-- **WHO COVERS WHAT AFTER A SPLIT**: the divided entry keeps only its own identifier,
    the two new entries share the rest of its interval, and every other entry is as
    before. -/
theorem covers_splitParts (hinfo : parts.lookup oldId = some info)
    (hroom : oldId.num + 2 ≤ info.maxPartId.num) (k : PartId) (n : Nat) :
    Covers (splitParts parts oldId info median) k n ↔
      SplitCovers oldId.num info.maxPartId.num k n ∨
      (k ≠ oldId ∧ k ≠ ⟨(newNums oldId.num info.maxPartId.num).2⟩ ∧
        k ≠ ⟨(newNums oldId.num info.maxPartId.num).1⟩ ∧ Covers parts k n) := by
  obtain ⟨h1, h2, h21⟩ := newNums_ne hroom
  simp only [Covers, SplitCovers, lookup_splitParts hinfo hroom]
  by_cases hk : k = oldId
  · subst hk; simp [h1.symm, h2.symm]; omega
  have hk' : k ≠ ⟨oldId.num⟩ := hk
  by_cases hk2 : k = ⟨(newNums oldId.num info.maxPartId.num).2⟩
  · subst hk2; simp [hk, hk', h21]
  by_cases hk1 : k = ⟨(newNums oldId.num info.maxPartId.num).1⟩
  · subst hk1; simp [hk, hk', hk2]
  simp [hk, hk', hk2, hk1]

theorem splitParts_le_max (hp : IdsPartition N parts) (hinfo : parts.lookup oldId = some info)
    (hroom : oldId.num + 2 ≤ info.maxPartId.num) (k : PartId) (r : PartInfo)
    (hr : (splitParts parts oldId info median).lookup k = some r) : k.num ≤ r.maxPartId.num := by
  have hself : Covers (splitParts parts oldId info median) k k.num := by
    rw [covers_splitParts hinfo hroom]
    by_cases hk : k = oldId
    · exact .inl (.inl ⟨hk, by rw [hk]⟩)
    by_cases hk2 : k = ⟨(newNums oldId.num info.maxPartId.num).2⟩
    · subst hk2; exact .inl (.inr (.inl ⟨rfl, le_refl _, by simp [newNums]; omega⟩))
    by_cases hk1 : k = ⟨(newNums oldId.num info.maxPartId.num).1⟩
    · subst hk1; exact .inl (.inr (.inr ⟨rfl, le_refl _, by simp [newNums]; omega⟩))
    have hr' : parts.lookup k = some r := by
      rwa [lookup_splitParts hinfo hroom, if_neg hk, if_neg hk2, if_neg hk1] at hr
    exact .inr ⟨hk, hk2, hk1, r, hr', le_refl _, hp.le_max _ _ hr'⟩
  obtain ⟨r', hr', -, hle⟩ := hself
  rw [hr] at hr'; cases hr'; exact hle

theorem splitParts_disjoint (hp : IdsPartition N parts) (hinfo : parts.lookup oldId = some info)
    (hroom : oldId.num + 2 ≤ info.maxPartId.num) (k₁ k₂ : PartId) (n : Nat)
    (hc₁ : Covers (splitParts parts oldId info median) k₁ n)
    (hc₂ : Covers (splitParts parts oldId info median) k₂ n) : k₁ = k₂ := by
  -- an entry other than the divided one covers nothing of its interval
  have hout : ∀ k, Covers parts k n → k ≠ oldId → n < oldId.num ∨ info.maxPartId.num < n :=
    fun k hk hne => by
      by_contra hc
      exact hne (hp.disjoint k oldId n hk ⟨info, hinfo, by omega, by omega⟩)
  rw [covers_splitParts hinfo hroom] at hc₁ hc₂
  rcases hc₁ with h₁ | ⟨hne₁, -, -, h₁⟩ <;> rcases hc₂ with h₂ | ⟨hne₂, -, -, h₂⟩
  · exact splitCovers_unique hroom h₁ h₂
  · have := splitCovers_range hroom h₁
    rcases hout _ h₂ hne₂ with h | h <;> omega
  · have := splitCovers_range hroom h₂
    rcases hout _ h₁ hne₁ with h | h <;> omega
  · exact hp.disjoint _ _ n h₁ h₂

theorem splitParts_cover (hp : IdsPartition N parts) (hinfo : parts.lookup oldId = some info)
    (hroom : oldId.num + 2 ≤ info.maxPartId.num) (n : Nat) :
    (∃ k, Covers (splitParts parts oldId info median) k n) ↔ 1 ≤ n ∧ n ≤ N := by
  rw [← hp.cover n]
  simp only [covers_splitParts hinfo hroom]
  constructor
  · rintro ⟨k, h | ⟨-, -, -, h⟩⟩
    · have := splitCovers_range hroom h
      exact ⟨oldId, info, hinfo, this.1, this.2⟩
    · exact ⟨k, h⟩
  · rintro ⟨k, hk⟩
    by_cases hko : k = oldId
    · subst hko
      obtain ⟨r, hr, hlo, hhi⟩ := hk
      rw [hinfo] at hr; cases hr
      by_cases hn : n = k.num
      · exact ⟨k, .inl (.inl ⟨rfl, hn⟩)⟩
      by_cases hn2 : (newNums k.num info.maxPartId.num).2 ≤ n
      · exact ⟨_, .inl (.inr (.inl ⟨rfl, hn2, hhi⟩))⟩
      · exact ⟨_, .inl (.inr (.inr ⟨rfl, by simp only [newNums] at *; omega, by omega⟩))⟩
    · have hfresh : ∀ m, oldId.num < m → m ≤ info.maxPartId.num → k ≠ ⟨m⟩ :=
        fun m hlo hhi hkm => by
          obtain ⟨r, hr, -⟩ := hk
          rw [hkm, lookup_eq_none_of_covers hp hinfo hlo hhi] at hr; cases hr
      refine ⟨k, .inr ⟨hko, hfresh _ ?_ ?_, hfresh _ ?_ ?_, hk⟩⟩ <;>
        simp only [newNums] <;> omega

/-- **STEP**: a split keeps the identifier intervals a partition of `[1, N]`. -/
theorem splitParts_idsPartition (hp : IdsPartition N parts)
    (hinfo : parts.lookup oldId = some info) (hroom : oldId.num + 2 ≤ info.maxPartId.num) :
    IdsPartition N (splitParts parts oldId info median) :=
  ⟨splitParts_le_max hp hinfo hroom, splitParts_disjoint hp hinfo hroom,
    splitParts_cover hp hinfo hroom⟩

end Split

/-! ## Runs -/

/-- The state `init_first` leaves on a fresh repository whose I/O calls do not touch
    the collaborator's state. -/
def SeqRepo.first (S : PartIdSpace) (r : σ) : SeqRepo σ :=
  SeqRepo.setClassifier { SeqRepo.new r with parts := (∅ : PartMap).insert ⟨1⟩ (firstInfo S) }

/-- The states of one repository over a run: `init_first` on a fresh repository, then
    any number of `divide` calls, each of which may fail (a panic ends the run). -/
inductive Reachable (S : PartIdSpace) (rio : RepoIo σ P) : SeqRepo σ → Prop
  | init {r : σ} {res : Except Error P} {repo : SeqRepo σ} :
      (SeqRepo.new r).initFirst S rio = some (res, repo) → Reachable S rio repo
  | divide {repo repo' : SeqRepo σ} {part : PartState}
      {res : Except DivideError (List PartId × List PartId)} :
      Reachable S rio repo → repo.divide part = some (res, repo') → Reachable S rio repo'

/-- After `init_first`, partition 1 covers every identifier. -/
theorem idsPartition_first (S : PartIdSpace) :
    IdsPartition S.maxNum ((∅ : PartMap).insert ⟨1⟩ (firstInfo S)) := by
  have hk := fun k => lookup_insert_empty ⟨1⟩ k (firstInfo S)
  have hcov : ∀ k n, Covers ((∅ : PartMap).insert ⟨1⟩ (firstInfo S)) k n ↔
      k = ⟨1⟩ ∧ 1 ≤ n ∧ n ≤ S.maxNum := by
    intro k n
    simp only [Covers, hk]
    split_ifs with h <;> simp [h, firstInfo]
  refine ⟨fun k r hr => ?_, fun k₁ k₂ n h₁ h₂ => ?_, fun n => ?_⟩
  · rw [hk] at hr
    split_ifs at hr with h
    cases hr; subst h; exact S.one_le_maxNum
  · rw [hcov] at h₁ h₂; rw [h₁.1, h₂.1]
  · simp only [hcov]
    exact ⟨fun ⟨_, _, h⟩ => h, fun h => ⟨_, rfl, h⟩⟩

/-- **RUN INVARIANT (identifiers)**: in every state of a run, the identifier intervals
    of all entries partition `[1, max_num]`. -/
theorem reachable_idsPartition {S : PartIdSpace} {rio : RepoIo σ P} {repo : SeqRepo σ}
    (h : Reachable S rio repo) : IdsPartition S.maxNum repo.parts := by
  induction h with
  | init hinit =>
      obtain ⟨h, -⟩ := initFirst_eq S rio (SeqRepo.new _)
      obtain ⟨_, _, he⟩ := h rfl
      rw [hinit] at he; cases he
      exact idsPartition_first S
  | divide _ hdiv ih =>
      rcases divide_cases hdiv with ⟨_, -, rfl⟩ | ⟨_, _, _, -, -, hinfo, hroom, -, rfl⟩
      · exact ih
      · exact splitParts_idsPartition ih hinfo hroom

/-- A successful `divide` from a map whose identifier intervals are a partition mints
    two identifiers inside the divided entry's interval, above its own, that had no
    entry, and records them: the divided interval shrinks to its own identifier, `id1`
    takes `[id1, id2 - 1]` and `id2` the rest. -/
theorem divide_ok_fresh {N : Nat} {repo repo' : SeqRepo σ} {part : PartState}
    {ids : List PartId × List PartId} (hp : IdsPartition N repo.parts)
    (h : repo.divide part = some (.ok ids, repo')) :
    ∃ id1 id2 info, ids = ([id1, id2], []) ∧ repo.parts.lookup part.partId = some info ∧
      part.partId.num < id1.num ∧ id1.num < id2.num ∧ id2.num ≤ info.maxPartId.num ∧
      repo.parts.lookup id1 = none ∧ repo.parts.lookup id2 = none ∧
      (repo'.parts.lookup part.partId).map PartInfo.maxPartId = some part.partId ∧
      (repo'.parts.lookup id1).map PartInfo.maxPartId = some ⟨id2.num - 1⟩ ∧
      (repo'.parts.lookup id2).map PartInfo.maxPartId = some info.maxPartId := by
  rcases divide_cases h with ⟨_, he, -⟩ | ⟨_, _, info, -, -, hinfo, hroom, hres, rfl⟩
  · cases he
  · cases hres
    obtain ⟨h1, h2, h21⟩ := newNums_ne hroom
    have hfresh : part.partId.num < (newNums part.partId.num info.maxPartId.num).1 ∧
        (newNums part.partId.num info.maxPartId.num).1 <
          (newNums part.partId.num info.maxPartId.num).2 ∧
        (newNums part.partId.num info.maxPartId.num).2 ≤ info.maxPartId.num := by
      simp only [newNums]; omega
    refine ⟨_, _, info, rfl, hinfo, hfresh.1, hfresh.2.1, hfresh.2.2,
      lookup_eq_none_of_covers hp hinfo (by omega) (by omega),
      lookup_eq_none_of_covers hp hinfo (by omega) (by omega), ?_, ?_, ?_⟩ <;>
    simp only [setClassifier_parts, lookup_splitParts hinfo hroom, h1, h2, Ne.symm h21,
      if_true, if_false, Option.map_some']

/-- `divide` removes no entry. -/
theorem divide_keeps_keys {repo repo' : SeqRepo σ} {part : PartState}
    {res : Except DivideError (List PartId × List PartId)}
    (h : repo.divide part = some (res, repo')) (k : PartId)
    (hk : repo.parts.lookup k ≠ none) : repo'.parts.lookup k ≠ none := by
  rcases divide_cases h with ⟨_, -, rfl⟩ | ⟨_, _, _, -, -, hinfo, hroom, -, rfl⟩
  · exact hk
  · simp only [setClassifier_parts, lookup_splitParts hinfo hroom]
    split_ifs <;> simp [hk]

/-- What `divide` keeps true of the identifiers: their intervals partition `[1, N]`,
    no call removes an entry, and a successful call mints two identifiers that had no
    entry, inside the divided entry's interval and above its own, and records both in
    the new map with the divided interval cut between them.  Since what one call records
    stays, and the next only mints identifiers that had no entry, no identifier is ever
    minted twice. -/
def IdsSound (N : Nat) (repo : SeqRepo σ) : Prop :=
  IdsPartition N repo.parts ∧
  ∀ part res repo', repo.divide part = some (res, repo') →
    (∀ k, repo.parts.lookup k ≠ none → repo'.parts.lookup k ≠ none) ∧
    ∀ ids, res = .ok ids → ∃ id1 id2 info, ids = ([id1, id2], []) ∧
      repo.parts.lookup part.partId = some info ∧
      part.partId.num < id1.num ∧ id1.num < id2.num ∧ id2.num ≤ info.maxPartId.num ∧
      repo.parts.lookup id1 = none ∧ repo.parts.lookup id2 = none ∧
      (repo'.parts.lookup part.partId).map PartInfo.maxPartId = some part.partId ∧
      (repo'.parts.lookup id1).map PartInfo.maxPartId = some ⟨id2.num - 1⟩ ∧
      (repo'.parts.lookup id2).map PartInfo.maxPartId = some info.maxPartId

/-- **IDENTIFIERS OVER EVERY RUN**: in every state of a run the identifier intervals
    partition `[1, max_num]`, and `divide` only mints fresh identifiers. -/
theorem reachable_ids_sound {S : PartIdSpace} {rio : RepoIo σ P} {repo : SeqRepo σ}
    (h : Reachable S rio repo) : IdsSound S.maxNum repo :=
  ⟨reachable_idsPartition h, fun _ _ _ hdiv => ⟨divide_keeps_keys hdiv,
    fun _ hres => by subst hres; exact divide_ok_fresh (reachable_idsPartition h) hdiv⟩⟩

/-- The states `init_first` and `divide` reach have their classifier in step. -/
theorem reachable_inStep {S : PartIdSpace} {rio : RepoIo σ P} {repo : SeqRepo σ}
    (h : Reachable S rio repo) : repo.InStep := by
  induction h with
  | init hinit =>
      obtain ⟨_, _, he⟩ := (initFirst_eq S rio (SeqRepo.new _)).1 rfl
      rw [hinit] at he
      cases he
      rfl
  | divide _ hdiv ih =>
      rcases divide_cases hdiv with ⟨_, -, rfl⟩ | ⟨_, _, _, -, -, -, -, -, rfl⟩
      · exact ih
      · exact setClassifier_inStep _

/-! ## Concrete runs -/

/-- A concrete identifier space: numbers up to `2 ^ 40 - 1`, whose `u64` form is the
    number itself. -/
def plainIds : PartIdSpace where
  maxNum := 1099511627775
  toU64 p := p.num.toUInt64
  tryFrom u := if 1 ≤ u.toNat ∧ u.toNat ≤ 1099511627775 then some ⟨u.toNat⟩ else none
  one_le_maxNum := by decide
  tryFrom_toU64 p h1 h2 := by
    have hp : (p.num.toUInt64).toNat = p.num :=
      UInt64.toNat_ofNat_of_lt (by unfold UInt64.size; omega)
    simp only [hp, h1, h2, and_self, if_true]

/-- An I/O collaborator whose calls all succeed. -/
def okIo : RepoIo Unit Unit := ⟨fun _ _ _ => (.ok (), ()), fun _ _ => (.ok (), ())⟩

theorem reachable_first (S : PartIdSpace) : Reachable S okIo (SeqRepo.first S ()) :=
  @Reachable.init Unit Unit S okIo () (.ok ()) _ rfl

theorem reachable_ids_sound_first :
    Reachable plainIds okIo (SeqRepo.first plainIds ()) ∧
      IdsSound plainIds.maxNum (SeqRepo.first plainIds ()) :=
  ⟨reachable_first plainIds, reachable_ids_sound (reachable_first plainIds)⟩

/-- **THE EMPTY SEQUENCE LOSES ITS CLASS**: after `init_first` and one `divide` of
    partition 1 at a sample of one element of length 1, a reachable state, the
    classifier has no class for length 0.  The lower half `[0, 0]` holds one length,
    and `set_classifier`'s test `max_len > min_len` takes it for retired. -/
theorem one_length_split_loses_zero (S : PartIdSpace) (h3 : 3 ≤ S.maxNum) :
    ∃ repo, (SeqRepo.first S ()).divide ⟨⟨1⟩, [⟨[0]⟩]⟩ =
        some (.ok ([⟨2⟩, ⟨2 + (S.maxNum - 1) / 2⟩], []), repo) ∧
      Reachable S okIo repo ∧ repo.csf.classify ⟨[]⟩ = none := by
  have hinfo : (SeqRepo.first S ()).parts.lookup ⟨1⟩ = some (firstInfo S) :=
    AList.lookup_insert _
  have hroom : (⟨1⟩ : PartId).num + 2 ≤ (firstInfo S).maxPartId.num := h3
  have hdiv := divide_one_elt hinfo hroom (by decide : (⟨[0]⟩ : Sequence).v.length ≤ u32Max)
  refine ⟨_, hdiv, .divide (reachable_first S) hdiv, ?_⟩
  rw [setClassifier_csf, classify_eq_none_iff (c := ⟨classesOf _⟩) (sorted_classesOf _)]
  rintro ⟨b, id⟩ he
  obtain ⟨r, hr, hlive, rfl⟩ := mem_liveClasses.mp (mem_classesOf.mp he)
  simp only [setClassifier_parts, lookup_splitParts hinfo hroom] at hr
  split_ifs at hr with h1 h2 h3
  · cases hr; exact absurd hlive (UInt32.lt_irrefl _)
  · cases hr; exact Nat.one_pos
  · cases hr; revert hlive; dsimp only; simp only [firstInfo]; decide
  · rw [show (SeqRepo.first S ()).parts = (∅ : PartMap).insert ⟨1⟩ (firstInfo S) from rfl,
      lookup_insert_empty, if_neg h1] at hr
    cases hr

theorem one_length_split_loses_zero_plain : 3 ≤ plainIds.maxNum ∧
    ∃ repo, (SeqRepo.first plainIds ()).divide ⟨⟨1⟩, [⟨[0]⟩]⟩ =
        some (.ok ([⟨2⟩, ⟨2 + (plainIds.maxNum - 1) / 2⟩], []), repo) ∧
      Reachable plainIds okIo repo ∧ repo.csf.classify ⟨[]⟩ = none :=
  ⟨by decide, one_length_split_loses_zero plainIds (by decide)⟩

/-- A repository whose map holds one entry, for partition 1. -/
def oneEntry (info : PartInfo) : SeqRepo Unit :=
  { csf := ⟨[]⟩, io := (), parts := (∅ : PartMap).insert ⟨1⟩ info }

/-- **AN EMPTY LOWER HALF**: dividing the lengths `[5, 10]` at a sample whose median is
    the lower bound 5 succeeds and gives the new partition 2 the empty range `[5, 4]`. -/
theorem divide_at_lower_bound_empty_half :
    ∃ repo, (oneEntry ⟨⟨3⟩, 0, 5, 10⟩).divide ⟨⟨1⟩, [⟨[0, 0, 0, 0, 0]⟩]⟩ =
        some (.ok ([⟨2⟩, ⟨3⟩], []), repo) ∧
      repo.parts.lookup ⟨2⟩ = some ⟨⟨2⟩, 0, 5, 4⟩ := by
  have hinfo : (oneEntry ⟨⟨3⟩, 0, 5, 10⟩).parts.lookup ⟨1⟩ = some ⟨⟨3⟩, 0, 5, 10⟩ :=
    AList.lookup_insert _
  refine ⟨_, divide_one_elt hinfo (by decide) (by decide), ?_⟩
  rw [setClassifier_parts, lookup_splitParts hinfo (by decide)]
  simp [oneEntry, lookup_insert_empty, newNums]
  decide

/-- **WRAPPED ARITHMETIC**: dividing `[0, 10]` of an entry at version `u32::MAX` at a
    sample whose median is 0 computes `median - 1` and `ver + 1` in wrapping `u32`: the
    lower half gets `max_len = u32::MAX` (exactly, -1) and the retired entry version 0. -/
theorem divide_wraps_u32 :
    ∃ repo, (oneEntry ⟨⟨3⟩, 4294967295, 0, 10⟩).divide ⟨⟨1⟩, [⟨[]⟩]⟩ =
        some (.ok ([⟨2⟩, ⟨3⟩], []), repo) ∧
      repo.parts.lookup ⟨2⟩ = some ⟨⟨2⟩, 0, 0, 4294967295⟩ ∧
      repo.parts.lookup ⟨1⟩ = some ⟨⟨1⟩, 0, 0, 0⟩ := by
  have hinfo : (oneEntry ⟨⟨3⟩, 4294967295, 0, 10⟩).parts.lookup ⟨1⟩ =
      some ⟨⟨3⟩, 4294967295, 0, 10⟩ :=
    AList.lookup_insert _
  refine ⟨_, divide_one_elt hinfo (by decide) (by decide), ?_, ?_⟩ <;>
    rw [setClassifier_parts, lookup_splitParts hinfo (by decide)]
  · simp [oneEntry, lookup_insert_empty, newNums]; decide
  · simp [oneEntry, lookup_insert_empty, newNums]

end Pippin
