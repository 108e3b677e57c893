import Pippin.ReplicaIds
import Pippin.Routing

/-! # Routing stays exact across replicas

    Replicas that subdivide partitions on their own and read each other's classifier
    blocks in any order keep, in every state, identifier intervals that partition
    `[1, max_num]` and live length ranges that tile `[0, u32::MAX]`, so `classify` sends
    every sequence to the one partition whose range holds its length:

        replicas_route_exactly

    The identifier intervals need nothing (`replica_ids_partition`); the length ranges
    need what `replicas_converge` needs, that records of one identifier and version
    agree, and what `safe_run_routes_exactly` needs of each `divide`, a safe median.
    Without the first they fail: two replicas that split one partition at different
    medians each keep their own halves, and a further split on one side, once read by
    the other, retires a half the other still routes through.

    The argument adds lengths to the tree of identifier intervals of `ReplicaIds`.  Two
    records in use whose intervals are apart have disjoint live ranges, and a record
    whose interval lies within another's has its live range within the other's
    (`Laminar`).  Every map a replica holds, and every block it writes, is a cut of the
    tree whose live ranges tile (`Cut`).  A safe split adds halves that tile the divided
    range, or, by coherence, repeats the halves another replica already left; and
    `read_buf` joins two such cuts into one (`cut_mergeMap`).

    The same tree orders routing over time: any two partitions `classify` picks for one
    sequence, anywhere in a run, lie one within the other, and a replica only moves a
    sequence down the tree (`replica_routing_refines`). -/

namespace Pippin

/-! ## Length ranges along the tree -/

/-- Every length in the live range of `x` is in the live range of `y`. -/
def LensWithin (x y : PartId × PartInfo) : Prop :=
  ∀ len, LiveRange x.2.minLen x.2.maxLen len → LiveRange y.2.minLen y.2.maxLen len

/-- `x` lies inside `y`, in identifiers and in lengths. -/
def Within (x y : PartId × PartInfo) : Prop := IdsWithin x y ∧ LensWithin x y

/-- The identifier intervals of `x` and `y` are disjoint, and so are their live ranges. -/
def Apart (x y : PartId × PartInfo) : Prop :=
  IdsApart x y ∧ ∀ len, LiveRange x.2.minLen x.2.maxLen len → ¬ LiveRange y.2.minLen y.2.maxLen len

/-- The records left by every `divide` so far form a tree of identifier intervals whose
    live ranges follow it: two records in use are apart in both, or one lies within the
    other in both. -/
structure Laminar (N : Nat) (G : List (PartId × PartInfo)) extends IdsTree N G : Prop where
  nested : ∀ x ∈ G, ∀ y ∈ G, x.2.ver = 0 → y.2.ver = 0 → Apart x y ∨ Within x y ∨ Within y x

/-- A cut of the tree `G` whose live ranges tile `[0, u32::MAX]`. -/
structure Cut (N : Nat) (G : List (PartId × PartInfo)) (parts : PartMap)
    extends IdsCut N G parts : Prop where
  lens : LensTiling parts

theorem Coherent.eq {G : List (PartId × PartInfo)} (hcoh : Coherent G) {k : PartId}
    {a b : PartInfo} (ha : (k, a) ∈ G) (hb : (k, b) ∈ G) (hv : a.ver = b.ver) : a = b :=
  (Prod.mk.inj (hcoh _ ha _ hb rfl hv)).2

/-- A record in a live range is in use. -/
theorem Shaped.ver_of_live {x : PartId × PartInfo} (hs : Shaped x) {len : Nat}
    (hlive : LiveRange x.2.minLen x.2.maxLen len) : x.2.ver = 0 := by
  rcases hs with ⟨h0, -⟩ | ⟨-, -, hlen⟩
  · exact h0
  · exact absurd hlive.1 (by rw [hlen]; exact UInt32.lt_irrefl _)

theorem Within.trans {x y z : PartId × PartInfo} (hxy : Within x y) (hyz : Within y z) :
    Within x z :=
  ⟨⟨le_trans hyz.1.1 hxy.1.1, le_trans hxy.1.2 hyz.1.2⟩, fun len h => hyz.2 len (hxy.2 len h)⟩

theorem Within.refl (x : PartId × PartInfo) : Within x x :=
  ⟨⟨le_refl _, le_refl _⟩, fun _ h => h⟩

theorem Apart.symm {x y : PartId × PartInfo} (h : Apart x y) : Apart y x :=
  ⟨h.1.symm, fun len hy hx => h.2 len hx hy⟩

theorem Apart.of_within {x y z : PartId × PartInfo} (h : Apart x y) (hz : Within z x) :
    Apart z y := by
  refine ⟨?_, fun len hzl => h.2 len (hz.2 len hzl)⟩
  have := hz.1
  have := h.1
  unfold IdsWithin IdsApart at *
  omega

/-- Two records in use whose intervals are apart are apart in lengths too: a nonempty
    interval is never within one it is apart from. -/
theorem Laminar.apart {N : Nat} {G : List (PartId × PartInfo)} (hL : Laminar N G)
    {x y : PartId × PartInfo} (hx : x ∈ G) (hy : y ∈ G) (hx0 : x.2.ver = 0) (hy0 : y.2.ver = 0)
    (h : IdsApart x y) : Apart x y := by
  have hx1 := (hL.shaped x hx).num_le hx0
  have hy1 := (hL.shaped y hy).num_le hy0
  rcases hL.nested x hx y hy hx0 hy0 with hap | ⟨hw, -⟩ | ⟨hw, -⟩
  · exact hap
  all_goals unfold IdsApart IdsWithin at *; omega

/-! ## Reading a cut into a cut -/

section Merge

variable {N : Nat} {G : List (PartId × PartInfo)} {A M : PartMap}
  (hL : Laminar N G) (hcoh : Coherent G) (hA : Cut N G A) (hM : Cut N G M)
include hL hcoh hA hM

/-- **MERGE, SECOND SIDE**: where the second cut has a record, the merge keeps it, unless
    it is in use and the first cut has it retired. -/
theorem lookup_mergeMap_right_eq {k : PartId} {m : PartInfo} (hm : M.lookup k = some m) :
    (mergeMap A M).lookup k = some m ∨
      (m.ver = 0 ∧ ∃ a, A.lookup k = some a ∧ a.ver = 1 ∧ (mergeMap A M).lookup k = some a) := by
  rcases lookup_mergeMap_right hL.toIdsTree hA.toIdsCut hM.toIdsCut hm with ⟨c, hc, hv, -⟩ | h
  · have hcG := (lookup_mergeMap_mem hc).elim (hA.held k c) (hM.held k c)
    exact .inl (by rw [hc, hcoh.eq hcG (hM.held k m hm) hv])
  · exact .inr h

theorem lensTiling_mergeMap : LensTiling (mergeMap A M) := by
  have hids := idsPartition_mergeMap hL.toIdsTree hA.toIdsCut hM.toIdsCut
  have hG : ∀ {k r}, (mergeMap A M).lookup k = some r → (k, r) ∈ G := fun h =>
    (lookup_mergeMap_mem h).elim (hA.held _ _) (hM.held _ _)
  refine ⟨fun k₁ k₂ len ⟨r₁, hc₁, hl₁⟩ ⟨r₂, hc₂, hl₂⟩ => ?_, fun len hlen => ?_⟩
  · -- two live records meeting at `len` lie one within the other, so their keys meet
    have h₁ := hids.le_max k₁ r₁ hc₁
    have h₂ := hids.le_max k₂ r₂ hc₂
    rcases hL.nested _ (hG hc₁) _ (hG hc₂) ((hL.shaped _ (hG hc₁)).ver_of_live hl₁)
      ((hL.shaped _ (hG hc₂)).ver_of_live hl₂) with hap | ⟨⟨h1, h2⟩, -⟩ | ⟨⟨h1, h2⟩, -⟩
    · exact absurd hl₂ (hap.2 len hl₁)
    · dsimp only at h1 h2
      exact (hids.disjoint k₂ k₁ k₁.num ⟨r₂, hc₂, h1, by omega⟩
        ⟨r₁, hc₁, le_refl _, h₁⟩).symm
    · dsimp only at h1 h2
      exact hids.disjoint k₁ k₂ k₂.num ⟨r₁, hc₁, h1, by omega⟩ ⟨r₂, hc₂, le_refl _, h₂⟩
  -- the live record for `len` in the first cut, unless the second has it retired
  obtain ⟨a, ra, ha, hla⟩ := hA.lens.cover len hlen
  rcases lookup_mergeMap_left hL.toIdsTree hA.toIdsCut hM.toIdsCut ha with hca |
    ⟨ha0, z, hz, hz1, -⟩
  · exact ⟨a, ra, hca, hla⟩
  obtain ⟨b, rb, hb, hlb⟩ := hM.lens.cover len hlen
  rcases lookup_mergeMap_right_eq hL hcoh hA hM hb with hcb | ⟨hb0, z', hz', hz1', -⟩
  · exact ⟨b, rb, hcb, hlb⟩
  -- two records in use, each retired on the other side, are apart in lengths too
  have hap := idsApart_of_retired_across hL.toIdsTree hA.toIdsCut hM.toIdsCut ha ha0 hz hz1
    hb hb0 hz' hz1'
  exact absurd hlb ((hL.apart (hA.held a ra ha) (hM.held b rb hb) ha0 hb0 hap).2 len hla)

/-- **JOIN**: `read_buf` of a cut's block into a replica holding a cut leaves a cut. -/
theorem cut_mergeMap : Cut N G (mergeMap A M) :=
  ⟨idsCut_mergeMap hL.toIdsTree hA.toIdsCut hM.toIdsCut, lensTiling_mergeMap hL hcoh hA hM⟩

end Merge

/-! ## Splitting a leaf -/

section Halves

variable {x : PartId × PartInfo} {median : UInt32}

/-- The lower half lies within the divided record. -/
theorem within_lowerHalf (hroom : x.1.num + 2 ≤ x.2.maxPartId.num) (hsafe : SafeSplit x.2 median) :
    Within (lowerHalf x median) x :=
  ⟨idsWithin_lowerHalf hroom, fun len h => (safeSplit_halves hsafe len).1.mp (.inr h)⟩

/-- The upper half lies within the divided record. -/
theorem within_upperHalf (hsafe : SafeSplit x.2 median) : Within (upperHalf x median) x :=
  ⟨idsWithin_upperHalf, fun len h => (safeSplit_halves hsafe len).1.mp (.inl h)⟩

/-- The two halves are apart. -/
theorem apart_halves (hsafe : SafeSplit x.2 median) :
    Apart (lowerHalf x median) (upperHalf x median) :=
  ⟨idsApart_halves, fun len hl hu => (safeSplit_halves hsafe len).2 ⟨hu, hl⟩⟩

end Halves

section Split

variable {N : Nat} {G H : List (PartId × PartInfo)}

/-- Records whose records in use are already there keep the tree. -/
theorem Laminar.append_of_inUse (hL : Laminar N G)
    (hH : ∀ y ∈ H, Shaped y ∧ 1 ≤ y.1.num ∧ y.2.maxPartId.num ≤ N)
    (hnode : ∀ y ∈ H, y.2.ver = 0 → y ∈ G) : Laminar N (G ++ H) := by
  have hG : ∀ y ∈ G ++ H, y.2.ver = 0 → y ∈ G := fun y hy h0 =>
    (List.mem_append.mp hy).elim id fun h => hnode y h h0
  exact ⟨hL.toIdsTree.append_of_twins hH fun y hy h0 => ⟨y, hnode y hy h0, rfl, h0, rfl⟩,
    fun u hu v hv hu0 hv0 => hL.nested u (hG u hu hu0) v (hG v hv hv0) hu0 hv0⟩

variable {x : PartId × PartInfo} {median : UInt32}

/-- A record of the tree against a half of a leaf: apart, or one within the other. -/
theorem Laminar.nested_half (hL : Laminar N G) (hcoh : Coherent G) (hx : x ∈ G)
    (hx0 : x.2.ver = 0)
    (hleaf : ∀ y ∈ G, y.2.ver = 0 → ¬ (x.1.num < y.1.num ∧ y.1.num ≤ x.2.maxPartId.num))
    {y h : PartId × PartInfo} (hy : y ∈ G) (hy0 : y.2.ver = 0) (hh : Within h x) :
    Apart y h ∨ Within y h ∨ Within h y := by
  rcases hL.nested y hy x hx hy0 hx0 with hap | hw | hw
  · exact .inl (hap.symm.of_within hh).symm
  · -- `y` is `x` itself, since nothing lies strictly inside the leaf
    have hyx : y = x := by
      refine hcoh y hy x hx (partId_eq_of_num ?_) (hy0.trans hx0.symm)
      have := hw.1
      have := (hL.shaped y hy).num_le hy0
      have := hleaf y hy hy0
      unfold IdsWithin at *
      omega
    subst hyx
    exact .inr (.inr hh)
  · exact .inr (.inr (hh.trans hw))

/-- **SPLIT A LEAF**: the two halves of a safe split of a record in use with nothing
    inside its interval, added with records of the tree or retired ones, keep the length
    ranges along the tree. -/
theorem Laminar.append_halves (hL : Laminar N G) (hcoh : Coherent G) (hx : x ∈ G)
    (hx0 : x.2.ver = 0) (hroom : x.1.num + 2 ≤ x.2.maxPartId.num) (hsafe : SafeSplit x.2 median)
    (hleaf : ∀ y ∈ G, y.2.ver = 0 → ¬ (x.1.num < y.1.num ∧ y.1.num ≤ x.2.maxPartId.num))
    (hH : ∀ y ∈ H, Shaped y ∧ 1 ≤ y.1.num ∧ y.2.maxPartId.num ≤ N)
    (hnode : ∀ y ∈ H, y.2.ver = 0 → y ∈ G ∨ y = lowerHalf x median ∨ y = upperHalf x median)
    (hlow : lowerHalf x median ∈ H) (hup : upperHalf x median ∈ H) : Laminar N (G ++ H) := by
  have hhalf : ∀ {h}, h = lowerHalf x median ∨ h = upperHalf x median → Within h x := by
    rintro h (rfl | rfl)
    · exact within_lowerHalf hroom hsafe
    · exact within_upperHalf hsafe
  refine ⟨hL.toIdsTree.append_halves hx hx0 hroom hleaf hH hnode hlow hup,
    fun u hu v hv hu0 hv0 => ?_⟩
  -- every record in use is one of the tree or a half
  rcases (List.mem_append.mp hu).elim .inl (fun h => hnode u h hu0) with hu' | hu' <;>
    rcases (List.mem_append.mp hv).elim .inl (fun h => hnode v h hv0) with hv' | hv'
  · exact hL.nested u hu' v hv' hu0 hv0
  · exact hL.nested_half hcoh hx hx0 hleaf hu' hu0 (hhalf hv')
  · rcases hL.nested_half hcoh hx hx0 hleaf hv' hv0 (hhalf hu') with h | h | h
    · exact .inl h.symm
    · exact .inr (.inr h)
    · exact .inr (.inl h)
  · rcases hu' with rfl | rfl <;> rcases hv' with rfl | rfl
    · exact .inr (.inl (Within.refl _))
    · exact .inl (apart_halves hsafe)
    · exact .inl (apart_halves hsafe).symm
    · exact .inr (.inl (Within.refl _))

end Split

/-! ## A split of a cut -/

section Divide

variable {N : Nat} {G : List (PartId × PartInfo)} {X : PartMap} {k₀ : PartId} {info : PartInfo}
  {median : UInt32}

/-- **SPLIT**: a safe split of a leaf of a cut keeps the length ranges along the tree,
    whether the leaf was a leaf of the whole tree or another replica had split it
    already, coherence then forcing the same halves. -/
theorem laminar_splitParts (hL : Laminar N G) (hX : Cut N G X) (hinfo : X.lookup k₀ = some info)
    (hroom : k₀.num + 2 ≤ info.maxPartId.num) (hsafe : SafeSplit info median)
    (hcoh : Coherent (G ++ recordsOf (splitParts X k₀ info median))) :
    Laminar N (G ++ recordsOf (splitParts X k₀ info median)) := by
  have hrec := fun y (hy : y ∈ recordsOf (splitParts X k₀ info median)) =>
    records_splitParts hL.toIdsTree hX.toIdsCut hinfo hroom y hy
  have hxG := hX.held k₀ info hinfo
  have hx0 : info.ver = 0 := (hL.shaped _ hxG).ver_of_room hroom
  obtain ⟨hlow, hup⟩ := mem_recordsOf_halves median hX.ids hinfo hroom
  by_cases hleaf : ∀ y ∈ G, y.2.ver = 0 → ¬ (k₀.num < y.1.num ∧ y.1.num ≤ info.maxPartId.num)
  · exact hL.append_halves (fun a ha b hb => hcoh a (List.mem_append_left _ ha) b
      (List.mem_append_left _ hb)) hxG hx0 hroom hsafe hleaf (fun y hy => (hrec y hy).1)
      (fun y hy => (hrec y hy).2) hlow hup
  -- another replica split the same leaf; coherence makes its halves these
  push_neg at hleaf
  obtain ⟨y, hy, hy0, h1, h2⟩ := hleaf
  obtain ⟨⟨r, hr, hr0, -⟩, ⟨r', hr', hr0', -⟩⟩ := hL.split _ hxG y hy hx0 hy0 h1 h2
  have hlm := hcoh _ (List.mem_append_right _ hlow) _ (List.mem_append_left _ hr) rfl hr0.symm
  have hum := hcoh _ (List.mem_append_right _ hup) _ (List.mem_append_left _ hr') rfl hr0'.symm
  refine hL.append_of_inUse (fun y hy => (hrec y hy).1) fun y hy h0 => ?_
  rcases (hrec y hy).2 h0 with h | rfl | rfl
  · exact h
  · rw [hlm]; exact hr
  · rw [hum]; exact hr'

theorem cut_splitParts (hX : Cut N G X) (hinfo : X.lookup k₀ = some info)
    (hroom : k₀.num + 2 ≤ info.maxPartId.num) (hsafe : SafeSplit info median) :
    Cut N (G ++ recordsOf (splitParts X k₀ info median)) (splitParts X k₀ info median) :=
  ⟨idsCut_splitParts hX.toIdsCut hinfo hroom, splitParts_lensTiling hX.ids hX.lens hinfo hroom hsafe⟩

end Divide

/-! ## One map that tiles -/

/-- The records of one map that tiles form a tree with its length ranges along it. -/
theorem laminar_recordsOf {N : Nat} {X : PartMap} (hp : IdsPartition N X) (ht : LensTiling X)
    (hs : ∀ k r, X.lookup k = some r → Shaped (k, r)) : Laminar N (recordsOf X) := by
  have hT := idsTree_recordsOf hp hs
  refine ⟨hT, fun u hu v hv hu0 hv0 => ?_⟩
  have hlu := lookup_of_mem_recordsOf hu
  have hlv := lookup_of_mem_recordsOf hv
  by_cases huv : u.1 = v.1
  · rw [eq_of_mem_recordsOf hu hv huv]
    exact .inr (.inl (Within.refl _))
  rcases hT.idsNested u hu v hv hu0 hv0 with hap | hw | hw
  · exact .inl ⟨hap, fun len hl hl' => huv (ht.unique _ _ len ⟨_, hlu, hl⟩ ⟨_, hlv, hl'⟩)⟩
  · exact absurd (eq_of_lookup_of_le hp hlv hlu hw.1 (le_trans (hp.le_max _ _ hlu) hw.2)).symm huv
  · exact absurd (eq_of_lookup_of_le hp hlu hlv hw.1 (le_trans (hp.le_max _ _ hlv) hw.2)) huv

/-! ## Over every run of the replicas -/

variable {ι : Type} [DecidableEq ι]

/-- Every `divide` of a run splits at a safe median, in the state the run has reached
    when it is called. -/
def SafeEvents (S : PartIdSpace) : World ι → List (Event ι) → Prop
  | _, [] => True
  | w, e :: es => (∀ i part, e = .divide i part → SafeDivide (w.repos i) part) ∧
      ∀ w', w.exec S e = some w' → SafeEvents S w' es

/-- A run with no `divide` has only safe splits. -/
theorem safeEvents_of_no_divide {S : PartIdSpace} {es : List (Event ι)}
    (h : ∀ e ∈ es, ∀ i part, e ≠ .divide i part) (w : World ι) : SafeEvents S w es := by
  induction es generalizing w with
  | nil => trivial
  | cons e es ih =>
      exact ⟨fun i part he => absurd he (h e (List.mem_cons_self e es) i part),
        fun w' _ => ih (fun e' he' => h e' (List.mem_cons_of_mem e he')) w'⟩

/-- What every world of a run of safe splits keeps: the records left so far form a tree
    with their length ranges along it, each replica's map and each block written is a
    cut of it that tiles, and the replicas' classifiers are in step. -/
structure Tiled (S : PartIdSpace) (w : World ι) : Prop where
  laminar : Laminar S.maxNum w.written
  repos : ∀ i, Cut S.maxNum w.written (w.repos i).parts
  inStep : ∀ i, (w.repos i).InStep
  sent : ∀ m ∈ w.sent, Cut S.maxNum w.written m.snapshot

section Tiled

variable {S : PartIdSpace} {w : World ι}

omit [DecidableEq ι] in
theorem tiled_wrote {i : ι} {bytes : List UInt8} (hw : Tiled S w) : Tiled S (w.wrote i bytes) :=
  ⟨hw.laminar, hw.repos, hw.inStep, fun m hm => (List.mem_append.mp hm).elim (hw.sent m)
    fun h => by rw [List.mem_singleton.mp h]; exact hw.repos i⟩

/-- Reading a block joins two cuts. -/
theorem tiled_readBy {i : ι} {n : Nat} {m : Message ι} (hw : Tiled S w) (hs : Sane S w)
    (hcoh : Coherent w.written) (hm : w.sent[n]? = some m) :
    Tiled S (w.readBy i n ((w.repos i).readBuf S m.bytes).2) := by
  obtain ⟨hin, hb, hlen⟩ := hs.sent m (List.getElem?_mem hm)
  rw [hb, readBuf_classifierBytes_eq S _ hin hlen]
  have hcut := cut_mergeMap hw.laminar hcoh (hw.repos i) (hw.sent m (List.getElem?_mem hm))
  refine ⟨hw.laminar, fun j => ?_, fun j => ?_, hw.sent⟩ <;> by_cases hj : j = i
  · subst hj; simpa using hcut
  · simpa [hj] using hw.repos j
  · subst hj; simpa using setClassifier_inStep _
  · simpa [hj] using hw.inStep j

/-- A safe `divide` leaves a cut of the records with its own added, and keeps their
    length ranges along the tree; a failed one adds no record in use. -/
theorem tiled_divided {i : ι} {part : PartState}
    {res : Except DivideError (List PartId × List PartId)} {r : SeqRepo Unit} (hw : Tiled S w)
    (hsafe : SafeDivide (w.repos i) part) (hd : (w.repos i).divide part = some (res, r))
    (hcoh : Coherent (w.written ++ recordsOf r.parts)) : Tiled S (w.divided i r) := by
  have hsub : w.written ⊆ w.written ++ recordsOf r.parts := List.subset_append_left _ _
  have hmono : ∀ {p}, Cut S.maxNum w.written p → Cut S.maxNum (w.written ++ recordsOf r.parts) p :=
    fun h => ⟨h.toIdsCut.mono hsub, h.lens⟩
  have key : Laminar S.maxNum (w.written ++ recordsOf r.parts) ∧
      Cut S.maxNum (w.written ++ recordsOf r.parts) r.parts ∧ r.InStep := by
    rcases divide_cases hd with ⟨_, -, rfl⟩ |
      ⟨lens, median, info, hlens, hmed, hinfo, hroom, -, rfl⟩
    · have hG := fun y (hy : y ∈ recordsOf (w.repos i).parts) =>
        (hw.repos i).held _ _ (lookup_of_mem_recordsOf hy)
      exact ⟨hw.laminar.append_of_inUse (fun y hy => ⟨hw.laminar.shaped _ (hG y hy),
        hw.laminar.range _ (hG y hy)⟩) fun y hy _ => hG y hy, hmono (hw.repos i), hw.inStep i⟩
    · have hs := hsafe lens median info hlens hmed hinfo
      exact ⟨laminar_splitParts hw.laminar (hw.repos i) hinfo hroom hs hcoh,
        cut_splitParts (hw.repos i) hinfo hroom hs, setClassifier_inStep _⟩
  obtain ⟨hL, hcut, hstep⟩ := key
  refine ⟨hL, fun j => ?_, fun j => ?_, fun m hm => hmono (hw.sent m hm)⟩ <;>
    by_cases hj : j = i
  · subst hj; simpa using hcut
  · simpa [hj] using hmono (hw.repos j)
  · subst hj; simpa using hstep
  · simpa [hj] using hw.inStep j

/-- **STEP**: one event keeps the tree and the cuts, where its `divide`, if any, is safe
    and the records stay coherent. -/
theorem tiled_exec {w' : World ι} {e : Event ι} (hw : Tiled S w) (hs : Sane S w)
    (hsafe : ∀ i part, e = .divide i part → SafeDivide (w.repos i) part)
    (h : w.exec S e = some w') (hcoh : Coherent w'.written) : Tiled S w' := by
  cases e with
  | divide i part =>
      obtain ⟨⟨_, r⟩, hd, rfl⟩ := Option.map_eq_some'.mp h
      exact tiled_divided hw (hsafe i part rfl) hd hcoh
  | send i =>
      simp only [World.exec] at h
      split at h
      · cases h; exact tiled_wrote hw
      · cases h; exact hw
      · cases h
  | recv i n =>
      simp only [World.exec] at h
      split at h
      · cases h
      · cases h; exact tiled_readBy hw hs hcoh ‹_›

/-- **RUN**: a run of safe splits keeps the tree and the cuts, where the records it leaves
    are coherent. -/
theorem tiled_run {w' : World ι} {es : List (Event ι)} (hw : Tiled S w) (hs : Sane S w)
    (hsafe : SafeEvents S w es) (h : w.run S es = some w') (hcoh : Coherent w'.written) :
    Tiled S w' := by
  induction es generalizing w with
  | nil => cases h; exact hw
  | cons e es ih =>
      obtain ⟨w₁, h₁, h₂⟩ := Option.bind_eq_some.mp h
      have hsub := written_run h₂
      exact ih (tiled_exec hw hs hsafe.1 h₁ fun x hx y hy => hcoh x (hsub hx) y (hsub hy))
        (sane_exec hs h₁) (hsafe.2 w₁ h₁) h₂

omit [DecidableEq ι] in
theorem tiled_start {P : Type} {rio : RepoIo Unit P} {r₀ : SeqRepo Unit}
    (h₀ : SafeReachable S rio r₀) : Tiled S (World.start r₀ : World ι) := by
  have hp := reachable_idsPartition h₀.reachable
  have ht := safeReachable_lensTiling h₀
  exact ⟨laminar_recordsOf hp ht (shaped_of_reachable h₀.reachable),
    fun _ => ⟨⟨hp, fun _ _ => mem_recordsOf⟩, ht⟩, fun _ => reachable_inStep h₀.reachable,
    fun m hm => by simp [World.start] at hm⟩

end Tiled

/-- **ROUTING ACROSS REPLICAS**: replicas of a repository, started from a state a run of
    safe splits reaches, that subdivide partitions on their own and read each other's
    blocks in any order, keep in every replica identifier intervals that partition
    `[1, max_num]` and live length ranges that tile `[0, u32::MAX]`, and `classify`
    sends every sequence to the entry whose live range holds its length; provided each
    `divide` splits at a safe median and records of one identifier and version agree. -/
theorem replicas_route_exactly (S : PartIdSpace) {P : Type} {rio : RepoIo Unit P}
    {r₀ : SeqRepo Unit} (h₀ : SafeReachable S rio r₀) {es : List (Event ι)} {w : World ι}
    (hrun : (World.start r₀ : World ι).run S es = some w)
    (hsafe : SafeEvents S (World.start r₀) es) (hcoh : Coherent w.written) (i : ι) :
    IdsPartition S.maxNum (w.repos i).parts ∧ LensTiling (w.repos i).parts ∧
      ∀ elt k, (w.repos i).csf.classify elt = some k ↔
        Routes (w.repos i).parts k (min elt.v.length u32Max) := by
  have hw := tiled_run (tiled_start h₀) (sane_start h₀.reachable) hsafe hrun hcoh
  exact ⟨(hw.repos i).ids, (hw.repos i).lens,
    classify_eq_some_iff_routes (hw.repos i).lens (hw.inStep i)⟩

theorem replicas_route_exactly_exchange :
    SafeReachable plainIds okIo (SeqRepo.first plainIds ()) ∧
    ∃ w, (World.start (SeqRepo.first plainIds ()) : World Bool).run plainIds exchangeRun = some w ∧
      SafeEvents plainIds (World.start (SeqRepo.first plainIds ())) exchangeRun ∧
      Coherent w.written ∧ ∀ i,
        IdsPartition plainIds.maxNum (w.repos i).parts ∧ LensTiling (w.repos i).parts ∧
        ∀ elt k, (w.repos i).csf.classify elt = some k ↔
          Routes (w.repos i).parts k (min elt.v.length u32Max) := by
  obtain ⟨res5, r5, h5, hp5⟩ := divide_first_sampleOf (n := 5) (by decide)
  have hlen5 : r5.parts.entries.length ≤ u32Max := by rw [hp5]; decide
  have hlen1 : (SeqRepo.first plainIds ()).parts.entries.length ≤ u32Max := by decide
  have hsafe : SafeEvents plainIds (World.start (SeqRepo.first plainIds ()) : World Bool)
      exchangeRun := by
    refine ⟨fun i part he => ?_, fun _ _ => safeEvents_of_no_divide (by simp) _⟩
    cases he
    exact safeDivide_fiveSample
  rcases hrun : (World.start (SeqRepo.first plainIds ()) : World Bool).run plainIds exchangeRun
    with _ | w
  all_goals
    have hcomp := hrun
    rw [exchangeRun, run_cons (exec_divide h5), run_cons (exec_send hlen5),
      run_cons (exec_send hlen1),
      run_cons (exec_recv (m := ⟨true, 1, r5.parts, classifierBytes plainIds r5.parts⟩) rfl),
      run_cons (exec_recv (m := ⟨false, 0, (SeqRepo.first plainIds ()).parts,
        classifierBytes plainIds (SeqRepo.first plainIds ()).parts⟩) rfl), World.run] at hcomp
    cases hcomp
  have hcoh : Coherent (recordsOf (SeqRepo.first plainIds ()).parts ++ recordsOf r5.parts) := by
    rw [hp5]; decide
  exact ⟨safeReachable_first plainIds, _, rfl, hsafe, hcoh,
    replicas_route_exactly plainIds (safeReachable_first plainIds) hrun hsafe hcoh⟩

/-! ## Routing only refines -/

/-- A run of safe splits is safe in each of its parts. -/
theorem safeEvents_append {S : PartIdSpace} {w w₁ : World ι} {es₁ es₂ : List (Event ι)}
    (h : SafeEvents S w (es₁ ++ es₂)) (h₁ : w.run S es₁ = some w₁) :
    SafeEvents S w es₁ ∧ SafeEvents S w₁ es₂ := by
  induction es₁ generalizing w with
  | nil => cases h₁; exact ⟨trivial, h⟩
  | cons e es ih =>
      obtain ⟨w', he, hr⟩ := Option.bind_eq_some.mp h₁
      obtain ⟨hs, hnext⟩ := ih (h.2 w' he) hr
      exact ⟨⟨h.1, fun w'' he' => by rw [he, Option.some_inj] at he'; subst he'; exact hs⟩, hnext⟩

/-- **ROUTING FOLLOWS THE SPLIT TREE**: in a run of safe splits whose records agree, any
    two partitions that `classify` picks for one sequence, in any replicas and at any two
    points of the run, lie one within the other, in identifiers and in live lengths; and
    one replica only ever moves a sequence down the tree, to the partition it picked
    before or to one split off from it. -/
theorem replica_routing_refines (S : PartIdSpace) {P : Type} {rio : RepoIo Unit P}
    {r₀ : SeqRepo Unit} (h₀ : SafeReachable S rio r₀) {es₁ es₂ : List (Event ι)}
    {w₁ w₂ : World ι} (h₁ : (World.start r₀ : World ι).run S es₁ = some w₁)
    (h₂ : w₁.run S es₂ = some w₂) (hsafe : SafeEvents S (World.start r₀) (es₁ ++ es₂))
    (hcoh : Coherent w₂.written) (i j : ι) (elt : Sequence) {k₁ k₂ : PartId}
    (hc₁ : (w₁.repos i).csf.classify elt = some k₁)
    (hc₂ : (w₂.repos j).csf.classify elt = some k₂) :
    ∃ r₁ r₂, (w₁.repos i).parts.lookup k₁ = some r₁ ∧ (w₂.repos j).parts.lookup k₂ = some r₂ ∧
      (Within (k₂, r₂) (k₁, r₁) ∨ Within (k₁, r₁) (k₂, r₂)) ∧
      (i = j → Within (k₂, r₂) (k₁, r₁)) := by
  obtain ⟨hs₁, hs₂⟩ := safeEvents_append hsafe h₁
  have hsub := written_run h₂
  have hsane : Sane S (World.start r₀ : World ι) := sane_start h₀.reachable
  have hT₁ := tiled_run (tiled_start h₀) hsane hs₁ h₁ fun x hx y hy => hcoh x (hsub hx) y (hsub hy)
  have hT₂ := tiled_run hT₁ (sane_run hsane h₁) hs₂ h₂ hcoh
  obtain ⟨r₁, hl₁, hlive₁⟩ :=
    (classify_eq_some_iff_routes (hT₁.repos i).lens (hT₁.inStep i) elt k₁).mp hc₁
  obtain ⟨r₂, hl₂, hlive₂⟩ :=
    (classify_eq_some_iff_routes (hT₂.repos j).lens (hT₂.inStep j) elt k₂).mp hc₂
  have hx₁ : (k₁, r₁) ∈ w₂.written := hsub ((hT₁.repos i).held k₁ r₁ hl₁)
  have hx₂ : (k₂, r₂) ∈ w₂.written := (hT₂.repos j).held k₂ r₂ hl₂
  have h0₁ := (hT₂.laminar.shaped _ hx₁).ver_of_live hlive₁
  have h0₂ := (hT₂.laminar.shaped _ hx₂).ver_of_live hlive₂
  refine ⟨r₁, r₂, hl₁, hl₂, ?_⟩
  rcases hT₂.laminar.nested _ hx₂ _ hx₁ h0₂ h0₁ with hap | hw | hw
  · exact absurd hlive₁ (hap.2 _ hlive₂)
  · exact ⟨.inl hw, fun _ => hw⟩
  refine ⟨.inr hw, ?_⟩
  intro hij
  subst hij
  -- the replica still holds `k₁`, which lies in the interval of `k₂`, so the two are one
  have hle := mapLe_run (good_of_run h₀.reachable h₁) h₂ hT₂.laminar.ver_lt_u32Max i k₁
  rw [hl₁] at hle
  obtain ⟨r', hr', -⟩ := hle.exists_of_some
  have hk := eq_of_lookup_of_le (hT₂.repos i).ids hl₂ hr' hw.1.1
    (le_trans ((hT₂.laminar.shaped _ hx₁).num_le h0₁) hw.1.2)
  rw [hcoh _ hx₂ _ hx₁ hk (h0₂.trans h0₁.symm)]
  exact Within.refl _

/-- One replica splits partition 1 at 5: a sequence of length 7, routed to partition 1
    before, goes to the upper half after, which lies within partition 1. -/
theorem replica_routing_refines_split :
    SafeReachable plainIds okIo (SeqRepo.first plainIds ()) ∧
    ∃ w, (World.start (SeqRepo.first plainIds ()) : World Bool).run plainIds
        [.divide true fiveSample] = some w ∧
      SafeEvents plainIds (World.start (SeqRepo.first plainIds ())) ([] ++ [.divide true fiveSample]) ∧
      Coherent w.written ∧
      (SeqRepo.first plainIds ()).csf.classify ⟨List.replicate 7 0⟩ = some ⟨1⟩ ∧
      (w.repos true).csf.classify ⟨List.replicate 7 0⟩ = some ⟨2 + (plainIds.maxNum - 1) / 2⟩ ∧
      ∃ r₁ r₂, (SeqRepo.first plainIds ()).parts.lookup ⟨1⟩ = some r₁ ∧
        (w.repos true).parts.lookup ⟨2 + (plainIds.maxNum - 1) / 2⟩ = some r₂ ∧
        (Within (⟨2 + (plainIds.maxNum - 1) / 2⟩, r₂) (⟨1⟩, r₁) ∨
          Within (⟨1⟩, r₁) (⟨2 + (plainIds.maxNum - 1) / 2⟩, r₂)) ∧
        (true = true → Within (⟨2 + (plainIds.maxNum - 1) / 2⟩, r₂) (⟨1⟩, r₁)) := by
  have hrun : (World.start (SeqRepo.first plainIds ()) : World Bool).run plainIds
      [.divide true fiveSample] =
        some ((World.start (SeqRepo.first plainIds ()) : World Bool).divided true fiveSplit) := by
    rw [run_cons (exec_divide divide_fiveSample), World.run]
  have hsafe : SafeEvents plainIds (World.start (SeqRepo.first plainIds ()) : World Bool)
      ([] ++ [.divide true fiveSample]) :=
    ⟨fun i part he => by cases he; exact safeDivide_fiveSample, fun _ _ => trivial⟩
  have hcoh : Coherent ((World.start (SeqRepo.first plainIds ()) : World Bool).divided true
      fiveSplit).written := by decide
  have ht' : LensTiling fiveSplit.parts :=
    splitParts_lensTiling (reachable_idsPartition (reachable_first plainIds))
      (lensTiling_first plainIds) (lookup_first_one plainIds) (by decide) (by decide)
  have hc₁ : (SeqRepo.first plainIds ()).csf.classify ⟨List.replicate 7 0⟩ = some ⟨1⟩ :=
    (classify_eq_some_iff_routes (lensTiling_first plainIds) (setClassifier_inStep _) _ _).mpr
      ⟨_, lookup_first_one plainIds, by decide⟩
  have hc₂ : fiveSplit.csf.classify ⟨List.replicate 7 0⟩ = some ⟨2 + (plainIds.maxNum - 1) / 2⟩ :=
    (classify_eq_some_iff_routes ht' (setClassifier_inStep _) _ _).mpr ⟨_, rfl, by decide⟩
  exact ⟨safeReachable_first plainIds, _, hrun, hsafe, hcoh, hc₁, hc₂,
    replica_routing_refines plainIds (safeReachable_first plainIds)
      (show (World.start (SeqRepo.first plainIds ()) : World Bool).run plainIds [] =
        some (World.start _) from rfl) hrun hsafe hcoh true true _ hc₁ hc₂⟩

end Pippin
