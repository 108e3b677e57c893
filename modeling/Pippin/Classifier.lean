import Pippin.Basic

/-! # Classification by binary search

    `SeqClassifier::classify` looks a sequence's length up among the classes' lower
    bounds with `binary_search_by`: an exact match selects that class, otherwise the
    class just before the insertion point, and an insertion point of `0` gives `None`.

    `binarySearchFrom` is the standard library's `binary_search_by` as it stood when
    the example was written (halve the slice, compare the head of the upper half).  Its
    contract on a sorted slice is `binarySearchFrom_ok` / `binarySearchFrom_error`: an
    `Ok` index holds the target, an `Err` index splits the slice into the part below the
    target and the part above it.  From these, `classify_eq_none_iff`,
    `classify_eq_some` and `classify_eq_lastAtMost` say what `classify` returns on any
    sorted class list. -/

namespace Pippin

variable {α : Type}

/-- `<[T]>::binary_search_by`, on the sub-slice `s` at offset `base` of the whole:
    split `s` at half its length, compare the head of the upper half, and go on in the
    half that can hold the target. -/
def binarySearchFrom (f : α → Ordering) (base : Nat) (s : List α) : Except Nat Nat :=
  match h : s.drop (s.length / 2) with
  | [] => .error base
  | t :: tail =>
    match f t with
    | .lt => binarySearchFrom f (base + s.length / 2 + 1) tail
    | .gt => binarySearchFrom f base (s.take (s.length / 2))
    | .eq => .ok (base + s.length / 2)
termination_by s.length
decreasing_by
  all_goals simp_wf
  all_goals have := congrArg List.length h
  all_goals simp at this
  all_goals omega

/-- `slice.binary_search_by(f)`. -/
def binarySearchBy (f : α → Ordering) (s : List α) : Except Nat Nat :=
  binarySearchFrom f 0 s

/-- `SeqClassifier::classify`: the class of a sequence, by its length. -/
def SeqClassifier.classify (c : SeqClassifier) (elt : Sequence) : Option PartId :=
  let len := elt.v.length
  match binarySearchBy (fun x => compare x.1 len) c.classes with
  | .ok i => (c.classes[i]?).map Prod.snd
  | .error i => if i = 0 then none else (c.classes[i - 1]?).map Prod.snd

/-- The linear scan the binary search stands for: the last class whose lower bound is
    at most `len`. -/
def lastAtMost (classes : List (Nat × PartId)) (len : Nat) : Option PartId :=
  classes.foldl (fun acc e => if e.1 ≤ len then some e.2 else acc) none

/-! ## The search on a sorted slice -/

section Search

variable {f : α → Ordering} {base : Nat} {s : List α}

theorem binarySearchFrom_of_drop_nil (h : s.drop (s.length / 2) = []) :
    binarySearchFrom f base s = .error base := by
  rw [binarySearchFrom]; split <;> simp_all

theorem binarySearchFrom_of_drop_cons {t : α} {tail : List α}
    (h : s.drop (s.length / 2) = t :: tail) :
    binarySearchFrom f base s = match f t with
      | .lt => binarySearchFrom f (base + s.length / 2 + 1) tail
      | .gt => binarySearchFrom f base (s.take (s.length / 2))
      | .eq => .ok (base + s.length / 2) := by
  rw [binarySearchFrom]; split <;> simp_all

/-- The slice around the probed element: `s = take ++ t :: tail`, and the prefix is
    shorter than `s` by at least one. -/
theorem eq_take_append_of_drop_cons {t : α} {tail : List α} {m : Nat}
    (h : s.drop m = t :: tail) : s = s.take m ++ t :: tail ∧ (s.take m).length = m := by
  have hlen := congrArg List.length h
  simp only [List.length_drop, List.length_cons] at hlen
  exact ⟨by rw [← h, List.take_append_drop], by simp; omega⟩

end Search

section Keyed

variable (key : α → Nat) (target : Nat)

/-- **OK CONTRACT**: on a slice sorted by `key`, an `Ok` index points at an element
    whose key is the target. -/
theorem binarySearchFrom_ok :
    ∀ base s i, s.Pairwise (fun a b => key a ≤ key b) →
      binarySearchFrom (fun x => compare (key x) target) base s = .ok i →
      ∃ pre x post, s = pre ++ x :: post ∧ i = base + pre.length ∧ key x = target := by
  intro base s
  induction base, s using binarySearchFrom.induct (fun x => compare (key x) target) with
  | case1 base s hd =>
      intro i _ h; rw [binarySearchFrom_of_drop_nil hd] at h; cases h
  | case2 base s t tail hd ht ih =>
      intro i hs h
      rw [binarySearchFrom_of_drop_cons hd, ht] at h
      obtain ⟨hsplit, hlen⟩ := eq_take_append_of_drop_cons hd
      have htail : tail.Pairwise (fun a b => key a ≤ key b) := by
        rw [hsplit] at hs; exact (List.pairwise_cons.mp (List.pairwise_append.mp hs).2.1).2
      obtain ⟨pre, x, post, rfl, rfl, hx⟩ := ih i htail h
      refine ⟨s.take (s.length / 2) ++ t :: pre, x, post, ?_, ?_, hx⟩
      · rw [List.append_assoc, List.cons_append]; exact hsplit
      · simp [hlen]; omega
  | case3 base s t tail hd ht ih =>
      intro i hs h
      rw [binarySearchFrom_of_drop_cons hd, ht] at h
      obtain ⟨hsplit, -⟩ := eq_take_append_of_drop_cons hd
      have hhead : (s.take (s.length / 2)).Pairwise (fun a b => key a ≤ key b) := by
        rw [hsplit] at hs; exact (List.pairwise_append.mp hs).1
      obtain ⟨pre, x, post, hpre, rfl, hx⟩ := ih i hhead h
      refine ⟨pre, x, post ++ t :: tail, ?_, rfl, hx⟩
      rw [hsplit, hpre]; simp
  | case4 base s t tail hd ht =>
      intro i _ h
      rw [binarySearchFrom_of_drop_cons hd, ht] at h
      obtain ⟨hsplit, hlen⟩ := eq_take_append_of_drop_cons hd
      cases h
      exact ⟨s.take (s.length / 2), t, tail, hsplit, by rw [hlen],
        Nat.compare_eq_eq.mp ht⟩

/-- **ERR CONTRACT**: on a slice sorted by `key`, an `Err` index splits the slice into
    the elements whose key is below the target and those whose key is above it. -/
theorem binarySearchFrom_error :
    ∀ base s i, s.Pairwise (fun a b => key a ≤ key b) →
      binarySearchFrom (fun x => compare (key x) target) base s = .error i →
      ∃ pre post, s = pre ++ post ∧ i = base + pre.length ∧
        (∀ x ∈ pre, key x < target) ∧ ∀ x ∈ post, target < key x := by
  intro base s
  induction base, s using binarySearchFrom.induct (fun x => compare (key x) target) with
  | case1 base s hd =>
      intro i _ h
      rw [binarySearchFrom_of_drop_nil hd] at h; cases h
      have : s = [] := by
        have := congrArg List.length hd
        simp only [List.length_drop, List.length_nil] at this
        exact List.eq_nil_of_length_eq_zero (by omega)
      exact ⟨[], [], by simp [this], rfl, by simp, by simp⟩
  | case2 base s t tail hd ht ih =>
      intro i hs h
      rw [binarySearchFrom_of_drop_cons hd, ht] at h
      obtain ⟨hsplit, hlen⟩ := eq_take_append_of_drop_cons hd
      rw [hsplit] at hs
      have hs' := List.pairwise_append.mp hs
      obtain ⟨pre, post, rfl, rfl, hpre, hpost⟩ :=
        ih i (List.pairwise_cons.mp hs'.2.1).2 h
      have hlt : key t < target := Nat.compare_eq_lt.mp ht
      refine ⟨s.take (s.length / 2) ++ t :: pre, post, ?_, ?_, ?_, hpost⟩
      · rw [List.append_assoc, List.cons_append]; exact hsplit
      · simp [hlen]; omega
      · intro x hx
        simp only [List.mem_append, List.mem_cons] at hx
        rcases hx with hx | rfl | hx
        · exact Nat.lt_of_le_of_lt (hs'.2.2 x hx t (List.mem_cons_self _ _)) hlt
        · exact hlt
        · exact hpre x hx
  | case3 base s t tail hd ht ih =>
      intro i hs h
      rw [binarySearchFrom_of_drop_cons hd, ht] at h
      obtain ⟨hsplit, -⟩ := eq_take_append_of_drop_cons hd
      rw [hsplit] at hs
      have hs' := List.pairwise_append.mp hs
      obtain ⟨pre, post, hpre, rfl, hlow, hhigh⟩ := ih i hs'.1 h
      have hgt : target < key t := Nat.compare_eq_gt.mp ht
      refine ⟨pre, post ++ t :: tail, ?_, rfl, hlow, ?_⟩
      · rw [hsplit, hpre]; simp
      · intro x hx
        simp only [List.mem_append, List.mem_cons] at hx
        rcases hx with hx | rfl | hx
        · exact hhigh x hx
        · exact hgt
        · exact Nat.lt_of_lt_of_le hgt ((List.pairwise_cons.mp hs'.2.1).1 x hx)
  | case4 base s t tail hd ht =>
      intro i _ h
      rw [binarySearchFrom_of_drop_cons hd, ht] at h; cases h

end Keyed

/-! ## What `classify` returns -/

section Classify

variable {c : SeqClassifier} {elt : Sequence}

/-- Sortedness of a class list, as `set_classifier` builds it. -/
abbrev BoundsSorted (classes : List (Nat × PartId)) : Prop :=
  classes.Pairwise (fun a b => a.1 ≤ b.1)

/-- The last element of a sorted list bounds every element of it. -/
theorem le_getLast_of_sorted {l : List (Nat × PartId)} (hl : BoundsSorted l)
    (hne : l ≠ []) : ∀ e ∈ l, e.1 ≤ (l.getLast hne).1 := by
  have hsplit := List.dropLast_append_getLast hne
  intro e he
  rw [← hsplit] at hl he
  rcases List.mem_append.mp he with he | he
  · exact (List.pairwise_append.mp hl).2.2 e he _ (List.mem_singleton_self _)
  · rw [List.mem_singleton.mp he]

theorem getElem?_length_cons {pre post : List (Nat × PartId)} {x : Nat × PartId} :
    (pre ++ x :: post)[pre.length]? = some x := by
  induction pre with
  | nil => simp
  | cons a l ih => simpa using ih

theorem getElem?_length_sub_one {pre post : List (Nat × PartId)} (hne : pre ≠ []) :
    (pre ++ post)[pre.length - 1]? = some (pre.getLast hne) := by
  have hlt : pre.length - 1 < pre.length :=
    Nat.sub_lt (List.length_pos.mpr hne) Nat.one_pos
  rw [List.getElem?_append_left hlt, List.getLast_eq_getElem, List.getElem?_eq_getElem hlt]

/-- On an `Ok` answer, the chosen class's bound is the length. -/
theorem classify_of_ok (hs : BoundsSorted c.classes) {i : Nat}
    (h : binarySearchBy (fun x => compare x.1 elt.v.length) c.classes = .ok i) :
    ∃ pre x post, c.classes = pre ++ x :: post ∧ x.1 = elt.v.length ∧
      c.classify elt = some x.2 := by
  obtain ⟨pre, x, post, hsplit, rfl, hx⟩ :=
    binarySearchFrom_ok Prod.fst elt.v.length 0 c.classes i hs h
  refine ⟨pre, x, post, hsplit, hx, ?_⟩
  simp only [SeqClassifier.classify, h]
  rw [hsplit, Nat.zero_add, getElem?_length_cons]
  rfl

/-- On an `Err` answer, the classes split into those below the length and those above
    it, and `classify` answers from the last of the lower part. -/
theorem classify_of_error (hs : BoundsSorted c.classes) {i : Nat}
    (h : binarySearchBy (fun x => compare x.1 elt.v.length) c.classes = .error i) :
    ∃ pre post, c.classes = pre ++ post ∧ (∀ x ∈ pre, x.1 < elt.v.length) ∧
      (∀ x ∈ post, elt.v.length < x.1) ∧
      c.classify elt = (pre.getLast?).map Prod.snd := by
  obtain ⟨pre, post, hsplit, rfl, hpre, hpost⟩ :=
    binarySearchFrom_error Prod.fst elt.v.length 0 c.classes i hs h
  refine ⟨pre, post, hsplit, hpre, hpost, ?_⟩
  simp only [SeqClassifier.classify, h, Nat.zero_add]
  by_cases hne : pre = []
  · subst hne; rfl
  · rw [if_neg (by simpa using hne), hsplit, getElem?_length_sub_one hne,
      List.getLast?_eq_getLast pre hne]

/-- **NONE EXACTLY BELOW ALL BOUNDS**: on a sorted class list, `classify` fails exactly
    when every lower bound exceeds the length. -/
theorem classify_eq_none_iff (hs : BoundsSorted c.classes) :
    c.classify elt = none ↔ ∀ e ∈ c.classes, elt.v.length < e.1 := by
  cases h : binarySearchBy (fun x => compare x.1 elt.v.length) c.classes with
  | ok i =>
      obtain ⟨pre, x, post, hsplit, hx, hc⟩ := classify_of_ok hs h
      rw [hc]
      refine ⟨fun h => (nomatch h), fun hall => ?_⟩
      have := hall x (by rw [hsplit]; simp)
      omega
  | error i =>
      obtain ⟨pre, post, hsplit, hpre, hpost, hc⟩ := classify_of_error hs h
      rw [hc, hsplit]
      by_cases hne : pre = []
      · subst hne; simpa using hpost
      · have hb := hpre _ (List.getLast_mem hne)
        rw [List.getLast?_eq_getLast pre hne]
        refine ⟨fun h => (nomatch h), fun hall => ?_⟩
        have := hall _ (List.mem_append_left _ (List.getLast_mem hne))
        omega

/-- **LARGEST BOUND AT MOST THE LENGTH**: on a sorted class list, an answer `some id`
    comes from a class whose bound is the largest bound not above the length. -/
theorem classify_eq_some (hs : BoundsSorted c.classes) {id : PartId}
    (h : c.classify elt = some id) :
    ∃ b, (b, id) ∈ c.classes ∧ b ≤ elt.v.length ∧
      ∀ e ∈ c.classes, e.1 ≤ elt.v.length → e.1 ≤ b := by
  cases hb : binarySearchBy (fun x => compare x.1 elt.v.length) c.classes with
  | ok i =>
      obtain ⟨pre, x, post, hsplit, hx, hc⟩ := classify_of_ok hs hb
      rw [hc, Option.some_inj] at h
      subst h
      exact ⟨x.1, by rw [hsplit]; simp, by omega, fun e _ he => by omega⟩
  | error i =>
      obtain ⟨pre, post, hsplit, hpre, hpost, hc⟩ := classify_of_error hs hb
      by_cases hne : pre = []
      · subst hne; simp [hc] at h
      · rw [hc, List.getLast?_eq_getLast pre hne, Option.map_some', Option.some_inj] at h
        subst h
        have hsorted : BoundsSorted pre := by
          rw [hsplit] at hs; exact (List.pairwise_append.mp hs).1
        have hlast := List.getLast_mem hne
        refine ⟨_, by rw [hsplit]; exact List.mem_append_left _ hlast,
          Nat.le_of_lt (hpre _ hlast), ?_⟩
        intro e he hle
        rw [hsplit] at he
        rcases List.mem_append.mp he with he | he
        · exact le_getLast_of_sorted hsorted hne e he
        · have := hpost e he; omega

/-- Over classes all at most the length followed by classes all above it, the linear
    scan ends at the last of the first part. -/
theorem lastAtMost_append {pre post : List (Nat × PartId)} {len : Nat}
    (hpre : ∀ e ∈ pre, e.1 ≤ len) (hpost : ∀ e ∈ post, len < e.1) :
    lastAtMost (pre ++ post) len = pre.getLast?.map Prod.snd := by
  have hskip : ∀ acc, post.foldl (fun acc e => if e.1 ≤ len then some e.2 else acc) acc
      = acc := by
    induction post with
    | nil => intro acc; rfl
    | cons e l ih =>
        intro acc
        rw [List.foldl_cons, if_neg (Nat.not_le.mpr (hpost e (List.mem_cons_self _ _)))]
        exact ih (fun e he => hpost e (List.mem_cons_of_mem _ he)) acc
  rw [lastAtMost, List.foldl_append, hskip]
  induction pre using List.reverseRecOn with
  | nil => rfl
  | append_singleton l b _ =>
      rw [List.foldl_append, List.foldl_cons, List.foldl_nil,
        if_pos (hpre b (by simp)), List.getLast?_concat]
      rfl

/-- **REFINEMENT OF THE LINEAR SCAN**: with distinct (strictly increasing) bounds,
    `classify` answers what the linear scan for the last bound at most the length
    answers. -/
theorem classify_eq_lastAtMost (hs : c.classes.Pairwise (fun a b => a.1 < b.1)) :
    c.classify elt = lastAtMost c.classes elt.v.length := by
  have hle : BoundsSorted c.classes := hs.imp Nat.le_of_lt
  cases h : binarySearchBy (fun x => compare x.1 elt.v.length) c.classes with
  | ok i =>
      obtain ⟨pre, x, post, hsplit, hx, hc⟩ := classify_of_ok hle h
      rw [hsplit] at hs ⊢
      have hs' := List.pairwise_append.mp hs
      rw [hc, ← List.singleton_append, ← List.append_assoc, lastAtMost_append]
      · simp
      · intro e he
        rcases List.mem_append.mp he with he | he
        · have := hs'.2.2 e he x (List.mem_cons_self _ _); omega
        · rw [List.mem_singleton.mp he, hx]
      · intro e he
        have := (List.pairwise_cons.mp hs'.2.1).1 e he; omega
  | error i =>
      obtain ⟨pre, post, hsplit, hpre, hpost, hc⟩ := classify_of_error hle h
      rw [hc, hsplit, lastAtMost_append (fun e he => Nat.le_of_lt (hpre e he)) hpost]

/-- What `classify` answers on a class list sorted by lower bound (duplicate bounds
    allowed): `None` exactly when every bound exceeds the length; otherwise a class whose
    bound is the largest bound at most the length; and, when the bounds are distinct, the
    answer of the linear scan. -/
def ClassifySpec (c : SeqClassifier) (elt : Sequence) : Prop :=
  (c.classify elt = none ↔ ∀ e ∈ c.classes, elt.v.length < e.1) ∧
  (∀ id, c.classify elt = some id → ∃ b, (b, id) ∈ c.classes ∧ b ≤ elt.v.length ∧
    ∀ e ∈ c.classes, e.1 ≤ elt.v.length → e.1 ≤ b) ∧
  (c.classes.Pairwise (fun a b => a.1 < b.1) →
    c.classify elt = lastAtMost c.classes elt.v.length)

theorem classify_meets_spec (c : SeqClassifier) (elt : Sequence)
    (hs : c.classes.Pairwise (fun a b => a.1 ≤ b.1)) : ClassifySpec c elt :=
  ⟨classify_eq_none_iff hs, fun _ h => classify_eq_some hs h, classify_eq_lastAtMost⟩

theorem classify_meets_spec_two_classes :
    ([(0, ⟨2⟩), (5, ⟨3⟩)] : List (Nat × PartId)).Pairwise (fun a b => a.1 ≤ b.1) ∧
      ClassifySpec ⟨[(0, ⟨2⟩), (5, ⟨3⟩)]⟩ ⟨[0, 0, 0]⟩ :=
  ⟨by decide, classify_meets_spec _ _ (by decide)⟩

end Classify

end Pippin
