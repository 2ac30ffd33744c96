import ShardedModel.Ranking

/-!
# The best of several lists

Ranking is a total order: of two candidates one ranks first, and two that are level
are the same. So a list of candidates has one sorted form, whatever order it came
in, and the best `k` of a pool depend on nothing but what is in the pool.

`best_flatMap_best` is the statement that the merge of shards rests on. Cutting
each list down to its own best `k` first and ranking what is left gives the best `k`
of all. Behind it is a fact about merging two lists that are in order: the first `k`
of the result never come from beyond the first `k` of either.
-/

namespace ShardedModel

/-! ## Scores -/

namespace Binary32

/-- Two bit patterns with the same place in the order are the same. -/
theorem rank_injective {x y : Binary32} (h : x.rank = y.rank) : x = y := by
  obtain ⟨a⟩ := x
  obtain ⟨b⟩ := y
  have ha := a.toNat_lt
  have hb := b.toNat_lt
  have hbits : a.toNat = b.toNat := by
    simp only [rank] at h
    split at h <;> split at h <;> omega
  rw [UInt32.toNat_inj.mp hbits]

instance : Std.TransOrd Binary32 where
  eq_swap := Std.OrientedOrd.eq_swap (α := Nat)
  isLE_trans := Std.TransOrd.isLE_trans (α := Nat)

instance : Std.LawfulEqOrd Binary32 where
  compare_self := Std.ReflOrd.compare_self (α := Nat)
  eq_of_compare h := rank_injective (Std.LawfulEqOrd.eq_of_compare (α := Nat) h)

end Binary32

/-! ## Candidates -/

namespace Candidate

variable {α : Type}

/-- The candidate with its index moved up. -/
def shift (lo : Nat) (c : Candidate α) : Candidate α := ⟨c.score, c.index + lo⟩

variable [Ord α]

/-- Moving all indices by the same amount changes no rank. -/
theorem ranksFirst_shift (lo : Nat) (a b : Candidate α) :
    ranksFirst (shift lo a) (shift lo b) = ranksFirst a b := by
  have hindex : compare (a.index + lo) (b.index + lo) = compare a.index b.index := by
    rw [Nat.compare_eq_ite_lt, Nat.compare_eq_ite_lt]
    simp only [Nat.add_lt_add_iff_right]
  unfold ranksFirst order shift
  rw [hindex]

theorem best_map_shift (lo : Nat) (xs : List (Candidate α)) (k : Nat) :
    best (xs.map (shift lo)) k = (best xs k).map (shift lo) := by
  unfold best
  rw [← List.map_mergeSort (r := ranksFirst) (s := ranksFirst)
    fun a _ b _ => (ranksFirst_shift lo a b).symm, List.map_take]

/-- The first `k` of two merged lists come from the first `k` of the one and from
the other. -/
theorem take_merge_take (k : Nat) (xs ys : List (Candidate α)) :
    ((xs.take k).merge ys ranksFirst).take k = (xs.merge ys ranksFirst).take k := by
  induction k generalizing xs ys with
  | zero => rfl
  | succ k ih =>
      cases xs with
      | nil => rfl
      | cons x xs =>
          cases ys with
          | nil => rw [List.merge_right, List.merge_right, List.take_take, Nat.min_self]
          | cons y ys =>
              rw [List.take_succ_cons, List.cons_merge_cons, List.cons_merge_cons]
              split
              · rw [List.take_succ_cons, List.take_succ_cons, ih]
              · -- The head of `xs` is not used up, so one more of `xs` is at hand than
                -- the first `k` need; cut to `k`, both sides agree.
                have hcut := ih ((x :: xs).take (k + 1)) ys
                rw [List.take_take, Nat.min_eq_left (Nat.le_succ k), ih] at hcut
                rw [List.take_succ_cons, List.take_succ_cons, hcut, List.take_succ_cons]

theorem eq_of_order [Std.LawfulEqOrd α] {a b : Candidate α} (h : order a b = .eq) : a = b := by
  obtain ⟨hscore, hindex⟩ := Ordering.then_eq_eq.mp h
  have hs : b.score = a.score := Std.LawfulEqOrd.eq_of_compare hscore
  have hi : a.index = b.index := Std.LawfulEqOrd.eq_of_compare hindex
  cases a
  cases b
  cases hs
  cases hi
  rfl

variable [Std.TransOrd α]

instance : Std.TransCmp (order (α := α)) :=
  inferInstanceAs (Std.TransCmp
    (compareLex (fun a b => compareOn score b a) (compareOn index)))

theorem ranksFirst_trans (a b c : Candidate α) :
    ranksFirst a b → ranksFirst b c → ranksFirst a c :=
  Std.TransCmp.isLE_trans

theorem ranksFirst_total (a b : Candidate α) : ranksFirst a b || ranksFirst b a := by
  have hswap : order b a = (order a b).swap := Std.OrientedCmp.eq_swap
  unfold ranksFirst
  rw [hswap]
  cases order a b <;> rfl

/-- All candidates of a list, best first. -/
abbrev sorted (xs : List (Candidate α)) : List (Candidate α) := xs.mergeSort ranksFirst

theorem pairwise_sorted (xs : List (Candidate α)) :
    (sorted xs).Pairwise (ranksFirst · ·) :=
  List.pairwise_mergeSort ranksFirst_trans ranksFirst_total xs

/-- The best of a list and what is left of it, in order. -/
theorem exists_left (xs : List (Candidate α)) (k : Nat) :
    ∃ left, (best xs k ++ left).Perm xs ∧ (best xs k ++ left).Pairwise (ranksFirst · ·) := by
  have hwhole : best xs k ++ (sorted xs).drop k = sorted xs := List.take_append_drop k _
  refine ⟨(sorted xs).drop k, ?_⟩
  rw [hwhole]
  exact ⟨List.mergeSort_perm xs _, pairwise_sorted xs⟩

theorem sorted_best (xs : List (Candidate α)) (k : Nat) : sorted (best xs k) = best xs k :=
  List.mergeSort_of_pairwise ((pairwise_sorted xs).sublist (List.take_sublist k _))

/-! ## The best of a pool -/

variable [Std.LawfulEqOrd α]

theorem ranksFirst_antisymm {a b : Candidate α} (hab : ranksFirst a b) (hba : ranksFirst b a) :
    a = b :=
  eq_of_order (Std.OrientedCmp.isLE_antisymm hab hba)

/-- A list in order that holds the same candidates is the sorted list. -/
theorem eq_sorted {xs ys : List (Candidate α)} (hsorted : ys.Pairwise (ranksFirst · ·))
    (hperm : ys.Perm xs) : ys = sorted xs :=
  (hperm.trans (List.mergeSort_perm xs _).symm).eq_of_pairwise
    (fun _ _ _ _ => ranksFirst_antisymm) hsorted (pairwise_sorted xs)

theorem sorted_append (xs ys : List (Candidate α)) :
    sorted (xs ++ ys) = (sorted xs).merge (sorted ys) ranksFirst := by
  refine (eq_sorted ?_ ?_).symm
  · exact List.pairwise_merge ranksFirst_trans ranksFirst_total (sorted xs) (sorted ys)
      (pairwise_sorted xs) (pairwise_sorted ys)
  · exact (List.merge_perm_append ranksFirst).trans
      ((List.mergeSort_perm xs _).append (List.mergeSort_perm ys _))

theorem best_perm {xs ys : List (Candidate α)} (h : xs.Perm ys) (k : Nat) :
    best xs k = best ys k := by
  have hsorted : sorted xs = sorted ys :=
    eq_sorted (pairwise_sorted xs) ((List.mergeSort_perm xs _).trans h)
  show (sorted xs).take k = (sorted ys).take k
  rw [hsorted]

/-- Of one of two lists only the best `k` matter. -/
theorem best_best_append (xs ys : List (Candidate α)) (k : Nat) :
    best (best xs k ++ ys) k = best (xs ++ ys) k := by
  show (sorted (best xs k ++ ys)).take k = (sorted (xs ++ ys)).take k
  rw [sorted_append, sorted_append, sorted_best]
  exact take_merge_take k (sorted xs) (sorted ys)

theorem best_append_flatMap_best (front : List (Candidate α)) (xss : List (List (Candidate α)))
    (k : Nat) : best (front ++ xss.flatMap (best · k)) k = best (front ++ xss.flatten) k := by
  induction xss generalizing front with
  | nil => rfl
  | cons xs xss ih =>
      -- The order of candidates does not matter, so the first list is cut in front of the others.
      rw [List.flatMap_cons, List.flatten_cons, ← List.append_assoc front xs, ← ih]
      have hswap : (front ++ (best xs k ++ xss.flatMap (best · k))).Perm
          (best xs k ++ (front ++ xss.flatMap (best · k))) := by
        rw [← List.append_assoc, ← List.append_assoc]
        exact List.perm_append_comm.append_right _
      have hback : (xs ++ (front ++ xss.flatMap (best · k))).Perm
          (front ++ xs ++ xss.flatMap (best · k)) := by
        rw [← List.append_assoc]
        exact List.perm_append_comm.append_right _
      rw [best_perm hswap, best_best_append, best_perm hback]

/-- The best `k` of each list, ranked together, are the best `k` of all. -/
theorem best_flatMap_best (xss : List (List (Candidate α))) (k : Nat) :
    best (xss.flatMap (best · k)) k = best xss.flatten k :=
  best_append_flatMap_best [] xss k

end Candidate

/-! ## Candidates of a score list -/

section CandidatesOf

variable {α : Type}

theorem candidatesOf_append (xs ys : List α) :
    candidatesOf (xs ++ ys) =
      candidatesOf xs ++ (candidatesOf ys).map (Candidate.shift xs.length) := by
  unfold candidatesOf
  rw [List.zipIdx_append, List.map_append, Nat.zero_add,
    List.zipIdx_eq_map_add (l := ys) (i := xs.length), List.map_map, List.map_map]
  congr 1
  refine List.map_congr_left fun ⟨x, j⟩ _ => ?_
  show Candidate.mk x (xs.length + j) = ⟨x, j + xs.length⟩
  rw [Nat.add_comm]

theorem length_candidatesOf (xs : List α) : (candidatesOf xs).length = xs.length := by
  rw [candidatesOf, List.length_map, List.length_zipIdx]

theorem index_lt_of_mem_candidatesOf {xs : List α} {c : Candidate α}
    (h : c ∈ candidatesOf xs) : c.index < xs.length := by
  obtain ⟨⟨x, i⟩, hmem, rfl⟩ := List.mem_map.mp h
  exact List.snd_lt_of_mem_zipIdx hmem

theorem getElem?_of_mem_candidatesOf {xs : List α} {c : Candidate α}
    (h : c ∈ candidatesOf xs) : xs[c.index]? = some c.score := by
  obtain ⟨⟨x, i⟩, hmem, rfl⟩ := List.mem_map.mp h
  exact List.mem_zipIdx_iff_getElem?.mp hmem

theorem mem_candidatesOf_of_mem_topK [Ord α] {xs : List α} {k : Nat} {c : Candidate α}
    (h : c ∈ topK xs k) : c ∈ candidatesOf xs :=
  List.mem_mergeSort.mp (List.mem_of_mem_take h)

theorem length_topK [Ord α] (xs : List α) (k : Nat) : (topK xs k).length = min k xs.length := by
  rw [topK, Candidate.best, List.length_take, List.length_mergeSort, length_candidatesOf]

end CandidatesOf

end ShardedModel
