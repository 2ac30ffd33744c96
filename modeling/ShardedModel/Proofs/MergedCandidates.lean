import ShardedModel.Proofs.ComponentFailures
import ShardedModel.Proofs.MergedRanking
import ShardedModel.Proofs.Ownership

/-!
# What the merge accepts and what it answers

The merge is handed whatever the shards made, and nothing says that a shard ranked its scores at
all: rows may be out of order, longer than asked for, or of another batch, and an index may point
past the shard. `Mergeable` lists what is asked of them. The checks are made shard by shard, in
the order of the shards, and together they come to this list. Once they pass nothing can fail any
more, since an index inside its shard becomes an id of the vocabulary.

The answer ranks everything that was handed in for a sequence, so it does not matter whether a
shard ranked its own candidates. Ids of different shards are different because their ranges are,
and an id comes twice only if a shard names it twice.
-/

namespace ShardedModel

open Outcome

variable {α : Type}

/-- What the merge asks of what the shards hand in. -/
structure Mergeable (plan : Plan) (n k : Nat) (locals : List (LocalTopK α)) : Prop where
  positive : 1 ≤ k
  oneEach : (locals.map (·.shardId)).Perm (List.range n)
  sameBatch : ∀ l ∈ locals, ∀ l' ∈ locals, l.candidates.length = l'.candidates.length
  long : ∀ l ∈ locals, ∀ row ∈ l.candidates, k ≤ row.length
  inside : ∀ l ∈ locals, ∀ s ∈ plan.shards, s.id = l.shardId →
    ∀ row ∈ l.candidates, ∀ c ∈ row, c.index < s.hi - s.lo

section Accepts

variable {plan : Plan} {v n k batch : Nat} {locals ordered : List (LocalTopK α)}

theorem Arranged.mergeable (h : Arranged v n k batch locals ordered) (hplan : plan.CutOf v n)
    (hk : 1 ≤ k) : Mergeable plan n k locals := by
  have hfits : ∀ l ∈ locals, l.Fits v n k batch := fun l hl => h.fits l (h.perm.mem_iff.mpr hl)
  refine ⟨hk, h.range ▸ (h.perm.map _).symm, ?_, fun l hl => (hfits l hl).long, ?_⟩
  · intro l hl l' hl'
    rw [(hfits l hl).batch, (hfits l' hl').batch]
  · intro l hl s hs hid row hrow c hc
    obtain ⟨i, hi, rfl⟩ := hplan.mem_shards.mp hs
    obtain rfl : i = l.shardId := hid
    have hlt := (hfits l hl).inside row hrow c hc
    rw [Plan.shardAt_lo hi, Plan.shardAt_hi]
    omega

theorem Mergeable.exists_arranged (h : Mergeable plan n k locals) (hplan : plan.CutOf v n) :
    ∃ batch ordered, Arranged v n k batch locals ordered := by
  obtain ⟨ordered, hordered⟩ : ∃ ordered,
      orderByShard .candidates (·.shardId) locals n = .ok ordered :=
    exists_orderByShard_iff.mpr h.oneEach
  obtain ⟨hperm, hrange⟩ := orderByShard_eq_ok.mp hordered
  have hmem : ∀ l ∈ ordered, l ∈ locals := fun l hl => hperm.mem_iff.mp hl
  obtain ⟨first, hfirst⟩ := List.exists_mem_of_ne_nil _ (ne_nil_of_range hrange hplan.pos)
  refine ⟨first.candidates.length, ordered, hperm, hrange, fun l hl => ?_⟩
  refine ⟨h.sameBatch l (hmem l hl) first (hmem first hfirst), h.long l (hmem l hl), ?_⟩
  intro row hrow c hc
  have hi := lt_of_range hrange hl
  have hlt := h.inside l (hmem l hl) _ (hplan.mem_shards.mpr ⟨_, hi, rfl⟩) rfl row hrow c hc
  rw [Plan.shardAt_lo hi, Plan.shardAt_hi] at hlt
  omega

/-- Where the checks of all shards pass, everything fits. -/
theorem arranged_of_checks (hplan : plan.CutOf v n)
    (hordered : orderByShard .candidates (·.shardId) locals plan.shardCount = .ok ordered)
    {u : Unit} (hcheck : ordered.forM (fun l => l.check plan k batch) = .ok u) :
    Arranged v n k batch locals ordered := by
  rw [hplan.shardCount, orderByShard_eq_ok] at hordered
  obtain ⟨hperm, hrange⟩ := hordered
  refine ⟨hperm, hrange, fun l hl => ?_⟩
  exact (LocalTopK.check_eq_ok hplan (lt_of_range hrange hl)).mp (forM_eq_ok.mp hcheck l hl)

theorem exists_arranged_of_merge [Ord α] (hplan : plan.CutOf v n) {p : Prediction α}
    (h : merge locals plan k = .ok p) :
    1 ≤ k ∧ ∃ batch ordered, Arranged v n k batch locals ordered := by
  obtain ⟨⟨⟩, hk, h⟩ := bind_eq_ok.mp h
  obtain ⟨ordered, hordered, h⟩ := bind_eq_ok.mp h
  refine ⟨Nat.pos_of_ne_zero (ensure_eq_ok.mp hk), ?_⟩
  cases ordered with
  | nil => cases h
  | cons first rest =>
      obtain ⟨⟨⟩, hcheck, -⟩ := bind_eq_ok.mp h
      exact ⟨_, _, arranged_of_checks hplan hordered hcheck⟩

theorem exists_merge_iff [Ord α] (hplan : plan.CutOf v n) (hword : v < Word.limit) :
    (∃ p, merge locals plan k = .ok p) ↔ Mergeable plan n k locals := by
  constructor
  · rintro ⟨p, h⟩
    obtain ⟨hk, batch, ordered, harranged⟩ := exists_arranged_of_merge hplan h
    exact harranged.mergeable hplan hk
  · intro h
    obtain ⟨batch, ordered, harranged⟩ := h.exists_arranged hplan
    exact ⟨_, merge_of_arranged hplan h.positive (fun _ => hword) harranged⟩

theorem LocalTopK.check_ne_fault (hplan : plan.CutOf v n) {l : LocalTopK α} (hi : l.shardId < n) :
    (l.check plan k batch).FailsWithin (· ≠ .fault) := by
  refine .bind (.ensure _ Failure.noConfusion) fun _ _ => ?_
  dsimp only
  split
  · exact .error Failure.noConfusion
  · rw [ok_bind, hplan.shard hi, ok_bind, Plan.width_shardAt hi, ok_bind]
    split
    · exact .error Failure.noConfusion
    · exact .ok _

/-- What is not accepted is refused by one of the checks. -/
theorem merge_ne_fault [Ord α] (hplan : plan.CutOf v n) (hword : v < Word.limit) :
    merge locals plan k ≠ .error .fault := by
  intro herror
  rcases bind_eq_error.mp herror with hk | ⟨⟨⟩, hk, h⟩
  · exact Failure.noConfusion (ensure_eq_error.mp hk).2
  rcases bind_eq_error.mp h with hrefused | ⟨ordered, hordered, h⟩
  · exact orderByShard_fails (P := (· ≠ .fault)) (fun _ => Failure.noConfusion) _ _ _ _ _
      hrefused rfl
  have hrange : ordered.map (·.shardId) = List.range n :=
    hplan.shardCount ▸ (orderByShard_eq_ok.mp hordered).2
  cases ordered with
  | nil => exact ne_nil_of_range hrange hplan.pos rfl
  | cons first rest =>
      rcases bind_eq_error.mp h with hrefused | ⟨⟨⟩, hcheck, -⟩
      · exact FailsWithin.forM
          (fun l hl => LocalTopK.check_ne_fault hplan (lt_of_range hrange hl)) _ hrefused rfl
      · have harranged := arranged_of_checks hplan hordered hcheck
        rw [merge_of_arranged hplan (Nat.pos_of_ne_zero (ensure_eq_ok.mp hk)) (fun _ => hword)
          harranged] at herror
        cases herror

end Accepts

/-! ## What is ranked -/

section Ranked

variable {v n k b batch : Nat} {locals ordered : List (LocalTopK α)} {l : LocalTopK α}

theorem mem_tokenRow {c : Candidate α} :
    c ∈ l.tokenRow v n b ↔ ∃ kept, l.candidates[b]? = some kept ∧
      ∃ x ∈ kept, Candidate.shift (Plan.bound v n l.shardId) x = c := by
  rw [LocalTopK.tokenRow, List.getD_eq_getElem?_getD, List.mem_map]
  cases l.candidates[b]? with
  | none => simp
  | some kept => simp

/-- A token id is in the range of the shard that it comes from. -/
theorem LocalTopK.Fits.range_of_mem (h : l.Fits v n k batch) {c : Candidate α}
    (hc : c ∈ l.tokenRow v n b) :
    Plan.bound v n l.shardId ≤ c.index ∧ c.index < Plan.bound v n (l.shardId + 1) := by
  obtain ⟨kept, hkept, x, hx, rfl⟩ := mem_tokenRow.mp hc
  have hlt := h.inside kept (List.mem_of_getElem? hkept) x hx
  exact ⟨Nat.le_add_left _ _, hlt⟩

theorem LocalTopK.Fits.length_tokenRow (h : l.Fits v n k batch) (hb : b < batch) :
    k ≤ (l.tokenRow v n b).length := by
  have hin : b < l.candidates.length := h.batch ▸ hb
  rw [LocalTopK.tokenRow, List.length_map, List.getD_eq_getElem?_getD,
    List.getElem?_eq_getElem hin, Option.getD_some]
  exact h.long _ (List.getElem_mem hin)

theorem Arranged.length_pool (h : Arranged v n k batch locals ordered) (hn : 0 < n)
    (hb : b < batch) : k ≤ (ordered.flatMap (LocalTopK.tokenRow v n b)).length := by
  cases ordered with
  | nil => exact absurd rfl (ne_nil_of_range h.range hn)
  | cons first rest =>
      have hfirst := (h.fits first List.mem_cons_self).length_tokenRow hb
      rw [List.flatMap_cons, List.length_append]
      omega

theorem nodup_tokenRow (hkept : ∀ kept, l.candidates[b]? = some kept → (kept.map (·.index)).Nodup) :
    ((l.tokenRow v n b).map (·.index)).Nodup := by
  rw [LocalTopK.tokenRow, List.getD_eq_getElem?_getD, List.map_map]
  cases hrow : l.candidates[b]? with
  | none => exact List.nodup_nil
  | some kept =>
      have hinjective : Function.Injective (· + Plan.bound v n l.shardId) :=
        fun _ _ => Nat.add_right_cancel
      have hnodup := (hkept kept hrow).map hinjective
      rw [List.map_map] at hnodup
      exact hnodup

/-- Ids of different shards are different. -/
theorem Arranged.nodup_pool (h : Arranged v n k batch locals ordered)
    (hkept : ∀ l ∈ ordered, ∀ kept, l.candidates[b]? = some kept → (kept.map (·.index)).Nodup) :
    ((ordered.flatMap (LocalTopK.tokenRow v n b)).map (·.index)).Nodup := by
  have hrising : ordered.Pairwise (fun l l' => l.shardId < l'.shardId) :=
    List.pairwise_map.mp (h.range ▸ List.pairwise_lt_range)
  rw [List.map_flatMap, List.nodup_flatMap]
  refine ⟨fun l hl => nodup_tokenRow (hkept l hl), hrising.imp_of_mem ?_⟩
  intro l l' hl hl' hlt id hid hid'
  obtain ⟨c, hc, rfl⟩ := List.mem_map.mp hid
  obtain ⟨c', hc', hsame⟩ := List.mem_map.mp hid'
  have hin := (h.fits l hl).range_of_mem hc
  have hin' := (h.fits l' hl').range_of_mem hc'
  rw [hsame] at hin'
  have heq := Plan.range_unique (lt_of_range h.range hl) (lt_of_range h.range hl') hin hin'
  omega

/-! ## What is answered -/

variable [Ord α]

theorem Arranged.length_best (h : Arranged v n k batch locals ordered) (hn : 0 < n)
    (hb : b < batch) :
    (Candidate.best (ordered.flatMap (LocalTopK.tokenRow v n b)) k).length = k := by
  rw [Candidate.best, List.length_take, List.length_mergeSort,
    Nat.min_eq_left (h.length_pool hn hb)]

/-- Every answer was handed in by the shard that owns it. -/
theorem Arranged.exists_supplier (h : Arranged v n k batch locals ordered) {plan : Plan}
    (hplan : plan.CutOf v n) {c : Candidate α}
    (hc : c ∈ Candidate.best (ordered.flatMap (LocalTopK.tokenRow v n b)) k) :
    c.index < v ∧ ∃ l ∈ locals, ∃ s ∈ plan.shards, s.id = l.shardId ∧ s.contains c.index = true ∧
      ∃ kept, l.candidates[b]? = some kept ∧ ⟨c.score, c.index - s.lo⟩ ∈ kept := by
  have hpool := List.mem_mergeSort.mp (List.mem_of_mem_take hc)
  obtain ⟨l, hl, hc⟩ := List.mem_flatMap.mp hpool
  have hi := lt_of_range h.range hl
  have hrange := (h.fits l hl).range_of_mem hc
  have hle : Plan.bound v n (l.shardId + 1) ≤ v := Plan.bound_le hi
  refine ⟨by omega, l, h.perm.mem_iff.mp hl, _, hplan.mem_shards.mpr ⟨_, hi, rfl⟩, rfl,
    (Plan.contains_shardAt hi).mpr hrange, ?_⟩
  obtain ⟨kept, hkept, x, hx, rfl⟩ := mem_tokenRow.mp hc
  refine ⟨kept, hkept, ?_⟩
  rw [Plan.shardAt_lo hi, Candidate.shift, Nat.add_sub_cancel]
  exact hx

theorem Arranged.nodup_best (h : Arranged v n k batch locals ordered)
    (hkept : ∀ l ∈ ordered, ∀ kept, l.candidates[b]? = some kept → (kept.map (·.index)).Nodup) :
    ((Candidate.best (ordered.flatMap (LocalTopK.tokenRow v n b)) k).map (·.index)).Nodup := by
  have hsorted := ((List.mergeSort_perm (ordered.flatMap (LocalTopK.tokenRow v n b))
    Candidate.ranksFirst).map (·.index)).nodup_iff.mpr (h.nodup_pool hkept)
  exact hsorted.sublist ((List.take_sublist k _).map _)

end Ranked

theorem nextTokens_of_ne_nil {p : Prediction α} (h : ∀ row ∈ p.rows, row ≠ []) :
    p.nextTokens.map some = p.rows.map fun row => row.head?.map (·.index) := by
  rw [Prediction.nextTokens, List.map_filterMap_some_eq_filter_map_isSome, List.filter_eq_self]
  intro first hfirst
  obtain ⟨row, hrow, rfl⟩ := List.mem_map.mp hfirst
  rw [Option.isSome_map, List.isSome_head?]
  simpa using h row hrow

/-- The merge accepts what is `Mergeable` and refuses all else. Its answer for a sequence is the
first `k` of all that the shards handed in for it, by token id and in order, and what is left
ranks after them. -/
theorem merge_ranks_all {v n k : Nat} {plan : Plan} (hplan : Plan.cut v n = .ok plan)
    (hword : v < Word.limit) (locals : List (LocalTopK Binary32)) :
    ((∃ p, merge locals plan k = .ok p) ↔ Mergeable plan n k locals) ∧
    merge locals plan k ≠ .error .fault ∧
    ∀ p, merge locals plan k = .ok p →
      (∀ l ∈ locals, l.candidates.length = p.rows.length) ∧
      (p.nextTokens.map some = p.rows.map fun row => row.head?.map (·.index)) ∧
      ∀ (b : Nat) (row : List (Candidate Binary32)), p.rows[b]? = some row →
        row.length = k ∧
        (∃ left, (row ++ left).Perm (locals.flatMap (LocalTopK.tokenRow v n b)) ∧
          (row ++ left).Pairwise (Candidate.ranksFirst · ·)) ∧
        (∀ c ∈ row, c.index < v ∧ ∃ l ∈ locals, ∃ s ∈ plan.shards, s.id = l.shardId ∧
          s.contains c.index = true ∧
          ∃ kept, l.candidates[b]? = some kept ∧ ⟨c.score, c.index - s.lo⟩ ∈ kept) ∧
        ((∀ l ∈ locals, ∀ kept, l.candidates[b]? = some kept → (kept.map (·.index)).Nodup) →
          (row.map (·.index)).Nodup) := by
  have hcut := Plan.cutOf_of_cut hplan
  refine ⟨exists_merge_iff hcut hword, merge_ne_fault hcut hword, ?_⟩
  intro p hp
  obtain ⟨hk, batch, ordered, h⟩ := exists_arranged_of_merge hcut hp
  rw [merge_of_arranged hcut hk (fun _ => hword) h] at hp
  cases hp
  refine ⟨?_, nextTokens_of_ne_nil ?_, ?_⟩
  · intro l hl
    rw [List.length_map, List.length_range, (h.fits l (h.perm.mem_iff.mpr hl)).batch]
  · intro row hrow hnil
    obtain ⟨b, hb, rfl⟩ := List.mem_map.mp hrow
    have hlength := h.length_best hcut.pos (List.mem_range.mp hb)
    rw [hnil, List.length_nil] at hlength
    omega
  · intro b row hrow
    obtain ⟨hb, rfl⟩ := getElem?_map_range.mp hrow
    refine ⟨h.length_best hcut.pos hb, ?_, fun c hc => h.exists_supplier hcut hc, ?_⟩
    · obtain ⟨left, hperm, hsorted⟩ :=
        Candidate.exists_left (ordered.flatMap (LocalTopK.tokenRow v n b)) k
      exact ⟨left, hperm.trans (h.perm.flatMap_right _), hsorted⟩
    · intro hkept
      exact h.nodup_best fun l hl => hkept l (h.perm.mem_iff.mp hl)

/-- The second shard is done first, neither has ranked its candidates, and both name more than are
asked for. The best is no number, and of two that are level the lower id comes first. -/
theorem merge_ranks_all_unranked :
    let plan : Plan := ⟨5, [⟨0, 0, 2, 2, 5⟩, ⟨1, 2, 5, 2, 5⟩]⟩
    let locals : List (LocalTopK Binary32) :=
      [⟨1, [[⟨⟨0x3f800000⟩, 2⟩, ⟨⟨0x80000000⟩, 1⟩, ⟨⟨0x7fc00001⟩, 0⟩]]⟩,
        ⟨0, [[⟨⟨0⟩, 1⟩, ⟨⟨0x3f800000⟩, 0⟩]]⟩]
    let row : List (Candidate Binary32) := [⟨⟨0x7fc00001⟩, 2⟩, ⟨⟨0x3f800000⟩, 0⟩]
    Plan.cut 5 2 = .ok plan ∧ Mergeable plan 2 2 locals ∧ merge locals plan 2 = .ok ⟨[row]⟩ ∧
    (∃ left, (row ++ left).Perm (locals.flatMap (LocalTopK.tokenRow 5 2 0)) ∧
      (row ++ left).Pairwise (Candidate.ranksFirst · ·)) ∧
    (row.map (·.index)).Nodup := by
  intro plan locals row
  have hplan : Plan.cut 5 2 = .ok plan := rfl
  -- What is sorted and holds all that was handed in is the sorted pool.
  have hsorted : [⟨⟨0x7fc00001⟩, 2⟩, ⟨⟨0x3f800000⟩, 0⟩, ⟨⟨0x3f800000⟩, 4⟩, ⟨⟨0⟩, 1⟩,
      ⟨⟨0x80000000⟩, 3⟩] = Candidate.sorted (locals.reverse.flatMap (LocalTopK.tokenRow 5 2 0)) :=
    Candidate.eq_sorted (by decide) (by decide)
  have hmerge : merge locals plan 2 = .ok ⟨[row]⟩ := by
    show Except.ok (Prediction.mk
      [(Candidate.sorted (locals.reverse.flatMap (LocalTopK.tokenRow 5 2 0))).take 2]) = _
    rw [← hsorted]
    rfl
  obtain ⟨hiff, -, hanswer⟩ := merge_ranks_all hplan (by decide) locals (k := 2)
  obtain ⟨-, -, hrows⟩ := hanswer _ hmerge
  obtain ⟨-, hleft, -, hnodup⟩ := hrows 0 row rfl
  exact ⟨hplan, hiff.mp ⟨_, hmerge⟩, hmerge, hleft, hnodup (by decide)⟩

end ShardedModel
