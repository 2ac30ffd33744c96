import ShardedModel.Prediction
import ShardedModel.Proofs.Arrivals
import ShardedModel.Proofs.Cut
import ShardedModel.Proofs.Ranking
import ShardedModel.Proofs.Tensor

/-!
# Ranking shard by shard loses nothing

A matrix of scores has a row for each sequence and a column for each id. Cut along
the ranges of a plan it gives each shard the columns of its own ids. Each shard then
ranks its part of a row by the index inside the shard, and the merge moves the
indices up and ranks what the shards kept.

Two facts make the result exact. Moving the indices of one shard changes no rank
inside it, so what a shard keeps is the best of its candidates under their token ids
too; and the moved candidates of all shards, one shard after the other, are the
candidates of the whole row. The rest is `best_flatMap_best`.
-/

namespace ShardedModel

variable {α : Type}

/-! ## Cutting columns -/

/-- The columns from `lo` up to but not including `hi`. -/
def Tensor2.columns (t : Tensor2 α) (lo hi : Nat) : Tensor2 α :=
  ⟨Flat.concat ((List.range t.rows).map fun b => (t.line b).extract lo hi), t.rows, hi - lo⟩

/-- The scores of one shard's ids out of the scores of all ids. -/
def Logits.ofColumns (full : Tensor2 α) (shard : Shard) : Logits α :=
  ⟨shard.id, full.columns shard.lo shard.hi⟩

namespace Tensor2

variable {t : Tensor2 α} {lo hi : Nat}

theorem size_extract_line (h : t.Filled) (hhi : hi ≤ t.cols) {b : Nat} (hb : b < t.rows) :
    ((t.line b).extract lo hi).size = hi - lo := by
  rw [Array.size_extract_of_le (by rw [size_line h hb]; exact hhi)]

theorem size_of_mem_columns (h : t.Filled) (hhi : hi ≤ t.cols) :
    ∀ l ∈ (List.range t.rows).map fun b => (t.line b).extract lo hi, l.size = hi - lo := by
  intro l hl
  obtain ⟨b, hb, rfl⟩ := List.mem_map.mp hl
  exact size_extract_line h hhi (List.mem_range.mp hb)

theorem wellFormed_columns (h : t.Filled) (hhi : hi ≤ t.cols) : (t.columns lo hi).WellFormed := by
  show (Flat.concat _).size = _
  rw [Flat.size_concat (size_of_mem_columns h hhi), List.length_map, List.length_range]
  rfl

theorem line_columns (h : t.Filled) (hhi : hi ≤ t.cols) {b : Nat} (hb : b < t.rows) :
    (t.columns lo hi).line b = (t.line b).extract lo hi := by
  refine line_concat (size_of_mem_columns h hhi) ?_
  rw [List.getElem?_map, List.getElem?_range hb]
  rfl

theorem size_columns_le (h : t.Filled) (hhi : hi ≤ t.cols) :
    (t.columns lo hi).data.size ≤ t.data.size := by
  rw [wellFormed_columns h hhi]
  exact Nat.le_trans (Nat.mul_le_mul_left _ (Nat.le_trans (Nat.sub_le hi lo) hhi)) h

end Tensor2

/-- The stretches of a list between bounds that rise from zero, each with its indices
moved up, are the candidates of the list as far as the last bound. -/
theorem flatMap_candidatesOf_extract (xs : List α) {bound : Nat → Nat} (hzero : bound 0 = 0)
    {m : Nat} (hrise : ∀ i < m, bound i ≤ bound (i + 1)) (hlen : ∀ i < m, bound i ≤ xs.length) :
    (List.range m).flatMap (fun i =>
        (candidatesOf (xs.extract (bound i) (bound (i + 1)))).map (Candidate.shift (bound i))) =
      candidatesOf (xs.take (bound m)) := by
  induction m with
  | zero =>
      rw [hzero]
      rfl
  | succ m ih =>
      have hstep := hrise m (Nat.lt_succ_self m)
      have hfits := hlen m (Nat.lt_succ_self m)
      rw [List.range_succ, List.flatMap_append,
        ih (fun i hi => hrise i (Nat.lt_succ_of_lt hi)) (fun i hi => hlen i (Nat.lt_succ_of_lt hi)),
        List.flatMap_singleton]
      have hsplit : xs.take (bound (m + 1)) =
          xs.take (bound m) ++ xs.extract (bound m) (bound (m + 1)) := by
        rw [List.extract_eq_take_drop, ← List.take_add, Nat.add_sub_cancel' hstep]
      rw [hsplit, candidatesOf_append, List.length_take, Nat.min_eq_left hfits]

/-! ## What a shard keeps -/

theorem rebase_shardAt {v n i : Nat} (hi : i < n) {l : LocalTopK α}
    (hindex : ∀ row ∈ l.candidates, ∀ c ∈ row, c.index + Plan.bound v n i < Word.limit) :
    l.rebase (Plan.shardAt v n i) =
      .ok (l.candidates.map (·.map (Candidate.shift (Plan.bound v n i)))) := by
  unfold LocalTopK.rebase
  refine Outcome.mapM_eq_ok_map fun row hrow => Outcome.mapM_eq_ok_map fun c hc => ?_
  rw [Shard.toGlobal, Plan.shardAt_lo hi, Word.add_of_lt (hindex row hrow c hc)]
  rfl

/-- What the merge accepts of one shard out of a vocabulary of `v` ids in `n` shards: a row for
each sequence, enough candidates in each row, and indices inside the shard. -/
structure LocalTopK.Fits (l : LocalTopK α) (v n k batch : Nat) : Prop where
  batch : l.candidates.length = batch
  long : ∀ row ∈ l.candidates, k ≤ row.length
  inside : ∀ row ∈ l.candidates, ∀ c ∈ row,
    c.index + Plan.bound v n l.shardId < Plan.bound v n (l.shardId + 1)

theorem LocalTopK.check_eq_ok {plan : Plan} {v n k batch : Nat} (hplan : plan.CutOf v n)
    {l : LocalTopK α} (hi : l.shardId < n) {u : Unit} :
    l.check plan k batch = .ok u ↔ l.Fits v n k batch := by
  have hshort : l.candidates.find? (·.length < k) = none ↔
      ∀ row ∈ l.candidates, k ≤ row.length := by
    rw [List.find?_eq_none]
    simp
  have hbeyond : l.candidates.flatten.find?
      (Plan.bound v n (l.shardId + 1) - Plan.bound v n l.shardId ≤ ·.index) = none ↔
      ∀ row ∈ l.candidates, ∀ c ∈ row,
        c.index + Plan.bound v n l.shardId < Plan.bound v n (l.shardId + 1) := by
    rw [List.find?_eq_none]
    constructor
    · intro h row hrow c hc
      have hlt := h c (List.mem_flatten.mpr ⟨row, hrow, hc⟩)
      simp only [decide_eq_true_eq] at hlt
      omega
    · intro h c hc
      obtain ⟨row, hrow, hc⟩ := List.mem_flatten.mp hc
      have hlt := h row hrow c hc
      simp only [decide_eq_true_eq]
      omega
  unfold LocalTopK.check
  rw [Outcome.bind_eq_ok, hplan.shard hi]
  constructor
  · rintro ⟨⟨⟩, hbatch, h⟩
    rw [ensure_eq_ok] at hbatch
    dsimp only at h
    split at h
    · cases h
    · next hlong =>
        rw [Outcome.ok_bind, Outcome.ok_bind, Plan.width_shardAt hi, Outcome.ok_bind] at h
        split at h
        · cases h
        · next hinside => exact ⟨hbatch, hshort.mp hlong, hbeyond.mp hinside⟩
  · intro hfits
    refine ⟨(), ensure_of hfits.batch, ?_⟩
    rw [hshort.mpr hfits.long]
    dsimp only
    rw [Outcome.ok_bind, Outcome.ok_bind, Plan.width_shardAt hi, Outcome.ok_bind,
      hbeyond.mpr hfits.inside]

variable [Ord α]

/-- Where owner, width and `k` are in order, only reading the rows is left. -/
theorem localTopK_of_fits {shard : Shard} {logits : Logits α} {k width : Nat} (hk : 1 ≤ k)
    (howner : logits.shardId = shard.id) (hwidth : shard.width = .ok width)
    (hcols : logits.scores.cols = width) (hkw : k ≤ width) :
    localTopK shard logits k = (do
      let candidates ← (List.range logits.scores.rows).mapM fun b => do
        let scores ← logits.scores.row b
        .ok (topK scores.toList k)
      .ok ⟨shard.id, candidates⟩) := by
  unfold localTopK
  rw [ensure_of (by omega), Outcome.ok_bind, ensure_of howner, Outcome.ok_bind, hwidth,
    Outcome.ok_bind, ensure_of hcols, Outcome.ok_bind, ensure_of hkw, Outcome.ok_bind,
    Outcome.tabulate_eq_mapM]

/-- The best of one shard's part of row `b`, by the index inside the shard. -/
def keptRow (full : Tensor2 α) (v n k i b : Nat) : List (Candidate α) :=
  topK ((full.line b).extract (Plan.bound v n i) (Plan.bound v n (i + 1))).toList k

theorem localTopK_ofColumns {full : Tensor2 α} (hfull : full.Filled)
    (hsize : full.data.size < Word.limit) {v n k i : Nat} (hi : i < n) (hcols : full.cols = v)
    (hk : 1 ≤ k) (hkn : k ≤ v / n) :
    localTopK (Plan.shardAt v n i) (Logits.ofColumns full (Plan.shardAt v n i)) k =
      .ok ⟨i, (List.range full.rows).map (keptRow full v n k i)⟩ := by
  have hhi : Plan.bound v n (i + 1) ≤ full.cols := hcols ▸ Plan.bound_le hi
  have hwide := Plan.bound_add_le (v := v) hi
  have hpart : (Logits.ofColumns full (Plan.shardAt v n i)).scores =
      full.columns (Plan.bound v n i) (Plan.bound v n (i + 1)) := by
    rw [Logits.ofColumns, Plan.shardAt_lo hi, Plan.shardAt_hi]
  have hrow : ∀ b < full.rows,
      (full.columns (Plan.bound v n i) (Plan.bound v n (i + 1))).row b =
        .ok ((full.line b).extract (Plan.bound v n i) (Plan.bound v n (i + 1))) := by
    intro b hb
    rw [Tensor2.row_eq_line (Tensor2.wellFormed_columns hfull hhi).filled
      (Nat.lt_of_le_of_lt (Tensor2.size_columns_le hfull hhi) hsize) hb,
      Tensor2.line_columns hfull hhi hb]
  rw [localTopK_of_fits hk rfl (Plan.width_shardAt hi) (by rw [hpart]; rfl) (by omega), hpart,
    Outcome.mapM_eq_ok_map (g := keptRow full v n k i)]
  · rfl
  · intro b hb
    rw [hrow b (List.mem_range.mp hb)]
    rfl

theorem length_keptRow {full : Tensor2 α} (hfull : full.Filled) {v n k i b : Nat} (hi : i < n)
    (hcols : full.cols = v) (hkn : k ≤ v / n) (hb : b < full.rows) :
    (keptRow full v n k i b).length = k := by
  have hwide := Plan.bound_add_le (v := v) hi
  rw [keptRow, length_topK, Array.length_toList,
    Tensor2.size_extract_line hfull (hcols ▸ Plan.bound_le hi) hb]
  omega

theorem index_lt_of_mem_keptRow {full : Tensor2 α} (hfull : full.Filled) {v n k i b : Nat}
    (hi : i < n) (hcols : full.cols = v) (hb : b < full.rows) {c : Candidate α}
    (hc : c ∈ keptRow full v n k i b) :
    c.index + Plan.bound v n i < Plan.bound v n (i + 1) := by
  have hlt := index_lt_of_mem_candidatesOf (mem_candidatesOf_of_mem_topK hc)
  rw [Array.length_toList, Tensor2.size_extract_line hfull (hcols ▸ Plan.bound_le hi) hb] at hlt
  omega

/-! ## What the merge makes of it -/

/-- What one shard of `n` keeps for sequence `b`, by token id. -/
def LocalTopK.tokenRow (v n b : Nat) (l : LocalTopK α) : List (Candidate α) :=
  (l.candidates.getD b []).map (Candidate.shift (Plan.bound v n l.shardId))

/-- What the shards handed in, put into their order, with something from each that fits. -/
structure Arranged (v n k batch : Nat) (locals ordered : List (LocalTopK α)) : Prop where
  perm : ordered.Perm locals
  range : ordered.map (·.shardId) = List.range n
  fits : ∀ l ∈ ordered, l.Fits v n k batch

section Merge

variable {plan : Plan} {v n k batch : Nat} {locals ordered : List (LocalTopK α)}

omit [Ord α] in
theorem rebase_of_fits (hplan : plan.CutOf v n) (hword : 0 < batch → v < Word.limit)
    (h : Arranged v n k batch locals ordered) :
    ordered.mapM (fun l => do
        let shard ← plan.shard l.shardId
        l.rebase shard) =
      .ok (ordered.map fun l =>
        l.candidates.map (·.map (Candidate.shift (Plan.bound v n l.shardId)))) := by
  refine Outcome.mapM_eq_ok_map fun l hl => ?_
  have hi := lt_of_range h.range hl
  rw [hplan.shard hi, Outcome.ok_bind, rebase_shardAt hi]
  intro row hrow c hc
  have hlt := (h.fits l hl).inside row hrow c hc
  have hv := hword ((h.fits l hl).batch ▸ List.length_pos_of_mem hrow)
  have hle : Plan.bound v n (l.shardId + 1) ≤ v := Plan.bound_le hi
  omega

omit [Ord α] in
/-- The pool of a sequence holds what each shard kept for it. -/
theorem pool_rebased (b : Nat) :
    pool (ordered.map fun l =>
        l.candidates.map (·.map (Candidate.shift (Plan.bound v n l.shardId)))) b =
      ordered.flatMap (LocalTopK.tokenRow v n b) := by
  rw [pool, List.flatMap_map]
  refine List.flatMap_congr fun l _ => ?_
  rw [LocalTopK.tokenRow, List.getD_eq_getElem?_getD, List.getD_eq_getElem?_getD, List.getElem?_map]
  cases l.candidates[b]? with
  | none => rfl
  | some row => rfl

/-- Merging candidates that pass the checks ranks their token ids sequence by sequence. -/
theorem merge_of_arranged (hplan : plan.CutOf v n) (hk : 1 ≤ k)
    (hword : 0 < batch → v < Word.limit) (h : Arranged v n k batch locals ordered) :
    merge locals plan k =
      .ok ⟨(List.range batch).map fun b =>
        Candidate.best (ordered.flatMap (LocalTopK.tokenRow v n b)) k⟩ := by
  have hordered : orderByShard .candidates (·.shardId) locals plan.shardCount = .ok ordered :=
    orderByShard_eq_ok.mpr ⟨h.perm, hplan.shardCount ▸ h.range⟩
  have hcheck : ordered.forM (fun l => l.check plan k batch) = .ok () := by
    rw [Outcome.forM_eq_ok]
    intro l hl
    exact (LocalTopK.check_eq_ok hplan (lt_of_range h.range hl)).mpr (h.fits l hl)
  have hrebase := rebase_of_fits hplan hword h
  unfold merge
  rw [ensure_of (Nat.ne_of_gt hk), Outcome.ok_bind, hordered, Outcome.ok_bind]
  cases ordered with
  | nil => exact absurd rfl (ne_nil_of_range h.range hplan.pos)
  | cons first rest =>
      have hbatch := (h.fits first List.mem_cons_self).batch
      dsimp only
      rw [hbatch, hcheck, Outcome.ok_bind, hrebase, Outcome.ok_bind]
      simp only [pool_rebased]

end Merge

/-- What all shards hand to the merge, if `rows i b` is what shard `i` keeps for sequence `b`. -/
def localsOf (n batch : Nat) (rows : Nat → Nat → List (Candidate α)) : List (LocalTopK α) :=
  (List.range n).map fun i => ⟨i, (List.range batch).map (rows i)⟩

theorem merge_of_fits {plan : Plan} {v n k batch : Nat} {rows : Nat → Nat → List (Candidate α)}
    (hplan : plan.CutOf v n) (hk : 1 ≤ k)
    (hword : 0 < batch → v < Word.limit) (hlong : ∀ i < n, ∀ b < batch, k ≤ (rows i b).length)
    (hindex : ∀ i < n, ∀ b < batch, ∀ c ∈ rows i b,
      c.index + Plan.bound v n i < Plan.bound v n (i + 1)) :
    merge (localsOf n batch rows) plan k =
      .ok ⟨(List.range batch).map fun b =>
        Candidate.best ((List.range n).flatMap fun i =>
          (rows i b).map (Candidate.shift (Plan.bound v n i))) k⟩ := by
  have hrange : (localsOf n batch rows).map (·.shardId) = List.range n := by
    rw [localsOf, List.map_map]
    exact List.map_id _
  have hfits : ∀ l ∈ localsOf n batch rows, l.Fits v n k batch := by
    intro l hl
    obtain ⟨i, hi, rfl⟩ := List.mem_map.mp hl
    have hi := List.mem_range.mp hi
    refine ⟨by rw [List.length_map, List.length_range], ?_, ?_⟩
    · intro row hrow
      obtain ⟨b, hb, rfl⟩ := List.mem_map.mp hrow
      exact hlong i hi b (List.mem_range.mp hb)
    · intro row hrow
      obtain ⟨b, hb, rfl⟩ := List.mem_map.mp hrow
      exact hindex i hi b (List.mem_range.mp hb)
  rw [merge_of_arranged hplan hk hword ⟨.refl _, hrange, hfits⟩]
  congr 2
  refine List.map_congr_left fun b hb => ?_
  rw [localsOf, List.flatMap_map]
  congr 1
  refine List.flatMap_congr fun i _ => ?_
  rw [LocalTopK.tokenRow, List.getD_eq_getElem?_getD, List.getElem?_map,
    List.getElem?_range (List.mem_range.mp hb)]
  rfl

/-! ## Nothing is lost -/

variable [Std.TransOrd α] [Std.LawfulEqOrd α]

/-- The best of each shard's part of a row, under their token ids, hold the best of the
row. -/
theorem best_keptRow {full : Tensor2 α} (hfull : full.Filled) {v n k b : Nat} (hn : 0 < n)
    (hcols : full.cols = v) (hb : b < full.rows) :
    Candidate.best ((List.range n).flatMap fun i =>
        (keptRow full v n k i b).map (Candidate.shift (Plan.bound v n i))) k =
      topK (full.line b).toList k := by
  have hlen : (full.line b).toList.length = v := by
    rw [Array.length_toList, Tensor2.size_line hfull hb, hcols]
  set part : Nat → List (Candidate α) := fun i =>
    (candidatesOf ((full.line b).toList.extract (Plan.bound v n i) (Plan.bound v n (i + 1)))).map
      (Candidate.shift (Plan.bound v n i)) with hpart
  have hkept : ∀ i, (keptRow full v n k i b).map (Candidate.shift (Plan.bound v n i)) =
      Candidate.best (part i) k := by
    intro i
    rw [hpart, Candidate.best_map_shift, keptRow, topK, Array.toList_extract]
  have hall : (List.range n).flatMap part = candidatesOf (full.line b).toList := by
    rw [flatMap_candidatesOf_extract _ (Plan.bound_zero hn) (fun i hi => Plan.bound_le_succ hi)
      (fun i hi => hlen ▸ Plan.bound_le (Nat.le_of_lt hi)), Plan.bound_self, ← hlen,
      List.take_length]
  have hbest := Candidate.best_flatMap_best ((List.range n).map part) k
  rw [List.flatMap_map, ← List.flatMap_def, hall] at hbest
  simp only [hkept]
  exact hbest

theorem merge_localTopK_ofColumns {plan : Plan} {v n k : Nat} (hplan : plan.CutOf v n)
    {full : Tensor2 α} (hfull : full.Filled) (hsize : full.data.size < Word.limit)
    (hcols : full.cols = v) (hk : 1 ≤ k) (hkn : k ≤ v / n) :
    ∃ locals,
      (plan.shards.mapM fun s => localTopK s (Logits.ofColumns full s) k) = .ok locals ∧
      merge locals plan k =
        .ok ⟨(List.range full.rows).map fun b => topK (full.line b).toList k⟩ := by
  refine ⟨localsOf n full.rows (keptRow full v n k), ?_, ?_⟩
  · rw [hplan.shards, List.mapM_map]
    exact Outcome.mapM_eq_ok_map fun i hi =>
      localTopK_ofColumns hfull hsize (List.mem_range.mp hi) hcols hk hkn
  · have hword : 0 < full.rows → v < Word.limit := by
      intro hpos
      have hle := Nat.le_trans (Nat.le_mul_of_pos_left full.cols hpos) hfull
      omega
    rw [merge_of_fits hplan hk hword
      (fun i hi b hb => Nat.le_of_eq (length_keptRow hfull hi hcols hkn hb).symm)
      (fun i hi b hb c hc => index_lt_of_mem_keptRow hfull hi hcols hb hc)]
    congr 2
    refine List.map_congr_left fun b hb => ?_
    rw [best_keptRow hfull hplan.pos hcols (List.mem_range.mp hb)]

/-- Ranking shard by shard and merging gives the best of every whole row, for scores of
any bit patterns. The size of the storage is a word, as that of every array is. -/
theorem merge_localTopK_eq_topK {v n k : Nat} (hn : 1 ≤ n) (hle : n ≤ v) (hv : v < Word.limit)
    {full : Tensor2 Binary32} (hfull : full.WellFormed) (hsize : full.data.size < Word.limit)
    (hcols : full.cols = v) (hk : 1 ≤ k) (hkn : k ≤ v / n) :
    ∃ plan : Plan, Plan.cut v n = (Storage.reserve Plan.shardBytes n >>= fun _ => .ok plan) ∧
      ∃ locals p,
        (plan.shards.mapM fun s => localTopK s (Logits.ofColumns full s) k) = .ok locals ∧
        merge locals plan k = .ok p ∧ p.rows.length = full.rows ∧
        ∀ b < full.rows, ∃ row, full.row b = .ok row ∧ p.rows[b]? = some (topK row.toList k) ∧
          ∀ c ∈ topK row.toList k, full.get b c.index = .ok c.score := by
  obtain ⟨plan, hplan, hcut⟩ := Plan.exists_cut hn hle hv
  obtain ⟨locals, hlocals, hmerge⟩ := merge_localTopK_ofColumns hcut hfull.filled hsize hcols hk hkn
  refine ⟨plan, hplan, locals, _, hlocals, hmerge, by rw [List.length_map, List.length_range], ?_⟩
  intro b hb
  refine ⟨full.line b, Tensor2.row_eq_line hfull.filled hsize hb, ?_, ?_⟩
  · rw [List.getElem?_map, List.getElem?_range hb]
    rfl
  · intro c hc
    have hscore := getElem?_of_mem_candidatesOf (mem_candidatesOf_of_mem_topK hc)
    rw [Array.getElem?_toList] at hscore
    exact Tensor2.get_of_line hfull.filled hsize hb hscore

/-- Five ids on two shards, with both zeros, a tie across the shards, an infinity and NaNs
of both signs. -/
theorem merge_localTopK_eq_topK_mixed :
    let full : Tensor2 Binary32 :=
      ⟨#[⟨0x80000000⟩, ⟨0⟩, ⟨0x80000000⟩, ⟨0⟩, ⟨0xffc00000⟩,
        ⟨0x7fc00001⟩, ⟨0xff800000⟩, ⟨0x3f800000⟩, ⟨0x3f800000⟩, ⟨0x7fc00001⟩], 2, 5⟩
    ∃ plan locals p, Plan.cut 5 2 = .ok plan ∧
      (plan.shards.mapM fun s => localTopK s (Logits.ofColumns full s) 2) = .ok locals ∧
      merge locals plan 2 = .ok p ∧ p.rows.length = 2 ∧
      ∀ b < 2, ∃ row, full.row b = .ok row ∧ p.rows[b]? = some (topK row.toList 2) ∧
        ∀ c ∈ topK row.toList 2, full.get b c.index = .ok c.score := by
  intro full
  have hfull : full.WellFormed := rfl
  obtain ⟨plan, hplan, locals, p, hmerged⟩ := merge_localTopK_eq_topK (v := 5) (n := 2) (k := 2)
    (by decide) (by decide) (by decide) hfull (by decide) rfl (by decide) (by decide)
  rw [Storage.reserve, ensure_of (by decide)] at hplan
  exact ⟨plan, locals, p, hplan, hmerged⟩

end ShardedModel
