import ShardedModel.Proofs.Arrivals
import ShardedModel.Proofs.Cut
import ShardedModel.Proofs.Faults
import ShardedModel.Proofs.Kernels

/-!
# Looking up shard by shard is looking up

A table that was cut along a plan has each of its rows in one slice. A shard answers for
a token with the row if it is its own and with zeros if not, so after the first `i` shards
have been summed, a token has its row if the row is below the bound of shard `i`, and zeros
if it is not. After the last shard every token has its row.

Of the numbers only one law is used: that zero added to an entry of the table, on either
side, leaves the entry as it is. Bit patterns have exceptions to it, so it is asked for the
entries of the table only. More generally zero may change an entry when it is added first and
never again, which `ZeroSettles` says; then the sum over two shards or more has the entries as
they are after that.
-/

namespace ShardedModel

open Outcome

variable {α : Type}

/-! ## Rows of a cut table -/

/-- The rows from `lo` up to but not including `hi`. -/
def Tensor2.rowRange (t : Tensor2 α) (lo hi : Nat) : Tensor2 α :=
  ⟨t.data.extract (lo * t.cols) (hi * t.cols), hi - lo, t.cols⟩

namespace Tensor2

variable {t : Tensor2 α} {lo hi : Nat}

theorem rows_end_le (h : t.Filled) (hle : hi ≤ t.rows) : hi * t.cols ≤ t.data.size :=
  Nat.le_trans (Nat.mul_le_mul_right _ hle) h

theorem rowSlice_of_lt (h : t.Filled) (hsize : t.data.size < Word.limit) (hlt : lo < hi)
    (hle : hi ≤ t.rows) : t.rowSlice lo hi = .ok (t.rowRange lo hi) := by
  have hstop := rows_end_le h hle
  have hstart : lo * t.cols ≤ hi * t.cols := Nat.mul_le_mul_right _ (Nat.le_of_lt hlt)
  rw [rowSlice, ensure_of ⟨hle, hlt⟩, ok_bind, Word.mul_of_lt (by omega), ok_bind,
    Word.mul_of_lt (by omega), ok_bind, Flat.slice_of_le hstart hstop]
  rfl

theorem wellFormed_rowRange (h : t.Filled) (hle : hi ≤ t.rows) :
    (t.rowRange lo hi).WellFormed := by
  show (t.data.extract _ _).size = _
  rw [Array.size_extract_of_le (rows_end_le h hle), ← Nat.sub_mul]
  rfl

theorem size_rowRange_le (h : t.Filled) (hle : hi ≤ t.rows) :
    (t.rowRange lo hi).data.size ≤ t.data.size := by
  rw [wellFormed_rowRange h hle]
  exact Nat.le_trans (Nat.mul_le_mul_right _ (Nat.le_trans (Nat.sub_le hi lo) hle)) h

theorem line_rowRange (hlt : lo < hi) {r : Nat} (hr : r < hi - lo) :
    (t.rowRange lo hi).line r = t.line (lo + r) := by
  have hend : (lo + r) * t.cols + t.cols ≤ hi * t.cols := by
    rw [← Nat.succ_mul]
    exact Nat.mul_le_mul_right _ (by omega)
  show (t.data.extract _ _).extract (r * t.cols) (r * t.cols + t.cols) = _
  rw [Array.extract_extract, ← Nat.add_assoc, ← Nat.add_mul, Nat.min_eq_left hend]
  rfl

end Tensor2

/-- The slice of shard `i` of a table that was cut into `n`. -/
def sliceAt (t : Tensor2 α) (v n i : Nat) : TableSlice α :=
  ⟨i, t.rowRange (Plan.bound v n i) (Plan.bound v n (i + 1))⟩

section Split

variable {plan : Plan} {v n : Nat} {table : Tensor2 α} {projection : Projection α}

/-- Room for the lists of a call is room for its slices. -/
theorem slices_room (h : Plan.listBytes * n < Word.signedLimit) :
    TableSlice.recordBytes * Storage.capacity n < Word.signedLimit := by
  have hcapacity := Storage.capacity_le n
  simp only [Plan.listBytes, TableSlice.recordBytes, Storage.wordBytes, Word.signedLimit] at h ⊢
  omega

/-- A slice takes more than its shard, so where the slices of a table have room the shards of its
plan have it too. -/
theorem shards_room (h : TableSlice.recordBytes * Storage.capacity n < Word.signedLimit) :
    Plan.shardBytes * n < Word.signedLimit :=
  Nat.lt_of_le_of_lt (Nat.mul_le_mul (by decide) (Storage.le_capacity n)) h

theorem rowSlice_shardAt (hplan : plan.CutOf v n) (h : table.Filled)
    (hsize : table.data.size < Word.limit) (hrows : table.rows = v) {shard : Shard}
    (hshard : shard ∈ plan.shards) :
    table.rowSlice shard.lo shard.hi = .ok (sliceAt table v n shard.id).table := by
  obtain ⟨i, hi, rfl⟩ := hplan.mem_shards.mp hshard
  rw [Plan.shardAt_lo hi]
  exact Tensor2.rowSlice_of_lt h hsize (hplan.bound_lt_succ hi) (hrows ▸ Plan.bound_le hi)

theorem splitTable_of_cut (hplan : plan.CutOf v n) (h : table.Filled)
    (hsize : table.data.size < Word.limit) (hrows : table.rows = v)
    (hroom : TableSlice.recordBytes * Storage.capacity n < Word.signedLimit) :
    splitTable table plan = .ok ((List.range n).map (sliceAt table v n)) := by
  have hcount : plan.shards.length = n := hplan.shardCount
  rw [splitTable, ensure_of (hrows.trans hplan.vocabSize.symm), ok_bind,
    Storage.collect_of_room (r := fun shard => sliceAt table v n shard.id) ?_ (hcount ▸ hroom)]
  · rw [hplan.shards, List.map_map]
    rfl
  · intro shard hshard
    rw [rowSlice_shardAt hplan h hsize hrows hshard]
    rfl

/-- Without room for the slices a table cannot be cut. -/
theorem splitTable_of_no_room (hplan : plan.CutOf v n) (h : table.Filled)
    (hsize : table.data.size < Word.limit) (hrows : table.rows = v)
    (hroom : ¬ TableSlice.recordBytes * Storage.capacity n < Word.signedLimit) :
    splitTable table plan = .error .fault := by
  have hcount : plan.shards.length = n := hplan.shardCount
  rw [splitTable, ensure_of (hrows.trans hplan.vocabSize.symm), ok_bind]
  refine Storage.collect_of_no_room ?_ (fun shard hshard => ?_) (hcount ▸ hroom)
  · exact List.ne_nil_of_length_pos (hcount ▸ hplan.pos)
  · rw [rowSlice_shardAt hplan h hsize hrows hshard]
    exact .ok _

/-- Where the slices of a table have no room, the table is not cut, whether it is the plan that
faults or the slices. -/
theorem cut_splitTable_of_no_room {β : Type} (h : table.Filled)
    (hsize : table.data.size < Word.limit) (hn : 1 ≤ n) (hle : n ≤ table.rows)
    (hv : table.rows < Word.limit)
    (hroom : ¬ TableSlice.recordBytes * Storage.capacity n < Word.signedLimit)
    (next : Plan → List (TableSlice α) → Outcome β) :
    (do
      let plan ← Plan.cut table.rows n
      let slices ← splitTable table plan
      next plan slices) = .error .fault := by
  by_cases hshards : Plan.shardBytes * n < Word.signedLimit
  · have hcut := Plan.cut_of_le hn hle hv hshards
    rw [hcut, ok_bind,
      splitTable_of_no_room (Plan.cutOf_of_cut hcut) h hsize rfl hroom]
    rfl
  · rw [Plan.cut_of_no_room hn hle hv hshards]
    rfl

theorem Parameters.slice_eq_ok {params : Parameters α} {i : Nat} {s : TableSlice α} :
    params.slice i = .ok s ↔ params.shards[i]? = some s ∧ s.shardId = i := by
  unfold slice
  split
  · next t ht =>
      split
      · next hid =>
          rw [ht, Except.ok.injEq, Option.some.injEq]
          exact ⟨fun h => ⟨h, h ▸ hid⟩, And.left⟩
      · next hid =>
          simp only [reduceCtorEq, false_iff]
          rintro ⟨h, rfl⟩
          exact hid (Option.some.inj (ht.symm.trans h) ▸ rfl)
  · next ht => simp [ht]

theorem slice_of_split {i : Nat} (hi : i < n) :
    Parameters.slice ⟨(List.range n).map (sliceAt table v n), projection⟩ i =
      .ok (sliceAt table v n i) :=
  Parameters.slice_eq_ok.mpr ⟨getElem?_map_range.mpr ⟨hi, rfl⟩, rfl⟩

theorem check_sliceAt (hplan : plan.CutOf v n) {i : Nat} (hi : i < n) :
    (sliceAt table v n i).check (Plan.shardAt v n i) = .ok () := by
  rw [TableSlice.check_eq_ok, Plan.shardAt_lo hi]
  exact ⟨rfl, Nat.le_of_lt (hplan.bound_lt_succ hi), rfl⟩

theorem check_whole (table : Tensor2 α) :
    (⟨0, table⟩ : TableSlice α).check (Plan.shardAt table.rows 1 0) = .ok () := by
  rw [TableSlice.check_eq_ok]
  simp [Plan.shardAt]

/-- Parameters pass the check against a cut if they have one slice for each shard, in order, with
as many rows as the shard has ids, and all of the dimension of the projection. -/
theorem Parameters.validate_eq_ok (hplan : plan.CutOf v n) {params : Parameters α} :
    params.validate plan = .ok () ↔ params.shards.length = n ∧
      ∀ i s, params.shards[i]? = some s → s.shardId = i ∧
        s.table.rows = Plan.bound v n (i + 1) - Plan.bound v n i ∧
        s.table.cols = params.projection.embeddingDim := by
  rw [validate, bind_eq_ok, hplan.shardCount]
  constructor
  · rintro ⟨⟨⟩, hlength, hshards⟩
    have hlength := ensure_eq_ok.mp hlength
    refine ⟨hlength, fun i s hs => ?_⟩
    obtain ⟨hi, -⟩ := List.getElem?_eq_some_iff.mp hs
    rw [hlength] at hi
    have hshard := forM_eq_ok.mp hshards _ (hplan.mem_shards.mpr ⟨i, hi, rfl⟩)
    obtain ⟨s', hs', hshard⟩ := bind_eq_ok.mp hshard
    obtain ⟨⟨⟩, hcheck, hdim⟩ := bind_eq_ok.mp hshard
    obtain ⟨hget, hid⟩ := slice_eq_ok.mp hs'
    obtain rfl : s = s' := Option.some.inj (hs.symm.trans hget)
    obtain ⟨-, -, hrows⟩ := TableSlice.check_eq_ok.mp hcheck
    rw [Plan.shardAt_lo hi, Plan.shardAt_hi] at hrows
    exact ⟨hid, hrows, ensure_eq_ok.mp hdim⟩
  · rintro ⟨hlength, hslices⟩
    refine ⟨(), ensure_of hlength, forM_eq_ok.mpr fun shard hshard => ?_⟩
    obtain ⟨i, hi, rfl⟩ := hplan.mem_shards.mp hshard
    have hs : params.shards[i]? = some (params.shards.get ⟨i, hlength ▸ hi⟩) :=
      List.getElem?_eq_getElem _
    obtain ⟨hid, hrows, hdim⟩ := hslices i _ hs
    have hcheck : TableSlice.check (params.shards.get ⟨i, hlength ▸ hi⟩) (Plan.shardAt v n i) =
        .ok () := by
      rw [TableSlice.check_eq_ok, Plan.shardAt_lo hi]
      exact ⟨hid, Plan.bound_le_succ hi, hrows⟩
    rw [checkShard, Plan.shardAt_id, slice_eq_ok.mpr ⟨hs, hid⟩, ok_bind, hcheck, ok_bind]
    exact ensure_of hdim

/-- A table that was cut along a plan passes the check of parameters against the plan if and only
if it has the dimension of the projection. -/
theorem validate_split (hplan : plan.CutOf v n) :
    Parameters.validate ⟨(List.range n).map (sliceAt table v n), projection⟩ plan = .ok () ↔
      table.cols = projection.embeddingDim := by
  rw [Parameters.validate_eq_ok hplan]
  constructor
  · rintro ⟨-, hslices⟩
    exact (hslices 0 (sliceAt table v n 0) (getElem?_map_range.mpr ⟨hplan.pos, rfl⟩)).2.2
  · intro hdim
    refine ⟨by rw [List.length_map, List.length_range], fun i s hs => ?_⟩
    obtain ⟨hi, rfl⟩ := getElem?_map_range.mp hs
    exact ⟨rfl, rfl, hdim⟩

theorem validate_of_split (hplan : plan.CutOf v n) (hdim : table.cols = projection.embeddingDim) :
    Parameters.validate ⟨(List.range n).map (sliceAt table v n), projection⟩ plan = .ok () :=
  (validate_split hplan).mpr hdim

end Split

/-! ## Sums line by line -/

/-- A stack with one line for each token of a batch. -/
def TokenBatch.stack (tokens : TokenBatch) (dim : Nat) (line : Int → Array α) : Tensor3 α :=
  ⟨Flat.concat (tokens.ids.map line), tokens.batch, tokens.seqLen, dim⟩

/-- The sum of the lines up to number `m`, entry by entry and from the first. -/
def sumLines [Add α] (lines : Nat → Array α) (m : Nat) : Array α :=
  (List.range m).foldl (fun sum i => Array.zipWith (· + ·) sum (lines (i + 1))) (lines 0)

section Lines

variable [Add α] {lines : Nat → Int → Array α} {dim m : Nat}

theorem zipWith_replicate_right {f g : α → α} {x : α} {xs : Array α}
    (h : ∀ y ∈ xs, f y + x = g y) :
    Array.zipWith (· + ·) (xs.map f) (Array.replicate xs.size x) = xs.map g := by
  refine Array.ext (by simp) fun j hj hj' => ?_
  rw [Array.getElem_zipWith, Array.getElem_replicate, Array.getElem_map, Array.getElem_map]
  exact h _ (Array.getElem_mem _)

theorem zipWith_replicate_left {g : α → α} {x : α} {xs : Array α} (h : ∀ y ∈ xs, x + y = g y) :
    Array.zipWith (· + ·) (Array.replicate xs.size x) xs = xs.map g := by
  refine Array.ext (by simp) fun j hj hj' => ?_
  rw [Array.getElem_zipWith, Array.getElem_replicate, Array.getElem_map]
  exact h _ (Array.getElem_mem _)

theorem zipWith_concat {β : Type} {f g : β → Array α} {xs : List β}
    (h : ∀ x ∈ xs, (f x).size = (g x).size) :
    Array.zipWith (· + ·) (Flat.concat (xs.map f)) (Flat.concat (xs.map g)) =
      Flat.concat (xs.map fun x => Array.zipWith (· + ·) (f x) (g x)) := by
  induction xs with
  | nil => simp
  | cons x xs ih =>
      rw [List.map_cons, List.map_cons, List.map_cons, Flat.concat_cons, Flat.concat_cons,
        Flat.concat_cons, Array.zipWith_append (h x List.mem_cons_self),
        ih fun y hy => h y (List.mem_cons_of_mem x hy)]

theorem sumLines_succ (lines : Nat → Array α) (m : Nat) :
    sumLines lines (m + 1) = Array.zipWith (· + ·) (sumLines lines m) (lines (m + 1)) := by
  rw [sumLines, List.range_succ, List.foldl_append]
  rfl

theorem size_sumLines {lines : Nat → Array α} (h : ∀ i ≤ m, (lines i).size = dim) :
    (sumLines lines m).size = dim := by
  induction m with
  | zero => exact h 0 (Nat.le_refl 0)
  | succ m ih =>
      rw [sumLines_succ, Array.size_zipWith, ih fun i hi => h i (Nat.le_succ_of_le hi),
        h (m + 1) (Nat.le_refl _), Nat.min_self]

theorem add_stack (tokens : TokenBatch) {f g : Int → Array α}
    (h : ∀ id ∈ tokens.ids, (f id).size = (g id).size) :
    (tokens.stack dim f).add (tokens.stack dim g) =
      .ok (tokens.stack dim fun id => Array.zipWith (· + ·) (f id) (g id)) := by
  have hshape : (tokens.stack dim f).shape = (tokens.stack dim g).shape := rfl
  rw [Tensor3.add, ensure_of hshape, ok_bind, TokenBatch.stack, TokenBatch.stack, TokenBatch.stack,
    zipWith_concat h]

/-- Summing the stacks of shards is summing line by line. -/
theorem foldlM_stack (tokens : TokenBatch) (h : ∀ i ≤ m, ∀ id, (lines i id).size = dim) :
    ((List.range m).map fun i => (⟨i + 1, tokens.stack dim (lines (i + 1))⟩ : Gathered α)).foldlM
      (fun sum r => sum.add r.embeddings) (tokens.stack dim (lines 0)) =
      .ok (tokens.stack dim fun id => sumLines (lines · id) m) := by
  induction m with
  | zero => rfl
  | succ m ih =>
      have hsizes : ∀ id ∈ tokens.ids,
          (sumLines (lines · id) m).size = (lines (m + 1) id).size := by
        intro id _
        rw [size_sumLines fun i hi => h i (Nat.le_succ_of_le hi) id, h (m + 1) (Nat.le_refl _)]
      rw [List.range_succ, List.map_append, List.foldlM_append,
        ih fun i hi => h i (Nat.le_succ_of_le hi), ok_bind]
      simp only [sumLines_succ]
      exact congrArg (· >>= _) (add_stack tokens hsizes)

theorem combine_stack {plan : Plan} {v n : Nat} (hplan : plan.CutOf v n) (tokens : TokenBatch)
    (h : ∀ i < n, ∀ id, (lines i id).size = dim) :
    combine ((List.range n).map fun i => ⟨i, tokens.stack dim (lines i)⟩) plan =
      .ok (tokens.stack dim fun id => sumLines (lines · id) (n - 1)) := by
  obtain ⟨m, rfl⟩ : ∃ m, n = m + 1 := ⟨n - 1, (Nat.sub_add_cancel hplan.pos).symm⟩
  have horder : ((List.range (m + 1)).map fun i =>
      (⟨i, tokens.stack dim (lines i)⟩ : Gathered α)).map (·.shardId) = List.range (m + 1) := by
    rw [List.map_map]
    exact List.map_id _
  rw [combine, hplan.shardCount, orderByShard_of_range horder, ok_bind, List.range_succ_eq_map,
    List.map_cons, List.map_map]
  exact foldlM_stack tokens fun i hi => h i (Nat.lt_succ_of_le hi)

end Lines

/-! ## What a shard hands in -/

/-- The id in the vocabulary that stands for `id`. -/
def tokenId (v : Nat) (id : Int) : Nat := (max 0 (min id (Word.toSigned (v - 1)))).toNat

theorem toSigned_of_lt {m : Nat} (h : m < Word.signedLimit) : Word.toSigned m = m := by
  rw [Word.signedLimit] at h
  rw [Word.toSigned, Word.limit, Int.bmod]
  omega

theorem clampToVocab_of_le {v : Nat} (hv : v ≤ Word.signedLimit) (hpos : 0 < v) (id : Int) :
    clampToVocab id v = .ok (tokenId v id) ∧ tokenId v id < v := by
  have hlast : v - 1 < Word.signedLimit := by omega
  rw [clampToVocab, tokenId, toSigned_of_lt hlast]
  refine ⟨if_pos (Int.natCast_nonneg _), ?_⟩
  omega

variable [Zero α]

/-- The row of a token if it lies in a range, and zeros if not. -/
def rowWithin (t : Tensor2 α) (lo hi row : Nat) : Array α :=
  if lo ≤ row ∧ row < hi then t.line row else Array.replicate t.cols 0

theorem size_rowWithin {t : Tensor2 α} (h : t.Filled) {lo hi row : Nat} (hhi : hi ≤ t.rows) :
    (rowWithin t lo hi row).size = t.cols := by
  unfold rowWithin
  split
  · next hin => exact Tensor2.size_line h (Nat.lt_of_lt_of_le hin.2 hhi)
  · exact Array.size_replicate

/-- The rows with the given indices one after the other, with zeros for those outside of a
range. -/
def linesWithin (t : Tensor2 α) (rows : List Nat) (lo hi : Nat) : Array α :=
  Flat.concat (rows.map (rowWithin t lo hi))

theorem size_linesWithin {t : Tensor2 α} (h : t.Filled) {lo hi : Nat} (hhi : hi ≤ t.rows)
    (rows : List Nat) : (linesWithin t rows lo hi).size = rows.length * t.cols := by
  rw [linesWithin, Flat.size_concat (c := t.cols), List.length_map]
  intro part hpart
  obtain ⟨row, -, rfl⟩ := List.mem_map.mp hpart
  exact size_rowWithin h hhi

section Gather

variable {plan : Plan} {v n i : Nat} {table : Tensor2 α}

/-- The row of shard `i` that is nearest to an id. -/
def nearestRow (v n i : Nat) (id : Int) : Nat :=
  max (Plan.bound v n i) (min (tokenId v id) (Plan.bound v n (i + 1) - 1)) - Plan.bound v n i

theorem localRow_eq_nearestRow (hplan : plan.CutOf v n) (hv : v ≤ Word.signedLimit) (hi : i < n)
    (id : Int) :
    localRow (Plan.shardAt v n i) id =
      .ok (nearestRow v n i id, (Plan.shardAt v n i).contains (tokenId v id)) := by
  have hlt := hplan.bound_lt_succ hi
  obtain ⟨hclamp, -⟩ := clampToVocab_of_le hv (Nat.lt_of_lt_of_le hplan.pos hplan.le) id
  rw [localRow, Plan.shardAt_vocabSize, hclamp, ok_bind, Plan.shardAt_lo hi, Plan.shardAt_hi,
    Word.sub_of_le (by omega), ok_bind, Word.clamp_of_le (by omega), ok_bind,
    Word.sub_of_le (Nat.le_max_left _ _), ok_bind]
  rfl

theorem nearestRow_lt (hplan : plan.CutOf v n) (hi : i < n) (id : Int) :
    nearestRow v n i id < Plan.bound v n (i + 1) - Plan.bound v n i := by
  have hlt := hplan.bound_lt_succ hi
  unfold nearestRow
  omega

/-- The nearest row of an id that is in the range is the row of the id. -/
theorem bound_add_nearestRow {id : Int} (hlo : Plan.bound v n i ≤ tokenId v id)
    (hhi : tokenId v id < Plan.bound v n (i + 1)) :
    Plan.bound v n i + nearestRow v n i id = tokenId v id := by
  unfold nearestRow
  omega

/-- What shard `i` hands in for a token: the row of its slice if the token is its own, and zeros
if not. -/
def ownRow (table : Tensor2 α) (v n i : Nat) (id : Int) : Array α :=
  if (Plan.shardAt v n i).contains (tokenId v id) then
    table.line (tokenId v id - Plan.bound v n i)
  else
    Array.replicate table.cols 0

theorem size_ownRow (hi : i < n) (h : table.Filled)
    (hrows : table.rows = Plan.bound v n (i + 1) - Plan.bound v n i) (id : Int) :
    (ownRow table v n i id).size = table.cols := by
  unfold ownRow
  split
  · next hin =>
      have hrange := (Plan.contains_shardAt hi).mp hin
      exact Tensor2.size_line h (by omega)
  · exact Array.size_replicate

/-- What a token gets from a shard, whose slice is all there. -/
theorem exists_located (hplan : plan.CutOf v n) (hv : v ≤ Word.signedLimit) (hi : i < n)
    (h : table.Filled) (hsize : table.data.size < Word.limit)
    (hrows : table.rows = Plan.bound v n (i + 1) - Plan.bound v n i) (id : Int) :
    ∃ located, localRow (Plan.shardAt v n i) id = .ok located ∧
      maskedRow table located.1 located.2 = .ok (ownRow table v n i id) := by
  refine ⟨_, localRow_eq_nearestRow hplan hv hi id, ?_⟩
  have hin : nearestRow v n i id < table.rows := hrows ▸ nearestRow_lt hplan hi id
  dsimp only
  rw [maskedRow, Tensor2.tableRow, ensure_of hin, ok_bind, Tensor2.row_eq_line h hsize hin,
    ok_bind, ownRow]
  split
  · next howns =>
      obtain ⟨hlo, hhi⟩ := (Plan.contains_shardAt hi).mp howns
      rw [← bound_add_nearestRow hlo hhi, Nat.add_sub_cancel_left]
  · rfl

/-- What a shard hands in, when its slice is all there. -/
theorem gather_of_filled (hplan : plan.CutOf v n) (hv : v ≤ Word.signedLimit) (hi : i < n)
    {slice : TableSlice α} (hcheck : slice.check (Plan.shardAt v n i) = .ok ())
    (h : slice.table.Filled) (hsize : slice.table.data.size < Word.limit) {tokens : TokenBatch}
    (hids : tokens.ids.length = tokens.batch * tokens.seqLen)
    (hlines : tokens.batch * tokens.seqLen < Word.limit)
    (hroom : Storage.entryBytes * (tokens.batch * tokens.seqLen * slice.table.cols) <
      Word.signedLimit) :
    gather (Plan.shardAt v n i) slice tokens =
      .ok ⟨i, ⟨Flat.concat (tokens.ids.map (ownRow slice.table v n i)), tokens.batch,
        tokens.seqLen, slice.table.cols⟩⟩ := by
  have hcount : tokens.batch * tokens.seqLen * slice.table.cols < Word.limit :=
    Flat.count_lt (by decide) hroom
  have hrows : slice.table.rows = Plan.bound v n (i + 1) - Plan.bound v n i := by
    rw [(TableSlice.check_eq_ok.mp hcheck).2.2, Plan.shardAt_lo hi, Plan.shardAt_hi]
  -- What a token gets depends on it alone, so the two passes over the tokens are one.
  have hrow := exists_located hplan hv hi h hsize hrows
  obtain ⟨located, hlocated⟩ : ∃ located,
      tokens.ids.mapM (localRow (Plan.shardAt v n i)) = .ok located :=
    mapM_of_forall fun id _ => (hrow id).imp fun _ => And.left
  have hall := mapM_eq_ok.mp hlocated
  have hmasked : (located.mapM fun e => maskedRow slice.table e.1 e.2) =
      .ok (tokens.ids.map (ownRow slice.table v n i)) := by
    rw [mapM_eq_ok, List.forall₂_map_right_iff]
    refine hall.flip.imp fun e id hid => ?_
    obtain ⟨e', he', hmasked⟩ := hrow id
    obtain rfl : e' = e := Except.ok.inj (he'.symm.trans hid)
    exact hmasked
  have hlocatedRoom : Flat.room located.length slice.table.cols =
      .ok (tokens.batch * tokens.seqLen * slice.table.cols) := by
    rw [← hall.length_eq, hids]
    exact Flat.room_eq_ok.mpr ⟨hcount, hroom, rfl⟩
  have hfill : (Flat.concat (tokens.ids.map (ownRow slice.table v n i))).size =
      tokens.batch * tokens.seqLen * slice.table.cols := by
    rw [Flat.size_concat (c := slice.table.cols), List.length_map, hids]
    intro part hpart
    obtain ⟨id, -, rfl⟩ := List.mem_map.mp hpart
    exact size_ownRow hi h hrows id
  have hstack := Tensor3.ofData_of_size hlines hcount hfill
  rw [gather, hcheck, ok_bind, hlocated, ok_bind, hlocatedRoom, ok_bind]
  refine (congrArg (· >>= _) hmasked).trans ?_
  rw [ok_bind]
  exact congrArg (· >>= _) hstack

/-- A row of a slice is a row of the table that was cut. -/
theorem ownRow_sliceAt (hplan : plan.CutOf v n) (hi : i < n) (table : Tensor2 α) (id : Int) :
    ownRow (sliceAt table v n i).table v n i id =
      rowWithin table (Plan.bound v n i) (Plan.bound v n (i + 1)) (tokenId v id) := by
  unfold ownRow rowWithin
  by_cases hin : (Plan.shardAt v n i).contains (tokenId v id) = true
  · have hrange := (Plan.contains_shardAt hi).mp hin
    have hline := Tensor2.line_rowRange (t := table) (hplan.bound_lt_succ hi)
      (r := tokenId v id - Plan.bound v n i) (by omega)
    rw [if_pos hin, if_pos hrange]
    refine hline.trans ?_
    rw [Nat.add_sub_cancel' hrange.1]
  · rw [if_neg hin, if_neg (mt (Plan.contains_shardAt hi).mpr hin)]
    rfl

/-- The embeddings of a batch, with zeros for tokens outside of a range. -/
def embeddingsWithin (table : Tensor2 α) (tokens : TokenBatch) (lo hi : Nat) : Tensor3 α :=
  ⟨linesWithin table (tokens.ids.map (tokenId table.rows)) lo hi, tokens.batch, tokens.seqLen,
    table.cols⟩

theorem wellFormed_embeddingsWithin (h : table.Filled) {tokens : TokenBatch}
    (hids : tokens.ids.length = tokens.batch * tokens.seqLen) {lo hi : Nat}
    (hhi : hi ≤ table.rows) :
    (embeddingsWithin table tokens lo hi).WellFormed := by
  show (linesWithin _ _ _ _).size = _
  rw [size_linesWithin h hhi, List.length_map, hids]
  rfl

/-- What shard `i` hands in. -/
theorem gather_sliceAt (hplan : plan.CutOf v n) (hv : v ≤ Word.signedLimit) (hi : i < n)
    (h : table.Filled) (hsize : table.data.size < Word.limit) (hrows : table.rows = v)
    {tokens : TokenBatch} (hids : tokens.ids.length = tokens.batch * tokens.seqLen)
    (hlines : tokens.batch * tokens.seqLen < Word.limit)
    (hroom : Storage.entryBytes * (tokens.batch * tokens.seqLen * table.cols) < Word.signedLimit) :
    gather (Plan.shardAt v n i) (sliceAt table v n i) tokens =
      .ok ⟨i, embeddingsWithin table tokens (Plan.bound v n i) (Plan.bound v n (i + 1))⟩ := by
  subst hrows
  have hle : Plan.bound table.rows n (i + 1) ≤ table.rows := Plan.bound_le hi
  rw [gather_of_filled hplan hv hi (check_sliceAt hplan hi)
    (Tensor2.wellFormed_rowRange h hle).filled
    (Nat.lt_of_le_of_lt (Tensor2.size_rowRange_le h hle) hsize) hids hlines hroom,
    embeddingsWithin, linesWithin, List.map_map,
    List.map_congr_left fun id _ => ownRow_sliceAt hplan hi table id]
  rfl

end Gather

/-! ## The sum over the shards -/

/-- Zero and the numbers of `Plain` can be added to zero from both sides. -/
structure ZeroNeutral (Plain : α → Prop) [Add α] : Prop where
  zero : Plain 0
  add_zero : ∀ x, Plain x → x + 0 = x
  zero_add : ∀ x, Plain x → 0 + x = x

/-- A number of `Plain` to which zero is added, from either side, becomes what `settle` says, and
then stays as it is. -/
structure ZeroSettles (Plain : α → Prop) (settle : α → α) [Add α] : Prop where
  zero : Plain 0
  settle_zero : settle 0 = 0
  add_zero : ∀ x, Plain x → x + 0 = settle x
  zero_add : ∀ x, Plain x → 0 + x = settle x
  settled : ∀ x, Plain x → settle x + 0 = settle x

section Sum

variable [Add α] {Plain : α → Prop} {settle : α → α} {table : Tensor2 α} {lo mid hi : Nat}

theorem ZeroNeutral.settles (h : ZeroNeutral Plain) : ZeroSettles Plain id :=
  ⟨h.zero, rfl, h.add_zero, h.zero_add, h.add_zero⟩

/-- Summing what two adjacent ranges hand in is handing in for both. What the first has handed in
may have settled by then. -/
theorem rowWithin_add (hsettles : ZeroSettles Plain settle) (hplain : ∀ x ∈ table.data, Plain x)
    (h : table.Filled) (hlo : lo ≤ mid) (hmid : mid ≤ hi) (hhi : hi ≤ table.rows) {f : α → α}
    (hf : ∀ x, Plain x → f x + 0 = settle x) (hzero : f 0 = 0) (row : Nat) :
    Array.zipWith (· + ·) ((rowWithin table lo mid row).map f) (rowWithin table mid hi row) =
      (rowWithin table lo hi row).map settle := by
  have hline : ∀ x ∈ table.line row, Plain x := by
    intro x hx
    obtain ⟨j, hj, rfl⟩ := Array.mem_extract_iff_getElem.mp hx
    exact hplain _ (Array.getElem_mem _)
  unfold rowWithin
  by_cases hfirst : lo ≤ row ∧ row < mid
  · have hsize := Tensor2.size_line h (Nat.lt_of_lt_of_le hfirst.2 (Nat.le_trans hmid hhi))
    rw [if_pos hfirst, if_neg (by omega), if_pos (by omega), ← hsize]
    exact zipWith_replicate_right fun x hx => hf x (hline x hx)
  by_cases hsecond : mid ≤ row ∧ row < hi
  · have hsize := Tensor2.size_line h (Nat.lt_of_lt_of_le hsecond.2 hhi)
    rw [if_neg hfirst, if_pos hsecond, if_pos (by omega), ← hsize, Array.map_replicate, hzero]
    exact zipWith_replicate_left fun x hx => hsettles.zero_add x (hline x hx)
  · rw [if_neg hfirst, if_neg hsecond, if_neg (by omega), Array.map_replicate, hzero,
      Array.zipWith_replicate, Nat.min_self, hsettles.zero_add 0 hsettles.zero,
      Array.map_replicate]

/-- What the first shards hand in for a token, from the second on: its row if they have it, with
entries that have settled. -/
theorem sumLines_rowWithin (hsettles : ZeroSettles Plain settle)
    (hplain : ∀ x ∈ table.data, Plain x) (h : table.Filled) (row : Nat) {n m : Nat}
    (hm : m + 1 < n) :
    sumLines (fun i => rowWithin table (Plan.bound table.rows n i)
        (Plan.bound table.rows n (i + 1)) row) (m + 1) =
      (rowWithin table 0 (Plan.bound table.rows n (m + 2)) row).map settle := by
  -- Only the first addition meets entries that have not settled.
  induction m with
  | zero =>
      have hfirst := rowWithin_add (f := id) hsettles hplain h (Nat.zero_le _)
        (Plan.bound_le_succ hm) (Plan.bound_le hm) hsettles.add_zero rfl row
      rw [Array.map_id] at hfirst
      rw [sumLines_succ, ← hfirst]
      show Array.zipWith _ (rowWithin table (Plan.bound table.rows n 0) _ row) _ = _
      rw [Plan.bound_zero (by omega)]
  | succ m ih =>
      rw [sumLines_succ, ih (by omega)]
      exact rowWithin_add hsettles hplain h (Nat.zero_le _) (Plan.bound_le_succ hm)
        (Plan.bound_le hm) hsettles.settled hsettles.settle_zero row

/-- The contributions of all shards. -/
def contributions (table : Tensor2 α) (tokens : TokenBatch) (n : Nat) : List (Gathered α) :=
  (List.range n).map fun i => ⟨i, embeddingsWithin table tokens (Plan.bound table.rows n i)
    (Plan.bound table.rows n (i + 1))⟩

omit [Add α] in
theorem embeddingsWithin_eq_stack (table : Tensor2 α) (tokens : TokenBatch) (lo hi : Nat) :
    embeddingsWithin table tokens lo hi =
      tokens.stack table.cols fun id => rowWithin table lo hi (tokenId table.rows id) := by
  rw [embeddingsWithin, linesWithin, List.map_map]
  rfl

/-- The sum of the contributions has for every token its row. With one shard nothing is added and
the entries are those of the table, with more they have settled. -/
theorem combine_settled {plan : Plan} {n : Nat} (hplan : plan.CutOf table.rows n)
    (hsettles : ZeroSettles Plain settle) (hplain : ∀ x ∈ table.data, Plain x) (h : table.Filled)
    (tokens : TokenBatch) :
    combine (contributions table tokens n) plan = .ok (tokens.stack table.cols fun token =>
      (rowWithin table 0 table.rows (tokenId table.rows token)).map
        (if n = 1 then id else settle)) := by
  have hsizes : ∀ i < n, ∀ token : Int, (rowWithin table (Plan.bound table.rows n i)
      (Plan.bound table.rows n (i + 1)) (tokenId table.rows token)).size = table.cols :=
    fun i hi _ => size_rowWithin h (Plan.bound_le hi)
  unfold contributions
  simp only [embeddingsWithin_eq_stack]
  rw [combine_stack hplan tokens hsizes]
  congr 2
  funext token
  obtain rfl | ⟨m, rfl⟩ : n = 1 ∨ ∃ m, n = m + 2 := by
    have hpos := hplan.pos
    by_cases hone : n = 1
    · exact .inl hone
    · exact .inr ⟨n - 2, by omega⟩
  · rw [if_pos rfl, Array.map_id]
    show rowWithin table (Plan.bound table.rows 1 0) (Plan.bound table.rows 1 1) _ = _
    rw [Plan.bound_zero Nat.one_pos, Plan.bound_self]
  · rw [if_neg (by omega)]
    show sumLines _ (m + 1) = _
    rw [sumLines_rowWithin hsettles hplain h _ (Nat.lt_succ_self _), Plan.bound_self]

/-- The sum of the contributions is the embedding of every token. -/
theorem combine_contributions {plan : Plan} {n : Nat} (hplan : plan.CutOf table.rows n)
    (hzero : ZeroNeutral Plain) (hplain : ∀ x ∈ table.data, Plain x) (h : table.Filled)
    (tokens : TokenBatch) :
    combine (contributions table tokens n) plan =
      .ok (embeddingsWithin table tokens 0 table.rows) := by
  rw [combine_settled hplan hzero.settles hplain h tokens, ite_self, embeddingsWithin_eq_stack]
  simp only [Array.map_id]

end Sum

/-! ## The lookup in the whole table -/

/-- The embeddings of a batch, looked up in the whole table. -/
def embed (table : Tensor2 α) (tokens : TokenBatch) : Outcome (Tensor3 α) := do
  let ids ← tokens.ids.mapM (clampToVocab · table.rows)
  let rows ← table.gatherRows ids
  Tensor3.ofData rows.data tokens.batch tokens.seqLen table.cols

theorem embed_eq_ok {table : Tensor2 α} (h : table.Filled)
    (hsize : table.data.size < Word.limit) (hpos : 0 < table.rows)
    (hv : table.rows ≤ Word.signedLimit) {tokens : TokenBatch}
    (hids : tokens.ids.length = tokens.batch * tokens.seqLen)
    (hlines : tokens.batch * tokens.seqLen < Word.limit)
    (hroom : Storage.entryBytes * (tokens.batch * tokens.seqLen * table.cols) < Word.signedLimit) :
    embed table tokens = .ok (embeddingsWithin table tokens 0 table.rows) := by
  have hcount : tokens.batch * tokens.seqLen * table.cols < Word.limit :=
    Flat.count_lt (by decide) hroom
  have hclamp : tokens.ids.mapM (clampToVocab · table.rows) =
      .ok (tokens.ids.map (tokenId table.rows)) :=
    mapM_eq_ok_map fun id _ => (clampToVocab_of_le hv hpos id).1
  have hrows : (tokens.ids.map (tokenId table.rows)).mapM table.tableRow =
      .ok ((tokens.ids.map (tokenId table.rows)).map (rowWithin table 0 table.rows)) := by
    refine mapM_eq_ok_map fun row hrow => ?_
    obtain ⟨id, -, rfl⟩ := List.mem_map.mp hrow
    have hlt := (clampToVocab_of_le hv hpos id).2
    rw [Tensor2.tableRow, ensure_of hlt, ok_bind, Tensor2.row_eq_line h hsize hlt, rowWithin,
      if_pos ⟨Nat.zero_le _, hlt⟩]
  have hroom' : Flat.room (tokens.ids.map (tokenId table.rows)).length table.cols =
      .ok (tokens.batch * tokens.seqLen * table.cols) := by
    rw [List.length_map, hids]
    exact Flat.room_eq_ok.mpr ⟨hcount, hroom, rfl⟩
  have hfill : (embeddingsWithin table tokens 0 table.rows).WellFormed :=
    wellFormed_embeddingsWithin h hids (Nat.le_refl _)
  rw [embed, hclamp, ok_bind, Tensor2.gatherRows, hroom', ok_bind, hrows]
  exact Tensor3.ofData_of_size hlines hcount hfill

end ShardedModel
