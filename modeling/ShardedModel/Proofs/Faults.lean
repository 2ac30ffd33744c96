import ShardedModel.Prediction
import ShardedModel.Proofs.Tensor

/-!
# What can fail besides a fault

Once its slice has been checked, a shard has few ways to refuse its work. Looking up
tokens can refuse the shape of the batch, and scoring can refuse the dimension of the
hidden vectors, but neither depends on which shard it is: the shards have the same
dimension, so where one refuses all do. Everything else that can happen to a shard,
from an id that no word holds to a block without room, is a fault.

This is what decides between several shards that fail in one call.
-/

namespace ShardedModel

open Outcome

variable {α : Type}

/-! ## Storage -/

namespace Flat

theorem slice_eq_ok {data part : Array α} {start stop : Nat}
    (h : slice data start stop = .ok part) :
    start ≤ stop ∧ stop ≤ data.size ∧ data.extract start stop = part := by
  unfold slice at h
  split at h
  · next hin => exact ⟨hin.1, hin.2, Except.ok.inj h⟩
  · cases h

theorem slice_onlyFaults (data : Array α) (start stop : Nat) :
    (slice data start stop).OnlyFaults := by
  unfold slice
  split
  · exact .ok _
  · exact .fault

theorem room_onlyFaults (rows cols : Nat) : (room rows cols).OnlyFaults :=
  .bind (Word.check_onlyFaults _) fun _ _ => .bind (.ensure _) fun _ _ => .ok _

theorem room_of_no_room {rows cols : Nat}
    (h : ¬ Storage.entryBytes * (rows * cols) < Word.signedLimit) :
    room rows cols = .error .fault :=
  (room_onlyFaults rows cols).eq_fault fun _ hcount => h (room_eq_ok.mp hcount).2.1

end Flat

namespace Tensor2

theorem row_onlyFaults (t : Tensor2 α) (b : Nat) : (t.row b).OnlyFaults :=
  .bind (Word.check_onlyFaults _) fun _ _ => .bind (Word.check_onlyFaults _) fun _ _ =>
    Flat.slice_onlyFaults _ _ _

theorem size_of_row {t : Tensor2 α} {b : Nat} {xs : Array α} (h : t.row b = .ok xs) :
    xs.size = t.cols := by
  obtain ⟨start, -, h⟩ := bind_eq_ok.mp h
  obtain ⟨stop, hstop, h⟩ := bind_eq_ok.mp h
  obtain ⟨-, rfl⟩ := Word.check_eq_ok.mp hstop
  obtain ⟨-, hle, rfl⟩ := Flat.slice_eq_ok h
  rw [Array.size_extract_of_le hle, Nat.add_sub_cancel_left]

theorem transpose_onlyFaults [Zero α] (t : Tensor2 α) : t.transpose.OnlyFaults :=
  .bind (.ensure _) fun _ _ => .ok _

/-- A transposed tensor has the dimensions the other way round. -/
theorem transpose_dims [Zero α] {t u : Tensor2 α} (h : t.transpose = .ok u) :
    u.rows = t.cols ∧ u.cols = t.rows := by
  obtain ⟨-, -, h⟩ := bind_eq_ok.mp h
  rw [← Except.ok.inj h]
  exact ⟨rfl, rfl⟩

variable [Zero α] [Add α] [Mul α]

theorem matmul_onlyFaults {a b : Tensor2 α} (h : a.cols = b.rows) : (a.matmul b).OnlyFaults := by
  rw [matmul, ensure_of h, ok_bind]
  exact .bind (Flat.room_onlyFaults _ _) fun _ _ => .bind (.ensure _) fun _ _ => .ok _

theorem matmul_dims {a b c : Tensor2 α} (h : a.matmul b = .ok c) :
    c.rows = a.rows ∧ c.cols = b.cols := by
  obtain ⟨⟨⟩, -, h⟩ := bind_eq_ok.mp h
  obtain ⟨-, -, h⟩ := bind_eq_ok.mp h
  obtain ⟨⟨⟩, -, h⟩ := bind_eq_ok.mp h
  rw [← Except.ok.inj h]
  exact ⟨rfl, rfl⟩

theorem matmul_eq_ok {a b c : Tensor2 α} (h : a.matmul b = .ok c) :
    Storage.entryBytes * (a.rows * b.cols) < Word.signedLimit ∧
      (0 < a.rows → a.Filled ∧ b.Filled) := by
  obtain ⟨⟨⟩, -, h⟩ := bind_eq_ok.mp h
  obtain ⟨count, hroom, h⟩ := bind_eq_ok.mp h
  obtain ⟨⟨⟩, hfilled, -⟩ := bind_eq_ok.mp h
  refine ⟨(Flat.room_eq_ok.mp hroom).2.1, fun hpos => ?_⟩
  exact (ensure_eq_ok.mp hfilled).resolve_left (Nat.ne_of_gt hpos)

end Tensor2

/-! ## Looking up -/

theorem TableSlice.check_eq_ok {slice : TableSlice α} {shard : Shard} {u : Unit} :
    slice.check shard = .ok u ↔ slice.shardId = shard.id ∧ shard.lo ≤ shard.hi ∧
      slice.table.rows = shard.hi - shard.lo := by
  rw [check, bind_eq_ok]
  constructor
  · rintro ⟨⟨⟩, howner, h⟩
    obtain ⟨width, hwidth, h⟩ := bind_eq_ok.mp h
    obtain ⟨hle, rfl⟩ := Word.sub_eq_ok.mp hwidth
    exact ⟨ensure_eq_ok.mp howner, hle, ensure_eq_ok.mp h⟩
  · rintro ⟨howner, hle, hrows⟩
    refine ⟨(), ensure_of howner, ?_⟩
    rw [Shard.width, Word.sub_of_le hle, ok_bind, ensure_of hrows]

theorem localRow_onlyFaults (shard : Shard) (id : Int) : (localRow shard id).OnlyFaults := by
  refine .bind ?_ fun _ _ => .bind (Word.sub_onlyFaults _ _) fun _ _ => .bind ?_ fun _ _ =>
    .bind (Word.sub_onlyFaults _ _) fun _ _ => .ok _
  · unfold clampToVocab
    dsimp only
    split
    · exact .ok _
    · exact .fault
  · unfold Word.clamp
    split
    · exact .ok _
    · exact .fault

/-- A shard looks up one of its own rows, whatever the token. -/
theorem row_lt_of_localRow {shard : Shard} {id : Int} {row : Nat} {owned : Bool}
    (h : localRow shard id = .ok (row, owned)) : row < shard.hi - shard.lo := by
  obtain ⟨token, -, h⟩ := bind_eq_ok.mp h
  obtain ⟨last, hlast, h⟩ := bind_eq_ok.mp h
  obtain ⟨hpos, rfl⟩ := Word.sub_eq_ok.mp hlast
  obtain ⟨clamped, hclamped, h⟩ := bind_eq_ok.mp h
  obtain ⟨r, hr, h⟩ := bind_eq_ok.mp h
  obtain ⟨-, rfl⟩ := Word.sub_eq_ok.mp hr
  obtain ⟨rfl, -⟩ := Prod.mk.inj (Except.ok.inj h)
  unfold Word.clamp at hclamped
  split at hclamped
  · next hle =>
      rw [← Except.ok.inj hclamped]
      omega
  · cases hclamped

section Gather

variable [Zero α]

theorem maskedRow_onlyFaults {table : Tensor2 α} {row : Nat} (h : row < table.rows)
    (owned : Bool) : (maskedRow table row owned).OnlyFaults := by
  rw [maskedRow, Tensor2.tableRow, ensure_of h]
  exact .bind (table.row_onlyFaults row) fun _ _ => .ok _

theorem size_maskedRow {table : Tensor2 α} {row : Nat} {owned : Bool} {xs : Array α}
    (h : maskedRow table row owned = .ok xs) : xs.size = table.cols := by
  obtain ⟨ys, hys, h⟩ := bind_eq_ok.mp h
  obtain ⟨⟨⟩, -, hrow⟩ := bind_eq_ok.mp hys
  rw [← Except.ok.inj h]
  split
  · exact Tensor2.size_of_row hrow
  · exact Array.size_replicate

/-- The rows that a shard puts together fill as many lines as there are tokens. -/
theorem size_concat_maskedRow {table : Tensor2 α} {located : List (Nat × Bool)}
    {rows : List (Array α)}
    (h : (located.mapM fun (row, owned) => maskedRow table row owned) = .ok rows) :
    (Flat.concat rows).size = located.length * table.cols := by
  have hall := mapM_eq_ok.mp h
  rw [Flat.size_concat (c := table.cols), hall.length_eq]
  intro xs hxs
  obtain ⟨at', -, hat⟩ := exists_of_forall₂ hall.flip hxs
  exact size_maskedRow hat

/-- The ids of a batch fill the shape that it claims, where a token takes `cols` numbers. -/
def TokenBatch.Fills (tokens : TokenBatch) (cols : Nat) : Prop :=
  tokens.ids.length * cols = tokens.batch * tokens.seqLen * cols

theorem volume_eq_ok {batch rows cols count : Nat} :
    Tensor3.volume batch rows cols = .ok count ↔
      batch * rows < Word.limit ∧ batch * rows * cols < Word.limit ∧
        batch * rows * cols = count := by
  rw [Tensor3.volume, bind_eq_ok]
  constructor
  · rintro ⟨lines, hlines, h⟩
    obtain ⟨hlt, rfl⟩ := Word.check_eq_ok.mp hlines
    exact ⟨hlt, Word.check_eq_ok.mp h⟩
  · rintro ⟨hlt, h⟩
    exact ⟨_, Word.mul_of_lt hlt, Word.check_eq_ok.mpr h⟩

theorem volume_onlyFaults (batch rows cols : Nat) :
    (Tensor3.volume batch rows cols).OnlyFaults :=
  .bind (Word.check_onlyFaults _) fun _ _ => Word.check_onlyFaults _

/-- If a shard could look up a batch, the ids fill it. -/
theorem fills_of_gather {shard : Shard} {slice : TableSlice α} {tokens : TokenBatch}
    {g : Gathered α} (h : gather shard slice tokens = .ok g) :
    tokens.Fills slice.embeddingDim := by
  obtain ⟨⟨⟩, -, h⟩ := bind_eq_ok.mp h
  obtain ⟨located, hlocated, h⟩ := bind_eq_ok.mp h
  obtain ⟨count, -, h⟩ := bind_eq_ok.mp h
  obtain ⟨rows, hrows, h⟩ := bind_eq_ok.mp h
  obtain ⟨stack, hstack, -⟩ := bind_eq_ok.mp h
  obtain ⟨volume, hvolume, hfits⟩ := bind_eq_ok.mp hstack
  obtain ⟨⟨⟩, hfits, -⟩ := bind_eq_ok.mp hfits
  obtain ⟨-, -, rfl⟩ := volume_eq_ok.mp hvolume
  rw [ensure_eq_ok, size_concat_maskedRow hrows, ← (mapM_eq_ok.mp hlocated).length_eq] at hfits
  exact hfits

/-- If the ids fill a batch, looking it up in a slice that was checked can only fault. -/
theorem gather_onlyFaults {shard : Shard} {slice : TableSlice α} {tokens : TokenBatch}
    (hcheck : slice.check shard = .ok ()) (hfills : tokens.Fills slice.embeddingDim) :
    (gather shard slice tokens).OnlyFaults := by
  rw [gather, hcheck, ok_bind]
  refine .bind (.mapM fun id _ => localRow_onlyFaults shard id) fun located hlocated => ?_
  refine .bind (Flat.room_onlyFaults _ _) fun _ _ => ?_
  refine .bind (.mapM ?_) fun rows hrows => ?_
  · rintro ⟨row, owned⟩ hin
    obtain ⟨id, -, hid⟩ := exists_of_forall₂ (mapM_eq_ok.mp hlocated).flip hin
    refine maskedRow_onlyFaults ?_ owned
    rw [(TableSlice.check_eq_ok.mp hcheck).2.2]
    exact row_lt_of_localRow hid
  · refine .bind ?_ fun _ _ => .ok _
    refine .bind (volume_onlyFaults _ _ _) fun count hcount => ?_
    obtain ⟨-, -, rfl⟩ := volume_eq_ok.mp hcount
    rw [ensure_of, ok_bind]
    · exact .ok _
    · rw [size_concat_maskedRow hrows, ← (mapM_eq_ok.mp hlocated).length_eq]
      exact hfills

end Gather

/-! ## Scoring and ranking -/

section Scoring

variable [Zero α] [Add α] [Mul α]

/-- A stack of products that is too large is never begun. -/
theorem Tensor3.batchedMatmul_of_no_room {t : Tensor3 α} {w : Tensor2 α}
    (h : ¬ (t.batch * t.rows < Word.limit ∧
      Storage.entryBytes * (t.batch * t.rows * w.cols) < Word.signedLimit)) :
    t.batchedMatmul w = .error .fault := by
  cases hvolume : volume t.batch t.rows w.cols with
  | error e =>
      rw [batchedMatmul, hvolume, volume_onlyFaults _ _ _ e hvolume]
      rfl
  | ok count =>
      obtain ⟨hlines, -, rfl⟩ := volume_eq_ok.mp hvolume
      rw [batchedMatmul, hvolume, ok_bind, Flat.reserve, Storage.reserve,
        ensure_of_not fun hroom => h ⟨hlines, hroom⟩]
      rfl

theorem shardLogits_of_ne {shard : Shard} {slice : TableSlice α} {hidden : Tensor2 α}
    (hcheck : slice.check shard = .ok ()) (hdim : slice.embeddingDim ≠ hidden.cols) :
    shardLogits shard slice hidden =
      .error (.shape (.hiddenDim shard.id slice.embeddingDim hidden.cols)) := by
  rw [shardLogits, hcheck, ok_bind, ensure_of_not hdim]
  rfl

theorem shardLogits_onlyFaults {shard : Shard} {slice : TableSlice α} {hidden : Tensor2 α}
    (hcheck : slice.check shard = .ok ()) (hdim : slice.embeddingDim = hidden.cols) :
    (shardLogits shard slice hidden).OnlyFaults := by
  rw [shardLogits, hcheck, ok_bind, ensure_of hdim, ok_bind]
  refine .bind hidden.transpose_onlyFaults fun columns hcolumns => ?_
  refine .bind (Tensor2.matmul_onlyFaults ?_) fun products _ => ?_
  · rw [(Tensor2.transpose_dims hcolumns).1]
    exact hdim
  · exact .bind products.transpose_onlyFaults fun _ _ => .ok _

/-- The scores of a shard are its own, with a column for each of its ids. -/
theorem shardLogits_dims {shard : Shard} {slice : TableSlice α} {hidden : Tensor2 α}
    {l : Logits α} (h : shardLogits shard slice hidden = .ok l) :
    l.shardId = shard.id ∧ l.scores.cols = shard.hi - shard.lo := by
  obtain ⟨⟨⟩, hcheck, h⟩ := bind_eq_ok.mp h
  obtain ⟨⟨⟩, -, h⟩ := bind_eq_ok.mp h
  obtain ⟨columns, -, h⟩ := bind_eq_ok.mp h
  obtain ⟨products, hproducts, h⟩ := bind_eq_ok.mp h
  obtain ⟨scores, hscores, h⟩ := bind_eq_ok.mp h
  rw [← Except.ok.inj h]
  refine ⟨rfl, ?_⟩
  rw [(Tensor2.transpose_dims hscores).2, (Tensor2.matmul_dims hproducts).1,
    (TableSlice.check_eq_ok.mp hcheck).2.2]

theorem shardLogits_eq_ok {shard : Shard} {slice : TableSlice α} {hidden : Tensor2 α}
    {l : Logits α} (h : shardLogits shard slice hidden = .ok l) :
    slice.table.cols = hidden.cols ∧ (0 < slice.table.rows → slice.table.Filled) ∧
      Storage.entryBytes * (slice.table.rows * hidden.rows) < Word.signedLimit := by
  obtain ⟨⟨⟩, -, h⟩ := bind_eq_ok.mp h
  obtain ⟨⟨⟩, hdim, h⟩ := bind_eq_ok.mp h
  obtain ⟨columns, hcolumns, h⟩ := bind_eq_ok.mp h
  obtain ⟨products, hproducts, -⟩ := bind_eq_ok.mp h
  obtain ⟨hroom, hfilled⟩ := Tensor2.matmul_eq_ok hproducts
  rw [(Tensor2.transpose_dims hcolumns).2] at hroom
  exact ⟨ensure_eq_ok.mp hdim, fun hpos => (hfilled hpos).1, hroom⟩

/-- Without room for its scores a shard faults. -/
theorem shardLogits_of_no_room {shard : Shard} {slice : TableSlice α} {hidden : Tensor2 α}
    (hcheck : slice.check shard = .ok ()) (hdim : slice.table.cols = hidden.cols)
    (hroom : Word.signedLimit ≤ Storage.entryBytes * (slice.table.rows * hidden.rows)) :
    shardLogits shard slice hidden = .error .fault := by
  refine (shardLogits_onlyFaults hcheck hdim).eq_fault fun l hl => ?_
  exact absurd (shardLogits_eq_ok hl).2.2 (Nat.not_lt.mpr hroom)

end Scoring

/-- Ranking a shard's own scores can only fault, if the shard has enough ids. -/
theorem localTopK_onlyFaults [Ord α] {shard : Shard} {l : Logits α} {k : Nat} (hk : 1 ≤ k)
    (howner : l.shardId = shard.id) (hle : shard.lo ≤ shard.hi)
    (hcols : l.scores.cols = shard.hi - shard.lo) (hwidth : k ≤ shard.hi - shard.lo) :
    (localTopK shard l k).OnlyFaults := by
  rw [localTopK, ensure_of (Nat.ne_of_gt hk), ok_bind, ensure_of howner, ok_bind, Shard.width,
    Word.sub_of_le hle, ok_bind, ensure_of hcols, ok_bind, ensure_of hwidth, ok_bind,
    Outcome.tabulate_eq_mapM]
  refine .bind (.mapM fun b _ => ?_) fun _ _ => .ok _
  exact .bind (l.scores.row_onlyFaults b) fun _ _ => .ok _

/-! ## The lists of a call -/

/-- Bytes for each shard that are enough for any one list with records for the shards, also where
its block doubles as it grows. The largest is the list of the edges of a graph that cross
partitions: there are less than four for each shard, each of them six words. -/
def Plan.listBytes : Nat := 2 * (4 * (6 * Storage.wordBytes))

/-- The bytes of a candidate: a word for its index, and one that its score begins. -/
def Candidate.recordBytes : Nat := 2 * Storage.wordBytes

/-- There is room for the lists that a call on `n` shards, each of at most `width` ids, puts
together to find `k` candidates: the records for each shard, the scores of a shard with their
indices, and the candidates of all shards for one sequence, in a block that doubles as it grows.

Building and ranking do not ask for this room themselves, so it is asked for where a call is
promised to succeed. -/
structure ListRoom (n k width : Nat) : Prop where
  shards : Plan.listBytes * n < Word.signedLimit
  ranking : Candidate.recordBytes * width < Word.signedLimit
  pool : 2 * (Candidate.recordBytes * (n * k)) < Word.signedLimit

instance (n k width : Nat) : Decidable (ListRoom n k width) :=
  decidable_of_iff (Plan.listBytes * n < Word.signedLimit ∧
      Candidate.recordBytes * width < Word.signedLimit ∧
      2 * (Candidate.recordBytes * (n * k)) < Word.signedLimit)
    ⟨fun h => ⟨h.1, h.2.1, h.2.2⟩, fun h => ⟨h.shards, h.ranking, h.pool⟩⟩

end ShardedModel
