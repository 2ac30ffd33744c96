import ShardedModel.Proofs.Ownership
import ShardedModel.Proofs.Scores

/-!
# The scores of the shards, side by side

A shard multiplies its slice of the table with the hidden vectors, so it gets the columns of its
own ids out of the scores of all ids. Put next to each other in the order of the shards, the rows
that the shards have for a sequence are the row that the whole table has for it. No law of the
numbers enters: each entry is reached by the same products, summed in the same order.

What can go wrong is room. The list of the slices and the scores of a slice are each one block of
memory, and so are the scores of all ids when the table is not cut. Where they have room the
scores are there, and where they do not the computation faults. A slice takes less room than the
whole, so shards can score a table that is too large to be scored as one.
-/

namespace ShardedModel

open Outcome

variable {α : Type}

section Definitions

variable [Zero α] [Add α] [Mul α]

/-- The scores of each shard, with a table that is cut into `n` slices. -/
def scoreSharded (table : Tensor2 α) (n : Nat) (hidden : Tensor2 α) :
    Outcome (List (Logits α)) := do
  let plan ← Plan.cut table.rows n
  let slices ← splitTable table plan
  (plan.shards.zip slices).mapM fun e => shardLogits e.1 e.2 hidden

/-- The scores of all ids, with the whole table as the slice of the only shard. -/
def scoreWhole (table hidden : Tensor2 α) : Outcome (Logits α) := do
  let plan ← Plan.cut table.rows 1
  let shard ← plan.shard 0
  shardLogits shard ⟨0, table⟩ hidden

end Definitions

/-- The table and the hidden vectors are whole and belong together, and words count the ids and
the entries of the table. -/
structure Scorable (table hidden : Tensor2 α) : Prop where
  whole : table.WellFormed
  vectors : hidden.WellFormed
  dim : table.cols = hidden.cols
  ids : table.rows < Word.limit
  entries : table.data.size < Word.limit

/-- There is room for the list of `n` slices, which doubles as it grows, and for the scores of the
widest, which is the last. -/
structure ScoreRoom (v n batch : Nat) : Prop where
  slices : TableSlice.recordBytes * Storage.capacity n < Word.signedLimit
  scores : Storage.entryBytes * ((v / n + v % n) * batch) < Word.signedLimit

theorem ScoreRoom.slice {v n batch i : Nat} (h : ScoreRoom v n batch) (hi : i < n) :
    Storage.entryBytes * ((Plan.bound v n (i + 1) - Plan.bound v n i) * batch) <
      Word.signedLimit := by
  have hwidth : Plan.bound v n (i + 1) - Plan.bound v n i ≤ v / n + v % n := by
    rw [Plan.bound_sub hi]
    split
    · omega
    · omega
  exact Nat.lt_of_le_of_lt (Nat.mul_le_mul_left _ (Nat.mul_le_mul_right _ hwidth)) h.scores

section Scores

variable [Zero α] [Add α] [Mul α] {table hidden scores : Tensor2 α} {n : Nat}

/-! ## Scores of the slices -/

/-- Scoring shard by shard, when the table has been cut. -/
theorem scoreSharded_eq (h : Scorable table hidden) (hn : 1 ≤ n) (hle : n ≤ table.rows)
    (hslices : TableSlice.recordBytes * Storage.capacity n < Word.signedLimit) :
    ∃ plan : Plan, plan.CutOf table.rows n ∧ scoreSharded table n hidden =
      (List.range n).mapM fun i =>
        shardLogits (Plan.shardAt table.rows n i) (sliceAt table table.rows n i) hidden := by
  have hcut := Plan.cut_of_le hn hle h.ids (shards_room hslices)
  have hplan := Plan.cutOf_of_cut hcut
  refine ⟨_, hplan, ?_⟩
  rw [scoreSharded, hcut, ok_bind, splitTable_of_cut hplan h.whole.filled h.entries rfl hslices,
    ok_bind, List.zip_map', List.mapM_map]
  rfl

theorem scoreSharded_of_scores (h : Scorable table hidden) (hn : 1 ≤ n) (hle : n ≤ table.rows)
    (hroom : ScoreRoom table.rows n hidden.rows) (hscores : ScoresOf table hidden scores) :
    scoreSharded table n hidden =
      .ok ((List.range n).map fun i => Logits.ofColumns scores (Plan.shardAt table.rows n i)) := by
  obtain ⟨plan, hplan, heq⟩ := scoreSharded_eq h hn hle hroom.slices
  rw [heq]
  refine mapM_eq_ok_map fun i hi => ?_
  have hi := List.mem_range.mp hi
  exact shardLogits_sliceAt hplan hi h.whole.filled rfl h.vectors h.dim (hroom.slice hi) hscores

theorem scoreSharded_of_no_room (h : Scorable table hidden) (hn : 1 ≤ n) (hle : n ≤ table.rows)
    (hroom : ¬ ScoreRoom table.rows n hidden.rows) :
    scoreSharded table n hidden = .error .fault := by
  by_cases hslices : TableSlice.recordBytes * Storage.capacity n < Word.signedLimit
  · obtain ⟨plan, hplan, heq⟩ := scoreSharded_eq h hn hle hslices
    have honly : (scoreSharded table n hidden).OnlyFaults := by
      rw [heq]
      refine .mapM fun i hi => ?_
      exact shardLogits_onlyFaults (check_sliceAt hplan (List.mem_range.mp hi)) h.dim
    refine honly.eq_fault fun logits hlogits => hroom ⟨hslices, ?_⟩
    -- The last shard has scored its slice, so that had room.
    rw [heq] at hlogits
    have hlast : n - 1 < n := by omega
    obtain ⟨l, -, hl⟩ := exists_of_forall₂ (mapM_eq_ok.mp hlogits) (List.mem_range.mpr hlast)
    have hbytes := (shardLogits_eq_ok hl).2.2
    have hwidth : (sliceAt table table.rows n (n - 1)).table.rows =
        table.rows / n + table.rows % n := by
      show Plan.bound table.rows n (n - 1 + 1) - Plan.bound table.rows n (n - 1) = _
      rw [Plan.bound_sub hlast, if_pos (by omega)]
    rw [hwidth] at hbytes
    exact hbytes
  · exact cut_splitTable_of_no_room h.whole.filled h.entries hn hle h.ids hslices _

/-! ## Scores of the whole -/

theorem scoreWhole_eq (h : Scorable table hidden) (hpos : 1 ≤ table.rows) :
    scoreWhole table hidden = shardLogits (Plan.shardAt table.rows 1 0) ⟨0, table⟩ hidden := by
  have hcut := Plan.cut_of_le Nat.one_pos hpos h.ids (by decide)
  rw [scoreWhole, hcut, ok_bind, (Plan.cutOf_of_cut hcut).shard Nat.one_pos, ok_bind]

theorem scoreWhole_of_scores (h : Scorable table hidden) (hpos : 1 ≤ table.rows)
    (hroom : Storage.entryBytes * (table.rows * hidden.rows) < Word.signedLimit)
    (hscores : ScoresOf table hidden scores) : scoreWhole table hidden = .ok ⟨0, scores⟩ := by
  obtain ⟨whole, hwhole, hof⟩ :=
    exists_shardLogits (check_whole table) h.whole.filled h.vectors h.dim hroom
  rw [scoreWhole_eq h hpos, hwhole, hof.eq hscores]
  rfl

theorem scoreWhole_of_no_room (h : Scorable table hidden) (hpos : 1 ≤ table.rows)
    (hroom : ¬ Storage.entryBytes * (table.rows * hidden.rows) < Word.signedLimit) :
    scoreWhole table hidden = .error .fault := by
  rw [scoreWhole_eq h hpos]
  exact shardLogits_of_no_room (check_whole table) h.dim (Nat.not_lt.mp hroom)

/-! ## Side by side -/

/-- The rows of the shards for a sequence are the row of the whole, cut at the bounds. -/
theorem rows_ofColumns (hn : 1 ≤ n) (hscores : ScoresOf table hidden scores)
    (hroom : Storage.entryBytes * (table.rows * hidden.rows) < Word.signedLimit) {b : Nat}
    (hb : b < hidden.rows) :
    ∃ parts, ((List.range n).map fun i =>
        Logits.ofColumns scores (Plan.shardAt table.rows n i)).mapM (·.scores.row b) = .ok parts ∧
      scores.row b = .ok (Flat.concat parts) := by
  have hfilled := hscores.wellFormed.filled
  have hsize := hscores.size_lt hroom
  have hb' : b < scores.rows := hscores.rows ▸ hb
  refine ⟨(List.range n).map fun i =>
    (scores.line b).extract (Plan.bound table.rows n i) (Plan.bound table.rows n (i + 1)), ?_, ?_⟩
  · rw [List.mapM_map]
    refine mapM_eq_ok_map fun i hi => ?_
    have hi := List.mem_range.mp hi
    have hhi : Plan.bound table.rows n (i + 1) ≤ scores.cols := hscores.cols ▸ Plan.bound_le hi
    rw [Function.comp_apply, Logits.ofColumns, Plan.shardAt_lo hi, Plan.shardAt_hi,
      Tensor2.row_eq_line (Tensor2.wellFormed_columns hfilled hhi).filled
        (Nat.lt_of_le_of_lt (Tensor2.size_columns_le hfilled hhi) hsize) hb',
      Tensor2.line_columns hfilled hhi hb']
  · have hline : (scores.line b).size = table.rows := by
      rw [Tensor2.size_line hfilled hb', hscores.cols]
    rw [Flat.concat_between _ (Plan.bound_zero hn) fun i hi => Plan.bound_le_succ hi,
      Plan.bound_self, ← hline, Array.extract_eq_self_of_le (Nat.le_refl _),
      Tensor2.row_eq_line hfilled hsize hb']

/-- Scoring shard by shard gives each shard a row for every hidden vector and a column for each of
its ids, if there is room, and faults if not. Scoring with the whole table gives the sum of the
products of a row with a hidden vector, from zero and from left to right, if there is room, and
faults if not. Where both give scores, the rows of the shards side by side are those of the
whole. -/
theorem scoreSharded_concatenates (h : Scorable table hidden) (hn : 1 ≤ n) (hle : n ≤ table.rows) :
    (ScoreRoom table.rows n hidden.rows → ∃ logits, scoreSharded table n hidden = .ok logits ∧
      logits.length = n ∧
      (∀ (i : Nat) (l : Logits α), logits[i]? = some l → l.shardId = i ∧ l.scores.WellFormed ∧
        l.scores.rows = hidden.rows ∧ l.scores.cols =
          if i + 1 = n then table.rows / n + table.rows % n else table.rows / n) ∧
      ∀ whole, scoreWhole table hidden = .ok whole → ∀ b < hidden.rows, ∃ parts,
        logits.mapM (·.scores.row b) = .ok parts ∧
        whole.scores.row b = .ok (Flat.concat parts)) ∧
    (¬ ScoreRoom table.rows n hidden.rows → scoreSharded table n hidden = .error .fault) ∧
    (Storage.entryBytes * (table.rows * hidden.rows) < Word.signedLimit →
      ∃ whole, scoreWhole table hidden = .ok whole ∧ whole.scores.WellFormed ∧
        whole.scores.rows = hidden.rows ∧ whole.scores.cols = table.rows ∧
        ∀ b < hidden.rows, ∀ r < table.rows,
          whole.scores.get b r = .ok (score table hidden b r)) ∧
    (¬ Storage.entryBytes * (table.rows * hidden.rows) < Word.signedLimit →
      scoreWhole table hidden = .error .fault) := by
  have hpos : 1 ≤ table.rows := Nat.le_trans hn hle
  obtain ⟨scores, hscores⟩ := exists_scoresOf table hidden
  have hfilled := hscores.wellFormed.filled
  refine ⟨fun hroom => ?_, scoreSharded_of_no_room h hn hle, fun hroom => ?_,
    scoreWhole_of_no_room h hpos⟩
  · refine ⟨_, scoreSharded_of_scores h hn hle hroom hscores, ?_, ?_, ?_⟩
    · rw [List.length_map, List.length_range]
    · intro i l hl
      obtain ⟨hi, rfl⟩ := getElem?_map_range.mp hl
      have hhi : Plan.bound table.rows n (i + 1) ≤ scores.cols := hscores.cols ▸ Plan.bound_le hi
      have hcols : (Logits.ofColumns scores (Plan.shardAt table.rows n i)).scores.cols =
          Plan.bound table.rows n (i + 1) - Plan.bound table.rows n i := by
        rw [Logits.ofColumns, Plan.shardAt_lo hi, Plan.shardAt_hi]
        rfl
      exact ⟨rfl, Tensor2.wellFormed_columns hfilled hhi, hscores.rows,
        hcols.trans (Plan.bound_sub hi)⟩
    · intro whole hwhole b hb
      have hwide : Storage.entryBytes * (table.rows * hidden.rows) < Word.signedLimit := by
        rw [scoreWhole_eq h hpos] at hwhole
        exact (shardLogits_eq_ok hwhole).2.2
      rw [scoreWhole_of_scores h hpos hwide hscores] at hwhole
      cases hwhole
      exact rows_ofColumns hn hscores hwide hb
  · refine ⟨_, scoreWhole_of_scores h hpos hroom hscores, hscores.wellFormed, hscores.rows,
      hscores.cols, fun b hb r hr => ?_⟩
    rw [Tensor2.get_eq_entry hfilled (hscores.size_lt hroom) (hscores.rows ▸ hb)
      (hscores.cols ▸ hr), hscores.entries b hb r hr]

end Scores

/-- Three ids on two shards and two hidden vectors. The last score adds one to a number so large
that it is rounded away. -/
theorem scoreSharded_concatenates_uneven :
    let table : Tensor2 Binary32 :=
      ⟨#[⟨0x3f800000⟩, ⟨0x40000000⟩, ⟨0⟩, ⟨0xbf800000⟩, ⟨0x4b800000⟩, ⟨0x3f800000⟩], 3, 2⟩
    let hidden : Tensor2 Binary32 :=
      ⟨#[⟨0x40000000⟩, ⟨0x80000000⟩, ⟨0x3f800000⟩, ⟨0x3f800000⟩], 2, 2⟩
    Scorable table hidden ∧
    ∃ logits whole, scoreSharded table 2 hidden = .ok logits ∧ scoreWhole table hidden = .ok whole ∧
      logits.map (fun l => (l.scores.rows, l.scores.cols)) = [(2, 1), (2, 2)] ∧
      whole.scores.get 1 2 = .ok ⟨0x4b800000⟩ ∧
      ∃ parts, logits.mapM (·.scores.row 1) = .ok parts ∧
        whole.scores.row 1 = .ok (Flat.concat parts) := by
  intro table hidden
  have h : Scorable table hidden := ⟨rfl, rfl, rfl, by decide, by decide⟩
  obtain ⟨hsharded, -, hwhole, -⟩ := scoreSharded_concatenates h (n := 2) (by decide) (by decide)
  obtain ⟨logits, hlogits, hlength, hshapes, hrows⟩ := hsharded ⟨by decide, by decide⟩
  obtain ⟨whole, hscored, -, -, -, hentries⟩ := hwhole (by decide)
  refine ⟨h, logits, whole, hlogits, hscored, ?_, ?_, hrows whole hscored 1 (by decide)⟩
  · obtain ⟨first, second, rfl⟩ := List.length_eq_two.mp hlength
    obtain ⟨-, -, hfirst, hfirst'⟩ := hshapes 0 first rfl
    obtain ⟨-, -, hsecond, hsecond'⟩ := hshapes 1 second rfl
    simp [hfirst, hfirst', hsecond, hsecond', table, hidden]
  · rw [hentries 1 (by decide) 2 (by decide)]
    decide +kernel

/-- A table of 2^58 empty rows has no entries, and its scores for one hidden vector are few enough
for a block. A list of as many shards would take more bytes than a block can have. -/
theorem scoreSharded_of_too_many_shards :
    let table : Tensor2 Binary32 := ⟨#[], 288230376151711744, 0⟩
    let hidden : Tensor2 Binary32 := ⟨#[], 1, 0⟩
    Scorable table hidden ∧ table.rows * hidden.rows < Word.limit ∧
    scoreSharded table table.rows hidden = .error .fault := by
  intro table hidden
  have h : Scorable table hidden := ⟨rfl, rfl, rfl, by decide, by decide⟩
  refine ⟨h, by decide, scoreSharded_of_no_room h (by decide) (Nat.le_refl _) ?_⟩
  intro hroom
  exact absurd hroom.slices (by decide)

end ShardedModel
