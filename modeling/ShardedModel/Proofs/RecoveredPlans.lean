import ShardedModel.Coordinator
import ShardedModel.Proofs.AcceptedSettings
import ShardedModel.Proofs.Ownership

/-!
# Slices and the plan that they were cut along

A plan says where a table is to be cut, and slices that were cut say what the plan was: there are
as many shards as slices, and the vocabulary is as large as all slices together. The two ways are
inverse. Cutting loses no row and no entry of the table, and the plan recovered from the slices
is the one that they were cut along.

Slices from elsewhere are accepted by a single call exactly if they could have been cut: they
stand in the order of their shards, each has as many rows as its shard has ids in the plan that
all of them together stand for, and they have the dimension of the projection. A list that was
reordered or cut at other places is refused.
-/

namespace ShardedModel

open Outcome

variable {α : Type}

/-! ## Cutting a table -/

/-- The slices hold the table, cut along the plan: the slice of a shard has the rows of its ids,
and the data of all slices are the data of the table. -/
structure SlicesOf (table : Tensor2 α) (plan : Plan) (slices : List (TableSlice α)) : Prop where
  length : slices.length = plan.shardCount
  slice : ∀ (i : Nat) (s : TableSlice α), slices[i]? = some s → ∃ shard,
    plan.shards[i]? = some shard ∧ s.shardId = i ∧ s.table.WellFormed ∧
    s.table.cols = table.cols ∧ shard.width = .ok s.table.rows ∧
    ∀ j < s.table.rows, ∃ row, s.table.row j = .ok row ∧ table.row (shard.lo + j) = .ok row
  data : Flat.concat (slices.map (·.table.data)) = table.data

section Split

variable {plan : Plan} {table : Tensor2 α} {n : Nat}

theorem concat_sliceAt (h : table.WellFormed) (hpos : 0 < n) :
    Flat.concat (((List.range n).map (sliceAt table table.rows n)).map (·.table.data)) =
      table.data := by
  have hbetween : Flat.concat ((List.range n).map fun i =>
      table.data.extract (Plan.bound table.rows n i * table.cols)
        (Plan.bound table.rows n (i + 1) * table.cols)) =
      table.data.extract 0 (Plan.bound table.rows n n * table.cols) :=
    Flat.concat_between table.data (by rw [Plan.bound_zero hpos, Nat.zero_mul])
      fun i hi => Nat.mul_le_mul_right _ (Plan.bound_le_succ hi)
  rw [Plan.bound_self, ← h, Array.extract_eq_self_of_le (Nat.le_refl _)] at hbetween
  rw [List.map_map]
  exact hbetween

theorem slicesOf_sliceAt (hplan : plan.CutOf table.rows n) (h : table.WellFormed)
    (hsize : table.data.size < Word.limit) :
    SlicesOf table plan ((List.range n).map (sliceAt table table.rows n)) := by
  refine ⟨?_, fun i s hs => ?_, concat_sliceAt h hplan.pos⟩
  · rw [List.length_map, List.length_range, hplan.shardCount]
  · obtain ⟨hi, rfl⟩ := getElem?_map_range.mp hs
    have hle : Plan.bound table.rows n (i + 1) ≤ table.rows := Plan.bound_le hi
    have hlt := hplan.bound_lt_succ hi
    have hwell : (sliceAt table table.rows n i).table.WellFormed :=
      Tensor2.wellFormed_rowRange h.filled hle
    refine ⟨_, hplan.getElem?_shards.mpr ⟨hi, rfl⟩, rfl, hwell, rfl, Plan.width_shardAt hi,
      fun j hj => ⟨table.line (Plan.bound table.rows n i + j), ?_, ?_⟩⟩
    · rw [Tensor2.row_eq_line hwell.filled
        (Nat.lt_of_le_of_lt (Tensor2.size_rowRange_le h.filled hle) hsize) hj]
      exact congrArg Except.ok (Tensor2.line_rowRange hlt hj)
    · have hj : j < Plan.bound table.rows n (i + 1) - Plan.bound table.rows n i := hj
      rw [Plan.shardAt_lo hi, Tensor2.row_eq_line h.filled hsize (by omega)]

end Split

/-! ## Recovering the plan -/

/-- The number of ids that slices stand for. -/
def idCount (slices : List (TableSlice α)) : Nat := (slices.map (·.table.rows)).sum

theorem addRows_eq_ok {slices : List (TableSlice α)} {sum total : Nat} (hsum : sum < Word.limit) :
    slices.foldlM (fun sum s => Word.add sum s.table.rows) sum = .ok total ↔
      sum + idCount slices < Word.limit ∧ sum + idCount slices = total := by
  induction slices generalizing sum with
  | nil => simp [idCount, hsum]
  | cons s slices ih =>
      have hcount : sum + idCount (s :: slices) = sum + s.table.rows + idCount slices := by
        rw [idCount, List.map_cons, List.sum_cons, ← Nat.add_assoc]
        rfl
      rw [List.foldlM_cons, bind_eq_ok, hcount]
      constructor
      · rintro ⟨next, hnext, h⟩
        obtain ⟨hlt, rfl⟩ := Word.check_eq_ok.mp hnext
        exact (ih hlt).mp h
      · rintro ⟨hlt, rfl⟩
        have hnext : sum + s.table.rows < Word.limit := by omega
        exact ⟨_, Word.add_of_lt hnext, (ih hnext).mpr ⟨hlt, rfl⟩⟩

theorem planOfSlices_eq_ok {slices : List (TableSlice α)} {plan : Plan} :
    planOfSlices slices = .ok plan ↔
      idCount slices < Word.limit ∧ Plan.cut (idCount slices) slices.length = .ok plan := by
  rw [planOfSlices, bind_eq_ok]
  constructor
  · rintro ⟨total, hsum, hcut⟩
    obtain ⟨hlt, rfl⟩ := (addRows_eq_ok (by decide)).mp hsum
    rw [Nat.zero_add] at hlt hcut
    exact ⟨hlt, hcut⟩
  · rintro ⟨hlt, hcut⟩
    refine ⟨idCount slices, (addRows_eq_ok (by decide)).mpr ?_, hcut⟩
    rw [Nat.zero_add]
    exact ⟨hlt, rfl⟩

/-- The rows of the first slices reach up to the bound of the next. -/
theorem idCount_sliceAt (table : Tensor2 α) {v n m : Nat} (hpos : 0 < n) (hm : m ≤ n) :
    idCount ((List.range m).map (sliceAt table v n)) = Plan.bound v n m := by
  induction m with
  | zero => exact (Plan.bound_zero hpos).symm
  | succ m ih =>
      have hle := Plan.bound_le_succ (v := v) (Nat.lt_of_succ_le hm)
      have hlast : (sliceAt table v n m).table.rows =
          Plan.bound v n (m + 1) - Plan.bound v n m := rfl
      have hsum := ih (Nat.le_of_succ_le hm)
      rw [idCount] at hsum
      rw [idCount, List.range_succ, List.map_append, List.map_append, List.sum_append, hsum,
        List.map_singleton, List.map_singleton, List.sum_singleton, hlast]
      omega

/-- The plan that a table was cut along is recovered from the slices. -/
theorem planOfSlices_sliceAt {plan : Plan} {v n : Nat} (table : Tensor2 α) (hv : v < Word.limit)
    (hcut : Plan.cut v n = .ok plan) :
    planOfSlices ((List.range n).map (sliceAt table v n)) = .ok plan := by
  have hcount := idCount_sliceAt (v := v) table (Plan.cutOf_of_cut hcut).pos (Nat.le_refl n)
  rw [Plan.bound_self] at hcount
  rw [planOfSlices_eq_ok, hcount, List.length_map, List.length_range]
  exact ⟨hv, hcut⟩

/-! ## Slices for a single call -/

/-- Slices that could have been cut from one table: there is a plan with as many shards, they stand
in the order of the shards, and each has the rows of its shard and the dimension. -/
structure CutFromOne (slices : List (TableSlice α)) (dim : Nat) : Prop where
  word : idCount slices < Word.limit
  pos : 1 ≤ slices.length
  le : slices.length ≤ idCount slices
  room : Plan.shardBytes * slices.length < Word.signedLimit
  slice : ∀ (i : Nat) (s : TableSlice α), slices[i]? = some s → s.shardId = i ∧
    s.table.rows = (if i + 1 = slices.length then
      idCount slices / slices.length + idCount slices % slices.length
      else idCount slices / slices.length) ∧
    s.table.cols = dim

/-- The coordinator that a single call is made on. -/
def Coordinator.ofSlices (slices : List (TableSlice α)) (projection : Projection α) :
    Outcome (Coordinator α) := do
  let plan ← planOfSlices slices
  create plan ⟨slices, projection⟩ .standard

theorem Coordinator.create_eq_ok {plan : Plan} {params : Parameters α} {options : CallOptions} :
    (∃ c, create plan params options = .ok c) ↔ params.validate plan = .ok () := by
  rw [create]
  constructor
  · rintro ⟨c, hc⟩
    obtain ⟨⟨⟩, hvalid, -⟩ := bind_eq_ok.mp hc
    exact hvalid
  · intro hvalid
    rw [hvalid]
    exact ⟨_, rfl⟩

theorem Coordinator.ofSlices_eq_ok {slices : List (TableSlice α)} {projection : Projection α} :
    (∃ c, ofSlices slices projection = .ok c) ↔ CutFromOne slices projection.embeddingDim := by
  constructor
  · rintro ⟨c, hc⟩
    obtain ⟨plan, hplan, hc⟩ := bind_eq_ok.mp hc
    obtain ⟨hword, hcut⟩ := planOfSlices_eq_ok.mp hplan
    have hof := Plan.cutOf_of_cut hcut
    obtain ⟨-, hslices⟩ := (Parameters.validate_eq_ok hof).mp (create_eq_ok.mp ⟨c, hc⟩)
    refine ⟨hword, hof.pos, hof.le, Plan.room_of_cut hcut, fun i s hs => ?_⟩
    obtain ⟨hi, -⟩ := List.getElem?_eq_some_iff.mp hs
    obtain ⟨hid, hrows, hdim⟩ := hslices i s hs
    exact ⟨hid, hrows.trans (Plan.bound_sub hi), hdim⟩
  · rintro ⟨hword, hpos, hle, hroom, hslices⟩
    have hcut := Plan.cut_of_le hpos hle hword hroom
    rw [ofSlices, planOfSlices_eq_ok.mpr ⟨hword, hcut⟩, ok_bind, create_eq_ok,
      Parameters.validate_eq_ok (Plan.cutOf_of_cut hcut)]
    refine ⟨rfl, fun i s hs => ?_⟩
    obtain ⟨hi, -⟩ := List.getElem?_eq_some_iff.mp hs
    obtain ⟨hid, hrows, hdim⟩ := hslices i s hs
    exact ⟨hid, hrows.trans (Plan.bound_sub hi).symm, hdim⟩

/-! ## Both ways -/

/-- There is room for a table of `v` rows and for a stage B, which are drawn before a cut. -/
def DrawRoom (v dim seqLen : Nat) : Prop :=
  Storage.entryBytes * (v * dim) < Word.signedLimit ∧
    Storage.entryBytes * (seqLen * dim) < Word.signedLimit

/-- Cutting a table along a plan loses nothing if there is room for the slices, and they fit the
plan and give it back; their check depends on nothing but the dimension. So parameters drawn with
one seed hold the same table and projection along any plan. A single call takes exactly the slices
that could have been cut from one table. -/
theorem splitTable_recovers [Zero α] [Add α] [Mul α] [Ord α] :
    (∀ (table : Tensor2 α) (n : Nat), table.WellFormed → table.data.size < Word.limit →
      table.rows < Word.limit → 1 ≤ n → n ≤ table.rows →
      (TableSlice.recordBytes * Storage.capacity n < Word.signedLimit → ∃ plan slices,
        Plan.cut table.rows n = .ok plan ∧ splitTable table plan = .ok slices ∧
        SlicesOf table plan slices ∧ planOfSlices slices = .ok plan ∧
        ∀ projection, Parameters.ofFullTable table plan projection = .ok ⟨slices, projection⟩ ∧
          (Parameters.validate ⟨slices, projection⟩ plan = .ok () ↔
            projection.embeddingDim = table.cols)) ∧
      (¬ TableSlice.recordBytes * Storage.capacity n < Word.signedLimit →
        (Plan.shardBytes * n < Word.signedLimit →
          ∃ plan, Plan.cut table.rows n = .ok plan ∧ splitTable table plan = .error .fault) ∧
        (¬ Plan.shardBytes * n < Word.signedLimit → Plan.cut table.rows n = .error .fault))) ∧
    (∀ (seed : UInt64) (v dim seqLen : Nat), 1 ≤ v →
      (DrawRoom v dim seqLen → ∃ table projection, table.WellFormed ∧ table.rows = v ∧
        table.cols = dim ∧ projection.embeddingDim = dim ∧ projection.seqLen = seqLen ∧
        ∀ n plan, Plan.cut v n = .ok plan →
          (TableSlice.recordBytes * Storage.capacity n < Word.signedLimit → ∃ slices,
            Parameters.seeded seed plan dim seqLen = .ok ⟨slices, projection⟩ ∧
            SlicesOf table plan slices) ∧
          (¬ TableSlice.recordBytes * Storage.capacity n < Word.signedLimit →
            Parameters.seeded seed plan dim seqLen = .error .fault)) ∧
      (¬ DrawRoom v dim seqLen → ∀ n plan, Plan.cut v n = .ok plan →
        Parameters.seeded seed plan dim seqLen = .error .fault)) ∧
    (∀ (slices : List (TableSlice α)) (projection : Projection α),
      ((∃ c, Coordinator.ofSlices slices projection = .ok c) ↔
        CutFromOne slices projection.embeddingDim) ∧
      ∀ tokens k, inferOnce tokens slices projection k = do
        let c ← Coordinator.ofSlices slices projection
        (c.infer tokens k 0).1) := by
  refine ⟨fun table n h hsize hv hn hle => ⟨fun hslices => ?_, fun hslices =>
    ⟨fun hshards => ?_, Plan.cut_of_no_room hn hle hv⟩⟩,
    fun seed v dim seqLen hv => ⟨?_, fun hroom n plan hcut => ?_⟩,
    fun slices projection => ⟨Coordinator.ofSlices_eq_ok, fun tokens k => ?_⟩⟩
  · have hcut := Plan.cut_of_le hn hle hv (shards_room hslices)
    have hplan := Plan.cutOf_of_cut hcut
    have hsplit := splitTable_of_cut hplan h.filled hsize rfl hslices
    refine ⟨_, _, hcut, hsplit, slicesOf_sliceAt hplan h hsize, planOfSlices_sliceAt table hv hcut,
      fun projection => ⟨?_, (validate_split hplan).trans eq_comm⟩⟩
    rw [Parameters.ofFullTable, hsplit, ok_bind]
  · have hcut := Plan.cut_of_le hn hle hv hshards
    exact ⟨_, hcut, splitTable_of_no_room (Plan.cutOf_of_cut hcut) h.filled hsize rfl hslices⟩
  · rintro ⟨htable, hstageB⟩
    obtain ⟨table, projection, hwell, rfl, rfl, hdim, hseqLen, hdrawn⟩ :=
      Parameters.exists_drawn_whole Normal.draw hv htable hstageB (WordStream.ofSeed seed)
    have hsize : table.data.size < Word.limit := by
      rw [hwell]
      exact Flat.count_lt (by decide) htable
    refine ⟨table, projection, hwell, rfl, rfl, hdim, hseqLen, fun n plan hcut => ?_⟩
    have hplan := Plan.cutOf_of_cut hcut
    rw [Parameters.seeded, hdrawn plan hplan.vocabSize, Parameters.ofFullTable]
    refine ⟨fun hslices => ⟨_, ?_, slicesOf_sliceAt hplan hwell hsize⟩, fun hslices => ?_⟩
    · rw [splitTable_of_cut hplan hwell.filled hsize rfl hslices, ok_bind]
    · rw [splitTable_of_no_room hplan hwell.filled hsize rfl hslices, error_bind]
  · have hvocab := (Plan.cutOf_of_cut hcut).vocabSize
    exact Parameters.drawn_of_no_room Normal.draw (hvocab ▸ hv) (hvocab ▸ hroom) _
  · rw [inferOnce, Coordinator.ofSlices]
    cases planOfSlices slices with
    | error e => rfl
    | ok plan => rfl

/-- Three rows on two shards. The slices are taken as they were cut, and refused the other way
round. -/
theorem splitTable_recovers_uneven :
    let one : Binary32 := ⟨0x3f800000⟩
    let table : Tensor2 Binary32 := ⟨#[one, 0, ⟨0x80000000⟩], 3, 1⟩
    let projection : Projection Binary32 := ⟨⟨#[one], 1, 1⟩, ⟨#[one], 1, 1⟩⟩
    let first : TableSlice Binary32 := ⟨0, ⟨#[one], 1, 1⟩⟩
    let second : TableSlice Binary32 := ⟨1, ⟨#[0, ⟨0x80000000⟩], 2, 1⟩⟩
    (∃ plan, Plan.cut 3 2 = .ok plan ∧ splitTable table plan = .ok [first, second] ∧
      planOfSlices [first, second] = .ok plan) ∧
    (∃ drawn projection, drawn.rows = 3 ∧ ∀ n plan, Plan.cut 3 n = .ok plan → ∃ slices,
      Parameters.seeded 42 plan 1 1 = .ok ⟨slices, projection⟩ ∧ SlicesOf drawn plan slices) ∧
    (∃ c, Coordinator.ofSlices [first, second] projection = .ok c) ∧
    ¬ ∃ c, Coordinator.ofSlices [second, first] projection = .ok c := by
  intro one table projection first second
  obtain ⟨hsplit, hseeded, hcall⟩ := splitTable_recovers (α := Binary32)
  obtain ⟨plan, slices, hcut, hslices, -, hplan, -⟩ :=
    (hsplit table 2 rfl (by decide) (by decide) (by decide) (by decide)).1 (by decide)
  have hcut' : Plan.cut 3 2 = .ok ⟨3, [⟨0, 0, 1, 2, 3⟩, ⟨1, 1, 3, 2, 3⟩]⟩ := by decide
  obtain rfl := Except.ok.inj (hcut'.symm.trans hcut)
  have hslices' : splitTable table ⟨3, [⟨0, 0, 1, 2, 3⟩, ⟨1, 1, 3, 2, 3⟩]⟩ =
      .ok [first, second] := by decide +kernel
  obtain rfl := Except.ok.inj (hslices'.symm.trans hslices)
  obtain ⟨drawn, drawnProjection, -, hrows, -, -, -, hdrawn⟩ :=
    (hseeded 42 3 1 1 (by decide)).1 ⟨by decide, by decide⟩
  have hfew : ∀ n plan, Plan.cut 3 n = .ok plan →
      TableSlice.recordBytes * Storage.capacity n < Word.signedLimit := by
    intro n plan hplan
    have hle := (Plan.cutOf_of_cut hplan).le
    exact Nat.lt_of_le_of_lt (Nat.mul_le_mul_left _ (Storage.capacity_mono hle)) (by decide)
  refine ⟨⟨_, hcut, hslices, hplan⟩, ⟨drawn, drawnProjection, hrows, fun n plan hplan =>
      (hdrawn n plan hplan).1 (hfew n plan hplan)⟩,
    (hcall [first, second] projection).1.mpr ⟨by decide, by decide, by decide, by decide, ?_⟩, ?_⟩
  · intro i s hs
    rcases i with _ | _ | i
    · cases hs
      decide
    · cases hs
      decide
    · simp at hs
  · intro hswapped
    have hid := ((hcall [second, first] projection).1.mp hswapped).slice 0 second rfl
    exact absurd hid.1 (by decide)

/-- A table of 2^58 empty rows has no entries. A list of as many shards would take more bytes than
a block can have, so the table cannot be cut into its rows. -/
theorem cut_of_too_many_rows :
    let table : Tensor2 Binary32 := ⟨#[], 288230376151711744, 0⟩
    table.WellFormed ∧ 1 ≤ table.rows ∧ Plan.cut table.rows table.rows = .error .fault := by
  intro table
  exact ⟨rfl, by decide, (Plan.cut_eq_fault (by decide)).mpr
    ⟨by decide, Nat.le_refl _, by decide⟩⟩

end ShardedModel
