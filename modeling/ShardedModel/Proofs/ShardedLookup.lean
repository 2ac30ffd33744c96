import ShardedModel.Proofs.Lookup
import ShardedModel.Proofs.Ownership
import ShardedModel.Proofs.ZeroSum

/-!
# What comes back from a lookup in shards

Cutting a table, looking up a batch in every slice and adding what the shards hand in gives
back the rows of the table, entry by entry and bit by bit. The exception is minus zero: with two
shards or more some zero is added to every entry, and minus zero and zero are zero. A single
shard adds nothing, so with it minus zero comes back too.

The lookup needs room for the list of slices and for the embeddings that a shard hands in. Where
there is none it faults, and for a table and a batch that are stored this is the only way to fail.
-/

namespace ShardedModel

open Outcome

variable {α : Type}

/-! ## Entries of a stack -/

/-- The entry of a stack at a position is the entry of the line of the token that stands there. -/
theorem TokenBatch.exists_get_stack {tokens : TokenBatch} {dim : Nat} {line : Int → Array α}
    (hsizes : ∀ id ∈ tokens.ids, (line id).size = dim)
    (hids : tokens.ids.length = tokens.batch * tokens.seqLen)
    (hlines : tokens.batch * tokens.seqLen < Word.limit)
    (hcount : tokens.batch * tokens.seqLen * dim < Word.limit) {b s d : Nat}
    (hb : b < tokens.batch) (hs : s < tokens.seqLen) (hd : d < dim) :
    ∃ id x, tokens.get b s = .ok id ∧ (line id)[d]? = some x ∧
      (tokens.stack dim line).get b s d = .ok x := by
  have hposition := Tensor2.index_lt hb hs
  have hentry := Tensor2.index_lt hposition hd
  obtain ⟨id, hid⟩ : ∃ id, tokens.ids[b * tokens.seqLen + s]? = some id :=
    ⟨_, List.getElem?_eq_getElem (hids ▸ hposition)⟩
  obtain ⟨x, hx⟩ : ∃ x, (line id)[d]? = some x :=
    ⟨_, Array.getElem?_eq_getElem (hsizes id (List.mem_of_getElem? hid) ▸ hd)⟩
  have hparts : ∀ part ∈ tokens.ids.map line, part.size = dim := by
    intro part hpart
    obtain ⟨id, hid, rfl⟩ := List.mem_map.mp hpart
    exact hsizes id hid
  have hpart : (tokens.ids.map line)[b * tokens.seqLen + s]? = some (line id) := by
    rw [List.getElem?_map, hid]
    rfl
  have hline : (⟨Flat.concat (tokens.ids.map line), 0, dim⟩ : Tensor2 α).line
      (b * tokens.seqLen + s) = line id := Tensor2.line_concat hparts hpart
  have hread := Tensor2.getElem?_line ⟨Flat.concat (tokens.ids.map line), 0, dim⟩
    (b * tokens.seqLen + s) hd
  rw [hline, hx] at hread
  refine ⟨id, x, ?_, hx, ?_⟩
  · rw [get, Word.mul_of_lt (by omega), ok_bind, Word.add_of_lt (by omega), ok_bind, hid]
  · exact Tensor3.get_of_data (t := tokens.stack dim line) (Nat.lt_trans hposition hlines)
      (Nat.lt_trans hentry hcount) hread.symm

/-! ## Looking up in shards -/

/-- The embeddings of a batch, looked up in a table that is cut into `n` slices. -/
def embedSharded [Zero α] [Add α] (table : Tensor2 α) (n : Nat) (tokens : TokenBatch) :
    Outcome (Tensor3 α) := do
  let plan ← Plan.cut table.rows n
  let slices ← splitTable table plan
  let results ← (plan.shards.zip slices).mapM fun e => gather e.1 e.2 tokens
  combine results plan

/-- The rows of the tokens of a batch, with a function applied to their entries. -/
def rowsOf (table : Tensor2 α) (tokens : TokenBatch) (f : α → α) : Tensor3 α :=
  tokens.stack table.cols fun token => (table.line (tokenId table.rows token)).map f

/-- The table and the batch are whole, and words count their entries. -/
structure Stored (table : Tensor2 α) (tokens : TokenBatch) : Prop where
  whole : table.WellFormed
  entries : table.data.size < Word.limit
  ids : tokens.ids.length = tokens.batch * tokens.seqLen
  lines : tokens.batch * tokens.seqLen < Word.limit

/-- There is room for the list of slices, which doubles as it grows, and for what a shard hands
in. -/
structure LookupRoom (table : Tensor2 α) (tokens : TokenBatch) (n : Nat) : Prop where
  slices : TableSlice.recordBytes * Storage.capacity n < Word.signedLimit
  embeddings : Storage.entryBytes * (tokens.batch * tokens.seqLen * table.cols) < Word.signedLimit

/-- An id of the vocabulary stands for itself. -/
theorem tokenId_of_lt {v row : Nat} (hv : v ≤ Word.signedLimit) (h : row < v) :
    tokenId v (Int.ofNat row) = row := by
  rw [tokenId, toSigned_of_lt (by omega), Int.ofNat_eq_natCast]
  omega

section Lookup

variable [Zero α] [Add α] {table : Tensor2 α} {tokens : TokenBatch} {n : Nat}

/-- A lookup in shards, when the table has been cut. -/
theorem embedSharded_eq_combine (hstored : Stored table tokens) (hv : table.rows ≤ Word.signedLimit)
    (hn : 1 ≤ n) (hle : n ≤ table.rows)
    (hslices : TableSlice.recordBytes * Storage.capacity n < Word.signedLimit) :
    ∃ plan, plan.CutOf table.rows n ∧ embedSharded table n tokens = (do
      let results ← (List.range n).mapM fun i =>
        gather (Plan.shardAt table.rows n i) (sliceAt table table.rows n i) tokens
      combine results plan) := by
  have hlimit : table.rows < Word.limit := Nat.lt_of_le_of_lt hv (by decide)
  have hcut := Plan.cut_of_le hn hle hlimit (shards_room hslices)
  have hplan := Plan.cutOf_of_cut hcut
  refine ⟨_, hplan, ?_⟩
  rw [embedSharded, hcut, ok_bind,
    splitTable_of_cut hplan hstored.whole.filled hstored.entries rfl hslices, ok_bind,
    List.zip_map', List.mapM_map]
  rfl

theorem embedSharded_eq_rowsOf {Plain : α → Prop} {settle : α → α}
    (hsettles : ZeroSettles Plain settle) (hplain : ∀ x ∈ table.data, Plain x)
    (hstored : Stored table tokens) (hv : table.rows ≤ Word.signedLimit) (hn : 1 ≤ n)
    (hle : n ≤ table.rows) (hroom : LookupRoom table tokens n) :
    embedSharded table n tokens = .ok (rowsOf table tokens (if n = 1 then id else settle)) := by
  obtain ⟨plan, hplan, heq⟩ := embedSharded_eq_combine hstored hv hn hle hroom.slices
  have hgather : (List.range n).mapM (fun i =>
      gather (Plan.shardAt table.rows n i) (sliceAt table table.rows n i) tokens) =
      .ok (contributions table tokens n) :=
    mapM_eq_ok_map fun i hi => gather_sliceAt hplan hv (List.mem_range.mp hi)
      hstored.whole.filled hstored.entries rfl hstored.ids hstored.lines hroom.embeddings
  rw [heq, hgather, ok_bind, combine_settled hplan hsettles hplain hstored.whole.filled]
  congr 2
  funext token
  have hlt := (clampToVocab_of_le hv (Nat.lt_of_lt_of_le hn hle) token).2
  have hrow : rowWithin table 0 table.rows (tokenId table.rows token) =
      table.line (tokenId table.rows token) := if_pos ⟨Nat.zero_le _, hlt⟩
  rw [hrow]

omit [Add α] in
/-- Without room for what it hands in a shard faults. -/
theorem gather_of_no_room {plan : Plan} {v i : Nat} (hplan : plan.CutOf v n)
    (hv : v ≤ Word.signedLimit) (hi : i < n) {slice : TableSlice α}
    (hcheck : slice.check (Plan.shardAt v n i) = .ok ())
    (hroom : Word.signedLimit ≤ Storage.entryBytes * (tokens.ids.length * slice.table.cols)) :
    gather (Plan.shardAt v n i) slice tokens = .error .fault := by
  obtain ⟨located, hlocated⟩ : ∃ located,
      tokens.ids.mapM (localRow (Plan.shardAt v n i)) = .ok located := by
    exact mapM_of_forall fun token _ => ⟨_, localRow_eq_nearestRow hplan hv hi token⟩
  rw [(mapM_eq_ok.mp hlocated).length_eq] at hroom
  rw [gather, hcheck, ok_bind, hlocated, ok_bind, Flat.room_of_no_room (Nat.not_lt.mpr hroom)]
  rfl

theorem embedSharded_of_no_room (hstored : Stored table tokens)
    (hv : table.rows ≤ Word.signedLimit) (hn : 1 ≤ n) (hle : n ≤ table.rows)
    (hroom : ¬ LookupRoom table tokens n) : embedSharded table n tokens = .error .fault := by
  by_cases hslices : TableSlice.recordBytes * Storage.capacity n < Word.signedLimit
  · obtain ⟨plan, hplan, heq⟩ := embedSharded_eq_combine hstored hv hn hle hslices
    have hfull : Word.signedLimit ≤ Storage.entryBytes * (tokens.ids.length * table.cols) := by
      rw [hstored.ids]
      exact Nat.not_lt.mp fun hembeddings => hroom ⟨hslices, hembeddings⟩
    have hfirst : gather (Plan.shardAt table.rows n 0) (sliceAt table table.rows n 0) tokens =
        .error .fault :=
      gather_of_no_room hplan hv hn (check_sliceAt hplan hn) hfull
    -- All shards hand in equally much, so the first one faults already.
    obtain ⟨m, rfl⟩ : ∃ m, n = m + 1 := ⟨n - 1, by omega⟩
    rw [heq, List.range_succ_eq_map, List.mapM_cons, hfirst]
    rfl
  · have hlimit : table.rows < Word.limit := Nat.lt_of_le_of_lt hv (by decide)
    exact cut_splitTable_of_no_room hstored.whole.filled hstored.entries hn hle hlimit hslices _

end Lookup

/-! ## The rows of a batch -/

section Rows

variable {table : Tensor2 α} {tokens : TokenBatch} (hstored : Stored table tokens)
  (hv : table.rows ≤ Word.signedLimit) (hpos : 0 < table.rows)

include hstored hv hpos

theorem size_rowsOf (f : α → α) (token : Int) :
    ((table.line (tokenId table.rows token)).map f).size = table.cols := by
  rw [Array.size_map]
  exact Tensor2.size_line hstored.whole.filled (clampToVocab_of_le hv hpos token).2

theorem wellFormed_rowsOf (f : α → α) : (rowsOf table tokens f).WellFormed := by
  show (Flat.concat (tokens.ids.map _)).size = _
  rw [Flat.size_concat (c := table.cols), List.length_map, hstored.ids]
  · rfl
  · intro part hpart
    obtain ⟨token, -, rfl⟩ := List.mem_map.mp hpart
    exact size_rowsOf hstored hv hpos f token

/-- Each entry comes from the row of the table that the clamped id has. -/
theorem exists_entry_rowsOf (hcount : tokens.batch * tokens.seqLen * table.cols < Word.limit)
    (f : α → α) {b s d : Nat} (hb : b < tokens.batch) (hs : s < tokens.seqLen)
    (hd : d < table.cols) :
    ∃ id row x, tokens.get b s = .ok id ∧ clampToVocab id table.rows = .ok row ∧
      table.get row d = .ok x ∧ (rowsOf table tokens f).get b s d = .ok (f x) := by
  obtain ⟨id, y, hid, hy, hget⟩ := TokenBatch.exists_get_stack
    (fun token _ => size_rowsOf hstored hv hpos f token) hstored.ids hstored.lines hcount hb hs hd
  obtain ⟨hclamp, hlt⟩ := clampToVocab_of_le hv hpos id
  rw [Array.getElem?_map] at hy
  obtain ⟨x, hx, rfl⟩ := Option.map_eq_some_iff.mp hy
  exact ⟨id, _, x, hid, hclamp,
    Tensor2.get_of_line hstored.whole.filled hstored.entries hlt hx, hget⟩

omit hstored in
/-- A batch of clamped ids has the same rows. -/
theorem rowsOf_clamped (f : α → α) :
    rowsOf table { tokens with ids := (tokens.ids.map (tokenId table.rows)).map Int.ofNat } f =
      rowsOf table tokens f := by
  unfold rowsOf TokenBatch.stack
  dsimp only
  rw [List.map_map, List.map_map]
  refine congrArg (fun lines => (⟨Flat.concat lines, _, _, _⟩ : Tensor3 α)) ?_
  refine List.map_congr_left fun token _ => ?_
  rw [Function.comp_apply, Function.comp_apply,
    tokenId_of_lt hv (clampToVocab_of_le hv hpos token).2]

end Rows

/-! ## Bit patterns -/

/-- What becomes of a number that is not a NaN when zero is added to it. -/
def Binary32.plusZero (x : Binary32) : Binary32 := if x = negZero then 0 else x

/-- Two laws of addition settle what a sum of many zeros and one number is. -/
theorem Binary32.zeroSettles [Add Binary32]
    (hzero : ∀ x : Binary32, x.isNaN = false → x ≠ negZero → x + 0 = x ∧ 0 + x = x)
    (hneg : negZero + 0 = 0 ∧ 0 + negZero = 0) :
    ZeroSettles (fun x : Binary32 => x.isNaN = false) plusZero := by
  have hzeros : (0 : Binary32) + 0 = 0 := (hzero 0 (by decide) (by decide)).1
  refine ⟨by decide, by decide, fun x hx => ?_, fun x hx => ?_, fun x hx => ?_⟩
  all_goals
    unfold plusZero
    by_cases h : x = negZero
  · rw [if_pos h, h, hneg.1]
  · rw [if_neg h, (hzero x hx h).1]
  · rw [if_pos h, h, hneg.2]
  · rw [if_neg h, (hzero x hx h).2]
  · rw [if_pos h, hzeros]
  · rw [if_neg h, (hzero x hx h).1]

/-- A lookup in shards faults if it has no room. If it has, every entry of the result is that of
the table in the row of the clamped id, except that minus zero becomes zero where there are two
shards or more. So clamping the ids first changes nothing. -/
theorem embedSharded_reproduces [Add Binary32]
    (hzero : ∀ x : Binary32, x.isNaN = false → x ≠ Binary32.negZero → x + 0 = x ∧ 0 + x = x)
    (hneg : Binary32.negZero + 0 = 0 ∧ 0 + Binary32.negZero = 0)
    {table : Tensor2 Binary32} {tokens : TokenBatch} {n : Nat} (hstored : Stored table tokens)
    (hnan : ∀ x ∈ table.data, x.isNaN = false) (hv : table.rows ≤ Word.signedLimit) (hn : 1 ≤ n)
    (hle : n ≤ table.rows) :
    (LookupRoom table tokens n → ∃ sum, embedSharded table n tokens = .ok sum ∧
      sum.shape = (tokens.batch, tokens.seqLen, table.cols) ∧ sum.WellFormed ∧
      (∀ b < tokens.batch, ∀ s < tokens.seqLen, ∀ d < table.cols, ∃ id row x,
        tokens.get b s = .ok id ∧ clampToVocab id table.rows = .ok row ∧
        table.get row d = .ok x ∧
        sum.get b s d = .ok (if x = Binary32.negZero ∧ 2 ≤ n then 0 else x)) ∧
      ∃ rows, tokens.ids.mapM (clampToVocab · table.rows) = .ok rows ∧
        embedSharded table n { tokens with ids := rows.map Int.ofNat } = .ok sum) ∧
    (¬ LookupRoom table tokens n → embedSharded table n tokens = .error .fault) := by
  have hsettles := Binary32.zeroSettles hzero hneg
  have hpos : 0 < table.rows := Nat.lt_of_lt_of_le hn hle
  refine ⟨fun hroom => ?_, embedSharded_of_no_room hstored hv hn hle⟩
  have hcount := Flat.count_lt (by decide) hroom.embeddings
  have hclamp : tokens.ids.mapM (clampToVocab · table.rows) =
      .ok (tokens.ids.map (tokenId table.rows)) :=
    mapM_eq_ok_map fun id _ => (clampToVocab_of_le hv hpos id).1
  refine ⟨_, embedSharded_eq_rowsOf hsettles hnan hstored hv hn hle hroom, rfl,
    wellFormed_rowsOf hstored hv hpos _, fun b hb s hs d hd => ?_, _, hclamp, ?_⟩
  · obtain ⟨id, row, x, hid, hrow, hx, hget⟩ :=
      exists_entry_rowsOf hstored hv hpos hcount (if n = 1 then id else Binary32.plusZero) hb hs hd
    refine ⟨id, row, x, hid, hrow, hx, hget.trans (congrArg Except.ok ?_)⟩
    by_cases hone : n = 1
    · rw [if_pos hone, if_neg (by omega)]
      rfl
    · rw [if_neg hone, Binary32.plusZero]
      simp [show 2 ≤ n by omega]
  · rw [← rowsOf_clamped hv hpos]
    refine embedSharded_eq_rowsOf hsettles hnan ⟨hstored.whole, hstored.entries, ?_, hstored.lines⟩
      hv hn hle ⟨hroom.slices, hroom.embeddings⟩
    rw [List.length_map, List.length_map, hstored.ids]

/-- Three rows of two numbers, with minus zero in the first two. -/
def signedTable : Tensor2 Binary32 :=
  ⟨#[⟨0x3f800000⟩, .negZero, .negZero, ⟨0x40000000⟩, ⟨0xc0400000⟩, 0], 3, 2⟩

/-- With the sums of the format and with ids from outside of the vocabulary on both sides, minus
zero becomes zero on two shards and stays on one. -/
theorem embedSharded_reproduces_signed :
    let tokens : TokenBatch := ⟨[9, -3, 1], 1, 3⟩
    Stored signedTable tokens ∧ (∀ x ∈ signedTable.data, x.isNaN = false) ∧
    (∃ sum, embedSharded signedTable 2 tokens = .ok sum ∧ sum.shape = (1, 3, 2) ∧
      sum.get 0 1 1 = .ok 0) ∧
    ∃ sum, embedSharded signedTable 1 tokens = .ok sum ∧ sum.get 0 1 1 = .ok .negZero := by
  intro tokens
  have hstored : Stored signedTable tokens := ⟨rfl, by decide, rfl, by decide⟩
  have hnan : ∀ x ∈ signedTable.data, x.isNaN = false := by decide
  have hentry : ∀ n, 1 ≤ n → n ≤ 3 → LookupRoom signedTable tokens n →
      ∃ sum, embedSharded signedTable n tokens = .ok sum ∧ sum.shape = (1, 3, 2) ∧
        sum.get 0 1 1 = .ok (if 2 ≤ n then 0 else .negZero) := by
    intro n hn hle hroom
    obtain ⟨sum, hsum, hshape, -, hentries, -⟩ := (embedSharded_reproduces
      (fun _ hx hneg => Binary32.add_zero_and_zero_add hx hneg) (by decide) hstored hnan
      (by decide) hn hle).1 hroom
    obtain ⟨id, row, x, hid, hrow, hx, hget⟩ := hentries 0 (by decide) 1 (by decide) 1 (by decide)
    obtain rfl : -3 = id := Except.ok.inj hid
    have hfirst : clampToVocab (-3) signedTable.rows = .ok 0 := by cbv
    obtain rfl : 0 = row := Except.ok.inj (hfirst.symm.trans hrow)
    obtain rfl : Binary32.negZero = x := Except.ok.inj hx
    exact ⟨sum, hsum, hshape, hget.trans (by simp)⟩
  obtain ⟨two, htwo, hshape, hzero⟩ := hentry 2 (by decide) (by decide) ⟨by decide, by decide⟩
  obtain ⟨one, hone, -, hneg⟩ := hentry 1 (by decide) (by decide) ⟨by decide, by decide⟩
  exact ⟨hstored, hnan, ⟨two, htwo, hshape, hzero⟩, one, hone, hneg⟩

/-- A table of 2^58 empty rows has no entries, but a list of as many shards would take more bytes
than a block can have. -/
theorem embedSharded_of_too_many_shards :
    let table : Tensor2 Binary32 := ⟨#[], 288230376151711744, 0⟩
    let tokens : TokenBatch := ⟨[0], 1, 1⟩
    Stored table tokens ∧ (∀ x ∈ table.data, x.isNaN = false) ∧ table.rows ≤ Word.signedLimit ∧
    embedSharded table table.rows tokens = .error .fault := by
  intro table tokens
  have hstored : Stored table tokens := ⟨rfl, by decide, rfl, by decide⟩
  have hv : table.rows ≤ Word.signedLimit := by decide
  have hroom : ¬ LookupRoom table tokens table.rows := by
    intro hroom
    exact absurd hroom.slices (by decide)
  exact ⟨hstored, fun x hx => absurd hx (Array.not_mem_empty x), hv,
    embedSharded_of_no_room hstored hv (by decide) (Nat.le_refl _) hroom⟩

end ShardedModel
