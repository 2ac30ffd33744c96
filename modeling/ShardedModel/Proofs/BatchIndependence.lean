import ShardedModel.Proofs.Runnable

/-!
# The sequences of a batch do not influence each other

A call on a batch gives each of its sequences the row that a call on this sequence alone would
give it, bit for bit, so the order of the sequences is the order of the rows and has no other
effect. Nor does a sequence decide whether the others are answered: what makes a call fail is in
the parameters, in the length of the sequences, which all share, or in the room that is asked
for. The last is the one thing that a batch can lack and its sequences alone do not.
-/

namespace ShardedModel

open Outcome

variable {α : Type}

/-! ## Batches of sequences -/

theorem TokenBatch.ofSequences_eq_ok {sequences : List (List Int)} {tokens : TokenBatch} :
    ofSequences sequences = .ok tokens ↔
      ∃ seqLen, Rectangular sequences seqLen ∧ sequences.length * seqLen < Word.limit ∧
        tokens = join sequences seqLen := by
  rw [ofSequences, bind_eq_ok]
  constructor
  · rintro ⟨⟨⟩, hlengths, h⟩
    obtain ⟨hlt, -, hpos, rfl⟩ := ofIds_eq_ok.mp h
    exact ⟨_, ⟨ensure_eq_ok.mp hlengths, by omega, by omega⟩, hlt, rfl⟩
  · rintro ⟨seqLen, hrect, hlt, rfl⟩
    have hhead : (sequences.head?.map List.length).getD 0 = seqLen := by
      cases sequences with
      | nil => exact absurd hrect.nonempty (Nat.lt_irrefl 0)
      | cons s rest => exact hrect.lengths s List.mem_cons_self
    have hpos := hrect.nonempty
    have hpos' := hrect.seqLen_pos
    refine ⟨(), ensure_of (by rw [hhead]; exact hrect.lengths), ?_⟩
    rw [hhead, ofIds_eq_ok]
    exact ⟨hlt, hrect.length_flatten, by omega, rfl⟩

theorem Rectangular.single {sequences : List (List Int)} {seqLen : Nat}
    (h : Rectangular sequences seqLen) {s : List Int} (hs : s ∈ sequences) :
    Rectangular [s] seqLen := by
  refine ⟨?_, Nat.one_pos, h.seqLen_pos⟩
  intro s' hs'
  rw [List.mem_singleton] at hs'
  subst hs'
  exact h.lengths s' hs

theorem Parameters.RoomFor.of_le {params : Parameters α} {batch batch' seqLen : Nat}
    (h : params.RoomFor batch seqLen) (hle : batch' ≤ batch) : params.RoomFor batch' seqLen := by
  have hlines : batch' * seqLen ≤ batch * seqLen := Nat.mul_le_mul_right _ hle
  refine ⟨?_, ?_, ?_, fun s hs => ?_⟩
  · exact Nat.lt_of_le_of_lt (Nat.mul_le_mul_left _ (Nat.mul_le_mul_right _ hlines)) h.embeddings
  · exact Nat.lt_of_le_of_lt (Nat.mul_le_mul_left _ hlines) h.numbers
  · exact Nat.lt_of_le_of_lt (Nat.mul_le_mul_left _ hle) h.matrices
  · exact Nat.lt_of_le_of_lt (Nat.mul_le_mul_left _ (Nat.mul_le_mul_left _ hle)) (h.scores s hs)

/-- Other sequences of the same length can take the place of some, if they are not more. -/
theorem Parameters.Serves.of_le {params : Parameters α} {v n seqLen : Nat}
    {sequences sequences' : List (List Int)} (h : params.Serves v n sequences seqLen)
    (hrect : Rectangular sequences' seqLen) (hle : sequences'.length ≤ sequences.length) :
    params.Serves v n sequences' seqLen :=
  ⟨hrect, h.checked, h.vocab, h.sound, h.words, h.room.of_le hle, h.seqLen_eq⟩

/-- Sequences in another order. -/
theorem Rectangular.reorder {sequences : List (List Int)} {seqLen : Nat}
    (h : Rectangular sequences seqLen) {order : List Nat}
    (horder : order.Perm (List.range sequences.length)) :
    Rectangular (order.map (sequences.getD · [])) seqLen ∧
      (order.map (sequences.getD · [])).length = sequences.length := by
  have hlength : (order.map (sequences.getD · [])).length = sequences.length := by
    rw [List.length_map, horder.length_eq, List.length_range]
  refine ⟨⟨fun s hs => ?_, by rw [hlength]; exact h.nonempty, h.seqLen_pos⟩, hlength⟩
  obtain ⟨b, hb, rfl⟩ := List.mem_map.mp hs
  have hb : b < sequences.length := List.mem_range.mp (horder.mem_iff.mp hb)
  refine h.lengths _ ?_
  simp [List.getD_eq_getElem?_getD, hb]

/-! ## Calls -/

section Calls

variable [Zero α] [Add α] [Mul α] [Ord α]

/-- A call on a batch succeeds exactly if there is room and the calls on its sequences succeed.
It gives each sequence the row that it gets alone, and keeps to their order. The lists that a call
puts together besides are as long for one sequence as for many, so they make no difference. -/
theorem infer_eq_by_sequence {v n : Nat} {plan : Plan} (hplan : Plan.cut v n = .ok plan)
    (hv : v < Word.limit) {params : Parameters α}
    (hwords : ∀ s ∈ params.shards, s.table.data.size < Word.limit) {options : CallOptions}
    {c : Coordinator α} (hc : Coordinator.create plan params options = .ok c)
    {sequences : List (List Int)} {tokens : TokenBatch}
    (htokens : TokenBatch.ofSequences sequences = .ok tokens) (k ms : Nat) :
    ((∃ p, (c.infer tokens k ms).1 = .ok p) ↔
      params.RoomFor tokens.batch tokens.seqLen ∧
        ∀ s ∈ sequences, ∃ t p, TokenBatch.ofSequences [s] = .ok t ∧
          (c.infer t k ms).1 = .ok p) ∧
    ∀ p, (c.infer tokens k ms).1 = .ok p →
      List.Forall₂ (fun s row => ∃ t, TokenBatch.ofSequences [s] = .ok t ∧
        (c.infer t k ms).1 = .ok ⟨[row]⟩) sequences p.rows ∧
      ∀ order : List Nat, order.Perm (List.range sequences.length) →
        ∃ t, TokenBatch.ofSequences (order.map (sequences.getD · [])) = .ok t ∧
          (c.infer t k ms).1 = .ok ⟨order.map (p.rows.getD · [])⟩ := by
  have hcut := Plan.cutOf_of_cut hplan
  obtain ⟨seqLen, hrect, hlt, rfl⟩ := TokenBatch.ofSequences_eq_ok.mp htokens
  have hpos := hrect.nonempty
  have hone : seqLen ≤ sequences.length * seqLen := Nat.le_mul_of_pos_left _ hpos
  have hiff : ∀ {sequences : List (List Int)} {p : Prediction α}, Rectangular sequences seqLen →
      ((c.infer (.join sequences seqLen) k ms).1 = .ok p ↔
        (1 ≤ k ∧ k ≤ v / n) ∧ params.Serves v n sequences seqLen ∧
          p = ⟨sequences.map (params.predictSequence v n k)⟩) :=
    fun hrect => Coordinator.infer_eq_ok_iff hcut hv hwords hc hrect
  have hsingle : ∀ s ∈ sequences,
      TokenBatch.ofSequences [s] = .ok (.join [s] seqLen) := fun s hs =>
    TokenBatch.ofSequences_eq_ok.mpr ⟨seqLen, hrect.single hs, by simp; omega, rfl⟩
  refine ⟨⟨?_, ?_⟩, fun p hp => ?_⟩
  · rintro ⟨p, hp⟩
    obtain ⟨hk, hserves, -⟩ := (hiff hrect).mp hp
    refine ⟨hserves.room, fun s hs => ⟨_, _, hsingle s hs, (hiff (hrect.single hs)).mpr
      ⟨hk, hserves.of_le (hrect.single hs) hpos, rfl⟩⟩⟩
  · rintro ⟨hroom, hcalls⟩
    -- All that is asked for besides room is the same for each of the sequences.
    obtain ⟨s, hs⟩ := List.exists_mem_of_length_pos hpos
    obtain ⟨t, p, ht, hp⟩ := hcalls s hs
    obtain rfl : TokenBatch.join [s] seqLen = t := Except.ok.inj ((hsingle s hs).symm.trans ht)
    obtain ⟨hk, hserves, -⟩ := (hiff (hrect.single hs)).mp hp
    exact ⟨_, (hiff hrect).mpr ⟨hk, ⟨hrect, hserves.checked, hserves.vocab, hserves.sound,
      hserves.words, hroom, hserves.seqLen_eq⟩, rfl⟩⟩
  · obtain ⟨hk, hserves, rfl⟩ := (hiff hrect).mp hp
    refine ⟨?_, fun order horder => ?_⟩
    · rw [List.forall₂_map_right_iff, List.forall₂_same]
      intro s hs
      exact ⟨_, hsingle s hs, (hiff (hrect.single hs)).mpr
        ⟨hk, hserves.of_le (hrect.single hs) hpos, rfl⟩⟩
    · obtain ⟨hrect', hlength⟩ := hrect.reorder horder
      refine ⟨_, TokenBatch.ofSequences_eq_ok.mpr ⟨seqLen, hrect', by rw [hlength]; exact hlt, rfl⟩,
        (hiff hrect').mpr ⟨hk, hserves.of_le hrect' (Nat.le_of_eq hlength), ?_⟩⟩
      rw [List.map_map]
      congr 1
      refine List.map_congr_left fun b hb => ?_
      have hb : b < sequences.length := List.mem_range.mp (horder.mem_iff.mp hb)
      simp [List.getD_eq_getElem?_getD, hb]

end Calls

/-- Two sequences on two shards: together, each alone, and the other way round. -/
theorem infer_eq_by_sequence_swapped :
    let plan : Plan := ⟨5, [⟨0, 0, 2, 2, 5⟩, ⟨1, 2, 5, 2, 5⟩]⟩
    let params : Parameters Binary32 :=
      ⟨[sliceAt tiedTable 5 2 0, sliceAt tiedTable 5 2 1], tiedProjection⟩
    Plan.cut 5 2 = .ok plan ∧
    TokenBatch.ofSequences [[9, -3], [1, 3]] = .ok ⟨[9, -3, 1, 3], 2, 2⟩ ∧
    ∃ c, Coordinator.create plan params .standard = .ok c ∧ ∃ first second,
      (c.infer ⟨[9, -3, 1, 3], 2, 2⟩ 2 0).1 = .ok ⟨[first, second]⟩ ∧
      (c.infer ⟨[9, -3], 1, 2⟩ 2 0).1 = .ok ⟨[first]⟩ ∧
      (c.infer ⟨[1, 3], 1, 2⟩ 2 0).1 = .ok ⟨[second]⟩ ∧
      (c.infer ⟨[1, 3, 9, -3], 2, 2⟩ 2 0).1 = .ok ⟨[second, first]⟩ := by
  intro plan params
  have hplan : Plan.cut 5 2 = .ok plan := rfl
  have hcut := Plan.cutOf_of_cut hplan
  have hparams : params.validate plan = .ok () := validate_of_split hcut rfl
  have hwords : ∀ s ∈ params.shards, s.table.data.size < Word.limit := by decide
  have hserves : params.Serves 5 2 [[9, -3], [1, 3]] 2 :=
    ⟨⟨by decide, by decide, by decide⟩, Parameters.checked_of_validate hcut hparams, by decide,
      ⟨by decide, by decide, rfl, by decide, rfl⟩, hwords,
      ⟨by decide, by decide, by decide, by decide⟩, rfl⟩
  obtain ⟨c, hc, -⟩ := Coordinator.exists_create hcut hparams (k := 2) (by decide) (by decide)
    .standard
  have htokens : TokenBatch.ofSequences [[9, -3], [1, 3]] = .ok ⟨[9, -3, 1, 3], 2, 2⟩ := rfl
  have hp : (c.infer (.join [[9, -3], [1, 3]] 2) 2 0).1 = .ok _ :=
    (Coordinator.infer_eq_ok_iff hcut (by decide) hwords hc hserves.toRectangular).mpr
      ⟨by decide, hserves, rfl⟩
  obtain ⟨-, hrows⟩ := infer_eq_by_sequence hplan (by decide) hwords hc htokens 2 0
  obtain ⟨halone, horders⟩ := hrows _ hp
  obtain ⟨swapped, hjoin, hswapped⟩ := horders [1, 0] (List.Perm.swap 0 1 [])
  cases hjoin
  rw [List.forall₂_map_right_iff, List.forall₂_same] at halone
  obtain ⟨alone, hjoin, hfirst⟩ := halone [9, -3] (by decide)
  cases hjoin
  obtain ⟨alone, hjoin, hsecond⟩ := halone [1, 3] (by decide)
  cases hjoin
  exact ⟨hplan, htokens, c, hc, _, _, hp, hfirst, hsecond, hswapped⟩

/-! ## Batches that lack room -/

/-- Parameters for one shard with `v` ids, whose embeddings have no entries. -/
def emptyRows (v : Nat) : Parameters Binary32 :=
  ⟨[⟨0, ⟨#[], v, 0⟩⟩], ⟨⟨#[], 0, 1⟩, ⟨#[], 1, 0⟩⟩⟩

/-- With `v` ids, each of `batch` sequences of one token is answered alone, and together they are
not, although all tensors are whole, words count their entries and all lists have room. -/
def OnlyAloneOn (v batch : Nat) : Prop :=
  let plan : Plan := ⟨v, [⟨0, 0, v, 1, v⟩]⟩
  let sequences : List (List Int) := List.replicate batch [0]
  Plan.cut v 1 = .ok plan ∧
  (∀ s ∈ (emptyRows v).shards, s.table.WellFormed) ∧
  (emptyRows v).projection.stageA.WellFormed ∧ (emptyRows v).projection.stageB.WellFormed ∧
  (emptyRows v).ListsFit 1 ∧ v * batch < Word.limit ∧
  ∀ options, ∃ c tokens, Coordinator.create plan (emptyRows v) options = .ok c ∧
    TokenBatch.ofSequences sequences = .ok tokens ∧
    (∀ s ∈ sequences, ∃ t p, TokenBatch.ofSequences [s] = .ok t ∧ (c.infer t 1 0).1 = .ok p) ∧
    ∀ p, (c.infer tokens 1 0).1 ≠ .ok p

theorem serves_emptyRows {v batch : Nat} {plan : Plan} (hcut : plan.CutOf v 1)
    (hvalid : (emptyRows v).validate plan = .ok ()) (hv : v ≤ Word.signedLimit)
    (hrect : Rectangular (List.replicate batch [0]) 1) :
    (emptyRows v).Serves v 1 (List.replicate batch [0]) 1 ↔
      Tensor3.matrixBytes * batch < Word.signedLimit ∧
        Storage.entryBytes * (v * batch) < Word.signedLimit := by
  have hchecked := Parameters.checked_of_validate hcut hvalid
  constructor
  · intro h
    have hscores := h.room.scores _ List.mem_cons_self
    have hmatrices := h.room.matrices
    rw [List.length_replicate] at hscores hmatrices
    exact ⟨hmatrices, hscores⟩
  · rintro ⟨hmatrices, hscores⟩
    have hwords : ∀ s ∈ (emptyRows v).shards, s.table.data.size < Word.limit := by
      simp [emptyRows, Word.limit]
    refine ⟨hrect, hchecked, hv, ⟨?_, ?_, rfl, ?_, rfl⟩, hwords, ⟨?_, ?_, ?_, ?_⟩, rfl⟩
    · simp [emptyRows, Tensor2.Filled]
    · exact Nat.le_refl 0
    · exact Nat.le_refl 0
    · show Storage.entryBytes * (_ * 0) < Word.signedLimit
      rw [Nat.mul_zero]
      decide
    · rw [List.length_replicate, Nat.mul_one]
      exact Nat.lt_of_le_of_lt (Nat.mul_le_mul_right _ (by decide)) hmatrices
    · rw [List.length_replicate]
      exact hmatrices
    · rw [List.length_replicate]
      simpa [emptyRows] using hscores

theorem onlyAloneOn_of_scores {v batch : Nat} (hv : 1 ≤ v) (hbatch : 1 ≤ batch)
    (hlists : (emptyRows v).ListsFit 1) (hcount : v * batch < Word.limit)
    (hscores : Word.signedLimit ≤ Storage.entryBytes * (v * batch)) : OnlyAloneOn v batch := by
  have hranking := (hlists _ List.mem_cons_self).ranking
  have hroom : Storage.entryBytes * v < Word.signedLimit :=
    Nat.lt_of_le_of_lt (Nat.mul_le_mul_right _ (by decide)) hranking
  have hsigned : v ≤ Word.signedLimit :=
    Nat.le_of_lt (Nat.lt_of_le_of_lt (Nat.le_mul_of_pos_left v (by decide)) hroom)
  have hlimit : v < Word.limit := Nat.lt_of_le_of_lt hsigned (by decide)
  have hplan : Plan.cut v 1 = .ok ⟨v, [⟨0, 0, v, 1, v⟩]⟩ := by
    rw [Plan.cut_of_le Nat.one_pos hv hlimit (by decide)]
    simp [Plan.shardAt, Plan.bound]
  have hcut := Plan.cutOf_of_cut hplan
  have hvalid : (emptyRows v).validate ⟨v, [⟨0, 0, v, 1, v⟩]⟩ = .ok () := by
    refine (Parameters.validate_eq_ok hcut).mpr ⟨rfl, fun i s hs => ?_⟩
    obtain ⟨hi, rfl⟩ := List.getElem?_eq_some_iff.mp hs
    obtain rfl : i = 0 := Nat.lt_one_iff.mp hi
    exact ⟨rfl, by simp [emptyRows, Plan.bound], rfl⟩
  have hwords : ∀ s ∈ (emptyRows v).shards, s.table.data.size < Word.limit := by
    simp [emptyRows, Word.limit]
  have hrect : ∀ {b}, 1 ≤ b → Rectangular (List.replicate b [0]) 1 := fun hb =>
    ⟨by simp [List.mem_replicate], by rw [List.length_replicate]; exact hb, Nat.one_pos⟩
  refine ⟨hplan, by simp [emptyRows, Tensor2.WellFormed], rfl, rfl, hlists, hcount,
    fun options => ?_⟩
  obtain ⟨c, hc⟩ : ∃ c, Coordinator.create ⟨v, [⟨0, 0, v, 1, v⟩]⟩ (emptyRows v) options =
      .ok c := by
    rw [Coordinator.create, hvalid]
    exact ⟨_, rfl⟩
  have hbatchLimit : batch < Word.limit :=
    Nat.lt_of_le_of_lt (Nat.le_mul_of_pos_left batch hv) hcount
  refine ⟨c, .join (List.replicate batch [0]) 1, hc, TokenBatch.ofSequences_eq_ok.mpr
    ⟨1, hrect hbatch, by simpa using hbatchLimit, rfl⟩, fun s hs => ?_, fun p hp => ?_⟩
  · obtain rfl := List.eq_of_mem_replicate hs
    have hserves := (serves_emptyRows hcut hvalid hsigned (hrect (Nat.le_refl 1))).mpr
      ⟨by decide, by simpa using hroom⟩
    exact ⟨_, _, rfl, (Coordinator.infer_eq_ok_iff hcut hlimit hwords hc
      (hrect (Nat.le_refl 1))).mpr ⟨⟨Nat.le_refl 1, by simpa using hv⟩, hserves, rfl⟩⟩
  · obtain ⟨-, hserves, -⟩ :=
      (Coordinator.infer_eq_ok_iff hcut hlimit hwords hc (hrect hbatch)).mp hp
    have hfew := ((serves_emptyRows hcut hvalid hsigned (hrect hbatch)).mp hserves).2
    exact absurd hfew (Nat.not_lt.mpr hscores)

/-- The scores of 2^32 ids for 2^29 sequences, and those of 2^58 ids for eight, take 2^63 bytes. -/
theorem infer_of_too_many_sequences :
    OnlyAloneOn 4294967296 536870912 ∧ OnlyAloneOn 288230376151711744 8 :=
  ⟨onlyAloneOn_of_scores (by decide) (by decide) (by decide) (by decide) (by decide),
    onlyAloneOn_of_scores (by decide) (by decide) (by decide) (by decide) (by decide)⟩

end ShardedModel
