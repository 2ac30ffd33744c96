import ShardedModel.Proofs.Cut

/-!
# Every id has one owner

The ranges of a cut stand end to end, from zero to the size of the vocabulary. So an id of
the vocabulary is at exactly one position of exactly one range, and the upper ends of the
ranges increase, which is all that the binary search for the owner of an id relies on.

Nothing in a cut gets too large for a word, since every product that is formed is at most
the size of the vocabulary. The one thing that can be too large is the list of the shards
itself: it is asked for as one block, and a vocabulary of a word's size can be cut into
more shards than a block has room for.
-/

namespace ShardedModel.Plan

/-! ## Binary search -/

/-- If `passed` is true up to a position and false from there on, the search finds the
position. What is left of the range has it inside or at its end, and halving keeps that. -/
theorem search_eq {passed : Nat → Bool} {base size first : Nat} (hsize : 0 < size)
    (hlo : base ≤ first) (hhi : first ≤ base + size)
    (h : ∀ i, base ≤ i → i < base + size → (passed i = true ↔ i < first)) :
    search passed base size = first := by
  fun_induction search passed base size with
  | case1 base size hone hpassed =>
      have hbefore := (h base (Nat.le_refl _) (by omega)).mp hpassed
      omega
  | case2 base size hone hpassed =>
      have hnot := mt (h base (Nat.le_refl _) (by omega)).mpr hpassed
      omega
  | case3 base size hone half ih =>
      have hmiddle := h (base + half) (by omega) (by omega)
      by_cases hpassed : passed (base + half) = true
      · have hbefore := hmiddle.mp hpassed
        simp only [hpassed, dite_true, if_true] at ih ⊢
        exact ih (by omega) (by omega) (by omega) fun i hi hi' => h i (by omega) (by omega)
      · have hnot := mt hmiddle.mpr hpassed
        simp only [hpassed, dite_false, if_false, Bool.false_eq_true] at ih ⊢
        exact ih (by omega) hlo (by omega) fun i hi hi' => h i hi (by omega)

/-! ## Ranges end to end -/

section Bounds

variable {v n : Nat}

theorem bound_mono {i j : Nat} (hij : i ≤ j) (hj : j ≤ n) : bound v n i ≤ bound v n j := by
  induction j with
  | zero =>
      obtain rfl : i = 0 := by omega
      exact Nat.le_refl _
  | succ j ih =>
      rcases Nat.lt_or_ge i (j + 1) with hlt | hge
      · exact Nat.le_trans (ih (by omega) (by omega)) (bound_le_succ hj)
      · obtain rfl : i = j + 1 := by omega
        exact Nat.le_refl _

/-- An id below a bound is in one of the ranges before it. -/
theorem exists_range {id m : Nat} (hm : m ≤ n) (hn : 0 < n) (hid : id < bound v n m) :
    ∃ i < m, bound v n i ≤ id ∧ id < bound v n (i + 1) := by
  induction m with
  | zero =>
      rw [bound_zero hn] at hid
      omega
  | succ m ih =>
      by_cases hbelow : id < bound v n m
      · obtain ⟨i, hi, hrange⟩ := ih (by omega) hbelow
        exact ⟨i, by omega, hrange⟩
      · exact ⟨m, Nat.lt_succ_self m, by omega, hid⟩

theorem range_unique {id i j : Nat} (hi : i < n) (hj : j < n)
    (hin : bound v n i ≤ id ∧ id < bound v n (i + 1))
    (hin' : bound v n j ≤ id ∧ id < bound v n (j + 1)) : i = j := by
  -- If one came first, the other would begin at or above its end.
  have hapart : ∀ {a b : Nat}, a < b → b < n → bound v n b ≤ id → ¬ id < bound v n (a + 1) := by
    intro a b hab hb hlo hhi
    have hle : bound v n (a + 1) ≤ bound v n b := bound_mono hab (Nat.le_of_lt hb)
    omega
  rcases Nat.lt_trichotomy i j with hlt | heq | hgt
  · exact absurd hin.2 (hapart hlt hj hin'.1)
  · exact heq
  · exact absurd hin'.2 (hapart hgt hi hin.1)

/-- The last range has the remainder on top of what all have. -/
theorem bound_sub {i : Nat} (hi : i < n) :
    bound v n (i + 1) - bound v n i = if i + 1 = n then v / n + v % n else v / n := by
  rw [bound_of_lt hi, bound]
  split
  · next hlast =>
      have hparts : n * (v / n) + v % n = v := Nat.div_add_mod v n
      have hmul : n * (v / n) = i * (v / n) + v / n := by rw [← hlast, Nat.succ_mul]
      generalize v / n = quotient at hparts hmul ⊢
      omega
  · rw [Nat.succ_mul, Nat.add_sub_cancel_left]

end Bounds

/-! ## What a cut is -/

/-- A position in the ranges of a plan: a shard, and an index below its width. -/
def HasPosition (p : Plan) (place : Shard × Nat) : Prop :=
  place.1 ∈ p.shards ∧ ∃ width, place.1.width = .ok width ∧ place.2 < width

/-- The shards of the plan divide the ids below `v` among `n` of them. -/
structure Divides (p : Plan) (v n : Nat) : Prop where
  vocabSize : p.vocabSize = v
  shardCount : p.shardCount = n
  /-- Each shard has its place in the list for its id, and the sizes of the plan. -/
  numbered : ∀ (i : Nat) (s : Shard), p.shards[i]? = some s →
    s.id = i ∧ s.shardCount = n ∧ s.vocabSize = v
  nonempty : ∀ s ∈ p.shards, s.lo < s.hi
  starts : p.shards.head?.map (·.lo) = some 0
  ends : p.shards.getLast?.map (·.hi) = some v
  contiguous : ∀ (i : Nat) (s t : Shard), p.shards[i]? = some s →
    p.shards[i + 1]? = some t → t.lo = s.hi
  widths : ∀ (i : Nat) (s : Shard), p.shards[i]? = some s →
    s.width = .ok (if i + 1 = n then v / n + v % n else v / n)
  /-- Positions have ids of the vocabulary, and no overflow on the way to them. -/
  global : ∀ place, p.HasPosition place → ∃ id < v, place.1.toGlobal place.2 = .ok id
  /-- Each id of the vocabulary is that of one position. -/
  positions : ∀ id < v, ∃! place, p.HasPosition place ∧ place.1.toGlobal place.2 = .ok id
  owner : ∀ id < v, ∃ s ∈ p.shards, p.ownerOf id = some s.id ∧ s.contains id = true ∧
    ∀ t ∈ p.shards, t.contains id = true → t = s
  outside : ∀ id, v ≤ id → p.ownerOf id = none ∧ ∀ s ∈ p.shards, s.contains id = false

namespace CutOf

variable {p : Plan} {v n : Nat}

theorem hasPosition_iff (h : p.CutOf v n) {place : Shard × Nat} :
    p.HasPosition place ↔ ∃ i < n, place.1 = shardAt v n i ∧
      place.2 < bound v n (i + 1) - bound v n i := by
  constructor
  · rintro ⟨hmem, width, hwidth, hlt⟩
    obtain ⟨i, hi, hs⟩ := h.mem_shards.mp hmem
    rw [← hs, width_shardAt hi, Except.ok.injEq] at hwidth
    exact ⟨i, hi, hs.symm, hwidth ▸ hlt⟩
  · rintro ⟨i, hi, hs, hlt⟩
    exact ⟨h.mem_shards.mpr ⟨i, hi, hs.symm⟩, _, hs ▸ width_shardAt hi, hlt⟩

/-- The id at a position is in the vocabulary, so that it fits a word. -/
theorem toGlobal_eq (hv : v < Word.limit) {i index : Nat} (hi : i < n)
    (hindex : index < bound v n (i + 1) - bound v n i) :
    (shardAt v n i).toGlobal index = .ok (index + bound v n i) ∧ index + bound v n i < v := by
  have hle : bound v n (i + 1) ≤ v := bound_le hi
  rw [Shard.toGlobal, shardAt_lo hi, Word.add_of_lt (by omega)]
  exact ⟨rfl, by omega⟩

/-- The upper ends up to the range of an id are passed, and no others. -/
theorem ownerOf_eq (h : p.CutOf v n) {id i : Nat} (hi : i < n)
    (hin : bound v n i ≤ id ∧ id < bound v n (i + 1)) : p.ownerOf id = some i := by
  have hpos := h.pos
  have hlt : id < p.vocabSize := by
    rw [h.vocabSize]
    exact Nat.lt_of_lt_of_le hin.2 (bound_le hi)
  have hlength : p.shards.length = n := h.shardCount
  have hempty : p.shards.isEmpty = false := by
    rw [List.isEmpty_eq_false_iff, ne_eq, ← List.length_eq_zero_iff]
    omega
  have hpassed : ∀ j, 0 ≤ j → j < 0 + n →
      ((p.shards[j]?.any fun s => decide (s.hi ≤ id)) = true ↔ j < i) := by
    intro j _ hj
    rw [h.getElem?_shards.mpr ⟨by omega, rfl⟩, Option.any_some, shardAt_hi, decide_eq_true_iff]
    constructor
    · intro hle
      by_contra hge
      have hmono : bound v n (i + 1) ≤ bound v n (j + 1) := bound_mono (by omega) (by omega)
      omega
    · intro hji
      exact Nat.le_trans (bound_mono hji (Nat.le_of_lt hi)) hin.1
  have hsearch : search (fun j => p.shards[j]?.any fun s => decide (s.hi ≤ id)) 0 n = i :=
    search_eq hpos (Nat.zero_le i) (by omega) hpassed
  rw [ownerOf, if_pos hlt]
  simp only [hempty, Bool.false_eq_true, if_false, hlength, hsearch]
  rw [h.getElem?_shards.mpr ⟨hi, rfl⟩]
  rfl

theorem divides (h : p.CutOf v n) (hv : v < Word.limit) : p.Divides v n where
  vocabSize := h.vocabSize
  shardCount := h.shardCount
  numbered := by
    intro i s hs
    obtain ⟨-, rfl⟩ := h.getElem?_shards.mp hs
    exact ⟨rfl, rfl, rfl⟩
  nonempty := by
    intro s hs
    obtain ⟨i, hi, rfl⟩ := h.mem_shards.mp hs
    rw [shardAt_lo hi]
    exact h.bound_lt_succ hi
  starts := by
    rw [List.head?_eq_getElem?, h.getElem?_shards.mpr ⟨h.pos, rfl⟩, Option.map_some,
      shardAt_lo h.pos, bound_zero h.pos]
  ends := by
    have hpos := h.pos
    have hlast : p.shards[p.shards.length - 1]? = some (shardAt v n (n - 1)) := by
      rw [show p.shards.length = n from h.shardCount]
      exact h.getElem?_shards.mpr ⟨by omega, rfl⟩
    rw [List.getLast?_eq_getElem?, hlast, Option.map_some, shardAt_hi, Nat.sub_add_cancel hpos,
      bound_self]
  contiguous := by
    intro i s t hs ht
    obtain ⟨-, rfl⟩ := h.getElem?_shards.mp hs
    obtain ⟨hnext, rfl⟩ := h.getElem?_shards.mp ht
    exact shardAt_lo hnext
  widths := by
    intro i s hs
    obtain ⟨hi, rfl⟩ := h.getElem?_shards.mp hs
    rw [width_shardAt hi, bound_sub hi]
  global := by
    intro place hplace
    obtain ⟨i, hi, hs, hindex⟩ := h.hasPosition_iff.mp hplace
    obtain ⟨hglobal, hlt⟩ := toGlobal_eq hv hi hindex
    exact ⟨_, hlt, hs ▸ hglobal⟩
  positions := by
    intro id hid
    obtain ⟨i, hi, hin⟩ := exists_range (Nat.le_refl n) h.pos (by rw [bound_self]; exact hid)
    have hindex : id - bound v n i < bound v n (i + 1) - bound v n i := by omega
    refine ⟨(shardAt v n i, id - bound v n i),
      ⟨h.hasPosition_iff.mpr ⟨i, hi, rfl, hindex⟩, ?_⟩, ?_⟩
    · rw [(toGlobal_eq hv hi hindex).1, Nat.sub_add_cancel hin.1]
    · rintro ⟨s, index⟩ ⟨hplace, hglobal⟩
      obtain ⟨j, hj, rfl, hlt⟩ := h.hasPosition_iff.mp hplace
      dsimp only at hlt hglobal
      rw [(toGlobal_eq hv hj hlt).1, Except.ok.injEq] at hglobal
      obtain rfl : i = j := range_unique hi hj hin (by omega)
      rw [← hglobal, Nat.add_sub_cancel]
  owner := by
    intro id hid
    obtain ⟨i, hi, hin⟩ := exists_range (Nat.le_refl n) h.pos (by rw [bound_self]; exact hid)
    refine ⟨shardAt v n i, h.mem_shards.mpr ⟨i, hi, rfl⟩, h.ownerOf_eq hi hin,
      (contains_shardAt hi).mpr hin, fun t ht hcontains => ?_⟩
    obtain ⟨j, hj, rfl⟩ := h.mem_shards.mp ht
    rw [range_unique hi hj hin ((contains_shardAt hj).mp hcontains)]
  outside := by
    intro id hid
    refine ⟨if_neg (by rw [h.vocabSize]; omega), fun s hs => ?_⟩
    obtain ⟨i, hi, rfl⟩ := h.mem_shards.mp hs
    have hle : bound v n (i + 1) ≤ v := bound_le hi
    rw [← Bool.not_eq_true, contains_shardAt hi]
    omega

end CutOf

/-- A cut that could be made faults only for want of room for its shards. -/
theorem cut_eq_fault {v n : Nat} (hv : v < Word.limit) :
    cut v n = .error .fault ↔ 1 ≤ n ∧ n ≤ v ∧ Word.signedLimit ≤ shardBytes * n := by
  by_cases hzero : n = 0
  · rw [cut, ensure_of_not (not_not.mpr hzero)]
    simp [hzero]
  by_cases hle : n ≤ v
  · by_cases hroom : shardBytes * n < Word.signedLimit
    · rw [cut_of_le (by omega) hle hv hroom]
      simp only [reduceCtorEq, false_iff]
      omega
    · rw [cut_of_no_room (by omega) hle hv hroom]
      simp only [true_iff]
      omega
  · rw [cut, ensure_of hzero, Outcome.ok_bind, ensure_of_not hle]
    simp [hle]

/-- Sizes that fit a word can be cut exactly if each shard can get an id and there is room for
the shards. No product overflows on the way, and the result divides the vocabulary. -/
theorem cut_divides {v n : Nat} (hv : v < Word.limit) :
    ((∃ p, cut v n = .ok p) ↔ 1 ≤ n ∧ n ≤ v ∧ shardBytes * n < Word.signedLimit) ∧
    (cut v n = .error .fault ↔ 1 ≤ n ∧ n ≤ v ∧ Word.signedLimit ≤ shardBytes * n) ∧
    (∀ i < n, ∃ s, rangeOf v n (v / n) i = .ok s) ∧
    ∀ p, cut v n = .ok p → p.Divides v n := by
  refine ⟨⟨?_, ?_⟩, cut_eq_fault hv, fun i hi => ⟨_, rangeOf_of_lt hi hv⟩,
    fun p hp => (cutOf_of_cut hp).divides hv⟩
  · intro ⟨p, hp⟩
    have hcut := cutOf_of_cut hp
    exact ⟨hcut.pos, hcut.le, room_of_cut hp⟩
  · intro ⟨hpos, hle, hroom⟩
    exact ⟨_, cut_of_le hpos hle hv hroom⟩

/-- The largest vocabulary of all, of which seven shards leave a remainder. -/
theorem cut_divides_largest :
    (18446744073709551615 : Nat) < Word.limit ∧
    ∃ p, cut 18446744073709551615 7 = .ok p ∧ p.Divides 18446744073709551615 7 ∧
      p.ownerOf 18446744073709551614 = some 6 := by
  have hv : (18446744073709551615 : Nat) < Word.limit := by decide
  obtain ⟨hok, -, -, hdivides⟩ := cut_divides (n := 7) hv
  obtain ⟨p, hp⟩ := hok.mpr (by decide)
  refine ⟨hv, p, hp, hdivides p hp, ?_⟩
  exact (cutOf_of_cut hp).ownerOf_eq (by decide) (by decide)

/-- Each of 2^58 ids could have a shard of its own, but the list of the shards would take more
bytes than a block can have. -/
theorem cut_of_too_many_shards :
    let n := 288230376151711744
    1 ≤ n ∧ n ≤ n ∧ n < Word.limit ∧ cut n n = .error .fault := by
  intro n
  have hn : n < Word.limit := by decide
  exact ⟨by decide, Nat.le_refl n, hn, (cut_eq_fault hn).mpr (by decide)⟩

end ShardedModel.Plan
