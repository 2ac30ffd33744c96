import ShardedModel.Plan
import ShardedModel.Proofs.Outcome

/-!
# The ranges of a cut

A cut that succeeds is determined by its two sizes: shard `i` begins at `i` times
the quotient, and the last shard ends with the vocabulary. `CutOf` says so, and
everything later that depends on how the vocabulary was divided goes through it:
ranges are not empty, each begins where the one before it ends, and together they
run from zero to the size of the vocabulary.
-/

namespace ShardedModel.Plan

/-- Where range `i` of `n` begins and the one before it ends. -/
def bound (v n i : Nat) : Nat := if i = n then v else i * (v / n)

/-- Shard `i` of a vocabulary cut into `n` ranges. -/
def shardAt (v n i : Nat) : Shard := ⟨i, i * (v / n), bound v n (i + 1), n, v⟩

/-- The plan is the cut of `v` ids into `n` ranges. -/
structure CutOf (p : Plan) (v n : Nat) : Prop where
  vocabSize : p.vocabSize = v
  shards : p.shards = (List.range n).map (shardAt v n)
  pos : 0 < n
  le : n ≤ v

theorem rangeOf_eq_ok {v n i : Nat} {s : Shard} (h : rangeOf v n (v / n) i = .ok s) :
    s = shardAt v n i := by
  unfold rangeOf at h
  obtain ⟨lo, hlo, h⟩ := Outcome.bind_eq_ok.mp h
  rw [Word.mul, Word.check_eq_ok] at hlo
  unfold shardAt bound
  dsimp only at h
  split at h
  · next hlast =>
      rw [Outcome.ok_bind, Except.ok.injEq] at h
      rw [if_pos hlast, ← h, hlo.2]
  · next hlast =>
      obtain ⟨hi, hhi, h⟩ := Outcome.bind_eq_ok.mp h
      rw [Word.mul, Word.check_eq_ok] at hhi
      rw [Except.ok.injEq] at h
      rw [if_neg hlast, ← h, hhi.2, hlo.2]

theorem rangeOf_of_lt {v n i : Nat} (hi : i < n) (hv : v < Word.limit) :
    rangeOf v n (v / n) i = .ok (shardAt v n i) := by
  have hmul : ∀ j, j ≤ n → j * (v / n) < Word.limit := fun j hj =>
    Nat.lt_of_le_of_lt
      (Nat.le_trans (Nat.mul_le_mul_right _ hj) (Nat.mul_div_le v n)) hv
  unfold rangeOf shardAt bound
  rw [Word.mul_of_lt (hmul i (by omega)), Outcome.ok_bind]
  split
  · rfl
  · rw [Word.mul_of_lt (hmul (i + 1) hi)]
    rfl

theorem cutOf_of_cut {v n : Nat} {p : Plan} (h : cut v n = .ok p) : p.CutOf v n := by
  unfold cut at h
  obtain ⟨_, hpos, h⟩ := Outcome.bind_eq_ok.mp h
  obtain ⟨_, hle, h⟩ := Outcome.bind_eq_ok.mp h
  obtain ⟨_, -, h⟩ := Outcome.bind_eq_ok.mp h
  obtain ⟨shards, hshards, h⟩ := Outcome.bind_eq_ok.mp h
  rw [ensure_eq_ok] at hpos hle
  rw [Except.ok.injEq] at h
  subst h
  refine ⟨rfl, ?_, Nat.pos_of_ne_zero hpos, hle⟩
  have hall := Outcome.mapM_eq_ok.mp hshards
  rw [← List.forall₂_eq_eq_eq, List.forall₂_map_right_iff]
  exact (hall.imp fun _ _ hr => rangeOf_eq_ok hr).flip

/-- The shards of a cut have room. -/
theorem room_of_cut {v n : Nat} {p : Plan} (h : cut v n = .ok p) :
    shardBytes * n < Word.signedLimit := by
  obtain ⟨_, -, h⟩ := Outcome.bind_eq_ok.mp h
  obtain ⟨_, -, h⟩ := Outcome.bind_eq_ok.mp h
  obtain ⟨_, hroom, -⟩ := Outcome.bind_eq_ok.mp h
  exact ensure_eq_ok.mp hroom

/-- A cut that gives each shard an id asks for nothing more than room for the shards. -/
theorem cut_eq_reserve {v n : Nat} (hpos : 0 < n) (hle : n ≤ v) (hv : v < Word.limit) :
    cut v n = (Storage.reserve shardBytes n >>= fun _ =>
      .ok ⟨v, (List.range n).map (shardAt v n)⟩) := by
  rw [cut, ensure_of (by omega), Outcome.ok_bind, ensure_of hle, Outcome.ok_bind,
    Outcome.mapM_eq_ok_map (g := shardAt v n)]
  · rfl
  · intro i hi
    exact rangeOf_of_lt (List.mem_range.mp hi) hv

theorem cut_of_le {v n : Nat} (hpos : 0 < n) (hle : n ≤ v) (hv : v < Word.limit)
    (hroom : shardBytes * n < Word.signedLimit) :
    cut v n = .ok ⟨v, (List.range n).map (shardAt v n)⟩ := by
  rw [cut_eq_reserve hpos hle hv, Storage.reserve, ensure_of hroom]
  rfl

theorem cut_of_no_room {v n : Nat} (hpos : 0 < n) (hle : n ≤ v) (hv : v < Word.limit)
    (hroom : ¬ shardBytes * n < Word.signedLimit) : cut v n = .error .fault := by
  rw [cut_eq_reserve hpos hle hv, Storage.reserve, ensure_of_not hroom]
  rfl

/-- Sizes that can be cut have one cut, and getting it is a matter of room. -/
theorem exists_cut {v n : Nat} (hpos : 0 < n) (hle : n ≤ v) (hv : v < Word.limit) :
    ∃ plan : Plan, cut v n = (Storage.reserve shardBytes n >>= fun _ => .ok plan) ∧
      plan.CutOf v n :=
  ⟨_, cut_eq_reserve hpos hle hv, rfl, rfl, hpos, hle⟩

/-! ## Bounds -/

section Bounds

variable {v n i : Nat}

theorem bound_of_lt (h : i < n) : bound v n i = i * (v / n) := if_neg (by omega)

@[simp] theorem bound_self : bound v n n = v := if_pos rfl

theorem bound_zero (h : 0 < n) : bound v n 0 = 0 := by
  rw [bound_of_lt h, Nat.zero_mul]

/-- No range has fewer ids than the quotient of the sizes. -/
theorem bound_add_le (h : i < n) : bound v n i + v / n ≤ bound v n (i + 1) := by
  rw [bound_of_lt h, ← Nat.succ_mul]
  rcases Nat.lt_or_ge (i + 1) n with hnext | hlast
  · exact Nat.le_of_eq (bound_of_lt hnext).symm
  · obtain rfl : i + 1 = n := by omega
    rw [bound_self]
    exact Nat.mul_div_le v (i + 1)

theorem bound_le_succ (h : i < n) : bound v n i ≤ bound v n (i + 1) :=
  Nat.le_trans (Nat.le_add_right _ _) (bound_add_le h)

theorem bound_le (h : i ≤ n) : bound v n i ≤ v := by
  rcases Nat.lt_or_ge i n with hlt | hge
  · rw [bound_of_lt hlt]
    exact Nat.le_trans (Nat.mul_le_mul_right _ h) (Nat.mul_div_le v n)
  · obtain rfl := Nat.le_antisymm h hge
    exact Nat.le_of_eq bound_self

@[simp] theorem shardAt_id : (shardAt v n i).id = i := rfl

@[simp] theorem shardAt_vocabSize : (shardAt v n i).vocabSize = v := rfl

@[simp] theorem shardAt_hi : (shardAt v n i).hi = bound v n (i + 1) := rfl

theorem shardAt_lo (h : i < n) : (shardAt v n i).lo = bound v n i := (bound_of_lt h).symm

theorem width_shardAt (h : i < n) :
    (shardAt v n i).width = .ok (bound v n (i + 1) - bound v n i) := by
  rw [Shard.width, shardAt_lo h, shardAt_hi, Word.sub_of_le (bound_le_succ h)]

theorem contains_shardAt (h : i < n) {id : Nat} :
    (shardAt v n i).contains id = true ↔ bound v n i ≤ id ∧ id < bound v n (i + 1) := by
  rw [Shard.contains, shardAt_lo h, shardAt_hi, Bool.and_eq_true, decide_eq_true_iff,
    decide_eq_true_iff]

end Bounds

/-! ## The shards of a cut -/

namespace CutOf

variable {p : Plan} {v n : Nat}

theorem quotient_pos (h : p.CutOf v n) : 0 < v / n := Nat.div_pos h.le h.pos

theorem shardCount (h : p.CutOf v n) : p.shardCount = n := by
  rw [Plan.shardCount, h.shards, List.length_map, List.length_range]

theorem mem_shards (h : p.CutOf v n) {s : Shard} : s ∈ p.shards ↔ ∃ i < n, shardAt v n i = s := by
  rw [h.shards, List.mem_map]
  simp only [List.mem_range]

theorem getElem?_shards (h : p.CutOf v n) {i : Nat} {s : Shard} :
    p.shards[i]? = some s ↔ i < n ∧ shardAt v n i = s := by
  rw [h.shards, Outcome.getElem?_map_range]

theorem shard (h : p.CutOf v n) {i : Nat} (hi : i < n) : p.shard i = .ok (shardAt v n i) := by
  rw [Plan.shard, h.getElem?_shards.mpr ⟨hi, rfl⟩]

theorem bound_lt_succ (h : p.CutOf v n) {i : Nat} (hi : i < n) :
    bound v n i < bound v n (i + 1) := by
  have hwidth := bound_add_le (v := v) hi
  have hpos := h.quotient_pos
  omega

end CutOf

end ShardedModel.Plan
