import ShardedModel.Proofs.Lookup
import ShardedModel.Proofs.Ownership

/-!
# Where the shards look an id up

Every shard looks up every id. The id is moved twice, into the vocabulary and from there into
the range of the shard, so each shard arrives at one of its own rows and none goes wrong. Only
the first move counts for the question whose id it is. One shard owns the id that this move
gives, the one that the search for an owner finds, and its row is that of the id. All others are
pushed to an end of their range: the shards before the owner to their last row, and the shards
after it to their first. Asked of the id after both moves, every shard would own it.

Nothing here depends on whether the list of the shards has room. It is the only thing that a cut
of these sizes can fail on, so the ranges are spoken of as the list that a cut would give.
-/

namespace ShardedModel

open Outcome

/-- What a shard answers for `id`, which is `global` in the vocabulary and has its owner in the
shard numbered `owner`. -/
structure Shard.Answers (s : Shard) (id : Int) (global owner row width : Nat) (owned : Bool) :
    Prop where
  localRow_eq : localRow s id = .ok (row, owned)
  width_eq : s.width = .ok width
  row_lt : row < width
  owned_iff : owned = true ↔ s.id = owner
  own : s.id = owner → s.toGlobal row = .ok global
  /-- Before the owner the id lies above the range, which ends in the last row. -/
  before : s.id < owner → row + 1 = width
  after : owner < s.id → row = 0

section Rows

variable {v n i owner : Nat} {id : Int}

theorem nearestRow_of_lt (h : tokenId v id < Plan.bound v n i) : nearestRow v n i id = 0 := by
  unfold nearestRow
  omega

theorem nearestRow_of_ge (hrange : Plan.bound v n i < Plan.bound v n (i + 1))
    (h : Plan.bound v n (i + 1) ≤ tokenId v id) :
    nearestRow v n i id + 1 = Plan.bound v n (i + 1) - Plan.bound v n i := by
  unfold nearestRow
  omega

theorem answers_shardAt {plan : Plan} (hplan : plan.CutOf v n) (hv : v ≤ Word.signedLimit)
    (hi : i < n) (howner : owner < n)
    (hin : Plan.bound v n owner ≤ tokenId v id ∧ tokenId v id < Plan.bound v n (owner + 1)) :
    (Plan.shardAt v n i).Answers id (tokenId v id) owner (nearestRow v n i id)
      (Plan.bound v n (i + 1) - Plan.bound v n i)
      ((Plan.shardAt v n i).contains (tokenId v id)) where
  localRow_eq := localRow_eq_nearestRow hplan hv hi id
  width_eq := Plan.width_shardAt hi
  row_lt := nearestRow_lt hplan hi id
  owned_iff := by
    rw [Plan.contains_shardAt hi]
    constructor
    · intro hin'
      exact Plan.range_unique hi howner hin' hin
    · rintro rfl
      exact hin
  own := by
    rintro rfl
    have hlimit : v < Word.limit := Nat.lt_of_le_of_lt hv (by decide)
    rw [(Plan.CutOf.toGlobal_eq hlimit hi (nearestRow_lt hplan hi id)).1, Nat.add_comm]
    exact congrArg Except.ok (bound_add_nearestRow hin.1 hin.2)
  before := by
    intro hbefore
    have hnext : Plan.bound v n (i + 1) ≤ Plan.bound v n owner :=
      Plan.bound_mono hbefore (Nat.le_of_lt howner)
    exact nearestRow_of_ge (hplan.bound_lt_succ hi) (Nat.le_trans hnext hin.1)
  after := by
    intro hafter
    have hnext : Plan.bound v n (owner + 1) ≤ Plan.bound v n i :=
      Plan.bound_mono hafter (Nat.le_of_lt hi)
    exact nearestRow_of_lt (Nat.lt_of_lt_of_le hin.2 hnext)

end Rows

/-- For a vocabulary of signed words that is cut into any number of shards, every id, in the
vocabulary or not, gets an answer from each of them. Exactly one shard owns it, the one that the
binary search finds, with the row of the clamped id; those before it answer with their last row
and those after it with their first. -/
theorem localRow_around_owner {v n : Nat} (hv : v ≤ Word.signedLimit) (hn : 1 ≤ n) (hle : n ≤ v)
    (id : Int) :
    ∃ plan : Plan, Plan.cut v n = (Storage.reserve Plan.shardBytes n >>= fun _ => .ok plan) ∧
      plan.shardCount = n ∧
      ∃ global owner, clampToVocab id v = .ok global ∧ plan.ownerOf global = some owner ∧
        owner < n ∧ ∀ (i : Nat) (s : Shard), plan.shards[i]? = some s → s.id = i ∧
          ∃ row width owned, s.Answers id global owner row width owned := by
  obtain ⟨plan, hcut, hplan⟩ := Plan.exists_cut hn hle (Nat.lt_of_le_of_lt hv (by decide))
  obtain ⟨hclamp, hlt⟩ := clampToVocab_of_le hv (Nat.lt_of_lt_of_le hn hle) id
  obtain ⟨owner, howner, hin⟩ :=
    Plan.exists_range (Nat.le_refl n) hn (by rw [Plan.bound_self]; exact hlt)
  refine ⟨plan, hcut, hplan.shardCount, tokenId v id, owner, hclamp, hplan.ownerOf_eq howner hin,
    howner, fun i s hs => ?_⟩
  obtain ⟨hi, rfl⟩ := hplan.getElem?_shards.mp hs
  exact ⟨rfl, _, _, _, answers_shardAt hplan hv hi howner hin⟩

/-- The largest vocabulary that can be looked up in, with the largest id: seven shards leave one
id over, and it is this one. -/
theorem localRow_around_owner_largest :
    let v := 9223372036854775808
    let id : Int := 9223372036854775807
    v ≤ Word.signedLimit ∧ 1 ≤ 7 ∧ 7 ≤ v ∧
    ∃ plan first last, Plan.cut v 7 = .ok plan ∧ plan.ownerOf 9223372036854775807 = some 6 ∧
      plan.shards[0]? = some first ∧ localRow first id = .ok (1317624576693539400, false) ∧
      plan.shards[6]? = some last ∧ localRow last id = .ok (1317624576693539401, true) := by
  intro v id
  have hv : v ≤ Word.signedLimit := Nat.le_refl _
  obtain ⟨plan, hcut, -, global, owner, hclamp, howner, -, hanswers⟩ :=
    localRow_around_owner (n := 7) hv (by decide) (by decide) id
  have hplan : Plan.cut v 7 = .ok plan := by
    rw [hcut, Storage.reserve, ensure_of (by decide), ok_bind]
  have hlast : clampToVocab id v = .ok 9223372036854775807 := by
    rw [(clampToVocab_of_le hv (by decide) id).1, tokenId, toSigned_of_lt (by decide)]
    rfl
  obtain rfl : 9223372036854775807 = global := Except.ok.inj (hlast.symm.trans hclamp)
  have hcutOf := Plan.cutOf_of_cut hplan
  have hsix : plan.ownerOf 9223372036854775807 = some 6 :=
    hcutOf.ownerOf_eq (by decide) (by decide)
  obtain rfl : 6 = owner := Option.some.inj (hsix.symm.trans howner)
  have hfirst : plan.shards[0]? = some (Plan.shardAt v 7 0) :=
    hcutOf.getElem?_shards.mpr ⟨by decide, rfl⟩
  have hend : plan.shards[6]? = some (Plan.shardAt v 7 6) :=
    hcutOf.getElem?_shards.mpr ⟨by decide, rfl⟩
  refine ⟨hv, by decide, by decide, plan, _, _, hplan, hsix, hfirst, ?_, hend, ?_⟩
  · obtain ⟨-, row, width, owned, h⟩ := hanswers 0 _ hfirst
    have hwidth : Plan.bound v 7 1 - Plan.bound v 7 0 = width :=
      Except.ok.inj ((Plan.width_shardAt (by decide)).symm.trans h.width_eq)
    have hbounds : Plan.bound v 7 1 - Plan.bound v 7 0 = 1317624576693539401 := by decide
    have hrow := h.before (by decide)
    have howned : owned = false := by
      rw [← Bool.not_eq_true, h.owned_iff]
      decide
    rw [h.localRow_eq, howned, show row = 1317624576693539400 by omega]
  · obtain ⟨-, row, width, owned, h⟩ := hanswers 6 _ hend
    have hglobal := h.own rfl
    rw [Shard.toGlobal, Plan.shardAt_lo (by decide), Word.add, Word.check_eq_ok] at hglobal
    have hlo : Plan.bound v 7 6 = 7905747460161236406 := by decide
    rw [h.localRow_eq, h.owned_iff.mpr rfl, show row = 1317624576693539401 by omega]

end ShardedModel
