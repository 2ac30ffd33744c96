import ShardedModel.Proofs.Ranking
import ShardedModel.Proofs.ZeroSum

/-!
# The best scores of a list

Candidates rank by the total order of bit patterns and then by index, so of any two different ones
one ranks before the other. On scores that are not NaN this is the order of the numbers, except
that it also tells the two zeros apart. The way from one to the other is an integer: the bits below
the sign, negated if the sign is set. It grows with the number, since a step of the exponent counts
for more than all of the mantissa below it, and it is zero for both zeros.

A ranking without ties leaves one answer to what the best `k` scores are. `Selects` says what is
asked for, and `topK` gives the one list that meets it, so how the sorting is done does not matter.
-/

namespace ShardedModel

open Float.Model (Format UnpackedFloat)
open Float.Model.UnpackedFloat

/-! ## Bit patterns and numbers -/

namespace Binary32

/-- The bits below the sign as an integer, negated if the sign is set. -/
def signed (x : Binary32) : Int :=
  if x.bits.toNat < 2147483648 then x.bits.toNat else 2147483648 - x.bits.toNat

/-- The total order is that of the integers, with minus zero before zero. -/
theorem rank_lt_iff {x y : Binary32} :
    x.rank < y.rank ↔ x.signed < y.signed ∨ x = negZero ∧ y = 0 := by
  have hbits : ∀ (z : Binary32) (b : UInt32), z = ⟨b⟩ ↔ z.bits.toNat = b.toNat := by
    intro z b
    rw [UInt32.toNat_inj]
    exact ⟨congrArg bits, fun h => by cases z; cases h; rfl⟩
  have hneg : x = negZero ↔ x.bits.toNat = 2147483648 := hbits x _
  have hzero : y = 0 ↔ y.bits.toNat = 0 := hbits y _
  have hx := x.bits.toNat_lt
  have hy := y.bits.toNat_lt
  rw [hneg, hzero, rank, rank, signed, signed]
  split <;> split <;> omega

/-- How a bit pattern is unpacked: a mantissa has 24 bits and begins with a one, unless the
exponent is the least there is. -/
def Canonical : UnpackedFloat → Prop
  | .finite _ m e _ => -149 ≤ e ∧ e ≤ 104 ∧ m < 16777216 ∧ (-149 < e → 8388608 ≤ m)
  | _ => True

/-- The integer that belongs to a number. -/
def place : UnpackedFloat → Int
  | .notANumber | .zero _ => 0
  | .infinity s => s.apply 2139095040
  | .finite s m e _ => s.apply ((e + 149) * 8388608 + m)

/-- Numbers are in the order of their integers. -/
theorem lt_iff_place {u v : UnpackedFloat} (hu : Canonical u) (hv : Canonical v)
    (hu' : u ≠ .notANumber) (hv' : v ≠ .notANumber) :
    u.lt v = true ↔ place u < place v := by
  cases u with
  | notANumber => exact absurd rfl hu'
  | zero s =>
      cases v with
      | notANumber => exact absurd rfl hv'
      | zero s' => cases s <;> cases s' <;> decide
      | infinity s' => cases s <;> cases s' <;> decide
      | finite s' m' e' h' =>
          simp only [Canonical] at hv
          cases s' <;> simp [UnpackedFloat.lt, UnpackedFloat.compare, place, Sign.apply] <;> omega
  | infinity s =>
      cases v with
      | notANumber => exact absurd rfl hv'
      | zero s' => cases s <;> cases s' <;> decide
      | infinity s' => cases s <;> cases s' <;> decide
      | finite s' m' e' h' =>
          simp only [Canonical] at hv
          cases s <;> cases s' <;>
            simp [UnpackedFloat.lt, UnpackedFloat.compare, place, Sign.apply] <;> omega
  | finite s m e h =>
      simp only [Canonical] at hu
      cases v with
      | notANumber => exact absurd rfl hv'
      | zero s' =>
          cases s <;> simp [UnpackedFloat.lt, UnpackedFloat.compare, place, Sign.apply] <;> omega
      | infinity s' =>
          cases s <;> cases s' <;>
            simp [UnpackedFloat.lt, UnpackedFloat.compare, place, Sign.apply] <;> omega
      | finite s' m' e' h' =>
          -- Of two numbers with different exponents the one with the greater has the leading one
          -- in its mantissa, and the mantissa of the other is less than twice that.
          simp only [Canonical] at hv
          cases s <;> cases s' <;>
            simp [UnpackedFloat.lt, UnpackedFloat.compare, place, Sign.apply,
              Ordering.then_eq_lt, Ordering.then_eq_gt, compare_lt_iff_lt, compare_gt_iff_gt] <;>
            omega

theorem apply_sign (b : BitVec Format.binary32.numBits) (n : Int) :
    (Sign.ofBitVec (unpackSign b)).apply n = if b.toNat < 2147483648 then n else -n := by
  have hlt : b.toNat < 2 ^ 32 := b.isLt
  have hsign : (unpackSign b).toNat = b.toNat / 2147483648 % 2 := by
    simp [unpackSign, Nat.shiftRight_eq_div_pow]
  have hzero : unpackSign b = 0#1 ↔ b.toNat < 2147483648 := by
    rw [← BitVec.toNat_inj, hsign]
    change _ = 0 ↔ _
    omega
  rw [Sign.ofBitVec]
  split
  · next h =>
      rw [if_pos (hzero.mp h)]
      rfl
  · next h =>
      rw [if_neg (mt hzero.mpr h)]
      rfl

theorem place_unpacked {x : Binary32} (hx : x.isNaN = false) :
    Canonical x.unpacked ∧ place x.unpacked = x.signed := by
  have hlt := x.bits.toNat_lt
  have hexponent : _ = x.bits.toNat / 8388608 % 256 := toNat_unpackExponent x.bits.toBitVec
  have hmantissa : _ = x.bits.toNat % 8388608 := toNat_unpackMantissa x.bits.toBitVec
  have hbias : ((Format.binary32.exponentBias : Nat) : Int) = 127 := rfl
  have hnan := unpacked_ne hx
  rw [unpacked, unpack] at hnan ⊢
  dsimp only at hnan ⊢
  split at hnan
  · next hones =>
      rw [if_pos hones]
      split at hnan
      · next hzero =>
          rw [if_pos hzero, place, apply_sign, signed, UInt32.toNat_toBitVec]
          rw [hones] at hexponent
          rw [hzero] at hmantissa
          change 255 = _ at hexponent
          change 0 = _ at hmantissa
          refine ⟨trivial, ?_⟩
          split <;> omega
      · exact absurd rfl hnan
  · next hones =>
      rw [if_neg hones]
      split
      · next hlow =>
          have hleast : x.bits.toNat / 8388608 % 256 = 0 := by
            rw [← hexponent, hlow]
            rfl
          split
          · next hzero =>
              rw [place, signed]
              rw [hzero] at hmantissa
              change 0 = _ at hmantissa
              refine ⟨trivial, ?_⟩
              split <;> omega
          · rw [Canonical, place, apply_sign, signed, hexponent, hmantissa, hbias,
              UInt32.toNat_toBitVec]
            refine ⟨by omega, ?_⟩
            split <;> omega
      · next hlow =>
          have hleast : x.bits.toNat / 8388608 % 256 ≠ 0 := by
            rw [← hexponent]
            exact fun h => hlow (BitVec.eq_of_toNat_eq h)
          have hones' : x.bits.toNat / 8388608 % 256 ≠ 255 := by
            rw [← hexponent]
            exact fun h => hones (BitVec.eq_of_toNat_eq h)
          rw [Canonical, place, apply_sign, signed, toNat_append_unpackMantissa, hexponent,
            hmantissa, hbias, UInt32.toNat_toBitVec]
          refine ⟨by omega, ?_⟩
          split <;> omega

/-- Of bit patterns that are not NaN, the format compares the integers. -/
theorem toFloat32_lt_iff {x y : Binary32} (hx : x.isNaN = false) (hy : y.isNaN = false) :
    x.toFloat32 < y.toFloat32 ↔ x.signed < y.signed := by
  have hpackx : pack .binary32 x.unpacked = x.bits.toBitVec := pack_unpack_of_ne (unpacked_ne hx)
  have hpacky : pack .binary32 y.unpacked = y.bits.toBitVec := pack_unpack_of_ne (unpacked_ne hy)
  have hunpack : x.toFloat32 < y.toFloat32 ↔
      (unpack .binary32 (pack .binary32 x.unpacked)).lt
        (unpack .binary32 (pack .binary32 y.unpacked)) = true := decide_eq_true_iff
  obtain ⟨hcanonx, hplacex⟩ := place_unpacked hx
  obtain ⟨hcanony, hplacey⟩ := place_unpacked hy
  rw [hunpack, hpackx, hpacky, ← hplacex, ← hplacey]
  exact lt_iff_place hcanonx hcanony (unpacked_ne hx) (unpacked_ne hy)

theorem compare_eq_lt_iff {x y : Binary32} :
    compare x y = .lt ↔ x.signed < y.signed ∨ x = negZero ∧ y = 0 :=
  Nat.compare_eq_lt.trans rank_lt_iff

end Binary32

/-! ## Ranks -/

namespace Candidate

variable {α : Type} [Ord α]

theorem ranksFirst_of_order {a b : Candidate α} (h : a.order b = .lt) : ranksFirst a b := by
  rw [ranksFirst, h]
  rfl

variable [Std.LawfulEqOrd α]

theorem order_of_ranksFirst {a b : Candidate α} (h : ranksFirst a b) (hne : a.index ≠ b.index) :
    a.order b = .lt := by
  cases horder : a.order b with
  | lt => rfl
  | eq => exact absurd (congrArg index (eq_of_order horder)) hne
  | gt =>
      rw [ranksFirst, horder] at h
      cases h

theorem order_eq_lt_iff {a b : Candidate α} :
    a.order b = .lt ↔ compare b.score a.score = .lt ∨ a.score = b.score ∧ a.index < b.index := by
  rw [order, Ordering.then_eq_lt, Std.compare_eq_iff_eq, Nat.compare_eq_lt, eq_comm (a := b.score)]

/-- Numbers rank by their size, zero before minus zero, and what is the same by index. -/
theorem order_of_numbers {a b : Candidate Binary32} (ha : a.score.isNaN = false)
    (hb : b.score.isNaN = false) :
    a.order b = .lt ↔ b.score.toFloat32 < a.score.toFloat32 ∨
      (a.score = 0 ∧ b.score = Binary32.negZero) ∨ a.score = b.score ∧ a.index < b.index := by
  rw [order_eq_lt_iff, Binary32.compare_eq_lt_iff, Binary32.toFloat32_lt_iff hb ha, or_assoc,
    and_comm (a := b.score = _)]

theorem order_eq_iff [Std.TransOrd α] {a b : Candidate α} : a.order b = .eq ↔ a = b :=
  ⟨eq_of_order, fun h => h ▸ Std.ReflCmp.compare_self⟩

end Candidate

/-! ## The best of a list -/

/-- The candidates are the best `k` of a list of scores: as many as there are, each a score of the
list with its own position, best first, and none that is left out ranks before them. -/
structure Selects {α : Type} [Ord α] (scores : List α) (k : Nat) (chosen : List (Candidate α)) :
    Prop where
  length : chosen.length = min k scores.length
  scored : ∀ c ∈ chosen, scores[c.index]? = some c.score
  distinct : (chosen.map (·.index)).Nodup
  ranked : chosen.Pairwise fun a b => a.order b = .lt
  rest : ∀ (i : Nat) (x : α), scores[i]? = some x → i ∉ chosen.map (·.index) →
    ∀ c ∈ chosen, c.order ⟨x, i⟩ = .lt

section Selection

variable {α : Type} {scores : List α}

theorem mem_candidatesOf {c : Candidate α} :
    c ∈ candidatesOf scores ↔ scores[c.index]? = some c.score := by
  refine ⟨getElem?_of_mem_candidatesOf, fun h => ?_⟩
  exact List.mem_map.mpr ⟨(c.score, c.index), List.mem_zipIdx_iff_getElem?.mpr h, rfl⟩

theorem index_candidatesOf (scores : List α) :
    (candidatesOf scores).map (·.index) = List.range scores.length := by
  rw [candidatesOf, List.map_map, List.range_eq_range', ← List.zipIdx_map_snd 0 scores]
  rfl

theorem eq_of_index {c d : Candidate α} (hc : c ∈ candidatesOf scores)
    (hd : d ∈ candidatesOf scores) (h : c.index = d.index) : c = d := by
  have hindices : ((candidatesOf scores).map (·.index)).Nodup := by
    rw [index_candidatesOf]
    exact List.nodup_range
  exact List.inj_on_of_nodup_map hindices hc hd h

variable [Ord α]

theorem topK_prefix (scores : List α) (k : Nat) : topK scores k <+: topK scores (k + 1) :=
  List.take_prefix_take_left (Nat.le_succ k)

/-- What a selection leaves out makes up the list with it, and ranks after it. -/
theorem Selects.exists_left {k : Nat} {chosen : List (Candidate α)} (h : Selects scores k chosen) :
    ∃ left, (chosen ++ left).Perm (candidatesOf scores) ∧
      ∀ c ∈ chosen, ∀ d ∈ left, c.order d = .lt := by
  have hall : (candidatesOf scores).Nodup := by
    refine List.Nodup.of_map (·.index) ?_
    rw [index_candidatesOf]
    exact List.nodup_range
  have hleft : ∀ c, c ∈ (candidatesOf scores).filter (·.index ∉ chosen.map (·.index)) ↔
      c ∈ candidatesOf scores ∧ c.index ∉ chosen.map (·.index) := by
    intro c
    rw [List.mem_filter, decide_eq_true_iff]
  refine ⟨(candidatesOf scores).filter (·.index ∉ chosen.map (·.index)), ?_, fun c hc d hd => ?_⟩
  · refine (List.perm_ext_iff_of_nodup ?_ hall).mpr fun c => ?_
    · refine List.nodup_append.mpr ⟨h.distinct.of_map, hall.filter _, fun c hc d hd heq => ?_⟩
      exact ((hleft d).mp hd).2 (heq ▸ List.mem_map_of_mem hc)
    · rw [List.mem_append, hleft]
      constructor
      · intro hc
        rcases hc with hc | hc
        · exact mem_candidatesOf.mpr (h.scored c hc)
        · exact hc.1
      · intro hc
        by_cases hin : c.index ∈ chosen.map (·.index)
        · obtain ⟨d, hd, hindex⟩ := List.mem_map.mp hin
          exact .inl (eq_of_index (mem_candidatesOf.mpr (h.scored d hd)) hc hindex ▸ hd)
        · exact .inr ⟨hc, hin⟩
  · obtain ⟨hd, hout⟩ := (hleft d).mp hd
    exact h.rest d.index d.score (mem_candidatesOf.mp hd) hout c hc

theorem argmax_eq_none_iff : argmax scores = none ↔ scores = [] := by
  rw [argmax, Option.map_eq_none_iff, List.head?_eq_none_iff, ← List.length_eq_zero_iff,
    length_topK, ← List.length_eq_zero_iff]
  omega

variable [Std.TransOrd α] [Std.LawfulEqOrd α]

theorem selects_topK (scores : List α) (k : Nat) : Selects scores k (topK scores k) := by
  obtain ⟨left, hperm, hsorted⟩ := Candidate.exists_left (candidatesOf scores) k
  change (topK scores k ++ left).Perm _ at hperm
  change (topK scores k ++ left).Pairwise _ at hsorted
  have hindices : ((topK scores k ++ left).map (·.index)).Nodup := by
    rw [(hperm.map _).nodup_iff, index_candidatesOf]
    exact List.nodup_range
  have hranked : (topK scores k ++ left).Pairwise fun a b => a.order b = .lt :=
    (hsorted.and (List.pairwise_map.mp hindices)).imp fun h =>
      Candidate.order_of_ranksFirst h.1 h.2
  rw [List.map_append, List.nodup_append] at hindices
  rw [List.pairwise_append] at hranked
  refine ⟨length_topK scores k,
    fun c hc => mem_candidatesOf.mp (mem_candidatesOf_of_mem_topK hc), hindices.1, hranked.1, ?_⟩
  intro i x hx hout c hc
  have hmem : (⟨x, i⟩ : Candidate α) ∈ topK scores k ++ left :=
    hperm.mem_iff.mpr (mem_candidatesOf.mpr hx)
  rcases List.mem_append.mp hmem with hin | hleft
  · exact absurd (List.mem_map_of_mem hin) hout
  · exact hranked.2.2 c hc _ hleft

/-- With what is left out sorted behind it, a selection is the sorted list. -/
theorem Selects.eq_topK {k : Nat} {chosen : List (Candidate α)} (h : Selects scores k chosen) :
    chosen = topK scores k := by
  obtain ⟨left, hperm, hafter⟩ := h.exists_left
  have hsorted : (chosen ++ Candidate.sorted left).Pairwise (Candidate.ranksFirst · ·) :=
    List.pairwise_append.mpr ⟨h.ranked.imp Candidate.ranksFirst_of_order,
      Candidate.pairwise_sorted left, fun c hc d hd =>
        Candidate.ranksFirst_of_order (hafter c hc d (List.mem_mergeSort.mp hd))⟩
  have hwhole : chosen ++ Candidate.sorted left = Candidate.sorted (candidatesOf scores) :=
    Candidate.eq_sorted hsorted (((List.mergeSort_perm left _).append_left chosen).trans hperm)
  have hlength : (Candidate.sorted (candidatesOf scores)).length = scores.length := by
    rw [List.length_mergeSort, length_candidatesOf]
  have hcut : topK scores k = (Candidate.sorted (candidatesOf scores)).take chosen.length := by
    refine List.take_eq_take_iff.mpr ?_
    rw [hlength, h.length, Nat.min_assoc, Nat.min_self]
  rw [hcut, ← hwhole, List.take_left]

/-! ## The best of all -/

/-- No score is above the one at the position, and it is the first place of this score. -/
def FirstGreatest (scores : List α) (i : Nat) : Prop :=
  ∃ x, scores[i]? = some x ∧
    ∀ (j : Nat) (y : α), scores[j]? = some y → (compare y x).isLE ∧ (y = x → i ≤ j)

omit [Std.TransOrd α] in
theorem FirstGreatest.unique [Std.OrientedOrd α] {i j : Nat} (hi : FirstGreatest scores i)
    (hj : FirstGreatest scores j) : i = j := by
  obtain ⟨x, hx, hgreatest⟩ := hi
  obtain ⟨y, hy, hgreatest'⟩ := hj
  obtain ⟨hle, hfirst⟩ := hgreatest j y hy
  obtain ⟨hle', hfirst'⟩ := hgreatest' i x hx
  have heq : x = y := Std.LawfulEqOrd.eq_of_compare (Std.OrientedCmp.isLE_antisymm hle' hle)
  exact Nat.le_antisymm (hfirst heq.symm) (hfirst' heq)

theorem firstGreatest_of_argmax {i : Nat} (h : argmax scores = some i) :
    FirstGreatest scores i := by
  obtain ⟨c, hhead, rfl⟩ := Option.map_eq_some_iff.mp h
  have hselects := selects_topK scores 1
  have hc : c ∈ topK scores 1 := List.mem_of_mem_head? hhead
  refine ⟨c.score, hselects.scored c hc, fun j y hy => ?_⟩
  by_cases hj : j = c.index
  · have hscore := hselects.scored c hc
    rw [← hj, hy, Option.some.injEq] at hscore
    rw [hscore, Std.ReflOrd.compare_self]
    exact ⟨rfl, fun _ => Nat.le_of_eq hj.symm⟩
  · have hout : j ∉ (topK scores 1).map (·.index) := by
      obtain ⟨rest, hlist⟩ := List.head?_eq_some_iff.mp hhead
      have hlength := hselects.length
      rw [hlist, List.length_cons] at hlength
      obtain rfl : rest = [] := List.eq_nil_of_length_eq_zero (by omega)
      rw [hlist, List.map_singleton, List.mem_singleton]
      exact hj
    rcases Candidate.order_eq_lt_iff.mp (hselects.rest j y hy hout c hc) with hbelow | hsame
    · rw [hbelow]
      refine ⟨rfl, fun heq => ?_⟩
      rw [heq, Std.ReflOrd.compare_self] at hbelow
      cases hbelow
    · obtain ⟨heq, hlt⟩ := hsame
      rw [heq, Std.ReflOrd.compare_self]
      exact ⟨rfl, fun _ => Nat.le_of_lt hlt⟩

theorem argmax_eq_some_iff {i : Nat} : argmax scores = some i ↔ FirstGreatest scores i := by
  refine ⟨firstGreatest_of_argmax, fun h => ?_⟩
  cases hbest : argmax scores with
  | none =>
      obtain ⟨x, hx, -⟩ := h
      rw [argmax_eq_none_iff.mp hbest] at hx
      cases hx
  | some j => rw [h.unique (firstGreatest_of_argmax hbest)]

end Selection

/-- Candidates with bit patterns for scores are in a total order. Patterns of all kinds are in the
order of sign and magnitude, and numbers rank by their size except that zero ranks before minus
zero. Of any list of scores, `topK` gives the selection of the best `k` and there is no other, one
more is added at the end, and `argmax` gives the first place of the greatest score. -/
theorem topK_ranks :
    (∀ x y : Binary32,
      compare x y = .lt ↔ x.signed < y.signed ∨ x = Binary32.negZero ∧ y = 0) ∧
    (∀ a b : Candidate Binary32, b.order a = (a.order b).swap) ∧
    (∀ a b c : Candidate Binary32, a.order b = .lt → b.order c = .lt → a.order c = .lt) ∧
    (∀ a b : Candidate Binary32, a.order b = .eq ↔ a = b) ∧
    (∀ a b : Candidate Binary32, a.score.isNaN = false → b.score.isNaN = false →
      (a.order b = .lt ↔ b.score.toFloat32 < a.score.toFloat32 ∨
        (a.score = 0 ∧ b.score = Binary32.negZero) ∨ a.score = b.score ∧ a.index < b.index)) ∧
    ∀ scores : List Binary32,
      (∀ k chosen, Selects scores k chosen ↔ chosen = topK scores k) ∧
      (∀ k, topK scores k <+: topK scores (k + 1)) ∧
      (argmax scores = none ↔ scores = []) ∧
      ∀ i, argmax scores = some i ↔ FirstGreatest scores i := by
  refine ⟨fun x y => Binary32.compare_eq_lt_iff, fun a b => Std.OrientedCmp.eq_swap,
    fun a b c => Std.TransCmp.lt_trans, fun a b => Candidate.order_eq_iff,
    fun a b => Candidate.order_of_numbers, fun scores => ?_⟩
  refine ⟨fun k chosen => ⟨Selects.eq_topK, fun h => ?_⟩, topK_prefix scores, argmax_eq_none_iff,
    fun i => argmax_eq_some_iff⟩
  rw [h]
  exact selects_topK scores k

/-- A NaN ranks before the numbers if its sign is not set and after them if it is, of two equal
scores the first comes first, and zero ranks before minus zero. -/
theorem topK_ranks_mixed :
    let scores : List Binary32 :=
      [⟨0xffc00000⟩, Binary32.negZero, ⟨0x3f800000⟩, 0, ⟨0x7fc00000⟩, ⟨0x3f800000⟩]
    topK scores 4 =
      [⟨⟨0x7fc00000⟩, 4⟩, ⟨⟨0x3f800000⟩, 2⟩, ⟨⟨0x3f800000⟩, 5⟩, ⟨0, 3⟩] ∧
    argmax scores = some 4 ∧
    Candidate.order (⟨0, 3⟩ : Candidate Binary32) ⟨Binary32.negZero, 1⟩ = .lt := by
  intro scores
  let chosen : List (Candidate Binary32) :=
    [⟨⟨0x7fc00000⟩, 4⟩, ⟨⟨0x3f800000⟩, 2⟩, ⟨⟨0x3f800000⟩, 5⟩, ⟨0, 3⟩]
  have hrest : ∀ d ∈ candidatesOf scores, d.index ∉ chosen.map (·.index) →
      ∀ c ∈ chosen, c.order d = .lt := by decide
  have hgreatest : ∀ d ∈ candidatesOf scores,
      (compare d.score ⟨0x7fc00000⟩).isLE ∧ (d.score = ⟨0x7fc00000⟩ → 4 ≤ d.index) := by decide
  obtain ⟨-, -, -, -, hnumbers, hlists⟩ := topK_ranks
  obtain ⟨hselects, -, -, hfirst⟩ := hlists scores
  have hchosen : Selects scores 4 chosen :=
    ⟨rfl, by decide, by decide, by decide, fun i x hx => hrest ⟨x, i⟩ (mem_candidatesOf.mpr hx)⟩
  exact ⟨((hselects 4 chosen).mp hchosen).symm,
    (hfirst 4).mpr ⟨_, rfl, fun j y hy => hgreatest ⟨y, j⟩ (mem_candidatesOf.mpr hy)⟩,
    (hnumbers _ _ (by decide) (by decide)).mpr (.inr (.inl ⟨rfl, rfl⟩))⟩

end ShardedModel
