import ShardedModel.Proofs.Arrivals
import ShardedModel.Proofs.ComponentFailures
import ShardedModel.Proofs.Cut

/-!
# The order of arrival does not matter

The sum of embeddings adds numbers whose sum depends on the order, and the merge of candidates
stops at the first shard that handed in something wrong. Neither may depend on which shard was
done first. Both are barriers: they put what the shards handed in into the order of the shards
and look at nothing before that. What is in order is the same list for every order of arrival,
so what they make of it is the same, failures included.

Only the refusal to put it into order can differ. It names the first shard that is unknown or
comes twice, and which one is first depends on the arrival. That there is a refusal does not, and
nothing after it is refused for the same reason.
-/

namespace ShardedModel

open Outcome

variable {α β γ : Type}

/-- The same answer, or on both sides the refusal of what is not one from each shard. -/
def Outcome.SameUpToArrival (x y : Outcome γ) : Prop :=
  x = y ∨ ∃ cause cause', x = .error (.incomplete cause) ∧ y = .error (.incomplete cause')

/-! ## Barriers -/

/-- The computation puts contributions into order, and fails over their contents if it goes on. -/
structure Barrier (what : Contribution) (shardOf : β → Nat) (n : Nat)
    (run rest : List β → Outcome γ) : Prop where
  waits : ∀ items, run items = (orderByShard what shardOf items n >>= rest)
  goesOn : ∀ ordered, ordered.map shardOf = List.range n →
    (rest ordered).FailsWithin Failure.OfContents

namespace Barrier

variable {what : Contribution} {shardOf : β → Nat} {n : Nat} {run rest : List β → Outcome γ}
  {items items' : List β}

theorem of_ordered (h : Barrier what shardOf n run rest) {ordered : List β}
    (hordered : orderByShard what shardOf items n = .ok ordered) : run items = rest ordered := by
  rw [h.waits, hordered, ok_bind]

theorem refuses (h : Barrier what shardOf n run rest)
    (hids : ¬ (items.map shardOf).Perm (List.range n)) :
    ∃ cause, run items = .error (.incomplete cause) := by
  cases hordered : orderByShard what shardOf items n with
  | ok ordered => exact absurd (exists_orderByShard_iff.mp ⟨ordered, hordered⟩) hids
  | error e =>
      have hcause : ∃ cause, e = .incomplete cause :=
        orderByShard_fails (P := fun e => ∃ cause, e = .incomplete cause)
          (fun cause => ⟨cause, rfl⟩) what shardOf items n e hordered
      obtain ⟨cause, rfl⟩ := hcause
      exact ⟨cause, by rw [h.waits, hordered, error_bind]⟩

theorem incomplete_iff (h : Barrier what shardOf n run rest) :
    (∃ cause, run items = .error (.incomplete cause)) ↔
      ¬ (items.map shardOf).Perm (List.range n) := by
  refine ⟨?_, h.refuses⟩
  rintro ⟨cause, hrun⟩ hids
  obtain ⟨ordered, hordered⟩ : ∃ ordered, orderByShard what shardOf items n = .ok ordered :=
    exists_orderByShard_iff.mpr hids
  rw [h.of_ordered hordered] at hrun
  have hcontents := h.goesOn ordered (orderByShard_eq_ok.mp hordered).2 _ hrun
  cases hcontents

theorem perm (h : Barrier what shardOf n run rest) (hperm : items.Perm items') :
    (run items).SameUpToArrival (run items') := by
  by_cases hids : (items.map shardOf).Perm (List.range n)
  · obtain ⟨ordered, hordered⟩ : ∃ ordered, orderByShard what shardOf items n = .ok ordered :=
      exists_orderByShard_iff.mpr hids
    exact .inl (by rw [h.of_ordered hordered, h.of_ordered (orderByShard_perm hperm hordered)])
  · have hids' : ¬ (items'.map shardOf).Perm (List.range n) := by
      intro hids'
      exact hids ((hperm.map shardOf).trans hids')
    obtain ⟨cause, hrun⟩ := h.refuses hids
    obtain ⟨cause', hrun'⟩ := h.refuses hids'
    exact .inr ⟨cause, cause', hrun, hrun'⟩

end Barrier

/-! ## The sum and the merge -/

section Barriers

variable {plan : Plan} {v n : Nat} (hplan : plan.CutOf v n)

include hplan

theorem combine_barrier [Add α] :
    ∃ rest, Barrier .gathered (·.shardId) n
      (fun results : List (Gathered α) => combine results plan) rest := by
  refine ⟨_, fun results => by rw [← hplan.shardCount]; rfl, ?_⟩
  intro ordered hrange
  cases ordered with
  | nil => exact absurd rfl (ne_nil_of_range hrange hplan.pos)
  | cons first rest => exact sum_fails rest first.embeddings

theorem merge_barrier [Ord α] {k : Nat} (hk : 1 ≤ k) :
    ∃ rest, Barrier .candidates (·.shardId) n
      (fun locals : List (LocalTopK α) => merge locals plan k) rest := by
  refine ⟨_, fun locals => by
    rw [merge, ensure_of (Nat.ne_of_gt hk), ok_bind, hplan.shardCount], ?_⟩
  intro ordered _
  dsimp only
  split
  · exact .error .fault
  · exact .bind (.forM fun l _ => l.check_fails _ _ _) fun _ _ =>
      .bind (.mapM fun l _ => .bind (plan.shard_fails _) fun _ _ =>
        .of_onlyFaults (l.rebase_onlyFaults _) .fault) fun _ _ => .ok _

end Barriers

/-- The sum of embeddings and the merge of candidates do not depend on the order of arrival: two
orders have the same answer, bit for bit, or the same failure, except that a set that is not one
from each shard is refused in the words for what came first. This refusal stands exactly for such
sets. -/
theorem arrival_order_irrelevant [Add α] [Ord α] {v n : Nat} {plan : Plan}
    (hplan : Plan.cut v n = .ok plan) :
    (∀ results : List (Gathered α),
      ((∃ cause, combine results plan = .error (.incomplete cause)) ↔
        ¬ (results.map (·.shardId)).Perm (List.range n)) ∧
      ∀ results', results.Perm results' →
        (combine results plan).SameUpToArrival (combine results' plan)) ∧
    ∀ (k : Nat) (locals : List (LocalTopK α)),
      (1 ≤ k → ((∃ cause, merge locals plan k = .error (.incomplete cause)) ↔
        ¬ (locals.map (·.shardId)).Perm (List.range n))) ∧
      ∀ locals', locals.Perm locals' →
        (merge locals plan k).SameUpToArrival (merge locals' plan k) := by
  have hcut := Plan.cutOf_of_cut hplan
  constructor
  · intro results
    obtain ⟨rest, hbarrier⟩ := combine_barrier (α := α) hcut
    exact ⟨hbarrier.incomplete_iff, fun _ hperm => hbarrier.perm hperm⟩
  · intro k locals
    by_cases hk : 1 ≤ k
    · obtain ⟨rest, hbarrier⟩ := merge_barrier (α := α) hcut hk
      exact ⟨fun _ => hbarrier.incomplete_iff, fun _ hperm => hbarrier.perm hperm⟩
    · -- Without any candidate to keep neither side looks at the arrivals.
      obtain rfl : k = 0 := by omega
      exact ⟨fun h => absurd h hk, fun _ _ => .inl rfl⟩

/-- Added as they arrive, the two ones and the large number would come to the next larger one. In
the order of the shards each one is rounded away. A shard that comes twice is refused. -/
theorem arrival_order_irrelevant_rounded :
    let plan : Plan := ⟨3, [⟨0, 0, 1, 3, 3⟩, ⟨1, 1, 2, 3, 3⟩, ⟨2, 2, 3, 3, 3⟩]⟩
    let row (i : Nat) (x : Binary32) : Gathered Binary32 := ⟨i, ⟨#[x], 1, 1, 1⟩⟩
    let large := row 0 ⟨0x4b800000⟩
    let one := row 1 ⟨0x3f800000⟩
    let other := row 2 ⟨0x3f800000⟩
    Plan.cut 3 3 = .ok plan ∧
    (combine [other, large, one] plan).SameUpToArrival (combine [one, other, large] plan) ∧
    combine [one, other, large] plan = .ok ⟨#[⟨0x4b800000⟩], 1, 1, 1⟩ ∧
    ∃ cause, combine [one, large, one] plan = .error (.incomplete cause) := by
  intro plan row large one other
  have hplan : Plan.cut 3 3 = .ok plan := rfl
  obtain ⟨hcombine, -⟩ := arrival_order_irrelevant (α := Binary32) hplan
  have hperm : [other, large, one].Perm [one, other, large] := by decide
  exact ⟨hplan, (hcombine _).2 _ hperm, by decide +kernel, (hcombine _).1.mpr (by decide)⟩

end ShardedModel
