import ShardedModel.Execution.Run
import ShardedModel.Proofs.Faults

/-!
# How an operation fails

An operation is a component of the inference call, applied to the values that its node
reads. It can refuse them for their shape, or because they are not one from each shard,
or for their kind; it can fail to find its shard or its slice, or have fewer ids than
candidates are asked for; and it can fault. Given as many values as it takes, it has no
other way to fail. In particular it never reports that the graph was badly scheduled.
-/

namespace ShardedModel

variable {α β γ : Type}

/-! ## Failures of some kind -/

namespace Outcome

/-- If the computation fails, it is with one of these failures. -/
def FailsWithin (P : Failure → Prop) (x : Outcome β) : Prop := ∀ e, x = .error e → P e

namespace FailsWithin

variable {P : Failure → Prop}

theorem ok (b : β) : FailsWithin P (Except.ok b : Outcome β) := by
  intro e h
  cases h

theorem error {e : Failure} (h : P e) : FailsWithin P (Except.error e : Outcome β) := by
  intro e' h'
  cases h'
  exact h

theorem ensure (p : Prop) [Decidable p] {e : Failure} (h : P e) :
    FailsWithin P (ShardedModel.ensure p e) := by
  intro e' h'
  exact (ensure_eq_error.mp h').2 ▸ h

theorem mono {Q : Failure → Prop} (h : ∀ e, P e → Q e) {x : Outcome β} (hx : FailsWithin P x) :
    FailsWithin Q x :=
  fun e he => h e (hx e he)

theorem of_onlyFaults {x : Outcome β} (hx : x.OnlyFaults) (h : P .fault) : FailsWithin P x := by
  intro e he
  exact hx e he ▸ h

theorem bind {x : Outcome β} {f : β → Outcome γ} (hx : FailsWithin P x)
    (hf : ∀ b, x = .ok b → FailsWithin P (f b)) : FailsWithin P (x >>= f) := by
  intro e h
  rcases bind_eq_error.mp h with h | ⟨b, hb, h⟩
  · exact hx e h
  · exact hf b hb e h

theorem mapM {f : β → Outcome γ} {xs : List β} (h : ∀ x ∈ xs, FailsWithin P (f x)) :
    FailsWithin P (xs.mapM f) := by
  intro e herror
  obtain ⟨before, x, after, rfl, -, hx⟩ := mapM_eq_error.mp herror
  exact h x (List.mem_append_right before List.mem_cons_self) e hx

theorem tabulate {f : Nat → Outcome β} {count : Nat} (h : ∀ i, FailsWithin P (f i)) :
    FailsWithin P (Outcome.tabulate count f) := by
  rw [tabulate_eq_mapM]
  exact mapM fun i _ => h i

theorem forM {f : β → Outcome Unit} {xs : List β} (h : ∀ x ∈ xs, FailsWithin P (f x)) :
    FailsWithin P (xs.forM f) := by
  induction xs with
  | nil => exact ok ()
  | cons x xs ih =>
      exact bind (h x List.mem_cons_self) fun _ _ => ih fun y hy => h y (List.mem_cons_of_mem x hy)

theorem foldlM {f : γ → β → Outcome γ} {xs : List β} (h : ∀ x ∈ xs, ∀ c, FailsWithin P (f c x))
    (c : γ) : FailsWithin P (xs.foldlM f c) := by
  induction xs generalizing c with
  | nil => exact ok c
  | cons x xs ih =>
      rw [List.foldlM_cons]
      exact bind (h x List.mem_cons_self c) fun c' _ =>
        ih (fun y hy => h y (List.mem_cons_of_mem x hy)) c'

end FailsWithin

end Outcome

open Outcome

/-- The failures of a component, with those of two components that do not fit together. -/
inductive Failure.OfComponent : Failure → Prop
  | config (cause : ConfigCause) : OfComponent (.config cause)
  | shape (cause : ShapeCause) : OfComponent (.shape cause)
  | incomplete (cause : IncompleteCause) : OfComponent (.incomplete cause)
  | emptyShard (shard available required : Nat) : OfComponent (.emptyShard shard available required)
  | valueKind (expected found : ValueKind) : OfComponent (.execution (.valueKind expected found))
  | fault : OfComponent .fault

/-- The failures over the contents of what a component was handed, which leave out that it is
not one from each shard. -/
inductive Failure.OfContents : Failure → Prop
  | config (cause : ConfigCause) : OfContents (.config cause)
  | shape (cause : ShapeCause) : OfContents (.shape cause)
  | emptyShard (shard available required : Nat) : OfContents (.emptyShard shard available required)
  | fault : OfContents .fault

theorem Failure.OfContents.ofComponent {e : Failure} (h : OfContents e) : OfComponent e := by
  cases h with
  | config cause => exact .config cause
  | shape cause => exact .shape cause
  | emptyShard => exact .emptyShard ..
  | fault => exact .fault

/-- The computation fails as a component does. -/
abbrev Outcome.FailsAsComponent (x : Outcome β) : Prop := x.FailsWithin Failure.OfComponent

theorem Outcome.OnlyFaults.asComponent {x : Outcome β} (h : x.OnlyFaults) : x.FailsAsComponent :=
  .of_onlyFaults h .fault

theorem Outcome.FailsWithin.asComponent {x : Outcome β} (h : x.FailsWithin Failure.OfContents) :
    x.FailsAsComponent :=
  h.mono fun _ => Failure.OfContents.ofComponent

/-! ## Tensors -/

section Tensors

variable [Zero α] [Add α] [Mul α]

theorem Tensor2.matmul_fails (a b : Tensor2 α) : (a.matmul b).FailsAsComponent := by
  refine .bind (.ensure _ (.shape _)) fun _ _ => .bind (Flat.room_onlyFaults _ _).asComponent
    fun _ _ => .bind (.ensure _ .fault) fun _ _ => .ok _

namespace Tensor3

omit [Zero α] [Add α] [Mul α] in
theorem ofData_fails (data : Array α) (batch rows cols : Nat) :
    (ofData data batch rows cols).FailsAsComponent :=
  .bind (volume_onlyFaults _ _ _).asComponent fun _ _ =>
    .bind (.ensure _ (.shape _)) fun _ _ => .ok _

omit [Zero α] [Add α] [Mul α] in
theorem matrix_onlyFaults (t : Tensor3 α) (b : Nat) : (t.matrix b).OnlyFaults :=
  .bind (Word.check_onlyFaults _) fun _ _ => .bind (Word.check_onlyFaults _) fun _ _ =>
    .bind (Word.check_onlyFaults _) fun _ _ => .bind (Word.check_onlyFaults _) fun _ _ =>
      .bind (Flat.slice_onlyFaults _ _ _) fun _ _ => .ok _

omit [Zero α] [Add α] [Mul α] in
theorem mapMatrices_fails (t : Tensor3 α) {f : Tensor2 α → Outcome (Tensor2 β)}
    (hf : ∀ m, (f m).FailsAsComponent) : (t.mapMatrices f).FailsAsComponent :=
  .bind (.tabulate fun b => .bind (t.matrix_onlyFaults b).asComponent fun m _ => hf m)
    fun _ _ => .ok _

theorem batchedMatmul_fails (a : Tensor3 α) (b : Tensor2 α) :
    (a.batchedMatmul b).FailsAsComponent :=
  .bind (volume_onlyFaults _ _ _).asComponent fun _ _ => .bind (.ensure _ .fault) fun _ _ =>
    .bind (a.mapMatrices_fails fun m => m.matmul_fails b) fun _ _ => ofData_fails _ _ _ _

omit [Add α] [Mul α] in
theorem transposeInner_fails (t : Tensor3 α) : t.transposeInner.FailsAsComponent :=
  .bind (.ensure _ .fault) fun _ _ =>
    .bind (t.mapMatrices_fails fun m => m.transpose_onlyFaults.asComponent) fun _ _ => .ok _

omit [Zero α] [Add α] [Mul α] in
theorem squeezeMiddle_fails (t : Tensor3 α) : t.squeezeMiddle.FailsAsComponent :=
  .bind (.ensure _ (.shape _)) fun _ _ => .bind (Word.check_onlyFaults _).asComponent fun _ _ =>
    .bind (.ensure _ (.shape _)) fun _ _ => .ok _

end Tensor3

end Tensors

/-! ## Components -/

theorem Plan.shard_fails (plan : Plan) (id : Nat) :
    (plan.shard id).FailsWithin Failure.OfContents := by
  unfold Plan.shard
  split
  · exact .ok _
  · exact .error (.config _)

theorem Parameters.slice_fails (params : Parameters α) (id : Nat) :
    (params.slice id).FailsAsComponent := by
  unfold Parameters.slice
  split
  · split
    · exact .ok _
    · exact .error (.incomplete _)
  · exact .error (.incomplete _)

theorem TableSlice.check_fails (slice : TableSlice α) (shard : Shard) :
    (slice.check shard).FailsAsComponent :=
  .bind (.ensure _ (.shape _)) fun _ _ => .bind (Word.sub_onlyFaults _ _).asComponent fun _ _ =>
    .ensure _ (.shape _)

theorem maskedRow_fails [Zero α] (table : Tensor2 α) (row : Nat) (owned : Bool) :
    (maskedRow table row owned).FailsAsComponent :=
  .bind (.bind (.ensure _ (.shape _)) fun _ _ => (table.row_onlyFaults row).asComponent)
    fun _ _ => .ok _

theorem gather_fails [Zero α] (shard : Shard) (slice : TableSlice α) (tokens : TokenBatch) :
    (gather shard slice tokens).FailsAsComponent :=
  .bind (slice.check_fails shard) fun _ _ =>
    .bind (.mapM fun id _ => (localRow_onlyFaults shard id).asComponent) fun _ _ =>
      .bind (Flat.room_onlyFaults _ _).asComponent fun _ _ =>
        .bind (.mapM fun _ _ => maskedRow_fails _ _ _) fun _ _ =>
          .bind (Tensor3.ofData_fails _ _ _ _) fun _ _ => .ok _

/-- Arrivals are refused only because they are not one from each shard. -/
theorem checkArrivals_fails {P : Failure → Prop} (hP : ∀ cause, P (.incomplete cause))
    (what : Contribution) (shardCount : Nat) (seen ids : List Nat) :
    (checkArrivals what shardCount seen ids).FailsWithin P := by
  induction ids generalizing seen with
  | nil => exact .ok ()
  | cons id rest ih =>
      exact .bind (.ensure _ (hP _)) fun _ _ => .bind (.ensure _ (hP _)) fun _ _ => ih (id :: seen)

theorem orderByShard_fails {P : Failure → Prop} (hP : ∀ cause, P (.incomplete cause))
    (what : Contribution) (shardOf : β → Nat) (items : List β) (shardCount : Nat) :
    (orderByShard what shardOf items shardCount).FailsWithin P := by
  refine .bind (checkArrivals_fails hP _ _ _ _) fun _ _ => .mapM fun id _ => ?_
  split
  · exact .ok _
  · exact .error (hP _)

theorem sum_fails [Add α] (results : List (Gathered α)) (sum : Tensor3 α) :
    (results.foldlM (fun (t : Tensor3 α) r => t.add r.embeddings) sum).FailsWithin
      Failure.OfContents :=
  .foldlM (fun _ _ _ => .bind (.ensure _ (.shape _)) fun _ _ => .ok _) sum

theorem combine_fails [Add α] (results : List (Gathered α)) (plan : Plan) :
    (combine results plan).FailsAsComponent := by
  refine .bind (orderByShard_fails .incomplete _ _ _ _) fun ordered _ => ?_
  split
  · exact .error (.incomplete _)
  · exact (sum_fails _ _).asComponent

theorem localTopK_fails [Ord α] (shard : Shard) (l : Logits α) (k : Nat) :
    (localTopK shard l k).FailsAsComponent :=
  .bind (.ensure _ (.config _)) fun _ _ => .bind (.ensure _ (.shape _)) fun _ _ =>
    .bind (Word.sub_onlyFaults _ _).asComponent fun _ _ => .bind (.ensure _ (.shape _)) fun _ _ =>
      .bind (.ensure _ (.emptyShard ..)) fun _ _ =>
        .bind (.tabulate fun b => .bind (l.scores.row_onlyFaults b).asComponent fun _ _ => .ok _)
          fun _ _ => .ok _

theorem LocalTopK.check_fails (l : LocalTopK α) (plan : Plan) (k batch : Nat) :
    (l.check plan k batch).FailsWithin Failure.OfContents := by
  refine .bind (.ensure _ (.shape _)) fun _ _ => ?_
  dsimp only
  split
  · exact .error (.emptyShard _ _ _)
  · rw [ok_bind]
    refine .bind (plan.shard_fails _) fun _ _ =>
      .bind (.of_onlyFaults (Word.sub_onlyFaults _ _) .fault) fun _ _ => ?_
    split
    · exact .error (.shape _)
    · exact .ok _

theorem LocalTopK.rebase_onlyFaults (l : LocalTopK α) (shard : Shard) :
    (l.rebase shard).OnlyFaults :=
  .mapM fun _ _ => .mapM fun _ _ => .bind (Word.check_onlyFaults _) fun _ _ => .ok _

theorem merge_fails [Ord α] (locals : List (LocalTopK α)) (plan : Plan) (k : Nat) :
    (merge locals plan k).FailsAsComponent := by
  refine .bind (.ensure _ (.config _)) fun _ _ =>
    .bind (orderByShard_fails .incomplete _ _ _ _) fun ordered _ => ?_
  split
  · exact .error .fault
  · exact .bind (.forM fun l _ => (l.check_fails _ _ _).asComponent) fun _ _ =>
      .bind (.mapM fun l _ => .bind (plan.shard_fails _).asComponent fun _ _ =>
        (l.rebase_onlyFaults _).asComponent) fun _ _ => .ok _

section Scoring

variable [Zero α] [Add α] [Mul α]

theorem Projection.applyStageA_fails (p : Projection α) (embeddings : Tensor3 α) :
    (p.applyStageA embeddings).FailsAsComponent :=
  .bind (.ensure _ (.shape _)) fun _ _ => .bind (.ensure _ (.shape _)) fun _ _ =>
    .bind (embeddings.batchedMatmul_fails _) fun scores _ => scores.transposeInner_fails

theorem Projection.applyStageB_fails (p : Projection α) (scores : Tensor3 α) :
    (p.applyStageB scores).FailsAsComponent :=
  .bind (scores.batchedMatmul_fails _) fun projected _ => projected.squeezeMiddle_fails

theorem shardLogits_fails (shard : Shard) (slice : TableSlice α) (hidden : Tensor2 α) :
    (shardLogits shard slice hidden).FailsAsComponent :=
  .bind (slice.check_fails shard) fun _ _ => .bind (.ensure _ (.shape _)) fun _ _ =>
    .bind hidden.transpose_onlyFaults.asComponent fun _ _ =>
      .bind (Tensor2.matmul_fails _ _) fun products _ =>
        .bind products.transpose_onlyFaults.asComponent fun _ _ => .ok _

end Scoring

/-! ## Operations -/

namespace Value

/-- A value of the wrong kind is a mismatch. -/
theorem mismatch_fails (expected : ValueKind) (v : Value α) :
    (mismatch expected v : Outcome β).FailsAsComponent :=
  .error (.valueKind ..)

theorem asPrediction_fails (v : Value α) : v.asPrediction.FailsAsComponent := by
  unfold asPrediction
  split
  · exact .ok _
  · exact mismatch_fails _ _

end Value

/-- An operation that computes fails as its component does, if it reads as many values as it
takes. -/
theorem Operation.evaluate_fails [Zero α] [Add α] [Mul α] [Ord α] {op : Operation}
    (hinput : op ≠ .input) (hcopy : op.isCopy = false) {inputs : List (Value α)} {plan : Plan}
    (hlength : inputs.length = op.arity plan.shardCount) (params : Parameters α) :
    (op.evaluate inputs plan params).FailsAsComponent := by
  have hsingle : inputs.length = 1 → ∃ v, single inputs = .ok v := by
    intro h
    obtain ⟨v, rfl⟩ := List.length_eq_one_iff.mp h
    exact ⟨v, rfl⟩
  cases op with
  | input => exact absurd rfl hinput
  | copy => cases hcopy
  | accumulate =>
      refine .bind (.mapM fun v _ => ?_) fun _ _ => .bind (combine_fails _ _) fun _ _ => .ok _
      cases v with
      | gathered x => exact .ok x
      | _ => exact Value.mismatch_fails _ _
  | merge k =>
      refine .bind (.mapM fun v _ => ?_) fun _ _ => .bind (merge_fails _ _ _) fun _ _ => .ok _
      cases v with
      | topK x => exact .ok x
      | _ => exact Value.mismatch_fails _ _
  | gather id =>
      obtain ⟨v, hv⟩ := hsingle hlength
      refine .bind (plan.shard_fails id).asComponent fun _ _ =>
        .bind (params.slice_fails id) fun _ _ => ?_
      rw [hv, ok_bind]
      refine .bind ?_ fun _ _ => .bind (gather_fails _ _ _) fun _ _ => .ok _
      cases v with
      | tokens x => exact .ok x
      | _ => exact Value.mismatch_fails _ _
  | stageA =>
      obtain ⟨v, hv⟩ := hsingle hlength
      rw [evaluate, hv, ok_bind]
      refine .bind ?_ fun _ _ => .bind (params.projection.applyStageA_fails _) fun _ _ => .ok _
      cases v with
      | combined x => exact .ok x
      | _ => exact Value.mismatch_fails _ _
  | stageB =>
      obtain ⟨v, hv⟩ := hsingle hlength
      rw [evaluate, hv, ok_bind]
      refine .bind ?_ fun _ _ => .bind (params.projection.applyStageB_fails _) fun _ _ => .ok _
      cases v with
      | scores x => exact .ok x
      | _ => exact Value.mismatch_fails _ _
  | shardLogits id =>
      obtain ⟨v, hv⟩ := hsingle hlength
      refine .bind (plan.shard_fails id).asComponent fun _ _ =>
        .bind (params.slice_fails id) fun _ _ => ?_
      rw [hv, ok_bind]
      refine .bind ?_ fun _ _ => .bind (shardLogits_fails _ _ _) fun _ _ => .ok _
      cases v with
      | hidden x => exact .ok x
      | _ => exact Value.mismatch_fails _ _
  | localTopK id k =>
      obtain ⟨v, hv⟩ := hsingle hlength
      refine .bind (plan.shard_fails id).asComponent fun _ _ => ?_
      rw [hv, ok_bind]
      refine .bind ?_ fun _ _ => .bind (localTopK_fails _ _ _) fun _ _ => .ok _
      cases v with
      | logits x => exact .ok x
      | _ => exact Value.mismatch_fails _ _

end ShardedModel
