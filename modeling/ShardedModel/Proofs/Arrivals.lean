import Mathlib.Data.List.Nodup
import Mathlib.Data.List.Perm.Basic
import ShardedModel.Embedding
import ShardedModel.Proofs.Outcome

/-!
# One contribution from every shard

Both barriers, the sum of embeddings and the merge of candidates, put what the
shards hand in into the order of the shards before they look at any of it. The
arrivals are accepted exactly when no shard is unknown, none comes twice and none is
missing. The order that they are put into does not depend on the one they came in.
-/

namespace ShardedModel

theorem checkArrivals_eq_ok {what : Contribution} {n : Nat} {seen ids : List Nat} {u : Unit} :
    checkArrivals what n seen ids = .ok u ↔
      (∀ id ∈ ids, id < n) ∧ ids.Nodup ∧ ∀ id ∈ ids, id ∉ seen := by
  induction ids generalizing seen with
  | nil => simp [checkArrivals]
  | cons id rest ih =>
      rw [checkArrivals, Outcome.bind_eq_ok]
      constructor
      · rintro ⟨_, hknown, h⟩
        obtain ⟨_, hnew, h⟩ := Outcome.bind_eq_ok.mp h
        obtain ⟨hrest, hnodup, hseen⟩ := ih.mp h
        rw [ensure_eq_ok] at hknown hnew
        refine ⟨?_, List.nodup_cons.mpr ⟨?_, hnodup⟩, ?_⟩
        · intro i hi
          rcases List.mem_cons.mp hi with rfl | hi
          · exact hknown
          · exact hrest i hi
        · intro hmem
          exact hseen id hmem List.mem_cons_self
        · intro i hi
          rcases List.mem_cons.mp hi with rfl | hi
          · exact hnew
          · exact fun hmem => hseen i hi (List.mem_cons_of_mem _ hmem)
      · rintro ⟨hknown, hnodup, hseen⟩
        obtain ⟨hnotin, hnodup⟩ := List.nodup_cons.mp hnodup
        refine ⟨(), ensure_of (hknown id List.mem_cons_self), ?_⟩
        rw [ensure_of (hseen id List.mem_cons_self), Outcome.ok_bind, ih]
        refine ⟨fun i hi => hknown i (List.mem_cons_of_mem _ hi), hnodup, ?_⟩
        intro i hi hmem
        rcases List.mem_cons.mp hmem with rfl | hmem
        · exact hnotin hi
        · exact hseen i (List.mem_cons_of_mem _ hi) hmem

/-- Where no key comes twice, looking for the key of a member finds that member. -/
theorem find?_of_nodup_keys {β : Type} {key : β → Nat} {items : List β}
    (hnodup : (items.map key).Nodup) {item : β} (hmem : item ∈ items) :
    items.find? (fun other => key other == key item) = some item := by
  induction items with
  | nil => cases hmem
  | cons first rest ih =>
      obtain ⟨hfirst, hrest⟩ := List.nodup_cons.mp hnodup
      rcases List.mem_cons.mp hmem with rfl | hmem
      · rw [List.find?_cons_of_pos (by simp)]
      · have hne : key first ≠ key item := fun heq =>
          hfirst (heq ▸ List.mem_map_of_mem hmem)
        rw [List.find?_cons_of_neg (by simpa using hne), ih hrest hmem]

section Order

variable {β : Type} {what : Contribution} {shardOf : β → Nat} {items ordered : List β} {n : Nat}

/-- Contributions are put into order if they are one for each shard. -/
theorem orderByShard_eq_ok :
    orderByShard what shardOf items n = .ok ordered ↔
      ordered.Perm items ∧ ordered.map shardOf = List.range n := by
  constructor
  · intro h
    obtain ⟨⟨⟩, harrive, h⟩ := Outcome.bind_eq_ok.mp h
    obtain ⟨hknown, hnodup, -⟩ := checkArrivals_eq_ok.mp harrive
    have hfound : List.Forall₂ (fun id item => items.find? (fun other => shardOf other == id) =
        some item) (List.range n) ordered := by
      refine (Outcome.mapM_eq_ok.mp h).imp fun id item hitem => ?_
      split at hitem
      · next found hfound => rw [hfound, Except.ok.inj hitem]
      · cases hitem
    have hrange : ordered.map shardOf = List.range n := by
      refine List.forall₂_eq_eq_eq ▸ (List.forall₂_map_left_iff.mpr (hfound.flip.imp ?_))
      intro item id hitem
      simpa using List.find?_some hitem
    refine ⟨?_, hrange⟩
    -- Neither list holds anything twice, so it is enough that they hold the same.
    have hordered : ordered.Nodup := List.Nodup.of_map shardOf (hrange ▸ List.nodup_range)
    rw [List.perm_ext_iff_of_nodup hordered (List.Nodup.of_map shardOf hnodup)]
    intro item
    constructor
    · intro hitem
      obtain ⟨id, -, hid⟩ := Outcome.exists_of_forall₂ hfound.flip hitem
      exact List.mem_of_find?_eq_some hid
    · intro hitem
      have hid := List.mem_range.mpr (hknown _ (List.mem_map_of_mem hitem))
      obtain ⟨found, hin, hfind⟩ := Outcome.exists_of_forall₂ hfound hid
      rw [find?_of_nodup_keys hnodup hitem] at hfind
      exact Option.some.inj hfind ▸ hin
  · rintro ⟨hperm, hrange⟩
    have hids : (items.map shardOf).Perm (List.range n) := hrange ▸ (hperm.map shardOf).symm
    have hnodup : (items.map shardOf).Nodup := hids.nodup_iff.mpr List.nodup_range
    have harrive : checkArrivals what n [] (items.map shardOf) = .ok () := by
      rw [checkArrivals_eq_ok]
      exact ⟨fun id hid => List.mem_range.mp (hids.mem_iff.mp hid), hnodup,
        fun _ _ => List.not_mem_nil⟩
    unfold orderByShard
    rw [harrive, Outcome.ok_bind, ← hrange, Outcome.mapM_eq_ok, List.forall₂_map_left_iff,
      List.forall₂_same]
    intro item hitem
    rw [find?_of_nodup_keys hnodup (hperm.mem_iff.mp hitem)]

theorem ne_nil_of_range (h : ordered.map shardOf = List.range n) (hn : 0 < n) : ordered ≠ [] := by
  rintro rfl
  have hlength := congrArg List.length h
  rw [List.map_nil, List.length_nil, List.length_range] at hlength
  omega

theorem lt_of_range (h : ordered.map shardOf = List.range n) {item : β} (hitem : item ∈ ordered) :
    shardOf item < n :=
  List.mem_range.mp (h ▸ List.mem_map_of_mem hitem)

/-- Contributions in the order of the shards are taken as they stand. -/
theorem orderByShard_of_range (h : items.map shardOf = List.range n) :
    orderByShard what shardOf items n = .ok items :=
  orderByShard_eq_ok.mpr ⟨.refl items, h⟩

/-- Contributions are accepted by the shards that they come from, in whatever order. -/
theorem exists_orderByShard_iff :
    (∃ ordered, orderByShard what shardOf items n = .ok ordered) ↔
      (items.map shardOf).Perm (List.range n) := by
  constructor
  · rintro ⟨ordered, h⟩
    obtain ⟨hperm, hrange⟩ := orderByShard_eq_ok.mp h
    exact hrange ▸ (hperm.map shardOf).symm
  · intro hids
    have hitems : List.Forall₂ (fun id item => shardOf item = id) (items.map shardOf) items := by
      rw [List.forall₂_map_left_iff, List.forall₂_same]
      exact fun _ _ => rfl
    obtain ⟨ordered, hordered, hperm⟩ := List.perm_comp_forall₂ hids.symm hitems
    have hrange : ordered.map shardOf = List.range n :=
      List.forall₂_eq_eq_eq ▸ (List.forall₂_map_left_iff.mpr hordered.flip)
    exact ⟨ordered, orderByShard_eq_ok.mpr ⟨hperm, hrange⟩⟩

/-- Contributions that arrive in another order are put into the same order. -/
theorem orderByShard_perm {items' : List β} (hperm : items.Perm items')
    (h : orderByShard what shardOf items n = .ok ordered) :
    orderByShard what shardOf items' n = .ok ordered := by
  obtain ⟨hordered, hrange⟩ := orderByShard_eq_ok.mp h
  exact orderByShard_eq_ok.mpr ⟨hordered.trans hperm, hrange⟩

end Order

end ShardedModel
