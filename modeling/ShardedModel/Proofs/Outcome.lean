import Mathlib.Data.List.Forall2
import ShardedModel.Storage

/-!
# Taking computations apart

Every operation of the library is a chain of steps, each of which may fail, and
every statement about one begins by asking which steps succeeded. The lemmas here
answer that once: for a chain of two steps, for a condition, for a list of values
that are computed one after the other, for steps that change a state as they go, for
the checked arithmetic of counts, and for blocks of memory that grow.

A list of computations stops at its first failure. `mapM_eq_error` says which one
that is, and it is what decides between two failures of one call.
-/

namespace ShardedModel

variable {ε β γ : Type}

/-! ## Conditions and chains -/

theorem ensure_of {p : Prop} [Decidable p] {e : Failure} (h : p) : ensure p e = .ok () :=
  if_pos h

theorem ensure_of_not {p : Prop} [Decidable p] {e : Failure} (h : ¬ p) :
    ensure p e = .error e :=
  if_neg h

@[simp] theorem ensure_eq_ok {p : Prop} [Decidable p] {e : Failure} {u : Unit} :
    ensure p e = .ok u ↔ p := by
  unfold ensure
  split <;> simp [*]

theorem ensure_eq_error {p : Prop} [Decidable p] {e e' : Failure} :
    ensure p e = .error e' ↔ ¬ p ∧ e = e' := by
  unfold ensure
  split <;> simp [*]

namespace Outcome

@[simp] theorem ok_bind (b : β) (f : β → Except ε γ) :
    ((Except.ok b : Except ε β) >>= f) = f b := rfl

@[simp] theorem error_bind (e : ε) (f : β → Except ε γ) :
    ((Except.error e : Except ε β) >>= f) = .error e := rfl

@[simp] theorem pure_eq (b : β) : (pure b : Except ε β) = .ok b := rfl

theorem bind_eq_ok {x : Except ε β} {f : β → Except ε γ} {c : γ} :
    (x >>= f) = .ok c ↔ ∃ b, x = .ok b ∧ f b = .ok c := by
  cases x with
  | error e => simp
  | ok b => simp

theorem bind_eq_error {x : Outcome β} {f : β → Outcome γ} {e : Failure} :
    (x >>= f) = .error e ↔ x = .error e ∨ ∃ b, x = .ok b ∧ f b = .error e := by
  cases x with
  | error e' => simp
  | ok b => simp

/-- A last step that cannot fail changes no failure. -/
theorem bind_pure_eq_error {x : Outcome β} {f : β → γ} {e : Failure} :
    (x >>= fun b => Except.ok (f b)) = .error e ↔ x = .error e := by
  cases x with
  | error e' => simp
  | ok b => simp

theorem bind_congr_ok {x : Outcome β} {f g : β → Outcome γ} (h : ∀ b, x = .ok b → f b = g b) :
    (x >>= f) = (x >>= g) := by
  cases x with
  | error e => rfl
  | ok b => exact h b rfl

/-! ## One after the other -/

theorem getElem?_map_range {f : Nat → γ} {n i : Nat} {y : γ} :
    ((List.range n).map f)[i]? = some y ↔ i < n ∧ f i = y := by
  rw [List.getElem?_map, Option.map_eq_some_iff]
  constructor
  · intro ⟨j, hj, hy⟩
    obtain ⟨hi, rfl⟩ := List.getElem?_eq_some_iff.mp hj
    rw [List.length_range] at hi
    rw [List.getElem_range] at hy
    exact ⟨hi, hy⟩
  · intro ⟨hi, hy⟩
    exact ⟨i, List.getElem?_range hi, hy⟩

theorem mapM_eq_ok {f : β → Except ε γ} {xs : List β} {ys : List γ} :
    xs.mapM f = .ok ys ↔ List.Forall₂ (fun x y => f x = .ok y) xs ys := by
  induction xs generalizing ys with
  | nil =>
      rw [List.mapM_nil, List.forall₂_nil_left_iff, pure_eq, Except.ok.injEq]
      exact eq_comm
  | cons x xs ih =>
      rw [List.mapM_cons, bind_eq_ok, List.forall₂_cons_left_iff]
      constructor
      · rintro ⟨y, hy, hrest⟩
        obtain ⟨ys', hys, h⟩ := bind_eq_ok.mp hrest
        rw [pure_eq, Except.ok.injEq] at h
        exact ⟨y, ys', hy, ih.mp hys, h.symm⟩
      · rintro ⟨y, ys', hy, hys, rfl⟩
        exact ⟨y, hy, bind_eq_ok.mpr ⟨ys', ih.mpr hys, rfl⟩⟩

theorem getElem?_of_forall₂ {R : β → γ → Prop} {xs : List β} {ys : List γ}
    (h : List.Forall₂ R xs ys) {i : Nat} {x : β} (hx : xs[i]? = some x) :
    ∃ y, ys[i]? = some y ∧ R x y := by
  induction h generalizing i with
  | nil => simp at hx
  | cons hhead _ ih =>
      cases i with
      | zero =>
          rw [List.getElem?_cons_zero, Option.some.injEq] at hx
          exact ⟨_, List.getElem?_cons_zero, hx ▸ hhead⟩
      | succ i => exact ih hx

theorem exists_of_forall₂ {R : β → γ → Prop} {xs : List β} {ys : List γ}
    (h : List.Forall₂ R xs ys) {x : β} (hx : x ∈ xs) : ∃ y ∈ ys, R x y := by
  obtain ⟨i, hi⟩ := List.mem_iff_getElem?.mp hx
  obtain ⟨y, hy, hr⟩ := getElem?_of_forall₂ h hi
  exact ⟨y, List.mem_of_getElem? hy, hr⟩

theorem exists_forall₂ {R : β → γ → Prop} {xs : List β} (h : ∀ x ∈ xs, ∃ y, R x y) :
    ∃ ys, List.Forall₂ R xs ys := by
  induction xs with
  | nil => exact ⟨[], .nil⟩
  | cons x xs ih =>
      obtain ⟨⟨y, hy⟩, hrest⟩ := List.forall_mem_cons.mp h
      obtain ⟨ys, hys⟩ := ih hrest
      exact ⟨y :: ys, .cons hy hys⟩

theorem mapM_eq_ok_map {f : β → Outcome γ} {g : β → γ} {xs : List β}
    (h : ∀ x ∈ xs, f x = .ok (g x)) : xs.mapM f = .ok (xs.map g) := by
  rw [mapM_eq_ok, List.forall₂_map_right_iff, List.forall₂_same]
  exact h

/-- Reading back values that were wrapped one by one. -/
theorem mapM_map_of_forall (f : β → Outcome γ) (wrap : γ → β) (h : ∀ y, f (wrap y) = .ok y)
    (ys : List γ) : (ys.map wrap).mapM f = .ok ys := by
  rw [mapM_eq_ok, List.forall₂_map_left_iff, List.forall₂_same]
  exact fun y _ => h y

theorem mapM_congr {f g : β → Outcome γ} {xs : List β} (h : ∀ x ∈ xs, f x = g x) :
    xs.mapM f = xs.mapM g := by
  induction xs with
  | nil => rfl
  | cons x xs ih =>
      rw [List.mapM_cons, List.mapM_cons, h x List.mem_cons_self,
        ih fun y hy => h y (List.mem_cons_of_mem x hy)]

/-- A list fails with the failure of the first of its members that fails. -/
theorem mapM_eq_error {f : β → Outcome γ} {xs : List β} {e : Failure} :
    xs.mapM f = .error e ↔
      ∃ before x after, xs = before ++ x :: after ∧ (∀ y ∈ before, ∃ z, f y = .ok z) ∧
        f x = .error e := by
  induction xs with
  | nil => simp
  | cons x xs ih =>
      rw [List.mapM_cons]
      cases hx : f x with
      | error e' =>
          rw [error_bind, Except.error.injEq]
          constructor
          · rintro rfl
            exact ⟨[], x, xs, rfl, by simp, hx⟩
          · rintro ⟨before, y, after, heq, hok, hy⟩
            cases before with
            | nil =>
                obtain ⟨rfl, -⟩ := List.cons.inj heq
                rw [hx, Except.error.injEq] at hy
                exact hy
            | cons z zs =>
                obtain ⟨rfl, -⟩ := List.cons.inj heq
                obtain ⟨w, hw⟩ := hok x List.mem_cons_self
                rw [hx] at hw
                cases hw
      | ok z =>
          rw [ok_bind, bind_eq_error, ih]
          constructor
          · rintro (⟨before, y, after, rfl, hok, hy⟩ | ⟨b, -, h⟩)
            · refine ⟨x :: before, y, after, rfl, ?_, hy⟩
              intro w hw
              rcases List.mem_cons.mp hw with rfl | hw
              · exact ⟨z, hx⟩
              · exact hok w hw
            · cases h
          · rintro ⟨before, y, after, heq, hok, hy⟩
            cases before with
            | nil =>
                obtain ⟨rfl, -⟩ := List.cons.inj heq
                rw [hx] at hy
                cases hy
            | cons w ws =>
                obtain ⟨rfl, rfl⟩ := List.cons.inj heq
                exact .inl ⟨ws, y, after, rfl,
                  fun v hv => hok v (List.mem_cons_of_mem _ hv), hy⟩

/-- The same for numbered members. -/
theorem mapM_range_eq_error {f : Nat → Outcome γ} {n : Nat} {e : Failure}
    (h : (List.range n).mapM f = .error e) :
    ∃ j < n, (∀ i < j, ∃ z, f i = .ok z) ∧ f j = .error e := by
  obtain ⟨before, j, after, heq, hok, hj⟩ := mapM_eq_error.mp h
  have hlength : before.length < n := by
    have := congrArg List.length heq
    rw [List.length_range, List.length_append, List.length_cons] at this
    omega
  have hbefore : before = List.range before.length := by
    have := congrArg (List.take before.length) heq
    rw [List.take_range, Nat.min_eq_left (Nat.le_of_lt hlength), List.take_left] at this
    exact this.symm
  have hat : j = before.length := by
    have := congrArg (·[before.length]?) heq
    simpa [hlength] using this.symm
  subst hat
  refine ⟨before.length, hlength, fun i hi => hok i ?_, hj⟩
  rw [hbefore]
  exact List.mem_range.mpr hi

theorem mapM_of_forall {f : β → Outcome γ} {xs : List β} (h : ∀ x ∈ xs, ∃ y, f x = .ok y) :
    ∃ ys, xs.mapM f = .ok ys := by
  cases hmap : xs.mapM f with
  | ok ys => exact ⟨ys, rfl⟩
  | error e =>
      obtain ⟨before, x, after, rfl, -, hx⟩ := mapM_eq_error.mp hmap
      obtain ⟨y, hy⟩ := h x (List.mem_append_right before List.mem_cons_self)
      rw [hy] at hx
      cases hx

/-- Going through a list together with what was computed from it. -/
theorem mapM_zip {δ : Type} {f : β → Outcome γ} {xs : List β} {ys : List γ}
    (step : β → γ → Outcome δ) (h : xs.mapM f = .ok ys) :
    ((xs.zip ys).mapM fun (x, y) => step x y) = xs.mapM fun x => f x >>= step x := by
  have hall := mapM_eq_ok.mp h
  clear h
  induction hall with
  | nil => rfl
  | cons hhead _ ih => rw [List.zip_cons_cons, List.mapM_cons, List.mapM_cons, ih, hhead, ok_bind]

theorem foldlM_congr {f g : γ → β → Outcome γ} {xs : List β} (h : ∀ x ∈ xs, ∀ c, f c x = g c x)
    (c : γ) : xs.foldlM f c = xs.foldlM g c := by
  induction xs generalizing c with
  | nil => rfl
  | cons x xs ih =>
      rw [List.foldlM_cons, List.foldlM_cons, h x List.mem_cons_self]
      exact bind_congr_ok fun c' _ => ih (fun y hy => h y (List.mem_cons_of_mem x hy)) c'

/-- A loop with a counter goes through if each round keeps what holds of the rounds so far. -/
theorem foldlM_range {I : Nat → β → Prop} {f : β → Nat → Outcome β} {m : Nat} {start : β}
    (hround : ∀ i < m, ∀ s, I i s → ∃ s', f s i = .ok s' ∧ I (i + 1) s') (hstart : I 0 start) :
    ∃ s, (List.range m).foldlM f start = .ok s ∧ I m s := by
  induction m with
  | zero => exact ⟨start, rfl, hstart⟩
  | succ m ih =>
      obtain ⟨s, hs, hinv⟩ := ih fun i hi => hround i (Nat.lt_succ_of_lt hi)
      obtain ⟨s', hs', hinv'⟩ := hround m (Nat.lt_succ_self m) s hinv
      refine ⟨s', ?_, hinv'⟩
      rw [List.range_succ, List.foldlM_append, hs, ok_bind, List.foldlM_cons, hs', ok_bind,
        List.foldlM_nil, pure_eq]

theorem forM_eq_ok {f : β → Outcome Unit} {xs : List β} {u : Unit} :
    xs.forM f = .ok u ↔ ∀ x ∈ xs, f x = .ok () := by
  induction xs with
  | nil => simp
  | cons x xs ih =>
      show (f x >>= fun _ => xs.forM f) = .ok u ↔ _
      rw [bind_eq_ok, List.forall_mem_cons, ← ih]
      constructor
      · rintro ⟨b, hx, hxs⟩
        exact ⟨hx, hxs⟩
      · rintro ⟨hx, hxs⟩
        exact ⟨(), hx, hxs⟩

/-! ## Steps that can only fault -/

/-- If the computation fails, it is by a fault. -/
def OnlyFaults (x : Outcome β) : Prop := ∀ e, x = .error e → e = .fault

namespace OnlyFaults

theorem ok (b : β) : OnlyFaults (Except.ok b : Outcome β) := fun _ h => nomatch h

theorem fault : OnlyFaults (Except.error .fault : Outcome β) := fun _ h => (Except.error.inj h).symm

theorem ensure (p : Prop) [Decidable p] : OnlyFaults (ShardedModel.ensure p .fault) :=
  fun _ h => (ensure_eq_error.mp h).2.symm

theorem eq_fault {x : Outcome β} (h : OnlyFaults x) (hnot : ∀ b, x ≠ .ok b) :
    x = .error .fault := by
  cases hx : x with
  | ok b => exact absurd hx (hnot b)
  | error e => rw [h e hx]

theorem bind {x : Outcome β} {f : β → Outcome γ} (hx : OnlyFaults x)
    (hf : ∀ b, x = .ok b → OnlyFaults (f b)) : OnlyFaults (x >>= f) := by
  intro e h
  rcases bind_eq_error.mp h with h | ⟨b, hb, h⟩
  · exact hx e h
  · exact hf b hb e h

theorem mapM {f : β → Outcome γ} {xs : List β} (h : ∀ x ∈ xs, OnlyFaults (f x)) :
    OnlyFaults (xs.mapM f) := by
  intro e herror
  obtain ⟨before, x, after, rfl, -, hx⟩ := mapM_eq_error.mp herror
  exact h x (List.mem_append_right before List.mem_cons_self) e hx

end OnlyFaults

end Outcome

/-! ## Steps that change a state -/

section Running

variable {σ : Type} {s s' between : σ}

theorem run_liftExcept (x : Outcome β) (s : σ) :
    (liftExcept x : ExceptT Failure (StateM σ) β).run.run s = (x, s) := by
  cases x <;> rfl

theorem run_get (s : σ) : (get : ExceptT Failure (StateM σ) σ).run.run s = (.ok s, s) := rfl

theorem run_set (s s' : σ) :
    (set s' : ExceptT Failure (StateM σ) PUnit).run.run s = (.ok (), s') := rfl

theorem run_bind_of_ok {x : ExceptT Failure (StateM σ) β}
    (f : β → ExceptT Failure (StateM σ) γ) {b : β} (h : x.run.run s = (.ok b, between)) :
    (x >>= f).run.run s = (f b).run.run between := by
  rw [ExceptT.run_bind, StateT.run_bind, h]
  rfl

theorem run_bind_of_error {x : ExceptT Failure (StateM σ) β}
    (f : β → ExceptT Failure (StateM σ) γ) {e : Failure}
    (h : x.run.run s = (.error e, between)) :
    (x >>= f).run.run s = (.error e, between) := by
  rw [ExceptT.run_bind, StateT.run_bind, h]
  rfl

theorem run_bind_eq_ok {x : ExceptT Failure (StateM σ) β}
    {f : β → ExceptT Failure (StateM σ) γ} {c : γ} :
    (x >>= f).run.run s = (.ok c, s') ↔
      ∃ b between, x.run.run s = (.ok b, between) ∧
        (f b).run.run between = (.ok c, s') := by
  constructor
  · intro h
    cases hx : x.run.run s with
    | mk outcome between =>
        cases outcome with
        | error e =>
            rw [run_bind_of_error f hx] at h
            cases h
        | ok b => exact ⟨b, between, rfl, (run_bind_of_ok f hx).symm.trans h⟩
  · rintro ⟨b, between, hx, h⟩
    rw [run_bind_of_ok f hx, h]

end Running

/-! ## Counts -/

namespace Word

@[simp] theorem check_eq_ok {n m : Nat} : check n = .ok m ↔ n < limit ∧ n = m := by
  unfold check
  split <;> simp [*]

theorem check_eq_error {n : Nat} {e : Failure} :
    check n = .error e ↔ ¬ n < limit ∧ e = .fault := by
  unfold check
  split <;> simp [*, eq_comm]

theorem add_of_lt {a b : Nat} (h : a + b < limit) : add a b = .ok (a + b) := if_pos h

theorem mul_of_lt {a b : Nat} (h : a * b < limit) : mul a b = .ok (a * b) := if_pos h

theorem sub_of_le {a b : Nat} (h : b ≤ a) : sub a b = .ok (a - b) := if_pos h

theorem sub_eq_ok {a b c : Nat} : sub a b = .ok c ↔ b ≤ a ∧ a - b = c := by
  unfold sub
  split <;> simp [*]

theorem sub_eq_error {a b : Nat} {e : Failure} :
    sub a b = .error e ↔ ¬ b ≤ a ∧ e = .fault := by
  unfold sub
  split <;> simp [*, eq_comm]

theorem check_onlyFaults (n : Nat) : (check n).OnlyFaults := fun _ h => (check_eq_error.mp h).2

theorem sub_onlyFaults (a b : Nat) : (sub a b).OnlyFaults := fun _ h => (sub_eq_error.mp h).2

theorem clamp_of_le {a low high : Nat} (h : low ≤ high) :
    clamp a low high = .ok (max low (min a high)) := if_pos h

theorem signedLimit_le_limit : signedLimit ≤ limit := by decide

end Word

/-! ## Blocks that grow -/

namespace Storage

theorem reserve_onlyFaults (bytes count : Nat) : (reserve bytes count).OnlyFaults := .ensure _

theorem le_capacity (count : Nat) : count ≤ capacity count := by
  have hlast := Nat.lt_log2_self (n := count - 1)
  rw [capacity, Nat.shiftLeft_eq]
  omega

/-- A block that was doubled for its last record is more than half full. -/
theorem capacity_le (count : Nat) : capacity count ≤ max 4 (2 * count) := by
  rw [capacity, Nat.shiftLeft_eq, Nat.pow_succ]
  rcases Nat.eq_zero_or_pos (count - 1) with hzero | hpos
  · rw [hzero]
    exact Nat.le_trans (by decide) (Nat.le_max_left 4 _)
  · have hlast := Nat.log2_self_le (Nat.ne_of_gt hpos)
    omega

theorem capacity_mono {few many : Nat} (h : few ≤ many) : capacity few ≤ capacity many := by
  have hlog : (few - 1).log2 ≤ (many - 1).log2 := by
    rcases Nat.eq_zero_or_pos (few - 1) with hzero | hpos
    · rw [hzero]
      exact Nat.zero_le _
    · have hlow := Nat.log2_self_le (Nat.ne_of_gt hpos)
      have hhigh := Nat.lt_log2_self (n := many - 1)
      refine Nat.lt_succ_iff.mp ((Nat.pow_lt_pow_iff_right Nat.one_lt_two).mp ?_)
      omega
  have hpow := Nat.pow_le_pow_right Nat.two_pos (Nat.succ_le_succ hlog)
  rw [capacity, capacity, Nat.shiftLeft_eq, Nat.shiftLeft_eq]
  omega

variable {bytes : Nat} {make : β → Outcome γ} {items : List β}

/-- Where the block of all records has room, so have the smaller ones before it. -/
theorem collect_of_room {r : β → γ} (hmake : ∀ item ∈ items, make item = .ok (r item))
    (hroom : bytes * capacity items.length < Word.signedLimit) :
    collect bytes make items = .ok (items.map r) := by
  rw [collect, Outcome.mapM_eq_ok_map (g := fun entry : β × Nat => r entry.1)]
  · rw [← Function.comp_def, ← List.map_map, List.zipIdx_map_fst]
  · intro entry hentry
    have hlast : bytes * capacity (entry.2 + 1) < Word.signedLimit :=
      Nat.lt_of_le_of_lt
        (Nat.mul_le_mul_left bytes (capacity_mono (List.snd_lt_of_mem_zipIdx hentry))) hroom
    rw [hmake entry.1 (List.fst_mem_of_mem_zipIdx hentry), Outcome.ok_bind, reserve,
      ensure_of hlast]
    rfl

theorem collect_of_no_room (hitems : items ≠ []) (hmake : ∀ item ∈ items, (make item).OnlyFaults)
    (hroom : ¬ bytes * capacity items.length < Word.signedLimit) :
    collect bytes make items = .error .fault := by
  refine Outcome.OnlyFaults.eq_fault (.mapM fun entry hentry => ?_) fun records hrecords => ?_
  · exact .bind (hmake entry.1 (List.fst_mem_of_mem_zipIdx hentry)) fun _ _ =>
      .bind (reserve_onlyFaults _ _) fun _ _ => .ok _
  · -- The last record is the one that needs the whole block.
    have hpos := List.length_pos_of_ne_nil hitems
    have hlast : items.length - 1 < items.length := Nat.sub_lt hpos Nat.one_pos
    have hentry : (items[items.length - 1], items.length - 1) ∈ items.zipIdx :=
      List.mk_mem_zipIdx_iff_getElem?.mpr (List.getElem?_eq_getElem hlast)
    obtain ⟨_, -, hrecord⟩ := Outcome.exists_of_forall₂ (Outcome.mapM_eq_ok.mp hrecords) hentry
    obtain ⟨_, -, hrecord⟩ := Outcome.bind_eq_ok.mp hrecord
    obtain ⟨_, hreserved, -⟩ := Outcome.bind_eq_ok.mp hrecord
    rw [Nat.sub_add_cancel hpos] at hreserved
    exact hroom (ensure_eq_ok.mp hreserved)

end Storage

end ShardedModel
