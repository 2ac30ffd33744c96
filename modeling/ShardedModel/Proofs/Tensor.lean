import ShardedModel.Proofs.Outcome
import ShardedModel.Tensor.Stack

/-!
# Tensors line by line

A tensor is one flat array, and what it means is a list of lines of equal length. The
lemmas here go from one to the other: an array made of equally long parts has those
parts at the multiples of their length, a tensor with as many entries as its
dimensions say is the concatenation of its lines, and so two such tensors are equal
if their dimensions and their lines are.

Kernels are then described by the lines and entries of their results. Checked
arithmetic never fails below the size of an array that fits a word, so it is dealt
with once, in `row_eq_line`.
-/

namespace ShardedModel

variable {α : Type}

/-! ## Parts of equal length -/

namespace Flat

theorem foldl_append (front : Array α) (parts : List (Array α)) :
    parts.foldl (· ++ ·) front = front ++ concat parts := by
  unfold concat
  induction parts generalizing front with
  | nil => simp
  | cons part parts ih =>
      rw [List.foldl_cons, List.foldl_cons, ih, ih (#[] ++ part), Array.empty_append,
        Array.append_assoc]

@[simp] theorem concat_nil : concat ([] : List (Array α)) = #[] := rfl

theorem concat_cons (part : Array α) (parts : List (Array α)) :
    concat (part :: parts) = part ++ concat parts := by
  rw [concat, List.foldl_cons, foldl_append, Array.empty_append]

theorem concat_append (front back : List (Array α)) :
    concat (front ++ back) = concat front ++ concat back := by
  rw [concat, List.foldl_append, foldl_append]
  rfl

theorem size_concat {c : Nat} {parts : List (Array α)} (h : ∀ part ∈ parts, part.size = c) :
    (concat parts).size = parts.length * c := by
  induction parts with
  | nil => simp
  | cons part parts ih =>
      rw [concat_cons, Array.size_append, h part List.mem_cons_self,
        ih fun p hp => h p (List.mem_cons_of_mem _ hp), List.length_cons, Nat.succ_mul,
        Nat.add_comm]

/-- Part `i` stands at `i` times the common length. -/
theorem extract_concat {c i : Nat} {parts : List (Array α)} {part : Array α}
    (h : ∀ p ∈ parts, p.size = c) (hi : parts[i]? = some part) :
    (concat parts).extract (i * c) (i * c + c) = part := by
  induction parts generalizing i with
  | nil => simp at hi
  | cons first parts ih =>
      have hfirst := h first List.mem_cons_self
      rw [concat_cons, Array.extract_append, hfirst]
      cases i with
      | zero =>
          rw [List.getElem?_cons_zero, Option.some.injEq] at hi
          subst hi
          rw [Nat.zero_mul, Nat.zero_add, Nat.zero_sub, Nat.sub_self,
            Array.extract_eq_self_of_le (by omega), Array.extract_eq_empty_of_le (by omega),
            Array.append_empty]
      | succ i =>
          rw [List.getElem?_cons_succ] at hi
          have hstart : c ≤ (i + 1) * c := Nat.le_mul_of_pos_left c (Nat.succ_pos i)
          have hsub : (i + 1) * c - c = i * c := by rw [Nat.succ_mul, Nat.add_sub_cancel]
          rw [Array.extract_eq_empty_of_le (by omega), Array.empty_append,
            show (i + 1) * c + c - c = i * c + c by omega, hsub]
          exact ih (fun p hp => h p (List.mem_cons_of_mem _ hp)) hi

/-- The stretches of an array between bounds that rise from zero are the array as far as the last
bound. -/
theorem concat_between (data : Array α) {bound : Nat → Nat} (hzero : bound 0 = 0) {m : Nat}
    (hrise : ∀ i < m, bound i ≤ bound (i + 1)) :
    concat ((List.range m).map fun i => data.extract (bound i) (bound (i + 1))) =
      data.extract 0 (bound m) := by
  induction m with
  | zero => simp [hzero]
  | succ m ih =>
      rw [List.range_succ, List.map_append, concat_append,
        ih fun i hi => hrise i (Nat.lt_succ_of_lt hi), List.map_singleton, concat_cons, concat_nil,
        Array.append_empty, Array.extract_append_extract, Nat.min_eq_left (Nat.zero_le _),
        Nat.max_eq_right (hrise m (Nat.lt_succ_self m))]

/-- An array is the concatenation of its stretches of equal length. -/
theorem concat_stretches (data : Array α) (c m : Nat) :
    concat ((List.range m).map fun i => data.extract (i * c) (i * c + c)) =
      data.extract 0 (m * c) := by
  have hbetween := concat_between data (Nat.zero_mul c) (m := m) fun i _ =>
    Nat.mul_le_mul_right c (Nat.le_succ i)
  simpa only [Nat.succ_mul] using hbetween

theorem slice_of_le {data : Array α} {start stop : Nat} (h : start ≤ stop)
    (hstop : stop ≤ data.size) : slice data start stop = .ok (data.extract start stop) :=
  if_pos ⟨h, hstop⟩

/-- Where there is room for records, their number is a word. -/
theorem count_lt {bytes count : Nat} (hbytes : 0 < bytes)
    (h : bytes * count < Word.signedLimit) : count < Word.limit :=
  calc count
    _ ≤ bytes * count := Nat.le_mul_of_pos_left count hbytes
    _ < Word.signedLimit := h
    _ ≤ Word.limit := Word.signedLimit_le_limit

theorem room_eq_ok {rows cols count : Nat} :
    room rows cols = .ok count ↔
      rows * cols < Word.limit ∧ Storage.entryBytes * (rows * cols) < Word.signedLimit ∧
        rows * cols = count := by
  unfold room reserve Storage.reserve Word.mul
  rw [Outcome.bind_eq_ok]
  constructor
  · rintro ⟨n, hn, h⟩
    obtain ⟨_, hroom, h⟩ := Outcome.bind_eq_ok.mp h
    obtain ⟨hlt, rfl⟩ := Word.check_eq_ok.mp hn
    exact ⟨hlt, ensure_eq_ok.mp hroom, Except.ok.inj h⟩
  · rintro ⟨hlt, hroom, rfl⟩
    refine ⟨rows * cols, Word.check_eq_ok.mpr ⟨hlt, rfl⟩, ?_⟩
    rw [ensure_of hroom]
    rfl

end Flat

/-! ## Lines -/

namespace Tensor2

theorem WellFormed.filled {t : Tensor2 α} (h : t.WellFormed) : t.Filled := Nat.le_of_eq h.symm

theorem line_end_le {t : Tensor2 α} (h : t.Filled) {b : Nat} (hb : b < t.rows) :
    b * t.cols + t.cols ≤ t.data.size := by
  rw [← Nat.succ_mul]
  exact Nat.le_trans (Nat.mul_le_mul_right _ hb) h

theorem size_line {t : Tensor2 α} (h : t.Filled) {b : Nat} (hb : b < t.rows) :
    (t.line b).size = t.cols := by
  rw [line, Array.size_extract_of_le (line_end_le h hb), Nat.add_sub_cancel_left]

/-- Reading a row that is there gives the line. -/
theorem row_eq_line {t : Tensor2 α} (h : t.Filled) (hsize : t.data.size < Word.limit) {b : Nat}
    (hb : b < t.rows) : t.row b = .ok (t.line b) := by
  have hend := line_end_le h hb
  unfold row
  rw [Word.mul_of_lt (by omega), Outcome.ok_bind, Word.add_of_lt (by omega), Outcome.ok_bind,
    Flat.slice_of_le (Nat.le_add_right _ _) hend]
  rfl

theorem getElem?_line (t : Tensor2 α) (b : Nat) {j : Nat} (hj : j < t.cols) :
    (t.line b)[j]? = t.data[b * t.cols + j]? := by
  rw [line, Array.getElem?_extract]
  split
  · rfl
  · rw [Array.getElem?_eq_none (by omega)]

theorem get_of_line {t : Tensor2 α} (h : t.Filled) (hsize : t.data.size < Word.limit) {b j : Nat}
    (hb : b < t.rows) {x : α} (hx : (t.line b)[j]? = some x) : t.get b j = .ok x := by
  obtain ⟨hj, -⟩ := Array.getElem?_eq_some_iff.mp hx
  rw [size_line h hb] at hj
  have hend := line_end_le h hb
  rw [getElem?_line t b hj] at hx
  unfold get offset
  rw [Word.mul_of_lt (by omega), Outcome.ok_bind, Word.add_of_lt (by omega), Outcome.ok_bind,
    Flat.read, hx]

theorem data_eq_concat {t : Tensor2 α} (h : t.WellFormed) :
    t.data = Flat.concat ((List.range t.rows).map t.line) := by
  unfold line
  rw [Flat.concat_stretches, Array.extract_eq_self_of_le (Nat.le_of_eq h)]

/-- The line of a tensor that was put together from lines. -/
theorem line_concat {lines : List (Array α)} {rows cols i : Nat} {part : Array α}
    (h : ∀ l ∈ lines, l.size = cols) (hi : lines[i]? = some part) :
    (⟨Flat.concat lines, rows, cols⟩ : Tensor2 α).line i = part :=
  Flat.extract_concat h hi

/-- Two tensors are equal if their dimensions and lines are. -/
theorem eq_of_lines {t u : Tensor2 α} (ht : t.WellFormed) (hu : u.WellFormed)
    (hrows : t.rows = u.rows) (hcols : t.cols = u.cols)
    (hlines : ∀ b < t.rows, t.line b = u.line b) : t = u := by
  have hdata : t.data = u.data := by
    rw [data_eq_concat ht, data_eq_concat hu, ← hrows]
    congr 1
    exact List.map_congr_left fun b hb => hlines b (List.mem_range.mp hb)
  cases t
  cases u
  cases hdata
  cases hrows
  cases hcols
  rfl

end Tensor2

end ShardedModel
