import ShardedModel.Text.Pieces

/-!
# Texts as bytes and in pieces

Files hold bytes, and a text goes into a file as its UTF-8 encoding. Reading gives it back, so
nothing that is written as text can be lost between the two.

A separator cuts a text into pieces, and the pieces of a text that was put together with the
separator are those of its parts.
-/

namespace ShardedModel

/-! ## Strings of bytes -/

theorem byteArray_loop_eq (bs : ByteArray) (i : Nat) (front : List UInt8) :
    ByteArray.toList.loop bs i front = front.reverse ++ bs.data.toList.drop i := by
  induction h : bs.size - i generalizing i front with
  | zero =>
      have hle : bs.size ≤ i := Nat.le_of_sub_eq_zero h
      rw [ByteArray.toList.loop, if_neg (Nat.not_lt.mpr hle)]
      simp [hle]
  | succ n ih =>
      have hlt : i < bs.size := by omega
      have hget : bs.get! i = bs.data.toList[i] := by
        rw [Array.getElem_toList]
        exact getElem!_pos bs.data i hlt
      rw [ByteArray.toList.loop, if_pos hlt, ih _ _ (by omega), List.drop_eq_getElem_cons hlt,
        List.reverse_cons, List.append_assoc, hget]
      rfl

theorem byteArray_toList_eq (bs : ByteArray) : bs.toList = bs.data.toList := by
  rw [ByteArray.toList, byteArray_loop_eq, List.drop_zero, List.reverse_nil, List.nil_append]

/-! ## Texts -/

theorem fromUTF8?_toUTF8 (text : String) :
    String.fromUTF8? ⟨text.toUTF8.toList.toArray⟩ = some text := by
  rw [byteArray_toList_eq, Array.toArray_toList]
  exact dif_pos text.isValidUTF8

theorem length_toUTF8 (text : String) : text.toUTF8.toList.length = text.utf8ByteSize := by
  rw [byteArray_toList_eq]
  rfl

theorem toUTF8_injective {a b : String} (h : a.toUTF8.toList = b.toUTF8.toList) : a = b := by
  have hread := fromUTF8?_toUTF8 a
  rw [h, fromUTF8?_toUTF8 b] at hread
  exact (Option.some.inj hread).symm

/-! ## Runs of characters -/

theorem takeWhile_append_of_stop {p : Char → Bool} {front rest : List Char}
    (hfront : ∀ c ∈ front, p c = true) (hrest : ∀ c ∈ rest.head?, p c = false) :
    (front ++ rest).takeWhile p = front := by
  rw [List.takeWhile_append_of_pos hfront]
  cases rest with
  | nil => simp
  | cons c rest => simp [hrest c rfl]

theorem dropWhile_append_of_stop {p : Char → Bool} {front rest : List Char}
    (hfront : ∀ c ∈ front, p c = true) (hrest : ∀ c ∈ rest.head?, p c = false) :
    (front ++ rest).dropWhile p = rest := by
  rw [List.dropWhile_append_of_pos hfront]
  cases rest with
  | nil => simp
  | cons c rest => simp [hrest c rfl]

theorem isDigit_iff {c : Char} : c.isDigit = true ↔ '0' ≤ c ∧ c ≤ '9' := by
  simp [Char.isDigit, Char.le_def]

/-! ## Pieces -/

namespace Text

theorem pieces_eq_splitOn (separator : Char) (text : List Char) :
    pieces separator text = text.splitOn separator := by
  induction text with
  | nil => rfl
  | cons c rest ih =>
      rw [pieces, List.splitOn_cons_eq_if_modifyHead, ih]
      by_cases hc : c = separator
      · rw [if_pos hc, if_pos (beq_iff_eq.mpr hc)]
      · rw [if_neg hc, if_neg (by simpa using hc)]
        cases h : rest.splitOn separator with
        | nil => exact absurd h (List.splitOn_ne_nil separator rest)
        | cons first others => rfl

theorem pieces_ne_nil (separator : Char) (text : List Char) : pieces separator text ≠ [] := by
  rw [pieces_eq_splitOn]
  exact List.splitOn_ne_nil separator text

theorem pieces_of_not_mem {separator : Char} {text : List Char} (h : separator ∉ text) :
    pieces separator text = [text] := by
  rw [pieces_eq_splitOn, List.splitOn_eq_singleton h]

theorem pieces_append (separator : Char) (front back : List Char) :
    pieces separator (front ++ separator :: back) =
      pieces separator front ++ pieces separator back := by
  rw [pieces_eq_splitOn, pieces_eq_splitOn, pieces_eq_splitOn, List.splitOn_append_cons_self]

end Text

end ShardedModel
