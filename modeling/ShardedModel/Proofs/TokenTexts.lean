import Mathlib.Data.List.TakeWhile
import ShardedModel.Proofs.BatchIndependence
import ShardedModel.Proofs.Text
import ShardedModel.TokenText

/-!
# Which texts denote a batch

A text denotes a batch if every piece between its semicolons and commas is a numeral with nothing
but blanks around it, the number fits 64 bits with a sign, and there are as many pieces in each
part as in the others. `Numeral.Spells` is the grammar of numerals, and `Writes` adds the blanks;
neither mentions how a numeral is scanned or how a text is trimmed.

Reading takes a text apart at three levels, and each has its own statement of what it accepts:
`scan_eq_ok` for digits, `readId_eq_ok` for a piece, `ofText_eq_ok` for the whole. A text that was
put together from numbers is taken apart into the same pieces, since no numeral and no blank
holds a separator.
-/

namespace ShardedModel

open Outcome

/-! ## Numerals -/

/-- The number fits 64 bits with a sign. -/
def Word.IsSigned (n : Int) : Prop := -(signedLimit : Int) ≤ n ∧ n < signedLimit

instance (n : Int) : Decidable (Word.IsSigned n) :=
  inferInstanceAs (Decidable (-(Word.signedLimit : Int) ≤ n ∧ n < Word.signedLimit))

namespace Numeral

/-- Decimal digits, and at least one. -/
structure IsDigits (text : List Char) : Prop where
  ne_nil : text ≠ []
  digits : ∀ c ∈ text, c.isDigit = true

/-- Digits, with or without a sign before them, and the number that they denote. -/
inductive Spells : List Char → Int → Prop where
  | bare {digits : List Char} (h : IsDigits digits) :
      Spells digits (Nat.ofDigitChars 10 digits 0)
  | plus {digits : List Char} (h : IsDigits digits) :
      Spells ('+' :: digits) (Nat.ofDigitChars 10 digits 0)
  | minus {digits : List Char} (h : IsDigits digits) :
      Spells ('-' :: digits) (-(Nat.ofDigitChars 10 digits 0 : Int))

theorem le_ofDigitChars (n : Nat) (digits : List Char) : n ≤ Nat.ofDigitChars 10 digits n := by
  induction digits generalizing n with
  | nil => exact Nat.le_refl n
  | cons c rest ih =>
      have hrest := ih (10 * n + (c.toNat - '0'.toNat))
      rw [Nat.ofDigitChars_cons]
      omega

/-- Digits are scanned if the number that they add up to is in bounds: it is never smaller than
what was read before its last digit, so no earlier check can fail. -/
theorem scan_eq_ok {bound : Nat} {beyond : Fault} {text : List Char} {n m : Nat}
    (hn : n ≤ bound) : scan bound beyond n text = .ok m ↔
      (∀ c ∈ text, c.isDigit = true) ∧ Nat.ofDigitChars 10 text n = m ∧ m ≤ bound := by
  induction text generalizing n with
  | nil =>
      rw [scan, Except.ok.injEq]
      constructor
      · rintro rfl
        exact ⟨by simp, rfl, hn⟩
      · exact fun h => h.2.1
  | cons c rest ih =>
      rw [scan, digit?, List.forall_mem_cons, isDigit_iff, Nat.ofDigitChars_cons]
      by_cases hc : '0' ≤ c ∧ c ≤ '9'
      · rw [if_pos hc]
        show (if 10 * n + (c.toNat - '0'.toNat) ≤ bound then _ else _) = _ ↔ _
        by_cases hle : 10 * n + (c.toNat - '0'.toNat) ≤ bound
        · rw [if_pos hle, ih hle, and_iff_right hc]
        · have hmore := le_ofDigitChars (10 * n + (c.toNat - '0'.toNat)) rest
          rw [if_neg hle]
          simp only [reduceCtorEq, false_iff]
          rintro ⟨-, rfl, hm⟩
          omega
      · rw [if_neg hc]
        simp [hc]

theorem map_scan_eq_ok {bound : Nat} {beyond : Fault} {digits : List Char} {f : Nat → Int}
    {n : Int} : (scan bound beyond 0 digits).map f = .ok n ↔ (∀ c ∈ digits, c.isDigit = true) ∧
      Nat.ofDigitChars 10 digits 0 ≤ bound ∧ n = f (Nat.ofDigitChars 10 digits 0) := by
  constructor
  · intro h
    cases hscan : scan bound beyond 0 digits with
    | error fault =>
        rw [hscan] at h
        cases h
    | ok m =>
        rw [hscan] at h
        cases h
        obtain ⟨hdigits, rfl, hle⟩ := (scan_eq_ok (Nat.zero_le _)).mp hscan
        exact ⟨hdigits, hle, rfl⟩
  · rintro ⟨hdigits, hle, rfl⟩
    rw [(scan_eq_ok (Nat.zero_le _)).mpr ⟨hdigits, rfl, hle⟩]
    rfl

theorem readSigned_plus {digits : List Char} (h : digits ≠ []) :
    readSigned ('+' :: digits) =
      (scan largestSigned .tooLarge 0 digits).map fun m : Nat => (m : Int) := by
  cases digits with
  | nil => exact absurd rfl h
  | cons c rest => rfl

theorem readSigned_minus {digits : List Char} (h : digits ≠ []) :
    readSigned ('-' :: digits) =
      (scan (largestSigned + 1) .tooSmall 0 digits).map fun m : Nat => -(m : Int) := by
  cases digits with
  | nil => exact absurd rfl h
  | cons c rest =>
      show (scan (largestSigned + 1) .tooSmall 0 (c :: rest) >>= fun m => pure (m : Int)).map
        (fun m => -m) = _
      cases scan (largestSigned + 1) .tooSmall 0 (c :: rest) <;> rfl

theorem readSigned_bare {c : Char} {rest : List Char} (hplus : c ≠ '+') (hminus : c ≠ '-') :
    readSigned (c :: rest) =
      (scan largestSigned .tooLarge 0 (c :: rest)).map fun m : Nat => (m : Int) := by
  rw [readSigned.eq_def]
  split
  case h_6 => rfl
  all_goals simp_all

/-- A numeral is read as the number that it denotes, if this fits. A minus leaves room for one
number more than a plus, and each bound is that of its sign. -/
theorem readSigned_eq_ok {text : List Char} {n : Int} :
    readSigned text = .ok n ↔ Spells text n ∧ Word.IsSigned n := by
  have hlimit : Word.signedLimit = largestSigned + 1 := rfl
  constructor
  · intro h
    cases text with
    | nil => cases h
    | cons c rest =>
        by_cases hplus : c = '+'
        · subst hplus
          have hne : rest ≠ [] := by
            rintro rfl
            cases h
          rw [readSigned_plus hne, map_scan_eq_ok] at h
          obtain ⟨hdigits, hle, rfl⟩ := h
          exact ⟨.plus ⟨hne, hdigits⟩, by omega, by omega⟩
        by_cases hminus : c = '-'
        · subst hminus
          have hne : rest ≠ [] := by
            rintro rfl
            cases h
          rw [readSigned_minus hne, map_scan_eq_ok] at h
          obtain ⟨hdigits, hle, rfl⟩ := h
          exact ⟨.minus ⟨hne, hdigits⟩, by omega, by omega⟩
        rw [readSigned_bare hplus hminus, map_scan_eq_ok] at h
        obtain ⟨hdigits, hle, rfl⟩ := h
        exact ⟨.bare ⟨List.cons_ne_nil c rest, hdigits⟩, by omega, by omega⟩
  · rintro ⟨hspells, hlow, hhigh⟩
    cases hspells with
    | bare h =>
        cases text with
        | nil => exact absurd rfl h.ne_nil
        | cons c rest =>
            have hc := h.digits c List.mem_cons_self
            rw [readSigned_bare (by rintro rfl; cases hc) (by rintro rfl; cases hc),
              map_scan_eq_ok]
            exact ⟨h.digits, by omega, rfl⟩
    | plus h =>
        rw [readSigned_plus h.ne_nil, map_scan_eq_ok]
        exact ⟨h.digits, by omega, rfl⟩
    | minus h =>
        rw [readSigned_minus h.ne_nil, map_scan_eq_ok]
        exact ⟨h.digits, by omega, rfl⟩

theorem Spells.ne_nil {text : List Char} {n : Int} (h : Spells text n) : text ≠ [] := by
  cases h with
  | bare h => exact h.ne_nil
  | plus h => exact List.cons_ne_nil _ _
  | minus h => exact List.cons_ne_nil _ _

theorem Spells.char {text : List Char} {n : Int} (h : Spells text n) {c : Char} (hc : c ∈ text) :
    c.isDigit = true ∨ c = '+' ∨ c = '-' := by
  cases h with
  | bare h => exact .inl (h.digits c hc)
  | plus h =>
      rcases List.mem_cons.mp hc with rfl | hc
      · exact .inr (.inl rfl)
      · exact .inl (h.digits c hc)
  | minus h =>
      rcases List.mem_cons.mp hc with rfl | hc
      · exact .inr (.inr rfl)
      · exact .inl (h.digits c hc)

theorem isDigits_toDigits (n : Nat) : IsDigits (Nat.toDigits 10 n) :=
  ⟨Nat.toDigits_ne_nil, fun _ => Nat.isDigit_of_mem_toDigits (by decide) (by decide)⟩

/-- The decimal form of a number is a numeral for it. -/
theorem spells_toString (n : Int) : Spells (toString n).toList n := by
  rw [Int.toString_eq_repr, Int.repr_eq_if]
  split
  · have h := Spells.bare (isDigits_toDigits n.toNat)
    rw [Nat.ofDigitChars_ten_toDigits] at h
    rw [Nat.repr, String.toList_ofList]
    rwa [Int.toNat_of_nonneg (by assumption)] at h
  · have h := Spells.minus (isDigits_toDigits (-n).toNat)
    rw [Nat.ofDigitChars_ten_toDigits, Int.toNat_of_nonneg (by omega), Int.neg_neg] at h
    rw [String.toList_append, Nat.repr, String.toList_ofList, String.toList_ofList]
    exact h

end Numeral

/-! ## Pieces -/

namespace Text

/-- Nothing but blanks. -/
def Blank (text : List Char) : Prop := ∀ c ∈ text, isBlank c = true

instance (text : List Char) : Decidable (Blank text) :=
  decidable_of_iff (text.all isBlank = true) List.all_eq_true

theorem exists_trim (text : List Char) :
    ∃ before after, Blank before ∧ Blank after ∧ text = before ++ trim text ++ after := by
  refine ⟨text.takeWhile isBlank,
    ((text.dropWhile isBlank).reverse.takeWhile isBlank).reverse, ?_, ?_, ?_⟩
  · exact fun c hc => List.mem_takeWhile_imp hc
  · exact fun c hc => List.mem_takeWhile_imp (List.mem_reverse.mp hc)
  · rw [List.append_assoc, trim, trimEnd, ← List.reverse_append, List.takeWhile_append_dropWhile,
      List.reverse_reverse, List.takeWhile_append_dropWhile]

theorem trim_append {before core after : List Char} (hbefore : Blank before) (hafter : Blank after)
    (hcore : ∀ c ∈ core, isBlank c = false) (hne : core ≠ []) :
    trim (before ++ core ++ after) = core := by
  have hfirst : ∀ c ∈ (core ++ after).head?, isBlank c = false := by
    rw [List.head?_append_of_ne_nil _ hne]
    exact fun c hc => hcore c (List.mem_of_mem_head? hc)
  have hlast : ∀ c ∈ core.reverse.head?, isBlank c = false :=
    fun c hc => hcore c (List.mem_reverse.mp (List.mem_of_mem_head? hc))
  rw [List.append_assoc, trim, dropWhile_append_of_stop hbefore hfirst, trimEnd,
    List.reverse_append, dropWhile_append_of_stop
      (fun c hc => hafter c (List.mem_reverse.mp hc)) hlast, List.reverse_reverse]

/-- There is one separator fewer than there are pieces. -/
theorem sum_length_pieces (separator : Char) (text : List Char) :
    ((pieces separator text).map fun piece => piece.length + 1).sum = text.length + 1 := by
  induction text with
  | nil => rfl
  | cons c rest ih =>
      rw [pieces]
      split
      · rw [List.map_cons, List.sum_cons, ih, List.length_cons, List.length_nil]
        omega
      · cases h : pieces separator rest with
        | nil => exact absurd h (pieces_ne_nil separator rest)
        | cons first others =>
            rw [h, List.map_cons, List.sum_cons] at ih
            simp only [List.map_cons, List.sum_cons, List.length_cons]
            omega

theorem length_pieces_le (separator : Char) (text : List Char) :
    (pieces separator text).length ≤ text.length + 1 := by
  have hone : ∀ n ∈ (pieces separator text).map (fun piece => piece.length + 1), 1 ≤ n := by
    intro n hn
    obtain ⟨piece, -, rfl⟩ := List.mem_map.mp hn
    omega
  have hle := List.length_le_sum_of_one_le _ hone
  rwa [List.length_map, sum_length_pieces] at hle

theorem mem_intercalate {c separator : Char} {parts : List (List Char)}
    (h : c ∈ [separator].intercalate parts) : c = separator ∨ ∃ part ∈ parts, c ∈ part := by
  induction parts with
  | nil => simp at h
  | cons part rest ih =>
      cases rest with
      | nil => exact .inr ⟨part, List.mem_cons_self, by simpa using h⟩
      | cons next rest =>
          rw [List.intercalate_cons_cons, List.mem_append, List.mem_append,
            List.mem_singleton] at h
          rcases h with (h | h) | h
          · exact .inr ⟨part, List.mem_cons_self, h⟩
          · exact .inl h
          · rcases ih h with h | ⟨other, hother, h⟩
            · exact .inl h
            · exact .inr ⟨other, List.mem_cons_of_mem part hother, h⟩

end Text

namespace TokenBatch

/-- The piece is a numeral for the number, with or without blanks around it, and the number fits
64 bits with a sign. -/
def Writes (piece : List Char) (n : Int) : Prop :=
  Word.IsSigned n ∧ ∃ before numeral after, Text.Blank before ∧ Text.Blank after ∧
    Numeral.Spells numeral n ∧ piece = before ++ numeral ++ after

theorem isBlank_of_numeral {c : Char} (h : c.isDigit = true ∨ c = '+' ∨ c = '-') :
    Text.isBlank c = false := by
  have hrange : 43 ≤ c.toNat ∧ c.toNat ≤ 57 := by
    rcases h with h | rfl | rfl
    · obtain ⟨hlow, hhigh⟩ := isDigit_iff.mp h
      have hlow' : 48 ≤ c.toNat := hlow
      have hhigh' : c.toNat ≤ 57 := hhigh
      omega
    · decide
    · decide
  simp only [Text.isBlank, Text.blankRanges, List.any_cons, List.any_nil, Bool.or_false,
    Bool.or_eq_false_iff, Bool.and_eq_false_imp, decide_eq_true_eq, decide_eq_false_iff_not,
    Nat.not_le]
  omega

theorem readId_eq_ok {piece : List Char} {n : Int} : readId piece = .ok n ↔ Writes piece n := by
  have hread : readId piece = .ok n ↔ Numeral.readSigned (Text.trim piece) = .ok n := by
    rw [readId]
    cases Numeral.readSigned (Text.trim piece) with
    | error fault => simp
    | ok m => simp
  rw [hread, Numeral.readSigned_eq_ok]
  constructor
  · rintro ⟨hspells, hfits⟩
    obtain ⟨before, after, hbefore, hafter, hpiece⟩ := Text.exists_trim piece
    exact ⟨hfits, before, _, after, hbefore, hafter, hspells, hpiece⟩
  · rintro ⟨hfits, before, numeral, after, hbefore, hafter, hspells, rfl⟩
    rw [Text.trim_append hbefore hafter (fun c hc => isBlank_of_numeral (hspells.char hc))
      hspells.ne_nil]
    exact ⟨hspells, hfits⟩

/-! ## Whole texts -/

/-- The sequences that a text denotes, one for each part between semicolons. -/
def Denotes (text : List Char) (sequences : List (List Int)) : Prop :=
  List.Forall₂ (fun part s => List.Forall₂ Writes (part.splitOn ',') s) (text.splitOn ';') sequences

theorem readSequence_eq_ok {part : List Char} {s : List Int} :
    readSequence part = .ok s ↔ List.Forall₂ Writes (part.splitOn ',') s := by
  rw [readSequence, mapM_eq_ok, Text.pieces_eq_splitOn]
  simp only [readId_eq_ok]

theorem ofText_eq_ok {text : List Char} {tokens : TokenBatch} :
    ofText text = .ok tokens ↔
      ∃ sequences, Denotes text sequences ∧ ofSequences sequences = .ok tokens := by
  rw [ofText, bind_eq_ok]
  refine exists_congr fun sequences => ?_
  rw [mapM_eq_ok, Text.pieces_eq_splitOn, Denotes]
  simp only [readSequence_eq_ok]
  cases ofSequences sequences with
  | error failure => simp
  | ok batch => simp

section Denoted

variable {text : List Char} {sequences : List (List Int)} {seqLen : Nat}

/-- A text has at most one id for each of its characters, and one more. -/
theorem Denotes.length_flatten_le (h : Denotes text sequences) :
    sequences.flatten.length ≤ text.length + 1 := by
  rw [← Text.sum_length_pieces ';' text, Text.pieces_eq_splitOn]
  rw [Denotes] at h
  generalize text.splitOn ';' = parts at h ⊢
  induction h with
  | nil => exact Nat.le_refl 0
  | @cons part s parts sequences hpart hrest ih =>
      have hle := Text.length_pieces_le ',' part
      rw [Text.pieces_eq_splitOn, hpart.length_eq] at hle
      rw [List.flatten_cons, List.length_append, List.map_cons, List.sum_cons]
      omega

theorem Denotes.rectangular (h : Denotes text sequences)
    (hlengths : ∀ part ∈ text.splitOn ';', (part.splitOn ',').length = seqLen) :
    Rectangular sequences seqLen := by
  have hparts := List.length_pos_of_ne_nil (List.splitOn_ne_nil ';' text)
  refine ⟨fun s hs => ?_, ?_, ?_⟩
  · obtain ⟨part, hpart, hread⟩ := exists_of_forall₂ h.flip hs
    rw [← hlengths part hpart, hread.length_eq]
  · rwa [← h.length_eq]
  · have hfirst := List.getElem_mem hparts
    rw [← hlengths _ hfirst]
    exact List.length_pos_of_ne_nil (List.splitOn_ne_nil ',' _)

theorem ofText_of_denotes (h : Denotes text sequences) (htext : text.length < Word.signedLimit)
    (hrect : Rectangular sequences seqLen) : ofText text = .ok (join sequences seqLen) := by
  have hcount := h.length_flatten_le
  have hlimit : Word.limit = 2 * Word.signedLimit := rfl
  have hpos : 0 < Word.signedLimit := by decide
  rw [hrect.length_flatten] at hcount
  exact ofText_eq_ok.mpr ⟨sequences, h, ofSequences_eq_ok.mpr ⟨seqLen, hrect, by omega, rfl⟩⟩

theorem getElem?_flatten (hlengths : ∀ s ∈ sequences, s.length = seqLen) {b p : Nat} {s : List Int}
    {n : Int} (hs : sequences[b]? = some s) (hn : s[p]? = some n) :
    sequences.flatten[b * seqLen + p]? = some n := by
  induction sequences generalizing b with
  | nil => simp at hs
  | cons first rest ih =>
      rw [List.forall_mem_cons] at hlengths
      obtain ⟨hp, -⟩ := List.getElem?_eq_some_iff.mp hn
      cases b with
      | zero =>
          rw [List.getElem?_cons_zero, Option.some.injEq] at hs
          subst hs
          rw [Nat.zero_mul, Nat.zero_add, List.flatten_cons, List.getElem?_append_left hp, hn]
      | succ b =>
          have hskip : (b + 1) * seqLen + p - first.length = b * seqLen + p := by
            rw [hlengths.1, Nat.succ_mul]
            omega
          have hle : first.length ≤ (b + 1) * seqLen + p := by
            rw [hlengths.1, Nat.succ_mul]
            omega
          rw [List.flatten_cons, List.getElem?_append_right hle, hskip]
          exact ih hlengths.2 hs

theorem get_join (hrect : Rectangular sequences seqLen)
    (hcount : sequences.length * seqLen < Word.limit) {b p : Nat} {s : List Int} {n : Int}
    (hs : sequences[b]? = some s) (hn : s[p]? = some n) :
    (join sequences seqLen).get b p = .ok n := by
  have hid : (join sequences seqLen).ids[b * (join sequences seqLen).seqLen + p]? = some n :=
    getElem?_flatten hrect.lengths hs hn
  obtain ⟨hlt, -⟩ := List.getElem?_eq_some_iff.mp hid
  replace hlt : b * seqLen + p < sequences.length * seqLen := hrect.length_flatten ▸ hlt
  have hplace : b * (join sequences seqLen).seqLen + p < Word.limit := Nat.lt_trans hlt hcount
  rw [get, Word.mul_of_lt (by omega), ok_bind, Word.add_of_lt hplace, ok_bind, hid]

end Denoted

/-- A number of 64 bits in decimal, with or without blanks around it. -/
def Renders (piece : List Char) (n : Int) : Prop :=
  Word.IsSigned n ∧ ∃ before after, Text.Blank before ∧ Text.Blank after ∧
    piece = before ++ (toString n).toList ++ after

/-- The numbers of each sequence with commas between them, and the sequences with semicolons. -/
def RendersAll (text : List Char) (sequences : List (List Int)) : Prop :=
  ∃ parts, List.Forall₂ (fun part s => ∃ pieces, List.Forall₂ Renders pieces s ∧
    part = [','].intercalate pieces) parts sequences ∧ text = [';'].intercalate parts

theorem Renders.writes {piece : List Char} {n : Int} (h : Renders piece n) : Writes piece n := by
  obtain ⟨hfits, before, after, hbefore, hafter, rfl⟩ := h
  exact ⟨hfits, before, _, after, hbefore, hafter, Numeral.spells_toString n, rfl⟩

/-- No separator stands in a piece that is a number. -/
theorem Writes.char {piece : List Char} {n : Int} (h : Writes piece n) {c : Char}
    (hc : c ∈ piece) : c ≠ ',' ∧ c ≠ ';' := by
  obtain ⟨-, before, numeral, after, hbefore, hafter, hspells, rfl⟩ := h
  have hcases : Text.isBlank c = true ∨ c.isDigit = true ∨ c = '+' ∨ c = '-' := by
    rw [List.mem_append, List.mem_append] at hc
    rcases hc with (hc | hc) | hc
    · exact .inl (hbefore c hc)
    · exact .inr (hspells.char hc)
    · exact .inl (hafter c hc)
  constructor <;> rintro rfl <;> revert hcases <;> decide

theorem splitOn_intercalate_of_writes {pieces : List (List Char)} {s : List Int}
    (h : List.Forall₂ Writes pieces s) (hs : s ≠ []) :
    ([','].intercalate pieces).splitOn ',' = pieces ∧ ';' ∉ [','].intercalate pieces := by
  have hchars : ∀ piece ∈ pieces, ∀ c ∈ piece, c ≠ ',' ∧ c ≠ ';' := by
    intro piece hpiece c hc
    obtain ⟨n, -, hn⟩ := exists_of_forall₂ h hpiece
    exact hn.char hc
  constructor
  · refine List.splitOn_intercalate ',' (fun piece hpiece hc => (hchars piece hpiece _ hc).1 rfl) ?_
    rintro rfl
    exact hs (List.forall₂_nil_left_iff.mp h)
  · intro hc
    rcases Text.mem_intercalate hc with hc | ⟨piece, hpiece, hc⟩
    · exact absurd hc (by decide)
    · exact (hchars piece hpiece _ hc).2 rfl

theorem RendersAll.denotes {text : List Char} {sequences : List (List Int)} {seqLen : Nat}
    (h : RendersAll text sequences) (hrect : Rectangular sequences seqLen) :
    Denotes text sequences := by
  obtain ⟨parts, hparts, rfl⟩ := h
  have hne : ∀ s ∈ sequences, s ≠ [] := by
    rintro s hs rfl
    have hpos := hrect.seqLen_pos
    rw [← hrect.lengths [] hs] at hpos
    exact absurd hpos (Nat.lt_irrefl 0)
  have hread : List.Forall₂ (fun part s => ';' ∉ part ∧
      List.Forall₂ Writes (part.splitOn ',') s) parts sequences := by
    refine ((List.forall₂_and_left _ _).mpr ⟨hne, hparts.flip⟩).flip.imp ?_
    rintro part s ⟨hs, pieces, hpieces, rfl⟩
    have hwrites := hpieces.imp fun _ _ => Renders.writes
    obtain ⟨hsplit, hno⟩ := splitOn_intercalate_of_writes hwrites hs
    exact ⟨hno, by rwa [hsplit]⟩
  have hsplit : ([';'].intercalate parts).splitOn ';' = parts := by
    refine List.splitOn_intercalate ';' (fun part hpart => ?_) ?_
    · obtain ⟨s, -, hs⟩ := exists_of_forall₂ hread hpart
      exact hs.1
    · rintro rfl
      rw [List.forall₂_nil_left_iff.mp hparts] at hrect
      exact absurd hrect.nonempty (Nat.lt_irrefl 0)
  rw [Denotes, hsplit]
  exact hread.imp fun _ _ h => h.2

/-- A text denotes a batch exactly if its pieces are numerals that fit and its parts have equally
many of them. The batch has the parts as its sequences and the numbers as its ids, and whatever
way some sequences are put into text, they are read back. -/
theorem ofText_denotes (text : List Char) (htext : text.length < Word.signedLimit) :
    ((∃ tokens, ofText text = .ok tokens) ↔
      (∀ part ∈ text.splitOn ';', ∀ piece ∈ part.splitOn ',', ∃ n, Writes piece n) ∧
      ∃ seqLen, ∀ part ∈ text.splitOn ';', (part.splitOn ',').length = seqLen) ∧
    (∀ tokens, ofText text = .ok tokens →
      tokens.batch = (text.splitOn ';').length ∧
      (∀ part ∈ text.splitOn ';', (part.splitOn ',').length = tokens.seqLen) ∧
      tokens.ids.length = tokens.batch * tokens.seqLen ∧
      ∀ b part p piece, (text.splitOn ';')[b]? = some part →
        (part.splitOn ',')[p]? = some piece →
        ∃ n, Writes piece n ∧ tokens.get b p = .ok n) ∧
    (∀ sequences seqLen, Rectangular sequences seqLen → RendersAll text sequences →
      ofText text = .ok ⟨sequences.flatten, sequences.length, seqLen⟩) := by
  refine ⟨⟨?_, ?_⟩, ?_, fun sequences seqLen hrect hrenders =>
    ofText_of_denotes (hrenders.denotes hrect) htext hrect⟩
  · rintro ⟨tokens, h⟩
    obtain ⟨sequences, hdenotes, hof⟩ := ofText_eq_ok.mp h
    obtain ⟨seqLen, hrect, -, -⟩ := ofSequences_eq_ok.mp hof
    refine ⟨fun part hpart piece hpiece => ?_, seqLen, fun part hpart => ?_⟩
    · obtain ⟨s, -, hs⟩ := exists_of_forall₂ hdenotes hpart
      obtain ⟨n, -, hn⟩ := exists_of_forall₂ hs hpiece
      exact ⟨n, hn⟩
    · obtain ⟨s, hmem, hs⟩ := exists_of_forall₂ hdenotes hpart
      rw [hs.length_eq, hrect.lengths s hmem]
  · rintro ⟨hwrites, seqLen, hlengths⟩
    obtain ⟨sequences, hdenotes⟩ : ∃ sequences, Denotes text sequences :=
      exists_forall₂ fun part hpart => exists_forall₂ (hwrites part hpart)
    exact ⟨_, ofText_of_denotes hdenotes htext (hdenotes.rectangular hlengths)⟩
  · intro tokens h
    obtain ⟨sequences, hdenotes, hof⟩ := ofText_eq_ok.mp h
    obtain ⟨seqLen, hrect, hcount, rfl⟩ := ofSequences_eq_ok.mp hof
    refine ⟨hdenotes.length_eq.symm, fun part hpart => ?_, hrect.length_flatten,
      fun b part p piece hpart hpiece => ?_⟩
    · obtain ⟨s, hmem, hs⟩ := exists_of_forall₂ hdenotes hpart
      rw [hs.length_eq, hrect.lengths s hmem]
      rfl
    · obtain ⟨s, hs, hread⟩ := getElem?_of_forall₂ hdenotes hpart
      obtain ⟨n, hn, hwrites⟩ := getElem?_of_forall₂ hread hpiece
      exact ⟨n, hwrites, get_join hrect hcount hs hn⟩

/-- The least and the greatest id, with blanks around some. Parts of different lengths are
refused. -/
theorem ofText_denotes_limits :
    ofText " -9223372036854775808,5 ;\t0 , 9223372036854775807".toList =
      .ok ⟨[-9223372036854775808, 5, 0, 9223372036854775807], 2, 2⟩ ∧
    ¬ ∃ tokens, ofText "1,2;3".toList = .ok tokens := by
  constructor
  · refine (ofText_denotes _ (by decide +kernel)).2.2 [[-9223372036854775808, 5],
      [0, 9223372036854775807]] 2 ⟨by decide, by decide, by decide⟩
      ⟨[" -9223372036854775808,5 ".toList, "\t0 , 9223372036854775807".toList], ?_,
        by decide +kernel⟩
    refine .cons ⟨[" -9223372036854775808".toList, "5 ".toList], ?_, by decide +kernel⟩
      (.cons ⟨["\t0 ".toList, " 9223372036854775807".toList], ?_, by decide +kernel⟩ .nil)
    · exact .cons ⟨by decide, [' '], [], by decide, by decide, by decide +kernel⟩
        (.cons ⟨by decide, [], [' '], by decide, by decide, by decide +kernel⟩ .nil)
    · exact .cons ⟨by decide, ['\t'], [' '], by decide, by decide, by decide +kernel⟩
        (.cons ⟨by decide, [' '], [], by decide, by decide, by decide +kernel⟩ .nil)
  · intro h
    obtain ⟨-, seqLen, hlengths⟩ := (ofText_denotes _ (by decide +kernel)).1.mp h
    have htwo : 2 = seqLen := hlengths ['1', ',', '2'] (by decide +kernel)
    have hone : 1 = seqLen := hlengths ['3'] (by decide +kernel)
    omega

end TokenBatch

end ShardedModel
