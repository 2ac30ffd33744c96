import Mathlib.Data.List.Basic
import Mathlib.Tactic.IntervalCases
import ShardedModel.Proofs.QuotedText
import ShardedModel.Proofs.Text
import ShardedModel.Settings.Codec

/-!
# Headers and pairs are read as they were written

A document is written line by line, and each line is read on its own: a header as the path of a
table, and a pair as a bare key with a count, a truth value or a text. `ReadsAs` says it of a value,
and `Writes` of a text of several lines; texts that follow each other are read as the lines of one
and then of the other, so a document is taken apart into its lines by `Writes.append` alone.

Lines are put together into tables one at a time. As long as names and keys are new, a header adds
an empty table at the end and a pair adds to the last table, so the tables come out in the order and
with the pairs that they were written with.
-/

namespace ShardedModel.Toml

/-! ## Characters -/

theorem ne_of_class {p : Char → Bool} {c d : Char} (hc : p c = true) (hd : p d = false) :
    c ≠ d := by
  rintro rfl
  rw [hc] at hd
  cases hd

theorem isInlineBlank_of_ne {c : Char} (hspace : c ≠ ' ') (htab : c ≠ '\t') :
    isInlineBlank c = false := by
  rw [isInlineBlank, decide_eq_false hspace, decide_eq_false htab]
  rfl

/-! ## Decimal digits -/

section Digits

variable {word : List Char} (hword : ∀ c ∈ word, '0' ≤ c ∧ c ≤ '9')
include hword

theorem date?_of_digits : date? word = none := by
  rw [date?.eq_def]
  split
  · exact absurd (hword '-' (by simp)) (by decide)
  · rfl

theorem clock?_of_digits : clock? word = none := by
  rw [clock?.eq_def]
  split
  · exact absurd (hword ':' (by simp)) (by decide)
  · rfl

theorem splitSign_of_digits : splitSign word = (false, word) := by
  rw [splitSign.eq_def]
  split
  · exact absurd (hword '-' (by simp)) (by decide)
  · exact absurd (hword '+' (by simp)) (by decide)
  · rfl

theorem splitAtChar_of_digits {p : Char → Bool} (hp : ∀ c, p c = true → ¬ ('0' ≤ c ∧ c ≤ '9')) :
    splitAtChar p word = (word, none) := by
  have hpass : ∀ c ∈ word, (!p c) = true := by
    intro c hc
    rw [Bool.not_eq_true', Bool.eq_false_iff]
    exact fun h => hp c h (hword c hc)
  have hall := dropWhile_append_of_stop hpass (show ∀ c ∈ [].head?, (!p c) = false by simp)
  rw [List.append_nil] at hall
  rw [splitAtChar, hall]

theorem ne_of_digits {other : List Char} {c : Char} (hc : c ∈ other) (h : ¬ ('0' ≤ c ∧ c ≤ '9')) :
    word ≠ other := by
  rintro rfl
  exact h (hword c hc)

theorem float?_of_digits : float? word = none := by
  have hinf : word ≠ "inf".toList := ne_of_digits hword (c := 'i') (by decide) (by decide)
  have hnan : word ≠ "nan".toList := ne_of_digits hword (c := 'n') (by decide) (by decide)
  have hexponent : splitAtChar (fun c => c = 'e' || c = 'E') word = (word, none) := by
    refine splitAtChar_of_digits hword fun c hc => ?_
    rw [Bool.or_eq_true, decide_eq_true_iff, decide_eq_true_iff] at hc
    rcases hc with rfl | rfl <;> decide
  have hpoint : splitAtChar (fun c => decide (c = '.')) word = (word, none) := by
    refine splitAtChar_of_digits hword fun c hc => ?_
    rw [decide_eq_true_iff.mp hc]
    decide
  rw [float?, splitSign_of_digits hword]
  dsimp only
  rw [if_neg (by simp only [hinf, hnan, or_self, not_false_eq_true]), hexponent]
  dsimp only
  rw [hpoint]
  rfl

theorem isTime_of_digits : isTime word = false := by
  rw [isTime, date?_of_digits hword]
  dsimp only
  rw [clock?_of_digits hword]
  rfl

theorem isDigit_of_digits {c : Char} (hc : c ∈ word) : isDigit c = true := by
  rw [isDigit, Numeral.digit?, if_pos (hword c hc)]
  rfl

theorem wholeDigits?_of_digits (hne : word ≠ [])
    (hzero : word.length > 1 → word.head? ≠ some '0') : wholeDigits? word = some word := by
  have hunderscore : '_' ∉ word := fun hmem => absurd (hword '_' hmem) (by decide)
  have hrun : digitRun? isDigit word = some word := by
    have hall : word.all isDigit = true :=
      List.all_eq_true.mpr fun c hc => isDigit_of_digits hword hc
    rw [digitRun?, Text.pieces_of_not_mem hunderscore]
    simp [hne, hall]
  rw [wholeDigits?, hrun]
  exact if_neg fun h => hzero h.1 h.2

theorem integer?_of_digits (hne : word ≠ []) (hzero : word.length > 1 → word.head? ≠ some '0') :
    integer? word = ranged? (ofDigits 10 word : Nat) := by
  rw [integer?.eq_def]
  split
  · exact absurd (hword 'x' (by simp)) (by decide)
  · exact absurd (hword 'o' (by simp)) (by decide)
  · exact absurd (hword 'b' (by simp)) (by decide)
  · rw [splitSign_of_digits hword]
    dsimp only
    rw [wholeDigits?_of_digits hword hne hzero]
    rfl

theorem ofDigits_of_digits : ofDigits 10 word = Nat.ofDigitChars 10 word 0 := by
  rw [ofDigits, Nat.ofDigitChars_eq_foldl]
  refine List.foldl_ext _ _ 0 fun n c hc => ?_
  rw [hexDigit?, if_pos (hword c hc), Option.getD_some]

theorem isWordChar_of_digits {c : Char} (hc : c ∈ word) : isWordChar c = true := by
  simp [isWordChar, Char.isAlphanum, isDigit_iff.mpr (hword c hc)]

end Digits

/-! ## Words -/

theorem digits_toDigits {n : Nat} {c : Char} (hc : c ∈ Nat.toDigits 10 n) : '0' ≤ c ∧ c ≤ '9' :=
  isDigit_iff.mp (Nat.isDigit_of_mem_toDigits (by decide) (by decide) hc)

theorem head?_toDigits {n : Nat} (hpos : 0 < n) : (Nat.toDigits 10 n).head? ≠ some '0' := by
  induction n using Nat.strongRecOn with
  | ind n ih =>
      by_cases hsmall : n < 10
      · rw [Nat.toDigits_of_lt_base hsmall]
        interval_cases n <;> decide
      · have hfront := ih (n / 10) (by omega) (by omega)
        rw [Nat.toDigits_of_base_le (by decide) (by omega)]
        cases hdigits : Nat.toDigits 10 (n / 10) with
        | nil => exact absurd hdigits Nat.toDigits_ne_nil
        | cons c front =>
            rw [hdigits] at hfront
            exact hfront

/-- A number that fits is read back from its digits. -/
theorem ofWord?_toDigits {n : Nat} (h : n ≤ Numeral.largestSigned) :
    ofWord? (Nat.toDigits 10 n) = some (.integer n) := by
  have hdigits : ∀ c ∈ Nat.toDigits 10 n, '0' ≤ c ∧ c ≤ '9' := fun _ => digits_toDigits
  have htrue : Nat.toDigits 10 n ≠ "true".toList :=
    ne_of_digits hdigits (c := 't') (by decide) (by decide)
  have hfalse : Nat.toDigits 10 n ≠ "false".toList :=
    ne_of_digits hdigits (c := 'f') (by decide) (by decide)
  have hzero : (Nat.toDigits 10 n).length > 1 → (Nat.toDigits 10 n).head? ≠ some '0' := by
    intro hlong
    refine head?_toDigits (Nat.pos_of_ne_zero ?_)
    rintro rfl
    exact absurd hlong (by decide)
  rw [ofWord?, if_neg htrue, if_neg hfalse, isTime_of_digits hdigits, if_neg (by decide),
    float?_of_digits hdigits, Option.none_or, integer?_of_digits hdigits Nat.toDigits_ne_nil hzero,
    ofDigits_of_digits hdigits, Nat.ofDigitChars_ten_toDigits, ranged?, if_pos]
  rw [Numeral.largestSigned] at h
  omega

theorem scalarValue?_word {word : List Char} {v : Value} (hword : ∀ c ∈ word, isWordChar c = true)
    (hv : ofWord? word = some v) (rest : List Char) :
    scalarValue? (word ++ '\n' :: rest) = some (v, '\n' :: rest) := by
  have hstop : ∀ c ∈ ('\n' :: rest).head?, isWordChar c = false := by
    intro c hc
    obtain rfl := Option.some.inj hc
    decide
  rw [scalarValue?, takeWhile_append_of_stop hword hstop, dropWhile_append_of_stop hword hstop, hv]
  rfl

/-! ## Values -/

/-- The text is read as the value where a line ends after it, and does not begin with a blank. -/
structure ReadsAs (written : List Char) (v : Value) : Prop where
  value? (depth : Nat) (rest : List Char) :
    value? depth (written ++ '\n' :: rest) = some (v, '\n' :: rest)
  head? : ∀ c ∈ (written ++ ['\n']).head?, isInlineBlank c = false

theorem value?_of_wordChar {c : Char} (hc : isWordChar c = true) (depth : Nat)
    (rest : List Char) : value? depth (c :: rest) = scalarValue? (c :: rest) := by
  have hother : ∀ {d : Char} {tail : List Char}, isWordChar d = false → c :: rest ≠ d :: tail := by
    intro d tail hd heq
    exact ne_of_class hc hd (List.cons.inj heq).1
  rw [value?.eq_def]
  dsimp only
  split
  · next heq => exact absurd heq (hother (by decide))
  · next heq => exact absurd heq (hother (by decide))
  · next heq => exact absurd heq (hother (by decide))
  · next heq => exact absurd heq (hother (by decide))
  · rfl

theorem readsAs_word {word : List Char} {v : Value} (hne : word ≠ [])
    (hword : ∀ c ∈ word, isWordChar c = true) (hv : ofWord? word = some v) : ReadsAs word v := by
  cases word with
  | nil => exact absurd rfl hne
  | cons c word =>
      have hc := hword c List.mem_cons_self
      refine ⟨fun depth rest => ?_, fun d hd => ?_⟩
      · rw [List.cons_append, value?_of_wordChar hc]
        exact scalarValue?_word hword hv rest
      · obtain rfl : c = d := Option.some.inj hd
        exact isInlineBlank_of_ne (ne_of_class hc (by decide)) (ne_of_class hc (by decide))

theorem readsAs_count {n : Nat} (h : n ≤ Numeral.largestSigned) :
    ReadsAs (toString n).toList (.integer n) := by
  rw [Nat.toString_eq_ofList_toDigits, String.toList_ofList]
  exact readsAs_word Nat.toDigits_ne_nil (fun c => isWordChar_of_digits fun _ => digits_toDigits)
    (ofWord?_toDigits h)

theorem readsAs_switch (b : Bool) :
    ReadsAs (if b then "true".toList else "false".toList) (.boolean b) := by
  cases b <;> exact readsAs_word (by decide) (List.all_eq_true.mp rfl) rfl

theorem head_quoted (text : List Char) :
    ∃ sign more, quoted text = sign :: more ∧ (sign = '"' ∨ sign = '\'') := by
  rw [quoted]
  split
  · exact ⟨_, _, rfl, .inl rfl⟩
  · exact ⟨_, _, rfl, .inr rfl⟩
  · exact ⟨_, _, rfl, .inl rfl⟩
  · exact ⟨_, _, rfl, .inr rfl⟩

theorem readsAs_text (text : String) : ReadsAs (quoted text.toList) (.string text) := by
  obtain ⟨sign, more, hquoted, hsign⟩ := head_quoted text.toList
  refine ⟨fun depth rest => ?_, fun c hc => ?_⟩
  · have hread : string? (quoted text.toList ++ '\n' :: rest) = some (text.toList, '\n' :: rest) :=
      string?_quoted text.toList (by simp) (by simp)
    have hvalue : value? depth (quoted text.toList ++ '\n' :: rest) =
        (string? (quoted text.toList ++ '\n' :: rest)).map
          fun a => (.string (String.ofList a.1), a.2) := by
      rw [hquoted, value?.eq_def]
      rcases hsign with rfl | rfl <;> rfl
    rw [hvalue, hread]
    simp
  · rw [hquoted] at hc
    obtain rfl : sign = c := Option.some.inj hc
    rcases hsign with rfl | rfl <;> decide

/-! ## Keys -/

/-- A key that needs no quotes. -/
def IsBare (key : String) : Prop := key.toList ≠ [] ∧ ∀ c ∈ key.toList, isKeyChar c = true

instance (key : String) : Decidable (IsBare key) :=
  decidable_of_iff (key.toList ≠ [] ∧ key.toList.all isKeyChar = true)
    (and_congr_right fun _ => List.all_eq_true)

theorem skipBlanks_of_head {input : List Char} (h : ∀ c ∈ input.head?, isInlineBlank c = false) :
    skipBlanks input = input := by
  cases input with
  | nil => rfl
  | cons c input => simp [skipBlanks, h c rfl]

theorem IsBare.exists_cons {key : String} (h : IsBare key) :
    ∃ c more, key.toList = c :: more ∧ isKeyChar c = true := by
  cases hkey : key.toList with
  | nil => exact absurd hkey h.1
  | cons c more => exact ⟨c, more, rfl, h.2 c (by rw [hkey]; exact List.mem_cons_self)⟩

theorem IsBare.append_ne_cons {key : String} (h : IsBare key) {d : Char}
    (hd : isKeyChar d = false) (rest more : List Char) : key.toList ++ rest ≠ d :: more := by
  obtain ⟨c, front, hkey, hc⟩ := h.exists_cons
  rw [hkey]
  exact fun heq => ne_of_class hc hd (List.cons.inj heq).1

theorem keyPart?_append {key : String} (h : IsBare key) {rest : List Char}
    (hrest : ∀ c ∈ rest.head?, isKeyChar c = false) :
    keyPart? (key.toList ++ rest) = some (key, rest) := by
  rw [keyPart?.eq_def]
  split
  · next heq => exact absurd heq (h.append_ne_cons (by decide) _ _)
  · next heq => exact absurd heq (h.append_ne_cons (by decide) _ _)
  · dsimp only
    rw [takeWhile_append_of_stop h.2 hrest, dropWhile_append_of_stop h.2 hrest, if_neg]
    · simp
    · simpa using h.1

/-- A key is read up to what cannot belong to it, and blanks after it are passed over. -/
theorem key?_append {key : String} (h : IsBare key) {rest : List Char}
    (hrest : ∀ c ∈ rest.head?, isKeyChar c = false)
    (hdot : (skipBlanks rest).head? ≠ some '.') :
    key? (key.toList ++ rest) = some ([key], skipBlanks rest) := by
  obtain ⟨c, more, hkey, hc⟩ := h.exists_cons
  have hblank : skipBlanks (key.toList ++ rest) = key.toList ++ rest := by
    refine skipBlanks_of_head fun d hd => ?_
    rw [hkey] at hd
    obtain rfl : c = d := Option.some.inj hd
    exact isInlineBlank_of_ne (ne_of_class hc (by decide)) (ne_of_class hc (by decide))
  have hpath : keyPath? ((key.toList ++ rest).length + 1) (key.toList ++ rest) =
      some ([key], skipBlanks rest) := by
    rw [keyPath?, hblank, keyPart?_append h hrest, Option.bind_eq_bind, Option.bind_some]
    dsimp only
    split
    · next heq => exact absurd (by rw [heq]; rfl) hdot
    · rfl
  rw [key?, hpath]
  rfl

/-! ## Lines -/

theorem line?_header {name : String} (h : IsBare name) (rest : List Char) :
    line? (Settings.headerLine name ++ rest) = some (.header [name], rest) := by
  have hkey : key? (name.toList ++ ']' :: '\n' :: rest) = some ([name], ']' :: '\n' :: rest) :=
    key?_append h (by simp [isKeyChar]) (by simp [skipBlanks, isInlineBlank])
  have htext : Settings.headerLine name ++ rest = '[' :: (name.toList ++ ']' :: '\n' :: rest) := by
    simp [Settings.headerLine]
  rw [htext, line?.eq_def]
  split
  · next heq => exact absurd (List.cons.inj heq).2 (h.append_ne_cons (by decide) _ _)
  · next heq =>
      rw [← (List.cons.inj heq).2, hkey]
      rfl
  · next heq => exact absurd rfl (heq _)

theorem line?_entry {key : String} (h : IsBare key) {written : List Char} {v : Value}
    (hv : ReadsAs written v) (rest : List Char) :
    line? (Settings.entryLine key written ++ rest) = some (.pair [key] v, rest) := by
  have htext : Settings.entryLine key written ++ rest =
      key.toList ++ ' ' :: '=' :: ' ' :: (written ++ '\n' :: rest) := by
    simp [Settings.entryLine]
  have hkey : key? (key.toList ++ ' ' :: '=' :: ' ' :: (written ++ '\n' :: rest)) =
      some ([key], '=' :: ' ' :: (written ++ '\n' :: rest)) :=
    key?_append h (by simp [isKeyChar]) (by simp [skipBlanks, isInlineBlank])
  have hblank : skipBlanks (' ' :: (written ++ '\n' :: rest)) = written ++ '\n' :: rest := by
    show skipBlanks (written ++ '\n' :: rest) = _
    refine skipBlanks_of_head fun d hd => hv.head? d ?_
    cases written with
    | nil => exact hd
    | cons first written => exact hd
  have hpair : pair? (value? (nestingLimit - 1))
      (key.toList ++ ' ' :: '=' :: ' ' :: (written ++ '\n' :: rest)) =
        some (([key], v), '\n' :: rest) := by
    rw [pair?, hkey, Option.bind_eq_bind, Option.bind_some]
    show (value? (nestingLimit - 1) (skipBlanks (' ' :: (written ++ '\n' :: rest)))).bind _ = _
    rw [hblank, hv.value?]
    rfl
  rw [htext, line?.eq_def]
  split
  · next heq => exact absurd heq (h.append_ne_cons (by decide) _ _)
  · next heq => exact absurd heq (h.append_ne_cons (by decide) _ _)
  · rw [hpair]
    rfl

theorem skipLines_of_head {c : Char} (h : c = '[' ∨ isKeyChar c = true) (rest : List Char) :
    skipLines false (c :: rest) = c :: rest := by
  have hne : ∀ d, isKeyChar d = false → d ≠ '[' → c ≠ d := by
    intro d hkey hbracket
    rcases h with rfl | h
    · exact hbracket.symm
    · exact ne_of_class h hkey
  have hblank : isInlineBlank c = false :=
    isInlineBlank_of_ne (hne ' ' (by decide) (by decide)) (hne '\t' (by decide) (by decide))
  rw [skipLines, if_neg (hne '\n' (by decide) (by decide)),
    if_neg fun hreturn => hne '\r' (by decide) (by decide) hreturn.1]
  simp [hblank, hne '#' (by decide) (by decide)]

/-- The text is that of the lines, whatever comes after it. -/
structure Writes (text : List Char) (lines : List Line) : Prop where
  length_le : lines.length ≤ text.length
  lines? (bound : Nat) (rest : List Char) :
    lines? (bound + lines.length) (text ++ rest) = (lines? bound rest).map (lines ++ ·)

namespace Writes

theorem nil : Writes [] [] := ⟨Nat.le_refl 0, fun bound rest => by simp⟩

theorem append {text text' : List Char} {lines lines' : List Line} (h : Writes text lines)
    (h' : Writes text' lines') : Writes (text ++ text') (lines ++ lines') := by
  refine ⟨?_, fun bound rest => ?_⟩
  · have := h.length_le
    have := h'.length_le
    simp only [List.length_append]
    omega
  · have hbound : bound + (lines ++ lines').length = bound + lines'.length + lines.length := by
      rw [List.length_append]
      omega
    rw [hbound, List.append_assoc, h.lines?, h'.lines?, Option.map_map]
    simp [Function.comp_def]

theorem line {text : List Char} {l : Line} {c : Char} (hhead : text.head? = some c)
    (hc : c = '[' ∨ isKeyChar c = true) (h : ∀ rest, line? (text ++ rest) = some (l, rest)) :
    Writes text [l] := by
  cases text with
  | nil => cases hhead
  | cons first text =>
      obtain rfl : first = c := Option.some.inj hhead
      refine ⟨by simp, fun bound rest => ?_⟩
      show Toml.lines? (bound + 1) _ = _
      rw [Toml.lines?.eq_def]
      dsimp only
      rw [List.cons_append, skipLines_of_head hc]
      dsimp only
      rw [← List.cons_append, h rest, Option.bind_eq_bind, Option.bind_some]
      cases Toml.lines? bound rest <;> rfl

theorem blank : Writes ['\n'] [] := by
  refine ⟨Nat.zero_le _, fun bound rest => ?_⟩
  have hskip : skipLines false (['\n'] ++ rest) = skipLines false rest := rfl
  cases bound with
  | zero => rfl
  | succ bound =>
      simp only [List.length_nil, Nat.add_zero, Toml.lines?, hskip]
      simp

theorem header {name : String} (h : IsBare name) :
    Writes (Settings.headerLine name) [.header [name]] :=
  line rfl (.inl rfl) (line?_header h)

theorem entry {key : String} (h : IsBare key) {written : List Char} {v : Value}
    (hv : ReadsAs written v) : Writes (Settings.entryLine key written) [.pair [key] v] := by
  obtain ⟨c, more, hkey, hc⟩ := h.exists_cons
  refine line (c := c) ?_ (.inr hc) (line?_entry h hv)
  rw [Settings.entryLine, hkey]
  rfl

end Writes

theorem Writes.whole {text : List Char} {lines : List Line} (h : Writes text lines) :
    Toml.lines? (text.length + 1) text = some lines := by
  have hle := h.length_le
  have hread := h.lines? (text.length - lines.length + 1) []
  have hbound : text.length - lines.length + 1 + lines.length = text.length + 1 := by omega
  rw [hbound, List.append_nil] at hread
  rw [hread]
  simp [Toml.lines?, skipLines]

/-! ## Tables -/

/-- The lines of a table: its header, and its pairs below. -/
def tableLines (t : String × List (String × Value)) : List Line :=
  .header [t.1] :: t.2.map fun e => .pair [e.1] e.2

section Assembling

variable {done : List (String × Value)} {name : String}

theorem lookup_of_fresh {entries : List (String × Value)} {key : String}
    (h : key ∉ entries.map (·.1)) : entries.lookup key = none := by
  rw [List.lookup_eq_none_iff]
  intro e he
  simpa using fun hkey : key = e.1 => h (hkey ▸ List.mem_map_of_mem he)

theorem filter_of_fresh {entries : List (String × Value)} {key : String}
    (h : key ∉ entries.map (·.1)) : entries.filter (·.1 ≠ key) = entries := by
  rw [List.filter_eq_self]
  intro e he
  simpa using fun hkey : e.1 = key => h (hkey ▸ List.mem_map_of_mem he)

theorem add_header (hname : name ∉ done.map (·.1)) (here : List String) :
    Draft.add ⟨⟨.header, done⟩, here⟩ (.header [name]) =
      some ⟨⟨.header, done ++ [(name, .table .header [])]⟩, [name]⟩ := by
  have hopen : Table.openHeader [name] ⟨.header, done⟩ =
      some (Table.set ⟨.header, done⟩ name (.table .header [])) := by
    simp [Table.openHeader, Table.alter, Table.get?, lookup_of_fresh hname]
  rw [Table.set, filter_of_fresh hname] at hopen
  rw [Draft.add, hopen]
  rfl

/-- The last table takes a pair with a new key. -/
theorem add_pair (hname : name ∉ done.map (·.1)) {entries : List (String × Value)} {key : String}
    (hkey : key ∉ entries.map (·.1)) (v : Value) :
    Draft.add ⟨⟨.header, done ++ [(name, .table .header entries)]⟩, [name]⟩ (.pair [key] v) =
      some ⟨⟨.header, done ++ [(name, .table .header (entries ++ [(key, v)]))]⟩, [name]⟩ := by
  have hadd : Table.addPair [key] v ⟨.header, entries⟩ =
      some (Table.set ⟨.header, entries⟩ key v) := by
    simp [Table.addPair, Table.alter, Table.putNew, Table.get?, lookup_of_fresh hkey]
  rw [Table.set, filter_of_fresh hkey] at hadd
  have hget : Table.get? ⟨.header, done ++ [(name, .table .header entries)]⟩ name =
      some (.table .header entries) := by
    simp [Table.get?, List.lookup_append, lookup_of_fresh hname]
  have hkept : (done ++ [(name, Value.table .header entries)]).filter (·.1 ≠ name) = done := by
    rw [List.filter_append, filter_of_fresh hname]
    simp
  rw [Draft.add, Table.alter, hget]
  dsimp only
  rw [if_neg (by decide), Table.alter, hadd]
  show some (⟨Table.set _ name _, _⟩ : Draft) = _
  rw [Table.set, hkept]

theorem add_pairs (hname : name ∉ done.map (·.1)) (entries more : List (String × Value))
    (hnodup : ((entries ++ more).map (·.1)).Nodup) :
    (more.map fun e => Line.pair [e.1] e.2).foldlM Draft.add
        ⟨⟨.header, done ++ [(name, .table .header entries)]⟩, [name]⟩ =
      some ⟨⟨.header, done ++ [(name, .table .header (entries ++ more))]⟩, [name]⟩ := by
  induction more generalizing entries with
  | nil => simp
  | cons e more ih =>
      have hfresh : e.1 ∉ entries.map (·.1) := by
        rw [List.map_append, List.nodup_append] at hnodup
        exact fun hmem => hnodup.2.2 e.1 hmem e.1 (by simp) rfl
      rw [List.map_cons, List.foldlM_cons, add_pair hname hfresh, Option.bind_eq_bind,
        Option.bind_some, ih (entries ++ [(e.1, e.2)]) (by simpa using hnodup)]
      simp

end Assembling

theorem add_tables {tables : List (String × List (String × Value))} (done : List (String × Value))
    (hnames : (done.map (·.1) ++ tables.map (·.1)).Nodup)
    (hkeys : ∀ t ∈ tables, (t.2.map (·.1)).Nodup) (here : List String) :
    ∃ here', (tables.flatMap tableLines).foldlM Draft.add ⟨⟨.header, done⟩, here⟩ =
      some ⟨⟨.header, done ++ tables.map fun t => (t.1, .table .header t.2)⟩, here'⟩ := by
  induction tables generalizing done here with
  | nil => exact ⟨here, by simp⟩
  | cons t tables ih =>
      have hname : t.1 ∉ done.map (·.1) := by
        rw [List.nodup_append] at hnames
        exact fun hmem => hnames.2.2 t.1 hmem t.1 (by simp) rfl
      obtain ⟨here', hrest⟩ := ih (done ++ [(t.1, .table .header t.2)])
        (by simpa using hnames) (fun u hu => hkeys u (List.mem_cons_of_mem _ hu)) [t.1]
      refine ⟨here', ?_⟩
      have hpairs := add_pairs hname [] t.2 (hkeys t List.mem_cons_self)
      rw [List.flatMap_cons, List.foldlM_append, tableLines, List.foldlM_cons, add_header hname,
        Option.bind_eq_bind, Option.bind_some, hpairs, Option.bind_some, List.nil_append, hrest]
      simp

/-- Lines of tables with different names and keys make up these tables. -/
theorem assemble?_tableLines {tables : List (String × List (String × Value))}
    (hnames : (tables.map (·.1)).Nodup) (hkeys : ∀ t ∈ tables, (t.2.map (·.1)).Nodup) :
    assemble? (tables.flatMap tableLines) =
      some (tables.map fun t => (t.1, .table .header t.2)) := by
  obtain ⟨here, hadd⟩ := add_tables [] hnames hkeys []
  rw [assemble?, hadd]
  rfl

end ShardedModel.Toml
