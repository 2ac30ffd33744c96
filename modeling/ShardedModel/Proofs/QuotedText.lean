import Mathlib.Tactic.IntervalCases
import ShardedModel.Toml.Quoted

/-!
# Quoted text is read as it was written

The writer picks one of four forms by what a text holds, and the reader has to undo each of them.
Between single quotes every character is undone on its own, escaped or not. Tripled signs are
harder, because the reader looks ahead: wherever three signs follow each other it takes them for the
end, and takes two more into the text. What saves both tripled forms is the same. Of the text as it
stands there, a row of signs is never longer than two, so a look ahead from within the text meets
three signs only if nothing but signs is left of it (`closing?_of_run`, `closing?_of_other`).

The statement is for every text and for whatever follows it, as long as no further sign does. A
writer whose counter has a limit does not get to every text; which texts it gives up on is the last
section.
-/

namespace ShardedModel.Toml

/-! ## Escapes -/

/-- The reader undoes escapes, and takes a plain character as it is. -/
structure Unescapes (read : Progress → List Char → Rest) : Prop where
  backslash (rest : List Char) : read .plain ('\\' :: rest) = read .escape rest
  letter {c made : Char} (h : named? c = some made) (rest : List Char) :
    read .escape (c :: rest) = emit made (read .plain rest)
  number (rest : List Char) : read .escape ('u' :: rest) = read (.code 4 0) rest
  digit {missing value d : Nat} {c : Char} (hmissing : 1 < missing) (h : hexDigit? c = some d)
    (rest : List Char) :
    read (.code missing value) (c :: rest) = read (.code (missing - 1) (16 * value + d)) rest
  lastDigit {value d : Nat} {c made : Char} (h : hexDigit? c = some d)
    (hmade : scalar? (16 * value + d) = some made) (rest : List Char) :
    read (.code 1 value) (c :: rest) = emit made (read .plain rest)
  plain {c : Char} (h : isPlain c = true) (hquote : c ≠ '"') (hback : c ≠ '\\')
    (rest : List Char) : read .plain (c :: rest) = emit c (read .plain rest)

theorem named?_eq_some {c made : Char} (h : named? c = some made) :
    c ∈ ['b', 't', 'n', 'f', 'r', '"', '\\'] := by
  simp only [named?] at h
  repeat' split at h
  all_goals simp_all

theorem unescapes_basic : Unescapes basic where
  backslash rest := rfl
  letter h rest := by
    have hmem := named?_eq_some h
    rw [basic, if_neg, if_neg, h]
    · rfl
    · rintro rfl
      simp at hmem
    · rintro rfl
      simp at hmem
  number rest := rfl
  digit hmissing h rest := by
    have hle : ¬ _ ≤ 1 := Nat.not_le.mpr hmissing
    simp [basic, Progress.step, h, hle]
  lastDigit h hmade rest := by simp [basic, Progress.step, h, hmade]
  plain h hquote hback rest := by simp [basic, h, hquote, hback]

theorem closing?_of_ne {sign c : Char} (h : c ≠ sign) (rest : List Char) :
    closing? sign (c :: rest) = none := by
  rw [closing?.eq_def]
  split
  · next heq =>
      obtain ⟨rfl, -⟩ := List.cons.inj heq
      rw [if_neg fun hall => h hall.1]
  · rfl

theorem unescapes_basicLines : Unescapes basicLines where
  backslash rest := by
    rw [basicLines, closing?_of_ne (by decide)]
    rfl
  letter h rest := by
    have hmem := named?_eq_some h
    simp only [List.mem_cons, List.not_mem_nil, or_false] at hmem
    rcases hmem with rfl | rfl | rfl | rfl | rfl | rfl | rfl <;> cases h <;> rfl
  number rest := rfl
  digit hmissing h rest := by
    have hle : ¬ _ ≤ 1 := Nat.not_le.mpr hmissing
    simp [basicLines, Progress.step, h, hle]
  lastDigit h hmade rest := by simp [basicLines, Progress.step, h, hmade]
  plain {c} h hquote hback rest := by
    have hreturn : c ≠ '\r' := by
      rintro rfl
      exact absurd h (by decide)
    rw [basicLines, closing?_of_ne hquote]
    simp only [hback, hreturn, h, if_false, if_true, or_true]

/-- The four digits of a control character. -/
theorem hexDigit?_padded : ∀ n < 128,
    (List.replicate (4 - (hexLetters n).length) '0' ++ hexLetters n).map hexDigit? =
      [some 0, some 0, some (n / 16), some (n % 16)] := by
  decide +kernel

theorem lt_of_isControl {c : Char} (h : isControl c = true) : c.toNat < 128 := by
  simp only [isControl, isPlain, Bool.and_eq_true, Bool.not_eq_true', Bool.or_eq_false_iff,
    Bool.and_eq_false_iff, decide_eq_false_iff_not] at h
  omega

theorem isPlain_of_not_control {c : Char} (h : ¬ isControl c = true) (hne : c ≠ '\n') :
    isPlain c = true := by
  simpa [isControl, hne] using h

namespace Unescapes

variable {read : Progress → List Char → Rest}

theorem padded (h : Unescapes read) {digits : List Char} {n : Nat} {made : Char}
    (hdigits : digits.map hexDigit? = [some 0, some 0, some (n / 16), some (n % 16)])
    (hmade : scalar? n = some made) (rest : List Char) :
    read (.code 4 0) (digits ++ rest) = emit made (read .plain rest) := by
  obtain ⟨a, digits, rfl, ha, hdigits⟩ := List.map_eq_cons_iff.mp hdigits
  obtain ⟨b, digits, rfl, hb, hdigits⟩ := List.map_eq_cons_iff.mp hdigits
  obtain ⟨c, digits, rfl, hc, hdigits⟩ := List.map_eq_cons_iff.mp hdigits
  obtain ⟨d, digits, rfl, hd, hdigits⟩ := List.map_eq_cons_iff.mp hdigits
  obtain rfl := List.map_eq_nil_iff.mp hdigits
  have hn : 16 * (16 * (16 * (16 * 0 + 0) + 0) + n / 16) + n % 16 = n := by omega
  show read (.code 4 0) (a :: b :: c :: d :: rest) = _
  rw [h.digit (by decide) ha, h.digit (by decide) hb, h.digit (by decide) hc]
  exact h.lastDigit hd (by rw [hn, hmade]) rest

/-- An escaped character is undone. -/
theorem escaped (h : Unescapes read) (c : Char) (rest : List Char) :
    read .plain (escaped c ++ rest) = emit c (read .plain rest) := by
  have hletter : ∀ {letter : Char}, named? letter = some c →
      read .plain (['\\', letter] ++ rest) = emit c (read .plain rest) := by
    intro letter hnamed
    show read .plain ('\\' :: letter :: rest) = _
    rw [h.backslash, h.letter hnamed]
  rw [Toml.escaped]
  split
  · next hc => exact hletter (by rw [hc]; rfl)
  split
  · next hc => exact hletter (by rw [hc]; rfl)
  split
  · next hc => exact hletter (by rw [hc]; rfl)
  split
  · next hc => exact hletter (by rw [hc]; rfl)
  split
  · next hc => exact hletter (by rw [hc]; rfl)
  split
  · next hc => exact hletter (by rw [hc]; rfl)
  split
  · next hc => exact hletter (by rw [hc]; rfl)
  split
  · next hcontrol =>
      dsimp only
      rw [List.cons_append, List.cons_append, h.backslash, h.number]
      refine h.padded (hexDigit?_padded _ (lt_of_isControl hcontrol)) ?_ rest
      rw [scalar?, if_pos (show c.toNat.isValidChar from c.valid), Char.ofNat_toNat]
  · next hnewline _ _ hquote hback hcontrol =>
      exact h.plain (isPlain_of_not_control hcontrol hnewline) hquote hback rest

end Unescapes

/-! ## Within one line -/

theorem basic_escaped (text rest : List Char) :
    basic .plain (text.flatMap escaped ++ '"' :: rest) = some (text, rest) := by
  induction text with
  | nil => rfl
  | cons c text ih =>
      rw [List.flatMap_cons, List.append_assoc, unescapes_basic.escaped, ih]
      rfl

theorem literal_plain {text : List Char} (h : ∀ c ∈ text, isPlain c = true ∧ c ≠ '\'')
    (rest : List Char) : literal (text ++ '\'' :: rest) = some (text, rest) := by
  induction text with
  | nil => rfl
  | cons c text ih =>
      obtain ⟨hplain, hne⟩ := h c List.mem_cons_self
      rw [List.cons_append, literal, if_neg hne, if_pos hplain,
        ih fun d hd => h d (List.mem_cons_of_mem _ hd)]
      rfl

/-! ## Looking ahead for the end -/

/-- From within the last row of signs, of which at most two belong to the text, the end is seen. -/
theorem closing?_of_run {sign : Char} {k : Nat} (hk : k ≤ 2) {rest : List Char}
    (hrest : rest.head? ≠ some sign) :
    closing? sign (List.replicate k sign ++ ([sign, sign, sign] ++ rest)) =
      some (List.replicate k sign, rest) := by
  have hclosed : ∀ c more, rest = c :: more → c ≠ sign := by
    rintro c more rfl rfl
    exact hrest rfl
  rcases rest with _ | ⟨c, _ | ⟨d, more⟩⟩
  all_goals
    interval_cases k
    all_goals simp_all [closing?, closed]

/-- From a row of at most two signs that something else ends, it is not. -/
theorem closing?_of_other {sign c : Char} {k : Nat} (hk : k ≤ 2) (hc : c ≠ sign)
    (rest : List Char) : closing? sign (List.replicate k sign ++ c :: rest) = none := by
  interval_cases k
  · exact closing?_of_ne hc rest
  · cases rest <;> simp [closing?, hc]
  · simp [closing?, hc]

/-- After `q` signs the text is a row of signs alone, or something else ends the row, and the row is
of two signs at most. -/
inductive Rows (sign : Char) (q : Nat) (text : List Char) : Prop
  | run (k : Nat) (hk : q + k ≤ 2) (htext : text = List.replicate k sign)
  | other (k : Nat) (hk : q + k ≤ 2) (c : Char) (hc : c ≠ sign) (more : List Char)
      (htext : text = List.replicate k sign ++ c :: more)

theorem Rows.cons {sign : Char} {q : Nat} {text : List Char} (h : Rows sign (q + 1) text) :
    Rows sign q (sign :: text) := by
  cases h with
  | run k hk htext => exact .run (k + 1) (by omega) (by rw [htext]; rfl)
  | other k hk c hc more htext => exact .other (k + 1) (by omega) c hc more (by rw [htext]; rfl)

theorem rows_of_longestRunAfter {sign : Char} {q : Nat} {text : List Char}
    (h : longestRunAfter sign q text ≤ 2) : Rows sign q text := by
  induction text generalizing q with
  | nil => exact .run 0 h rfl
  | cons c text ih =>
      rw [longestRunAfter] at h
      split at h
      · next hc =>
          rw [hc]
          exact (ih h).cons
      · next hc => exact .other 0 (by omega) c hc text rfl

theorem head_escaped (c : Char) :
    ∃ d more, escaped c = d :: more ∧ d ≠ '"' ∧ d ≠ '\n' ∧ d ≠ '\r' := by
  rw [escaped]
  repeat' split
  all_goals simp_all

theorem rows_escapedLines {q : Nat} (hq : q ≤ 2) (text : List Char) :
    Rows '"' q (escapedLines q text) := by
  induction text generalizing q with
  | nil => exact .run 0 hq rfl
  | cons c text ih =>
      rw [escapedLines]
      split
      · exact .other 0 hq '\n' (by decide) _ rfl
      · split
        · split
          · exact .other 0 hq '\\' (by decide) _ rfl
          · exact (ih (by omega)).cons
        · obtain ⟨d, more, hescaped, hd, -⟩ := head_escaped c
          exact .other 0 hq d hd (more ++ escapedLines 0 text) (by rw [hescaped]; rfl)

/-- Where only quotes are left of the lines, they are the text. -/
theorem eq_of_escapedLines_run {q k : Nat} {text : List Char}
    (h : escapedLines q text = List.replicate k '"') : text = List.replicate k '"' := by
  induction text generalizing q k with
  | nil => exact h
  | cons c text ih =>
      obtain ⟨d, more, hescaped, hd, -⟩ := head_escaped c
      rw [escapedLines] at h
      cases k with
      | zero =>
          repeat' split at h
          all_goals simp_all
      | succ k =>
          rw [List.replicate_succ] at h ⊢
          repeat' split at h
          · simp at h
          · simp at h
          · next hquote _ =>
              obtain ⟨-, h⟩ := List.cons.inj h
              rw [hquote, ih h]
          · rw [hescaped] at h
            exact absurd (List.cons.inj h).1 hd

/-! ## Over several lines -/

theorem basicLines_of_closing {input : List Char} {done : List Char × List Char}
    (h : closing? '"' input = some done) : basicLines .plain input = some done := by
  cases input with
  | nil => cases h
  | cons c input => rw [basicLines, h]

theorem basicLines_of_not_closing {c : Char} {input : List Char}
    (h : closing? '"' (c :: input) = none) (hc : c = '\n' ∨ c = '"') :
    basicLines .plain (c :: input) = emit c (basicLines .plain input) := by
  rw [basicLines, h]
  rcases hc with rfl | rfl <;> rfl

theorem basicLines_escapedLines {q : Nat} (hq : q ≤ 2) (text : List Char) {rest : List Char}
    (hrest : rest.head? ≠ some '"') :
    basicLines .plain (escapedLines q text ++ (['"', '"', '"'] ++ rest)) = some (text, rest) := by
  induction text generalizing q with
  | nil => exact basicLines_of_closing (closing?_of_run (Nat.zero_le 2) hrest)
  | cons c text ih =>
      cases rows_escapedLines hq (c :: text) with
      | run k hk hrun =>
          rw [hrun, eq_of_escapedLines_run hrun]
          exact basicLines_of_closing (closing?_of_run (by omega) hrest)
      | other k hk d hd more hother =>
          have hopen : closing? '"'
              (escapedLines q (c :: text) ++ (['"', '"', '"'] ++ rest)) = none := by
            rw [hother, List.append_assoc]
            exact closing?_of_other (by omega) hd _
          rw [escapedLines] at hopen ⊢
          split
          · next hc =>
              rw [if_pos hc, List.cons_append] at hopen
              rw [List.cons_append, basicLines_of_not_closing hopen (.inl rfl), ih (by decide), hc]
              rfl
          · next hline =>
              rw [if_neg hline] at hopen
              split
              · next hc =>
                  rw [if_pos hc] at hopen
                  split
                  · rw [List.cons_append, List.cons_append, unescapes_basicLines.backslash,
                      unescapes_basicLines.letter (rfl : named? '"' = some '"'), ih (by decide), hc]
                    rfl
                  · next hq' =>
                      rw [if_neg hq', List.cons_append] at hopen
                      rw [List.cons_append, basicLines_of_not_closing hopen (.inr rfl),
                        ih (by omega), hc]
                      rfl
              · rw [List.append_assoc, unescapes_basicLines.escaped, ih (by decide)]
                rfl

theorem literalLines_of_closing {input : List Char} {done : List Char × List Char}
    (h : closing? '\'' input = some done) : literalLines input = some done := by
  cases input with
  | nil => cases h
  | cons c input => rw [literalLines, h]

theorem literalLines_plain {q : Nat} {text : List Char}
    (hrun : longestRunAfter '\'' q text ≤ 2) (hplain : ∀ c ∈ text, isControl c = false)
    {rest : List Char} (hrest : rest.head? ≠ some '\'') :
    literalLines (text ++ (['\'', '\'', '\''] ++ rest)) = some (text, rest) := by
  induction text generalizing q with
  | nil => exact literalLines_of_closing (closing?_of_run (Nat.zero_le 2) hrest)
  | cons c text ih =>
      cases rows_of_longestRunAfter hrun with
      | run k hk htext =>
          rw [htext]
          exact literalLines_of_closing (closing?_of_run (by omega) hrest)
      | other k hk d hd more htext =>
          have hopen : closing? '\'' (c :: (text ++ (['\'', '\'', '\''] ++ rest))) = none := by
            rw [← List.cons_append, htext, List.append_assoc]
            exact closing?_of_other (by omega) hd _
          have hc := hplain c List.mem_cons_self
          have hreturn : c ≠ '\r' := by
            rintro rfl
            exact absurd hc (by decide)
          have htaken : c = '\n' ∨ isPlain c = true := by
            by_cases hline : c = '\n'
            · exact .inl hline
            · exact .inr (isPlain_of_not_control (by simp [hc]) hline)
          have hnext : ∃ q', longestRunAfter '\'' q' text ≤ 2 := by
            rw [longestRunAfter] at hrun
            split at hrun
            · exact ⟨_, hrun⟩
            · exact ⟨0, by omega⟩
          obtain ⟨q', hnext⟩ := hnext
          rw [List.cons_append, literalLines, hopen]
          simp only [hreturn, htaken, if_false, if_true]
          rw [ih hnext fun d hd => hplain d (List.mem_cons_of_mem _ hd)]
          rfl

/-! ## Every form -/

theorem form_apostrophes {text : List Char} (h : form text = .apostrophes) :
    ∀ c ∈ text, isPlain c = true ∧ c ≠ '\'' := by
  simp only [form] at h
  split at h
  · cases h
  split at h
  · next hcond =>
      simp only [Bool.and_eq_true, Bool.not_eq_true', List.any_eq_false, List.contains_eq_mem,
        decide_eq_false_iff_not] at hcond
      obtain ⟨⟨hcontrol, hapostrophe⟩, hline⟩ := hcond
      intro c hc
      refine ⟨isPlain_of_not_control (hcontrol c hc) ?_, ?_⟩
      · exact fun heq => hline (heq ▸ hc)
      · exact fun heq => hapostrophe (heq ▸ hc)
  · repeat' split at h
    all_goals cases h

theorem form_tripleApostrophes {text : List Char} (h : form text = .tripleApostrophes) :
    (∀ c ∈ text, isControl c = false) ∧ longestRun '\'' text ≤ 2 := by
  simp only [form] at h
  split at h
  · cases h
  split at h
  · cases h
  split at h
  · cases h
  split at h
  · next hcond =>
      simp only [Bool.and_eq_true, Bool.not_eq_true', List.any_eq_false, decide_eq_true_eq] at hcond
      obtain ⟨hcontrol, hrun⟩ := hcond
      exact ⟨fun c hc => Bool.eq_false_iff.mpr (hcontrol c hc), by omega⟩
  · split at h <;> cases h

theorem afterOpening_opening {text body : List Char}
    (hline : '\n' ∉ text → body.head? ≠ some '\n') (hreturn : body.head? ≠ some '\r') :
    afterOpening (opening text ++ body) = body := by
  rw [opening]
  split
  · rfl
  · next htext =>
      have hhead := hline (by simpa using htext)
      rw [List.nil_append, afterOpening.eq_def]
      split
      · exact absurd rfl hhead
      · exact absurd rfl hreturn
      · rfl

theorem string?_of_quote {body : List Char} (h : ∀ more, body ≠ '"' :: '"' :: more) :
    string? ('"' :: body) = basic .plain body := by
  rw [string?.eq_def]
  split
  · next heq => exact absurd (List.cons.inj heq).2 (h _)
  · next heq => cases heq
  · rfl

theorem string?_of_apostrophe {body : List Char} (h : ∀ more, body ≠ '\'' :: '\'' :: more) :
    string? ('\'' :: body) = literal body := by
  rw [string?.eq_def]
  split
  · next heq => cases heq
  · next heq => exact absurd (List.cons.inj heq).2 (h _)
  · rfl

theorem string?_of_quotes (body : List Char) :
    string? (['"', '"', '"'] ++ body) = basicLines .plain (afterOpening body) := rfl

theorem string?_of_apostrophes (body : List Char) :
    string? (['\'', '\'', '\''] ++ body) = literalLines (afterOpening body) := rfl

theorem head?_escapedLines (text rest : List Char) :
    ('\n' ∉ text → (escapedLines 0 text ++ ('"' :: rest)).head? ≠ some '\n') ∧
      (escapedLines 0 text ++ ('"' :: rest)).head? ≠ some '\r' := by
  cases text with
  | nil => exact ⟨fun _ => by simp [escapedLines], by simp [escapedLines]⟩
  | cons c text =>
      obtain ⟨d, more, hescaped, -, hline, hreturn⟩ := head_escaped c
      rw [escapedLines]
      split
      · next hc => exact ⟨fun hmem => absurd (hc ▸ List.mem_cons_self) hmem, by simp⟩
      · split
        · rw [if_neg (by decide)]
          exact ⟨fun _ => by simp, by simp⟩
        · rw [hescaped]
          exact ⟨fun _ => by simpa using hline, by simpa using hreturn⟩

/-- A text is read as it was written, whatever follows it, unless that is one more sign. -/
theorem string?_quoted (text : List Char) {rest : List Char} (hquote : rest.head? ≠ some '"')
    (hapostrophe : rest.head? ≠ some '\'') :
    string? (quoted text ++ rest) = some (text, rest) := by
  rw [quoted]
  split
  · rw [List.append_assoc, List.cons_append, List.singleton_append, string?_of_quote,
      basic_escaped]
    rintro more heq
    cases text with
    | nil =>
        obtain rfl : rest = '"' :: more := (List.cons.inj heq).2
        exact hquote rfl
    | cons c text =>
        obtain ⟨d, more', hescaped, hd, -⟩ := head_escaped c
        rw [List.flatMap_cons, hescaped] at heq
        exact hd (List.cons.inj heq).1
  · next hform =>
      have hplain := form_apostrophes hform
      rw [List.append_assoc, List.cons_append, List.singleton_append, string?_of_apostrophe,
        literal_plain hplain]
      rintro more heq
      cases text with
      | nil =>
          obtain rfl : rest = '\'' :: more := (List.cons.inj heq).2
          exact hapostrophe rfl
      | cons c text => exact (hplain c List.mem_cons_self).2 (List.cons.inj heq).1
  · obtain ⟨hline, hreturn⟩ := head?_escapedLines text (['"', '"'] ++ rest)
    rw [List.append_assoc, List.append_assoc, List.append_assoc, string?_of_quotes,
      List.cons_append, afterOpening_opening hline hreturn]
    exact basicLines_escapedLines (Nat.zero_le 2) text hquote
  · next hform =>
      obtain ⟨hcontrol, hrun⟩ := form_tripleApostrophes hform
      rw [List.append_assoc, List.append_assoc, List.append_assoc, string?_of_apostrophes,
        afterOpening_opening]
      · exact literalLines_plain hrun hcontrol hapostrophe
      · intro hline
        cases text with
        | nil => simp
        | cons c text =>
            intro hc
            obtain rfl : c = '\n' := by simpa using hc
            exact hline List.mem_cons_self
      · cases text with
        | nil => simp
        | cons c text =>
            intro hc
            obtain rfl : c = '\r' := by simpa using hc
            exact absurd (hcontrol '\r' List.mem_cons_self) (by decide)

/-! ## Rows that are too long -/

theorem row_append_cons {part front back : List Char} {a : Char} (h : a ∉ part) :
    part <:+: front ++ a :: back ↔ part <:+: front ∨ part <:+: back := by
  constructor
  · intro hpart
    rcases List.infix_append_iff.mp hpart with hfront | hback | ⟨left, right, rfl, hleft, hright⟩
    · exact .inl hfront
    · rcases List.infix_cons_iff.mp hback with hhead | hback
      · rcases List.prefix_cons_iff.mp hhead with rfl | ⟨rest, rfl, -⟩
        · exact .inl List.nil_infix
        · exact absurd List.mem_cons_self h
      · exact .inr hback
    · rcases List.prefix_cons_iff.mp hright with rfl | ⟨rest, rfl, -⟩
      · rw [List.append_nil]
        exact .inl hleft.isInfix
      · exact absurd (List.mem_append_right _ List.mem_cons_self) h
  · rintro (hfront | hback)
    · exact hfront.trans (List.prefix_append _ _).isInfix
    · exact hback.trans ((List.suffix_cons a back).trans (List.suffix_append _ _)).isInfix

theorem row_replicate {c : Char} {n q : Nat} :
    List.replicate (n + 1) c <:+: List.replicate q c ↔ n < q := by
  rw [List.infix_replicate_iff, List.length_replicate]
  exact and_iff_left rfl

theorem lt_longestRunAfter_iff {c : Char} {n : Nat} (q : Nat) {text : List Char} :
    n < longestRunAfter c q text ↔
      List.replicate (n + 1) c <:+: List.replicate q c ++ text := by
  induction text generalizing q with
  | nil => rw [List.append_nil, row_replicate, longestRunAfter]
  | cons d text ih =>
      rw [longestRunAfter]
      split
      · next heq =>
          have hmove : List.replicate (q + 1) c ++ text = List.replicate q c ++ d :: text := by
            rw [heq, List.replicate_succ', List.append_assoc, List.singleton_append]
          rw [ih, hmove]
      · next hne =>
          have hd : d ∉ List.replicate (n + 1) c := fun hmem => hne (List.eq_of_mem_replicate hmem)
          rw [row_append_cons hd, row_replicate, lt_max_iff, ih]
          rfl

/-- A counter runs over exactly if some sign stands in a row once more than it can count. -/
theorem Writer.writes_iff {limit : Nat} {text : List Char} :
    (⟨some limit⟩ : Writer).writes text = true ↔
      ∀ sign ∈ ['"', '\''], ¬ List.replicate (limit + 1) sign <:+: text := by
  have hrun : ∀ sign, longestRun sign text ≤ limit ↔
      ¬ List.replicate (limit + 1) sign <:+: text :=
    fun sign => Nat.not_lt.symm.trans (not_congr (lt_longestRunAfter_iff 0))
  simp only [writes, Bool.and_eq_true, decide_eq_true_iff, hrun, List.forall_mem_cons,
    List.not_mem_nil, false_imp_iff, implies_true, and_true]

end ShardedModel.Toml
