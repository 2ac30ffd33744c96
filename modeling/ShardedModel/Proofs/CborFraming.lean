import Mathlib.Tactic.IntervalCases
import ShardedModel.Cbor.Reader
import ShardedModel.Cbor.Writer
import ShardedModel.Proofs.Text
import ShardedModel.Word

/-!
# Written items are read back, and delimit themselves

An item is written with its length in front, so a reader knows where it ends without looking
further. Two facts make this precise. `readItem_write` says that a written item is read back, and
that what stands behind it is left as it is. The lemmas on `Extends` say that a reader which has
succeeded would have read the same from any longer input, so no part of a written item short of the
whole can be read: the whole would have to leave a rest.

Reading is by steps, whose number the length of the input bounds. An item in a list costs two of
them, one for the list and one for itself, and takes at least one byte; this is where the factor in
`read` comes from.
-/

namespace ShardedModel.Cbor

/-! ## Bytes and numbers -/

@[simp] theorem length_toBigEndian (count n : Nat) : (toBigEndian count n).length = count := by
  induction count generalizing n with
  | zero => rfl
  | succ count ih => simp [toBigEndian, ih]

theorem bigEndian_toBigEndian (count n : Nat) :
    bigEndian (toBigEndian count n) = n % 256 ^ count := by
  induction count generalizing n with
  | zero => simp [toBigEndian, bigEndian, Nat.mod_one]
  | succ count ih =>
      have hlast : (n % 256).toUInt8.toNat = n % 256 := by simp
      have hfront : bigEndian (toBigEndian count (n / 256) ++ [(n % 256).toUInt8]) =
          bigEndian (toBigEndian count (n / 256)) * 256 + n % 256 := by
        rw [bigEndian, List.foldl_append, List.foldl_cons, List.foldl_nil, hlast]
        rfl
      rw [toBigEndian, hfront, ih, Nat.pow_succ, Nat.mul_comm (256 ^ count) 256, Nat.mod_mul]
      omega

theorem takeBytes_append (front rest : List UInt8) :
    takeBytes front.length (front ++ rest) = some (front, rest) := by
  induction front with
  | nil => rfl
  | cons b front ih => simp [takeBytes, ih]

theorem readNumber_append {count n : Nat} (h : n < 256 ^ count) (rest : List UInt8) :
    readNumber count (toBigEndian count n ++ rest) = some (n, rest) := by
  have htake := takeBytes_append (toBigEndian count n) rest
  rw [length_toBigEndian] at htake
  simp [readNumber, htake, bigEndian_toBigEndian, Nat.mod_eq_of_lt h]

/-! ## Heads -/

namespace Head

/-- The width in which a number was written matters only to floating-point numbers. -/
theorem ofParts_of_lt {type : Nat} (h : type < 7) (info : Nat) (argument : Option Nat) :
    ofParts type info argument = ofParts type 0 argument := by
  interval_cases type <;> cases argument <;> rfl

theorem read_cons {type info : Nat} (htype : type < 8) (hinfo : info < 32) (bs : List UInt8) :
    read ((type * 32 + info).toUInt8 :: bs) =
      (readArgument info bs).bind fun a => (ofParts type info a.1).map (·, a.2) := by
  have hbyte : (type * 32 + info).toUInt8.toNat = type * 32 + info := by
    simp
    omega
  have hinfo' : (type * 32 + info) % 32 = info := by omega
  have htype' : (type * 32 + info) / 32 = type := by omega
  simp only [read, hbyte, hinfo', htype']
  cases readArgument info bs with
  | none => rfl
  | some a => cases h : ofParts type info a.1 <;> simp [h]

theorem read_wide {type info count n : Nat} (htype : type < 8) (hinfo : info < 32)
    (hargument : ∀ bs, readArgument info bs = (readNumber count bs).map fun a => (some a.1, a.2))
    (hn : n < 256 ^ count) (rest : List UInt8) :
    read ((type * 32 + info).toUInt8 :: toBigEndian count n ++ rest) =
      (ofParts type info (some n)).map (·, rest) := by
  rw [List.cons_append, read_cons htype hinfo, hargument, readNumber_append hn]
  rfl

/-- The shortest head for a number is read as the type and the number. -/
theorem read_head {type n : Nat} (htype : type < 7) (hn : n < Word.limit) (rest : List UInt8) :
    read (head type n ++ rest) = (ofParts type 0 (some n)).map (·, rest) := by
  have htype' : type < 8 := by omega
  have hwide : ∀ {info count : Nat}, info < 32 →
      (∀ bs, readArgument info bs = (readNumber count bs).map fun a => (some a.1, a.2)) →
      n < 256 ^ count → read ((type * 32 + info).toUInt8 :: toBigEndian count n ++ rest) =
        (ofParts type 0 (some n)).map (·, rest) := by
    intro info count hinfo hargument h
    rw [read_wide htype' hinfo hargument h, ofParts_of_lt htype]
  rw [Word.limit] at hn
  simp only [head]
  split
  · next h =>
      rw [List.singleton_append, read_cons htype' (by omega), readArgument, if_pos h,
        ← ofParts_of_lt htype n]
      rfl
  · split
    · next h => exact hwide (by decide) (fun _ => rfl) h
    · split
      · next h => exact hwide (by decide) (fun _ => rfl) h
      · split
        · next h => exact hwide (by decide) (fun _ => rfl) h
        · exact hwide (by decide) (fun _ => rfl) hn

theorem read_half (bits : UInt16) (rest : List UInt8) :
    read (0xf9 :: toBigEndian 2 bits.toNat ++ rest) = some (.half bits, rest) := by
  have h := read_wide (by decide : 7 < 8) (by decide : 25 < 32) (fun _ => rfl)
    bits.toNat_lt rest
  simpa [ofParts] using h

theorem read_single (bits : UInt32) (rest : List UInt8) :
    read (0xfa :: toBigEndian 4 bits.toNat ++ rest) = some (.single bits, rest) := by
  have h := read_wide (by decide : 7 < 8) (by decide : 26 < 32) (fun _ => rfl)
    bits.toNat_lt rest
  simpa [ofParts] using h

theorem read_double (bits : UInt64) (rest : List UInt8) :
    read (0xfb :: toBigEndian 8 bits.toNat ++ rest) = some (.double bits, rest) := by
  have h := read_wide (by decide : 7 < 8) (by decide : 27 < 32) (fun _ => rfl)
    bits.toNat_lt rest
  simpa [ofParts] using h

end Head

/-! ## More input changes nothing

A reader that succeeds has seen all it needs. On a longer input, and with more steps to spend,
it reads the same and leaves the longer rest. -/

/-- What `x` has read is read by `y`, with `more` behind the rest. -/
def Extends {β : Type} (more : List UInt8) (x y : Option (β × List UInt8)) : Prop :=
  ∀ ⦃b rest⦄, x = some (b, rest) → y = some (b, rest ++ more)

namespace Extends

variable {β γ : Type} {more : List UInt8}

theorem none (y : Option (β × List UInt8)) : Extends more Option.none y := by
  intro b rest h
  cases h

theorem some (b : β) (rest : List UInt8) :
    Extends more (Option.some (b, rest)) (Option.some (b, rest ++ more)) := by
  intro b' rest' h
  cases h
  rfl

theorem bind {x y : Option (β × List UInt8)} {f g : β × List UInt8 → Option (γ × List UInt8)}
    (h : Extends more x y) (hf : ∀ b rest, Extends more (f (b, rest)) (g (b, rest ++ more))) :
    Extends more (x.bind f) (y.bind g) := by
  intro c rest hc
  obtain ⟨⟨b, between⟩, hx, hc⟩ := Option.bind_eq_some_iff.mp hc
  rw [h hx]
  exact hf b between hc

theorem bind_left {δ : Type} (o : Option δ) {f g : δ → Option (γ × List UInt8)}
    (hf : ∀ d, Extends more (f d) (g d)) : Extends more (o.bind f) (o.bind g) := by
  cases o with
  | none => exact .none _
  | some d => exact hf d

theorem ite {p : Prop} [Decidable p] {x y x' y' : Option (β × List UInt8)}
    (h : Extends more x y) (h' : Extends more x' y') :
    Extends more (if p then x else x') (if p then y else y') := by
  split
  · exact h
  · exact h'

end Extends

section

variable (more : List UInt8)

theorem takeBytes_extends (n : Nat) (bs : List UInt8) :
    Extends more (takeBytes n bs) (takeBytes n (bs ++ more)) := by
  induction n generalizing bs with
  | zero => exact .some _ _
  | succ n ih =>
      cases bs with
      | nil => exact .none _
      | cons b bs => exact (ih bs).bind fun _ _ => .some _ _

theorem readNumber_extends (count : Nat) (bs : List UInt8) :
    Extends more (readNumber count bs) (readNumber count (bs ++ more)) :=
  (takeBytes_extends more count bs).bind fun _ _ => .some _ _

theorem Head.readArgument_extends (info : Nat) (bs : List UInt8) :
    Extends more (readArgument info bs) (readArgument info (bs ++ more)) := by
  have hnumber : ∀ count, Extends more ((readNumber count bs).map fun a => (Option.some a.1, a.2))
      ((readNumber count (bs ++ more)).map fun a => (Option.some a.1, a.2)) := by
    intro count
    rw [Option.map_eq_bind, Option.map_eq_bind]
    exact (readNumber_extends more count bs).bind fun _ _ => .some _ _
  exact .ite (.some _ _) (.ite (hnumber 1) (.ite (hnumber 2) (.ite (hnumber 4)
    (.ite (hnumber 8) (.ite (.some _ _) (.none _))))))

theorem Head.read_extends (bs : List UInt8) : Extends more (read bs) (read (bs ++ more)) := by
  cases bs with
  | nil => exact .none _
  | cons b bs =>
      exact (readArgument_extends more _ bs).bind fun _ _ => .bind_left _ fun _ => .some _ _

theorem readPieces_extends (kind : StringKind) {n m : Nat} (hle : n ≤ m) (depth : Nat)
    (bs : List UInt8) :
    Extends more (readPieces kind n depth bs) (readPieces kind m depth (bs ++ more)) := by
  induction n generalizing m depth bs with
  | zero => exact .none _
  | succ n ih =>
      obtain ⟨m, rfl⟩ : ∃ m', m = m' + 1 := ⟨m - 1, by omega⟩
      have hle' : n ≤ m := by omega
      rw [readPieces, readPieces]
      refine (Head.read_extends more bs).bind fun h rest => ?_
      dsimp only
      split
      · exact .some _ _
      · exact ih hle' _ rest
      · refine .bind_left _ fun length? => ?_
        cases length? with
        | none => exact ih hle' _ rest
        | some length =>
            refine (takeBytes_extends more length rest).bind fun piece rest => ?_
            exact .ite (.none _) ((ih hle' depth rest).bind fun _ _ => .some _ _)

theorem readItem_nil (n : Nat) : readItem n [] = none := by
  cases n with
  | zero => rw [readItem]
  | succ n => rw [readItem, Head.read, Option.bind_eq_bind, Option.bind_none]

mutual

theorem readItem_extends {n m : Nat} (hle : n ≤ m) (bs : List UInt8) :
    Extends more (readItem n bs) (readItem m (bs ++ more)) := by
  cases n with
  | zero =>
      rw [readItem]
      exact .none _
  | succ n =>
      obtain ⟨m, rfl⟩ : ∃ m', m = m' + 1 := ⟨m - 1, by omega⟩
      have hle' : n ≤ m := by omega
      rw [readItem, readItem]
      refine (Head.read_extends more bs).bind fun h rest => ?_
      dsimp only
      split
      · exact .some _ _
      · exact .some _ _
      · exact (takeBytes_extends more _ rest).bind fun _ _ => .some _ _
      · exact (readPieces_extends more _ hle' 0 rest).bind fun _ _ => .some _ _
      · exact (takeBytes_extends more _ rest).bind fun _ _ => .bind_left _ fun _ => .some _ _
      · exact (readPieces_extends more _ hle' 0 rest).bind fun _ _ =>
          .bind_left _ fun _ => .some _ _
      · exact (readItems_extends hle' _ rest).bind fun _ _ => .some _ _
      · exact (readItemsToStop_extends hle' rest).bind fun _ _ => .some _ _
      · exact (readEntries_extends hle' _ rest).bind fun _ _ => .some _ _
      · exact (readEntriesToStop_extends hle' rest).bind fun _ _ => .some _ _
      · exact (readItem_extends hle' rest).bind fun _ _ => .some _ _
      · exact .ite (.some _ _) (.none _)
      · exact .some _ _
      · exact .some _ _
      · exact .some _ _
      · exact .none _
termination_by n

theorem readItems_extends {n m : Nat} (hle : n ≤ m) (count : Nat) (bs : List UInt8) :
    Extends more (readItems n count bs) (readItems m count (bs ++ more)) := by
  cases count with
  | zero =>
      rw [readItems, readItems]
      exact .some _ _
  | succ count =>
      cases n with
      | zero =>
          rw [readItems]
          exact .none _
      | succ n =>
          obtain ⟨m, rfl⟩ : ∃ m', m = m' + 1 := ⟨m - 1, by omega⟩
          have hle' : n ≤ m := by omega
          rw [readItems, readItems]
          exact (readItem_extends hle' bs).bind fun _ rest =>
            (readItems_extends hle' count rest).bind fun _ _ => .some _ _
termination_by n

theorem readItemsToStop_extends {n m : Nat} (hle : n ≤ m) (bs : List UInt8) :
    Extends more (readItemsToStop n bs) (readItemsToStop m (bs ++ more)) := by
  cases n with
  | zero =>
      rw [readItemsToStop]
      exact .none _
  | succ n =>
      obtain ⟨m, rfl⟩ : ∃ m', m = m' + 1 := ⟨m - 1, by omega⟩
      have hle' : n ≤ m := by omega
      cases bs with
      | nil =>
          rw [readItemsToStop, readItem_nil]
          · exact .none _
          · intro rest h
            cases h
      | cons b bs =>
          by_cases hb : b = 0xff
          · subst hb
            rw [List.cons_append, readItemsToStop, readItemsToStop]
            exact .some _ _
          · have hstop : ∀ front rest, b :: front = 0xff :: rest → False :=
              fun _ _ h => hb (List.cons.inj h).1
            rw [readItemsToStop, readItemsToStop]
            · exact (readItem_extends hle' (b :: bs)).bind fun _ rest =>
                (readItemsToStop_extends hle' rest).bind fun _ _ => .some _ _
            · exact hstop _
            · exact hstop _
termination_by n

theorem readEntries_extends {n m : Nat} (hle : n ≤ m) (count : Nat) (bs : List UInt8) :
    Extends more (readEntries n count bs) (readEntries m count (bs ++ more)) := by
  cases count with
  | zero =>
      rw [readEntries, readEntries]
      exact .some _ _
  | succ count =>
      cases n with
      | zero =>
          rw [readEntries]
          exact .none _
      | succ n =>
          obtain ⟨m, rfl⟩ : ∃ m', m = m' + 1 := ⟨m - 1, by omega⟩
          have hle' : n ≤ m := by omega
          rw [readEntries, readEntries]
          exact (readItem_extends hle' bs).bind fun _ rest =>
            (readItem_extends hle' rest).bind fun _ rest =>
              (readEntries_extends hle' count rest).bind fun _ _ => .some _ _
termination_by n

theorem readEntriesToStop_extends {n m : Nat} (hle : n ≤ m) (bs : List UInt8) :
    Extends more (readEntriesToStop n bs) (readEntriesToStop m (bs ++ more)) := by
  cases n with
  | zero =>
      rw [readEntriesToStop]
      exact .none _
  | succ n =>
      obtain ⟨m, rfl⟩ : ∃ m', m = m' + 1 := ⟨m - 1, by omega⟩
      have hle' : n ≤ m := by omega
      cases bs with
      | nil =>
          rw [readEntriesToStop, readItem_nil]
          · exact .none _
          · intro rest h
            cases h
      | cons b bs =>
          by_cases hb : b = 0xff
          · subst hb
            rw [List.cons_append, readEntriesToStop, readEntriesToStop]
            exact .some _ _
          · have hstop : ∀ front rest, b :: front = 0xff :: rest → False :=
              fun _ _ h => hb (List.cons.inj h).1
            rw [readEntriesToStop, readEntriesToStop]
            · exact (readItem_extends hle' (b :: bs)).bind fun _ rest =>
                (readItem_extends hle' rest).bind fun _ rest =>
                  (readEntriesToStop_extends hle' rest).bind fun _ _ => .some _ _
            · exact hstop _
            · exact hstop _
termination_by n

end

end

/-! ## What was written is read -/

namespace Item

mutual

/-- The item has a written form of its own: its numbers and lengths fit a word, and none of its
strings is in pieces. -/
def Fits : Item → Prop
  | .unsigned n | .negative n => n < Word.limit
  | .bytes content => content.length < Word.limit
  | .text content => content.utf8ByteSize < Word.limit
  | .bytesInPieces _ | .textInPieces _ => False
  | .array items => items.length < Word.limit ∧ FitsItems items
  | .map entries => entries.length < Word.limit ∧ FitsEntries entries
  | .tag number item => number < Word.limit ∧ item.Fits
  | .simple number => 20 ≤ number ∧ number ≤ 23
  | .half _ | .single _ | .double _ => True

def FitsItems : List Item → Prop
  | [] => True
  | item :: rest => item.Fits ∧ FitsItems rest

def FitsEntries : List (Item × Item) → Prop
  | [] => True
  | (key, value) :: rest => key.Fits ∧ value.Fits ∧ FitsEntries rest

end

theorem fitsItems_iff {items : List Item} : FitsItems items ↔ ∀ item ∈ items, item.Fits := by
  induction items with
  | nil => simp [FitsItems]
  | cons item rest ih => simp [FitsItems, ih]

theorem fitsEntries_iff {entries : List (Item × Item)} :
    FitsEntries entries ↔ ∀ e ∈ entries, e.1.Fits ∧ e.2.Fits := by
  induction entries with
  | nil => simp [FitsEntries]
  | cons e rest ih => simp [FitsEntries, ih, and_assoc]

theorem length_head_pos (type n : Nat) : 0 < (head type n).length := by
  simp only [head]
  repeat' split
  all_goals simp

theorem length_write_pos (item : Item) : 0 < item.write.length := by
  cases item <;> simp [write, length_head_pos]

end Item

open Item

theorem decodeText_toUTF8 (content : String) : decodeText content.toUTF8.toList = some content :=
  fromUTF8?_toUTF8 content

mutual

theorem readItem_write (item : Item) (hfits : item.Fits) {n : Nat}
    (hn : 2 * item.write.length ≤ n) (rest : List UInt8) :
    readItem n (item.write ++ rest) = some (item, rest) := by
  have hpos := length_write_pos item
  obtain ⟨n, rfl⟩ : ∃ n', n = n' + 1 := ⟨n - 1, by omega⟩
  rw [readItem]
  cases item with
  | unsigned k | negative k =>
      rw [write, Head.read_head (by decide) hfits]
      rfl
  | bytes content =>
      rw [write, List.append_assoc, Head.read_head (by decide) hfits]
      simp [Head.ofParts, takeBytes_append]
  | text content =>
      rw [write, List.append_assoc, Head.read_head (by decide) hfits, ← length_toUTF8]
      simp only [Head.ofParts, Option.map_some, Option.bind_eq_bind, Option.bind_some,
        takeBytes_append, decodeText_toUTF8]
  | bytesInPieces content | textInPieces content => exact hfits.elim
  | array items =>
      obtain ⟨hlength, hitems⟩ := hfits
      have hhead := length_head_pos 4 items.length
      rw [write, List.length_append] at hn
      rw [write, List.append_assoc, Head.read_head (by decide) hlength]
      simp [Head.ofParts, readItems_writeItems items hitems (n := n) (by omega)]
  | map entries =>
      obtain ⟨hlength, hentries⟩ := hfits
      have hhead := length_head_pos 5 entries.length
      rw [write, List.length_append] at hn
      rw [write, List.append_assoc, Head.read_head (by decide) hlength]
      simp [Head.ofParts, readEntries_writeEntries entries hentries (n := n) (by omega)]
  | tag number item =>
      obtain ⟨hnumber, hitem⟩ := hfits
      have hhead := length_head_pos 6 number
      rw [write, List.length_append] at hn
      rw [write, List.append_assoc, Head.read_head (by decide) hnumber]
      simp [Head.ofParts, readItem_write item hitem (n := n) (by omega)]
  | simple number =>
      obtain ⟨hlow, hhigh⟩ := hfits
      have hsmall : number < 24 := by omega
      have hinfo : number ≠ 25 ∧ number ≠ 26 ∧ number ≠ 27 := by omega
      rw [write, head, if_pos hsmall, List.singleton_append,
        Head.read_cons (by decide) (by omega), Head.readArgument, if_pos hsmall]
      simp [Head.ofParts, hinfo, hlow, hhigh]
  | half bits =>
      rw [write, Head.read_half]
      rfl
  | single bits =>
      rw [write, Head.read_single]
      rfl
  | double bits =>
      rw [write, Head.read_double]
      rfl

theorem readItems_writeItems (items : List Item) (hfits : FitsItems items) {n : Nat}
    (hn : 2 * (writeItems items).length + 1 ≤ n) (rest : List UInt8) :
    readItems n items.length (writeItems items ++ rest) = some (items, rest) := by
  cases items with
  | nil => rw [List.length_nil, readItems, writeItems, List.nil_append]
  | cons item items =>
      obtain ⟨hitem, hitems⟩ := hfits
      have hpos := length_write_pos item
      rw [writeItems, List.length_append] at hn
      obtain ⟨n, rfl⟩ : ∃ n', n = n' + 1 := ⟨n - 1, by omega⟩
      rw [writeItems, List.length_cons, readItems, List.append_assoc,
        readItem_write item hitem (by omega), Option.bind_eq_bind, Option.bind_some]
      dsimp only
      rw [readItems_writeItems items hitems (by omega)]
      rfl

theorem readEntries_writeEntries (entries : List (Item × Item)) (hfits : FitsEntries entries)
    {n : Nat} (hn : 2 * (writeEntries entries).length + 1 ≤ n) (rest : List UInt8) :
    readEntries n entries.length (writeEntries entries ++ rest) = some (entries, rest) := by
  cases entries with
  | nil => rw [List.length_nil, readEntries, writeEntries, List.nil_append]
  | cons entry entries =>
      obtain ⟨key, value⟩ := entry
      obtain ⟨hkey, hvalue, hentries⟩ := hfits
      have hpos := length_write_pos key
      rw [writeEntries, List.length_append, List.length_append] at hn
      obtain ⟨n, rfl⟩ : ∃ n', n = n' + 1 := ⟨n - 1, by omega⟩
      rw [writeEntries, List.length_cons, readEntries, List.append_assoc, List.append_assoc,
        readItem_write key hkey (by omega), Option.bind_eq_bind, Option.bind_some]
      dsimp only
      rw [readItem_write value hvalue (by omega), Option.bind_eq_bind, Option.bind_some,
        readEntries_writeEntries entries hentries (by omega)]
      rfl

end

/-- A written item is read back, whatever follows it. -/
theorem read_write {item : Item} (hfits : item.Fits) (rest : List UInt8) :
    read (item.write ++ rest) = some (item, rest) := by
  rw [read]
  exact readItem_write item hfits (by rw [List.length_append]; omega) rest

/-- No strict prefix of a written item can be read. -/
theorem read_eq_none_of_part {item : Item} (hfits : item.Fits) {front : List UInt8}
    (hpart : front <+: item.write) (hne : front ≠ item.write) : read front = none := by
  obtain ⟨more, hmore⟩ := hpart
  have hpos : more ≠ [] := by
    rintro rfl
    exact hne (by rw [← hmore, List.append_nil])
  cases hread : read front with
  | none => rfl
  | some result =>
      obtain ⟨other, rest⟩ := result
      have hlonger : readItem (2 * item.write.length + 2) (front ++ more) =
          some (other, rest ++ more) :=
        readItem_extends more (by rw [← hmore, List.length_append]; omega) front hread
      have hwhole : readItem (2 * item.write.length + 2) item.write = some (item, []) := by
        have h := readItem_write item hfits (n := 2 * item.write.length + 2) (by omega) []
        rwa [List.append_nil] at h
      rw [hmore, hwhole] at hlonger
      have hnil : [] = rest ++ more := (Prod.mk.inj (Option.some.inj hlonger)).2
      exact absurd (List.append_eq_nil_iff.mp hnil.symm).2 hpos

end ShardedModel.Cbor
