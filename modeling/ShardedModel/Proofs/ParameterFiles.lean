import ShardedModel.Parameters.Source
import ShardedModel.Proofs.CborFraming
import ShardedModel.Proofs.FileReplacement
import ShardedModel.Proofs.ZeroSum

/-!
# Parameter files are read as they were written

Parameters are written as one item: maps of named fields around lists of numbers. Reading looks the
fields up by name, so it gives back what was written as long as no two fields of a map share a
name, and a number comes back with the same bits whichever of the two formats it was written in.
Only a NaN may lose some of its bits.

Since the item delimits itself, bytes after it change nothing, and a file that was cut off holds no
parameters at all.
-/

namespace ShardedModel

open Outcome

open Cbor (Item)
open Float.Model (Format)
open Float.Model.UnpackedFloat (unpack unpackExponent unpackMantissa)

theorem mapM_map_eq_some {α β γ : Type} {f : α → β} {g : β → Option γ} {h : α → γ} {l : List α}
    (hg : ∀ a ∈ l, g (f a) = some (h a)) : (l.map f).mapM g = some (l.map h) := by
  induction l with
  | nil => rfl
  | cons a l ih =>
      rw [List.map_cons, List.mapM_cons, hg a List.mem_cons_self,
        ih fun b hb => hg b (List.mem_cons_of_mem _ hb)]
      rfl

/-! ## Numbers -/

namespace Binary32

/-- Beyond the pattern of infinity there are only NaNs. -/
theorem unpack_of_lt {b : BitVec Format.binary32.numBits}
    (h : infinityBits < b.toNat % signBit) : unpack .binary32 b = .notANumber := by
  rw [infinityBits, signBit] at h
  have hexponent := toNat_unpackExponent b
  have hmantissa := toNat_unpackMantissa b
  have hones : unpackExponent b = -1#8 := by
    refine BitVec.eq_of_toNat_eq ?_
    rw [hexponent]
    change _ = 255
    omega
  have hrest : unpackMantissa b ≠ 0#23 := by
    intro hzero
    rw [hzero] at hmantissa
    change 0 = _ at hmantissa
    omega
  rw [unpack]
  dsimp only
  rw [if_pos hones, if_neg hrest]

theorem quieted_of_not_nan {x : Binary32} (h : x.isNaN = false) : x.quieted = x := by
  rw [quieted, if_neg]
  exact fun hnan => unpacked_ne h (unpack_of_lt hnan)

end Binary32

namespace Parameters

theorem number?_numberItem {x : Binary32} (h : x.isNaN = false) :
    number? (numberItem x) = some x := by
  rw [numberItem, Binary32.quieted_of_not_nan h, Binary32.toHalf?]
  split
  · next half hhalf =>
      split at hhalf
      · next hexact =>
          obtain rfl := Option.some.inj hhalf
          exact congrArg some hexact
      · cases hhalf
  · exact congrArg some (Binary32.quieted_of_not_nan h)

/-! ## Fields -/

theorem filter_key {fields : List (String × Item)} (hnodup : (fields.map (·.1)).Nodup)
    {f : String × Item} (hf : f ∈ fields) : fields.filter (·.1 = f.1) = [f] := by
  induction fields with
  | nil => cases hf
  | cons g fields ih =>
      rw [List.map_cons, List.nodup_cons] at hnodup
      rcases List.mem_cons.mp hf with rfl | hf
      · have hnone : fields.filter (·.1 = f.1) = [] := by
          simp only [List.filter_eq_nil_iff, decide_eq_true_eq]
          exact fun g hg hkey => hnodup.1 (hkey ▸ List.mem_map_of_mem hg)
        rw [List.filter_cons_of_pos (by simp), hnone]
      · have hne : g.1 ≠ f.1 := fun hkey => hnodup.1 (hkey ▸ List.mem_map_of_mem hf)
        rw [List.filter_cons_of_neg (by simpa using hne), ih hnodup.2 hf]

theorem field?_map {fields : List (String × Item)} (hnodup : (fields.map (·.1)).Nodup)
    {f : String × Item} (hf : f ∈ fields) :
    field? (fields.map fun f => (f.1.toUTF8.toList, f.2)) f.1 = some f.2 := by
  have hsame : (fields.map fun g => (g.1.toUTF8.toList, g.2)).filter
      (·.1 = f.1.toUTF8.toList) = [(f.1.toUTF8.toList, f.2)] := by
    rw [List.filter_map]
    have hkeys : fields.filter ((fun e : List UInt8 × Item => decide (e.1 = f.1.toUTF8.toList)) ∘
        fun g => (g.1.toUTF8.toList, g.2)) = fields.filter (·.1 = f.1) := by
      refine List.filter_congr fun g _ => ?_
      exact decide_eq_decide.mpr
        ⟨toUTF8_injective, congrArg fun name : String => name.toUTF8.toList⟩
    rw [hkeys, filter_key hnodup hf]
    rfl
  rw [field?, hsame]

theorem record?_eq (names : List String) (depth : Nat) (entries : List (Item × Item)) :
    record? names depth (.map entries) =
      Option.bind (entries.mapM fun e => (name? e.1).bind fun name => some (name, e.2))
        fun fields : List (List UInt8 × Item) =>
          if (fields.filter fun e => !(names.map (·.toUTF8.toList)).contains e.1).all
              fun e => e.2.integersFit && e.2.nesting + depth ≤ nestingLimit then
            names.mapM (field? fields)
          else none :=
  rfl

theorem record?_map {fields : List (String × Item)} (hnodup : (fields.map (·.1)).Nodup)
    (hshort : ∀ f ∈ fields, f.1.utf8ByteSize ≤ nameLimit) (depth : Nat) :
    record? (fields.map (·.1)) depth (.map (fields.map fun f => (.text f.1, f.2))) =
      some (fields.map (·.2)) := by
  have hnames : (fields.map fun f => (Item.text f.1, f.2)).mapM (fun e =>
      (name? e.1).bind fun name => some (name, e.2)) =
        some (fields.map fun f => (f.1.toUTF8.toList, f.2)) := by
    refine mapM_map_eq_some fun f hf => ?_
    have hlength : f.1.toUTF8.toList.length ≤ nameLimit := by
      rw [length_toUTF8]
      exact hshort f hf
    have hname : name? (.text f.1) = some f.1.toUTF8.toList := by
      show (some f.1.toUTF8.toList).filter (·.length ≤ nameLimit) = _
      rw [Option.filter_some, if_pos (decide_eq_true hlength)]
    rw [hname, Option.bind_some]
  have hknown : (fields.map fun f => (f.1.toUTF8.toList, f.2)).filter (fun e =>
      !((fields.map (·.1)).map (·.toUTF8.toList)).contains e.1) = [] := by
    simp only [List.filter_eq_nil_iff, List.mem_map]
    rintro _ ⟨f, hf, rfl⟩
    have hmem : ((fields.map (·.1)).map (·.toUTF8.toList)).contains f.1.toUTF8.toList = true :=
      List.contains_iff_mem.mpr (List.mem_map_of_mem (List.mem_map_of_mem hf))
    simp only [hmem, Bool.not_true, Bool.false_eq_true, not_false_eq_true]
  rw [record?_eq, hnames, Option.bind_some, hknown, List.all_nil, if_pos rfl]
  exact mapM_map_eq_some fun f hf => field?_map hnodup hf

/-- A map with different names is read as the values of its fields. -/
theorem record?_zip {names : List String} (hnodup : names.Nodup)
    (hshort : ∀ name ∈ names, name.utf8ByteSize ≤ nameLimit) (values : List Item)
    (hlength : values.length = names.length) (depth : Nat) :
    record? names depth (.map ((names.map Item.text).zip values)) = some values := by
  have hnames : (names.zip values).map (·.1) = names := List.map_fst_zip (by omega)
  have hvalues : (names.zip values).map (·.2) = values := List.map_snd_zip (by omega)
  have hentries : (names.map Item.text).zip values =
      (names.zip values).map fun f => (.text f.1, f.2) := List.zip_map_left ..
  have hrecord := record?_map (hnames.symm ▸ hnodup) (fun f hf => hshort f.1 ?_) depth
  · rwa [← hentries, hnames, hvalues] at hrecord
  · exact (List.of_mem_zip hf).1

/-! ## Parameters as items -/

/-- All matrices among the parameters. -/
def matrices (p : Parameters Binary32) : List (Tensor2 Binary32) :=
  p.shards.map (·.table) ++ [p.projection.stageA, p.projection.stageB]

/-- No entry is a NaN. -/
def FreeOfNaN (p : Parameters Binary32) : Prop :=
  ∀ t ∈ p.matrices, ∀ x ∈ t.data, x.isNaN = false

/-- Ids, dimensions and lengths are words. -/
structure InWords (p : Parameters Binary32) : Prop where
  shards : p.shards.length < Word.limit
  owners : ∀ s ∈ p.shards, s.shardId < Word.limit
  matrices : ∀ t ∈ p.matrices,
    t.data.size < Word.limit ∧ t.rows < Word.limit ∧ t.cols < Word.limit

theorem matrix?_matrixItem {t : Tensor2 Binary32} (h : ∀ x ∈ t.data, x.isNaN = false)
    (depth : Nat) : matrix? depth (matrixItem t) = some t := by
  have hrecord : record? ["data", "rows", "cols"] depth (matrixItem t) = some _ :=
    record?_zip (by decide) (by decide)
      [.array (t.data.toList.map numberItem), .unsigned t.rows, .unsigned t.cols] rfl depth
  have hnumbers : numbers? (.array (t.data.toList.map numberItem)) = some t.data.toList := by
    have hmap := mapM_map_eq_some (f := numberItem) (g := number?) (h := id) fun x hx =>
      number?_numberItem (h x (Array.mem_toList_iff.mp hx))
    rwa [List.map_id] at hmap
  rw [matrix?, hrecord]
  simp [hnumbers, count?]

theorem slice?_sliceItem {s : TableSlice Binary32} (h : ∀ x ∈ s.table.data, x.isNaN = false)
    (depth : Nat) : slice? depth (sliceItem s) = some s := by
  have hrecord : record? ["shard_id", "table"] depth (sliceItem s) = some _ :=
    record?_zip (by decide) (by decide) [.unsigned s.shardId, matrixItem s.table] rfl depth
  rw [slice?, hrecord]
  simp [matrix?_matrixItem h, count?]

theorem projection?_projectionItem {p : Projection Binary32}
    (hA : ∀ x ∈ p.stageA.data, x.isNaN = false) (hB : ∀ x ∈ p.stageB.data, x.isNaN = false)
    (depth : Nat) : projection? depth (projectionItem p) = some p := by
  have hrecord : record? ["stage_a", "stage_b"] depth (projectionItem p) = some _ :=
    record?_zip (by decide) (by decide) [matrixItem p.stageA, matrixItem p.stageB] rfl depth
  rw [projection?, hrecord]
  simp [matrix?_matrixItem hA, matrix?_matrixItem hB]

theorem ofItem?_toItem {p : Parameters Binary32} (h : p.FreeOfNaN) : ofItem? p.toItem = some p := by
  have hrecord : record? ["shards", "projection"] 1 p.toItem = some _ :=
    record?_zip (by decide) (by decide)
      [.array (p.shards.map sliceItem), projectionItem p.projection] rfl 1
  have hslices : slices? 2 (.array (p.shards.map sliceItem)) = some p.shards := by
    have hmap := mapM_map_eq_some (f := sliceItem) (g := slice? 3) (h := id) fun s hs =>
      slice?_sliceItem (h s.table (List.mem_append_left _ (List.mem_map_of_mem hs))) 3
    rwa [List.map_id] at hmap
  have hprojection : projection? 2 (projectionItem p.projection) = some p.projection :=
    projection?_projectionItem (h _ (by simp [matrices])) (h _ (by simp [matrices])) 2
  rw [ofItem?, hrecord]
  simp [hslices, hprojection]

/-! ## Parameters as bytes -/

theorem fits_numberItem (x : Binary32) : (numberItem x).Fits := by
  rw [numberItem]
  split <;> trivial

theorem fits_array {β : Type} {f : β → Item} {l : List β} (hlength : l.length < Word.limit)
    (hf : ∀ b ∈ l, (f b).Fits) : (Item.array (l.map f)).Fits := by
  refine ⟨by rwa [List.length_map], Item.fitsItems_iff.mpr fun item hitem => ?_⟩
  obtain ⟨b, hb, rfl⟩ := List.mem_map.mp hitem
  exact hf b hb

theorem fits_zip (names : List String) (hfew : names.length < Word.limit)
    (hshort : ∀ name ∈ names, name.utf8ByteSize ≤ nameLimit) {values : List Item}
    (hvalues : ∀ value ∈ values, value.Fits) :
    (Item.map ((names.map Item.text).zip values)).Fits := by
  refine ⟨?_, Item.fitsEntries_iff.mpr fun e he => ?_⟩
  · rw [List.length_zip, List.length_map]
    omega
  · obtain ⟨hkey, hvalue⟩ := List.of_mem_zip he
    obtain ⟨name, hname, hkey⟩ := List.mem_map.mp hkey
    rw [← hkey]
    exact ⟨Nat.lt_of_le_of_lt (hshort name hname) (by decide), hvalues e.2 hvalue⟩

theorem fits_matrixItem {t : Tensor2 Binary32}
    (h : t.data.size < Word.limit ∧ t.rows < Word.limit ∧ t.cols < Word.limit) :
    (matrixItem t).Fits := by
  have hdata : (Item.array (t.data.toList.map numberItem)).Fits :=
    fits_array h.1 fun x _ => fits_numberItem x
  have hfields : ∀ value ∈ [Item.array (t.data.toList.map numberItem), .unsigned t.rows,
      .unsigned t.cols], value.Fits := by
    simpa using ⟨hdata, h.2⟩
  exact fits_zip ["data", "rows", "cols"] (by decide) (by decide) hfields

theorem fits_toItem {p : Parameters Binary32} (h : p.InWords) : p.toItem.Fits := by
  have hslice : ∀ s ∈ p.shards, (sliceItem s).Fits := by
    intro s hs
    have htable : (matrixItem s.table).Fits :=
      fits_matrixItem (h.matrices s.table (List.mem_append_left _ (List.mem_map_of_mem hs)))
    have hfields : ∀ value ∈ [Item.unsigned s.shardId, matrixItem s.table], value.Fits := by
      simpa using ⟨h.owners s hs, htable⟩
    exact fits_zip ["shard_id", "table"] (by decide) (by decide) hfields
  have hprojection : (projectionItem p.projection).Fits := by
    have hfields : ∀ value ∈ [p.projection.stageA, p.projection.stageB].map matrixItem,
        value.Fits := by
      intro value hvalue
      obtain ⟨t, ht, rfl⟩ := List.mem_map.mp hvalue
      exact fits_matrixItem (h.matrices t (List.mem_append_right _ ht))
    exact fits_zip ["stage_a", "stage_b"] (by decide) (by decide) hfields
  have hfields : ∀ value ∈ [Item.array (p.shards.map sliceItem), projectionItem p.projection],
      value.Fits := by
    simpa using ⟨fits_array h.shards hslice, hprojection⟩
  exact fits_zip ["shards", "projection"] (by decide) (by decide) hfields

theorem decode_encode {p : Parameters Binary32} (hwords : p.InWords) (hnan : p.FreeOfNaN)
    (rest : List UInt8) : decode (p.encode ++ rest) = .ok p := by
  rw [decode, encode, Cbor.read_write (fits_toItem hwords)]
  simp [ofItem?_toItem hnan]

theorem decode_of_part {p : Parameters Binary32} (hwords : p.InWords) {front : List UInt8}
    (hpart : front <+: p.encode) (hne : front ≠ p.encode) :
    decode front = .error (.format .parameters) := by
  rw [decode, Cbor.read_eq_none_of_part (fits_toItem hwords) hpart hne]
  rfl

/-- The bytes of parameters give the parameters back bit for bit, whatever follows them, and no
strict prefix of them gives any. So parameters that were saved are loaded as they were, if the plan
accepts them. -/
theorem encode_lossless {p : Parameters Binary32} (hwords : p.InWords) (hnan : p.FreeOfNaN) :
    (∀ rest, decode (p.encode ++ rest) = .ok p) ∧
    (∀ front, front <+: p.encode → front ≠ p.encode →
      decode front = .error (.format .parameters)) ∧
    (∀ {path : String} {d ready : Disk} {draft target : List String},
      d.Takes path "cbor.tmp" ready draft target →
      ∃ d', (p.save path : ExceptT Failure (StateM Disk) Unit).run.run d = (.ok (), d') ∧
        ∀ plan, ((ParameterSource.file path).load plan :
          ExceptT Failure (StateM Disk) _).run.run d' =
            ((p.validate plan).map fun _ => p, d')) := by
  refine ⟨decode_encode hwords hnan, fun front => decode_of_part hwords, ?_⟩
  intro path d ready draft target htakes
  refine ⟨_, htakes.run_ok p.encode, fun plan => ?_⟩
  have hdecode := decode_encode hwords hnan []
  rw [List.append_nil] at hdecode
  exact run_checked (htakes.read_replaced p.encode) hdecode

/-- Parameters for a shard of two ids, with dimensions of every width and with numbers at the edges
of both formats: a zero with a sign, the least number, infinities, the largest and the least
half. -/
def edges : Parameters Binary32 :=
  ⟨[⟨0, ⟨#[⟨0x80000000⟩, ⟨0x00000001⟩, ⟨0x7f800000⟩, ⟨0xff800000⟩], 2, 18446744073709551615⟩⟩],
    ⟨⟨#[⟨0x477fe000⟩, ⟨0x33800000⟩, ⟨0x7f7fffff⟩], 18446744073709551615, 256⟩,
      ⟨#[], 65536, 4294967296⟩⟩⟩

theorem encode_lossless_edges :
    edges.InWords ∧ edges.FreeOfNaN ∧ decode (edges.encode ++ edges.encode) = .ok edges ∧
    decode edges.encode.dropLast = .error (.format .parameters) ∧
    ∃ d', (edges.save "m/p.cbor" : ExceptT Failure (StateM Disk) Unit).run.run (.bare []) =
        (.ok (), d') ∧
      ((ParameterSource.file "m/p.cbor").load ⟨2, [⟨0, 0, 2, 1, 2⟩]⟩ :
        ExceptT Failure (StateM Disk) _).run.run d' = (.ok edges, d') := by
  have hwords : edges.InWords := ⟨by decide, by decide, by decide⟩
  have hnan : edges.FreeOfNaN := by
    unfold FreeOfNaN
    decide
  have htakes : (Disk.bare []).Takes "m/p.cbor" "cbor.tmp" ((Disk.bare []).put ["m"] .directory)
      ["m", "p.cbor.tmp"] ["m", "p.cbor"] := ⟨rfl, rfl, by decide, rfl, by decide⟩
  obtain ⟨hrest, hpart, hdisk⟩ := encode_lossless hwords hnan
  obtain ⟨d', hsave, hload⟩ := hdisk htakes
  have hfront := List.dropLast_prefix edges.encode
  refine ⟨hwords, hnan, hrest _, hpart _ hfront ?_, d', hsave, hload _⟩
  exact fun hsame => absurd (congrArg List.length hsame) (by decide +kernel)

end Parameters

end ShardedModel
